import NetPool.Lib.Ledger
import NetPool.Lib.List
import NetPool.Lib.System

namespace NetPool
namespace ThreadPool

inductive Status
  | init
  | started
  | stopping
  deriving DecidableEq

-- Where a worker is in CWorker::Run. Without a thread it is `created`.
inductive WorkerPc
  | created
  | init
  | test
  | get
  | wait
  | took (task : Nat)
  | busy (task : Nat)
  | run (task : Nat)
  | del (task : Nat)
  | stamp
  | idle
  | exit
  | done
  deriving DecidableEq

-- `running` is the flag of the thread that Join waits for.
structure Worker where
  status     : Status
  isBusy     : Bool
  updateTime : Nat
  running    : Bool
  pc         : WorkerPc
  deriving DecidableEq

-- Where a call of Execute is, with the values it has read.
inductive CallPc
  | test
  | size
  | count (taskCnt : Nat)
  | scan (taskCnt threadCnt : Nat) (rest : List Nat)
  | grow (threadCnt : Nat)
  | insert
  | create (worker : Nat)
  | mark (worker : Nat)
  | push
  | notify
  | returned (answer : Bool)
  deriving DecidableEq

inductive AgedPc
  | scan
  | busy (worker : Nat)
  | time (worker : Nat)
  | tell (worker : Nat)
  | erase (worker : Nat)
  | join

-- A pass of aged_worker, which holds the pool lock.
structure Aged where
  agetime : Nat
  pc      : AgedPc
  rest    : List Nat
  trash   : List Nat

inductive TermPc
  | none
  | quick (quickFree : Bool)
  | enable
  | wait
  | min
  | max
  | tell
  | status (worker : Nat)
  | drop (worker : Nat)
  | join
  | returned
  deriving DecidableEq

end ThreadPool

open ThreadPool in
-- Workers are numbered as they are made; `pool` is m_ThreadPool in the order of its walks. The task
-- of a call of Execute has the number of the call. Noted for the statements: the tasks that were
-- pushed, which worker took them, those taken with m_bQuickFree set, those that were run or not,
-- and those that were deleted.
structure ThreadPool where
  workers          : List Worker
  pool             : List Nat
  tasks            : List Nat
  calls            : List CallPc
  aged             : Option Aged
  term             : TermPc
  trash            : List Nat
  quickFree        : Bool
  enableInsertTask : Bool
  minThreads       : Nat
  maxThreads       : Nat
  pushed           : List Nat
  taken            : List (Nat × Nat)
  quickTaken       : List Nat
  ran              : List Nat
  skipped          : List Nat
  deleted          : List Nat

namespace ThreadPool

variable (s : ThreadPool)

def isBusy (w : Nat) : Bool :=
  s.workers[w]?.any Worker.isBusy

def running (w : Nat) : Bool :=
  s.workers[w]?.any Worker.running

def updateTime (w : Nat) : Nat :=
  (s.workers[w]?.map Worker.updateTime).getD 0

-- TellExit. The broadcast wakes workers that may wake at any time.
def tellExit (w : Nat) : ThreadPool :=
  { s with workers := s.workers.modify w fun x => { x with status := .stopping } }

-- One step of worker `w`. It reads the clock as `now`.
def work (w now : Nat) : Option ThreadPool :=
  match s.workers[w]? with
  | none   => none
  | some x =>
    let put x := { s with workers := s.workers.set w x }
    match x.pc with
    | .created => none
    | .init    => some (put { x with
        status := .started
        pc     := .test })
    | .test    => some (put { x with pc := if x.status = .started then .get else .exit })
    | .get     =>
      match s.tasks with
      | []            => some (put { x with pc := .wait })
      | task :: tasks => some { put { x with pc := .took task } with
          tasks      := tasks
          taken      := s.taken ++ [(task, w)]
          quickTaken := if s.quickFree then s.quickTaken ++ [task] else s.quickTaken }
    | .wait      => some (put { x with pc := .test })
    | .took task => some (put { x with
        isBusy := true
        pc     := .busy task })
    | .busy task => some (
        if s.quickFree then
          { put { x with pc := .del task } with skipped := s.skipped ++ [task] }
        else
          { put { x with pc := .run task } with ran := s.ran ++ [task] })
    | .run task  => some (put { x with pc := .del task })
    | .del task  => some { put { x with pc := .stamp } with deleted := s.deleted ++ [task] }
    | .stamp     => some (put { x with
        updateTime := now
        pc         := .idle })
    | .idle      => some (put { x with
        isBusy := false
        pc     := .test })
    | .exit      => some (put { x with
        running := false
        pc      := .done })
    | .done      => none

-- The insertion waits for a pass of aged_worker. `pos` is where the set puts the worker, and `now`
-- the time its making reads.
def insert (t pos now : Nat) : Option ThreadPool :=
  if s.aged.isNone ∧ pos ≤ s.pool.length then
    let w := s.workers.length
    some { s with
      workers := s.workers ++ [⟨.init, false, now, false, .created⟩]
      pool    := s.pool.insertIdx pos w
      calls   := s.calls.set t (.create w) }
  else
    none

-- One step of call `t` of Execute. A null task is no task.
def call (t pos now : Nat) : Option ThreadPool :=
  let goto pc := { s with calls := s.calls.set t pc }
  match s.calls[t]? with
  | none                 => none
  | some .test           => some (goto (if s.enableInsertTask then .size else .returned false))
  | some .size           => some (goto (.count s.tasks.length))
  | some (.count tasks)  => some (goto (.scan tasks s.pool.length s.pool))
  -- IsAllWorkerBusy walks over the set as it is when the walk begins.
  | some (.scan _ threads []) => some (goto (.grow threads))
  | some (.scan tasks threads (w :: rest)) =>
    some (goto (
      if s.isBusy w then .scan tasks threads rest
      else if 0 < tasks then .grow threads
      else .push))
  | some (.grow threads) => some (goto (if threads < s.maxThreads then .insert else .push))
  | some .insert         => s.insert t pos now
  -- pthread_create for the worker that the call has made, and the flag that Start sets after it.
  | some (.create w)     => some { goto (.mark w) with
      workers := s.workers.modify w fun x =>
        { x with pc := if x.pc = .created then .init else x.pc } }
  | some (.mark w)       => some { goto .push with
      workers := s.workers.modify w fun x => { x with running := true } }
  | some .push           => some { goto .notify with
      tasks  := s.tasks ++ [t]
      pushed := s.pushed ++ [t] }
  | some .notify         => some (goto (.returned true))
  | some (.returned _)   => none

-- A pass of aged_worker begins with the lock.
def age (agetime : Nat) : Option ThreadPool :=
  if s.aged.isNone then some { s with aged := some ⟨agetime, .scan, s.pool, []⟩ } else none

def agedStep : Option ThreadPool :=
  match s.aged with
  | none   => none
  | some a =>
    let goto pc := { s with aged := some { a with pc := pc } }
    match a.pc with
    | .scan    =>
      match a.rest with
      | []        => some (goto .join)
      | w :: rest =>
        if s.pool.length ≤ s.minThreads then some (goto .join)
        else some { s with aged := some { a with
          pc   := .busy w
          rest := rest } }
    | .busy w  => some (goto (if s.isBusy w then .scan else .time w))
    | .time w  => some (goto (if s.updateTime w ≤ a.agetime then .tell w else .scan))
    | .tell w  => some { s.tellExit w with aged := some { a with pc := .erase w } }
    | .erase w => some { s with
        pool := s.pool.erase w
        aged := some { a with
          pc    := .scan
          trash := a.trash ++ [w] } }
    | .join    =>
      match a.trash with
      | []         => some { s with aged := none }
      | w :: trash =>
        if s.running w then none else some { s with aged := some { a with trash := trash } }

def terminate (quickFree : Bool) : Option ThreadPool :=
  if s.term = .none then some { s with term := .quick quickFree } else none

-- The writes of m_bRun and m_maxPendingTasks, which nothing reads, are left out.
def termStep : Option ThreadPool :=
  match s.term with
  | .none     => none
  | .quick b  => some { s with
      quickFree := b
      term      := .enable }
  | .enable   => some { s with
      enableInsertTask := false
      term             := .wait }
  | .wait     => some { s with term := if s.tasks.length = 0 then .min else .wait }
  | .min      => some { s with
      minThreads := 0
      term       := .max }
  | .max      => some { s with
      maxThreads := 0
      term       := .tell }
  -- TellAllWorkerExit, without the lock.
  | .tell     =>
    match s.pool with
    | []     => some { s with term := .join }
    | w :: _ => some { s with term := .status w }
  | .status w => some { s.tellExit w with term := .drop w }
  | .drop w   => some { s with
      pool  := s.pool.erase w
      trash := s.trash ++ [w]
      term  := .tell }
  | .join     =>
    match s.trash with
    | []         => some { s with term := .returned }
    | w :: trash => if s.running w then none else some { s with trash := trash }
  | .returned => none

inductive Act
  | execute
  | call (t pos now : Nat)
  | work (w now : Nat)
  | age (agetime : Nat)
  | agedStep
  | terminate (quickFree : Bool)
  | termStep

def step : Act → Option ThreadPool
  | .execute        => some { s with calls := s.calls ++ [.test] }
  | .call t pos now => s.call t pos now
  | .work w now     => s.work w now
  | .age agetime    => s.age agetime
  | .agedStep       => s.agedStep
  | .terminate b    => s.terminate b
  | .termStep       => s.termStep

-- Init has made and started the minimal number of workers. `times` are the times it has read.
inductive Init (minThreads maxThreads : Nat) : ThreadPool → Prop
  | intro (times pool : List Nat) (length : times.length = minThreads)
      (perm : pool.Perm (List.range minThreads)) : Init minThreads maxThreads {
        workers := times.map (⟨.init, false, ·, true, .init⟩)
        pool, minThreads, maxThreads
        tasks := [], calls := [], aged := none, term := .none, trash := []
        quickFree := false, enableInsertTask := true
        pushed := [], taken := [], quickTaken := [], ran := [], skipped := [], deleted := [] }

end ThreadPool

-- A pool after Init.
def threadPool (minThreads maxThreads : Nat) : System ThreadPool ThreadPool.Act where
  init := ThreadPool.Init minThreads maxThreads
  step := ThreadPool.step

namespace ThreadPool

variable {s s' : ThreadPool} {a : Act}

-- A step of aged_worker or of Terminate: it may tell one worker to exit, and leaves tasks, calls
-- and workers alone otherwise.
inductive Control (s : ThreadPool) (a : Act) (s' : ThreadPool) : Prop
  | intro (told : ThreadPool) (tell : told = s ∨ ∃ w, told = s.tellExit w) (aged : Option Aged)
      (term : TermPc) (pool trash : List Nat) (quick enable : Bool) (lo hi : Nat)
      (flag : quick = s.quickFree ∨ a = .termStep ∧ s.term = .quick quick)
      (stay : a = .agedStep → term = s.term ∧ enable = s.enableInsertTask)
      (eq : s' = { told with
        aged := aged, term := term, pool := pool, trash := trash, quickFree := quick,
        enableInsertTask := enable, minThreads := lo, maxThreads := hi })

theorem Control.of_aged (aged : Option Aged) (pool : List Nat) :
    Control s a { s with aged := aged, pool := pool } :=
  ⟨s, .inl rfl, _, _, _, _, _, _, _, _, .inl rfl, fun _ => ⟨rfl, rfl⟩, rfl⟩

theorem Control.of_term (term : TermPc) (pool trash : List Nat) (enable : Bool) (lo hi : Nat) :
    Control s .termStep { s with
      term := term, pool := pool, trash := trash, enableInsertTask := enable,
      minThreads := lo, maxThreads := hi } :=
  ⟨s, .inl rfl, _, _, _, _, _, _, _, _, .inl rfl, nofun, rfl⟩

theorem agedStep_control (h : s.agedStep = some s') : Control s .agedStep s' := by
  unfold agedStep at h
  split at h
  case h_1 => cases h
  case h_2 a _ =>
    dsimp only at h
    split at h
    case h_1 =>
      split at h
      case h_1 => cases h; exact .of_aged ..
      case h_2 => split at h <;> cases h <;> exact .of_aged ..
    case h_4 w _ =>
      cases h
      exact ⟨_, .inr ⟨w, rfl⟩, _, _, _, _, _, _, _, _, .inl rfl, fun _ => ⟨rfl, rfl⟩, rfl⟩
    case h_6 =>
      split at h
      case h_1 => cases h; exact .of_aged ..
      case h_2 =>
        have ⟨_, h⟩ := Option.ite_none_left_eq_some.mp h
        cases h
        exact .of_aged ..
    all_goals
      cases h
      exact .of_aged ..

theorem termStep_control (h : s.termStep = some s') : Control s .termStep s' := by
  unfold termStep at h
  split at h
  case h_1 | h_11 => cases h
  case h_2 b hq =>
    cases h
    exact ⟨_, .inl rfl, _, _, _, _, _, _, _, _, .inr ⟨rfl, hq⟩, nofun, rfl⟩
  case h_7 => split at h <;> cases h <;> exact .of_term ..
  case h_8 w _ =>
    cases h
    exact ⟨_, .inr ⟨w, rfl⟩, _, _, _, _, _, _, _, _, .inl rfl, nofun, rfl⟩
  case h_10 =>
    split at h
    case h_1 => cases h; exact .of_term ..
    case h_2 =>
      have ⟨_, h⟩ := Option.ite_none_left_eq_some.mp h
      cases h
      exact .of_term ..
  all_goals
    cases h
    exact .of_term ..

-- The steps that are neither a worker's nor a call's.
theorem step_control (h : s.step a = some s') (hc : a ≠ .execute) (hw : ∀ w now, a ≠ .work w now)
    (hk : ∀ t pos now, a ≠ .call t pos now) : Control s a s' := by
  cases a
  case execute        => exact absurd rfl hc
  case work w now     => exact absurd rfl (hw w now)
  case call t pos now => exact absurd rfl (hk t pos now)
  case agedStep       => exact agedStep_control h
  case termStep       => exact termStep_control h
  case age            =>
    have ⟨_, h⟩ := Option.ite_none_right_eq_some.mp h
    cases h
    exact .of_aged ..
  case terminate      =>
    have ⟨_, h⟩ := Option.ite_none_right_eq_some.mp h
    cases h
    exact ⟨s, .inl rfl, _, _, _, _, _, _, _, _, .inl rfl, nofun, rfl⟩

-- What the steps of the workers and of the calls leave alone.
structure Same (s s' : ThreadPool) : Prop where
  aged             : s'.aged = s.aged
  term             : s'.term = s.term
  trash            : s'.trash = s.trash
  quickFree        : s'.quickFree = s.quickFree
  enableInsertTask : s'.enableInsertTask = s.enableInsertTask
  maxThreads       : s'.maxThreads = s.maxThreads

theorem work_same {w now : Nat} (h : s.work w now = some s') :
    Same s s' ∧ s'.calls = s.calls ∧ s'.pool = s.pool ∧ s'.pushed = s.pushed := by
  unfold work at h
  split at h
  case h_1 => cases h
  case h_2 x hx =>
    have ⟨status, isBusy, updateTime, running, pc⟩ := x
    cases pc <;> dsimp only at h
    case created | done => cases h
    case get  => split at h <;> cases h <;> exact ⟨⟨rfl, rfl, rfl, rfl, rfl, rfl⟩, rfl, rfl, rfl⟩
    case busy => cases h; split <;> exact ⟨⟨rfl, rfl, rfl, rfl, rfl, rfl⟩, rfl, rfl, rfl⟩
    all_goals
      cases h
      exact ⟨⟨rfl, rfl, rfl, rfl, rfl, rfl⟩, rfl, rfl, rfl⟩

theorem call_same {t pos now : Nat} (h : s.call t pos now = some s') :
    Same s s' ∧ s'.quickTaken = s.quickTaken ∧ s'.skipped = s.skipped := by
  unfold call at h
  dsimp only at h
  split at h
  case h_1 | h_13 => cases h
  case h_8 =>
    have ⟨_, h⟩ := Option.ite_none_right_eq_some.mp h
    cases h
    exact ⟨⟨rfl, rfl, rfl, rfl, rfl, rfl⟩, rfl, rfl⟩
  all_goals
    cases h
    exact ⟨⟨rfl, rfl, rfl, rfl, rfl, rfl⟩, rfl, rfl⟩

theorem getElem?_tellExit {w u : Nat} : ∃ f : Worker → Worker,
    (s.tellExit w).workers[u]? = s.workers[u]?.map f ∧
      ∀ x, f x = { x with status := (f x).status } := by
  refine ⟨fun x => if w = u then { x with status := .stopping } else x, ?_, fun x => ?_⟩
  · rw [tellExit, List.getElem?_modify]
    rfl
  · dsimp only
    split <;> rfl

end ThreadPool
end NetPool
