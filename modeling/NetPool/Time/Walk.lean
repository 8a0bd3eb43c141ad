import NetPool.Time.TimeJob

namespace NetPool

-- What happens to a job while the list is walked: the iterator advances from its node, the job is
-- read, its callback is called, its node is unlinked, and it is deleted.
inductive Touch
  | advance (ptr : Nat)
  | read (ptr : Nat)
  | fire (ptr : Nat)
  | unlink (ptr : Nat)
  | delete (ptr : Nat)
  deriving DecidableEq

def Touch.ptr : Touch → Nat
  | advance p | read p | fire p | unlink p | delete p => p

@[simp] theorem Touch.ptr_advance : (advance p).ptr = p := rfl
@[simp] theorem Touch.ptr_read : (read p).ptr = p := rfl
@[simp] theorem Touch.ptr_fire : (fire p).ptr = p := rfl
@[simp] theorem Touch.ptr_unlink : (unlink p).ptr = p := rfl
@[simp] theorem Touch.ptr_delete : (delete p).ptr = p := rfl

-- How far the walk is. `itr` is the node at which the iterator stands, and nothing at the end of
-- the list. The callback of `pTimeJob` is running in `firing`. After an access to a job or a node
-- that is gone the walk is `broken`.
inductive TimeWalkPc
  | idle
  | loop (itr : Option Nat)
  | firing (pTimeJob : Nat) (itr : Option Nat)
  | broken
  deriving DecidableEq

-- The list together with `time_job_walk`. `start` is the list as the latest walk has found it, and
-- `log` what has happened since then until the walk was over.
structure TimeWalk (F P : Type*) where
  mgr     : TimeJobMgr F P
  nowtime : Nat
  pc      : TimeWalkPc
  start   : List (TimeJob F P)
  log     : List Touch

-- The iterator at the front of the list, and that behind the node of a job.
def TimeJobMgr.begin {F P : Type*} (m : TimeJobMgr F P) : Option Nat :=
  m.timeJobs.head?.map (·.ptr)

def TimeJobMgr.itrAfter {F P : Type*} (m : TimeJobMgr F P) (pTimeJob : Nat) : Option Nat :=
  (m.timeJobs.dropWhile (·.ptr ≠ pTimeJob)).tail.head?.map (·.ptr)

namespace TimeWalk

variable {F P : Type*}

-- The test of the loop and its body up to the call of the callback.
def visit (w : TimeWalk F P) : Option Nat → TimeWalk F P
  | none          => { w with pc := .idle }
  | some pTimeJob =>
    match w.mgr.timeJobs.find? (·.ptr = pTimeJob) with
    | none     => { w with pc := .broken, log := w.log ++ [.advance pTimeJob] }
    | some job =>
      let itr := w.mgr.itrAfter pTimeJob
      let w   := { w with pc := .loop itr, log := w.log ++ [.advance pTimeJob] ++ [.read pTimeJob] }
      if job.isExpired w.nowtime then
        let job := job.updateExpiredTime w.nowtime
        let mgr := w.mgr.putTimeJob job
        { w with
          mgr := { mgr with fired := mgr.fired ++ [job.doit w.nowtime] }
          pc  := .firing pTimeJob itr
          log := w.log ++ [.fire pTimeJob] }
      else w

-- The rest of the body, after the callback has returned.
def ret (w : TimeWalk F P) (pTimeJob : Nat) (itr : Option Nat) : TimeWalk F P :=
  let w : TimeWalk F P := { w with pc := .loop itr, log := w.log ++ [.read pTimeJob] }
  match w.mgr.timeJobs.find? (·.ptr = pTimeJob) with
  | none     => { w with pc := .broken }
  | some job =>
    if job.isOnce then { w with
      mgr := w.mgr.delTimeNode pTimeJob
      log := w.log ++ [.unlink pTimeJob] ++ [.delete pTimeJob] }
    else w

-- `np_del_time_job` called by a callback.
def del [DecidableEq F] [DecidableEq P] (w : TimeWalk F P) (func : F) (param1 : P) : TimeWalk F P :=
  { w with
    mgr := (w.mgr.delTimeJob func param1).1
    log := match w.mgr.findTimeJobs func param1 with
      | none     => w.log
      | some job => w.log ++ [.unlink job.ptr] ++ [.delete job.ptr] }

-- The lock of the list is held during a walk, and the thread that holds it can take it again: then
-- only the callback that is running edits the list.
inductive Act (F P : Type*)
  | add (curTime : Nat) (func : F) (param1 param2 param3 param4 : P) (timeValue : UInt32)
      (isOnce : Bool)
  | del (func : F) (param1 : P)
  | start (nowtime : Nat)
  | visit
  | ret

def step [DecidableEq F] [DecidableEq P] (w : TimeWalk F P) : Act F P → Option (TimeWalk F P)
  | .add curTime func param1 param2 param3 param4 timeValue isOnce =>
    match w.pc with
    | .idle | .firing .. => some { w with
      mgr := w.mgr.addTimeJob curTime func param1 param2 param3 param4 timeValue isOnce }
    | .loop _ | .broken  => none
  | .del func param1 =>
    match w.pc with
    | .idle             => some { w with mgr := (w.mgr.delTimeJob func param1).1 }
    | .firing ..        => some (w.del func param1)
    | .loop _ | .broken => none
  | .start nowtime =>
    match w.pc with
    | .idle => some ⟨w.mgr, nowtime, .loop w.mgr.begin, w.mgr.timeJobs, []⟩
    | .loop _ | .firing .. | .broken => none
  | .visit =>
    match w.pc with
    | .loop itr                     => some (w.visit itr)
    | .idle | .firing .. | .broken  => none
  | .ret =>
    match w.pc with
    | .firing pTimeJob itr      => some (w.ret pTimeJob itr)
    | .idle | .loop _ | .broken => none

end TimeWalk

def timeWalk (F P : Type*) [DecidableEq F] [DecidableEq P] : System (TimeWalk F P) (TimeWalk.Act F P) where
  init w := w = ⟨⟨[], 0, 0, [], []⟩, 0, .idle, [], []⟩
  step   := TimeWalk.step

namespace TimeWalk

variable {F P : Type*} {w w' : TimeWalk F P} {job : TimeJob F P} {p : Nat} {itr : Option Nat}
  {kept rest : List (TimeJob F P)}

-- What the walk and the deletions may do to a job after what has happened to it.
def Allowed (es : List Touch) (e : Touch) : Prop :=
  .delete e.ptr ∉ es ∧ ∀ p, e = .advance p → .unlink p ∉ es

-- The job was deleted before the iterator has come to it.
def DeletedEarly (log : List Touch) (p : Nat) : Prop :=
  ∃ es es', log = es ++ .delete p :: es' ∧ .advance p ∉ es

-- No access to what is gone, and every job of the list that was due fires once in its turn.
structure Survives (w : TimeWalk F P) : Prop where
  safe  : Traced Allowed w.log
  once  : ∀ p, w.log.count (.fire p) ≤ 1
  fired : w.pc = .idle → ∀ job ∈ w.start, job.isExpired w.nowtime → ¬DeletedEarly w.log job.ptr →
    w.log.count (.fire job.ptr) = 1

-- A callback deletes neither the job that is fired nor the one at which the iterator stands.
def Spares [DecidableEq F] [DecidableEq P] (w : TimeWalk F P) : Act F P → Prop
  | .del func param1 =>
    match w.pc with
    | .firing pTimeJob itr => ∀ job ∈ w.mgr.findTimeJobs func param1,
      job.ptr ≠ pTimeJob ∧ some job.ptr ≠ itr
    | .idle | .loop _ | .broken => True
  | .add .. | .start _ | .visit | .ret => True

instance [DecidableEq F] [DecidableEq P] :
    ∀ (w : TimeWalk F P) a, Decidable (Spares w a)
  | w, .del func param1 => by
    unfold Spares
    cases w.pc <;> infer_instance
  | _, .add .. | _, .start _ | _, .visit | _, .ret => inferInstanceAs (Decidable True)

-- The addresses in the list and the log of a walk agree.
structure Told (ptrs : List Nat) (next : Nat) (log : List Touch) : Prop where
  nodup  : ptrs.Nodup
  lt     : ∀ p ∈ ptrs, p < next
  logged : ∀ e ∈ log, e.ptr < next
  gone   : ∀ p, .unlink p ∈ log ∨ .delete p ∈ log → p ∉ ptrs
  safe   : Traced Allowed log
  turn   : ∀ p, .fire p ∈ log → .advance p ∈ log
  once   : ∀ p, log.count (.fire p) ≤ 1

namespace Told

variable {ptrs : List Nat} {next : Nat} {log : List Touch} {e : Touch}

theorem clear (h : Told ptrs next log) : Told ptrs next [] :=
  ⟨h.nodup, h.lt, nofun, by simp, .nil, nofun, by simp⟩

theorem add (h : Told ptrs next log) : Told (ptrs ++ [next]) (next + 1) log where
  nodup  := List.nodup_append.mpr ⟨h.nodup, List.nodup_singleton _, fun p hp q hq => by
    rw [List.mem_singleton.mp hq]
    exact (h.lt p hp).ne⟩
  lt     := List.forall_mem_append.mpr
    ⟨fun p hp => Nat.lt_succ_of_lt <| h.lt p hp, by simp⟩
  logged := fun e he => Nat.lt_succ_of_lt <| h.logged e he
  gone p hp hm := by
    obtain hm | hm := List.mem_append.mp hm
    case inl => exact h.gone p hp hm
    case inr =>
      have lt : p < next := hp.elim (h.logged _) (h.logged _)
      exact lt.ne <| List.mem_singleton.mp hm
  safe   := h.safe
  turn   := h.turn
  once   := h.once

theorem remove (h : Told ptrs next log) : Told (ptrs.filter (· ≠ p)) next log where
  nodup  := h.nodup.sublist List.filter_sublist
  lt     := fun q hq => h.lt q (List.mem_of_mem_filter hq)
  logged := h.logged
  gone   := fun q hq hm => h.gone q hq (List.mem_of_mem_filter hm)
  safe   := h.safe
  turn   := h.turn
  once   := h.once

-- An access to a job that is in the list.
theorem allowed (h : Told ptrs next log) (he : e.ptr ∈ ptrs) : Allowed log e :=
  ⟨fun hd => h.gone _ (.inr hd) he, fun _ ha hu => h.gone _ (.inl hu) (by simpa [ha] using he)⟩

theorem note (h : Told ptrs next log) (he : e.ptr ∈ ptrs)
    (hn : ∀ p, e ≠ .fire p ∧ e ≠ .unlink p ∧ e ≠ .delete p) : Told ptrs next (log ++ [e]) where
  nodup  := h.nodup
  lt     := h.lt
  logged := List.forall_mem_append.mpr ⟨h.logged, by simpa using h.lt _ he⟩
  gone p := by simpa [(hn p).2.1.symm, (hn p).2.2.symm] using h.gone p
  safe   := h.safe.concat <| h.allowed he
  turn p := fun hp => List.mem_append_left _ <| h.turn p <| by simpa [(hn p).1.symm] using hp
  once p := by simpa [(hn p).1] using h.once p

theorem fire (h : Told ptrs next log) (hp : p ∈ ptrs) (ha : .advance p ∈ log) (hn : .fire p ∉ log) :
    Told ptrs next (log ++ [.fire p]) where
  nodup  := h.nodup
  lt     := h.lt
  logged := List.forall_mem_append.mpr ⟨h.logged, by simpa using h.lt p hp⟩
  gone   := by simpa using h.gone
  safe   := h.safe.concat <| h.allowed hp
  turn   := by
    intro q hq
    obtain hq | hq := List.mem_append.mp hq
    case inl => exact List.mem_append_left _ <| h.turn q hq
    case inr => cases List.mem_singleton.mp hq; exact List.mem_append_left _ ha
  once   := by
    intro q
    have := h.once q
    have := List.count_eq_zero.mpr hn
    by_cases hq : p = q
    case pos => subst hq; simp; omega
    case neg => simpa [hq] using h.once q

theorem unlink (h : Told ptrs next log) (hp : p ∈ ptrs) :
    Told (ptrs.filter (· ≠ p)) next (log ++ [.unlink p] ++ [.delete p]) where
  nodup  := h.nodup.sublist List.filter_sublist
  lt     := fun q hq => h.lt q (List.mem_of_mem_filter hq)
  logged := by
    have lt := h.lt p hp
    simpa [or_imp, forall_and, lt] using h.logged
  gone   := by
    intro q hq hm
    obtain ⟨hm, hn⟩ := List.mem_filter.mp hm
    have hn : q ≠ p := by simpa using hn
    exact h.gone q (by simpa [hn] using hq) hm
  safe   := by
    have hd : .delete p ∉ log := fun hd => h.gone p (.inr hd) hp
    refine (h.safe.concat <| h.allowed (e := .unlink p) hp).concat ⟨?_, nofun⟩
    simpa using hd
  turn   := fun q hq => by simpa using h.turn q (by simpa using hq)
  once   := by simpa using h.once

end Told

-- The iterator has passed none of the jobs of `rest`, and of the jobs of the beginning only those
-- that were deleted are neither in `rest` nor passed.
structure Turn (start : List (TimeJob F P)) (log : List Touch) (rest : List (TimeJob F P)) : Prop where
  ahead : ∀ job ∈ rest, .advance job.ptr ∉ log
  start : ∀ job ∈ start, job ∈ rest ∨ .advance job.ptr ∈ log ∨ DeletedEarly log job.ptr

structure At (start timeJobs : List (TimeJob F P)) (log : List Touch) (itr : Option Nat)
    (kept rest : List (TimeJob F P)) : Prop extends Turn start log rest where
  timeJobs : timeJobs = kept ++ rest
  itr      : itr = rest.head?.map (·.ptr)

structure Inv (w : TimeWalk F P) : Prop where
  told : Told (w.mgr.timeJobs.map (·.ptr)) w.mgr.next w.log
  due  : ∀ job ∈ w.start, job.isExpired w.nowtime → .advance job.ptr ∈ w.log → .fire job.ptr ∈ w.log
  pc   : match w.pc with
    | .idle         => Turn w.start w.log []
    | .loop itr     => ∃ kept rest, At w.start w.mgr.timeJobs w.log itr kept rest
    | .firing p itr => ∃ kept rest, At w.start w.mgr.timeJobs w.log itr kept rest ∧
      p ∈ kept.map (·.ptr)
    | .broken       => False

section At

variable {start timeJobs : List (TimeJob F P)} {log : List Touch} {next : Nat}

theorem DeletedEarly.mono {es : List Touch} (h : DeletedEarly log p) : DeletedEarly (log ++ es) p := by
  have ⟨as, bs, hl, ha⟩ := h
  exact ⟨as, bs ++ es, by simp [hl], ha⟩

theorem DeletedEarly.mem (h : DeletedEarly log p) : .delete p ∈ log := by
  have ⟨as, bs, hl, _⟩ := h
  simp [hl]

theorem map_ptr_filter (l : List (TimeJob F P)) :
    (l.filter (·.ptr ≠ p)).map (·.ptr) = (l.map (·.ptr)).filter (· ≠ p) := by
  rw [List.filter_map]
  rfl

-- A job at the end of the list is behind the iterator only if that stands at the end.
theorem At.add (h : At start timeJobs log itr kept rest) (hn : .advance job.ptr ∉ log) :
    ∃ kept' rest', At start (timeJobs ++ [job]) log itr kept' rest' ∧ kept ⊆ kept' := by
  cases rest
  case nil =>
    refine ⟨kept ++ [job], [], ⟨⟨nofun, h.start⟩, ?_, h.itr⟩, List.subset_append_left _ _⟩
    simp [h.timeJobs]
  case cons job' rest =>
    refine ⟨kept, job' :: rest ++ [job], ⟨⟨?_, ?_⟩, ?_, h.itr⟩, List.Subset.refl _⟩
    case refine_1 => exact List.forall_mem_append.mpr ⟨h.ahead, by simpa using hn⟩
    case refine_2 => exact fun j hj => (h.start j hj).imp_left <| List.mem_append_left _
    case refine_3 => simp [h.timeJobs]

-- Any job but the one at the iterator can be deleted.
theorem At.remove (h : At start timeJobs log itr kept rest) (hp : some p ≠ itr) :
    At start (timeJobs.filter (·.ptr ≠ p)) (log ++ [.unlink p] ++ [.delete p]) itr
      (kept.filter (·.ptr ≠ p)) (rest.filter (·.ptr ≠ p)) where
  ahead := by
    intro job hj
    simpa using h.ahead job (List.mem_of_mem_filter hj)
  start := by
    intro job hj
    obtain hr | ha | hd := h.start job hj
    case inr.inl => exact .inr <| .inl <| by simp [ha]
    case inr.inr => exact .inr <| .inr <| hd.mono.mono
    case inl =>
      by_cases hp : job.ptr = p
      case neg => exact .inl <| List.mem_filter.mpr ⟨hr, by simpa using hp⟩
      case pos =>
        have ha := h.ahead job hr
        exact .inr <| .inr ⟨log ++ [.unlink p], [], by simp [hp], by simpa [← hp] using ha⟩
  timeJobs := by simp [h.timeJobs]
  itr := by
    rw [h.itr] at hp ⊢
    cases rest
    case nil           => rfl
    case cons job rest =>
      have hp : job.ptr ≠ p := by simpa [eq_comm] using hp
      simp [hp]

theorem At.note {e : Touch} (h : At start timeJobs log itr kept rest) (hn : ∀ p, e ≠ .advance p) :
    At start timeJobs (log ++ [e]) itr kept rest where
  ahead job hj := by simpa [(hn _).symm] using h.ahead job hj
  start job hj := (h.start job hj).imp_right <| Or.imp (List.mem_append_left _) .mono
  timeJobs     := h.timeJobs
  itr          := h.itr

theorem itrAfter_eq {m : TimeJobMgr F P} (h : m.timeJobs = kept ++ job :: rest)
    (nodup : (m.timeJobs.map (·.ptr)).Nodup) : m.itrAfter job.ptr = rest.head?.map (·.ptr) := by
  rw [h] at nodup
  have ⟨hk, _⟩ := List.forall_mem_append.mp (TimeJobMgr.ptr_ne_of_nodup nodup)
  have hd : m.timeJobs.dropWhile (·.ptr ≠ job.ptr) = job :: rest := by
    rw [h, List.dropWhile_append_of_pos fun j hj => by simpa using hk j hj]
    simp
  rw [TimeJobMgr.itrAfter, hd, List.tail_cons]

-- The iterator advances over the first job of `rest`, which is `job'` from then on.
theorem At.advance (job' : TimeJob F P) (h : At start timeJobs log itr kept (job :: rest))
    (nodup : (timeJobs.map (·.ptr)).Nodup) (hp : p = job.ptr) :
    At start (kept ++ job' :: rest) (log ++ [.advance p]) (rest.head?.map (·.ptr)) (kept ++ [job'])
      rest where
  ahead j hj := by
    have ne : j.ptr ≠ job.ptr :=
      TimeJobMgr.ptr_ne_of_nodup (h.timeJobs ▸ nodup) j (List.mem_append_right _ hj)
    simpa [hp, ne] using h.ahead j (List.mem_cons_of_mem _ hj)
  start j hj := by
    obtain hr | ha | hd := h.start j hj
    case inr.inl => exact .inr <| .inl <| List.mem_append_left _ ha
    case inr.inr => exact .inr <| .inr hd.mono
    case inl =>
      obtain rfl | hr := List.mem_cons.mp hr
      case inl => exact .inr <| .inl <| by simp [hp]
      case inr => exact .inl hr
  timeJobs := by simp
  itr      := rfl

end At

section Step

-- The iterator stands at a job of the list.
section Visit

variable (h : w.mgr.timeJobs = kept ++ job :: rest) (nodup : (w.mgr.timeJobs.map (·.ptr)).Nodup)
include h nodup

theorem find_eq : w.mgr.timeJobs.find? (·.ptr = job.ptr) = some job := by
  have ⟨hk, _⟩ := List.forall_mem_append.mp <| TimeJobMgr.ptr_ne_of_nodup (h ▸ nodup)
  rw [h, List.find?_append, TimeJobMgr.find_absent hk]
  simp

theorem visit_early (hx : job.isExpired w.nowtime = false) : w.visit (some job.ptr) = { w with
    pc  := .loop (rest.head?.map (·.ptr))
    log := w.log ++ [.advance job.ptr] ++ [.read job.ptr] } := by
  simp [visit, find_eq h nodup, hx, itrAfter_eq h nodup]

theorem visit_due (hx : job.isExpired w.nowtime = true) : w.visit (some job.ptr) = { w with
    mgr := { w.mgr.putTimeJob (job.updateExpiredTime w.nowtime) with
      fired := (w.mgr.putTimeJob (job.updateExpiredTime w.nowtime)).fired ++
        [(job.updateExpiredTime w.nowtime).doit w.nowtime] }
    pc  := .firing job.ptr (rest.head?.map (·.ptr))
    log := w.log ++ [.advance job.ptr] ++ [.read job.ptr] ++ [.fire job.ptr] } := by
  simp [visit, find_eq h nodup, hx, itrAfter_eq h nodup]

end Visit

theorem ret_kept (hf : w.mgr.timeJobs.find? (·.ptr = p) = some job) (ho : job.isOnce = false) :
    w.ret p itr = { w with pc := .loop itr, log := w.log ++ [.read p] } := by
  simp [ret, hf, ho]

theorem ret_once (hf : w.mgr.timeJobs.find? (·.ptr = p) = some job) (ho : job.isOnce = true) :
    w.ret p itr = { w with
      mgr := w.mgr.delTimeNode p
      pc  := .loop itr
      log := w.log ++ [.read p] ++ [.unlink p] ++ [.delete p] } := by
  simp [ret, hf, ho]

theorem Inv.visit (inv : w.Inv) (hp : w.pc = .loop itr) : (w.visit itr).Inv := by
  have pc := inv.pc
  rw [hp] at pc
  have ⟨kept, rest, h⟩ := pc
  have nodup := inv.told.nodup
  cases rest
  case nil =>
    obtain rfl : itr = none := h.itr
    exact ⟨inv.told, inv.due, h.toTurn⟩
  case cons job rest =>
    obtain rfl : itr = some job.ptr := h.itr
    have hk := TimeJobMgr.ptr_ne_of_nodup (h.timeJobs ▸ nodup)
    have hm : job.ptr ∈ w.mgr.timeJobs.map (·.ptr) :=
      List.mem_map_of_mem <| h.timeJobs ▸ List.mem_append_right _ List.mem_cons_self
    have ha := h.ahead job List.mem_cons_self
    have told := (inv.told.note (e := .advance job.ptr) hm (by simp)).note (e := .read job.ptr) hm
      (by simp)
    -- The job of the beginning with this address is the one that the iterator leaves.
    have self : ∀ j ∈ w.start, j.ptr = job.ptr → j = job := by
      intro j hj he
      obtain hr | hr | hr := h.start j hj
      case inr.inl => exact absurd (he ▸ hr) ha
      case inr.inr => exact absurd hm <| he ▸ inv.told.gone _ (.inr hr.mem)
      case inl =>
        obtain rfl | hr := List.mem_cons.mp hr
        case inl => rfl
        case inr => exact absurd he <| hk j <| List.mem_append_right _ hr
    cases hx : job.isExpired w.nowtime
    case false =>
      have := (h.advance job nodup rfl).note (e := .read job.ptr) (by simp)
      rw [← h.timeJobs] at this
      rw [visit_early h.timeJobs nodup hx]
      refine ⟨told, fun j hj he hm => ?_, _, _, this⟩
      by_cases hj' : j.ptr = job.ptr
      case pos => rw [self j hj hj', hx] at he; cases he
      case neg =>
        have := inv.due j hj he (by simpa [hj'] using hm)
        simp [this]
    case true =>
      let job' := job.updateExpiredTime w.nowtime
      have ht : (w.mgr.putTimeJob job').timeJobs = kept ++ job' :: rest :=
        TimeJobMgr.putTimeJob_eq (h.timeJobs ▸ nodup) h.timeJobs rfl
      have hat := ((h.advance job' nodup rfl).note (e := .read job.ptr) (by simp)).note
        (e := .fire job.ptr) (by simp)
      have hn : .fire job.ptr ∉ w.log ++ [.advance job.ptr] ++ [.read job.ptr] := by
        simpa using fun hf => ha (inv.told.turn _ hf)
      have ptrs : (kept ++ job' :: rest).map (·.ptr) = w.mgr.timeJobs.map (·.ptr) := by
        simp [h.timeJobs, job', TimeJob.updateExpiredTime]
      rw [← ht] at hat ptrs
      rw [visit_due h.timeJobs nodup hx]
      refine ⟨ptrs ▸ told.fire hm (by simp) hn, fun j hj he hm => ?_, _, _, hat, ?_⟩
      case refine_1 =>
        by_cases hj' : j.ptr = job.ptr
        case pos => simp [hj']
        case neg =>
          have := inv.due j hj he (by simpa [hj'] using hm)
          simp [this]
      case refine_2 => simp [job', TimeJob.updateExpiredTime]

-- The job that was fired is still there, since the callback has spared it.
theorem Inv.ret (inv : w.Inv) (hp : w.pc = .firing p itr) : (w.ret p itr).Inv := by
  have pc := inv.pc
  rw [hp] at pc
  have ⟨kept, rest, h, hk⟩ := pc
  have ⟨job, hj, he⟩ := List.mem_map.mp hk
  have hm : job ∈ w.mgr.timeJobs := h.timeJobs ▸ List.mem_append_left _ hj
  have hm' : p ∈ w.mgr.timeJobs.map (·.ptr) := he ▸ List.mem_map_of_mem hm
  have told := inv.told.note (e := .read p) hm' (by simp)
  have hat := h.note (e := .read p) (by simp)
  have due : ∀ j ∈ w.start, j.isExpired w.nowtime → .advance j.ptr ∈ w.log ++ [.read p] →
      .fire j.ptr ∈ w.log ++ [.read p] := by simpa using inv.due
  cases hf : w.mgr.timeJobs.find? (·.ptr = p)
  case none => exact absurd he (by simpa using List.find?_eq_none.mp hf job hm)
  case some job' =>
    cases ho : job'.isOnce
    case false =>
      rw [ret_kept hf ho]
      exact ⟨told, due, _, _, hat⟩
    case true =>
      have hi : some p ≠ itr := by
        rw [h.itr]
        cases rest
        case nil           => simp
        case cons job₁ rest =>
          have nodup := inv.told.nodup
          rw [h.timeJobs] at nodup
          have hn := TimeJobMgr.ptr_ne_of_nodup nodup job (List.mem_append_left _ hj)
          simpa [← he] using hn
      rw [ret_once hf ho]
      refine ⟨?_, by simpa using due, _, _, hat.remove hi⟩
      have := told.unlink hm'
      rwa [← map_ptr_filter] at this

theorem Inv.del [DecidableEq F] [DecidableEq P] {func : F} {param1 : P} (inv : w.Inv)
    (hp : w.pc = .firing p itr)
    (ok : ∀ job ∈ w.mgr.findTimeJobs func param1, job.ptr ≠ p ∧ some job.ptr ≠ itr) :
    (w.del func param1).Inv := by
  cases hf : w.mgr.findTimeJobs func param1
  case none =>
    have hw : w.del func param1 = w := by simp [TimeWalk.del, TimeJobMgr.delTimeJob, hf]
    rwa [hw]
  case some job =>
    have hw : w.del func param1 = { w with
        mgr := w.mgr.delTimeNode job.ptr
        log := w.log ++ [.unlink job.ptr] ++ [.delete job.ptr] } := by
      simp [TimeWalk.del, TimeJobMgr.delTimeJob, hf]
    have hm : job.ptr ∈ w.mgr.timeJobs.map (·.ptr) :=
      List.mem_map_of_mem <| List.mem_of_find?_eq_some hf
    have ⟨hj, hi⟩ := ok job hf
    have pc := inv.pc
    rw [hp] at pc
    have ⟨kept, rest, h, hk⟩ := pc
    rw [hw]
    refine ⟨?_, by simpa using inv.due, ?_⟩
    case refine_1 =>
      have := inv.told.unlink hm
      rwa [← map_ptr_filter] at this
    case refine_2 =>
      simp only [hp]
      refine ⟨_, _, h.remove hi, ?_⟩
      rw [map_ptr_filter]
      exact List.mem_filter.mpr ⟨hk, by simpa using hj.symm⟩

theorem Inv.add {m : TimeJobMgr F P} (inv : w.Inv) (hp : w.pc ≠ .broken)
    (hm : m.timeJobs = w.mgr.timeJobs ++ [job]) (hj : job.ptr = w.mgr.next)
    (hn : m.next = w.mgr.next + 1) : Inv { w with mgr := m } := by
  have new : .advance job.ptr ∉ w.log := fun ha => by
    have := inv.told.logged _ ha
    simp [hj] at this
  refine ⟨?_, inv.due, ?_⟩
  case refine_1 => simpa [hm, hn, hj] using inv.told.add
  case refine_2 =>
    have pc := inv.pc
    cases hc : w.pc <;> rw [hc] at pc
    case idle => exact pc
    case loop itr =>
      have ⟨kept, rest, h⟩ := pc
      have ⟨kept', rest', h', _⟩ := h.add new
      exact ⟨kept', rest', hm ▸ h'⟩
    case firing p itr =>
      have ⟨kept, rest, h, hk⟩ := pc
      have ⟨kept', rest', h', hs⟩ := h.add new
      have ⟨j, hj, he⟩ := List.mem_map.mp hk
      exact ⟨kept', rest', hm ▸ h', he ▸ List.mem_map_of_mem (hs hj)⟩
    case broken => exact absurd hc hp

theorem Inv.step [DecidableEq F] [DecidableEq P] {a : Act F P} (inv : w.Inv) (ok : Spares w a)
    (hs : w.step a = some w') : w'.Inv := by
  cases a
  case add =>
    simp only [TimeWalk.step] at hs
    split at hs <;> cases hs
    case h_1 hc => exact inv.add (by simp [hc]) rfl rfl rfl
    case h_2 hc => exact inv.add (by simp [hc]) rfl rfl rfl
  case del func param1 =>
    simp only [TimeWalk.step] at hs
    split at hs <;> cases hs
    case h_2 hc =>
      refine inv.del hc ?_
      simpa [Spares, hc] using ok
    case h_1 hc =>
      refine ⟨?_, inv.due, ?_⟩
      case refine_1 =>
        unfold TimeJobMgr.delTimeJob
        split
        case h_1       => exact inv.told
        case h_2 job _ =>
          have := inv.told.remove (p := job.ptr)
          rwa [← map_ptr_filter] at this
      case refine_2 =>
        have pc := inv.pc
        rw [hc] at pc
        simpa only [hc] using pc
  case start =>
    simp only [TimeWalk.step] at hs
    split at hs <;> cases hs
    exact ⟨inv.told.clear, nofun, [], w.mgr.timeJobs, ⟨by simp, fun _ => .inl⟩, rfl, rfl⟩
  case visit =>
    simp only [TimeWalk.step] at hs
    split at hs <;> cases hs
    case h_1 hc => exact inv.visit hc
  case ret =>
    simp only [TimeWalk.step] at hs
    split at hs <;> cases hs
    case h_1 hc => exact inv.ret hc

theorem Inv.survives (inv : w.Inv) : w.Survives where
  safe  := inv.told.safe
  once  := inv.told.once
  fired := by
    intro hc job hj he hd
    have pc := inv.pc
    rw [hc] at pc
    have ha : .advance job.ptr ∈ w.log := by simpa [hd] using pc.start job hj
    have := List.count_pos_iff.mpr <| inv.due job hj he ha
    have := inv.told.once job.ptr
    omega

end Step

-- The walk has moved on when it calls a callback, but it goes on to read the job that it has fired,
-- and it stands at the next one.
theorem walk_survives [DecidableEq F] [DecidableEq P] (h : (timeWalk F P).Reach Spares w) :
    w.Survives := by
  refine (h.invariant (I := Inv) ?_ fun _ _ _ inv ok hs => inv.step ok hs).survives
  rintro _ rfl
  refine ⟨⟨?_, ?_, ?_, ?_, .nil, ?_, ?_⟩, ?_, ?_, ?_⟩ <;> simp

-- A callback deletes the job behind the next one and adds one, and a job for once ends.
theorem walk_survives_edited : ∃ w, (timeWalk Nat Nat).Reach Spares w ∧
    (w.pc = .idle ∧ w.log.count (.fire 0) = 1 ∧ .delete 2 ∈ w.log ∧ .fire 3 ∈ w.log) ∧ w.Survives := by
  have ⟨w, hr, hw⟩ : ∃ w, (timeWalk Nat Nat).Reach Spares w ∧
      w.pc = .idle ∧ w.log.count (.fire 0) = 1 ∧ .delete 2 ∈ w.log ∧ .fire 3 ∈ w.log :=
    System.Reach.exists_of_run [.add 0 0 0 0 0 0 1 true, .add 0 1 0 0 0 0 1 false,
        .add 0 2 0 0 0 0 1 false, .start 1, .visit, .del 2 0, .add 1 3 0 0 0 0 0 false, .ret, .visit,
        .ret, .visit, .ret, .visit]
      _ rfl (by decide)
  exact ⟨w, hr, hw, walk_survives hr⟩

-- A callback that deletes its own job, and one that deletes the next job.
theorem not_walk_survives :
    (∃ w, (timeWalk Nat Nat).Reachable w ∧ ¬w.Survives ∧
      w.log = [.advance 0, .read 0, .fire 0, .unlink 0, .delete 0, .read 0]) ∧
    ∃ w, (timeWalk Nat Nat).Reachable w ∧ ¬w.Survives ∧
      w.log = [.advance 0, .read 0, .fire 0, .unlink 1, .delete 1, .read 0, .advance 1] := by
  constructor
  case left =>
    have ⟨w, hr, hl⟩ : ∃ w, (timeWalk Nat Nat).Reachable w ∧
        w.log = [.advance 0, .read 0, .fire 0, .unlink 0, .delete 0, .read 0] :=
      System.exists_of_run [.add 0 0 0 0 0 0 1 false, .start 1, .visit, .del 0 0, .ret] _ rfl
        (by decide)
    refine ⟨w, hr, fun h => ?_, hl⟩
    exact (h.safe [.advance 0, .read 0, .fire 0, .unlink 0, .delete 0] (.read 0) [] hl).1 (by simp)
  case right =>
    have ⟨w, hr, hl⟩ : ∃ w, (timeWalk Nat Nat).Reachable w ∧
        w.log = [.advance 0, .read 0, .fire 0, .unlink 1, .delete 1, .read 0, .advance 1] :=
      System.exists_of_run [.add 0 0 0 0 0 0 1 false, .add 0 1 0 0 0 0 1 false, .start 1, .visit,
        .del 1 0, .ret, .visit] _ rfl (by decide)
    refine ⟨w, hr, fun h => ?_, hl⟩
    exact (h.safe [.advance 0, .read 0, .fire 0, .unlink 1, .delete 1, .read 0] (.advance 1) []
      hl).1 (by simp)

end TimeWalk
end NetPool
