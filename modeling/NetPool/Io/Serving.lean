import NetPool.Io.Windows
import NetPool.Io.Handlers
import NetPool.Io.Loop

namespace NetPool

def Os.call : Os → Registry → Kernel → Call → Registry × Bool
  | linux,   r, k, c => r.callWhole k c
  | windows, r, _, c => r.callWin c

def Os.writeEvtHandle : Os → Registry → Kernel → JobId → Registry
  | linux,   r, k, i => r.writeEvtHandle k i
  | windows, r, _, i => r.writeEvtHandleWin i

-- `rset`, `wset` and `eset` of the loop for Windows.
structure FdSets where
  rset : List Fd
  wset : List Fd
  eset : List Fd
  deriving DecidableEq

-- FD_SETSIZE of Windows
def fdSetSize : Nat :=
  64

-- FD_SET of Windows: a descriptor is not added twice, nor to a full set.
def fdSet (set : List Fd) (fd : Fd) : List Fd :=
  if fd ∈ set ∨ fdSetSize ≤ set.length then set else set ++ [fd]

def FdSets.ask (sets : FdSets) (j : IoJob) : FdSets :=
  let sets := if j.ioEventRead then { sets with
    rset := fdSet sets.rset j.fd
    eset := fdSet sets.eset j.fd } else sets
  if j.ioEventWrite then { sets with
    wset := fdSet sets.wset j.fd
    eset := fdSet sets.eset j.fd } else sets

def Registry.walkToSetSets (r : Registry) : FdSets :=
  r.ioJobs.foldl (fun sets i => sets.ask (r.job i)) ⟨[], [], []⟩

-- `select` leaves some of the descriptors in the sets.
def FdSets.Within (sets asked : FdSets) : Prop :=
  sets.rset ⊆ asked.rset ∧ sets.wset ⊆ asked.wset ∧ sets.eset ⊆ asked.eset

instance {sets asked : FdSets} : Decidable (sets.Within asked) :=
  inferInstanceAs (Decidable (_ ∧ _ ∧ _))

-- What a loop does next with what the kernel has reported. The loop over the events of `epoll_wait`
-- is at the test for `EPOLLIN` or for `EPOLLOUT`; `walk_to_handle_sets` is about to take the job
-- its iterator points to, which has moved on since, or is at one of the four tests of the sets.
inductive Dispatch
  | epollin (events : List EpollEvent)
  | epollout (e : EpollEvent) (events : List EpollEvent)
  | walk (itr : Option Nat)
  | rset (i : JobId) (itr : Option Nat)
  | readEset (i : JobId) (itr : Option Nat)
  | wset (i : JobId) (itr : Option Nat)
  | writeEset (i : JobId) (itr : Option Nat)
  deriving DecidableEq

-- Where the one worker thread is. `outside` are the callbacks of `g_TimeJobMgr->run` and the time
-- before the loop starts, `freeing` the free callback of the first job of `deleted_job`, `reading`
-- the test at the head of the loop of a `read_evt_handle`.
inductive ServePc
  | outside
  | freeing (deletedJob : List JobId)
  | dispatch (d : Dispatch)
  | reading (i : JobId) (d : Dispatch)
  | readFunc (i : JobId) (recvEnd : Bool) (d : Dispatch)
  | writeFunc (i : JobId) (d : Dispatch)
  deriving DecidableEq

-- The functions of the application, which make the calls, are running.
def ServePc.inCallback : ServePc → Bool
  | outside | freeing (_ :: _) | readFunc .. | writeFunc ..   => true
  | freeing [] | dispatch _ | reading ..                      => false

-- Where the thread goes on when a callback has returned.
def ServePc.Returned : ServePc → ServePc → Prop
  | .freeing (_ :: is),  pc => pc = .freeing is
  | .readFunc i false d, pc => pc = .reading i d
  | .readFunc _ true d,  pc => pc = .dispatch d
  | .writeFunc _ d,      pc => pc = .dispatch d
  | .outside, _ | .freeing [], _ | .dispatch _, _ | .reading .., _ => False

-- The worker with the registry. The rest is history. `silent` are the jobs whose read callbacks
-- must not be called: `del_read_job` or `del_listen_job` has found them, and `add_read_job` has not
-- been called since; `paused` those of them that had a write event then. `cancelled` are the jobs
-- whose write event `del_write_job` has taken back since the last `epoll_wait`. A call of a read
-- callback comes with whether its job was silent, one of a write callback with the write bit that
-- the handler has met; `writeAdds` and `writeDels` are the write bits that calls have set and
-- cleared.
structure Serving where
  reg        : Registry
  pc         : ServePc
  sets       : FdSets
  silent     : List JobId
  paused     : List JobId
  cancelled  : List JobId
  readCalls  : List (JobId × Bool)
  writeCalls : List (JobId × Bool)
  writeAdds  : List JobId
  writeDels  : List JobId

namespace Serving

def start (workerThrdCnt : Nat) : Serving where
  reg        := .empty workerThrdCnt
  pc         := .outside
  sets       := ⟨[], [], []⟩
  silent     := []
  paused     := []
  cancelled  := []
  readCalls  := []
  writeCalls := []
  writeAdds  := []
  writeDels  := []

inductive Act
  | call (c : Call) (k : Kernel)
  | close (fd : Fd)
  | sweep
  | wait (ready : List (Fd × Bool × Bool))
  | select (sets : FdSets)
  | go (k : Kernel)
  | recv (out : RecvOut) (cliAddr : List UInt8)
  | accept (out : AcceptOut)
  | ret

-- The jobs that a call finds and that satisfy `p`.
def found (r : Registry) (fd : Fd) (p : IoJob → Bool) : List JobId :=
  (r.findIoJob fd).toList.filter fun i => p (r.job i)

def silentAfter (r : Registry) (c : Call) (silent : List JobId) : List JobId :=
  match c with
  | .delRead fd _      => silent ++ found r fd (·.kind ≠ .listen)
  | .delListen fd _    => silent ++ found r fd (·.kind = .listen)
  | .addRead _ fd ..   => silent.filter fun i => (r.job i).kind = .listen ∨ (r.job i).fd ≠ fd
  | .addListen .. | .addWrite .. | .delWrite .. => silent

def pausedAfter (r : Registry) (c : Call) (paused : List JobId) : List JobId :=
  match c with
  | .delRead fd _    => paused ++ found r fd fun j => j.kind ≠ .listen ∧ j.ioEventWrite
  | .addRead _ fd .. => paused.filter fun i => (r.job i).fd ≠ fd
  | .addListen .. | .delListen .. | .addWrite .. | .delWrite .. => paused

def cancelledAfter (r : Registry) (c : Call) (cancelled : List JobId) : List JobId :=
  match c with
  | .delWrite fd _    => cancelled ++ found r fd (·.ioEventWrite)
  | .addWrite _ fd .. => cancelled.filter fun i => r.findIoJob fd ≠ some i
  | .addListen .. | .delListen .. | .addRead .. | .delRead .. => cancelled

def writeAdd (r : Registry) (c : Call) (ret : Bool) : List JobId :=
  match c with
  | .addWrite _ fd .. =>
    match r.findIoJob fd with
    | some _ => found r fd (!·.ioEventWrite)
    | none   => if ret then [r.next] else []
  | .addListen .. | .delListen .. | .addRead .. | .delRead .. | .delWrite .. => []

def writeDel (r : Registry) (c : Call) : List JobId :=
  match c with
  | .delWrite fd _ => found r fd (·.ioEventWrite)
  | .addListen .. | .delListen .. | .addRead .. | .delRead .. | .addWrite .. => []

def goto (s : Serving) (pc : ServePc) : Serving :=
  { s with pc := pc }

-- A call of the interface.
def called (s : Serving) (os : Os) (k : Kernel) (c : Call) : Serving :=
  { s with
    reg       := (os.call s.reg k c).1
    silent    := silentAfter s.reg c s.silent
    paused    := pausedAfter s.reg c s.paused
    cancelled := cancelledAfter s.reg c s.cancelled
    writeAdds := s.writeAdds ++ writeAdd s.reg c (os.call s.reg k c).2
    writeDels := s.writeDels ++ writeDel s.reg c }

-- A round of the loop of `read_evt_handle`.
def round (s : Serving) (i : JobId) (d : Dispatch) : Verdict β → Serving
  | .again  => s
  | .stop   => s.goto (.dispatch d)
  | .hand _ => { s with
      pc        := .readFunc i false d
      readCalls := s.readCalls ++ [(i, decide (i ∈ s.silent))] }
  | .last _ => { s with
      pc        := .readFunc i true d
      readCalls := s.readCalls ++ [(i, decide (i ∈ s.silent))] }

-- `write_evt_handle` up to its callback.
def write (s : Serving) (os : Os) (k : Kernel) (i : JobId) (d : Dispatch) : Serving :=
  if (s.reg.job i).kind = .listen ∨ (s.reg.job i).isWantDelete then s.goto (.dispatch d)
  else { s with
    reg        := os.writeEvtHandle s.reg k i
    pc         := .writeFunc i d
    writeCalls := s.writeCalls ++ [(i, (s.reg.job i).ioEventWrite)] }

-- The next job of the walk, and the iterator after it.
def nextJob (r : Registry) (n : Nat) : Option (JobId × Option Nat) :=
  r.ioJobs[n]?.map (·, if n + 1 < r.ioJobs.length then some (n + 1) else none)

-- One step of the loop with what the kernel has reported.
def dispatch (s : Serving) (os : Os) (k : Kernel) : Dispatch → Serving
  | .epollin []         => s.goto .outside
  | .epollin (e :: es)  =>
    if e.epollin then s.goto (.reading e.ptr (.epollout e es)) else s.goto (.dispatch (.epollout e es))
  | .epollout e es      =>
    if e.epollout then s.write os k e.ptr (.epollin es) else s.goto (.dispatch (.epollin es))
  | .walk none          => s.goto .outside
  | .walk (some n)      =>
    match nextJob s.reg n with
    | none          => s.goto .outside
    | some (i, itr) =>
      if (s.reg.job i).isWantDelete then s.goto (.dispatch (.walk itr))
      else if (s.reg.job i).ioEventRead then s.goto (.dispatch (.rset i itr))
      else s.goto (.dispatch (.wset i itr))
  | .rset i itr         =>
    if (s.reg.job i).fd ∈ s.sets.rset then s.goto (.reading i (.readEset i itr))
    else s.goto (.dispatch (.readEset i itr))
  | .readEset i itr     =>
    if (s.reg.job i).fd ∈ s.sets.eset then s.goto (.reading i (.wset i itr))
    else s.goto (.dispatch (.wset i itr))
  -- The two tests without a handler between them are one step.
  | .wset i itr         =>
    if (s.reg.job i).ioEventWrite then
      if (s.reg.job i).fd ∈ s.sets.wset then s.write os k i (.writeEset i itr)
      else if (s.reg.job i).fd ∈ s.sets.eset then s.write os k i (.walk itr)
      else s.goto (.dispatch (.walk itr))
    else s.goto (.dispatch (.walk itr))
  | .writeEset i itr    =>
    if (s.reg.job i).fd ∈ s.sets.eset then s.write os k i (.walk itr)
    else s.goto (.dispatch (.walk itr))

-- The handler `i` and what comes after it, if the loop of the handler goes on to ask the kernel.
def asking (s : Serving) : Option (JobId × Dispatch) :=
  match s.pc with
  | .reading i d =>
    if (s.reg.job i).kind ≠ .listen ∧ (s.reg.job i).isWantDelete then none else some (i, d)
  | .outside | .freeing _ | .dispatch _ | .readFunc .. | .writeFunc .. => none

def step (os : Os) (t : Nat) (s : Serving) : Act → Option Serving
  | .call c k => if s.pc.inCallback then some (s.called os k c) else none
  | .close fd => if s.pc.inCallback then some { s with reg := s.reg.closeFd fd } else none
  | .sweep =>
    if s.pc = .outside then some { s with
      reg := (s.reg.handleDelingJob t).1
      pc  := .freeing (s.reg.handleDelingJob t).2 }
    else none
  -- An entry is in the array at most once. A failed call and one that has timed out are those with
  -- no event.
  | .wait ready =>
    if os = .linux ∧ s.pc = .freeing [] ∧ (ready.map (·.1)).Nodup then
      (ready.mapM (Loop.epollEvent s.reg t)).map fun es => { s with
        pc        := .dispatch (.epollin es)
        cancelled := [] }
    else none
  | .select sets =>
    if os = .windows ∧ s.pc = .freeing [] ∧ sets.Within s.reg.walkToSetSets then some { s with
      pc   := .dispatch (.walk (if s.reg.ioJobs = [] then none else some 0))
      sets := sets }
    else none
  | .go k =>
    match s.pc with
    | .dispatch d  => some (s.dispatch os k d)
    | .reading _ d => if s.asking = none then some (s.goto (.dispatch d)) else none
    | .outside | .freeing _ | .readFunc .. | .writeFunc .. => none
  | .recv out cliAddr => s.asking.bind fun (i, d) =>
    match (s.reg.job i).kind with
    | .tcp    => some (s.round i d <| (s.reg.job i).tcpRound os out)
    | .udp    => some (s.round i d <| (s.reg.job i).udpRound (out, cliAddr))
    | .listen => none
  | .accept out => s.asking.bind fun (i, d) =>
    match (s.reg.job i).kind with
    | .listen     => some (s.round i d <| (s.reg.job i).acceptRound os out)
    | .tcp | .udp => none
  | .ret =>
    match s.pc with
    | .freeing (_ :: is)   => some (s.goto (.freeing is))
    | .readFunc i false d  => some (s.goto (.reading i d))
    | .readFunc _ true d   => some (s.goto (.dispatch d))
    | .writeFunc _ d       => some (s.goto (.dispatch d))
    | .outside | .freeing [] | .dispatch _ | .reading .. => none

end Serving

def serving (os : Os) (workerThrdCnt t : Nat) : System Serving Serving.Act where
  init s := s = .start workerThrdCnt
  step   := Serving.step os t

section Rounds

variable {os : Os} {j : IoJob} {out : RecvOut} {cliAddr : List UInt8}

-- The results of `recv` and `recvfrom` for which no callback is called.
theorem recvRound_call? {intr : Verdict β} {call : List UInt8 → β} (h : intr.call? = none) :
    (recvRound intr call out).call? = none ↔ out = .intr ∨ out = .wouldBlock := by
  cases out
  case ret chunk => cases chunk <;> simp [recvRound]
  all_goals simp [recvRound, h]

theorem tcpRound_call? : (j.tcpRound os out).call? = none ↔ out = .intr ∨ out = .wouldBlock :=
  recvRound_call? <| by cases os <;> rfl

theorem udpRound_call? :
    (j.udpRound (out, cliAddr)).call? = none ↔ out = .intr ∨ out = .wouldBlock := by
  unfold IoJob.udpRound
  exact recvRound_call? rfl

theorem acceptRound_call? {out : AcceptOut} :
    (j.acceptRound os out).call? = none ↔ out.conn?.getD 0 = 0 := by
  cases out
  case conn connFd => cases connFd <;> simp [IoJob.acceptRound, AcceptOut.conn?]
  case intr        => cases os <;> simp [IoJob.acceptRound, AcceptOut.conn?]
  all_goals simp [IoJob.acceptRound, AcceptOut.conn?]

end Rounds

namespace Os

variable {os : Os} {r : Registry} {k : Kernel} {c : Call} {i : JobId}

theorem call_outcome : r.Outcome c (os.call r k c).1 (os.call r k c).2 := by
  cases os
  case linux   => exact r.callWhole_outcome
  case windows => exact r.callWin_outcome

theorem writeEvtHandle_found (hl : (r.job i).kind ≠ .listen) (live : (r.job i).isWantDelete = false) :
    r.OnlyJob (os.writeEvtHandle r k i) i (r.job i).delWriteIoEvent := by
  cases os
  case linux =>
    have h : linux.writeEvtHandle r k i = _ := Registry.writeEvtHandle_eq hl live
    exact h ▸ Registry.delIoWritingEvt_found
  case windows =>
    have h : windows.writeEvtHandle r k i = _ := Registry.writeEvtHandleWin_eq hl live
    exact h ▸ .of_modify rfl rfl rfl

end Os

namespace Serving

variable {os : Os} {t : Nat} {s s' : Serving} {k : Kernel} {i : JobId} {d : Dispatch} {a : Act}

theorem mem_found {r : Registry} {fd : Fd} {p : IoJob → Bool} :
    i ∈ found r fd p ↔ r.findIoJob fd = some i ∧ p (r.job i) = true := by
  simp [found]

@[simp] theorem goto_reg {pc : ServePc} : (s.goto pc).reg = s.reg := rfl

@[simp]
theorem round_reg {v : Verdict β} : (s.round i d v).reg = s.reg := by
  cases v <;> rfl

theorem write_grown : s.reg.Grown (s.write os k i d).reg := by
  unfold write
  split
  case isTrue    => exact .of_job rfl rfl (List.Subset.refl _)
  case isFalse h =>
    rw [not_or, Bool.not_eq_true] at h
    exact (Os.writeEvtHandle_found h.1 h.2).grown ⟨rfl, rfl, rfl, rfl⟩ id

-- The loop goes on to another place, or it enters `write_evt_handle`.
inductive Dispatched (s : Serving) (os : Os) (k : Kernel) : Serving → Prop
  | goto (pc : ServePc) : Dispatched s os k (s.goto pc)
  | write (i : JobId) (d : Dispatch) : Dispatched s os k (s.write os k i d)

theorem dispatch_cases (s : Serving) (d : Dispatch) : s.Dispatched os k (s.dispatch os k d) := by
  fun_cases Serving.dispatch <;> constructor

theorem asking_eq_some (h : s.asking = some (i, d)) : s.pc = .reading i d ∧
    ((s.reg.job i).kind ≠ .listen → (s.reg.job i).isWantDelete = false) := by
  unfold asking at h
  split at h
  case h_1 hpc =>
    have ⟨live, h⟩ := Option.ite_none_left_eq_some.mp h
    cases h
    exact ⟨hpc, fun hk => by simpa [hk] using live⟩
  case h_2 | h_3 | h_4 | h_5 | h_6 => contradiction

-- Everything a step can do.
inductive Stepped (s : Serving) (os : Os) (t : Nat) : Act → Serving → Prop
  | call (c : Call) (k : Kernel) (hpc : s.pc.inCallback = true) :
    Stepped s os t (.call c k) (s.called os k c)
  | close (fd : Fd) (hpc : s.pc.inCallback = true) :
    Stepped s os t (.close fd) { s with reg := s.reg.closeFd fd }
  | sweep (hpc : s.pc = .outside) : Stepped s os t .sweep { s with
      reg := (s.reg.handleDelingJob t).1
      pc  := .freeing (s.reg.handleDelingJob t).2 }
  | wait (ready : List (Fd × Bool × Bool)) (es : List EpollEvent) (hos : os = .linux)
    (hpc : s.pc = .freeing []) (nodup : (ready.map (·.1)).Nodup)
    (hs : ready.mapM (Loop.epollEvent s.reg t) = some es) : Stepped s os t (.wait ready) { s with
      pc        := .dispatch (.epollin es)
      cancelled := [] }
  | select (sets : FdSets) (itr : Option Nat) (hos : os = .windows) (hpc : s.pc = .freeing []) :
    Stepped s os t (.select sets) { s with
      pc   := .dispatch (.walk itr)
      sets := sets }
  | dispatch (k : Kernel) (d : Dispatch) (hpc : s.pc = .dispatch d) :
    Stepped s os t (.go k) (s.dispatch os k d)
  | halted (k : Kernel) (i : JobId) (d : Dispatch) (hpc : s.pc = .reading i d) :
    Stepped s os t (.go k) (s.goto (.dispatch d))
  | recv {β : Type} (out : RecvOut) (cliAddr : List UInt8) (i : JobId) (d : Dispatch)
    (v : Verdict β) (ask : s.asking = some (i, d)) (kind : (s.reg.job i).kind ≠ .listen)
    (call? : v.call? = none ↔ out = .intr ∨ out = .wouldBlock) :
    Stepped s os t (.recv out cliAddr) (s.round i d v)
  | accept {β : Type} (out : AcceptOut) (i : JobId) (d : Dispatch) (v : Verdict β)
    (ask : s.asking = some (i, d)) (kind : (s.reg.job i).kind = .listen)
    (call? : v.call? = none ↔ out.conn?.getD 0 = 0) : Stepped s os t (.accept out) (s.round i d v)
  | ret (pc : ServePc) (hpc : s.pc.Returned pc) : Stepped s os t .ret (s.goto pc)

theorem step_cases (h : s.step os t a = some s') : s.Stepped os t a s' := by
  cases a
  case call c k =>
    have ⟨hpc, h⟩ := Option.ite_none_right_eq_some.mp h
    exact Option.some.inj h ▸ .call c k hpc
  case close fd =>
    have ⟨hpc, h⟩ := Option.ite_none_right_eq_some.mp h
    exact Option.some.inj h ▸ .close fd hpc
  case sweep =>
    have ⟨hpc, h⟩ := Option.ite_none_right_eq_some.mp h
    exact Option.some.inj h ▸ .sweep hpc
  case wait ready =>
    have ⟨⟨hos, hpc, nodup⟩, h⟩ := Option.ite_none_right_eq_some.mp h
    have ⟨es, hs, h⟩ := Option.map_eq_some_iff.mp h
    exact h ▸ .wait ready es hos hpc nodup hs
  case select sets =>
    have ⟨⟨hos, hpc, _⟩, h⟩ := Option.ite_none_right_eq_some.mp h
    exact Option.some.inj h ▸ .select sets _ hos hpc
  case go k =>
    simp only [step] at h
    split at h
    case h_1 d hpc => exact Option.some.inj h ▸ .dispatch k d hpc
    case h_2 i d hpc =>
      have ⟨_, h⟩ := Option.ite_none_right_eq_some.mp h
      exact Option.some.inj h ▸ .halted k i d hpc
    all_goals contradiction
  case recv out cliAddr =>
    have ⟨⟨i, d⟩, ask, h⟩ := Option.bind_eq_some_iff.mp h
    simp only at h
    split at h <;> cases h
    case h_1 hk => exact .recv out cliAddr i d _ ask (by simp [hk]) tcpRound_call?
    case h_2 hk => exact .recv out cliAddr i d _ ask (by simp [hk]) udpRound_call?
  case accept out =>
    have ⟨⟨i, d⟩, ask, h⟩ := Option.bind_eq_some_iff.mp h
    simp only at h
    split at h <;> cases h
    case h_1 hk => exact .accept out i d _ ask hk acceptRound_call?
  case ret =>
    simp only [step] at h
    split at h
    case h_5 | h_6 | h_7 | h_8 => contradiction
    all_goals
      cases h
      rename_i hpc
      exact .ret _ (by simp [ServePc.Returned, hpc])

theorem step_grown (h : s.step os t a = some s') : s.reg.Grown s'.reg := by
  have same : s.reg.Grown s.reg := .of_job rfl rfl (List.Subset.refl _)
  cases step_cases h
  case call  => exact Os.call_outcome.grown
  case close => exact .of_job rfl rfl (List.Subset.refl _)
  case sweep =>
    rw [Registry.handleDelingJob_eq]
    exact .of_job rfl rfl List.filter_sublist.subset
  case dispatch k d hpc =>
    have hd : s.Dispatched os k (s.dispatch os k d) := s.dispatch_cases d
    generalize s.dispatch os k d = s' at hd
    cases hd
    case goto  => exact same
    case write => exact write_grown
  case recv | accept => exact round_reg.symm ▸ same
  case wait | select | halted | ret => exact same

theorem listed_grown {r r' : Registry} (listed : ∀ i ∈ r.ioJobs, i < r.next) (h : r.Grown r') :
    ∀ i ∈ r'.ioJobs, i < r'.next :=
  fun i hi => (h.ioJobs i hi).elim (fun hi => Nat.lt_of_lt_of_le (listed i hi) h.next) id

end Serving
end NetPool
