import NetPool.Io.Net
import NetPool.Io.Ctl

namespace NetPool

-- An element of the array that `epoll_wait` fills: the pointer of the entry and two of the event
-- bits.
structure EpollEvent where
  ptr      : JobId
  epollin  : Bool
  epollout : Bool
  deriving DecidableEq

-- How far `loop_handle` is with the event at hand. `writing` is `CWrIoJob::write_evt_handle`
-- between its test of `m_is_want_delete` and its `epoll_ctl`, `clearing` the time from there until
-- the write bit is cleared, during which it holds the lock of the job.
inductive Stage
  | reading
  | testing
  | writing
  | clearing
  | hup
  deriving DecidableEq

inductive LoopPc
  | top
  | swept
  | dispatch (events : List EpollEvent) (stage : Stage)
  deriving DecidableEq

def LoopPc.events : LoopPc → List EpollEvent
  | dispatch es _ => es
  | top | swept   => []

-- The calls and the worker loops together. `locked` are the jobs whose lock a worker holds. `stale`
-- is history: the jobs that `del_listen_job` has marked while they had an event bit, until that
-- call has removed the entry from the epoll instance of their thread or the descriptor has been
-- closed.
structure Loop where
  net    : Net
  pc     : Nat → LoopPc
  locked : List JobId
  stale  : List JobId

namespace Loop

def start (workerThrdCnt : Nat) : Loop where
  net    := .start workerThrdCnt
  pc _   := .top
  locked := []
  stale  := []

inductive Act
  | call (c : Call) (k : Kernel)
  | listenCtl (n : Nat) (k : Kernel)
  | close (fd : Fd)
  | sweep (t : Nat)
  | freeCallback (n : Nat)
  | delete (n : Nat)
  | wait (t : Nat) (ready : List (Fd × Bool × Bool))
  | work (t : Nat) (k : Kernel)

-- The calls that take the lock of the job they find. That of a listening job is no lock.
def takesLock : Call → Bool
  | .addRead .. | .delRead .. | .addWrite .. | .delWrite .. => true
  | .addListen .. | .delListen ..                           => false

def blocked (s : Loop) (c : Call) : Prop :=
  takesLock c = true ∧ ∃ i ∈ s.net.reg.findIoJob c.fd, i ∈ s.locked

instance : Decidable (blocked s c) :=
  inferInstanceAs (Decidable (_ ∧ ∃ i ∈ _, _))

def unlisted (s : Loop) : Call → List JobId
  | .delListen fd _ =>
    (s.net.reg.findIoJob fd).toList.filter fun i => (s.net.reg.job i).nowEvent ≠ .zero
  | _               => []

def listenStale (s : Loop) (n : Nat) : List JobId :=
  match s.net.listenDels[n]? with
  | some (i, _) => if (s.net.reg.job i).thrdIndex = 0 then s.stale.filter (· ≠ i) else s.stale
  | none        => s.stale

def epollEvent (r : Registry) (t : Nat) (ready : Fd × Bool × Bool) : Option EpollEvent :=
  (r.epfd t ready.1).bind fun e =>
    if (ready.2.1 → e.events.epollin) ∧ (ready.2.2 → e.events.epollout)
    then some ⟨e.ptr, ready.2.1, ready.2.2⟩
    else none

-- The pass of loop `t` has freed every job it has taken out of the list.
def passDone (s : Loop) (t : Nat) : Prop :=
  ∀ p ∈ s.net.passes, p.thrdIndex = t → p.current = none ∧ p.deletedJob = []

instance : Decidable (passDone s t) :=
  inferInstanceAs (Decidable (∀ p ∈ _, _))

-- One step of loop `t` with the first event of its array. What a callback does are steps of their
-- own.
def handle (s : Loop) (t : Nat) (k : Kernel) (e : EpollEvent) (es : List EpollEvent) :
    Stage → Option Loop
  | .reading  => some { s with pc := Function.update s.pc t (.dispatch (e :: es) .testing) }
  | .testing  =>
    let j := s.net.reg.job e.ptr
    if e.epollout ∧ j.kind ≠ .listen ∧ j.isWantDelete = false
    then some { s with pc := Function.update s.pc t (.dispatch (e :: es) .writing) }
    else some { s with pc := Function.update s.pc t (.dispatch (e :: es) .hup) }
  | .writing  =>
    if e.ptr ∈ s.locked then none
    else (s.net.step (.writeCtl e.ptr k)).map fun net => { s with
      net    := net
      pc     := Function.update s.pc t (.dispatch (e :: es) .clearing)
      locked := e.ptr :: s.locked }
  | .clearing =>
    (s.net.step (.writeClear e.ptr)).map fun net => { s with
      net    := net
      pc     := Function.update s.pc t (.dispatch (e :: es) .hup)
      locked := s.locked.filter (· ≠ e.ptr) }
  | .hup      => some { s with pc := Function.update s.pc t (.dispatch es .reading) }

-- `epoll_ctl` does not refuse to remove an entry that is there.
def step (s : Loop) : Act → Option Loop
  | .call c k =>
    if k.refuseDel = true ∨ s.blocked c then none
    else (s.net.step (.call c k)).map fun net => { s with
      net   := net
      stale := s.stale ++ s.unlisted c }
  | .listenCtl n k =>
    if k.refuseDel = true then none
    else (s.net.step (.listenCtl n k)).map fun net => { s with
      net   := net
      stale := s.listenStale n }
  | .close fd => (s.net.step (.close fd)).map fun net => { s with
      net   := net
      stale := s.stale.filter fun i => (s.net.reg.job i).fd ≠ fd }
  | .sweep t =>
    if s.pc t = .top
    then (s.net.step (.sweep t)).map fun net => { s with
      net := net
      pc  := Function.update s.pc t .swept }
    else none
  | .freeCallback n => (s.net.step (.freeCallback n)).map fun net => { s with net := net }
  | .delete n       => (s.net.step (.delete n)).map fun net => { s with net := net }
  -- A failed `epoll_wait` and one that has timed out are those with no event.
  | .wait t ready =>
    if s.pc t = .swept ∧ s.passDone t
    then (ready.mapM (epollEvent s.net.reg t)).map fun es => { s with
      pc := Function.update s.pc t (.dispatch es .reading) }
    else none
  | .work t k =>
    if k.refuseDel = true then none
    else match s.pc t with
      | .dispatch (e :: es) stage => s.handle t k e es stage
      | .dispatch [] _            => some { s with pc := Function.update s.pc t .top }
      | .top | .swept             => none

end Loop

def loop (workerThrdCnt : Nat) : System Loop Loop.Act where
  init s := s = .start workerThrdCnt
  step   := Loop.step

end NetPool
