import NetPool.Lib.System
import NetPool.Io.Call

namespace NetPool

-- The moments in the life of a job that are visible outside the registry.
inductive JobEvent
  -- `add_io_job` has put it into the list.
  | added (i : JobId)
  -- A deleting call has found it, handed over a callback and marked it, or left it unmarked.
  | found (i : JobId) (freeFunc : Hdl) (marked : Bool)
  -- `handle_deling_job` has unlinked it, called its free callback, deleted it.
  | unlinked (i : JobId) (thrdIndex : Nat)
  | called (i : JobId) (freeFunc : Hdl) (thrdIndex : Nat)
  | deleted (i : JobId) (thrdIndex : Nat)
  deriving DecidableEq

namespace JobEvent

def job : JobEvent → JobId
  | added i | found i .. | unlinked i _ | called i .. | deleted i _ => i

@[simp] theorem job_added : (added i).job = i := rfl
@[simp] theorem job_found : (found i f m).job = i := rfl
@[simp] theorem job_unlinked : (unlinked i t).job = i := rfl
@[simp] theorem job_called : (called i f t).job = i := rfl
@[simp] theorem job_deleted : (deleted i t).job = i := rfl

def isCalled : JobEvent → Bool
  | called .. => true
  | _         => false

def isDeleted : JobEvent → Bool
  | deleted .. => true
  | _          => false

-- The free callback that a deleting call hands over with the event.
def freeFunc? : JobEvent → Option Hdl
  | found _ f _ => some f
  | _           => none

-- The callbacks that the deleting calls that have found the job `i` have handed over.
def handedOver (i : JobId) (es : List JobEvent) : List Hdl :=
  (es.filter (·.job = i)).filterMap freeFunc?

end JobEvent

-- A run of `handle_deling_job` that has left the lock: the job whose free callback it has called
-- and which it has not deleted yet, and the rest of `deleted_job`.
structure Pass where
  thrdIndex  : Nat
  current    : Option JobId
  deletedJob : List JobId

-- The registry with all calls under way. A call of `del_listen_job` stays in `listenDels` between
-- its section under the lock and its `epoll_ctl`; `deleted` and `log` are history.
structure Net where
  reg        : Registry
  listenDels : List (JobId × Fd)
  passes     : List Pass
  deleted    : List JobId
  log        : List JobEvent

namespace Net

def start (workerThrdCnt : Nat) : Net :=
  ⟨.empty workerThrdCnt, [], [], [], []⟩

-- One step of some thread. Calls made by a callback are steps like any others: they come between
-- the step that calls the callback and the one that follows it.
inductive Act
  | call (c : Call) (k : Kernel)
  | listenCtl (n : Nat) (k : Kernel)
  | sweep (thrdIndex : Nat)
  | freeCallback (n : Nat)
  | delete (n : Nat)
  | writeCtl (i : JobId) (k : Kernel)
  | writeClear (i : JobId)
  | close (fd : Fd)

def callEvents (r : Registry) (k : Kernel) (c : Call) : List JobEvent :=
  match r.findIoJob c.fd, c.freeFunc? with
  | some i, some f => [.found i f ((r.exec k c).1.job i).isWantDelete]
  | none,   none   => if (r.exec k c).2 then [.added r.next] else []
  | _,      _      => []

def callListenDels (r : Registry) : Call → List (JobId × Fd)
  | .delListen fd _ => (r.findIoJob fd).toList.map (·, fd)
  | _               => []

def step (s : Net) : Act → Option Net
  | .call c k => some { s with
      reg        := (s.reg.exec k c).1
      listenDels := s.listenDels ++ callListenDels s.reg c
      log        := s.log ++ callEvents s.reg k c }
  | .listenCtl n k => s.listenDels[n]?.map fun d => { s with
      reg        := (s.reg.delListenCtl k d.2).1
      listenDels := s.listenDels.eraseIdx n }
  | .sweep t =>
    let (reg, deletedJob) := s.reg.handleDelingJob t
    some { s with
      reg    := reg
      passes := s.passes ++ [⟨t, none, deletedJob⟩]
      log    := s.log ++ deletedJob.map (.unlinked · t) }
  | .freeCallback n =>
    match s.passes[n]? with
    | some ⟨t, none, i :: is⟩ => some { s with
        passes := s.passes.set n ⟨t, some i, is⟩
        log    := s.log ++ [.called i (s.reg.job i).freeFunc t] }
    | _ => none
  | .delete n =>
    match s.passes[n]? with
    | some ⟨t, some i, is⟩ => some { s with
        passes  := s.passes.set n ⟨t, none, is⟩
        deleted := s.deleted ++ [i]
        log     := s.log ++ [.deleted i t] }
    | _ => none
  -- The two steps of `CWrIoJob::write_evt_handle` under the lock of the job: `epoll_ctl` and the
  -- bit.
  | .writeCtl i k =>
    if i < s.reg.next ∧ i ∉ s.deleted ∧ (s.reg.job i).kind ≠ .listen
    then some { s with reg := s.reg.delIoWritingEvt k i }
    else none
  | .writeClear i =>
    if i < s.reg.next ∧ i ∉ s.deleted ∧ (s.reg.job i).kind ≠ .listen
    then some { s with reg := s.reg.modify i (·.delWriteIoEvent) }
    else none
  | .close fd => some { s with reg := s.reg.closeFd fd }

end Net

def net (workerThrdCnt : Nat) : System Net Net.Act where
  init s := s = .start workerThrdCnt
  step   := Net.step

end NetPool
