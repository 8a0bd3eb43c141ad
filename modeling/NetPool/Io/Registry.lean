import NetPool.Io.Epoll

namespace NetPool

-- What `g_IoJobMgr` and `g_NetPoll` hold, together with the memory of the jobs. `next` is the
-- address of the next job that will be allocated; the epoll instance of thread `i` is `epfd i`.
structure Registry where
  job           : JobId → IoJob
  next          : JobId
  ioJobs        : List JobId
  epfd          : Nat → EpollSet
  curThrdIndex  : Nat
  workerThrdCnt : Nat

namespace Registry

def empty (workerThrdCnt : Nat) : Registry where
  job _         := .new .tcp 0 0
  next          := 0
  ioJobs        := []
  epfd _ _      := none
  curThrdIndex  := 0
  workerThrdCnt := workerThrdCnt

-- The loop stops at the first job with the descriptor, whether or not that job is marked deleting.
def findIoJob (r : Registry) (fd : Fd) : Option JobId :=
  match r.ioJobs.find? (fun i => (r.job i).fd = fd) with
  | none   => none
  | some i => if (r.job i).isWantDelete then none else some i

def addIoJob (r : Registry) (j : IoJob) : Registry :=
  { r with
    job    := Function.update r.job r.next j
    next   := r.next + 1
    ioJobs := r.ioJobs ++ [r.next] }

def modify (r : Registry) (i : JobId) (f : IoJob → IoJob) : Registry :=
  { r with job := Function.update r.job i (f (r.job i)) }

-- `epoll_ctl` on `m_epfd[i]`.
def epollCtl (r : Registry) (k : Kernel) (i : Nat) (op : EpollOp) (fd : Fd) : Option Registry :=
  (k.epollCtl op fd (r.epfd i)).map fun set => { r with epfd := Function.update r.epfd i set }

def getNextThrdIndex (r : Registry) : Registry :=
  { r with
    curThrdIndex := if r.curThrdIndex + 1 ≥ r.workerThrdCnt then 0 else r.curThrdIndex + 1 }

-- The thread of a new job: the one asked for, or the next one in turn if there is no such thread.
def pickThrdIndex (r : Registry) (thrdIndex : Nat) : Registry × Nat :=
  if thrdIndex ≥ r.workerThrdCnt
  then (r.getNextThrdIndex, r.getNextThrdIndex.curThrdIndex)
  else (r, thrdIndex)

-- The common end of the three functions that make a new job: `EPOLL_CTL_ADD` on the epoll instance
-- of its thread, then the job is put into the list, or deleted if the call failed.
def register (r : Registry) (k : Kernel) (j : IoJob) (ev : EpollEvents) : Registry × Bool :=
  match r.epollCtl k j.thrdIndex (.add ⟨ev, r.next⟩) j.fd with
  | none    => (r, false)
  | some r' => (r'.addIoJob j, true)

def addListenJob (r : Registry) (k : Kernel) (ioFunc : Hdl) (fd : Fd) (param1 : Nat) :
    Registry × Bool :=
  match r.findIoJob fd with
  | some _ => (r, false)
  | none   =>
    let j := IoJob.new .listen fd param1 |>.setReadCallback ioFunc |>.addReadIoEvent |>.setThrdIndex 0
    r.register k j ⟨true, false, true⟩

-- The part of `del_listen_job` under the lock. Its `epoll_ctl` comes after the lock is released.
def delListenJob (r : Registry) (fd : Fd) (freeFunc : Hdl) : Registry × Bool :=
  match r.findIoJob fd with
  | none   => (r, false)
  | some i => (r.modify i fun j => j.setFreeCallback freeFunc |>.setDeletingFlag, true)

-- The rest of `del_listen_job`, always on the epoll instance of thread 0.
def delListenCtl (r : Registry) (k : Kernel) (fd : Fd) : Registry × Bool :=
  match r.epollCtl k 0 .del fd with
  | none    => (r, false)
  | some r' => (r', true)

def addReadJob (r : Registry) (k : Kernel) (ioFunc : Hdl) (fd : Fd) (param1 thrdIndex bufferSize : Nat)
    (isTcp : Bool) : Registry × Bool :=
  match r.findIoJob fd with
  | none =>
    let j := IoJob.newWr isTcp fd param1 |>.setReadCallback ioFunc |>.addReadIoEvent
      |>.initRecvBuf bufferSize
    let (r, thrdIndex) := r.pickThrdIndex thrdIndex
    r.register k (j.setThrdIndex thrdIndex) ⟨true, false, true⟩
  | some i =>
    let j := r.job i
    let ctl :=
      if j.ioEventWrite then r.epollCtl k j.thrdIndex (.mod ⟨⟨true, true, true⟩, i⟩) fd
      -- This call uses the argument, not the thread of the job.
      else if !j.ioEventRead then r.epollCtl k thrdIndex (.add ⟨⟨true, false, true⟩, i⟩) fd
      else some r
    match ctl with
    | none   => (r, false)
    | some r => (r.modify i fun j => j.setReadCallback ioFunc |>.addReadIoEvent
        |>.initRecvBuf bufferSize, true)

def delReadJob (r : Registry) (k : Kernel) (fd : Fd) (freeFunc : Hdl) : Registry × Bool :=
  match r.findIoJob fd with
  | none   => (r, false)
  | some i =>
    let r := r.modify i (·.setFreeCallback freeFunc)
    let j := r.job i
    let r :=
      if j.ioEventWrite then (r.epollCtl k j.thrdIndex (.mod ⟨⟨false, true, true⟩, i⟩) fd).getD r
      else if j.ioEventRead then
        ((r.epollCtl k j.thrdIndex .del fd).getD r).modify i (·.setDeletingFlag)
      else r.modify i (·.setDeletingFlag)
    (r.modify i (·.delReadIoEvent), true)

def addWriteJob (r : Registry) (k : Kernel) (ioFunc : Hdl) (fd : Fd) (param1 thrdIndex : Nat)
    (isTcp : Bool) : Registry × Bool :=
  match r.findIoJob fd with
  | none =>
    let j := IoJob.newWr isTcp fd param1 |>.setWriteCallback ioFunc |>.addWriteIoEvent
    let (r, thrdIndex) := r.pickThrdIndex thrdIndex
    r.register k (j.setThrdIndex thrdIndex) ⟨false, true, true⟩
  | some i =>
    let r := r.modify i (·.setWriteCallback ioFunc)
    let j := r.job i
    if !j.ioEventWrite then
      let r := r.modify i (·.addWriteIoEvent)
      let ctl :=
        if j.ioEventRead then r.epollCtl k j.thrdIndex (.mod ⟨⟨true, true, true⟩, i⟩) fd
        -- As in `add_read_job`, the argument and not the thread of the job.
        else r.epollCtl k thrdIndex (.add ⟨⟨false, true, false⟩, i⟩) fd
      match ctl with
      | none   => (r, false)
      | some r => (r, true)
    else (r, true)

def delWriteJob (r : Registry) (k : Kernel) (fd : Fd) (freeFunc : Hdl) : Registry × Bool :=
  match r.findIoJob fd with
  | none   => (r, true)
  | some i =>
    let r := r.modify i (·.setFreeCallback freeFunc)
    let j := r.job i
    let r :=
      if j.ioEventRead then (r.epollCtl k j.thrdIndex (.mod ⟨⟨true, false, true⟩, i⟩) fd).getD r
      else if j.ioEventWrite then
        ((r.epollCtl k j.thrdIndex .del fd).getD r).modify i (·.setDeletingFlag)
      else r.modify i (·.setDeletingFlag)
    (r.modify i (·.delWriteIoEvent), true)

def delIoWritingEvt (r : Registry) (k : Kernel) (i : JobId) : Registry :=
  let j := r.job i
  if j.ioEventRead then (r.epollCtl k j.thrdIndex (.mod ⟨⟨true, false, true⟩, i⟩) j.fd).getD r
  else (r.epollCtl k j.thrdIndex .del j.fd).getD r

-- The part of `CWrIoJob::write_evt_handle` under the lock of the job. The override of a listening
-- job only logs.
def writeEvtHandle (r : Registry) (k : Kernel) (i : JobId) : Registry :=
  match (r.job i).kind with
  | .listen     => r
  | .tcp | .udp =>
    if (r.job i).isWantDelete then r else (r.delIoWritingEvt k i).modify i (·.delWriteIoEvent)

-- One round of the loop of `handle_deling_job` for each position of the list. The iterator has
-- moved on before `remove` unlinks every element equal to the one at hand.
def handleDelingLoop (thrdIndex : Nat) : List JobId → Registry × List JobId → Registry × List JobId
  | [],      acc          => acc
  | i :: is, (r, deleted) =>
    handleDelingLoop thrdIndex is <|
      if (r.job i).thrdIndex = thrdIndex ∧ (r.job i).isWantDelete then
        ({ r with ioJobs := r.ioJobs.filter (· ≠ i) }, deleted ++ [i])
      else (r, deleted)

-- The part of `handle_deling_job` under the lock: the jobs to free and the list without them.
def handleDelingJob (r : Registry) (thrdIndex : Nat) : Registry × List JobId :=
  handleDelingLoop thrdIndex r.ioJobs (r, [])

-- Closing a descriptor removes it from every interest list.
def closeFd (r : Registry) (fd : Fd) : Registry :=
  { r with epfd := fun i => Function.update (r.epfd i) fd none }

end Registry
end NetPool
