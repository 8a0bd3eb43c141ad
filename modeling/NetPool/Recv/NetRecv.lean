import NetPool.Io.Ctl
import NetPool.Io.Jobs
import NetPool.Recv.Writer

namespace NetPool

-- `m_thrd_index`; the body of `set_thrd_index` is commented out.
def thrdIndex : Nat :=
  0

-- The next thing that `free` does. It holds `m_register_lock`, and `m_is_freed` is set.
inductive FreePc
  | testRead
  | delRead
  | clearRead
  | testWrite
  | delWrite
  | clearWrite
  | testConnect
  | delConnect
  | clearConnect
  | unlock
  deriving DecidableEq

-- The thread that holds `m_register_lock`: a `send_data` before or after its `np_add_write_job`, or
-- a `free`, which the worker itself calls after a failed `send_handle`.
inductive Holder
  | send
  | sent (ret : Bool)
  | free (pc : FreePc) (worker : Bool)
  deriving DecidableEq

-- The next thing that the worker does: in `write_evt_handle` the test of `m_is_want_delete`, the
-- section under the lock of the job, the call of `m_write_func`; in `send_handle` what the writer
-- is about to do, or what follows `np_add_write_job`; in `_connect_callback` the call of
-- `connect_handle`, what the application does in there, and the rest.
inductive WorkPc
  | idle
  | testing (i : JobId)
  | writing (i : JobId)
  | calling (i : JobId)
  | sending
  | registered (ret : Bool)
  | failed
  | freeing
  | connect
  | handling (result : Bool)
  | readAdded (result ret : Bool)
  | handled (result : Bool)
  | testWrite
  | unregister
  | unregistered
  deriving DecidableEq

-- The job whose callback is about to be called.
def WorkPc.called : WorkPc → Option JobId
  | calling i => some i
  | _         => none

-- A `CNetRecv` with the registry it is registered in. `self` is its address, and `pending` counts
-- the `send_data` calls that have filled the queue and not yet taken `m_register_lock`. The rest is
-- history: whether a `free` has returned, how often `connect_handle` was called, how many write
-- events were taken up, and whether a `send_data` has made a write registration, and returned,
-- since the last one fired.
structure NetRecv where
  reg               : Registry
  writer            : Writer
  fd                : Fd
  self              : Nat
  isRegisterRead    : Bool
  isRegisterWrite   : Bool
  isRegisterConnect : Bool
  isConnected       : Bool
  isFreed           : Bool
  pending           : Nat
  holder            : Option Holder
  work              : WorkPc
  freed             : Bool
  connectCalls      : Nat
  events            : Nat
  added             : Bool
  owed              : Bool

namespace NetRecv

-- The constructors.
def new (reg : Registry) (fd : Fd) (self : Nat) : NetRecv where
  reg               := reg
  writer            := .new
  fd                := fd
  self              := self
  isRegisterRead    := false
  isRegisterWrite   := false
  isRegisterConnect := false
  isConnected       := false
  isFreed           := false
  pending           := 0
  holder            := none
  work              := .idle
  freed             := false
  connectCalls      := 0
  events            := 0
  added             := false
  owed              := false

-- `np_add_write_job` in `register_write`.
def addWrite (s : NetRecv) (k : Kernel) : Registry × Bool :=
  s.reg.addWriteJob k .sendCallback s.fd s.self thrdIndex true

-- `np_add_read_job` in `register_read`.
def addRead (s : NetRecv) (k : Kernel) : Registry × Bool :=
  s.reg.addReadJob k .recvCallback s.fd s.self thrdIndex 0 true

-- `np_del_read_job` in `unregister_read`.
def delRead (s : NetRecv) (k : Kernel) : Registry :=
  (s.reg.delReadJob k s.fd .freeCallback).1

-- `np_del_write_job` in `unregister_write` and `unregister_connect`.
def delWrite (s : NetRecv) (k : Kernel) : Registry :=
  (s.reg.delWriteJob k s.fd .freeCallback).1

-- `init` of an object with a descriptor: `register_read`.
def init (s : NetRecv) (k : Kernel) : Option NetRecv :=
  if (s.addRead k).2 then some { s with
    reg            := (s.addRead k).1
    isRegisterRead := true }
  else none

def registerRead (s : NetRecv) (k : Kernel) : NetRecv :=
  { s with
    reg            := (s.addRead k).1
    isRegisterRead := s.isRegisterRead || (s.addRead k).2 }

-- `np_add_write_job` in `register_connect`.
def addConnect (s : NetRecv) (k : Kernel) : Registry × Bool :=
  s.reg.addWriteJob k .connectCallback s.fd s.self thrdIndex true

-- What `connect` says about the descriptor of the new socket. Where it is connected at once,
-- `connect_handle` is called then and there, and it may call `register_read`.
inductive ConnectOut
  | connected (read : Bool)
  | inProgress
  | failed

-- `register_connect`, where it returns 0.
def registerConnect (s : NetRecv) (k : Kernel) (fd : Fd) : ConnectOut → Option NetRecv
  | .connected read =>
    let s := { s with
      fd           := fd
      isConnected  := true
      connectCalls := s.connectCalls + 1 }
    some <| if read then s.registerRead k else s
  | .inProgress     =>
    let s := { s with
      fd                := fd
      isRegisterConnect := true }
    if (s.addConnect k).2 then some { s with reg := (s.addConnect k).1 } else none
  | .failed         => none

def initAsyncWriteResource (s : NetRecv) : NetRecv :=
  { s with writer := s.writer.initAsyncWriteResource }

-- The only object of a registry, on descriptor 4, after its `init`.
def accepted : NetRecv :=
  let s := new (.empty 1) 4 7
  initAsyncWriteResource { s with
    reg            := (s.addRead .plain).1
    isRegisterRead := true }

-- The section of `send_data` under the lock of the queue. It goes on to register if it is in
-- asynchronous mode and has not run out of memory.
def enter (s : NetRecv) (news : List Mem) (buf : List UInt8) : Option NetRecv :=
  (s.writer.enter news buf).map fun writer => { s with
    writer  := writer
    pending :=
      if s.writer.isAsyncWrite ∧ (fillQueue s.writer.dataQueue news buf).done
      then s.pending + 1 else s.pending }

-- A `send_data` takes `m_register_lock`, and gives it back at once if `m_is_freed` is set.
def lock (s : NetRecv) : NetRecv :=
  { s with
    pending := s.pending - 1
    holder  := if s.isFreed then none else some .send }

def freeStep (s : NetRecv) (k : Kernel) (worker : Bool) : FreePc → NetRecv
  | .testRead     => { s with
    holder := some <| .free (if s.isRegisterRead then .delRead else .testWrite) worker }
  | .delRead      => { s with reg := s.delRead k, holder := some <| .free .clearRead worker }
  | .clearRead    => { s with isRegisterRead := false, holder := some <| .free .testWrite worker }
  | .testWrite    => { s with
    holder := some <| .free (if s.isRegisterWrite then .delWrite else .testConnect) worker }
  | .delWrite     => { s with reg := s.delWrite k, holder := some <| .free .clearWrite worker }
  | .clearWrite   => { s with isRegisterWrite := false, holder := some <| .free .unlock worker }
  | .testConnect  => { s with
    holder := some <| .free (if s.isRegisterConnect then .delConnect else .unlock) worker }
  | .delConnect   => { s with reg := s.delWrite k, holder := some <| .free .clearConnect worker }
  | .clearConnect => { s with isRegisterConnect := false, holder := some <| .free .unlock worker }
  | .unlock       => { s with
    holder := none
    freed  := true
    work   := if worker then .idle else s.work }

def startFree (s : NetRecv) (worker : Bool) : NetRecv :=
  { s with
    isFreed := true
    holder  := some <| .free .testRead worker }

-- One step of the thread that holds `m_register_lock`.
def hold (s : NetRecv) (k : Kernel) : Holder → NetRecv
  | .send           => { s with
    reg    := (s.addWrite k).1
    holder := some <| .sent (s.addWrite k).2
    added  := s.added || (s.addWrite k).2 }
  | .sent ret       => { s with
    isRegisterWrite := s.isRegisterWrite || ret
    holder          := none
    owed            := s.owed || s.added }
  | .free pc worker => s.freeStep k worker pc

-- `epoll_wait` has returned the entry of the descriptor with `EPOLLOUT`, for a job of the object.
def wait (s : NetRecv) : Option NetRecv :=
  match s.reg.epfd thrdIndex s.fd with
  | some e => if e.events.epollout ∧ (s.reg.job e.ptr).param1 = s.self then some { s with
      work   := .testing e.ptr
      events := s.events + 1 }
    else none
  | none   => none

-- One step of the worker in `send_handle`, up to its `register_write`.
def sendStep (s : NetRecv) (k : Kernel) : Option NetRecv :=
  match s.writer.pc with
  | .deq      => some { s with
    writer := s.writer.deq
    work   := if s.writer.deq.pc = .idle then .idle else .sending }
  | .register => some { s with
    reg    := (s.addWrite k).1
    writer := { s.writer with pc := .idle }
    work   := .registered (s.addWrite k).2 }
  | _         => (s.writer.step .finish).map fun writer => { s with writer := writer }

-- One step of the worker that the state determines. The descriptor that the callbacks get is that
-- of the job, which is `m_fd`. Callbacks of the application stay outside.
def work' (s : NetRecv) (k : Kernel) : Option NetRecv :=
  match s.work with
  | .testing i            =>
    some { s with work := if (s.reg.job i).isWantDelete then .idle else .writing i }
  | .writing i            => some { s with
    reg   := (s.reg.delIoWritingEvt k i).modify i (·.delWriteIoEvent)
    work  := .calling i
    added := false
    owed  := false }
  | .calling i            =>
    match (s.reg.job i).writeFunc with
    | .sendCallback    => some { s with writer := s.writer.start, work := .sending }
    | .connectCallback => some { s with work := .connect }
    | _                => none
  | .sending              => s.sendStep k
  | .registered ret       => some { s with
    isRegisterWrite := s.isRegisterWrite || ret
    work            := .idle }
  | .failed               =>
    if s.holder = none then some { s.startFree true with work := .freeing } else none
  | .readAdded result ret => some { s with
    isRegisterRead := s.isRegisterRead || ret
    work           := .handling result }
  | .handling result      => some { s with work := .handled result }
  | .handled result       => some { s with
    isConnected := s.isConnected || result
    work        := .testWrite }
  | .testWrite            => some { s with
    work := if s.isRegisterWrite = false ∧ s.isRegisterConnect then .unregister else .idle }
  | .unregister           => some { s with reg := s.delWrite k, work := .unregistered }
  | .unregistered         => some { s with isRegisterConnect := false, work := .idle }
  | .idle | .freeing | .connect => none

inductive Act
  | enter (news : List Mem) (buf : List UInt8)
  | direct (i : Nat) (round : Round)
  | lock
  | free
  | hold (k : Kernel)
  | wait
  | work (k : Kernel)
  | send (out : SendOut)
  | connect (result : Bool)
  | registerRead (k : Kernel)
  | sweep

def step (s : NetRecv) : Act → Option NetRecv
  | .enter news buf => s.enter news buf
  | .direct i round => (s.writer.step (.direct i round)).map fun writer => { s with writer := writer }
  | .lock           => if 0 < s.pending ∧ s.holder = none then some s.lock else none
  | .free           => if s.holder = none then some (s.startFree false) else none
  | .hold k         => s.holder.map (s.hold k)
  | .wait           => if s.work = .idle then s.wait else none
  | .work k         => s.work' k
  | .send out       =>
    if s.work = .sending then
      (s.writer.step (.send out)).map fun writer => { s with
        writer := writer
        work   := match out with
          | .error               => .failed
          | .sent _ | .again | .intr => .sending }
    else none
  -- `connect_handle` is called with what `getsockopt` says about the connection.
  | .connect result =>
    if s.work = .connect then some { s with
      connectCalls := s.connectCalls + 1
      work         := .handling result }
    else none
  | .registerRead k =>
    match s.work with
    | .handling result => some { s with
      reg  := (s.addRead k).1
      work := .readAdded result (s.addRead k).2 }
    | _                => none
  | .sweep          =>
    if s.work = .idle then some { s with reg := (s.reg.handleDelingJob thrdIndex).1 } else none

end NetRecv

-- An object from some state of it on. Its worker is the loop of thread 0.
def netRecv (init : NetRecv → Prop) : System NetRecv NetRecv.Act where
  init := init
  step := NetRecv.step

end NetPool
