import Mathlib

namespace NetPool

abbrev Fd := Int

-- The address of a `CIoJob`. Each object that is put into the registry gets an address of its own.
abbrev JobId := Nat

-- The function pointers that reach the registry: the default of the constructor, the static members
-- of `CNetRecv`, and the functions of the application.
inductive Hdl
  | null
  | defaultFreeHandle
  | recvCallback
  | sendCallback
  | connectCallback
  | freeCallback
  | app (n : Nat)
  deriving DecidableEq

-- `CListenJob`, `CTcpJob` and `CUdpJob`.
inductive JobKind
  | listen
  | tcp
  | udp
  deriving DecidableEq

-- The bits `IO_FLAG_READ` and `IO_FLAG_WRITE` of `m_now_event`; no other bit of it is ever set.
@[ext]
structure NowEvent where
  read  : Bool
  write : Bool
  deriving DecidableEq

def NowEvent.zero : NowEvent :=
  ⟨false, false⟩

theorem NowEvent.ne_zero_iff {e : NowEvent} : e ≠ .zero ↔ e.read = true ∨ e.write = true := by
  obtain ⟨r, w⟩ := e
  cases r <;> cases w <;> simp [zero]

-- `writeFunc` and `readFunc` are not initialized by the constructors; they read as `null` here.
structure IoJob where
  kind         : JobKind
  fd           : Fd
  param1       : Nat
  thrdIndex    : Nat
  nowEvent     : NowEvent
  isWantDelete : Bool
  freeFunc     : Hdl
  readFunc     : Hdl
  writeFunc    : Hdl
  cacheLen     : Nat
  deriving DecidableEq

namespace IoJob

def new (kind : JobKind) (fd : Fd) (param1 : Nat) : IoJob where
  kind         := kind
  fd           := fd
  param1       := param1
  thrdIndex    := 0
  nowEvent     := .zero
  isWantDelete := false
  freeFunc     := .defaultFreeHandle
  readFunc     := .null
  writeFunc    := .null
  cacheLen     := 0

-- `new CTcpJob(fd, param1)` or `new CUdpJob(fd, param1)`.
def newWr (isTcp : Bool) (fd : Fd) (param1 : Nat) : IoJob :=
  new (if isTcp then .tcp else .udp) fd param1

def setReadCallback (j : IoJob) (callback : Hdl) : IoJob :=
  { j with readFunc := callback }

-- A listening job has no write callback: its overrides of `set_write_callback` and `init_recv_buf`
-- only log.
def setWriteCallback (j : IoJob) (callback : Hdl) : IoJob :=
  { j with writeFunc := match j.kind with
    | .listen     => j.writeFunc
    | .tcp | .udp => callback }

def initRecvBuf (j : IoJob) (bufferSize : Nat) : IoJob :=
  { j with cacheLen := match j.kind with
    | .listen     => j.cacheLen
    | .tcp | .udp => if bufferSize = 0 then 1500 else bufferSize }

def setFreeCallback (j : IoJob) (callback : Hdl) : IoJob :=
  { j with freeFunc := callback }

def setDeletingFlag (j : IoJob) : IoJob :=
  { j with isWantDelete := true }

def setThrdIndex (j : IoJob) (thrdIndex : Nat) : IoJob :=
  { j with thrdIndex := thrdIndex }

def addReadIoEvent (j : IoJob) : IoJob :=
  { j with nowEvent := { j.nowEvent with read := true } }

def delReadIoEvent (j : IoJob) : IoJob :=
  { j with nowEvent := { j.nowEvent with read := false } }

def addWriteIoEvent (j : IoJob) : IoJob :=
  { j with nowEvent := { j.nowEvent with write := true } }

def delWriteIoEvent (j : IoJob) : IoJob :=
  { j with nowEvent := { j.nowEvent with write := false } }

abbrev ioEventRead (j : IoJob) : Bool :=
  j.nowEvent.read

abbrev ioEventWrite (j : IoJob) : Bool :=
  j.nowEvent.write

-- What no operation on a job ever changes: its identity and the worker thread it belongs to.
structure SameOwner (j j' : IoJob) : Prop where
  kind      : j'.kind = j.kind
  fd        : j'.fd = j.fd
  param1    : j'.param1 = j.param1
  thrdIndex : j'.thrdIndex = j.thrdIndex

theorem SameOwner.refl (j : IoJob) : SameOwner j j :=
  ⟨rfl, rfl, rfl, rfl⟩

theorem SameOwner.trans (h₁ : SameOwner j₁ j₂) (h₂ : SameOwner j₂ j₃) : SameOwner j₁ j₃ where
  kind      := h₂.kind.trans h₁.kind
  fd        := h₂.fd.trans h₁.fd
  param1    := h₂.param1.trans h₁.param1
  thrdIndex := h₂.thrdIndex.trans h₁.thrdIndex

end IoJob
end NetPool
