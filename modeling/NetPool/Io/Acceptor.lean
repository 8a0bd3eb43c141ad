import NetPool.Io.Listening
import NetPool.Sock.Setup

namespace NetPool

-- The two callbacks of `CNetAccept`. To the registry they are functions like those of the
-- application, which cannot name them since they are private.
def Hdl.acceptCallback : Hdl :=
  .app 0

def Hdl.freeListenCallback : Hdl :=
  .app 1

namespace Call

def ioFunc? : Call → Option Hdl
  | addListen ioFunc .. | addRead ioFunc .. | addWrite ioFunc .. => some ioFunc
  | delRead .. | delWrite .. | delListen ..                      => none

def Foreign (c : Call) : Prop :=
  c.ioFunc? ≠ some .acceptCallback ∧ c.freeFunc? ≠ some .freeListenCallback

instance {c : Call} : Decidable c.Foreign :=
  inferInstanceAs (Decidable (_ ∧ _))

end Call

-- `CNetAccept`; `deleted` is history.
structure NetAccept where
  listenPort : BitVec 16
  listenFd   : Fd
  deleted    : Bool
  deriving DecidableEq

def NetAccept.new (port : BitVec 16) : NetAccept where
  listenPort := port
  listenFd   := -1
  deleted    := false

-- The jobs whose free callbacks the thread is still to call.
def ServePc.freed : ServePc → List JobId
  | freeing is                                                      => is
  | outside | dispatch _ | reading .. | readFunc .. | writeFunc ..  => []

-- Where `_accept_callback` is: before `getpeername`, with its object, or in `accept_handle`.
inductive AcceptPc
  | outside
  | entered (p cliFd : Nat)
  | handling (cliFd : Nat)
  deriving DecidableEq

namespace AcceptPc

def isEntered : AcceptPc → Bool
  | entered ..            => true
  | outside | handling _  => false

def cliFd? : AcceptPc → Option Nat
  | entered _ cliFd | handling cliFd => some cliFd
  | outside                          => none

def handling? : AcceptPc → Option Nat
  | handling cliFd        => some cliFd
  | outside | entered ..  => none

end AcceptPc

-- What becomes of a connection: it has no peer, or `accept_handle` has taken it or not.
inductive Settled
  | noPeer
  | taken
  | refused
  deriving DecidableEq

-- The worker with the objects of the class; the object `p` is the `p`-th that was made. All but
-- `acceptPc` of the rest is history: the objects whose `unregister_accept` has called
-- `np_del_listen_job`, what the two callbacks and `accept_handle` were called with, the connections
-- that `_accept_callback` was called for, that it has closed and what has become of them.
structure Accepting where
  serving  : Serving
  obj      : Nat → NetAccept
  next     : Nat
  acceptPc : AcceptPc
  asked    : List Nat
  accepts  : List (Nat × NetAccept)
  handled  : List (Nat × NetAccept)
  frees    : List (Nat × Fd × NetAccept)
  accepted : List Nat
  closes   : List Nat
  settled  : List (Nat × Settled)

namespace Accepting

def start (workerThrdCnt : Nat) : Accepting where
  serving  := .start workerThrdCnt
  obj _    := .new 0
  next     := 0
  acceptPc := .outside
  asked    := []
  accepts  := []
  handled  := []
  frees    := []
  accepted := []
  closes   := []
  settled  := []

-- `getpeername` and `acceptHandle` are the returns of what `_accept_callback` calls, and `freed` is
-- the end of `_free_callback`.
inductive Act
  | serve (a : Serving.Act)
  | construct (port : BitVec 16)
  | init (p : Nat) (a : Sock.ServerAnswers) (k : Kernel)
  | free (p : Nat) (k : Kernel)
  | getpeername (ret : Int)
  | acceptHandle (ret : Int)
  | freed

def job (s : Accepting) (i : JobId) : IoJob :=
  s.serving.reg.job i

def call (s : Accepting) (os : Os) (k : Kernel) (c : Call) : Accepting :=
  { s with serving := s.serving.called os k c }

def registerAccept (s : Accepting) (os : Os) (k : Kernel) (p : Nat) (listenFd : Fd) : Accepting :=
  let s := { s with obj := Function.update s.obj p { s.obj p with listenFd } }
  if listenFd = -1 then s else s.call os k (.addListen .acceptCallback listenFd p)

def unregisterAccept (s : Accepting) (os : Os) (k : Kernel) (p : Nat) : Accepting :=
  if (s.obj p).listenFd ≠ -1 then
    { s.call os k (.delListen (s.obj p).listenFd .freeListenCallback) with asked := s.asked ++ [p] }
  else s

-- The worker takes a step, which may be the call of `_accept_callback`.
def served (s : Accepting) (a : Serving.Act) (serving : Serving) : Accepting :=
  match a, serving.pc with
  | .accept (.conn connFd), .readFunc i _ _ =>
    if (s.job i).readFunc = .acceptCallback then
      { s with
        serving  := serving
        acceptPc := .entered (s.job i).param1 connFd
        accepts  := s.accepts ++ [((s.job i).param1, s.obj (s.job i).param1)]
        accepted := s.accepted ++ [connFd] }
    else { s with serving := serving }
  | _, _ => { s with serving := serving }

-- The job whose `_free_callback` is running.
def freeing? (s : Accepting) : Option JobId :=
  s.serving.pc.freed.head?.filter fun i => (s.job i).freeFunc = .freeListenCallback

-- The two callbacks return by steps of their own, and nothing else happens before `getpeername`.
def mayServe (s : Accepting) : Serving.Act → Bool
  | .ret => s.acceptPc = .outside ∧ s.freeing? = none
  | .call .. | .close _ | .sweep | .wait _ | .select _ | .go _ | .recv .. | .accept _ =>
    !s.acceptPc.isEntered

-- The application runs.
def mayCall (s : Accepting) : Bool :=
  s.serving.pc.inCallback && !s.acceptPc.isEntered

def closed (s : Accepting) (fd : Fd) : Serving :=
  { s.serving with reg := s.serving.reg.closeFd fd }

-- `_free_callback`. While `free_handle` runs, which may make calls, the object stays as it is.
def freeCallback (s : Accepting) (fd : Fd) (p : Nat) : Accepting :=
  let s := { s with frees := s.frees ++ [(p, fd, s.obj p)] }
  if (s.obj p).listenFd ≠ fd then s
  else { s with
    serving := s.closed (s.obj p).listenFd
    obj     := Function.update s.obj p { s.obj p with listenFd := -1, deleted := true } }

section Step

variable (e : Endian) (pton : InetPton) (os : Os) (t : Nat)

-- `_accept_callback` returns to the accept loop.
def settle (s : Accepting) (cliFd : Nat) (o : Settled) : Option Accepting :=
  let serving := if o = .taken then s.serving else s.closed cliFd
  (serving.step os t .ret).map fun serving => { s with
    serving  := serving
    acceptPc := .outside
    closes   := if o = .taken then s.closes else s.closes ++ [cliFd]
    settled  := s.settled ++ [(cliFd, o)] }

def getpeername (s : Accepting) (ret : Int) : Option Accepting :=
  match s.acceptPc with
  | .entered p cliFd =>
    if ret ≠ 0 then s.settle os t cliFd .noPeer
    else some { s with
      acceptPc := .handling cliFd
      handled  := s.handled ++ [(cliFd, s.obj p)] }
  | .outside | .handling _ => none

def acceptHandle (s : Accepting) (ret : Int) : Option Accepting :=
  match s.acceptPc with
  | .handling cliFd        => s.settle os t cliFd (if 0 ≠ ret then .refused else .taken)
  | .outside | .entered .. => none

def step (s : Accepting) : Act → Option Accepting
  | .serve a          => if s.mayServe a then (s.serving.step os t a).map (s.served a) else none
  | .construct port   => some { s with
      obj  := Function.update s.obj s.next (.new port)
      next := s.next + 1 }
  | .init p a k       =>
    if s.mayCall ∧ p < s.next then
      some (s.registerAccept os k p (Sock.sockCreateServer e pton (s.obj p).listenPort a).1)
    else none
  | .free p k         =>
    if s.mayCall ∧ p < s.next then some (s.unregisterAccept os k p) else none
  | .getpeername ret  => s.getpeername os t ret
  | .acceptHandle ret => s.acceptHandle os t ret
  | .freed            => s.freeing?.bind fun i =>
    let s := s.freeCallback (s.job i).fd (s.job i).param1
    (s.serving.step os t .ret).map fun serving => { s with serving := serving }

-- The descriptor of a new socket is not that of an object, and the jobs that still have it are to
-- be deleted.
def Fresh (s : Accepting) (fd : Fd) : Prop :=
  (∀ p < s.next, (s.obj p).listenFd = fd → fd = -1) ∧
    ∀ i ∈ s.serving.reg.ioJobs, (s.job i).fd = fd → fd ≠ -1 → (s.job i).isWantDelete = true

-- The condition on a step: the application uses an object that is there, starts it once, makes no
-- calls on its descriptor, and `epoll_ctl` does not refuse to remove an entry.
def Meets (s : Accepting) : Act → Prop
  | .serve (.call c k) => k.refuseDel = false ∧ s.serving.reg.Apart c ∧ c.Foreign ∧
      ∀ p < s.next, (s.obj p).listenFd = c.fd → c.fd = -1
  | .serve (.go k)     => k.refuseDel = false
  | .init p a k        => k.refuseDel = false ∧ s.obj p = .new (s.obj p).listenPort ∧
      s.Fresh (Sock.sockCreateServer e pton (s.obj p).listenPort a).1
  | .free p k          => k.refuseDel = false ∧ (s.obj p).deleted = false
  | .serve (.close _) | .serve .sweep | .serve (.wait _) | .serve (.select _) | .serve (.recv ..)
  | .serve (.accept _) | .serve .ret | .construct _ | .getpeername _
  | .acceptHandle _ | .freed => True

instance {s : Accepting} {fd : Fd} : Decidable (s.Fresh fd) :=
  inferInstanceAs (Decidable ((∀ p < s.next, _ → _) ∧ ∀ i ∈ _, _ → _ → _))

instance : ∀ s a, Decidable (Meets e pton s a)
  | _, .serve (.call ..) => inferInstanceAs (Decidable
      (_ ∧ (∀ i ∈ Registry.findIoJob _ _, _ → _) ∧ _ ∧ ∀ p < Accepting.next _, _ → _))
  | _, .serve (.go _)    => inferInstanceAs (Decidable (_ = _))
  | _, .init ..          => inferInstanceAs (Decidable (_ ∧ _ ∧ _))
  | _, .free ..          => inferInstanceAs (Decidable (_ ∧ _))
  | _, .serve (.close _) | _, .serve .sweep | _, .serve (.wait _) | _, .serve (.select _)
  | _, .serve (.recv ..) | _, .serve (.accept _) | _, .serve .ret | _, .construct _
  | _, .getpeername _ | _, .acceptHandle _ | _, .freed => inferInstanceAs (Decidable True)

end Step

-- The callbacks and `accept_handle` are called with objects that are there and listen,
-- `_free_callback` with its descriptor, at most once for each object and only after
-- `unregister_accept`, and exactly the objects it was called with are deleted. Each connection is
-- settled before the next one: it is closed when it has no peer, and otherwise handed to
-- `accept_handle` and closed unless that takes it.
structure Safe (s : Accepting) : Prop where
  accepts : ∀ c ∈ s.accepts, c.2.deleted = false ∧ c.2.listenFd ≠ -1
  handles : ∀ c ∈ s.handled, c.2.deleted = false ∧ c.2.listenFd ≠ -1
  frees   : ∀ c ∈ s.frees, c.2.2.deleted = false ∧ c.2.2.listenFd = c.2.1 ∧ c.2.1 ≠ -1
  once    : (s.frees.map (·.1)).Nodup
  asked   : ∀ p ∈ s.frees.map (·.1), p ∈ s.asked
  gone    : ∀ p, p ∈ s.frees.map (·.1) ↔ p < s.next ∧ (s.obj p).deleted = true
  settled : s.accepted = s.settled.map (·.1) ++ s.acceptPc.cliFd?.toList
  handled : s.handled.map (·.1) =
    (s.settled.filter (·.2 ≠ .noPeer)).map (·.1) ++ s.acceptPc.handling?.toList
  closed  : s.closes = (s.settled.filter (·.2 ≠ .taken)).map (·.1)

end Accepting

def accepting (e : Endian) (pton : InetPton) (os : Os) (workerThrdCnt t : Nat) :
    System Accepting Accepting.Act where
  init s := s = .start workerThrdCnt
  step   := Accepting.step e pton os t

namespace Call

variable {r : Registry} {c : Call} {j : IoJob}

theorem onJob_readFunc (h : c.ioFunc? ≠ some .acceptCallback) :
    (c.onJob j).readFunc = .acceptCallback → j.readFunc = .acceptCallback := by
  cases c
  case addRead  => exact fun hr => absurd (congrArg some hr) h
  case delRead  => simp only [onJob, Registry.delRead]; split <;> exact id
  case delWrite => simp only [onJob, Registry.delWrite]; split <;> exact id
  all_goals exact id

theorem onJob_freeFunc (h : c.freeFunc? ≠ some .freeListenCallback) :
    (c.onJob j).freeFunc = .freeListenCallback → j.freeFunc = .freeListenCallback := by
  cases c
  case delListen => exact fun hf => absurd (congrArg some hf) h
  case delRead =>
    simp only [onJob, Registry.delRead]
    split <;> exact fun hf => absurd (congrArg some hf) h
  case delWrite =>
    simp only [onJob, Registry.delWrite]
    split <;> exact fun hf => absurd (congrArg some hf) h
  all_goals exact id

theorem newJob_fd (new : r.newJob c = some j) :
    j.fd = c.fd ∧ j.freeFunc = .defaultFreeHandle := by
  cases c <;> cases new <;> exact ⟨rfl, rfl⟩

theorem newJob_readFunc (new : r.newJob c = some j) (h : c.ioFunc? ≠ some .acceptCallback) :
    j.readFunc ≠ .acceptCallback := by
  cases c <;> cases new
  case addWrite => exact nofun
  all_goals exact fun hr => h (congrArg some hr)

end Call

namespace Serving

variable {os : Os} {t : Nat} {s s' : Serving} {a : Act} {k : Kernel} {i : JobId} {d : Dispatch}

def Act.isCall : Act → Bool
  | .call .. => true
  | .close _ | .sweep | .wait _ | .select _ | .go _ | .recv .. | .accept _ | .ret => false

-- What the steps without a call leave of the list and of the jobs.
structure Left (s s' : Serving) : Prop where
  nodup  : (s.pc.freed ++ s.reg.ioJobs).Nodup → (s'.pc.freed ++ s'.reg.ioJobs).Nodup
  jobs   : s'.pc.freed ++ s'.reg.ioJobs ⊆ s.pc.freed ++ s.reg.ioJobs
  ioJobs : s'.reg.ioJobs ⊆ s.reg.ioJobs
  next   : s'.reg.next = s.reg.next
  job    : ∀ i, s'.reg.job i = s.reg.job i ∨ s'.reg.job i = (s.reg.job i).delWriteIoEvent

theorem Left.of_same (freed : s'.pc.freed.Sublist s.pc.freed)
    (ioJobs : s'.reg.ioJobs = s.reg.ioJobs) (next : s'.reg.next = s.reg.next)
    (job : ∀ i, s'.reg.job i = s.reg.job i ∨ s'.reg.job i = (s.reg.job i).delWriteIoEvent) :
    s.Left s' where
  nodup h := h.sublist (ioJobs ▸ freed.append_right _)
  jobs    := by rw [ioJobs]; exact (freed.append_right _).subset
  ioJobs  := ioJobs ▸ List.Subset.refl _
  next    := next
  job     := job

theorem Left.of_reg (freed : s'.pc.freed.Sublist s.pc.freed) (reg : s'.reg = s.reg) : s.Left s' :=
  .of_same freed (reg ▸ rfl) (reg ▸ rfl) fun _ => .inl (reg ▸ rfl)

theorem write_freed : (s.write os k i d).pc.freed = [] := by
  unfold Serving.write
  split <;> rfl

theorem left_write : s.Left (s.write os k i d) := by
  have freed : (s.write os k i d).pc.freed = [] := write_freed
  have none := freed ▸ List.nil_sublist s.pc.freed
  obtain hr | ⟨_, hr, hl, live⟩ := s.write_reg os k i d
  case inl => exact .of_reg none hr
  case inr =>
    have only : s.reg.OnlyJob (os.writeEvtHandle s.reg k i) i (s.reg.job i).delWriteIoEvent :=
      Os.writeEvtHandle_found hl live
    refine .of_same none (hr ▸ only.ioJobs) (hr ▸ only.next) fun i' => hr ▸ ?_
    by_cases hi : i' = i
    case pos => exact .inr (hi ▸ only.self)
    case neg => exact .inl (only.ne hi)

theorem dispatch_freed : (s.dispatch os k d).pc.freed = [] := by
  fun_cases Serving.dispatch <;> first | rfl | exact write_freed

theorem step_left (h : s.step os t a = some s') (hc : a.isCall = false) : s.Left s' := by
  cases step_cases h
  case call  => cases hc
  case close => exact .of_same (List.Sublist.refl _) rfl rfl fun _ => .inl rfl
  case sweep hpc =>
    have perm := List.filter_append_perm (s.reg.Dead t ·) s.reg.ioJobs
    have freed : s.pc.freed = [] := hpc ▸ rfl
    rw [Registry.handleDelingJob_eq]
    refine ⟨fun h => ?_, fun i hi => ?_, List.filter_sublist.subset, rfl, fun _ => .inl rfl⟩
    case refine_1 =>
      rw [freed] at h
      simpa [ServePc.freed] using perm.nodup_iff.mpr h
    case refine_2 =>
      rw [freed]
      exact perm.mem_iff.mp (by simpa [ServePc.freed] using hi)
  case wait   => exact .of_reg (List.nil_sublist _) rfl
  case select => exact .of_reg (List.nil_sublist _) rfl
  case dispatch k d hpc =>
    have freed : (s.dispatch os k d).pc.freed = [] := dispatch_freed
    have hd : s.Dispatched os k (s.dispatch os k d) := s.dispatch_cases d
    generalize s.dispatch os k d = s' at hd freed
    cases hd
    case goto  => exact .of_reg (freed ▸ List.nil_sublist _) rfl
    case write => exact left_write
  case halted => exact .of_reg (List.nil_sublist _) rfl
  case recv v ask _ _ | accept v ask _ _ =>
    refine .of_reg ?_ round_reg
    cases v
    case again => exact List.Sublist.refl _
    all_goals exact List.nil_sublist _
  case ret pc hpc =>
    refine .of_reg ?_ rfl
    change pc.freed.Sublist s.pc.freed
    generalize s.pc = pc' at hpc
    cases pc'
    case freeing is => cases is <;> cases hpc; exact List.sublist_cons_self _ _
    case readFunc i recvEnd d => cases recvEnd <;> cases hpc <;> exact List.nil_sublist _
    case writeFunc => cases hpc; exact List.nil_sublist _
    all_goals cases hpc

end Serving
end NetPool
