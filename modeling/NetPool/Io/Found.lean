import NetPool.Io.Ctl
import NetPool.Io.Sweep

namespace NetPool
namespace Registry

variable {r r' : Registry} {k : Kernel} {i : JobId} {t : Nat} {fd : Fd} {f : Hdl}
  {param1 bufferSize : Nat} {isTcp : Bool}

-- The job that a deleting call has found, after it.
def delRead (j : IoJob) (f : Hdl) : IoJob :=
  let j := j.setFreeCallback f
  (if j.ioEventWrite then j else j.setDeletingFlag).delReadIoEvent

def delWrite (j : IoJob) (f : Hdl) : IoJob :=
  let j := j.setFreeCallback f
  (if j.ioEventRead then j else j.setDeletingFlag).delWriteIoEvent

section Deleted

variable {j : IoJob}

@[simp]
theorem delRead_nowEvent : (delRead j f).nowEvent = ⟨false, j.nowEvent.write⟩ := by
  unfold delRead
  dsimp only
  split <;> rfl

@[simp]
theorem delWrite_nowEvent : (delWrite j f).nowEvent = ⟨j.nowEvent.read, false⟩ := by
  unfold delWrite
  dsimp only
  split <;> rfl

@[simp]
theorem delRead_isWantDelete :
    (delRead j f).isWantDelete = (j.isWantDelete || !j.nowEvent.write) := by
  cases hw : j.nowEvent.write <;>
    simp [delRead, hw, IoJob.ioEventWrite, IoJob.setFreeCallback, IoJob.delReadIoEvent,
      IoJob.setDeletingFlag]

@[simp]
theorem delWrite_isWantDelete :
    (delWrite j f).isWantDelete = (j.isWantDelete || !j.nowEvent.read) := by
  cases hr : j.nowEvent.read <;>
    simp [delWrite, hr, IoJob.ioEventRead, IoJob.setFreeCallback, IoJob.delWriteIoEvent,
      IoJob.setDeletingFlag]

@[simp]
theorem delRead_writeFunc : (delRead j f).writeFunc = j.writeFunc := by
  unfold delRead
  dsimp only
  split <;> rfl

@[simp]
theorem delWrite_writeFunc : (delWrite j f).writeFunc = j.writeFunc := by
  unfold delWrite
  dsimp only
  split <;> rfl

theorem delRead_sameOwner : j.SameOwner (delRead j f) := by
  unfold delRead
  dsimp only
  split <;> exact ⟨rfl, rfl, rfl, rfl⟩

theorem delWrite_sameOwner : j.SameOwner (delWrite j f) := by
  unfold delWrite
  dsimp only
  split <;> exact ⟨rfl, rfl, rfl, rfl⟩

end Deleted

-- Only the job `i` is another one.
structure OnlyJob (r r' : Registry) (i : JobId) (j : IoJob) : Prop where
  job    : r'.job = Function.update r.job i j
  next   : r'.next = r.next
  ioJobs : r'.ioJobs = r.ioJobs

theorem OnlyJob.self {j : IoJob} (h : r.OnlyJob r' i j) : r'.job i = j := by
  rw [h.job, Function.update_self]

theorem OnlyJob.ne {i' : JobId} {j : IoJob} (h : r.OnlyJob r' i j) (hn : i' ≠ i) :
    r'.job i' = r.job i' := by
  rw [h.job, Function.update_of_ne hn]

theorem OnlyJob.of_modify {g : IoJob → IoJob} (job : r'.job = r.job) (next : r'.next = r.next)
    (ioJobs : r'.ioJobs = r.ioJobs) : r.OnlyJob (r'.modify i g) i (g (r.job i)) :=
  ⟨by rw [modify_job, job], next, ioJobs⟩

section Found

attribute [local simp] IoJob.ioEventRead IoJob.ioEventWrite IoJob.setFreeCallback
  IoJob.setDeletingFlag IoJob.delReadIoEvent IoJob.addWriteIoEvent IoJob.delWriteIoEvent

theorem delReadJob_found (find : r.findIoJob fd = some i) :
    r.OnlyJob (r.delReadJob k fd f).1 i (delRead (r.job i) f) := by
  cases hw : (r.job i).nowEvent.write <;> cases hr : (r.job i).nowEvent.read
  all_goals
    constructor
    all_goals simp [delReadJob, find, hw, hr, modify_job, delRead]

theorem delWriteJob_found (find : r.findIoJob fd = some i) :
    r.OnlyJob (r.delWriteJob k fd f).1 i (delWrite (r.job i) f) := by
  cases hw : (r.job i).nowEvent.write <;> cases hr : (r.job i).nowEvent.read
  all_goals
    constructor
    all_goals simp [delWriteJob, find, hw, hr, modify_job, delWrite]

-- A registered write event stays as it is, any other is asked for.
structure WriteAdded (r : Registry) (t : Nat) (fd : Fd) (f : Hdl) (i : JobId) (r' : Registry)
    (ret : Bool) : Prop extends
    OnlyJob r r' i ((r.job i).setWriteCallback f).addWriteIoEvent where
  again : (r.job i).nowEvent.write = true → r'.epfd = r.epfd ∧ ret = true
  first : (r.job i).nowEvent.write = false → ret = true →
    r'.epfd = (r.setEntry (if (r.job i).nowEvent.read then (r.job i).thrdIndex else t) fd <|
      some ⟨⟨(r.job i).nowEvent.read, true, (r.job i).nowEvent.read⟩, i⟩).epfd
  failed : ret = false → r'.epfd = r.epfd

theorem addWriteJob_found (find : r.findIoJob fd = some i) :
    r.WriteAdded t fd f i (r.addWriteJob k f fd param1 t isTcp).1
      (r.addWriteJob k f fd param1 t isTcp).2 := by
  have hs : ((r.job i).setWriteCallback f).nowEvent = (r.job i).nowEvent := rfl
  have ht : ((r.job i).setWriteCallback f).thrdIndex = (r.job i).thrdIndex := rfl
  cases hw : (r.job i).nowEvent.write
  case true =>
    have he : { (r.job i).nowEvent with write := true } = (r.job i).nowEvent :=
      NowEvent.ext rfl hw.symm
    refine ⟨⟨?_, ?_, ?_⟩, ?_, ?_, ?_⟩
    case refine_1 => simp [addWriteJob, find, hs, hw, modify_job, he]; simp [← hs]
    all_goals simp [addWriteJob, find, hs, hw]
  case false =>
    cases hr : (r.job i).nowEvent.read
    case true =>
      cases hc : r.epollCtl k (r.job i).thrdIndex (.mod ⟨⟨true, true, true⟩, i⟩) fd
      case some =>
        cases epollCtl_eq_some hc
        refine ⟨⟨?_, ?_, ?_⟩, ?_, ?_, ?_⟩ <;>
          simp [addWriteJob, find, hs, ht, hw, hr, hc, modify_job, EpollOp.entry]
      case none =>
        refine ⟨⟨?_, ?_, ?_⟩, ?_, ?_, ?_⟩ <;>
          simp [addWriteJob, find, hs, ht, hw, hr, hc, modify_job]
    case false =>
      cases hc : r.epollCtl k t (.add ⟨⟨false, true, false⟩, i⟩) fd
      case some =>
        cases epollCtl_eq_some hc
        refine ⟨⟨?_, ?_, ?_⟩, ?_, ?_, ?_⟩ <;>
          simp [addWriteJob, find, hs, hw, hr, hc, modify_job, EpollOp.entry]
      case none =>
        refine ⟨⟨?_, ?_, ?_⟩, ?_, ?_, ?_⟩ <;>
          simp [addWriteJob, find, hs, hw, hr, hc, modify_job]

-- What `add_read_job` does to the job it has found, unless `epoll_ctl` fails and it does nothing.
structure ReadAdded (r : Registry) (t : Nat) (fd : Fd) (f : Hdl) (bufferSize : Nat) (i : JobId)
    (r' : Registry) : Prop extends
    OnlyJob r r' i ((r.job i).setReadCallback f |>.addReadIoEvent |>.initRecvBuf bufferSize) where
  both  : (r.job i).nowEvent.write = true →
    r'.epfd = (r.setEntry (r.job i).thrdIndex fd <| some ⟨⟨true, true, true⟩, i⟩).epfd
  again : (r.job i).nowEvent.write = false → (r.job i).nowEvent.read = true → r'.epfd = r.epfd
  first : (r.job i).nowEvent.write = false → (r.job i).nowEvent.read = false →
    r'.epfd = (r.setEntry t fd <| some ⟨⟨true, false, true⟩, i⟩).epfd

theorem addReadJob_found (find : r.findIoJob fd = some i) :
    (r.addReadJob k f fd param1 t bufferSize isTcp = (r, false)) ∨
      (r.addReadJob k f fd param1 t bufferSize isTcp).2 = true ∧
      r.ReadAdded t fd f bufferSize i (r.addReadJob k f fd param1 t bufferSize isTcp).1 := by
  cases hw : (r.job i).nowEvent.write
  case true =>
    cases hc : r.epollCtl k (r.job i).thrdIndex (.mod ⟨⟨true, true, true⟩, i⟩) fd
    case none => left; simp [addReadJob, find, hw, hc]
    case some =>
      cases epollCtl_eq_some hc
      right
      refine ⟨?_, ⟨?_, ?_, ?_⟩, ?_, ?_, ?_⟩ <;>
        simp [addReadJob, find, hw, hc, modify_job, EpollOp.entry]
  case false =>
    cases hr : (r.job i).nowEvent.read
    case true =>
      right
      refine ⟨?_, ⟨?_, ?_, ?_⟩, ?_, ?_, ?_⟩ <;>
        simp [addReadJob, find, hw, hr, modify_job]
    case false =>
      cases hc : r.epollCtl k t (.add ⟨⟨true, false, true⟩, i⟩) fd
      case none => left; simp [addReadJob, find, hw, hr, hc]
      case some =>
        cases epollCtl_eq_some hc
        right
        refine ⟨?_, ⟨?_, ?_, ?_⟩, ?_, ?_, ?_⟩ <;>
          simp [addReadJob, find, hw, hr, hc, modify_job, EpollOp.entry]

theorem delIoWritingEvt_found :
    r.OnlyJob ((r.delIoWritingEvt k i).modify i (·.delWriteIoEvent)) i (r.job i).delWriteIoEvent := by
  have ⟨hj, hn, hl⟩ := r.delIoWritingEvt_frame k i
  exact .of_modify hj hn hl

end Found

-- `epoll_ctl` accepts what `add_write_job` asks for, if it asks for anything.
def WriteAccepted (r : Registry) (k : Kernel) (t : Nat) (fd : Fd) : Prop :=
  match r.findIoJob fd with
  | some i => (r.job i).nowEvent.write = false →
    if (r.job i).nowEvent.read then k.refuseMod = false ∧ (r.epfd (r.job i).thrdIndex fd).isSome
    else k.refuseAdd = false ∧ r.epfd t fd = none
  | none   => k.refuseAdd = false ∧ r.epfd (r.pickThrdIndex t).2 fd = none

instance : Decidable (r.WriteAccepted k t fd) := by
  unfold WriteAccepted
  cases r.findIoJob fd <;> infer_instance

-- The job that `add_write_job` makes.
def newWrite (r : Registry) (t : Nat) (fd : Fd) (f : Hdl) (param1 : Nat) (isTcp : Bool) : IoJob :=
  IoJob.newWr isTcp fd param1 |>.setWriteCallback f |>.addWriteIoEvent
    |>.setThrdIndex (r.pickThrdIndex t).2

-- A new job is in the list, and its entry asks for `ev`.
structure Made (r : Registry) (fd : Fd) (j : IoJob) (ev : EpollEvents) (r' : Registry) : Prop where
  job    : r'.job = Function.update r.job r.next j
  next   : r'.next = r.next + 1
  ioJobs : r'.ioJobs = r.ioJobs ++ [r.next]
  epfd   : r'.epfd = (r.setEntry j.thrdIndex fd <| some ⟨ev, r.next⟩).epfd

-- Only the thread whose turn it is may be another one.
structure Same (r r' : Registry) : Prop where
  job    : r'.job = r.job
  next   : r'.next = r.next
  ioJobs : r'.ioJobs = r.ioJobs
  epfd   : r'.epfd = r.epfd

theorem addWriteJob_missed (f : Hdl) (param1 : Nat) (isTcp : Bool) (find : r.findIoJob fd = none) :
    (r.WriteAccepted k t fd ∧ (r.addWriteJob k f fd param1 t isTcp).2 = true ∧
      r.Made fd (r.newWrite t fd f param1 isTcp) ⟨false, true, true⟩
        (r.addWriteJob k f fd param1 t isTcp).1) ∨
    (¬r.WriteAccepted k t fd ∧ (r.addWriteJob k f fd param1 t isTcp).2 = false ∧
      r.Same (r.addWriteJob k f fd param1 t isTcp).1) := by
  have ⟨hj, hn, hl, he⟩ := r.pickThrdIndex_frame (t := t)
  by_cases h : k.refuseAdd = false ∧ r.epfd (r.pickThrdIndex t).2 fd = none
  case pos =>
    left
    simp only [addWriteJob, find, WriteAccepted]
    rw [register_accepted h.1 (he ▸ h.2)]
    refine ⟨h, rfl, ?_, ?_, ?_, ?_⟩
    all_goals simp [addIoJob, setEntry, newWrite, IoJob.setThrdIndex, hj, hn, hl, he]
    all_goals rfl
  case neg =>
    right
    simp only [addWriteJob, find, WriteAccepted]
    rw [register_refused (he ▸ h)]
    exact ⟨h, rfl, hj, hn, hl, he⟩

theorem epollCtl_mod_isSome (r : Registry) (fd : Fd) (ev : EpollEntry) :
    (r.epollCtl k t (.mod ev) fd).isSome ↔ k.refuseMod = false ∧ (r.epfd t fd).isSome := by
  cases he : r.epfd t fd <;> cases hk : k.refuseMod <;> simp [epollCtl, Kernel.epollCtl, he, hk]

theorem epollCtl_add_isSome (r : Registry) (fd : Fd) (ev : EpollEntry) :
    (r.epollCtl k t (.add ev) fd).isSome ↔ k.refuseAdd = false ∧ r.epfd t fd = none := by
  cases he : r.epfd t fd <;> cases hk : k.refuseAdd <;> simp [epollCtl, Kernel.epollCtl, he, hk]

section Ret

attribute [local simp] IoJob.ioEventRead IoJob.ioEventWrite

theorem addWriteJob_ret :
    (r.addWriteJob k f fd param1 t isTcp).2 = true ↔ r.WriteAccepted k t fd := by
  cases find : r.findIoJob fd
  case none =>
    obtain ⟨h, hr, _⟩ | ⟨h, hr, _⟩ := addWriteJob_missed (k := k) (t := t) f param1 isTcp find
    all_goals simp [h, hr]
  case some i =>
    have hs : ((r.job i).setWriteCallback f).nowEvent = (r.job i).nowEvent := rfl
    have ht : ((r.job i).setWriteCallback f).thrdIndex = (r.job i).thrdIndex := rfl
    simp only [WriteAccepted, find]
    cases hw : (r.job i).nowEvent.write
    case true => simp [addWriteJob, find, hs, hw]
    case false =>
      cases hr : (r.job i).nowEvent.read
      case true =>
        have h := r.epollCtl_mod_isSome (k := k) (t := (r.job i).thrdIndex) fd ⟨⟨true, true, true⟩, i⟩
        simp only [if_true, forall_const, ← h, addWriteJob, find]
        cases hc : r.epollCtl k (r.job i).thrdIndex (.mod ⟨⟨true, true, true⟩, i⟩) fd <;>
          simp [hs, ht, hw, hr, hc]
      case false =>
        have h := r.epollCtl_add_isSome (k := k) (t := t) fd ⟨⟨false, true, false⟩, i⟩
        simp only [forall_const, ← h, addWriteJob, find]
        cases hc : r.epollCtl k t (.add ⟨⟨false, true, false⟩, i⟩) fd <;>
          simp [hs, hw, hr, hc]

end Ret

-- The job that `add_read_job` makes.
def newRead (r : Registry) (t : Nat) (fd : Fd) (f : Hdl) (param1 bufferSize : Nat) (isTcp : Bool) :
    IoJob :=
  IoJob.newWr isTcp fd param1 |>.setReadCallback f |>.addReadIoEvent |>.initRecvBuf bufferSize
    |>.setThrdIndex (r.pickThrdIndex t).2

theorem addReadJob_missed (f : Hdl) (param1 bufferSize : Nat) (isTcp : Bool)
    (find : r.findIoJob fd = none) :
    ((r.addReadJob k f fd param1 t bufferSize isTcp).2 = true ∧
      r.Made fd (r.newRead t fd f param1 bufferSize isTcp) ⟨true, false, true⟩
        (r.addReadJob k f fd param1 t bufferSize isTcp).1) ∨
    ((r.addReadJob k f fd param1 t bufferSize isTcp).2 = false ∧
      r.Same (r.addReadJob k f fd param1 t bufferSize isTcp).1) := by
  have ⟨hj, hn, hl, he⟩ := r.pickThrdIndex_frame (t := t)
  by_cases h : k.refuseAdd = false ∧ r.epfd (r.pickThrdIndex t).2 fd = none
  case pos =>
    left
    simp only [addReadJob, find]
    rw [register_accepted h.1 (he ▸ h.2)]
    refine ⟨rfl, ?_, ?_, ?_, ?_⟩
    all_goals simp [addIoJob, setEntry, newRead, IoJob.setThrdIndex, hj, hn, hl, he]
    all_goals rfl
  case neg =>
    right
    simp only [addReadJob, find]
    rw [register_refused (he ▸ h)]
    exact ⟨rfl, hj, hn, hl, he⟩

-- The same job is found while the list and the descriptors stay the same and it is not marked.
theorem findIoJob_kept (find : r.findIoJob fd = some i) (ioJobs : r'.ioJobs = r.ioJobs)
    (hf : ∀ i, (r'.job i).fd = (r.job i).fd) (live : (r'.job i).isWantDelete = false) :
    r'.findIoJob fd = some i := by
  unfold findIoJob at find ⊢
  simp only [ioJobs, hf]
  split at find
  case h_1 => contradiction
  case h_2 h =>
    split at find <;> cases find
    simp [live]

theorem OnlyJob.findIoJob {i' : JobId} {j : IoJob} (h : r.OnlyJob r' i j) (hf : j.fd = (r.job i).fd)
    (find : r.findIoJob fd = some i') (live : (r'.job i').isWantDelete = false) :
    r'.findIoJob fd = some i' := by
  refine findIoJob_kept find h.ioJobs (fun i₁ => ?_) live
  by_cases hi : i₁ = i
  case pos => rw [hi, h.self, hf]
  case neg => rw [h.ne hi]

-- A pass does not take the job that is found out of the list.
theorem findIoJob_sweep (find : r.findIoJob fd = some i) :
    (r.handleDelingJob t).1.findIoJob fd = some i := by
  have ⟨_, _, live⟩ := findIoJob_some find
  have hi : r.ioJobs.find? (fun i => (r.job i).fd = fd) = some i := by
    unfold findIoJob at find
    split at find
    case h_1 => contradiction
    case h_2 h => split at find <;> cases find; exact h
  have ⟨hp, as, bs, hl, ha⟩ := List.find?_eq_some_iff_append.mp hi
  rw [handleDelingJob_eq]
  unfold findIoJob
  have : (r.ioJobs.filter (¬r.Dead t ·)).find? (fun i => (r.job i).fd = fd) = some i := by
    rw [List.find?_filter, hl]
    refine List.find?_eq_some_iff_append.mpr ⟨?_, as, bs, rfl, fun a hm => ?_⟩
    case refine_1 => simpa [Dead, live] using hp
    case refine_2 => simpa using Or.inr (by simpa using ha a hm)
  simp only [this, live]
  rfl

end Registry
end NetPool
