import NetPool.Io.Call

namespace NetPool

def EpollOp.entry : EpollOp → Option EpollEntry
  | add ev | mod ev => some ev
  | del             => none

-- The thread index that a call is given, if it takes one.
def Call.thrdIndex? : Call → Option Nat
  | addRead _ _ _ thrdIndex _ _ | addWrite _ _ _ thrdIndex _ => some thrdIndex
  | addListen .. | delRead .. | delWrite .. | delListen ..   => none

namespace Registry

variable {r r' : Registry} {k : Kernel} {i : JobId} {t t' : Nat} {fd fd' : Fd} {op : EpollOp}
  {e : Option EpollEntry} {f g : IoJob → IoJob}

def setEntry (r : Registry) (t : Nat) (fd : Fd) (e : Option EpollEntry) : Registry :=
  { r with epfd := Function.update r.epfd t (Function.update (r.epfd t) fd e) }

@[simp] theorem setEntry_job : (r.setEntry t fd e).job = r.job := rfl
@[simp] theorem setEntry_next : (r.setEntry t fd e).next = r.next := rfl
@[simp] theorem setEntry_ioJobs : (r.setEntry t fd e).ioJobs = r.ioJobs := rfl

theorem setEntry_epfd :
    (r.setEntry t fd e).epfd t' fd' = if t' = t ∧ fd' = fd then e else r.epfd t' fd' := by
  by_cases ht : t' = t <;> by_cases hf : fd' = fd <;> simp [setEntry, ht, hf]

@[simp]
theorem setEntry_epfd_self : (r.setEntry t fd e).epfd t fd = e := by
  simp [setEntry_epfd]

theorem setEntry_epfd_ne (h : t' ≠ t ∨ fd' ≠ fd) :
    (r.setEntry t fd e).epfd t' fd' = r.epfd t' fd' := by
  rw [setEntry_epfd, if_neg]
  exact fun hn => h.elim (· hn.1) (· hn.2)

@[simp]
theorem modify_modify : (r.modify i f).modify i g = r.modify i (g ∘ f) := by
  simp [modify]

@[simp]
theorem epollCtl_modify :
    (r.modify i f).epollCtl k t op fd = (r.epollCtl k t op fd).map (·.modify i f) := by
  simp [epollCtl, modify, Function.comp_def]

-- The interest list changes at the descriptor of the call only, and to what the call asks for.
theorem epollCtl_eq_some (h : r.epollCtl k t op fd = some r') : r' = r.setEntry t fd op.entry := by
  have ⟨set, hs, hr⟩ := Option.map_eq_some_iff.mp h
  subst hr
  unfold Kernel.epollCtl at hs
  split at hs
  case h_2 | h_4 | h_6 => contradiction
  all_goals
    have ⟨_, hs⟩ := Option.ite_none_left_eq_some.mp hs
    cases hs
    rfl

theorem epollCtl_add {ev : EpollEntry} (hk : k.refuseAdd = false) (h : r.epfd t fd = none) :
    r.epollCtl k t (.add ev) fd = some (r.setEntry t fd (some ev)) := by
  simp [epollCtl, Kernel.epollCtl, h, hk, setEntry]

theorem epollCtl_add_some {ev : EpollEntry} (h : r.epollCtl k t (.add ev) fd = some r') :
    r' = r.setEntry t fd (some ev) ∧ k.refuseAdd = false ∧ r.epfd t fd = none := by
  refine ⟨epollCtl_eq_some h, ?_⟩
  have ⟨set, hs, _⟩ := Option.map_eq_some_iff.mp h
  unfold Kernel.epollCtl at hs
  cases he : r.epfd t fd <;> cases hk : k.refuseAdd <;> simp_all

theorem epollCtl_mod {ev : EpollEntry} (hk : k.refuseMod = false) (h : (r.epfd t fd).isSome) :
    r.epollCtl k t (.mod ev) fd = some (r.setEntry t fd (some ev)) := by
  have ⟨e, h⟩ := Option.isSome_iff_exists.mp h
  simp [epollCtl, Kernel.epollCtl, h, hk, setEntry]

theorem epollCtl_mod_some {ev : EpollEntry} (h : r.epollCtl k t (.mod ev) fd = some r') :
    r' = r.setEntry t fd (some ev) ∧ (r.epfd t fd).isSome := by
  refine ⟨epollCtl_eq_some h, ?_⟩
  have ⟨set, hs, _⟩ := Option.map_eq_some_iff.mp h
  unfold Kernel.epollCtl at hs
  cases he : r.epfd t fd <;> simp_all

theorem epollCtl_del (hk : k.refuseDel = false) (h : (r.epfd t fd).isSome) :
    r.epollCtl k t .del fd = some (r.setEntry t fd none) := by
  have ⟨e, h⟩ := Option.isSome_iff_exists.mp h
  simp [epollCtl, Kernel.epollCtl, h, hk, setEntry]

-- A call whose outcome is not looked at leaves the entry as it was or as it was asked to be.
theorem epollCtl_getD : (r.epollCtl k t op fd).getD r = r ∨
    (r.epollCtl k t op fd).getD r = r.setEntry t fd op.entry := by
  cases h : r.epollCtl k t op fd
  case none => exact .inl rfl
  case some => exact .inr <| epollCtl_eq_some h

theorem epollCtl_getD_del (hk : k.refuseDel = false) :
    (r.epollCtl k t .del fd).getD r = r.setEntry t fd none := by
  cases h : r.epfd t fd
  case some e => rw [epollCtl_del hk (by simp [h])]; rfl
  case none =>
    have he : r.epollCtl k t .del fd = none := by simp [epollCtl, Kernel.epollCtl, h]
    have hs : Function.update (r.epfd t) fd none = r.epfd t := by rw [← h, Function.update_eq_self]
    simp [he, setEntry, hs]

theorem epollCtl_epfd_ne (h : r.epollCtl k t op fd = some r') (hf : fd' ≠ fd) :
    r'.epfd t' fd' = r.epfd t' fd' := by
  rw [epollCtl_eq_some h, setEntry_epfd_ne (.inr hf)]

theorem epollCtl_getD_epfd_ne (hf : fd' ≠ fd) :
    ((r.epollCtl k t op fd).getD r).epfd t' fd' = r.epfd t' fd' := by
  cases h : r.epollCtl k t op fd
  case none => rfl
  case some => exact epollCtl_epfd_ne h hf

theorem register_epfd_ne {j : IoJob} {ev : EpollEvents} (hf : fd ≠ j.fd) :
    (r.register k j ev).1.epfd t fd = r.epfd t fd := by
  unfold register
  split
  case h_1   => rfl
  case h_2 h => exact (epollCtl_epfd_ne h hf :)

theorem addReadJob_epfd_ne {ioFunc : Hdl} {param1 bufferSize : Nat} {isTcp : Bool} (hf : fd' ≠ fd) :
    (r.addReadJob k ioFunc fd param1 t bufferSize isTcp).1.epfd t' fd' = r.epfd t' fd' := by
  unfold addReadJob
  split
  case h_1 =>
    have ⟨_, _, _, he⟩ := r.pickThrdIndex_frame (t := t)
    exact (register_epfd_ne hf).trans <| congrFun (congrFun he t') fd'
  case h_2 =>
    dsimp only
    split
    case h_1 => rfl
    case h_2 h =>
      split at h
      case isTrue => exact (epollCtl_epfd_ne h hf :)
      case isFalse =>
        split at h
        case isTrue  => exact (epollCtl_epfd_ne h hf :)
        case isFalse => cases h; rfl

theorem addWriteJob_epfd_ne {ioFunc : Hdl} {param1 : Nat} {isTcp : Bool} (hf : fd' ≠ fd) :
    (r.addWriteJob k ioFunc fd param1 t isTcp).1.epfd t' fd' = r.epfd t' fd' := by
  unfold addWriteJob
  split
  case h_1 =>
    have ⟨_, _, _, he⟩ := r.pickThrdIndex_frame (t := t)
    exact (register_epfd_ne hf).trans <| congrFun (congrFun he t') fd'
  case h_2 =>
    dsimp only
    split
    case isFalse => rfl
    case isTrue =>
      split
      case h_1 => rfl
      case h_2 h => split at h <;> exact (epollCtl_epfd_ne h hf :)

theorem delReadJob_epfd_ne {freeFunc : Hdl} (hf : fd' ≠ fd) :
    (r.delReadJob k fd freeFunc).1.epfd t' fd' = r.epfd t' fd' := by
  unfold delReadJob
  split
  case h_1 => rfl
  case h_2 =>
    dsimp only
    split
    case isTrue => exact epollCtl_getD_epfd_ne hf
    case isFalse =>
      split
      case isTrue  => exact epollCtl_getD_epfd_ne hf
      case isFalse => rfl

theorem delWriteJob_epfd_ne {freeFunc : Hdl} (hf : fd' ≠ fd) :
    (r.delWriteJob k fd freeFunc).1.epfd t' fd' = r.epfd t' fd' := by
  unfold delWriteJob
  split
  case h_1 => rfl
  case h_2 =>
    dsimp only
    split
    case isTrue => exact epollCtl_getD_epfd_ne hf
    case isFalse =>
      split
      case isTrue  => exact epollCtl_getD_epfd_ne hf
      case isFalse => rfl

-- What a call does to the interest lists it does at its own descriptor.
theorem exec_epfd_ne {c : Call} (hf : fd ≠ c.fd) : (r.exec k c).1.epfd t fd = r.epfd t fd := by
  cases c
  case addListen =>
    simp only [exec, addListenJob]
    split
    case h_1 => rfl
    case h_2 => exact register_epfd_ne hf
  case addRead  => exact addReadJob_epfd_ne hf
  case delRead  => exact delReadJob_epfd_ne hf
  case addWrite => exact addWriteJob_epfd_ne hf
  case delWrite => exact delWriteJob_epfd_ne hf
  case delListen =>
    simp only [exec, delListenJob]
    split <;> rfl

theorem delIoWritingEvt_epfd_ne (hf : fd ≠ (r.job i).fd) :
    (r.delIoWritingEvt k i).epfd t fd = r.epfd t fd := by
  unfold delIoWritingEvt
  dsimp only
  split <;> exact epollCtl_getD_epfd_ne hf

-- The thread of the job that an adding call makes when it finds none.
def newThrdIndex (r : Registry) : Call → Nat
  | .addRead _ _ _ thrdIndex _ _ | .addWrite _ _ _ thrdIndex _ => (r.pickThrdIndex thrdIndex).2
  | .addListen .. | .delRead .. | .delWrite .. | .delListen .. => 0

-- `epoll_ctl` accepts that job.
def AddAccepted (r : Registry) (k : Kernel) (c : Call) : Prop :=
  k.refuseAdd = false ∧ r.epfd (r.newThrdIndex c) c.fd = none

instance {c : Call} : Decidable (r.AddAccepted k c) :=
  inferInstanceAs (Decidable (_ ∧ _))

-- The job an adding call makes, and the events it asks for.
structure NewJob (r : Registry) (c : Call) (j : IoJob) (ev : EpollEvents) : Prop where
  fd        : j.fd = c.fd
  thrdIndex : j.thrdIndex = r.newThrdIndex c
  live      : j.isWantDelete = false
  freeFunc  : j.freeFunc = .defaultFreeHandle
  nowEvent  : j.nowEvent = ⟨ev.epollin, ev.epollout⟩
  nonzero   : j.nowEvent ≠ .zero

-- An adding call that finds no job registers a new one with a registry that differs at most in the
-- thread whose turn it is.
theorem exec_missed {c : Call} (find : r.findIoJob c.fd = none) (add : c.freeFunc? = none) :
    ∃ (r₀ : Registry) (j : IoJob) (ev : EpollEvents),
      r.exec k c = r₀.register k j ev ∧ r.NewJob c j ev ∧
      r₀.job = r.job ∧ r₀.next = r.next ∧ r₀.ioJobs = r.ioJobs ∧ r₀.epfd = r.epfd := by
  cases c <;> cases add <;> simp only [Call.fd] at find
  case addListen ioFunc fd param1 =>
    simp only [exec, addListenJob, find]
    refine ⟨r, _, _, rfl, ⟨rfl, rfl, rfl, rfl, rfl, ?_⟩, rfl, rfl, rfl, rfl⟩
    exact NowEvent.ne_zero_iff.mpr (.inl rfl)
  case addRead ioFunc fd param1 t bufferSize isTcp =>
    simp only [exec, addReadJob, find]
    refine ⟨_, _, _, rfl, ⟨rfl, rfl, rfl, rfl, rfl, ?_⟩, r.pickThrdIndex_frame⟩
    exact NowEvent.ne_zero_iff.mpr (.inl rfl)
  case addWrite ioFunc fd param1 t isTcp =>
    simp only [exec, addWriteJob, find]
    refine ⟨_, _, _, rfl, ⟨rfl, rfl, rfl, rfl, rfl, ?_⟩, r.pickThrdIndex_frame⟩
    exact NowEvent.ne_zero_iff.mpr (.inr rfl)

theorem exec_missed_del {c : Call} (find : r.findIoJob c.fd = none) (del : c.freeFunc? ≠ none) :
    (r.exec k c).1 = r := by
  cases c <;> simp [Call.freeFunc?] at del <;> simp only [Call.fd] at find
  case delRead   => simp only [exec, delReadJob, find]
  case delWrite  => simp only [exec, delWriteJob, find]
  case delListen => simp only [exec, delListenJob, find]

theorem register_accepted {j : IoJob} {ev : EpollEvents} (hk : k.refuseAdd = false)
    (h : r.epfd j.thrdIndex j.fd = none) :
    r.register k j ev = ((r.setEntry j.thrdIndex j.fd (some ⟨ev, r.next⟩)).addIoJob j, true) := by
  rw [register, epollCtl_add hk h]

theorem register_refused {j : IoJob} {ev : EpollEvents}
    (h : ¬(k.refuseAdd = false ∧ r.epfd j.thrdIndex j.fd = none)) :
    r.register k j ev = (r, false) := by
  unfold register epollCtl Kernel.epollCtl
  cases he : r.epfd j.thrdIndex j.fd <;> cases hk : k.refuseAdd <;> simp_all

theorem exec_ret {c : Call} (find : r.findIoJob c.fd = none) (add : c.freeFunc? = none) :
    (r.exec k c).2 = true ↔ r.AddAccepted k c := by
  have ⟨r₀, j, ev, he, new, _, _, _, hp⟩ := exec_missed (k := k) find add
  rw [he, AddAccepted, ← new.thrdIndex, ← new.fd, ← hp]
  by_cases h : k.refuseAdd = false ∧ r₀.epfd j.thrdIndex j.fd = none
  case pos => simp [register_accepted h.1 h.2, h]
  case neg => simp [register_refused h, h]

-- What a call does to the job it has found and to the interest lists: it leaves the entries alone,
-- lets one entry point to the job, or removes the entry in the list of the thread of the job.
inductive Refit (r : Registry) (k : Kernel) (c : Call) (i : JobId) (r' : Registry) : Prop
  | same (epfd : r'.epfd = r.epfd)
      (bits : (r.job i).nowEvent ≠ .zero → (r'.job i).nowEvent ≠ .zero)
      (marked : (r'.job i).isWantDelete = true →
        (∃ fd f, c = .delListen fd f) ∨ (r.job i).nowEvent = .zero)
  | point (t : Nat) (e : EpollEntry) (epfd : r'.epfd = (r.setEntry t c.fd (some e)).epfd)
      (ptr : e.ptr = i) (bits : (r'.job i).nowEvent ≠ .zero)
      (live : (r'.job i).isWantDelete = false)
      (thread : t = (r.job i).thrdIndex ∨
        t ∈ c.thrdIndex? ∧ (r.job i).nowEvent = .zero ∧ k.refuseAdd = false ∧ r.epfd t c.fd = none)
  | drop (epfd : r'.epfd = (r.setEntry (r.job i).thrdIndex c.fd none).epfd)

section Refit

variable {ioFunc freeFunc : Hdl} {param1 bufferSize : Nat} {isTcp : Bool}

attribute [local simp] IoJob.ioEventRead IoJob.ioEventWrite
  IoJob.setReadCallback IoJob.setWriteCallback
  IoJob.initRecvBuf IoJob.setFreeCallback IoJob.setDeletingFlag IoJob.addReadIoEvent
  IoJob.delReadIoEvent IoJob.addWriteIoEvent IoJob.delWriteIoEvent NowEvent.ne_zero_iff

theorem delReadJob_refit (find : r.findIoJob fd = some i) (hk : k.refuseDel = false) :
    Refit r k (.delRead fd freeFunc) i (r.delReadJob k fd freeFunc).1 := by
  have ⟨_, hf, live⟩ := findIoJob_some find
  cases hw : (r.job i).nowEvent.write
  case true =>
    cases hc : r.epollCtl k (r.job i).thrdIndex (.mod ⟨⟨false, true, true⟩, i⟩) fd
    case none =>
      apply Refit.same <;> simp [delReadJob, find, hw, hc, live]
    case some r₁ =>
      cases epollCtl_eq_some hc
      refine .point _ ⟨⟨false, true, true⟩, i⟩ ?_ rfl ?_ ?_ (.inl rfl) <;>
        simp [delReadJob, find, hw, hc, live, EpollOp.entry, Call.fd]
  case false =>
    cases hr : (r.job i).nowEvent.read
    case true =>
      apply Refit.drop
      simp [delReadJob, find, hw, hr, epollCtl_getD_del hk, Call.fd]
    case false =>
      have hz : (r.job i).nowEvent = .zero := NowEvent.ext hr hw
      exact .same (by simp [delReadJob, find, hw, hr]) (absurd hz) fun _ => .inr hz

theorem delWriteJob_refit (find : r.findIoJob fd = some i) (hk : k.refuseDel = false) :
    Refit r k (.delWrite fd freeFunc) i (r.delWriteJob k fd freeFunc).1 := by
  have ⟨_, hf, live⟩ := findIoJob_some find
  cases hr : (r.job i).nowEvent.read
  case true =>
    cases hc : r.epollCtl k (r.job i).thrdIndex (.mod ⟨⟨true, false, true⟩, i⟩) fd
    case none =>
      apply Refit.same <;> simp [delWriteJob, find, hr, hc, live]
    case some r₁ =>
      cases epollCtl_eq_some hc
      refine .point _ ⟨⟨true, false, true⟩, i⟩ ?_ rfl ?_ ?_ (.inl rfl) <;>
        simp [delWriteJob, find, hr, hc, live, EpollOp.entry, Call.fd]
  case false =>
    cases hw : (r.job i).nowEvent.write
    case true =>
      apply Refit.drop
      simp [delWriteJob, find, hw, hr, epollCtl_getD_del hk, Call.fd]
    case false =>
      have hz : (r.job i).nowEvent = .zero := NowEvent.ext hr hw
      exact .same (by simp [delWriteJob, find, hw, hr]) (absurd hz) fun _ => .inr hz

theorem addReadJob_refit (find : r.findIoJob fd = some i) :
    Refit r k (.addRead ioFunc fd param1 t bufferSize isTcp) i
      (r.addReadJob k ioFunc fd param1 t bufferSize isTcp).1 := by
  obtain ⟨_, hf, live⟩ := findIoJob_some find
  cases hw : (r.job i).nowEvent.write
  case true =>
    cases hc : r.epollCtl k (r.job i).thrdIndex (.mod ⟨⟨true, true, true⟩, i⟩) fd
    case none =>
      apply Refit.same <;> simp [addReadJob, find, hw, hc, live]
    case some r₁ =>
      cases epollCtl_eq_some hc
      refine .point _ ⟨⟨true, true, true⟩, i⟩ ?_ rfl ?_ ?_ (.inl rfl) <;>
        simp [addReadJob, find, hw, hc, live, EpollOp.entry, Call.fd]
  case false =>
    cases hr : (r.job i).nowEvent.read
    case true =>
      apply Refit.same <;> simp [addReadJob, find, hw, hr, live]
    case false =>
      have hz : (r.job i).nowEvent = .zero := NowEvent.ext hr hw
      cases hc : r.epollCtl k t (.add ⟨⟨true, false, true⟩, i⟩) fd
      case none => apply Refit.same <;> simp [addReadJob, find, hw, hr, hc, live]
      case some r₁ =>
        obtain ⟨h₁, h₂⟩ := epollCtl_add_some hc
        subst h₁
        refine .point t ⟨⟨true, false, true⟩, i⟩ ?_ rfl ?_ ?_ (.inr ⟨rfl, hz, h₂⟩) <;>
          simp [addReadJob, find, hw, hr, hc, live, Call.fd]

theorem addWriteJob_refit (find : r.findIoJob fd = some i) :
    Refit r k (.addWrite ioFunc fd param1 t isTcp) i
      (r.addWriteJob k ioFunc fd param1 t isTcp).1 := by
  obtain ⟨_, hf, live⟩ := findIoJob_some find
  cases hw : (r.job i).nowEvent.write
  case true =>
    apply Refit.same <;> simp [addWriteJob, find, hw, live]
  case false =>
    cases hr : (r.job i).nowEvent.read
    case true =>
      cases hc : r.epollCtl k (r.job i).thrdIndex (.mod ⟨⟨true, true, true⟩, i⟩) fd
      case none => apply Refit.same <;> simp [addWriteJob, find, hw, hr, hc, live]
      case some r₁ =>
        cases epollCtl_eq_some hc
        refine .point _ ⟨⟨true, true, true⟩, i⟩ ?_ rfl ?_ ?_ (.inl rfl) <;>
          simp [addWriteJob, find, hw, hr, hc, live, EpollOp.entry, Call.fd]
    case false =>
      have hz : (r.job i).nowEvent = .zero := NowEvent.ext hr hw
      cases hc : r.epollCtl k t (.add ⟨⟨false, true, false⟩, i⟩) fd
      case none => apply Refit.same <;> simp [addWriteJob, find, hw, hr, hc, live]
      case some r₁ =>
        obtain ⟨h₁, h₂⟩ := epollCtl_add_some hc
        subst h₁
        refine .point t ⟨⟨false, true, false⟩, i⟩ ?_ rfl ?_ ?_ (.inr ⟨rfl, hz, h₂⟩) <;>
          simp [addWriteJob, find, hw, hr, hc, live, Call.fd]

theorem exec_refit {c : Call} (find : r.findIoJob c.fd = some i) (hk : k.refuseDel = false) :
    Refit r k c i (r.exec k c).1 := by
  cases c <;> simp only [Call.fd] at find
  case addListen =>
    obtain ⟨_, _, live⟩ := findIoJob_some find
    apply Refit.same <;> simp [exec, addListenJob, find, live]
  case addRead   => exact addReadJob_refit find
  case delRead   => exact delReadJob_refit find hk
  case addWrite  => exact addWriteJob_refit find
  case delWrite  => exact delWriteJob_refit find hk
  case delListen => apply Refit.same <;> simp [exec, delListenJob, find]

end Refit

end Registry
end NetPool
