import NetPool.Io.Net
import NetPool.Io.Found

namespace NetPool

namespace Registry

variable {r r' : Registry} {k : Kernel} {c : Call} {fd : Fd} {f : Hdl}

-- A call from its entry to its return: `del_listen_job` goes on after the lock.
def callWhole (r : Registry) (k : Kernel) : Call → Registry × Bool
  | .delListen fd freeFunc =>
    match r.delListenJob fd freeFunc with
    | (r, false) => (r, false)
    | (r, true)  => r.delListenCtl k fd
  | .addListen ioFunc fd param1 => r.exec k (.addListen ioFunc fd param1)
  | .addRead ioFunc fd param1 thrdIndex bufferSize isTcp =>
    r.exec k (.addRead ioFunc fd param1 thrdIndex bufferSize isTcp)
  | .addWrite ioFunc fd param1 thrdIndex isTcp => r.exec k (.addWrite ioFunc fd param1 thrdIndex isTcp)
  | .delRead fd freeFunc => r.exec k (.delRead fd freeFunc)
  | .delWrite fd freeFunc => r.exec k (.delWrite fd freeFunc)

-- The next `add_write_job` will call `epoll_ctl`.
def AsksAgain (r : Registry) (fd : Fd) : Prop :=
  ∀ i ∈ r.findIoJob fd, (r.job i).nowEvent.write = false

-- A call that fails leaves everything as it was but the thread whose turn it is.
structure Unharmed (r : Registry) (k : Kernel) (c : Call) : Prop where
  same  : (r.callWhole k c).2 = false → r.Same (r.callWhole k c).1
  again : ∀ f fd param1 t isTcp, c = .addWrite f fd param1 t isTcp → (r.callWhole k c).2 = false →
    (r.callWhole k c).1.AsksAgain fd

-- `epoll_ctl` accepts what is asked for a job that has been changed before.
def ChangeAccepted (r : Registry) (k : Kernel) : Call → Prop
  | .addWrite _ fd _ thrdIndex _ => (r.findIoJob fd).isSome → r.WriteAccepted k thrdIndex fd
  | .delListen fd _              =>
    (r.findIoJob fd).isSome → k.refuseDel = false ∧ (r.epfd 0 fd).isSome
  | .addListen .. | .addRead .. | .delRead .. | .delWrite .. => True

instance : ∀ c, Decidable (r.ChangeAccepted k c)
  | .addWrite .. | .delListen .. => inferInstanceAs (Decidable (_ → _))
  | .addListen .. | .addRead .. | .delRead .. | .delWrite .. => inferInstanceAs (Decidable True)

theorem Same.findIoJob (h : r.Same r') : r'.findIoJob fd = r.findIoJob fd := by
  simp only [Registry.findIoJob, h.job, h.ioJobs]

theorem register_same {j : IoJob} {ev : EpollEvents} (h : (r.register k j ev).2 = false) :
    (r.register k j ev).1 = r := by
  unfold register at h ⊢
  split at h
  case h_1   => rfl
  case h_2   => cases h

theorem addListenJob_same {param1 : Nat} (h : (r.addListenJob k f fd param1).2 = false) :
    (r.addListenJob k f fd param1).1 = r := by
  unfold addListenJob at h ⊢
  split at h
  case h_1 => rfl
  case h_2 => exact register_same h

theorem addReadJob_same {param1 t bufferSize : Nat} {isTcp : Bool}
    (h : (r.addReadJob k f fd param1 t bufferSize isTcp).2 = false) :
    r.Same (r.addReadJob k f fd param1 t bufferSize isTcp).1 := by
  cases find : r.findIoJob fd
  case none =>
    obtain ⟨hr, _⟩ | ⟨_, hs⟩ := addReadJob_missed (k := k) (t := t) f param1 bufferSize isTcp find
    · rw [h] at hr
      cases hr
    · exact hs
  case some i =>
    have found : r.addReadJob k f fd param1 t bufferSize isTcp = (r, false) ∨ _ :=
      addReadJob_found find
    obtain he | ⟨hr, _⟩ := found
    · rw [he]
      exact ⟨rfl, rfl, rfl, rfl⟩
    · rw [h] at hr
      cases hr

theorem delListenCtl_ret : (r.delListenCtl k fd).2 = true ↔
    k.refuseDel = false ∧ (r.epfd 0 fd).isSome := by
  unfold delListenCtl epollCtl Kernel.epollCtl
  cases he : r.epfd 0 fd <;> cases hk : k.refuseDel <;> simp

theorem delListenCtl_same (h : (r.delListenCtl k fd).2 = false) : (r.delListenCtl k fd).1 = r := by
  unfold delListenCtl at h ⊢
  split at h
  case h_1 => rfl
  case h_2 => cases h

-- `add_write_job` sets the bit of the job it has found before it calls `epoll_ctl`.
theorem unharmed_addWrite_iff {param1 t : Nat} {isTcp : Bool} :
    r.Unharmed k (.addWrite f fd param1 t isTcp) ↔
      r.ChangeAccepted k (.addWrite f fd param1 t isTcp) := by
  have accepted : (r.addWriteJob k f fd param1 t isTcp).2 = true ↔ r.WriteAccepted k t fd :=
    addWriteJob_ret
  have ret : (r.addWriteJob k f fd param1 t isTcp).2 = false ↔ ¬r.WriteAccepted k t fd := by
    rw [← accepted, Bool.not_eq_true]
  constructor
  case mp =>
    intro h hs
    have ⟨i, find⟩ := Option.isSome_iff_exists.mp hs
    by_contra hn
    have same : r.Same (r.addWriteJob k f fd param1 t isTcp).1 := h.same (ret.mpr hn)
    have w : r.WriteAdded t fd f i (r.addWriteJob k f fd param1 t isTcp).1 _ :=
      addWriteJob_found find
    have hw : (r.job i).nowEvent.write = true := by
      rw [← same.job, w.self]
      rfl
    simp [WriteAccepted, find, hw] at hn
  case mpr =>
    intro ha
    have missed (h : (r.addWriteJob k f fd param1 t isTcp).2 = false) : r.findIoJob fd = none := by
      by_contra hs
      exact ret.mp h (ha (Option.isSome_iff_ne_none.mpr hs))
    have same (h : (r.addWriteJob k f fd param1 t isTcp).2 = false) :
        r.Same (r.addWriteJob k f fd param1 t isTcp).1 := by
      obtain ⟨_, hr, _⟩ | ⟨_, _, hs⟩ := addWriteJob_missed (k := k) (t := t) f param1 isTcp (missed h)
      · rw [h] at hr
        cases hr
      · exact hs
    refine ⟨same, fun f' fd' param1' t' isTcp' he h => ?_⟩
    cases he
    have hn : (r.callWhole k (.addWrite f fd param1 t isTcp)).1.findIoJob fd = none :=
      (same h).findIoJob.trans (missed h)
    simp [AsksAgain, hn]

-- `del_listen_job` marks the job it has found before it calls `epoll_ctl`.
theorem unharmed_delListen_iff :
    r.Unharmed k (.delListen fd f) ↔ r.ChangeAccepted k (.delListen fd f) := by
  cases find : r.findIoJob fd
  case none =>
    have hc : r.callWhole k (.delListen fd f) = (r, false) := by
      simp [callWhole, delListenJob, find]
    refine iff_of_true ⟨fun _ => ?_, by simp⟩ (by simp [ChangeAccepted, find])
    rw [hc]
    exact ⟨rfl, rfl, rfl, rfl⟩
  case some i =>
    let r' := r.modify i fun j => j.setFreeCallback f |>.setDeletingFlag
    have hc : r.callWhole k (.delListen fd f) = r'.delListenCtl k fd := by
      simp [callWhole, delListenJob, find, r']
    have live := (findIoJob_some find).2.2
    have accepted : r.ChangeAccepted k (.delListen fd f) ↔ (r'.delListenCtl k fd).2 = true := by
      rw [delListenCtl_ret]
      simp [ChangeAccepted, find, r']
    rw [accepted]
    constructor
    case mp =>
      intro h
      by_contra hn
      have hn := Bool.not_eq_true _ ▸ hn
      have same := h.same (by rw [hc, hn])
      have hj := same.job
      rw [hc, delListenCtl_same hn] at hj
      have hm : (r'.job i).isWantDelete = true := by simp [r', IoJob.setDeletingFlag]
      rw [hj, live] at hm
      cases hm
    case mpr =>
      intro h
      refine ⟨fun hf => ?_, by simp⟩
      rw [hc, h] at hf
      cases hf

-- Where the state before says that `epoll_ctl` accepts, and only there, no failing call does harm.
theorem unharmed_iff : r.Unharmed k c ↔ r.ChangeAccepted k c := by
  cases c
  case addWrite  => exact unharmed_addWrite_iff
  case delListen => exact unharmed_delListen_iff
  case addListen ioFunc fd param1 =>
    refine iff_of_true ⟨fun h => ?_, nofun⟩ trivial
    have hs : (r.callWhole k (.addListen ioFunc fd param1)).1 = r := addListenJob_same h
    rw [hs]
    exact ⟨rfl, rfl, rfl, rfl⟩
  case addRead => exact iff_of_true ⟨addReadJob_same, nofun⟩ trivial
  case delRead fd freeFunc =>
    refine iff_of_true ⟨fun h => ?_, nofun⟩ trivial
    have h : (r.delReadJob k fd freeFunc).2 = false := h
    have hs : (r.delReadJob k fd freeFunc).1 = r := by
      unfold delReadJob at h ⊢
      split at h
      case h_1 => rfl
      case h_2 => cases h
    rw [show r.callWhole k (.delRead fd freeFunc) = r.delReadJob k fd freeFunc from rfl, hs]
    exact ⟨rfl, rfl, rfl, rfl⟩
  case delWrite fd freeFunc =>
    refine iff_of_true ⟨fun h => ?_, nofun⟩ trivial
    have h : (r.delWriteJob k fd freeFunc).2 = false := h
    unfold delWriteJob at h
    split at h <;> cases h

-- A write event that the kernel refuses for a job with a read event, and a listening descriptor
-- that has been closed before its job is deleted.
theorem not_unharmed :
    (¬∀ n s, (net n).Reachable s → ∀ k ioFunc fd param1 t isTcp,
      s.reg.Unharmed k (.addWrite ioFunc fd param1 t isTcp)) ∧
    ¬∀ n s, (net n).Reachable s → ∀ k fd freeFunc, s.reg.Unharmed k (.delListen fd freeFunc) := by
  constructor
  case left =>
    intro h
    have ⟨s, hr, hs⟩ := (net 1).exists_of_run [.call (.addRead (.app 0) 5 0 0 0 true) .plain]
      (fun s => ¬s.reg.ChangeAccepted ⟨false, true, false⟩ (.addWrite (.app 1) 5 0 0 true)) rfl
      (by decide)
    exact hs <| unharmed_addWrite_iff.mp <| h 1 s hr ..
  case right =>
    intro h
    have ⟨s, hr, hs⟩ := (net 1).exists_of_run
      [.call (.addListen (.app 0) 5 0) .plain, .close 5]
      (fun s => ¬s.reg.ChangeAccepted .plain (.delListen 5 (.app 1))) rfl (by decide)
    exact hs <| unharmed_delListen_iff.mp <| h 1 s hr ..

end Registry
end NetPool
