import NetPool.Io.Windows

namespace NetPool
namespace Registry

variable {r r' : Registry} {k : Kernel} {c : Call} {i : JobId} {t t' : Nat} {fd : Fd} {f : Hdl}
  {j : IoJob} {e : Option EpollEntry}

-- An entry at `fd` in the interest list of thread `t` may ask for a write event of the job `i`.
structure MayWrite (r : Registry) (t : Nat) (fd : Fd) (i : JobId) : Prop where
  lt        : i < r.next
  thrdIndex : (r.job i).thrdIndex = t
  fd        : (r.job i).fd = fd
  bit       : (r.job i).nowEvent.write = true ∨ (r.job i).isWantDelete = true

def WriteEntries (r : Registry) (t : Nat) : Prop :=
  ∀ fd e, r.epfd t fd = some e → e.events.epollout = true → r.MayWrite t fd e.ptr

-- The entries after a step are some of those before it, of jobs that have kept their write bit or
-- are marked, and new ones.
theorem WriteEntries.grown (h : r.WriteEntries t) (hg : r.Grown r')
    (entry : ∀ fd e, r'.epfd t fd = some e → e.events.epollout = true →
      (r.epfd t fd = some e ∧ (r.MayWrite t fd e.ptr → (r.job e.ptr).nowEvent.write = true →
        (r'.job e.ptr).nowEvent.write = true ∨ (r'.job e.ptr).isWantDelete = true)) ∨
      r'.MayWrite t fd e.ptr) : r'.WriteEntries t := by
  intro fd e he out
  obtain ⟨old, bit⟩ | new := entry fd e he out
  case inr => exact new
  case inl =>
    have own := h fd e old out
    have owner := hg.owner e.ptr own.lt
    exact {
      lt        := Nat.lt_of_lt_of_le own.lt hg.next
      thrdIndex := owner.thrdIndex.trans own.thrdIndex
      fd        := owner.fd.trans own.fd
      bit       := own.bit.elim (bit own) fun hm => .inr <| hg.marked e.ptr own.lt hm }

-- A step that clears no write bit and adds no entry.
theorem WriteEntries.fewer (h : r.WriteEntries t) (hg : r.Grown r')
    (bit : ∀ i, (r.job i).nowEvent.write = true →
      (r'.job i).nowEvent.write = true ∨ (r'.job i).isWantDelete = true)
    (entry : ∀ fd e, r'.epfd t fd = some e → r.epfd t fd = some e) : r'.WriteEntries t :=
  h.grown hg fun fd e he _ => .inl ⟨entry fd e he, fun _ => bit e.ptr⟩

-- A step that clears the write bit of the job `i` and takes it out of the entry of the job.
theorem WriteEntries.cleared (h : r.WriteEntries t) (hg : r.Grown r')
    (only : ∀ i' ≠ i, r'.job i' = r.job i')
    (entry : ∀ fd e, r'.epfd t fd = some e → e.events.epollout = true → r.epfd t fd = some e)
    (gone : ∀ e, r'.epfd (r.job i).thrdIndex (r.job i).fd = some e →
      (r.job i).nowEvent.write = true → e.events.epollout = false) : r'.WriteEntries t := by
  refine h.grown hg fun fd e he out => .inl ⟨entry fd e he out, fun own hw => .inl ?_⟩
  by_cases hn : e.ptr = i
  case neg => rwa [only _ hn]
  case pos =>
    have ht := own.thrdIndex
    have hf := own.fd
    rw [hn] at ht hf hw
    have := gone e (by rw [ht, hf]; exact he) hw
    rw [out] at this
    cases this

-- A new job, and the entry it has been registered with.
theorem Made.writeEntries {ev : EpollEvents} (h : r.Made fd j ev r') (hf : j.fd = fd)
    (hb : j.nowEvent.write = ev.epollout) (inv : r.WriteEntries t) : r'.WriteEntries t := by
  refine inv.grown (.of_added h.job h.next h.ioJobs) fun fd' e he out => ?_
  rw [h.epfd, setEntry_epfd] at he
  split at he
  case isFalse =>
    refine .inl ⟨he, fun own hb => .inl ?_⟩
    rwa [h.job, Function.update_of_ne (Nat.ne_of_lt own.lt)]
  case isTrue hn =>
    cases he
    have hj : r'.job r.next = j := by rw [h.job, Function.update_self]
    right
    exact {
      lt        := h.next ▸ Nat.lt_succ_self _
      thrdIndex := hj ▸ hn.1.symm
      fd        := hj ▸ hf.trans hn.2.symm
      bit       := .inl (hj ▸ hb.trans out) }

-- The job that a call has found, and the entry that points to it afterwards.
theorem OnlyJob.writeEntries {ev : EpollEvents} (h : r.OnlyJob r' i j) (hg : r.Grown r')
    (find : r.findIoJob fd = some i) (lt : i < r.next)
    (epfd : r'.epfd = (r.setEntry t' fd (some ⟨ev, i⟩)).epfd)
    (own : ev.epollout = true → t' = t → (r.job i).thrdIndex = t)
    (bit : (r.job i).nowEvent.write = true → j.nowEvent.write = true ∨ j.isWantDelete = true)
    (new : ev.epollout = true → j.nowEvent.write = true)
    (inv : r.WriteEntries t) : r'.WriteEntries t := by
  refine inv.grown hg fun fd' e he out => ?_
  rw [epfd, setEntry_epfd] at he
  split at he
  case isFalse =>
    refine .inl ⟨he, fun _ hb => ?_⟩
    by_cases hi : e.ptr = i
    case pos => rw [hi, h.self]; exact bit (hi ▸ hb)
    case neg => rw [h.ne hi]; exact .inl hb
  case isTrue hn =>
    cases he
    have owner := hg.owner i lt
    have ⟨_, hf, _⟩ := findIoJob_some find
    right
    exact {
      lt        := Nat.lt_of_lt_of_le lt hg.next
      thrdIndex := owner.thrdIndex.trans (own out hn.1.symm)
      fd        := owner.fd.trans (hf.trans hn.2.symm)
      bit       := .inl (by rw [h.self]; exact new out) }

-- The condition on a call: it asks for the write event of a job without events in the list of the
-- thread of that job, and `epoll_ctl` takes back a write event next to a read event.
def WriteKept (r : Registry) (k : Kernel) (t : Nat) : Call → Prop
  | .addWrite _ fd _ thrdIndex _ => thrdIndex = t → ∀ i ∈ r.findIoJob fd,
    (r.job i).nowEvent = .zero → k.refuseAdd = false → r.epfd t fd = none → (r.job i).thrdIndex = t
  | .delWrite fd _               => ∀ i ∈ r.findIoJob fd,
    (r.job i).ioEventRead = true → (r.job i).ioEventWrite = true → k.refuseMod = false
  | .addListen .. | .addRead .. | .delRead .. | .delListen .. => True

section Deleted

attribute [local simp] IoJob.ioEventRead IoJob.ioEventWrite IoJob.setFreeCallback
  IoJob.setDeletingFlag IoJob.delReadIoEvent IoJob.delWriteIoEvent

-- What the two deleting calls ask of `epoll_ctl`, if it does it.
theorem delReadJob_epfd (find : r.findIoJob fd = some i) :
    (r.delReadJob k fd f).1.epfd = r.epfd ∨
      (r.job i).nowEvent.write = true ∧ (r.delReadJob k fd f).1.epfd =
        (r.setEntry (r.job i).thrdIndex fd (some ⟨⟨false, true, true⟩, i⟩)).epfd ∨
      (r.delReadJob k fd f).1.epfd = (r.setEntry (r.job i).thrdIndex fd none).epfd := by
  cases hw : (r.job i).nowEvent.write
  case true =>
    cases hc : r.epollCtl k (r.job i).thrdIndex (.mod ⟨⟨false, true, true⟩, i⟩) fd
    case none => left; simp [delReadJob, find, hw, hc]
    case some =>
      cases epollCtl_eq_some hc
      right; left
      simp [delReadJob, find, hw, hc, EpollOp.entry]
  case false =>
    cases hr : (r.job i).nowEvent.read
    case false => left; simp [delReadJob, find, hw, hr]
    case true =>
      cases hc : r.epollCtl k (r.job i).thrdIndex .del fd
      case none => left; simp [delReadJob, find, hw, hr, hc]
      case some =>
        cases epollCtl_eq_some hc
        right; right
        simp [delReadJob, find, hw, hr, hc, EpollOp.entry]

theorem delWriteJob_epfd (find : r.findIoJob fd = some i) :
    (r.job i).nowEvent.read = true ∧ (r.delWriteJob k fd f).1.epfd =
        ((r.epollCtl k (r.job i).thrdIndex (.mod ⟨⟨true, false, true⟩, i⟩) fd).getD r).epfd ∨
      (r.job i).nowEvent.read = false ∧ ((r.delWriteJob k fd f).1.epfd = r.epfd ∨
        (r.delWriteJob k fd f).1.epfd = (r.setEntry (r.job i).thrdIndex fd none).epfd) := by
  cases hr : (r.job i).nowEvent.read
  case true =>
    left
    cases hc : r.epollCtl k (r.job i).thrdIndex (.mod ⟨⟨true, false, true⟩, i⟩) fd <;>
      simp [delWriteJob, find, hr, hc]
  case false =>
    right
    cases hw : (r.job i).nowEvent.write
    case false => simp [delWriteJob, find, hw, hr]
    case true =>
      cases hc : r.epollCtl k (r.job i).thrdIndex .del fd
      case none => simp [delWriteJob, find, hw, hr, hc]
      case some =>
        cases epollCtl_eq_some hc
        simp [delWriteJob, find, hw, hr, hc, EpollOp.entry]

theorem epollCtl_mod_entry {t' : Nat} {fd' : Fd} {e : EpollEntry}
    (h : ((r.epollCtl k t' (.mod ⟨⟨true, false, true⟩, i⟩) fd').getD r).epfd t fd = some e)
    (out : e.events.epollout = true) : r.epfd t fd = some e := by
  obtain hs | hs := (r.epollCtl_getD :
      (r.epollCtl k t' (.mod ⟨⟨true, false, true⟩, i⟩) fd').getD r = r ∨ _)
  case inl => exact hs ▸ h
  case inr =>
    rw [hs, setEntry_epfd] at h
    split at h
    case isTrue  => cases h; cases out
    case isFalse => exact h

-- After an entry has been asked to forget the write event, and the kernel has not refused, it does
-- not ask for one.
theorem epollCtl_mod_read {e : EpollEntry} (hk : k.refuseMod = false)
    (h : ((r.epollCtl k t (.mod ⟨⟨true, false, true⟩, i⟩) fd).getD r).epfd t fd = some e) :
    e.events.epollout = false := by
  cases he : r.epfd t fd
  case none =>
    have hc : r.epollCtl k t (.mod ⟨⟨true, false, true⟩, i⟩) fd = none := by
      simp [epollCtl, Kernel.epollCtl, he]
    simp [hc, he] at h
  case some =>
    rw [epollCtl_mod hk (by simp [he]), Option.getD_some, setEntry_epfd_self] at h
    cases h
    rfl

end Deleted

theorem setEntry_none {fd' : Fd} {e : EpollEntry}
    (h : (r.setEntry t' fd' none).epfd t fd = some e) : r.epfd t fd = some e := by
  rw [setEntry_epfd] at h
  split at h
  case isTrue  => cases h
  case isFalse => exact h

theorem delListenCtl_entry {fd' : Fd} {e : EpollEntry}
    (h : (r.delListenCtl k fd).1.epfd t fd' = some e) : r.epfd t fd' = some e := by
  unfold delListenCtl at h
  cases hc : r.epollCtl k 0 .del fd <;> rw [hc] at h
  case none   => exact h
  case some _ => exact setEntry_none (epollCtl_eq_some hc ▸ h)

section Calls

variable {param1 bufferSize : Nat} {isTcp : Bool}

theorem addListenJob_entries (inv : r.WriteEntries t) :
    (r.addListenJob k f fd param1).1.WriteEntries t := by
  have cases : r.addListenJob k f fd param1 = (r, false) ∨ _ := addListenJob_cases
  obtain he | ⟨_, _, hm⟩ := cases
  · rwa [he]
  · exact hm.writeEntries rfl rfl inv

theorem addReadJob_entries (listed : ∀ i ∈ r.ioJobs, i < r.next) (inv : r.WriteEntries t) :
    (r.addReadJob k f fd param1 t' bufferSize isTcp).1.WriteEntries t := by
  have outcome : r.Outcome (.addRead f fd param1 t' bufferSize isTcp)
    (r.addReadJob k f fd param1 t' bufferSize isTcp).1 _ := addReadJob_outcome
  cases find : r.findIoJob fd
  case none =>
    obtain ⟨_, hm⟩ | ⟨_, hs⟩ := addReadJob_missed (k := k) (t := t') f param1 bufferSize isTcp find
    · exact hm.writeEntries rfl rfl inv
    · exact inv.fewer outcome.grown (fun i hi => .inl (hs.job ▸ hi)) fun _ _ h => hs.epfd ▸ h
  case some i =>
    have lt := listed i (findIoJob_some find).1
    have found : r.addReadJob k f fd param1 t' bufferSize isTcp = (r, false) ∨ _ :=
      addReadJob_found find
    obtain he | ⟨_, ha⟩ := found
    case inl => rwa [he]
    case inr =>
      cases hw : (r.job i).nowEvent.write
      case true =>
        exact ha.toOnlyJob.writeEntries outcome.grown find lt (ha.both hw) (fun _ => id)
          (fun _ => .inl hw) (fun _ => hw) inv
      case false =>
        cases hr : (r.job i).nowEvent.read
        case true =>
          have he := ha.again hw hr
          refine inv.fewer outcome.grown (fun i' hi => .inl ?_) fun _ _ h => he ▸ h
          by_cases hn : i' = i
          case pos => rw [hn, hw] at hi; cases hi
          case neg => rwa [ha.ne hn]
        case false =>
          exact ha.toOnlyJob.writeEntries outcome.grown find lt (ha.first hw hr) nofun
            (fun h => by simp [hw] at h) nofun inv

theorem addWriteJob_entries (listed : ∀ i ∈ r.ioJobs, i < r.next) (inv : r.WriteEntries t)
    (ok : r.WriteKept k t (.addWrite f fd param1 t' isTcp)) :
    (r.addWriteJob k f fd param1 t' isTcp).1.WriteEntries t := by
  have outcome : r.Outcome (.addWrite f fd param1 t' isTcp)
    (r.addWriteJob k f fd param1 t' isTcp).1 _ := addWriteJob_outcome
  cases find : r.findIoJob fd
  case none =>
    obtain ⟨_, _, hm⟩ | ⟨_, _, hs⟩ := addWriteJob_missed (k := k) (t := t') f param1 isTcp find
    · exact hm.writeEntries rfl rfl inv
    · exact inv.fewer outcome.grown (fun i hi => .inl (hs.job ▸ hi)) fun _ _ h => hs.epfd ▸ h
  case some i =>
    have lt := listed i (findIoJob_some find).1
    have ha : r.WriteAdded t' fd f i (r.addWriteJob k f fd param1 t' isTcp).1 _ :=
      addWriteJob_found find
    have accepted : (r.addWriteJob k f fd param1 t' isTcp).2 = true → r.WriteAccepted k t' fd :=
      addWriteJob_ret.mp
    -- The bit of the job is set, whatever becomes of its entry.
    have same (he : (r.addWriteJob k f fd param1 t' isTcp).1.epfd = r.epfd) :
        (r.addWriteJob k f fd param1 t' isTcp).1.WriteEntries t := by
      refine inv.fewer outcome.grown (fun i' hi => .inl ?_) fun _ _ h => he ▸ h
      by_cases hn : i' = i
      case pos => rw [hn, ha.self]; rfl
      case neg => rwa [ha.ne hn]
    cases hw : (r.job i).nowEvent.write
    case true => exact same (ha.again hw).1
    case false =>
      cases hret : (r.addWriteJob k f fd param1 t' isTcp).2
      case false => exact same (ha.failed hret)
      case true =>
        refine ha.toOnlyJob.writeEntries outcome.grown find lt (ha.first hw hret) (fun _ ht => ?_)
          (fun h => by simp [hw] at h) (fun _ => rfl) inv
        cases hr : (r.job i).nowEvent.read
        case true => simpa [hr] using ht
        case false =>
          have ht : t' = t := by simpa [hr] using ht
          have acc := accepted hret
          simp only [WriteAccepted, find, hw, hr, forall_const] at acc
          exact ok ht i find (NowEvent.ext hr hw) acc.1 (ht ▸ acc.2)

theorem delReadJob_entries (listed : ∀ i ∈ r.ioJobs, i < r.next) (inv : r.WriteEntries t) :
    (r.delReadJob k fd f).1.WriteEntries t := by
  cases find : r.findIoJob fd
  case none => simpa [delReadJob, find] using inv
  case some i =>
    have lt := listed i (findIoJob_some find).1
    have hd : r.OnlyJob (r.delReadJob k fd f).1 i (delRead (r.job i) f) := delReadJob_found find
    have hg : r.Grown (r.delReadJob k fd f).1 := hd.grown delRead_sameOwner (by simp +contextual)
    have bit (i' : JobId) (hi : (r.job i').nowEvent.write = true) :
        ((r.delReadJob k fd f).1.job i').nowEvent.write = true := by
      by_cases hn : i' = i
      case pos => rw [hn, hd.self, delRead_nowEvent]; exact hn ▸ hi
      case neg => rwa [hd.ne hn]
    obtain he | ⟨hw, he⟩ | he := delReadJob_epfd (k := k) (f := f) find
    case inl      => exact inv.fewer hg (fun i hi => .inl <| bit i hi) fun _ _ h => he ▸ h
    case inr.inr  =>
      exact inv.fewer hg (fun i hi => .inl <| bit i hi) fun _ _ h => setEntry_none (he ▸ h)
    case inr.inl =>
      exact hd.writeEntries hg find lt he (fun _ => id) (fun hi => .inl <| by simpa using hi)
        (fun _ => by simpa using hw) inv

theorem delWriteJob_entries (inv : r.WriteEntries t)
    (ok : r.WriteKept k t (.delWrite fd f)) : (r.delWriteJob k fd f).1.WriteEntries t := by
  cases find : r.findIoJob fd
  case none => simpa [delWriteJob, find] using inv
  case some i =>
    have hd : r.OnlyJob (r.delWriteJob k fd f).1 i (delWrite (r.job i) f) := delWriteJob_found find
    have hg : r.Grown (r.delWriteJob k fd f).1 := hd.grown delWrite_sameOwner (by simp +contextual)
    obtain ⟨hr, he⟩ | ⟨hr, he⟩ := delWriteJob_epfd (k := k) (f := f) find
    case inr =>
      -- The job is marked.
      refine inv.fewer hg (fun i' hi => ?_) fun fd' e h => ?_
      case refine_1 =>
        by_cases hn : i' = i
        case pos => right; rw [hn, hd.self, delWrite_isWantDelete, hr]; simp
        case neg => left; rwa [hd.ne hn]
      case refine_2 =>
        obtain he | he := he
        · exact he ▸ h
        · exact setEntry_none (he ▸ h)
    case inl =>
      have hf := (findIoJob_some find).2.1
      refine inv.cleared hg (fun _ => hd.ne) (fun _ _ h => epollCtl_mod_entry (he ▸ h)) ?_
      rw [hf]
      exact fun _ h hw => epollCtl_mod_read (ok i find hr hw) (he ▸ h)

theorem callWhole_entries (listed : ∀ i ∈ r.ioJobs, i < r.next) (inv : r.WriteEntries t)
    (ok : r.WriteKept k t c) : (r.callWhole k c).1.WriteEntries t := by
  cases c
  case addListen => exact addListenJob_entries inv
  case addRead   => exact addReadJob_entries listed inv
  case addWrite  => exact addWriteJob_entries listed inv ok
  case delRead   => exact delReadJob_entries listed inv
  case delWrite  => exact delWriteJob_entries inv ok
  case delListen fd freeFunc =>
    cases find : r.findIoJob fd
    case none => simpa [callWhole, delListenJob, find] using inv
    case some i =>
      let r₁ := r.modify i fun j => j.setFreeCallback freeFunc |>.setDeletingFlag
      have hc : r.callWhole k (.delListen fd freeFunc) = r₁.delListenCtl k fd := by
        simp [callWhole, delListenJob, find, r₁]
      have only : r.OnlyJob r₁ i _ := .of_modify rfl rfl rfl
      obtain ⟨hj, hn, hl⟩ := r₁.delListenCtl_frame k fd
      have marked : r₁.WriteEntries t := by
        refine inv.fewer (only.grown ⟨rfl, rfl, rfl, rfl⟩ fun _ => rfl) (fun i' hi => ?_) fun _ _ => id
        by_cases hn : i' = i
        case pos => right; rw [hn, only.self]; rfl
        case neg => left; rwa [only.ne hn]
      rw [hc]
      exact marked.fewer (.of_job hj hn (hl ▸ List.Subset.refl _)) (fun i hi => .inl (hj ▸ hi))
        fun _ _ => delListenCtl_entry

end Calls

-- The write handler takes the write bit out of the entry of its job, unless the kernel refuses.
theorem writeEvtHandle_entries (hl : (r.job i).kind ≠ .listen) (live : (r.job i).isWantDelete = false)
    (ok : if (r.job i).ioEventRead then k.refuseMod = false else k.refuseDel = false)
    (inv : r.WriteEntries t) : (r.writeEvtHandle k i).WriteEntries t := by
  have he := writeEvtHandle_eq (k := k) hl live
  have only : r.OnlyJob (r.writeEvtHandle k i) i (r.job i).delWriteIoEvent := he ▸ delIoWritingEvt_found
  have epfd : (r.writeEvtHandle k i).epfd = (r.delIoWritingEvt k i).epfd := by rw [he, modify_epfd]
  refine inv.cleared (only.grown ⟨rfl, rfl, rfl, rfl⟩ id) (fun _ => only.ne) ?_ ?_
  all_goals
    rw [epfd]
    cases hr : (r.job i).nowEvent.read <;> simp only [IoJob.ioEventRead, hr, if_true] at ok
  case refine_1.true  => simpa [delIoWritingEvt, hr] using fun _ _ => epollCtl_mod_entry
  case refine_2.true  => simpa [delIoWritingEvt, hr] using fun _ h _ => epollCtl_mod_read ok h
  case refine_1.false =>
    have hd : k.refuseDel = false := by simpa using ok
    simpa [delIoWritingEvt, hr, epollCtl_getD_del hd] using fun _ _ h _ => setEntry_none h
  case refine_2.false =>
    have hd : k.refuseDel = false := by simpa using ok
    simp [delIoWritingEvt, hr, epollCtl_getD_del hd]

end Registry
end NetPool
