import NetPool.Io.Found
import NetPool.Recv.NetRecv

namespace NetPool
namespace Registry

variable {r r' : Registry} {k : Kernel} {i j : JobId} {t param1 : Nat} {fd : Fd} {f : Hdl}

-- While `j` is not marked it is the job that is found, and no other job with that `param1` is
-- unmarked.
structure Sole (r : Registry) (fd : Fd) (param1 : Nat) (j : JobId) : Prop where
  find : (r.job j).isWantDelete = false → r.findIoJob fd = some j
  only : ∀ i ∈ r.ioJobs, (r.job i).param1 = param1 → (r.job i).isWantDelete = false → i = j

-- Nothing takes a mark away.
theorem Sole.change {new : IoJob} (h : r.Sole fd param1 j) (o : r.OnlyJob r' i new)
    (owner : (r.job i).SameOwner new)
    (mark : (r.job i).isWantDelete = true → new.isWantDelete = true) : r'.Sole fd param1 j := by
  have live : ∀ i', (r'.job i').isWantDelete = false → (r.job i').isWantDelete = false := by
    intro i' hl
    by_cases hi : i' = i
    case neg => rwa [o.ne hi] at hl
    case pos =>
      subst hi
      rw [o.self] at hl
      by_contra hm
      simp [mark (by simpa using hm)] at hl
  constructor
  case find => exact fun hl => o.findIoJob owner.fd (h.find <| live j hl) hl
  case only =>
    intro i' hm hp hl
    refine h.only i' (o.ioJobs ▸ hm) ?_ (live i' hl)
    by_cases hi : i' = i
    case pos => rw [hi, ← hp, hi, o.self, owner.param1]
    case neg => rw [← hp, o.ne hi]

theorem Sole.same (h : r.Sole fd param1 j) (o : r.Same r') : r'.Sole fd param1 j where
  find hl := findIoJob_kept (h.find <| o.job ▸ hl) o.ioJobs (by simp [o.job]) hl
  only i hm hp hl := h.only i (o.ioJobs ▸ hm) (o.job ▸ hp) (o.job ▸ hl)

theorem Sole.sweep (h : r.Sole fd param1 j) : (r.handleDelingJob t).1.Sole fd param1 j := by
  have hj : (r.handleDelingJob t).1.job = r.job := by rw [handleDelingJob_eq]
  constructor
  case find => exact fun hl => findIoJob_sweep <| h.find <| hj ▸ hl
  case only =>
    rw [hj]
    exact fun i hm => h.only i <| handleDelingJob_sublist.subset hm

-- What a call does to `j`: something if it is not marked, and nothing if it is.
structure Touched (r : Registry) (fd : Fd) (param1 : Nat) (j : JobId) (new : IoJob) (r' : Registry) :
    Prop where
  sole   : r'.Sole fd param1 j
  live   : (r.job j).isWantDelete = false → r'.job j = new
  marked : (r.job j).isWantDelete = true → r'.job j = r.job j

theorem Sole.found {g : IoJob → IoJob} (h : r.Sole fd param1 j) (find : r.findIoJob fd = some i)
    (o : r.OnlyJob r' i (g (r.job i))) (owner : (r.job i).SameOwner (g (r.job i))) :
    r.Touched fd param1 j (g (r.job j)) r' := by
  have ⟨_, _, hl⟩ := findIoJob_some find
  refine ⟨h.change o owner (fun hm => by simp [hl] at hm), fun live => ?_, fun hm => o.ne ?_⟩
  case refine_1 =>
    cases find.symm.trans (h.find live)
    exact o.self
  case refine_2 =>
    intro hi
    simp [hi, hl] at hm

theorem Sole.missed {new : IoJob} (h : r.Sole fd param1 j) (find : r.findIoJob fd = none)
    (o : r.Same r') : r.Touched fd param1 j new r' := by
  refine ⟨h.same o, fun live => ?_, fun _ => by rw [o.job]⟩
  simp [h.find live] at find

theorem Sole.delRead (h : r.Sole fd param1 j) :
    r.Touched fd param1 j (delRead (r.job j) f) (r.delReadJob k fd f).1 := by
  cases find : r.findIoJob fd
  case none   => exact h.missed find (by simp only [delReadJob, find]; exact ⟨rfl, rfl, rfl, rfl⟩)
  case some i =>
    exact h.found (g := (Registry.delRead · f)) find (delReadJob_found find) delRead_sameOwner

theorem Sole.delWrite (h : r.Sole fd param1 j) :
    r.Touched fd param1 j (delWrite (r.job j) f) (r.delWriteJob k fd f).1 := by
  cases find : r.findIoJob fd
  case none   => exact h.missed find (by simp only [delWriteJob, find]; exact ⟨rfl, rfl, rfl, rfl⟩)
  case some i =>
    exact h.found (g := (Registry.delWrite · f)) find (delWriteJob_found find) delWrite_sameOwner

-- Once `j` is marked, this must not make a new job.
theorem Sole.addWrite (h : r.Sole fd param1 j) (f : Hdl) (param1' : Nat) (isTcp : Bool)
    (hg : (r.job j).isWantDelete = true → ¬(r.findIoJob fd = none ∧ r.WriteAccepted k t fd)) :
    r.Touched fd param1 j ((r.job j).setWriteCallback f).addWriteIoEvent
      (r.addWriteJob k f fd param1' t isTcp).1 := by
  cases find : r.findIoJob fd
  case some i =>
    exact h.found (g := fun j => (j.setWriteCallback f).addWriteIoEvent) find
      (addWriteJob_found find).toOnlyJob ⟨rfl, rfl, rfl, rfl⟩
  case none =>
    have hm : (r.job j).isWantDelete = true := by
      by_contra hl
      simp [h.find (by simpa using hl)] at find
    obtain ⟨ha, _⟩ | ⟨_, _, o⟩ := addWriteJob_missed (k := k) (t := t) f param1' isTcp find
    case inl => exact absurd ⟨find, ha⟩ (hg hm)
    case inr => exact h.missed find o

theorem Sole.clearWrite (h : r.Sole fd param1 j) :
    (((r.delIoWritingEvt k j).modify j (·.delWriteIoEvent)).Sole fd param1 j) ∧
      ((r.delIoWritingEvt k j).modify j (·.delWriteIoEvent)).job j = (r.job j).delWriteIoEvent :=
  ⟨h.change delIoWritingEvt_found ⟨rfl, rfl, rfl, rfl⟩ id, delIoWritingEvt_found.self⟩

end Registry

namespace NetRecv

variable {s s' : NetRecv} {j : JobId} {k : Kernel}

-- An object with the job `j`, at rest: its flags say what is registered, and something is.
structure Registered (j : JobId) (s : NetRecv) : Prop where
  find    : s.reg.findIoJob s.fd = some j
  only    : ∀ i ∈ s.reg.ioJobs, (s.reg.job i).param1 = s.self →
    (s.reg.job i).isWantDelete = false → i = j
  read    : (s.reg.job j).nowEvent.read = s.isRegisterRead
  write   : (s.reg.job j).nowEvent.write = true ∨ (s.reg.job j).writeFunc = .sendCallback →
    s.isRegisterWrite = true ∨ s.isRegisterConnect = true
  some    : s.isRegisterRead = true ∨ s.isRegisterWrite = true ∨ s.isRegisterConnect = true
  isFreed : s.isFreed = false
  freed   : s.freed = false
  holder  : s.holder = none
  work    : s.work = .idle

-- The worker handles the write events of the job `j`, and they are for `send_handle`.
def Sending (j : JobId) (s : NetRecv) : Act → Prop
  | .wait   => ∀ e ∈ s.reg.epfd thrdIndex s.fd, e.ptr = j
  | .work _ => ∀ i ∈ s.work.called, (s.reg.job i).writeFunc = .sendCallback
  | _       => True

instance : ∀ s a, Decidable (Sending j s a)
  | _, .wait | _, .work _ => inferInstanceAs (Decidable (∀ _ ∈ _, _))
  | _, .enter .. | _, .direct .. | _, .lock | _, .free | _, .hold _ | _, .send _ | _, .connect _
  | _, .registerRead _ | _, .sweep => .isTrue trivial

-- A `send_data` whose registration fails has no part in it, and `send_handle` does not register a
-- new job once `j` is marked.
def Guarded (j : JobId) (s : NetRecv) : Act → Prop
  | .hold k => s.holder = some .send → ¬s.reg.WriteAccepted k thrdIndex s.fd →
    s.isRegisterWrite = true ∨ s.isRegisterConnect = true
  | .work k => s.work = .sending → s.writer.pc = .register → (s.reg.job j).isWantDelete = true →
    ¬(s.reg.findIoJob s.fd = none ∧ s.reg.WriteAccepted k thrdIndex s.fd)
  | _       => True

instance : ∀ s a, Decidable (Guarded j s a)
  | _, .hold _ => inferInstanceAs (Decidable (_ → _ → _))
  | _, .work _ => inferInstanceAs (Decidable (_ → _ → _ → _))
  | _, .enter .. | _, .direct .. | _, .lock | _, .free | _, .wait | _, .send _ | _, .connect _
  | _, .registerRead _ | _, .sweep => .isTrue trivial

-- A write registration is known to the next `free`.
def Flagged (s : NetRecv) : Prop :=
  s.isRegisterWrite = true ∨ s.isRegisterConnect = true ∨ s.holder = some (.sent true)

-- How far `free` is with the job `J`.
def FreeOk (J : IoJob) (s : NetRecv) : FreePc → Prop
  | .testRead    => J.isWantDelete = false →
    s.isRegisterRead = true ∨ s.isRegisterWrite = true ∨ s.isRegisterConnect = true
  | .delRead     => s.isRegisterRead = true
  | .clearRead   => J.nowEvent.read = false ∧
    (J.isWantDelete = false → s.isRegisterWrite = true ∨ s.isRegisterConnect = true)
  | .testWrite   => J.isWantDelete = false →
    J.nowEvent.read = false ∧ (s.isRegisterWrite = true ∨ s.isRegisterConnect = true)
  | .testConnect => J.isWantDelete = false → J.nowEvent.read = false ∧ s.isRegisterConnect = true
  | .delWrite | .delConnect              => J.isWantDelete = false → J.nowEvent.read = false
  | .clearWrite | .clearConnect | .unlock => J.isWantDelete = true

def HolderOk (J : IoJob) (s : NetRecv) : Option Holder → Prop
  | none             => J.isWantDelete = false →
    s.isRegisterRead = true ∨ s.isRegisterWrite = true ∨ s.isRegisterConnect = true
  | some .send       => s.isFreed = false ∧
    (s.isRegisterRead = true ∨ s.isRegisterWrite = true ∨ s.isRegisterConnect = true)
  | some (.sent _)   =>
    s.isRegisterRead = true ∨ s.isRegisterWrite = true ∨ s.isRegisterConnect = true
  | some (.free p _) => s.isFreed = true ∧ FreeOk J s p

-- The callbacks that the worker is in. The write events are those of `j`.
def WorkOk (j : JobId) : WorkPc → Prop
  | .testing i | .writing i | .calling i                        => i = j
  | .idle | .sending | .registered _ | .failed | .freeing       => True
  | .connect | .handling _ | .readAdded _ _ | .handled _ | .testWrite | .unregister
  | .unregistered                                               => False

structure FreeInv (j : JobId) (s : NetRecv) : Prop where
  sole   : s.reg.Sole s.fd s.self j
  marked : (s.reg.job j).isWantDelete = true → (s.reg.job j).nowEvent.read = false ∧ s.isFreed = true
  read   : (∀ w, s.holder ≠ some (.free .clearRead w)) →
    (s.reg.job j).nowEvent.read = s.isRegisterRead
  write  : (s.reg.job j).isWantDelete = false → (s.reg.job j).nowEvent.write = true ∨
    (s.reg.job j).writeFunc = .sendCallback ∨ s.work = .sending → s.Flagged
  holder : HolderOk (s.reg.job j) s s.holder
  work   : WorkOk j s.work
  freed  : s.freed = true → (s.reg.job j).isWantDelete = true

-- Other steps may only set `m_is_register_write`.
theorem HolderOk.mono {J J' : IoJob} {h : Option Holder} (ok : HolderOk J s h)
    (mark : J'.isWantDelete = J.isWantDelete) (bit : J'.nowEvent.read = J.nowEvent.read)
    (read : s'.isRegisterRead = s.isRegisterRead)
    (write : s.isRegisterWrite = true → s'.isRegisterWrite = true)
    (connect : s'.isRegisterConnect = s.isRegisterConnect) (isFreed : s'.isFreed = s.isFreed) :
    HolderOk J' s' h := by
  obtain _ | _ | _ | ⟨pc, w⟩ := h
  case some.free =>
    cases pc <;> simp only [HolderOk, FreeOk, mark, bit, read, connect, isFreed] at ok ⊢
    case testRead | clearRead | testWrite => grind
    all_goals exact ok
  all_goals
    simp only [HolderOk, mark, read, connect, isFreed] at ok ⊢
    grind

theorem Flagged.mono (h : s.Flagged) (write : s.isRegisterWrite = true → s'.isRegisterWrite = true)
    (connect : s'.isRegisterConnect = s.isRegisterConnect) (holder : s'.holder = s.holder) :
    s'.Flagged := by
  unfold Flagged at h ⊢
  rw [connect, holder]
  exact h.imp_left write

namespace FreeInv

-- Nothing but the writer, the counts and the place of the worker has changed.
theorem frame (h : s.FreeInv j) (reg : s'.reg = s.reg) (fd : s'.fd = s.fd) (self : s'.self = s.self)
    (read : s'.isRegisterRead = s.isRegisterRead)
    (write : s.isRegisterWrite = true → s'.isRegisterWrite = true)
    (connect : s'.isRegisterConnect = s.isRegisterConnect) (isFreed : s'.isFreed = s.isFreed)
    (holder : s'.holder = s.holder) (freed : s'.freed = s.freed) (work : WorkOk j s'.work)
    (sending : s'.work = .sending → s.work = .sending ∨ (s.reg.job j).writeFunc = .sendCallback) :
    s'.FreeInv j where
  sole   := by rw [reg, fd, self]; exact h.sole
  marked := by rw [reg, isFreed]; exact h.marked
  read   := by rw [reg, holder, read]; exact h.read
  write  := by
    rw [reg]
    intro live hw
    refine (h.write live ?_).mono write connect holder
    exact hw.imp_right fun hw => hw.elim .inl fun hs => (sending hs).symm
  holder := by rw [reg, holder]; exact h.holder.mono rfl rfl read write connect isFreed
  work   := work
  freed  := by rw [reg, freed]; exact h.freed

theorem live_of_not_freed (h : s.FreeInv j) (hf : s.isFreed = false) :
    (s.reg.job j).isWantDelete = false := by
  by_contra hm
  simp [(h.marked (by simpa using hm)).2] at hf

-- No `send_data` is between its registration and the flag.
theorem flags (h : s.FreeInv j) (hh : ∀ ret, s.holder ≠ some (.sent ret))
    (live : (s.reg.job j).isWantDelete = false) (hw : (s.reg.job j).nowEvent.write = true ∨
      (s.reg.job j).writeFunc = .sendCallback ∨ s.work = .sending) :
    s.isRegisterWrite = true ∨ s.isRegisterConnect = true := by
  have := h.write live hw
  simpa [Flagged, hh] using this

theorem lock (h : s.FreeInv j) (free : s.holder = none) : s.lock.FreeInv j := by
  have hh := h.holder
  rw [free] at hh
  refine ⟨h.sole, h.marked, fun _ => h.read (by simp [free]), fun live hw => ?_, ?_, h.work, h.freed⟩
  case refine_1 => exact (h.flags (by simp [free]) live hw).imp_right .inl
  case refine_2 =>
    cases hf : s.isFreed
    case true =>
      rw [show s.lock.holder = none by simp [NetRecv.lock, hf]]
      exact hh
    case false =>
      rw [show s.lock.holder = some .send by simp [NetRecv.lock, hf]]
      exact ⟨hf, hh <| h.live_of_not_freed hf⟩

theorem startFree (h : s.FreeInv j) (free : s.holder = none) {w : Bool} :
    (s.startFree w).FreeInv j := by
  have hh := h.holder
  rw [free] at hh
  refine ⟨h.sole, fun hm => ⟨(h.marked hm).1, rfl⟩, fun _ => h.read (by simp [free]), fun live hw => ?_,
    ⟨rfl, hh⟩, h.work, h.freed⟩
  exact (h.flags (by simp [free]) live hw).imp_right .inl

-- What a step does to the job `j` when it changes neither the mark nor the read bit, and leaves a
-- write registration only where the next `free` knows of it.
structure Quiet (j : JobId) (s s' : NetRecv) : Prop where
  sole : s'.reg.Sole s.fd s.self j
  mark : (s'.reg.job j).isWantDelete = (s.reg.job j).isWantDelete
  read : (s'.reg.job j).nowEvent.read = (s.reg.job j).nowEvent.read

theorem addWrite_quiet (h : s.FreeInv j) (hg : (s.reg.job j).isWantDelete = true →
      ¬(s.reg.findIoJob s.fd = none ∧ s.reg.WriteAccepted k thrdIndex s.fd))
    (reg : s'.reg = (s.addWrite k).1) : Quiet j s s' := by
  have t := h.sole.addWrite .sendCallback s.self true hg
  rw [← addWrite, ← reg] at t
  refine ⟨t.sole, ?_, ?_⟩
  all_goals
    cases hm : (s.reg.job j).isWantDelete
    case true  => simp [t.marked hm, hm]
    case false => simp [t.live hm, IoJob.setWriteCallback, IoJob.addWriteIoEvent, hm]

theorem quiet (h : s.FreeInv j) (q : Quiet j s s') (fd : s'.fd = s.fd) (self : s'.self = s.self)
    (read : s'.isRegisterRead = s.isRegisterRead) (isFreed : s'.isFreed = s.isFreed)
    (freed : s'.freed = s.freed) (work : WorkOk j s'.work)
    (clearing : ∀ w, s'.holder ≠ some (.free .clearRead w) ↔ s.holder ≠ some (.free .clearRead w))
    (flagged : (s'.reg.job j).isWantDelete = false → (s'.reg.job j).nowEvent.write = true ∨
      (s'.reg.job j).writeFunc = .sendCallback ∨ s'.work = .sending → s'.Flagged)
    (holder : HolderOk (s.reg.job j) s' s'.holder) : s'.FreeInv j where
  sole   := by rw [fd, self]; exact q.sole
  marked := by rw [q.mark, q.read, isFreed]; exact h.marked
  read   := by simp only [clearing, q.read, read]; exact h.read
  write  := flagged
  holder := holder.mono q.mark q.read rfl id rfl rfl
  work   := work
  freed  := by rw [freed, q.mark]; exact h.freed

-- `register_write` of a `send_data`.
theorem send (h : s.FreeInv j) (hh : s.holder = some .send)
    (hg : ¬s.reg.WriteAccepted k thrdIndex s.fd →
      s.isRegisterWrite = true ∨ s.isRegisterConnect = true) : (s.hold k .send).FreeInv j := by
  have ho := h.holder
  rw [hh] at ho
  have live := h.live_of_not_freed ho.1
  have q : Quiet j s (s.hold k .send) := h.addWrite_quiet (fun hm => by simp [live] at hm) rfl
  apply h.quiet q rfl rfl rfl rfl rfl h.work
  case clearing => simp [hold, hh]
  case holder   => exact ho.2
  case flagged  =>
    intro _ _
    by_cases ha : s.reg.WriteAccepted k thrdIndex s.fd
    case pos =>
      have hr : (s.addWrite k).2 = true := Registry.addWriteJob_ret.mpr ha
      exact .inr <| .inr <| by simp [hold, hr]
    case neg => exact (hg ha).imp_right .inl

theorem sent (h : s.FreeInv j) {ret : Bool} (hh : s.holder = some (.sent ret)) :
    (s.hold k (.sent ret)).FreeInv j := by
  have ho := h.holder
  rw [hh] at ho
  have q : Quiet j s (s.hold k (.sent ret)) := ⟨h.sole, rfl, rfl⟩
  apply h.quiet q rfl rfl rfl rfl rfl h.work
  case clearing => simp [hold, hh]
  case holder   =>
    intro _
    exact ho.imp_right <| Or.imp_left fun hw => by simp [hold, hw]
  case flagged  =>
    intro live hw
    obtain hf | hf | hf := h.write live hw
    case inl     => exact .inl <| by simp [hold, hf]
    case inr.inl => exact .inr <| .inl hf
    case inr.inr =>
      rw [hh] at hf
      cases hf
      exact .inl <| by simp [hold]

-- A step of `free` that makes no call.
theorem free_flag (h : s.FreeInv j) {pc pc' : FreePc} {w : Bool} (hh : s.holder = some (.free pc w))
    (hh' : s'.holder = some (.free pc' w)) (reg : s'.reg = s.reg) (fd : s'.fd = s.fd)
    (self : s'.self = s.self) (isFreed : s'.isFreed = s.isFreed) (freed : s'.freed = s.freed)
    (work : s'.work = s.work)
    (bit : (s.reg.job j).nowEvent.read = s'.isRegisterRead)
    (flags : (s.reg.job j).isWantDelete = false →
      s.isRegisterWrite = true ∨ s.isRegisterConnect = true →
      s'.isRegisterWrite = true ∨ s'.isRegisterConnect = true)
    (ok : FreeOk (s.reg.job j) s' pc') : s'.FreeInv j where
  sole   := by rw [reg, fd, self]; exact h.sole
  marked := by rw [reg, isFreed]; exact h.marked
  read   := by rw [reg]; exact fun _ => bit
  write  := by
    rw [reg, work]
    intro live hw
    have := flags live <| h.flags (by simp [hh]) live hw
    exact this.imp_right .inl
  holder := by
    have ho := h.holder
    rw [hh] at ho
    rw [reg, hh']
    exact ⟨isFreed.trans ho.1, ok⟩
  work   := by rw [work]; exact h.work
  freed  := by rw [reg, freed]; exact h.freed

-- A step of `free` that takes away the read or the write event.
theorem free_call (h : s.FreeInv j) {pc pc' : FreePc} {w : Bool} {new : IoJob}
    (hh : s.holder = some (.free pc w)) (hh' : s'.holder = some (.free pc' w))
    (t : s.reg.Touched s.fd s.self j new s'.reg) (fd : s'.fd = s.fd) (self : s'.self = s.self)
    (write : s'.isRegisterWrite = s.isRegisterWrite)
    (connect : s'.isRegisterConnect = s.isRegisterConnect) (isFreed : s'.isFreed = s.isFreed)
    (freed : s'.freed = s.freed) (work : s'.work = s.work)
    (marked : (s.reg.job j).isWantDelete = false → new.isWantDelete = true →
      new.nowEvent.read = false)
    (bit : pc' ≠ .clearRead → (s'.reg.job j).nowEvent.read = s'.isRegisterRead)
    (old : (s.reg.job j).isWantDelete = false → new.isWantDelete = false →
      new.nowEvent.write = true ∨ new.writeFunc = .sendCallback →
      (s.reg.job j).nowEvent.write = true ∨ (s.reg.job j).writeFunc = .sendCallback)
    (ok : FreeOk (s'.reg.job j) s' pc') : s'.FreeInv j := by
  have ho := h.holder
  rw [hh] at ho
  have live : (s'.reg.job j).isWantDelete = false → (s.reg.job j).isWantDelete = false := by
    intro hl
    by_contra hm
    have hm : (s.reg.job j).isWantDelete = true := by simpa using hm
    simp [t.marked hm, hm] at hl
  constructor
  case sole   => rw [fd, self]; exact t.sole
  case marked =>
    rw [isFreed]
    intro hm
    refine ⟨?_, ho.1⟩
    cases hl : (s.reg.job j).isWantDelete
    case true  => rw [t.marked hl]; exact (h.marked hl).1
    case false => rw [t.live hl] at hm ⊢; exact marked hl hm
  case read   => exact fun hc => bit fun he => hc w (he ▸ hh')
  case write  =>
    rw [work]
    intro hl hw
    have hl₀ := live hl
    rw [t.live hl₀] at hl hw
    have := h.flags (by simp [hh]) hl₀ <| by
      obtain hw | hw | hw := hw
      case inl     => exact (old hl₀ hl <| .inl hw).imp_right .inl
      case inr.inl => exact (old hl₀ hl <| .inr hw).imp_right .inl
      case inr.inr => exact .inr <| .inr hw
    rw [Flagged, write, connect]
    exact this.imp_right .inl
  case holder => rw [hh']; exact ⟨isFreed.trans ho.1, ok⟩
  case work   => rw [work]; exact h.work
  case freed  =>
    rw [freed]
    intro hf
    rw [t.marked <| h.freed hf]
    exact h.freed hf

theorem delWrite_marks (h : s.FreeInv j)
    (ok : (s.reg.job j).isWantDelete = false → (s.reg.job j).nowEvent.read = false) :
    ((s.delWrite k).job j).isWantDelete = true ∧
      ((s.delWrite k).job j).nowEvent.read = (s.reg.job j).nowEvent.read := by
  have t : s.reg.Touched s.fd s.self j _ (s.delWrite k) := h.sole.delWrite
  cases hm : (s.reg.job j).isWantDelete
  case true  => simp [t.marked hm, hm]
  case false => simp [t.live hm, ok hm]

theorem freeStep (h : s.FreeInv j) {pc : FreePc} {w : Bool} (hh : s.holder = some (.free pc w)) :
    (s.freeStep k w pc).FreeInv j := by
  have ho := h.holder
  rw [hh] at ho
  have ⟨hf, ok⟩ := ho
  have bit : pc ≠ .clearRead → (s.reg.job j).nowEvent.read = s.isRegisterRead := by
    intro hp
    exact h.read <| by simpa [hh] using hp
  cases pc
  case testRead =>
    have bit := bit nofun
    cases hr : s.isRegisterRead
    case false =>
      have hh' : (s.freeStep k w .testRead).holder = some (.free .testWrite w) := by
        simp [NetRecv.freeStep, hr]
      apply h.free_flag hh hh' rfl rfl rfl rfl rfl rfl bit fun _ => id
      exact fun live => ⟨bit.trans hr, (ok live).resolve_left (by simp [hr])⟩
    case true =>
      have hh' : (s.freeStep k w .testRead).holder = some (.free .delRead w) := by
        simp [NetRecv.freeStep, hr]
      exact h.free_flag hh hh' rfl rfl rfl rfl rfl rfl bit (fun _ => id) hr
  case clearRead =>
    have hh' : (s.freeStep k w .clearRead).holder = some (.free .testWrite w) := rfl
    apply h.free_flag hh hh' rfl rfl rfl rfl rfl rfl ok.1 fun _ => id
    exact fun live => ⟨ok.1, ok.2 live⟩
  case testWrite =>
    have bit := bit nofun
    cases hw : s.isRegisterWrite
    case false =>
      have hh' : (s.freeStep k w .testWrite).holder = some (.free .testConnect w) := by
        simp [NetRecv.freeStep, hw]
      apply h.free_flag hh hh' rfl rfl rfl rfl rfl rfl bit fun _ => id
      exact fun live => ⟨(ok live).1, (ok live).2.resolve_left (by simp [hw])⟩
    case true =>
      have hh' : (s.freeStep k w .testWrite).holder = some (.free .delWrite w) := by
        simp [NetRecv.freeStep, hw]
      exact h.free_flag hh hh' rfl rfl rfl rfl rfl rfl bit (fun _ => id) fun live => (ok live).1
  case testConnect =>
    have bit := bit nofun
    cases hc : s.isRegisterConnect
    case false =>
      have hh' : (s.freeStep k w .testConnect).holder = some (.free .unlock w) := by
        simp [NetRecv.freeStep, hc]
      apply h.free_flag hh hh' rfl rfl rfl rfl rfl rfl bit fun _ => id
      show (s.reg.job j).isWantDelete = true
      by_contra hm
      simpa [hc] using (ok (by simpa using hm)).2
    case true =>
      have hh' : (s.freeStep k w .testConnect).holder = some (.free .delConnect w) := by
        simp [NetRecv.freeStep, hc]
      exact h.free_flag hh hh' rfl rfl rfl rfl rfl rfl bit (fun _ => id) fun live => (ok live).1
  -- Behind the deleting call the job is marked, and the flags do not matter any more.
  case clearWrite =>
    have hh' : (s.freeStep k w .clearWrite).holder = some (.free .unlock w) := rfl
    apply h.free_flag hh hh' rfl rfl rfl rfl rfl rfl (bit nofun) _ ok
    exact fun live => by simp [FreeOk, live] at ok
  case clearConnect =>
    have hh' : (s.freeStep k w .clearConnect).holder = some (.free .unlock w) := rfl
    apply h.free_flag hh hh' rfl rfl rfl rfl rfl rfl (bit nofun) _ ok
    exact fun live => by simp [FreeOk, live] at ok
  case unlock =>
    refine ⟨h.sole, h.marked, fun _ => bit nofun, fun live => ?_, fun live => ?_, ?_, fun _ => ok⟩
    case refine_1 | refine_2 => simp [FreeOk, show (s.reg.job j).isWantDelete = false from live] at ok
    case refine_3 => cases w <;> first | exact h.work | trivial
  case delRead =>
    have hh' : (s.freeStep k w .delRead).holder = some (.free .clearRead w) := rfl
    have t : s.reg.Touched s.fd s.self j _ (s.freeStep k w .delRead).reg := h.sole.delRead
    have live : (s.reg.job j).isWantDelete = false := by
      by_contra hm
      have hr := (bit nofun).trans ok
      simp [h.marked (by simpa using hm)] at hr
    apply h.free_call hh hh' t rfl rfl rfl rfl rfl rfl rfl
    case marked => simp
    case bit    => exact fun hc => absurd rfl hc
    case old    => simp
    case ok     =>
      rw [t.live live]
      refine ⟨by simp, fun hl => ?_⟩
      exact h.flags (by simp [hh]) live <| .inl (by simpa [live] using hl)
  case delWrite =>
    have hh' : (s.freeStep k w .delWrite).holder = some (.free .clearWrite w) := rfl
    have t : s.reg.Touched s.fd s.self j _ (s.freeStep k w .delWrite).reg := h.sole.delWrite
    have ⟨mark, read⟩ := h.delWrite_marks (k := k) ok
    apply h.free_call hh hh' t rfl rfl rfl rfl rfl rfl rfl
    case marked => simpa using fun live _ => ok live
    case bit    => exact fun _ => read.trans <| bit nofun
    case old    => simp +contextual
    case ok     => exact mark
  case delConnect =>
    have hh' : (s.freeStep k w .delConnect).holder = some (.free .clearConnect w) := rfl
    have t : s.reg.Touched s.fd s.self j _ (s.freeStep k w .delConnect).reg := h.sole.delWrite
    have ⟨mark, read⟩ := h.delWrite_marks (k := k) ok
    apply h.free_call hh hh' t rfl rfl rfl rfl rfl rfl rfl
    case marked => simpa using fun live _ => ok live
    case bit    => exact fun _ => read.trans <| bit nofun
    case old    => simp +contextual
    case ok     => exact mark

theorem sendStep (h : s.FreeInv j) (hw : s.work = .sending)
    (hg : s.writer.pc = .register → (s.reg.job j).isWantDelete = true →
      ¬(s.reg.findIoJob s.fd = none ∧ s.reg.WriteAccepted k thrdIndex s.fd))
    (hs : s.sendStep k = some s') : s'.FreeInv j := by
  unfold NetRecv.sendStep at hs
  split at hs
  case h_1 =>
    cases hs
    refine h.frame rfl rfl rfl rfl id rfl rfl rfl rfl ?_ fun _ => .inl hw
    dsimp only
    split <;> trivial
  case h_2 hp =>
    cases hs
    have q := h.addWrite_quiet (hg hp) (k := k)
      (show ({ s with
        reg    := (s.addWrite k).1
        writer := { s.writer with pc := .idle }
        work   := .registered (s.addWrite k).2 } : NetRecv).reg = _ from rfl)
    refine h.quiet q rfl rfl rfl rfl rfl trivial (fun _ => .rfl) (fun live _ => ?_) h.holder
    exact h.write (q.mark ▸ live) <| .inr <| .inr hw
  case h_3 =>
    have ⟨_, _, he⟩ := Option.map_eq_some_iff.mp hs
    cases he
    exact h.frame rfl rfl rfl rfl id rfl rfl rfl rfl h.work .inl

theorem work' (h : s.FreeInv j) (sending : Sending j s (.work k)) (guarded : Guarded j s (.work k))
    (hs : s.work' k = some s') : s'.FreeInv j := by
  unfold NetRecv.work' at hs
  have hw := h.work
  split at hs
  case h_1 i he =>
    cases hs
    rw [he] at hw
    refine h.frame rfl rfl rfl rfl id rfl rfl rfl rfl ?_ ?_
    all_goals
      dsimp only
      split
    case refine_1.isTrue  => trivial
    case refine_1.isFalse => exact hw
    all_goals exact nofun
  case h_2 i he =>
    rw [he] at hw
    cases hw
    cases hs
    have ⟨sole, job⟩ := h.sole.clearWrite (k := k)
    refine h.quiet ⟨sole, by rw [job]; rfl, by rw [job]; rfl⟩ rfl rfl rfl rfl rfl rfl (fun _ => .rfl)
      (fun live hf => ?_) h.holder
    rw [show ((s.reg.delIoWritingEvt k j).modify j (·.delWriteIoEvent)).job j = _ from job] at live hf
    exact h.write live <| .inr <| .inl <| by simpa [IoJob.delWriteIoEvent] using hf
  case h_3 i he =>
    have hf := sending i (by simp [he, WorkPc.called])
    rw [he] at hw
    cases hw
    rw [hf] at hs
    cases hs
    exact h.frame rfl rfl rfl rfl id rfl rfl rfl rfl trivial fun _ => .inr hf
  case h_4 he => exact h.sendStep he (guarded he) hs
  case h_5 ret he =>
    cases hs
    exact h.frame rfl rfl rfl rfl (fun hr => by simp [hr]) rfl rfl rfl rfl trivial nofun
  case h_6 he =>
    have ⟨free, hs⟩ := Option.ite_none_right_eq_some.mp hs
    cases hs
    exact (h.startFree free).frame rfl rfl rfl rfl id rfl rfl rfl rfl trivial nofun
  case h_13 => contradiction
  all_goals
    simp_all [WorkOk]

theorem step (h : s.FreeInv j) {a : Act} (sending : Sending j s a) (guarded : Guarded j s a)
    (hs : s.step a = some s') : s'.FreeInv j := by
  cases a
  case enter news buf =>
    have ⟨_, _, he⟩ := Option.map_eq_some_iff.mp hs
    cases he
    exact h.frame rfl rfl rfl rfl id rfl rfl rfl rfl h.work .inl
  case direct i round =>
    have ⟨_, _, he⟩ := Option.map_eq_some_iff.mp hs
    cases he
    exact h.frame rfl rfl rfl rfl id rfl rfl rfl rfl h.work .inl
  case lock =>
    have ⟨⟨_, free⟩, hs⟩ := Option.ite_none_right_eq_some.mp hs
    cases hs
    exact h.lock free
  case free =>
    have ⟨free, hs⟩ := Option.ite_none_right_eq_some.mp hs
    cases hs
    exact h.startFree free
  case hold k =>
    have ⟨holder, hh, he⟩ := Option.map_eq_some_iff.mp hs
    cases he
    cases holder
    case send      => exact h.send hh (guarded hh)
    case sent      => exact h.sent hh
    case free pc w => exact h.freeStep hh
  case wait =>
    have ⟨_, hs⟩ := Option.ite_none_right_eq_some.mp hs
    unfold NetRecv.wait at hs
    split at hs
    case h_2 => contradiction
    case h_1 e he =>
      have ⟨_, hs⟩ := Option.ite_none_right_eq_some.mp hs
      cases hs
      exact h.frame rfl rfl rfl rfl id rfl rfl rfl rfl (sending e (by simp [he])) nofun
  case work k => exact h.work' sending guarded hs
  case send out =>
    have ⟨hw, hs⟩ := Option.ite_none_right_eq_some.mp hs
    have ⟨_, _, he⟩ := Option.map_eq_some_iff.mp hs
    cases he
    refine h.frame rfl rfl rfl rfl id rfl rfl rfl rfl ?_ fun _ => .inl hw
    cases out <;> trivial
  case connect =>
    have ⟨hw, _⟩ := Option.ite_none_right_eq_some.mp hs
    have := h.work
    simp [hw, WorkOk] at this
  case registerRead =>
    have := h.work
    simp only [NetRecv.step] at hs
    split at hs
    case h_1 hw => simp [hw, WorkOk] at this
    case h_2    => contradiction
  case sweep =>
    have ⟨_, hs⟩ := Option.ite_none_right_eq_some.mp hs
    cases hs
    have hj : (s.reg.handleDelingJob thrdIndex).1.job = s.reg.job := by
      rw [Registry.handleDelingJob_eq]
    refine h.quiet ⟨h.sole.sweep, by simp only [hj], by simp only [hj]⟩ rfl rfl rfl rfl rfl h.work
      (fun _ => .rfl) ?_ h.holder
    simp only [hj]
    exact h.write

end FreeInv

theorem Registered.freeInv (h : s.Registered j) : s.FreeInv j := by
  have live := (Registry.findIoJob_some h.find).2.2
  refine ⟨⟨fun _ => h.find, h.only⟩, fun hm => by simp [live] at hm, fun _ => h.read, ?_, ?_, ?_,
    fun hf => by simp [h.freed] at hf⟩
  case refine_1 =>
    intro _ hw
    refine (h.write ?_).imp_right .inl
    simpa [h.work] using hw
  case refine_2 => rw [h.holder]; exact fun _ => h.some
  case refine_3 => rw [h.work]; trivial

-- When a `free` has returned, and ever after, the job of the object is marked, and no other job of
-- it is unmarked.
theorem free_final
    (h : (netRecv (Registered j)).Reach (fun s a => Sending j s a ∧ Guarded j s a) s) :
    s.freed = true → (s.reg.job j).isWantDelete = true ∧
      ∀ i ∈ s.reg.ioJobs, (s.reg.job i).param1 = s.self → (s.reg.job i).isWantDelete = true := by
  have inv : s.FreeInv j :=
    h.invariant (fun _ => Registered.freeInv) fun _ _ _ hi ok hs => hi.step ok.1 ok.2 hs
  intro hf
  have marked := inv.freed hf
  refine ⟨marked, fun i hm hp => ?_⟩
  by_contra hl
  have hi := inv.sole.only i hm hp (by simpa using hl)
  exact hl <| hi ▸ marked

theorem accepted_registered : accepted.Registered 0 where
  find    := by decide
  only    := by decide
  read    := rfl
  write   := by decide
  some    := .inl rfl
  isFreed := rfl
  freed   := rfl
  holder  := rfl
  work    := rfl

-- The worker is on its way to a write registration when `free` begins.
theorem free_final_sending : ∃ s, ((netRecv (Registered 0)).Reach
    (fun s a => Sending 0 s a ∧ Guarded 0 s a) s ∧ s.freed = true) ∧
    ((s.reg.job 0).isWantDelete = true ∧
      ∀ i ∈ s.reg.ioJobs, (s.reg.job i).param1 = s.self → (s.reg.job i).isWantDelete = true) := by
  have ⟨s, hr, hf⟩ : ∃ s, (netRecv (Registered 0)).Reach
      (fun s a => Sending 0 s a ∧ Guarded 0 s a) s ∧ s.freed = true :=
    System.Reach.exists_of_run [.enter [⟨0, fun _ => 0⟩] [1, 2], .lock, .hold .plain, .hold .plain,
      .wait, .work .plain, .work .plain, .work .plain, .work .plain, .send .again, .work .plain, .free,
      .hold .plain, .work .plain, .hold .plain, .work .plain, .hold .plain, .hold .plain,
      .hold .plain, .hold .plain, .hold .plain] _ accepted_registered (by decide)
  exact ⟨s, ⟨hr, hf⟩, free_final hr hf⟩

-- The worker makes its write registration after `free` has returned. The job is marked, and so it
-- gets a new one.
theorem not_free_final : ¬∀ j s, (netRecv (Registered j)).Reach (Sending j) s → s.freed = true →
    (s.reg.job j).isWantDelete = true ∧
      ∀ i ∈ s.reg.ioJobs, (s.reg.job i).param1 = s.self → (s.reg.job i).isWantDelete = true := by
  intro h
  have ⟨s, hr, hf, i, hm, hp, hl⟩ : ∃ s, (netRecv (Registered 0)).Reach (Sending 0) s ∧
      s.freed = true ∧ ∃ i ∈ s.reg.ioJobs, (s.reg.job i).param1 = s.self ∧
        (s.reg.job i).isWantDelete = false :=
    System.Reach.exists_of_run [.enter [⟨0, fun _ => 0⟩] [1, 2], .lock, .hold .plain, .hold .plain,
      .wait, .work .plain, .work .plain, .work .plain, .work .plain, .send .again, .work .plain, .free,
      .hold .plain, .hold .plain, .hold .plain, .hold .plain, .hold .plain, .hold .plain,
      .hold .plain, .work .plain] _ accepted_registered (by decide)
  simp [(h 0 s hr hf).2 i hm hp] at hl

end NetRecv
end NetPool
