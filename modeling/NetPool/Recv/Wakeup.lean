import NetPool.Io.Found
import NetPool.Recv.NetRecv

namespace NetPool
namespace Registry

variable {r r' : Registry} {i j : JobId} {fd : Fd} {t : Nat}

theorem pickThrdIndex_zero : (r.pickThrdIndex thrdIndex).2 = thrdIndex := by
  unfold pickThrdIndex thrdIndex
  split
  case isFalse => rfl
  case isTrue h =>
    have : r.workerThrdCnt = 0 := Nat.le_zero.mp h
    simp [getNextThrdIndex, this]

-- All jobs for the descriptor are marked, as it is for one that was closed in the meantime.
def Vacant (r : Registry) (fd : Fd) : Prop :=
  ∀ i ∈ r.ioJobs, (r.job i).fd = fd → (r.job i).isWantDelete = true

theorem Vacant.find (h : r.Vacant fd) : r.findIoJob fd = none := by
  cases find : r.findIoJob fd
  case none   => rfl
  case some i =>
    have ⟨hm, hf, hl⟩ := findIoJob_some find
    simp [h i hm hf] at hl

-- The job `j` is watched for reading on the epoll instance of thread 0, and for writing as its
-- write bit says.
structure Watched (r : Registry) (fd : Fd) (j : JobId) : Prop where
  live  : (r.job j).isWantDelete = false
  desc  : (r.job j).fd = fd
  thrd  : (r.job j).thrdIndex = thrdIndex
  kind  : (r.job j).kind ≠ .listen
  read  : (r.job j).nowEvent.read = true
  only  : ∀ i ∈ r.ioJobs, (r.job i).fd = fd → (r.job i).isWantDelete = false → i = j
  entry : r.epfd thrdIndex fd = some ⟨⟨true, (r.job j).nowEvent.write, true⟩, j⟩

-- The job that `add_read_job` makes for a descriptor without one.
theorem Made.watched {new : IoJob} (o : r.Made fd new ⟨true, false, true⟩ r') (vacant : r.Vacant fd)
    (live : new.isWantDelete = false) (desc : new.fd = fd) (thrd : new.thrdIndex = thrdIndex)
    (kind : new.kind ≠ .listen) (bits : new.nowEvent = ⟨true, false⟩) : r'.Watched fd r.next := by
  have hj : r'.job r.next = new := by rw [o.job, Function.update_self]
  refine ⟨?_, ?_, ?_, ?_, ?_, fun i hm hf hl => ?_, ?_⟩
  case refine_6 =>
    by_contra hi
    have hm : i ∈ r.ioJobs := by simpa [o.ioJobs, hi] using hm
    rw [o.job, Function.update_of_ne hi] at hf hl
    simp [vacant i hm hf] at hl
  case refine_7 => rw [hj, o.epfd, thrd, setEntry_epfd_self, bits]
  all_goals simp only [hj, live, desc, thrd, bits]
  exact kind

theorem Watched.change {new : IoJob} (h : r.Watched fd j) (o : r.OnlyJob r' j new)
    (owner : (r.job j).SameOwner new) (live : new.isWantDelete = false)
    (read : new.nowEvent.read = true)
    (entry : r'.epfd thrdIndex fd = some ⟨⟨true, new.nowEvent.write, true⟩, j⟩) : r'.Watched fd j where
  live  := by rw [o.self, live]
  desc  := by rw [o.self, owner.fd, h.desc]
  thrd  := by rw [o.self, owner.thrdIndex, h.thrd]
  kind  := by rw [o.self, owner.kind]; exact h.kind
  read  := by rw [o.self, read]
  only  := by
    intro i hm hf hl
    by_contra hi
    rw [o.ne hi] at hf hl
    exact hi <| h.only i (o.ioJobs ▸ hm) hf hl
  entry := by rw [o.self, entry]

-- A write registration that `epoll_ctl` accepts is made with `j`.
theorem Watched.addWrite (h : r.Watched fd j) (f : Hdl) (param1 : Nat) (isTcp : Bool)
    (ha : r.WriteAccepted .plain thrdIndex fd) :
    (r.addWriteJob .plain f fd param1 thrdIndex isTcp).1.Watched fd j ∧
      (r.addWriteJob .plain f fd param1 thrdIndex isTcp).1.job j =
        ((r.job j).setWriteCallback f).addWriteIoEvent := by
  cases find : r.findIoJob fd
  case none =>
    simp only [WriteAccepted, find, pickThrdIndex_zero, h.entry] at ha
    exact absurd ha.2 (by simp)
  case some i =>
    obtain ⟨hm, hf, hl⟩ := findIoJob_some find
    cases h.only i hm hf hl
    have w : r.WriteAdded thrdIndex fd f j
        (r.addWriteJob .plain f fd param1 thrdIndex isTcp).1 _ := addWriteJob_found find
    refine ⟨h.change w.toOnlyJob ⟨rfl, rfl, rfl, rfl⟩ h.live h.read ?_, w.self⟩
    cases hw : (r.job j).nowEvent.write
    case true  => rw [(w.again hw).1, h.entry, hw]; rfl
    case false =>
      rw [w.first hw (addWriteJob_ret.mpr ha), h.read, if_pos rfl, h.thrd, setEntry_epfd_self]
      rfl

-- The section of `write_evt_handle`.
theorem Watched.clearWrite (h : r.Watched fd j) :
    ((r.delIoWritingEvt .plain j).modify j (·.delWriteIoEvent)).Watched fd j ∧
      ((r.delIoWritingEvt .plain j).modify j (·.delWriteIoEvent)).job j =
        (r.job j).delWriteIoEvent := by
  have o := delIoWritingEvt_found (r := r) (k := .plain) (i := j)
  refine ⟨h.change o ⟨rfl, rfl, rfl, rfl⟩ h.live h.read ?_, o.self⟩
  have he : (r.epfd (r.job j).thrdIndex (r.job j).fd).isSome := by rw [h.thrd, h.desc, h.entry]; rfl
  simp only [modify_epfd, delIoWritingEvt, IoJob.ioEventRead, h.read, if_true,
    epollCtl_mod (k := .plain) rfl he,
    Option.getD_some]
  rw [h.thrd, h.desc, setEntry_epfd_self]
  rfl

theorem Watched.sweep (h : r.Watched fd j) : (r.handleDelingJob t).1.Watched fd j := by
  rw [handleDelingJob_eq]
  exact { h with only := fun i hm => h.only i <| List.mem_of_mem_filter hm }

end Registry

namespace NetRecv

variable {s s' : NetRecv} {j : JobId}

-- An object on an accepted descriptor, with the job that `init` has made for it, from
-- `init_async_write_resource` on.
def Accepted (j : JobId) (s : NetRecv) : Prop :=
  ∃ (reg : Registry) (fd : Fd) (self : Nat) (k : Kernel) (s₀ : NetRecv), reg.next = j ∧
    reg.Vacant fd ∧ (new reg fd self).init k = some s₀ ∧ s = s₀.initAsyncWriteResource

-- `epoll_ctl` succeeds, `m_new_mem_func` returns a node, `free` is not called and no `send` fails.
def Calm (s : NetRecv) : Act → Prop
  | .enter news buf => (fillQueue s.writer.dataQueue news buf).done = true
  | .hold k         => k = .plain ∧ (s.holder = some .send → s.reg.WriteAccepted k thrdIndex s.fd)
  | .work k         => k = .plain ∧
    (s.work = .sending → s.writer.pc = .register → s.reg.WriteAccepted k thrdIndex s.fd)
  | .registerRead k => k = .plain
  | .send .error    => False
  | .free           => False
  | _               => True

-- The write event of `j` is asked for.
def Armed (j : JobId) (s : NetRecv) : Prop :=
  (s.reg.job j).nowEvent.write = true ∧
    ∃ e ∈ s.reg.epfd (s.reg.job j).thrdIndex s.fd, e.ptr = j ∧ e.events.epollout = true

-- The worker is in `write_evt_handle` or `send_handle`. The section that finds the queue empty
-- makes it idle.
def Draining (s : NetRecv) : Prop :=
  match s.work with
  | .testing _ | .writing _ | .calling _ | .sending => True
  | _                                               => False

-- A `send_data` has filled the queue and not yet made its write registration.
def Registering (s : NetRecv) : Prop :=
  0 < s.pending ∨ s.holder = some .send

structure WakeInv (j : JobId) (s : NetRecv) : Prop where
  watched  : s.reg.Watched s.fd j
  isFreed  : s.isFreed = false
  holder   : ∀ pc w, s.holder ≠ some (.free pc w)
  work     : ∀ i, s.work = .testing i ∨ s.work = .writing i ∨ s.work = .calling i → i = j
  place    : s.Draining ∨ s.work = .idle ∨ ∃ ret, s.work = .registered ret
  callback : (s.reg.job j).nowEvent.write = true ∨ s.Draining →
    (s.reg.job j).writeFunc = .sendCallback
  awake    : s.writer.nodes ≠ [] →
    (s.reg.job j).nowEvent.write = true ∨ s.Draining ∨ s.Registering

namespace WakeInv

-- The job, the lock and what is registered have not changed.
theorem frame (h : s.WakeInv j) (reg : s'.reg = s.reg) (fd : s'.fd = s.fd)
    (isFreed : s'.isFreed = s.isFreed) (holder : s'.holder = s.holder) (work : s'.work = s.work)
    (awake : s'.writer.nodes ≠ [] → s.writer.nodes ≠ [] ∧ s'.pending = s.pending ∨ s'.Registering) :
    s'.WakeInv j where
  watched  := by rw [reg, fd]; exact h.watched
  isFreed  := isFreed.trans h.isFreed
  holder   := by rw [holder]; exact h.holder
  work     := by rw [work]; exact h.work
  place    := by simp only [Draining, work]; exact h.place
  callback := by simp only [Draining, work, reg]; exact h.callback
  awake    := by
    intro hn
    obtain ⟨hn, hp⟩ | hr := awake hn
    case inl => simp only [Draining, Registering, work, reg, hp, holder]; exact h.awake hn
    case inr => exact .inr <| .inr hr

-- The worker goes on to `work`, with the job and the lock as they are.
theorem goto (h : s.WakeInv j) (reg : s'.reg = s.reg) (fd : s'.fd = s.fd)
    (isFreed : s'.isFreed = s.isFreed) (holder : s'.holder = s.holder)
    (work : ∀ i, s'.work = .testing i ∨ s'.work = .writing i ∨ s'.work = .calling i → i = j)
    (draining : s'.Draining) (callback : (s.reg.job j).writeFunc = .sendCallback) : s'.WakeInv j where
  watched  := by rw [reg, fd]; exact h.watched
  isFreed  := isFreed.trans h.isFreed
  holder   := by rw [holder]; exact h.holder
  work     := work
  place    := .inl draining
  callback := fun _ => by rw [reg]; exact callback
  awake    := fun _ => .inr <| .inl draining

-- The worker leaves `send_handle`: it has found the queue empty, or registered.
theorem leave (h : s.WakeInv j) (reg : s'.reg = s.reg) (fd : s'.fd = s.fd)
    (isFreed : s'.isFreed = s.isFreed) (holder : s'.holder = s.holder) (idle : s'.work = .idle)
    (pending : s'.pending = s.pending) (awake : s'.writer.nodes ≠ [] →
      s.writer.nodes ≠ [] ∧ ¬s.Draining) : s'.WakeInv j where
  watched  := by rw [reg, fd]; exact h.watched
  isFreed  := isFreed.trans h.isFreed
  holder   := by rw [holder]; exact h.holder
  work     := by simp [idle]
  place    := .inr <| .inl idle
  callback := by simp only [Draining, idle, or_false, reg]; exact fun hw => h.callback <| .inl hw
  awake    := by
    intro hn
    have ⟨hn, hd⟩ := awake hn
    simp only [Registering, reg, holder, pending]
    exact (h.awake hn).imp_right fun hr => .inr <| hr.resolve_left hd

-- A write registration has been made with `j`.
theorem register (h : s.WakeInv j) (ha : s.reg.WriteAccepted .plain thrdIndex s.fd)
    (reg : s'.reg = (s.addWrite .plain).1) (fd : s'.fd = s.fd) (isFreed : s'.isFreed = s.isFreed)
    (holder : ∀ pc w, s'.holder ≠ some (.free pc w))
    (work : ∀ i, s'.work = .testing i ∨ s'.work = .writing i ∨ s'.work = .calling i → i = j)
    (place : s'.Draining ∨ s'.work = .idle ∨ ∃ ret, s'.work = .registered ret) : s'.WakeInv j := by
  have ⟨watched, job⟩ := h.watched.addWrite .sendCallback s.self true ha
  rw [← NetRecv.addWrite, ← reg] at watched job
  have write : (s'.reg.job j).nowEvent.write = true := by rw [job]; rfl
  refine ⟨?_, isFreed.trans h.isFreed, holder, work, place, fun _ => ?_, fun _ => .inl write⟩
  case refine_1 => exact fd ▸ watched
  case refine_2 =>
    rw [job]
    have := h.watched.kind
    simp only [IoJob.addWriteIoEvent, IoJob.setWriteCallback]
    split
    case h_1 hk => exact absurd hk this
    all_goals rfl

theorem sendStep (h : s.WakeInv j) (hw : s.work = .sending) (ha : s.writer.pc = .register →
    s.reg.WriteAccepted .plain thrdIndex s.fd) (hs : s.sendStep .plain = some s') : s'.WakeInv j := by
  have callback := h.callback <| .inr <| by simp [Draining, hw]
  unfold NetRecv.sendStep at hs
  split at hs
  case h_1 =>
    cases hs
    cases hq : s.writer.dataQueue
    case nil =>
      have hi : s.writer.deq.pc = .idle := by simp [Writer.deq, hq]
      refine h.leave rfl rfl rfl rfl (by simp [hi]) rfl ?_
      simp [Writer.nodes, Writer.deq, hq]
    case cons =>
      have hi : s.writer.deq.pc ≠ .idle := by simp [Writer.deq, hq]
      refine h.goto rfl rfl rfl rfl ?_ ?_ callback <;> simp [Draining, hi]
  case h_2 hp =>
    cases hs
    exact h.register (ha hp) rfl rfl rfl h.holder (by simp) (.inr <| .inr ⟨_, rfl⟩)
  case h_3 =>
    obtain ⟨_, _, he⟩ := Option.map_eq_some_iff.mp hs
    cases he
    refine h.goto rfl rfl rfl rfl ?_ ?_ callback <;> simp [Draining, hw]

theorem work' {k : Kernel} (h : s.WakeInv j) (calm : Calm s (.work k))
    (hs : s.work' k = some s') : s'.WakeInv j := by
  obtain ⟨hk, ha⟩ := calm
  subst hk
  have place := h.place
  unfold NetRecv.work' at hs
  split at hs
  case h_1 i he =>
    cases hs
    cases h.work i (.inl he)
    have callback := h.callback <| .inr <| by simp [Draining, he]
    have live := h.watched.live
    refine h.goto rfl rfl rfl rfl ?_ ?_ callback <;> simp [Draining, live]
  case h_2 i he =>
    cases hs
    cases h.work i (.inr <| .inl he)
    have callback := h.callback <| .inr <| by simp [Draining, he]
    have ⟨watched, job⟩ := h.watched.clearWrite
    refine ⟨watched, h.isFreed, h.holder, by simp, .inl trivial, fun _ => ?_, fun _ => .inr <| .inl trivial⟩
    exact (congrArg IoJob.writeFunc job).trans callback
  case h_3 i he =>
    cases h.work i (.inr <| .inr he)
    have callback := h.callback <| .inr <| by simp [Draining, he]
    rw [callback] at hs
    cases hs
    refine h.goto rfl rfl rfl rfl ?_ ?_ callback <;> simp [Draining]
  case h_4 he => exact h.sendStep he (ha he) hs
  case h_5 ret he =>
    cases hs
    exact h.leave rfl rfl rfl rfl rfl rfl fun hn => ⟨hn, by simp [Draining, he]⟩
  case h_13 => contradiction
  all_goals simp_all [Draining]

theorem step (h : s.WakeInv j) {a : Act} (calm : Calm s a) (hs : s.step a = some s') :
    s'.WakeInv j := by
  cases a
  case enter news buf =>
    have ⟨w, hw, he⟩ := Option.map_eq_some_iff.mp hs
    cases he
    refine h.frame rfl rfl rfl rfl rfl fun hn => ?_
    cases ha : s.writer.isAsyncWrite
    case true  => right; left; simp [show _ = true from calm]
    case false =>
      simp only [Writer.enter, ha, Bool.false_eq_true, if_false] at hw
      cases hw
      exact .inl ⟨hn, by simp⟩
  case direct i round =>
    have ⟨w, hw, he⟩ := Option.map_eq_some_iff.mp hs
    have ⟨buf, _, hw⟩ := Option.map_eq_some_iff.mp hw
    cases he
    cases hw
    exact h.frame rfl rfl rfl rfl rfl fun hn => .inl ⟨by cases round <;> exact hn, rfl⟩
  case lock =>
    have ⟨_, hs⟩ := Option.ite_none_right_eq_some.mp hs
    cases hs
    have hf := h.isFreed
    have hh : s.lock.holder = some .send := by simp [NetRecv.lock, hf]
    exact ⟨h.watched, hf, by simp [hh], h.work, h.place, h.callback, fun _ => .inr <| .inr <| .inr hh⟩
  case free => exact calm.elim
  case hold k =>
    have ⟨holder, hh, he⟩ := Option.map_eq_some_iff.mp hs
    obtain ⟨hk, ha⟩ := calm
    subst hk he
    cases holder
    case send      => exact h.register (ha hh) rfl rfl rfl (by simp [hold]) h.work h.place
    case sent      =>
      refine ⟨h.watched, h.isFreed, by simp [hold], h.work, h.place, h.callback, fun hn => ?_⟩
      have := h.awake hn
      simpa [Registering, hh, Draining, hold] using this
    case free pc w => exact absurd hh <| h.holder pc w
  case wait =>
    have ⟨_, hs⟩ := Option.ite_none_right_eq_some.mp hs
    simp only [NetRecv.wait, h.watched.entry] at hs
    have ⟨hw, hs⟩ := Option.ite_none_right_eq_some.mp hs
    cases hs
    exact h.goto rfl rfl rfl rfl (by simp) trivial (h.callback <| .inl hw.1)
  case work k => exact h.work' calm hs
  case send out =>
    have ⟨hw, hs⟩ := Option.ite_none_right_eq_some.mp hs
    have ⟨_, _, he⟩ := Option.map_eq_some_iff.mp hs
    cases he
    have callback := h.callback <| .inr <| by simp [Draining, hw]
    cases out
    case error => exact calm.elim
    all_goals exact h.goto rfl rfl rfl rfl (by simp) trivial callback
  case connect =>
    have ⟨hw, _⟩ := Option.ite_none_right_eq_some.mp hs
    have := h.place
    simp [hw, Draining] at this
  case registerRead =>
    have := h.place
    simp only [NetRecv.step] at hs
    split at hs
    case h_1 hw => simp [hw, Draining] at this
    case h_2    => contradiction
  case sweep =>
    have ⟨_, hs⟩ := Option.ite_none_right_eq_some.mp hs
    cases hs
    have hj : (s.reg.handleDelingJob thrdIndex).1.job = s.reg.job := by
      rw [Registry.handleDelingJob_eq]
    refine ⟨h.watched.sweep, h.isFreed, h.holder, h.work, h.place, ?_, ?_⟩
    all_goals simp only [hj]
    case refine_1 => exact h.callback
    case refine_2 => exact h.awake

end WakeInv

theorem Accepted.wakeInv (h : Accepted j s) : s.WakeInv j := by
  have ⟨reg, fd, self, k, s₀, hj, vacant, hi, he⟩ := h
  have ⟨ret, hi⟩ := Option.ite_none_right_eq_some.mp hi
  subst hj he
  cases hi
  have missed := Registry.addReadJob_missed (k := k) (t := thrdIndex) .recvCallback self 0 true
    vacant.find
  obtain ⟨_, made⟩ | ⟨hr, _⟩ := missed
  case inr => exact absurd (hr.symm.trans ret) nofun
  have watched := made.watched vacant rfl rfl Registry.pickThrdIndex_zero nofun rfl
  have write : ((reg.addReadJob k .recvCallback fd self thrdIndex 0 true).1.job
      reg.next).nowEvent.write = false := by
    rw [made.job, Function.update_self]
    rfl
  refine ⟨watched, rfl, nofun, by simp [initAsyncWriteResource, new], .inr <| .inl rfl, ?_,
    fun hn => absurd rfl hn⟩
  rintro (hw | hd)
  case inl => exact absurd (write.symm.trans hw) nofun
  case inr => exact hd.elim

-- Whatever is still to be sent will be: the write event is asked for, the worker looks at the queue
-- once more, or a `send_data` is about to ask for the write event.
theorem no_lost_wakeup (h : (netRecv (Accepted j)).Reach Calm s)
    (hn : s.writer.curSendNode ≠ none ∨ s.writer.dataQueue ≠ []) :
    s.Armed j ∨ s.Draining ∨ s.Registering := by
  have inv : s.WakeInv j := h.invariant (fun _ => Accepted.wakeInv) fun _ _ _ hi ok hs => hi.step ok hs
  have hn : s.writer.nodes ≠ [] := by
    intro he
    have ⟨hc, hq⟩ := List.append_eq_nil_iff.mp he
    exact hn.elim (· <| by simpa using hc) (· hq)
  refine (inv.awake hn).imp_left fun hw => ⟨hw, ⟨⟨true, _, true⟩, j⟩, ?_, rfl, hw⟩
  rw [inv.watched.thrd]
  exact inv.watched.entry

instance : ∀ s a, Decidable (Calm s a)
  | _, .enter .. | _, .registerRead _ => inferInstanceAs (Decidable (_ = _))
  | _, .hold _                        => inferInstanceAs (Decidable (_ ∧ (_ → _)))
  | _, .work _                        => inferInstanceAs (Decidable (_ ∧ (_ → _ → _)))
  | _, .send .error | _, .free        => .isFalse id
  | _, .send (.sent _) | _, .send .again | _, .send .intr | _, .direct .. | _, .lock | _, .wait
  | _, .connect _ | _, .sweep         => .isTrue trivial

-- The worker has sent a node in part and registered again, and another node waits in the queue.
theorem no_lost_wakeup_again : ∃ s, ((netRecv (Accepted 0)).Reach Calm s ∧
    s.writer.curSendNode.isSome ∧ s.writer.dataQueue.length = 1 ∧ s.work = .idle) ∧
    (s.Armed 0 ∨ s.Draining ∨ s.Registering) := by
  have init : Accepted 0 accepted := ⟨.empty 1, 4, 7, .plain, _, rfl, nofun, rfl, rfl⟩
  have ⟨s, hr, hc, hs⟩ : ∃ s, (netRecv (Accepted 0)).Reach Calm s ∧
      s.writer.curSendNode.isSome ∧ s.writer.dataQueue.length = 1 ∧ s.work = .idle :=
    System.Reach.exists_of_run [.enter [⟨0, fun _ => 0⟩] [1, 2], .lock, .hold .plain, .hold .plain,
      .wait, .work .plain, .enter [] [3], .work .plain, .work .plain, .work .plain,
      .enter [⟨1, fun _ => 0⟩] [4], .lock, .hold .plain, .hold .plain, .send (.sent 1),
      .send .again, .work .plain, .work .plain, .work .plain] _ init (by decide)
  refine ⟨s, ⟨hr, hc, hs⟩, no_lost_wakeup hr <| .inl fun he => ?_⟩
  simp [he] at hc

end NetRecv
end NetPool
