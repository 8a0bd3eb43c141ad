import NetPool.Recv.Wakeup

namespace NetPool
namespace Registry

variable {r r' : Registry} {k : Kernel} {i : JobId} {e : EpollEntry} {t t' param1 bufferSize : Nat}
  {fd fd' : Fd} {f : Hdl} {isTcp : Bool} {op : EpollOp}

-- The write bit of a job for the descriptor that is not marked.
def InForce (r : Registry) (fd : Fd) : Prop :=
  ∃ i ∈ r.ioJobs, (r.job i).fd = fd ∧ (r.job i).isWantDelete = false ∧
    (r.job i).nowEvent.write = true

-- The write events of the descriptor are for `send_handle`.
structure Sends (r : Registry) (fd : Fd) : Prop where
  live  : ∀ i ∈ r.ioJobs, (r.job i).fd = fd → (r.job i).isWantDelete = false →
    i < r.next ∧ ((r.job i).nowEvent.write = true → (r.job i).writeFunc = .sendCallback) ∧
    (r.job i).kind ≠ .listen
  entry : ∀ e, r.epfd thrdIndex fd = some e → e.events.epollout = true →
    (r.job e.ptr).writeFunc = .sendCallback

theorem epollCtl_getD_out (ho : ∀ e ∈ op.entry, e.events.epollout = false)
    (he : ((r.epollCtl k t op fd).getD r).epfd t' fd' = some e) (out : e.events.epollout = true) :
    r.epfd t' fd' = some e := by
  have h : (r.epollCtl k t op fd).getD r = r ∨
      (r.epollCtl k t op fd).getD r = r.setEntry t fd op.entry := epollCtl_getD
  obtain h | h := h
  all_goals rw [h] at he
  case inl => exact he
  case inr =>
    rw [setEntry_epfd] at he
    split at he
    case isTrue  => simp [ho e he] at out
    case isFalse => exact he

-- Deleting a write event does not ask for one.
theorem delWriteJob_out (he : (r.delWriteJob k fd f).1.epfd t fd' = some e)
    (out : e.events.epollout = true) : r.epfd t fd' = some e := by
  unfold delWriteJob at he
  split at he
  case h_1 => exact he
  case h_2 =>
    dsimp only [modify_epfd] at he
    split at he
    case isTrue =>
      have := epollCtl_getD_out (by simp [EpollOp.entry]) he out
      exact this
    case isFalse =>
      split at he
      case isFalse => exact he
      case isTrue =>
        rw [modify_epfd] at he
        have := epollCtl_getD_out (by simp [EpollOp.entry]) he out
        exact this

theorem delIoWritingEvt_out (he : (r.delIoWritingEvt k i).epfd t fd' = some e)
    (out : e.events.epollout = true) : r.epfd t fd' = some e := by
  unfold delIoWritingEvt at he
  dsimp only at he
  split at he <;> exact epollCtl_getD_out (by simp [EpollOp.entry]) he out

theorem setEntry_eq_some {e' : EpollEntry}
    (he : (r.setEntry t fd (some e')).epfd t' fd' = some e) : r.epfd t' fd' = some e ∨ e' = e := by
  rw [setEntry_epfd] at he
  split at he
  case isFalse => exact .inl he
  case isTrue  => exact .inr <| Option.some.inj he

theorem Sends.change {new : IoJob} (h : r.Sends fd) (o : r.OnlyJob r' i new)
    (owner : (r.job i).SameOwner new)
    (mark : (r.job i).isWantDelete = true → new.isWantDelete = true)
    (func : (r.job i).writeFunc = .sendCallback → new.writeFunc = .sendCallback)
    (write : (r.job i).kind ≠ .listen → new.nowEvent.write = true →
      (r.job i).nowEvent.write = true ∨ new.writeFunc = .sendCallback)
    (entry : ∀ e, r'.epfd thrdIndex fd = some e → e.events.epollout = true →
      r.epfd thrdIndex fd = some e ∨ e.ptr = i ∧ new.writeFunc = .sendCallback) : r'.Sends fd := by
  constructor
  case live =>
    intro i' hm hf hl
    rw [o.ioJobs] at hm
    rw [o.next]
    by_cases hi : i' = i
    case neg =>
      rw [o.ne hi] at hf hl ⊢
      exact h.live i' hm hf hl
    case pos =>
      subst hi
      rw [o.self] at hf hl ⊢
      have live : (r.job i').isWantDelete = false := by
        by_contra hn
        simp [mark (by simpa using hn)] at hl
      have ⟨lt, hw, kind⟩ := h.live i' hm (owner.fd ▸ hf) live
      exact ⟨lt, fun w => (write kind w).elim (func <| hw ·) id, owner.kind ▸ kind⟩
  case entry =>
    intro e he out
    obtain he | ⟨hp, hs⟩ := entry e he out
    case inr => rw [hp, o.self, hs]
    case inl =>
      have hs := h.entry e he out
      by_cases hi : e.ptr = i
      case neg => rw [o.ne hi, hs]
      case pos => rw [hi, o.self]; exact func (hi ▸ hs)

theorem Sends.made {new : IoJob} {ev : EpollEvents} (h : r.Sends fd) (o : r.Made fd new ev r')
    (thrd : new.thrdIndex = thrdIndex) (kind : new.kind ≠ .listen)
    (func : new.nowEvent.write = true → new.writeFunc = .sendCallback)
    (out : ev.epollout = true → new.writeFunc = .sendCallback) : r'.Sends fd := by
  have self : r'.job r.next = new := by rw [o.job, Function.update_self]
  constructor
  case live =>
    intro i hm hf hl
    rw [o.next]
    by_cases hi : i = r.next
    case pos => rw [hi, self]; exact ⟨Nat.lt_succ_self _, func, kind⟩
    case neg =>
      have hm : i ∈ r.ioJobs := by simpa [o.ioJobs, hi] using hm
      rw [o.job, Function.update_of_ne hi] at hf hl ⊢
      have ⟨lt, h⟩ := h.live i hm hf hl
      exact ⟨Nat.lt_succ_of_lt lt, h⟩
  case entry =>
    intro e he ho
    rw [o.epfd, thrd, setEntry_epfd_self] at he
    cases he
    rw [self]
    exact out ho

theorem Sends.same (h : r.Sends fd) (o : r.Same r') : r'.Sends fd where
  live  := by rw [o.ioJobs, o.job, o.next]; exact h.live
  entry := by rw [o.epfd, o.job]; exact h.entry

theorem Sends.sweep (h : r.Sends fd) : (r.handleDelingJob t).1.Sends fd := by
  have hm := (handleDelingJob_sublist (r := r) (t := t)).subset
  rw [handleDelingJob_eq] at hm ⊢
  exact ⟨fun i hi => h.live i (hm hi), h.entry⟩

theorem InForce.change {new : IoJob} (h : r.InForce fd) (o : r.OnlyJob r' i new)
    (owner : (r.job i).SameOwner new) (mark : new.isWantDelete = (r.job i).isWantDelete)
    (write : (r.job i).nowEvent.write = true → new.nowEvent.write = true) : r'.InForce fd := by
  have ⟨i', hm, hf, hl, hw⟩ := h
  refine ⟨i', o.ioJobs ▸ hm, ?_⟩
  by_cases hi : i' = i
  case neg => rw [o.ne hi]; exact ⟨hf, hl, hw⟩
  case pos =>
    subst hi
    rw [o.self]
    exact ⟨owner.fd.trans hf, mark.trans hl, write hw⟩

theorem InForce.made {new : IoJob} {ev : EpollEvents} (h : r.InForce fd) (s : r.Sends fd)
    (o : r.Made fd new ev r') : r'.InForce fd := by
  have ⟨i, hm, hf, hl, hw⟩ := h
  have hi : i ≠ r.next := Nat.ne_of_lt (s.live i hm hf hl).1
  refine ⟨i, by simp [o.ioJobs, hm], ?_⟩
  rw [o.job, Function.update_of_ne hi]
  exact ⟨hf, hl, hw⟩

theorem InForce.sweep (h : r.InForce fd) : (r.handleDelingJob t).1.InForce fd := by
  have ⟨i, hm, hf, hl, hw⟩ := h
  rw [handleDelingJob_eq]
  exact ⟨i, by simp [hm, Dead, hl], hf, hl, hw⟩

theorem setWriteCallback_writeFunc {j : IoJob} (h : j.kind ≠ .listen) :
    (j.setWriteCallback f).writeFunc = f := by
  unfold IoJob.setWriteCallback
  split
  case h_1 hk => exact absurd hk h
  all_goals rfl

theorem Sends.addWrite (h : r.Sends fd) :
    (r.addWriteJob k .sendCallback fd param1 thrdIndex isTcp).1.Sends fd := by
  cases find : r.findIoJob fd
  case none =>
    have missed := addWriteJob_missed (k := k) (t := thrdIndex) .sendCallback param1 isTcp find
    obtain ⟨_, _, o⟩ | ⟨_, _, o⟩ := missed
    case inr => exact h.same o
    case inl =>
      have kind : (r.newWrite thrdIndex fd .sendCallback param1 isTcp).kind ≠ .listen := by
        cases isTcp <;> exact nofun
      have func : (r.newWrite thrdIndex fd .sendCallback param1 isTcp).writeFunc = .sendCallback := by
        cases isTcp <;> rfl
      exact h.made o pickThrdIndex_zero kind (fun _ => func) fun _ => func
  case some i =>
    have ⟨hm, hf, hl⟩ := findIoJob_some find
    have func := setWriteCallback_writeFunc (f := .sendCallback) (h.live i hm hf hl).2.2
    have w : r.WriteAdded thrdIndex fd .sendCallback i
        (r.addWriteJob k .sendCallback fd param1 thrdIndex isTcp).1 _ := addWriteJob_found find
    refine h.change w.toOnlyJob ⟨rfl, rfl, rfl, rfl⟩ id (fun _ => func) (fun _ _ => .inr func) ?_
    intro e he _
    cases hw : (r.job i).nowEvent.write
    case true  => exact .inl <| (w.again hw).1 ▸ he
    case false =>
      cases ret : (r.addWriteJob k .sendCallback fd param1 thrdIndex isTcp).2
      case false => exact .inl <| w.failed ret ▸ he
      case true  =>
        rw [w.first hw ret] at he
        exact (setEntry_eq_some he).imp_right fun | rfl => ⟨rfl, func⟩

theorem inForce_addWrite
    (hr : r.InForce fd ∨ (r.addWriteJob k f fd param1 thrdIndex isTcp).2 = true) :
    (r.addWriteJob k f fd param1 thrdIndex isTcp).1.InForce fd := by
  cases find : r.findIoJob fd
  case none =>
    have missed := addWriteJob_missed (k := k) (t := thrdIndex) f param1 isTcp find
    obtain ⟨_, _, o⟩ | ⟨_, ret, o⟩ := missed
    case inl =>
      refine ⟨r.next, by simp [o.ioJobs], ?_⟩
      rw [o.job, Function.update_self]
      exact ⟨rfl, rfl, rfl⟩
    case inr =>
      have ⟨i, hm, hi⟩ := hr.resolve_right <| by simp [ret]
      exact ⟨i, o.ioJobs ▸ hm, o.job ▸ hi⟩
  case some i =>
    have ⟨hm, hf, hl⟩ := findIoJob_some find
    have o : r.WriteAdded thrdIndex fd f i (r.addWriteJob k f fd param1 thrdIndex isTcp).1 _ :=
      addWriteJob_found find
    refine ⟨i, o.ioJobs ▸ hm, ?_⟩
    rw [o.self]
    exact ⟨hf, hl, rfl⟩

theorem Sends.addRead (h : r.Sends fd) :
    (r.addReadJob k f fd param1 thrdIndex bufferSize isTcp).1.Sends fd ∧
      (r.InForce fd → (r.addReadJob k f fd param1 thrdIndex bufferSize isTcp).1.InForce fd) := by
  cases find : r.findIoJob fd
  case none =>
    have missed := addReadJob_missed (k := k) (t := thrdIndex) f param1 bufferSize isTcp find
    obtain ⟨_, o⟩ | ⟨_, o⟩ := missed
    case inl =>
      refine ⟨h.made o pickThrdIndex_zero ?_ nofun nofun, (InForce.made · h o)⟩
      cases isTcp <;> exact nofun
    case inr => exact ⟨h.same o, fun ⟨i, hm, hi⟩ => ⟨i, o.ioJobs ▸ hm, o.job ▸ hi⟩⟩
  case some i =>
    have ⟨hm, hf, hl⟩ := findIoJob_some find
    rcases addReadJob_found find with ho | ⟨_, o⟩
    case inl => rw [ho]; exact ⟨h, id⟩
    case inr =>
      refine ⟨?_, fun hf => hf.change o.toOnlyJob ⟨rfl, rfl, rfl, rfl⟩ rfl id⟩
      refine h.change o.toOnlyJob ⟨rfl, rfl, rfl, rfl⟩ id id (fun _ => .inl) fun e he out => ?_
      cases hw : (r.job i).nowEvent.write
      case true =>
        rw [o.both hw] at he
        exact (setEntry_eq_some he).imp_right fun | rfl => ⟨rfl, (h.live i hm hf hl).2.1 hw⟩
      case false =>
        cases hr : (r.job i).nowEvent.read
        case true  => exact .inl <| o.again hw hr ▸ he
        case false =>
          rw [o.first hw hr, setEntry_epfd_self] at he
          cases he
          contradiction

theorem Sends.delWrite (h : r.Sends fd) : (r.delWriteJob k fd f).1.Sends fd := by
  cases find : r.findIoJob fd
  case none   => simpa [delWriteJob, find] using h
  case some i =>
    exact h.change (delWriteJob_found find) delWrite_sameOwner (by simp_all) (by simp) (by simp)
      fun e he out => .inl <| delWriteJob_out he out

-- A job without a write bit is not the one whose write bit is set.
theorem InForce.delWrite (h : r.InForce fd)
    (clear : ∀ i ∈ r.findIoJob fd, (r.job i).nowEvent.write = false) :
    (r.delWriteJob k fd f).1.InForce fd := by
  cases find : r.findIoJob fd
  case none   => simpa [delWriteJob, find] using h
  case some i =>
    have o := delWriteJob_found (k := k) (f := f) find
    obtain ⟨i', hm, hf, hl, hw⟩ := h
    have hn : i' ≠ i := by
      intro hn
      subst hn
      simp [clear i' find] at hw
    exact ⟨i', o.ioJobs ▸ hm, by rw [o.ne hn]; exact ⟨hf, hl, hw⟩⟩

theorem Sends.clearWrite (h : r.Sends fd) :
    ((r.delIoWritingEvt k i).modify i (·.delWriteIoEvent)).Sends fd :=
  h.change delIoWritingEvt_found ⟨rfl, rfl, rfl, rfl⟩ id id (fun _ => nofun)
    fun _ he out => .inl <| delIoWritingEvt_out he out

-- A callback that is `send_handle` stays so.
theorem addWriteJob_sendCallback (h : (r.job i).writeFunc = .sendCallback) :
    ((r.addWriteJob k .sendCallback fd param1 thrdIndex isTcp).1.job i).writeFunc =
      .sendCallback := by
  cases find : r.findIoJob fd
  case none =>
    have missed := addWriteJob_missed (k := k) (t := thrdIndex) .sendCallback param1 isTcp find
    obtain ⟨_, _, o⟩ | ⟨_, _, o⟩ := missed
    case inr => rw [o.job, h]
    case inl =>
      rw [o.job, Function.update_apply]
      split
      case isFalse => exact h
      case isTrue  => cases isTcp <;> rfl
  case some i' =>
    have o : r.WriteAdded thrdIndex fd .sendCallback i'
        (r.addWriteJob k .sendCallback fd param1 thrdIndex isTcp).1 _ := addWriteJob_found find
    by_cases hi : i = i'
    case neg => rw [o.ne hi, h]
    case pos =>
      subst hi
      rw [o.self]
      simp only [IoJob.addWriteIoEvent, IoJob.setWriteCallback]
      split <;> simp [h]

-- The job `j` waits for its first write event, with the connect callback.
structure Waits (r : Registry) (fd : Fd) (j : JobId) : Prop where
  live : (r.job j).isWantDelete = false
  desc : (r.job j).fd = fd
  thrd : (r.job j).thrdIndex = thrdIndex
  kind : (r.job j).kind ≠ .listen
  read : (r.job j).nowEvent.read = false
  func : (r.job j).writeFunc = .connectCallback
  only : ∀ i ∈ r.ioJobs, (r.job i).fd = fd → (r.job i).isWantDelete = false → i = j
  lt   : j < r.next

theorem Made.waits {ev : EpollEvents}
    (o : r.Made fd (r.newWrite thrdIndex fd .connectCallback param1 true) ev r')
    (vacant : r.Vacant fd) : r'.Waits fd r.next := by
  have self : r'.job r.next = r.newWrite thrdIndex fd .connectCallback param1 true := by
    rw [o.job, Function.update_self]
  refine ⟨?_, ?_, ?_, ?_, ?_, ?_, fun i hm hf hl => ?_, ?_⟩
  case refine_3 => rw [self]; exact pickThrdIndex_zero
  case refine_4 => rw [self]; exact nofun
  case refine_7 =>
    by_contra hi
    have hm : i ∈ r.ioJobs := by simpa [o.ioJobs, hi] using hm
    rw [o.job, Function.update_of_ne hi] at hf hl
    simp [vacant i hm hf] at hl
  case refine_8 => rw [o.next]; exact Nat.lt_succ_self _
  all_goals rw [self]; rfl

theorem Made.entry {new : IoJob} {ev : EpollEvents} (o : r.Made fd new ev r')
    (thrd : new.thrdIndex = thrdIndex) : r'.epfd thrdIndex fd = some ⟨ev, r.next⟩ := by
  rw [o.epfd, thrd, setEntry_epfd_self]

-- The section of `write_evt_handle` takes the descriptor out of the interest list.
theorem Waits.clearWrite (h : r.Waits fd i) :
    let r' := (r.delIoWritingEvt .plain i).modify i (·.delWriteIoEvent)
    r'.Waits fd i ∧ (r'.job i).nowEvent.write = false ∧ r'.epfd thrdIndex fd = none := by
  have o := delIoWritingEvt_found (r := r) (k := .plain) (i := i)
  refine ⟨⟨?_, ?_, ?_, ?_, ?_, ?_, ?_, ?_⟩, ?_, ?_⟩
  case refine_4 => rw [o.self]; exact h.kind
  case refine_7 =>
    intro i' hm hf hl
    by_contra hi
    rw [o.ne hi] at hf hl
    exact hi <| h.only i' (o.ioJobs ▸ hm) hf hl
  case refine_8 => rw [o.next]; exact h.lt
  case refine_10 =>
    simp only [modify_epfd, delIoWritingEvt, IoJob.ioEventRead, h.read, Bool.false_eq_true, if_false]
    rw [epollCtl_getD_del rfl, h.thrd, h.desc, setEntry_epfd_self]
  all_goals rw [o.self]
  case refine_1 => exact h.live
  case refine_2 => exact h.desc
  case refine_3 => exact h.thrd
  case refine_5 => exact h.read
  case refine_6 => exact h.func
  case refine_9 => rfl

theorem Waits.sweep (h : r.Waits fd i) : (r.handleDelingJob t).1.Waits fd i := by
  rw [handleDelingJob_eq]
  exact { h with only := fun i hm => h.only i <| List.mem_of_mem_filter hm }

theorem Waits.sends (h : r.Waits fd i) (write : (r.job i).nowEvent.write = false)
    (entry : r.epfd thrdIndex fd = none) : r.Sends fd where
  live i' hm hf hl := by
    cases h.only i' hm hf hl
    exact ⟨h.lt, by simp [write], h.kind⟩
  entry := by simp [entry]

end Registry

namespace NetRecv

variable {s s' : NetRecv} {j : JobId}

-- An object whose `register_connect` has returned 0, on a descriptor that was fresh.
def Attempting (s : NetRecv) : Prop :=
  ∃ (reg : Registry) (fd : Fd) (self : Nat) (k : Kernel) (out : ConnectOut) (s₀ : NetRecv),
    reg.Vacant fd ∧ (∀ t, reg.epfd t fd = none) ∧
      (new reg (-1) self).registerConnect k fd out = some s₀ ∧ s = s₀.initAsyncWriteResource

-- `epoll_ctl` succeeds and `free` is not called.
def Kept (s : NetRecv) : Act → Prop
  | .hold k         => k = .plain ∧ (s.holder = some .send → s.reg.WriteAccepted k thrdIndex s.fd)
  | .work k         => k = .plain ∧ s.work ≠ .failed ∧
    (s.work = .sending → s.writer.pc = .register → s.reg.WriteAccepted k thrdIndex s.fd)
  | .registerRead k => k = .plain ∧ (s.addRead k).2 = true
  | .free           => False
  | _               => True

-- No `send_data` makes its write registration before `_connect_callback` is called, and none has
-- made one when `unregister_connect` is about to delete the write event.
def Apart (s : NetRecv) : Act → Prop
  | .hold _ => s.holder = some .send → s.connectCalls = 1 ∨ s.work = .connect
  | .work _ => s.work = .unregister →
    ∀ i ∈ s.reg.findIoJob s.fd, (s.reg.job i).nowEvent.write = false
  | _       => True

-- The worker is in `_connect_callback`.
def InConnectCallback (s : NetRecv) : Prop :=
  match s.work with
  | .connect | .handling _ | .readAdded _ _ | .handled _ | .testWrite | .unregister
  | .unregistered => True
  | _             => False

-- The result of the attempt is reported once, and at the latest with the first write event; what a
-- `send_data` has registered is still registered after the connect callback.
structure Reported (s : NetRecv) : Prop where
  once  : s.connectCalls ≤ 1
  first : 1 < s.events ∨ s.events = 1 ∧ s.work = .idle → s.connectCalls = 1
  kept  : s.connectCalls = 1 → ¬s.InConnectCallback → s.owed = true → s.reg.InForce s.fd

def PendingAt (j : JobId) (s : NetRecv) : WorkPc → Prop
  | .idle                   =>
    s.events = 0 ∧ s.reg.epfd thrdIndex s.fd = some ⟨⟨false, true, true⟩, j⟩
  | .testing i | .writing i => i = j ∧ s.events = 1
  | .calling i              => i = j ∧ s.events = 1 ∧ (s.reg.job j).nowEvent.write = false ∧
    s.reg.epfd thrdIndex s.fd = none
  | _                       => False

-- The connect callback has not been called yet.
structure Pending (j : JobId) (s : NetRecv) : Prop where
  waits : s.reg.Waits s.fd j
  calls : s.connectCalls = 0
  added : s.added = false
  owed  : s.owed = false
  work  : PendingAt j s s.work

-- It has been called, and all that happens now is for the sends.
structure Running (s : NetRecv) : Prop where
  sends  : s.reg.Sends s.fd
  called : ∀ i, s.work = .testing i ∨ s.work = .writing i ∨ s.work = .calling i →
    (s.reg.job i).writeFunc = .sendCallback
  force  : s.added = true ∨ s.owed = true → s.reg.InForce s.fd
  calls  : s.connectCalls = if s.work = .connect then 0 else 1
  first  : s.work = .connect → s.events = 1

structure ConnectInv (s : NetRecv) : Prop where
  free  : ∀ pc w, s.holder ≠ some (.free pc w)
  phase : (∃ j, s.Pending j) ∨ s.Running

namespace Running

-- The registry has not changed.
theorem goto (h : s.Running) (reg : s'.reg = s.reg) (fd : s'.fd = s.fd)
    (called : ∀ i, s'.work = .testing i ∨ s'.work = .writing i ∨ s'.work = .calling i →
      (s.reg.job i).writeFunc = .sendCallback)
    (force : s'.added = true ∨ s'.owed = true → s.added = true ∨ s.owed = true)
    (calls : s'.connectCalls = if s'.work = .connect then 0 else 1)
    (first : s'.work = .connect → s'.events = 1) : s'.Running where
  sends  := by rw [reg, fd]; exact h.sends
  called := by rw [reg]; exact called
  force  := by rw [reg, fd]; exact h.force ∘ force
  calls  := calls
  first  := first

theorem frame (h : s.Running) (reg : s'.reg = s.reg) (fd : s'.fd = s.fd) (work : s'.work = s.work)
    (force : s'.added = true ∨ s'.owed = true → s.added = true ∨ s.owed = true)
    (calls : s'.connectCalls = s.connectCalls) (events : s'.events = s.events) : s'.Running :=
  h.goto reg fd (by rw [work]; exact h.called) force (by rw [calls, work, h.calls])
    (by rw [work, events]; exact h.first)

-- The worker goes on from one place that is not the connect callback to another.
theorem next (h : s.Running) (reg : s'.reg = s.reg) (fd : s'.fd = s.fd) (at_ : s.work ≠ .connect)
    (work : s'.work ≠ .connect)
    (called : ∀ i, s'.work = .testing i ∨ s'.work = .writing i ∨ s'.work = .calling i →
      (s.reg.job i).writeFunc = .sendCallback)
    (force : s'.added = true ∨ s'.owed = true → s.added = true ∨ s.owed = true)
    (calls : s'.connectCalls = s.connectCalls) : s'.Running := by
  refine h.goto reg fd called force ?_ (absurd · work)
  rw [calls, h.calls, if_neg at_, if_neg work]

-- `send_data` or `send_handle` has made its write registration.
theorem register {k : Kernel} (h : s.Running) (reg : s'.reg = (s.addWrite k).1) (fd : s'.fd = s.fd)
    (called : ∀ i, s'.work = .testing i ∨ s'.work = .writing i ∨ s'.work = .calling i →
      s.work = .testing i ∨ s.work = .writing i ∨ s.work = .calling i)
    (force : s'.added = true ∨ s'.owed = true →
      (s.added = true ∨ s.owed = true) ∨ (s.addWrite k).2 = true)
    (calls : s'.connectCalls = if s'.work = .connect then 0 else 1)
    (first : s'.work = .connect → s'.events = 1) : s'.Running where
  sends    := by rw [reg, fd]; exact h.sends.addWrite
  called i hi := by
    rw [reg]
    exact Registry.addWriteJob_sendCallback <| h.called i <| called i hi
  force hf := by
    rw [reg, fd]
    exact Registry.inForce_addWrite <| (force hf).imp_left h.force
  calls    := calls
  first    := first

theorem sendStep (h : s.Running) (hw : s.work = .sending) (hs : s.sendStep .plain = some s') :
    s'.Running := by
  have calls := h.calls
  rw [hw, if_neg nofun] at calls
  unfold NetRecv.sendStep at hs
  split at hs
  case h_1 =>
    cases hs
    refine h.next rfl rfl (by simp [hw]) ?_ ?_ id rfl
    all_goals
      dsimp only
      split <;> simp
  case h_2 =>
    cases hs
    exact h.register rfl rfl (by simp) .inl (by simp [calls]) (by simp)
  case h_3 =>
    have ⟨_, _, he⟩ := Option.map_eq_some_iff.mp hs
    cases he
    exact h.frame rfl rfl rfl id rfl rfl

theorem work' {k : Kernel} (h : s.Running) (kept : Kept s (.work k)) (apart : Apart s (.work k))
    (hs : s.work' k = some s') : s'.Running := by
  obtain ⟨hk, live, _⟩ := kept
  subst hk
  have calls := h.calls
  unfold NetRecv.work' at hs
  split at hs
  case h_1 i he =>
    cases hs
    have called := h.called i (.inl he)
    refine h.next rfl rfl (by simp [he]) ?_ (fun i' hi => ?_) id rfl
    case refine_1 =>
      dsimp only
      split <;> simp
    case refine_2 =>
      dsimp only at hi
      split at hi <;> simp at hi
      exact hi ▸ called
  case h_2 i he =>
    cases hs
    have called := h.called i (.inr <| .inl he)
    have o := Registry.delIoWritingEvt_found (r := s.reg) (k := .plain) (i := i)
    refine ⟨h.sends.clearWrite, fun i' hi => ?_, by simp, by simpa [he] using calls, by simp⟩
    have hi : i = i' := by simpa using hi
    rw [← hi, o.self]
    exact called
  case h_3 i he =>
    rw [h.called i (.inr <| .inr he)] at hs
    cases hs
    exact h.next rfl rfl (by simp [he]) (by simp) (by simp) id rfl
  case h_4 he => exact h.sendStep he hs
  case h_6 he => exact absurd he live
  case h_11 he =>
    cases hs
    refine ⟨h.sends.delWrite, by simp, fun hf => ?_, by simpa [he] using calls, by simp⟩
    exact (h.force hf).delWrite <| apart he
  case h_10 he =>
    cases hs
    refine h.next rfl rfl (by simp [he]) ?_ ?_ id rfl
    all_goals
      dsimp only
      split <;> simp
  case h_13 | h_14 | h_15 => contradiction
  all_goals
    rename_i he
    cases hs
    exact h.next rfl rfl (by simp [he]) (by simp) (by simp) id rfl

theorem step (h : s.Running) {a : Act} (free : ∀ pc w, s.holder ≠ some (.free pc w))
    (kept : Kept s a) (apart : Apart s a) (hs : s.step a = some s') : s'.Running := by
  cases a
  case enter | direct =>
    obtain ⟨_, _, he⟩ := Option.map_eq_some_iff.mp hs
    cases he
    exact h.frame rfl rfl rfl id rfl rfl
  case lock =>
    obtain ⟨_, hs⟩ := Option.ite_none_right_eq_some.mp hs
    cases hs
    exact h.frame rfl rfl rfl id rfl rfl
  case free => exact kept.elim
  case hold k =>
    obtain ⟨holder, hh, he⟩ := Option.map_eq_some_iff.mp hs
    subst he
    cases holder
    case send      =>
      refine h.register rfl rfl (fun _ => id) ?_ h.calls h.first
      simp only [hold, Bool.or_eq_true]
      rintro ((ha | hr) | ho)
      case inl.inl => exact .inl <| .inl ha
      case inl.inr => exact .inr hr
      case inr     => exact .inl <| .inr ho
    case sent      =>
      refine h.frame rfl rfl rfl ?_ rfl rfl
      simp only [hold, Bool.or_eq_true]
      exact fun hf => hf.elim .inl Or.symm
    case free pc w => exact absurd hh <| free pc w
  case wait =>
    obtain ⟨hw, hs⟩ := Option.ite_none_right_eq_some.mp hs
    unfold NetRecv.wait at hs
    split at hs
    case h_2 => contradiction
    case h_1 e he =>
      obtain ⟨⟨out, _⟩, hs⟩ := Option.ite_none_right_eq_some.mp hs
      cases hs
      refine h.next rfl rfl (by simp [hw]) (by simp) (fun i hi => ?_) id rfl
      have hi : e.ptr = i := by simpa using hi
      exact hi ▸ h.sends.entry e he out
  case work k => exact h.work' kept apart hs
  case send out =>
    obtain ⟨hw, hs⟩ := Option.ite_none_right_eq_some.mp hs
    obtain ⟨_, _, he⟩ := Option.map_eq_some_iff.mp hs
    cases he
    refine h.next rfl rfl (by simp [hw]) ?_ ?_ id rfl
    all_goals cases out <;> simp
  case connect =>
    obtain ⟨hw, hs⟩ := Option.ite_none_right_eq_some.mp hs
    cases hs
    exact h.goto rfl rfl (by simp) id (by simp [h.calls, hw]) (by simp)
  case registerRead k =>
    simp only [NetRecv.step] at hs
    split at hs
    case h_2 => contradiction
    case h_1 hw =>
      cases hs
      have calls : s.connectCalls = 1 := by simpa [hw] using h.calls
      exact ⟨h.sends.addRead.1, by simp, h.sends.addRead.2 ∘ h.force, calls, by simp⟩
  case sweep =>
    obtain ⟨hw, hs⟩ := Option.ite_none_right_eq_some.mp hs
    cases hs
    exact ⟨h.sends.sweep, by simp [hw], Registry.InForce.sweep ∘ h.force, h.calls, h.first⟩

end Running

namespace Pending

theorem frame (h : s.Pending j) (reg : s'.reg = s.reg) (fd : s'.fd = s.fd) (work : s'.work = s.work)
    (calls : s'.connectCalls = s.connectCalls) (events : s'.events = s.events)
    (added : s'.added = s.added) (owed : s'.owed = (s.owed || s.added) ∨ s'.owed = s.owed) :
    s'.Pending j where
  waits := by rw [reg, fd]; exact h.waits
  calls := calls.trans h.calls
  added := added.trans h.added
  owed  := by simpa [h.owed, h.added] using owed
  work  := by
    have := h.work
    unfold PendingAt at this ⊢
    rw [work, reg, fd, events]
    exact this

theorem work' {k : Kernel} (h : s.Pending j) (kept : Kept s (.work k)) (hs : s.work' k = some s') :
    s'.Pending j ∨ s'.Running := by
  obtain ⟨hk, _⟩ := kept
  subst hk
  have work := h.work
  unfold PendingAt at work
  unfold NetRecv.work' at hs
  split at hs
  case h_1 i he =>
    cases hs
    rw [he] at work
    have live := work.1 ▸ h.waits.live
    exact .inl ⟨h.waits, h.calls, h.added, h.owed, by simpa [live, PendingAt] using work⟩
  case h_2 i he =>
    cases hs
    rw [he] at work
    obtain ⟨rfl, events⟩ := work
    have ⟨waits, write, entry⟩ := h.waits.clearWrite
    exact .inl ⟨waits, h.calls, rfl, rfl, rfl, events, write, entry⟩
  case h_3 i he =>
    rw [he] at work
    obtain ⟨rfl, events, write, entry⟩ := work
    rw [h.waits.func] at hs
    cases hs
    refine .inr ⟨h.waits.sends write entry, by simp, fun hf => ?_, h.calls, fun _ => events⟩
    simp [h.added, h.owed] at hf
  case h_13 | h_14 | h_15 => contradiction
  all_goals simp_all

theorem step (h : s.Pending j) {a : Act} (free : ∀ pc w, s.holder ≠ some (.free pc w))
    (kept : Kept s a) (apart : Apart s a) (hs : s.step a = some s') : s'.Pending j ∨ s'.Running := by
  have work := h.work
  unfold PendingAt at work
  cases a
  case enter | direct =>
    obtain ⟨_, _, he⟩ := Option.map_eq_some_iff.mp hs
    cases he
    exact .inl <| h.frame rfl rfl rfl rfl rfl rfl (.inr rfl)
  case lock =>
    obtain ⟨_, hs⟩ := Option.ite_none_right_eq_some.mp hs
    cases hs
    exact .inl <| h.frame rfl rfl rfl rfl rfl rfl (.inr rfl)
  case free => exact kept.elim
  case hold k =>
    obtain ⟨holder, hh, he⟩ := Option.map_eq_some_iff.mp hs
    subst he
    cases holder
    case send =>
      obtain hc | hc := apart hh
      case inl => simp [h.calls] at hc
      case inr => simp [hc] at work
    case sent      => exact .inl <| h.frame rfl rfl rfl rfl rfl rfl (.inl rfl)
    case free pc w => exact absurd hh <| free pc w
  case wait =>
    obtain ⟨hw, hs⟩ := Option.ite_none_right_eq_some.mp hs
    rw [hw] at work
    simp only [NetRecv.wait, work.2] at hs
    obtain ⟨_, hs⟩ := Option.ite_none_right_eq_some.mp hs
    cases hs
    exact .inl ⟨h.waits, h.calls, h.added, h.owed, rfl, by simp [work.1]⟩
  case work k => exact h.work' kept hs
  case send =>
    obtain ⟨hw, _⟩ := Option.ite_none_right_eq_some.mp hs
    simp [hw] at work
  case connect =>
    obtain ⟨hw, _⟩ := Option.ite_none_right_eq_some.mp hs
    simp [hw] at work
  case registerRead =>
    simp only [NetRecv.step] at hs
    split at hs
    case h_2    => contradiction
    case h_1 hw => simp [hw] at work
  case sweep =>
    obtain ⟨hw, hs⟩ := Option.ite_none_right_eq_some.mp hs
    cases hs
    refine .inl ⟨h.waits.sweep, h.calls, h.added, h.owed, ?_⟩
    rw [hw] at work
    simp only [hw, PendingAt, Registry.handleDelingJob_eq]
    exact work

end Pending

-- Nobody frees the object, so nobody holds the lock for that.
theorem free_kept {a : Act} (free : ∀ pc w, s.holder ≠ some (.free pc w)) (kept : Kept s a)
    (hs : s.step a = some s') : ∀ pc w, s'.holder ≠ some (.free pc w) := by
  cases a
  case enter | direct =>
    obtain ⟨_, _, he⟩ := Option.map_eq_some_iff.mp hs
    cases he
    exact free
  case lock =>
    obtain ⟨_, hs⟩ := Option.ite_none_right_eq_some.mp hs
    cases hs
    unfold NetRecv.lock
    dsimp only
    split <;> simp
  case free => exact kept.elim
  case hold k =>
    obtain ⟨holder, hh, he⟩ := Option.map_eq_some_iff.mp hs
    subst he
    cases holder
    case send | sent => simp [hold]
    case free pc w   => exact absurd hh <| free pc w
  case wait =>
    obtain ⟨_, hs⟩ := Option.ite_none_right_eq_some.mp hs
    unfold NetRecv.wait at hs
    split at hs
    case h_2 => contradiction
    case h_1 =>
      obtain ⟨_, hs⟩ := Option.ite_none_right_eq_some.mp hs
      cases hs
      exact free
  case work k =>
    obtain ⟨_, live, _⟩ := kept
    simp only [NetRecv.step, NetRecv.work', NetRecv.sendStep] at hs
    split at hs
    case h_3 | h_4 =>
      split at hs
      case h_3 =>
        first
        | contradiction
        | obtain ⟨_, _, he⟩ := Option.map_eq_some_iff.mp hs
          cases he
          exact free
      all_goals cases hs; exact free
    case h_6 he => exact absurd he live
    case h_13 | h_14 | h_15 => contradiction
    all_goals cases hs; exact free
  case send =>
    obtain ⟨_, hs⟩ := Option.ite_none_right_eq_some.mp hs
    obtain ⟨_, _, he⟩ := Option.map_eq_some_iff.mp hs
    cases he
    exact free
  case connect | sweep =>
    obtain ⟨_, hs⟩ := Option.ite_none_right_eq_some.mp hs
    cases hs
    exact free
  case registerRead =>
    simp only [NetRecv.step] at hs
    split at hs <;> cases hs
    exact free

theorem ConnectInv.step (h : s.ConnectInv) {a : Act} (kept : Kept s a) (apart : Apart s a)
    (hs : s.step a = some s') : s'.ConnectInv := by
  refine ⟨free_kept h.free kept hs, ?_⟩
  obtain ⟨j, hp⟩ | hr := h.phase
  case inl => exact (hp.step h.free kept apart hs).imp_left (⟨j, ·⟩)
  case inr => exact .inr <| hr.step h.free kept apart hs

theorem Attempting.inv (h : Attempting s) : s.ConnectInv := by
  have ⟨reg, fd, self, k, out, s₀, vacant, fresh, hc, he⟩ := h
  subst he
  have none : reg.Sends fd := by
    constructor
    case live  => exact fun i hm hf hl => by simp [vacant i hm hf] at hl
    case entry => simp [fresh]
  cases out
  case failed         => contradiction
  case connected read =>
    cases hc
    cases read
    all_goals refine ⟨nofun, .inr ⟨?_, nofun, nofun, rfl, nofun⟩⟩
    case false => exact none
    case true  => exact none.addRead.1
  case inProgress =>
    have ⟨ret, hc⟩ := Option.ite_none_right_eq_some.mp hc
    cases hc
    have missed := Registry.addWriteJob_missed (k := k) (t := thrdIndex) .connectCallback self true
      vacant.find
    obtain ⟨_, _, made⟩ | ⟨_, hr, _⟩ := missed
    case inr => exact absurd (hr.symm.trans ret) nofun
    have entry := made.entry Registry.pickThrdIndex_zero
    exact ⟨nofun, .inl ⟨reg.next, made.waits vacant, rfl, rfl, rfl, rfl, entry⟩⟩

theorem ConnectInv.reported (h : s.ConnectInv) : s.Reported := by
  obtain ⟨j, hp⟩ | hr := h.phase
  case inl =>
    refine ⟨by simp [hp.calls], fun hf => ?_, by simp [hp.calls]⟩
    have work := hp.work
    unfold PendingAt at work
    split at work
    all_goals simp_all
  case inr =>
    have calls := hr.calls
    refine ⟨by split at calls <;> omega, fun hf => ?_, fun _ _ ho => hr.force <| .inr ho⟩
    split at calls
    case isFalse => exact calls
    case isTrue hw => simp [hr.first hw, hw] at hf

-- While the sends keep apart from the connection attempt, its result is reported once, and what
-- they register stays.
theorem reported_once (h : (netRecv Attempting).Reach (fun s a => Kept s a ∧ Apart s a) s) :
    s.Reported :=
  have inv : s.ConnectInv :=
    h.invariant (fun _ => Attempting.inv) fun _ _ _ inv ⟨kept, apart⟩ hs => inv.step kept apart hs
  inv.reported

instance : ∀ s a, Decidable (Kept s a)
  | _, .hold _           => inferInstanceAs (Decidable (_ ∧ (_ → _)))
  | _, .work _           => inferInstanceAs (Decidable (_ ∧ _ ∧ (_ → _ → _)))
  | _, .registerRead _   => inferInstanceAs (Decidable (_ ∧ _))
  | _, .free             => .isFalse id
  | _, .enter .. | _, .direct .. | _, .lock | _, .wait | _, .send _ | _, .connect _ | _, .sweep =>
    .isTrue trivial

instance : ∀ s a, Decidable (Apart s a)
  | _, .hold _ => inferInstanceAs (Decidable (_ → _ ∨ _))
  | _, .work _ => inferInstanceAs (Decidable (_ → ∀ _ ∈ _, _))
  | _, .enter .. | _, .direct .. | _, .lock | _, .free | _, .wait | _, .send _ | _, .connect _
  | _, .registerRead _ | _, .sweep => .isTrue trivial

-- The only object of a registry, on descriptor 4, with its connection in progress.
def attempted : NetRecv :=
  let s := { new (.empty 1) 4 7 with isRegisterConnect := true }
  initAsyncWriteResource { s with reg := (s.addConnect .plain).1 }

theorem attempting_attempted : Attempting attempted :=
  ⟨.empty 1, 4, 7, .plain, .inProgress, _, nofun, fun _ => rfl, rfl, rfl⟩

-- A `send_data` registers while `connect_handle` runs.
theorem reported_once_sending : ∃ s, ((netRecv Attempting).Reach (fun s a => Kept s a ∧ Apart s a) s ∧
    s.connectCalls = 1 ∧ s.work = .idle ∧ s.owed = true) ∧ s.Reported := by
  have ⟨s, hr, hs⟩ : ∃ s, (netRecv Attempting).Reach (fun s a => Kept s a ∧ Apart s a) s ∧
      s.connectCalls = 1 ∧ s.work = .idle ∧ s.owed = true :=
    System.Reach.exists_of_run [.wait, .work .plain, .work .plain, .work .plain, .connect true,
      .enter [⟨0, fun _ => 0⟩] [1], .lock, .hold .plain, .hold .plain, .work .plain, .work .plain,
      .work .plain] _ attempting_attempted (by decide)
  exact ⟨s, ⟨hr, hs⟩, reported_once hr⟩

-- A `send_data` that registers before the first write event takes the place of the connect
-- callback; one that has registered and not yet set `m_is_register_write` loses its registration.
theorem not_reported_once :
    (∃ s, (netRecv Attempting).Reach Kept s ∧ s.connectCalls = 0 ∧ ¬s.Reported) ∧
    ∃ s, (netRecv Attempting).Reach Kept s ∧ s.connectCalls = 1 ∧ ¬s.Reported := by
  constructor
  case left =>
    have ⟨s, hr, he, hw, hc⟩ : ∃ s, (netRecv Attempting).Reach Kept s ∧ s.events = 1 ∧
        s.work = .idle ∧ s.connectCalls = 0 :=
      System.Reach.exists_of_run [.enter [⟨0, fun _ => 0⟩] [1], .lock, .hold .plain, .hold .plain,
        .wait, .work .plain, .work .plain, .work .plain, .work .plain, .send (.sent 1), .work .plain,
        .work .plain] _ attempting_attempted (by decide)
    exact ⟨s, hr, hc, fun h => nomatch hc.symm.trans <| h.first <| .inr ⟨he, hw⟩⟩
  case right =>
    have ⟨s, hr, hc, hw, ho, hn⟩ : ∃ s, (netRecv Attempting).Reach Kept s ∧ s.connectCalls = 1 ∧
        s.work = .idle ∧ s.owed = true ∧
        ∀ i ∈ s.reg.ioJobs, (s.reg.job i).nowEvent.write = false :=
      System.Reach.exists_of_run [.wait, .work .plain, .work .plain, .work .plain, .connect true,
        .enter [⟨0, fun _ => 0⟩] [1], .lock, .hold .plain, .work .plain, .work .plain, .work .plain,
        .work .plain, .work .plain, .hold .plain] _ attempting_attempted (by decide)
    refine ⟨s, hr, hc, fun h => ?_⟩
    have ⟨i, hm, _, _, write⟩ := h.kept hc (by simp [InConnectCallback, hw]) ho
    simp [hn i hm] at write

end NetRecv
end NetPool
