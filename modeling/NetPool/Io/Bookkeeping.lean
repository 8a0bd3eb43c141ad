import NetPool.Io.Ctl
import NetPool.Io.Lookup

namespace NetPool

-- What an entry asks for, and what the event bits of a job say that thread `t` has to ask for.
def EpollEntry.asked (e : EpollEntry) : Bool × Bool :=
  (e.events.epollin, e.events.epollout)

def IoJob.wanted (j : IoJob) (t : Nat) : Option (Bool × Bool) :=
  if j.isWantDelete = false ∧ t = j.thrdIndex ∧ j.nowEvent ≠ .zero
  then some (j.ioEventRead, j.ioEventWrite)
  else none

namespace Registry

variable {r r' : Registry} {i i' : JobId} {fd : Fd} {t : Nat} {f g : IoJob → IoJob}
  {e : Option EpollEntry}

-- The interest lists agree with the job about its descriptor.
def Settled (r : Registry) (i : JobId) : Prop :=
  ∀ t, (r.epfd t (r.job i).fd).map EpollEntry.asked = (r.job i).wanted t

namespace Settled

theorem isSome (h : r.Settled i) (live : (r.job i).isWantDelete = false)
    (he : (r.job i).nowEvent ≠ .zero) : (r.epfd (r.job i).thrdIndex (r.job i).fd).isSome := by
  have := h (r.job i).thrdIndex
  rw [IoJob.wanted, if_pos ⟨live, rfl, he⟩] at this
  have ⟨_, he, _⟩ := Option.map_eq_some_iff.mp this
  simp [he]

theorem eq_none (h : r.Settled i) (hw : (r.job i).wanted t = none) :
    r.epfd t (r.job i).fd = none := by
  have := h t
  rwa [hw, Option.map_eq_none_iff] at this

theorem modify (h : r.Settled i) (hf : (f (r.job i)).fd = (r.job i).fd)
    (hw : ∀ t, (f (r.job i)).wanted t = (r.job i).wanted t) : (r.modify i f).Settled i := by
  intro t
  simpa [hf, hw] using h t

theorem setEntry (h : r.Settled i) (hf : (f (r.job i)).fd = (r.job i).fd)
    (ht : (f (r.job i)).thrdIndex = (r.job i).thrdIndex)
    (hw : e.map EpollEntry.asked = (f (r.job i)).wanted (r.job i).thrdIndex) :
    ((r.setEntry (r.job i).thrdIndex (r.job i).fd e).modify i f).Settled i := by
  intro t
  by_cases h' : t = (r.job i).thrdIndex
  case pos => simp [hf, h', hw]
  case neg =>
    have h₁ : (r.job i).wanted t = none := by simp [IoJob.wanted, h']
    have h₂ : (f (r.job i)).wanted t = none := by simp [IoJob.wanted, ht, h']
    simp [hf, setEntry_epfd_ne (Or.inl h'), h.eq_none h₁, h₂]

attribute [local simp] IoJob.wanted EpollEntry.asked IoJob.ioEventRead IoJob.ioEventWrite
  IoJob.setReadCallback IoJob.setWriteCallback
  IoJob.initRecvBuf IoJob.setFreeCallback IoJob.setDeletingFlag IoJob.addReadIoEvent
  IoJob.delReadIoEvent IoJob.addWriteIoEvent IoJob.delWriteIoEvent NowEvent.ne_zero_iff

variable {ioFunc freeFunc : Hdl} {param1 bufferSize : Nat} {isTcp : Bool}

theorem addReadJob (h : r.Settled i) (find : r.findIoJob fd = some i)
    (hg : (r.job i).nowEvent = .zero → t = (r.job i).thrdIndex) :
    (r.addReadJob .plain ioFunc fd param1 t bufferSize isTcp).1.Settled i := by
  have ⟨_, hf, live⟩ := findIoJob_some find
  subst hf
  cases hw : (r.job i).nowEvent.write <;> cases hr : (r.job i).nowEvent.read
  case true.false | true.true =>
    have he := h.isSome live <| NowEvent.ne_zero_iff.mpr <| .inr hw
    simp [Registry.addReadJob, find, hw, epollCtl_mod (k := .plain) rfl he]
    exact h.setEntry rfl rfl <| by simp [live, hw]
  case false.true =>
    simp [Registry.addReadJob, find, hw, hr]
    exact h.modify rfl fun t => by simp [hw, hr]
  case false.false =>
    have hz : (r.job i).nowEvent = .zero := NowEvent.ext hr hw
    have he := h.eq_none (t := (r.job i).thrdIndex) <| by simp [hz]
    simp [Registry.addReadJob, find, hw, hr, hg hz, epollCtl_add (k := .plain) rfl he]
    exact h.setEntry rfl rfl <| by simp [live, hw]

theorem addWriteJob (h : r.Settled i) (find : r.findIoJob fd = some i)
    (hg : (r.job i).nowEvent = .zero → t = (r.job i).thrdIndex) :
    (r.addWriteJob .plain ioFunc fd param1 t isTcp).1.Settled i := by
  have ⟨_, hf, live⟩ := findIoJob_some find
  subst hf
  cases hw : (r.job i).nowEvent.write <;> cases hr : (r.job i).nowEvent.read
  case true.false | true.true =>
    simp [Registry.addWriteJob, find, hw]
    exact h.modify rfl fun t => by simp [hw, hr]
  case false.true =>
    have he := h.isSome live <| NowEvent.ne_zero_iff.mpr <| .inl hr
    simp [Registry.addWriteJob, find, hw, hr, epollCtl_mod (k := .plain) rfl he]
    exact h.setEntry rfl rfl <| by simp [live, hr]
  case false.false =>
    have hz : (r.job i).nowEvent = .zero := NowEvent.ext hr hw
    have he := h.eq_none (t := (r.job i).thrdIndex) <| by simp [hz]
    simp [Registry.addWriteJob, find, hw, hr, hg hz, epollCtl_add (k := .plain) rfl he]
    exact h.setEntry rfl rfl <| by simp [live, hr]

theorem delReadJob (h : r.Settled i) (find : r.findIoJob fd = some i) :
    (r.delReadJob .plain fd freeFunc).1.Settled i := by
  have ⟨_, hf, live⟩ := findIoJob_some find
  subst hf
  cases hw : (r.job i).nowEvent.write <;> cases hr : (r.job i).nowEvent.read
  case true.false | true.true =>
    have he := h.isSome live <| NowEvent.ne_zero_iff.mpr <| .inr hw
    simp [Registry.delReadJob, find, hw, epollCtl_mod (k := .plain) rfl he]
    exact h.setEntry rfl rfl <| by simp [live, hw]
  case false.true =>
    have he := h.isSome live <| NowEvent.ne_zero_iff.mpr <| .inl hr
    simp [Registry.delReadJob, find, hw, hr, epollCtl_del (k := .plain) rfl he]
    exact h.setEntry rfl rfl <| by simp
  case false.false =>
    simp [Registry.delReadJob, find, hw, hr]
    exact h.modify rfl fun t => by simp [hw, hr]

theorem delWriteJob (h : r.Settled i) (find : r.findIoJob fd = some i) :
    (r.delWriteJob .plain fd freeFunc).1.Settled i := by
  have ⟨_, hf, live⟩ := findIoJob_some find
  subst hf
  cases hw : (r.job i).nowEvent.write <;> cases hr : (r.job i).nowEvent.read
  case false.true | true.true =>
    have he := h.isSome live <| NowEvent.ne_zero_iff.mpr <| .inl hr
    simp [Registry.delWriteJob, find, hr, epollCtl_mod (k := .plain) rfl he]
    exact h.setEntry rfl rfl <| by simp [live, hr]
  case true.false =>
    have he := h.isSome live <| NowEvent.ne_zero_iff.mpr <| .inr hw
    simp [Registry.delWriteJob, find, hw, hr, epollCtl_del (k := .plain) rfl he]
    exact h.setEntry rfl rfl <| by simp
  case false.false =>
    simp [Registry.delWriteJob, find, hw, hr]
    exact h.modify rfl fun t => by simp [hw, hr]

theorem delIoWritingEvt (h : r.Settled i) (live : (r.job i).isWantDelete = false) :
    ((r.delIoWritingEvt .plain i).modify i (·.delWriteIoEvent)).Settled i := by
  cases hr : (r.job i).nowEvent.read
  case true =>
    have he := h.isSome live <| NowEvent.ne_zero_iff.mpr <| .inl hr
    simp [Registry.delIoWritingEvt, hr, epollCtl_mod (k := .plain) rfl he]
    exact h.setEntry rfl rfl <| by simp [live, hr]
  case false =>
    simp [Registry.delIoWritingEvt, hr, epollCtl_getD_del (k := .plain) rfl]
    exact h.setEntry rfl rfl <| by simp [hr]

theorem writeEvtHandle (h : r.Settled i) : (r.writeEvtHandle .plain i).Settled i := by
  unfold Registry.writeEvtHandle
  split
  case h_1 => exact h
  all_goals
    split
    case isTrue  => exact h
    case isFalse live => exact h.delIoWritingEvt <| by simpa using live

end Settled

-- The interest lists agree with the list about a descriptor: it has one job that is not marked, or
-- none, and then no entry either.
inductive FdOk (r : Registry) (fd : Fd) : Prop
  | one (i : JobId) (mem : i ∈ r.ioJobs) (hf : (r.job i).fd = fd)
      (live : (r.job i).isWantDelete = false) (settled : r.Settled i)
      (only : ∀ i' ∈ r.ioJobs, (r.job i').fd = fd → (r.job i').isWantDelete = false → i' = i)
  | none (marked : ∀ i ∈ r.ioJobs, (r.job i).fd = fd → (r.job i).isWantDelete = true)
      (epfd : ∀ t, r.epfd t fd = none)

namespace FdOk

theorem frame (h : r.FdOk fd) (epfd : ∀ t, r'.epfd t fd = r.epfd t fd)
    (old : ∀ i ∈ r'.ioJobs, (r'.job i).fd = fd → i ∈ r.ioJobs ∧ r'.job i = r.job i)
    (kept : ∀ i ∈ r.ioJobs, (r.job i).fd = fd → (r.job i).isWantDelete = false →
      i ∈ r'.ioJobs ∧ r'.job i = r.job i) : r'.FdOk fd := by
  cases h
  case one i mem hf live settled only =>
    have ⟨hm, hj⟩ := kept i mem hf live
    refine .one i hm (hj ▸ hf) (hj ▸ live) (fun t => ?_) fun i' hm' hf' live' => ?_
    case refine_1 => simpa [hj, hf, epfd] using settled t
    case refine_2 =>
      have ⟨hm', hj'⟩ := old i' hm' hf'
      exact only i' hm' (hj' ▸ hf') (hj' ▸ live')
  case none marked none =>
    refine .none (fun i hm hf => ?_) fun t => (epfd t).trans (none t)
    have ⟨hm, hj⟩ := old i hm hf
    exact hj ▸ marked i hm (hj ▸ hf)

-- A job of another descriptor has been changed.
theorem change_ne {j : IoJob} (h : r.FdOk fd) (hf : fd ≠ (r.job i).fd)
    (owner : (r.job i).SameOwner j) (job : r'.job = Function.update r.job i j)
    (ioJobs : r'.ioJobs = r.ioJobs) (epfd : ∀ t, r'.epfd t fd = r.epfd t fd) : r'.FdOk fd := by
  have hj : ∀ i', (r'.job i').fd = fd ∨ (r.job i').fd = fd → r'.job i' = r.job i' := by
    intro i' hi
    have hn : i' ≠ i := fun h => by simp [h, job, owner.fd, hf.symm] at hi
    rw [job, Function.update_of_ne hn]
  exact h.frame epfd (fun i' hm hf' => ⟨ioJobs ▸ hm, hj i' (.inl hf')⟩)
    fun i' hm hf' _ => ⟨ioJobs ▸ hm, hj i' (.inr hf')⟩

-- The job of the descriptor has been changed, and agrees with the interest lists again.
theorem change {j : IoJob} (h : r.FdOk fd) (mem : i ∈ r.ioJobs) (hf : (r.job i).fd = fd)
    (live : (r.job i).isWantDelete = false) (job : r'.job = Function.update r.job i j)
    (owner : (r.job i).SameOwner j) (ioJobs : r'.ioJobs = r.ioJobs) (settled : r'.Settled i) :
    r'.FdOk fd := by
  cases h
  case none marked _ => simp [marked i mem hf] at live
  case one i₀ _ _ _ _ only =>
    have hi := only i mem hf live
    subst hi
    have hji : r'.job i = j := by simp [job]
    have hfi : (r'.job i).fd = fd := by rw [hji, owner.fd, hf]
    have only' : ∀ i' ∈ r'.ioJobs, i' ≠ i → (r'.job i').fd = fd → (r'.job i').isWantDelete = true := by
      intro i' hm hn hf'
      rw [job, Function.update_of_ne hn] at hf' ⊢
      by_contra hd
      exact hn <| only i' (ioJobs ▸ hm) hf' (by simpa using hd)
    cases hd : (r'.job i).isWantDelete
    case false =>
      refine .one i (ioJobs ▸ mem) hfi hd settled fun i' hm' hf' live' => ?_
      by_contra hn
      simp [only' i' hm' hn hf'] at live'
    case true =>
      refine .none (fun i' hm hf' => ?_) fun t => ?_
      case refine_1 =>
        by_cases hn : i' = i
        case pos => exact hn ▸ hd
        case neg => exact only' i' hm hn hf'
      case refine_2 =>
        have := settled t
        rwa [hfi, IoJob.wanted, if_neg (by simp [hd]), Option.map_eq_none_iff] at this

-- A new job is put into the list while all jobs of its descriptor are marked.
theorem register {r₀ : Registry} {c : Call} {j : IoJob} {ev : EpollEvents} (h : r.FdOk c.fd)
    (new : r.NewJob c j ev)
    (marked : ∀ i ∈ r.ioJobs, (r.job i).fd = c.fd → (r.job i).isWantDelete = true)
    (job : r₀.job = r.job) (next : r₀.next = r.next) (ioJobs : r₀.ioJobs = r.ioJobs)
    (epfd : r₀.epfd = r.epfd) :
    ((r₀.setEntry j.thrdIndex j.fd (some ⟨ev, r₀.next⟩)).addIoJob j).FdOk c.fd := by
  have absent : ∀ t, r.epfd t c.fd = Option.none := by
    cases h
    case none epfd => exact epfd
    case one i mem hf live settled only => simp [marked i mem hf] at live
  refine .one r.next ?_ ?_ ?_ (fun t => ?_) fun i hm hf live => ?_
  case refine_1 => simp [addIoJob, next]
  case refine_2 => simp [addIoJob, next, new.fd]
  case refine_3 => simp [addIoJob, next, new.live]
  case refine_4 =>
    simp only [addIoJob, setEntry_next, setEntry_job, next, job, Function.update_self]
    by_cases ht : t = j.thrdIndex
    case pos =>
      subst ht
      rw [setEntry_epfd_self, IoJob.wanted, if_pos ⟨new.live, rfl, new.nonzero⟩]
      simp [EpollEntry.asked, IoJob.ioEventRead, IoJob.ioEventWrite, new.nowEvent]
    case neg =>
      rw [setEntry_epfd_ne (.inl ht), epfd, new.fd, absent, IoJob.wanted, if_neg (by simp [ht])]
      rfl
  case refine_5 =>
    by_contra hi
    simp only [addIoJob, setEntry_ioJobs, ioJobs, setEntry_next, next, List.mem_append,
      List.mem_singleton, hi, or_false] at hm
    simp only [addIoJob, setEntry_job, job, setEntry_next, next, Function.update_of_ne hi] at hf live
    simp [marked i hm hf] at live

end FdOk

-- A call re-registers the job it finds with the thread of the job, and registers a new job only if
-- there is no job for the descriptor that is not marked.
def Consistent (r : Registry) (c : Call) : Prop :=
  match r.findIoJob c.fd with
  | some i => ∀ t ∈ c.thrdIndex?, (r.job i).nowEvent = .zero → t = (r.job i).thrdIndex
  | none   => c.freeFunc? = none → r.AddAccepted .plain c →
    ∀ i ∈ r.ioJobs, (r.job i).fd = c.fd → (r.job i).isWantDelete = true

theorem exec_settled {c : Call} (h : r.Settled i) (find : r.findIoJob c.fd = some i)
    (hg : r.Consistent c) (hc : ∀ fd f, c ≠ .delListen fd f) : (r.exec .plain c).1.Settled i := by
  simp only [Consistent, find] at hg
  cases c
  case addListen =>
    simp only [Call.fd] at find
    simpa only [exec, addListenJob, find] using h
  case addRead   => exact h.addReadJob find (hg _ rfl)
  case delRead   => exact h.delReadJob find
  case addWrite  => exact h.addWriteJob find (hg _ rfl)
  case delWrite  => exact h.delWriteJob find
  case delListen => exact absurd rfl (hc _ _)

-- What a call does at its own descriptor.
theorem exec_fdOk {c : Call} (h : r.FdOk c.fd) (hg : r.Consistent c)
    (hc : ∀ fd f, c ≠ .delListen fd f) : (r.exec .plain c).1.FdOk c.fd := by
  cases find : r.findIoJob c.fd
  case some i =>
    have ⟨mem, hf, live⟩ := findIoJob_some find
    have settled : r.Settled i := by
      cases h
      case none marked _ => simp [marked i mem hf] at live
      case one only => rwa [only i mem hf live]
    have settled := exec_settled settled find hg hc
    cases r.exec_effect (k := .plain) (c := c)
    case keep job next ioJobs =>
      exact h.change mem hf live (by simp [job]) (.refl _) ioJobs settled
    case register none _ _ _ _ _ _ _ _ => simp [find] at none
    case modify i' j find' handled job next ioJobs =>
      cases find.symm.trans find'
      exact h.change mem hf live job handled.toSameOwner ioJobs settled
  case none =>
    by_cases add : c.freeFunc? = none
    case neg => rwa [exec_missed_del find add]
    case pos =>
      have ⟨r₀, j, ev, he, new, hj, hn₀, hl, hp⟩ := exec_missed (k := .plain) find add
      by_cases accepted : r.AddAccepted .plain c
      case neg =>
        have accepted' : ¬(Kernel.plain.refuseAdd = false ∧ r₀.epfd j.thrdIndex j.fd = none) := by
          rwa [hp, new.thrdIndex, new.fd]
        rw [he, register_refused accepted']
        exact h.frame (by simp [hp]) (by simp +contextual [hl, hj]) (by simp +contextual [hl, hj])
      case pos =>
        have accepted' : r₀.epfd j.thrdIndex j.fd = none := by
          rw [hp, new.thrdIndex, new.fd]
          exact accepted.2
        simp only [Consistent, find] at hg
        rw [he, register_accepted rfl accepted']
        exact h.register new (hg add accepted) hj hn₀ hl hp

theorem writeEvtHandle_effect {k : Kernel} :
    ∃ j, (r.writeEvtHandle k i).job = Function.update r.job i j ∧ (r.job i).SameOwner j ∧
      (r.writeEvtHandle k i).next = r.next ∧ (r.writeEvtHandle k i).ioJobs = r.ioJobs := by
  have ⟨hj, hn, hl⟩ := r.delIoWritingEvt_frame k i
  unfold writeEvtHandle
  split
  case h_1 => exact ⟨r.job i, by simp, .refl _, rfl, rfl⟩
  all_goals
    split
    case isTrue  => exact ⟨r.job i, by simp, .refl _, rfl, rfl⟩
    case isFalse =>
      refine ⟨(r.job i).delWriteIoEvent, ?_, ⟨rfl, rfl, rfl, rfl⟩, hn, hl⟩
      rw [modify_job, hj]

theorem writeEvtHandle_epfd_ne {k : Kernel} (hf : fd ≠ (r.job i).fd) :
    (r.writeEvtHandle k i).epfd t fd = r.epfd t fd := by
  unfold writeEvtHandle
  split
  case h_1 => rfl
  all_goals
    split
    case isTrue  => rfl
    case isFalse => exact delIoWritingEvt_epfd_ne hf

theorem writeEvtHandle_marked {k : Kernel} (h : (r.job i).isWantDelete = true) :
    r.writeEvtHandle k i = r := by
  unfold writeEvtHandle
  split <;> simp [h]

-- A completed call, a write event that a job of the list has handled, or a completed pass.
inductive Act
  | call (c : Call)
  | writeEvt (i : JobId)
  | sweep (thrdIndex : Nat)

def step (r : Registry) : Act → Option Registry
  | .call (.delListen ..) => none
  | .call c               => some (r.exec .plain c).1
  | .writeEvt i           => if i ∈ r.ioJobs then some (r.writeEvtHandle .plain i) else none
  | .sweep t              => some (r.handleDelingJob t).1

theorem step_call {c : Call} (h : r.step (.call c) = some r') :
    r' = (r.exec .plain c).1 ∧ ∀ fd f, c ≠ .delListen fd f := by
  cases c <;> cases h <;> exact ⟨rfl, nofun⟩

end Registry

def bookkeeping (workerThrdCnt : Nat) : System Registry Registry.Act where
  init r := r = .empty workerThrdCnt
  step   := Registry.step

namespace Registry

variable {r r' : Registry} {i : JobId} {fd : Fd} {t : Nat}

structure Booked (r : Registry) : Prop where
  next : ∀ i ∈ r.ioJobs, i < r.next
  fdOk : ∀ fd, r.FdOk fd

theorem Booked.settled (h : r.Booked) (mem : i ∈ r.ioJobs) (live : (r.job i).isWantDelete = false) :
    r.Settled i := by
  cases h.fdOk (r.job i).fd
  case none marked _ => simp [marked i mem rfl] at live
  case one only => rwa [only i mem rfl live]

theorem Booked.call {c : Call} (h : r.Booked) (hg : r.Consistent c)
    (hc : ∀ fd f, c ≠ .delListen fd f) : (r.exec .plain c).1.Booked where
  next := by
    intro i hm
    cases r.exec_effect (k := .plain) (c := c)
    case keep job next ioJobs => exact next ▸ h.next i (ioJobs ▸ hm)
    case register next ioJobs =>
      rw [ioJobs, List.mem_append, List.mem_singleton] at hm
      rw [next]
      cases hm
      case inl hm => exact Nat.lt_succ_of_lt <| h.next i hm
      case inr hm => exact hm ▸ Nat.lt_succ_self _
    case modify next ioJobs => exact next ▸ h.next i (ioJobs ▸ hm)
  fdOk fd := by
    by_cases hf : fd = c.fd
    case pos => exact hf ▸ exec_fdOk (h.fdOk _) hg hc
    case neg =>
      have epfd (t : Nat) := r.exec_epfd_ne (k := .plain) (t := t) hf
      cases r.exec_effect (k := .plain) (c := c)
      case keep job next ioJobs =>
        exact (h.fdOk fd).frame epfd (by simp +contextual [job, ioJobs])
          (by simp +contextual [job, ioJobs])
      case register j _ _ _ hj _ _ job next ioJobs =>
        refine (h.fdOk fd).frame epfd (fun i hm hf' => ?_) fun i hm _ _ => ?_
        case refine_1 =>
          have hi : i ≠ r.next := fun hi => by simp [hi, job, hj, Ne.symm hf] at hf'
          rw [ioJobs, List.mem_append, List.mem_singleton] at hm
          exact ⟨hm.resolve_right hi, by rw [job, Function.update_of_ne hi]⟩
        case refine_2 =>
          have hi : i ≠ r.next := Nat.ne_of_lt <| h.next i hm
          exact ⟨ioJobs ▸ List.mem_append_left _ hm, by rw [job, Function.update_of_ne hi]⟩
      case modify i j find handled job next ioJobs =>
        have hi := (findIoJob_some find).2.1
        exact (h.fdOk fd).change_ne (hi ▸ hf) handled.toSameOwner job ioJobs epfd

theorem Booked.writeEvt (h : r.Booked) (mem : i ∈ r.ioJobs) :
    (r.writeEvtHandle .plain i).Booked := by
  cases hd : (r.job i).isWantDelete
  case true => rwa [writeEvtHandle_marked hd]
  case false =>
    have ⟨j, job, owner, next, ioJobs⟩ := r.writeEvtHandle_effect (i := i) (k := .plain)
    constructor
    case next => simpa [ioJobs, next] using h.next
    case fdOk =>
      intro fd
      by_cases hf : fd = (r.job i).fd
      case pos =>
        subst hf
        exact (h.fdOk _).change mem rfl hd job owner ioJobs (h.settled mem hd).writeEvtHandle
      case neg =>
        have epfd (t : Nat) := r.writeEvtHandle_epfd_ne (k := .plain) (t := t) hf
        exact (h.fdOk fd).change_ne hf owner job ioJobs epfd

theorem Booked.sweep (h : r.Booked) : (r.handleDelingJob t).1.Booked := by
  rw [handleDelingJob_eq]
  refine ⟨fun i hm => h.next i (List.mem_filter.mp hm).1, fun fd => ?_⟩
  refine (h.fdOk fd).frame (fun _ => rfl) (fun i hm _ => ?_) fun i hm _ live => ?_
  case refine_1 => exact ⟨(List.mem_filter.mp hm).1, rfl⟩
  case refine_2 => exact ⟨List.mem_filter.mpr ⟨hm, by simp [live]⟩, rfl⟩

def Act.Consistent (r : Registry) : Act → Prop
  | .call c => r.Consistent c
  | _       => True

theorem Booked.step {a : Act} (h : r.Booked) (hg : a.Consistent r) (hs : r.step a = some r') :
    r'.Booked := by
  cases a
  case call c =>
    have ⟨hr, hc⟩ := step_call hs
    exact hr ▸ h.call hg hc
  case writeEvt i =>
    have ⟨mem, hs⟩ := Option.ite_none_right_eq_some.mp hs
    cases hs
    exact h.writeEvt mem
  case sweep t =>
    cases hs
    exact h.sweep

theorem Booked.of_reach (h : (bookkeeping n).Reach (fun r a => a.Consistent r) r) : r.Booked := by
  refine h.invariant (I := Booked) ?_ fun _ _ _ h hg hs => h.step hg hs
  rintro _ rfl
  exact ⟨nofun, fun _ => .none nofun fun _ => rfl⟩

-- The entries for the descriptor of a job agree with its event bits.
structure Agrees (r : Registry) (i : JobId) : Prop where
  present : (r.epfd (r.job i).thrdIndex (r.job i).fd).isSome ↔ (r.job i).nowEvent ≠ .zero
  events  : ∀ e, r.epfd (r.job i).thrdIndex (r.job i).fd = some e →
    e.events.epollin = (r.job i).ioEventRead ∧ e.events.epollout = (r.job i).ioEventWrite
  others  : ∀ t ≠ (r.job i).thrdIndex, r.epfd t (r.job i).fd = none

def EpollAgrees (r : Registry) : Prop :=
  ∀ i ∈ r.ioJobs, (r.job i).isWantDelete = false → r.Agrees i

theorem Settled.agrees (h : r.Settled i) (live : (r.job i).isWantDelete = false) : r.Agrees i where
  present := by
    have := h (r.job i).thrdIndex
    by_cases hz : (r.job i).nowEvent = .zero
    case pos => simp_all [IoJob.wanted]
    case neg => simpa [hz] using h.isSome live hz
  events e he := by
    have := h (r.job i).thrdIndex
    simp only [he, Option.map_some, IoJob.wanted] at this
    split at this
    case isTrue  => simpa [EpollEntry.asked] using this
    case isFalse => contradiction
  others t ht := h.eq_none <| by simp [IoJob.wanted, ht]

theorem Booked.epollAgrees (h : r.Booked) : r.EpollAgrees :=
  fun _ mem live => (h.settled mem live).agrees live

-- An adding call keeps a job that is in the list, except that it may change the one it has found.
theorem exec_kept {c : Call} {k : Kernel} (hn : i < r.next) (mem : i ∈ r.ioJobs)
    (live : (r.job i).isWantDelete = false) (add : c.freeFunc? = none) :
    i ∈ (r.exec k c).1.ioJobs ∧ (r.job i).SameOwner ((r.exec k c).1.job i) ∧
      ((r.exec k c).1.job i).isWantDelete = false := by
  cases r.exec_effect (k := k) (c := c)
  case keep job next ioJobs => simp [job, ioJobs, mem, live, IoJob.SameOwner.refl]
  case register job next ioJobs =>
    have hi : i ≠ r.next := Nat.ne_of_lt hn
    simp [job, ioJobs, mem, live, hi, IoJob.SameOwner.refl]
  case modify i' j find handled job next ioJobs =>
    by_cases hi : i = i'
    case pos =>
      subst hi
      simp [job, ioJobs, mem, handled.toSameOwner, handled.marked add, live]
    case neg => simp [job, ioJobs, mem, live, hi, IoJob.SameOwner.refl]

-- The call adds the entry of the job it has found to the interest list of another thread.
theorem not_agrees_found {c : Call} (h : r.Booked) (find : r.findIoJob c.fd = some i)
    (hc : c.thrdIndex? = some t) (hz : (r.job i).nowEvent = .zero) (ht : t ≠ (r.job i).thrdIndex) :
    ¬(r.exec .plain c).1.EpollAgrees := by
  obtain ⟨mem, hf, live⟩ := findIoJob_some find
  have absent : r.epfd t c.fd = none := hf ▸ (h.settled mem live).eq_none (by simp [IoJob.wanted, hz])
  have present : ((r.exec .plain c).1.epfd t c.fd).isSome := by
    cases c <;> cases hc <;> simp only [Call.fd] at find absent hf
    case addRead =>
      simp [exec, addReadJob, find, hz, NowEvent.zero, epollCtl_add (k := .plain) rfl absent, Call.fd,
        IoJob.ioEventWrite, IoJob.ioEventRead]
    case addWrite =>
      simp [exec, addWriteJob, find, hz, NowEvent.zero, epollCtl_add (k := .plain) rfl absent, Call.fd,
        IoJob.ioEventWrite, IoJob.ioEventRead, IoJob.setWriteCallback, IoJob.addWriteIoEvent]
  have add : c.freeFunc? = none := by cases c <;> simp_all [Call.thrdIndex?, Call.freeFunc?]
  obtain ⟨mem', owner, live'⟩ := exec_kept (k := .plain) (h.next i mem) mem live add
  intro agrees
  have := (agrees i mem' live').others t <| by rwa [owner.thrdIndex]
  rw [owner.fd, hf] at this
  simp [this] at present

-- The call registers a second job for the descriptor.
theorem not_agrees_missed {c : Call} (h : r.Booked) (find : r.findIoJob c.fd = none)
    (add : c.freeFunc? = none) (accepted : r.AddAccepted .plain c) (mem : i ∈ r.ioJobs)
    (hf : (r.job i).fd = c.fd) (live : (r.job i).isWantDelete = false) :
    ¬(r.exec .plain c).1.EpollAgrees := by
  have ⟨r₀, j, ev, he, new, hj, hn, hl, hp⟩ := exec_missed (k := .plain) find add
  have accepted' : r₀.epfd j.thrdIndex j.fd = none := by
    rw [hp, new.thrdIndex, new.fd]
    exact accepted.2
  rw [he, register_accepted rfl accepted']
  intro agrees
  have hi : i ≠ r.next := Nat.ne_of_lt <| h.next i mem
  have := agrees i (by simp [addIoJob, hl, mem]) (by simp [addIoJob, hj, hn, hi, live])
  by_cases ht : j.thrdIndex = (r.job i).thrdIndex
  case neg =>
    have := this.others j.thrdIndex (by simpa [addIoJob, hj, hn, hi] using ht)
    simp [addIoJob, hj, hn, hi, hf, ← new.fd] at this
  case pos =>
    have hz : (r.job i).nowEvent = .zero := by
      by_contra hz
      have := (h.settled mem live).isSome live hz
      rw [← ht, hf, ← new.fd, ← hp, accepted'] at this
      contradiction
    have := this.present
    simp [addIoJob, hj, hn, hi, hf, ← new.fd, ← ht, hz] at this

theorem not_epollAgrees {a : Act} (h : r.Booked) (hg : ¬a.Consistent r) (hs : r.step a = some r') :
    ¬r'.EpollAgrees := by
  cases a
  case call c =>
    have ⟨hr, _⟩ := step_call hs
    subst hr
    simp only [Act.Consistent, Consistent] at hg
    split at hg
    case h_1 i find =>
      simp only [Option.mem_def, not_forall] at hg
      have ⟨t, hc, hz, ht⟩ := hg
      exact not_agrees_found h find hc hz ht
    case h_2 find =>
      simp only [not_forall] at hg
      have ⟨add, accepted, i, mem, hf, live⟩ := hg
      exact not_agrees_missed h find add accepted mem hf (by simpa using live)
  all_goals exact absurd trivial hg

-- The interest lists agree with the jobs in the runs whose calls are consistent, and the first call
-- that is not consistent breaks the agreement.
theorem epoll_agrees (n : Nat) :
    (∀ r, (bookkeeping n).Reach (fun r a => a.Consistent r) r → r.EpollAgrees) ∧
    (∀ r a r', (bookkeeping n).Reach (fun r a => a.Consistent r) r → ¬a.Consistent r →
      (bookkeeping n).step r a = some r' → ¬r'.EpollAgrees) := by
  refine ⟨fun r h => (Booked.of_reach h).epollAgrees, fun r a r' h hg hs => ?_⟩
  exact not_epollAgrees (Booked.of_reach h) hg hs

instance {c : Call} : Decidable (r.Consistent c) := by
  unfold Consistent
  split <;> infer_instance

instance : DecidablePred (Act.Consistent r)
  | .call c               => inferInstanceAs (Decidable (r.Consistent c))
  | .writeEvt _ | .sweep _ => .isTrue trivial

theorem epoll_agrees_rewritten :
    ∃ r, (bookkeeping 2).Reach (fun r a => a.Consistent r) r ∧
      r.epfd 1 4 = some ⟨⟨false, true, false⟩, 0⟩ ∧ r.EpollAgrees := by
  have ⟨r, hr, he⟩ : ∃ r, (bookkeeping 2).Reach (fun r a => a.Consistent r) r ∧
      r.epfd 1 4 = some ⟨⟨false, true, false⟩, 0⟩ :=
    System.Reach.exists_of_run [
        .call (.addWrite (.app 0) 4 0 1 true),
        .writeEvt 0,
        .call (.addWrite (.app 0) 4 0 1 true)]
      _ rfl (by decide)
  exact ⟨r, hr, he, (epoll_agrees 2).1 r hr⟩

theorem not_epoll_agrees :
    ¬∀ n r, (bookkeeping n).Reachable r → r.EpollAgrees := by
  intro h
  have ⟨r, hr, mem, live, ht, he⟩ : ∃ r, (bookkeeping 2).Reachable r ∧ 0 ∈ r.ioJobs ∧
      (r.job 0).isWantDelete = false ∧ 1 ≠ (r.job 0).thrdIndex ∧
      (r.epfd 1 (r.job 0).fd).isSome :=
    System.exists_of_run [
        .call (.addWrite (.app 0) 4 0 0 true),
        .writeEvt 0,
        .call (.addWrite (.app 0) 4 0 1 true)]
      _ rfl (by decide)
  simp [(h 2 r hr 0 mem live).others 1 ht] at he

end Registry
end NetPool
