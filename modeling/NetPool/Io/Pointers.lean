import NetPool.Io.Jobs
import NetPool.Io.Loop

namespace NetPool
namespace Registry

variable {r : Registry} {k : Kernel} {i : JobId} {t : Nat} {fd : Fd} {e : EpollEntry}

-- An entry after a call was there before, or it points to the job that the call has registered or
-- found.
theorem exec_entry {c : Call} (hk : k.refuseDel = false) (h : (r.exec k c).1.epfd t fd = some e) :
    r.epfd t fd = some e ∨ r.findIoJob c.fd = none ∧ e.ptr = r.next ∨
      r.findIoJob c.fd = some e.ptr := by
  by_cases hf : fd = c.fd
  case neg => exact .inl <| exec_epfd_ne (c := c) (k := k) hf ▸ h
  case pos =>
    subst hf
    cases find : r.findIoJob c.fd
    case none =>
      by_cases add : c.freeFunc? = none
      case neg => rw [exec_missed_del find add] at h; exact .inl h
      case pos =>
        have ⟨r₀, j, ev, he, new, hj, hn, hl, hp⟩ := exec_missed (k := k) find add
        rw [he] at h
        by_cases accepted : k.refuseAdd = false ∧ r₀.epfd j.thrdIndex j.fd = none
        case neg => rw [register_refused accepted, hp] at h; exact .inl h
        case pos =>
          rw [register_accepted accepted.1 accepted.2] at h
          simp only [addIoJob, setEntry_epfd] at h
          split at h
          case isTrue  => cases h; exact .inr <| .inl ⟨rfl, hn⟩
          case isFalse => exact .inl (hp ▸ h)
    case some i =>
      cases exec_refit (k := k) find hk
      case same epfd _ _ => exact .inl (epfd ▸ h)
      case point t' e' epfd ptr _ _ _ =>
        rw [epfd, setEntry_epfd] at h
        split at h
        case isTrue  => cases h; exact .inr <| .inr (congrArg some ptr.symm)
        case isFalse => exact .inl h
      case drop epfd =>
        rw [epfd, setEntry_epfd] at h
        split at h
        case isTrue  => cases h
        case isFalse => exact .inl h

-- The entry of the job that a call has registered.
theorem exec_entry_new {c : Call} (find : r.findIoJob c.fd = none)
    (h : (r.exec k c).1.epfd t fd = some e) (old : r.epfd t fd ≠ some e) :
    (r.exec k c).1.next = r.next + 1 ∧ ((r.exec k c).1.job r.next).thrdIndex = t ∧
      ((r.exec k c).1.job r.next).fd = fd ∧ ((r.exec k c).1.job r.next).nowEvent ≠ .zero ∧
      ((r.exec k c).1.job r.next).isWantDelete = false := by
  by_cases add : c.freeFunc? = none
  case neg => rw [exec_missed_del find add] at h; exact absurd h old
  case pos =>
    have ⟨r₀, j, ev, he, new, hj, hn, hl, hp⟩ := exec_missed (k := k) find add
    rw [he] at h ⊢
    by_cases accepted : k.refuseAdd = false ∧ r₀.epfd j.thrdIndex j.fd = none
    case neg => rw [register_refused accepted, hp] at h; exact absurd h old
    case pos =>
      rw [register_accepted accepted.1 accepted.2] at h ⊢
      simp only [addIoJob, setEntry_epfd] at h
      split at h
      case isFalse => exact absurd (hp ▸ h) old
      case isTrue hn' => simp [addIoJob, hn, hn'.1, hn'.2, new.nonzero, new.live]

-- What a call says about the job it has found, if an entry points to that job afterwards.
theorem exec_entry_found {c : Call} (find : r.findIoJob c.fd = some i) (hk : k.refuseDel = false)
    (ok : ∀ t ∈ c.thrdIndex?, (r.job i).nowEvent = .zero → k.refuseAdd = false →
      r.epfd t c.fd = none → t = (r.job i).thrdIndex)
    (own : ∀ t fd e, r.epfd t fd = some e → e.ptr = i →
      t = (r.job i).thrdIndex ∧ fd = c.fd ∧ (r.job i).nowEvent ≠ .zero)
    (h : (r.exec k c).1.epfd t fd = some e) (ptr : e.ptr = i) :
    t = (r.job i).thrdIndex ∧ fd = c.fd ∧ ((r.exec k c).1.job i).nowEvent ≠ .zero ∧
      (((r.exec k c).1.job i).isWantDelete = true →
        (∃ fd f, c = .delListen fd f) ∧ (r.job i).nowEvent ≠ .zero) := by
  cases exec_refit find hk
  case same epfd bits marked =>
    have ⟨ht, hf, hz⟩ := own t fd e (epfd ▸ h) ptr
    exact ⟨ht, hf, bits hz, fun hm => ⟨(marked hm).resolve_right hz, hz⟩⟩
  case point t' e' epfd _ bits live thread =>
    have ht' : t' = (r.job i).thrdIndex :=
      thread.elim id fun ⟨hc, hz, hk, he⟩ => ok t' hc hz hk he
    refine ⟨?_, ?_, bits, fun hm => by simp [live] at hm⟩
    all_goals
      rw [epfd, setEntry_epfd] at h
      split at h
    case refine_1.isTrue hn  => exact hn.1.trans ht'
    case refine_1.isFalse    => exact (own t fd e h ptr).1
    case refine_2.isTrue hn  => exact hn.2
    case refine_2.isFalse    => exact (own t fd e h ptr).2.1
  case drop epfd =>
    rw [epfd, setEntry_epfd] at h
    split at h
    case isTrue => cases h
    case isFalse hn =>
      have ⟨ht, hf, _⟩ := own t fd e h ptr
      exact absurd ⟨ht, hf⟩ hn

-- What the worker does to the entry of a job whose write event it handles.
theorem delIoWritingEvt_entry (hk : k.refuseDel = false)
    (h : (r.delIoWritingEvt k i).epfd t fd = some e) :
    r.epfd t fd = some e ∧ ((r.job i).ioEventRead = true ∨ t ≠ (r.job i).thrdIndex ∨ fd ≠ (r.job i).fd) ∨
      (r.job i).ioEventRead = true ∧ t = (r.job i).thrdIndex ∧ fd = (r.job i).fd ∧ e.ptr = i ∧
        (r.epfd t fd).isSome := by
  unfold delIoWritingEvt at h
  dsimp only at h
  split at h
  case isTrue hr =>
    cases hc : r.epollCtl k (r.job i).thrdIndex (.mod ⟨⟨true, false, true⟩, i⟩) (r.job i).fd
    case none => rw [hc] at h; exact .inl ⟨h, .inl hr⟩
    case some r' =>
      have ⟨hr', present⟩ := epollCtl_mod_some hc
      rw [hc, hr', Option.getD_some, setEntry_epfd] at h
      split at h
      case isFalse => exact .inl ⟨h, .inl hr⟩
      case isTrue hn =>
        cases h
        exact .inr ⟨hr, hn.1, hn.2, rfl, hn.1 ▸ hn.2 ▸ present⟩
  case isFalse =>
    rw [epollCtl_getD_del hk, setEntry_epfd] at h
    split at h
    case isTrue     => contradiction
    case isFalse hn => exact .inl ⟨h, .inr <| by rwa [not_and_or] at hn⟩

theorem delListenCtl_eq (hk : k.refuseDel = false) :
    (r.delListenCtl k fd).1 = r.setEntry 0 fd none := by
  rw [← epollCtl_getD_del hk, delListenCtl]
  cases r.epollCtl k 0 .del fd <;> rfl

end Registry

-- No step changes the owner of a job that has been registered.
theorem Net.step_owner {s s' : Net} {a : Net.Act} {i : JobId} (h : s.step a = some s')
    (hi : i < s.reg.next) :
    (s.reg.job i).SameOwner (s'.reg.job i) ∧ s.reg.next ≤ s'.reg.next := by
  cases a
  case call c k =>
    cases h
    cases s.reg.exec_effect (k := k) (c := c)
    case keep job next _ => exact ⟨job ▸ .refl _, Nat.le_of_eq next.symm⟩
    case register job next _ =>
      have hn : i ≠ s.reg.next := Nat.ne_of_lt hi
      refine ⟨?_, next ▸ Nat.le_succ _⟩
      simpa [job, hn] using IoJob.SameOwner.refl _
    case modify i' j _ handled job next _ =>
      refine ⟨?_, Nat.le_of_eq next.symm⟩
      by_cases hn : i = i'
      case pos => subst hn; simpa [job] using handled.toSameOwner
      case neg => simpa [job, hn] using IoJob.SameOwner.refl _
  case listenCtl n k =>
    obtain ⟨d, _, h⟩ := Option.map_eq_some_iff.mp h
    subst h
    obtain ⟨hj, hn, _⟩ := s.reg.delListenCtl_frame k d.2
    exact ⟨hj ▸ .refl _, Nat.le_of_eq hn.symm⟩
  case sweep t =>
    simp only [Net.step, Registry.handleDelingJob_eq, Option.some.injEq] at h
    subst h
    exact ⟨.refl _, Nat.le_refl _⟩
  case close fd => cases h; exact ⟨.refl _, Nat.le_refl _⟩
  all_goals
    simp only [Net.step] at h
    split at h <;> cases h
  case writeCtl i' k _ =>
    obtain ⟨hj, hn, _⟩ := s.reg.delIoWritingEvt_frame k i'
    exact ⟨hj ▸ .refl _, Nat.le_of_eq hn.symm⟩
  case writeClear i' _ =>
    refine ⟨?_, Nat.le_refl _⟩
    by_cases hn : i = i'
    case pos => subst hn; simpa using ⟨rfl, rfl, rfl, rfl⟩
    case neg => simpa [hn] using IoJob.SameOwner.refl _
  all_goals exact ⟨.refl _, Nat.le_refl _⟩

namespace Loop

variable {s s' : Loop} {t : Nat} {fd : Fd} {i : JobId} {k : Kernel}

-- An entry at `fd` of the interest list of thread `t` may point to the job `i`.
structure EntryOk (s : Loop) (t : Nat) (fd : Fd) (i : JobId) : Prop where
  lt        : i < s.net.reg.next
  thrdIndex : (s.net.reg.job i).thrdIndex = t
  fd        : (s.net.reg.job i).fd = fd
  kept      : i ∉ s.net.deleted
  nonzero   : (s.net.reg.job i).nowEvent ≠ .zero
  stale     : (s.net.reg.job i).isWantDelete = true → i ∈ s.stale

structure Inv (s : Loop) : Prop where
  net      : s.net.Inv
  entry    : ∀ t fd e, s.net.reg.epfd t fd = some e → s.EntryOk t fd e.ptr
  events   : ∀ t, ∀ e ∈ (s.pc t).events,
    e.ptr < s.net.reg.next ∧ (s.net.reg.job e.ptr).thrdIndex = t ∧ e.ptr ∉ s.net.deleted
  clearing : ∀ t e es, s.pc t = .dispatch (e :: es) .clearing → e.ptr ∈ s.locked ∧
    ∀ t' fd e', s.net.reg.epfd t' fd = some e' → e'.ptr = e.ptr →
      (s.net.reg.job e.ptr).ioEventRead = true
  idle     : ∀ t, s.pc t ≠ .swept → s.passDone t
  listen   : ∀ d ∈ s.net.listenDels, d.1 < s.net.reg.next ∧ (s.net.reg.job d.1).fd = d.2

-- The condition on a step: a call registers the job it has found again with the thread of that job,
-- the worker does not let the entry of another job point to a marked one, and a job is not deleted
-- while it is still to be taken out of the epoll instance of its thread.
def Orderly (s : Loop) : Act → Prop
  | .call c k => ∀ i ∈ s.net.reg.findIoJob c.fd, ∀ t ∈ c.thrdIndex?,
    (s.net.reg.job i).nowEvent = .zero → k.refuseAdd = false → s.net.reg.epfd t c.fd = none →
      t = (s.net.reg.job i).thrdIndex
  | .work t _ => match s.pc t with
    | .dispatch (e :: _) .writing => (s.net.reg.job e.ptr).isWantDelete = true →
      (s.net.reg.job e.ptr).ioEventRead = true →
        ∀ e' ∈ s.net.reg.epfd t (s.net.reg.job e.ptr).fd, e'.ptr = e.ptr
    | _ => True
  | .delete n => ∀ p ∈ s.net.passes[n]?, ∀ i ∈ p.current, i ∉ s.stale
  | _ => True

theorem EntryOk.mono (h : s.EntryOk t fd i)
    (owner : (s.net.reg.job i).SameOwner (s'.net.reg.job i) ∧ s.net.reg.next ≤ s'.net.reg.next)
    (kept : i ∉ s'.net.deleted) (nonzero : (s'.net.reg.job i).nowEvent ≠ .zero)
    (stale : (s'.net.reg.job i).isWantDelete = true → i ∈ s'.stale) : s'.EntryOk t fd i where
  lt        := Nat.lt_of_lt_of_le h.lt owner.2
  thrdIndex := owner.1.thrdIndex.trans h.thrdIndex
  fd        := owner.1.fd.trans h.fd
  kept      := kept
  nonzero   := nonzero
  stale     := stale

-- A step that leaves the job and the history alone.
theorem EntryOk.same (h : s.EntryOk t fd i) (next : s.net.reg.next ≤ s'.net.reg.next)
    (job : s'.net.reg.job i = s.net.reg.job i) (deleted : s'.net.deleted = s.net.deleted)
    (stale : i ∈ s.stale → i ∈ s'.stale) : s'.EntryOk t fd i :=
  h.mono ⟨job ▸ .refl _, next⟩ (deleted ▸ h.kept) (job ▸ h.nonzero)
    fun hm => stale <| h.stale (job ▸ hm)

-- A job that the call neither registers nor finds is not changed.
theorem call_job {c : Call} (hi : i < s.net.reg.next) (hn : s.net.reg.findIoJob c.fd ≠ some i) :
    (s.net.reg.exec k c).1.job i = s.net.reg.job i := by
  cases s.net.reg.exec_effect (k := k) (c := c)
  case keep job _ _ => rw [job]
  case register job _ _ => rw [job, Function.update_of_ne (Nat.ne_of_lt hi)]
  case modify i' j find _ job _ _ =>
    have : i ≠ i' := fun h => hn <| h ▸ find
    rw [job, Function.update_of_ne this]

-- The calls that take no lock leave the event bits and the interest lists of what they find alone.
theorem call_lockfree {c : Call} (hc : takesLock c = false)
    (find : s.net.reg.findIoJob c.fd = some i) :
    (s.net.reg.exec k c).1.epfd = s.net.reg.epfd ∧
      ((s.net.reg.exec k c).1.job i).nowEvent = (s.net.reg.job i).nowEvent := by
  cases c <;> cases hc <;> simp only [Call.fd] at find
  case addListen => simp [Registry.exec, Registry.addListenJob, find]
  case delListen =>
    simp [Registry.exec, Registry.delListenJob, find, IoJob.setDeletingFlag, IoJob.setFreeCallback]

namespace Inv

theorem kept_of_mem (inv : s.Inv) (h : i ∈ s.net.reg.ioJobs) : i ∉ s.net.deleted := by
  intro hd
  have ho := inv.net.once i
  have h₁ := List.count_pos_iff.mpr h
  have h₂ := List.count_pos_iff.mpr hd
  rw [if_pos (inv.net.lt_next (.inl h))] at ho
  omega

theorem head {e : EpollEvent} {es : List EpollEvent} {stage : Stage} (inv : s.Inv)
    (h : s.pc t = .dispatch (e :: es) stage) :
    e.ptr < s.net.reg.next ∧ (s.net.reg.job e.ptr).thrdIndex = t ∧ e.ptr ∉ s.net.deleted :=
  inv.events t e <| by simp [h, LoopPc.events]

-- What the steps that keep the threads where they are leave of the facts about them.
theorem events_mono (inv : s.Inv) {a : Net.Act} (hs : s.net.step a = some s'.net) (pc : s'.pc = s.pc)
    (deleted : s'.net.deleted = s.net.deleted) : ∀ t, ∀ e ∈ (s'.pc t).events,
      e.ptr < s'.net.reg.next ∧ (s'.net.reg.job e.ptr).thrdIndex = t ∧ e.ptr ∉ s'.net.deleted := by
  intro t e he
  have ⟨h₁, h₂, h₃⟩ := inv.events t e (pc ▸ he)
  have ⟨owner, next⟩ := Net.step_owner hs h₁
  exact ⟨Nat.lt_of_lt_of_le h₁ next, owner.thrdIndex.trans h₂, deleted ▸ h₃⟩

theorem call_entry {c : Call} (inv : s.Inv) (hk : k.refuseDel = false)
    (ok : s.Orderly (.call c k)) {net : Net} (hs : s.net.step (.call c k) = some net)
    (h : net.reg.epfd t fd = some e) :
    EntryOk { s with net := net, stale := s.stale ++ s.unlisted c } t fd e.ptr := by
  have hst : e.ptr ∈ s.stale → e.ptr ∈ s.stale ++ s.unlisted c := List.mem_append_left _
  by_cases old : s.net.reg.epfd t fd = some e ∧ s.net.reg.findIoJob c.fd ≠ some e.ptr
  case pos =>
    have he := inv.entry t fd e old.1
    have hj := s.call_job (k := k) he.lt old.2
    have next := (Net.step_owner hs he.lt).2
    cases hs
    exact he.same next hj rfl hst
  case neg =>
    cases find : s.net.reg.findIoJob c.fd
    case none =>
      have old : s.net.reg.epfd t fd ≠ some e := fun h => old ⟨h, by simp [find]⟩
      cases hs
      have ⟨hn, ht, hf, hz, hl⟩ := s.net.reg.exec_entry_new find h old
      have hptr : e.ptr = s.net.reg.next := by
        cases s.net.reg.exec_entry hk h
        case inl h => exact absurd h old
        case inr h => exact h.elim (·.2) fun h => by simp [find] at h
      refine ⟨?_, hptr ▸ ht, hptr ▸ hf, ?_, hptr ▸ hz, fun hm => ?_⟩
      case refine_1 => simp [hptr, hn]
      case refine_2 =>
        intro hd
        exact absurd (inv.net.lt_next <| .inr <| .inr <| .inr hd) (by simp [hptr])
      case refine_3 => simp [hptr, hl] at hm
    case some i =>
      have ⟨mem, hfd, _⟩ := Registry.findIoJob_some find
      have lt := inv.net.lt_next (.inl mem)
      have ptr : e.ptr = i := by
        cases hs
        by_contra hn
        cases s.net.reg.exec_entry hk h
        case inl h => exact old ⟨h, fun h => hn <| (Option.some.inj <| find.symm.trans h).symm⟩
        case inr h => simp [find, Ne.symm hn] at h
      have own (t : Nat) (fd : Fd) (e : EpollEntry) (h : s.net.reg.epfd t fd = some e)
          (hp : e.ptr = i) :
          t = (s.net.reg.job i).thrdIndex ∧ fd = c.fd ∧ (s.net.reg.job i).nowEvent ≠ .zero := by
        have he := inv.entry t fd e h
        rw [hp] at he
        exact ⟨he.thrdIndex.symm, he.fd.symm.trans hfd, he.nonzero⟩
      have ⟨owner, next⟩ := Net.step_owner hs lt
      cases hs
      have ⟨ht, hf, hz, marked⟩ := Registry.exec_entry_found find hk (ok i find) own h ptr
      subst ptr ht hf
      refine ⟨Nat.lt_of_lt_of_le lt next, owner.thrdIndex, owner.fd.trans hfd, inv.kept_of_mem mem, hz, ?_⟩
      intro hm
      have ⟨⟨fd', f, hc⟩, hz'⟩ := marked hm
      subst hc
      simp only [Call.fd] at find
      exact List.mem_append_right _ <| by simp [unlisted, find, hz']

theorem call {c : Call} (inv : s.Inv) (ok : s.Orderly (.call c k))
    (h : s.step (.call c k) = some s') : s'.Inv := by
  have ⟨hn, h⟩ := Option.ite_none_left_eq_some.mp h
  have ⟨net, hs, h⟩ := Option.map_eq_some_iff.mp h
  subst h
  simp only [not_or, Bool.not_eq_true] at hn
  have ⟨hk, unblocked⟩ := hn
  have hd : net.deleted = s.net.deleted := by cases hs; rfl
  have hp : net.passes = s.net.passes := by cases hs; rfl
  constructor
  case net   => exact inv.net.step hs
  case entry => exact fun t fd e he => inv.call_entry hk ok hs he
  case events => exact inv.events_mono hs rfl hd
  case idle => simpa [passDone, hp] using inv.idle
  case clearing =>
    intro t e es hpc
    have ⟨hl, hr⟩ := inv.clearing t e es hpc
    have ⟨lt, _, _⟩ := inv.head hpc
    refine ⟨hl, fun t' fd e' he' ptr => ?_⟩
    cases hs
    by_cases find : s.net.reg.findIoJob c.fd = some e.ptr
    case pos =>
      have hc : takesLock c = false := by
        by_contra hc
        exact unblocked ⟨by simpa using hc, e.ptr, find, hl⟩
      have ⟨epfd, bits⟩ := call_lockfree (k := k) hc find
      rw [epfd] at he'
      simpa [IoJob.ioEventRead, bits] using hr t' fd e' he' ptr
    case neg =>
      rw [call_job lt find]
      cases s.net.reg.exec_entry hk he'
      case inl h => exact hr t' fd e' h ptr
      case inr h =>
        cases h
        case inl h => exact absurd (ptr ▸ h.2) (Nat.ne_of_lt lt)
        case inr h => exact absurd (ptr ▸ h) find
  case listen =>
    intro d hm
    have mono (i : JobId) (lt : i < s.net.reg.next) := Net.step_owner hs lt
    cases hs
    cases List.mem_append.mp hm
    case inl hm =>
      have ⟨lt, hf⟩ := inv.listen d hm
      have ⟨owner, next⟩ := mono _ lt
      exact ⟨Nat.lt_of_lt_of_le lt next, owner.fd.trans hf⟩
    case inr hm =>
      cases c <;> simp only [Net.callListenDels, List.not_mem_nil] at hm
      case delListen =>
        have ⟨i, find, hd⟩ := List.mem_map.mp hm
        simp only [Option.mem_toList] at find
        have ⟨mem, hfd, _⟩ := Registry.findIoJob_some find
        have lt := inv.net.lt_next (.inl mem)
        have ⟨owner, next⟩ := mono _ lt
        subst hd
        exact ⟨Nat.lt_of_lt_of_le lt next, owner.fd.trans hfd⟩

-- A step that changes no job and adds no entry.
theorem fewer (inv : s.Inv) (net : s'.net.Inv) (job : s'.net.reg.job = s.net.reg.job)
    (next : s'.net.reg.next = s.net.reg.next) (deleted : s'.net.deleted = s.net.deleted)
    (pc : s'.pc = s.pc) (locked : s'.locked = s.locked)
    (epfd : ∀ t fd e, s'.net.reg.epfd t fd = some e → s.net.reg.epfd t fd = some e)
    (stale : ∀ t fd e, s'.net.reg.epfd t fd = some e → (s.net.reg.job e.ptr).thrdIndex = t →
      (s.net.reg.job e.ptr).fd = fd → e.ptr ∈ s.stale → e.ptr ∈ s'.stale)
    (idle : ∀ t, s.passDone t → s'.passDone t)
    (listen : ∀ d ∈ s'.net.listenDels, d ∈ s.net.listenDels) : s'.Inv where
  net := net
  entry t fd e h := by
    have he := inv.entry t fd e (epfd t fd e h)
    exact he.same (Nat.le_of_eq next.symm) (by rw [job]) deleted
      (stale t fd e h he.thrdIndex he.fd)
  events := by simpa [pc, job, next, deleted] using inv.events
  clearing t e es hpc := by
    have ⟨hl, hr⟩ := inv.clearing t e es (pc ▸ hpc)
    exact ⟨locked ▸ hl, fun t' fd e' h ptr => job ▸ hr t' fd e' (epfd t' fd e' h) ptr⟩
  idle t hpc := idle t <| inv.idle t (pc ▸ hpc)
  listen d hm := by simpa [job, next] using inv.listen d (listen d hm)

theorem listenCtl {n : Nat} (inv : s.Inv) (h : s.step (.listenCtl n k) = some s') : s'.Inv := by
  have ⟨hk, h⟩ := Option.ite_none_left_eq_some.mp h
  have ⟨net, hs, h⟩ := Option.map_eq_some_iff.mp h
  subst h
  have hi := inv.net.step hs
  have ⟨d, hd, hs⟩ := Option.map_eq_some_iff.mp hs
  subst hs
  rw [Registry.delListenCtl_eq (by simpa using hk)] at hi ⊢
  have ⟨lt, hf⟩ := inv.listen d (List.mem_of_getElem? hd)
  refine inv.fewer hi rfl rfl rfl rfl rfl (fun t fd e he => ?_) (fun t fd e he ht hfd hm => ?_)
    (fun t => id) fun d hd => List.mem_of_mem_eraseIdx hd
  all_goals rw [Registry.setEntry_epfd] at he
  case refine_1 =>
    split at he
    case isTrue  => contradiction
    case isFalse => exact he
  case refine_2 =>
    simp only [listenStale, hd]
    split
    case isFalse => exact hm
    case isTrue hz =>
      refine List.mem_filter.mpr ⟨hm, ?_⟩
      split at he
      case isTrue => contradiction
      case isFalse hn =>
        simp only [decide_eq_true_eq]
        intro ptr
        rw [ptr] at ht hfd
        exact hn ⟨ht.symm.trans hz, hfd.symm.trans hf⟩

theorem close {fd : Fd} (inv : s.Inv) (h : s.step (.close fd) = some s') : s'.Inv := by
  have hi : Net.Inv { s.net with reg := s.net.reg.closeFd fd } := inv.net.step (a := .close fd) rfl
  cases h
  refine inv.fewer hi rfl rfl rfl rfl rfl (fun t fd' e he => ?_) (fun t fd' e he ht hfd hm => ?_)
    (fun t => id) fun d => id
  all_goals
    have hn : fd' ≠ fd := fun hn => by simp [hn, Registry.closeFd] at he
    simp only [Registry.closeFd, Function.update_of_ne hn] at he
  case refine_1 => exact he
  case refine_2 => exact List.mem_filter.mpr ⟨hm, by simpa [hfd] using hn⟩

theorem passDone_set {n : Nat} {p q : Pass} {deleted : List JobId} {log : List JobEvent}
    (hp : s.net.passes[n]? = some p) (ht : q.thrdIndex = p.thrdIndex)
    (busy : ¬(p.current = none ∧ p.deletedJob = [])) (h : s.passDone t) :
    passDone { s with net := { s.net with
      passes  := s.net.passes.set n q
      deleted := deleted
      log     := log } } t := by
  intro q' hq' hq
  cases List.mem_or_eq_of_mem_set hq'
  case inl hm => exact h q' hm hq
  case inr he =>
    subst he
    exact absurd (h p (List.mem_of_getElem? hp) (ht ▸ hq)) busy

theorem freeCallback {n : Nat} (inv : s.Inv) (h : s.step (.freeCallback n) = some s') : s'.Inv := by
  have ⟨net, hs, h⟩ := Option.map_eq_some_iff.mp h
  subst h
  have hi := inv.net.step hs
  simp only [Net.step] at hs
  split at hs <;> cases hs
  case h_1 hp =>
    exact inv.fewer hi rfl rfl rfl rfl rfl (fun _ _ _ => id) (fun _ _ _ _ _ _ => id)
      (fun t hd => passDone_set hp rfl (by simp) hd) fun _ => id

theorem delete {n : Nat} (inv : s.Inv) (ok : s.Orderly (.delete n))
    (h : s.step (.delete n) = some s') : s'.Inv := by
  obtain ⟨net, hs, h⟩ := Option.map_eq_some_iff.mp h
  subst h
  have hi := inv.net.step hs
  simp only [Net.step] at hs
  split at hs <;> cases hs
  case h_1 t i is hp =>
    have hm := List.mem_of_getElem? hp
    obtain ⟨ht, hd⟩ := inv.net.pass _ hm i (.inl rfl)
    have hst := ok _ hp i rfl
    constructor
    case net => exact hi
    case entry =>
      intro t' fd e he
      have he := inv.entry t' fd e he
      refine he.mono ⟨.refl _, Nat.le_refl _⟩ ?_ he.nonzero he.stale
      simp only [List.mem_append, List.mem_singleton, not_or]
      exact ⟨he.kept, fun hi => hst <| hi ▸ he.stale (hi ▸ hd)⟩
    case events =>
      intro t' e he
      obtain ⟨h₁, h₂, h₃⟩ := inv.events t' e he
      refine ⟨h₁, h₂, ?_⟩
      simp only [List.mem_append, List.mem_singleton, not_or]
      refine ⟨h₃, fun hi => ?_⟩
      -- The loop is at work on its events, so that its pass is over.
      have hpc : s.pc t' ≠ .swept := fun hpc => by simp [hpc, LoopPc.events] at he
      have := (inv.idle t' hpc _ hm (ht.symm.trans <| hi ▸ h₂)).1
      contradiction
    case clearing => exact inv.clearing
    case idle => exact fun t' hpc => passDone_set hp rfl (by simp) (inv.idle t' hpc)
    case listen => exact inv.listen

theorem sweep {t : Nat} (inv : s.Inv) (h : s.step (.sweep t) = some s') : s'.Inv := by
  have ⟨hpc, h⟩ := Option.ite_none_right_eq_some.mp h
  have ⟨net, hs, h⟩ := Option.map_eq_some_iff.mp h
  subst h
  have hi := inv.net.step hs
  simp only [Net.step, Registry.handleDelingJob_eq, Option.some.injEq] at hs
  subst hs
  have pc_ne (t' : Nat) (hn : t' ≠ t) : Function.update s.pc t .swept t' = s.pc t' := by simp [hn]
  constructor
  case net   => exact hi
  case entry => exact fun t fd e he => (inv.entry t fd e he).same (Nat.le_refl _) rfl rfl id
  case events =>
    intro t' e he
    by_cases hn : t' = t
    case pos => simp [hn, LoopPc.events] at he
    case neg => exact inv.events t' e <| by simpa [pc_ne t' hn] using he
  case clearing =>
    intro t' e es hpc'
    by_cases hn : t' = t
    case pos => simp [hn] at hpc'
    case neg => exact inv.clearing t' e es <| by simpa [pc_ne t' hn] using hpc'
  case idle =>
    intro t' hpc' p hp ht
    by_cases hn : t' = t
    case pos => simp [hn] at hpc'
    case neg =>
      cases List.mem_append.mp hp
      case inl hp => exact inv.idle t' (by simpa [pc_ne t' hn] using hpc') p hp ht
      case inr hp =>
        cases List.mem_singleton.mp hp
        exact absurd ht.symm hn
  case listen => exact inv.listen

-- A loop goes on to `pc` and changes nothing else.
theorem goto {pc : LoopPc} (inv : s.Inv)
    (events : ∀ e ∈ pc.events, e.ptr < s.net.reg.next ∧ (s.net.reg.job e.ptr).thrdIndex = t ∧
      e.ptr ∉ s.net.deleted)
    (clearing : ∀ e es, pc ≠ .dispatch (e :: es) .clearing) (idle : s.passDone t) :
    Inv { s with pc := Function.update s.pc t pc } where
  net   := inv.net
  entry := fun t fd e he => (inv.entry t fd e he).same (Nat.le_refl _) rfl rfl id
  events t' e he := by
    by_cases hn : t' = t
    case pos => subst hn; exact events e <| by simpa using he
    case neg => exact inv.events t' e <| by simpa [hn] using he
  clearing t' e es hpc := by
    by_cases hn : t' = t
    case pos => subst hn; exact absurd (by simpa using hpc) (clearing e es)
    case neg => exact inv.clearing t' e es <| by simpa [hn] using hpc
  idle t' hpc := by
    by_cases hn : t' = t
    case pos => exact hn ▸ idle
    case neg => exact inv.idle t' <| by simpa [hn] using hpc
  listen := inv.listen

theorem wait {ready : List (Fd × Bool × Bool)} (inv : s.Inv)
    (h : s.step (.wait t ready) = some s') : s'.Inv := by
  have ⟨⟨_, idle⟩, h⟩ := Option.ite_none_right_eq_some.mp h
  have ⟨es, hs, h⟩ := Option.map_eq_some_iff.mp h
  subst h
  refine inv.goto (fun e he => ?_) (fun _ _ => nofun) idle
  have ⟨rd, _, hrd⟩ := exists_of_mem_mapM hs he
  have ⟨e', he', hrd⟩ := Option.bind_eq_some_iff.mp hrd
  have ⟨_, hrd⟩ := Option.ite_none_right_eq_some.mp hrd
  cases hrd
  have := inv.entry t rd.1 e' he'
  exact ⟨this.lt, this.thrdIndex, this.kept⟩

-- `del_io_writing_evt` for the job at hand, in which the worker gets the lock of the job.
theorem writing {e : EpollEvent} {es : List EpollEvent} (inv : s.Inv) (hk : k.refuseDel = false)
    (hpc : s.pc t = .dispatch (e :: es) .writing) (ok : s.Orderly (.work t k))
    (h : s.handle t k e es .writing = some s') : s'.Inv := by
  obtain ⟨_, h⟩ := Option.ite_none_left_eq_some.mp h
  obtain ⟨net, hs, h⟩ := Option.map_eq_some_iff.mp h
  subst h
  have hi := inv.net.step hs
  obtain ⟨lt, ht, kept⟩ := inv.head hpc
  obtain ⟨hj, hn, _⟩ := s.net.reg.delIoWritingEvt_frame k e.ptr
  simp only [Orderly, hpc] at ok
  simp only [Net.step] at hs
  split at hs <;> cases hs
  constructor
  case net => exact hi
  case entry =>
    intro t' fd e' he
    cases s.net.reg.delIoWritingEvt_entry hk he
    case inl h =>
      exact (inv.entry t' fd e' h.1).same (Nat.le_of_eq hn.symm) (by simp [hj]) rfl id
    case inr h =>
      obtain ⟨hr, ht', hf, ptr, present⟩ := h
      subst hf
      have own : s.EntryOk t' (s.net.reg.job e.ptr).fd e.ptr := by
        refine ⟨lt, ht'.symm, rfl, kept, NowEvent.ne_zero_iff.mpr (.inl hr), fun hm => ?_⟩
        obtain ⟨e₀, he₀⟩ := Option.isSome_iff_exists.mp present
        have := inv.entry _ _ e₀ he₀
        rw [ht', ht] at he₀
        rw [ok hm hr e₀ he₀] at this
        exact this.stale hm
      rw [ptr]
      exact own.same (Nat.le_of_eq hn.symm) (by simp [hj]) rfl id
  case events =>
    intro t' e' he
    simp only [hj, hn]
    by_cases ht' : t' = t
    case pos =>
      subst ht'
      refine inv.events t' e' ?_
      simpa [hpc, LoopPc.events] using he
    case neg => exact inv.events t' e' <| by simpa [ht'] using he
  case clearing =>
    intro t' e' es' hpc'
    simp only [hj]
    by_cases ht' : t' = t
    case pos =>
      subst ht'
      simp only [Function.update_self, LoopPc.dispatch.injEq, List.cons.injEq, and_true] at hpc'
      obtain ⟨hee, _⟩ := hpc'
      subst hee
      refine ⟨List.mem_cons_self, fun t'' fd e'' he ptr => ?_⟩
      cases s.net.reg.delIoWritingEvt_entry hk he
      case inr h => exact h.1
      case inl h =>
        have := inv.entry t'' fd e'' h.1
        rw [ptr] at this
        exact h.2.resolve_right fun hne => hne.elim (· this.thrdIndex.symm) (· this.fd.symm)
    case neg =>
      have hpc' : s.pc t' = .dispatch (e' :: es') .clearing := by simpa [ht'] using hpc'
      obtain ⟨hl, hr⟩ := inv.clearing t' e' es' hpc'
      obtain ⟨_, ht'', _⟩ := inv.head hpc'
      refine ⟨List.mem_cons_of_mem _ hl, fun t'' fd e'' he ptr => ?_⟩
      cases s.net.reg.delIoWritingEvt_entry hk he
      case inl h => exact hr t'' fd e'' h.1 ptr
      case inr h =>
        have : e'.ptr = e.ptr := ptr.symm.trans h.2.2.2.1
        rw [this, ht] at ht''
        exact absurd ht''.symm ht'
  case idle =>
    intro t' hpc'
    by_cases ht' : t' = t
    case pos => exact ht' ▸ inv.idle t (by simp [hpc])
    case neg => exact inv.idle t' <| by simpa [ht'] using hpc'
  case listen => simpa [hj, hn] using inv.listen

-- The write bit is cleared, and the lock of the job released.
theorem written {e : EpollEvent} {es : List EpollEvent} (inv : s.Inv)
    (hpc : s.pc t = .dispatch (e :: es) .clearing)
    (h : s.handle t k e es .clearing = some s') : s'.Inv := by
  obtain ⟨net, hs, h⟩ := Option.map_eq_some_iff.mp h
  subst h
  have hi := inv.net.step hs
  obtain ⟨_, ht, _⟩ := inv.head hpc
  obtain ⟨_, hr⟩ := inv.clearing t e es hpc
  have mono (i : JobId) (lt : i < s.net.reg.next) := Net.step_owner hs lt
  simp only [Net.step] at hs
  split at hs <;> cases hs
  constructor
  case net => exact hi
  case entry =>
    intro t' fd e' he
    have own := inv.entry t' fd e' he
    by_cases ptr : e'.ptr = e.ptr
    case neg => exact own.same (Nat.le_refl _) (by simp [ptr]) rfl id
    case pos =>
      have hr := hr t' fd e' he ptr
      rw [ptr] at own ⊢
      refine own.mono (mono _ own.lt) own.kept ?_ ?_
      case refine_1 =>
        simpa [NowEvent.ne_zero_iff, IoJob.delWriteIoEvent, IoJob.ioEventRead] using hr
      case refine_2 =>
        simpa [IoJob.delWriteIoEvent] using own.stale
  case events =>
    intro t' e' he
    have he : e' ∈ (s.pc t').events := by
      by_cases ht' : t' = t
      case pos => subst ht'; simpa [hpc, LoopPc.events] using he
      case neg => simpa [ht'] using he
    obtain ⟨h₁, h₂, h₃⟩ := inv.events t' e' he
    exact ⟨h₁, (mono _ h₁).1.thrdIndex.trans h₂, h₃⟩
  case clearing =>
    intro t' e' es' hpc'
    by_cases ht' : t' = t
    case pos => subst ht'; simp at hpc'
    case neg =>
      have hpc' : s.pc t' = .dispatch (e' :: es') .clearing := by simpa [ht'] using hpc'
      obtain ⟨hl, hr⟩ := inv.clearing t' e' es' hpc'
      obtain ⟨_, ht'', _⟩ := inv.head hpc'
      have hn : e'.ptr ≠ e.ptr := fun hn => ht' <| by rw [← ht'', hn, ht]
      refine ⟨List.mem_filter.mpr ⟨hl, by simpa using hn⟩, ?_⟩
      simpa [hn] using hr
  case idle =>
    intro t' hpc'
    by_cases ht' : t' = t
    case pos => exact ht' ▸ inv.idle t (by simp [hpc])
    case neg => exact inv.idle t' <| by simpa [ht'] using hpc'
  case listen =>
    intro d hd
    obtain ⟨lt, hf⟩ := inv.listen d hd
    exact ⟨lt, (mono _ lt).1.fd.trans hf⟩

theorem work (inv : s.Inv) (ok : s.Orderly (.work t k)) (h : s.step (.work t k) = some s') :
    s'.Inv := by
  have ⟨hk, h⟩ := Option.ite_none_left_eq_some.mp h
  split at h
  case h_3 | h_4 => contradiction
  case h_2 hpc =>
    cases h
    exact inv.goto nofun (fun _ _ => nofun) (inv.idle t <| by simp [hpc])
  case h_1 e es stage hpc =>
    have idle := inv.idle t (by simp [hpc])
    have events := inv.events t
    rw [hpc] at events
    cases stage
    case reading => cases h; exact inv.goto events (fun _ _ => nofun) idle
    case testing =>
      simp only [handle] at h
      split at h <;> cases h <;> exact inv.goto events (fun _ _ => nofun) idle
    case writing  => exact inv.writing (by simpa using hk) hpc ok h
    case clearing => exact inv.written hpc h
    case hup =>
      cases h
      exact inv.goto (fun e' he => events e' <| List.mem_cons_of_mem _ he) (fun _ _ => nofun) idle

theorem step {a : Act} (inv : s.Inv) (ok : s.Orderly a) (h : s.step a = some s') : s'.Inv := by
  cases a
  case call         => exact inv.call ok h
  case listenCtl    => exact inv.listenCtl h
  case close        => exact inv.close h
  case sweep        => exact inv.sweep h
  case freeCallback => exact inv.freeCallback h
  case delete       => exact inv.delete ok h
  case wait         => exact inv.wait h
  case work         => exact inv.work ok h

theorem start (n : Nat) : (Loop.start n).Inv where
  net        := Net.Inv.start n
  entry      := nofun
  events _   := nofun
  clearing _ := nofun
  idle _ _   := nofun
  listen     := nofun

theorem of_reach (h : (loop n).Reach Orderly s) : s.Inv := by
  refine h.invariant ?_ fun _ _ _ inv ok hs => inv.step ok hs
  rintro _ rfl
  exact start n

end Inv

-- No entry of an epoll instance and no event that a loop still has to dispatch points to a deleted
-- job, and the entries of an instance point to jobs of its thread.
structure Sound (s : Loop) : Prop where
  entry  : ∀ t fd e, s.net.reg.epfd t fd = some e →
    e.ptr ∉ s.net.deleted ∧ (s.net.reg.job e.ptr).thrdIndex = t
  events : ∀ t, ∀ e ∈ (s.pc t).events, e.ptr ∉ s.net.deleted

theorem Inv.sound (inv : s.Inv) : s.Sound where
  entry t fd e h  := have he := inv.entry t fd e h; ⟨he.kept, he.thrdIndex⟩
  events t e he   := (inv.events t e he).2.2

theorem no_event_reaches_deleted (h : (loop n).Reach Orderly s) : s.Sound :=
  (Inv.of_reach h).sound

instance : DecidablePred s.Orderly
  | .call _ _ => inferInstanceAs (Decidable (∀ i ∈ _, ∀ t ∈ _, _ → _ → _ → _))
  | .delete _ => inferInstanceAs (Decidable (∀ p ∈ _, ∀ i ∈ _, _))
  | .work t k => by
    unfold Orderly
    dsimp only
    split <;> infer_instance
  | .listenCtl .. | .close _ | .sweep _ | .freeCallback _ | .wait .. => .isTrue trivial

theorem no_event_reaches_deleted_listen :
    ∃ s, (loop 1).Reach Orderly s ∧ (s.net.deleted = [0] ∧ (s.pc 0).events ≠ []) ∧ s.Sound := by
  have ⟨s, hr, hs⟩ : ∃ s, (loop 1).Reach Orderly s ∧ s.net.deleted = [0] ∧ (s.pc 0).events ≠ [] :=
    System.Reach.exists_of_run [
        .call (.addListen (.app 0) 3 0) .plain,
        .call (.addWrite (.app 1) 4 0 0 true) .plain,
        .call (.delListen 3 (.app 2)) .plain,
        .listenCtl 0 .plain,
        .sweep 0,
        .freeCallback 0,
        .delete 0,
        .wait 0 [(4, false, true)],
        .work 0 .plain,
        .work 0 .plain,
        .work 0 .plain,
        .work 0 .plain]
      _ rfl (by decide)
  exact ⟨s, hr, hs, no_event_reaches_deleted hr⟩

-- The pass of the worker comes between the two steps of `del_listen_job`.
theorem not_no_event_reaches_deleted :
    ¬∀ n s, (loop n).Reachable s → s.Sound := by
  intro h
  have ⟨s, hr, he, hd⟩ : ∃ s, (loop 1).Reachable s ∧
      s.net.reg.epfd 0 3 = some ⟨⟨true, false, true⟩, 0⟩ ∧ 0 ∈ s.net.deleted :=
    System.exists_of_run [
        .call (.addListen (.app 0) 3 0) .plain,
        .call (.delListen 3 (.app 2)) .plain,
        .sweep 0,
        .freeCallback 0,
        .delete 0]
      _ rfl (by decide)
  exact ((h 1 s hr).entry 0 3 _ he).1 hd

end Loop
end NetPool
