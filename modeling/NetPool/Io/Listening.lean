import NetPool.Io.Pointers
import NetPool.Io.Serving

namespace NetPool

-- The jobs that the loop has at hand or is still going to visit.
def Dispatch.jobs : Dispatch → List JobId
  | epollin es    => es.map (·.ptr)
  | epollout e es => e.ptr :: es.map (·.ptr)
  | walk _        => []
  | rset i _ | readEset i _ | wset i _ | writeEset i _ => [i]

def ServePc.jobs : ServePc → List JobId
  | outside | freeing _                         => []
  | dispatch d                                  => d.jobs
  | reading i d | readFunc i _ d | writeFunc i d => i :: d.jobs

def Call.isListen : Call → Bool
  | addListen .. | delListen ..                          => true
  | addRead .. | addWrite .. | delRead .. | delWrite .. => false

namespace Registry

variable {r r' : Registry} {k : Kernel} {c : Call} {i : JobId} {t : Nat} {fd : Fd} {e : EpollEntry}

-- The calls for connections are not used on a descriptor that is listened on.
def Apart (r : Registry) (c : Call) : Prop :=
  ∀ i ∈ r.findIoJob c.fd, (r.job i).kind = .listen → c.isListen = true

-- An entry may point to the listening job `i`.
structure ListenEntry (r : Registry) (t : Nat) (fd : Fd) (i : JobId) : Prop where
  mem    : i ∈ r.ioJobs
  live   : (r.job i).isWantDelete = false
  thread : t = 0
  fd     : (r.job i).fd = fd

structure ListensOk (r : Registry) : Prop where
  listed : ∀ i ∈ r.ioJobs, i < r.next
  lt     : ∀ t fd e, r.epfd t fd = some e → e.ptr < r.next
  entry  : ∀ t fd e, r.epfd t fd = some e → (r.job e.ptr).kind = .listen →
    r.ListenEntry t fd e.ptr

section Calls

theorem callWhole_missed (find : r.findIoJob c.fd = none) : r.callWhole k c = r.exec k c := by
  cases c
  case delListen fd freeFunc =>
    simp only [Call.fd] at find
    simp [callWhole, exec, delListenJob, find]
  all_goals rfl

-- The calls for listening make no entry for a job that they have found.
theorem callWhole_listen_entry (hk : k.refuseDel = false) (hc : c.isListen = true)
    (find : r.findIoJob c.fd = some i) (h : (r.callWhole k c).1.epfd t fd = some e) :
    r.epfd t fd = some e ∧ (c.freeFunc?.isSome → t ≠ 0 ∨ fd ≠ c.fd) := by
  cases c <;> cases hc <;> simp only [Call.fd] at find
  case addListen => simpa [callWhole, exec, addListenJob, find, Call.freeFunc?] using h
  case delListen fd' freeFunc =>
    simp only [callWhole, delListenJob, find, delListenCtl_eq hk] at h
    rw [setEntry_epfd] at h
    split at h
    case isTrue     => contradiction
    case isFalse hn => exact ⟨h, fun _ => by rwa [not_and_or] at hn⟩

theorem callWhole_entry (hk : k.refuseDel = false) (h : (r.callWhole k c).1.epfd t fd = some e) :
    r.epfd t fd = some e ∨ r.findIoJob c.fd = none ∧ e.ptr = r.next ∨
      r.findIoJob c.fd = some e.ptr := by
  cases find : r.findIoJob c.fd
  case none =>
    rw [callWhole_missed find] at h
    simpa [find] using r.exec_entry hk h
  case some i =>
    cases hc : c.isListen
    case true  => exact .inl (callWhole_listen_entry hk hc find h).1
    case false =>
      have same : r.callWhole k c = r.exec k c := by cases c <;> first | rfl | cases hc
      rw [same] at h
      simpa [find] using r.exec_entry hk h

theorem newJob_listen {j : IoJob} (new : r.newJob c = some j) (kind : j.kind = .listen) :
    j.thrdIndex = 0 := by
  cases c <;> cases new
  case addListen => rfl
  case addRead _ _ _ _ _ isTcp | addWrite _ _ _ _ isTcp => cases isTcp <;> cases kind

-- An entry that a call makes without having found a job points to the job that it has made.
theorem missed_new (hk : k.refuseDel = false) (find : r.findIoJob c.fd = none)
    (h : (r.callWhole k c).1.epfd t fd = some e) (old : r.epfd t fd ≠ some e) :
    e.ptr < (r.callWhole k c).1.next ∧ (((r.callWhole k c).1.job e.ptr).kind = .listen →
      (r.callWhole k c).1.ListenEntry t fd e.ptr) := by
  have ptr : e.ptr = r.next := by
    obtain h | h | h := callWhole_entry hk h
    case inl     => exact absurd h old
    case inr.inl => exact h.2
    case inr.inr => cases find.symm.trans h
  have new := h
  rw [callWhole_missed find] at new
  have ⟨next, thread, hf, _, live⟩ := r.exec_entry_new find new old
  rw [← callWhole_missed find] at next thread hf live
  rw [ptr]
  refine ⟨next ▸ Nat.lt_succ_self _, fun hl => ?_⟩
  cases r.callWhole_outcome (k := k) (c := c)
  case keep _ _ _ next' _ => exact absurd (next.symm.trans next') (Nat.succ_ne_self _)
  case change find' _     => cases find.symm.trans find'
  case make j _ new _ job _ ioJobs =>
    refine ⟨ioJobs ▸ List.mem_append_right _ List.mem_cons_self, live, ?_, hf⟩
    rw [job, Function.update_self] at hl thread
    exact thread.symm.trans (newJob_listen new hl)

-- A call that finds no job leaves the jobs that are there alone.
theorem Outcome.missed_kept {ret : Bool} (h : r.Outcome c r' ret) (find : r.findIoJob c.fd = none)
    (hi : i < r.next) : r'.job i = r.job i ∧ (i ∈ r.ioJobs → i ∈ r'.ioJobs) := by
  cases h
  case keep _ _ job _ ioJobs    => exact ⟨congrFun job i, fun hi => ioJobs ▸ hi⟩
  case change find' _           => cases find.symm.trans find'
  case make _ _ _ job _ ioJobs  =>
    rw [job, Function.update_of_ne (Nat.ne_of_lt hi)]
    exact ⟨rfl, fun hi => ioJobs ▸ List.mem_append_left _ hi⟩

end Calls

namespace ListensOk

-- A step that leaves the jobs alone, or changes one in what the entries do not depend on.
theorem mono (ok : r.ListensOk) (grown : r.Grown r')
    (kept : ∀ t fd e, r'.epfd t fd = some e → (r.job e.ptr).kind = .listen →
      r.ListenEntry t fd e.ptr → e.ptr ∈ r'.ioJobs ∧ (r'.job e.ptr).isWantDelete = false)
    (entry : ∀ t fd e, r'.epfd t fd = some e →
      r.epfd t fd = some e ∨ e.ptr < r.next ∧ (r.job e.ptr).kind ≠ .listen) : r'.ListensOk where
  listed := Serving.listed_grown ok.listed grown
  lt t fd e h := by
    cases entry t fd e h
    case inl h => exact Nat.lt_of_lt_of_le (ok.lt t fd e h) grown.next
    case inr h => exact Nat.lt_of_lt_of_le h.1 grown.next
  entry t fd e h hl := by
    cases entry t fd e h
    case inl h' =>
      have owner := grown.owner e.ptr (ok.lt t fd e h')
      have old := ok.entry t fd e h' (owner.kind ▸ hl)
      obtain ⟨mem, live⟩ := kept t fd e h (owner.kind ▸ hl) old
      exact ⟨mem, live, old.thread, owner.fd.trans old.fd⟩
    case inr h => exact absurd ((grown.owner e.ptr h.1).kind ▸ hl) h.2

theorem found (ok : r.ListensOk) (hk : k.refuseDel = false) (apart : r.Apart c)
    (find : r.findIoJob c.fd = some i) : (r.callWhole k c).1.ListensOk := by
  have grown : r.Grown (r.callWhole k c).1 := r.callWhole_outcome.grown
  have ⟨mem, hf, live⟩ := findIoJob_some find
  refine ok.mono grown (fun t fd e h kind old => ?_) fun t fd e h => ?_
  case refine_1 =>
    cases r.callWhole_outcome (k := k) (c := c)
    case keep _ _ job _ ioJobs => exact ⟨ioJobs ▸ old.mem, job ▸ old.live⟩
    case make find' _ _ _ _ _  => cases find.symm.trans find'
    case change i' find' only  =>
      cases find.symm.trans find'
      refine ⟨only.ioJobs ▸ old.mem, ?_⟩
      by_cases hi : e.ptr = i
      case neg => rw [only.ne hi]; exact old.live
      case pos =>
        have hc := apart i find (hi ▸ kind)
        have away := (callWhole_listen_entry hk hc find h).2
        rw [hi, only.self]
        cases c <;> cases hc
        case addListen => exact live
        case delListen =>
          exact absurd ⟨old.thread, old.fd.symm.trans (hi ▸ hf)⟩ (not_and_or.mpr (away rfl))
  case refine_2 =>
    obtain h' | h' | h' := callWhole_entry hk h
    case inl           => exact .inl h'
    case inr.inl       => cases find.symm.trans h'.1
    case inr.inr =>
      cases find.symm.trans h'
      by_cases hl : (r.job e.ptr).kind = .listen
      case pos => exact .inl (callWhole_listen_entry hk (apart _ find hl) find h).1
      case neg => exact .inr ⟨ok.listed _ mem, hl⟩

theorem missed (ok : r.ListensOk) (hk : k.refuseDel = false) (find : r.findIoJob c.fd = none) :
    (r.callWhole k c).1.ListensOk := by
  have grown : r.Grown (r.callWhole k c).1 := r.callWhole_outcome.grown
  refine ⟨Serving.listed_grown ok.listed grown, fun t fd e h => ?_, fun t fd e h hl => ?_⟩
  case refine_1 =>
    by_cases old : r.epfd t fd = some e
    case pos => exact Nat.lt_of_lt_of_le (ok.lt t fd e old) grown.next
    case neg => exact (missed_new hk find h old).1
  case refine_2 =>
    by_cases old : r.epfd t fd = some e
    case neg => exact (missed_new hk find h old).2 hl
    case pos =>
      have outcome : r.Outcome c (r.callWhole k c).1 _ := r.callWhole_outcome
      obtain ⟨job, listed⟩ := outcome.missed_kept find (ok.lt t fd e old)
      rw [job] at hl
      obtain ⟨mem, live, thread, hf⟩ := ok.entry t fd e old hl
      exact ⟨listed mem, job ▸ live, thread, job ▸ hf⟩

theorem call (ok : r.ListensOk) (hk : k.refuseDel = false) (apart : r.Apart c) :
    (r.callWhole k c).1.ListensOk := by
  cases find : r.findIoJob c.fd
  case none => exact ok.missed hk find
  case some => exact ok.found hk apart find

theorem sweep (ok : r.ListensOk) : (r.handleDelingJob t).1.ListensOk := by
  rw [handleDelingJob_eq]
  refine ok.mono (.of_job rfl rfl List.filter_sublist.subset) (fun _ _ _ _ _ old => ?_)
    fun _ _ _ h => .inl h
  exact ⟨List.mem_filter.mpr ⟨old.mem, by simp [Dead, old.live]⟩, old.live⟩

theorem closeFd (ok : r.ListensOk) : (r.closeFd fd).ListensOk := by
  refine ok.mono (.of_job rfl rfl (List.Subset.refl _))
    (fun _ _ _ _ _ old => ⟨old.mem, old.live⟩) fun t fd' e h => .inl ?_
  by_cases hf : fd' = fd
  case pos => simp [Registry.closeFd, hf] at h
  case neg => simpa [Registry.closeFd, hf] using h

theorem writeEvt {os : Os} (ok : r.ListensOk) (hk : k.refuseDel = false) (hi : i < r.next)
    (hl : (r.job i).kind ≠ .listen) (live : (r.job i).isWantDelete = false) :
    (os.writeEvtHandle r k i).ListensOk := by
  have only := os.writeEvtHandle_found (k := k) hl live
  have grown : r.Grown (os.writeEvtHandle r k i) := only.grown ⟨rfl, rfl, rfl, rfl⟩ id
  refine ok.mono grown (fun _ _ _ _ kind old => ⟨only.ioJobs ▸ old.mem, ?_⟩) fun t fd e h => ?_
  case refine_1 =>
    rw [only.ne fun h => hl (h ▸ kind)]
    exact old.live
  case refine_2 =>
    cases os
    case linux =>
      have eq : Os.linux.writeEvtHandle r k i = _ := writeEvtHandle_eq hl live
      rw [eq] at h
      obtain h | h := delIoWritingEvt_entry hk h
      case inl => exact .inl h.1
      case inr => exact .inr (h.2.2.2.1 ▸ ⟨hi, hl⟩)
    case windows =>
      have eq : Os.windows.writeEvtHandle r k i = _ := writeEvtHandleWin_eq hl live
      rw [eq] at h
      exact .inl h

end ListensOk

theorem callWin_epfd : (r.callWin c).1.epfd = r.epfd := by
  have pick {r : Registry} {t : Nat} : (r.pickThrdIndex t).1.epfd = r.epfd :=
    pickThrdIndex_frame.2.2.2
  cases c
  case addListen => simp only [callWin, addListenJobWin]; split <;> rfl
  case delListen => simp only [callWin, delListenJobWin]; split <;> rfl
  case addRead   => simp only [callWin, addReadJobWin]; split <;> simp [addIoJob, pick, modify]
  case addWrite =>
    simp only [callWin, addWriteJobWin]
    split
    case h_1 => simp [addIoJob, pick]
    case h_2 => split <;> rfl
  case delRead =>
    simp only [callWin, delReadJobWin]
    split
    case h_1 => rfl
    case h_2 => dsimp only; split <;> rfl
  case delWrite =>
    simp only [callWin, delWriteJobWin]
    split
    case h_1 => rfl
    case h_2 => dsimp only; split <;> rfl

-- There are no entries in the build for Windows.
def NoEntry (r : Registry) : Prop :=
  ∀ t fd, r.epfd t fd = none

theorem NoEntry.listensOk (h : r.NoEntry) (listed : ∀ i ∈ r.ioJobs, i < r.next) : r.ListensOk where
  listed := listed
  lt t fd e he      := by simp [h t fd] at he
  entry t fd e he _ := by simp [h t fd] at he

end Registry
namespace Serving

variable {os : Os} {n t : Nat} {s s' : Serving} {k : Kernel} {i : JobId} {d : Dispatch} {a : Act}

-- The condition on a step: the calls for connections are not used on a descriptor that is listened
-- on, and `epoll_ctl` does not refuse to remove an entry.
def Apart (s : Serving) : Act → Prop
  | .call c k => k.refuseDel = false ∧ s.reg.Apart c
  | .go k     => k.refuseDel = false
  | .close _ | .sweep | .wait _ | .select _ | .recv .. | .accept _ | .ret => True

-- A listening job that the worker has at hand has not been taken out of the list.
structure Held (os : Os) (s : Serving) : Prop where
  reg     : s.reg.ListensOk
  windows : os = .windows → s.reg.NoEntry
  lt      : ∀ i ∈ s.pc.jobs, i < s.reg.next
  hand    : ∀ i ∈ s.pc.jobs, (s.reg.job i).kind = .listen → i ∈ s.reg.ioJobs

theorem wait_ptr {r : Registry} {ready : List (Fd × Bool × Bool)} {es : List EpollEvent}
    (h : ready.mapM (Loop.epollEvent r t) = some es) :
    ∀ e ∈ es, ∃ fd en, r.epfd t fd = some en ∧ en.ptr = e.ptr := by
  induction ready generalizing es
  case nil => cases h; simp
  case cons rd ready hi =>
    simp only [List.mapM_cons, Option.bind_eq_bind, Option.bind_eq_some_iff] at h
    obtain ⟨e, he, es', hes, h⟩ := h
    cases h
    obtain ⟨en, entry, he⟩ := Option.bind_eq_some_iff.mp he
    obtain ⟨_, he⟩ := Option.ite_none_right_eq_some.mp he
    cases he
    exact List.forall_mem_cons.mpr ⟨⟨rd.1, en, entry, rfl⟩, hi hes⟩

theorem write_jobs : ∀ i' ∈ (s.write os k i d).pc.jobs, i' ∈ i :: d.jobs := by
  unfold Serving.write
  split
  case isTrue  => exact fun i' => List.mem_cons_of_mem _
  case isFalse => exact fun i' => id

theorem nextJob_mem {r : Registry} {m : Nat} {itr : Option Nat} (h : nextJob r m = some (i, itr)) :
    i ∈ r.ioJobs := by
  have ⟨j, hj, h⟩ := Option.map_eq_some_iff.mp h
  cases h
  exact List.mem_of_getElem? hj

-- The loop goes on with the jobs that it has, or with the next one of the list.
theorem dispatch_jobs (s : Serving) (d : Dispatch) :
    ∀ i ∈ (s.dispatch os k d).pc.jobs, i ∈ d.jobs ∨ i ∈ s.reg.ioJobs := by
  intro i
  fun_cases Serving.dispatch <;> intro hi
  case case9 next _ _ | case10 next _ _ =>
    exact .inr (List.mem_singleton.mp hi ▸ nextJob_mem next)
  case case4 | case15 | case16 | case19 =>
    exact .inl (by simpa [Dispatch.jobs] using write_jobs i hi)
  all_goals exact .inl (by simp_all [goto, ServePc.jobs, Dispatch.jobs])

-- The worker gets to a job that it had not at hand only by an entry or by the list.
theorem step_jobs (h : s.step os t a = some s') : ∀ i ∈ s'.pc.jobs, i ∈ s.pc.jobs ∨
    i ∈ s.reg.ioJobs ∨ ∃ fd e, s.reg.epfd t fd = some e ∧ e.ptr = i := by
  intro i hi
  cases step_cases h
  case call | close => exact .inl hi
  case sweep        => cases hi
  case wait ready es _ _ _ hs =>
    obtain ⟨e, he, ptr⟩ := List.mem_map.mp hi
    have ⟨fd, en, entry, hp⟩ := wait_ptr hs e he
    exact .inr (.inr ⟨fd, en, entry, hp.trans ptr⟩)
  case select       => cases hi
  case dispatch k d hpc => exact hpc ▸ (s.dispatch_jobs d i hi).imp id .inl
  case halted k i' d hpc => exact .inl (hpc ▸ List.mem_cons_of_mem _ hi)
  case recv v ask _ _ | accept v ask _ _ =>
    rw [(asking_eq_some ask).1]
    cases v
    case again => exact .inl ((asking_eq_some ask).1 ▸ hi)
    case stop  => exact .inl (List.mem_cons_of_mem _ hi)
    all_goals exact .inl hi
  case ret pc hpc =>
    left
    generalize s.pc = pc' at hpc
    cases pc'
    case freeing is => cases is <;> cases hpc; cases hi
    case readFunc i' recvEnd d =>
      cases recvEnd <;> cases hpc
      case false => exact hi
      case true  => exact List.mem_cons_of_mem _ hi
    case writeFunc => cases hpc; exact List.mem_cons_of_mem _ hi
    all_goals cases hpc

-- Only a pass takes jobs out of the list, and the worker has none at hand then.
theorem step_ioJobs (h : s.step os t a = some s') (hi : i ∈ s'.pc.jobs) (mem : i ∈ s.reg.ioJobs) :
    i ∈ s'.reg.ioJobs := by
  cases step_cases h
  case call c k _ =>
    have outcome : s.reg.Outcome c (os.call s.reg k c).1 _ := Os.call_outcome
    change i ∈ (os.call s.reg k c).1.ioJobs
    cases outcome
    case keep _ _ _ _ ioJobs   => exact ioJobs ▸ mem
    case change _ _ only       => exact only.ioJobs ▸ mem
    case make _ _ _ _ _ ioJobs => exact ioJobs ▸ List.mem_append_left _ mem
  case sweep => cases hi
  case dispatch k d hpc =>
    have hd : s.Dispatched os k (s.dispatch os k d) := s.dispatch_cases d
    generalize s.dispatch os k d = s' at hd
    cases hd
    case goto => exact mem
    case write i' d' =>
      unfold Serving.write
      split
      case isTrue    => exact mem
      case isFalse h =>
        rw [not_or, Bool.not_eq_true] at h
        exact (Os.writeEvtHandle_found h.1 h.2).ioJobs ▸ mem
  case recv | accept                       => exact round_reg.symm ▸ mem
  case close | wait | select | halted | ret => exact mem

theorem write_reg (s : Serving) (os : Os) (k : Kernel) (i : JobId) (d : Dispatch) :
    (s.write os k i d).reg = s.reg ∨ (s.write os k i d).pc = .writeFunc i d ∧
      (s.write os k i d).reg = os.writeEvtHandle s.reg k i ∧ (s.reg.job i).kind ≠ .listen ∧
        (s.reg.job i).isWantDelete = false := by
  unfold Serving.write
  split
  case isTrue    => exact .inl rfl
  case isFalse h =>
    rw [not_or, Bool.not_eq_true] at h
    exact .inr ⟨rfl, rfl, h⟩

namespace Held

-- What the worker gets to has been made.
theorem step_lt (inv : s.Held os) (h : s.step os t a = some s') :
    ∀ i ∈ s'.pc.jobs, i < s.reg.next := by
  intro i hi
  obtain hi | hi | ⟨fd, e, entry, ptr⟩ := step_jobs h i hi
  case inl           => exact inv.lt i hi
  case inr.inl       => exact inv.reg.listed i hi
  case inr.inr       => exact ptr ▸ inv.reg.lt t fd e entry

theorem step_hand (inv : s.Held os) (h : s.step os t a = some s') :
    ∀ i ∈ s'.pc.jobs, (s'.reg.job i).kind = .listen → i ∈ s'.reg.ioJobs := by
  intro i hi hl
  rw [((step_grown h).owner i (inv.step_lt h i hi)).kind] at hl
  refine step_ioJobs h hi ?_
  obtain hi | hi | ⟨fd, e, entry, ptr⟩ := step_jobs h i hi
  case inl     => exact inv.hand i hi hl
  case inr.inl => exact hi
  case inr.inr =>
    subst ptr
    exact (inv.reg.entry t fd e entry hl).mem

theorem step_noEntry (inv : s.reg.NoEntry) (h : s.step .windows t a = some s') :
    s'.reg.NoEntry := by
  intro t' fd'
  cases step_cases h
  case call c k _ => exact (congrFun (congrFun s.reg.callWin_epfd t') fd').trans (inv t' fd')
  case close fd hpc =>
    by_cases hf : fd' = fd
    case pos => simp [Registry.closeFd, hf]
    case neg => simpa [Registry.closeFd, hf] using inv t' fd'
  case sweep =>
    rw [Registry.handleDelingJob_eq]
    exact inv t' fd'
  case dispatch k d hpc =>
    have hd : s.Dispatched .windows k (s.dispatch .windows k d) := s.dispatch_cases d
    generalize s.dispatch .windows k d = s' at hd
    cases hd
    case goto => exact inv t' fd'
    case write i' d' =>
      obtain hr | ⟨_, hr, hl, live⟩ := s.write_reg .windows k i' d'
      case inl => rw [hr]; exact inv t' fd'
      case inr =>
        have eq : Os.windows.writeEvtHandle s.reg k i' = _ := Registry.writeEvtHandleWin_eq hl live
        rw [hr, eq]
        exact inv t' fd'
  case recv | accept                => rw [round_reg]; exact inv t' fd'
  case wait | select | halted | ret => exact inv t' fd'

theorem step_reg (inv : s.Held os) (apart : s.Apart a) (h : s.step os t a = some s') :
    s'.reg.ListensOk := by
  have lt := inv.step_lt h
  cases os
  case windows =>
    exact (step_noEntry (inv.windows rfl) h).listensOk <|
      listed_grown inv.reg.listed (step_grown h)
  case linux =>
    cases step_cases h
    case call                         => exact inv.reg.call apart.1 apart.2
    case close                        => exact inv.reg.closeFd
    case sweep                        => exact inv.reg.sweep
    case recv | accept                => exact round_reg.symm ▸ inv.reg
    case wait | select | halted | ret => exact inv.reg
    case dispatch k d hpc =>
      have hd : s.Dispatched .linux k (s.dispatch .linux k d) := s.dispatch_cases d
      generalize s.dispatch .linux k d = s' at hd lt
      cases hd
      case goto => exact inv.reg
      case write i' d' =>
        obtain hr | ⟨hpc, hr, hl, live⟩ := s.write_reg .linux k i' d'
        case inl => exact hr ▸ inv.reg
        case inr =>
          have hi : i' < s.reg.next := lt i' (hpc ▸ List.mem_cons_self)
          exact hr ▸ inv.reg.writeEvt apart hi hl live

theorem step (inv : s.Held os) (apart : s.Apart a) (h : s.step os t a = some s') :
    s'.Held os where
  reg            := inv.step_reg apart h
  windows hos    := by subst hos; exact step_noEntry (inv.windows rfl) h
  lt i hi        := Nat.lt_of_lt_of_le (inv.step_lt h i hi) (step_grown h).next
  hand           := inv.step_hand h

theorem start : (Serving.start n).Held os where
  reg       := .mk nofun nofun nofun
  windows _ := fun _ _ => rfl
  lt        := nofun
  hand      := nofun

end Held
end Serving
end NetPool
