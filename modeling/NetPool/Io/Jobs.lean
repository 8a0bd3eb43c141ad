import NetPool.Lib.List
import NetPool.Io.Life
import NetPool.Io.Sweep

namespace NetPool
namespace Net

variable {s s' : Net} {i : JobId} {l : Life}

-- The jobs that passes have unlinked and not yet called, and those whose callback has been called.
def waiting (s : Net) : List JobId :=
  s.passes.flatMap (·.deletedJob)

def current (s : Net) : List JobId :=
  s.passes.flatMap (·.current.toList)

def history (s : Net) (i : JobId) : List JobEvent :=
  s.log.filter (·.job = i)

theorem history_append {es : List JobEvent} (h : s'.log = s.log ++ es) :
    s'.history i = s.history i ++ es.filter (·.job = i) := by
  simp [history, h]

-- Where the job `i` is to be found at each point of its life.
def At (s : Net) (i : JobId) : Life → Prop
  | .unborn     => s.reg.next ≤ i
  | .live f     => i ∈ s.reg.ioJobs ∧ (s.reg.job i).isWantDelete = false ∧ (s.reg.job i).freeFunc = f
  | .marked f   => i ∈ s.reg.ioJobs ∧ (s.reg.job i).isWantDelete = true ∧ (s.reg.job i).freeFunc = f
  | .unlinked f => i ∈ s.waiting ∧ (s.reg.job i).freeFunc = f
  | .called _   => i ∈ s.current
  | .deleted    => i ∈ s.deleted

def Alive (s : Net) (i : JobId) : Prop :=
  ∃ l, (life (s.reg.job i).thrdIndex).run .unborn (s.history i) = some l ∧ s.At i l

theorem Alive.keep (h : s.Alive i) (history : s'.history i = s.history i)
    (thrdIndex : (s'.reg.job i).thrdIndex = (s.reg.job i).thrdIndex)
    (move : ∀ l, s.At i l → s'.At i l) : s'.Alive i :=
  have ⟨l, hr, ha⟩ := h
  ⟨l, thrdIndex ▸ history ▸ hr, move l ha⟩

theorem Alive.next {e : JobEvent} (h : s.Alive i) (history : s'.history i = s.history i ++ [e])
    (thrdIndex : (s'.reg.job i).thrdIndex = (s.reg.job i).thrdIndex)
    (move : ∀ l, s.At i l → ∃ l', l.step (s.reg.job i).thrdIndex e = some l' ∧ s'.At i l') :
    s'.Alive i := by
  have ⟨l, hr, ha⟩ := h
  have ⟨l', hs, ha'⟩ := move l ha
  refine ⟨l', ?_, ha'⟩
  rw [history, thrdIndex, System.run_concat, hr]
  exact hs

-- Every job that was ever put into the list is in one place at a time.
structure Inv (s : Net) : Prop where
  once  : ∀ i, s.reg.ioJobs.count i + s.waiting.count i + s.current.count i + s.deleted.count i =
    if i < s.reg.next then 1 else 0
  pass  : ∀ p ∈ s.passes, ∀ i, i ∈ p.current ∨ i ∈ p.deletedJob → s.reg.Dead p.thrdIndex i
  alive : ∀ i, s.Alive i

namespace Inv

theorem lt_next (inv : s.Inv)
    (h : i ∈ s.reg.ioJobs ∨ i ∈ s.waiting ∨ i ∈ s.current ∨ i ∈ s.deleted) : i < s.reg.next := by
  have ho := inv.once i
  by_contra hn
  simp only [hn, if_false, Nat.add_eq_zero_iff, List.count_eq_zero] at ho
  obtain ⟨⟨⟨h₁, h₂⟩, h₃⟩, h₄⟩ := ho
  simp [h₁, h₂, h₃, h₄] at h

theorem mem_places {p : Pass} (hp : p ∈ s.passes) (hi : i ∈ p.current ∨ i ∈ p.deletedJob) :
    i ∈ s.reg.ioJobs ∨ i ∈ s.waiting ∨ i ∈ s.current ∨ i ∈ s.deleted := by
  cases hi
  case inl hi => exact .inr <| .inr <| .inl <| List.mem_flatMap.mpr ⟨p, hp, by simpa using hi⟩
  case inr hi => exact .inr <| .inl <| List.mem_flatMap.mpr ⟨p, hp, hi⟩

theorem at_ioJobs (inv : s.Inv) (h : i ∈ s.reg.ioJobs) (ha : s.At i l) :
    l = if (s.reg.job i).isWantDelete then .marked (s.reg.job i).freeFunc
      else .live (s.reg.job i).freeFunc := by
  have hi := inv.lt_next (.inl h)
  have ho := inv.once i
  have hc := List.count_pos_iff.mpr h
  rw [if_pos hi] at ho
  cases l <;> simp only [At, ← List.count_pos_iff] at ha
  case unborn   => exact absurd ha (Nat.not_le.mpr hi)
  case live     => simp [ha]
  case marked   => simp [ha]
  all_goals omega

theorem at_waiting (inv : s.Inv) (h : i ∈ s.waiting) (ha : s.At i l) :
    l = .unlinked (s.reg.job i).freeFunc := by
  have hi := inv.lt_next (.inr <| .inl h)
  have ho := inv.once i
  have hc := List.count_pos_iff.mpr h
  rw [if_pos hi] at ho
  cases l <;> simp only [At, ← List.count_pos_iff] at ha
  case unborn   => exact absurd ha (Nat.not_le.mpr hi)
  case unlinked => simp [ha]
  all_goals omega

theorem at_current (inv : s.Inv) (h : i ∈ s.current) (ha : s.At i l) : ∃ f, l = .called f := by
  have hi := inv.lt_next (.inr <| .inr <| .inl h)
  have ho := inv.once i
  have hc := List.count_pos_iff.mpr h
  rw [if_pos hi] at ho
  cases l <;> simp only [At, ← List.count_pos_iff] at ha
  case unborn   => exact absurd ha (Nat.not_le.mpr hi)
  case called f => exact ⟨f, rfl⟩
  all_goals omega

theorem at_next (inv : s.Inv) (ha : s.At s.reg.next l) : l = .unborn := by
  have ho := inv.once s.reg.next
  cases l <;> simp only [At, ← List.count_pos_iff] at ha
  case unborn => rfl
  all_goals simp at ho; omega

theorem start (n : Nat) : (Net.start n).Inv where
  once _  := by simp [Net.start, Registry.empty, waiting, current]
  pass    := nofun
  alive _ := ⟨.unborn, rfl, Nat.zero_le _⟩

-- What the list and the jobs keep, the invariant keeps.
theorem frame (inv : s.Inv) (next : s'.reg.next = s.reg.next) (ioJobs : s'.reg.ioJobs = s.reg.ioJobs)
    (owner : ∀ i, IoJob.SameOwner (s.reg.job i) (s'.reg.job i))
    (flag : ∀ i, (s'.reg.job i).isWantDelete = (s.reg.job i).isWantDelete)
    (freeFunc : ∀ i, (s'.reg.job i).freeFunc = (s.reg.job i).freeFunc)
    (passes : s'.passes = s.passes) (deleted : s'.deleted = s.deleted) (log : s'.log = s.log) :
    s'.Inv where
  once i := by simpa [waiting, current, next, ioJobs, passes, deleted] using inv.once i
  pass p hp i hi := by
    have h := inv.pass p (passes ▸ hp) i hi
    exact ⟨(owner i).thrdIndex.trans h.1, (flag i).trans h.2⟩
  alive i := by
    refine (inv.alive i).keep (by simp [history, log]) (owner i).thrdIndex fun l ha => ?_
    cases l <;> simpa [At, waiting, current, next, ioJobs, passes, deleted, flag, freeFunc] using ha

theorem frame_job (inv : s.Inv) (next : s'.reg.next = s.reg.next)
    (ioJobs : s'.reg.ioJobs = s.reg.ioJobs) (job : s'.reg.job = s.reg.job)
    (passes : s'.passes = s.passes) (deleted : s'.deleted = s.deleted) (log : s'.log = s.log) :
    s'.Inv :=
  inv.frame next ioJobs (fun i => by simp [job, IoJob.SameOwner.refl]) (by simp [job])
    (by simp [job]) passes deleted log

theorem call {c : Call} {k : Kernel} {dels : List (JobId × Fd)} (inv : s.Inv) :
    Inv { s with
      reg        := (s.reg.exec k c).1
      listenDels := dels
      log        := s.log ++ callEvents s.reg k c } := by
  cases s.reg.exec_effect (k := k) (c := c)
  case keep failed missed job next ioJobs =>
    have he : callEvents s.reg k c = [] := by
      unfold callEvents
      split
      case h_1 h₁ h₂ => simp [missed (by simp [h₂])] at h₁
      case h_2 h₁ h₂ => simp [failed h₁ h₂]
      case h_3       => rfl
    exact inv.frame_job next ioJobs job rfl rfl (by simp [he])
  case register j find add ret fd live freeFunc job next ioJobs =>
    have he : callEvents s.reg k c = [.added s.reg.next] := by simp [callEvents, find, add, ret]
    have hj : ∀ i ≠ s.reg.next, (s.reg.exec k c).1.job i = s.reg.job i := by simp +contextual [job]
    constructor
    case once =>
      intro i
      have ho := inv.once i
      simp only [ioJobs, next, List.count_append, waiting, current] at ho ⊢
      by_cases hi : i = s.reg.next
      case pos => simp [hi] at ho ⊢; omega
      case neg =>
        have : i < s.reg.next + 1 ↔ i < s.reg.next :=
          Nat.lt_succ_iff_lt_or_eq.trans <| or_iff_left hi
        simpa [this, Ne.symm hi] using ho
    case pass =>
      intro p hp i hi
      have hd := inv.pass p hp i hi
      have hn : i ≠ s.reg.next := Nat.ne_of_lt <| inv.lt_next <| mem_places hp hi
      simpa [Registry.Dead, hj i hn] using hd
    case alive =>
      intro i
      by_cases hi : i = s.reg.next
      case pos =>
        subst hi
        obtain ⟨l, hr, ha⟩ := inv.alive s.reg.next
        cases inv.at_next ha
        have hh := Life.history_eq_nil hr
        refine ⟨.live .defaultFreeHandle, ?_, by simp [ioJobs], by simp [job, live],
          by simp [job, freeFunc]⟩
        rw [history_append (s := s) rfl, hh, he]
        simp [life, Life.step]
      case neg =>
        refine (inv.alive i).keep ?_ (by simp [hj i hi]) fun l ha => ?_
        case refine_1 => rw [history_append (s := s) rfl, he]; simp [Ne.symm hi]
        case refine_2 =>
          cases l
          case unborn => simpa [At, next] using Nat.succ_le_of_lt <| Nat.lt_of_le_of_ne ha (Ne.symm hi)
          all_goals simpa [At, waiting, current, next, ioJobs, hj i hi, hi] using ha
  case modify i j find handled job next ioJobs =>
    obtain ⟨hm, _, hl⟩ := Registry.findIoJob_some find
    have hj : ∀ i' ≠ i, (s.reg.exec k c).1.job i' = s.reg.job i' := by simp +contextual [job]
    have ho : ∀ i', ((s.reg.exec k c).1.job i').thrdIndex = (s.reg.job i').thrdIndex := by
      intro i'
      by_cases hi : i' = i
      case pos => subst hi; simpa [job] using handled.thrdIndex
      case neg => rw [hj i' hi]
    constructor
    case once => intro i; simpa [waiting, current, next, ioJobs] using inv.once i
    case pass =>
      intro p hp i' hi
      have hd := inv.pass p hp i' hi
      have : i' ≠ i := fun h => by simp [h, hl, Registry.Dead] at hd
      simpa [Registry.Dead, hj i' this] using hd
    case alive =>
      intro i'
      by_cases hi : i' = i
      case neg =>
        refine (inv.alive i').keep ?_ (ho i') fun l ha => ?_
        case refine_1 =>
          rw [history_append (s := s) rfl, callEvents, find]
          cases c.freeFunc? <;> simp [Ne.symm hi]
        case refine_2 =>
          cases l <;> simpa [At, waiting, current, next, ioJobs, hj i' hi] using ha
      case pos =>
        subst hi
        have h₁ := handled.marked
        have h₂ := handled.freeFunc
        cases hf : c.freeFunc?
        case none =>
          refine (inv.alive i').keep ?_ (ho i') fun l ha => ?_
          case refine_1 => rw [history_append (s := s) rfl]; simp [callEvents, find, hf]
          case refine_2 =>
            cases l <;> simpa [At, waiting, current, next, ioJobs, job, h₁, h₂, hf] using ha
        case some f =>
          refine (inv.alive i').next (e := .found i' f j.isWantDelete) ?_ (ho i') fun l ha => ?_
          case refine_1 => rw [history_append (s := s) rfl]; simp [callEvents, find, hf, job]
          case refine_2 =>
            simp only [inv.at_ioJobs hm ha, hl, Bool.false_eq_true, if_false, Life.step]
            refine ⟨_, rfl, ?_⟩
            cases hd : j.isWantDelete <;> simp [At, ioJobs, hm, job, hd, h₂, hf]

theorem filter_unlinked {is : List JobId} {t : Nat} :
    (is.map (JobEvent.unlinked · t)).filter (·.job = i) =
      List.replicate (is.count i) (.unlinked i t) := by
  induction is
  case nil          => rfl
  case cons j is hi =>
    by_cases h : j = i
    case pos => simp [h, hi, List.replicate_succ]
    case neg => simp [h, hi]

theorem sweep {t : Nat} (inv : s.Inv) :
    Inv { s with
      reg    := (s.reg.handleDelingJob t).1
      passes := s.passes ++ [⟨t, none, (s.reg.handleDelingJob t).2⟩]
      log    := s.log ++ (s.reg.handleDelingJob t).2.map (.unlinked · t) } := by
  rw [Registry.handleDelingJob_eq]
  constructor
  case once =>
    intro i
    have ho := inv.once i
    simp only [waiting, current, List.flatMap_append, List.count_append, count_filter_ite] at ho ⊢
    by_cases hd : s.reg.Dead t i <;> simp [hd, count_filter_ite] <;> omega
  case pass =>
    intro p hp i hi
    cases List.mem_append.mp hp
    case inl hp => exact inv.pass p hp i hi
    case inr hp =>
      cases List.mem_singleton.mp hp
      simp only [Option.mem_def, reduceCtorEq, false_or, List.mem_filter, decide_eq_true_eq] at hi
      exact hi.2
  case alive =>
    intro i
    by_cases hi : i ∈ s.reg.ioJobs ∧ s.reg.Dead t i
    case pos =>
      have ⟨hm, ht, hd⟩ := hi
      have ho := inv.once i
      have hc := List.count_pos_iff.mpr hm
      rw [if_pos (inv.lt_next <| .inl hm)] at ho
      have h₁ : s.reg.ioJobs.count i = 1 := by omega
      refine (inv.alive i).next (e := .unlinked i t) ?_ rfl fun l ha => ?_
      case refine_1 =>
        rw [history_append (s := s) rfl, filter_unlinked, count_filter_ite]
        simp [h₁, ht, hd]
      case refine_2 =>
        refine ⟨.unlinked (s.reg.job i).freeFunc, ?_, ?_, rfl⟩
        case refine_1 => simp [inv.at_ioJobs hm ha, hd, Life.step, ht]
        case refine_2 => simp [waiting, hm, ht, hd]
    case neg =>
      refine (inv.alive i).keep ?_ rfl fun l ha => ?_
      case refine_1 =>
        rw [history_append (s := s) rfl, filter_unlinked, count_filter_ite]
        by_cases hd : s.reg.Dead t i
        case pos => simp [List.count_eq_zero.mpr fun hm => hi ⟨hm, hd⟩]
        case neg => simp [hd]
      case refine_2 =>
        cases l
        case live     => simp_all [At]
        case marked   => simp_all [At]
        case unlinked =>
          refine ⟨?_, ha.2⟩
          simpa [waiting] using Or.inl <| List.mem_flatMap.mp ha.1
        case called   => simpa [At, current] using ha
        all_goals exact ha

-- A step of a pass moves one job from `is` to the next place of its life.
theorem count_set {n : Nat} {p q : Pass} (hp : s.passes[n]? = some p) :
    ((s.passes.set n q).flatMap (·.deletedJob)).count i + p.deletedJob.count i =
        s.waiting.count i + q.deletedJob.count i ∧
      ((s.passes.set n q).flatMap (·.current.toList)).count i + p.current.toList.count i =
        s.current.count i + q.current.toList.count i :=
  ⟨count_flatMap_set hp, count_flatMap_set hp⟩

theorem freeCallback {n t : Nat} {i : JobId} {is : List JobId} (inv : s.Inv)
    (hp : s.passes[n]? = some ⟨t, none, i :: is⟩) :
    Inv { s with
      passes := s.passes.set n ⟨t, some i, is⟩
      log    := s.log ++ [.called i (s.reg.job i).freeFunc t] } := by
  have hm := List.mem_of_getElem? hp
  have hw : i ∈ s.waiting := List.mem_flatMap.mpr ⟨_, hm, List.mem_cons_self⟩
  have hs (i' : JobId) := count_set (i := i') (q := ⟨t, some i, is⟩) hp
  constructor
  case once =>
    intro i'
    have ho := inv.once i'
    have ⟨h₁, h₂⟩ := hs i'
    simp only [waiting, current, List.count_cons, Option.toList_some, Option.toList_none,
      List.count_nil] at ho h₁ h₂ ⊢
    omega
  case pass =>
    intro p hp' i' hi
    cases List.mem_or_eq_of_mem_set hp'
    case inl h => exact inv.pass p h i' hi
    case inr h =>
      subst h
      refine inv.pass _ hm i' (.inr ?_)
      simpa [eq_comm] using hi
  case alive =>
    intro i'
    by_cases hi : i' = i
    case pos =>
      subst hi
      refine (inv.alive i').next (e := .called i' (s.reg.job i').freeFunc t) ?_ rfl fun l ha => ?_
      case refine_1 => rw [history_append (s := s) rfl]; simp
      case refine_2 =>
        have ht := (inv.pass _ hm i' (.inr List.mem_cons_self)).1
        refine ⟨.called (s.reg.job i').freeFunc, ?_, ?_⟩
        case refine_1 => simp [inv.at_waiting hw ha, Life.step, ht]
        case refine_2 =>
          have := (hs i').2
          simp only [At, current, ← List.count_pos_iff]
          simp at this; omega
    case neg =>
      refine (inv.alive i').keep ?_ rfl fun l ha => ?_
      case refine_1 => rw [history_append (s := s) rfl]; simp [Ne.symm hi]
      case refine_2 =>
        have ⟨h₁, h₂⟩ := hs i'
        simp only [Option.toList_some, Option.toList_none, List.count_cons, beq_iff_eq, Ne.symm hi,
          if_false, Nat.add_zero, Nat.add_right_cancel_iff] at h₁ h₂
        cases l
        case unlinked => exact ⟨List.count_pos_iff.mp (h₁ ▸ List.count_pos_iff.mpr ha.1), ha.2⟩
        case called   => exact List.count_pos_iff.mp (h₂ ▸ List.count_pos_iff.mpr ha)
        all_goals exact ha

theorem delete {n t : Nat} {i : JobId} {is : List JobId} (inv : s.Inv)
    (hp : s.passes[n]? = some ⟨t, some i, is⟩) :
    Inv { s with
      passes  := s.passes.set n ⟨t, none, is⟩
      deleted := s.deleted ++ [i]
      log     := s.log ++ [.deleted i t] } := by
  have hm := List.mem_of_getElem? hp
  have hc : i ∈ s.current := List.mem_flatMap.mpr ⟨_, hm, by simp⟩
  have hs (i' : JobId) := count_set (i := i') (q := ⟨t, none, is⟩) hp
  constructor
  case once =>
    intro i'
    have ho := inv.once i'
    have ⟨h₁, h₂⟩ := hs i'
    simp only [waiting, current, List.count_append, List.count_cons, Option.toList_some,
      Option.toList_none, List.count_nil] at ho h₁ h₂ ⊢
    omega
  case pass =>
    intro p hp' i' hi
    cases List.mem_or_eq_of_mem_set hp'
    case inl h => exact inv.pass p h i' hi
    case inr h =>
      subst h
      exact inv.pass _ hm i' (.inr <| by simpa using hi)
  case alive =>
    intro i'
    by_cases hi : i' = i
    case pos =>
      subst hi
      refine (inv.alive i').next (e := .deleted i' t) ?_ rfl fun l ha => ?_
      case refine_1 => rw [history_append (s := s) rfl]; simp
      case refine_2 =>
        have ht := (inv.pass _ hm i' (.inl rfl)).1
        have ⟨f, hl⟩ := inv.at_current hc ha
        refine ⟨.deleted, ?_, ?_⟩
        case refine_1 => simp [hl, Life.step, ht]
        case refine_2 => simp [At]
    case neg =>
      refine (inv.alive i').keep ?_ rfl fun l ha => ?_
      case refine_1 => rw [history_append (s := s) rfl]; simp [Ne.symm hi]
      case refine_2 =>
        have ⟨h₁, h₂⟩ := hs i'
        simp only [Option.toList_some, Option.toList_none, List.count_cons, List.count_nil,
          beq_iff_eq, Ne.symm hi, if_false, Nat.add_zero, Nat.add_right_cancel_iff] at h₁ h₂
        cases l
        case unlinked => exact ⟨List.count_pos_iff.mp (h₁ ▸ List.count_pos_iff.mpr ha.1), ha.2⟩
        case called   => exact List.count_pos_iff.mp (h₂ ▸ List.count_pos_iff.mpr ha)
        case deleted  => exact List.mem_append_left _ ha
        all_goals exact ha

theorem step {a : Act} (inv : s.Inv) (h : s.step a = some s') : s'.Inv := by
  cases a
  case call c k => cases h; exact inv.call
  case sweep t  => cases h; exact inv.sweep
  case freeCallback n =>
    simp only [Net.step] at h
    split at h <;> cases h
    case h_1 hp => exact inv.freeCallback hp
  case delete n =>
    simp only [Net.step] at h
    split at h <;> cases h
    case h_1 hp => exact inv.delete hp
  case listenCtl n k =>
    have ⟨d, _, h⟩ := Option.map_eq_some_iff.mp h
    subst h
    have ⟨hj, hn, hl⟩ := s.reg.delListenCtl_frame k d.2
    exact inv.frame_job hn hl hj rfl rfl rfl
  case writeCtl i k =>
    simp only [Net.step] at h
    split at h <;> cases h
    have ⟨hj, hn, hl⟩ := s.reg.delIoWritingEvt_frame k i
    exact inv.frame_job hn hl hj rfl rfl rfl
  case writeClear i =>
    simp only [Net.step] at h
    split at h <;> cases h
    have hj (i' : JobId) : ∃ e, (s.reg.modify i (·.delWriteIoEvent)).job i' =
        { s.reg.job i' with nowEvent := e } := by
      by_cases hi : i' = i
      case pos => exact ⟨_, by rw [hi, Registry.modify_job_self]; rfl⟩
      case neg => exact ⟨_, by rw [Registry.modify_job_ne hi]⟩
    refine inv.frame rfl rfl ?_ ?_ ?_ rfl rfl rfl <;> intro i' <;> have ⟨_, h⟩ := hj i' <;> simp [h]
    exact ⟨rfl, rfl, rfl, rfl⟩
  case close fd => cases h; exact inv.frame_job rfl rfl rfl rfl rfl rfl

theorem of_reachable (h : (net n).Reachable s) : s.Inv := by
  refine h.invariant ?_ fun _ _ _ inv _ hs => inv.step hs
  rintro _ rfl
  exact start n

end Inv

-- What the log says about the end of the job `i`.
structure FreedOnce (s : Net) (i : JobId) : Prop where
  calledOnce  : (s.history i).countP JobEvent.isCalled ≤ 1
  deletedOnce : (s.history i).countP JobEvent.isDeleted ≤ 1
  called      : ∀ es f t es', s.log = es ++ .called i f t :: es' →
    t = (s.reg.job i).thrdIndex ∧ (∃ f', .found i f' true ∈ es) ∧
      (JobEvent.handedOver i es).getLast? = some f
  deleted     : ∀ es t es', s.log = es ++ .deleted i t :: es' →
    t = (s.reg.job i).thrdIndex ∧ (∃ f', .found i f' true ∈ es) ∧ ∃ f, .called i f t ∈ es

-- The log up to an event of the job is a life of the job on its own.
theorem Alive.split {e : JobEvent} {es es' : List JobEvent} (h : s.Alive i) (hj : e.job = i)
    (hl : s.log = es ++ e :: es') :
    ∃ l l', (life (s.reg.job i).thrdIndex).run .unborn (es.filter (·.job = i)) = some l ∧
      (life (s.reg.job i).thrdIndex).step l e = some l' := by
  have ⟨_, hr, _⟩ := h
  rw [history, hl, List.filter_append, List.filter_cons_of_pos (by simp [hj])] at hr
  have ⟨l, l', hr, hs, _⟩ := System.run_split hr
  exact ⟨l, l', hr, hs⟩

theorem found_of_filter {es : List JobEvent} (h : ∃ i' f, .found i' f true ∈ es.filter (·.job = i)) :
    ∃ f, .found i f true ∈ es := by
  have ⟨i', f, hm⟩ := h
  have ⟨hm, hi⟩ := List.mem_filter.mp hm
  exact ⟨f, of_decide_eq_true hi ▸ hm⟩

theorem Alive.freedOnce (h : s.Alive i) : s.FreedOnce i where
  calledOnce := by
    obtain ⟨_, hr, _⟩ := h
    exact Life.called_at_most_once hr
  deletedOnce := by
    obtain ⟨_, hr, _⟩ := h
    exact Life.deleted_at_most_once hr
  called es f t es' hl := by
    obtain ⟨_, _, hr, hs⟩ := h.split rfl hl
    obtain ⟨hu, _, ht⟩ := Life.called_step hs
    subst hu
    have hf := found_of_filter <| Life.marked_before hr (by simp [Life.rank])
    exact ⟨ht, hf, Life.freeFunc_of_marked hr (by simp [Life.rank]) rfl⟩
  deleted es t es' hl := by
    obtain ⟨_, _, hr, hs⟩ := h.split rfl hl
    obtain ⟨⟨f, hc⟩, _, ht⟩ := Life.deleted_step hs
    subst hc
    have hf := found_of_filter <| Life.marked_before hr (by simp [Life.rank])
    obtain ⟨i', hc⟩ := Life.called_before hr
    obtain ⟨hc, hi⟩ := List.mem_filter.mp hc
    exact ⟨ht, hf, f, of_decide_eq_true hi ▸ ht ▸ hc⟩

-- A job that has been in the list and is not in it any more.
abbrev Removed (s : Net) (i : JobId) : Prop :=
  i < s.reg.next ∧ i ∉ s.reg.ioJobs

theorem Removed.exec {c : Call} {k : Kernel} (h : s.Removed i) :
    (s.reg.exec k c).1.job i = s.reg.job i ∧ i < (s.reg.exec k c).1.next ∧
      i ∉ (s.reg.exec k c).1.ioJobs := by
  cases s.reg.exec_effect (k := k) (c := c)
  case keep failed missed job next ioJobs => simpa [job, next, ioJobs] using h
  case register j find add ret fd live freeFunc job next ioJobs =>
    have hn : i ≠ s.reg.next := Nat.ne_of_lt h.1
    simp [job, next, ioJobs, hn, h.2, Nat.lt_succ_of_lt h.1]
  case modify i' j find handled job next ioJobs =>
    have hn : i ≠ i' := fun hi => h.2 <| hi ▸ (Registry.findIoJob_some find).1
    simpa [job, next, ioJobs, hn] using h

theorem Removed.step {a : Act} (h : s.Removed i) (hs : s.step a = some s') : s'.Removed i := by
  cases a
  case call c k => cases hs; exact h.exec.2
  case listenCtl n k =>
    have ⟨d, _, hs⟩ := Option.map_eq_some_iff.mp hs
    subst hs
    have ⟨_, hn, hl⟩ := s.reg.delListenCtl_frame k d.2
    simpa [Removed, hn, hl] using h
  case sweep t =>
    simp only [Net.step, Registry.handleDelingJob_eq, Option.some.injEq] at hs
    subst hs
    exact ⟨h.1, fun hm => h.2 (List.mem_filter.mp hm).1⟩
  case writeCtl i' k =>
    simp only [Net.step] at hs
    split at hs <;> cases hs
    have ⟨_, hn, hl⟩ := s.reg.delIoWritingEvt_frame k i'
    simpa [Removed, hn, hl] using h
  case close fd => cases hs; exact h
  all_goals
    simp only [Net.step] at hs
    split at hs <;> cases hs
    exact h

theorem Removed.run {as : List Act} (h : s.Removed i) (hs : (net n).run s as = some s') :
    s'.Removed i :=
  System.invariant_of_run (I := (·.Removed i)) (fun _ _ _ h hs => h.step hs) h hs

-- A job is freed at most once, by a pass of its own thread and after a deleting call has marked it.
-- Once it is out of the list the registry neither returns nor changes it, and a pass takes only
-- such jobs out of the list and leaves the others in their order.
theorem jobs_freed_once (h : (net n).Reachable s) :
    (∀ i, s.FreedOnce i) ∧
    (∀ as s' i, (net n).run s as = some s' → s.Removed i →
      i ∉ s'.reg.ioJobs ∧ (∀ fd, s'.reg.findIoJob fd ≠ some i) ∧
        ∀ c k, (s'.reg.exec k c).1.job i = s'.reg.job i) ∧
    (∀ t, (s.reg.handleDelingJob t).1.ioJobs = s.reg.ioJobs.filter (¬s.reg.Dead t ·)) := by
  refine ⟨fun i => (Inv.of_reachable h).alive i |>.freedOnce, ?_, fun t => ?_⟩
  case refine_1 =>
    intro as s' i hr hi
    have hi := hi.run hr
    exact ⟨hi.2, fun fd hf => hi.2 (Registry.findIoJob_some hf).1, fun c k => hi.exec.1⟩
  case refine_2 => rw [Registry.handleDelingJob_eq]

theorem jobs_freed_once_reused :
    ∃ s, (net 2).Reachable s ∧ (s.deleted = [0] ∧ s.reg.ioJobs = [1]) ∧ s.FreedOnce 0 := by
  have ⟨s, hr, hs⟩ : ∃ s, (net 2).Reachable s ∧ s.deleted = [0] ∧ s.reg.ioJobs = [1] :=
    System.exists_of_run [
        .call (.addRead (.app 0) 4 0 1 0 true) .plain,
        .call (.delRead 4 (.app 1)) .plain,
        .sweep 0,
        .sweep 1,
        .freeCallback 1,
        .call (.addRead (.app 0) 4 0 0 0 true) .plain,
        .delete 1]
      _ rfl (by decide)
  exact ⟨s, hr, hs, (jobs_freed_once hr).1 0⟩

end Net
end NetPool
