import NetPool.Pool.Tasks

namespace NetPool
namespace ThreadPool

variable {s s' : ThreadPool} {x y : Worker} {w t pos now : Nat} {a : Act} {lo hi : Nat}

def WorkerPc.holds : WorkerPc → Bool
  | .took _ | .busy _ | .run _ | .del _ => true
  | .created | .init | .test | .get | .wait | .stamp | .idle | .exit | .done => false

def holds (s : ThreadPool) (w : Nat) : Bool :=
  s.workers[w]?.any (·.pc.holds)

-- A call that is past its test of m_bEnableInsertTask and has not pushed its task.
def CallPc.inside : CallPc → Bool
  | .size | .count _ | .scan .. | .grow _ | .insert | .create _ | .mark _ | .push => true
  | .test | .notify | .returned _ => false

-- Terminate has seen the empty queue.
def TermPc.over : TermPc → Bool
  | .min | .max | .tell | .status _ | .drop _ | .join | .returned => true
  | .none | .quick _ | .enable | .wait => false

def CallPc.starts (w : Nat) : CallPc → Bool
  | .create w' | .mark w' => w = w'
  | .test | .size | .count _ | .scan .. | .grow _ | .insert | .push | .notify | .returned _ => false

def starting (s : ThreadPool) (w : Nat) : Prop :=
  ∃ t : Nat, s.calls[t]?.any (CallPc.starts w)

-- A worker without its flag has ended or is still being started.
def Started (s : ThreadPool) : Prop :=
  ∀ w x, s.workers[w]? = some x → x.running ∨ x.pc = .done ∨ s.starting w

theorem Started.put (k : Started s) (hx : s.workers[w]? = some x) (hn : x.pc ≠ .done)
    (hr : y.running = x.running ∨ y.pc = .done) :
    ∀ u z, (s.workers.set w y)[u]? = some z → z.running ∨ z.pc = .done ∨ s.starting u := by
  intro u z hz
  rw [List.getElem?_set] at hz
  split at hz
  case isFalse => exact k u z hz
  case isTrue hu =>
    subst hu
    split at hz <;> cases hz
    obtain hr | hd := hr
    · obtain h | h | h := k w x hx
      · exact .inl (hr ▸ h)
      · exact absurd h hn
      · exact .inr (.inr h)
    · exact .inr (.inl hd)

theorem Started.work (k : Started s) (h : s.work w now = some s') : Started s' := by
  unfold ThreadPool.work at h
  split at h
  case h_1 => cases h
  case h_2 x hx =>
    have ⟨status, isBusy, updateTime, running, pc⟩ := x
    cases pc <;> dsimp only at h
    case created | done => cases h
    case get => split at h <;> cases h <;> exact k.put hx nofun (.inl rfl)
    case busy => cases h; split <;> exact k.put hx nofun (.inl rfl)
    case exit => cases h; exact k.put hx nofun (.inr rfl)
    all_goals
      cases h
      exact k.put hx nofun (.inl rfl)

theorem starting_set {pc pc' : CallPc} (h : s.calls[t]? = some pc) (hs : s.starting w)
    (hp : pc.starts w → pc'.starts w) :
    starting { s with calls := s.calls.set t pc' } w := by
  have ⟨t', ht⟩ := hs
  by_cases hne : t = t'
  case neg => exact ⟨t', by rwa [List.getElem?_set_ne hne]⟩
  case pos =>
    have ⟨hl, _⟩ := List.getElem?_eq_some_iff.mp h
    subst hne
    rw [h, Option.any_some] at ht
    exact ⟨t, by simpa [hl] using hp ht⟩

-- A call goes on that is not starting a worker.
theorem Started.goto (k : Started s) {pc pc' : CallPc} (h : s.calls[t]? = some pc)
    (hp : ∀ w, ¬pc.starts w) : Started { s with calls := s.calls.set t pc' } := by
  intro u z hz
  obtain h' | h' | hs := k u z hz
  · exact .inl h'
  · exact .inr (.inl h')
  · exact .inr (.inr (starting_set h hs fun hs => absurd hs (hp u)))

-- The worker that a call is starting gets on.
theorem Started.start (k : Started s) {pc pc' : CallPc} {g : Worker → Worker}
    (h : s.calls[t]? = some pc) (hp : ∀ u, pc.starts u → u = w)
    (hg : ∀ x, (g x).running ∨ pc'.starts w) :
    Started { s with calls := s.calls.set t pc', workers := s.workers.modify w g } := by
  intro u z hz
  have hz : (s.workers.modify w g)[u]? = some z := hz
  rw [List.getElem?_modify] at hz
  have ⟨x, hx, hz⟩ := Option.map_eq_some_iff.mp hz
  by_cases hu : w = u
  case neg =>
    rw [if_neg hu] at hz
    subst hz
    obtain h' | h' | hs := k u x hx
    · exact .inl h'
    · exact .inr (.inl h')
    · exact .inr (.inr (starting_set h hs fun hs => absurd (hp u hs).symm hu))
  case pos =>
    rw [if_pos hu] at hz
    subst hz hu
    obtain hr | hs := hg x
    · exact .inl hr
    · have ⟨hl, _⟩ := List.getElem?_eq_some_iff.mp h
      exact .inr (.inr ⟨t, by simpa [hl] using hs⟩)

theorem Started.insert (k : Started s) (hc : s.calls[t]? = some .insert)
    (h : s.insert t pos now = some s') : Started s' := by
  have ⟨_, h⟩ := Option.ite_none_right_eq_some.mp h
  cases h
  have ⟨hl, _⟩ := List.getElem?_eq_some_iff.mp hc
  have k : Started { s with calls := s.calls.set t (.create s.workers.length) } :=
    k.goto hc nofun
  intro u z hz
  rw [List.getElem?_append] at hz
  split at hz
  case isTrue  => exact k u z hz
  case isFalse hu =>
    have ⟨h₁, h₂⟩ := List.getElem?_eq_some_iff.mp hz
    rw [List.length_singleton, Nat.lt_one_iff] at h₁
    refine .inr (.inr ⟨t, ?_⟩)
    have hu : u = s.workers.length := by omega
    simp [hl, CallPc.starts, hu]

theorem Started.call (k : Started s) (h : s.call t pos now = some s') : Started s' := by
  unfold ThreadPool.call at h
  dsimp only at h
  split at h
  case h_1 | h_13 => cases h
  case h_8 hc => exact k.insert hc h
  case h_9 w hc =>
    cases h
    exact k.start hc (by simp [CallPc.starts]) fun _ => .inr (by simp [CallPc.starts])
  case h_10 w hc =>
    cases h
    exact k.start hc (by simp [CallPc.starts]) fun _ => .inl rfl
  all_goals
    rename_i hc
    cases h
    exact k.goto hc nofun

theorem Started.control (k : Started s) (c : Control s a s') : Started s' := by
  have ⟨told, tell, _, _, _, _, _, _, _, _, _, _, eq⟩ := c
  subst eq
  obtain rfl | ⟨w, rfl⟩ := tell
  · exact k
  · intro u z hz
    have ⟨f, hf, same⟩ := getElem?_tellExit (s := s) (w := w) (u := u)
    have ⟨x, hx, hz⟩ := Option.map_eq_some_iff.mp (hf ▸ hz)
    rw [← hz, same]
    exact k u x hx

theorem Started.step (k : Started s) (h : s.step a = some s') : Started s' := by
  cases a
  case call    => exact k.call h
  case work    => exact k.work h
  case execute =>
    cases h
    intro w x hx
    obtain h | h | ⟨t, ht⟩ := k w x hx
    · exact .inl h
    · exact .inr (.inl h)
    · refine .inr (.inr ⟨t, ?_⟩)
      have hl : t < s.calls.length := by
        by_contra hl
        simp [List.getElem?_eq_none (Nat.not_lt.mp hl)] at ht
      rwa [List.getElem?_append_left hl]
  all_goals exact k.control (step_control h nofun nofun nofun)

theorem Started.of_reachable (h : (threadPool lo hi).Reachable s) : Started s := by
  apply h.invariant
  case h₀ =>
    rintro _ ⟨times, pool, _, _⟩ w x hx
    have ⟨n, _, he⟩ := List.mem_map.mp (List.mem_of_getElem? hx)
    exact .inl (he ▸ rfl)
  case hs => exact fun _ _ _ k _ h => k.step h

-- The worker that aged_worker is about to take out of the pool.
def erasing (s : ThreadPool) : Option Nat :=
  match s.aged with
  | some ⟨_, .erase w, _, _⟩ => some w
  | _                        => none

-- What the run has to keep to. When Terminate sets m_bQuickFree, no worker is between taking a task
-- and its test. When Terminate reads the empty queue, no call is past its test without having
-- pushed its task, and the workers with a task are in the pool. From then on aged_worker takes no
-- worker with a task out of the pool.
def Orderly (s : ThreadPool) : Act → Prop
  | .termStep => (s.term = .quick true → s.before = []) ∧
    (s.term = .wait → s.tasks = [] → (∀ pc ∈ s.calls, ¬pc.inside) ∧
      ∀ w < s.workers.length, s.holds w → w ∈ s.pool)
  | .agedStep => s.term.over → ∀ w ∈ s.erasing, ¬s.holds w
  | _         => True

instance : ∀ s a, Decidable (Orderly s a)
  | _, .termStep => inferInstanceAs (Decidable ((_ → _) ∧ (_ → _ → _ ∧ _)))
  | _, .agedStep => inferInstanceAs (Decidable (_ → _))
  | _, .execute | _, .call .. | _, .work .. | _, .age _ | _, .terminate _ =>
    inferInstanceAs (Decidable True)

-- A task that is not run has been taken with the flag set.
structure Quick (s : ThreadPool) : Prop where
  before  : s.quickFree → ∀ t ∈ s.before, t ∈ s.quickTaken
  skipped : ∀ t ∈ s.skipped, t ∈ s.quickTaken

theorem mem_before_set {task : Nat} (hx : s.workers[w]? = some x)
    (h : task ∈ (s.workers.set w y).flatMap (·.pc.before)) : task ∈ y.pc.before ∨ task ∈ s.before := by
  have hp := (flatMap_set_perm (f := fun x : Worker => x.pc.before) (b := y) hx).mem_iff (a := task)
  rw [List.mem_append, List.mem_append] at hp
  exact hp.mp (.inr h)

theorem mem_before {task : Nat} (hx : s.workers[w]? = some x) (h : task ∈ x.pc.before) :
    task ∈ s.before :=
  List.mem_flatMap_of_mem (List.mem_of_getElem? hx) h

theorem Quick.put (k : Quick s) (hx : s.workers[w]? = some x) (hy : y.pc.before ⊆ x.pc.before) :
    Quick { s with workers := s.workers.set w y } where
  before hq t ht := by
    obtain ht | ht := mem_before_set hx ht
    · exact k.before hq t (mem_before hx (hy ht))
    · exact k.before hq t ht
  skipped := k.skipped

theorem Quick.work (k : Quick s) (h : s.work w now = some s') : Quick s' := by
  unfold ThreadPool.work at h
  split at h
  case h_1 => cases h
  case h_2 x hx =>
    have ⟨status, isBusy, updateTime, running, pc⟩ := x
    have keep {y : Worker} (hy : y.pc.before = []) :=
      k.put (y := y) hx (hy ▸ List.nil_subset _)
    cases pc <;> dsimp only at h
    case created | done => cases h
    case get =>
      split at h <;> cases h
      case h_1 => exact keep rfl
      case h_2 task tasks _ =>
        refine ⟨fun hq t ht => ?_, fun t ht => ?_⟩
        · have hq : s.quickFree = true := hq
          dsimp only
          rw [if_pos hq]
          obtain ht | ht := mem_before_set hx ht
          · exact List.mem_append_right _ ht
          · exact List.mem_append_left _ (k.before hq t ht)
        · have ht := k.skipped t ht
          dsimp only
          split
          · exact List.mem_append_left _ ht
          · exact ht
    case busy task =>
      cases h
      split
      case isFalse   => exact ⟨(keep rfl).before, k.skipped⟩
      case isTrue hq =>
        refine ⟨(keep rfl).before, fun t ht => ?_⟩
        obtain ht | ht := List.mem_append.mp ht
        · exact k.skipped t ht
        · exact k.before hq t (mem_before hx ht)
    case del  => cases h; exact ⟨(keep rfl).before, k.skipped⟩
    case test =>
      cases h
      apply keep
      dsimp only
      split <;> rfl
    all_goals
      cases h
      exact k.put hx (List.Subset.refl _)

theorem Quick.of_eq (k : Quick s) (hb : s'.before = s.before) (hq : s'.quickFree = s.quickFree)
    (ht : s'.quickTaken = s.quickTaken) (hs : s'.skipped = s.skipped) : Quick s' := by
  have ⟨before, skipped⟩ := k
  rw [← hb, ← hq, ← ht] at before
  rw [← hs, ← ht] at skipped
  exact ⟨before, skipped⟩

theorem Quick.call (k : Quick s) (h : s.call t pos now = some s') : Quick s' := by
  have ⟨same, quickTaken, skipped⟩ := call_same h
  exact k.of_eq (call_before h).1 same.quickFree quickTaken skipped

theorem Quick.control (k : Quick s) (c : Control s a s')
    (ho : a = .termStep → s.term = .quick true → s.before = []) : Quick s' := by
  have ⟨told, tell, _, _, _, _, quick, _, _, _, flag, _, eq⟩ := c
  have hb : told.before = s.before ∧ told.quickTaken = s.quickTaken ∧ told.skipped = s.skipped := by
    obtain rfl | ⟨w, rfl⟩ := tell
    · exact ⟨rfl, rfl, rfl⟩
    · exact ⟨flatMap_modify fun _ => rfl, rfl, rfl⟩
  subst eq
  obtain flag | ⟨ha, flag⟩ := flag
  · exact k.of_eq hb.1 flag hb.2.1 hb.2.2
  · refine ⟨fun hq t ht => ?_, ?_⟩
    · cases (hq : quick = true)
      have ht : t ∈ told.before := ht
      simp [hb.1, ho ha flag] at ht
    · have hs := k.skipped
      rw [← hb.2.1, ← hb.2.2] at hs
      exact hs

theorem Quick.of_orderly (h : (threadPool lo hi).Reach Orderly s) : Quick s := by
  apply h.invariant
  case h₀ =>
    rintro _ ⟨times, pool, _, _⟩
    exact ⟨nofun, nofun⟩
  case hs =>
    intro s a s' k ho h
    have h : s.step a = some s' := h
    cases a
    case call    => exact k.call h
    case work    => exact k.work h
    case execute => cases h; exact k.of_eq rfl rfl rfl rfl
    all_goals
      refine k.control (step_control h nofun nofun nofun) ?_
      rintro ⟨⟩ ht
    case termStep => exact ho.1 ht

theorem holds_put {u : Nat} (hx : s.workers[w]? = some x) (hy : y.pc.holds → x.pc.holds)
    (h : (s.workers.set w y)[u]?.any (·.pc.holds)) : s.holds u := by
  have ⟨hl, he⟩ := List.getElem?_eq_some_iff.mp hx
  rw [List.getElem?_set] at h
  split at h
  case isFalse   => exact h
  case isTrue hu =>
    subst hu
    rw [Option.any_some] at h
    simpa [holds, hx] using hy h

-- No worker comes by a task when the queue is empty.
theorem work_empty (ht : s.tasks = []) (h : s.work w now = some s') :
    s'.tasks = [] ∧ ∀ u, s'.holds u → s.holds u := by
  unfold ThreadPool.work at h
  split at h
  case h_1 => cases h
  case h_2 x hx =>
    have ⟨status, isBusy, updateTime, running, pc⟩ := x
    cases pc <;> dsimp only at h
    case created | done => cases h
    case get =>
      rw [ht] at h
      cases h
      exact ⟨rfl, fun u => holds_put hx nofun⟩
    case test =>
      cases h
      refine ⟨ht, fun u => holds_put hx ?_⟩
      dsimp only
      split <;> exact nofun
    case busy =>
      cases h
      split <;> exact ⟨ht, fun u => holds_put hx fun _ => rfl⟩
    case took | run | del =>
      cases h
      exact ⟨ht, fun u => holds_put hx fun _ => rfl⟩
    all_goals
      cases h
      exact ⟨ht, fun u => holds_put hx nofun⟩

-- Terminate after it has read the empty queue: the workers with a task are those that it still has
-- to tell or to join.
structure Closing (s : ThreadPool) : Prop where
  empty   : s.tasks = []
  off     : s.enableInsertTask = false
  calls   : ∀ pc ∈ s.calls, ¬pc.inside
  holders : ∀ w, s.holds w → w ∈ s.pool ∨ w ∈ s.trash
  pool    : s.term = .join ∨ s.term = .returned → s.pool = []
  trash   : s.term = .returned → s.trash = []

structure Ordered (s : ThreadPool) : Prop where
  off     : s.term = .wait → s.enableInsertTask = false
  closing : s.term.over → Closing s

theorem Closing.work (k : Closing s) (h : s.work w now = some s') : Closing s' := by
  have ⟨tasks, holds⟩ := work_empty k.empty h
  have ⟨same, calls, pool, _⟩ := work_same h
  refine ⟨tasks, same.enableInsertTask ▸ k.off, calls ▸ k.calls, fun u hu => ?_, ?_, ?_⟩
  · rw [pool, same.trash]
    exact k.holders u (holds u hu)
  · rw [pool, same.term]
    exact k.pool
  · rw [same.trash, same.term]
    exact k.trash

theorem Closing.call (k : Closing s) (h : s.call t pos now = some s') :
    Closing s' := by
  have goto {pc : CallPc} (hp : ¬pc.inside) : Closing { s with calls := s.calls.set t pc } := by
    refine ⟨k.empty, k.off, fun pc' hm => ?_, k.holders, k.pool, k.trash⟩
    obtain hm | rfl := List.mem_or_eq_of_mem_set hm
    · exact k.calls pc' hm
    · exact hp
  unfold ThreadPool.call at h
  dsimp only at h
  split at h
  case h_1 | h_13 => cases h
  case h_2 =>
    have hr : (if s.enableInsertTask then CallPc.size else .returned false) = .returned false := by
      rw [k.off]
      rfl
    cases h
    rw [hr]
    exact goto nofun
  case h_12 => cases h; exact goto nofun
  all_goals
    rename_i hc
    exact absurd rfl (k.calls _ (List.mem_of_getElem? hc))

theorem holds_tellExit {u : Nat} : (s.tellExit w).holds u = s.holds u := by
  have ⟨f, hf, same⟩ := getElem?_tellExit (s := s) (w := w) (u := u)
  rw [holds, hf, holds]
  cases s.workers[u]?
  case none   => rfl
  case some x =>
    have hp : (f x).pc = x.pc := by rw [same]
    simp [hp]

theorem Closing.agedStep (k : Closing s) (ho : Orderly s .agedStep) (hv : s.term.over)
    (h : s.agedStep = some s') : Closing s' := by
  have ⟨empty, off, calls, holders, pool, trash⟩ := k
  unfold ThreadPool.agedStep at h
  split at h
  case h_1 => cases h
  case h_2 a ha =>
    have ⟨agetime, pc, rest, bin⟩ := a
    cases pc <;> dsimp only at h
    case scan =>
      split at h
      case h_1 => cases h; exact ⟨empty, off, calls, holders, pool, trash⟩
      case h_2 => split at h <;> cases h <;> exact ⟨empty, off, calls, holders, pool, trash⟩
    case tell w =>
      cases h
      refine ⟨empty, off, calls, fun u hu => holders u ?_, pool, trash⟩
      rwa [← holds_tellExit (w := w)]
    case erase w =>
      cases h
      refine ⟨empty, off, calls, fun u hu => ?_, fun hj => ?_, trash⟩
      · have hn := ho hv w (by simp [erasing, ha])
        have hne : u ≠ w := fun he => hn (he ▸ hu)
        exact (holders u hu).imp_left (List.mem_erase_of_ne hne).mpr
      · simp [pool hj]
    case join =>
      split at h
      case h_1 => cases h; exact ⟨empty, off, calls, holders, pool, trash⟩
      case h_2 =>
        have ⟨_, h⟩ := Option.ite_none_left_eq_some.mp h
        cases h
        exact ⟨empty, off, calls, holders, pool, trash⟩
    all_goals
      cases h
      exact ⟨empty, off, calls, holders, pool, trash⟩

-- Join has waited for the end of the worker.
theorem Closing.not_holds_of_joined (k : Closing s) (st : Started s) (h : ¬s.running w) :
    ¬s.holds w := by
  intro hh
  have ⟨x, hx, hp⟩ := (Option.any_eq_true _ _).mp hh
  have hr : ¬x.running := by simpa [running, hx] using h
  obtain h | h | ⟨t, ht⟩ := st w x hx
  · exact hr h
  · rw [h] at hp
    cases hp
  · have ⟨pc, hpc, hs⟩ := (Option.any_eq_true _ _).mp ht
    refine k.calls pc (List.mem_of_getElem? hpc) ?_
    cases pc <;> simp_all [CallPc.starts, CallPc.inside]

theorem Closing.termStep (k : Closing s) (st : Started s) (hv : s.term.over)
    (h : s.termStep = some s') : Closing s' ∧ s'.term.over := by
  have ⟨empty, off, calls, holders, pool, trash⟩ := k
  unfold ThreadPool.termStep at h
  cases ht : s.term <;> simp only [ht] at h
  case none | quick | enable | wait => simp [ht, TermPc.over] at hv
  case returned                     => cases h
  case min => cases h; exact ⟨⟨empty, off, calls, holders, nofun, nofun⟩, rfl⟩
  case max => cases h; exact ⟨⟨empty, off, calls, holders, nofun, nofun⟩, rfl⟩
  case tell =>
    split at h <;> cases h
    case h_1 hp => exact ⟨⟨empty, off, calls, holders, fun _ => hp, nofun⟩, rfl⟩
    case h_2    => exact ⟨⟨empty, off, calls, holders, nofun, nofun⟩, rfl⟩
  case status w =>
    cases h
    refine ⟨⟨empty, off, calls, fun u hu => holders u ?_, nofun, nofun⟩, rfl⟩
    rwa [← holds_tellExit (w := w)]
  case drop w =>
    cases h
    refine ⟨⟨empty, off, calls, fun u hu => ?_, nofun, nofun⟩, rfl⟩
    by_cases hw : u = w
    case pos => exact .inr (List.mem_append_right _ (List.mem_singleton.mpr hw))
    case neg =>
      exact (holders u hu).imp (List.mem_erase_of_ne hw).mpr (List.mem_append_left _)
  case join =>
    have hp := pool (.inl ht)
    split at h
    case h_1 hj => cases h; exact ⟨⟨empty, off, calls, holders, fun _ => hp, fun _ => hj⟩, rfl⟩
    case h_2 w bin hj =>
      have ⟨hr, h⟩ := Option.ite_none_left_eq_some.mp h
      cases h
      have hn := k.not_holds_of_joined st hr
      refine ⟨⟨empty, off, calls, fun u hu => ?_, fun _ => hp, nofun⟩, rfl⟩
      have hne : u ≠ w := fun he => hn (he ▸ hu)
      rw [hj] at holders
      exact (holders u hu).imp_right fun hm => (List.mem_cons.mp hm).resolve_left hne

theorem Ordered.termStep (k : Ordered s) (st : Started s) (ho : Orderly s .termStep)
    (h : s.termStep = some s') : Ordered s' := by
  by_cases hv : s.term.over
  case pos =>
    have ⟨c, hv⟩ := (k.closing hv).termStep st hv h
    exact ⟨fun hw => by simp [hw, TermPc.over] at hv, fun _ => c⟩
  case neg =>
    unfold ThreadPool.termStep at h
    cases ht : s.term <;> simp only [ht] at h
    case none  => cases h
    case quick => cases h; exact ⟨nofun, nofun⟩
    case enable => cases h; exact ⟨fun _ => rfl, nofun⟩
    case wait =>
      cases h
      by_cases he : s.tasks.length = 0
      case neg => rw [if_neg he]; exact ⟨fun _ => k.off ht, nofun⟩
      case pos =>
        rw [if_pos he]
        have he := List.length_eq_zero_iff.mp he
        have ⟨calls, holders⟩ := ho.2 ht he
        refine ⟨nofun, fun _ => ⟨he, k.off ht, calls, fun w hw => .inl (holders w ?_ hw), nofun, nofun⟩⟩
        by_contra hl
        have hw : s.holds w = true := hw
        simp [holds, List.getElem?_eq_none (Nat.not_lt.mp hl)] at hw
    all_goals simp [ht, TermPc.over] at hv

theorem Ordered.of_orderly (h : (threadPool lo hi).Reach Orderly s) : Ordered s := by
  apply h.invariant_with (J := Started) (fun _ h => .of_reachable h.reachable)
  case h₀ =>
    rintro _ ⟨times, pool, _, _⟩
    exact ⟨nofun, nofun⟩
  case hs =>
    intro s a s' st k ho h
    have h : s.step a = some s' := h
    have keep (ht : s'.term = s.term) (he : s'.enableInsertTask = s.enableInsertTask)
        (hc : s.term.over → Closing s') : Ordered s' := by
      refine ⟨?_, ht ▸ hc⟩
      rw [ht, he]
      exact k.off
    cases a
    case termStep => exact k.termStep st ho h
    case terminate =>
      have ⟨_, h⟩ := Option.ite_none_right_eq_some.mp h
      cases h
      exact ⟨nofun, nofun⟩
    case age =>
      have ⟨_, h⟩ := Option.ite_none_right_eq_some.mp h
      cases h
      refine keep rfl rfl fun hv => ?_
      have ⟨empty, off, calls, holders, pool, trash⟩ := k.closing hv
      exact ⟨empty, off, calls, holders, pool, trash⟩
    case agedStep =>
      have ⟨_, _, _, _, _, _, _, _, _, _, _, stay, eq⟩ := agedStep_control h
      have ⟨ht, he⟩ := stay rfl
      refine keep (eq ▸ ht) (eq ▸ he) fun hv => ?_
      exact ((k.closing hv).agedStep ho hv h)
    case work =>
      have ⟨same, _⟩ := work_same h
      exact keep same.term same.enableInsertTask fun hv => (k.closing hv).work h
    case call =>
      have ⟨same, _⟩ := call_same h
      exact keep same.term same.enableInsertTask fun hv => (k.closing hv).call h
    case execute =>
      cases h
      refine keep rfl rfl fun hv => ?_
      have ⟨empty, off, calls, holders, pool, trash⟩ := k.closing hv
      refine ⟨empty, off, ?_, holders, pool, trash⟩
      exact List.forall_mem_append.mpr ⟨calls, by simp [CallPc.inside]⟩

theorem eq_nil_of_not_holds (h : ∀ w, ¬s.holds w) : s.before = [] ∧ s.past = [] := by
  have free : ∀ x ∈ s.workers, x.pc.before = [] ∧ x.pc.past = [] := by
    intro x hx
    have ⟨w, hw⟩ := List.getElem?_of_mem hx
    have hn : ¬x.pc.holds := by simpa [holds, hw] using h w
    cases hp : x.pc <;> simp_all [WorkerPc.holds, WorkerPc.before, WorkerPc.past]
  exact ⟨List.flatMap_eq_nil_iff.mpr fun x hx => (free x hx).1,
    List.flatMap_eq_nil_iff.mpr fun x hx => (free x hx).2⟩

-- All that was pushed is through when Terminate returns.
theorem drained_of_returned (h : (threadPool lo hi).Reach Orderly s) (hr : s.term = .returned) :
    s.pushed.Perm s.takenTasks ∧ s.pushed.Perm (s.ran ++ s.skipped) ∧ s.pushed.Perm s.deleted := by
  have c := (Ordered.of_orderly h).closing (by simp [hr, TermPc.over])
  have k := Accounts.of_reachable h.reachable
  have hn : ∀ w, ¬s.holds w := by
    intro w hw
    have hm := c.holders w hw
    rw [c.pool (.inr hr), c.trash hr] at hm
    exact hm.elim nofun nofun
  have ⟨hb, hp⟩ := eq_nil_of_not_holds hn
  have queue : s.pushed.Perm s.takenTasks := by simpa [c.empty] using k.queue.perm
  have taken : s.takenTasks.Perm (s.ran ++ s.skipped) := by simpa [hb] using k.taken.perm
  have tested : (s.ran ++ s.skipped).Perm s.deleted := by simpa [hp] using k.tested.perm
  exact ⟨queue, queue.trans taken, queue.trans (taken.trans tested)⟩

-- The fate of the tasks: those that Execute has rejected are never taken; those that it has
-- accepted have been taken by one worker, deleted once and run once when Terminate returns, unless
-- they were taken with m_bQuickFree set.
structure ExecutedOnce (s : ThreadPool) : Prop where
  rejected : ∀ t, s.calls[t]? = some (.returned false) → t ∉ s.takenTasks
  accepted : s.term = .returned → ∀ t, s.calls[t]? = some (.returned true) →
    s.takenTasks.count t = 1 ∧ s.deleted.count t = 1 ∧ (t ∉ s.quickTaken → s.ran.count t = 1)

theorem executed_once (h : (threadPool lo hi).Reach Orderly s) : s.ExecutedOnce := by
  have k := Accounts.of_reachable h.reachable
  constructor
  case rejected =>
    intro t ht hm
    have hp : t ∈ s.pushed := k.queue.perm.mem_iff.mpr (List.mem_append_left _ hm)
    simp [k.pushed, ht, CallPc.pushed] at hp
  case accepted =>
    intro hr t ht
    obtain ⟨taken, tested, deleted⟩ := drained_of_returned h hr
    have hp : t ∈ s.pushed := by simp [k.pushed, ht, CallPc.pushed]
    have hc : s.pushed.count t = 1 := List.count_eq_one_of_mem k.queue.nodup hp
    refine ⟨taken.count_eq t ▸ hc, deleted.count_eq t ▸ hc, fun hq => ?_⟩
    have hs : s.skipped.count t = 0 :=
      List.count_eq_zero.mpr fun hs => hq ((Quick.of_orderly h).skipped t hs)
    have ht := tested.count_eq t
    rw [List.count_append] at ht
    omega

-- One worker. The task of call 0 is run, call 1 comes after the end.
def fresh : ThreadPool where
  workers := [⟨.init, false, 0, true, .init⟩]
  pool    := [0]
  minThreads := 1
  maxThreads := 2
  tasks := []
  calls := []
  aged := none
  term := .none
  trash := []
  quickFree := false
  enableInsertTask := true
  pushed := []
  taken := []
  quickTaken := []
  ran := []
  skipped := []
  deleted := []

theorem fresh_init : (threadPool 1 2).init fresh :=
  Init.intro [0] [0] rfl (.refl _)

def executeActs : List Act :=
  .execute :: List.replicate 6 (.call 0 0 0)

def sampleActs : List Act :=
  executeActs ++ List.replicate 7 (Act.work 0 0) ++ [Act.terminate false] ++
  List.replicate 8 Act.termStep ++ List.replicate 4 (Act.work 0 0) ++
  List.replicate 3 Act.termStep ++ [Act.execute, .call 1 0 0]

theorem executed_once_sample : ∃ s, (threadPool 1 2).Reach Orderly s ∧
    (s.term = .returned ∧ s.calls = [.returned true, .returned false]) ∧ s.ExecutedOnce := by
  have run : ∃ s, (threadPool 1 2).Reach Orderly s ∧
      (s.term = .returned ∧ s.calls = [.returned true, .returned false]) :=
    System.Reach.exists_of_run sampleActs _ fresh_init (by decide)
  have ⟨s, hr, hs⟩ := run
  exact ⟨s, hr, hs, executed_once hr⟩

-- The call is past its test when Terminate sees the empty queue, and pushes when the worker has
-- ended.
def lateActs : List Act :=
  [Act.work 0 0, .execute, .call 0 0 0, .terminate false] ++ List.replicate 8 Act.termStep ++
  List.replicate 2 (Act.work 0 0) ++ List.replicate 6 (Act.call 0 0 0) ++ List.replicate 3 Act.termStep

theorem not_executed_once : ¬∀ lo hi s, (threadPool lo hi).Reachable s → s.ExecutedOnce := by
  intro h
  have ⟨s, hr, ht, hc, hn⟩ := (threadPool 1 2).exists_of_run lateActs
    (fun s => s.term = .returned ∧ s.calls = [.returned true] ∧ s.takenTasks = []) fresh_init
    (by decide)
  have ⟨taken, _, _⟩ := (h 1 2 s hr).accepted ht 0 (by simp [hc])
  simp [hn] at taken

end ThreadPool
end NetPool
