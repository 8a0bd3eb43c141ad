import NetPool.Pool.Terminate

namespace NetPool
namespace ThreadPool

variable {s s' : ThreadPool} {x y : Worker} {w u t pos now lo hi : Nat} {a : Act}

-- The task that worker `w` has taken and not tested m_bQuickFree for.
def hand (s : ThreadPool) (w : Nat) : List Nat :=
  (s.workers[w]?.map (·.pc.before)).getD []

def shareOf (s : ThreadPool) (w : Nat) : List Nat :=
  (s.taken.filter (·.2 = w)).map Prod.fst

def ranBy (s : ThreadPool) (w : Nat) : List Nat :=
  s.ran.filter fun task => (task, w) ∈ s.taken

-- A worker runs the tasks in the order in which it has taken them, and the queue gives them out in
-- the order in which they were pushed.
structure InTurn (s : ThreadPool) : Prop where
  queue  : s.pushed = s.takenTasks ++ s.tasks
  worker : ∀ w, (s.ranBy w ++ s.hand w).Sublist (s.shareOf w)
  known  : ∀ p ∈ s.taken, p.2 < s.workers.length

theorem mem_shareOf {task : Nat} : task ∈ s.shareOf w ↔ (task, w) ∈ s.taken := by
  simp [shareOf]

theorem hand_set (hx : s.workers[w]? = some x) :
    (({ s with workers := s.workers.set w y } : ThreadPool).hand u) =
      if u = w then y.pc.before else s.hand u := by
  have ⟨hw, _⟩ := List.getElem?_eq_some_iff.mp hx
  split
  case isTrue h  => subst h; simp [hand, hw]
  case isFalse h => simp [hand, List.getElem?_set_ne (Ne.symm h)]

-- A step that leaves the queue and what the workers hold.
theorem InTurn.congr (k : InTurn s) (hand : ∀ w, s'.hand w = s.hand w)
    (rest : s'.tasks = s.tasks ∧ s'.pushed = s.pushed ∧ s'.taken = s.taken ∧ s'.ran = s.ran)
    (length : s.workers.length ≤ s'.workers.length) : InTurn s' := by
  obtain ⟨tasks, pushed, taken, ran⟩ := rest
  refine ⟨?_, fun w => ?_, fun p hp => ?_⟩
  case refine_1 => rw [pushed, k.queue, takenTasks, takenTasks, taken, tasks]
  case refine_2 => simpa only [ranBy, shareOf, hand, taken, ran] using k.worker w
  case refine_3 => exact Nat.lt_of_lt_of_le (k.known p (taken ▸ hp)) length

theorem hand_of (hx : s.workers[w]? = some x) : s.hand w = x.pc.before := by
  simp [hand, hx]

-- A task is taken once, and before it is run.
theorem taken_once {task : Nat} (acc : Accounts s) (hu : (task, u) ∈ s.taken)
    (hw : (task, w) ∈ s.taken) : u = w := by
  have nodup : s.takenTasks.Nodup := acc.taken.nodup
  have := List.inj_on_of_nodup_map nodup hu hw rfl
  exact congrArg Prod.snd this

theorem taken_of_ran {task : Nat} (acc : Accounts s) (h : task ∈ s.ran) : task ∈ s.takenTasks :=
  acc.taken.perm.mem_iff.mpr (by simp [h])

section Work

variable (k : InTurn s) (hx : s.workers[w]? = some x)
include k hx

theorem InTurn.put (hb : y.pc.before = x.pc.before) :
    InTurn { s with workers := s.workers.set w y } := by
  refine k.congr (fun u => ?_) ⟨rfl, rfl, rfl, rfl⟩ (by simp)
  rw [hand_set hx]
  split
  case isTrue h  => rw [h, hand_of hx, hb]
  case isFalse   => rfl

-- The worker takes the first task.
theorem InTurn.take {task : Nat} {tasks qt : List Nat} (acc : Accounts s)
    (ht : s.tasks = task :: tasks) (hb : x.pc.before = []) (hb' : y.pc.before = [task]) :
    InTurn { s with
      workers := s.workers.set w y, tasks := tasks, taken := s.taken ++ [(task, w)],
      quickTaken := qt } := by
  have waiting : task ∉ s.takenTasks := (acc.queue.mem_held_iff.mp (by simp [ht])).2
  have ran (u : Nat) : (s.ran.filter fun t => (t, u) ∈ s.taken ++ [(task, w)]) = s.ranBy u := by
    refine List.filter_congr fun t hr => ?_
    have ne : t ≠ task := fun h => waiting (h ▸ taken_of_ran acc hr)
    simp [ne]
  refine ⟨?_, fun u => ?_, fun p hp => ?_⟩
  case refine_1 => simp [k.queue, takenTasks, ht]
  case refine_2 =>
    have hand := hand_set (y := y) (u := u) hx
    have taken : ((s.taken ++ [(task, w)]).filter (·.2 = u)).map Prod.fst =
        s.shareOf u ++ if w = u then [task] else [] := by
      rw [List.filter_append, List.map_append, shareOf, List.filter_singleton]
      split <;> simp_all
    have worker := k.worker u
    simp only [ranBy, shareOf, ran, taken] at hand worker ⊢
    change List.Sublist (_ ++ ThreadPool.hand { s with workers := s.workers.set w y } u) _
    rw [hand]
    by_cases h : u = w
    case pos =>
      subst h
      rw [hand_of hx, hb, List.append_nil] at worker
      simpa [hb'] using worker.append_right [task]
    case neg => simpa [h, Ne.symm h] using worker
  case refine_3 =>
    rw [List.mem_append, List.mem_singleton] at hp
    obtain ⟨hw, _⟩ := List.getElem?_eq_some_iff.mp hx
    rw [List.length_set]
    exact hp.elim (k.known p) fun h => h ▸ hw

-- The worker tests m_bQuickFree.
theorem InTurn.test {task : Nat} {ran skipped : List Nat} (acc : Accounts s)
    (hr : ran = s.ran ++ [task] ∨ ran = s.ran) (hb : x.pc.before = [task]) (hb' : y.pc.before = []) :
    InTurn { s with workers := s.workers.set w y, ran := ran, skipped := skipped } := by
  have mine : (task, w) ∈ s.taken := by
    refine mem_shareOf.mp ((k.worker w).subset ?_)
    rw [hand_of hx, hb]
    simp
  refine ⟨k.queue, fun u => ?_, fun p hp => by simpa using k.known p hp⟩
  have hand := hand_set (y := y) (u := u) hx
  have worker := k.worker u
  simp only [ranBy, shareOf] at worker ⊢
  change List.Sublist (_ ++ ThreadPool.hand { s with workers := s.workers.set w y } u) _
  rw [hand]
  by_cases h : u = w
  case pos =>
    subst h
    rw [hand_of hx, hb] at worker
    rw [if_pos rfl, hb', List.append_nil]
    obtain rfl | rfl := hr
    case inl => simpa [mine] using worker
    case inr => exact (List.sublist_append_left _ _).trans worker
  case neg =>
    have other : (task, u) ∉ s.taken := fun hu => h (taken_once acc hu mine)
    rw [if_neg h]
    obtain rfl | rfl := hr
    case inl => simpa [other] using worker
    case inr => exact worker

end Work

theorem InTurn.work (k : InTurn s) (acc : Accounts s) (h : s.work w now = some s') : InTurn s' := by
  unfold ThreadPool.work at h
  split at h
  case h_1 => cases h
  case h_2 x hx =>
    have ⟨status, isBusy, updateTime, running, pc⟩ := x
    cases pc <;> dsimp only at h
    case created | done => cases h
    case get            =>
      split at h <;> cases h
      case h_1        => exact k.put hx rfl
      case h_2 htasks => exact k.take hx acc htasks rfl rfl
    case busy task      =>
      cases h
      split
      case isTrue  => exact k.test hx acc (.inr rfl) rfl rfl
      case isFalse => exact k.test hx acc (.inl rfl) rfl rfl
    case test           =>
      cases h
      refine k.put hx ?_
      dsimp only
      split <;> rfl
    case del task       =>
      cases h
      exact (k.put (y := ⟨status, isBusy, updateTime, running, .stamp⟩) hx rfl).congr (fun _ => rfl)
        ⟨rfl, rfl, rfl, rfl⟩ (Nat.le_refl _)
    all_goals
      cases h
      exact k.put hx rfl

theorem hand_modify {g : Worker → Worker} (hg : ∀ x, (g x).pc.before = x.pc.before) :
    ({ s with workers := s.workers.modify w g } : ThreadPool).hand u = s.hand u := by
  simp only [hand, List.getElem?_modify]
  cases s.workers[u]? <;> simp
  split <;> simp [hg]

theorem InTurn.call (k : InTurn s) (h : s.call t pos now = some s') : InTurn s' := by
  unfold ThreadPool.call at h
  dsimp only at h
  split at h
  case h_1 | h_13 => cases h
  case h_8        =>
    obtain ⟨_, h⟩ := Option.ite_none_right_eq_some.mp h
    cases h
    refine k.congr (fun u => ?_) ⟨rfl, rfl, rfl, rfl⟩ (by simp)
    simp only [hand, List.getElem?_append]
    split
    case isTrue     => rfl
    case isFalse hl =>
      rw [List.getElem?_eq_none (Nat.not_lt.mp hl)]
      cases u - s.workers.length <;> rfl
  case h_9        =>
    cases h
    refine k.congr (fun u => hand_modify fun x => ?_) ⟨rfl, rfl, rfl, rfl⟩ (by simp)
    dsimp only
    split
    case isTrue hx => simp [hx, WorkerPc.before]
    case isFalse   => rfl
  case h_10       =>
    cases h
    exact k.congr (fun u => hand_modify fun x => rfl) ⟨rfl, rfl, rfl, rfl⟩ (by simp)
  case h_11       =>
    cases h
    exact ⟨by simp [k.queue, takenTasks], k.worker, k.known⟩
  all_goals
    cases h
    exact k.congr (fun _ => rfl) ⟨rfl, rfl, rfl, rfl⟩ (Nat.le_refl _)

theorem InTurn.control (k : InTurn s) (c : Control s a s') : InTurn s' := by
  obtain ⟨told, tell, _, _, _, _, _, _, _, _, _, _, rfl⟩ := c
  have k : InTurn told := by
    obtain rfl | ⟨w, rfl⟩ := tell
    case inl => exact k
    case inr =>
      exact k.congr (fun u => hand_modify fun x => rfl) ⟨rfl, rfl, rfl, rfl⟩ (by simp [tellExit])
  exact k.congr (fun _ => rfl) ⟨rfl, rfl, rfl, rfl⟩ (Nat.le_refl _)

theorem InTurn.step (k : InTurn s) (acc : Accounts s) (h : s.step a = some s') : InTurn s' := by
  cases a
  case execute =>
    cases h
    exact k.congr (fun _ => rfl) ⟨rfl, rfl, rfl, rfl⟩ (Nat.le_refl _)
  case call    => exact k.call h
  case work    => exact k.work acc h
  all_goals exact k.control (step_control h nofun nofun nofun)

theorem InTurn.of_reachable (h : (threadPool lo hi).Reachable s) : InTurn s := by
  refine h.invariant_with (fun _ => Accounts.of_reachable) ?_ fun _ _ _ acc k _ hs => k.step acc hs
  rintro _ ⟨times, pool, _, _⟩
  refine ⟨rfl, fun w => ?_, nofun⟩
  simp only [ranBy, shareOf, hand, List.getElem?_map]
  cases times[w]? <;> simp [WorkerPc.before]

-- The tasks come out of the queue in the order in which they went in, a worker runs its tasks in
-- this order, and one worker alone runs all of them in it.
structure Fifo (s : ThreadPool) : Prop where
  queue : s.pushed = s.takenTasks ++ s.tasks
  ran   : ∀ w, (s.ranBy w).Sublist s.pushed
  alone : s.workers.length = 1 → s.ran.Sublist s.pushed

theorem fifo (h : (threadPool lo hi).Reachable s) : s.Fifo := by
  have k := InTurn.of_reachable h
  have acc := Accounts.of_reachable h
  have ran (w : Nat) : (s.ranBy w).Sublist s.pushed := by
    refine ((List.sublist_append_left _ _).trans (k.worker w)).trans ?_
    rw [k.queue]
    exact (List.filter_sublist.map _).trans (List.sublist_append_left _ _)
  refine ⟨k.queue, ran, fun one => ?_⟩
  have all : s.ranBy 0 = s.ran := by
    refine List.filter_eq_self.mpr fun task hr => ?_
    obtain ⟨p, hp, rfl⟩ := List.mem_map.mp (taken_of_ran acc hr)
    have hw : p.2 = 0 := by simpa [one] using k.known p hp
    simpa [← hw] using hp
  exact all ▸ ran 0

-- The second call makes a worker, which runs its task before the first worker runs the other one.
theorem fifo_two : ∃ s, (threadPool 1 2).Reachable s ∧
    (s.pushed = [0, 1] ∧ s.ran = [1, 0] ∧ s.ranBy 0 = [0] ∧ s.ranBy 1 = [1]) ∧ s.Fifo := by
  have ⟨s, hr, hs⟩ := (threadPool 1 2).exists_of_run
    (executeActs ++ [.execute] ++ List.replicate 10 (.call 1 1 0) ++ List.replicate 3 (.work 0 0) ++
      List.replicate 5 (.work 1 0) ++ List.replicate 2 (.work 0 0))
    (fun s => s.pushed = [0, 1] ∧ s.ran = [1, 0] ∧ s.ranBy 0 = [0] ∧ s.ranBy 1 = [1]) fresh_init
    (by decide)
  exact ⟨s, hr, hs, fifo hr⟩

end ThreadPool
end NetPool
