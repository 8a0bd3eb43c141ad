import NetPool.Pool.Terminate

namespace NetPool
namespace ThreadPool

variable {s s' : ThreadPool} {a : Act} {lo hi w t pos now : Nat}

-- aged_worker has read that the pool has more than the minimal number of workers.
def AgedPc.spares : AgedPc → Bool
  | .busy _ | .time _ | .tell _ | .erase _ => true
  | .scan | .join => false

structure Bounds (lo hi : Nat) (s : ThreadPool) : Prop where
  min   : s.minThreads = lo
  max   : s.maxThreads = hi
  low   : lo ≤ s.pool.length
  high  : s.pool.length ≤ hi
  spare : ∀ a ∈ s.aged, a.pc.spares → lo < s.pool.length

-- When a call of Execute inserts its worker, the pool still has less than the maximal number.
def RoomLeft (s : ThreadPool) : Act → Prop
  | .call t _ _ => s.calls[t]? = some .insert → s.pool.length < s.maxThreads
  | .execute | .work .. | .age _ | .agedStep | .terminate _ | .termStep => True

instance : ∀ s a, Decidable (RoomLeft s a)
  | _, .call .. => inferInstanceAs (Decidable (_ → _))
  | _, .execute | _, .work .. | _, .age _ | _, .agedStep | _, .terminate _ | _, .termStep =>
    inferInstanceAs (Decidable True)

namespace Bounds

theorem frame (b : Bounds lo hi s) (hm : s'.minThreads = s.minThreads)
    (hx : s'.maxThreads = s.maxThreads) (hp : s'.pool = s.pool) (ha : s'.aged = s.aged) :
    Bounds lo hi s' where
  min   := hm.trans b.min
  max   := hx.trans b.max
  low   := hp ▸ b.low
  high  := hp ▸ b.high
  spare := by
    rw [ha, hp]
    exact b.spare

theorem work (b : Bounds lo hi s) (h : s.work w now = some s') : Bounds lo hi s' := by
  have ⟨same, _, pool, _⟩ := work_same h
  refine b.frame ?_ same.maxThreads pool same.aged
  unfold ThreadPool.work at h
  split at h
  case h_1 => cases h
  case h_2 x _ =>
    have ⟨status, isBusy, updateTime, running, pc⟩ := x
    cases pc <;> dsimp only at h
    case created | done => cases h
    case get  => split at h <;> cases h <;> rfl
    case busy => cases h; split <;> rfl
    all_goals
      cases h
      rfl

theorem call (b : Bounds lo hi s) (ok : RoomLeft s (.call t pos now))
    (h : s.call t pos now = some s') : Bounds lo hi s' := by
  unfold ThreadPool.call at h
  dsimp only at h
  split at h
  case h_1 | h_13 => cases h
  case h_8 hc =>
    have ⟨⟨idle, hp⟩, h⟩ := Option.ite_none_right_eq_some.mp h
    have room := ok hc
    have length : (s.pool.insertIdx pos s.workers.length).length = s.pool.length + 1 :=
      List.length_insertIdx_of_le_length hp _
    cases h
    rw [Option.isNone_iff_eq_none] at idle
    refine ⟨b.min, b.max, ?_, ?_, by simp [idle]⟩
    case refine_1 => exact length ▸ Nat.le_succ_of_le b.low
    case refine_2 => exact length ▸ b.max ▸ room
  all_goals
    cases h
    exact b.frame rfl rfl rfl rfl

theorem pass (b : Bounds lo hi s) {aged : Option Aged}
    (h : ∀ a ∈ aged, a.pc.spares → lo < s.pool.length) : Bounds lo hi { s with aged := aged } :=
  ⟨b.min, b.max, b.low, b.high, h⟩

-- Only the removal changes the pool, and it is behind the comparison with the minimal number.
theorem agedStep (b : Bounds lo hi s) (h : s.agedStep = some s') : Bounds lo hi s' := by
  unfold ThreadPool.agedStep at h
  split at h
  case h_1 => cases h
  case h_2 a ha =>
    have spare := b.spare a ha
    dsimp only at h
    split at h
    case h_1 hp =>
      split at h
      case h_1 => cases h; exact b.pass (by simp [AgedPc.spares])
      case h_2 =>
        split at h <;> cases h
        case isTrue     => exact b.pass (by simp [AgedPc.spares])
        case isFalse hl => exact b.pass fun _ _ _ => b.min ▸ Nat.lt_of_not_le hl
    case h_2 w hp =>
      cases h
      exact b.pass fun _ _ _ => spare (by simp [hp, AgedPc.spares])
    case h_3 w hp =>
      cases h
      exact b.pass fun _ _ _ => spare (by simp [hp, AgedPc.spares])
    case h_4 w hp =>
      cases h
      have b : Bounds lo hi (s.tellExit w) := b.frame rfl rfl rfl rfl
      exact b.pass fun _ _ _ => spare (by simp [hp, AgedPc.spares])
    case h_5 w hp =>
      have spare := spare (by simp [hp, AgedPc.spares])
      have length := List.length_erase (a := w) (l := s.pool)
      have high := b.high
      cases h
      refine ⟨b.min, b.max, ?_, ?_, by simp [AgedPc.spares]⟩
      all_goals
        dsimp only
        split at length <;> omega
    case h_6 =>
      split at h
      case h_1 => cases h; exact b.pass (by simp)
      case h_2 =>
        have ⟨_, h⟩ := Option.ite_none_left_eq_some.mp h
        cases h
        exact b.pass (by simp [*, AgedPc.spares])

end Bounds

-- Terminate goes on once it has begun.
theorem termStep_begun (h : s.termStep = some s') : s'.term ≠ .none := by
  unfold termStep at h
  split at h
  case h_1 | h_11 => cases h
  case h_4  => cases h; dsimp only; split <;> simp
  case h_7  => split at h <;> cases h <;> simp
  case h_10 =>
    split at h
    case h_1 => cases h; simp
    case h_2 =>
      have ⟨_, h⟩ := Option.ite_none_left_eq_some.mp h
      cases h
      simp [*]
  all_goals
    cases h
    simp

theorem bounds_step (b : s.term = .none → Bounds lo hi s) (ok : RoomLeft s a)
    (h : s.step a = some s') (ht : s'.term = .none) : Bounds lo hi s' := by
  cases a
  case execute     => cases h; exact (b ht).frame rfl rfl rfl rfl
  case call        => exact (b ((call_same h).1.term ▸ ht)).call ok h
  case work        => exact (b ((work_same h).1.term ▸ ht)).work h
  case termStep    => exact absurd ht (termStep_begun h)
  case agedStep    =>
    have ⟨_, _, _, _, _, _, _, _, _, _, _, stay, eq⟩ := agedStep_control h
    have same : s'.term = s.term := eq ▸ (stay rfl).1
    exact (b (same ▸ ht)).agedStep h
  case age =>
    have ⟨_, h⟩ := Option.ite_none_right_eq_some.mp h
    cases h
    exact (b ht).pass (by simp [AgedPc.spares])
  case terminate =>
    have ⟨_, h⟩ := Option.ite_none_right_eq_some.mp h
    cases h
    cases ht

-- The size that Execute compares with the maximal number may be an old one when it inserts.
theorem pool_bounds (hl : lo ≤ hi) (h : (threadPool lo hi).Reach RoomLeft s)
    (ht : s.term = .none) : lo ≤ s.pool.length ∧ s.pool.length ≤ hi := by
  have inv : s.term = .none → Bounds lo hi s := by
    apply h.invariant
    case h₀ =>
      rintro _ ⟨times, pool, length, perm⟩ _
      have length := perm.length_eq
      rw [List.length_range] at length
      exact ⟨rfl, rfl, length.ge, length ▸ hl, nofun⟩
    case hs => exact fun _ _ _ b ok h => bounds_step b ok h
  exact ⟨(inv ht).low, (inv ht).high⟩

-- A call pushes a task, and two calls that see it come to the insertion of a worker.
def growActs : List Act :=
  [Act.execute, .execute, .execute] ++ List.replicate 5 (Act.call 0 0 0) ++
  List.replicate 5 (Act.call 1 0 0) ++ List.replicate 5 (Act.call 2 0 0)

theorem pool_bounds_grown : ∃ s, (threadPool 1 2).Reach RoomLeft s ∧ s.pool = [1, 0] ∧
    (1 ≤ s.pool.length ∧ s.pool.length ≤ 2) := by
  have ⟨s, hr, hp, ht⟩ : ∃ s, (threadPool 1 2).Reach RoomLeft s ∧ s.pool = [1, 0] ∧
      s.term = .none :=
    System.Reach.exists_of_run (growActs ++ [.call 1 0 0]) _ fresh_init (by decide)
  exact ⟨s, hr, hp, pool_bounds (by decide) hr ht⟩

-- There is room for one more worker, and both calls insert theirs.
theorem not_pool_bounds : ∃ s, (threadPool 1 2).Reachable s ∧ s.term = .none ∧
    s.pool = [2, 1, 0] ∧ ¬s.pool.length ≤ 2 :=
  System.exists_of_run (growActs ++ [.call 1 0 0, .call 2 0 0]) _ fresh_init (by decide)

end ThreadPool
end NetPool
