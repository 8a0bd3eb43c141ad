import Mathlib

namespace NetPool

-- Slots 1 to `n` that are filled in turn. `cur` is the slot that was filled last, or any number in
-- the beginning. Without any slot allowed there is still the first one.
structure Rotation (α : Type*) where
  slot : Nat → Option α
  cur  : Nat

namespace Rotation

variable {α : Type*} {r r₀ : Rotation α} {n i k cur : Nat} {x : α} {xs : List α}

def next (n cur : Nat) : Nat :=
  (if cur ≥ n then 0 else cur) + 1

def push (n : Nat) (r : Rotation α) (x : α) : Rotation α where
  slot := Function.update r.slot (next n r.cur) (some x)
  cur  := next n r.cur

-- The slot that was filled `i` turns before the last one.
def back (n cur i : Nat) : Nat :=
  (cur + max 1 n - 1 - i) % max 1 n + 1

theorem next_pos : 1 ≤ next n cur :=
  Nat.succ_pos _

theorem next_le : next n cur ≤ max 1 n := by
  unfold next
  split <;> omega

theorem back_zero (h₁ : 1 ≤ cur) (h₂ : cur ≤ max 1 n) : back n cur 0 = cur := by
  have h : cur + max 1 n - 1 - 0 = cur - 1 + max 1 n := by omega
  rw [back, h, Nat.add_mod_right, Nat.mod_eq_of_lt (by omega)]
  omega

theorem back_next (h₁ : 1 ≤ cur) (h₂ : cur ≤ max 1 n) (hi : i + 1 < max 1 n) :
    back n (next n cur) (i + 1) = back n cur i := by
  unfold back next
  split
  case isTrue hc  =>
    -- The last slot is followed by the first one, a whole turn later.
    have hn : cur = max 1 n := by omega
    have h₃ : cur + max 1 n - 1 - i = (0 + 1 + max 1 n - 1 - (i + 1)) + max 1 n := by omega
    rw [h₃, Nat.add_mod_right]
  case isFalse hc =>
    have h₃ : cur + 1 + max 1 n - 1 - (i + 1) = cur + max 1 n - 1 - i := by omega
    rw [h₃]

theorem back_ne_next (h₁ : 1 ≤ cur) (h₂ : cur ≤ max 1 n) (hi : i + 1 < max 1 n) :
    back n cur i ≠ next n cur := by
  unfold back next
  have lt : cur + max 1 n - 1 - i < 2 * max 1 n := by omega
  by_cases hlt : cur + max 1 n - 1 - i < max 1 n
  case pos =>
    rw [Nat.mod_eq_of_lt hlt]
    split <;> omega
  case neg =>
    rw [Nat.mod_eq_sub_mod (by omega), Nat.mod_eq_of_lt (by omega)]
    split <;> omega

-- The oldest slot is the one that is filled next.
theorem back_last (h₁ : 1 ≤ cur) (h₂ : cur ≤ max 1 n) : back n cur (max 1 n - 1) = next n cur := by
  unfold back next
  split
  case isTrue hc  =>
    have h₃ : cur + max 1 n - 1 - (max 1 n - 1) = max 1 n := by omega
    rw [h₃, Nat.mod_self]
  case isFalse hc =>
    have h₃ : cur + max 1 n - 1 - (max 1 n - 1) = cur := by omega
    rw [h₃, Nat.mod_eq_of_lt (by omega)]

-- `xs` has been pushed, the newest first: the newest of them are in the slots before the last one,
-- as many as there are slots, and no other slot has been touched.
structure Holds (n : Nat) (r₀ : Rotation α) (xs : List α) (r : Rotation α) : Prop where
  cur  : xs ≠ [] → 1 ≤ r.cur ∧ r.cur ≤ max 1 n
  kept : ∀ i < max 1 n, ∀ x, xs[i]? = some x → r.slot (back n r.cur i) = some x
  rest : ∀ k, (∀ i < max 1 n, i < xs.length → k ≠ back n r.cur i) → r.slot k = r₀.slot k

-- The number of the last slot plays no part before the first push.
theorem Holds.nil (h : r.slot = r₀.slot) : Holds n r₀ [] r where
  cur  := nofun
  kept := by simp
  rest := fun k _ => congrFun h k

theorem Holds.push (h : Holds n r₀ xs r) : Holds n r₀ (x :: xs) (r.push n x) := by
  have zero : back n (next n r.cur) 0 = next n r.cur := back_zero next_pos next_le
  refine ⟨fun _ => ⟨next_pos, next_le⟩, ?_, ?_⟩
  case refine_1 =>
    intro i hi y hy
    dsimp only [Rotation.push]
    match i, hy with
    | 0,     hy =>
      obtain rfl : x = y := by simpa using hy
      rw [zero, Function.update_self]
    | i + 1, hy =>
      have hy : xs[i]? = some y := hy
      have hx : xs ≠ [] := by rintro rfl; simp at hy
      have ⟨h₁, h₂⟩ := h.cur hx
      rw [back_next h₁ h₂ hi, Function.update_of_ne (back_ne_next h₁ h₂ hi)]
      exact h.kept i (by omega) y hy
  case refine_2 =>
    intro k hk
    dsimp only [Rotation.push] at hk ⊢
    have hne : k ≠ next n r.cur := fun he =>
      hk 0 (by omega) (by simp) (he.trans zero.symm)
    rw [Function.update_of_ne hne]
    refine h.rest k fun i hi hl => ?_
    by_cases hl' : i + 1 < max 1 n
    case pos =>
      have ⟨h₁, h₂⟩ := h.cur (by rintro rfl; simp at hl)
      rw [← back_next h₁ h₂ hl']
      exact hk (i + 1) hl' (by simpa using hl)
    case neg =>
      have ⟨h₁, h₂⟩ := h.cur (by rintro rfl; simp at hl)
      obtain rfl : i = max 1 n - 1 := by omega
      rwa [back_last h₁ h₂]

-- A slot that is not one of the first `n` is never filled.
theorem Holds.outside (h : Holds n r₀ xs r) (hk : k = 0 ∨ max 1 n < k) : r.slot k = r₀.slot k := by
  refine h.rest k fun i _ _ => ?_
  have lt := Nat.mod_lt (r.cur + max 1 n - 1 - i) (show max 1 n > 0 by omega)
  unfold back
  omega

end Rotation
end NetPool
