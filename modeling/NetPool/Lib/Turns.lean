import Mathlib

namespace NetPool

-- The first `n` turns among `m`, beginning with that of `c`.
def turns (m c n : Nat) : List Nat :=
  (List.range n).map fun k => (c + k) % m

namespace Turns

variable {m c n v w : Nat}

@[simp]
theorem length_turns : (turns m c n).length = n := by
  simp [turns]

theorem turns_succ : turns m c (n + 1) = turns m c n ++ [(c + n) % m] := by
  simp [turns, List.range_succ]

theorem lt_of_mem (hm : 0 < m) (h : v ∈ turns m c n) : v < m := by
  obtain ⟨k, _, rfl⟩ := List.mem_map.mp h
  exact Nat.mod_lt _ hm

theorem turn_iff (hv : v < m) : (c + n) % m = v ↔ n ≡ v + m - c % m [MOD m] := by
  have hc : c % m < m := Nat.mod_lt c (Nat.zero_lt_of_lt hv)
  have turn : (c + n) % m = v ↔ n + c % m ≡ v + m [MOD m] := by
    rw [Nat.ModEq, Nat.add_mod_right, Nat.mod_eq_of_lt hv, Nat.add_mod_mod, Nat.add_comm]
  have shift : v + m = v + m - c % m + c % m := by omega
  rw [turn, shift, Nat.add_sub_cancel]
  exact ⟨Nat.ModEq.add_right_cancel' _, Nat.ModEq.add_right _⟩

theorem count_turns (hv : v < m) :
    (turns m c n).count v = n / m + if (v + m - c % m) % m < n % m then 1 else 0 := by
  rw [← Nat.count_modEq_card n (Nat.zero_lt_of_lt hv)]
  induction n
  case zero      => simp [turns]
  case succ n hi =>
    rw [turns_succ, List.count_append, hi, Nat.count_succ, List.count_singleton]
    simp only [beq_iff_eq, turn_iff hv]

-- No one has two turns more than another one.
theorem count_turns_le (hv : v < m) (hw : w < m) :
    (turns m c n).count v ≤ (turns m c n).count w + 1 := by
  rw [count_turns hv, count_turns hw]
  split <;> omega

end Turns
end NetPool
