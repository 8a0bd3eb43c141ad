import Mathlib

namespace NetPool

-- Cells that are filled at `rear` and emptied at `front`, both counted modulo `n`. One cell stays
-- free, so that the full ring differs from the empty one.
structure Ring (α : Type*) (n : Nat) where
  data  : Nat → α
  front : Nat
  rear  : Nat

namespace Ring

variable {α : Type*} {n : Nat} {r : Ring α n} {x : α} {i : Nat}

def isEmpty (r : Ring α n) : Bool :=
  r.front == r.rear

def isFull (r : Ring α n) : Bool :=
  r.front == (r.rear + 1) % n

def store (r : Ring α n) (x : α) : Ring α n :=
  { r with data := Function.update r.data r.rear x }

def publish (r : Ring α n) : Ring α n :=
  { r with rear := (r.rear + 1) % n }

def release (r : Ring α n) : Ring α n :=
  { r with front := (r.front + 1) % n }

-- The number of the cells in use, and what they hold.
def count (r : Ring α n) : Nat :=
  (r.rear + n - r.front) % n

def contents (r : Ring α n) : List α :=
  (List.range r.count).map fun i => r.data ((r.front + i) % n)

structure Wf (r : Ring α n) : Prop where
  front : r.front < n
  rear  : r.rear < n

theorem wrap (h : i < 2 * n) : i % n = if i < n then i else i - n := by
  split
  case isTrue hi  => exact Nat.mod_eq_of_lt hi
  case isFalse hi => rw [Nat.mod_eq_sub_mod (by omega), Nat.mod_eq_of_lt (by omega)]

namespace Wf

variable (wf : r.Wf)
include wf

theorem count_eq : r.count = if r.front ≤ r.rear then r.rear - r.front else r.rear + n - r.front := by
  have ⟨hf, hr⟩ := wf
  rw [count, wrap (by omega)]
  split <;> split <;> omega

theorem count_lt : r.count < n :=
  Nat.mod_lt _ (by have := wf.front; omega)

theorem store : (r.store x).Wf :=
  ⟨wf.front, wf.rear⟩

theorem publish : r.publish.Wf :=
  ⟨wf.front, Nat.mod_lt _ (by have := wf.front; omega)⟩

theorem release : r.release.Wf :=
  ⟨Nat.mod_lt _ (by have := wf.front; omega), wf.rear⟩

theorem isEmpty_iff : r.isEmpty ↔ r.contents = [] := by
  have ⟨hf, hr⟩ := wf
  simp only [isEmpty, beq_iff_eq, contents, List.map_eq_nil_iff, List.range_eq_nil, wf.count_eq]
  split <;> omega

theorem isFull_iff : r.isFull ↔ r.count + 1 = n := by
  have ⟨hf, hr⟩ := wf
  rw [isFull, beq_iff_eq, wf.count_eq, wrap (by omega)]
  split <;> split <;> omega

theorem count_publish (hf : ¬r.isFull) : r.publish.count = r.count + 1 := by
  have ⟨_, _⟩ := wf
  rw [wf.isFull_iff, wf.count_eq] at hf
  rw [wf.publish.count_eq, wf.count_eq]
  simp only [Ring.publish, wrap (show r.rear + 1 < 2 * n by omega)]
  grind

theorem count_release (he : ¬r.isEmpty) : r.count = r.release.count + 1 := by
  have ⟨_, _⟩ := wf
  rw [isEmpty, beq_iff_eq] at he
  rw [wf.release.count_eq, wf.count_eq]
  simp only [Ring.release, wrap (show r.front + 1 < 2 * n by omega)]
  grind

-- The cell at `rear` is not in use.
theorem cell_ne_rear (hi : i < r.count) : (r.front + i) % n ≠ r.rear := by
  have ⟨_, _⟩ := wf
  rw [wf.count_eq] at hi
  rw [wrap (by grind)]
  grind

theorem cell_count : (r.front + r.count) % n = r.rear := by
  have ⟨_, _⟩ := wf
  have := wf.count_lt
  rw [wrap (by omega), wf.count_eq]
  grind

theorem contents_store : (r.store x).contents = r.contents := by
  apply List.map_congr_left
  intro i hi
  exact Function.update_of_ne (wf.cell_ne_rear <| List.mem_range.mp hi) _ _

theorem contents_publish (hf : ¬r.isFull) : r.publish.contents = r.contents ++ [r.data r.rear] := by
  have hc : (r.publish.front + r.count) % n = r.rear := wf.cell_count
  rw [contents, wf.count_publish hf, List.range_succ, List.map_append, List.map_singleton, hc]
  rfl

theorem contents_release (he : ¬r.isEmpty) :
    r.contents = r.data r.front :: r.release.contents := by
  have hf : (r.front + 0) % n = r.front := Nat.mod_eq_of_lt wf.front
  rw [contents, wf.count_release he, List.range_succ_eq_map, List.map_cons, List.map_map, hf]
  congr 1
  apply List.map_congr_left
  intro i _
  simp [Ring.release, Nat.add_assoc, Nat.add_comm 1 i]

end Wf

@[simp]
theorem length_contents : r.contents.length = r.count := by
  simp [contents]

end Ring
end NetPool
