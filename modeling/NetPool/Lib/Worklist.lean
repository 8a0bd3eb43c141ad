import Mathlib

namespace NetPool

-- A list under an iterator that has moved on before the item at hand is served. What an item asks
-- for comes in at the end, and is not found if the iterator stands there already.
structure Worklist (α : Type*) where
  served : Nat
  queue  : List α

namespace Worklist

variable {α : Type*} (due : α → Bool) (asks : Nat → List α)

def turn (w : Worklist α) : Worklist α :=
  match w.queue with
  | []             => w
  | [a]            => ⟨if due a then w.served + 1 else w.served, []⟩
  | a :: b :: rest =>
    if due a then ⟨w.served + 1, b :: rest ++ asks w.served⟩ else ⟨w.served, b :: rest⟩

def Ends (w : Worklist α) : Prop :=
  ∃ n, ((turn due asks)^[n] w).queue = []

-- What comes in from turn `k` on while `n` items are served.
def arrivals (k n : Nat) : List α :=
  (List.range n).flatMap fun i => asks (k + i)

-- At some time nothing is due but what has been served and what came in last.
def Settles (w : Worklist α) : Prop :=
  ∃ n, ((w.queue ++ arrivals asks w.served n).dropLast).countP due ≤ n

variable {due asks} {w : Worklist α} {a : α} {k n : Nat} {q : List α}

theorem arrivals_succ : arrivals asks k (n + 1) = asks k ++ arrivals asks (k + 1) n := by
  simp [arrivals, List.range_succ_eq_map, List.flatMap_map, Nat.add_comm, Nat.add_left_comm]

theorem Ends.of_turn (h : (turn due asks w).Ends due asks) : w.Ends due asks := by
  have ⟨n, h⟩ := h
  exact ⟨n + 1, h⟩

theorem Ends.of_settled (n : Nat)
    (h : ((q ++ arrivals asks k n).dropLast).countP due ≤ n) : Ends due asks ⟨k, q⟩ := by
  induction n generalizing k q
  all_goals
    induction q
    case nil => exact ⟨0, rfl⟩
  case zero.cons a rest hi =>
    apply Ends.of_turn
    cases rest
    case nil => exact ⟨0, rfl⟩
    case cons b rest =>
      have ha : due a = false := by
        by_contra ha
        simp [arrivals, ha] at h
      simp only [turn, ha]
      exact hi (by simpa [arrivals, ha] using h)
  case succ.cons n hn a rest hi =>
    apply Ends.of_turn
    cases rest
    case nil => exact ⟨0, rfl⟩
    case cons b rest =>
      cases ha : due a
      case false =>
        simp only [turn, ha]
        exact hi (by simpa [ha] using h)
      case true =>
        simp only [turn, ha]
        refine hn ?_
        simpa [ha, arrivals_succ] using h

theorem Settles.of_ends (n : Nat) (h : ((turn due asks)^[n] w).queue = []) :
    w.Settles due asks := by
  have ⟨k, q⟩ := w
  induction n generalizing k q
  case zero =>
    obtain rfl : q = [] := h
    exact ⟨0, by simp [arrivals]⟩
  case succ n hi =>
    match q with
    | []  => exact ⟨0, by simp [arrivals]⟩
    | [a] => exact ⟨0, by simp [arrivals]⟩
    | a :: b :: rest =>
      rw [Function.iterate_succ_apply] at h
      cases ha : due a
      case false =>
        have ⟨m, hm⟩ := hi k (b :: rest) (by simpa [turn, ha] using h)
        exact ⟨m, by simpa [ha] using hm⟩
      case true =>
        have ⟨m, hm⟩ := hi (k + 1) (b :: rest ++ asks k) (by simpa [turn, ha] using h)
        refine ⟨m + 1, ?_⟩
        simpa [ha, arrivals_succ] using hm

theorem ends_iff : w.Ends due asks ↔ w.Settles due asks :=
  ⟨fun ⟨n, h⟩ => .of_ends n h, fun ⟨n, h⟩ => .of_settled n h⟩

end Worklist
end NetPool
