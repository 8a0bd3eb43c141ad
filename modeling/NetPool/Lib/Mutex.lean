import Mathlib

namespace NetPool

-- A mutex: the thread that holds it, and how often it has taken it beyond the first time.
abbrev Mutex (τ : Type*) :=
  Option (τ × Nat)

namespace Mutex

variable {τ : Type*} [DecidableEq τ] {m m' : Mutex τ} {t u : τ} {recursive : Bool}

def depth (m : Mutex τ) (t : τ) : Nat :=
  match m with
  | none        => 0
  | some (o, d) => if o = t then d + 1 else 0

-- Whether the holder of a mutex can take it again depends on how it was made.
def acquire (m : Mutex τ) (recursive : Bool) (t : τ) : Option (Mutex τ) :=
  match m with
  | none        => some <| some (t, 0)
  | some (o, d) => if o = t ∧ recursive then some <| some (o, d + 1) else none

def release (m : Mutex τ) (t : τ) : Option (Mutex τ) :=
  match m with
  | none        => none
  | some (o, d) => if o = t then some <| match d with | 0 => none | d + 1 => some (o, d) else none

@[simp]
theorem depth_none : depth none t = 0 :=
  rfl

theorem depth_acquire (h : m.acquire recursive t = some m') :
    m'.depth t = m.depth t + 1 ∧ ∀ u, u ≠ t → m'.depth u = m.depth u := by
  cases m
  case none =>
    cases h
    exact ⟨by simp [depth], fun u hu => by simp [depth, hu.symm]⟩
  case some o =>
    have ⟨⟨ho, _⟩, h⟩ := Option.ite_none_right_eq_some.mp h
    cases h
    exact ⟨by simp [depth, ho], fun u hu => by simp [depth, ho, hu.symm]⟩

theorem depth_release (h : m.release t = some m') :
    m.depth t = m'.depth t + 1 ∧ ∀ u, u ≠ t → m'.depth u = m.depth u := by
  cases m
  case none   => cases h
  case some o =>
    have ⟨o, d⟩ := o
    have ⟨ho, h⟩ := Option.ite_none_right_eq_some.mp h
    cases h
    cases d
    case zero   => exact ⟨by simp [depth, ho], fun u hu => by simp [depth, ho, hu.symm]⟩
    case succ d => exact ⟨by simp [depth, ho], fun u hu => by simp [depth, ho, hu.symm]⟩

-- Mutual exclusion.
theorem eq_of_depth (ht : 0 < m.depth t) (hu : 0 < m.depth u) : t = u := by
  cases m
  case none   => cases ht
  case some o =>
    by_cases hot : o.1 = t
    case neg => simp [depth, hot] at ht
    case pos =>
      by_cases hou : o.1 = u
      case neg => simp [depth, hou] at hu
      case pos => exact hot.symm.trans hou

end Mutex
end NetPool
