import Mathlib

namespace NetPool

-- A system in which the action determines the next state: the action carries the choice of the
-- scheduler and whatever the environment answers. An action that is not enabled has no next state.
structure System (σ α : Type*) where
  init : σ → Prop
  step : σ → α → Option σ

namespace System

-- The states of the runs in which every step, seen from the state before it, meets `ok`.
inductive Reach (sys : System σ α) (ok : σ → α → Prop) : σ → Prop
  | init : sys.init s → Reach sys ok s
  | step : Reach sys ok s → ok s a → sys.step s a = some s' → Reach sys ok s'

abbrev Always : σ → α → Prop :=
  fun _ _ => True

abbrev Reachable (sys : System σ α) : σ → Prop :=
  Reach sys Always

namespace Reach

variable {sys : System σ α} {ok ok' : σ → α → Prop} {s s' : σ}

theorem mono (h : ∀ s a, ok s a → ok' s a) (r : Reach sys ok s) : Reach sys ok' s := by
  induction r
  case init h₀        => exact .init h₀
  case step ho e hi   => exact .step hi (h _ _ ho) e

theorem reachable (r : Reach sys ok s) : Reachable sys s :=
  r.mono fun _ _ _ => trivial

-- The rule of invariants: an invariant is established initially and kept by every permitted step.
theorem invariant {I : σ → Prop} (h₀ : ∀ s, sys.init s → I s)
    (hs : ∀ s a s', I s → ok s a → sys.step s a = some s' → I s') (r : Reach sys ok s) : I s := by
  induction r
  case init h       => exact h₀ _ h
  case step ho e hi => exact hs _ _ _ hi ho e

-- The same rule, when the step may also use a property that is known of all states of the runs.
theorem invariant_with {I J : σ → Prop} (hJ : ∀ s, Reach sys ok s → J s)
    (h₀ : ∀ s, sys.init s → I s)
    (hs : ∀ s a s', J s → I s → ok s a → sys.step s a = some s' → I s')
    (r : Reach sys ok s) : I s := by
  induction r
  case init h         => exact h₀ _ h
  case step r ho e hi => exact hs _ _ _ (hJ _ r) hi ho e

end Reach

def run (sys : System σ α) (s : σ) : List α → Option σ
  | []      => some s
  | a :: as => (sys.step s a).bind (sys.run · as)

variable {sys : System σ α} {s s' : σ} {as bs : List α}

@[simp]
theorem run_nil : sys.run s [] = some s :=
  rfl

@[simp]
theorem run_cons : sys.run s (a :: as) = (sys.step s a).bind (sys.run · as) :=
  rfl

theorem run_append : sys.run s (as ++ bs) = (sys.run s as).bind (sys.run · bs) := by
  induction as generalizing s
  case nil       => rfl
  case cons a as hi =>
    cases h : sys.step s a <;> simp [h, hi]

theorem run_concat : sys.run s (as ++ [a]) = (sys.run s as).bind (sys.step · a) := by
  simp [run_append, Option.bind_fun_some]

theorem run_split (h : sys.run s (as ++ a :: bs) = some s') :
    ∃ m m', sys.run s as = some m ∧ sys.step m a = some m' ∧ sys.run m' bs = some s' := by
  rw [run_append] at h
  have ⟨m, hm, h⟩ := Option.bind_eq_some_iff.mp h
  have ⟨m', hm', h⟩ := Option.bind_eq_some_iff.mp h
  exact ⟨m, m', hm, hm', h⟩

theorem invariant_of_run {I : σ → Prop} (hs : ∀ s a s', I s → sys.step s a = some s' → I s')
    (h₀ : I s) (h : sys.run s as = some s') : I s' := by
  induction as generalizing s
  case nil => exact Option.some.inj h ▸ h₀
  case cons a as hi =>
    have ⟨m, hm, h⟩ := Option.bind_eq_some_iff.mp h
    exact hi (hs _ _ _ h₀ hm) h

theorem Reachable.of_run (r : Reachable sys s) (h : sys.run s as = some s') : Reachable sys s' := by
  induction as generalizing s
  case nil => exact Option.some.inj h ▸ r
  case cons a as hi =>
    have ⟨m, hm, h⟩ := Option.bind_eq_some_iff.mp h
    exact hi (.step r trivial hm) h

theorem exists_of_run (as : List α) (P : σ → Prop) [DecidablePred P] (h₀ : sys.init s)
    (h : (sys.run s as).any (P ·)) : ∃ s', Reachable sys s' ∧ P s' := by
  have ⟨s', hr, hP⟩ := Option.any_eq_true _ _ |>.mp h
  exact ⟨s', .of_run (.init h₀) hr, of_decide_eq_true hP⟩

-- Forward simulation: every step of the system, taken where the invariant `I` holds, is a run of
-- the other one between the images.
theorem Reach.simulation {ok : σ → α → Prop} {other : System τ β} {f : σ → τ} {I : σ → Prop}
    (inv : ∀ s, Reach sys ok s → I s) (init : ∀ s, sys.init s → other.init (f s))
    (step : ∀ s a s', I s → sys.step s a = some s' → ∃ bs, other.run (f s) bs = some (f s'))
    (r : Reach sys ok s) : Reachable other (f s) := by
  induction r
  case init h => exact .init (init _ h)
  case step r _ e hi =>
    have ⟨_, hr⟩ := step _ _ _ (inv _ r) e
    exact hi.of_run hr

-- The system in which only the permitted steps are enabled.
def guarded (sys : System σ α) (ok : σ → α → Prop) [∀ s a, Decidable (ok s a)] : System σ α where
  init     := sys.init
  step s a := if ok s a then sys.step s a else none

variable {ok : σ → α → Prop} [∀ s a, Decidable (ok s a)]

theorem Reach.of_guarded (r : Reachable (sys.guarded ok) s) : Reach sys ok s := by
  induction r
  case init h      => exact .init h
  case step e hi   =>
    have ⟨ho, e⟩ := Option.ite_none_right_eq_some.mp e
    exact .step hi ho e

theorem Reach.exists_of_run (as : List α) (P : σ → Prop) [DecidablePred P] (h₀ : sys.init s)
    (h : ((sys.guarded ok).run s as).any (P ·)) : ∃ s', Reach sys ok s' ∧ P s' := by
  have ⟨s', hr, hP⟩ := System.exists_of_run as P (show (sys.guarded ok).init s from h₀) h
  exact ⟨s', .of_guarded hr, hP⟩

-- A ranking of the states that no step lowers. An action that lifts the rank past `n` then happens
-- at most once in a run, and a run that ends above `n` contains such an action.
section Rank

variable {rank : σ → Nat} (mono : ∀ s a s', sys.step s a = some s' → rank s ≤ rank s')
include mono

theorem countP_eq_zero_of_rank {P : α → Bool} {n : Nat}
    (lift : ∀ s a s', sys.step s a = some s' → P a → rank s < n ∧ n ≤ rank s')
    (h : sys.run s as = some s') (hn : n ≤ rank s) : as.countP P = 0 := by
  induction as generalizing s
  case nil => rfl
  case cons a as hi =>
    have ⟨m, hm, h⟩ := Option.bind_eq_some_iff.mp h
    have hP : ¬P a := fun hP => absurd (lift _ _ _ hm hP).1 (by omega)
    rw [List.countP_cons_of_neg hP]
    exact hi h (Nat.le_trans hn <| mono _ _ _ hm)

theorem countP_le_one_of_rank {P : α → Bool} {n : Nat}
    (lift : ∀ s a s', sys.step s a = some s' → P a → rank s < n ∧ n ≤ rank s')
    (h : sys.run s as = some s') : as.countP P ≤ 1 := by
  induction as generalizing s
  case nil => exact Nat.zero_le _
  case cons a as hi =>
    have ⟨m, hm, h⟩ := Option.bind_eq_some_iff.mp h
    by_cases hP : P a
    case neg => rw [List.countP_cons_of_neg hP]; exact hi h
    case pos =>
      have hz := countP_eq_zero_of_rank mono lift h (lift _ _ _ hm hP).2
      simp [List.countP_cons_of_pos hP, hz]

omit mono in
theorem exists_lift_of_run {n : Nat} (h : sys.run s as = some s') (lo : rank s < n)
    (hi : n ≤ rank s') :
    ∃ a ∈ as, ∃ m m', sys.step m a = some m' ∧ rank m < n ∧ n ≤ rank m' := by
  induction as generalizing s
  case nil => cases h; omega
  case cons a as ih =>
    have ⟨m, hm, h⟩ := Option.bind_eq_some_iff.mp h
    by_cases hr : rank m < n
    case neg => exact ⟨a, List.mem_cons_self, s, m, hm, lo, by omega⟩
    case pos =>
      have ⟨b, hb, w⟩ := ih h hr
      exact ⟨b, List.mem_cons_of_mem _ hb, w⟩

end Rank

end System
end NetPool
