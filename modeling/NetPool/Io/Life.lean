import NetPool.Lib.System
import NetPool.Io.Net

namespace NetPool

-- The life of one job: it is registered, found any number of times by deleting calls until one of
-- them marks it, unlinked, called and deleted. The callback is the one that was handed over last.
inductive Life
  | unborn
  | live (freeFunc : Hdl)
  | marked (freeFunc : Hdl)
  | unlinked (freeFunc : Hdl)
  | called (freeFunc : Hdl)
  | deleted

namespace Life

-- The steps of the life of a job that belongs to thread `t`.
def step (t : Nat) : Life → JobEvent → Option Life
  | unborn,     .added _        => some (live .defaultFreeHandle)
  | live _,     .found _ f m    => some (if m then marked f else live f)
  | marked f,   .unlinked _ t'  => if t' = t then some (unlinked f) else none
  | unlinked f, .called _ f' t' => if f' = f ∧ t' = t then some (called f) else none
  | called _,   .deleted _ t'   => if t' = t then some deleted else none
  | _,          _               => none

def rank : Life → Nat
  | unborn     => 0
  | live _     => 1
  | marked _   => 2
  | unlinked _ => 3
  | called _   => 4
  | deleted    => 5

end Life

def life (t : Nat) : System Life JobEvent where
  init l := l = .unborn
  step   := Life.step t

namespace Life

variable {t : Nat} {l l' : Life} {e : JobEvent} {es es' : List JobEvent}

theorem rank_le_of_step (h : (life t).step l e = some l') : l.rank ≤ l'.rank := by
  cases l <;> cases e <;> simp [life, step] at h
  case live.found => obtain rfl := h; split <;> simp [rank]
  all_goals grind [rank]

theorem not_step_unborn : (life t).step l e ≠ some .unborn := by
  intro h
  cases l <;> cases e <;> simp [life, step] at h
  split at h <;> contradiction

theorem history_eq_nil (h : (life t).run .unborn es = some .unborn) : es = [] := by
  induction es using List.reverseRecOn
  case nil => rfl
  case append_singleton es e _ =>
    rw [System.run_concat] at h
    have ⟨_, _, h⟩ := Option.bind_eq_some_iff.mp h
    exact absurd h not_step_unborn

theorem called_step {i : JobId} {f : Hdl} {t' : Nat}
    (h : (life t).step l (.called i f t') = some l') : l = .unlinked f ∧ l' = .called f ∧ t' = t := by
  cases l <;> simp [life, step] at h
  simp [h]

theorem deleted_step {i : JobId} {t' : Nat} (h : (life t).step l (.deleted i t') = some l') :
    (∃ f, l = .called f) ∧ l' = .deleted ∧ t' = t := by
  cases l <;> simp [life, step] at h
  simp [h]

theorem called_at_most_once (h : (life t).run .unborn es = some l) :
    es.countP JobEvent.isCalled ≤ 1 := by
  refine System.countP_le_one_of_rank (n := 4) (fun _ _ _ => rank_le_of_step) ?_ h
  rintro _ (_ | _ | _ | _ | _) _ hs hc <;> cases hc
  have ⟨h₁, h₂, _⟩ := called_step hs
  simp [h₁, h₂, rank]

theorem deleted_at_most_once (h : (life t).run .unborn es = some l) :
    es.countP JobEvent.isDeleted ≤ 1 := by
  refine System.countP_le_one_of_rank (n := 5) (fun _ _ _ => rank_le_of_step) ?_ h
  rintro _ (_ | _ | _ | _ | _) _ hs hc <;> cases hc
  have ⟨⟨_, h₁⟩, h₂, _⟩ := deleted_step hs
  simp [h₁, h₂, rank]

-- Only a deleting call that marks the job takes it past `live`.
theorem marked_before (h : (life t).run .unborn es = some l) (hl : 2 ≤ l.rank) :
    ∃ i f, .found i f true ∈ es := by
  have ⟨e, he, m, m', hs, lo, hi⟩ := System.exists_lift_of_run h (Nat.zero_lt_two) hl
  cases m <;> cases e <;> simp [life, step] at hs
  case live.found i f marked =>
    cases marked
    case true  => exact ⟨i, f, he⟩
    case false => simp [← hs, rank] at hi
  all_goals grind [rank]

def freeFunc? : Life → Option Hdl
  | live f | marked f | unlinked f | called f => some f
  | unborn | deleted                          => none

theorem called_before (h : (life t).run .unborn es = some (.called f)) :
    ∃ i, .called i f t ∈ es := by
  cases es using List.reverseRecOn
  case nil => cases h
  case append_singleton es e _ =>
    rw [System.run_concat] at h
    have ⟨m, _, h⟩ := Option.bind_eq_some_iff.mp h
    cases m <;> cases e <;> simp [life, step] at h
    case live.found => split at h <;> contradiction
    case unlinked.called =>
      obtain ⟨⟨rfl, rfl⟩, rfl⟩ := h
      exact ⟨_, List.mem_append_right _ <| List.mem_singleton.mpr rfl⟩

-- A job carries the callback that was handed over last, if there was one.
theorem freeFunc_eq_last (h : (life t).run .unborn es = some l) (hl : l.freeFunc? = some f) :
    (es.filterMap JobEvent.freeFunc?).getLast?.getD .defaultFreeHandle = f := by
  induction es using List.reverseRecOn generalizing l
  case nil => cases h; contradiction
  case append_singleton es e hi =>
    rw [System.run_concat] at h
    have ⟨m, hm, h⟩ := Option.bind_eq_some_iff.mp h
    cases m <;> cases e <;> simp [life, step] at h
    case unborn.added =>
      have := history_eq_nil hm
      subst h this
      simpa [freeFunc?, JobEvent.freeFunc?] using hl
    all_goals grind [freeFunc?, JobEvent.freeFunc?]

theorem freeFunc_of_marked (h : (life t).run .unborn es = some l) (hr : 2 ≤ l.rank)
    (hl : l.freeFunc? = some f) : (es.filterMap JobEvent.freeFunc?).getLast? = some f := by
  have ⟨i, f', hm⟩ := marked_before h hr
  have hg := freeFunc_eq_last h hl
  have hf : f' ∈ es.filterMap JobEvent.freeFunc? := List.mem_filterMap.mpr ⟨_, hm, rfl⟩
  rw [List.getLast?_eq_some_getLast (List.ne_nil_of_mem hf)] at hg ⊢
  exact congrArg some hg

-- The callback of a job past `live` is the one that the marking call handed over.
theorem marked_with (h : (life t).run .unborn es = some l) (hr : 2 ≤ l.rank)
    (hl : l.freeFunc? = some f) : ∃ i, .found i f true ∈ es := by
  induction es using List.reverseRecOn generalizing l
  case nil => cases h; simp [rank] at hr
  case append_singleton es e hi =>
    rw [System.run_concat] at h
    have ⟨m, hm, hs⟩ := Option.bind_eq_some_iff.mp h
    cases m <;> cases e <;> simp [life, step] at hs
    case live.found i f' marked =>
      cases marked <;> cases hs
      case false => simp [rank] at hr
      case true  =>
        cases hl
        exact ⟨i, List.mem_append_right _ <| List.mem_singleton_self _⟩
    case unborn.added   => cases hs; simp [rank] at hr
    case called.deleted => obtain ⟨_, rfl⟩ := hs; cases hl
    all_goals
      have ⟨i, h⟩ := hi hm (by simp [rank]) (by grind [freeFunc?])
      exact ⟨i, List.mem_append_left _ h⟩

end Life
end NetPool
