import Mathlib

namespace NetPool

-- Cells that are linked in both directions.
structure Links (α : Type*) where
  next : α → α
  prev : α → α

namespace Links

variable {α : Type*} {h h' : Links α} {a b x : α} {l xs ys : List α}

section Set

variable [DecidableEq α]

def setNext (h : Links α) (a b : α) : Links α :=
  { h with next := Function.update h.next a b }

def setPrev (h : Links α) (a b : α) : Links α :=
  { h with prev := Function.update h.prev a b }

@[simp, grind =] theorem setNext_prev : (h.setNext a b).prev = h.prev := rfl
@[simp, grind =] theorem setPrev_next : (h.setPrev a b).next = h.next := rfl

@[simp, grind =]
theorem setNext_next : (h.setNext a b).next x = if x = a then b else h.next x :=
  Function.update_apply ..

@[simp, grind =]
theorem setPrev_prev : (h.setPrev a b).prev x = if x = a then b else h.prev x :=
  Function.update_apply ..

end Set

-- The cells after `a` are `l`, in this order and in both directions.
def Chain (h : Links α) : α → List α → Prop
  | _, []      => True
  | a, x :: xs => h.next a = x ∧ h.prev x = a ∧ h.Chain x xs

theorem getLastD_append_cons : (xs ++ x :: ys).getLastD a = ys.getLastD x := by
  induction xs generalizing a
  case nil          => exact List.getLastD_cons
  case cons x xs hi => rw [List.cons_append, List.getLastD_cons, hi]

theorem chain_append :
    h.Chain a (xs ++ ys) ↔ h.Chain a xs ∧ h.Chain (xs.getLastD a) ys := by
  induction xs generalizing a
  case nil          => simp [Chain]
  case cons x xs hi => simp only [List.cons_append, Chain, hi, List.getLastD_cons, and_assoc]

-- The link of the last cell to the next one is not part of the chain.
theorem Chain.frame (c : h.Chain a l) (nodup : (a :: l).Nodup)
    (next : ∀ x ∈ a :: l, x ≠ l.getLastD a → h'.next x = h.next x)
    (prev : ∀ x ∈ l, h'.prev x = h.prev x) : h'.Chain a l := by
  induction l generalizing a
  case nil          => trivial
  case cons x xs hi =>
    have ⟨ha, nodup⟩ := List.nodup_cons.mp nodup
    have ⟨hx, hp, c⟩ := c
    rw [List.getLastD_cons] at next
    have last : xs.getLastD x ∈ x :: xs := List.getLastD_mem_cons
    refine ⟨?_, ?_, hi c nodup (fun y hy => ?_) fun y hy => prev y (List.mem_cons_of_mem _ hy)⟩
    case refine_1 =>
      rw [next a List.mem_cons_self, hx]
      exact fun he => ha <| he ▸ last
    case refine_2 => rw [prev x List.mem_cons_self, hp]
    case refine_3 => exact next y (List.mem_cons_of_mem _ hy)

theorem Chain.prev_eq (c : h.Chain a (xs ++ x :: ys)) : h.prev x = xs.getLastD a :=
  (chain_append.mp c).2.2.1

end Links
end NetPool
