import Mathlib

namespace NetPool

variable {α β : Type*} {l : List α} {f : α → List β} {n : Nat} {a b : α} {x : β}

-- Replacing one element of a list exchanges its share of the elements for the new one's.
theorem flatMap_set_perm (h : l[n]? = some a) :
    (f a ++ (l.set n b).flatMap f).Perm (f b ++ l.flatMap f) := by
  induction l generalizing n
  case nil          => simp at h
  case cons c cs hi =>
    cases n
    case zero =>
      cases h
      simp only [List.set_cons_zero, List.flatMap_cons, ← List.append_assoc]
      exact List.perm_append_comm.append_right _
    case succ n =>
      simp only [List.set_cons_succ, List.flatMap_cons]
      have swap (xs ys zs : List β) : (xs ++ (ys ++ zs)).Perm (ys ++ (xs ++ zs)) := by
        rw [← List.append_assoc, ← List.append_assoc]
        exact List.perm_append_comm.append_right _
      exact (swap ..).trans (((hi h).append_left _).trans (swap ..))

section Count

variable [BEq β]

theorem count_flatMap_set (h : l[n]? = some a) :
    ((l.set n b).flatMap f).count x + (f a).count x = (l.flatMap f).count x + (f b).count x := by
  have hp := (flatMap_set_perm (b := b) (f := f) h).count_eq x
  rw [List.count_append, List.count_append] at hp
  omega

theorem count_filter_ite [LawfulBEq β] {xs : List β} {p : β → Bool} :
    (xs.filter p).count x = if p x then xs.count x else 0 := by
  split
  case isTrue h  => exact List.count_filter h
  case isFalse h => exact List.count_eq_zero.mpr fun hm => h (List.mem_filter.mp hm).2

end Count

theorem exists_of_mem_mapM {f : α → Option β} {l : List α} {l' : List β} {x : β}
    (h : l.mapM f = some l') (hx : x ∈ l') : ∃ a ∈ l, f a = some x := by
  induction l generalizing l'
  case nil => cases h; contradiction
  case cons c cs hi =>
    simp only [List.mapM_cons, Option.bind_eq_bind, Option.bind_eq_some_iff] at h
    have ⟨y, hy, ys, hys, h⟩ := h
    cases h
    cases hx
    case head    => exact ⟨c, List.mem_cons_self, hy⟩
    case tail hx =>
      have ⟨a, ha, hf⟩ := hi hys hx
      exact ⟨a, List.mem_cons_of_mem _ ha, hf⟩

theorem countP_set_add {p : α → Bool} (h : l[n]? = some a) :
    (l.set n b).countP p + (if p a then 1 else 0) = l.countP p + (if p b then 1 else 0) := by
  induction l generalizing n
  case nil          => simp at h
  case cons c cs hi =>
    cases n
    case zero =>
      cases h
      simp only [List.set_cons_zero, List.countP_cons]
      omega
    case succ n =>
      have := hi h
      simp only [List.set_cons_succ, List.countP_cons]
      omega

-- What stands in a list after one of its elements was replaced.
theorem of_getElem?_set {m : Nat} (h : (l.set n b)[m]? = some a) :
    m = n ∧ a = b ∨ m ≠ n ∧ l[m]? = some a := by
  by_cases hm : n = m
  case neg => exact .inr ⟨Ne.symm hm, by rwa [List.getElem?_set_ne hm] at h⟩
  case pos =>
    have ⟨_, he⟩ := List.getElem?_eq_some_iff.mp h
    subst hm
    exact .inl ⟨rfl, by simpa using he.symm⟩

theorem nodup_map_concat {f : α → β} {l : List α} {a : α} (h : (l.map f).Nodup)
    (hn : ∀ x ∈ l, f x ≠ f a) : ((l ++ [a]).map f).Nodup := by
  rw [List.map_append, List.map_singleton]
  refine List.nodup_append.mpr ⟨h, List.nodup_singleton _, fun y hy z hz => ?_⟩
  have ⟨x, hx, he⟩ := List.mem_map.mp hy
  rw [← he, List.mem_singleton.mp hz]
  exact hn x hx

-- Every element of the list is allowed by those before it.
def Traced (P : List α → α → Prop) (l : List α) : Prop :=
  ∀ as a bs, l = as ++ a :: bs → P as a

namespace Traced

variable {P : List α → α → Prop}

theorem nil : Traced P [] := by
  intro as a bs h
  cases as <;> cases h

theorem concat (h : Traced P l) (ha : P l a) : Traced P (l ++ [a]) := by
  intro as b bs he
  obtain rfl | ⟨cs, c, rfl⟩ := bs.eq_nil_or_concat
  case inl =>
    have ⟨hl, hb⟩ := List.append_inj' he rfl
    cases hb
    exact hl ▸ ha
  case inr =>
    have he : l ++ [a] = (as ++ b :: cs) ++ [c] := by simpa using he
    exact h as b cs (List.append_inj' he rfl).1

end Traced
end NetPool
