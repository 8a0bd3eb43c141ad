import NetPool.Lib.Links

namespace NetPool

-- The `struct list_head`s in memory. `α` are their addresses.
namespace ListHead

variable {α : Type*} [DecidableEq α]

def initListHead (h : Links α) (ptr : α) : Links α :=
  (h.setNext ptr ptr).setPrev ptr ptr

def copyListAndFlush (h : Links α) (dst src : α) : Links α :=
  let next := h.next src
  let prev := h.prev src
  let h := h.setNext dst next
  let h := h.setPrev dst prev
  let h := h.setPrev next dst
  let h := h.setNext prev dst
  initListHead h src

-- A list with a head of its own: from the head through the entries back to the head, the links in
-- one direction are inverse to those in the other.
structure Headed (h : Links α) (head : α) (l : List α) : Prop where
  nodup : (head :: l).Nodup
  chain : h.Chain head (l ++ [head])

variable {h h' : Links α} {dst src a : α} {l : List α}

omit [DecidableEq α] in
theorem headed_iff : Headed h a l ↔
    (a :: l).Nodup ∧ h.Chain a l ∧ h.next (l.getLastD a) = a ∧ h.prev a = l.getLastD a := by
  constructor
  case mp =>
    rintro ⟨nodup, chain⟩
    obtain ⟨chain, next, prev, _⟩ := Links.chain_append.mp chain
    exact ⟨nodup, chain, next, prev⟩
  case mpr =>
    rintro ⟨nodup, chain, next, prev⟩
    exact ⟨nodup, Links.chain_append.mpr ⟨chain, next, prev, trivial⟩⟩

theorem headed_initListHead : Headed (initListHead h a) a [] :=
  ⟨List.nodup_singleton a, by simp [initListHead, Links.Chain]⟩

section Effect

theorem copyListAndFlush_next : (copyListAndFlush h dst src).next a =
    if a = src then src else if a = h.prev src then dst else if a = dst then h.next src
    else h.next a := by
  simp [copyListAndFlush, initListHead]

theorem copyListAndFlush_prev : (copyListAndFlush h dst src).prev a =
    if a = src then src else if a = h.next src then dst else if a = dst then h.prev src
    else h.prev a := by
  simp [copyListAndFlush, initListHead]

end Effect

-- The head `dst` has the entries, and `src` has none.
structure Moved (h : Links α) (dst src : α) (l : List α) : Prop where
  dst : Headed h dst l
  src : Headed h src []

-- The head of an empty list is its own neighbour, so that `dst` is linked to it.
theorem not_moved_nil (list : Headed h src []) (ne : dst ≠ src) :
    ¬Moved (copyListAndFlush h dst src) dst src [] := by
  intro moved
  obtain ⟨_, _, next, prev⟩ := headed_iff.mp list
  obtain ⟨_, _, dst_next, _⟩ := headed_iff.mp moved.dst
  simp only [List.getLastD_nil] at next prev dst_next
  rw [copyListAndFlush_next, prev, next, if_neg ne, if_neg ne, if_pos rfl] at dst_next
  exact ne dst_next.symm

theorem moved_cons {x : α} {xs : List α} (list : Headed h src (x :: xs))
    (apart : dst ∉ src :: x :: xs) : Moved (copyListAndFlush h dst src) dst src (x :: xs) := by
  obtain ⟨nodup, chain, _, first⟩ := headed_iff.mp list
  obtain ⟨next, _, chain⟩ := chain
  obtain ⟨src_not, nodup⟩ := List.nodup_cons.mp nodup
  obtain ⟨ne, dst_not⟩ := List.ne_and_not_mem_of_not_mem_cons apart
  rw [List.getLastD_cons] at first
  have last : xs.getLastD x ∈ x :: xs := List.getLastD_mem_cons
  have ne_src : ∀ y ∈ x :: xs, y ≠ src := fun y hy he => src_not (he ▸ hy)
  have ne_dst : ∀ y ∈ x :: xs, y ≠ dst := fun y hy he => dst_not (he ▸ hy)
  refine ⟨headed_iff.mpr ⟨List.nodup_cons.mpr ⟨dst_not, nodup⟩,
    ⟨?_, ?_, chain.frame nodup (fun y hy hl => ?_) fun y hy => ?_⟩, ?_, ?_⟩, headed_initListHead⟩
  case refine_1 =>
    rw [copyListAndFlush_next, if_neg ne, first, if_neg (ne_dst _ last).symm, if_pos rfl, next]
  case refine_2 =>
    rw [copyListAndFlush_prev, if_neg (ne_src x List.mem_cons_self), next, if_pos rfl]
  case refine_3 =>
    rw [copyListAndFlush_next, if_neg (ne_src y hy), first, if_neg hl, if_neg (ne_dst y hy)]
  case refine_4 =>
    have hx : y ≠ x := fun he => (List.nodup_cons.mp nodup).1 (he ▸ hy)
    have hy : y ∈ x :: xs := List.mem_cons_of_mem _ hy
    rw [copyListAndFlush_prev, if_neg (ne_src y hy), next, if_neg hx, if_neg (ne_dst y hy)]
  case refine_5 =>
    rw [List.getLastD_cons, copyListAndFlush_next, if_neg (ne_src _ last), first, if_pos rfl]
  case refine_6 =>
    have hx : dst ≠ x := (ne_dst x List.mem_cons_self).symm
    rw [copyListAndFlush_prev, if_neg ne, next, if_neg hx, if_pos rfl, first, List.getLastD_cons]

theorem copyListAndFlush_moved_iff (list : Headed h src l) (apart : dst ∉ src :: l) :
    Moved (copyListAndFlush h dst src) dst src l ↔ l ≠ [] := by
  cases l
  case nil =>
    have ne : dst ≠ src := by simpa using apart
    exact ⟨fun moved => absurd moved (not_moved_nil list ne), nofun⟩
  case cons x xs => exact ⟨fun _ => List.cons_ne_nil x xs, fun _ => moved_cons list apart⟩

-- Two entries, at 2 and 3, of the list at 1.
theorem copyListAndFlush_moved_two :
    let h : Links Nat := ⟨fun a => if a = 3 then 1 else a + 1, fun a => if a = 1 then 3 else a - 1⟩
    Moved (copyListAndFlush h 4 1) 4 1 [2, 3] := by
  intro h
  have list : Headed h 1 [2, 3] := ⟨by decide, rfl, rfl, rfl, rfl, rfl, rfl, trivial⟩
  exact (copyListAndFlush_moved_iff list (by decide)).mpr (by decide)

-- An empty list at 1.
theorem not_copyListAndFlush_moved :
    let h : Links Nat := initListHead ⟨id, id⟩ 1
    Headed h 1 [] ∧ 3 ∉ [1] ∧ (copyListAndFlush h 3 1).next 3 = 1 ∧
      ¬Moved (copyListAndFlush h 3 1) 3 1 [] := by
  intro h
  have list : Headed h 1 [] := headed_initListHead
  exact ⟨list, by decide, by decide, not_moved_nil list (by decide)⟩

end ListHead
end NetPool
