import Mathlib

namespace NetPool
namespace Fields

variable {α : Type} {sep a : α} {f s t : List α} {fs gs : List (List α)}

-- The fields with a separator between any two of them, and with one behind each of them.
def join (sep : α) (fs : List (List α)) : List α :=
  [sep].intercalate fs

def each (sep : α) (fs : List (List α)) : List α :=
  fs.flatMap (· ++ [sep])

-- Fields that can be told apart.
def Plain (sep : α) (fs : List (List α)) : Prop :=
  ∀ f ∈ fs, f ≠ [] ∧ sep ∉ f

section Join

@[simp]
theorem join_nil : join sep [] = [] :=
  rfl

@[simp]
theorem join_singleton : join sep [f] = f := by
  simp [join]

theorem join_cons (h : fs ≠ []) : join sep (f :: fs) = f ++ sep :: join sep fs := by
  simp [join, List.intercalate_cons_of_ne_nil h]

@[simp]
theorem each_nil : each sep [] = [] :=
  rfl

theorem each_concat : each sep (fs ++ [f]) = each sep fs ++ (f ++ [sep]) := by
  simp [each]

theorem join_append (h : gs ≠ []) : join sep (fs ++ gs) = each sep fs ++ join sep gs := by
  induction fs
  case nil            => rfl
  case cons f fs hi =>
    rw [List.cons_append, join_cons (List.append_ne_nil_of_right_ne_nil _ h), hi]
    simp [each]

theorem each_eq (h : fs ≠ []) : each sep fs = join sep fs ++ [sep] := by
  have app : join sep (fs ++ [[]]) = each sep fs ++ join sep [[]] :=
    join_append (List.cons_ne_nil _ _)
  rw [join_singleton, List.append_nil] at app
  rw [← app]
  clear app
  induction fs
  case nil => contradiction
  case cons f fs hi =>
    by_cases hn : fs = []
    case pos => subst hn; simp [join_cons]
    case neg =>
      rw [List.cons_append, join_cons (List.append_ne_nil_of_left_ne_nil hn _), join_cons hn, hi hn]
      simp

theorem length_join_le (m : Nat) (h : ∀ f ∈ fs, f.length ≤ m) :
    (join sep fs).length ≤ fs.length * (m + 1) - 1 := by
  induction fs
  case nil => simp
  case cons f fs hi =>
    have hf := h f List.mem_cons_self
    have hi := hi fun f hm => h f (List.mem_cons_of_mem _ hm)
    by_cases hn : fs = []
    case pos => simpa [hn] using hf
    case neg =>
      have pos : m + 1 ≤ fs.length * (m + 1) :=
        Nat.le_mul_of_pos_left _ (List.length_pos_of_ne_nil hn)
      rw [join_cons hn, List.length_append, List.length_cons, List.length_cons, Nat.succ_mul]
      omega

theorem head_join (h : Plain sep fs) (hn : fs ≠ []) : ∀ a ∈ (join sep fs ++ t).head?, a ≠ sep := by
  obtain ⟨f, fs, rfl⟩ := List.exists_cons_of_ne_nil hn
  obtain ⟨hf, hs⟩ := h f List.mem_cons_self
  obtain ⟨b, f, rfl⟩ := List.exists_cons_of_ne_nil hf
  have hb : b ≠ sep := fun h => hs (h ▸ List.mem_cons_self)
  by_cases hn : fs = []
  case pos => simpa [hn] using hb
  case neg => simpa [join_cons hn] using hb

end Join

theorem mapM_map {β γ : Type} {bs : List β} {write : β → γ} {read : γ → Option β}
    (h : ∀ b ∈ bs, read (write b) = some b) : (bs.map write).mapM read = some bs := by
  induction bs
  case nil => rfl
  case cons b bs hi =>
    have hi := hi fun b hm => h b (List.mem_cons_of_mem _ hm)
    rw [List.map_cons, List.mapM_cons, h b List.mem_cons_self, hi]
    rfl

section Read

variable [DecidableEq α]

-- No text is no field.
def split (sep : α) (s : List α) : List (List α) :=
  if s = [] then [] else s.splitOn sep

-- What comes before and after the first two separators next to each other.
def cutGap (sep : α) : List α → Option (List α × List α)
  | a :: b :: s =>
    if a = sep ∧ b = sep then some ([], s) else (cutGap sep (b :: s)).map fun (l, r) => (a :: l, r)
  | _           => none

theorem split_join (h : Plain sep fs) : split sep (join sep fs) = fs := by
  cases fs
  case nil => rfl
  case cons f fs =>
    have hn : join sep (f :: fs) ≠ [] := by
      have hf := (h f List.mem_cons_self).1
      by_cases hn : fs = []
      case pos => simpa [hn] using hf
      case neg => simp [join_cons hn]
    rw [split, if_neg hn]
    exact List.splitOn_intercalate sep (fun f hm => (h f hm).2) (List.cons_ne_nil _ _)

-- What is written field by field is read field by field.
theorem mapM_split_join {β : Type} {bs : List β} {write : β → List α} {read : List α → Option β}
    (plain : Plain sep (bs.map write)) (h : ∀ b ∈ bs, read (write b) = some b) :
    (split sep (join sep (bs.map write))).mapM read = some bs := by
  rw [split_join plain]
  exact mapM_map h

theorem cutGap_cons (h : a ≠ sep) :
    cutGap sep (a :: s) = (cutGap sep s).map fun p => (a :: p.1, p.2) := by
  cases s
  case nil  => rfl
  case cons => simp [cutGap, h]

theorem cutGap_sep (h : ∀ a ∈ s.head?, a ≠ sep) :
    cutGap sep (sep :: s) = (cutGap sep s).map fun p => (sep :: p.1, p.2) := by
  cases s
  case nil      => rfl
  case cons b s => simp [cutGap, h b rfl]

theorem cutGap_append (h : sep ∉ f) :
    cutGap sep (f ++ s) = (cutGap sep s).map fun p => (f ++ p.1, p.2) := by
  induction f
  case nil => simp
  case cons a f hi =>
    rw [List.mem_cons, not_or] at h
    rw [List.cons_append, cutGap_cons (Ne.symm h.1), hi h.2, Option.map_map]
    rfl

-- The first field has no part in where the gap is.
theorem cutGap_join_cons (h : Plain sep (f :: fs)) (hn : fs ≠ []) :
    cutGap sep (join sep (f :: fs) ++ t) =
      (cutGap sep (join sep fs ++ t)).map fun p => (f ++ sep :: p.1, p.2) := by
  have hf := (h f List.mem_cons_self).2
  have head := head_join (t := t) (fun f hm => h f (List.mem_cons_of_mem _ hm)) hn
  rw [join_cons hn, List.append_assoc, List.cons_append, cutGap_append hf, cutGap_sep head,
    Option.map_map]
  rfl

theorem cutGap_join_append (h : Plain sep fs) :
    cutGap sep (join sep fs ++ sep :: sep :: t) = some (join sep fs, t) := by
  induction fs
  case nil => simp [cutGap]
  case cons f fs hi =>
    by_cases hn : fs = []
    case pos => simp [hn, cutGap_append (h f List.mem_cons_self).2, cutGap]
    case neg =>
      rw [cutGap_join_cons h hn, hi fun f hm => h f (List.mem_cons_of_mem _ hm), join_cons hn]
      rfl

theorem cutGap_join (h : Plain sep fs) : cutGap sep (join sep fs) = none := by
  induction fs
  case nil => rfl
  case cons f fs hi =>
    by_cases hn : fs = []
    case pos => simpa [hn, cutGap] using cutGap_append (s := []) (h f List.mem_cons_self).2
    case neg =>
      have cons := cutGap_join_cons (t := []) h hn
      rw [List.append_nil, List.append_nil] at cons
      rw [cons, hi fun f hm => h f (List.mem_cons_of_mem _ hm)]
      rfl

end Read

end Fields
end NetPool
