import Mathlib

namespace NetPool

-- A stock of things, each of which is in the store or out.
structure Stock {α : Type*} (all store out : List α) : Prop where
  perm  : (store ++ out).Perm all
  nodup : all.Nodup

namespace Stock

variable {α : Type*} {all store out : List α} {a : α}

theorem full (h : all.Nodup) : Stock all all [] :=
  ⟨by simp, h⟩

theorem perm_take (h : (store ++ [a] ++ out).Perm all) : (store ++ a :: out).Perm all := by
  simpa using h

theorem perm_give [DecidableEq α] (h : (store ++ out).Perm all) (ha : a ∈ out) :
    (store ++ [a] ++ out.erase a).Perm all := by
  have put : (store ++ a :: out.erase a).Perm (store ++ out) :=
    (List.perm_cons_erase ha).symm.append_left store
  simpa using put.trans h

theorem take (h : Stock all (store ++ [a]) out) : Stock all store (a :: out) :=
  ⟨perm_take h.perm, h.nodup⟩

theorem give [DecidableEq α] (h : Stock all store out) (ha : a ∈ out) :
    Stock all (store ++ [a]) (out.erase a) :=
  ⟨perm_give h.perm ha, h.nodup⟩

theorem length (h : Stock all store out) : store.length + out.length = all.length := by
  rw [← List.length_append, h.perm.length_eq]

theorem nodup_append (h : Stock all store out) : (store ++ out).Nodup :=
  h.perm.nodup_iff.mpr h.nodup

theorem out_nodup (h : Stock all store out) : out.Nodup :=
  h.nodup_append.of_append_right

theorem out_subset (h : Stock all store out) : out ⊆ all :=
  fun _ ha => h.perm.subset <| List.mem_append_right _ ha

end Stock
end NetPool
