import Mathlib

namespace NetPool

-- The history of a resource: everything that was obtained, and everything that was given back.
structure Ledger (α : Type*) where
  obtained : List α
  released : List α

namespace Ledger

variable {α : Type*} {l : Ledger α} {held held' new : List α} {a : α}

def empty : Ledger α :=
  ⟨[], []⟩

def obtain' (l : Ledger α) (new : List α) : Ledger α :=
  { l with obtained := l.obtained ++ new }

def release (l : Ledger α) (old : List α) : Ledger α :=
  { l with released := l.released ++ old }

def Fresh (l : Ledger α) (new : List α) : Prop :=
  new.Nodup ∧ ∀ a ∈ new, a ∉ l.obtained

instance [DecidableEq α] : Decidable (l.Fresh new) :=
  inferInstanceAs (Decidable (_ ∧ ∀ a ∈ new, _))

-- What was obtained has either been given back or is held, each exactly once.
structure Owns (l : Ledger α) (held : List α) : Prop where
  nodup : l.obtained.Nodup
  perm  : l.obtained.Perm (l.released ++ held)

namespace Owns

theorem empty : (Ledger.empty : Ledger α).Owns [] :=
  ⟨List.nodup_nil, .refl _⟩

theorem of_perm (h : l.Owns held) (p : held.Perm held') : l.Owns held' :=
  ⟨h.nodup, h.perm.trans <| p.append_left _⟩

-- The order of a history does not matter.
theorem of_history {o o' r r' : List α} (h : Owns ⟨o, r⟩ held) (po : o.Perm o') (pr : r.Perm r') :
    Owns ⟨o', r'⟩ held where
  nodup := po.nodup_iff.mp h.nodup
  perm  := po.symm.trans <| h.perm.trans <| pr.append_right _

theorem obtain' (h : l.Owns held) (fresh : l.Fresh new) : (l.obtain' new).Owns (held ++ new) where
  nodup := h.nodup.append fresh.1 fun a ho hn => fresh.2 a hn ho
  perm  := by simpa [Ledger.obtain', List.append_assoc] using h.perm.append_right new

theorem release (h : l.Owns (new ++ held)) : (l.release new).Owns held where
  nodup := h.nodup
  perm  := by simpa [Ledger.release, List.append_assoc] using h.perm

theorem length (h : l.Owns held) : l.obtained.length = l.released.length + held.length := by
  rw [h.perm.length_eq, List.length_append]

-- Nothing is given back twice, and nothing that is held has been given back.
theorem released_nodup (h : l.Owns held) : l.released.Nodup :=
  (h.perm.nodup_iff.mp h.nodup).of_append_left

theorem held_nodup (h : l.Owns held) : held.Nodup :=
  (h.perm.nodup_iff.mp h.nodup).of_append_right

theorem mem_held_iff (h : l.Owns held) : a ∈ held ↔ a ∈ l.obtained ∧ a ∉ l.released := by
  have disjoint := (h.perm.nodup_iff.mp h.nodup).disjoint
  rw [h.perm.mem_iff, List.mem_append]
  constructor
  case mp  => exact fun ha => ⟨.inr ha, fun hr => disjoint hr ha⟩
  case mpr => exact fun ⟨ho, hr⟩ => ho.resolve_left hr

end Owns
end Ledger
end NetPool
