import Mathlib

open Relation

namespace NetPool

variable {α β : Type*} {r r' waits : α → α → Prop} {S : Finset α} {P : α → Prop} {a b x y : α}

theorem transGen_of_insert (h : ∀ x y, r' x y → r x y ∨ x = a ∧ y = b) (t : TransGen r' x y) :
    TransGen r x y ∨ ReflTransGen r x a ∧ ReflTransGen r b y := by
  induction t
  case single e =>
    obtain e | ⟨rfl, rfl⟩ := h _ _ e
    · exact .inl (.single e)
    · exact .inr ⟨.refl, .refl⟩
  case tail e hi =>
    obtain e | ⟨rfl, rfl⟩ := h _ _ e <;> obtain hi | ⟨h₁, h₂⟩ := hi
    · exact .inl (hi.tail e)
    · exact .inr ⟨h₁, h₂.tail e⟩
    · exact .inr ⟨hi.to_reflTransGen, .refl⟩
    · exact .inr ⟨h₁, .refl⟩

-- Everyone in the set waits for someone in it.
structure Deadlock (waits : α → α → Prop) (S : Finset α) : Prop where
  nonempty : S.Nonempty
  next     : ∀ a ∈ S, ∃ b ∈ S, waits a b

namespace Deadlock

theorem exists_cycle (h : Deadlock waits S) : ∃ a ∈ S, TransGen waits a a := by
  by_contra hc
  let after (x y : S) : Prop := TransGen waits y.val x.val
  have trans : IsTrans _ after := ⟨fun _ _ _ hxy hyz => hyz.trans hxy⟩
  have irrefl : Std.Irrefl after := ⟨fun x hx => hc ⟨x.val, x.property, hx⟩⟩
  have wf : WellFounded after := Finite.wellFounded_of_trans_of_irrefl after
  have ⟨a, ha⟩ := h.nonempty
  have ⟨m, _, hm⟩ := wf.has_min Set.univ ⟨⟨a, ha⟩, trivial⟩
  have ⟨b, hb, hw⟩ := h.next m.val m.property
  exact hm ⟨b, hb⟩ trivial (.single hw)

end Deadlock

-- Without a cycle, a finite set is left only at one of its members.
theorem exists_last (acyclic : ∀ a, ¬TransGen r a a) (h : ∀ a ∈ S, P a ∨ ∃ b ∈ S, r a b)
    (ha : a ∈ S) : ∃ b ∈ S, ReflTransGen r a b ∧ P b := by
  classical
  by_contra hc
  have : Deadlock r (S.filter (ReflTransGen r a)) := by
    refine ⟨⟨a, Finset.mem_filter.mpr ⟨ha, .refl⟩⟩, fun b hb => ?_⟩
    obtain ⟨hb, hr⟩ := Finset.mem_filter.mp hb
    obtain hP | ⟨c, hc', e⟩ := h b hb
    · exact absurd ⟨b, hb, hr, hP⟩ hc
    · exact ⟨c, Finset.mem_filter.mpr ⟨hc', hr.tail e⟩, e⟩
  have ⟨b, _, hb⟩ := this.exists_cycle
  exact acyclic b hb

-- Threads that wait for the end of others, and the locks that they hold and are about to take.
structure WaitGraph (α β : Type*) where
  awaits : α → α → Prop
  holds  : α → β → Prop
  wants  : α → β → Prop

namespace WaitGraph

variable {g g' : WaitGraph α β} {l : β}

-- The lock is not given back before the thread has ended.
def Under (g : WaitGraph α β) (l : β) (a : α) : Prop :=
  ∃ h, g.holds h l ∧ ReflTransGen g.awaits h a

structure Sound (g : WaitGraph α β) : Prop where
  acyclic : ∀ a, ¬TransGen g.awaits a a
  clear   : ∀ h l a, g.holds h l → g.wants a l → ¬TransGen g.awaits h a

namespace Sound

theorem mono (h : g.Sound) (awaits : ∀ a b, g'.awaits a b → g.awaits a b)
    (holds : ∀ a l, g'.holds a l → g.holds a l) (wants : ∀ a l, g'.wants a l → g.wants a l) :
    g'.Sound where
  acyclic a hc        := h.acyclic a (TransGen.mono awaits _ _ hc)
  clear t l a hh hw c := h.clear t l a (holds t l hh) (wants a l hw) (TransGen.mono awaits _ _ c)

-- A thread that waits for nobody takes a lock.
theorem hold (h : g.Sound) (none : ∀ b, ¬g.awaits x b)
    (awaits : ∀ a b, g'.awaits a b → g.awaits a b)
    (holds : ∀ a l, g'.holds a l → g.holds a l ∨ a = x)
    (wants : ∀ a l, g'.wants a l → g.wants a l) : g'.Sound where
  acyclic a hc := h.acyclic a (TransGen.mono awaits _ _ hc)
  clear t l a hh hw c := by
    have c : TransGen g.awaits t a := TransGen.mono awaits _ _ c
    obtain hh | rfl := holds t l hh
    · exact h.clear t l a hh (wants a l hw) c
    · have ⟨b, hb, _⟩ := TransGen.head'_iff.mp c
      exact none b hb

-- A thread comes to want a lock that it is not under.
theorem want (h : g.Sound) (free : ¬g.Under l x)
    (awaits : ∀ a b, g'.awaits a b → g.awaits a b)
    (holds : ∀ a l, g'.holds a l → g.holds a l)
    (wants : ∀ a k, g'.wants a k → g.wants a k ∨ a = x ∧ k = l) : g'.Sound where
  acyclic a hc := h.acyclic a (TransGen.mono awaits _ _ hc)
  clear t k a hh hw c := by
    have c : TransGen g.awaits t a := TransGen.mono awaits _ _ c
    obtain hw | ⟨rfl, rfl⟩ := wants a k hw
    · exact h.clear t k a (holds t k hh) hw c
    · exact free ⟨t, holds t k hh, c.to_reflTransGen⟩

-- A thread comes to wait for the end of another one.
theorem await (h : g.Sound) (back : ¬ReflTransGen g.awaits y x)
    (under : ∀ l a, g.Under l x → ReflTransGen g.awaits y a → ¬g.wants a l)
    (awaits : ∀ a b, g'.awaits a b → g.awaits a b ∨ a = x ∧ b = y)
    (holds : ∀ a l, g'.holds a l → g.holds a l) (wants : ∀ a l, g'.wants a l → g.wants a l) :
    g'.Sound where
  acyclic a hc := by
    obtain hc | ⟨h₁, h₂⟩ := transGen_of_insert awaits hc
    · exact h.acyclic a hc
    · exact back (h₂.trans h₁)
  clear t l a hh hw c := by
    obtain hc | ⟨h₁, h₂⟩ := transGen_of_insert awaits c
    · exact h.clear t l a (holds t l hh) (wants a l hw) hc
    · exact under l a ⟨t, holds t l hh, h₁⟩ h₂ (wants a l hw)

end Sound
end WaitGraph

section Held

variable {α β : Type*} [DecidableEq α] [DecidableEq β] {held : α → List β} {holder : β → Option α}
  {t : α} {l : β}

-- The locks that each thread holds, and the thread that holds each lock.
def Agree (held : α → List β) (holder : β → Option α) : Prop :=
  ∀ t l, l ∈ held t ↔ holder l = some t

namespace Agree

variable (h : Agree held holder)
include h

omit [DecidableEq α] [DecidableEq β] in
theorem eq_of_mem {u : α} (ht : l ∈ held t) (hu : l ∈ held u) : t = u :=
  Option.some.inj <| ((h t l).mp ht).symm.trans ((h u l).mp hu)

theorem lock (free : holder l = none ∨ holder l = some t) :
    Agree (Function.update held t (l :: held t)) (Function.update holder l (some t)) := by
  intro u k
  by_cases hk : k = l
  case pos =>
    have other (hu : u ≠ t) : l ∉ held u := by
      rw [h u l]
      obtain hf | hf := free <;> simp [hf, hu.symm]
    subst hk
    rw [Function.update_self]
    by_cases hu : u = t
    case pos => simp [hu]
    case neg => simp [hu, other hu, Ne.symm hu]
  case neg =>
    rw [Function.update_of_ne hk, ← h u k]
    by_cases hu : u = t
    case pos => simp [hu, hk]
    case neg => simp [hu]

theorem unlock (hl : l ∈ held t) : Agree (Function.update held t ((held t).erase l))
    (if l ∈ (held t).erase l then holder else Function.update holder l none) := by
  have other (k : β) (hk : k ≠ l) : k ∈ (held t).erase l ↔ k ∈ held t := List.mem_erase_of_ne hk
  intro u k
  by_cases hu : u = t
  case pos =>
    subst hu
    rw [Function.update_self]
    by_cases hk : k = l
    case pos =>
      subst hk
      by_cases hm : k ∈ (held u).erase k
      case pos => simpa [hm] using (h u k).mp hl
      case neg => simp [hm]
    case neg =>
      rw [other k hk, h u k]
      split
      case isTrue  => rfl
      case isFalse => rw [Function.update_of_ne hk]
  case neg =>
    rw [Function.update_of_ne hu, h u k]
    split
    case isTrue  => rfl
    case isFalse =>
      by_cases hk : k = l
      case neg => rw [Function.update_of_ne hk]
      case pos =>
        subst hk
        rw [Function.update_self, (h t k).mp hl]
        simp [Ne.symm hu]

end Agree
end Held

end NetPool
