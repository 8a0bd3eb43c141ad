import Mathlib

namespace NetPool

variable {α : Type*}

-- A search that goes through the text once: `matched` elements of the pattern stand before the
-- index `i`. It does not go back when the next one does not match.
def scanFrom [DecidableEq α] (pat : List α) (i matched : Nat) : List α → Option Nat
  | []      => none
  | c :: cs =>
    if pat[matched]? = some c then
      if matched + 1 = pat.length then some (i + 1) else scanFrom pat (i + 1) (matched + 1) cs
    else
      scanFrom pat (i + 1) 0 cs

def scan [DecidableEq α] (text pat : List α) : Option Nat :=
  scanFrom pat 0 0 text

-- Pieces of a text in each of which the search fails: a part of the pattern, and an element that
-- does not continue it.
inductive Misses (pat : List α) : List α → Prop
  | nil : Misses pat []
  | cons {k : Nat} {c : α} {pre : List α} (h : k < pat.length) (hc : pat[k]? ≠ some c)
    (misses : Misses pat pre) : Misses pat (pat.take k ++ c :: pre)

-- What stands before the first occurrence of the pattern.
structure First (text pat pre : List α) : Prop where
  occurs : pre ++ pat <+: text
  least  : ∀ pre', pre' ++ pat <+: text → pre.length ≤ pre'.length

-- The index just past the first occurrence, if there is one.
def FirstEnd (text pat : List α) : Option Nat → Prop
  | some r => ∃ pre, First text pat pre ∧ r = pre.length + pat.length
  | none   => ∀ pre, ¬pre ++ pat <+: text

variable {pat text pre rest : List α} {i m k r : Nat} {c : α}

theorem First.exists (h : pre ++ pat <+: text) : ∃ pre', First text pat pre' := by
  have hex : ∃ n, ∃ pre', pre'.length = n ∧ pre' ++ pat <+: text := ⟨_, pre, rfl, h⟩
  classical
  have ⟨pre', hn, h'⟩ := Nat.find_spec hex
  exact ⟨pre', h', fun p hp => hn ▸ Nat.find_min' hex ⟨p, rfl, hp⟩⟩

-- Texts before occurrences of the same length are the same.
theorem eq_of_occurs {pre' : List α} (h : pre ++ pat <+: text) (h' : pre' ++ pat <+: text)
    (hl : pre.length = pre'.length) : pre = pre' := by
  obtain ⟨rest, rfl⟩ := h
  obtain ⟨rest', he⟩ := h'
  rw [List.append_assoc, List.append_assoc] at he
  exact (List.append_inj he hl.symm).1.symm

theorem take_append_of_getElem? (h : pat[m]? = some c) (text : List α) :
    pat.take m ++ c :: text = pat.take (m + 1) ++ text := by
  rw [List.take_add_one, h]
  simp

section Scan

variable [DecidableEq α]

-- What the search finds is an occurrence behind misses.
theorem of_scanFrom (hm : m < pat.length) (h : scanFrom pat i m text = some r) : ∃ pre,
    pre ++ pat <+: pat.take m ++ text ∧ Misses pat pre ∧ r + m = i + pre.length + pat.length := by
  induction text generalizing i m
  case nil          => cases h
  case cons c cs ih =>
    unfold scanFrom at h
    split at h
    case isTrue hc =>
      rw [take_append_of_getElem? hc]
      split at h
      case isTrue he =>
        cases h
        rw [he, List.take_length]
        exact ⟨[], List.prefix_append _ _, .nil, by simp; omega⟩
      case isFalse he =>
        have ⟨pre, hp, misses, hr⟩ := ih (by omega) h
        exact ⟨pre, hp, misses, by omega⟩
    case isFalse hc =>
      have ⟨pre, hp, misses, hr⟩ := ih (Nat.zero_lt_of_lt hm) h
      refine ⟨pat.take m ++ c :: pre, ?_, .cons hm hc misses, ?_⟩
      case refine_1 =>
        rw [List.append_assoc, List.cons_append, List.prefix_append_right_inj,
          List.cons_prefix_cons]
        exact ⟨rfl, by simpa using hp⟩
      case refine_2 => simp [List.length_take, Nat.min_eq_left (Nat.le_of_lt hm)]; omega

-- A part of the pattern is matched.
theorem scanFrom_take (hk : k < pat.length) (text : List α) :
    scanFrom pat i 0 (pat.take k ++ text) = scanFrom pat (i + k) k text := by
  induction k generalizing text
  case zero      => simp
  case succ k ih =>
    have hc : pat[k]? = some pat[k] := List.getElem?_eq_getElem (by omega)
    rw [← take_append_of_getElem? hc, ih (by omega), scanFrom, if_pos hc, if_neg (by omega),
      Nat.add_assoc]

theorem scanFrom_pat (hp : pat ≠ []) : scanFrom pat i 0 (pat ++ rest) = some (i + pat.length) := by
  have pos := List.length_pos_iff.mpr hp
  have hc : pat[pat.length - 1]? = some pat[pat.length - 1] := List.getElem?_eq_getElem (by omega)
  have split := take_append_of_getElem? hc rest
  rw [Nat.sub_add_cancel pos, List.take_length] at split
  rw [← split, scanFrom_take (by omega), scanFrom, if_pos hc, if_pos (by omega), Nat.add_assoc,
    Nat.sub_add_cancel pos]

-- Behind misses, the search finds what it finds from there on.
theorem Misses.scanFrom (h : Misses pat pre) (text : List α) :
    scanFrom pat i 0 (pre ++ text) = scanFrom pat (i + pre.length) 0 text := by
  induction h generalizing i
  case nil => simp
  case cons k c pre hk hc _ ih =>
    have len : (pat.take k ++ c :: pre).length = k + 1 + pre.length := by
      simp [List.length_take, Nat.min_eq_left (Nat.le_of_lt hk)]
      omega
    rw [List.append_assoc, List.cons_append, scanFrom_take hk, NetPool.scanFrom, if_neg hc, ih, len]
    congr 1
    omega

-- The search is right when the text before the first occurrence is made of misses, and only then.
theorem scan_firstEnd_iff (hp : pat ≠ []) :
    FirstEnd text pat (scan text pat) ↔ ∀ pre, First text pat pre → Misses pat pre := by
  have pos := List.length_pos_iff.mpr hp
  have found {r : Nat} (h : scan text pat = some r) :
      ∃ pre, pre ++ pat <+: text ∧ Misses pat pre ∧ r = pre.length + pat.length := by
    have ⟨pre, ho, misses, hr⟩ := of_scanFrom pos h
    exact ⟨pre, by simpa using ho, misses, by omega⟩
  have finds {pre : List α} (ho : pre ++ pat <+: text) (misses : Misses pat pre) :
      scan text pat = some (pre.length + pat.length) := by
    obtain ⟨rest, rfl⟩ := ho
    rw [scan, List.append_assoc, misses.scanFrom, scanFrom_pat hp, Nat.zero_add]
  constructor
  case mp =>
    intro h pre first
    cases hr : scan text pat
    case none =>
      rw [hr] at h
      exact absurd first.occurs (h pre)
    case some r =>
      rw [hr] at h
      obtain ⟨pre₁, first₁, hr₁⟩ := h
      obtain ⟨pre₂, occurs₂, misses, hr₂⟩ := found hr
      have least := first.least _ first₁.occurs
      have least₁ := first₁.least _ first.occurs
      exact eq_of_occurs first.occurs occurs₂ (by omega) ▸ misses
  case mpr =>
    intro h
    cases hr : scan text pat
    case none =>
      intro pre occurs
      obtain ⟨pre, first⟩ := First.exists occurs
      rw [finds first.occurs (h pre first)] at hr
      cases hr
    case some r =>
      obtain ⟨_, occurs, _⟩ := found hr
      obtain ⟨pre, first⟩ := First.exists occurs
      rw [finds first.occurs (h pre first)] at hr
      exact ⟨pre, first, (Option.some.inj hr).symm⟩

end Scan
end NetPool
