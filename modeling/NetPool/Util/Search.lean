import NetPool.Lib.Scan
import NetPool.Util.CString

namespace NetPool

-- The index that a search returns.
def searchIndex : Option Nat → Int
  | some i => i
  | none   => -1

-- `util_memsearch` with `buf_len` and `mem_len` bytes.
def utilMemsearch (buf mem : List Int8) : Int :=
  if mem.length > buf.length then -1
  else searchIndex (scan buf mem)

-- `a >= 'A' && a <= 'Z' ? a | 0x60 : a`.
def lower (a : Int8) : Int8 :=
  if a ≥ 65 ∧ a ≤ 90 then a ||| 0x60 else a

-- `util_stristr` with `haystack_len` bytes. Of the characters that are compared, both are lowered.
def utilStristr (haystack : List Int8) (str : CString) : Int :=
  searchIndex (scan (haystack.map lower) (str.chars.map lower))

-- The index just past the first occurrence if there is one, and -1 otherwise.
def Finds (text pat : List Int8) (i : Int) : Prop :=
  ∃ r, FirstEnd text pat r ∧ i = searchIndex r

-- The search goes through the text once, and an occurrence that begins within a part of the
-- pattern that it has matched before is missed.
def FoundInOnePass (text pat : List Int8) : Prop :=
  ∀ pre, First text pat pre → Misses pat pre

variable {text pat : List Int8} {i : Int} {r r' : Option Nat}

theorem searchIndex_inj (h : searchIndex r = searchIndex r') : r = r' := by
  cases r <;> cases r' <;> simp only [searchIndex] at h
  case none.none => rfl
  case none.some => omega
  case some.none => omega
  case some.some => rw [Int.ofNat_inj.mp h]

theorem finds_searchIndex : Finds text pat (searchIndex r) ↔ FirstEnd text pat r := by
  constructor
  case mp =>
    rintro ⟨r', h, he⟩
    exact searchIndex_inj he ▸ h
  case mpr => exact fun h => ⟨r, h, rfl⟩

theorem finds_scan_iff (hp : pat ≠ []) :
    Finds text pat (searchIndex (scan text pat)) ↔ FoundInOnePass text pat :=
  finds_searchIndex.trans (scan_firstEnd_iff hp)

-- A pattern that is longer than the text does not occur in it.
theorem finds_memsearch_iff {buf mem : List Int8} (hm : mem ≠ []) :
    Finds buf mem (utilMemsearch buf mem) ↔ FoundInOnePass buf mem := by
  unfold utilMemsearch
  split
  case isFalse => exact finds_scan_iff hm
  case isTrue hl =>
    have none (pre : List Int8) : ¬pre ++ mem <+: buf := by
      intro h
      have := h.length_le
      rw [List.length_append] at this
      omega
    exact ⟨fun _ pre first => absurd first.occurs (none pre), fun _ => ⟨Option.none, none, rfl⟩⟩

theorem substring_search (buf haystack : List Int8) {mem : List Int8} {str : CString}
    (hm : mem ≠ []) (hs : str.chars ≠ []) :
    (Finds buf mem (utilMemsearch buf mem) ↔ FoundInOnePass buf mem) ∧
    (Finds (haystack.map lower) (str.chars.map lower) (utilStristr haystack str) ↔
      FoundInOnePass (haystack.map lower) (str.chars.map lower)) :=
  ⟨finds_memsearch_iff hm, finds_scan_iff (by simpa using hs)⟩

-- "ab" in "cab", and "Ab" in "caB".
theorem substring_search_sample :
    Finds [99, 97, 98] [97, 98] (utilMemsearch [99, 97, 98] [97, 98]) ∧
    Finds [99, 97, 98] [97, 98] (utilStristr [99, 97, 66] ⟨[65, 98], by decide⟩) := by
  have found : FoundInOnePass [99, 97, 98] [97, 98] := by
    intro pre first
    have occurs : [99] ++ [97, 98] <+: ([99, 97, 98] : List Int8) := List.prefix_refl _
    have least := first.least [99] occurs
    have one : pre.length = 1 := by
      by_contra hn
      obtain rfl : pre = [] := List.length_eq_zero_iff.mp (by simp at least; omega)
      exact absurd first.occurs (by decide)
    rw [eq_of_occurs first.occurs occurs one]
    exact .cons (k := 0) (by decide) (by decide) .nil
  have ⟨memsearch, stristr⟩ := @substring_search [99, 97, 98] [99, 97, 66] [97, 98]
    ⟨[65, 98], by decide⟩ (by decide) (by decide)
  exact ⟨memsearch.mpr found, stristr.mpr found⟩

-- "ab" in "aab".
theorem not_substring_search : utilMemsearch [97, 97, 98] [97, 98] = -1 ∧
    ¬Finds [97, 97, 98] [97, 98] (utilMemsearch [97, 97, 98] [97, 98]) := by
  have none : utilMemsearch [97, 97, 98] [97, 98] = searchIndex none := by decide
  refine ⟨none, fun finds => ?_⟩
  rw [none, finds_searchIndex] at finds
  exact finds [97] (List.prefix_refl _)

end NetPool
