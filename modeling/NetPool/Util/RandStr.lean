import Mathlib

namespace NetPool

-- The state of the generator.
structure Rand where
  x : UInt32
  y : UInt32
  z : UInt32
  w : UInt32
  deriving DecidableEq

namespace Rand

-- `rand_next`: the new state, whose `w` is returned.
def next (s : Rand) : Rand :=
  let t := s.x
  let t := t ^^^ t <<< 11
  let t := t ^^^ t >>> 8
  { x := s.y
    y := s.z
    z := s.w
    w := (s.w ^^^ s.w >>> 19) ^^^ t }

-- "abcdefghijklmnopqrstuvw012345678", without its NUL.
def alphaset : List UInt8 :=
  "abcdefghijklmnopqrstuvw012345678".toList.map fun c => c.toNat.toUInt8

-- With it.
def sizeofAlphaset : UInt32 :=
  (alphaset.length + 1).toUInt32

-- The rounds of the inner loop. An index outside of the array would give a NUL.
def alphaChars : Nat → UInt32 → List UInt8
  | 0,     _       => []
  | n + 1, entropy =>
    let tmp := (entropy &&& 0xff).toUInt8
    alphaset.getD (tmp >>> 3).toNat 0 :: alphaChars n (entropy >>> 8)

-- `rand_alphastr`: what is written, and the state of the generator behind it.
def alphastr (s : Rand) : Nat → List UInt8 × Rand
  | len + 4 =>
    let (str, s') := alphastr s.next len
    (alphaChars 4 s.next.w ++ str, s')
  | len + 1 =>
    let (str, s') := alphastr s.next len
    ((s.next.w % sizeofAlphaset).toUInt8 :: str, s')
  | 0       => ([], s)

-- `len` characters of the alphabet.
structure Alphanumeric (len : Nat) (str : List UInt8) : Prop where
  length : str.length = len
  chars  : ∀ c ∈ str, c ∈ alphaset

variable {s : Rand} {len n : Nat} {entropy v : UInt32} {c : UInt8}

-- The upper five bits of a byte are an index of one of the characters.
theorem mem_alphaset_of_shift (tmp : UInt8) : alphaset.getD (tmp >>> 3).toNat 0 ∈ alphaset := by
  have index : (tmp >>> 3).toNat < alphaset.length := by
    have size : alphaset.length = 32 := by decide
    have lt := tmp.toNat_lt
    have three : (3 : UInt8).toNat % 8 = 3 := by decide
    rw [UInt8.toNat_shiftRight, size, Nat.shiftRight_eq_div_pow, three]
    omega
  rw [List.getD_eq_getElem _ _ index]
  exact List.getElem_mem index

theorem alphaChars_alphanumeric : Alphanumeric n (alphaChars n entropy) := by
  induction n generalizing entropy
  case zero      => exact ⟨rfl, nofun⟩
  case succ n ih =>
    refine ⟨congrArg (· + 1) ih.length, List.forall_mem_cons.mpr ⟨?_, ih.chars⟩⟩
    exact mem_alphaset_of_shift _

-- A remainder by the size of the array is not a character of it.
theorem remainder_not_mem (v : UInt32) : (v % sizeofAlphaset).toUInt8 ∉ alphaset := by
  have small : ∀ c ∈ alphaset, 48 ≤ c.toNat := by decide +kernel
  have lt : ((v % sizeofAlphaset).toUInt8).toNat < 33 := by
    have size : sizeofAlphaset.toNat = 33 := by decide
    rw [UInt32.toNat_toUInt8, UInt32.toNat_mod, size]
    omega
  intro h
  have := small _ h
  omega

-- Four characters of a word, or one of a remainder, in front of the others.
theorem alphanumeric_append {pre str : List UInt8} (h : Alphanumeric n pre) :
    Alphanumeric (len + n) (pre ++ str) ↔ Alphanumeric len str := by
  constructor
  case mp =>
    rintro ⟨length, chars⟩
    rw [List.length_append, h.length] at length
    exact ⟨by omega, fun c hc => chars c (List.mem_append_right _ hc)⟩
  case mpr =>
    rintro ⟨length, chars⟩
    refine ⟨by rw [List.length_append, h.length, length, Nat.add_comm], fun c hc => ?_⟩
    exact (List.mem_append.mp hc).elim (h.chars c) (chars c)

theorem not_alphanumeric_remainder {str : List UInt8} :
    ¬Alphanumeric len ((v % sizeofAlphaset).toUInt8 :: str) :=
  fun h => remainder_not_mem v (h.chars _ List.mem_cons_self)

theorem alphastr_iff (s : Rand) (len : Nat) :
    Alphanumeric len (s.alphastr len).1 ↔ len % 4 = 0 := by
  induction len using Nat.strong_induction_on generalizing s
  case h len ih =>
    match len with
    | 0 => exact ⟨fun _ => rfl, fun _ => ⟨rfl, nofun⟩⟩
    | 1 | 2 | 3 => exact ⟨fun h => absurd h not_alphanumeric_remainder, nofun⟩
    | len + 4 =>
      rw [alphastr, alphanumeric_append alphaChars_alphanumeric, ih len (by omega)]
      omega

-- Of one character, which is not in the alphabet.
theorem not_alphastr : ∃ s : Rand, (s.alphastr 1).1 = [0] ∧ ¬Alphanumeric 1 (s.alphastr 1).1 :=
  ⟨⟨0, 0, 0, 0⟩, by decide, not_alphanumeric_remainder⟩

end Rand
end NetPool
