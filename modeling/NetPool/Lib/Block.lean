import Mathlib

namespace NetPool

-- The words from `lo` to `hi` are those that begin with the first `m` bits of `a`.
structure IsBlock {w : Nat} (a : BitVec w) (m : Nat) (lo hi : BitVec w) : Prop where
  mem   : ∀ x, lo ≤ x ∧ x ≤ hi ↔ ∀ i < m, x.getMsbD i = a.getMsbD i
  zeros : ∀ i < w, m ≤ i → lo.getMsbD i = false
  ones  : ∀ i < w, m ≤ i → hi.getMsbD i = true

namespace IsBlock

variable {w m k : Nat} {a x lo hi : BitVec w}

theorem le (h : IsBlock a m lo hi) : lo ≤ hi :=
  have ⟨h₀, h₁⟩ := (h.mem a).mpr fun _ _ => rfl
  BitVec.le_trans h₀ h₁

-- The first `m` of the bits are all that is left when the others are shifted out.
theorem agree_iff (hm : m ≤ w) (hk : k = w - m) :
    (∀ i < m, x.getMsbD i = a.getMsbD i) ↔ x.toNat / 2 ^ k = a.toNat / 2 ^ k := by
  constructor
  case mp =>
    intro h
    refine Nat.eq_of_testBit_eq fun j => ?_
    rw [Nat.testBit_div_two_pow, Nat.testBit_div_two_pow]
    by_cases hj : j + k < w
    case neg => rw [BitVec.testBit_toNat, BitVec.testBit_toNat, BitVec.getLsbD_of_ge _ _ (by omega),
      BitVec.getLsbD_of_ge _ _ (by omega)]
    case pos =>
      have := h (w - 1 - (j + k)) (by omega)
      rw [BitVec.testBit_toNat, BitVec.testBit_toNat, BitVec.getLsbD_eq_getMsbD,
        BitVec.getLsbD_eq_getMsbD, this]
  case mpr =>
    intro h i hi
    have := congrArg (Nat.testBit · (w - 1 - i - k)) h
    simp only [Nat.testBit_div_two_pow, BitVec.testBit_toNat] at this
    rw [show w - 1 - i - k + k = w - 1 - i by omega] at this
    rw [BitVec.getMsbD_eq_getLsbD, BitVec.getMsbD_eq_getLsbD, this]

-- The number whose first `m` bits are those of `a`, and the others those of `b`.
theorem toNat_eq {b : Nat} (hm : m ≤ w) (hk : k = w - m) (hb : b < 2 ^ k)
    (h : ∀ i < w, x.getMsbD i = if i < m then a.getMsbD i else b.testBit (w - 1 - i)) :
    x.toNat = 2 ^ k * (a.toNat / 2 ^ k) + b := by
  refine Nat.eq_of_testBit_eq fun j => ?_
  rw [Nat.testBit_two_pow_mul_add _ hb, Nat.testBit_div_two_pow, BitVec.testBit_toNat]
  by_cases hj : j < w
  case neg =>
    rw [BitVec.getLsbD_of_ge _ _ (by omega), if_neg (by omega), BitVec.testBit_toNat,
      BitVec.getLsbD_of_ge _ _ (by omega)]
  case pos =>
    have hw : w - 1 - j < w := by omega
    have back : w - 1 - (w - 1 - j) = j := by omega
    have := h (w - 1 - j) hw
    simp only [BitVec.getMsbD_eq_getLsbD, hw, back, decide_true, Bool.true_and] at this
    rw [this]
    split
    case isTrue  => rw [if_neg (by omega), BitVec.testBit_toNat, Nat.sub_add_cancel (by omega)]
    case isFalse => rw [if_pos (by omega)]

-- A block is made by clearing, and by setting, all the bits after the first `m`.
theorem of_bits (hm : m ≤ w) (h₀ : ∀ i < w, lo.getMsbD i = (decide (i < m) && a.getMsbD i))
    (h₁ : ∀ i < w, hi.getMsbD i = (decide (m ≤ i) || a.getMsbD i)) : IsBlock a m lo hi := by
  refine ⟨fun x => ?_, fun i hi hmi => ?_, fun i hi hmi => ?_⟩
  case refine_2 => simp [h₀ i hi, Nat.not_lt_of_le hmi]
  case refine_3 => simp [h₁ i hi, hmi]
  case refine_1 =>
    have pos : 0 < 2 ^ (w - m) := by positivity
    have lo_eq := toNat_eq (x := lo) (a := a) hm rfl pos fun i hi => by
      simpa using h₀ i hi
    have hi_eq := toNat_eq (x := hi) (a := a) hm rfl (Nat.sub_lt pos Nat.one_pos) fun i hi => by
      rw [h₁ i hi, Nat.testBit_two_pow_sub_one]
      by_cases hmi : m ≤ i
      case pos => simp [hmi, Nat.not_lt_of_le hmi, show w - 1 - i < w - m by omega]
      case neg => simp [hmi, Nat.lt_of_not_le hmi]
    rw [agree_iff hm rfl, BitVec.le_def, BitVec.le_def, lo_eq, hi_eq, Nat.div_eq_iff pos,
      Nat.mul_comm]
    omega

end IsBlock
end NetPool
