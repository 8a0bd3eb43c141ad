import Mathlib

namespace NetPool

-- A text that ends at its first NUL. A `char` is signed.
structure CString where
  chars : List Int8
  noNul : 0 ∉ chars
  deriving DecidableEq

namespace CString

def strlen (s : CString) : Nat :=
  s.chars.length

-- What comes behind the loop of `util_strncmp` and of `util_strcmp`.
def cmpEnds : List Int8 → List Int8 → Int
  | [],     _ :: _ => -1
  | _ :: _, []     => 1
  | _,      _      => 0

def strncmpFrom : List Int8 → List Int8 → Nat → Int
  | c₁ :: s₁, c₂ :: s₂, n + 1 =>
    if c₁.toInt - c₂.toInt > 0 then 1
    else if c₁.toInt - c₂.toInt < 0 then -1
    else strncmpFrom s₁ s₂ n
  | s₁, s₂, _ => cmpEnds s₁ s₂

def strcmpFrom : List Int8 → List Int8 → Int
  | c₁ :: s₁, c₂ :: s₂ =>
    if c₁.toInt - c₂.toInt > 0 then 1
    else if c₁.toInt - c₂.toInt < 0 then -1
    else strcmpFrom s₁ s₂
  | s₁, s₂ => cmpEnds s₁ s₂

def strncmp (s₁ s₂ : CString) (n : Nat) : Int :=
  strncmpFrom s₁.chars s₂.chars n

def strcmp (s₁ s₂ : CString) : Int :=
  strcmpFrom s₁.chars s₂.chars

-- The sign of a result is that of the lexicographic order of the texts.
structure SignOf (r : Int) (l₁ l₂ : List Int8) : Prop where
  zero : r = 0 ↔ l₁ = l₂
  neg  : r < 0 ↔ l₁ < l₂
  pos  : 0 < r ↔ l₂ < l₁

-- Texts that are the same as far as they are compared end together, or both go on.
def EndTogether (l₁ l₂ : List Int8) (n : Nat) : Prop :=
  l₁.take n = l₂.take n → (l₁.length ≤ n ↔ l₂.length ≤ n)

variable {l₁ l₂ m₁ m₂ : List Int8} {c c₁ c₂ : Int8} {n : Nat} {r : Int}

theorem lt_irrefl (c : Int8) : ¬c < c := by
  rw [Int8.lt_iff_toInt_lt]
  exact Int.lt_irrefl _

-- The first characters decide, unless they are the same.
theorem signOf_cons_of_lt (h : c₁ < c₂) : SignOf (-1) (c₁ :: l₁) (c₂ :: l₂) := by
  have ne : c₁ ≠ c₂ := fun he => lt_irrefl c₂ (he ▸ h)
  have not : ¬c₂ < c₁ := by
    rw [Int8.lt_iff_toInt_lt] at h ⊢
    exact Int.lt_asymm h
  refine ⟨by simp [ne], ?_, ?_⟩ <;> simp [List.cons_lt_cons_iff, h, ne.symm, not]

theorem signOf_cons_of_gt (h : c₂ < c₁) : SignOf 1 (c₁ :: l₁) (c₂ :: l₂) := by
  have sign : SignOf (-1) (c₂ :: l₂) (c₁ :: l₁) := signOf_cons_of_lt h
  exact ⟨by simpa [eq_comm] using sign.zero, by simpa using sign.pos, by simpa using sign.neg⟩

theorem signOf_cons_self : SignOf r (c :: l₁) (c :: l₂) ↔ SignOf r l₁ l₂ := by
  have lt (l₁ l₂ : List Int8) : c :: l₁ < c :: l₂ ↔ l₁ < l₂ := by simp
  constructor
  case mp =>
    rintro ⟨zero, neg, pos⟩
    rw [lt] at neg pos
    exact ⟨by simpa using zero, neg, pos⟩
  case mpr =>
    rintro ⟨zero, neg, pos⟩
    exact ⟨by simpa using zero, by rwa [lt], by rwa [lt]⟩

-- A text that is at its end comes before one that goes on.
theorem signOf_nil_nil : SignOf 0 [] [] :=
  ⟨by simp, by simp, by simp⟩

theorem signOf_nil_cons : SignOf (-1) [] (c :: l₂) :=
  ⟨by simp, by simp, by simp⟩

theorem signOf_cons_nil : SignOf 1 (c :: l₁) [] :=
  ⟨by simp, by simp, by simp⟩

-- Behind the first `n` characters, the loop looks at one more of each.
theorem signOf_strncmpFrom_iff :
    SignOf (strncmpFrom l₁ l₂ n) (l₁.take n) (l₂.take n) ↔ EndTogether l₁ l₂ n := by
  have diff (c₁ c₂ : Int8) : (c₁.toInt - c₂.toInt > 0 ↔ c₂ < c₁) ∧
      (c₁.toInt - c₂.toInt < 0 ↔ c₁ < c₂) := by
    simp only [Int8.lt_iff_toInt_lt]
    omega
  induction n generalizing l₁ l₂
  case zero =>
    have neg : ¬SignOf (-1) ([] : List Int8) [] := fun h => by simpa using h.zero
    have pos : ¬SignOf 1 ([] : List Int8) [] := fun h => by simpa using h.zero
    cases l₁ <;> cases l₂ <;> simp [strncmpFrom, cmpEnds, EndTogether, signOf_nil_nil, neg, pos]
  case succ n ih =>
    cases l₁ <;> cases l₂
    case cons.cons c₁ l₁ c₂ l₂ =>
      have ⟨gt, lt⟩ := diff c₁ c₂
      rw [strncmpFrom, List.take_succ_cons, List.take_succ_cons]
      split
      case isTrue h =>
        have ne : c₁ ≠ c₂ := fun he => lt_irrefl c₁ (he ▸ gt.mp h)
        exact ⟨fun _ he => absurd (List.cons.inj he).1 ne, fun _ => signOf_cons_of_gt (gt.mp h)⟩
      case isFalse hn =>
        split
        case isTrue h =>
          have ne : c₁ ≠ c₂ := fun he => lt_irrefl c₁ (he ▸ lt.mp h)
          exact ⟨fun _ he => absurd (List.cons.inj he).1 ne, fun _ => signOf_cons_of_lt (lt.mp h)⟩
        case isFalse hn' =>
          obtain rfl : c₁ = c₂ := Int8.toInt_inj.mp (by omega)
          exact signOf_cons_self.trans <| ih.trans <| by simp [EndTogether]
    case nil.nil   => simp [strncmpFrom, cmpEnds, EndTogether, signOf_nil_nil]
    case nil.cons  => simp [strncmpFrom, cmpEnds, EndTogether, signOf_nil_cons]
    case cons.nil  => simp [strncmpFrom, cmpEnds, EndTogether, signOf_cons_nil]

theorem strncmpFrom_mem : strncmpFrom l₁ l₂ n ∈ [-1, 0, 1] := by
  induction n generalizing l₁ l₂
  case zero      => cases l₁ <;> cases l₂ <;> simp [strncmpFrom, cmpEnds]
  case succ n ih =>
    cases l₁ <;> cases l₂
    case cons.cons =>
      rw [strncmpFrom]
      split
      case isTrue  => simp
      case isFalse =>
        split
        case isTrue  => simp
        case isFalse => exact ih
    all_goals simp [strncmpFrom, cmpEnds]

-- The order decides which of the three results it is.
theorem SignOf.eq {r' : Int} (h : SignOf r l₁ l₂) (h' : SignOf r' l₁ l₂) (hr : r ∈ [-1, 0, 1])
    (hr' : r' ∈ [-1, 0, 1]) : r = r' := by
  have zero : r = 0 ↔ r' = 0 := h.zero.trans h'.zero.symm
  have neg : r < 0 ↔ r' < 0 := h.neg.trans h'.neg.symm
  simp only [List.mem_cons, List.not_mem_nil, or_false] at hr hr'
  omega

theorem strcmpFrom_eq (h₁ : l₁.length ≤ n) (h₂ : l₂.length ≤ n) :
    strcmpFrom l₁ l₂ = strncmpFrom l₁ l₂ n := by
  induction n generalizing l₁ l₂
  case zero =>
    obtain rfl := List.length_eq_zero_iff.mp (Nat.le_zero.mp h₁)
    rfl
  case succ n ih =>
    cases l₁ <;> cases l₂
    case cons.cons =>
      rw [strcmpFrom, strncmpFrom, ih (Nat.le_of_succ_le_succ h₁) (Nat.le_of_succ_le_succ h₂)]
    all_goals rfl

variable (s₁ s₂ t₁ t₂ : CString) (n : Nat)

-- What `util_strncmp` promises of the first `n` characters holds unless one text has ended there
-- and the other one goes on.
theorem strncmp_prefix : (SignOf (strncmp s₁ s₂ n) (s₁.chars.take n) (s₂.chars.take n) ↔
      EndTogether s₁.chars s₂.chars n) ∧
    (t₁.chars.take n = s₁.chars.take n → t₂.chars.take n = s₂.chars.take n →
      EndTogether s₁.chars s₂.chars n → EndTogether t₁.chars t₂.chars n →
      strncmp t₁ t₂ n = strncmp s₁ s₂ n) ∧
    (s₁.strlen ≤ n → s₂.strlen ≤ n → strncmp s₁ s₂ n = strcmp s₁ s₂) := by
  refine ⟨signOf_strncmpFrom_iff, fun h₁ h₂ hs ht => ?_, fun h₁ h₂ => ?_⟩
  case refine_1 =>
    have sign := signOf_strncmpFrom_iff.mpr ht
    rw [h₁, h₂] at sign
    exact sign.eq (signOf_strncmpFrom_iff.mpr hs) strncmpFrom_mem strncmpFrom_mem
  case refine_2 => exact (strcmpFrom_eq h₁ h₂).symm

-- "abc" and "abd", of which two characters are compared in the same way as of "ab" twice.
theorem strncmp_prefix_sample : ∃ s₁ s₂ t : CString, s₁.chars = [97, 98, 99] ∧
    s₂.chars = [97, 98, 100] ∧ t.chars = [97, 98] ∧
    SignOf (strncmp s₁ s₂ 2) (s₁.chars.take 2) (s₂.chars.take 2) ∧
    strncmp t t 2 = strncmp s₁ s₂ 2 ∧ strncmp s₁ s₂ 3 = strcmp s₁ s₂ := by
  let s₁ : CString := ⟨[97, 98, 99], by decide⟩
  let s₂ : CString := ⟨[97, 98, 100], by decide⟩
  let t : CString := ⟨[97, 98], by decide⟩
  have ends : EndTogether s₁.chars s₂.chars 2 := fun _ => by decide
  have ⟨sign, same, _⟩ := strncmp_prefix s₁ s₂ t t 2
  have ⟨_, _, whole⟩ := strncmp_prefix s₁ s₂ t t 3
  exact ⟨s₁, s₂, t, rfl, rfl, rfl, sign.mpr ends,
    same (by decide) (by decide) ends fun _ => by decide, whole (by decide) (by decide)⟩

-- "ab" and "abc", of which two characters are compared.
theorem not_strncmp_prefix : ∃ s₁ s₂ : CString, s₁.chars = [97, 98] ∧ s₂.chars = [97, 98, 99] ∧
    strncmp s₁ s₂ 2 = -1 ∧ ¬SignOf (strncmp s₁ s₂ 2) (s₁.chars.take 2) (s₂.chars.take 2) := by
  refine ⟨⟨[97, 98], by decide⟩, ⟨[97, 98, 99], by decide⟩, rfl, rfl, by decide, fun sign => ?_⟩
  exact absurd (sign.zero.mpr (by decide)) (by decide)

end CString
end NetPool
