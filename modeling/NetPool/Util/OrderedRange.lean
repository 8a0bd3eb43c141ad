import NetPool.Util.IpParse

namespace NetPool

variable {e : Endian} {pton : InetPton} {s a p : List Char} {sep : Char}

-- Both addresses are of one family, and the first is not behind the second in it.
def IpRange.Ordered (e : Endian) : IpRange → Prop
  | ⟨.v4 lo, .v4 hi⟩ => ipv4Value e lo ≤ ipv4Value e hi
  | ⟨.v6 lo, .v6 hi⟩ => ipv6Value e lo ≤ ipv6Value e hi
  | ⟨.v4 _, .v6 _⟩ | ⟨.v6 _, .v4 _⟩ => False

-- The text that is read as the end of the range `a-p`.
def endText (sep : Char) (a p : List Char) : List Char :=
  if sep ∈ p then p else upTo sep a ++ p

-- In the range `a-p` the two addresses, as far as they are read, are in ascending order.
def AscendingIn (sep : Char) (value : List Char → Option Nat) (a p : List Char) : Prop :=
  sep ∈ a → sep ∈ p ∨ (upTo sep a ++ p).length < inetAddrstrlen →
    ∀ lo ∈ value a, ∀ hi ∈ value (endText sep a p), lo ≤ hi

def Ascending (e : Endian) (pton : InetPton) (s : List Char) : Prop :=
  cut '/' s = none → ∀ a p, cut '-' s = some (a, p) →
    if ':' ∈ s then AscendingIn ':' (fun t => (pton.v6 t).map fun x => (ipv6Value e x).toNat) a p
    else AscendingIn '.' (fun t => (pton.v4 t).map fun x => (ipv4Value e x).toNat) a p

section Subnet

theorem loadIpv4Subnet_ordered {range : IpRange} (h : loadIpv4Subnet e pton a p = some range) :
    range.Ordered e := by
  have ⟨hm, h⟩ := Option.ite_none_right_eq_some.mp h
  have ⟨x, _, h⟩ := Option.map_eq_some_iff.mp h
  subst h
  have hm : (mask p).toNat ≤ 32 := hm
  simp only [IpRange.Ordered, ipv4Value, ntohl_ntohl]
  exact (IsBlock.of_bits hm (fun i hi => convertBegin_getMsbD hm hi)
    fun i hi => convertEnd_getMsbD hm hi).le

-- Where the counts of the shifts are out of range, the mask counts modulo the width.
theorem convert_mod {w m n : BitVec 32} (h : m.toNat % 64 = n.toNat % 64) :
    convertBegin w m = convertBegin w n ∧ convertEnd w m = convertEnd w n := by
  have sub : (32 - m).toNat % 64 = (32 - n).toNat % 64 := by
    rw [BitVec.toNat_sub, BitVec.toNat_sub]
    omega
  exact ⟨by rw [convertBegin, convertBegin, sub], by rw [convertEnd, convertEnd, h]⟩

-- A count of more than 32 leaves nothing of the word.
theorem convertBegin_of_gt {w m : BitVec 32} (hm : 32 < m.toNat % 64) : convertBegin w m = 0 := by
  have hk : 32 ≤ (32 - m).toNat % 64 := by
    have := m.isLt
    have : (32 : BitVec 32).toNat = 32 := rfl
    rw [BitVec.toNat_sub]
    omega
  refine BitVec.eq_of_getLsbD_eq fun i hi => ?_
  have lt : i < (32 - m).toNat % 64 := by omega
  rw [convertBegin, BitVec.getLsbD_and, BitVec.getLsbD_setWidth, BitVec.getLsbD_shiftLeft,
    decide_eq_true lt]
  simp

-- The last branch, in which a mask ends up that is short or out of range.
theorem ipv6_first {x : In6Addr} {m : BitVec 32} (hm : m.toNat ≤ 32 ∨ 128 < m.toNat) :
    ipv6Begin x m = ⟨convertBegin x.w₀ m, 0, 0, 0⟩ ∧
      ipv6End x m = ⟨convertEnd (convertBegin x.w₀ m) m, 0xffffffff#32, 0xffffffff#32,
        0xffffffff#32⟩ := by
  have other (lo hi : BitVec 32) (h₁ : 32 ≤ lo.toNat) (h₂ : hi.toNat ≤ 128) :
      ¬(m > lo ∧ m ≤ hi) := by
    rintro ⟨hl, hh⟩
    have hl : lo.toNat < m.toNat := hl
    have hh : m.toNat ≤ hi.toNat := hh
    omega
  have h₁ := other 96 128 (by decide) (by decide)
  have h₂ := other 64 96 (by decide) (by decide)
  have h₃ := other 32 64 (by decide) (by decide)
  constructor
  case left  => rw [ipv6Begin, if_neg h₁, if_neg h₂, if_neg h₃]
  case right => rw [ipv6End, if_neg h₁, if_neg h₂, if_neg h₃]

theorem ipv6_le {x : In6Addr} {m : BitVec 32} : (ipv6Begin x m).bits ≤ (ipv6End x m).bits := by
  have block {n : BitVec 32} (hn : n.toNat ≤ 128) : (ipv6Begin x n).bits ≤ (ipv6End x n).bits :=
    (IsBlock.of_bits hn (fun i hi => ipv6Begin_getMsbD hn hi)
      fun i hi => ipv6End_getMsbD hn hi).le
  by_cases hm : m.toNat ≤ 128
  case pos => exact block hm
  case neg =>
    have ⟨hb, he⟩ := ipv6_first (x := x) (m := m) (.inr (by omega))
    by_cases hs : m.toNat % 64 ≤ 32
    case pos =>
      -- The range is the one of the mask modulo 64.
      let n := BitVec.ofNat 32 (m.toNat % 64)
      have hn : n.toNat = m.toNat % 64 := by
        rw [BitVec.toNat_ofNat]
        omega
      have hmod {w : BitVec 32} := convert_mod (w := w) (m := m) (n := n) (by omega)
      have ⟨hb', he'⟩ := ipv6_first (x := x) (m := n) (.inl (by omega))
      rw [hb, he, hmod.1, hmod.2, ← hb', ← he']
      exact block (by omega)
    case neg =>
      rw [hb, convertBegin_of_gt (by omega)]
      exact BitVec.le_def.mpr (Nat.zero_le _)

theorem loadIpv6Subnet_ordered {range : IpRange} (h : loadIpv6Subnet e pton a p = some range) :
    range.Ordered e := by
  have ⟨x, _, h⟩ := Option.map_eq_some_iff.mp h
  subst h
  simp only [IpRange.Ordered, ipv6Value, In6Addr.toHost_toHost]
  exact ipv6_le

end Subnet

section Family

theorem of_eq_ok {o : Option IpRange} {range : IpRange} :
    ParseRet.of o = .ok range ↔ o = some range := by
  cases o <;> simp [ParseRet.of]

variable {α : Type} {n : Nat}

variable (ctor : α → EngineIp) (read : List Char → Option α) (value : α → BitVec n)
  (hord : ∀ x y, IpRange.Ordered e ⟨ctor x, ctor y⟩ ↔ value x ≤ value y)
include hord

-- The end of the range is read from `t`.
theorem ordered_to (x : α) (t : List Char) :
    (∀ range, ParseRet.of (((read t).map ctor).map (⟨ctor x, ·⟩)) = .ok range → range.Ordered e) ↔
    ∀ hi ∈ (read t).map fun y => (value y).toNat, (value x).toNat ≤ hi := by
  cases read t
  case none   => simp [of_eq_ok]
  case some y => simp [of_eq_ok, hord, BitVec.le_def]

-- A parser of a family, whose subnets are ordered.
theorem ordered_parseRangeIn (sep : Char)
    (loadSubnet : List Char → List Char → Option IpRange)
    (hload : ∀ a p range, loadSubnet a p = some range → range.Ordered e) :
    (∀ range, parseRangeIn sep (fun t => (read t).map ctor) loadSubnet s = .ok range →
      range.Ordered e) ↔
    (cut '/' s = none → ∀ a p, cut '-' s = some (a, p) →
      AscendingIn sep (fun t => (read t).map fun x => (value x).toNat) a p) := by
  unfold parseRangeIn
  cases hc : cut '/' s
  case some ap =>
    refine iff_of_true (fun range h => ?_) nofun
    have h : ParseRet.of (loadSubnet ap.1 ap.2) = .ok range := h
    exact hload _ _ _ (of_eq_ok.mp h)
  case none =>
    simp only [true_imp_iff]
    cases hd : cut '-' s
    case none =>
      refine iff_of_true (fun range h => ?_) nofun
      have ⟨x, hx, h⟩ := Option.map_eq_some_iff.mp (of_eq_ok.mp h)
      have ⟨y, _, hx⟩ := Option.map_eq_some_iff.mp hx
      subst h hx
      exact (hord y y).mpr (BitVec.le_refl _)
    case some ap =>
      have ⟨a, p⟩ := ap
      have only {q : List Char → List Char → Prop} :
          (∀ a' p', some (a, p) = some (a', p') → q a' p') ↔ q a p := by simp
      rw [only]
      dsimp only
      by_cases hs : sep ∈ a
      case neg => simp [AscendingIn, hs]
      case pos =>
        cases hr : read a
        case none   => simp [AscendingIn, hs, hr]
        case some x =>
          have ends := ordered_to ctor read value hord x
          simp only [AscendingIn, endText, hs, hr, not_true, if_false, Option.map_some,
            true_imp_iff, Option.mem_def, Option.some.injEq, forall_eq']
          by_cases hp : sep ∈ p
          case pos => simpa only [hp, if_true, true_or, true_imp_iff, Option.mem_def] using ends p
          case neg =>
            by_cases hl : (upTo sep a ++ p).length < inetAddrstrlen
            case pos =>
              simpa only [hp, if_false, hl, false_or, true_imp_iff, ge_iff_le, Nat.not_le_of_lt hl,
                Option.mem_def] using ends (upTo sep a ++ p)
            case neg =>
              simp only [hp, if_false, hl, false_or, false_imp_iff, ge_iff_le, Nat.le_of_not_lt hl,
                if_true]
              simp

end Family

-- The end of a range in the dash form is not compared with its start.
theorem ordered_iff (e : Endian) (pton : InetPton) (s : List Char) :
    (∀ range, parseRange e pton s = .ok range → range.Ordered e) ↔ Ascending e pton s := by
  unfold parseRange Ascending
  by_cases h₆ : ':' ∈ s
  case pos =>
    simp only [h₆, if_true]
    exact ordered_parseRangeIn .v6 pton.v6 (ipv6Value e) (fun _ _ => Iff.rfl) ':'
      (loadIpv6Subnet e pton) fun _ _ _ => loadIpv6Subnet_ordered
  case neg =>
    simp only [h₆, if_false]
    have core := ordered_parseRangeIn (s := s) .v4 pton.v4 (ipv4Value e) (fun _ _ => Iff.rfl) '.'
      (loadIpv4Subnet e pton) fun _ _ _ => loadIpv4Subnet_ordered
    by_cases h₄ : '.' ∈ s
    case pos =>
      simp only [h₄, if_true]
      exact core
    case neg =>
      simp only [h₄, if_false]
      refine iff_of_true nofun fun _ a p hd ha => ?_
      exact absurd ((cut_eq_some hd).1 ▸ List.mem_append_left _ ha) h₄

-- `1.2.3.9-1.2.3.4` is accepted as it stands.
theorem not_ordered : ∃ pton range, parseRange .little pton
      ['1', '.', '2', '.', '3', '.', '9', '-', '1', '.', '2', '.', '3', '.', '4'] = .ok range ∧
    range.startAddr = .v4 0x09030201 ∧ range.endAddr = .v4 0x04030201 ∧ ¬range.Ordered .little := by
  refine ⟨.table [(['1', '.', '2', '.', '3', '.', '4'], 0x04030201),
    (['1', '.', '2', '.', '3', '.', '9'], 0x09030201)] [], ⟨.v4 0x09030201, .v4 0x04030201⟩,
    by decide, rfl, rfl, ?_⟩
  simp only [IpRange.Ordered]
  decide

end NetPool
