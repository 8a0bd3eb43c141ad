import NetPool.Util.IpParse

namespace NetPool

-- `SCAN_PORT_MIN` and `SCAN_PORT_MAX`.
def scanPortMin : Nat :=
  16

def scanPortMax : Nat :=
  65535

-- `unsigned short`
def u16 (n : Int) : Nat :=
  (n % 2 ^ 16).toNat

-- An `int` of the low bits of a `long`.
def atoi (s : List Char) : Int :=
  (strtol s).bmod (2 ^ 32)

-- `port_range_t`
structure PortRange where
  startPort : Nat
  endPort   : Nat
  deriving DecidableEq

-- The fields are written before they are compared with the limits.
def readPorts (portstr : List Char) : PortRange :=
  match cut '-' portstr with
  | some (portstr, p) => ⟨u16 (atoi portstr), u16 (atoi p)⟩
  | none              => ⟨u16 (atoi portstr), u16 (atoi portstr)⟩

-- `port_parse_range` returns 0, with the range, or -1.
def portParseRange (portstr : List Char) : Option PortRange :=
  let portRange := readPorts portstr
  if portRange.startPort < scanPortMin ∨ portRange.startPort > scanPortMax then none
  else if portRange.endPort < scanPortMin ∨ portRange.endPort > scanPortMax then none
  else if portRange.endPort < portRange.startPort then none
  else some portRange

-- The answer for the numbers `v` and `w` as they are written.
def Meant (ret : Option PortRange) (v w : Nat) : Prop :=
  ret = if scanPortMin ≤ v ∧ v ≤ w ∧ w ≤ scanPortMax then some ⟨v, w⟩ else none

section Parse

variable {n m : List Char} {v w : Nat}

theorem atoi_digits (hn : n ≠ []) (hd : n.all Char.isDigit) (hb : decimal n < 2 ^ 31) :
    atoi n = decimal n := by
  rw [atoi, strtol_digits hn hd (by omega)]
  exact Int.bmod_eq_of_le (by omega) (by omega)

theorem u16_atoi (hn : n ≠ []) (hd : n.all Char.isDigit) (hb : decimal n < 2 ^ 31) :
    u16 (atoi n) = decimal n % 2 ^ 16 := by
  rw [atoi_digits hn hd hb, u16]
  omega

theorem dash_not_mem (hd : n.all Char.isDigit) : '-' ∉ n :=
  fun hm => absurd (List.all_eq_true.mp hd _ hm) (by decide)

-- The fields hold what is left of the numbers.
theorem portParseRange_eq {s : List Char} (h : readPorts s = ⟨v % 2 ^ 16, w % 2 ^ 16⟩) :
    portParseRange s = if scanPortMin ≤ v % 2 ^ 16 ∧ v % 2 ^ 16 ≤ w % 2 ^ 16 then
      some ⟨v % 2 ^ 16, w % 2 ^ 16⟩ else none := by
  have hv := Nat.mod_lt v (Nat.two_pow_pos 16)
  have hw := Nat.mod_lt w (Nat.two_pow_pos 16)
  have lo : scanPortMin = 16 := rfl
  have hi : scanPortMax = 65535 := rfl
  simp only [portParseRange, h]
  by_cases hc : scanPortMin ≤ v % 2 ^ 16 ∧ v % 2 ^ 16 ≤ w % 2 ^ 16
  case pos => rw [if_pos hc, if_neg (by omega), if_neg (by omega), if_neg (by omega)]
  case neg =>
    rw [if_neg hc]
    split
    case isTrue  => rfl
    case isFalse =>
      split
      case isTrue  => rfl
      case isFalse => exact if_pos (by omega)

theorem meant_iff {s : List Char} (h : readPorts s = ⟨v % 2 ^ 16, w % 2 ^ 16⟩) :
    Meant (portParseRange s) v w ↔ v ≤ scanPortMax ∧ w ≤ scanPortMax ∨
      ¬(scanPortMin ≤ v % 2 ^ 16 ∧ v % 2 ^ 16 ≤ w % 2 ^ 16) := by
  rw [Meant, portParseRange_eq h]
  by_cases hb : v ≤ scanPortMax ∧ w ≤ scanPortMax
  case pos =>
    have hv : v % 2 ^ 16 = v := Nat.mod_eq_of_lt (Nat.lt_succ_of_le hb.1)
    have hw : w % 2 ^ 16 = w := Nat.mod_eq_of_lt (Nat.lt_succ_of_le hb.2)
    rw [hv, hw, or_iff_left_of_imp fun _ => hb, iff_true_right hb]
    simp only [hb.2, and_true]
  case neg =>
    have hn : ¬(scanPortMin ≤ v ∧ v ≤ w ∧ w ≤ scanPortMax) :=
      fun ⟨_, hvw, hw⟩ => hb ⟨hvw.trans hw, hw⟩
    rw [if_neg hn, or_iff_right hb]
    split
    case isTrue hc  => exact iff_of_false nofun (not_not_intro hc)
    case isFalse hc => exact iff_of_true rfl hc

end Parse

-- The limits are compared with what is left of the numbers in 16 bits.
theorem port_range (n m : List Char) (hn : n ≠ []) (hn' : n.all Char.isDigit)
    (hm : m ≠ []) (hm' : m.all Char.isDigit) (hv : decimal n < 2 ^ 31) (hw : decimal m < 2 ^ 31) :
    (Meant (portParseRange n) (decimal n) (decimal n) ↔
      decimal n ≤ scanPortMax ∨ decimal n % 2 ^ 16 < scanPortMin) ∧
    (Meant (portParseRange (n ++ '-' :: m)) (decimal n) (decimal m) ↔
      decimal n ≤ scanPortMax ∧ decimal m ≤ scanPortMax ∨
        ¬(scanPortMin ≤ decimal n % 2 ^ 16 ∧ decimal n % 2 ^ 16 ≤ decimal m % 2 ^ 16)) := by
  have hd := dash_not_mem hn'
  have single : readPorts n = ⟨decimal n % 2 ^ 16, decimal n % 2 ^ 16⟩ := by
    simp [readPorts, cut_eq_none.mpr hd, u16_atoi hn hn' hv]
  have pair : readPorts (n ++ '-' :: m) = ⟨decimal n % 2 ^ 16, decimal m % 2 ^ 16⟩ := by
    simp [readPorts, cut_append hd, u16_atoi hn hn' hv, u16_atoi hm hm' hw]
  refine ⟨?_, meant_iff pair⟩
  rw [meant_iff single]
  simp

-- `80-443`, and `65600-65700`, of which 64 and 164 are left.
theorem port_range_sample :
    Meant (portParseRange ['8', '0', '-', '4', '4', '3']) 80 443 ∧
    ¬Meant (portParseRange ['6', '5', '6', '0', '0', '-', '6', '5', '7', '0', '0']) 65600 65700 :=
  ⟨(port_range ['8', '0'] ['4', '4', '3'] (by decide) (by decide) (by decide) (by decide)
      (by decide) (by decide)).2.mpr (by decide),
    fun h => absurd ((port_range ['6', '5', '6', '0', '0'] ['6', '5', '7', '0', '0'] (by decide)
      (by decide) (by decide) (by decide) (by decide) (by decide)).2.mp h) (by decide)⟩

-- `65616` is taken for 80.
theorem not_port_range :
    decimal ['6', '5', '6', '1', '6'] = 65616 ∧
    portParseRange ['6', '5', '6', '1', '6'] = some ⟨80, 80⟩ ∧
    ¬Meant (portParseRange ['6', '5', '6', '1', '6']) 65616 65616 := by
  refine ⟨by decide, by decide, ?_⟩
  unfold Meant
  decide

end NetPool
