import NetPool.Util.IpRange

namespace NetPool

-- `INET_ADDRSTRLEN`.
def inetAddrstrlen : Nat :=
  16

-- What comes before and after the first `c`, as `strpbrk` finds it.
def cut (c : Char) (s : List Char) : Option (List Char × List Char) :=
  if c ∈ s then some (s.takeWhile (· ≠ c), (s.dropWhile (· ≠ c)).tail) else none

-- The text up to and including its last `c`, as `strrchr` finds it.
def upTo (c : Char) (s : List Char) : List Char :=
  (s.reverse.dropWhile (· ≠ c)).reverse

-- What `engine_ip_parse_range` returns: 0, with the range, or -1. What it does is not defined where
-- the end address does not fit into `str` together with its terminator.
inductive ParseRet
  | ok (range : IpRange)
  | error
  | undefined
  deriving DecidableEq

def ParseRet.of : Option IpRange → ParseRet
  | some range => .ok range
  | none       => .error

-- `engine_ip_parse_range_ipv4` and `engine_ip_parse_range_ipv6` differ in the separator, and in the
-- functions that read an address and load a subnet.
def parseRangeIn (sep : Char) (strTo : List Char → Option EngineIp)
    (loadSubnet : List Char → List Char → Option IpRange) (ipstr : List Char) : ParseRet :=
  match cut '/' ipstr with
  | some (ipstr, p) => .of (loadSubnet ipstr p)
  | none =>
    match cut '-' ipstr with
    | some (ipstr, p) =>
      if sep ∉ ipstr then .error
      else match strTo ipstr with
        | none           => .error
        | some startAddr =>
          if sep ∈ p then .of <| (strTo p).map (⟨startAddr, ·⟩)
          else if (upTo sep ipstr ++ p).length ≥ inetAddrstrlen then .undefined
          else .of <| (strTo (upTo sep ipstr ++ p)).map (⟨startAddr, ·⟩)
    | none => .of <| (strTo ipstr).map fun addr => ⟨addr, addr⟩

def parseRangeIpv4 (e : Endian) (pton : InetPton) : List Char → ParseRet :=
  parseRangeIn '.' (fun s => (pton.v4 s).map .v4) (loadIpv4Subnet e pton)

def parseRangeIpv6 (e : Endian) (pton : InetPton) : List Char → ParseRet :=
  parseRangeIn ':' (fun s => (pton.v6 s).map .v6) (loadIpv6Subnet e pton)

def parseRange (e : Endian) (pton : InetPton) (ipstr : List Char) : ParseRet :=
  if ':' ∈ ipstr then parseRangeIpv6 e pton ipstr
  else if '.' ∈ ipstr then parseRangeIpv4 e pton ipstr
  else .error

-- A non-empty string of digits, of a value up to `bound`.
def IsPrefixLength (bound : Nat) (n : List Char) : Prop :=
  n ≠ [] ∧ n.all Char.isDigit ∧ decimal n ≤ bound

-- The ranges of a family, from its addresses.
inductive IsRange (addr : List Char → Prop) (sep : Char) (bound : Nat) : List Char → Prop
  | single : addr a → IsRange addr sep bound a
  | subnet : addr a → IsPrefixLength bound n → IsRange addr sep bound (a ++ '/' :: n)
  | range  : addr a → addr b → IsRange addr sep bound (a ++ '-' :: b)
  | suffix : addr a → sep ∉ y → addr (upTo sep a ++ y) → IsRange addr sep bound (a ++ '-' :: y)

namespace InetPton

variable (pton : InetPton)

def IsV4 (s : List Char) : Prop :=
  (pton.v4 s).isSome

def IsV6 (s : List Char) : Prop :=
  (pton.v6 s).isSome

-- The letters of the standard textual addresses.
structure Standard : Prop where
  dot    : ∀ s, pton.IsV4 s → '.' ∈ s
  chars₄ : ∀ s, pton.IsV4 s → ∀ c ∈ s, c.isDigit ∨ c = '.'
  colon  : ∀ s, pton.IsV6 s → ':' ∈ s
  chars₆ : ∀ s, pton.IsV6 s → ∀ c ∈ s, c.isAlphanum ∨ c = ':' ∨ c = '.'

def IsIpRange (s : List Char) : Prop :=
  IsRange pton.IsV4 '.' 32 s ∨ IsRange pton.IsV6 ':' 128 s

end InetPton

-- The parser returns 0 for what is a range, and -1 for everything else.
def Exactly (ret : ParseRet) (isRange : Prop) : Prop :=
  (∃ range, ret = .ok range) ∧ isRange ∨ ret = .error ∧ ¬isRange

section Cut

variable {c : Char} {s a p : List Char}

theorem cut_eq_none : cut c s = none ↔ c ∉ s := by
  simp [cut]

theorem cut_eq_some (h : cut c s = some (a, p)) : s = a ++ c :: p ∧ c ∉ a := by
  have ⟨hc, h⟩ := Option.ite_none_right_eq_some.mp h
  cases h
  have ⟨as, bs, hs, ha⟩ := List.eq_append_cons_of_mem hc
  have before : ∀ a ∈ as, decide (a ≠ c) = true := by
    intro a hm
    simpa using ne_of_mem_of_not_mem hm ha
  subst hs
  rw [List.takeWhile_append_of_pos before, List.dropWhile_append_of_pos before]
  simpa using ha

theorem cut_append (h : c ∉ a) : cut c (a ++ c :: p) = some (a, p) := by
  have before : ∀ a' ∈ a, decide (a' ≠ c) = true := by
    intro a' hm
    simpa using ne_of_mem_of_not_mem hm h
  rw [cut, if_pos (by simp), List.takeWhile_append_of_pos before,
    List.dropWhile_append_of_pos before]
  simp

end Cut

section Family

variable {addr : List Char → Prop} {sep : Char} {bound : Nat} {maskOk : List Char → Prop}
  {strTo : List Char → Option EngineIp} {loadSubnet : List Char → List Char → Option IpRange}
  {s a p : List Char}

-- What the parser relies on in the addresses of a family.
structure Texts (addr : List Char → Prop) (sep : Char) : Prop where
  sep   : ∀ s, addr s → sep ∈ s
  slash : ∀ s, addr s → '/' ∉ s
  dash  : ∀ s, addr s → '-' ∉ s

theorem IsRange.of_slash (t : Texts addr sep) (h : IsRange addr sep bound s)
    (hc : cut '/' s = some (a, p)) : addr a ∧ IsPrefixLength bound p := by
  have ⟨hs, _⟩ := cut_eq_some hc
  have mem : '/' ∈ s := hs ▸ List.mem_append_right _ List.mem_cons_self
  cases h
  case single ha    => exact absurd mem <| t.slash _ ha
  case subnet ha hn =>
    rw [cut_append (t.slash _ ha)] at hc
    cases hc
    exact ⟨ha, hn⟩
  case range ha hb  => simp [t.slash _ ha, t.slash _ hb] at mem
  case suffix ha hy hb =>
    have := t.slash _ hb
    simp [t.slash _ ha] at mem
    simp [mem] at this

theorem IsRange.of_dash (t : Texts addr sep) (h : IsRange addr sep bound s) (hs : '/' ∉ s)
    (hc : cut '-' s = some (a, p)) : addr a ∧ (addr p ∨ sep ∉ p ∧ addr (upTo sep a ++ p)) := by
  have ⟨he, _⟩ := cut_eq_some hc
  have mem : '-' ∈ s := he ▸ List.mem_append_right _ List.mem_cons_self
  cases h
  case single ha       => exact absurd mem <| t.dash _ ha
  case subnet          => simp at hs
  case range ha hb     =>
    rw [cut_append (t.dash _ ha)] at hc
    cases hc
    exact ⟨ha, .inl hb⟩
  case suffix ha hy hb =>
    rw [cut_append (t.dash _ ha)] at hc
    cases hc
    exact ⟨ha, .inr ⟨hy, hb⟩⟩

theorem IsRange.of_neither (h : IsRange addr sep bound s) (hs : '/' ∉ s) (hd : '-' ∉ s) :
    addr s := by
  cases h
  case single ha      => exact ha
  case subnet         => simp at hs
  case range | suffix => simp at hd

-- When the parser of a family does what the grammar says: no mask is accepted that is not a prefix
-- length, and the end address fits into `str`.
def Sound (addr : List Char → Prop) (sep : Char) (maskOk : List Char → Prop) (bound : Nat)
    (s : List Char) : Prop :=
  match cut '/' s with
  | some (a, p) => addr a → maskOk p → IsPrefixLength bound p
  | none        =>
    match cut '-' s with
    | some (a, p) => addr a → sep ∉ p → (upTo sep a ++ p).length < inetAddrstrlen
    | none        => True

@[simp]
theorem exactly_of {o : Option IpRange} {q : Prop} : Exactly (.of o) q ↔ (o.isSome ↔ q) := by
  cases o <;> by_cases hq : q <;> simp [Exactly, ParseRet.of, hq]

theorem exactly_error {q : Prop} : Exactly .error q ↔ ¬q := by
  simp [Exactly]

theorem not_exactly_undefined {q : Prop} : ¬Exactly .undefined q := by
  simp [Exactly]

theorem exactly_parseRangeIn (t : Texts addr sep) (hstr : ∀ s, (strTo s).isSome ↔ addr s)
    (hsub : ∀ a p, (loadSubnet a p).isSome ↔ addr a ∧ maskOk p)
    (hmask : ∀ p, IsPrefixLength bound p → maskOk p) :
    Exactly (parseRangeIn sep strTo loadSubnet s) (IsRange addr sep bound s) ↔
      Sound addr sep maskOk bound s := by
  unfold parseRangeIn Sound
  cases hc : cut '/' s
  case some ap =>
    have ⟨a, p⟩ := ap
    have ⟨hs, _⟩ := cut_eq_some hc
    have range : IsRange addr sep bound s ↔ addr a ∧ IsPrefixLength bound p :=
      ⟨fun h => h.of_slash t hc, fun ⟨ha, hn⟩ => hs ▸ .subnet ha hn⟩
    simp only [exactly_of, hsub, range]
    have := hmask p
    tauto
  case none =>
    have hs := cut_eq_none.mp hc
    cases hd : cut '-' s
    case some ap =>
      have ⟨a, p⟩ := ap
      have ⟨he, _⟩ := cut_eq_some hd
      have range : IsRange addr sep bound s ↔
          addr a ∧ (addr p ∨ sep ∉ p ∧ addr (upTo sep a ++ p)) :=
        ⟨fun h => h.of_dash t hs hd, fun ⟨ha, hb⟩ => he ▸ hb.elim (.range ha) fun ⟨hy, hb⟩ =>
          .suffix ha hy hb⟩
      by_cases ha : addr a
      case neg =>
        have hn : strTo a = none := by simpa [ha] using (hstr a).not
        simp [hn, range, ha, exactly_error]
      case pos =>
        have ⟨startAddr, hstart⟩ := Option.isSome_iff_exists.mp <| (hstr a).mpr ha
        simp only [hstart, t.sep a ha, not_true, if_false, ha, range, true_and, forall_const]
        by_cases hp : sep ∈ p
        case pos => simp [hp, hstr]
        case neg =>
          have hb : ¬addr p := fun hb => hp <| t.sep p hb
          simp only [hp, if_false, hb, false_or, not_false_eq_true, true_and, forall_const]
          split
          case isTrue h  => simpa [not_exactly_undefined] using h
          case isFalse h => simpa [hstr] using h
    case none =>
      have range : IsRange addr sep bound s ↔ addr s :=
        ⟨fun h => h.of_neither hs (cut_eq_none.mp hd), .single⟩
      simp [hstr, range]

end Family

section Mask

variable {c : Char} {n : List Char}

theorem isSpace_of_isDigit (h : c.isDigit) : isSpace c = false := by
  simp only [Char.isDigit, Bool.and_eq_true, decide_eq_true_eq] at h
  have := UInt32.le_iff_toNat_le.mp h.1
  simp only [isSpace, Char.toNat]
  simp at this ⊢
  omega

theorem strtol_digits (hn : n ≠ []) (hd : n.all Char.isDigit) (hb : decimal n < 2 ^ 32) :
    strtol n = decimal n := by
  have digits := List.all_eq_true.mp hd
  cases n
  case nil       => contradiction
  case cons c cs =>
    have hc : c.isDigit := digits c List.mem_cons_self
    have take : (c :: cs).takeWhile Char.isDigit = c :: cs := List.takeWhile_eq_self_iff.mpr digits
    have drop : (c :: cs).dropWhile isSpace = c :: cs := by
      rw [List.dropWhile_cons_of_neg (by simp [isSpace_of_isDigit hc])]
    unfold strtol
    rw [drop]
    split
    case h_1 he => cases he; contradiction
    case h_2 he => cases he; contradiction
    case h_3    => rw [take, Nat.min_eq_left (by omega)]

theorem mask_le (h : IsPrefixLength 32 n) : mask n ≤ 32 := by
  have ⟨hn, hd, hb⟩ := h
  rw [BitVec.le_def, toNat_mask (strtol_digits hn hd (by omega)) (by omega)]
  exact hb

end Mask

section Standard

variable {e : Endian} {pton : InetPton} {s a p : List Char}

theorem InetPton.Standard.texts₄ (std : pton.Standard) : Texts pton.IsV4 '.' where
  sep       := std.dot
  slash s h := fun hm => by simpa using std.chars₄ s h _ hm
  dash s h  := fun hm => by simpa using std.chars₄ s h _ hm

theorem InetPton.Standard.texts₆ (std : pton.Standard) : Texts pton.IsV6 ':' where
  sep       := std.colon
  slash s h := fun hm => by simpa using std.chars₆ s h _ hm
  dash s h  := fun hm => by simpa using std.chars₆ s h _ hm

-- A range of the one family has no colon, and one of the other has.
theorem InetPton.Standard.colon_not_mem (std : pton.Standard) (h : IsRange pton.IsV4 '.' 32 s) :
    ':' ∉ s := by
  have addr : ∀ a, pton.IsV4 a → ':' ∉ a := fun a ha hm => by simpa using std.chars₄ a ha _ hm
  cases h
  case single ha       => exact addr _ ha
  case subnet ha hn    =>
    have hn : ':' ∉ _ := fun hm => by simpa using List.all_eq_true.mp hn.2.1 _ hm
    simp [addr _ ha, hn]
  case range ha hb     => simp [addr _ ha, addr _ hb]
  case suffix ha _ hb  =>
    have := addr _ hb
    simp only [List.mem_append, not_or] at this
    simp [addr _ ha, this.2]

theorem IsRange.sep_mem {addr : List Char → Prop} {sep : Char} {bound : Nat} (t : Texts addr sep)
    (h : IsRange addr sep bound s) : sep ∈ s := by
  cases h
  case single ha     => exact t.sep _ ha
  case subnet ha _   => exact List.mem_append_left _ <| t.sep _ ha
  case range ha _    => exact List.mem_append_left _ <| t.sep _ ha
  case suffix ha _ _ => exact List.mem_append_left _ <| t.sep _ ha

-- Without a separator there is no address.
theorem Sound.of_not_mem {addr : List Char → Prop} {sep : Char} {maskOk : List Char → Prop}
    {bound : Nat} (t : Texts addr sep) (hs : sep ∉ s) : Sound addr sep maskOk bound s := by
  have none : ∀ c a p, cut c s = some (a, p) → ¬addr a := by
    intro c a p hc ha
    exact hs <| (cut_eq_some hc).1 ▸ List.mem_append_left _ (t.sep a ha)
  unfold Sound
  split
  case h_1 a p hc => exact fun ha => absurd ha <| none _ _ _ hc
  case h_2 =>
    split
    case h_1 a p hc => exact fun ha => absurd ha <| none _ _ _ hc
    case h_2        => trivial

end Standard

-- The inputs on which the parser accepts exactly the ranges.
def InetPton.SoundOn (pton : InetPton) (s : List Char) : Prop :=
  if ':' ∈ s then Sound pton.IsV6 ':' (fun _ => True) 128 s
  else Sound pton.IsV4 '.' (mask · ≤ 32) 32 s

section Exactly

variable {pton : InetPton} {s : List Char}

theorem exactly_parseRange₆ (std : pton.Standard) (e : Endian) (hc : ':' ∈ s) :
    Exactly (parseRange e pton s) (pton.IsIpRange s) ↔
      Sound pton.IsV6 ':' (fun _ => True) 128 s := by
  have range : pton.IsIpRange s ↔ IsRange pton.IsV6 ':' 128 s :=
    or_iff_right fun h => std.colon_not_mem h hc
  rw [range, parseRange, if_pos hc]
  refine exactly_parseRangeIn std.texts₆ (fun s => ?_) (fun a p => ?_) fun _ _ => trivial
  case refine_1 => simp [InetPton.IsV6]
  case refine_2 => simp [loadIpv6Subnet, InetPton.IsV6]

theorem exactly_parseRange₄ (std : pton.Standard) (e : Endian) (hc : ':' ∉ s) :
    Exactly (parseRange e pton s) (pton.IsIpRange s) ↔
      Sound pton.IsV4 '.' (mask · ≤ 32) 32 s := by
  have range : pton.IsIpRange s ↔ IsRange pton.IsV4 '.' 32 s :=
    or_iff_left fun h => hc <| h.sep_mem std.texts₆
  rw [range, parseRange, if_neg hc]
  split
  case isFalse hd =>
    have none : ¬IsRange pton.IsV4 '.' 32 s := fun h => hd <| h.sep_mem std.texts₄
    exact iff_of_true (exactly_error.mpr none) <| .of_not_mem std.texts₄ hd
  case isTrue =>
    refine exactly_parseRangeIn std.texts₄ (fun s => ?_) (fun a p => ?_) fun p => mask_le
    case refine_1 => simp [InetPton.IsV4]
    case refine_2 =>
      unfold loadIpv4Subnet
      by_cases hm : mask p ≤ 32
      case pos => simp only [hm, if_true, Option.isSome_map, and_true, InetPton.IsV4]
      case neg => simp only [hm, if_false, and_false, Option.isSome_none, Bool.false_eq_true]

theorem exactly_parseRange_iff (std : pton.Standard) (e : Endian) (s : List Char) :
    Exactly (parseRange e pton s) (pton.IsIpRange s) ↔ pton.SoundOn s := by
  unfold InetPton.SoundOn
  split
  case isTrue hc  => exact exactly_parseRange₆ std e hc
  case isFalse hc => exact exactly_parseRange₄ std e hc

end Exactly

theorem InetPton.standard_table {v4 : List (List Char × BitVec 32)}
    {v6 : List (List Char × In6Addr)}
    (h₄ : ∀ t ∈ v4, '.' ∈ t.1 ∧ ∀ c ∈ t.1, c.isDigit ∨ c = '.')
    (h₆ : ∀ t ∈ v6, ':' ∈ t.1 ∧ ∀ c ∈ t.1, c.isAlphanum ∨ c = ':' ∨ c = '.') :
    (InetPton.table v4 v6).Standard := by
  have mem {β : Type} (l : List (List Char × β)) (s : List Char) (h : (l.lookup s).isSome) :
      ∃ t ∈ l, t.1 = s := by
    have ⟨b, hb⟩ := Option.isSome_iff_exists.mp h
    have ⟨l₁, l₂, he, _⟩ := List.lookup_eq_some_iff.mp hb
    exact ⟨(s, b), by simp [he], rfl⟩
  refine ⟨fun s h => ?_, fun s h => ?_, fun s h => ?_, fun s h => ?_⟩
  all_goals have ⟨t, ht, he⟩ := mem _ s h
  case refine_1 => exact he ▸ (h₄ t ht).1
  case refine_2 => exact he ▸ (h₄ t ht).2
  case refine_3 => exact he ▸ (h₆ t ht).1
  case refine_4 => exact he ▸ (h₆ t ht).2

theorem InetPton.standard_sample : InetPton.sample.Standard :=
  standard_table (by simp) (by simp)

-- A subnet that is accepted, and ranges.
theorem exactly_parseRange_sample :
    Exactly (parseRange .little .sample ['1', '.', '2', '.', '3', '.', '4', '/', '2', '4'])
      (InetPton.sample.IsIpRange ['1', '.', '2', '.', '3', '.', '4', '/', '2', '4']) ↔
    InetPton.sample.SoundOn ['1', '.', '2', '.', '3', '.', '4', '/', '2', '4'] :=
  exactly_parseRange_iff InetPton.standard_sample .little _

section Decide

variable {addr maskOk : List Char → Prop} [DecidablePred addr] [DecidablePred maskOk] {sep : Char}
  {bound : Nat} {s : List Char}

instance : Decidable (IsPrefixLength bound s) :=
  inferInstanceAs (Decidable (_ ∧ _ ∧ _))

instance : Decidable (Sound addr sep maskOk bound s) :=
  match hs : cut '/' s, hd : cut '-' s with
  | some (a, p), _           =>
    decidable_of_iff (addr a → maskOk p → IsPrefixLength bound p) (by simp [Sound, hs])
  | none,        some (a, p) =>
    decidable_of_iff (addr a → sep ∉ p → (upTo sep a ++ p).length < inetAddrstrlen)
      (by simp [Sound, hs, hd])
  | none,        none        => .isTrue (by simp [Sound, hs, hd])

instance {pton : InetPton} : DecidablePred pton.IsV4 :=
  fun _ => inferInstanceAs (Decidable (_ = true))

instance {pton : InetPton} : DecidablePred pton.IsV6 :=
  fun _ => inferInstanceAs (Decidable (_ = true))

end Decide

-- A mask that is too long, a mask that is not a number, and an end that does not fit.
theorem not_exactly_parseRange :
    ¬Exactly (parseRange .little .sample [':', ':', '1', '/', '1', '2', '9'])
      (InetPton.sample.IsIpRange [':', ':', '1', '/', '1', '2', '9']) ∧
    ¬Exactly (parseRange .little .sample ['1', '.', '2', '.', '3', '.', '4', '/', '8', 'x'])
      (InetPton.sample.IsIpRange ['1', '.', '2', '.', '3', '.', '4', '/', '8', 'x']) ∧
    ¬Exactly (parseRange .little .sample
      ['1', '.', '2', '.', '3', '.', '4', '-', '9', '9', '9', '9', '9', '9', '9', '9', '9', '9'])
      (InetPton.sample.IsIpRange
        ['1', '.', '2', '.', '3', '.', '4', '-', '9', '9', '9', '9', '9', '9', '9', '9', '9', '9'])
    := by
  have std := InetPton.standard_sample
  refine ⟨?_, ?_, ?_⟩
  case refine_1 => rw [exactly_parseRange₆ std .little (by simp)]; decide +kernel
  case refine_2 => rw [exactly_parseRange₄ std .little (by simp)]; decide +kernel
  case refine_3 => rw [exactly_parseRange₄ std .little (by simp)]; decide +kernel

end NetPool
