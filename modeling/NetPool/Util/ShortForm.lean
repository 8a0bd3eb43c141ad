import NetPool.Util.IpParse

namespace NetPool

-- The bytes that `util_strncpy` writes: at most `len` of the text and its terminator.
def utilStrncpy (src : List Char) (len : Nat) : List Char :=
  (src ++ ['\x00']).take len

-- What is written into `str`, each byte with its offset, when the short form is built.
def strWritesIn (sep : Char) (strTo : List Char → Option EngineIp) (ipstr : List Char) :
    List (Char × Nat) :=
  match cut '/' ipstr with
  | some _ => []
  | none   =>
    match cut '-' ipstr with
    | none            => []
    | some (ipstr, p) =>
      if sep ∉ ipstr ∨ strTo ipstr = none ∨ sep ∈ p then []
      else
        let len := (upTo sep ipstr).length
        (utilStrncpy ipstr len).zipIdx ++ (utilStrncpy p p.length).zipIdx len

def strWrites (pton : InetPton) (ipstr : List Char) : List (Char × Nat) :=
  if ':' ∈ ipstr then strWritesIn ':' (fun s => (pton.v6 s).map .v6) ipstr
  else if '.' ∈ ipstr then strWritesIn '.' (fun s => (pton.v4 s).map .v4) ipstr
  else []

-- The short form means what the long one means, and the terminator still fits into `str`.
@[mk_iff]
structure SameForms (e : Endian) (pton : InetPton) (sep : Char) (a y : List Char) : Prop where
  same : parseRange e pton (a ++ '-' :: y) = parseRange e pton (a ++ '-' :: (upTo sep a ++ y))
  room : ∀ w ∈ strWrites pton (a ++ '-' :: y), w.2 + 1 < inetAddrstrlen

section UpTo

variable {c d : Char} {s : List Char}

theorem upTo_prefix : upTo c s <+: s := by
  have h : (s.reverse.dropWhile (· ≠ c)).reverse <+: s.reverse.reverse :=
    List.reverse_prefix.mpr (List.dropWhile_suffix _)
  rwa [List.reverse_reverse] at h

theorem mem_of_mem_upTo (h : d ∈ upTo c s) : d ∈ s :=
  upTo_prefix.subset h

theorem mem_upTo (h : c ∈ s) : c ∈ upTo c s := by
  rw [upTo, List.mem_reverse]
  have hn : s.reverse.dropWhile (· ≠ c) ≠ [] := by
    simpa [List.dropWhile_eq_nil_iff] using h
  have head := List.head_dropWhile_not (fun d => decide (d ≠ c)) hn
  have head : (s.reverse.dropWhile (· ≠ c)).head hn = c := by simpa using head
  have mem := List.head_mem hn
  rwa [head] at mem

-- What comes in front of a text without the letter.
theorem cut_append_left {a b p : List Char} (hb : c ∉ b) (h : cut c s = some (a, p)) :
    cut c (b ++ s) = some (b ++ a, p) := by
  have ⟨hs, ha⟩ := cut_eq_some h
  rw [hs, ← List.append_assoc]
  exact cut_append (by simp [hb, ha])

end UpTo

section Family

variable {sep : Char} {strTo : List Char → Option EngineIp}
  {loadSubnet : List Char → List Char → Option IpRange} {a p y : List Char} {start : EngineIp}

theorem cut_slash (ha : '/' ∉ a) (hp : '/' ∉ p) : cut '/' (a ++ '-' :: p) = none := by
  simp [cut_eq_none, ha, hp]

section Dash

variable (ha : '/' ∉ a) (hd : '-' ∉ a) (hp : '/' ∉ p)
include ha hd hp

theorem parseRangeIn_no_sep (hs : sep ∉ a) :
    parseRangeIn sep strTo loadSubnet (a ++ '-' :: p) = .error := by
  simp [parseRangeIn, cut_slash ha hp, cut_append hd, hs]

theorem strWritesIn_no_sep (hs : sep ∉ a) : strWritesIn sep strTo (a ++ '-' :: p) = [] := by
  simp [strWritesIn, cut_slash ha hp, cut_append hd, hs]

variable (hs : sep ∈ a) (hstr : strTo a = some start)
include hs hstr

theorem parseRangeIn_dash : parseRangeIn sep strTo loadSubnet (a ++ '-' :: p) =
    if sep ∈ p then .of <| (strTo p).map (⟨start, ·⟩)
    else if (upTo sep a ++ p).length ≥ inetAddrstrlen then .undefined
    else .of <| (strTo (upTo sep a ++ p)).map (⟨start, ·⟩) := by
  simp only [parseRangeIn, cut_slash ha hp, cut_append hd, hs, not_true, if_false, hstr]

-- The two copies put the prefix and the suffix one behind the other.
theorem strWritesIn_dash (hn : sep ∉ p) :
    strWritesIn sep strTo (a ++ '-' :: p) = (upTo sep a ++ p).zipIdx := by
  have first : utilStrncpy a (upTo sep a).length = upTo sep a := by
    have hl := upTo_prefix (c := sep) (s := a)
    rw [utilStrncpy, List.take_append_of_le_length hl.length_le]
    exact (List.prefix_iff_eq_take.mp hl).symm
  have second : utilStrncpy p p.length = p := by simp [utilStrncpy]
  simp [strWritesIn, cut_slash ha hp, cut_append hd, hs, hstr, hn, first, second,
    List.zipIdx_append]

end Dash

theorem room_iff (hn : p ≠ []) :
    (∀ w ∈ p.zipIdx, w.2 + 1 < inetAddrstrlen) ↔ p.length < inetAddrstrlen := by
  have pos := List.length_pos_iff.mpr hn
  constructor
  case mp =>
    intro h
    have mem : (p.getLast hn, p.length - 1) ∈ p.zipIdx := by
      simp [List.mem_zipIdx_iff_getElem?, ← List.getLast?_eq_getElem?,
        List.getLast?_eq_some_getLast hn]
    have last := h _ mem
    dsimp only at last
    omega
  case mpr =>
    intro h w hw
    have lt := List.snd_lt_of_mem_zipIdx hw
    omega

theorem same_forms_iff (strTo : List Char → Option EngineIp)
    (loadSubnet : List Char → List Char → Option IpRange) (ha : '/' ∉ a) (hd : '-' ∉ a)
    (hy : '/' ∉ y) (hs : sep ∈ a) (hstr : strTo a = some start) (hn : sep ∉ y) :
    (parseRangeIn sep strTo loadSubnet (a ++ '-' :: y) =
        parseRangeIn sep strTo loadSubnet (a ++ '-' :: (upTo sep a ++ y)) ∧
      ∀ w ∈ strWritesIn sep strTo (a ++ '-' :: y), w.2 + 1 < inetAddrstrlen) ↔
    (upTo sep a ++ y).length < inetAddrstrlen := by
  have hu := mem_upTo hs
  have hb : '/' ∉ upTo sep a ++ y := by
    simp only [List.mem_append, not_or]
    exact ⟨fun h => ha (mem_of_mem_upTo h), hy⟩
  rw [strWritesIn_dash ha hd hy hs hstr hn, room_iff (by simp [List.ne_nil_of_mem hu]),
    parseRangeIn_dash ha hd hy hs hstr, parseRangeIn_dash ha hd hb hs hstr, if_neg hn,
    if_pos (List.mem_append_left _ hu)]
  refine and_iff_right_of_imp fun hl => ?_
  rw [if_neg (Nat.not_le_of_lt hl)]

end Family

section Standard

variable {e : Endian} {pton : InetPton} {s a p y : List Char}

theorem InetPton.Standard.not_isV4_of_dash (std : pton.Standard) (h : '-' ∈ a) :
    pton.v4 a = none := by
  by_contra hn
  exact std.texts₄.dash a (Option.isSome_iff_ne_none.mpr hn) h

theorem InetPton.Standard.not_isV6_of_dash (std : pton.Standard) (h : '-' ∈ a) :
    pton.v6 a = none := by
  by_contra hn
  exact std.texts₆.dash a (Option.isSome_iff_ne_none.mpr hn) h

-- A subnet of what is no address.
theorem parse_slash (std : pton.Standard) (e : Endian) (hc : cut '/' s = some (a, p))
    (hd : '-' ∈ a) : parseRange e pton s = .error ∧ strWrites pton s = [] := by
  have h₄ : loadIpv4Subnet e pton a p = none := by
    simp [loadIpv4Subnet, std.not_isV4_of_dash hd]
  have h₆ : loadIpv6Subnet e pton a p = none := by
    simp [loadIpv6Subnet, std.not_isV6_of_dash hd]
  constructor
  case left =>
    unfold parseRange
    split
    case isTrue => simp [parseRangeIpv6, parseRangeIn, hc, h₆, ParseRet.of]
    case isFalse =>
      split
      case isTrue  => simp [parseRangeIpv4, parseRangeIn, hc, h₄, ParseRet.of]
      case isFalse => rfl
  case right =>
    unfold strWrites
    split
    case isTrue => simp [strWritesIn, hc]
    case isFalse => split <;> simp [strWritesIn, hc]

theorem sameForms_of_slash {sep : Char} (std : pton.Standard) (e : Endian) (ha : '/' ∉ a)
    (hy : '/' ∈ y) : SameForms e pton sep a y := by
  have ⟨⟨p, q⟩, hc⟩ := Option.ne_none_iff_exists'.mp <| mt cut_eq_none.mp <| not_not_intro hy
  have hu : '/' ∉ upTo sep a := fun h => ha (mem_of_mem_upTo h)
  have short : cut '/' (a ++ '-' :: y) = some (a ++ '-' :: p, q) := by
    simpa using cut_append_left (b := a ++ ['-']) (by simp [ha]) hc
  have long : cut '/' (a ++ '-' :: (upTo sep a ++ y)) =
      some (a ++ '-' :: (upTo sep a ++ p), q) := by
    simpa using cut_append_left (b := a ++ '-' :: upTo sep a) (by simp [ha, hu]) hc
  have ⟨same, writes⟩ := parse_slash std e short (by simp)
  have ⟨same', _⟩ := parse_slash std e long (by simp)
  exact ⟨same.trans same'.symm, by simp [writes]⟩

-- The family is that of the address, but for a suffix with a colon.
theorem sameForms₆ (std : pton.Standard) (e : Endian) (ha : pton.IsV6 a) (hn : ':' ∉ y) :
    SameForms e pton ':' a y ↔ '/' ∈ y ∨ (upTo ':' a ++ y).length < inetAddrstrlen := by
  have t := std.texts₆
  have slash := t.slash a ha
  have colon := t.sep a ha
  by_cases hy : '/' ∈ y
  case pos => exact iff_of_true (sameForms_of_slash std e slash hy) (.inl hy)
  case neg =>
    have ⟨start, hstart⟩ := Option.isSome_iff_exists.mp ha
    have family (p : List Char) : ':' ∈ a ++ '-' :: p := List.mem_append_left _ colon
    have core := same_forms_iff (fun s => (pton.v6 s).map .v6) (loadIpv6Subnet e pton) slash
      (t.dash a ha) hy colon (congrArg (Option.map EngineIp.v6) hstart) hn
    rw [or_iff_right hy, ← core]
    simp only [sameForms_iff, parseRange, strWrites, if_pos (family _)]
    rfl

theorem sameForms₄ (std : pton.Standard) (e : Endian) (ha : pton.IsV4 a) (hn : '.' ∉ y) :
    SameForms e pton '.' a y ↔
      '/' ∈ y ∨ ':' ∈ y ∨ (upTo '.' a ++ y).length < inetAddrstrlen := by
  have t := std.texts₄
  have slash := t.slash a ha
  have colon : ':' ∉ a := fun hm => by simpa using std.chars₄ a ha _ hm
  have hu : '/' ∉ upTo '.' a := fun h => slash (mem_of_mem_upTo h)
  have hu' : ':' ∉ upTo '.' a := fun h => colon (mem_of_mem_upTo h)
  by_cases hy : '/' ∈ y
  case pos => exact iff_of_true (sameForms_of_slash std e slash hy) (.inl hy)
  case neg =>
    by_cases hc : ':' ∈ y
    case pos =>
      refine iff_of_true ?_ (.inr <| .inl hc)
      have other (p : List Char) (hp : ':' ∈ p) : ':' ∈ a ++ '-' :: p := by simp [hp]
      have mem : ':' ∈ upTo '.' a ++ y := List.mem_append_right _ hc
      have hy' : '/' ∉ upTo '.' a ++ y := by simp [hu, hy]
      constructor
      case same =>
        rw [parseRange, if_pos (other _ hc), parseRange, if_pos (other _ mem), parseRangeIpv6,
          parseRangeIn_no_sep slash (t.dash a ha) hy colon,
          parseRangeIn_no_sep slash (t.dash a ha) hy' colon]
      case room =>
        rw [strWrites, if_pos (other _ hc), strWritesIn_no_sep slash (t.dash a ha) hy colon]
        simp
    case neg =>
      obtain ⟨start, hstart⟩ := Option.isSome_iff_exists.mp ha
      have dot := t.sep a ha
      have family (p : List Char) : '.' ∈ a ++ '-' :: p := List.mem_append_left _ dot
      have short : ':' ∉ a ++ '-' :: y := by simp [colon, hc]
      have long : ':' ∉ a ++ '-' :: (upTo '.' a ++ y) := by simp [colon, hu', hc]
      have core := same_forms_iff (fun s => (pton.v4 s).map .v4) (loadIpv4Subnet e pton) slash
        (t.dash a ha) hy dot (congrArg (Option.map EngineIp.v4) hstart) hn
      rw [or_iff_right hy, or_iff_right hc, ← core]
      simp only [sameForms_iff, parseRange, strWrites, if_neg short, if_neg long, if_pos (family _)]
      rfl

end Standard

-- `str` is as short for both families as a textual IPv4 address.
theorem short_form (pton : InetPton) (std : pton.Standard) (e : Endian) (a y : List Char) :
    (pton.IsV4 a → '.' ∉ y → (SameForms e pton '.' a y ↔
      '/' ∈ y ∨ ':' ∈ y ∨ (upTo '.' a ++ y).length < inetAddrstrlen)) ∧
    (pton.IsV6 a → ':' ∉ y → (SameForms e pton ':' a y ↔
      '/' ∈ y ∨ (upTo ':' a ++ y).length < inetAddrstrlen)) :=
  ⟨fun ha hn => sameForms₄ std e ha hn, fun ha hn => sameForms₆ std e ha hn⟩

-- `1.2.3.4-60`, which is the range from `1.2.3.4` to `1.2.3.60`.
theorem short_form_sample :
    SameForms .little .sample '.' ['1', '.', '2', '.', '3', '.', '4'] ['6', '0'] :=
  ((short_form .sample InetPton.standard_sample .little _ _).1 (by decide) (by decide)).mpr
    (.inr <| .inr <| by decide)

-- `2001:db8:1:1::1` and `2001:db8:1:1::ff`, on a little-endian machine.
def InetPton.longSample : InetPton :=
  .table [] [
    (['2', '0', '0', '1', ':', 'd', 'b', '8', ':', '1', ':', '1', ':', ':', '1'],
      ⟨0xb80d0120, 0x01000100, 0, 0x01000000⟩),
    (['2', '0', '0', '1', ':', 'd', 'b', '8', ':', '1', ':', '1', ':', ':', 'f', 'f'],
      ⟨0xb80d0120, 0x01000100, 0, 0xff000000⟩)]

-- `2001:db8:1:1::1-ff`
theorem not_short_form :
    InetPton.longSample.Standard ∧
    InetPton.longSample.IsV6
      ['2', '0', '0', '1', ':', 'd', 'b', '8', ':', '1', ':', '1', ':', ':', '1'] ∧
    ¬SameForms .little .longSample ':'
      ['2', '0', '0', '1', ':', 'd', 'b', '8', ':', '1', ':', '1', ':', ':', '1'] ['f', 'f'] := by
  have std : InetPton.longSample.Standard := InetPton.standard_table (by simp) (by simp)
  refine ⟨std, by decide, ?_⟩
  rw [sameForms₆ std .little (by decide) (by decide)]
  decide

end NetPool
