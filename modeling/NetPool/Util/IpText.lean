import NetPool.Lib.Fields
import NetPool.Util.ShortForm

namespace NetPool

-- `INET6_ADDRSTRLEN`, and `IP_DESC_LEN`.
def inet6Addrstrlen : Nat :=
  46

def ipDescLen : Nat :=
  46

-- `inet_ntop` for the two families: an address and the size of the buffer, and the text before its
-- terminator.
structure InetNtop where
  v4 : BitVec 32 → Nat → Option (List Char)
  v6 : In6Addr → Nat → Option (List Char)

namespace WinInetNtop

def digits : List Char :=
  ['0', '1', '2', '3', '4', '5', '6', '7', '8', '9']

def xdigits : List Char :=
  digits ++ ['a', 'b', 'c', 'd', 'e', 'f']

def digit (n : Nat) : Char :=
  digits.getD n ' '

def xdigit (n : Nat) : Char :=
  xdigits.getD n ' '

-- One round of the loop of `inet_ntop_v4`, without the dot.
def v4Field (n : Nat) : List Char :=
  let (dst, n, nonZerop) :=
    if n / 100 > 0 then ([digit (n / 100)], n % 100, true) else ([], n, false)
  let (dst, n) :=
    if nonZerop ∨ n / 10 > 0 then (dst ++ [digit (n / 10)], n % 10) else (dst, n)
  dst ++ [digit n]

def v4Round (a : BitVec 32) (i : Nat) : List Char :=
  v4Field ((a >>> (24 - i * 8)) &&& 0xFF).toNat ++ if i ≠ 3 then ['.'] else []

def v4Text (a : BitVec 32) : List Char :=
  (List.range 4).flatMap (v4Round a)

def inetNtopV4 (e : Endian) (addr : BitVec 32) (size : Nat) : Option (List Char) :=
  if size < inetAddrstrlen then none else some (v4Text (ntohl e addr))

-- `s6_addr`.
def octets (w : BitVec 32) : List (BitVec 8) :=
  [w.extractLsb' 24 8, w.extractLsb' 16 8, w.extractLsb' 8 8, w.extractLsb' 0 8]

def s6Addr (e : Endian) (a : In6Addr) : List (BitVec 8) :=
  octets (ntohl e a.w₀) ++ octets (ntohl e a.w₁) ++ octets (ntohl e a.w₂) ++ octets (ntohl e a.w₃)

-- The loop of `inet_ntop_v6`: `ptr` are the bytes from the pointer on.
@[ext]
structure V6Loop where
  i          : Nat
  ptr        : List (BitVec 8)
  compressed : Bool
  dst        : List Char

namespace V6Loop

def skipZeros : Nat → List (BitVec 8) → Nat × List (BitVec 8)
  | i, a :: b :: ptr => if i < 8 ∧ a = 0 ∧ b = 0 then skipZeros (i + 1) ptr else (i, a :: b :: ptr)
  | i, ptr           => (i, ptr)

def compress (s : V6Loop) : V6Loop :=
  if s.compressed = false ∧ s.i ≤ 5 ∧ ∀ b ∈ s.ptr.take 6, b = 0 then
    let (i, ptr) := skipZeros (s.i + 3) (s.ptr.drop 6)
    ⟨i, ptr, true, s.dst ++ (if s.i = 0 then [':'] else []) ++ [':']⟩
  else s

-- The first three digits of a group. Zeros at its beginning are left out.
def putDigit (n : BitVec 8) : List Char × Bool → List Char × Bool
  | (dst, nonZerop) =>
    if nonZerop ∨ n ≠ 0 then (dst ++ [xdigit n.toNat], true) else (dst, nonZerop)

def v6Field (a b : BitVec 8) : List Char :=
  (putDigit (b >>> 4) <| putDigit (a &&& 0x0F) <| putDigit (a >>> 4) ([], false)).1 ++
    [xdigit (b &&& 0x0F).toNat]

-- The pointer always has two more bytes here.
def put (s : V6Loop) : V6Loop :=
  match s.ptr with
  | a :: b :: ptr => { s with
    i   := s.i + 1
    ptr := ptr
    dst := s.dst ++ v6Field a b ++ if s.i ≠ 7 then [':'] else [] }
  | _ => s

def body (s : V6Loop) : V6Loop :=
  if s.i < 8 then
    if s.compress.i < 8 then s.compress.put else s.compress
  else s

end V6Loop

def inetNtopV6 (e : Endian) (addr : In6Addr) (size : Nat) : Option (List Char) :=
  if size < inet6Addrstrlen then none
  else some (V6Loop.body^[8] ⟨0, s6Addr e addr, false, []⟩).dst

end WinInetNtop

-- `win_inet_ntop`. The second family is there only if `HAVE_IPV6` is defined.
def winInetNtop (haveIpv6 : Bool) (e : Endian) : InetNtop where
  v4 := WinInetNtop.inetNtopV4 e
  v6 := if haveIpv6 then WinInetNtop.inetNtopV6 e else fun _ _ => none

-- What is in `ip_buf` afterwards; both functions return it even where `inet_ntop` fails.
def engineIpv4ToStr (ntop : InetNtop) (ip : BitVec 32) (ipBuf : List Char) : List Char :=
  (ntop.v4 ip inetAddrstrlen).getD ipBuf

def engineIpv6ToStr (ntop : InetNtop) (ipv6 : In6Addr) (ipBuf : List Char) : List Char :=
  (ntop.v6 ipv6 inet6Addrstrlen).getD ipBuf

def engineIpToStr (ntop : InetNtop) (ip : EngineIp) (ipBuf : List Char) : List Char :=
  match ip with
  | .v4 ip   => engineIpv4ToStr ntop ip ipBuf
  | .v6 ipv6 => engineIpv6ToStr ntop ipv6 ipBuf

def engineStrToIp (pton : InetPton) (ipstr : List Char) : Option EngineIp :=
  if ':' ∉ ipstr then (pton.v4 ipstr).map .v4 else (pton.v6 ipstr).map .v6

-- `m_ipaddr`, which is in host byte order, `m_ipstr` as a string, and `m_port`.
structure PeerIpinfo where
  ipaddr : BitVec 32
  ipstr  : List Char
  port   : BitVec 16
  deriving DecidableEq

-- The two `init_peer_ipinfo`, on an `m_ipstr` that is zero; the byte behind the text is set to zero
-- once more.
def initPeerIpinfo (e : Endian) (ntop : InetNtop) (ipaddr : BitVec 32) (port : BitVec 16) :
    PeerIpinfo where
  ipaddr := ipaddr
  ipstr  := engineIpv4ToStr ntop (ntohl e ipaddr) []
  port   := port

def initPeerIpinfoStr (e : Endian) (pton : InetPton) (ipstr : List Char) (port : BitVec 16) :
    Option PeerIpinfo :=
  (pton.v4 ipstr).map fun ipaddr => {
    ipaddr := ntohl e ipaddr
    ipstr  := (utilStrncpy ipstr ipDescLen).takeWhile (· ≠ '\x00')
    port   := port }

-- How the texts of addresses are read: four decimal numbers, or up to eight hexadecimal ones with
-- at most one gap for groups that are zero.
namespace AddressText

def byte (s : List Char) : Option (BitVec 8) :=
  if s.all Char.isDigit ∧ (s.head? = some '0' → s = ['0']) ∧ s ≠ [] ∧ decimal s < 256
  then some (decimal s) else none

def v4 (s : List Char) : Option (BitVec 32) :=
  match (Fields.split '.' s).mapM byte with
  | some [a, b, c, d] => some (a ++ b ++ c ++ d)
  | _                 => none

def xvalue (c : Char) : Option Nat :=
  if c.isDigit then some (c.toNat - '0'.toNat)
  else if 'a' ≤ c ∧ c ≤ 'f' then some (c.toNat - 'a'.toNat + 10)
  else if 'A' ≤ c ∧ c ≤ 'F' then some (c.toNat - 'A'.toNat + 10)
  else none

def group (s : List Char) : Option (BitVec 16) :=
  if s ≠ [] ∧ s.length ≤ 4 then
    (s.mapM xvalue).map fun ds => BitVec.ofNat 16 (ds.foldl (fun n d => 16 * n + d) 0)
  else none

def groups (s : List Char) : Option (List (BitVec 16)) :=
  (Fields.split ':' s).mapM group

def ofGroups : List (BitVec 16) → Option In6Addr
  | [a, b, c, d, e, f, g, h] => some ⟨a ++ b, c ++ d, e ++ f, g ++ h⟩
  | _                        => none

def v6 (s : List Char) : Option In6Addr :=
  match Fields.cutGap ':' s with
  | none        => (groups s).bind ofGroups
  | some (l, r) => (groups l).bind fun l => (groups r).bind fun r =>
    if l.length + r.length < 8 then
      ofGroups (l ++ List.replicate (8 - (l.length + r.length)) 0 ++ r)
    else none

end AddressText

def InetPton.standard (e : Endian) : InetPton where
  v4 s := (AddressText.v4 s).map (ntohl e)
  v6 s := (AddressText.v6 s).map (·.toHost e)

-- `inet_pton` reads these texts as the addresses they stand for. It may know more texts.
structure InetPton.Reads (pton : InetPton) (e : Endian) : Prop where
  v4 : ∀ s a, (standard e).v4 s = some a → pton.v4 s = some a
  v6 : ∀ s a, (standard e).v6 s = some a → pton.v6 s = some a

section V4

open WinInetNtop

variable {e : Endian} {a : BitVec 32} {c sep : Char} {n : Nat}

theorem digit_spec : ∀ n < 10, (digit n).isDigit = true ∧ (digit n).toNat - '0'.toNat = n ∧
    (digit n = '0' ↔ n = 0) := by
  decide

theorem v4Field_eq (n : Nat) : v4Field n =
    if n < 10 then [digit n]
    else if n < 100 then [digit (n / 10), digit (n % 10)]
    else [digit (n / 100), digit (n % 100 / 10), digit (n % 10)] := by
  by_cases h₂ : n < 100
  case pos =>
    by_cases h₁ : n < 10
    case pos => simp [v4Field, h₁, Nat.div_eq_of_lt h₂, Nat.div_eq_of_lt h₁]
    case neg => simp [v4Field, h₁, h₂, Nat.div_eq_of_lt h₂, show 0 < n / 10 by omega]
  case neg =>
    have h₁ : ¬n < 10 := by omega
    simp [v4Field, h₁, h₂, show 0 < n / 100 by omega]

theorem v4Field_chars (hn : n < 256) : ∀ c ∈ v4Field n, c.isDigit = true := by
  rw [v4Field_eq]
  split
  case isTrue h => simp [(digit_spec n h).1]
  case isFalse =>
    have ones := digit_spec (n % 10) (by omega)
    split
    case isTrue  => simp [(digit_spec (n / 10) (by omega)).1, ones.1]
    case isFalse =>
      simp [(digit_spec (n / 100) (by omega)).1, (digit_spec (n % 100 / 10) (by omega)).1, ones.1]

theorem v4Field_length (n : Nat) : 0 < (v4Field n).length ∧ (v4Field n).length ≤ 3 := by
  rw [v4Field_eq]
  split
  case isTrue  => simp
  case isFalse => split <;> simp

theorem byte_v4Field (hn : n < 256) : AddressText.byte (v4Field n) = some (BitVec.ofNat 8 n) := by
  have digits : (v4Field n).all Char.isDigit = true := List.all_eq_true.mpr (v4Field_chars hn)
  have ne : v4Field n ≠ [] := List.ne_nil_of_length_pos (v4Field_length n).1
  have value : decimal (v4Field n) = n ∧ ((v4Field n).head? = some '0' → v4Field n = ['0']) := by
    rw [v4Field_eq]
    split
    case isTrue h =>
      obtain ⟨_, hd, hz⟩ := digit_spec n h
      exact ⟨by simpa [decimal] using hd, by simp⟩
    case isFalse h =>
      obtain ⟨_, ho, _⟩ := digit_spec (n % 10) (by omega)
      split
      case isTrue =>
        obtain ⟨_, ht, hz⟩ := digit_spec (n / 10) (by omega)
        refine ⟨?_, ?_⟩
        case refine_1 =>
          simp only [decimal, List.foldl_cons, List.foldl_nil, ht, ho]
          omega
        case refine_2 => simp [hz]; omega
      case isFalse =>
        obtain ⟨_, hh, hz⟩ := digit_spec (n / 100) (by omega)
        obtain ⟨_, ht, _⟩ := digit_spec (n % 100 / 10) (by omega)
        refine ⟨?_, ?_⟩
        case refine_1 =>
          simp only [decimal, List.foldl_cons, List.foldl_nil, hh, ht, ho]
          omega
        case refine_2 => simp [hz]; omega
  rw [AddressText.byte, if_pos ⟨digits, value.2, ne, value.1.symm ▸ hn⟩, value.1]
  rfl

theorem not_mem_v4Field (hn : n < 256) (hs : sep.isDigit = false) : sep ∉ v4Field n := by
  intro hm
  rw [v4Field_chars hn sep hm] at hs
  contradiction

theorem v4Text_eq (a : BitVec 32) : v4Text a =
    Fields.join '.' ((octets a).map fun b => v4Field b.toNat) := by
  have field (i : Nat) (hi : i < 4) : ((a >>> (24 - i * 8)) &&& 0xFF).toNat =
      (a.extractLsb' (24 - i * 8) 8).toNat := by
    rw [BitVec.toNat_and, BitVec.toNat_ushiftRight, BitVec.extractLsb'_toNat]
    exact Nat.and_two_pow_sub_one_eq_mod _ 8
  simp only [v4Text, List.range, List.range.loop, List.flatMap_cons, List.flatMap_nil, v4Round,
    field 0 (by omega), field 1 (by omega), field 2 (by omega), field 3 (by omega), octets]
  simp [Fields.join]

theorem octets_append :
    a.extractLsb' 24 8 ++ a.extractLsb' 16 8 ++ a.extractLsb' 8 8 ++ a.extractLsb' 0 8 = a := by
  refine BitVec.eq_of_getLsbD_eq fun i hi => ?_
  simp only [BitVec.getLsbD_append, BitVec.getLsbD_extractLsb']
  grind

theorem plain_v4Fields {bs : List (BitVec 8)} :
    Fields.Plain '.' (bs.map fun b => v4Field b.toNat) := by
  intro f hf
  obtain ⟨b, _, rfl⟩ := List.mem_map.mp hf
  exact ⟨List.ne_nil_of_length_pos (v4Field_length _).1, not_mem_v4Field b.isLt rfl⟩

theorem v4_v4Text : AddressText.v4 (v4Text a) = some a := by
  have read : (Fields.split '.' (Fields.join '.' ((octets a).map fun b => v4Field b.toNat))).mapM
      AddressText.byte = some (octets a) :=
    Fields.mapM_split_join plain_v4Fields fun b _ => (byte_v4Field b.isLt).trans (by simp)
  rw [v4Text_eq, AddressText.v4, read]
  exact congrArg some octets_append

theorem v4Text_chars : ∀ c ∈ v4Text a, c.isDigit = true ∨ c = '.' := by
  intro c hm
  obtain ⟨i, _, hm⟩ := List.mem_flatMap.mp hm
  obtain hm | hm := List.mem_append.mp hm
  case inl =>
    refine .inl (v4Field_chars ?_ c hm)
    exact Nat.lt_of_le_of_lt Nat.and_le_right (by decide)
  case inr =>
    right
    split at hm
    case isTrue  => exact List.mem_singleton.mp hm
    case isFalse => contradiction

theorem not_mem_v4Text (hs : sep.isDigit = false) (hn : sep ≠ '.') : sep ∉ v4Text a := by
  intro hm
  cases v4Text_chars sep hm
  case inl h => rw [hs] at h; contradiction
  case inr h => contradiction

theorem length_v4Text_lt : (v4Text a).length < inetAddrstrlen := by
  have short : ∀ f ∈ (octets a).map fun b : BitVec 8 => v4Field b.toNat, f.length ≤ 3 := by
    simpa using fun (b : BitVec 8) _ => (v4Field_length b.toNat).2
  rw [v4Text_eq]
  exact Nat.lt_of_le_of_lt (Fields.length_join_le 3 short) (by simp [octets, inetAddrstrlen])

end V4

section Group

open WinInetNtop V6Loop

variable {g : BitVec 16}

theorem xdigit_spec : ∀ n < 16, AddressText.xvalue (xdigit n) = some n ∧ xdigit n ≠ ':' := by
  decide

def high (g : BitVec 16) : BitVec 8 :=
  g.extractLsb' 8 8

def low (g : BitVec 16) : BitVec 8 :=
  g.extractLsb' 0 8

-- The text of a group.
def hexText (g : BitVec 16) : List Char :=
  v6Field (high g) (low g)

-- The digits of a group, without the zeros at its beginning.
def hexDigits (g : BitVec 16) : List Nat :=
  [g.toNat / 4096, g.toNat / 256 % 16, g.toNat / 16 % 16].dropWhile (· = 0) ++ [g.toNat % 16]

theorem hexText_eq (g : BitVec 16) : hexText g = (hexDigits g).map xdigit := by
  have h₃ : (high g >>> 4).toNat = g.toNat / 4096 := by
    rw [BitVec.toNat_ushiftRight, high, BitVec.extractLsb'_toNat]
    simp only [Nat.shiftRight_eq_div_pow]
    have := g.isLt
    omega
  have h₂ : (high g &&& 0x0F).toNat = g.toNat / 256 % 16 := by
    rw [BitVec.toNat_and, high, BitVec.extractLsb'_toNat]
    refine (Nat.and_two_pow_sub_one_eq_mod _ 4).trans ?_
    simp only [Nat.shiftRight_eq_div_pow]
    omega
  have h₁ : (low g >>> 4).toNat = g.toNat / 16 % 16 := by
    rw [BitVec.toNat_ushiftRight, low, BitVec.extractLsb'_toNat]
    simp only [Nat.shiftRight_eq_div_pow]
    omega
  have h₀ : (low g &&& 0x0F).toNat = g.toNat % 16 := by
    rw [BitVec.toNat_and, low, BitVec.extractLsb'_toNat]
    refine (Nat.and_two_pow_sub_one_eq_mod _ 4).trans ?_
    simp only [Nat.shiftRight_eq_div_pow]
    omega
  have zero (b : BitVec 8) : b = 0 ↔ b.toNat = 0 := BitVec.toNat_inj.symm
  simp only [hexText, v6Field, putDigit, hexDigits, ne_eq, zero, h₃, h₂, h₁, h₀]
  by_cases z₃ : g.toNat / 4096 = 0 <;> by_cases z₂ : g.toNat / 256 % 16 = 0 <;>
    by_cases z₁ : g.toNat / 16 % 16 = 0 <;> simp [z₃, z₂, z₁]

theorem hexDigits_lt (g : BitVec 16) : ∀ d ∈ hexDigits g, d < 16 := by
  intro d hd
  have lt := g.isLt
  obtain hd | hd := List.mem_append.mp hd
  case inl =>
    have hd := (List.dropWhile_sublist _).subset hd
    simp only [List.mem_cons, List.not_mem_nil, or_false] at hd
    omega
  case inr =>
    rw [List.mem_singleton] at hd
    omega

theorem length_hexDigits (g : BitVec 16) : 0 < (hexDigits g).length ∧ (hexDigits g).length ≤ 4 := by
  have le := (List.dropWhile_sublist (l := [g.toNat / 4096, g.toNat / 256 % 16, g.toNat / 16 % 16])
    (· = 0)).length_le
  simp only [hexDigits, List.length_append, List.length_cons, List.length_nil] at le ⊢
  omega

-- Zeros at the beginning do not count.
theorem foldl_dropWhile_zero (ds : List Nat) :
    (ds.dropWhile (· = 0)).foldl (fun n d => 16 * n + d) 0 =
      ds.foldl (fun n d => 16 * n + d) 0 := by
  induction ds
  case nil => rfl
  case cons d ds hi =>
    by_cases hd : d = 0
    case pos => simpa [hd] using hi
    case neg => simp [hd]

theorem hexDigits_value (g : BitVec 16) :
    (hexDigits g).foldl (fun n d => 16 * n + d) 0 = g.toNat := by
  have lt := g.isLt
  rw [hexDigits, List.foldl_append, foldl_dropWhile_zero]
  simp only [List.foldl_cons, List.foldl_nil]
  omega

theorem group_hexText (g : BitVec 16) : AddressText.group (hexText g) = some g := by
  have read : ((hexDigits g).map xdigit).mapM AddressText.xvalue = some (hexDigits g) :=
    Fields.mapM_map fun d hd => (xdigit_spec d (hexDigits_lt g d hd)).1
  have len : (hexText g).length = (hexDigits g).length := by rw [hexText_eq, List.length_map]
  have ⟨pos, le⟩ := length_hexDigits g
  have ne : hexText g ≠ [] := List.ne_nil_of_length_pos (len ▸ pos)
  rw [AddressText.group, if_pos ⟨ne, len ▸ le⟩, hexText_eq, read, Option.map_some, hexDigits_value,
    BitVec.ofNat_toNat, BitVec.setWidth_eq]

theorem plain_hexTexts {gs : List (BitVec 16)} : Fields.Plain ':' (gs.map hexText) := by
  intro f hf
  obtain ⟨g, _, rfl⟩ := List.mem_map.mp hf
  rw [hexText_eq]
  refine ⟨?_, fun hm => ?_⟩
  case refine_1 => simpa using List.ne_nil_of_length_pos (length_hexDigits g).1
  case refine_2 =>
    obtain ⟨d, hd, hc⟩ := List.mem_map.mp hm
    exact (xdigit_spec d (hexDigits_lt g d hd)).2 hc

end Group

section Loop

open WinInetNtop V6Loop Fields

variable {s : V6Loop} {i n : Nat} {c : Bool} {dst : List Char} {g : BitVec 16}
  {l gs : List (BitVec 16)}

def groupBytes (gs : List (BitVec 16)) : List (BitVec 8) :=
  gs.flatMap fun g => [high g, low g]

-- The texts of eight groups: all of them, or those before and after at least three that are zero.
inductive Written (gs : List (BitVec 16)) : List Char → Prop
  | full : Written gs (join ':' (gs.map hexText))
  | gap (l r : List (BitVec 16)) (k : Nat) (hk : 3 ≤ k) (h : gs = l ++ List.replicate k 0 ++ r) :
    Written gs (join ':' (l.map hexText) ++ ':' :: ':' :: join ':' (r.map hexText))

theorem eq_zero_of_halves (hh : high g = 0) (hl : low g = 0) : g = 0 := by
  have hh := congrArg BitVec.toNat hh
  have hl := congrArg BitVec.toNat hl
  simp only [high, low, BitVec.extractLsb'_toNat, Nat.shiftRight_eq_div_pow] at hh hl
  have lt := g.isLt
  refine BitVec.eq_of_toNat_eq ?_
  simp at hh hl ⊢
  omega

theorem skipZeros_groupBytes (gs : List (BitVec 16)) (i : Nat) : ∃ k r,
    gs = List.replicate k 0 ++ r ∧ skipZeros i (groupBytes gs) = (i + k, groupBytes r) := by
  induction gs generalizing i
  case nil => exact ⟨0, [], rfl, rfl⟩
  case cons g gs hi =>
    by_cases h : i < 8 ∧ high g = 0 ∧ low g = 0
    case pos =>
      obtain ⟨k, r, rfl, skip⟩ := hi (i + 1)
      have hg := eq_zero_of_halves h.2.1 h.2.2
      refine ⟨k + 1, r, by rw [hg, List.replicate_succ, List.cons_append], ?_⟩
      rw [groupBytes, List.flatMap_cons, List.cons_append, List.cons_append, skipZeros, if_pos h]
      exact skip.trans (by rw [Nat.add_right_comm, Nat.add_assoc])
    case neg =>
      refine ⟨0, g :: gs, rfl, ?_⟩
      rw [groupBytes, List.flatMap_cons, List.cons_append, List.cons_append, skipZeros, if_neg h]
      rfl

theorem compress_compressed (h : s.compressed = true) : s.compress = s := by
  simp [compress, h]

theorem exists_three (h : 3 ≤ gs.length) : ∃ g₁ g₂ g₃ r, gs = g₁ :: g₂ :: g₃ :: r := by
  match gs, h with
  | g₁ :: g₂ :: g₃ :: r, _ => exact ⟨g₁, g₂, g₃, r, rfl⟩
  | [_, _], h              => exact absurd h (by simp)
  | [_], h                 => exact absurd h (by simp)

-- What is skipped are three zeros at least.
theorem compress_cases (gs : List (BitVec 16)) (dst : List Char) (hi : i + gs.length = 8) :
    compress ⟨i, groupBytes gs, false, dst⟩ = ⟨i, groupBytes gs, false, dst⟩ ∨
      ∃ k r, 3 ≤ k ∧ gs = List.replicate k 0 ++ r ∧ compress ⟨i, groupBytes gs, false, dst⟩ =
        ⟨i + k, groupBytes r, true, dst ++ (if i = 0 then [':'] else []) ++ [':']⟩ := by
  unfold compress
  split
  case isFalse => exact .inl rfl
  case isTrue h =>
    right
    obtain ⟨_, le, zeros⟩ := h
    simp only at le zeros
    have three : 3 ≤ gs.length := by omega
    obtain ⟨g₁, g₂, g₃, gs, rfl⟩ := exists_three three
    have bytes : ∀ b ∈ groupBytes [g₁, g₂, g₃], b = 0 := zeros
    have zero : ∀ g ∈ [g₁, g₂, g₃], g = 0 := fun g hg =>
      eq_zero_of_halves (bytes _ (List.mem_flatMap.mpr ⟨g, hg, List.mem_cons_self⟩))
        (bytes _ (List.mem_flatMap.mpr ⟨g, hg, List.mem_cons_of_mem _ List.mem_cons_self⟩))
    obtain ⟨k, r, rfl, skip⟩ := skipZeros_groupBytes gs (i + 3)
    refine ⟨k + 3, r, Nat.le_add_left .., ?_, ?_⟩
    case refine_1 =>
      rw [zero g₁ (by simp), zero g₂ (by simp), zero g₃ (by simp)]
      rfl
    case refine_2 =>
      have drop : (groupBytes (g₁ :: g₂ :: g₃ :: (List.replicate k 0 ++ r))).drop 6 =
        groupBytes (List.replicate k 0 ++ r) := rfl
      simp only [drop, skip]
      rw [Nat.add_right_comm, Nat.add_assoc]

theorem put_cons : put ⟨i, groupBytes (g :: gs), c, dst⟩ =
    ⟨i + 1, groupBytes gs, c, dst ++ hexText g ++ if i ≠ 7 then [':'] else []⟩ :=
  rfl

-- The loop after the gap.
theorem bodies_compressed (gs : List (BitVec 16)) (hi : i + gs.length = 8) (hn : gs.length ≤ n) :
    body^[n] ⟨i, groupBytes gs, true, dst⟩ = ⟨8, [], true, dst ++ join ':' (gs.map hexText)⟩ := by
  induction gs generalizing i n dst
  case nil =>
    obtain rfl : i = 8 := hi
    rw [Function.iterate_fixed (by rfl)]
    simp [groupBytes]
  case cons g gs ih =>
    rw [List.length_cons] at hi hn
    obtain ⟨n, rfl⟩ := Nat.exists_eq_add_of_le' (Nat.le_of_add_left_le hn)
    have compressed : compress ⟨i, groupBytes (g :: gs), true, dst⟩ = _ := compress_compressed rfl
    have lt : i < 8 := by omega
    rw [Function.iterate_succ_apply, body, if_pos lt, compressed, if_pos lt, put_cons,
      ih (by omega) (by omega)]
    by_cases last : gs = []
    case pos =>
      obtain rfl : i = 7 := by simp [last] at hi; omega
      simp [last]
    case neg =>
      have : i ≠ 7 := fun h => last (List.eq_nil_of_length_eq_zero (by omega))
      simp [this, join_cons, last]

-- The gap is found in the round that writes the group after it.
theorem bodies_compress {k : Nat} (hi : s.i < 8) (hc : s.compress.compressed = true) :
    body^[k + 1] s = body^[k + 1] s.compress := by
  have h : body s = body s.compress := by
    unfold body
    rw [if_pos hi, compress_compressed hc]
    by_cases lt : s.compress.i < 8 <;> simp [lt]
  rw [Function.iterate_succ_apply, Function.iterate_succ_apply, h]

-- The loop, from the round on that writes the group after `l`.
theorem bodies_written (gs : List (BitVec 16)) (hi : l.length + gs.length = 8) (hn : gs.length ≤ n)
    (ne : gs ≠ []) : Written (l ++ gs)
      (body^[n] ⟨l.length, groupBytes gs, false, each ':' (l.map hexText)⟩).dst := by
  induction gs generalizing l n
  case nil => contradiction
  case cons g gs ih =>
    rw [List.length_cons] at hi hn
    obtain ⟨n, rfl⟩ := Nat.exists_eq_add_of_le' (Nat.le_of_add_left_le hn)
    have lt : l.length < 8 := by omega
    cases compress_cases (g :: gs) (each ':' (l.map hexText)) hi
    case inl same =>
      rw [Function.iterate_succ_apply, body, if_pos lt, same, if_pos lt, put_cons]
      by_cases last : gs = []
      case pos =>
        obtain hi : l.length = 7 := by simp [last] at hi; omega
        rw [Function.iterate_fixed (by simp [body, hi]), last]
        have text : each ':' (l.map hexText) ++ hexText g = join ':' ((l ++ [g]).map hexText) := by
          simp [join_append]
        have whole : Written (l ++ [g]) (join ':' ((l ++ [g]).map hexText)) := .full
        rw [← text] at whole
        simpa [hi] using whole
      case neg =>
        have hn : l.length ≠ 7 := fun h => last (List.eq_nil_of_length_eq_zero (by omega))
        have more := ih (l := l ++ [g]) (n := n) (by simp; omega) (by omega) last
        rw [List.append_assoc, List.singleton_append, List.length_append, List.map_append,
          List.map_singleton, each_concat, ← List.append_assoc] at more
        simpa [hn] using more
    case inr gap =>
      obtain ⟨k, r, hk, zeros, gap⟩ := gap
      have len := congrArg List.length zeros
      rw [List.length_cons, List.length_append, List.length_replicate] at len
      rw [bodies_compress lt (by rw [gap]), gap, bodies_compressed r (by omega) (by omega), zeros]
      have text : each ':' (l.map hexText) ++ (if l.length = 0 then [':'] else []) ++ [':'] =
          join ':' (l.map hexText) ++ [':', ':'] := by
        by_cases hl : l = []
        case pos => simp [hl]
        case neg => simp [hl, each_eq]
      have written : Written (l ++ (List.replicate k 0 ++ r)) _ :=
        .gap l r k hk (List.append_assoc ..).symm
      rw [text, List.append_assoc]
      exact written

-- The groups of an address in host byte order.
def groupsOf (a : In6Addr) : List (BitVec 16) :=
  [a.w₀, a.w₁, a.w₂, a.w₃].flatMap fun w => [w.extractLsb' 16 16, w.extractLsb' 0 16]

theorem octets_eq (w : BitVec 32) :
    octets w = groupBytes [w.extractLsb' 16 16, w.extractLsb' 0 16] := by
  have extract (i j : Nat) (h : j + 8 ≤ 16) :
      (w.extractLsb' i 16).extractLsb' j 8 = w.extractLsb' (i + j) 8 := by
    refine BitVec.eq_of_getLsbD_eq fun k hk => ?_
    simp only [BitVec.getLsbD_extractLsb']
    grind
  simp [octets, groupBytes, high, low, extract]

theorem s6Addr_eq (e : Endian) (a : In6Addr) : s6Addr e a = groupBytes (groupsOf (a.toHost e)) := by
  simp [s6Addr, octets_eq, groupsOf, groupBytes, In6Addr.toHost]

theorem ofGroups_groupsOf (a : In6Addr) : AddressText.ofGroups (groupsOf a) = some a := by
  have halves (w : BitVec 32) : w.extractLsb' 16 16 ++ w.extractLsb' 0 16 = w := by
    refine BitVec.eq_of_getLsbD_eq fun i hi => ?_
    simp only [BitVec.getLsbD_append, BitVec.getLsbD_extractLsb']
    grind
  simp [groupsOf, AddressText.ofGroups, halves]

end Loop

section V6

open WinInetNtop Fields

variable {gs : List (BitVec 16)} {text : List Char} {a : In6Addr}

theorem groups_join (gs : List (BitVec 16)) :
    AddressText.groups (join ':' (gs.map hexText)) = some gs :=
  mapM_split_join plain_hexTexts fun g _ => group_hexText g

theorem Written.read (h : Written gs text) (len : gs.length = 8) :
    AddressText.v6 text = AddressText.ofGroups gs := by
  cases h
  case full => rw [AddressText.v6, cutGap_join plain_hexTexts, groups_join]; rfl
  case gap l r k hk h =>
    subst h
    simp only [List.length_append, List.length_replicate] at len
    rw [AddressText.v6, cutGap_join_append plain_hexTexts]
    simp only [groups_join, Option.bind_some]
    rw [if_pos (by omega), show 8 - (l.length + r.length) = k by omega]

theorem Written.length_lt (h : Written gs text) (len : gs.length = 8) :
    text.length < inet6Addrstrlen := by
  have short (gs : List (BitVec 16)) : (join ':' (gs.map hexText)).length ≤ gs.length * 5 - 1 := by
    have le : ∀ f ∈ gs.map hexText, f.length ≤ 4 := by
      intro f hf
      obtain ⟨g, _, rfl⟩ := List.mem_map.mp hf
      rw [hexText_eq, List.length_map]
      exact (length_hexDigits g).2
    simpa only [List.length_map] using length_join_le 4 le
  cases h
  case full =>
    have := short gs
    rw [inet6Addrstrlen]
    omega
  case gap l r k hk h =>
    subst h
    have hl := short l
    have hr := short r
    simp only [List.length_append, List.length_replicate, List.length_cons] at len ⊢
    rw [inet6Addrstrlen]
    omega

theorem Written.colon_mem (h : Written gs text) (len : gs.length = 8) : ':' ∈ text := by
  cases h
  case gap  => simp
  case full =>
    have three : 3 ≤ gs.length := by omega
    obtain ⟨g₁, g₂, g₃, r, rfl⟩ := exists_three three
    simp [join_cons]

theorem inetNtopV6_eq (e : Endian) (a : In6Addr) : inetNtopV6 e a inet6Addrstrlen =
    some (V6Loop.body^[8] ⟨0, s6Addr e a, false, []⟩).dst := by
  rw [inetNtopV6, if_neg (Nat.lt_irrefl _)]

theorem loop_written (len : gs.length = 8) :
    Written gs (V6Loop.body^[8] ⟨0, groupBytes gs, false, []⟩).dst := by
  have ne : gs ≠ [] := List.ne_nil_of_length_pos (by omega)
  have written := bodies_written (l := []) (n := 8) gs (by simpa using len) (by omega) ne
  simpa only [List.length_nil, List.map_nil, each_nil, List.nil_append] using written

theorem inetNtopV6_written (e : Endian) (a : In6Addr) :
    ∃ text, inetNtopV6 e a inet6Addrstrlen = some text ∧ Written (groupsOf (a.toHost e)) text := by
  have written : Written (groupsOf (a.toHost e)) _ := loop_written rfl
  rw [← s6Addr_eq] at written
  exact ⟨_, inetNtopV6_eq e a, written⟩

end V6

section RoundTrip

open WinInetNtop

variable {pton : InetPton} {e : Endian} {haveIpv6 : Bool} {ip : EngineIp} {ipBuf : List Char}

-- What is in the buffer: the text of the address, which is read as the address again, or, for a
-- family that is not there, what was in it before.
inductive Shown (pton : InetPton) (haveIpv6 : Bool) (ipBuf : List Char) :
    EngineIp → List Char → Prop
  | v4 (a : BitVec 32) (text : List Char) (fits : text.length < inetAddrstrlen)
    (reads : engineStrToIp pton text = some (.v4 a)) : Shown pton haveIpv6 ipBuf (.v4 a) text
  | v6 (a : In6Addr) (text : List Char) (there : haveIpv6 = true)
    (fits : text.length < inet6Addrstrlen)
    (reads : engineStrToIp pton text = some (.v6 a)) : Shown pton haveIpv6 ipBuf (.v6 a) text
  | kept (a : In6Addr) (missing : haveIpv6 = false) : Shown pton haveIpv6 ipBuf (.v6 a) ipBuf

-- A CNetRecv that is made from the text that another one has of its peer has got the same peer.
structure RoundTrip (pton : InetPton) (haveIpv6 : Bool) (e : Endian) : Prop where
  shown : ∀ ip ipBuf, Shown pton haveIpv6 ipBuf ip (engineIpToStr (winInetNtop haveIpv6 e) ip ipBuf)
  peer  : ∀ ipaddr port,
    initPeerIpinfoStr e pton (initPeerIpinfo e (winInetNtop haveIpv6 e) ipaddr port).ipstr port =
      some (initPeerIpinfo e (winInetNtop haveIpv6 e) ipaddr port)

theorem engineIpToStr_v6 (a : In6Addr) : engineIpToStr (winInetNtop true e) (.v6 a) ipBuf =
    (inetNtopV6 e a inet6Addrstrlen).getD ipBuf :=
  rfl

theorem v4_reads (h : pton.Reads e) (a : BitVec 32) : pton.v4 (v4Text (ntohl e a)) = some a := by
  refine h.v4 _ _ ?_
  simp only [InetPton.standard, v4_v4Text, Option.map_some, ntohl_ntohl]

theorem v6_reads (h : pton.Reads e) {a : In6Addr} {text : List Char}
    (written : Written (groupsOf (a.toHost e)) text) : pton.v6 text = some a := by
  refine h.v6 _ _ ?_
  simp only [InetPton.standard, written.read rfl, ofGroups_groupsOf, Option.map_some,
    In6Addr.toHost_toHost]

-- A text that fits is copied as it is.
theorem strncpy_eq {s : List Char} (hn : '\x00' ∉ s) (fits : s.length < ipDescLen) :
    (utilStrncpy s ipDescLen).takeWhile (· ≠ '\x00') = s := by
  have all : ∀ c ∈ s, decide (c ≠ '\x00') = true := fun c hc => decide_eq_true fun h => hn (h ▸ hc)
  rw [utilStrncpy, List.take_of_length_le (by simpa using fits), List.takeWhile_append_of_pos all]
  simp

-- What is written as the text of an address is read as this address.
theorem address_round_trip (h : pton.Reads e) (haveIpv6 : Bool) : RoundTrip pton haveIpv6 e where
  shown ip ipBuf := by
    cases ip
    case v4 a =>
      refine .v4 a (v4Text (ntohl e a)) length_v4Text_lt ?_
      rw [engineStrToIp, if_pos (not_mem_v4Text rfl (by decide)), v4_reads h, Option.map_some]
    case v6 a =>
      cases haveIpv6
      case false => exact .kept a rfl
      case true  =>
        obtain ⟨text, shown, written⟩ := inetNtopV6_written e a
        rw [engineIpToStr_v6, shown, Option.getD_some]
        refine .v6 a text rfl (written.length_lt rfl) ?_
        rw [engineStrToIp, if_neg (not_not.mpr (written.colon_mem rfl)), v6_reads h written,
          Option.map_some]
  peer ipaddr port := by
    have peer : initPeerIpinfo e (winInetNtop haveIpv6 e) ipaddr port =
        ⟨ipaddr, v4Text ipaddr, port⟩ := by
      have text : v4Text (ntohl e (ntohl e ipaddr)) = v4Text ipaddr := by rw [ntohl_ntohl]
      exact congrArg (PeerIpinfo.mk ipaddr · port) text
    have read : pton.v4 (v4Text ipaddr) = some (ntohl e ipaddr) := by
      simpa only [ntohl_ntohl] using v4_reads h (ntohl e ipaddr)
    have fits : (v4Text ipaddr).length < ipDescLen := Nat.lt_trans length_v4Text_lt (by decide)
    rw [peer, initPeerIpinfoStr, read, Option.map_some, ntohl_ntohl,
      strncpy_eq (not_mem_v4Text rfl (by decide)) fits]

-- 10.0.100.1 and 2001:db8::1.
theorem address_round_trip_samples :
    engineIpToStr (winInetNtop false .little) (.v4 0x0164000a) [] =
      ['1', '0', '.', '0', '.', '1', '0', '0', '.', '1'] ∧
    engineIpToStr (winInetNtop true .little) (.v6 ⟨0xb80d0120, 0, 0, 0x01000000⟩) [] =
      ['2', '0', '0', '1', ':', 'd', 'b', '8', ':', ':', '1'] ∧
    RoundTrip (.standard .little) true .little :=
  ⟨by decide, by decide, address_round_trip ⟨fun _ _ => id, fun _ _ => id⟩ true⟩

end RoundTrip

end NetPool
