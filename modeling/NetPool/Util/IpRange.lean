import NetPool.Lib.Block

namespace NetPool

inductive Endian
  | little
  | big
  deriving DecidableEq

-- `ntohl`, and `htonl` likewise.
def ntohl (e : Endian) (w : BitVec 32) : BitVec 32 :=
  match e with
  | .big    => w
  | .little =>
    w.extractLsb' 0 8 ++ w.extractLsb' 8 8 ++ w.extractLsb' 16 8 ++ w.extractLsb' 24 8

-- The four words `s6_addr32` of a `struct in6_addr`.
@[ext]
structure In6Addr where
  w₀ : BitVec 32
  w₁ : BitVec 32
  w₂ : BitVec 32
  w₃ : BitVec 32
  deriving DecidableEq

-- `engine_ipv6_to_host`, and `engine_ipv6_to_net`, which calls `ntohl` as well.
def In6Addr.toHost (e : Endian) (a : In6Addr) : In6Addr :=
  ⟨ntohl e a.w₀, ntohl e a.w₁, ntohl e a.w₂, ntohl e a.w₃⟩

-- `engine_ip_t`, in network byte order.
inductive EngineIp
  | v4 (addr : BitVec 32)
  | v6 (addr : In6Addr)
  deriving DecidableEq

structure IpRange where
  startAddr : EngineIp
  endAddr   : EngineIp
  deriving DecidableEq

-- `inet_pton` for the two families.
structure InetPton where
  v4 : List Char → Option (BitVec 32)
  v6 : List Char → Option In6Addr

def isSpace (c : Char) : Bool :=
  c.toNat = 32 ∨ 9 ≤ c.toNat ∧ c.toNat ≤ 13

def decimal (digits : List Char) : Nat :=
  digits.foldl (fun n c => 10 * n + (c.toNat - '0'.toNat)) 0

-- `strtol` to the base 10, for a `long` of 64 bits.
def strtol (s : List Char) : Int :=
  match s.dropWhile isSpace with
  | '-' :: s => -(min (decimal <| s.takeWhile Char.isDigit) (2 ^ 63) : Nat)
  | '+' :: s => (min (decimal <| s.takeWhile Char.isDigit) (2 ^ 63 - 1) : Nat)
  | s        => (min (decimal <| s.takeWhile Char.isDigit) (2 ^ 63 - 1) : Nat)

-- A prefix length, as the `uint32_t` that it is stored in.
def mask (s : List Char) : BitVec 32 :=
  BitVec.ofInt 32 (strtol s)

-- `CONVERT_TO_BEGIN_END`. The counts of the shifts are in range for an `i_mask` of at most 32; where
-- they are not, the machine takes them modulo the width.
def convertBegin (minIP iMask : BitVec 32) : BitVec 32 :=
  minIP &&& (0xffffffff#64 <<< ((32 - iMask).toNat % 64)).setWidth 32

def convertEnd (minIP iMask : BitVec 32) : BitVec 32 :=
  (minIP.setWidth 64 + 0xffffffff#64 >>> (iMask.toNat % 64)).setWidth 32

def loadIpv4Subnet (e : Endian) (pton : InetPton) (ipstr maskstr : List Char) : Option IpRange :=
  let iMask := mask maskstr
  if iMask ≤ 32 then
    (pton.v4 ipstr).map fun ipval =>
      let minIP := convertBegin (ntohl e ipval) iMask
      let maxIP := convertEnd minIP iMask
      ⟨.v4 (ntohl e minIP), .v4 (ntohl e maxIP)⟩
  else none

-- The two ends of the range, from the address in host byte order. A mask beyond 128 ends up in the
-- last branch.
def ipv6Begin (a : In6Addr) (iMask : BitVec 32) : In6Addr :=
  if iMask > 96 ∧ iMask ≤ 128 then { a with w₃ := convertBegin a.w₃ (iMask - 96) }
  else if iMask > 64 ∧ iMask ≤ 96 then { a with w₂ := convertBegin a.w₂ (iMask - 64), w₃ := 0 }
  else if iMask > 32 ∧ iMask ≤ 64 then
    { a with w₁ := convertBegin a.w₁ (iMask - 32), w₂ := 0, w₃ := 0 }
  else ⟨convertBegin a.w₀ iMask, 0, 0, 0⟩

def ipv6End (a : In6Addr) (iMask : BitVec 32) : In6Addr :=
  let ones := 0xffffffff#32
  if iMask > 96 ∧ iMask ≤ 128 then
    { a with w₃ := convertEnd (convertBegin a.w₃ (iMask - 96)) (iMask - 96) }
  else if iMask > 64 ∧ iMask ≤ 96 then
    { a with w₂ := convertEnd (convertBegin a.w₂ (iMask - 64)) (iMask - 64), w₃ := ones }
  else if iMask > 32 ∧ iMask ≤ 64 then
    { a with w₁ := convertEnd (convertBegin a.w₁ (iMask - 32)) (iMask - 32), w₂ := ones, w₃ := ones }
  else ⟨convertEnd (convertBegin a.w₀ iMask) iMask, ones, ones, ones⟩

def loadIpv6Subnet (e : Endian) (pton : InetPton) (ipstr maskstr : List Char) : Option IpRange :=
  let iMask := mask maskstr
  (pton.v6 ipstr).map fun ipval =>
    ⟨.v6 ((ipv6Begin (ipval.toHost e) iMask).toHost e),
      .v6 ((ipv6End (ipval.toHost e) iMask).toHost e)⟩

section Bytes

variable {e : Endian} {w : BitVec 32}

@[simp]
theorem ntohl_ntohl : ntohl e (ntohl e w) = w := by
  cases e
  case big    => rfl
  case little =>
    refine BitVec.eq_of_getLsbD_eq fun i hi => ?_
    simp only [ntohl, BitVec.getLsbD_append, BitVec.getLsbD_extractLsb']
    grind

@[simp]
theorem In6Addr.toHost_toHost {a : In6Addr} : (a.toHost e).toHost e = a := by
  simp [toHost]

end Bytes

section Word

variable {a m : BitVec 32} {i : Nat}

theorem toNat_sub_mask (hm : m.toNat ≤ 32) : (32 - m).toNat % 64 = 32 - m.toNat := by
  rw [BitVec.toNat_sub_of_le hm]
  exact Nat.mod_eq_of_lt (Nat.lt_of_le_of_lt (Nat.sub_le _ _) (by decide))

theorem getLsbD_ones : (0xffffffff#64).getLsbD i = decide (i < 32) := by
  have : 0xffffffff#64 = (BitVec.allOnes 32).setWidth 64 := rfl
  rw [this, BitVec.getLsbD_setWidth, BitVec.getLsbD_allOnes]
  grind

theorem convertBegin_getLsbD (hm : m.toNat ≤ 32) :
    (convertBegin a m).getLsbD i = (decide (32 - m.toNat ≤ i) && a.getLsbD i) := by
  rw [convertBegin, toNat_sub_mask hm, BitVec.getLsbD_and, Bool.and_comm, BitVec.getLsbD_setWidth,
    BitVec.getLsbD_shiftLeft, getLsbD_ones]
  by_cases hi : i < 32
  case pos => grind
  case neg => simp [BitVec.getLsbD_of_ge a i (by omega)]

theorem convertBegin_getMsbD (hm : m.toNat ≤ 32) (hi : i < 32) :
    (convertBegin a m).getMsbD i = (decide (i < m.toNat) && a.getMsbD i) := by
  rw [BitVec.getMsbD_eq_getLsbD, convertBegin_getLsbD hm, BitVec.getMsbD_eq_getLsbD]
  grind

theorem convertEnd_getMsbD (hm : m.toNat ≤ 32) (hi : i < 32) :
    (convertEnd (convertBegin a m) m).getMsbD i = (decide (m.toNat ≤ i) || a.getMsbD i) := by
  have disjoint : (convertBegin a m).setWidth 64 &&& (0xffffffff#64 >>> m.toNat) = 0#64 := by
    refine BitVec.eq_of_getLsbD_eq fun j hj => ?_
    rw [BitVec.getLsbD_and, BitVec.getLsbD_setWidth, convertBegin_getLsbD hm,
      BitVec.getLsbD_ushiftRight, getLsbD_ones, BitVec.getLsbD_zero]
    grind
  have count : m.toNat % 64 = m.toNat := Nat.mod_eq_of_lt (by omega)
  rw [convertEnd, count, BitVec.add_eq_or_of_and_eq_zero _ _ disjoint, BitVec.getMsbD_eq_getLsbD,
    BitVec.getLsbD_setWidth, BitVec.getLsbD_or, BitVec.getLsbD_setWidth, convertBegin_getLsbD hm,
    BitVec.getLsbD_ushiftRight, getLsbD_ones, BitVec.getMsbD_eq_getLsbD]
  grind

end Word

-- The addresses as numbers, from what is stored in network byte order.
def ipv4Value (e : Endian) (addr : BitVec 32) : BitVec 32 :=
  ntohl e addr

def In6Addr.bits (a : In6Addr) : BitVec 128 :=
  (a.w₀ ++ a.w₁ : BitVec 64) ++ (a.w₂ ++ a.w₃ : BitVec 64)

def ipv6Value (e : Endian) (addr : In6Addr) : BitVec 128 :=
  (addr.toHost e).bits

section Subnet

variable {a : In6Addr} {m : BitVec 32} {i : Nat}

theorem In6Addr.bits_getMsbD : a.bits.getMsbD i =
    if i < 32 then a.w₀.getMsbD i else if i < 64 then a.w₁.getMsbD (i - 32)
    else if i < 96 then a.w₂.getMsbD (i - 64) else a.w₃.getMsbD (i - 96) := by
  simp only [bits, BitVec.getMsbD_append]
  grind

theorem toNat_mask_sub {n : BitVec 32} (h : m > n) : (m - n).toNat = m.toNat - n.toNat :=
  BitVec.toNat_sub_of_le <| BitVec.le_of_lt h

-- In the branch that is taken, one word is cut and the words before it stay.
theorem ipv6Begin_getMsbD (hm : m.toNat ≤ 128) (hi : i < 128) :
    (ipv6Begin a m).bits.getMsbD i = (decide (i < m.toNat) && a.bits.getMsbD i) := by
  have cut (a n : BitVec 32) (i : Nat) (hn : n.toNat ≤ 32) (hi : i < 32) :
    (convertBegin a n).getMsbD i = _ := convertBegin_getMsbD hn hi
  have zero (i : Nat) : (0 : BitVec 32).getMsbD i = false := BitVec.getMsbD_zero
  have lt (n : BitVec 32) : m > n ↔ n.toNat < m.toNat := Iff.rfl
  have le (n : BitVec 32) : m ≤ n ↔ m.toNat ≤ n.toNat := Iff.rfl
  unfold ipv6Begin
  split
  case isTrue h =>
    have hs := toNat_mask_sub h.1
    simp only [lt, le, In6Addr.bits_getMsbD] at h ⊢
    grind
  case isFalse h₁ =>
    split
    case isTrue h =>
      have hs := toNat_mask_sub h.1
      simp only [lt, le, In6Addr.bits_getMsbD] at h ⊢
      grind
    case isFalse h₂ =>
      split
      case isTrue h =>
        have hs := toNat_mask_sub h.1
        simp only [lt, le, In6Addr.bits_getMsbD] at h ⊢
        grind
      case isFalse h₃ =>
        simp only [lt, le, In6Addr.bits_getMsbD] at h₁ h₂ h₃ ⊢
        grind

theorem ipv6End_getMsbD (hm : m.toNat ≤ 128) (hi : i < 128) :
    (ipv6End a m).bits.getMsbD i = (decide (m.toNat ≤ i) || a.bits.getMsbD i) := by
  have cut (a n : BitVec 32) (i : Nat) (hn : n.toNat ≤ 32) (hi : i < 32) :
    (convertEnd (convertBegin a n) n).getMsbD i = _ := convertEnd_getMsbD hn hi
  have ones (i : Nat) (hi : i < 32) : (0xffffffff#32).getMsbD i = true := by
    rw [show 0xffffffff#32 = BitVec.allOnes 32 from rfl, BitVec.getMsbD_allOnes, decide_eq_true hi]
  have lt (n : BitVec 32) : m > n ↔ n.toNat < m.toNat := Iff.rfl
  have le (n : BitVec 32) : m ≤ n ↔ m.toNat ≤ n.toNat := Iff.rfl
  unfold ipv6End
  dsimp only
  split
  case isTrue h =>
    have hs := toNat_mask_sub h.1
    simp only [lt, le, In6Addr.bits_getMsbD] at h ⊢
    grind
  case isFalse h₁ =>
    split
    case isTrue h =>
      have hs := toNat_mask_sub h.1
      simp only [lt, le, In6Addr.bits_getMsbD] at h ⊢
      grind
    case isFalse h₂ =>
      split
      case isTrue h =>
        have hs := toNat_mask_sub h.1
        simp only [lt, le, In6Addr.bits_getMsbD] at h ⊢
        grind
      case isFalse h₃ =>
        simp only [lt, le, In6Addr.bits_getMsbD] at h₁ h₂ h₃ ⊢
        grind

theorem toNat_mask {s : List Char} {n : Nat} (h : strtol s = n) (hn : n < 2 ^ 32) :
    (mask s).toNat = n := by
  rw [mask, h, BitVec.ofInt_natCast, BitVec.toNat_ofNat, Nat.mod_eq_of_lt hn]

variable {e : Endian} {pton : InetPton} {ipstr maskstr : List Char} {n : Nat}

theorem loadIpv4Subnet_isBlock {a : BitVec 32} (hp : pton.v4 ipstr = some a)
    (hs : strtol maskstr = n) (hn : n ≤ 32) :
    ∃ lo hi, loadIpv4Subnet e pton ipstr maskstr = some ⟨.v4 lo, .v4 hi⟩ ∧
      IsBlock (ipv4Value e a) n (ipv4Value e lo) (ipv4Value e hi) := by
  have hm := toNat_mask hs (by omega)
  have hle : mask maskstr ≤ 32 := by
    rw [BitVec.le_def, hm]
    exact hn
  simp only [loadIpv4Subnet, if_pos hle, hp, Option.map_some]
  refine ⟨_, _, rfl, ?_⟩
  simp only [ipv4Value, ntohl_ntohl]
  subst hm
  exact IsBlock.of_bits hn (fun i hi => convertBegin_getMsbD hn hi)
    fun i hi => convertEnd_getMsbD hn hi

theorem loadIpv6Subnet_isBlock {a : In6Addr} (hp : pton.v6 ipstr = some a)
    (hs : strtol maskstr = n) (hn : n ≤ 128) :
    ∃ lo hi, loadIpv6Subnet e pton ipstr maskstr = some ⟨.v6 lo, .v6 hi⟩ ∧
      IsBlock (ipv6Value e a) n (ipv6Value e lo) (ipv6Value e hi) := by
  have hm := toNat_mask hs (by omega)
  simp only [loadIpv6Subnet, hp, Option.map_some]
  refine ⟨_, _, rfl, ?_⟩
  simp only [ipv6Value, In6Addr.toHost_toHost]
  subst hm
  exact IsBlock.of_bits hn (fun i hi => ipv6Begin_getMsbD hn hi) fun i hi => ipv6End_getMsbD hn hi

end Subnet

-- A subnet is the block of its prefix, in both families.
theorem subnet_isBlock (e : Endian) (pton : InetPton) (ipstr maskstr : List Char) (n : Nat)
    (hs : strtol maskstr = n) :
    (∀ a, pton.v4 ipstr = some a → n ≤ 32 →
      ∃ lo hi, loadIpv4Subnet e pton ipstr maskstr = some ⟨.v4 lo, .v4 hi⟩ ∧
        IsBlock (ipv4Value e a) n (ipv4Value e lo) (ipv4Value e hi)) ∧
    (∀ a, pton.v6 ipstr = some a → n ≤ 128 →
      ∃ lo hi, loadIpv6Subnet e pton ipstr maskstr = some ⟨.v6 lo, .v6 hi⟩ ∧
        IsBlock (ipv6Value e a) n (ipv6Value e lo) (ipv6Value e hi)) :=
  ⟨fun _ hp hn => loadIpv4Subnet_isBlock hp hs hn, fun _ hp hn => loadIpv6Subnet_isBlock hp hs hn⟩

-- An `inet_pton` that knows some texts only.
def InetPton.table (v4 : List (List Char × BitVec 32)) (v6 : List (List Char × In6Addr)) : InetPton :=
  ⟨fun s => v4.lookup s, fun s => v6.lookup s⟩

-- `1.2.3.4` and `::1`, on a little-endian machine.
def InetPton.sample : InetPton :=
  .table [(['1', '.', '2', '.', '3', '.', '4'], 0x04030201)] [([':', ':', '1'], ⟨0, 0, 0, 0x01000000⟩)]

theorem subnet_isBlock_sample : ∃ lo hi,
    loadIpv6Subnet .little .sample [':', ':', '1'] ['9', '6'] = some ⟨.v6 lo, .v6 hi⟩ ∧
      IsBlock (ipv6Value .little ⟨0, 0, 0, 0x01000000⟩) 96 (ipv6Value .little lo)
        (ipv6Value .little hi) :=
  (subnet_isBlock .little .sample _ _ 96 (by decide)).2 _ (by decide) (by decide)

end NetPool
