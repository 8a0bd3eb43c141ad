import Mathlib

namespace NetPool
namespace LogText

-- MAX_LINE_LEN
def maxLineLen : Nat :=
  2048

-- The arrays `src` and `outstr` in the beginning.
def emptyLine : List UInt8 :=
  List.replicate (maxLineLen + 1) 0

-- The bytes of a literal.
def text (s : String) : List UInt8 :=
  s.toList.map fun c => c.toNat.toUInt8

-- What is read of an array as a string.
def cstr (buf : List UInt8) : List UInt8 :=
  buf.takeWhile (· ≠ 0)

-- `snprintf` and `vsnprintf` of what the format makes of the arguments: the array afterwards, and
-- the length without any cut.
def snprintf (buf : List UInt8) (size : Nat) (formatted : List UInt8) : List UInt8 × Nat :=
  let stored := formatted.take (size - 1)
  (stored ++ 0 :: buf.drop (stored.length + 1), formatted.length)

-- A time from `localtime`. The year is `tm_year + 1900`, and the month `tm_mon + 1`.
structure Tm where
  year   : Int
  mon    : Nat
  mday   : Nat
  hour   : Nat
  min    : Nat
  sec    : Nat
  year_lt : year.natAbs < 2 ^ 31
  mon_le  : mon ≤ 12
  mday_le : mday ≤ 31
  hour_le : hour ≤ 23
  min_le  : min ≤ 59
  sec_le  : sec ≤ 60

-- `%0wd`
def decimalNat (w n : Nat) : List UInt8 :=
  ((Nat.digits 10 n).reverse.map fun d => (48 + d).toUInt8).leftpad w 48

def decimal (w : Nat) (n : Int) : List UInt8 :=
  if n < 0 then 45 :: decimalNat (w - 1) n.natAbs else decimalNat w n.natAbs

-- "[%04d-%02d-%02d %02d:%02d:%02d]"
def dateFormat (now : Tm) : List UInt8 :=
  text "[" ++ decimal 4 now.year ++ text "-" ++ decimal 2 now.mon ++ text "-" ++
    decimal 2 now.mday ++ text " " ++ decimal 2 now.hour ++ text ":" ++ decimal 2 now.min ++
    text ":" ++ decimal 2 now.sec ++ text "]"

-- L_DEBUG, L_INFO, L_WARN and L_ERROR
def tag (level : Int) : List UInt8 :=
  if level = 3 then text " [ERR]:"
  else if level = 0 then text " [DBG]:"
  else if level = 2 then text " [WARN]:"
  else if level = 1 then text " [INFO]:"
  else text " [DEF]:"

-- What `logger_write` calls at its end, with the array `outstr`.
inductive Output
  | queueIn (outstr : List UInt8) (outstrlen : Nat)
  | fputs (outstr : List UInt8)

namespace Output

-- The bytes that are read. `queue_in` goes by the length, and `fputs` by the NUL.
def bytes : Output → Option (List UInt8)
  | queueIn outstr outstrlen =>
    if outstrlen ≤ outstr.length then some (outstr.take outstrlen) else none
  | fputs outstr => some (cstr outstr)

-- No more is read than the characters that are stored in the array.
def Within : Output → Prop
  | queueIn outstr outstrlen => outstrlen ≤ (cstr outstr).length
  | fputs _ => True

end Output

-- "%s [ERR]:%s \n", with the tag of the level.
def line (level : Int) (now : Tm) (src : List UInt8) : List UInt8 :=
  dateFormat now ++ tag level ++ cstr src ++ text " \n"

-- `logger_write`, with what the format makes of the arguments.
def loggerWrite (isAsyncWrite : Bool) (logLevel level : Int) (now : Tm) (formatted : List UInt8) :
    Option Output :=
  if level < logLevel then none
  else
    let src := (snprintf emptyLine maxLineLen formatted).1
    let (outstr, outstrlen) := snprintf emptyLine maxLineLen (line level now src)
    some (if isAsyncWrite then .queueIn outstr outstrlen else .fputs outstr)

-- Both modes write the same bytes.
structure SameText (logLevel level : Int) (now : Tm) (formatted : List UInt8) : Prop where
  bytes  : (loggerWrite true logLevel level now formatted).map Output.bytes =
    (loggerWrite false logLevel level now formatted).map Output.bytes
  within : ∀ o ∈ loggerWrite true logLevel level now formatted, o.Within

variable {w n size : Nat} {buf t : List UInt8} {logLevel level : Int} {now : Tm}
  {formatted : List UInt8}

section Text

theorem cstr_take_append (k : Nat) (t rest : List UInt8) :
    cstr (t.take k ++ 0 :: rest) = (cstr t).take k := by
  induction t generalizing k
  case nil          => simp [cstr]
  case cons c cs ih =>
    cases k
    case zero   => simp [cstr]
    case succ k =>
      by_cases hc : c = 0
      case pos => simp [cstr, hc]
      case neg => simpa [cstr, hc] using ih k

-- What has been stored is read up to its first NUL.
theorem cstr_snprintf (formatted : List UInt8) :
    cstr (snprintf buf size formatted).1 = (cstr formatted).take (size - 1) :=
  cstr_take_append ..

theorem cstr_eq_self (h : 0 ∉ t) : cstr t = t :=
  List.takeWhile_eq_self_iff.mpr fun c hc => decide_eq_true fun he : c = 0 => h (he ▸ hc)

theorem zero_notMem_cstr : 0 ∉ cstr buf := by
  intro h
  simpa using List.mem_takeWhile_imp h

theorem zero_notMem_decimalNat : 0 ∉ decimalNat w n := by
  intro h
  obtain h | h := List.mem_append.mp h
  case inl => exact absurd (List.eq_of_mem_replicate h) (by decide)
  case inr =>
    obtain ⟨d, hd, h⟩ := List.mem_map.mp h
    have lt : d < 10 := Nat.digits_lt_base (by decide) (List.mem_reverse.mp hd)
    interval_cases d <;> exact absurd h (by decide)

theorem zero_notMem_decimal (w : Nat) (n : Int) : 0 ∉ decimal w n := by
  unfold decimal
  split
  case isTrue  => simp [zero_notMem_decimalNat]
  case isFalse => exact zero_notMem_decimalNat

theorem zero_notMem_dateFormat (now : Tm) : 0 ∉ dateFormat now := by
  have text : 0 ∉ text "[" ∧ 0 ∉ text "-" ∧ 0 ∉ text " " ∧ 0 ∉ text ":" ∧ 0 ∉ text "]" := by decide
  simp [dateFormat, zero_notMem_decimal, text]

theorem zero_notMem_tag (level : Int) : 0 ∉ tag level := by
  unfold tag
  split_ifs <;> decide

theorem length_decimalNat (w n : Nat) :
    (decimalNat w n).length = max w (Nat.digits 10 n).length := by
  simp only [decimalNat, List.leftpad, List.length_append, List.length_replicate, List.length_map,
    List.length_reverse]
  omega

-- A number that fits into the width is filled up to it.
theorem length_decimal (h : n < 10 ^ w) : (decimal w n).length = w := by
  have := (Nat.digits_length_le_iff (by decide) n).mpr h
  rw [decimal, if_neg (by omega), length_decimalNat, Int.natAbs_natCast]
  omega

-- The number that a string of decimal digits is read as.
def value (digits : List UInt8) : Nat :=
  Nat.ofDigits 10 (digits.reverse.map fun c => c.toNat - 48)

theorem value_decimalNat (w n : Nat) : value (decimalNat w n) = n := by
  have digit : ∀ d ∈ Nat.digits 10 n, ((48 + d).toUInt8.toNat - 48) = d := by
    intro d hd
    have lt : d < 10 := Nat.digits_lt_base (by decide) hd
    interval_cases d <;> rfl
  have map : (Nat.digits 10 n).map ((fun c : UInt8 => c.toNat - 48) ∘ fun d => (48 + d).toUInt8) =
      Nat.digits 10 n :=
    (List.map_congr_left digit).trans (List.map_id _)
  have zero : (48 : UInt8).toNat - 48 = 0 := rfl
  rw [value, decimalNat, List.leftpad, List.reverse_append, List.map_append, List.reverse_replicate,
    List.map_replicate, zero, Nat.ofDigits_append_replicate_zero, ← List.map_reverse,
    List.reverse_reverse, List.map_map, map, Nat.ofDigits_digits]

theorem minus_notMem_decimalNat : 45 ∉ decimalNat w n := by
  intro h
  obtain h | h := List.mem_append.mp h
  case inl => exact absurd (List.eq_of_mem_replicate h) (by decide)
  case inr =>
    obtain ⟨d, hd, h⟩ := List.mem_map.mp h
    have lt : d < 10 := Nat.digits_lt_base (by decide) (List.mem_reverse.mp hd)
    interval_cases d <;> exact absurd h (by decide)

theorem decimal_inj {i j : Int} (h : decimal w i = decimal w j) : i = j := by
  have read {w m n : Nat} (h : decimalNat w m = decimalNat w n) : m = n := by
    rw [← value_decimalNat w m, h, value_decimalNat]
  unfold decimal at h
  split_ifs at h
  case pos hi hj =>
    have abs := read (List.cons_inj_right 45 |>.mp h)
    omega
  case neg hi hj =>
    exact absurd (h ▸ List.mem_cons_self) minus_notMem_decimalNat
  case pos hi hj =>
    exact absurd (h ▸ List.mem_cons_self) minus_notMem_decimalNat
  case neg hi hj =>
    have abs := read h
    omega

theorem length_dateFormat (now : Tm) :
    (dateFormat now).length = (decimal 4 now.year).length + 17 := by
  have mon : (decimal 2 now.mon).length = 2 := length_decimal (by have := now.mon_le; omega)
  have mday : (decimal 2 now.mday).length = 2 := length_decimal (by have := now.mday_le; omega)
  have hour : (decimal 2 now.hour).length = 2 := length_decimal (by have := now.hour_le; omega)
  have min : (decimal 2 now.min).length = 2 := length_decimal (by have := now.min_le; omega)
  have sec : (decimal 2 now.sec).length = 2 := length_decimal (by have := now.sec_le; omega)
  have text : ∀ s ∈ ["[", "-", " ", ":", "]"], (text s).length = 1 := by decide
  simp only [List.forall_mem_cons] at text
  simp only [dateFormat, List.length_append, mon, mday, hour, min, sec, text]
  omega

-- It fits into `dateformat`.
theorem length_dateFormat_lt (now : Tm) : (dateFormat now).length < 64 := by
  have year : (decimal 4 now.year).length ≤ 11 := by
    have digits : (Nat.digits 10 now.year.natAbs).length ≤ 10 :=
      (Nat.digits_length_le_iff (by decide) _).mpr (Nat.lt_trans now.year_lt (by decide))
    unfold decimal
    split <;> simp only [List.length_cons, length_decimalNat] <;> omega
  have := length_dateFormat now
  omega

theorem zero_notMem_line (src : List UInt8) : 0 ∉ line level now src := by
  have text : 0 ∉ text " \n" := by decide
  simp [line, zero_notMem_dateFormat, zero_notMem_tag, zero_notMem_cstr, text]

theorem length_line (src : List UInt8) : (line level now src).length =
    (dateFormat now).length + (tag level).length + (cstr src).length + 2 := by
  have text : (text " \n").length = 2 := by decide
  simp only [line, List.length_append, text]

end Text

-- What is read by the length of a line, when it was stored into an array, and by the NUL.
theorem output_within_iff (ht : 0 ∉ t) (hs : 0 < size) :
    (Output.queueIn (snprintf buf size t).1 t.length).Within ↔ t.length < size := by
  rw [Output.Within, cstr_snprintf, cstr_eq_self ht, List.length_take]
  omega

theorem output_bytes_eq (ht : 0 ∉ t) (hl : t.length < size) :
    (Output.queueIn (snprintf buf size t).1 t.length).bytes =
      (Output.fputs (snprintf buf size t).1).bytes := by
  have stored : t.take (size - 1) = t := List.take_of_length_le (by omega)
  rw [Output.bytes, Output.bytes, cstr_snprintf, cstr_eq_self ht, stored]
  simp [snprintf, stored]

section Modes

-- The line of a message of which a part may have been cut in `src`.
theorem length_line_lt :
    (line level now (snprintf emptyLine maxLineLen formatted).1).length < maxLineLen ↔
      (dateFormat now).length + (tag level).length + (cstr formatted).length + 2 < maxLineLen := by
  rw [length_line, cstr_snprintf, List.length_take, maxLineLen]
  omega

theorem within_iff : (∀ o ∈ loggerWrite true logLevel level now formatted, o.Within) ↔
    level < logLevel ∨
      (dateFormat now).length + (tag level).length + (cstr formatted).length + 2 < maxLineLen := by
  unfold loggerWrite
  split
  case isTrue hl  => exact ⟨fun _ => .inl hl, fun _ => nofun⟩
  case isFalse hl =>
    constructor
    case mp =>
      intro h
      have within := h _ rfl
      exact .inr (length_line_lt.mp ((output_within_iff (zero_notMem_line _) (by decide)).mp within))
    case mpr =>
      rintro h o ⟨⟩
      have lt := length_line_lt.mpr (h.resolve_left hl)
      exact (output_within_iff (zero_notMem_line _) (by decide)).mpr lt

theorem bytes_eq (h : level < logLevel ∨
    (dateFormat now).length + (tag level).length + (cstr formatted).length + 2 < maxLineLen) :
    (loggerWrite true logLevel level now formatted).map Output.bytes =
      (loggerWrite false logLevel level now formatted).map Output.bytes := by
  unfold loggerWrite
  split
  case isTrue  => rfl
  case isFalse hl =>
    have lt := length_line_lt.mpr (h.resolve_left hl)
    exact congrArg some (output_bytes_eq (zero_notMem_line _) lt)

end Modes

-- `outstr` has room for less than MAX_LINE_LEN characters, and `outstrlen` counts them all.
theorem same_text_iff (logLevel level : Int) (now : Tm) (formatted : List UInt8) :
    SameText logLevel level now formatted ↔ level < logLevel ∨
      (dateFormat now).length + (tag level).length + (cstr formatted).length + 2 < maxLineLen :=
  ⟨fun same => within_iff.mp same.within, fun h => ⟨bytes_eq h, within_iff.mpr h⟩⟩

-- An error of 2018 characters, whose line has 2048 of them.
theorem not_same_text :
    let now : Tm := ⟨2024, 1, 2, 3, 4, 5, by decide, by decide, by decide, by decide, by decide,
      by decide⟩
    ¬SameText 0 3 now (List.replicate 2018 120) := by
  intro now same
  have notMem : (0 : UInt8) ∉ List.replicate 2018 120 := fun h => absurd (List.eq_of_mem_replicate h) (by decide)
  have date : (dateFormat now).length = 21 := by
    have year : (decimal 4 now.year).length = 4 := length_decimal (n := 2024) (by decide)
    rw [length_dateFormat, year]
  have tag : (tag 3).length = 7 := by decide
  have long := within_iff.mp same.within
  rw [date, tag, cstr_eq_self notMem, List.length_replicate, maxLineLen] at long
  omega

end LogText
end NetPool
