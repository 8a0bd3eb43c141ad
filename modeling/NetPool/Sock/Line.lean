import NetPool.Sock.Timeout

namespace NetPool
namespace Sock

def recvOk : Nat := 0
def recvError : Nat := 1
def bigPathBufLen : Nat := 1024

def newline : UInt8 := 10
def carriageReturn : UInt8 := 13

-- A write to the place `p` of a buffer, or `none` when it has no such place.
def store (buf : List UInt8) (p : Nat) (c : UInt8) : Option (List UInt8) :=
  if p < buf.length then some (buf.set p c) else none

-- The byte that a call of `sock_read_timeout` for one byte gives, if it returns 1.
def readByte (os : List (Outcome (List UInt8))) : Option (UInt8 × List (Outcome (List UInt8))) :=
  match readTimeout 1 os with
  | ⟨1, c :: _, rest⟩ => some (c, rest)
  | _                 => none

section Read

variable {os rest : List (Outcome (List UInt8))} {c : UInt8}

-- The bytes that come before the first call that does not return 1.
def stream : List (Outcome (List UInt8)) → List UInt8
  | []      => []
  | o :: os =>
    match (readChannel 1).kind o with
    | .again        => stream os
    | .data         => o.received.take 1 ++ stream os
    | .stop | .fail => []

theorem readByte_cases (os : List (Outcome (List UInt8))) :
    (readByte os = none ∧ stream os = []) ∨
    ∃ c rest, readByte os = some (c, rest) ∧ stream os = c :: stream rest ∧
      rest.length < os.length := by
  induction os
  case nil => exact .inl ⟨rfl, rfl⟩
  case cons o os ih =>
    unfold readByte readTimeout Channel.run
    cases hk : (readChannel 1).kind o
    case again =>
      have here : stream (o :: os) = stream os := by simp [stream, hk]
      rw [Channel.transfer_again hk, here]
      refine ih.imp_right ?_
      rintro ⟨c, rest, read, next, less⟩
      exact ⟨c, rest, read, next, Nat.lt_succ_of_lt less⟩
    case stop => exact .inl ⟨by rw [Channel.transfer_stop hk]; rfl, by simp [stream, hk]⟩
    case fail =>
      refine .inl ⟨?_, by simp [stream, hk]⟩
      rw [Channel.transfer_fail hk]
      rfl
    case data =>
      -- A result of no bytes would mean that the peer has closed.
      obtain ⟨bytes, rfl, hb⟩ := done_of_kind_data hk
      obtain ⟨c, cs, rfl⟩ : ∃ c cs, bytes = c :: cs :=
        List.exists_cons_of_ne_nil fun he => by simp [he] at hb
      have none : ([] : List UInt8).length < (readChannel 1).len := Nat.one_pos
      have one : (readChannel 1).len ≤ ([] : List UInt8).length + (c :: cs).length := by
        simp [readChannel]
      refine .inr ⟨c, os, ?_, by simp [stream, hk, Outcome.received], Nat.lt_succ_self _⟩
      rw [Channel.transfer_full hk none one]
      rfl

theorem length_lt_of_readByte (h : readByte os = some (c, rest)) : rest.length < os.length := by
  obtain ⟨none, _⟩ | ⟨c', rest', some, _, less⟩ := readByte_cases os
  case inl => simp [none] at h
  case inr =>
    obtain ⟨rfl, rfl⟩ : c' = c ∧ rest' = rest := by simpa [some] using h
    exact less

end Read

-- What comes behind the loop of `sock_recv_line`.
def recvLineEnd (buf : List UInt8) (p : Nat) (bufsiz : UInt64) : Option (Nat × List UInt8) :=
  (store buf p 0).map fun buf => (if 0 < bufsiz then recvOk else recvError, buf)

def recvLineLoop (buf : List UInt8) (p : Nat) (bufsiz : UInt64)
    (os : List (Outcome (List UInt8))) : Option (Nat × List UInt8) :=
  if 0 < bufsiz then
    match h : readByte os with
    | none           => some (recvError, buf)
    | some (c, rest) =>
      (store buf p c).bind fun buf =>
        if c = 0 then some (recvOk, buf)
        else if c = newline then recvLineEnd buf p bufsiz
        else if c ≠ carriageReturn then recvLineLoop buf (p + 1) (bufsiz - 1) rest
        else recvLineLoop buf p bufsiz rest
  else recvLineEnd buf p bufsiz
termination_by os.length
decreasing_by all_goals exact length_lt_of_readByte h

-- What is returned, and the buffer then. It is `none` if there is a write outside of the buffer.
def recvLine (buf : List UInt8) (bufsiz : UInt64) (os : List (Outcome (List UInt8))) :
    Option (Nat × List UInt8) :=
  recvLineLoop buf 0 (bufsiz - 1) os

def EndsLine (c : UInt8) : Prop :=
  c = newline ∨ c = 0
  deriving Decidable

def Terminated (bytes : List UInt8) : Prop :=
  ∃ c ∈ bytes, EndsLine c
  deriving Decidable

-- The bytes of the first line, without carriage returns.
def lineText (bytes : List UInt8) : List UInt8 :=
  (bytes.takeWhile fun c => ¬EndsLine c).filter fun c => c ≠ carriageReturn

-- What reading a line is to leave behind `pre` when there is room for less than `room` characters.
structure ReadsLine (pre : List UInt8) (room : Nat) (bytes : List UInt8) (r : Nat × List UInt8) :
    Prop where
  ret  : r.1 = if Terminated bytes ∧ (lineText bytes).length < room then recvOk else recvError
  text : Terminated bytes → (lineText bytes).length < room →
    r.2.take (pre.length + (lineText bytes).length + 1) = pre ++ lineText bytes ++ [0]

section Line

variable {buf pre bytes : List UInt8} {p room : Nat} {bufsiz : UInt64} {c : UInt8}

theorem terminated_cons : Terminated (c :: bytes) ↔ EndsLine c ∨ Terminated bytes := by
  simp [Terminated]

theorem lineText_cons_of_ends (h : EndsLine c) : lineText (c :: bytes) = [] := by
  simp [lineText, h]

theorem lineText_cons (h : ¬EndsLine c) (hc : c ≠ carriageReturn) :
    lineText (c :: bytes) = c :: lineText bytes := by
  simp [lineText, h, hc]

theorem lineText_cons_carriageReturn :
    lineText (carriageReturn :: bytes) = lineText bytes := by
  have : ¬EndsLine carriageReturn := by decide
  simp [lineText, this]

theorem store_of_lt (h : p < buf.length) (c : UInt8) : ∃ buf', store buf p c = some buf' ∧
    buf'.length = buf.length ∧ buf'.take (p + 1) = buf.take p ++ [c] := by
  refine ⟨buf.set p c, if_pos h, by simp, ?_⟩
  rw [List.take_add_one, List.take_set_of_le le_rfl]
  simp [h]

theorem recvLineEnd_of_lt (h : p < buf.length) (bufsiz : UInt64) : ∃ buf',
    recvLineEnd buf p bufsiz = some (if 0 < bufsiz then recvOk else recvError, buf') ∧
      buf'.take (p + 1) = buf.take p ++ [0] := by
  obtain ⟨buf', stored, -, last⟩ := store_of_lt h 0
  exact ⟨buf', by rw [recvLineEnd, stored, Option.map_some], last⟩

theorem recvLineLoop_of_readByte_eq_none {os : List (Outcome (List UInt8))} (hb : 0 < bufsiz)
    (h : readByte os = none) : recvLineLoop buf p bufsiz os = some (recvError, buf) := by
  rw [recvLineLoop, if_pos hb]
  split
  case h_1      => rfl
  case h_2 some => simp [h] at some

theorem recvLineLoop_of_readByte_eq_some {os rest : List (Outcome (List UInt8))} (hb : 0 < bufsiz)
    (h : readByte os = some (c, rest)) : recvLineLoop buf p bufsiz os =
    (store buf p c).bind fun buf =>
      if c = 0 then some (recvOk, buf)
      else if c = newline then recvLineEnd buf p bufsiz
      else if c ≠ carriageReturn then recvLineLoop buf (p + 1) (bufsiz - 1) rest
      else recvLineLoop buf p bufsiz rest := by
  rw [recvLineLoop, if_pos hb]
  split
  case h_1 none => simp [h] at none
  case h_2 some =>
    rw [h] at some
    cases some
    rfl

theorem ReadsLine.nil : ReadsLine pre room [] (recvError, buf) := by
  have not : ¬Terminated [] := by simp [Terminated]
  exact ⟨by simp [not], fun h => absurd h not⟩

theorem ReadsLine.no_room : ReadsLine pre 0 bytes (recvError, buf) :=
  ⟨by simp, fun _ h => absurd h (Nat.not_lt_zero _)⟩

theorem ReadsLine.ends (h : EndsLine c) (hr : 0 < room)
    (hb : buf.take (pre.length + 1) = pre ++ [0]) :
    ReadsLine pre room (c :: bytes) (recvOk, buf) := by
  have term : Terminated (c :: bytes) := terminated_cons.mpr (.inl h)
  have none : lineText (c :: bytes) = [] := lineText_cons_of_ends h
  exact ⟨by simp [term, none, hr], fun _ _ => by simp [none, hb]⟩

theorem ReadsLine.carriageReturn {r : Nat × List UInt8} (h : ReadsLine pre room bytes r) :
    ReadsLine pre room (carriageReturn :: bytes) r := by
  have term : Terminated (Sock.carriageReturn :: bytes) ↔ Terminated bytes :=
    terminated_cons.trans <| or_iff_right <| by decide
  constructor
  case ret  => simpa [term, lineText_cons_carriageReturn] using h.ret
  case text => simpa [term, lineText_cons_carriageReturn] using h.text

theorem ReadsLine.char {r : Nat × List UInt8} (he : ¬EndsLine c) (hc : c ≠ Sock.carriageReturn)
    (h : ReadsLine (pre ++ [c]) (room - 1) bytes r) : ReadsLine pre room (c :: bytes) r := by
  have term : Terminated (c :: bytes) ↔ Terminated bytes :=
    terminated_cons.trans <| or_iff_right he
  have length : (lineText bytes).length + 1 < room ↔ (lineText bytes).length < room - 1 := by omega
  constructor
  case ret => simpa [term, lineText_cons he hc, length] using h.ret
  case text =>
    intro ht hl
    rw [lineText_cons he hc] at hl ⊢
    have text := h.text (term.mp ht) (length.mp hl)
    have place : pre.length + 1 + (lineText bytes).length + 1 =
        pre.length + ((lineText bytes).length + 1) + 1 := by omega
    simpa [place] using text

theorem toNat_sub_one (h : 0 < bufsiz) : (bufsiz - 1).toNat = bufsiz.toNat - 1 :=
  UInt64.toNat_sub_of_le _ _ (Nat.succ_le_of_lt h)

-- By induction on the outcomes. What has been read stays in front of `p`.
theorem recvLineLoop_reads (h : p + bufsiz.toNat < buf.length)
    (os : List (Outcome (List UInt8))) : ∃ r, recvLineLoop buf p bufsiz os = some r ∧
      ReadsLine (buf.take p) bufsiz.toNat (stream os) r := by
  induction hn : os.length using Nat.strong_induction_on generalizing os buf p bufsiz
  case h n ih =>
    have place : p < buf.length := by omega
    have length : (buf.take p).length = p := by simp; omega
    by_cases hb : 0 < bufsiz
    case neg =>
      have zero : bufsiz = 0 := by grind
      obtain ⟨buf', ends, -⟩ := recvLineEnd_of_lt place bufsiz
      rw [if_neg hb] at ends
      refine ⟨(recvError, buf'), ?_, ?_⟩
      case refine_1 => rw [recvLineLoop, if_neg hb, ends]
      case refine_2 => subst zero; exact .no_room
    case pos =>
      have room : 0 < bufsiz.toNat := hb
      obtain ⟨none, empty⟩ | ⟨c, rest, some, next, less⟩ := readByte_cases os
      case inl =>
        rw [recvLineLoop_of_readByte_eq_none hb none, empty]
        exact ⟨_, rfl, .nil⟩
      case inr =>
        rw [recvLineLoop_of_readByte_eq_some hb some, next]
        obtain ⟨buf', stored, same, here⟩ := store_of_lt place c
        have front : buf'.take p = buf.take p := by
          have := congrArg (List.take p) here
          simpa [List.take_take, length] using this
        rw [stored, Option.bind_some]
        split
        case isTrue zero =>
          subst zero
          exact ⟨_, rfl, .ends (.inr rfl) room (by rwa [length])⟩
        case isFalse notZero =>
          split
          case isTrue line =>
            obtain ⟨buf'', ends, last⟩ := recvLineEnd_of_lt (same ▸ place) bufsiz
            rw [if_pos hb] at ends
            rw [ends]
            refine ⟨_, rfl, .ends (.inl line) room ?_⟩
            rwa [length, ← front]
          case isFalse notLine =>
            have goes : ¬EndsLine c := not_or.mpr ⟨notLine, notZero⟩
            split
            case isTrue notCr =>
              have left := toNat_sub_one hb
              have fits : p + 1 + (bufsiz - 1).toNat < buf'.length := by omega
              obtain ⟨r, returns, reads⟩ := ih rest.length (hn ▸ less) fits rest rfl
              refine ⟨r, returns, .char goes notCr ?_⟩
              rwa [here, left] at reads
            case isFalse cr =>
              obtain rfl : c = carriageReturn := Decidable.of_not_not cr
              obtain ⟨r, returns, reads⟩ := ih rest.length (hn ▸ less) (same ▸ h) rest rfl
              exact ⟨r, returns, .carriageReturn (front ▸ reads)⟩

end Line

theorem recvLine_reads {buf : List UInt8} {bufsiz : UInt64} (hb : 0 < bufsiz)
    (hl : buf.length = bufsiz.toNat) (os : List (Outcome (List UInt8))) :
    ∃ r, recvLine buf bufsiz os = some r ∧ ReadsLine [] (bufsiz.toNat - 1) (stream os) r := by
  have left := toNat_sub_one hb
  have pos : 0 < bufsiz.toNat := hb
  have fits : 0 + (bufsiz - 1).toNat < buf.length := by omega
  have reads := recvLineLoop_reads fits os
  rwa [left, List.take_zero] at reads

-- A line that fits is returned, and all else is an error.
def LineRead (bufsiz : UInt64) (bytes : List UInt8) (r : Nat × List UInt8) : Prop :=
  if Terminated bytes ∧ (lineText bytes).length ≤ bufsiz.toNat - 1 then
    r.1 = recvOk ∧ r.2.take ((lineText bytes).length + 1) = lineText bytes ++ [0]
  else
    r.1 = recvError
  deriving Decidable

variable {buf : List UInt8} {bufsiz : UInt64}

-- There is never a write outside of the buffer. The one line that is not read as it should be is the
-- one that just fits.
theorem recvLine_iff (hb : 0 < bufsiz) (hl : buf.length = bufsiz.toNat)
    (os : List (Outcome (List UInt8))) : ∃ r, recvLine buf bufsiz os = some r ∧
      (LineRead bufsiz (stream os) r ↔
        ¬(Terminated (stream os) ∧ (lineText (stream os)).length = bufsiz.toNat - 1)) := by
  obtain ⟨r, returns, ret, text⟩ := recvLine_reads hb hl os
  refine ⟨r, returns, ?_⟩
  unfold LineRead
  by_cases term : Terminated (stream os)
  case neg => simp [term, ret]
  case pos =>
    obtain less | full | more := Nat.lt_trichotomy (lineText (stream os)).length (bufsiz.toNat - 1)
    case inl =>
      have text := text term less
      simp only [List.length_nil, Nat.zero_add, List.nil_append] at text
      simp [term, ret, less, less.le, less.ne, text]
    case inr.inl => simp [term, ret, full, recvOk, recvError]
    case inr.inr => simp [term, ret, more.not_gt, more.not_ge, more.ne']

-- "ab", a carriage return and the end of the line.
theorem recvLine_ab :
    let os : List (Outcome (List UInt8)) := [.done [97], .done [98], .done [13], .done [10]]
    ∃ r, recvLine [1, 1, 1, 1] 4 os = some r ∧
      (LineRead 4 (stream os) r ↔
        ¬(Terminated (stream os) ∧ (lineText (stream os)).length = UInt64.toNat 4 - 1)) :=
  recvLine_iff (by decide) rfl _

-- A single character and the end of its line.
theorem not_recvLine :
    recvLine [1, 1] 2 [.done [97], .done [10]] = some (recvError, [97, 0]) ∧
      ¬LineRead 2 (stream [.done [97], .done [10]]) (recvError, [97, 0]) := by
  decide +kernel

end Sock
end NetPool
