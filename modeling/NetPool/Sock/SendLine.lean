import NetPool.Sock.Line

namespace NetPool
namespace Sock

-- A descriptor of a connection: what comes of the calls that receive from it and of those that send
-- to it, and what has been given to `send`.
structure Descriptor where
  reads  : List (Outcome (List UInt8))
  writes : List (Outcome Nat)
  sent   : List UInt8

namespace Descriptor

def sockReadTimeout (fd : Descriptor) (len : Nat) : Nat × Descriptor :=
  let t := readTimeout len fd.reads
  (t.ret, { fd with reads := t.rest })

def sockWriteTimeout (fd : Descriptor) (buf : List UInt8) : Nat × Descriptor :=
  let t := writeTimeout buf fd.writes
  (t.ret, { fd with writes := t.rest, sent := fd.sent ++ t.data })

end Descriptor

def error : Int := -1

-- The format and its arguments give `text`, unless `vsnprintf` fails.
def sendLine (text : Option (List UInt8)) (fd : Descriptor) : Int × Descriptor :=
  match text with
  | none      => (error, fd)
  | some text =>
    let len := text.length
    if bigPathBufLen < len then (error, fd)
    else
      let (ret, fd) := fd.sockReadTimeout len
      (if len = ret then 0 else error, fd)

-- The characters of a line, in front of its newline.
structure LineChars where
  chars : List UInt8
  short : chars.length ≤ 1000
  plain : ∀ c ∈ chars, ¬EndsLine c ∧ c ≠ carriageReturn

namespace LineChars

def line (l : LineChars) : List UInt8 :=
  l.chars ++ [newline]

-- With room for it, the line is what a reader of these bytes gets.
def Received (l : LineChars) (bytes : List UInt8) : Prop :=
  ∀ (os : List (Outcome (List UInt8))) (bufsiz : UInt64) (buf : List UInt8),
    bytes <+: stream os → l.chars.length + 2 ≤ bufsiz.toNat → buf.length = bufsiz.toNat →
    ∃ buf', recvLine buf bufsiz os = some (recvOk, buf') ∧
      buf'.take (l.chars.length + 1) = l.chars ++ [0]

-- A call that sends the line from `fd`, which is `fd'` then, keeps its promise.
structure Sent (l : LineChars) (fd fd' : Descriptor) : Prop where
  given    : fd'.sent = fd.sent ++ l.line
  received : l.Received (fd'.sent.drop fd.sent.length)

theorem lineText_line (l : LineChars) (more : List UInt8) :
    lineText (l.line ++ more) = l.chars := by
  have front : ∀ c ∈ l.chars, decide ¬EndsLine c := fun c hc => by simpa using (l.plain c hc).1
  have kept : ∀ c ∈ l.chars, decide (c ≠ carriageReturn) := fun c hc => by
    simpa using (l.plain c hc).2
  have last : EndsLine newline := .inl rfl
  rw [lineText, line, List.append_assoc, List.takeWhile_append_of_pos front]
  simpa [last] using kept

theorem received_line (l : LineChars) : l.Received l.line := by
  rintro os bufsiz buf ⟨more, hm⟩ room length
  have pos : 0 < bufsiz.toNat := by omega
  obtain ⟨⟨ret, buf'⟩, returns, reads⟩ := recvLine_reads pos length os
  have chars : lineText (stream os) = l.chars := by rw [← hm, lineText_line]
  have term : Terminated (stream os) := by
    rw [← hm]
    exact ⟨newline, by simp [line], .inl rfl⟩
  have fits : (lineText (stream os)).length < bufsiz.toNat - 1 := by rw [chars]; omega
  obtain rfl : ret = recvOk := reads.ret.trans <| if_pos ⟨term, fits⟩
  have text := reads.text term fits
  rw [chars, List.length_nil, Nat.zero_add] at text
  exact ⟨buf', returns, text⟩

-- `sock_write_timeout` sends the line when it returns its length.
theorem sent_of_sockWriteTimeout (l : LineChars) (fd : Descriptor)
    (h : (fd.sockWriteTimeout l.line).1 = l.line.length) :
    l.Sent fd (fd.sockWriteTimeout l.line).2 := by
  have same := Prod.ext_iff.mp <| writeTimeout_rounds l.line fd.writes
  have all : (writeTimeout l.line fd.writes).data = l.line :=
    same.2.trans <| (Writer.sockWriteTimeout_spec _ _).2.mp <| same.1.symm.trans h
  have given : (fd.sockWriteTimeout l.line).2.sent = fd.sent ++ l.line :=
    congrArg (fd.sent ++ ·) all
  refine ⟨given, ?_⟩
  rw [given, List.drop_left]
  exact l.received_line

-- `sock_send_line` receives instead, and gives nothing to `send`.
theorem sendLine_line (l : LineChars) (fd : Descriptor) :
    ((sendLine (some l.line) fd).1 = 0 ↔ (readChannel l.line.length).Complete fd.reads) ∧
      (sendLine (some l.line) fd).2.sent = fd.sent := by
  have pos : 0 < (readChannel l.line.length).len := by simp [readChannel, line]
  have short : ¬bigPathBufLen < l.line.length := by
    have := l.short
    simp [line, bigPathBufLen]
    omega
  rw [sendLine, if_neg short, ← Channel.run_ret_iff pos]
  refine ⟨?_, rfl⟩
  change (if l.line.length = (readTimeout l.line.length fd.reads).ret then 0 else error) = 0 ↔
    (readTimeout l.line.length fd.reads).ret = l.line.length
  split
  case isTrue h  => exact iff_of_true rfl h.symm
  case isFalse h => exact iff_of_false (by decide) (Ne.symm h)

theorem sendLine_iff (l : LineChars) (fd : Descriptor) :
    ((sendLine (some l.line) fd).1 = 0 → l.Sent fd (sendLine (some l.line) fd).2) ↔
      ¬(readChannel l.line.length).Complete fd.reads := by
  have ⟨ret, sent⟩ := sendLine_line l fd
  rw [ret]
  constructor
  case mp =>
    intro h complete
    have given := (h complete).given
    rw [sent] at given
    simp [line] at given
  case mpr => exact fun h complete => absurd complete h

-- What arrives is taken for what is sent.
theorem not_sendLine :
    let l : LineChars := ⟨[97], by simp, List.forall_mem_singleton.mpr (by decide)⟩
    let fd : Descriptor := ⟨[.done [120, 10]], [], []⟩
    (sendLine (some l.line) fd).1 = 0 ∧ ¬l.Sent fd (sendLine (some l.line) fd).2 := by
  refine ⟨by decide, fun h => ?_⟩
  have given := h.given
  revert given
  decide

end LineChars
end Sock
end NetPool
