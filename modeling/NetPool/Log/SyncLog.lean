import NetPool.Log.LogText
import NetPool.Log.Rotation

namespace NetPool
namespace Logger

open LogText (Tm Output loggerWrite cstr snprintf maxLineLen emptyLine cstr_snprintf)

-- A call of logger_write, with the time that it reads and the answers of rename and fopen.
structure Call where
  level     : Int
  now       : Tm
  formatted : List UInt8
  renamed   : Bool
  opened    : Bool

-- The end of logger_write when the log is not asynchronous. What is put into the stream goes to the
-- file when it is closed.
def output (f : Files) (renamed opened : Bool) (outstr : List UInt8) : Files :=
  let f := fileSizeCheck f renamed
  if opened then f.create.append (cstr outstr) else f

def syncWrite (logLevel : Int) (f : Files) (c : Call) : Files :=
  match loggerWrite false logLevel c.level c.now c.formatted with
  | some (.fputs outstr)     => output f c.renamed c.opened outstr
  | some (.queueIn _ _) | none => f

-- The line that a call adds to the log.
def Call.line (logLevel : Int) (c : Call) : Option (List UInt8) :=
  match loggerWrite false logLevel c.level c.now c.formatted with
  | some (.fputs outstr)       => if c.opened then some (cstr outstr) else none
  | some (.queueIn _ _) | none => none

variable {f f₀ : Files} {logLevel : Int} {c : Call} {outstr : List UInt8}
  {parts : List (List (List UInt8))} {rest lines : List (List UInt8)} {line : List UInt8}

theorem fputs_or_none (logLevel : Int) (c : Call) :
    (∃ outstr, loggerWrite false logLevel c.level c.now c.formatted = some (.fputs outstr) ∧
      (cstr outstr).length < maxLineLen) ∨
    loggerWrite false logLevel c.level c.now c.formatted = none := by
  unfold loggerWrite
  split
  case isTrue  => exact .inr rfl
  case isFalse =>
    refine .inl ⟨_, rfl, ?_⟩
    refine Nat.lt_of_le_of_lt (congrArg List.length (cstr_snprintf _)).le ?_
    rw [List.length_take, maxLineLen]
    omega

-- What is written between two checks is one line.
def mostLine : Nat :=
  maxLineLen - 1

-- The files of the log are made of whole lines, in their order. What was in the log in the
-- beginning counts as a line.
structure Whole (f₀ : Files) (lines : List (List UInt8)) (parts : List (List (List UInt8)))
    (rest : List (List UInt8)) (f : Files) : Prop where
  files : f₀.Segmented mostLine (parts.map List.flatten) lines.flatten f
  lines : f₀.log.toList ++ lines = parts.flatten ++ rest
  rest  : f.content = rest.flatten

-- The state between two calls.
structure Between (f₀ : Files) (lines : List (List UInt8)) (parts : List (List (List UInt8)))
    (rest : List (List UInt8)) (f : Files) : Prop extends Whole f₀ lines parts rest f where
  small : f = f₀ ∧ parts = [] ∨ (f.Regular → f.content.length ≤ f₀.room + mostLine)

theorem Between.check (b : Between f₀ lines parts rest f) (renamed : Bool) :
    ∃ parts rest, Whole f₀ lines parts rest (fileSizeCheck f renamed) ∧
      ((fileSizeCheck f renamed).Regular →
        (fileSizeCheck f renamed).content.length ≤ f₀.room) := by
  obtain ⟨⟨files, hl, hr⟩, small⟩ := b
  obtain ⟨cut, g, small, ⟨rfl, same⟩ | ⟨rfl, gone⟩⟩ :=
    files.check (Files.checked f renamed) (by simpa using small)
  case inl =>
    refine ⟨parts, rest, ⟨by simpa using g, hl, ?_⟩, small⟩
    rwa [Files.content, same]
  case inr =>
    refine ⟨parts ++ [rest], [], ⟨?_, by simpa using hl, by simp [Files.content, gone]⟩, small⟩
    simpa [← hr] using g

theorem Between.put (b : Between f₀ lines parts rest f) (renamed : Bool)
    (hl : (cstr outstr).length < maxLineLen) : ∃ parts rest,
      Between f₀ (lines ++ [cstr outstr]) parts rest (output f renamed true outstr) := by
  obtain ⟨parts, rest, ⟨files, hw, hr⟩, small⟩ := b.check renamed
  have put := files.create.append (cstr outstr) (.inl (by simp))
  have len : (output f renamed true outstr).content =
      (fileSizeCheck f renamed).content ++ cstr outstr := by
    simp [output, Files.content]
  refine ⟨parts, rest ++ [cstr outstr], ⟨?_, ?_, ?_⟩, .inr fun r => ?_⟩
  case refine_1 => simpa [output] using put
  case refine_2 => rw [← List.append_assoc, hw, List.append_assoc]
  case refine_3 => simp [len, hr]
  case refine_4 =>
    have small := small ⟨r.fits, r.missed⟩
    rw [len, List.length_append, mostLine]
    omega

theorem Between.step (b : Between f₀ lines parts rest f) (logLevel : Int) (c : Call) :
    ∃ parts rest,
      Between f₀ (lines ++ (c.line logLevel).toList) parts rest (syncWrite logLevel f c) := by
  unfold syncWrite Call.line
  obtain ⟨outstr, hw, hl⟩ | hw := fputs_or_none logLevel c <;> rw [hw]
  case inr => exact ⟨parts, rest, by simpa using b⟩
  cases ho : c.opened
  case true  => exact b.put c.renamed hl
  case false =>
    obtain ⟨parts, rest, w, small⟩ := b.check c.renamed
    refine ⟨parts, rest, ?_, .inr fun r => (small r).trans (Nat.le_add_right _ _)⟩
    simpa [output] using w

theorem Between.run (b : Between f₀ lines parts rest f) (logLevel : Int) (calls : List Call) :
    ∃ parts rest, Between f₀ (lines ++ calls.filterMap (Call.line logLevel)) parts rest
      (calls.foldl (syncWrite logLevel) f) := by
  induction calls generalizing lines parts rest f
  case nil => exact ⟨parts, rest, by simpa using b⟩
  case cons c calls hi =>
    obtain ⟨parts, rest, b⟩ := b.step logLevel c
    obtain ⟨parts, rest, b⟩ := hi b
    refine ⟨parts, rest, ?_⟩
    cases hl : c.line logLevel <;> simpa [hl] using b

-- Calls of logger_write, one after the other, tear no line, and lose lines only with the slots that
-- are used again.
theorem sync_whole (f₀ : Files) (logLevel : Int) (calls : List Call) : ∃ parts rest,
    Whole f₀ (calls.filterMap (Call.line logLevel)) parts rest
      (calls.foldl (syncWrite logLevel) f₀) := by
  have start : Between f₀ [] [] f₀.log.toList f₀ := by
    refine ⟨⟨.refl, by simp, ?_⟩, .inl ⟨rfl, rfl⟩⟩
    cases hl : f₀.log <;> simp [Files.content, hl]
  obtain ⟨parts, rest, b⟩ := start.run logLevel calls
  exact ⟨parts, rest, by simpa using b.toWhole⟩

end Logger
end NetPool
