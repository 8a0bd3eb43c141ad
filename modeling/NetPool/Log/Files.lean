import NetPool.Log.LogText

namespace NetPool
namespace Logger

open LogText (cstr snprintf text decimal cstr_snprintf cstr_eq_self)

-- What loggger_init has stored, the number of the file that the log was renamed to last, and the
-- files by their names. How many calls of rename have failed is noted in `missed`.
structure Files where
  logPath   : List UInt8
  logName   : List UInt8
  maxKb     : Nat
  maxCnt    : Nat
  curFiles  : Nat
  disk      : List UInt8 → Option (List UInt8)
  missed    : Nat
  maxCnt_lt : maxCnt < 2 ^ 32

namespace Files

-- The string that SNPRINTF leaves in an array of 128 characters, for which it is given 127.
def stored (formatted : List UInt8) : List UInt8 :=
  cstr (snprintf (List.replicate 128 0) 127 formatted).1

-- "%s/%s.log"
def logFormat (f : Files) : List UInt8 :=
  cstr f.logPath ++ text "/" ++ cstr f.logName ++ text ".log"

def oldFile (f : Files) : List UInt8 :=
  stored f.logFormat

-- ".%d" of an unsigned number
def slotFormat (k : Nat) : List UInt8 :=
  text "." ++ decimal 1 ((k : Int).bmod (2 ^ 32))

def newFile (f : Files) (k : Nat) : List UInt8 :=
  stored (f.oldFile ++ slotFormat k)

def log (f : Files) : Option (List UInt8) :=
  f.disk f.oldFile

-- rename. The system may refuse it, and there has to be a file.
def rename (f : Files) (renamed : Bool) (oldFile newFile : List UInt8) : Files :=
  match renamed, f.disk oldFile with
  | true, some l => { f with
      disk := Function.update (Function.update f.disk oldFile none) newFile (some l) }
  | _, _ => { f with missed := f.missed + 1 }

def setLog (f : Files) (log : Option (List UInt8)) : Files :=
  { f with disk := Function.update f.disk f.oldFile log }

-- fopen makes the log if it is absent, and fclose writes at its end.
def create (f : Files) : Files :=
  f.setLog (some (f.log.getD []))

def append (f : Files) (data : List UInt8) : Files :=
  f.setLog (f.log.map (· ++ data))

end Files

-- `renamed` is the answer of rename, which file_size_check does not look at.
def fileSizeCheck (f : Files) (renamed : Bool) : Files :=
  if (f.log.getD []).length >>> 10 ≥ f.maxKb then
    let cnt := if f.curFiles ≥ f.maxCnt then 0 else f.curFiles
    { f.rename renamed f.oldFile (f.newFile (cnt + 1)) with curFiles := cnt + 1 }
  else
    f

namespace Files

variable {f : Files} {k k' : Nat} {data : List UInt8} {log : Option (List UInt8)}

-- The names are not cut off in their arrays.
def Fits (f : Files) : Prop :=
  ∀ k, 1 ≤ k → k ≤ max 1 f.maxCnt → (f.logFormat ++ slotFormat k).length ≤ 126

-- No two of the names are the same then, and no rename has failed.
structure Regular (f : Files) : Prop where
  fits   : f.Fits
  missed : f.missed = 0

@[simp]
theorem log_setLog : (f.setLog log).log = log :=
  Function.update_self ..

@[simp]
theorem log_create : f.create.log = some (f.log.getD []) :=
  log_setLog

@[simp]
theorem log_append : (f.append data).log = f.log.map (· ++ data) :=
  log_setLog

theorem zero_notMem_logFormat : 0 ∉ f.logFormat := by
  have text : 0 ∉ text "/" ∧ 0 ∉ text ".log" := by decide
  simp [logFormat, LogText.zero_notMem_cstr, text]

theorem zero_notMem_slotFormat : 0 ∉ slotFormat k := by
  have text : 0 ∉ text "." := by decide
  simp [slotFormat, LogText.zero_notMem_decimal, text]

theorem stored_eq_self {name : List UInt8} (h₀ : 0 ∉ name) (h : name.length ≤ 126) :
    stored name = name := by
  rw [stored, cstr_snprintf, cstr_eq_self h₀, List.take_of_length_le h]

theorem slotFormat_inj (hk : k < 2 ^ 32) (hk' : k' < 2 ^ 32) (h : slotFormat k = slotFormat k') :
    k = k' := by
  have h := LogText.decimal_inj (List.append_cancel_left h)
  have emod := congrArg (· % ((2 ^ 32 : Nat) : Int)) h
  simp only [Int.bmod_emod] at emod
  omega

section Fits

variable (fits : f.Fits)
include fits

theorem Fits.oldFile : f.oldFile = f.logFormat := by
  have len := fits 1 le_rfl (le_max_left _ _)
  rw [List.length_append] at len
  exact stored_eq_self zero_notMem_logFormat (by omega)

theorem Fits.newFile (h₁ : 1 ≤ k) (h₂ : k ≤ max 1 f.maxCnt) :
    f.newFile k = f.logFormat ++ slotFormat k := by
  rw [Files.newFile, fits.oldFile]
  refine stored_eq_self ?_ (fits k h₁ h₂)
  simp [zero_notMem_logFormat, zero_notMem_slotFormat]

theorem Fits.newFile_ne_oldFile (h₁ : 1 ≤ k) (h₂ : k ≤ max 1 f.maxCnt) :
    f.newFile k ≠ f.oldFile := by
  rw [fits.newFile h₁ h₂, fits.oldFile]
  simp [slotFormat, text]

theorem Fits.newFile_inj (h₁ : 1 ≤ k) (h₂ : k ≤ max 1 f.maxCnt) (h₁' : 1 ≤ k')
    (h₂' : k' ≤ max 1 f.maxCnt) (h : f.newFile k = f.newFile k') : k = k' := by
  have lt := f.maxCnt_lt
  rw [fits.newFile h₁ h₂, fits.newFile h₁' h₂'] at h
  exact slotFormat_inj (by omega) (by omega) (List.append_cancel_left h)

end Fits

end Files
end Logger
end NetPool
