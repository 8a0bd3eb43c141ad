import NetPool.Lib.Rotation
import NetPool.Log.Logger

namespace NetPool
namespace Logger

namespace Files

variable {f f' f₀ : Files} {segs : List (List UInt8)} {written l data : List UInt8} {most k : Nat}
  {renamed : Bool}

-- The renamed files, as slots of which the one that was filled longest ago is overwritten.
def rotation (f : Files) : Rotation (List UInt8) where
  slot k := if 1 ≤ k ∧ k ≤ max 1 f.maxCnt then f.disk (f.newFile k) else none
  cur    := f.curFiles

def content (f : Files) : List UInt8 :=
  f.log.getD []

-- The bytes that a log file may hold when file_size_check leaves it in its place.
def room (f : Files) : Nat :=
  f.maxKb * 1024 - 1

-- What is set in the beginning and never changed.
structure Same (f₀ f : Files) : Prop where
  logPath : f.logPath = f₀.logPath
  logName : f.logName = f₀.logName
  maxKb   : f.maxKb = f₀.maxKb
  maxCnt  : f.maxCnt = f₀.maxCnt

-- No file but the log and its slots has been touched.
def Others (f₀ f : Files) : Prop :=
  ∀ name, name ≠ f₀.oldFile → (∀ k, 1 ≤ k → k ≤ max 1 f₀.maxCnt → name ≠ f₀.newFile k) →
    f.disk name = f₀.disk name

theorem Same.oldFile (h : Same f₀ f) : f.oldFile = f₀.oldFile := by
  rw [Files.oldFile, Files.oldFile, logFormat, logFormat, h.logPath, h.logName]

theorem Same.newFile (h : Same f₀ f) (k : Nat) : f.newFile k = f₀.newFile k := by
  rw [Files.newFile, Files.newFile, h.oldFile]

theorem Same.trans (h : Same f₀ f) (h' : Same f f') : Same f₀ f' where
  logPath := h'.logPath.trans h.logPath
  logName := h'.logName.trans h.logName
  maxKb   := h'.maxKb.trans h.maxKb
  maxCnt  := h'.maxCnt.trans h.maxCnt

theorem content_append (h : f.log.isSome ∨ data = []) :
    (f.append data).content = f.content ++ data := by
  rw [content, content, log_append]
  cases hl : f.log
  case none => simp [h.resolve_left (by simp [hl])]
  case some => simp

theorem content_create : f.create.content = f.content := by
  simp [content]

-- Neither fopen nor fclose changes another file than the log.
theorem Fits.rotation_setLog (fits : f.Fits) (log : Option (List UInt8)) :
    (f.setLog log).rotation = f.rotation := by
  have slot (k : Nat) : (f.setLog log).rotation.slot k = f.rotation.slot k := by
    by_cases hk : 1 ≤ k ∧ k ≤ max 1 f.maxCnt
    case pos =>
      have ne : f.newFile k ≠ f.oldFile := fits.newFile_ne_oldFile hk.1 hk.2
      exact (if_pos hk).trans ((Function.update_of_ne ne _ _).trans (if_pos hk).symm)
    case neg => exact (if_neg hk).trans (if_neg hk).symm
  exact congrArg (Rotation.mk · f.curFiles) (funext slot)

theorem Others.setLog (h : Others f₀ f) (same : Same f₀ f) (log : Option (List UInt8)) :
    Others f₀ (f.setLog log) := by
  intro name old new
  rw [← h name old new]
  exact Function.update_of_ne (same.oldFile ▸ old) _ _

section Rename

variable {old new : List UInt8}

theorem rename_of_log (hl : f.disk old = some l) : f.rename true old new =
    { f with disk := Function.update (Function.update f.disk old none) new (some l) } := by
  simp [rename, hl]

-- A rename that fails changes no file.
theorem rename_of_not (h : renamed = false ∨ f.disk old = none) :
    f.rename renamed old new = { f with missed := f.missed + 1 } := by
  unfold rename
  split
  case h_1 hl => simp [hl] at h
  case h_2    => rfl

end Rename

-- What file_size_check and the writes have made of the files `f₀`: the bytes that were in the log
-- file then and those that have been written since are cut into `segs`, the oldest first, and the
-- log file. The newest of the segments are in the renamed files, unless a name has been cut off or
-- a rename has failed. `most` bounds what is written between two checks.
structure Segmented (f₀ : Files) (most : Nat) (segs : List (List UInt8)) (written : List UInt8)
    (f : Files) : Prop where
  same   : Same f₀ f
  bytes  : f₀.content ++ written = segs.flatten ++ f.content
  full   : ∀ l ∈ segs, f₀.maxKb ≤ l.length >>> 10
  others : Others f₀ f
  slots  : f.Regular → Rotation.Holds f₀.maxCnt f₀.rotation segs.reverse f.rotation
  sizes  : f.Regular → ∀ l ∈ segs, some l = f₀.log ∨ l.length ≤ f₀.room + most

theorem Segmented.refl : Segmented f₀ most [] [] f₀ where
  same   := ⟨rfl, rfl, rfl, rfl⟩
  bytes  := by simp
  full   := by simp
  others := fun _ _ _ => rfl
  slots  := fun _ => .nil rfl
  sizes  := by simp

-- fopen makes the log file, but does not change what is in it. Nothing is written into a file that
-- is not there.
theorem Segmented.setLog (g : Segmented f₀ most segs written f) {log : Option (List UInt8)}
    (h : log.getD [] = f.content ++ data) :
    Segmented f₀ most segs (written ++ data) (f.setLog log) where
  same   := ⟨g.same.logPath, g.same.logName, g.same.maxKb, g.same.maxCnt⟩
  bytes  := by
    have content : (f.setLog log).content = f.content ++ data := by rw [content, log_setLog, h]
    rw [content, ← List.append_assoc, g.bytes, List.append_assoc]
  full   := g.full
  others := g.others.setLog g.same _
  slots  := fun r => by
    have fits : f.Fits := r.fits
    rw [fits.rotation_setLog]
    exact g.slots ⟨fits, r.missed⟩
  sizes  := fun r => g.sizes ⟨r.fits, r.missed⟩

theorem Segmented.create (g : Segmented f₀ most segs written f) :
    Segmented f₀ most segs written f.create := by
  have create : Segmented f₀ most segs (written ++ []) f.create := g.setLog (by simp [content])
  rwa [List.append_nil] at create

theorem Segmented.append (g : Segmented f₀ most segs written f) (data : List UInt8)
    (h : f.log.isSome ∨ data = []) : Segmented f₀ most segs (written ++ data) (f.append data) := by
  have append := content_append h
  rw [content, log_append] at append
  exact g.setLog append

-- The slot that the next segment goes to.
def next (f : Files) : Nat :=
  Rotation.next f.maxCnt f.curFiles

theorem Fits.newFile_next (fits : f.Fits) : f.newFile f.next ≠ f.oldFile :=
  fits.newFile_ne_oldFile Rotation.next_pos Rotation.next_le

-- The files when the log `l` has been renamed to it.
def moved (f : Files) (l : List UInt8) : Files :=
  { f with
    disk     := Function.update (Function.update f.disk f.oldFile none) (f.newFile f.next) (some l)
    curFiles := f.next }

theorem same_moved : Same f (f.moved l) :=
  ⟨rfl, rfl, rfl, rfl⟩

theorem disk_moved : (f.moved l).disk =
    Function.update (Function.update f.disk f.oldFile none) (f.newFile f.next) (some l) :=
  rfl

theorem log_moved (ne : f.newFile f.next ≠ f.oldFile) : (f.moved l).log = none :=
  (Function.update_of_ne ne.symm _ _).trans (Function.update_self ..)

theorem Fits.rotation_moved (fits : f.Fits) (l : List UInt8) :
    (f.moved l).rotation = f.rotation.push f.maxCnt l := by
  have next : 1 ≤ f.next ∧ f.next ≤ max 1 f.maxCnt := ⟨Rotation.next_pos, Rotation.next_le⟩
  have slot (k : Nat) : (f.moved l).rotation.slot k =
      Function.update f.rotation.slot f.next (some l) k := by
    by_cases hk : 1 ≤ k ∧ k ≤ max 1 f.maxCnt
    case pos =>
      refine (if_pos hk).trans ?_
      rw [same_moved.newFile, disk_moved]
      by_cases hn : k = f.next
      case pos => rw [hn, Function.update_self, Function.update_self]
      case neg =>
        have new : f.newFile k ≠ f.newFile f.next :=
          fun he => hn (fits.newFile_inj hk.1 hk.2 next.1 next.2 he)
        have old : f.newFile k ≠ f.oldFile := fits.newFile_ne_oldFile hk.1 hk.2
        rw [Function.update_of_ne hn, Function.update_of_ne new, Function.update_of_ne old]
        exact (if_pos hk).symm
    case neg =>
      have hn : k ≠ f.next := fun he => hk (by rw [he]; exact next)
      rw [Function.update_of_ne hn]
      exact (if_neg hk).trans (if_neg hk).symm
  exact congrArg (Rotation.mk · f.next) (funext slot)

-- What a check makes of the files. It cuts off the log, leaves it below the limit, or renames
-- nothing: the rename fails, or the new name has been cut off to that of the log.
inductive Checked (f : Files) : Files → Prop
  | below (small : f.content.length ≤ f.room) : Checked f f
  | stuck {f' : Files} (same : Same f f') (disk : f'.disk = f.disk) (stuck : ¬f'.Regular) :
      Checked f f'
  | moved {l : List UInt8} (hl : f.log = some l) (full : f.maxKb ≤ l.length >>> 10)
      (ne : f.newFile f.next ≠ f.oldFile) : Checked f (f.moved l)

theorem fileSizeCheck_of_full (hl : f.log = some l) (full : f.maxKb ≤ l.length >>> 10) :
    fileSizeCheck f true = f.moved l := by
  have size : (f.log.getD []).length >>> 10 ≥ f.maxKb := by rwa [hl]
  rw [fileSizeCheck, if_pos size]
  dsimp only
  rw [rename_of_log hl]
  rfl

theorem checked (f : Files) (renamed : Bool) : Checked f (fileSizeCheck f renamed) := by
  by_cases hc : (f.log.getD []).length >>> 10 ≥ f.maxKb
  case neg =>
    rw [fileSizeCheck, if_neg hc]
    refine .below ?_
    rw [Nat.shiftRight_eq_div_pow] at hc
    unfold content room
    omega
  by_cases hr : renamed = false ∨ f.disk f.oldFile = none
  case pos =>
    rw [fileSizeCheck, if_pos hc]
    dsimp only
    rw [rename_of_not hr]
    exact .stuck ⟨rfl, rfl, rfl, rfl⟩ rfl fun r => Nat.succ_ne_zero _ r.missed
  case neg =>
    obtain ⟨hr, hl⟩ := not_or.mp hr
    obtain ⟨l, hl⟩ := Option.ne_none_iff_exists'.mp hl
    have full : f.maxKb ≤ l.length >>> 10 := by simpa [Files.log, hl] using hc
    rw [Bool.not_eq_false] at hr
    rw [hr, fileSizeCheck_of_full hl full]
    by_cases he : f.newFile f.next = f.oldFile
    case neg => exact .moved hl full he
    case pos =>
      refine .stuck same_moved ?_ fun r => ?_
      case refine_1 => rw [disk_moved, he, Function.update_idem, ← hl, Function.update_eq_self]
      case refine_2 =>
        have fits : f.Fits := r.fits
        exact fits.newFile_next he

-- A check cuts the log into one more segment, or leaves it below the limit.
theorem Segmented.check (g : Segmented f₀ most segs written f) (c : Checked f f')
    (small : f = f₀ ∧ segs = [] ∨ (f.Regular → f.content.length ≤ f₀.room + most)) :
    ∃ cut, Segmented f₀ most (segs ++ cut) written f' ∧
      (f'.Regular → f'.content.length ≤ f₀.room) ∧
      (cut = [] ∧ f'.log = f.log ∨ cut = [f.content] ∧ f'.log = none) := by
  obtain ⟨same, bytes, full, others, slots, sizes⟩ := g
  cases c
  case below below =>
    refine ⟨[], ?_, fun _ => ?_, .inl ⟨rfl, rfl⟩⟩
    case refine_1 => simpa using ⟨same, bytes, full, others, slots, sizes⟩
    case refine_2 => rwa [room, same.maxKb] at below
  case stuck same' disk stuck =>
    have log : f'.log = f.log := by rw [Files.log, Files.log, same'.oldFile, disk]
    refine ⟨[], ⟨same.trans same', ?_, by simpa using full, ?_, ?_, ?_⟩, ?_, .inl ⟨rfl, log⟩⟩
    case refine_1 => rw [List.append_nil, bytes, content, content, log]
    case refine_2 => exact fun name old new => (congrFun disk name).trans (others name old new)
    all_goals exact fun r => absurd r stuck
  case moved l hl full' ne =>
    have content : f.content = l := by rw [content, hl, Option.getD_some]
    have none : (f.moved l).content = [] := by rw [Files.content, log_moved ne, Option.getD_none]
    have regular (r : (f.moved l).Regular) : f.Regular := ⟨r.fits, r.missed⟩
    refine ⟨[l], ⟨?_, ?_, ?_, ?_, fun r => ?_, fun r => ?_⟩, fun _ => by simp [none],
      .inr ⟨by rw [content], log_moved ne⟩⟩
    case refine_1 => exact same.trans same_moved
    case refine_2 => simpa [none, content] using bytes
    case refine_3 =>
      rw [List.forall_mem_append, List.forall_mem_singleton]
      exact ⟨full, same.maxKb ▸ full'⟩
    case refine_4 =>
      intro name old new
      have next : name ≠ f.newFile f.next :=
        same.newFile _ ▸ new _ Rotation.next_pos (same.maxCnt ▸ Rotation.next_le)
      rw [disk_moved, Function.update_of_ne next, Function.update_of_ne (same.oldFile ▸ old)]
      exact others name old new
    case refine_5 =>
      rw [(regular r).fits.rotation_moved, List.reverse_concat, same.maxCnt]
      exact (slots (regular r)).push
    case refine_6 =>
      rw [List.forall_mem_append, List.forall_mem_singleton]
      refine ⟨sizes (regular r), ?_⟩
      obtain ⟨rfl, -⟩ | small := small
      case inl => exact .inl hl.symm
      case inr => exact .inr (content ▸ small (regular r))

end Files

variable {s s' s₀ : Logger} {f₀ : Files} {segs : List (List UInt8)} {as : List Act} {ok : Bool}

-- The characters that the writer has put since it has checked the size. It checks after each
-- 2^20 of them.
def Pc.unchecked (pc : Pc) (count : Nat) : Nat :=
  match pc with
  | .closeFull | .sizeCheck => 2 ^ 20
  | _                       => count % 2 ^ 20

def Pc.hasLog : Pc → Bool
  | .drain | .put _ | .closeFull | .sizeCheck | .close          => true
  | .start | .running | .test | .wait | .open | .reopen | .done => false

structure Rotated (f₀ : Files) (segs : List (List UInt8)) (s : Logger) : Prop where
  files : f₀.Segmented (2 ^ 20) segs s.written s.files
  log   : s.pc.hasLog → s.files.log.isSome
  start : s.pc = .start → s.files = f₀ ∧ s.file = none ∧ segs = [] ∧ s.count = 0
  size  : s.pc ≠ .start → s.files.Regular →
    s.files.content.length + (s.file.getD []).length ≤ f₀.room + s.pc.unchecked s.count
  check : s.pc = .sizeCheck ∨ s.pc = .reopen → s.file = none
  zero  : s.pc = .closeFull ∨ s.pc = .sizeCheck ∨ s.pc = .reopen → s.count % 2 ^ 20 = 0

-- What the steps other than those of the writer leave alone.
structure Untouched (s s' : Logger) : Prop where
  pc      : s'.pc = s.pc
  count   : s'.count = s.count
  file    : s'.file = s.file
  files   : s'.files = s.files
  written : s'.written = s.written

theorem untouched_or_work {a : Act} (h : s.step a = some s') :
    Untouched s s' ∨ ∃ ok, a = .work ok := by
  cases a
  case work ok => exact .inr ⟨ok, rfl⟩
  case initReturn | broadcast | exit | join =>
    obtain ⟨_, h⟩ := Option.ite_none_right_eq_some.mp h
    cases h
    exact .inl ⟨rfl, rfl, rfl, rfl, rfl⟩
  case lockQueue data =>
    obtain ⟨_, h⟩ := Option.ite_none_right_eq_some.mp h
    obtain ⟨q, _, h⟩ := Option.map_eq_some_iff.mp h
    subst h
    exact .inl ⟨rfl, rfl, rfl, rfl, rfl⟩
  all_goals
    obtain ⟨q, _, h⟩ := Option.map_eq_some_iff.mp h
    subst h
    exact .inl ⟨rfl, rfl, rfl, rfl, rfl⟩

-- queue_out only leaves the drain with a character, or to close the file.
theorem queueOut_untouched (h : s.queueOut = some s') : s'.count = s.count ∧ s'.file = s.file ∧
    s'.files = s.files ∧ s'.written = s.written ∧
    (s'.pc = s.pc ∨ s'.pc = .drain ∨ s'.pc = .close ∨ ∃ outch, s'.pc = .put outch) := by
  unfold queueOut at h
  split at h <;> obtain ⟨q, _, h⟩ := Option.map_eq_some_iff.mp h <;> subst h
  case h_1 =>
    refine ⟨rfl, rfl, rfl, rfl, ?_⟩
    dsimp only
    split
    case isTrue  => exact .inr (.inr (.inl rfl))
    case isFalse => exact .inr (.inl rfl)
  case h_2 => exact ⟨rfl, rfl, rfl, rfl, .inl rfl⟩
  case h_3 => exact ⟨rfl, rfl, rfl, rfl, .inr (.inr (.inr ⟨_, rfl⟩))⟩

theorem count_mod (h : (s.count + 1) &&& 0xfffff = 0) : (s.count + 1) % 2 ^ 20 = 0 := by
  rwa [← Nat.and_two_pow_sub_one_eq_mod]

theorem count_mod_succ (h : ¬(s.count + 1) &&& 0xfffff = 0) :
    (s.count + 1) % 2 ^ 20 = s.count % 2 ^ 20 + 1 := by
  rw [show 0xfffff = 2 ^ 20 - 1 from rfl, Nat.and_two_pow_sub_one_eq_mod] at h
  omega

theorem size_fclose (log : s.files.log.isSome) : s.fclose.files.content.length =
    s.files.content.length + (s.file.getD []).length := by
  simp only [fclose, Files.content_append (.inl log), List.length_append]

-- Where the writer neither checks the size nor is about to.
def Pc.calm : Pc → Bool
  | .running | .test | .wait | .open | .drain | .put _ | .close | .done => true
  | .start | .closeFull | .sizeCheck | .reopen                          => false

theorem Pc.unchecked_calm {pc : Pc} (h : pc.calm) (n : Nat) : pc.unchecked n = n % 2 ^ 20 := by
  cases pc <;> first | rfl | cases h

-- A step to such a place.
theorem Rotated.of_calm (files : f₀.Segmented (2 ^ 20) segs s.written s.files) (calm : s.pc.calm)
    (log : s.pc.hasLog → s.files.log.isSome)
    (size : s.files.Regular →
      s.files.content.length + (s.file.getD []).length ≤ f₀.room + s.count % 2 ^ 20) :
    Rotated f₀ segs s := by
  refine ⟨files, log, fun hp => ?_, fun _ => ?_, fun hp => ?_, fun hp => ?_⟩
  case refine_1 => simp [hp, Pc.calm] at calm
  case refine_2 => rwa [Pc.unchecked_calm calm]
  case refine_3 => obtain hp | hp := hp <;> simp [hp, Pc.calm] at calm
  case refine_4 => obtain hp | hp | hp := hp <;> simp [hp, Pc.calm] at calm

section Work

variable {outch : UInt8} (g : Rotated f₀ segs s)
include g

theorem Rotated.size_calm (calm : s.pc.calm) (r : s.files.Regular) :
    s.files.content.length + (s.file.getD []).length ≤ f₀.room + s.count % 2 ^ 20 := by
  have begun : s.pc ≠ .start := fun hp => by simp [hp, Pc.calm] at calm
  have size := g.size begun r
  rwa [Pc.unchecked_calm calm] at size

-- A step that only goes on.
theorem Rotated.goto {pc : Pc} {run : Nat} (at_calm : s.pc.calm) (calm : pc.calm)
    (log : pc.hasLog → s.pc.hasLog) : Rotated f₀ segs { s with thdRun := run, pc := pc } :=
  .of_calm g.files calm (fun hl => g.log (log hl)) (g.size_calm at_calm)

theorem Rotated.begin (hp : s.pc = .start) :
    ∃ segs', Rotated f₀ segs' { s with files := fileSizeCheck s.files ok, pc := .running } := by
  obtain ⟨hf, hfile, hs, hc⟩ := g.start hp
  obtain ⟨cut, files, small, _⟩ := g.files.check (Files.checked _ ok) (.inl ⟨hf, hs⟩)
  refine ⟨segs ++ cut, .of_calm files rfl (by simp [Pc.hasLog]) fun r => ?_⟩
  simpa [hfile] using (small r).trans (Nat.le_add_right _ _)

theorem Rotated.queueOut (hp : s.pc = .drain) (h : s.queueOut = some s') : Rotated f₀ segs s' := by
  obtain ⟨hcount, hfile, hfiles, hwritten, hpc⟩ := queueOut_untouched h
  have log := g.log (by simp [hp, Pc.hasLog])
  have size := g.size_calm (by simp [hp, Pc.calm])
  have calm : s'.pc.calm := by
    obtain hpc | hpc | hpc | ⟨_, hpc⟩ := hpc <;> simp [hpc, hp, Pc.calm]
  refine .of_calm (hwritten ▸ hfiles ▸ g.files) calm (fun _ => hfiles ▸ log) ?_
  rwa [hfiles, hfile, hcount]

theorem Rotated.fputc (hp : s.pc = .put outch) : Rotated f₀ segs { s.fputc outch with
    count := s.count + 1
    pc    := if (s.count + 1) &&& 0xfffff = 0 then .closeFull else .drain } := by
  have log := g.log (by simp [hp, Pc.hasLog])
  have size := g.size_calm (by simp [hp, Pc.calm])
  have put : ((s.fputc outch).file.getD []).length ≤ (s.file.getD []).length + 1 := by
    cases hf : s.file <;> simp [Logger.fputc, hf]
  have lt := Nat.mod_lt s.count (show 2 ^ 20 > 0 by decide)
  split
  case isTrue hc  =>
    refine ⟨g.files, fun _ => log, by simp, fun _ r => ?_, by simp, fun _ => count_mod hc⟩
    have size := size r
    simp only [Logger.fputc, Pc.unchecked] at size put ⊢
    omega
  case isFalse hc =>
    have next := count_mod_succ hc
    refine .of_calm g.files rfl (fun _ => log) fun r => ?_
    have size := size r
    simp only [Logger.fputc] at size put ⊢
    omega

theorem Rotated.close (hp : s.pc = .close) : Rotated f₀ segs { s.fclose with pc := .test } := by
  have log := g.log (by simp [hp, Pc.hasLog])
  have size := g.size_calm (by simp [hp, Pc.calm])
  refine .of_calm (g.files.append _ (.inl log)) rfl (by simp [Pc.hasLog]) fun r => ?_
  have size := size ⟨r.fits, r.missed⟩
  rw [← size_fclose log] at size
  simpa [fclose] using size

theorem Rotated.closeFull (hp : s.pc = .closeFull) :
    Rotated f₀ segs { s.fclose with pc := .sizeCheck } := by
  have log := g.log (by simp [hp, Pc.hasLog])
  refine ⟨g.files.append _ (.inl log), fun _ => ?_, by simp, fun _ r => ?_, fun _ => rfl,
    fun _ => ?_⟩
  case refine_1 => simpa [fclose] using log
  case refine_2 =>
    have size := g.size (by simp [hp]) ⟨r.fits, r.missed⟩
    rw [← size_fclose log] at size
    simpa [fclose, hp, Pc.unchecked] using size
  case refine_3 => exact g.zero (.inl hp)

theorem Rotated.sizeCheck (hp : s.pc = .sizeCheck) :
    ∃ segs', Rotated f₀ segs' { s with files := fileSizeCheck s.files ok, pc := .reopen } := by
  have log := g.log (by simp [hp, Pc.hasLog])
  have size := g.size (by simp [hp])
  have hfile := g.check (.inl hp)
  obtain ⟨cut, files, small, _⟩ :=
    g.files.check (Files.checked _ ok) (.inr (by simpa [hfile, hp, Pc.unchecked] using size))
  refine ⟨segs ++ cut, files, by simp [Pc.hasLog], by simp, fun _ r => ?_, fun _ => hfile,
    fun _ => ?_⟩
  case refine_1 => simpa [hfile] using (small r).trans (Nat.le_add_right _ _)
  case refine_2 => exact g.zero (.inr (.inl hp))

-- fopen, also where the writer opens the file again.
theorem Rotated.open (hp : s.pc = .open ∨ s.pc = .reopen) :
    Rotated f₀ segs (if ok then { s.fopen with pc := .drain } else { s with pc := .test }) := by
  have size (r : s.files.Regular) :
      s.files.content.length + (s.file.getD []).length ≤ f₀.room + s.count % 2 ^ 20 := by
    obtain hp | hp := hp
    case inl => exact g.size_calm (by simp [hp, Pc.calm]) r
    case inr => simpa [hp, Pc.unchecked] using g.size (by simp [hp]) r
  split
  case isTrue  =>
    refine .of_calm g.files.create rfl (fun _ => by simp [fopen]) fun r => ?_
    have size := size ⟨r.fits, r.missed⟩
    simp only [fopen, Files.content_create, Option.getD_some, List.length_nil] at size ⊢
    omega
  case isFalse => exact .of_calm g.files rfl (by simp [Pc.hasLog]) size

theorem Rotated.work (h : s.work ok = some s') : ∃ segs', Rotated f₀ segs' s' := by
  unfold Logger.work at h
  split at h <;> rename_i hp
  case h_6  => exact ⟨segs, g.queueOut hp h⟩
  case h_12 => cases h
  all_goals cases h
  case h_1        => exact g.begin hp
  case h_2 | h_4  => refine ⟨segs, g.goto ?_ ?_ ?_⟩ <;> simp [hp, Pc.calm, Pc.hasLog]
  case h_3        =>
    refine ⟨segs, g.goto (by simp [hp, Pc.calm]) ?_ ?_⟩
    all_goals split <;> simp [Pc.calm, Pc.hasLog]
  case h_5        => exact ⟨segs, g.open (.inl hp)⟩
  case h_7        => exact ⟨segs, g.fputc hp⟩
  case h_8        => exact ⟨segs, g.closeFull hp⟩
  case h_9        => exact g.sizeCheck hp
  case h_10       => exact ⟨segs, g.open (.inr hp)⟩
  case h_11       => exact ⟨segs, g.close hp⟩

end Work

theorem Rotated.frame (g : Rotated f₀ segs s) (u : Untouched s s') : Rotated f₀ segs s' := by
  obtain ⟨hpc, hcount, hfile, hfiles, hwritten⟩ := u
  obtain ⟨files, log, start, size, check, zero⟩ := g
  rw [← hpc, ← hfiles] at log
  rw [← hpc, ← hfile, ← hfiles, ← hcount] at start size
  rw [← hpc, ← hfile] at check
  rw [← hpc, ← hcount] at zero
  exact ⟨hwritten ▸ hfiles ▸ files, log, start, size, check, zero⟩

theorem rotated_of_run (h₀ : logger.init s₀) (h : logger.run s₀ as = some s) :
    ∃ segs, Rotated s₀.files segs s := by
  refine System.invariant_of_run (I := fun s => ∃ segs, Rotated s₀.files segs s) ?_ ?_ h
  case refine_1 =>
    intro s a s' ⟨segs, g⟩ hs
    obtain u | ⟨ok, rfl⟩ := untouched_or_work hs
    case inl => exact ⟨segs, g.frame u⟩
    case inr => exact g.work hs
  case refine_2 =>
    refine ⟨[], ?_, ?_, fun _ => ⟨rfl, h₀.file, rfl, h₀.count⟩, ?_, ?_, ?_⟩
    case refine_1 => exact h₀.written ▸ .refl
    all_goals simp [h₀.pc, Pc.hasLog]

-- All that the log has held and all that logger_write has put into the queue since is found, in its
-- order, in the files that file_size_check has cut off, the log file, the stream of the writer and
-- the ring. When no name is cut off and no rename fails, the renamed files are the newest of those
-- that were cut off.
structure Archived (f₀ : Files) (cutOff : List (List UInt8)) (s : Logger) : Prop where
  bytes  : f₀.content ++ s.queue.stored = cutOff.flatten ++ s.files.content ++ s.file.getD [] ++
    s.pc.inHand ++ s.queue.ring.contents
  full   : ∀ l ∈ cutOff, f₀.maxKb ≤ l.length >>> 10
  others : f₀.Others s.files
  slots  : s.files.Regular →
    Rotation.Holds f₀.maxCnt f₀.rotation cutOff.reverse s.files.rotation
  sizes  : s.files.Regular → ∀ l ∈ cutOff, some l = f₀.log ∨ l.length ≤ f₀.room + 2 ^ 20
  log    : s.files.Regular → s.pc ≠ .start →
    s.files.content.length + (s.file.getD []).length ≤ f₀.room + 2 ^ 20

theorem archived (h₀ : logger.init s₀) (h : logger.run s₀ as = some s) :
    ∃ cutOff, Archived s₀.files cutOff s := by
  have k : Kept s := .of_reachable (.of_run (.init h₀) h)
  obtain ⟨segs, g⟩ := rotated_of_run h₀ h
  obtain ⟨_, bytes, full, others, slots, sizes⟩ := g.files
  refine ⟨segs, ?_, full, others, slots, sizes, fun r hp => (g.size hp r).trans ?_⟩
  case refine_1 =>
    rw [← LogQueue.returned_contents k.queue, ← k.bytes]
    simp only [← List.append_assoc, bytes]
  case refine_2 =>
    have lt := Nat.mod_lt s.count (show 2 ^ 20 > 0 by decide)
    unfold Pc.unchecked
    split <;> omega

section Sample

-- A call of logger_write with one byte, after which the writer takes the byte out of the ring.
def oneByte : List Act :=
  [.lockQueue [7], .fullTest, .store, .rearUpdate, .fullTest, .broadcast, .work true, .work true,
   .work true, .work true]

-- `n` bytes have been put into the ring, and the stream holds the last `m` of them.
structure Passed (m n : Nat) (s : Logger) : Prop where
  app    : s.app = .running
  lock   : s.queue.lock = none
  out    : s.queue.out = .test
  ring   : s.queue.ring.front = s.queue.ring.rear ∧ s.queue.ring.rear < ringSize
  stored : s.queue.stored.length = n
  count  : s.count = n
  file   : ∃ b, s.file = some b ∧ b.length = m
  log    : s.files.log = some []
  files  : s.files.Regular ∧ s.files.maxKb = 1

theorem Passed.turn {m n : Nat} (h : Passed m n s) (hp : s.pc = .drain) :
    ∃ s', logger.run s oneByte = some s' ∧ Passed (m + 1) (n + 1) s' ∧
      s'.pc = if (n + 1) &&& 0xfffff = 0 then .closeFull else .drain := by
  obtain ⟨ha, hl, ho, ⟨hr, lt⟩, hs, hc, ⟨b, hb, hm⟩, hlog, hf⟩ := h
  have next : s.queue.ring.rear ≠ (s.queue.ring.rear + 1) % ringSize := by
    rw [Ring.wrap (by omega)]
    unfold ringSize at lt ⊢
    split <;> omega
  have run : logger.run s oneByte = some { s with
      queue := { s.queue with
        ring     := (s.queue.ring.store 7).publish.release
        calls    := s.queue.calls ++ [⟨[7], 1, [7], none⟩]
        returned := s.queue.returned ++ [7] }
      count := s.count + 1
      file  := some (b ++ [7])
      pc    := if (s.count + 1) &&& 0xfffff = 0 then .closeFull else .drain } := by
    simp [oneByte, logger, Logger.step, Logger.lockQueue, ha, LogQueue.lockQueue, hl,
      Logger.fullTest, LogQueue.fullTest, Ring.isFull, hr, next, LogQueue.store,
      LogQueue.rearUpdate, Ring.store, Ring.publish, broadcast, Logger.work, hp, Logger.queueOut, ho,
      LogQueue.emptyTest, Ring.isEmpty, LogQueue.load, LogQueue.frontUpdate, Ring.release,
      Logger.fputc, hb]
  refine ⟨_, run, ⟨ha, hl, ho, ?_, ?_, ?_, ⟨b ++ [7], rfl, ?_⟩, hlog, hf⟩, by rw [hc]⟩
  case refine_1 =>
    refine ⟨by simp [Ring.store, Ring.publish, Ring.release, hr], Nat.mod_lt _ ?_⟩
    exact Nat.zero_lt_of_lt lt
  case refine_2 => simpa [LogQueue.stored, LogQueue.entered, hl] using hs
  case refine_3 => rw [hc]
  case refine_4 => simp [hm]

-- The writer reaches its loop, and bytes are logged one after the other.
theorem Passed.turns {n : Nat} (h : Passed 0 0 s) (hp : s.pc = .drain) (hn : n < 2 ^ 20) :
    ∃ as s', logger.run s as = some s' ∧ Passed n n s' ∧ s'.pc = .drain := by
  induction n
  case zero => exact ⟨[], s, rfl, h, hp⟩
  case succ n hi =>
    obtain ⟨as, s', run, p, hp'⟩ := hi (by omega)
    obtain ⟨s'', run', p', hp''⟩ := p.turn hp'
    refine ⟨as ++ oneByte, s'', by rw [System.run_append, run]; exact run', p', ?_⟩
    rw [hp'', if_neg]
    intro hz
    rw [show 0xfffff = 2 ^ 20 - 1 from rfl, Nat.and_two_pow_sub_one_eq_mod,
      Nat.mod_eq_of_lt (by omega)] at hz
    omega

-- The stream is closed, and the log cut off and opened again.
theorem Passed.cut {m n : Nat} (h : Passed m n s) (hp : s.pc = .closeFull) (hm : 1024 ≤ m) :
    ∃ s', logger.run s [.work true, .work true, .work true] = some s' ∧ Passed 0 n s' ∧
      s'.pc = .drain := by
  obtain ⟨ha, hl, ho, hr, hs, hc, ⟨b, hb, hm'⟩, hlog, hf⟩ := h
  have log : (s.files.append b).log = some b := by simp [hlog]
  have full : (s.files.append b).maxKb ≤ b.length >>> 10 := by
    change s.files.maxKb ≤ _
    rw [hf.2, hm', Nat.shiftRight_eq_div_pow]
    omega
  have run : logger.run s [.work true, .work true, .work true] = some { s with
      pc      := .drain
      file    := some []
      files   := ((s.files.append b).moved b).create
      written := s.written ++ b } := by
    rw [← Files.fileSizeCheck_of_full log full]
    simp [logger, Logger.step, Logger.work, hp, fclose, fopen, hb]
  have fits : (s.files.append b).Fits := hf.1.fits
  refine ⟨_, run, ⟨ha, hl, ho, hr, hs, hc, ⟨[], rfl, rfl⟩, ?_, ⟨⟨fits, hf.1.missed⟩, hf.2⟩⟩, rfl⟩
  rw [Files.log_create, Files.log_moved fits.newFile_next, Option.getD_none]

def small : Logger :=
  { fresh with files := { noFiles with maxKb := 1 } }

theorem small_init : logger.init small :=
  ⟨fresh_init.queue, rfl, rfl, rfl, rfl, rfl, rfl, rfl⟩

theorem small_fits : small.files.Fits := by
  intro k h₁ h₂
  have h₂ : k ≤ 8 := h₂
  interval_cases k <;> decide

theorem passed_small : ∃ s, logger.run small [.work true, .work true, .initReturn, .work true,
    .work true, .work true] = some s ∧ Passed 0 0 s ∧ s.pc = .drain := by
  refine ⟨{ small with
    thdRun := 2
    pc     := .drain
    file   := some []
    files  := small.files.create
    app    := .running }, rfl, ⟨rfl, rfl, rfl, ⟨rfl, ?_⟩, rfl, rfl, ⟨[], rfl, rfl⟩, ?_, ?_⟩, rfl⟩
  case refine_1 => decide
  case refine_2 => exact Files.log_create
  case refine_3 => exact ⟨⟨small_fits, rfl⟩, rfl⟩

-- 2^20 bytes are logged, which are cut off, and one more.
theorem archived_small : ∃ as s cutOff, logger.run small as = some s ∧
    (s.files.Regular ∧ s.queue.stored.length = 2 ^ 20 + 1 ∧ s.pc = .drain) ∧
    cutOff.flatten.length = 2 ^ 20 ∧ Archived small.files cutOff s := by
  obtain ⟨s₁, run₁, p₁, hp₁⟩ := passed_small
  obtain ⟨as, s₂, run₂, p₂, hp₂⟩ := p₁.turns hp₁ (show 2 ^ 20 - 1 < 2 ^ 20 by decide)
  obtain ⟨s₃, run₃, p₃, hp₃⟩ := p₂.turn hp₂
  obtain ⟨s₄, run₄, p₄, hp₄⟩ := p₃.cut hp₃ (by decide)
  obtain ⟨s₅, run₅, p₅, hp₅⟩ := p₄.turn hp₄
  have run : logger.run small ([.work true, .work true, .initReturn, .work true, .work true,
      .work true] ++ as ++ oneByte ++ [.work true, .work true, .work true] ++ oneByte) =
      some s₅ := by
    simp only [System.run_append, run₁, run₂, run₃, run₄, run₅, Option.bind_some]
  obtain ⟨cutOff, g⟩ := archived small_init run
  have hp₅ : s₅.pc = .drain := hp₅.trans (if_neg (by decide))
  obtain ⟨b, hb, hm⟩ := p₅.file
  have ring : s₅.queue.ring.contents = [] := by
    have wf : s₅.queue.ring.Wf := ⟨p₅.ring.1 ▸ p₅.ring.2, p₅.ring.2⟩
    exact wf.isEmpty_iff.mp (beq_iff_eq.mpr p₅.ring.1)
  have bytes := congrArg List.length g.bytes
  have start : small.files.content = [] := rfl
  have content : s₅.files.content = [] := by rw [Files.content, p₅.log, Option.getD_some]
  simp only [start, content, hb, hp₅, Pc.inHand, ring, List.length_append, p₅.stored,
    Option.getD_some, List.length_nil, hm] at bytes
  exact ⟨_, _, cutOff, run, ⟨p₅.files.1, p₅.stored, hp₅⟩, by omega, g⟩

end Sample

end Logger
end NetPool
