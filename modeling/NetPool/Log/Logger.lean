import NetPool.Log.Files
import NetPool.Log.LogQueue

namespace NetPool
namespace Logger

-- The steps of async_fputs.
inductive Pc
  | start
  | running
  | test
  | wait
  | open
  | drain
  | put (outch : UInt8)
  | closeFull
  | sizeCheck
  | reopen
  | close
  | done
  deriving DecidableEq

-- The application: inside loggger_init, between the two calls, inside loggger_exit, after it.
inductive App
  | init
  | running
  | joining
  | exited
  deriving DecidableEq

end Logger

open Logger in
-- `file` is the stream of the writer with what it has not flushed, `callers` counts the calls of
-- logger_write that are past the queue. What the writer has flushed to the log file, under whatever
-- name it is now, is noted in `written`.
structure Logger where
  queue   : LogQueue
  thdRun  : Nat
  pc      : Pc
  count   : Nat
  file    : Option (List UInt8)
  files   : Files
  written : List UInt8
  callers : Nat
  app     : App

namespace Logger

variable {s s' : Logger} {ok : Bool}

def fopen (s : Logger) : Logger :=
  { s with
    file  := some []
    files := s.files.create }

def fputc (s : Logger) (ch : UInt8) : Logger :=
  { s with file := s.file.map (· ++ [ch]) }

def fclose (s : Logger) : Logger :=
  { s with
    file    := none
    files   := s.files.append (s.file.getD [])
    written := s.written ++ s.file.getD [] }

-- queue_out, step by step. -1 ends the inner loop.
def queueOut (s : Logger) : Option Logger :=
  match s.queue.out with
  | .test => s.queue.emptyTest.map fun q =>
      { s with
        queue := q
        pc    := if q.out = .test then .close else .drain }
  | .load => s.queue.load.map ({ s with queue := · })
  | .update outch => s.queue.frontUpdate.map fun q =>
      { s with
        queue := q
        pc    := .put outch }

-- The writer; `ok` is the answer of fopen, and of rename where the size is checked.
-- pthread_cond_timedwait may come back at any time.
def work (s : Logger) (ok : Bool) : Option Logger :=
  match s.pc with
  | .start     => some { s with
      files := fileSizeCheck s.files ok
      pc    := .running }
  | .running   => some { s with
      thdRun := 2
      pc     := .test }
  | .test      => some { s with pc := if s.thdRun = 0 then .done else .wait }
  | .wait      => some { s with pc := .open }
  | .open      => some (if ok then { s.fopen with pc := .drain } else { s with pc := .test })
  | .drain     => s.queueOut
  | .put outch => some { s.fputc outch with
      count := s.count + 1
      pc    := if (s.count + 1) &&& 0xfffff = 0 then .closeFull else .drain }
  | .closeFull => some { s.fclose with pc := .sizeCheck }
  | .sizeCheck => some { s with
      files := fileSizeCheck s.files ok
      pc    := .reopen }
  -- On failure the loop is left with a null stream, which is not closed.
  | .reopen    => some (if ok then { s.fopen with pc := .drain } else { s with pc := .test })
  | .close     => some { s.fclose with pc := .test }
  | .done      => none

-- logger_write

-- No write comes after the call of loggger_exit.
def lockQueue (s : Logger) (data : List UInt8) : Option Logger :=
  if s.app = .running then (s.queue.lockQueue data).map ({ s with queue := · }) else none

def fullTest (s : Logger) : Option Logger :=
  s.queue.fullTest.map fun q =>
    { s with
      queue   := q
      callers := if q.lock.isNone then s.callers + 1 else s.callers }

-- pthread_cond_broadcast, after which the call returns.
def broadcast (s : Logger) : Option Logger :=
  if 0 < s.callers then some { s with callers := s.callers - 1 } else none

-- loggger_init returns once it sees that the writer runs.
def initReturn (s : Logger) : Option Logger :=
  if s.app = .init ∧ s.thdRun = 2 then some { s with app := .running } else none

-- loggger_exit is called when all calls of logger_write have returned.
def exit (s : Logger) : Option Logger :=
  if s.app = .running ∧ s.queue.lock = none ∧ s.callers = 0 then
    some { s with
      thdRun := 0
      app    := .joining }
  else
    none

def join (s : Logger) : Option Logger :=
  if s.app = .joining ∧ s.pc = .done then some { s with app := .exited } else none

inductive Act
  | initReturn
  | lockQueue (data : List UInt8)
  | fullTest
  | store
  | rearUpdate
  | broadcast
  | exit
  | join
  | work (ok : Bool)

def step (s : Logger) : Act → Option Logger
  | .initReturn     => s.initReturn
  | .lockQueue data => s.lockQueue data
  | .fullTest       => s.fullTest
  | .store          => s.queue.store.map ({ s with queue := · })
  | .rearUpdate     => s.queue.rearUpdate.map ({ s with queue := · })
  | .broadcast      => s.broadcast
  | .exit           => s.exit
  | .join           => s.join
  | .work ok        => s.work ok

-- loggger_init has set the queue up and created the writer.
structure Init (s : Logger) : Prop where
  queue   : s.queue.Init
  thdRun  : s.thdRun = 1
  pc      : s.pc = .start
  count   : s.count = 0
  file    : s.file = none
  written : s.written = []
  callers : s.callers = 0
  app     : s.app = .init

end Logger

def logger : System Logger Logger.Act where
  init := Logger.Init
  step := Logger.step

namespace Logger

variable {s s' : Logger} {q : LogQueue} {a : LogQueue.Act} {ok : Bool} {n : Nat}

def Pc.hasFile : Pc → Bool
  | .drain | .put _ | .closeFull | .close                                      => true
  | .start | .running | .test | .wait | .open | .sizeCheck | .reopen | .done => false

-- The byte that the writer has taken out of the queue and not put into the stream.
def Pc.inHand : Pc → List UInt8
  | .put outch => [outch]
  | _          => []

-- The writer is between a loop test that has let it on and the empty test that ends its drain.
def Pc.inRound : Pc → Bool
  | .wait | .open | .drain | .put _ | .closeFull | .sizeCheck | .reopen => true
  | .start | .running | .test | .close | .done                          => false

def Pc.begun : Pc → Bool
  | .start | .running => false
  | _                 => true

def App.stopping : App → Bool
  | .joining | .exited => true
  | _                  => false

structure Kept (s : Logger) : Prop where
  queue   : logQueue.Reachable s.queue
  bytes   : s.written ++ s.file.getD [] ++ s.pc.inHand = s.queue.returned
  file    : s.file.isSome = s.pc.hasFile
  out     : s.queue.out ≠ .test → s.pc = .drain
  begun   : s.thdRun = 2 ∨ s.app ≠ .init → s.pc.begun
  flag    : s.thdRun = 0 ↔ s.app.stopping
  done    : s.pc = .done → s.app.stopping
  stopped : s.app.stopping → s.queue.lock = none
  exited  : s.app = .exited → s.pc = .done

theorem kept_init (h : s.Init) : Kept s where
  queue   := .init h.queue
  bytes   := by simp [h.written, h.file, h.pc, Pc.inHand, h.queue.returned]
  file    := by simp [h.file, h.pc, Pc.hasFile]
  out     := by simp [h.queue.out]
  begun   := by simp [h.thdRun, h.app]
  flag    := by simp [h.thdRun, h.app, App.stopping]
  done    := by simp [h.pc]
  stopped := by simp [h.app, App.stopping]
  exited  := by simp [h.app]

theorem Kept.write (k : Kept s) (live : ¬s.app.stopping) (p : a.Producer)
    (h : logQueue.step s.queue a = some q) : Kept { s with queue := q, callers := n } where
  queue   := System.Reach.step k.queue trivial h
  bytes   := k.bytes.trans (p.frame h).1.symm
  file    := k.file
  out     := by
    rw [(p.frame h).2]
    exact k.out
  begun   := k.begun
  flag    := k.flag
  done    := k.done
  stopped := fun hs => absurd hs live
  exited  := k.exited

-- A call of queue_in is under way only before the exit.
theorem Kept.live (k : Kept s) (p : a.Producer) (ha : ∀ data, a ≠ .lockQueue data)
    (h : s.queue.step a = some q) : ¬s.app.stopping := by
  intro hs
  have hl := k.stopped hs
  cases p
  case lockQueue data => exact ha data rfl
  all_goals simp [LogQueue.step, LogQueue.fullTest, LogQueue.store, LogQueue.rearUpdate, hl] at h

theorem Kept.queueOut (k : Kept s) (hp : s.pc = .drain) (h : s.queueOut = some s') : Kept s' := by
  obtain ⟨queue, bytes, file, out, begun, flag, done, stopped, exited⟩ := k
  have next {a q} (h : logQueue.step s.queue a = some q) := System.Reach.step queue trivial h
  unfold Logger.queueOut at h
  split at h
  case h_1 ho =>
    obtain ⟨q, hq, h⟩ := Option.map_eq_some_iff.mp h
    have r := next (a := .emptyTest) hq
    simp only [LogQueue.emptyTest, ho, Option.some.injEq] at hq
    subst h hq
    by_cases he : s.queue.ring.isEmpty <;> constructor <;>
      simp_all [Pc.inHand, Pc.hasFile, Pc.begun]
  case h_2 ho =>
    obtain ⟨q, hq, h⟩ := Option.map_eq_some_iff.mp h
    have r := next (a := .load) hq
    simp only [LogQueue.load, ho, Option.some.injEq] at hq
    subst h hq
    constructor <;> simp_all [Pc.inHand, Pc.hasFile, Pc.begun]
  case h_3 ho =>
    obtain ⟨q, hq, h⟩ := Option.map_eq_some_iff.mp h
    have r := next (a := .frontUpdate) hq
    simp only [LogQueue.frontUpdate, ho, Option.some.injEq] at hq
    subst h hq
    constructor <;> simp_all [Pc.inHand, Pc.hasFile, Pc.begun]

theorem Kept.work (k : Kept s) (h : s.work ok = some s') : Kept s' := by
  have ⟨queue, bytes, file, out, begun, flag, done, stopped, exited⟩ := k
  unfold Logger.work at h
  split at h
  case h_6 hp => exact k.queueOut hp h
  case h_2 hp =>
    cases h
    constructor <;> simp_all [Pc.inHand, Pc.hasFile, Pc.begun, App.stopping]
  case h_7 hp =>
    cases h
    have hf : s.file.isSome := by rw [file, hp, Pc.hasFile]
    have ⟨l, hf⟩ := Option.isSome_iff_exists.mp hf
    split <;> constructor <;> simp_all [Pc.inHand, Pc.hasFile, Pc.begun, fputc]
  case h_12 => cases h
  all_goals
    rename_i hp
    cases h
    try split
    all_goals constructor <;> simp_all [Pc.inHand, Pc.hasFile, Pc.begun, fopen, fclose]

theorem Kept.step {a : Act} (k : Kept s) (h : s.step a = some s') : Kept s' := by
  have ⟨queue, bytes, file, out, begun, flag, done, stopped, exited⟩ := k
  cases a
  case initReturn =>
    have ⟨hc, h⟩ := Option.ite_none_right_eq_some.mp h
    cases h
    constructor <;> simp_all [App.stopping]
  case lockQueue data =>
    have ⟨hr, h⟩ := Option.ite_none_right_eq_some.mp h
    have ⟨q, hq, h⟩ := Option.map_eq_some_iff.mp h
    subst h
    exact k.write (by simp [hr, App.stopping]) (.lockQueue data) hq
  case fullTest =>
    have ⟨q, hq, h⟩ := Option.map_eq_some_iff.mp h
    subst h
    exact k.write (k.live .fullTest nofun hq) .fullTest hq
  case store =>
    have ⟨q, hq, h⟩ := Option.map_eq_some_iff.mp h
    subst h
    exact k.write (k.live .store nofun hq) .store hq
  case rearUpdate =>
    have ⟨q, hq, h⟩ := Option.map_eq_some_iff.mp h
    subst h
    exact k.write (k.live .rearUpdate nofun hq) .rearUpdate hq
  case broadcast =>
    have ⟨hc, h⟩ := Option.ite_none_right_eq_some.mp h
    cases h
    exact ⟨queue, bytes, file, out, begun, flag, done, stopped, exited⟩
  case exit =>
    have ⟨hc, h⟩ := Option.ite_none_right_eq_some.mp h
    cases h
    constructor <;> simp_all [App.stopping]
  case join =>
    have ⟨hc, h⟩ := Option.ite_none_right_eq_some.mp h
    cases h
    constructor <;> simp_all [App.stopping]
  case work ok => exact k.work h

theorem Kept.of_reachable (h : logger.Reachable s) : Kept s :=
  h.invariant (fun _ => kept_init) fun _ _ _ k _ hs => k.step hs

-- The writer with the flag at 0: it does not begin a round, and leaves one on an empty ring or when
-- fopen fails.
inductive Stopping (s s' : Logger) (ok : Bool) : Prop
  | stay  (pc : s.pc.inRound) (pc' : s'.pc.inRound)
  | leave (pc : s.pc.inRound) (ring : s'.queue.ring.isEmpty)
  | fail  (pc : s.pc = .open ∨ s.pc = .reopen) (ok : ok = false)
  | stop  (pc : ¬s.pc.inRound) (pc' : ¬s'.pc.inRound) (queue : s'.queue = s.queue)

theorem queueOut_stopping (hp : s.pc = .drain) (h : s.queueOut = some s') : Stopping s s' ok := by
  unfold queueOut at h
  split at h
  case h_1 ho =>
    obtain ⟨q, hq, h⟩ := Option.map_eq_some_iff.mp h
    simp only [LogQueue.emptyTest, ho, Option.some.injEq] at hq
    subst h
    split at hq <;> subst hq
    case isTrue he => exact .leave (by simp [hp, Pc.inRound]) he
    case isFalse   => exact .stay (by simp [hp, Pc.inRound]) (by simp [Pc.inRound])
  case h_2 =>
    obtain ⟨q, _, h⟩ := Option.map_eq_some_iff.mp h
    subst h
    exact .stay (by simp [hp, Pc.inRound]) (by simp [hp, Pc.inRound])
  case h_3 =>
    obtain ⟨q, _, h⟩ := Option.map_eq_some_iff.mp h
    subst h
    exact .stay (by simp [hp, Pc.inRound]) (by simp [Pc.inRound])

theorem work_stopping (k : Kept s) (hz : s.thdRun = 0) (h : s.work ok = some s') :
    Stopping s s' ok := by
  have hb : s.pc.begun := k.begun <| .inr fun ha => by
    have hs := k.flag.mp hz
    simp [ha, App.stopping] at hs
  unfold work at h
  split at h
  case h_6 hp => exact queueOut_stopping hp h
  case h_12   => cases h
  all_goals
    rename_i hp
    cases h
  case h_1 | h_2 => simp [hp, Pc.begun] at hb
  case h_3 | h_11 => exact .stop (by simp [hp, Pc.inRound]) (by simp [hz, Pc.inRound]) rfl
  case h_5 | h_10 =>
    split
    case isTrue     => exact .stay (by simp [hp, Pc.inRound]) (by simp [Pc.inRound])
    case isFalse ho => exact .fail (by simp [hp]) (by simpa using ho)
  case h_7 =>
    refine .stay (by simp [hp, Pc.inRound]) ?_
    dsimp only
    split <;> rfl
  all_goals exact .stay (by simp [hp, Pc.inRound]) (by simp [Pc.inRound])

theorem work_thdRun (h : s.work ok = some s') : s'.thdRun = s.thdRun ∨ s'.thdRun = 2 := by
  unfold work at h
  split at h
  case h_6 =>
    unfold queueOut at h
    split at h <;> have ⟨q, hq, h⟩ := Option.map_eq_some_iff.mp h <;> subst h <;> exact .inl rfl
  case h_12 => cases h
  all_goals
    cases h
    first
    | exact .inl rfl
    | exact .inr rfl
    | split <;> exact .inl rfl

-- After the exit only the writer moves.
theorem zero_cases {a : Act} (k : Kept s) (h : s.step a = some s') (hz : s'.thdRun = 0) :
    (a = .exit ∧ s'.pc = s.pc ∧ s'.queue = s.queue) ∨
    s.thdRun = 0 ∧ (s'.pc = s.pc ∧ s'.queue = s.queue ∨ ∃ ok, a = .work ok) := by
  have no_write {a q} (p : a.Producer) (ha : ∀ data, a ≠ .lockQueue data)
      (h : s.queue.step a = some q) : s.thdRun ≠ 0 :=
    fun hz => k.live p ha h (k.flag.mp hz)
  cases a
  case exit =>
    have ⟨_, h⟩ := Option.ite_none_right_eq_some.mp h
    cases h
    exact .inl ⟨rfl, rfl, rfl⟩
  case initReturn =>
    have ⟨⟨_, hc⟩, h⟩ := Option.ite_none_right_eq_some.mp h
    cases h
    exact absurd (hc.symm.trans hz) (by decide)
  case lockQueue data =>
    have ⟨hr, h⟩ := Option.ite_none_right_eq_some.mp h
    have ⟨q, hq, h⟩ := Option.map_eq_some_iff.mp h
    subst h
    have hs := k.flag.mp hz
    simp [hr, App.stopping] at hs
  case fullTest =>
    have ⟨q, hq, h⟩ := Option.map_eq_some_iff.mp h
    subst h
    exact absurd hz (no_write .fullTest nofun hq)
  case store =>
    have ⟨q, hq, h⟩ := Option.map_eq_some_iff.mp h
    subst h
    exact absurd hz (no_write .store nofun hq)
  case rearUpdate =>
    have ⟨q, hq, h⟩ := Option.map_eq_some_iff.mp h
    subst h
    exact absurd hz (no_write .rearUpdate nofun hq)
  case broadcast =>
    have ⟨_, h⟩ := Option.ite_none_right_eq_some.mp h
    cases h
    exact .inr ⟨hz, .inl ⟨rfl, rfl⟩⟩
  case join =>
    have ⟨_, h⟩ := Option.ite_none_right_eq_some.mp h
    cases h
    exact .inr ⟨hz, .inl ⟨rfl, rfl⟩⟩
  case work ok =>
    refine .inr ⟨?_, .inr ⟨ok, rfl⟩⟩
    have hw := work_thdRun h
    omega

-- fopen succeeds, rename need not. The exit finds the ring empty, or the writer in a round that
-- still has to find it empty.
def Orderly (s : Logger) : Act → Prop
  | .exit    => s.pc.inRound ∨ s.queue.ring.isEmpty
  | .work ok => s.pc = .open ∨ s.pc = .reopen → ok
  | _        => True

-- Once the writer can only stop, the ring is empty.
def Drained (s : Logger) : Prop :=
  s.thdRun = 0 → ¬s.pc.inRound → s.queue.ring.isEmpty

theorem Drained.work (k : Kept s) (d : Drained s) (hz : s.thdRun = 0)
    (ho : Orderly s (.work ok)) (h : s.work ok = some s') : Drained s' := by
  intro _ hr
  cases work_stopping k hz h
  case stay _ pc'       => exact absurd pc' hr
  case leave _ ring     => exact ring
  case fail pc ok       => exact absurd (ho pc) (by simp [ok])
  case stop pc _ queue  => exact queue ▸ d hz pc

theorem drained_of_orderly (h : logger.Reach Orderly s) : Drained s := by
  apply h.invariant_with (J := Kept) (fun _ h => .of_reachable h.reachable)
  case h₀ => intro s h hz; simp [h.thdRun] at hz
  case hs =>
    intro s a s' k d ho h hz hr
    obtain ⟨rfl, hp, hq⟩ | ⟨hz₀, ⟨hp, hq⟩ | ⟨ok, rfl⟩⟩ := zero_cases k h hz
    · rw [hq]
      exact ho.resolve_left (hp ▸ hr)
    · rw [hq]
      exact d hz₀ (hp ▸ hr)
    · exact d.work k hz₀ ho h hz hr

-- What the writer has left in the ring when loggger_exit returns is what the file lacks.
theorem written_contents (k : Kept s) (he : s.app = .exited) :
    s.thdRun = 0 ∧ ¬s.pc.inRound ∧ s.written ++ s.queue.ring.contents = s.queue.stored := by
  have hp := k.exited he
  have hb := k.bytes
  have hf := k.file
  rw [hp, Pc.hasFile, Option.isSome_eq_false_iff, Option.isNone_iff_eq_none] at hf
  simp only [hp, hf, Pc.inHand, Option.getD_none, List.append_nil] at hb
  refine ⟨k.flag.mpr (by simp [he, App.stopping]), by simp [hp, Pc.inRound], ?_⟩
  rw [hb, LogQueue.returned_contents k.queue]

-- All that the queue has taken is in the file when loggger_exit returns.
theorem written_of_orderly (h : logger.Reach Orderly s) (he : s.app = .exited) :
    s.written = s.queue.stored := by
  have k := Kept.of_reachable h.reachable
  have ⟨hz, hr, hw⟩ := written_contents k he
  have wf := (LogQueue.Wf.of_reachable k.queue).ring
  rw [← hw, wf.isEmpty_iff.mp (drained_of_orderly h hz hr), List.append_nil]

instance : ∀ s a, Decidable (Orderly s a)
  | _, .exit   => inferInstanceAs (Decidable (_ ∨ _))
  | _, .work _ => inferInstanceAs (Decidable (_ → _))
  | _, .initReturn | _, .lockQueue _ | _, .fullTest | _, .store | _, .rearUpdate | _, .broadcast
  | _, .join   => inferInstanceAs (Decidable True)

-- The names are "l" and "a".
def noFiles : Files :=
  ⟨[108, 0], [97, 0], 8192, 8, 0, fun _ => none, 0, by decide⟩

def fresh : Logger :=
  ⟨.fresh, 1, .start, 0, none, noFiles, [], 0, .init⟩

theorem fresh_init : logger.init fresh :=
  ⟨⟨rfl, rfl, rfl, rfl, rfl, rfl⟩, rfl, rfl, rfl, rfl, rfl, rfl, rfl⟩

-- One byte is logged while the writer stands at its loop test.
def logOne : List Act :=
  [.work true, .work true, .initReturn, .lockQueue [7], .fullTest, .store, .rearUpdate, .fullTest,
   .broadcast]

def inRoundActs : List Act :=
  logOne ++ [Act.work true, .exit] ++ List.replicate 9 (Act.work true) ++ [Act.join]

theorem written_of_orderly_sample : ∃ s, logger.Reach Orderly s ∧
    (s.app = .exited ∧ s.queue.stored = [7]) ∧ s.written = s.queue.stored := by
  have run : ∃ s, logger.Reach Orderly s ∧ s.app = .exited ∧ s.queue.stored = [7] :=
    System.Reach.exists_of_run inRoundActs _ fresh_init (by decide)
  have ⟨s, hr, hs⟩ := run
  exact ⟨s, hr, hs, written_of_orderly hr hs.1⟩

-- The exit finds bytes in the ring and no round that would still take them.
def Late (s : Logger) : Act → Prop
  | .exit => ¬(s.pc.inRound ∨ s.queue.ring.isEmpty)
  | _     => True

theorem left_of_late (h : logger.Reach Late s) :
    s.thdRun = 0 → ¬(s.pc.inRound ∨ s.queue.ring.isEmpty) := by
  apply h.invariant_with (J := Kept) (fun _ h => .of_reachable h.reachable)
  case h₀ => intro s h hz; simp [h.thdRun] at hz
  case hs =>
    intro s a s' k hl ho h hz
    obtain ⟨rfl, hp, hq⟩ | ⟨hz₀, ⟨hp, hq⟩ | ⟨ok, rfl⟩⟩ := zero_cases k h hz
    · rw [hp, hq]
      exact ho
    · rw [hp, hq]
      exact hl hz₀
    · have ⟨hr, he⟩ := not_or.mp (hl hz₀)
      cases work_stopping k hz₀ h
      case stop _ pc' queue => exact queue ▸ not_or.mpr ⟨pc', he⟩
      case fail pc _        => obtain hp | hp := pc <;> simp [hp, Pc.inRound] at hr
      all_goals contradiction

theorem not_written_of_late (h : logger.Reach Late s) (he : s.app = .exited) :
    s.written ≠ s.queue.stored := by
  have k := Kept.of_reachable h.reachable
  have ⟨hz, _, hw⟩ := written_contents k he
  have wf := (LogQueue.Wf.of_reachable k.queue).ring
  have hl := (not_or.mp (left_of_late h hz)).2
  rw [← hw]
  intro heq
  exact hl (wf.isEmpty_iff.mpr (List.self_eq_append_right.mp heq))

def Opens (s : Logger) : Act → Prop
  | .work ok => s.pc = .open ∨ s.pc = .reopen → ok
  | _        => True

instance : ∀ s a, Decidable (Opens s a)
  | _, .work _ => inferInstanceAs (Decidable (_ → _))
  | _, .initReturn | _, .lockQueue _ | _, .fullTest | _, .store | _, .rearUpdate | _, .broadcast
  | _, .exit | _, .join => inferInstanceAs (Decidable True)

theorem not_written : ¬∀ s, logger.Reach Opens s → (∀ c ∈ s.queue.calls, c.full = none) →
    s.app = .exited → s.written = s.queue.stored := by
  intro h
  have run : ∃ s, logger.Reach Opens s ∧ (∀ c ∈ s.queue.calls, c.full = none) ∧
      s.app = .exited ∧ s.written ≠ s.queue.stored :=
    System.Reach.exists_of_run (logOne ++ [.exit, .work true, .join]) _ fresh_init (by decide)
  have ⟨s, hr, hf, he, hw⟩ := run
  exact hw (h s hr hf he)

end Logger
end NetPool
