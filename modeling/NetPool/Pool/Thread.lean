import NetPool.Lib.System

namespace NetPool
namespace CThread

-- What runs in the thread: an overriding Run, the Run of the Runnable that the thread was made
-- with, or nothing.
inductive Kind
  | own
  | runnable
  | plain
  deriving DecidableEq

-- Where the starter is: in Start, behind it with its answer, and in Join(-1).
inductive StarterPc
  | check
  | create
  | store
  | answer
  | started (answer : Bool)
  | join
  | joined
  deriving DecidableEq

-- Where the thread is in StaticThreadFunc. In `test` it reads m_bRun in CThread::Run.
inductive ThreadPc
  | none
  | run
  | test
  | body
  | exitFlag
  | done
  deriving DecidableEq

end CThread

open CThread in
-- `runs` and `runnables` count the calls of Run and of m_pRunnable->Run.
structure CThread where
  bRun      : Bool
  starter   : StarterPc
  thread    : ThreadPc
  runs      : Nat
  runnables : Nat
  deriving DecidableEq

namespace CThread

def startStep (s : CThread) : Option CThread :=
  match s.starter with
  | .check     => some { s with starter := if s.bRun then .started true else .create }
  | .create    => some { s with
      thread  := .run
      starter := .store }
  | .store     => some { s with
      bRun    := true
      starter := .answer }
  | .answer    => some { s with starter := .started s.bRun }
  | .started _ => some { s with starter := .join }
  | .join      => some { s with starter := if s.bRun then .join else .joined }
  | .joined    => none

def threadStep (kind : Kind) (s : CThread) : Option CThread :=
  match s.thread with
  | .none     => none
  | .run      => some { s with
      runs   := s.runs + 1
      thread := if kind = .own then .body else .test }
  | .test     =>
    if s.bRun ∧ kind = .runnable then
      some { s with
        runnables := s.runnables + 1
        thread    := .body }
    else
      some { s with thread := .exitFlag }
  | .body     => some { s with thread := .exitFlag }
  | .exitFlag => some { s with
      bRun   := false
      thread := .done }
  | .done     => none

inductive Act
  | starter
  | thread
  deriving DecidableEq

def step (kind : Kind) (s : CThread) : Act → Option CThread
  | .starter => s.startStep
  | .thread  => s.threadStep kind

end CThread

def cthread (kind : CThread.Kind) : System CThread CThread.Act where
  init s := s = ⟨false, .check, .none, 0, 0⟩
  step   := CThread.step kind

namespace CThread

variable {s s' : CThread} {kind : Kind} {a : Act}

-- Start has stored m_bRun.
def StarterPc.stored : StarterPc → Bool
  | .check | .create | .store => false
  | .answer | .started _ | .join | .joined => true

-- The thread has come back from Run.
def ThreadPc.returned : ThreadPc → Bool
  | .none | .run | .test | .body => false
  | .exitFlag | .done => true

structure Agrees (kind : Kind) (s : CThread) : Prop where
  most  : s.runs ≤ 1 ∧ s.runnables ≤ 1
  once  : s.thread.returned → s.runs = 1 ∧ (kind = .runnable → s.runnables = 1)
  join  : s.starter = .joined → s.thread.returned
  flag  : s.thread = .done → s.bRun = false
  ready : s.thread = .done → s.starter = .join →
    ∃ s', s.step kind .starter = some s' ∧ s'.starter = .joined

-- The thread comes to its exit flag, and to the test in front of the Runnable, when Start has
-- stored m_bRun.
def Late (kind : Kind) (s : CThread) : Act → Prop
  | .starter => True
  | .thread  => (s.thread = .test ∧ kind = .runnable) ∨ s.thread = .exitFlag → s.starter.stored

instance : ∀ s a, Decidable (Late kind s a)
  | _, .starter => inferInstanceAs (Decidable True)
  | _, .thread  => inferInstanceAs (Decidable (_ → _))

-- The flag is set from the store in Start to that in SetExitFlag.
structure Inv (kind : Kind) (s : CThread) : Prop where
  fresh     : s.thread = .none ↔ s.starter = .check ∨ s.starter = .create
  set       : s.bRun = true ↔ s.starter.stored ∧ s.thread ≠ .done
  done      : s.thread = .done → s.starter.stored
  runs      : s.runs = if s.thread = .none ∨ s.thread = .run then 0 else 1
  runnables : s.runnables =
    if kind = .runnable ∧ (s.thread = .body ∨ s.thread.returned) then 1 else 0
  joined    : s.starter = .joined → s.thread = .done

theorem Inv.starter (inv : Inv kind s) (h : s.startStep = some s') : Inv kind s' := by
  have ⟨fresh, set, done, runs, runnables, joined⟩ := inv
  have ⟨bRun, starter, thread, r, n⟩ := s
  cases starter <;> cases h <;> dsimp only at *
  case check =>
    obtain rfl : bRun = false := by simpa [StarterPc.stored] using set
    exact ⟨by simpa using fresh, by simp [StarterPc.stored], by simpa [StarterPc.stored] using done,
      runs, runnables, nofun⟩
  case create =>
    obtain rfl : thread = .none := fresh.mpr (.inr rfl)
    obtain rfl : bRun = false := by simpa [StarterPc.stored] using set
    exact ⟨by simp, by simp [StarterPc.stored], nofun, by simpa using runs,
      by simpa [ThreadPc.returned] using runnables, nofun⟩
  case store =>
    have hd : thread ≠ .done := fun hd => by simpa [StarterPc.stored] using done hd
    exact ⟨by simpa using fresh, by simpa [StarterPc.stored] using hd, fun _ => rfl, runs, runnables,
      nofun⟩
  case join =>
    cases bRun
    case true  => exact ⟨by simpa using fresh, set, done, runs, runnables, nofun⟩
    case false =>
      have hd : thread = .done := by simpa [StarterPc.stored] using set
      exact ⟨by simpa using fresh, by simpa [StarterPc.stored] using hd, fun _ => rfl, runs,
        runnables, fun _ => hd⟩
  all_goals exact ⟨by simpa using fresh, set, fun _ => rfl, runs, runnables, nofun⟩

theorem Inv.thread (inv : Inv kind s) (ok : Late kind s .thread) (h : s.threadStep kind = some s') :
    Inv kind s' := by
  have ⟨fresh, set, done, runs, runnables, joined⟩ := inv
  have ⟨bRun, starter, thread, r, n⟩ := s
  cases thread <;> simp only [threadStep] at h
  case none | done => cases h
  case run =>
    cases h
    cases kind
    all_goals exact ⟨by simpa using fresh, by simpa using set, nofun, by simp_all,
      by simpa [ThreadPc.returned] using runnables, by simpa using joined⟩
  case test =>
    split at h <;> cases h
    case isTrue hb =>
      obtain ⟨rfl, rfl⟩ := hb
      exact ⟨by simpa using fresh, by simpa using set, nofun, by simpa using runs,
        by simp_all [ThreadPc.returned], by simpa using joined⟩
    case isFalse hb =>
      -- In front of a Runnable the flag is set.
      have hk : kind ≠ .runnable := by
        rintro rfl
        have stored := ok (.inl ⟨rfl, rfl⟩)
        simp_all
      exact ⟨by simpa using fresh, by simpa using set, nofun, by simpa using runs,
        by simpa [hk] using runnables, by simpa using joined⟩
  case body =>
    cases h
    exact ⟨by simpa using fresh, by simpa using set, nofun, by simpa using runs,
      by simpa [ThreadPc.returned] using runnables, by simpa using joined⟩
  case exitFlag =>
    cases h
    have stored := ok (.inr rfl)
    exact ⟨by simpa using fresh, by simp, fun _ => stored, by simpa using runs,
      by simpa [ThreadPc.returned] using runnables, fun _ => rfl⟩

theorem Inv.agrees (inv : Inv kind s) : Agrees kind s := by
  have ⟨fresh, set, done, runs, runnables, joined⟩ := inv
  have flag : s.thread = .done → s.bRun = false := by simpa using fun hd hb => (set.mp hb).2 hd
  constructor
  case most =>
    rw [runs, runnables]
    constructor <;> split <;> simp
  case once =>
    intro hr
    rw [runs, runnables]
    cases ht : s.thread <;> simp_all [ThreadPc.returned]
  case join  => exact fun hj => joined hj ▸ rfl
  case flag  => exact flag
  case ready =>
    intro hd hj
    exact ⟨_, by simp only [step, startStep, hj]; rfl, by simp [flag hd]⟩

-- Nothing orders the store in Start and the steps of the thread that it has created.
theorem start_join (h : (cthread kind).Reach (Late kind) s) : Agrees kind s := by
  refine (h.invariant (I := Inv kind) ?_ ?_).agrees
  case refine_1 =>
    rintro _ rfl
    exact ⟨by simp, by simp [StarterPc.stored], nofun, rfl, by simp [ThreadPc.returned], nofun⟩
  case refine_2 =>
    intro s a s' inv ok h
    cases a
    case starter => exact inv.starter h
    case thread  => exact inv.thread ok h

-- The thread calls Run before the store in Start, and has ended when Join is called.
theorem start_join_returned : ∃ s, (cthread .runnable).Reach (Late .runnable) s ∧
    s = ⟨false, .joined, .done, 1, 1⟩ ∧ Agrees .runnable s := by
  have ⟨s, hr, hs⟩ : ∃ s, (cthread .runnable).Reach (Late .runnable) s ∧
      s = ⟨false, .joined, .done, 1, 1⟩ :=
    System.Reach.exists_of_run [.starter, .starter, .thread, .starter, .thread, .starter, .starter,
      .thread, .thread, .starter] _ rfl (by decide)
  exact ⟨s, hr, hs, start_join hr⟩

-- The thread ends before the store in Start: Join waits for ever, and the Runnable is not run.
theorem not_start_join :
    (∃ s, (cthread .own).Reachable s ∧ s = ⟨true, .join, .done, 1, 0⟩ ∧ ¬Agrees .own s) ∧
    ∃ s, (cthread .runnable).Reachable s ∧ s = ⟨true, .join, .done, 1, 0⟩ ∧ ¬Agrees .runnable s := by
  constructor
  case left =>
    have ⟨s, hr, hs⟩ : ∃ s, (cthread .own).Reachable s ∧ s = ⟨true, .join, .done, 1, 0⟩ :=
      System.exists_of_run [.starter, .starter, .thread, .thread, .thread, .starter, .starter,
        .starter] _ rfl (by decide)
    exact ⟨s, hr, hs, fun h => by simpa [hs] using h.flag⟩
  case right =>
    have ⟨s, hr, hs⟩ : ∃ s, (cthread .runnable).Reachable s ∧ s = ⟨true, .join, .done, 1, 0⟩ :=
      System.exists_of_run [.starter, .starter, .thread, .thread, .thread, .starter, .starter,
        .starter] _ rfl (by decide)
    exact ⟨s, hr, hs, fun h => by simpa [hs, ThreadPc.returned] using h.once⟩

end CThread
end NetPool
