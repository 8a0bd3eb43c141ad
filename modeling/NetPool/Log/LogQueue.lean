import NetPool.Lib.Pipe
import NetPool.Lib.Ring

namespace NetPool

-- RING_SIZE
def ringSize : Nat :=
  0x800000

namespace LogQueue

-- A call of queue_in. What it has stored and what the ring held when it was found full are noted
-- for the statements only.
structure InCall where
  data   : List UInt8
  pos    : Nat
  stored : List UInt8
  full   : Option Nat

inductive InPc
  | test
  | store
  | update
  deriving DecidableEq

inductive OutPc
  | test
  | load
  | update (ret : UInt8)
  deriving DecidableEq

end LogQueue

open LogQueue in
-- The producers take turns under `lock`, the consumer does not take it.
structure LogQueue where
  ring     : Ring UInt8 ringSize
  lock     : Option (InCall × InPc)
  out      : OutPc
  calls    : List InCall
  returned : List UInt8

namespace LogQueue

variable {q q' : LogQueue} {c : InCall} {pc : InPc} {x : UInt8}

-- The calls in the order in which they took the lock.
def entered (q : LogQueue) : List InCall :=
  q.calls ++ (q.lock.map Prod.fst).toList

def stored (q : LogQueue) : List UInt8 :=
  q.entered.flatMap InCall.stored

def held (q : LogQueue) : Nat :=
  q.stored.length - q.returned.length

-- queue_in

def lockQueue (q : LogQueue) (data : List UInt8) : Option LogQueue :=
  match q.lock with
  | some _ => none
  | none   => some { q with lock := some (⟨data, 0, [], none⟩, .test) }

-- The loop condition and the test for a full ring. The end of the loop gives the lock back.
def fullTest (q : LogQueue) : Option LogQueue :=
  match q.lock with
  | some (c, .test) =>
    if c.pos < c.data.length then
      if q.ring.isFull then
        some { q with
          lock  := none
          calls := q.calls ++ [{ c with full := some q.held }] }
      else
        some { q with lock := some (c, .store) }
    else
      some { q with
        lock  := none
        calls := q.calls ++ [c] }
  | _ => none

def store (q : LogQueue) : Option LogQueue :=
  match q.lock with
  | some (c, .store) => some { q with
      ring := q.ring.store (c.data.getD c.pos 0)
      lock := some (c, .update) }
  | _ => none

def rearUpdate (q : LogQueue) : Option LogQueue :=
  match q.lock with
  | some (c, .update) => some { q with
      ring := q.ring.publish
      lock := some ({ c with
        pos    := c.pos + 1
        stored := c.stored ++ [q.ring.data q.ring.rear] }, .test) }
  | _ => none

-- queue_out

-- On an empty ring the call returns -1, and the next one begins with the test again.
def emptyTest (q : LogQueue) : Option LogQueue :=
  match q.out with
  | .test => some (if q.ring.isEmpty then q else { q with out := .load })
  | _     => none

def load (q : LogQueue) : Option LogQueue :=
  match q.out with
  | .load => some { q with out := .update (q.ring.data q.ring.front) }
  | _     => none

def frontUpdate (q : LogQueue) : Option LogQueue :=
  match q.out with
  | .update ret => some { q with
      ring     := q.ring.release
      out      := .test
      returned := q.returned ++ [ret] }
  | _ => none

inductive Act
  | lockQueue (data : List UInt8)
  | fullTest
  | store
  | rearUpdate
  | emptyTest
  | load
  | frontUpdate

def step (q : LogQueue) : Act → Option LogQueue
  | .lockQueue data => q.lockQueue data
  | .fullTest       => q.fullTest
  | .store          => q.store
  | .rearUpdate     => q.rearUpdate
  | .emptyTest      => q.emptyTest
  | .load           => q.load
  | .frontUpdate    => q.frontUpdate

-- init_queue leaves the cells as they are.
structure Init (q : LogQueue) : Prop where
  front    : q.ring.front = 0
  rear     : q.ring.rear = 0
  lock     : q.lock = none
  out      : q.out = .test
  calls    : q.calls = []
  returned : q.returned = []

end LogQueue

def logQueue : System LogQueue LogQueue.Act where
  init := LogQueue.Init
  step := LogQueue.step

namespace LogQueue

variable {q q' : LogQueue} {c : InCall} {pc : InPc} {x : UInt8}

-- What one step does to the ring and to the calls.
inductive Effect (q q' : LogQueue) : Prop
  -- The ring is read, or a call takes the lock or gives it back.
  | quiet (ring : q'.ring = q.ring) (stored : q'.stored = q.stored)
      (returned : q'.returned = q.returned)
  | store (x : UInt8) (ring : q'.ring = q.ring.store x) (stored : q'.stored = q.stored)
      (returned : q'.returned = q.returned)
  | publish (room : ¬q.ring.isFull) (ring : q'.ring = q.ring.publish)
      (stored : q'.stored = q.stored ++ [q.ring.data q.ring.rear])
      (returned : q'.returned = q.returned)
  | release (some : ¬q.ring.isEmpty) (ring : q'.ring = q.ring.release)
      (stored : q'.stored = q.stored)
      (returned : q'.returned = q.returned ++ [q.ring.data q.ring.front])

-- A call as far as it has come. Between its test and its update the ring keeps room for one byte.
structure CallOk (ring : Ring UInt8 ringSize) (c : InCall) (pc : InPc) : Prop where
  bound  : c.pos ≤ c.data.length
  stored : c.stored = c.data.take c.pos
  full   : c.full = none
  room   : pc ≠ .test → c.pos < c.data.length ∧ ¬ring.isFull
  cell   : pc = .update → ring.data ring.rear = c.data.getD c.pos 0

structure OutOk (ring : Ring UInt8 ringSize) (out : OutPc) : Prop where
  some   : out ≠ .test → ¬ring.isEmpty
  loaded : ∀ x, out = .update x → x = ring.data ring.front

structure Wf (q : LogQueue) : Prop where
  ring : q.ring.Wf
  lock : ∀ p ∈ q.lock, CallOk q.ring p.1 p.2
  out  : OutOk q.ring q.out

theorem wf_init (h : q.Init) : q.Wf where
  ring := ⟨by simp [h.front, ringSize], by simp [h.rear, ringSize]⟩
  lock := by simp [h.lock]
  out  := ⟨by simp [h.out], by simp [h.out]⟩

-- The producer writes a cell that the consumer does not read.
theorem OutOk.store (o : OutOk q.ring q.out) : OutOk (q.ring.store x) q.out where
  some     := o.some
  loaded y hy := by
    have he := o.some (by simp [hy])
    rw [o.loaded y hy]
    have hne : q.ring.front ≠ q.ring.rear := by simpa [Ring.isEmpty] using he
    exact (Function.update_of_ne hne _ _).symm

theorem OutOk.publish (wf : q.ring.Wf) (room : ¬q.ring.isFull) (o : OutOk q.ring q.out) :
    OutOk q.ring.publish q.out where
  some ho := by
    have hc := wf.count_publish room
    rw [wf.publish.isEmpty_iff, ← List.length_eq_zero_iff, Ring.length_contents]
    omega
  loaded := o.loaded

-- The consumer only makes room.
theorem CallOk.release (wf : q.ring.Wf) (some : ¬q.ring.isEmpty) (o : CallOk q.ring c pc) :
    CallOk q.ring.release c pc where
  bound   := o.bound
  stored  := o.stored
  full    := o.full
  room hp := by
    have ⟨hl, hf⟩ := o.room hp
    have hc := wf.count_release some
    have hn := wf.count_lt
    rw [wf.isFull_iff] at hf
    rw [wf.release.isFull_iff]
    exact ⟨hl, by omega⟩
  cell    := o.cell

theorem CallOk.update (o : CallOk q.ring c .update) : CallOk q.ring.publish
    { c with pos := c.pos + 1, stored := c.stored ++ [q.ring.data q.ring.rear] } .test where
  bound  := (o.room nofun).1
  stored := by
    have hl := (o.room nofun).1
    rw [o.stored, o.cell rfl, List.take_succ_eq_append_getElem hl, List.getD_eq_getElem _ _ hl]
  full   := o.full
  room   := nofun
  cell   := nofun

theorem step_wf (wf : q.Wf) (h : q.step a = some q') : q'.Wf ∧ Effect q q' := by
  have ⟨ring, lock, out⟩ := wf
  cases a
  case lockQueue data =>
    cases hl : q.lock <;> simp only [step, lockQueue, hl, reduceCtorEq, Option.some.injEq] at h
    subst h
    refine ⟨⟨ring, ?_, out⟩, .quiet rfl (by simp [stored, entered, hl]) rfl⟩
    rintro _ ⟨⟩
    exact ⟨Nat.zero_le _, rfl, rfl, nofun, nofun⟩
  case fullTest =>
    simp only [step, fullTest] at h
    split at h <;> try cases h
    rename_i c hl
    have o : CallOk q.ring c .test := lock _ hl
    split at h
    case isFalse hp =>
      cases h
      exact ⟨⟨ring, nofun, out⟩, .quiet rfl (by simp [stored, entered, hl]) rfl⟩
    case isTrue hp =>
      split at h <;> cases h
      case isTrue hf =>
        exact ⟨⟨ring, nofun, out⟩, .quiet rfl (by simp [stored, entered, hl]) rfl⟩
      case isFalse hf =>
        refine ⟨⟨ring, ?_, out⟩, .quiet rfl (by simp [stored, entered, hl]) rfl⟩
        rintro _ ⟨⟩
        exact ⟨o.bound, o.stored, o.full, fun _ => ⟨hp, hf⟩, nofun⟩
  case store =>
    simp only [step, LogQueue.store] at h
    split at h <;> cases h
    rename_i c hl
    have o := lock _ hl
    refine ⟨⟨ring.store, ?_, out.store⟩, .store _ rfl (by simp [stored, entered, hl]) rfl⟩
    rintro _ ⟨⟩
    exact ⟨o.bound, o.stored, o.full, fun _ => o.room nofun, fun _ => Function.update_self ..⟩
  case rearUpdate =>
    simp only [step, rearUpdate] at h
    split at h <;> cases h
    rename_i c hl
    have o := lock _ hl
    have room := (o.room nofun).2
    refine ⟨⟨ring.publish, ?_, out.publish ring room⟩,
      .publish room rfl (by simp [stored, entered, hl]) rfl⟩
    rintro _ ⟨⟩
    exact o.update
  case emptyTest =>
    simp only [step, emptyTest] at h
    split at h <;> cases h
    split
    case isTrue he  => exact ⟨wf, .quiet rfl rfl rfl⟩
    case isFalse he => exact ⟨⟨ring, lock, fun _ => he, nofun⟩, .quiet rfl rfl rfl⟩
  case load =>
    simp only [step, load] at h
    split at h <;> cases h
    rename_i ho
    refine ⟨⟨ring, lock, fun _ => out.some (by simp [ho]), ?_⟩, .quiet rfl rfl rfl⟩
    rintro _ ⟨⟩
    rfl
  case frontUpdate =>
    simp only [step, frontUpdate] at h
    split at h <;> cases h
    rename_i x ho
    have some := out.some (by simp [ho])
    refine ⟨⟨ring.release, fun p hp => (lock p hp).release ring some, nofun, nofun⟩,
      .release some rfl rfl ?_⟩
    rw [out.loaded x ho]

theorem Wf.of_reachable (h : logQueue.Reachable q) : q.Wf :=
  h.invariant (fun _ => wf_init) fun _ _ _ wf _ hs => (step_wf wf hs).1

-- The steps of a call of queue_in leave the consumer alone.
inductive Act.Producer : Act → Prop
  | lockQueue data : Producer (.lockQueue data)
  | fullTest       : Producer .fullTest
  | store          : Producer .store
  | rearUpdate     : Producer .rearUpdate

theorem Act.Producer.frame {a : Act} (p : a.Producer) (h : q.step a = some q') :
    q'.returned = q.returned ∧ q'.out = q.out := by
  cases p <;> simp only [step, LogQueue.lockQueue, LogQueue.fullTest, LogQueue.store,
    LogQueue.rearUpdate] at h
  case fullTest =>
    split at h <;> try cases h
    split at h
    case isFalse => cases h; exact ⟨rfl, rfl⟩
    case isTrue  => split at h <;> cases h <;> exact ⟨rfl, rfl⟩
  all_goals
    split at h <;> cases h
    exact ⟨rfl, rfl⟩

-- The queue as a pipe from the producers to the consumer.
def pipe (q : LogQueue) : Pipe UInt8 where
  accepted := q.stored
  given    := q.returned
  waiting  := q.ring.contents
  cut      := false

theorem Effect.pipe (wf : q.ring.Wf) (e : Effect q q') :
    ∃ acts, (NetPool.pipe UInt8).run q.pipe acts = some q'.pipe := by
  cases e
  case quiet ring stored returned =>
    exact ⟨[], by simp [LogQueue.pipe, ring, stored, returned]⟩
  case store x ring stored returned =>
    exact ⟨[], by simp [LogQueue.pipe, ring, stored, returned, wf.contents_store]⟩
  case publish room ring stored returned =>
    refine ⟨[.put [q.ring.data q.ring.rear]], ?_⟩
    simp [NetPool.pipe, Pipe.step, LogQueue.pipe, ring, stored, returned, wf.contents_publish room]
  case release some ring stored returned =>
    refine ⟨[.give 1], ?_⟩
    simp [NetPool.pipe, Pipe.step, LogQueue.pipe, ring, stored, returned, wf.contents_release some]

theorem pipe_reachable (h : logQueue.Reachable q) : (NetPool.pipe UInt8).Reachable q.pipe := by
  apply h.simulation (I := Wf)
  case inv  => exact fun _ => Wf.of_reachable
  case step => exact fun _ _ _ wf hs => (step_wf wf hs).2.pipe wf.ring
  case init =>
    intro q h
    simp [NetPool.pipe, pipe, Pipe.empty, stored, entered, Ring.contents, Ring.count, h.front,
      h.rear, h.lock, h.calls, h.returned]

theorem returned_contents (h : logQueue.Reachable q) : q.returned ++ q.ring.contents = q.stored :=
  (Pipe.given_waiting_prefix (pipe_reachable h)).2 rfl

theorem held_eq (h : logQueue.Reachable q) : q.held = q.ring.count := by
  have hl := congrArg List.length (returned_contents h)
  rw [List.length_append, Ring.length_contents] at hl
  rw [held]
  omega

-- A call that has ended has stored all its bytes, or has found the ring full.
structure Ended (c : InCall) : Prop where
  pre   : c.stored <+: c.data
  whole : c.full = none → c.stored = c.data
  full  : ∀ k ∈ c.full, k = ringSize - 1

theorem ended_of_reachable (h : logQueue.Reachable q) : ∀ c ∈ q.calls, Ended c := by
  apply h.invariant_with (J := logQueue.Reachable) (fun _ => id)
  case h₀ => intro q h; simp [h.calls]
  case hs =>
    intro q a q' hq hi _ hs
    have wf := Wf.of_reachable hq
    cases a
    case fullTest =>
      simp only [logQueue, step, fullTest] at hs
      split at hs <;> try cases hs
      rename_i c hl
      have o : CallOk q.ring c .test := wf.lock _ hl
      split at hs
      case isFalse hp =>
        cases hs
        have he : c.pos = c.data.length := Nat.le_antisymm o.bound (Nat.not_lt.mp hp)
        have hw : c.stored = c.data := by simp [o.stored, he]
        have hc : Ended c := ⟨hw ▸ List.prefix_refl _, fun _ => hw, by simp [o.full]⟩
        simpa [or_imp, forall_and] using ⟨hi, hc⟩
      case isTrue hp =>
        split at hs <;> cases hs
        case isFalse => exact hi
        case isTrue hf =>
          have hk : q.held = ringSize - 1 := by
            have := wf.ring.isFull_iff.mp hf
            rw [held_eq hq]
            omega
          have hc : Ended { c with full := some q.held } :=
            ⟨o.stored ▸ List.take_prefix _ _, nofun, by simp [hk]⟩
          simpa [or_imp, forall_and] using ⟨hi, hc⟩
    all_goals
      simp only [logQueue, step, lockQueue, LogQueue.store, rearUpdate, emptyTest, load,
        frontUpdate] at hs
      split at hs <;> cases hs
      try split
      all_goals exact hi

-- What the queue has accepted and given out: nothing lost, repeated or reordered, and nothing read
-- before it was stored.
structure Lossless (q : LogQueue) : Prop where
  front    : q.ring.front < ringSize
  rear     : q.ring.rear < ringSize
  held     : q.returned.length ≤ q.stored.length ∧ q.stored.length - q.returned.length ≤ ringSize - 1
  calls    : ∀ c ∈ q.calls, Ended c
  current  : ∀ p ∈ q.lock, p.1.stored <+: p.1.data
  returned : q.returned <+: q.stored
  loaded   : ∀ x, q.out = .update x → q.returned ++ [x] <+: q.stored

theorem lossless (h : logQueue.Reachable q) : q.Lossless where
  front    := (Wf.of_reachable h).ring.front
  rear     := (Wf.of_reachable h).ring.rear
  held     := by
    have hc := (Wf.of_reachable h).ring.count_lt
    have hl := congrArg List.length (returned_contents h)
    rw [List.length_append, Ring.length_contents] at hl
    omega
  calls    := ended_of_reachable h
  current p hp := by
    rw [((Wf.of_reachable h).lock p hp).stored]
    exact List.take_prefix _ _
  returned := ⟨_, returned_contents h⟩
  loaded x hx := by
    have ⟨ring, _, out⟩ := Wf.of_reachable h
    have hc := ring.contents_release (out.some (by simp [hx]))
    rw [← returned_contents h, hc, out.loaded x hx]
    exact List.prefix_append_right_inj _ |>.mpr ⟨_, rfl⟩

def fresh : LogQueue :=
  ⟨⟨fun _ => 0, 0, 0⟩, none, .test, [], []⟩

def sampleActs : List Act :=
  [.lockQueue [7, 8], .fullTest, .store, .emptyTest, .rearUpdate, .emptyTest, .fullTest, .load,
   .store, .frontUpdate, .rearUpdate, .fullTest, .lockQueue [9], .fullTest, .store]

theorem lossless_sample : ∃ q, logQueue.Reachable q ∧
    (q.returned = [7] ∧ q.stored = [7, 8]) ∧ q.Lossless := by
  have ⟨q, hr, hq⟩ := logQueue.exists_of_run sampleActs
    (fun q => q.returned = [7] ∧ q.stored = [7, 8]) (s := fresh)
    ⟨rfl, rfl, rfl, rfl, rfl, rfl⟩ (by decide)
  exact ⟨q, hr, hq, lossless hr⟩

end LogQueue
end NetPool
