import NetPool.Lib.List
import NetPool.Lib.System

namespace NetPool
namespace NetPoll

-- A loop task: in the queue of the worker pool, and then in loop_handle.
inductive HandlePc
  | queued
  | init
  | begin
  | test
  | wait
  | work
  | exit
  | left
  deriving DecidableEq

-- The application: in start, between the calls, in wait_stop while it polls, while it closes the
-- descriptors, and after it.
inductive App
  | starting
  | started
  | stopping
  | polling
  | closing (i : Nat)
  | returned
  deriving DecidableEq

-- How epoll_wait comes back: with its events, interrupted, or with an error.
inductive Epoll
  | events
  | again
  | failed

end NetPoll

open NetPoll in
-- `epfd` tells which descriptors are open; the loops that waited on a closed one are noted in
-- `misused`.
structure NetPoll where
  loops          : List HandlePc
  curWorkerThrds : UInt32
  isShutDown     : Bool
  epfd           : Nat → Bool
  app            : App
  misused        : List Nat

namespace NetPoll

-- One step of CNetPoll::start after the flag is reset: Execute puts the next loop in the queue.
def submit (n : UInt32) (s : NetPoll) : Option NetPoll :=
  if s.app = .starting ∧ s.loops.length < n.toNat then
    some { s with
      loops := s.loops ++ [.queued]
      app   := if s.loops.length + 1 = n.toNat then .started else .starting }
  else
    none

def letStop (s : NetPoll) : Option NetPoll :=
  if s.app = .started then
    some { s with
      isShutDown := true
      app        := .stopping }
  else
    none

def waitStop (s : NetPoll) : Option NetPoll :=
  if s.app = .stopping then some { s with app := .polling } else none

-- The loop condition of wait_stop.
def read (s : NetPoll) : Option NetPoll :=
  if s.app = .polling then
    some (if s.curWorkerThrds = 0 then { s with app := .closing 0 } else s)
  else
    none

def close (s : NetPoll) : Option NetPoll :=
  match s.app with
  | .closing i =>
    some (if i < 32 then
      { s with
        epfd := Function.update s.epfd i false
        app  := .closing (i + 1) }
    else
      { s with app := .returned })
  | _ => none

-- loop_handle of loop `i`.
def loopHandle (s : NetPoll) (i : Nat) (r : Epoll) : Option NetPoll :=
  let goto pc := { s with loops := s.loops.set i pc }
  match s.loops[i]? with
  | none         => none
  | some .queued => some (goto .init)
  | some .init   => some { goto .begin with curWorkerThrds := s.curWorkerThrds + 1 }
  | some .begin  => some (goto .test)
  | some .test   => some (goto (if s.isShutDown then .exit else .wait))
  | some .wait   =>
    let s' := goto (match r with | .events => .work | .again => .test | .failed => .exit)
    some { s' with misused := if s.epfd i then s.misused else s.misused ++ [i] }
  | some .work   => some (goto .test)
  | some .exit   => some { goto .left with curWorkerThrds := s.curWorkerThrds - 1 }
  | some .left   => none

inductive Act
  | submit
  | letStop
  | waitStop
  | read
  | close
  | loopHandle (i : Nat) (r : Epoll)

def step (n : UInt32) (s : NetPoll) : Act → Option NetPoll
  | .submit         => s.submit n
  | .letStop        => s.letStop
  | .waitStop       => s.waitStop
  | .read           => s.read
  | .close          => s.close
  | .loopHandle i r => s.loopHandle i r

end NetPoll

-- `n` is m_worker_thrd_cnt. init_event_fds has opened a descriptor for each loop.
def netPoll (n : UInt32) : System NetPoll NetPoll.Act where
  init s := s = ⟨[], 0, false, (· < n.toNat), .starting, []⟩
  step   := NetPoll.step n

namespace NetPoll

variable {n : UInt32} {s s' : NetPoll} {i : Nat} {pc pc' : HandlePc} {r : Epoll}

def HandlePc.counted : HandlePc → Bool
  | .begin | .test | .wait | .work | .exit => true
  | .queued | .init | .left                => false

-- The loops that have not come to their increment.
def HandlePc.early : HandlePc → Bool
  | .queued | .init                                => true
  | .begin | .test | .wait | .work | .exit | .left => false

-- The loops that use their descriptor.
def HandlePc.polling : HandlePc → Bool
  | .wait | .work                                    => true
  | .queued | .init | .begin | .test | .exit | .left => false

def App.told : App → Bool
  | .starting | .started                          => false
  | .stopping | .polling | .closing _ | .returned => true

def App.over : App → Bool
  | .closing _ | .returned                      => true
  | .starting | .started | .stopping | .polling => false

structure Kept (n : UInt32) (s : NetPoll) : Prop where
  count   : s.curWorkerThrds.toNat = s.loops.countP HandlePc.counted
  length  : s.loops.length ≤ n.toNat
  full    : s.app ≠ .starting → s.loops.length = n.toNat
  told    : s.app.told → s.isShutDown
  idle    : s.app.over → ∀ pc ∈ s.loops, ¬pc.polling
  opened  : ¬s.app.over → ∀ i < n.toNat, s.epfd i
  misused : s.misused = []

namespace Kept

variable (k : Kept n s)
include k

-- One loop goes on from `pc` to `pc'`.
theorem move {cur : UInt32} (h : s.loops[i]? = some pc)
    (hc : cur.toNat + (if pc.counted then 1 else 0) =
      s.curWorkerThrds.toNat + (if pc'.counted then 1 else 0))
    (hp : s.isShutDown → pc'.polling → pc.polling) :
    Kept n { s with loops := s.loops.set i pc', curWorkerThrds := cur } where
  count   := by
    have hs := countP_set_add (p := HandlePc.counted) (b := pc') h
    have := k.count
    dsimp only
    omega
  length  := by simpa using k.length
  full    := by simpa using k.full
  told    := k.told
  idle ho := by
    have hd : s.isShutDown := k.told (by revert ho; cases s.app <;> simp [App.over, App.told])
    intro q hq hpoll
    cases List.mem_or_eq_of_mem_set hq
    case inl hm => exact k.idle ho q hm hpoll
    case inr he => exact k.idle ho pc (List.mem_of_getElem? h) (hp hd (he ▸ hpoll))
  opened  := k.opened
  misused := k.misused

theorem index_lt (h : s.loops[i]? = some pc) : i < n.toNat := by
  have ⟨hl, _⟩ := List.getElem?_eq_some_iff.mp h
  exact hl.trans_le k.length

theorem open_of_polling (h : s.loops[i]? = some pc) (hp : pc.polling) : s.epfd i := by
  apply k.opened ?_ i (k.index_lt h)
  exact fun ho => k.idle ho pc (List.mem_of_getElem? h) hp

theorem enter (h : s.loops[i]? = some .init) :
    (s.curWorkerThrds + 1).toNat = s.curWorkerThrds.toNat + 1 := by
  have hs := countP_set_add (p := HandlePc.counted) (b := .begin) h
  have hle := List.countP_le_length (p := HandlePc.counted) (l := s.loops.set i .begin)
  have hn : n.toNat < 2 ^ 32 := n.toNat_lt
  have := k.length
  have := k.count
  simp only [HandlePc.counted, List.length_set, if_true, Bool.false_eq_true, if_false] at hs hle
  rw [UInt32.toNat_add, UInt32.toNat_one]
  exact Nat.mod_eq_of_lt (by omega)

theorem leave (h : s.loops[i]? = some .exit) :
    (s.curWorkerThrds - 1).toNat + 1 = s.curWorkerThrds.toNat := by
  have hs := countP_set_add (p := HandlePc.counted) (b := .left) h
  have := k.count
  simp only [HandlePc.counted, if_true, Bool.false_eq_true, if_false] at hs
  have hle : (1 : UInt32) ≤ s.curWorkerThrds := by
    rw [UInt32.le_iff_toNat_le, UInt32.toNat_one]
    omega
  rw [UInt32.toNat_sub_of_le _ _ hle, UInt32.toNat_one]
  omega

theorem loopHandle (h : s.loopHandle i r = some s') : Kept n s' := by
  unfold NetPoll.loopHandle at h
  dsimp only at h
  split at h
  case h_1 => cases h
  case h_2 hl => cases h; exact k.move hl rfl nofun
  case h_3 hl => cases h; exact k.move hl (k.enter hl) nofun
  case h_4 hl => cases h; exact k.move hl rfl nofun
  case h_5 hl =>
    cases h
    refine k.move hl ?_ ?_
    · cases s.isShutDown <;> rfl
    · intro hd
      simp [hd, HandlePc.polling]
  case h_6 hl =>
    have ho : s.epfd i = true := k.open_of_polling hl rfl
    simp only [ho, if_true, Option.some.injEq] at h
    subst h
    refine k.move hl ?_ fun _ _ => rfl
    cases r <;> rfl
  case h_7 hl => cases h; exact k.move hl rfl nofun
  case h_8 hl => cases h; exact k.move hl (k.leave hl) nofun
  case h_9 => cases h

theorem submit (h : s.submit n = some s') : Kept n s' := by
  have ⟨⟨ha, hl⟩, h⟩ := Option.ite_none_right_eq_some.mp h
  cases h
  have hc : s.loops.countP HandlePc.counted =
        (s.loops ++ [HandlePc.queued]).countP HandlePc.counted := by
    simp [HandlePc.counted]
  by_cases hn : s.loops.length + 1 = n.toNat
  case pos =>
    rw [if_pos hn]
    refine ⟨k.count.trans hc, by simpa using hl, fun _ => by simpa using hn, nofun, nofun, ?_, k.misused⟩
    exact fun _ => k.opened (by simp [ha, App.over])
  case neg =>
    rw [if_neg hn]
    refine ⟨k.count.trans hc, by simpa using hl, fun h => absurd rfl h, nofun, nofun, ?_, k.misused⟩
    exact fun _ => k.opened (by simp [ha, App.over])

-- The counter is 0 when no loop is between its increment and its decrement.
theorem not_counted (h : s.curWorkerThrds = 0) : ∀ pc ∈ s.loops, ¬pc.counted := by
  have hc := k.count
  rw [h, UInt32.toNat_zero] at hc
  exact List.countP_eq_zero.mp hc.symm

theorem read (h : s.read = some s') : Kept n s' := by
  have ⟨ha, h⟩ := Option.ite_none_right_eq_some.mp h
  cases h
  split
  case isFalse => exact k
  case isTrue hz =>
    refine ⟨k.count, k.length, fun _ => k.full (by simp [ha]), fun _ => k.told (by simp [ha, App.told]),
      fun _ pc hm hp => k.not_counted hz pc hm ?_, nofun, k.misused⟩
    cases pc <;> simp_all [HandlePc.polling, HandlePc.counted]

theorem close (h : s.close = some s') : Kept n s' := by
  unfold NetPoll.close at h
  split at h <;> cases h
  rename_i ha
  have full := k.full (by simp [ha])
  have told := k.told (by simp [ha, App.told])
  have idle := k.idle (by simp [ha, App.over])
  split <;> exact ⟨k.count, k.length, fun _ => full, fun _ => told, fun _ => idle,
    fun h => absurd rfl h, k.misused⟩

theorem step {a : Act} (h : step n s a = some s') : Kept n s' := by
  cases a
  case submit         => exact k.submit h
  case read           => exact k.read h
  case close          => exact k.close h
  case loopHandle i r => exact k.loopHandle h
  case letStop =>
    have ⟨ha, h⟩ := Option.ite_none_right_eq_some.mp h
    cases h
    exact ⟨k.count, k.length, fun _ => k.full (by simp [ha]), fun _ => rfl, nofun,
      fun _ => k.opened (by simp [ha, App.over]), k.misused⟩
  case waitStop =>
    have ⟨ha, h⟩ := Option.ite_none_right_eq_some.mp h
    cases h
    exact ⟨k.count, k.length, fun _ => k.full (by simp [ha]),
      fun _ => k.told (by simp [ha, App.told]), nofun, fun _ => k.opened (by simp [ha, App.over]),
      k.misused⟩

end Kept

theorem Kept.of_reachable (h : (netPoll n).Reachable s) : Kept n s := by
  apply h.invariant
  case h₀ =>
    rintro _ rfl
    exact ⟨rfl, Nat.zero_le _, fun h => absurd rfl h, nofun, nofun,
      fun _ i hi => decide_eq_true hi, rfl⟩
  case hs => exact fun _ _ _ k _ h => k.step h

theorem loopHandle_app (h : s.loopHandle i r = some s') :
    s'.app = s.app ∧ ∃ pc, s.loops[i]? = some pc ∧ pc ≠ .left := by
  unfold loopHandle at h
  dsimp only at h
  split at h <;> cases h
  all_goals
    rename_i hl
    exact ⟨rfl, _, hl, nofun⟩

-- When wait_stop reads 0, every loop has come past its increment.
def Begun (s : NetPoll) : Act → Prop
  | .read => s.curWorkerThrds = 0 → ∀ pc ∈ s.loops, ¬pc.early
  | _     => True

theorem left_of_over (h : (netPoll n).Reach Begun s) : s.app.over → ∀ pc ∈ s.loops, pc = .left := by
  apply h.invariant_with (J := Kept n) (fun _ h => .of_reachable h.reachable)
  case h₀ => rintro _ rfl; exact nofun
  case hs =>
    intro s a s' k hi ho h
    cases a
    case submit =>
      have ⟨_, h⟩ := Option.ite_none_right_eq_some.mp h
      cases h
      intro ho
      split at ho <;> cases ho
    case letStop =>
      have ⟨_, h⟩ := Option.ite_none_right_eq_some.mp h
      cases h
      exact nofun
    case waitStop =>
      have ⟨_, h⟩ := Option.ite_none_right_eq_some.mp h
      cases h
      exact nofun
    case read =>
      have ⟨ha, h⟩ := Option.ite_none_right_eq_some.mp h
      cases h
      split
      case isFalse => exact hi
      case isTrue hz =>
        intro _ pc hm
        have hc := k.not_counted hz pc hm
        have he := ho hz pc hm
        cases pc <;> simp_all [HandlePc.counted, HandlePc.early]
    case close =>
      have h : s.close = some s' := h
      unfold NetPoll.close at h
      split at h <;> cases h
      rename_i ha
      have hl := hi (by simp [ha, App.over])
      split <;> exact fun _ => hl
    case loopHandle i r =>
      have ⟨ha, hn⟩ := loopHandle_app h
      intro ho
      have ⟨pc, hm, hne⟩ := hn
      exact absurd (hi (ha ▸ ho) pc (List.mem_of_getElem? hm)) hne

-- wait_stop returns when all loops have left loop_handle, and none has waited on a closed
-- descriptor.
theorem left_of_returned (h : (netPoll n).Reach Begun s) (ha : s.app = .returned) :
    s.loops.length = n.toNat ∧ (∀ pc ∈ s.loops, pc = .left) ∧ s.misused = [] := by
  have k := Kept.of_reachable h.reachable
  exact ⟨k.full (by simp [ha]), left_of_over h (by simp [ha, App.over]), k.misused⟩

instance : ∀ s a, Decidable (Begun s a)
  | _, .read => inferInstanceAs (Decidable (_ → _))
  | _, .submit | _, .letStop | _, .waitStop | _, .close | _, .loopHandle .. =>
    inferInstanceAs (Decidable True)

def sampleActs : List Act :=
  [Act.submit, .loopHandle 0 .events, .loopHandle 0 .events, .submit, .loopHandle 1 .events,
   .letStop, .waitStop, .read, .loopHandle 1 .events] ++
  List.replicate 3 (Act.loopHandle 0 .events) ++ [Act.read] ++
  List.replicate 3 (Act.loopHandle 1 .events) ++ Act.read :: List.replicate 33 Act.close

theorem left_of_returned_sample : ∃ s, (netPoll 2).Reach Begun s ∧ s.app = .returned ∧
    s.loops.length = (2 : UInt32).toNat ∧ (∀ pc ∈ s.loops, pc = .left) ∧ s.misused = [] := by
  have run : ∃ s, (netPoll 2).Reach Begun s ∧ s.app = .returned :=
    System.Reach.exists_of_run sampleActs _ rfl (by decide)
  have ⟨s, hr, ha⟩ := run
  exact ⟨s, hr, ha, left_of_returned hr ha⟩

-- The loop is still in the queue when wait_stop reads the counter.
theorem not_left : ¬∀ n, 1 ≤ n.toNat → ∀ s, (netPoll n).Reachable s → s.app = .returned →
    s.loops.length = n.toNat ∧ (∀ pc ∈ s.loops, pc = .left) ∧ s.misused = [] := by
  intro h
  have ⟨s, hr, ha, hl⟩ := (netPoll 1).exists_of_run
    ([.submit, .letStop, .waitStop, .read] ++ List.replicate 33 .close)
    (fun s => s.app = .returned ∧ s.loops = [.queued]) rfl (by decide)
  have hq := (h 1 (by decide) s hr ha).2.1 .queued (by simp [hl])
  cases hq

end NetPoll
end NetPool
