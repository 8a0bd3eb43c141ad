import NetPool.Lib.Worklist
import NetPool.Time.Walk

namespace NetPool

-- A call of `add_time_job`. `curTime` is what it reads from the clock.
structure Timer (F P : Type*) where
  curTime   : Nat
  func      : F
  param1    : P
  param2    : P
  param3    : P
  param4    : P
  timeValue : UInt32
  isOnce    : Bool

variable {F P : Type*}

-- Whether the job that the call makes is due.
def Timer.isExpired (t : Timer F P) (nowtime : Nat) : Bool :=
  u64 (t.curTime + t.timeValue.toNat) ≤ nowtime

def Timer.act (t : Timer F P) : TimeWalk.Act F P :=
  .add t.curTime t.func t.param1 t.param2 t.param3 t.param4 t.timeValue t.isOnce

namespace TimeWalk

variable {w w' : TimeWalk F P} {job : TimeJob F P} {p k : Nat} {itr : Option Nat}
  {kept rest : List (TimeJob F P)} {ts : List (Timer F P)} {callbacks : Nat → List (Timer F P)}

def addTimer (w : TimeWalk F P) (t : Timer F P) : TimeWalk F P :=
  { w with
    mgr := w.mgr.addTimeJob t.curTime t.func t.param1 t.param2 t.param3 t.param4 t.timeValue
      t.isOnce }

-- One turn of the loop, from its test to the next. The callback that is called after `k` others
-- adds the timers `callbacks k`.
def turn (callbacks : Nat → List (Timer F P)) (s : Nat × TimeWalk F P) : Nat × TimeWalk F P :=
  match s.2.pc with
  | .loop itr =>
    let w := s.2.visit itr
    match w.pc with
    | .firing pTimeJob itr => (s.1 + 1, ((callbacks s.1).foldl addTimer w).ret pTimeJob itr)
    | .idle | .loop _ | .broken => (s.1, w)
  | .idle | .firing .. | .broken => s

def Returns (callbacks : Nat → List (Timer F P)) (w : TimeWalk F P) : Prop :=
  ∃ n, ((turn callbacks)^[n] (0, w)).2.pc = .idle

-- The jobs of the list and those that the first `k` callbacks add, in the order of the list, each
-- with whether it is due.
def dues (callbacks : Nat → List (Timer F P)) (timeJobs : List (TimeJob F P)) (now k : Nat) :
    List Bool :=
  timeJobs.map (·.isExpired now) ++
    (List.range k).flatMap fun i => (callbacks i).map (·.isExpired now)

-- For some `k` at most `k` of these are due, the last one not counted.
def Settles (callbacks : Nat → List (Timer F P)) (timeJobs : List (TimeJob F P)) (now : Nat) :
    Prop :=
  ∃ k, (dues callbacks timeJobs now k).dropLast.countP id ≤ k

section Fresh

-- The addresses of the jobs.
structure Fresh (w : TimeWalk F P) : Prop where
  nodup : (w.mgr.timeJobs.map (·.ptr)).Nodup
  lt    : ∀ job ∈ w.mgr.timeJobs, job.ptr < w.mgr.next

theorem Fresh.sublist (h : w.Fresh)
    (hs : (w'.mgr.timeJobs.map (·.ptr)).Sublist (w.mgr.timeJobs.map (·.ptr)))
    (hn : w'.mgr.next = w.mgr.next) : w'.Fresh where
  nodup := h.nodup.sublist hs
  lt job hj := by
    have ⟨job', hj', he⟩ := List.mem_map.mp <| hs.mem <| List.mem_map_of_mem hj
    rw [hn, ← he]
    exact h.lt job' hj'

theorem Fresh.add (h : w.Fresh) (hm : w'.mgr.timeJobs = w.mgr.timeJobs ++ [job])
    (hj : job.ptr = w.mgr.next) (hn : w'.mgr.next = w.mgr.next + 1) : w'.Fresh where
  nodup := by
    rw [hm]
    exact nodup_map_concat h.nodup fun j hj' => hj ▸ (h.lt j hj').ne
  lt := by
    rw [hm, hn]
    exact List.forall_mem_append.mpr
      ⟨fun j hj => (h.lt j hj).trans (Nat.lt_succ_self _), by simp [hj]⟩

theorem Fresh.delTimeNode (h : w.Fresh) (hm : w'.mgr = w.mgr.delTimeNode p) : w'.Fresh :=
  h.sublist (hm ▸ List.filter_sublist.map _) (hm ▸ rfl)

theorem visit_ptrs (w : TimeWalk F P) (itr : Option Nat) :
    ((w.visit itr).mgr.timeJobs.map (·.ptr)) = w.mgr.timeJobs.map (·.ptr) ∧
      (w.visit itr).mgr.next = w.mgr.next := by
  cases itr
  case none   => exact ⟨rfl, rfl⟩
  case some p =>
    simp only [visit]
    split
    case h_1 => exact ⟨rfl, rfl⟩
    case h_2 job hf =>
      split
      case isFalse => exact ⟨rfl, rfl⟩
      case isTrue  =>
        refine ⟨?_, rfl⟩
        rw [TimeJobMgr.putTimeJob, List.map_map]
        refine List.map_congr_left fun j _ => ?_
        by_cases hp : j.ptr = job.ptr <;> simp [TimeJob.updateExpiredTime, hp]

theorem Fresh.visit (h : w.Fresh) : (w.visit itr).Fresh :=
  have ⟨ptrs, next⟩ := visit_ptrs w itr
  h.sublist (ptrs ▸ List.Sublist.refl _) next

theorem Fresh.ret (h : w.Fresh) : (w.ret p itr).Fresh := by
  simp only [TimeWalk.ret]
  split
  case h_1 => exact h.sublist (List.Sublist.refl _) rfl
  case h_2 =>
    split
    case isTrue  => exact h.delTimeNode rfl
    case isFalse => exact h.sublist (List.Sublist.refl _) rfl

theorem Fresh.addTimers (h : w.Fresh) : (ts.foldl addTimer w).Fresh := by
  induction ts generalizing w
  case nil          => exact h
  case cons t ts hi => exact hi (h.add rfl rfl rfl)

theorem Fresh.step [DecidableEq F] [DecidableEq P] {a : Act F P} (h : w.Fresh)
    (hs : w.step a = some w') : w'.Fresh := by
  cases a
  case add =>
    simp only [TimeWalk.step] at hs
    split at hs <;> cases hs
    all_goals exact h.add rfl rfl rfl
  case del func param1 =>
    have hd : ∀ w' : TimeWalk F P, w'.mgr = (w.mgr.delTimeJob func param1).1 → w'.Fresh := by
      intro w' he
      unfold TimeJobMgr.delTimeJob at he
      split at he
      case h_1 => exact h.sublist (he ▸ List.Sublist.refl _) (he ▸ rfl)
      case h_2 => exact h.delTimeNode he
    simp only [TimeWalk.step] at hs
    split at hs <;> cases hs
    all_goals exact hd _ rfl
  case start =>
    simp only [TimeWalk.step] at hs
    split at hs <;> cases hs
    exact h.sublist (List.Sublist.refl _) rfl
  case visit =>
    simp only [TimeWalk.step] at hs
    split at hs <;> cases hs
    exact h.visit
  case ret =>
    simp only [TimeWalk.step] at hs
    split at hs <;> cases hs
    exact h.ret

theorem Fresh.of_reachable [DecidableEq F] [DecidableEq P] (h : (timeWalk F P).Reachable w) :
    w.Fresh := by
  apply h.invariant
  case h₀ => rintro _ rfl; exact ⟨List.nodup_nil, nofun⟩
  case hs => exact fun _ _ _ h _ hs => h.step hs

end Fresh

section Turn

-- The new jobs stand at the end of the list.
theorem addTimers_eq (w : TimeWalk F P) (ts : List (Timer F P)) : ∃ m jobs,
    ts.foldl addTimer w = { w with mgr := m } ∧ m.timeJobs = w.mgr.timeJobs ++ jobs ∧
    ∀ now, jobs.map (·.isExpired now) = ts.map (·.isExpired now) := by
  induction ts generalizing w
  case nil => exact ⟨w.mgr, [], rfl, by simp, by simp⟩
  case cons t ts hi =>
    have ⟨m, jobs, he, hm, hx⟩ := hi (addTimer w t)
    let job : TimeJob F P := ⟨w.mgr.next, t.func, t.param1, t.param2, t.param3, t.param4,
      t.timeValue.toNat, t.isOnce, u64 (t.curTime + t.timeValue.toNat)⟩
    refine ⟨m, job :: jobs, he, ?_, fun now => ?_⟩
    case refine_1 =>
      rw [hm]
      exact List.append_assoc ..
    case refine_2 =>
      rw [List.map_cons, List.map_cons, hx now]
      rfl

theorem run_addTimers [DecidableEq F] [DecidableEq P] (hp : w.pc = .firing p itr) :
    (timeWalk F P).run w (ts.map Timer.act) = some (ts.foldl addTimer w) := by
  induction ts generalizing w
  case nil          => rfl
  case cons t ts hi =>
    have hs : (timeWalk F P).step w t.act = some (addTimer w t) := by
      simp [timeWalk, TimeWalk.step, Timer.act, hp, addTimer]
    rw [List.map_cons, System.run_cons, hs]
    exact hi hp

-- The turns of the loop are runs of the walk.
theorem run_turn [DecidableEq F] [DecidableEq P] (callbacks : Nat → List (Timer F P)) (k : Nat)
    (w : TimeWalk F P) :
    ∃ as, (timeWalk F P).run w as = some (turn callbacks (k, w)).2 := by
  cases hp : w.pc
  case idle   => exact ⟨[], by simp [turn, hp]⟩
  case firing => exact ⟨[], by simp [turn, hp]⟩
  case broken => exact ⟨[], by simp [turn, hp]⟩
  case loop itr =>
    have hv : (timeWalk F P).step w .visit = some (w.visit itr) := by
      simp [timeWalk, TimeWalk.step, hp]
    cases hp' : (w.visit itr).pc
    case firing p itr' =>
      refine ⟨.visit :: (callbacks k).map Timer.act ++ [.ret], ?_⟩
      rw [System.run_concat, System.run_cons, hv, Option.bind_some, run_addTimers hp']
      obtain ⟨m, _, he, _⟩ := addTimers_eq (w.visit itr) (callbacks k)
      simp [timeWalk, TimeWalk.step, turn, hp, hp', he]
    all_goals exact ⟨[.visit], by simp [turn, hp, hp', hv]⟩

-- The job that was fired is still in the list, in front of the jobs that the walk has not visited.
theorem ret_eq (itr : Option Nat) (h : w.mgr.timeJobs = kept ++ job :: rest) (fresh : w.Fresh) :
    ∃ kept', (w.ret job.ptr itr).mgr.timeJobs = kept' ++ rest ∧
      (w.ret job.ptr itr).pc = .loop itr ∧ (w.ret job.ptr itr).nowtime = w.nowtime := by
  have hf := find_eq h fresh.nodup
  have ⟨_, hr⟩ := List.forall_mem_append.mp <| TimeJobMgr.ptr_ne_of_nodup (h ▸ fresh.nodup)
  cases ho : job.isOnce
  case false =>
    rw [ret_kept hf ho]
    exact ⟨kept ++ [job], by simp [h], rfl, rfl⟩
  case true =>
    rw [ret_once hf ho]
    refine ⟨kept.filter (·.ptr ≠ job.ptr), ?_, rfl, rfl⟩
    rw [TimeJobMgr.delTimeNode, h, List.filter_append, List.filter_cons,
      TimeJobMgr.filter_absent hr]
    simp

def asks (callbacks : Nat → List (Timer F P)) (now k : Nat) : List Bool :=
  (callbacks k).map (·.isExpired now)

-- A turn at a job that is due: what its callback adds comes behind the jobs not yet visited.
theorem turn_due (callbacks : Nat → List (Timer F P)) (k : Nat) (hp : w.pc = .loop (some job.ptr))
    (hl : w.mgr.timeJobs = kept ++ job :: rest) (fresh : w.Fresh)
    (hx : job.isExpired w.nowtime = true) :
    ∃ kept' jobs,
      (turn callbacks (k, w)).1 = k + 1 ∧
      (turn callbacks (k, w)).2.pc = .loop (rest.head?.map (·.ptr)) ∧
      (turn callbacks (k, w)).2.nowtime = w.nowtime ∧
      (turn callbacks (k, w)).2.mgr.timeJobs = kept' ++ (rest ++ jobs) ∧
      jobs.map (·.isExpired w.nowtime) = asks callbacks w.nowtime k := by
  have hv := visit_due hl fresh.nodup hx
  have ⟨m, jobs, hm, hj, hb⟩ := addTimers_eq (w.visit (some job.ptr)) (callbacks k)
  have hw : turn callbacks (k, w) = (k + 1,
      ((callbacks k).foldl addTimer (w.visit (some job.ptr))).ret job.ptr
        (rest.head?.map (·.ptr))) := by
    simp [turn, hp, hv]
  have hl : ((callbacks k).foldl addTimer (w.visit (some job.ptr))).mgr.timeJobs =
      kept ++ job.updateExpiredTime w.nowtime :: (rest ++ jobs) := by
    have hp : (w.mgr.putTimeJob (job.updateExpiredTime w.nowtime)).timeJobs = _ :=
      TimeJobMgr.putTimeJob_eq (hl ▸ fresh.nodup) hl rfl
    rw [hm, hj, hv]
    simp [hp]
  have ⟨kept', ht, hc, hn⟩ := ret_eq (rest.head?.map (·.ptr)) hl fresh.visit.addTimers
  have hn' : ((callbacks k).foldl addTimer (w.visit (some job.ptr))).nowtime = w.nowtime := by
    rw [hm, hv]
  rw [hw]
  exact ⟨kept', jobs, rfl, hc, hn.trans hn', ht, hb _⟩

-- The walk as a worklist: what the iterator has not passed, each job with whether it is due.
structure Ahead (s : Nat × TimeWalk F P) (now : Nat) (l : Worklist Bool) : Prop where
  served : l.served = s.1
  time   : s.2.nowtime = now
  queue  : match s.2.pc with
    | .idle    => l.queue = []
    | .loop itr => ∃ kept rest, s.2.mgr.timeJobs = kept ++ rest ∧ itr = rest.head?.map (·.ptr) ∧
      l.queue = rest.map (·.isExpired now)
    | .firing .. | .broken => False

variable {l : Worklist Bool} {now : Nat} {s : Nat × TimeWalk F P}

theorem Ahead.turn (h : Ahead s now l) (fresh : s.2.Fresh) :
    Ahead (turn callbacks s) now (l.turn id (asks callbacks now)) := by
  obtain ⟨k, w⟩ := s
  obtain ⟨served, time, queue⟩ := h
  obtain rfl : w.nowtime = now := time
  cases hp : w.pc <;> simp only [hp] at queue
  case idle =>
    have hl : l.turn id (asks callbacks w.nowtime) = l := by simp [Worklist.turn, queue]
    have hw : TimeWalk.turn callbacks (k, w) = (k, w) := by simp [TimeWalk.turn, hp]
    rw [hl, hw]
    exact ⟨served, rfl, by simp [hp, queue]⟩
  case loop itr =>
    obtain ⟨kept, rest, hl, rfl, hq⟩ := queue
    obtain ⟨k', q⟩ := l
    obtain rfl : k = k' := served.symm
    obtain rfl : q = rest.map (·.isExpired w.nowtime) := hq
    cases rest
    case nil =>
      have hw : TimeWalk.turn callbacks (k, w) = (k, { w with pc := .idle }) := by
        simp [TimeWalk.turn, hp, TimeWalk.visit]
      rw [hw]
      exact ⟨rfl, rfl, rfl⟩
    case cons job rest =>
      cases hx : job.isExpired w.nowtime
      case false =>
        have hv := visit_early hl fresh.nodup hx
        have hw : TimeWalk.turn callbacks (k, w) = (k, w.visit (some job.ptr)) := by
          simp [TimeWalk.turn, hp, hv]
        rw [hw, hv]
        refine ⟨?_, rfl, kept ++ [job], rest, by simp [hl], rfl, ?_⟩
        all_goals cases rest <;> simp [Worklist.turn, hx]
      case true =>
        obtain ⟨kept', jobs, hk, hc, ht, hl, hb⟩ := turn_due callbacks k hp hl fresh hx
        refine ⟨?_, ht, ?_⟩
        case refine_1 => cases rest <;> simp [Worklist.turn, hx, hk]
        case refine_2 =>
          rw [hc]
          cases rest
          case nil  => exact ⟨kept' ++ jobs, [], by simpa using hl, rfl, rfl⟩
          case cons => exact ⟨kept', _ :: _ ++ jobs, hl, rfl, by simp [Worklist.turn, hx, ← hb]⟩

theorem Ahead.turns [DecidableEq F] [DecidableEq P] (h : Ahead s now l)
    (hr : (timeWalk F P).Reachable s.2) (n : Nat) :
    Ahead ((TimeWalk.turn callbacks)^[n] s) now
      ((Worklist.turn id (asks callbacks now))^[n] l) := by
  induction n generalizing s l
  case zero      => exact h
  case succ n hi =>
    have ⟨_, hs⟩ := run_turn callbacks s.1 s.2
    exact hi (h.turn (.of_reachable hr)) (hr.of_run hs)

theorem Ahead.queue_eq_nil (h : Ahead s now l) (hp : s.2.pc = .idle) : l.queue = [] := by
  simpa [hp] using h.queue

-- The test of the loop is still to come when the iterator is at the end.
theorem Ahead.turn_idle (h : Ahead s now l) (hq : l.queue = []) :
    (TimeWalk.turn callbacks s).2.pc = .idle := by
  have queue := h.queue
  cases hp : s.2.pc <;> simp only [hp] at queue
  case idle     => simp [TimeWalk.turn, hp]
  case loop itr =>
    have ⟨_, rest, _, hi, he⟩ := queue
    obtain rfl : rest = [] := List.map_eq_nil_iff.mp (he.symm.trans hq)
    obtain rfl : itr = none := hi
    simp [TimeWalk.turn, hp, visit]

theorem returns_iff_ends [DecidableEq F] [DecidableEq P] (hr : (timeWalk F P).Reachable w)
    (hs : (timeWalk F P).step w (.start now) = some w') : w'.Returns callbacks ↔
      Worklist.Ends id (asks callbacks now) ⟨0, w.mgr.timeJobs.map (·.isExpired now)⟩ := by
  have hr' : (timeWalk F P).Reachable w' := hr.step trivial hs
  have start : Ahead (0, w') now ⟨0, w.mgr.timeJobs.map (·.isExpired now)⟩ := by
    simp only [timeWalk, TimeWalk.step] at hs
    split at hs <;> cases hs
    exact ⟨rfl, rfl, [], w.mgr.timeJobs, rfl, rfl, rfl⟩
  constructor
  case mp =>
    rintro ⟨n, h⟩
    exact ⟨n, (start.turns hr' n).queue_eq_nil h⟩
  case mpr =>
    rintro ⟨n, h⟩
    refine ⟨n + 1, ?_⟩
    rw [Function.iterate_succ_apply']
    exact (start.turns hr' n).turn_idle h

theorem settles_iff {jobs : List (TimeJob F P)} : Settles callbacks jobs now ↔
    Worklist.Settles id (asks callbacks now) ⟨0, jobs.map (·.isExpired now)⟩ := by
  simp [Settles, Worklist.Settles, dues, Worklist.arrivals, asks]

end Turn

-- The iterator also comes to the jobs that the callbacks add, unless it stands at the end already
-- when the callback of the last job is called.
theorem walk_returns [DecidableEq F] [DecidableEq P] (hr : (timeWalk F P).Reachable w)
    (hs : (timeWalk F P).step w (.start now) = some w') :
    w'.Returns callbacks ↔ Settles callbacks w.mgr.timeJobs now := by
  rw [returns_iff_ends hr hs, Worklist.ends_iff, settles_iff]

-- Timers for once whose callbacks make them again, each at the time 5.
def rearm (timeValue : Nat → UInt32) (k : Nat) : List (Timer Nat Nat) :=
  [⟨5, 0, k % 2, 0, 0, 0, timeValue k, true⟩]

theorem exists_two_due : ∃ w, (timeWalk Nat Nat).Reachable w ∧
    w.mgr.timeJobs.map (·.isExpired 5) = [true, true] ∧
    ∃ w', (timeWalk Nat Nat).step w (.start 5) = some w' := by
  have ⟨w, hr, hj, hs⟩ : ∃ w, (timeWalk Nat Nat).Reachable w ∧
      w.mgr.timeJobs.map (·.isExpired 5) = [true, true] ∧
      ((timeWalk Nat Nat).step w (.start 5)).isSome :=
    System.exists_of_run [.add 5 0 0 0 0 0 0 true, .add 5 0 1 0 0 0 0 true] _ rfl (by decide)
  exact ⟨w, hr, hj, Option.isSome_iff_exists.mp hs⟩

-- The first callback asks for no delay, all others for a delay of one.
theorem walk_returns_rearmed : ∃ w w', (timeWalk Nat Nat).Reachable w ∧
    (timeWalk Nat Nat).step w (.start 5) = some w' ∧
    w'.Returns (rearm fun k => if k = 0 then 0 else 1) := by
  have ⟨w, hr, hj, w', hs⟩ := exists_two_due
  refine ⟨w, w', hr, hs, (walk_returns hr hs).mpr ⟨3, ?_⟩⟩
  rw [dues, hj]
  decide

-- No callback asks for a delay.
theorem not_walk_returns : ∃ w w' callbacks, (timeWalk Nat Nat).Reachable w ∧
    (timeWalk Nat Nat).step w (.start 5) = some w' ∧
    (∀ k, ∀ t ∈ callbacks k, t.curTime = 5 ∧ t.isOnce) ∧ ¬w'.Returns callbacks := by
  have ⟨w, hr, hj, w', hs⟩ := exists_two_due
  refine ⟨w, w', rearm fun _ => 0, hr, hs, by simp [rearm], ?_⟩
  rw [returns_iff_ends hr hs, Worklist.ends_iff, ← settles_iff]
  intro ⟨k, h⟩
  have hd : dues (rearm fun _ => 0) w.mgr.timeJobs 5 k = List.replicate (k + 2) true := by
    have hl : (dues (rearm fun _ => 0) w.mgr.timeJobs 5 k).length = k + 2 := by
      simp [dues, hj, rearm]
    refine List.eq_replicate_iff.mpr ⟨hl, fun b hb => ?_⟩
    obtain hb | hb := List.mem_append.mp hb
    case inl => simpa [hj] using hb
    case inr =>
      have ⟨_, h⟩ : (∃ i, i < k) ∧ b = true := by simpa [rearm, Timer.isExpired, u64] using hb
      exact h
  rw [hd, List.dropLast_replicate, List.countP_replicate] at h
  exact absurd h (by simp)

end TimeWalk
end NetPool
