import NetPool.Lib.List
import NetPool.Lib.System

namespace NetPool

-- unsigned long long
def u64 (n : Nat) : Nat :=
  n % 2 ^ 64

-- CTimeJob. `ptr` is the object itself: no two jobs share one.
structure TimeJob (F P : Type*) where
  ptr        : Nat
  func       : F
  param1     : P
  param2     : P
  param3     : P
  param4     : P
  timeValue  : Nat
  isOnce     : Bool
  expireTime : Nat

namespace TimeJob

-- A call of the callback of a job, with the walk time it was made at.
structure Firing (F P : Type*) where
  ptr    : Nat
  func   : F
  param1 : P
  param2 : P
  param3 : P
  param4 : P
  time   : Nat

variable {F P : Type*}

def isExpired (job : TimeJob F P) (nowtime : Nat) : Bool :=
  job.expireTime ≤ nowtime

def updateExpiredTime (job : TimeJob F P) (nowtime : Nat) : TimeJob F P :=
  { job with expireTime := u64 (nowtime + job.timeValue) }

def isSelf [DecidableEq F] [DecidableEq P] (job : TimeJob F P) (func : F) (param1 : P) : Bool :=
  job.func = func ∧ param1 = job.param1

def doit (job : TimeJob F P) (time : Nat) : Firing F P :=
  ⟨job.ptr, job.func, job.param1, job.param2, job.param3, job.param4, time⟩

end TimeJob

open TimeJob in
-- CTimeJobMgr. `added` notes every job as it was made with the time of its making, `fired` every
-- call of a callback, `clock` the last time that was read.
structure TimeJobMgr (F P : Type*) where
  timeJobs : List (TimeJob F P)
  next     : Nat
  clock    : Nat
  added    : List (TimeJob F P × Nat)
  fired    : List (Firing F P)

namespace TimeJobMgr

variable {F P : Type*}

def addTimeNode (m : TimeJobMgr F P) (timeNode : TimeJob F P) : TimeJobMgr F P :=
  { m with timeJobs := m.timeJobs ++ [timeNode] }

-- std::list::remove
def delTimeNode (m : TimeJobMgr F P) (timeNode : Nat) : TimeJobMgr F P :=
  { m with timeJobs := m.timeJobs.filter (·.ptr ≠ timeNode) }

def findTimeJobs [DecidableEq F] [DecidableEq P] (m : TimeJobMgr F P) (func : F) (param1 : P) :
    Option (TimeJob F P) :=
  m.timeJobs.find? (·.isSelf func param1)

def addTimeJob (m : TimeJobMgr F P) (curTime : Nat) (func : F) (param1 param2 param3 param4 : P)
    (timeValue : UInt32) (isOnce : Bool) : TimeJobMgr F P :=
  let timeNode : TimeJob F P :=
    ⟨m.next, func, param1, param2, param3, param4, timeValue.toNat, isOnce,
      u64 (curTime + timeValue.toNat)⟩
  { m.addTimeNode timeNode with
    next  := m.next + 1
    added := m.added ++ [(timeNode, curTime)] }

-- The answer tells whether there was such a job.
def delTimeJob [DecidableEq F] [DecidableEq P] (m : TimeJobMgr F P) (func : F) (param1 : P) :
    TimeJobMgr F P × Bool :=
  match m.findTimeJobs func param1 with
  | none     => (m, false)
  | some job => (m.delTimeNode job.ptr, true)

-- An assignment to the fields of a job in the list.
def putTimeJob (m : TimeJobMgr F P) (job : TimeJob F P) : TimeJobMgr F P :=
  { m with timeJobs := m.timeJobs.map fun j => if j.ptr = job.ptr then job else j }

-- The body of the loop. The iterator is already past the job.
def walkJob (m : TimeJobMgr F P) (nowtime : Nat) (pTimeJob : Nat) : TimeJobMgr F P :=
  match m.timeJobs.find? (·.ptr = pTimeJob) with
  | none     => m
  | some job =>
    if job.isExpired nowtime then
      let job := job.updateExpiredTime nowtime
      let m := m.putTimeJob job
      let m := { m with fired := m.fired ++ [job.doit nowtime] }
      if job.isOnce then m.delTimeNode pTimeJob else m
    else
      m

-- The iterator stands for the nodes from it to the end of the list.
def walkFrom (m : TimeJobMgr F P) (nowtime : Nat) : List Nat → TimeJobMgr F P
  | []              => m
  | pTimeJob :: itr => (m.walkJob nowtime pTimeJob).walkFrom nowtime itr

def timeJobWalk (m : TimeJobMgr F P) (nowtime : Nat) : TimeJobMgr F P :=
  m.walkFrom nowtime (m.timeJobs.map (·.ptr))

inductive Act (F P : Type*)
  | add (curTime : Nat) (func : F) (param1 param2 param3 param4 : P) (timeValue : UInt32)
      (isOnce : Bool)
  | del (func : F) (param1 : P)
  | walk (nowtime : Nat)

-- The clock does not go back, and stays below 2^63.
def tick (m : TimeJobMgr F P) (now : Nat) : Option (TimeJobMgr F P) :=
  if m.clock ≤ now ∧ now < 2 ^ 63 then some { m with clock := now } else none

def step [DecidableEq F] [DecidableEq P] (m : TimeJobMgr F P) : Act F P → Option (TimeJobMgr F P)
  | .add curTime func param1 param2 param3 param4 timeValue isOnce =>
    (m.tick curTime).map (·.addTimeJob curTime func param1 param2 param3 param4 timeValue isOnce)
  | .del func param1 => some (m.delTimeJob func param1).1
  | .walk nowtime    => (m.tick nowtime).map (·.timeJobWalk nowtime)

end TimeJobMgr

def timeJobMgr (F P : Type*) [DecidableEq F] [DecidableEq P] :
    System (TimeJobMgr F P) (TimeJobMgr.Act F P) where
  init m := m = ⟨[], 0, 0, [], []⟩
  step   := TimeJobMgr.step

namespace TimeJobMgr

open TimeJob

variable {F P : Type*} {m m' : TimeJobMgr F P} {job job' : TimeJob F P} {now : Nat}
  {kept rest : List (TimeJob F P)}

-- What the walk leaves of a job.
def after (now : Nat) (job : TimeJob F P) : Option (TimeJob F P) :=
  if job.isExpired now then
    if job.isOnce then none else some (job.updateExpiredTime now)
  else
    some job

theorem ptr_of_after (h : after now job = some job') : job'.ptr = job.ptr := by
  unfold after at h
  split at h
  case isFalse => cases h; rfl
  case isTrue  =>
    have ⟨_, h⟩ := Option.ite_none_left_eq_some.mp h
    cases h
    rfl

theorem map_ptr_after {l : List (TimeJob F P)} :
    ((l.filterMap (after now)).map TimeJob.ptr).Sublist (l.map TimeJob.ptr) := by
  induction l
  case nil => exact List.Sublist.slnil
  case cons job l hi =>
    cases ha : after now job
    case none      => simpa [ha] using hi.cons job.ptr
    case some job' => simpa [ha, ptr_of_after ha] using hi

section Absent

variable {l : List (TimeJob F P)} {p : Nat} (absent : ∀ j ∈ l, j.ptr ≠ p)
include absent

theorem find_absent : l.find? (·.ptr = p) = none :=
  List.find?_eq_none.mpr fun j hj => by simpa using absent j hj

theorem put_absent : (l.map fun j => if j.ptr = p then job else j) = l := by
  rw [List.map_congr_left fun j hj => if_neg (absent j hj), List.map_id']

theorem filter_absent : l.filter (·.ptr ≠ p) = l :=
  List.filter_eq_self.mpr fun j hj => by simpa using absent j hj

end Absent

section Walk

variable (nodup : ((kept ++ job :: rest).map TimeJob.ptr).Nodup)
include nodup

theorem ptr_ne_of_nodup : ∀ j ∈ kept ++ rest, j.ptr ≠ job.ptr := by
  rw [List.map_append, List.map_cons] at nodup
  have hn := (List.nodup_middle.mp nodup).notMem
  rw [← List.map_append] at hn
  exact fun j hj he => hn <| he ▸ List.mem_map_of_mem hj

theorem putTimeJob_eq (h : m.timeJobs = kept ++ job :: rest) (hp : job'.ptr = job.ptr) :
    (m.putTimeJob job').timeJobs = kept ++ job' :: rest := by
  have hn := ptr_ne_of_nodup nodup
  rw [← hp] at hn
  have ⟨hk, hr⟩ := List.forall_mem_append.mp hn
  rw [putTimeJob, h, List.map_append, List.map_cons, put_absent hk, put_absent hr, if_pos hp.symm]

theorem walkJob_eq (h : m.timeJobs = kept ++ job :: rest) :
    m.walkJob now job.ptr = { m with
      timeJobs := kept ++ (after now job).toList ++ rest
      fired    := m.fired ++ ([job].filter (·.isExpired now)).map (·.doit now) } := by
  have ⟨hk, hr⟩ := List.forall_mem_append.mp (ptr_ne_of_nodup nodup)
  have hf : (kept ++ job :: rest).find? (·.ptr = job.ptr) = some job := by
    rw [List.find?_append, find_absent hk]
    simp
  simp only [walkJob, h, hf, after]
  split
  case isFalse he => simp [he, ← h]
  case isTrue he =>
    have hp : (m.putTimeJob (job.updateExpiredTime now)).timeJobs =
        kept ++ job.updateExpiredTime now :: rest := putTimeJob_eq nodup h rfl
    have hd : (kept ++ job.updateExpiredTime now :: rest).filter (·.ptr ≠ job.ptr) =
        kept ++ rest := by
      rw [List.filter_append, List.filter_cons, filter_absent hk, filter_absent hr]
      simp [TimeJob.updateExpiredTime]
    by_cases ho : job.isOnce
    case pos =>
      have ho' : (job.updateExpiredTime now).isOnce = true := ho
      simp only [ho', if_true, delTimeNode, hp, hd]
      simp [putTimeJob, he, ho, TimeJob.doit, TimeJob.updateExpiredTime]
    case neg =>
      have ho' : ¬(job.updateExpiredTime now).isOnce = true := ho
      rw [if_neg ho', hp]
      simp [putTimeJob, he, ho, TimeJob.doit, TimeJob.updateExpiredTime]

end Walk

-- The job that is visited stands at the front of what the iterator still has to pass, and nothing
-- behind it is touched.
theorem walkFrom_eq (h : m.timeJobs = kept ++ rest)
    (nodup : ((kept ++ rest).map TimeJob.ptr).Nodup) :
    m.walkFrom now (rest.map TimeJob.ptr) = { m with
      timeJobs := kept ++ rest.filterMap (after now)
      fired    := m.fired ++ (rest.filter (·.isExpired now)).map (·.doit now) } := by
  induction rest generalizing m kept
  case nil => simp [walkFrom, ← h]
  case cons job rest hi =>
    have hs : ((kept ++ (after now job).toList).map TimeJob.ptr).Sublist
        ((kept ++ [job]).map TimeJob.ptr) := by
      cases ha : after now job
      case none      => simp
      case some job' => simp [ptr_of_after ha]
    have nodup' : ((kept ++ (after now job).toList ++ rest).map TimeJob.ptr).Nodup := by
      rw [List.map_append]
      rw [← List.singleton_append, ← List.append_assoc, List.map_append] at nodup
      exact nodup.sublist (hs.append_right _)
    rw [List.map_cons, walkFrom, walkJob_eq nodup h, hi rfl nodup']
    simp only [TimeJobMgr.mk.injEq, true_and]
    refine ⟨?_, ?_⟩
    · cases ha : after now job <;> simp [ha]
    · cases he : job.isExpired now <;> simp [he]

theorem timeJobWalk_eq (nodup : (m.timeJobs.map TimeJob.ptr).Nodup) :
    m.timeJobWalk now = { m with
      timeJobs := m.timeJobs.filterMap (after now)
      fired    := m.fired ++ (m.timeJobs.filter (·.isExpired now)).map (·.doit now) } :=
  walkFrom_eq (List.nil_append _).symm nodup

def firings (m : TimeJobMgr F P) (p : Nat) : List (Firing F P) :=
  m.fired.filter (·.ptr = p)

theorem mem_firings {p : Nat} {f : Firing F P} : f ∈ m.firings p ↔ f ∈ m.fired ∧ f.ptr = p := by
  simp [firings]

-- Only the expire time of a job changes.
def Is (job made : TimeJob F P) : Prop :=
  { job with expireTime := made.expireTime } = made

-- A job in the list against the history: it is due a full time value after it was made and after
-- each of its firings, and has no firing if it is for once.
structure JobOk (m : TimeJobMgr F P) (job : TimeJob F P) : Prop where
  value : job.timeValue < 2 ^ 32
  made  : ∃ a ∈ m.added, Is job a.1 ∧ a.2 + job.timeValue ≤ job.expireTime
  fired : ∀ f ∈ m.fired, f.ptr = job.ptr → f.time + job.timeValue ≤ job.expireTime ∧ ¬job.isOnce

-- The firings of a job that was made, whether it is still in the list or not.
structure Spaced (m : TimeJobMgr F P) (a : TimeJob F P × Nat) : Prop where
  early : ∀ f ∈ m.fired, f.ptr = a.1.ptr → a.2 + a.1.timeValue ≤ f.time
  apart : m.fired.Pairwise fun f f' =>
    f.ptr = a.1.ptr → f'.ptr = a.1.ptr → f.time + a.1.timeValue ≤ f'.time ∧ ¬a.1.isOnce

structure Kept (m : TimeJobMgr F P) : Prop where
  nodup  : (m.timeJobs.map TimeJob.ptr).Nodup
  unique : (m.added.map (·.1.ptr)).Nodup
  fresh  : ∀ a ∈ m.added, a.1.ptr < m.next
  jobs   : ∀ job ∈ m.timeJobs, JobOk m job
  spaced : ∀ a ∈ m.added, Spaced m a
  own    : ∀ f ∈ m.fired, ∃ a ∈ m.added, f = a.1.doit f.time

theorem Is.eq {made : TimeJob F P} (h : Is job made) :
    job.ptr = made.ptr ∧ job.timeValue = made.timeValue ∧ job.isOnce = made.isOnce ∧
      ∀ time, job.doit time = made.doit time := by
  unfold Is at h
  rw [← h]
  exact ⟨rfl, rfl, rfl, fun _ => rfl⟩

theorem u64_add {c v : Nat} (hc : c < 2 ^ 63) (hv : v < 2 ^ 32) : u64 (c + v) = c + v :=
  Nat.mod_eq_of_lt (by omega)

namespace Kept

variable (k : Kept m)
include k

theorem made_eq {a b : TimeJob F P × Nat} (ha : a ∈ m.added) (hb : b ∈ m.added)
    (h : a.1.ptr = b.1.ptr) : a = b :=
  List.inj_on_of_nodup_map k.unique ha hb h

theorem job_eq (h : job ∈ m.timeJobs) (h' : job' ∈ m.timeJobs) (hp : job.ptr = job'.ptr) :
    job = job' :=
  List.inj_on_of_nodup_map k.nodup h h' hp

theorem fresh_job (h : job ∈ m.timeJobs) : job.ptr < m.next := by
  have ⟨a, ha, hi, _⟩ := (k.jobs job h).made
  exact hi.eq.1 ▸ k.fresh a ha

theorem fresh_fired {f : Firing F P} (hf : f ∈ m.fired) : f.ptr < m.next := by
  have ⟨a, ha, he⟩ := k.own f hf
  have hp : f.ptr = a.1.ptr := congrArg Firing.ptr he
  exact hp ▸ k.fresh a ha

theorem addTimeJob (hc : now < 2 ^ 63) : Kept (m.addTimeJob now fn p₁ p₂ p₃ p₄ v o) := by
  have hv : v.toNat < 2 ^ 32 := v.toNat_lt
  constructor
  case nodup  => exact nodup_map_concat k.nodup fun job hj => (k.fresh_job hj).ne
  case unique => exact nodup_map_concat k.unique fun a ha => (k.fresh a ha).ne
  case fresh =>
    simp only [TimeJobMgr.addTimeJob, addTimeNode, List.forall_mem_append, List.forall_mem_singleton]
    exact ⟨fun a ha => Nat.lt_succ_of_lt (k.fresh a ha), Nat.lt_succ_self _⟩
  case jobs =>
    simp only [TimeJobMgr.addTimeJob, addTimeNode, List.forall_mem_append, List.forall_mem_singleton]
    refine ⟨fun job hj => ?_, ?_⟩
    · have ⟨value, ⟨a, ha, hd⟩, fired⟩ := k.jobs job hj
      exact ⟨value, ⟨a, List.mem_append_left _ ha, hd⟩, fired⟩
    · refine ⟨hv, ⟨_, List.mem_append_right _ List.mem_cons_self, rfl, ?_⟩, ?_⟩
      · exact (u64_add hc hv).ge
      · exact fun f hf he => absurd he (k.fresh_fired hf).ne
  case spaced =>
    simp only [TimeJobMgr.addTimeJob, addTimeNode, List.forall_mem_append, List.forall_mem_singleton]
    refine ⟨fun a ha => ⟨(k.spaced a ha).early, (k.spaced a ha).apart⟩, ?_, ?_⟩
    · exact fun f hf he => absurd he (k.fresh_fired hf).ne
    · exact List.pairwise_of_forall_mem_list fun f hf f' hf' he => absurd he (k.fresh_fired hf).ne
  case own =>
    intro f hf
    have ⟨a, ha, he⟩ := k.own f hf
    exact ⟨a, List.mem_append_left _ ha, he⟩

theorem delTimeNode {p : Nat} : Kept (m.delTimeNode p) where
  nodup      := k.nodup.sublist (List.filter_sublist.map _)
  unique     := k.unique
  fresh      := k.fresh
  jobs j hj  :=
    have ⟨value, made, fired⟩ := k.jobs j (List.mem_of_mem_filter hj)
    ⟨value, made, fired⟩
  spaced a h := ⟨(k.spaced a h).early, (k.spaced a h).apart⟩
  own        := k.own

-- A job that fires is a full time value away from its making and from its firings before.
theorem due_of_expired {a : TimeJob F P × Nat} (hj : job ∈ m.timeJobs) (he : job.isExpired now)
    (ha : a ∈ m.added) (hp : job.ptr = a.1.ptr) : a.2 + a.1.timeValue ≤ now ∧
    ∀ f ∈ m.fired, f.ptr = a.1.ptr → f.time + a.1.timeValue ≤ now ∧ ¬a.1.isOnce := by
  have he : job.expireTime ≤ now := of_decide_eq_true he
  have ⟨_, ⟨b, hb, hi, hd⟩, fired⟩ := k.jobs job hj
  cases k.made_eq ha hb (hp.symm.trans hi.eq.1)
  have ⟨_, hv, ho, _⟩ := hi.eq
  rw [← hv, ← ho, ← hp]
  refine ⟨hd.trans he, fun f hf hfp => ?_⟩
  have ⟨ht, ho⟩ := fired f hf hfp
  exact ⟨ht.trans he, ho⟩

theorem timeJobWalk (hc : now < 2 ^ 63) : Kept (m.timeJobWalk now) := by
  rw [timeJobWalk_eq k.nodup]
  constructor
  case nodup  => exact k.nodup.sublist map_ptr_after
  case unique => exact k.unique
  case fresh  => exact k.fresh
  case jobs   =>
    intro job' hj
    have ⟨job, hj, ha⟩ := List.mem_filterMap.mp hj
    have ⟨value, ⟨a, hm, hi, hd⟩, fired⟩ := k.jobs job hj
    unfold after at ha
    split at ha
    case isFalse hn =>
      cases ha
      refine ⟨value, ⟨a, hm, hi, hd⟩, ?_⟩
      simp only [List.forall_mem_append, List.forall_mem_map, List.mem_filter]
      refine ⟨fired, fun i ⟨hi, he⟩ hp => absurd he ?_⟩
      rwa [k.job_eq hi hj hp]
    case isTrue he =>
      have ⟨ho, ha⟩ := Option.ite_none_left_eq_some.mp ha
      have hu := u64_add hc value
      have he : job.expireTime ≤ now := of_decide_eq_true he
      cases ha
      refine ⟨value, ⟨a, hm, hi, ?_⟩, ?_⟩
      · simp only [updateExpiredTime, hu]
        omega
      · simp only [List.forall_mem_append, List.forall_mem_map, updateExpiredTime, hu]
        refine ⟨fun f hf hp => ?_, fun _ _ _ => ⟨Nat.le_refl _, ho⟩⟩
        have ht := (fired f hf hp).1
        exact ⟨by omega, ho⟩
  case spaced =>
    intro a ha
    have ⟨early, apart⟩ := k.spaced a ha
    constructor
    case early =>
      simp only [List.forall_mem_append, List.forall_mem_map, List.mem_filter]
      exact ⟨early, fun job ⟨hj, he⟩ hp => (k.due_of_expired hj he ha hp).1⟩
    case apart =>
      refine List.pairwise_append.mpr ⟨apart, ?_, ?_⟩
      · have hn := List.pairwise_map.mp k.nodup
        refine List.pairwise_map.mpr ((hn.sublist List.filter_sublist).imp ?_)
        exact fun hne hp hp' => absurd (hp.trans hp'.symm) hne
      · simp only [List.forall_mem_map, List.mem_filter]
        intro f hf job ⟨hj, he⟩ hp hp'
        exact (k.due_of_expired hj he ha hp').2 f hf hp
  case own    =>
    simp only [List.forall_mem_append, List.forall_mem_map, List.mem_filter]
    refine ⟨k.own, fun job ⟨hj, _⟩ => ?_⟩
    have ⟨a, ha, hi, _⟩ := (k.jobs job hj).made
    exact ⟨a, ha, hi.eq.2.2.2 now⟩

end Kept

theorem Kept.tick (k : Kept m) (h : m.tick now = some m') : Kept m' ∧ now < 2 ^ 63 ∧
    m' = { m with clock := now } := by
  have ⟨⟨_, hc⟩, h⟩ := Option.ite_none_right_eq_some.mp h
  cases h
  refine ⟨⟨k.nodup, k.unique, k.fresh, fun j hj => ?_, fun a ha => ?_, k.own⟩, hc, rfl⟩
  · exact ⟨(k.jobs j hj).value, (k.jobs j hj).made, (k.jobs j hj).fired⟩
  · exact ⟨(k.spaced a ha).early, (k.spaced a ha).apart⟩

variable [DecidableEq F] [DecidableEq P]

theorem Kept.step {a : Act F P} (k : Kept m) (h : m.step a = some m') : Kept m' := by
  cases a
  case add =>
    have ⟨_, ht, h⟩ := Option.map_eq_some_iff.mp h
    have ⟨k, hc, _⟩ := k.tick ht
    exact h ▸ k.addTimeJob hc
  case walk =>
    have ⟨_, ht, h⟩ := Option.map_eq_some_iff.mp h
    have ⟨k, hc, _⟩ := k.tick ht
    exact h ▸ k.timeJobWalk hc
  case del func param1 =>
    cases h
    unfold delTimeJob
    split
    · exact k
    · exact k.delTimeNode

theorem Kept.of_reachable (h : (timeJobMgr F P).Reachable m) : Kept m := by
  apply h.invariant
  case h₀ =>
    rintro _ rfl
    exact ⟨List.nodup_nil, List.nodup_nil, nofun, nofun, nofun, nofun⟩
  case hs => exact fun _ _ _ k _ h => k.step h

theorem walk_eq (k : Kept m) (h : m.step (.walk now) = some m') :
    m'.timeJobs = m.timeJobs.filterMap (after now) ∧
    m'.fired = m.fired ++ (m.timeJobs.filter (·.isExpired now)).map (·.doit now) ∧
    m'.next = m.next := by
  have ⟨_, ht, h⟩ := Option.map_eq_some_iff.mp h
  have ⟨k, _, ht⟩ := k.tick ht
  rw [timeJobWalk_eq k.nodup, ht] at h
  exact h ▸ ⟨rfl, rfl, rfl⟩

-- A job that is not in the list and was made before.
structure Gone (m : TimeJobMgr F P) (p : Nat) : Prop where
  kept : Kept m
  past : p < m.next
  gone : ∀ job ∈ m.timeJobs, job.ptr ≠ p

theorem Gone.step {a : Act F P} {p : Nat} (g : Gone m p) (h : m.step a = some m') :
    Gone m' p ∧ m'.firings p = m.firings p := by
  have k := g.kept
  have k' := k.step h
  cases a
  case add =>
    have ⟨_, ht, h⟩ := Option.map_eq_some_iff.mp h
    have ⟨_, _, ht⟩ := k.tick ht
    rw [ht] at h
    cases h
    refine ⟨⟨k', Nat.lt_succ_of_lt g.past, ?_⟩, rfl⟩
    simp only [addTimeJob, addTimeNode, List.forall_mem_append, List.forall_mem_singleton]
    exact ⟨g.gone, g.past.ne'⟩
  case walk now =>
    have ⟨jobs, fired, next⟩ := walk_eq k h
    refine ⟨⟨k', next ▸ g.past, fun job' hj => ?_⟩, ?_⟩
    · have ⟨job, hj, ha⟩ := List.mem_filterMap.mp (jobs ▸ hj)
      exact ptr_of_after ha ▸ g.gone job hj
    · have hn : ((m.timeJobs.filter (·.isExpired now)).map (·.doit now)).filter (·.ptr = p) = [] := by
        simp only [List.filter_eq_nil_iff, List.forall_mem_map, List.mem_filter, decide_eq_true_eq]
        exact fun job ⟨hj, _⟩ => g.gone job hj
      rw [firings, fired, List.filter_append, hn, List.append_nil, firings]
  case del func param1 =>
    cases h
    unfold delTimeJob at k' ⊢
    split at k'
    · exact ⟨g, rfl⟩
    · exact ⟨⟨k', g.past, fun job hj => g.gone job (List.mem_of_mem_filter hj)⟩, rfl⟩

theorem Gone.run {acts : List (Act F P)} {p : Nat} (g : Gone m p)
    (h : (timeJobMgr F P).run m acts = some m') : m'.firings p = m.firings p := by
  have hi : Gone m' p ∧ m'.firings p = m.firings p := by
    apply System.invariant_of_run (I := fun m' => Gone m' p ∧ m'.firings p = m.firings p) ?_ ⟨g, rfl⟩ h
    intro s a s' ⟨g, hf⟩ h
    have ⟨g, hf'⟩ := g.step h
    exact ⟨g, hf'.trans hf⟩
  exact hi.2

-- The answer of a deletion. The job that is deleted never fires again.
inductive Deleted (m : TimeJobMgr F P) (func : F) (param1 : P) : TimeJobMgr F P × Bool → Prop
  | none (absent : ∀ job ∈ m.timeJobs, ¬job.isSelf func param1) : Deleted m func param1 (m, false)
  | some (pre : List (TimeJob F P)) (job : TimeJob F P) (post : List (TimeJob F P))
      (list : m.timeJobs = pre ++ job :: post) (first : ∀ j ∈ pre, ¬j.isSelf func param1)
      (self : job.isSelf func param1)
      (never : ∀ acts m', (timeJobMgr F P).run { m with timeJobs := pre ++ post } acts = some m' →
        m'.firings job.ptr = m.firings job.ptr) :
      Deleted m func param1 ({ m with timeJobs := pre ++ post }, true)

theorem Kept.deleted (k : Kept m) {func : F} {param1 : P} :
    Deleted m func param1 (m.delTimeJob func param1) := by
  unfold delTimeJob findTimeJobs
  split
  case h_1 h => exact .none (by simpa using h)
  case h_2 job h =>
    have ⟨self, pre, post, list, first⟩ := List.find?_eq_some_iff_append.mp h
    have nodup : ((pre ++ job :: post).map TimeJob.ptr).Nodup := list ▸ k.nodup
    have absent := ptr_ne_of_nodup nodup
    have ⟨hp, hq⟩ := List.forall_mem_append.mp absent
    have he : m.delTimeNode job.ptr = { m with timeJobs := pre ++ post } := by
      rw [TimeJobMgr.delTimeNode, list, List.filter_append, List.filter_cons, filter_absent hp,
        filter_absent hq]
      simp
    have kd : Kept (m.delTimeNode job.ptr) := k.delTimeNode
    rw [he] at kd ⊢
    refine .some pre job post list (by simpa using first) self fun acts m' h => ?_
    have hj : job ∈ m.timeJobs := list ▸ List.mem_append_right _ List.mem_cons_self
    exact Gone.run (m := { m with timeJobs := pre ++ post }) ⟨kd, k.fresh_job hj, absent⟩ h

-- The two tests that the schedule speaks of: one compares the function and the first parameter, the
-- other one the time.
theorem isSelf_iff {func : F} {param1 : P} :
    job.isSelf func param1 ↔ job.func = func ∧ job.param1 = param1 := by
  rw [isSelf, decide_eq_true_iff, eq_comm (a := param1)]

omit [DecidableEq F] [DecidableEq P] in
theorem isExpired_iff : job.isExpired now ↔ job.expireTime ≤ now :=
  decide_eq_true_iff

-- The schedule of the timers in a state of a run: the firings of every job that was ever made, and
-- what a walk and a deletion do next.
structure Schedule (m : TimeJobMgr F P) : Prop where
  early  : ∀ a ∈ m.added, ∀ f ∈ m.firings a.1.ptr, a.2 + a.1.timeValue ≤ f.time
  apart  : ∀ a ∈ m.added,
    (m.firings a.1.ptr).Pairwise fun f f' => f.time + a.1.timeValue ≤ f'.time
  once   : ∀ a ∈ m.added, a.1.isOnce → (m.firings a.1.ptr).length ≤ 1 ∧
    (m.firings a.1.ptr ≠ [] → ∀ job ∈ m.timeJobs, job.ptr ≠ a.1.ptr)
  own    : ∀ f ∈ m.fired, ∃ a ∈ m.added, f = a.1.doit f.time
  nodup  : (m.timeJobs.map TimeJob.ptr).Nodup
  walked : ∀ now m', m.step (.walk now) = some m' →
    m'.fired = m.fired ++ (m.timeJobs.filter (·.isExpired now)).map (·.doit now) ∧
    m'.timeJobs = m.timeJobs.filterMap (after now)
  del    : ∀ func param1, Deleted m func param1 (m.delTimeJob func param1)

theorem schedule (h : (timeJobMgr F P).Reachable m) : m.Schedule := by
  have k := Kept.of_reachable h
  have apart {a} (ha : a ∈ m.added) : (m.firings a.1.ptr).Pairwise fun f f' =>
      f.time + a.1.timeValue ≤ f'.time ∧ ¬a.1.isOnce := by
    have hf := (k.spaced a ha).apart.filter (·.ptr = a.1.ptr)
    refine hf.imp_of_mem fun hm hm' hi => ?_
    exact hi (mem_firings.mp hm).2 (mem_firings.mp hm').2
  constructor
  case early  =>
    intro a ha f hf
    have ⟨hf, hp⟩ := mem_firings.mp hf
    exact (k.spaced a ha).early f hf hp
  case apart  => exact fun a ha => (apart ha).imp And.left
  case own    => exact k.own
  case nodup  => exact k.nodup
  case walked => exact fun now m' h => ⟨(walk_eq k h).2.1, (walk_eq k h).1⟩
  case del    => exact fun _ _ => k.deleted
  case once   =>
    intro a ha ho
    refine ⟨?_, fun hne job hj hp => ?_⟩
    · have hf := apart ha
      match h : m.firings a.1.ptr with
      | [] | [_] => simp
      | f :: f' :: l =>
        rw [h] at hf
        exact absurd ho (List.rel_of_pairwise_cons hf List.mem_cons_self).2
    · have ⟨f, hf⟩ := List.exists_mem_of_ne_nil _ hne
      have ⟨hf, hfp⟩ := mem_firings.mp hf
      have ⟨_, ⟨b, hb, hi, _⟩, fired⟩ := k.jobs job hj
      cases k.made_eq ha hb (hp.symm.trans hi.eq.1)
      exact (fired f hf (hfp.trans hp.symm)).2 (hi.eq.2.2.1 ▸ ho)

def sampleActs : List (Act Nat Nat) :=
  [.add 5 1 0 0 0 0 10 false, .add 5 2 0 0 0 0 3 true, .walk 8, .walk 15, .walk 20, .del 1 0]

theorem schedule_sample : ∃ m, (timeJobMgr Nat Nat).Reachable m ∧
    (m.fired.map fun f => (f.ptr, f.time)) = [(1, 8), (0, 15)] ∧ m.Schedule := by
  have ⟨m, hr, hf⟩ := (timeJobMgr Nat Nat).exists_of_run sampleActs
    (fun m => (m.fired.map fun f => (f.ptr, f.time)) = [(1, 8), (0, 15)])
    (s := ⟨[], 0, 0, [], []⟩) rfl (by decide)
  exact ⟨m, hr, hf, schedule hr⟩

end TimeJobMgr
end NetPool
