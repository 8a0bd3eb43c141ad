import NetPool.Pool.Terminate

namespace NetPool
namespace ThreadPool

variable {s s' : ThreadPool} {x y : Worker} {w t pos now n : Nat} {a : Act}

def CallPc.over : CallPc → Bool
  | .returned _ => true
  | .test | .size | .count _ | .scan .. | .grow _ | .insert | .create _ | .mark _ | .push
  | .notify => false

def WorkerPc.runs : WorkerPc → Bool
  | .run _ => true
  | .created | .init | .test | .get | .wait | .took _ | .busy _ | .del _ | .stamp | .idle | .exit
  | .done => false

def runs (s : ThreadPool) (w : Nat) : Bool :=
  s.workers[w]?.any (·.pc.runs)

-- CNetPoll::start: one thread calls Execute `n` times, and the tasks never return. Nothing ages or
-- ends the pool.
def Start (n : Nat) (s : ThreadPool) : Act → Prop
  | .execute  => s.calls.length < n ∧ ∀ pc ∈ s.calls, pc.over
  | .call ..  => True
  | .work w _ => ¬s.runs w
  | .age _ | .agedStep | .terminate _ | .termStep => False

instance : ∀ s a, Decidable (Start n s a)
  | _, .execute => inferInstanceAs (Decidable (_ ∧ _))
  | _, .call .. => inferInstanceAs (Decidable True)
  | _, .work .. => inferInstanceAs (Decidable (¬_))
  | _, .age _ | _, .agedStep | _, .terminate _ | _, .termStep => inferInstanceAs (Decidable False)

-- The worker whose flag call `t` reads next, after it has found the queue empty.
def reading (s : ThreadPool) (t : Nat) : Option Nat :=
  match s.calls[t]? with
  | some (.scan 0 _ (w :: _)) => some w
  | _                         => none

-- A worker that Execute finds idle has not just taken a task.
def Clear (s : ThreadPool) : Act → Prop
  | .call t _ _ => ∀ w ∈ s.reading t, ¬s.isBusy w → ¬s.holds w
  | _           => True

instance : ∀ s a, Decidable (Clear s a)
  | _, .call .. => inferInstanceAs (Decidable (∀ _ ∈ _, _))
  | _, .execute | _, .work .. | _, .age _ | _, .agedStep | _, .terminate _ | _, .termStep =>
    inferInstanceAs (Decidable True)

-- start has returned, a loop waits in the queue, and all workers are taken.
def Stuck (n : Nat) (s : ThreadPool) : Prop :=
  (s.calls.length = n ∧ ∀ pc ∈ s.calls, pc.over) ∧ s.tasks ≠ [] ∧ ∀ w ∈ s.pool, s.runs w

instance : Decidable (Stuck n s) :=
  inferInstanceAs (Decidable (_ ∧ _))

theorem held_length : s.before.length + s.past.length = s.workers.countP (·.pc.holds) := by
  unfold before past
  induction s.workers
  case nil          => rfl
  case cons x xs hi =>
    have hx : x.pc.before.length + x.pc.past.length = if x.pc.holds then 1 else 0 := by
      cases x.pc <;> rfl
    simp only [List.flatMap_cons, List.length_append, List.countP_cons]
    omega

theorem Accounts.length (k : Accounts s) : s.pushed.length =
    s.tasks.length + s.workers.countP (·.pc.holds) + s.deleted.length := by
  have queue : s.pushed.length = s.takenTasks.length + s.tasks.length := k.queue.length
  have taken : s.takenTasks.length = (s.ran ++ s.skipped).length + s.before.length := k.taken.length
  have tested : (s.ran ++ s.skipped).length = s.deleted.length + s.past.length := k.tested.length
  have held := held_length (s := s)
  omega

-- A call as far as it has come, when it is the last of the calls. It leaves as many workers as
-- there are calls.
def CallOk (s : ThreadPool) : CallPc → Prop
  | .test | .size | .insert  => s.calls.length ≤ s.workers.length + 1
  | .count tasks             => s.calls.length ≤ s.workers.length + 1 ∧ (tasks = 0 → s.tasks = [])
  | .scan tasks threads rest => s.calls.length ≤ s.workers.length + 1 ∧ (tasks = 0 → s.tasks = []) ∧
    threads = s.workers.length ∧ ∀ w ∈ rest, w < s.workers.length
  | .grow threads            => s.calls.length ≤ s.workers.length + 1 ∧ threads = s.workers.length
  | .create _ | .mark _ | .push | .notify | .returned _ => s.calls.length ≤ s.workers.length

structure Growing (n : Nat) (s : ThreadPool) : Prop where
  max      : s.maxThreads = n
  on       : s.enableInsertTask
  slow     : s.quickFree = false
  pool     : s.pool.Perm (List.range s.workers.length)
  deleted  : s.deleted = []
  loops    : ∀ x ∈ s.workers, ∀ task, x.pc ≠ .del task
  bound    : s.calls.length ≤ n
  accepted : ∀ pc ∈ s.calls, pc ≠ .returned false
  earlier  : ∀ pc ∈ s.calls.dropLast, pc.over
  last     : ∀ pc ∈ s.calls.getLast?, CallOk s pc

theorem Accounts.pushed_lt (k : Accounts s) (h : t ∈ s.pushed) : t < s.calls.length := by
  by_contra hl
  have hp := (k.pushed t).mp h
  simp [List.getElem?_eq_none (Nat.not_lt.mp hl)] at hp

theorem Accounts.pushed_length (k : Accounts s) : s.pushed.length ≤ s.calls.length := by
  have hs : s.pushed ⊆ List.range s.calls.length :=
    fun t ht => List.mem_range.mpr (k.pushed_lt ht)
  have hp := (List.subperm_of_subset k.queue.nodup hs).length_le
  rwa [List.length_range] at hp

-- Between two calls there are as many workers as calls.
theorem Growing.length_le (k : Growing n s) (ho : ∀ pc ∈ s.calls, pc.over) :
    s.calls.length ≤ s.workers.length := by
  match hl : s.calls.getLast? with
  | none    => simp [List.getLast?_eq_none_iff.mp hl]
  | some pc =>
    have ho := ho pc (List.mem_of_getLast? hl)
    have hl := k.last pc hl
    cases pc <;> simp_all [CallPc.over, CallOk]

theorem Growing.not_stuck (k : Growing n s) (acc : Accounts s) : ¬Stuck n s := by
  rintro ⟨⟨hn, hover⟩, ht, hr⟩
  have hpushed := acc.pushed_length
  have hall : s.workers.countP (·.pc.holds) = s.workers.length := by
    refine List.countP_eq_length.mpr fun x hx => ?_
    have ⟨w, hw⟩ := List.getElem?_of_mem hx
    have ⟨hl, _⟩ := List.getElem?_eq_some_iff.mp hw
    have hx : x.pc.runs := by
      simpa [runs, hw] using hr w (k.pool.mem_iff.mpr <| List.mem_range.mpr hl)
    cases hp : x.pc <;> simp_all [WorkerPc.runs, WorkerPc.holds]
  have hw := k.length_le hover
  have hl := acc.length
  have := List.length_pos_iff.mpr ht
  omega

theorem CallOk.of_worker {pc : CallPc} (o : CallOk s pc) (hc : s'.calls.length = s.calls.length)
    (hw : s'.workers.length = s.workers.length) (ht : s.tasks = [] → s'.tasks = []) :
    CallOk s' pc := by
  cases pc <;> simp only [CallOk, hc, hw] at o ⊢
  case count => exact ⟨o.1, ht ∘ o.2⟩
  case scan  => exact ⟨o.1, ht ∘ o.2.1, o.2.2⟩
  all_goals exact o

namespace Growing

variable (k : Growing n s)
include k

theorem put (hw : s.workers.length = l.length) (hl : ∀ x ∈ l, ∀ task, x.pc ≠ .del task) :
    Growing n { s with workers := l } where
  max      := k.max
  on       := k.on
  slow     := k.slow
  pool     := hw ▸ k.pool
  deleted  := k.deleted
  loops    := hl
  bound    := k.bound
  accepted := k.accepted
  earlier  := k.earlier
  last pc h := (k.last pc h).of_worker rfl hw.symm id

theorem modify {f : Worker → Worker}
    (hf : ∀ x, (∀ task, x.pc ≠ .del task) → ∀ task, (f x).pc ≠ .del task) :
    Growing n { s with workers := s.workers.modify w f } := by
  refine k.put (List.length_modify ..).symm fun x hx => ?_
  have ⟨u, hu⟩ := List.getElem?_of_mem hx
  rw [List.getElem?_modify] at hu
  have ⟨y, hy, he⟩ := Option.map_eq_some_iff.mp hu
  have hy := k.loops y (List.mem_of_getElem? hy)
  subst he
  split
  case isTrue  => exact hf y hy
  case isFalse => exact hy

theorem set (hy : ∀ task, y.pc ≠ .del task) :
    Growing n { s with workers := s.workers.set w y } := by
  refine k.put List.length_set.symm fun x hx => ?_
  obtain hx | rfl := List.mem_or_eq_of_mem_set hx
  · exact k.loops x hx
  · exact hy

theorem work (hr : ¬s.runs w) (h : s.work w now = some s') : Growing n s' := by
  unfold ThreadPool.work at h
  split at h
  case h_1 => cases h
  case h_2 x hx =>
    have hm := List.mem_of_getElem? hx
    have ⟨status, isBusy, updateTime, running, pc⟩ := x
    cases pc <;> dsimp only at h
    case created | done => cases h
    case run => simp [runs, hx, WorkerPc.runs] at hr
    case del task => exact absurd rfl (k.loops _ hm task)
    case busy task =>
      cases h
      rw [if_neg (by simp [k.slow])]
      have g := k.set (w := w) (y := ⟨status, isBusy, updateTime, running, .run task⟩) nofun
      exact ⟨g.max, g.on, g.slow, g.pool, g.deleted, g.loops, g.bound, g.accepted, g.earlier, g.last⟩
    case get =>
      split at h <;> cases h
      case h_1 => exact k.set nofun
      case h_2 task tasks ht =>
        have g := k.set (w := w) (y := ⟨status, isBusy, updateTime, running, .took task⟩) nofun
        refine ⟨g.max, g.on, g.slow, g.pool, g.deleted, g.loops, g.bound, g.accepted, g.earlier, ?_⟩
        intro pc h
        exact (g.last pc h).of_worker rfl rfl fun he => by simp [ht] at he
    case test =>
      cases h
      apply k.set
      dsimp only
      split <;> exact nofun
    all_goals
      cases h
      exact k.set nofun

theorem execute (hn : s.calls.length < n) (ho : ∀ pc ∈ s.calls, pc.over) :
    Growing n { s with calls := s.calls ++ [.test] } := by
  refine ⟨k.max, k.on, k.slow, k.pool, k.deleted, k.loops, ?_, ?_, ?_, ?_⟩
  case refine_1 => simpa using hn
  case refine_2 => exact List.forall_mem_append.mpr ⟨k.accepted, by simp⟩
  case refine_3 => simpa using ho
  case refine_4 => simpa [CallOk] using k.length_le ho

-- A call that has not returned is the last one.
theorem split {pc : CallPc} (hc : s.calls[t]? = some pc) (hn : ¬pc.over) :
    ∃ l, s.calls = l ++ [pc] ∧ t = l.length ∧ ∀ pc ∈ l, pc.over := by
  have earlier := k.earlier
  obtain he | ⟨l, last, he⟩ := List.eq_nil_or_concat s.calls
  · simp [he] at hc
  · rw [List.concat_eq_append] at he
    rw [he, List.dropLast_concat] at earlier
    rw [he, List.getElem?_append] at hc
    split at hc
    case isTrue     => exact absurd (earlier pc (List.mem_of_getElem? hc)) hn
    case isFalse ht =>
      have ⟨h₁, h₂⟩ := List.getElem?_eq_some_iff.mp hc
      rw [List.length_singleton, Nat.lt_one_iff] at h₁
      rw [List.getElem_singleton] at h₂
      exact ⟨l, h₂ ▸ he, by omega, earlier⟩

theorem last_of {pc : CallPc} (hc : s.calls[t]? = some pc) (hn : ¬pc.over) : CallOk s pc := by
  have ⟨l, he, _⟩ := k.split hc hn
  exact k.last pc (by simp [he])

-- The last call goes on.
theorem set_calls {pc p : CallPc} (hc : s.calls[t]? = some pc) (hn : ¬pc.over)
    (ha : p ≠ .returned false) :
    (s.calls.set t p).length ≤ n ∧ (∀ pc ∈ s.calls.set t p, pc ≠ .returned false) ∧
      (∀ pc ∈ (s.calls.set t p).dropLast, pc.over) ∧ (s.calls.set t p).getLast? = some p := by
  have ⟨l, he, ht, hl⟩ := k.split hc hn
  have hs : s.calls.set t p = l ++ [p] := by simp [he, ht]
  have accepted := k.accepted
  rw [he, List.forall_mem_append] at accepted
  refine ⟨by simpa using k.bound, ?_, ?_, ?_⟩
  all_goals rw [hs]
  case refine_1 => exact List.forall_mem_append.mpr ⟨accepted.1, by simpa using ha⟩
  case refine_2 => simpa using hl
  case refine_3 => simp

theorem goto {pc pc' : CallPc} {tasks pushed : List Nat} (hc : s.calls[t]? = some pc)
    (hn : ¬pc.over) (ha : pc' ≠ .returned false) (ho : CallOk { s with tasks := tasks } pc') :
    Growing n { s with calls := s.calls.set t pc', tasks := tasks, pushed := pushed } := by
  have ⟨bound, accepted, earlier, last⟩ := k.set_calls hc hn ha
  refine ⟨k.max, k.on, k.slow, k.pool, k.deleted, k.loops, bound, accepted, earlier, ?_⟩
  intro pc hpc
  obtain rfl := Option.some.inj (last.symm.trans hpc)
  exact ho.of_worker List.length_set rfl id

theorem insert (hc : s.calls[t]? = some .insert) (h : s.insert t pos now = some s') :
    Growing n s' := by
  have ⟨⟨_, hpos⟩, h⟩ := Option.ite_none_right_eq_some.mp h
  cases h
  have ok := k.last_of hc nofun
  have ⟨bound, accepted, earlier, last⟩ :=
    k.set_calls (p := .create s.workers.length) hc nofun nofun
  refine ⟨k.max, k.on, k.slow, ?_, k.deleted, ?_, bound, accepted, earlier, ?_⟩
  case refine_1 =>
    have hp := (List.perm_insertIdx s.workers.length s.pool hpos).trans (k.pool.cons _)
    simpa [List.range_succ] using hp.trans (List.perm_append_singleton ..).symm
  case refine_2 => exact List.forall_mem_append.mpr ⟨k.loops, by simp⟩
  case refine_3 =>
    intro pc hpc
    obtain rfl := Option.some.inj (last.symm.trans hpc)
    simpa [CallOk] using ok

-- The queue is empty, so all loops but the one that is submitted are with a worker.
theorem grown (acc : Accounts s) {pc : CallPc} (hc : s.calls[t]? = some pc) (hn : ¬pc.over)
    (ht : s.tasks = []) (hw : w < s.workers.length) (hf : ¬s.holds w) :
    s.calls.length ≤ s.workers.length := by
  have ⟨l, he, _, hl⟩ := k.split hc hn
  have accepted := k.accepted
  rw [he, List.forall_mem_append] at accepted
  have hpushed : l.length ≤ s.pushed.length := by
    have hs : List.range l.length ⊆ s.pushed := by
      intro u hu
      have hu := List.mem_range.mp hu
      have hover := hl _ (List.getElem_mem hu)
      have htrue := accepted.1 _ (List.getElem_mem hu)
      rw [acc.pushed, he, List.getElem?_append_left hu, List.getElem?_eq_getElem hu]
      revert hover htrue
      cases l[u]
      case returned answer => cases answer <;> simp [CallPc.pushed]
      all_goals simp [CallPc.over]
    have hp := (List.subperm_of_subset List.nodup_range hs).length_le
    rwa [List.length_range] at hp
  have hless : s.workers.countP (·.pc.holds) < s.workers.length := by
    refine Nat.lt_of_le_of_ne List.countP_le_length fun he => hf ?_
    have hall := List.countP_eq_length.mp he _ (List.getElem_mem hw)
    simpa [holds, hw] using hall
  have hlen := acc.length
  simp only [ht, k.deleted, List.length_nil] at hlen
  simp only [he, List.length_append, List.length_singleton]
  omega

theorem call (acc : Accounts s) (hclear : Clear s (.call t pos now))
    (h : s.call t pos now = some s') : Growing n s' := by
  unfold ThreadPool.call at h
  dsimp only at h
  split at h
  case h_1 | h_13 => cases h
  case h_2 hc =>
    cases h
    have ok := k.last_of hc nofun
    rw [if_pos k.on]
    exact k.goto hc nofun nofun ok
  case h_3 hc =>
    cases h
    have ok := k.last_of hc nofun
    exact k.goto hc nofun nofun ⟨ok, List.length_eq_zero_iff.mp⟩
  case h_4 hc =>
    cases h
    have ⟨ok, empty⟩ := k.last_of hc nofun
    refine k.goto hc nofun nofun ⟨ok, empty, ?_, fun w hw => ?_⟩
    · simpa using k.pool.length_eq
    · simpa using k.pool.mem_iff.mp hw
  case h_5 hc =>
    cases h
    have ⟨ok, _, threads, _⟩ := k.last_of hc nofun
    exact k.goto hc nofun nofun ⟨ok, threads⟩
  case h_6 tasks threads w rest hc =>
    cases h
    have ⟨ok, empty, hthreads, hrest⟩ := k.last_of hc nofun
    split
    case isTrue =>
      exact k.goto hc nofun nofun ⟨ok, empty, hthreads, fun w hw => hrest w (.tail _ hw)⟩
    case isFalse hb =>
      split
      case isTrue     => exact k.goto hc nofun nofun ⟨ok, hthreads⟩
      case isFalse hz =>
        obtain rfl := Nat.eq_zero_of_not_pos hz
        have hf : ¬s.holds w := hclear w (by simp [reading, hc]) hb
        exact k.goto hc nofun nofun (k.grown acc hc nofun (empty rfl) (hrest w (.head _)) hf)
  case h_7 threads hc =>
    cases h
    have ⟨ok, hthreads⟩ := k.last_of hc nofun
    split
    case isTrue     => exact k.goto hc nofun nofun ok
    case isFalse hl =>
      refine k.goto hc nofun nofun ?_
      have := k.bound
      have := k.max
      exact show s.calls.length ≤ s.workers.length by omega
  case h_8 hc => exact k.insert hc h
  case h_9 w hc =>
    cases h
    have ok := k.last_of hc nofun
    have g : Growing n { s with calls := s.calls.set t (.mark w) } := k.goto hc nofun nofun ok
    exact g.modify fun x _ => by split <;> simp_all
  case h_10 w hc =>
    cases h
    have ok := k.last_of hc nofun
    have g : Growing n { s with calls := s.calls.set t .push } := k.goto hc nofun nofun ok
    exact g.modify fun _ hx => hx
  case h_11 hc =>
    cases h
    have ok := k.last_of hc nofun
    exact k.goto hc nofun nofun ok
  case h_12 hc =>
    cases h
    have ok := k.last_of hc nofun
    exact k.goto hc nofun (by simp) ok

end Growing

theorem growing_init (h : Init 1 n s) : Growing n s := by
  cases h
  case intro times pool length perm =>
    refine ⟨rfl, rfl, rfl, by simpa [length] using perm, rfl, ?_, Nat.zero_le _, nofun, nofun, nofun⟩
    simp

theorem Growing.of_reach
    (h : (threadPool 1 n).Reach (fun s a => Start n s a ∧ Clear s a) s) : Growing n s := by
  refine h.invariant_with (J := Accounts) (fun s hs => .of_reachable hs.reachable) ?_ ?_
  case refine_1 => exact fun s => growing_init
  case refine_2 =>
    intro s a s' acc k ⟨ok, clear⟩ hs
    cases a
    case execute => cases hs; exact k.execute ok.1 ok.2
    case call    => exact k.call acc clear hs
    case work    => exact k.work ok hs
    all_goals exact absurd ok id

theorem own_worker (h : (threadPool 1 n).Reach (fun s a => Start n s a ∧ Clear s a) s) :
    ¬Stuck n s :=
  (Growing.of_reach h).not_stuck (.of_reachable h.reachable)

-- The worker runs the loop of call 0 when call 1 looks at it, and call 1 makes another.
def ownActs : List Act :=
  executeActs ++ List.replicate 5 (Act.work 0 0) ++
  [Act.execute] ++ List.replicate 11 (Act.call 1 0 0) ++ List.replicate 5 (Act.work 1 0)

theorem own_worker_sample :
    ∃ s, (threadPool 1 2).Reach (fun s a => Start 2 s a ∧ Clear s a) s ∧
      (s.calls = [.returned true, .returned true] ∧ s.runs 0 ∧ s.runs 1) ∧ ¬Stuck 2 s := by
  have run : ∃ s, (threadPool 1 2).Reach (fun s a => Start 2 s a ∧ Clear s a) s ∧
      (s.calls = [.returned true, .returned true] ∧ s.runs 0 ∧ s.runs 1) :=
    System.Reach.exists_of_run ownActs _ fresh_init (by decide)
  have ⟨s, hr, hs⟩ := run
  exact ⟨s, hr, hs, own_worker hr⟩

-- Call 1 looks at the worker between its pop of the first loop and its write of m_isBusy.
def sharedActs : List Act :=
  executeActs ++ List.replicate 3 (Act.work 0 0) ++
  [Act.execute] ++ List.replicate 6 (Act.call 1 0 0) ++ List.replicate 2 (Act.work 0 0)

theorem not_own_worker :
    ¬∀ n, 1 ≤ n → ∀ s, (threadPool 1 n).Reach (Start n) s → ¬Stuck n s := by
  intro h
  have run : ∃ s, (threadPool 1 2).Reach (Start 2) s ∧ Stuck 2 s :=
    System.Reach.exists_of_run sharedActs _ fresh_init (by decide)
  have ⟨s, hr, hs⟩ := run
  exact h 2 (by decide) s hr hs

end ThreadPool
end NetPool
