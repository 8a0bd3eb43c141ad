import NetPool.Pool.ThreadPool

namespace NetPool
namespace ThreadPool

variable {s s' : ThreadPool} {x y : Worker} {w t pos now : Nat} {a : Act}

-- The task a worker has taken, before and after its test of m_bQuickFree.
def WorkerPc.before : WorkerPc → List Nat
  | .took task | .busy task => [task]
  | .created | .init | .test | .get | .wait | .run _ | .del _ | .stamp | .idle | .exit | .done => []

def WorkerPc.past : WorkerPc → List Nat
  | .run task | .del task => [task]
  | .created | .init | .test | .get | .wait | .took _ | .busy _ | .stamp | .idle | .exit | .done => []

def CallPc.pushed : CallPc → Bool
  | .notify | .returned true => true
  | .test | .size | .count _ | .scan .. | .grow _ | .insert | .create _ | .mark _ | .push
  | .returned false => false

def before (s : ThreadPool) : List Nat :=
  s.workers.flatMap (·.pc.before)

def past (s : ThreadPool) : List Nat :=
  s.workers.flatMap (·.pc.past)

def takenTasks (s : ThreadPool) : List Nat :=
  s.taken.map Prod.fst

-- A task goes from the queue to a worker, past the test of m_bQuickFree, and is deleted.
structure Accounts (s : ThreadPool) : Prop where
  queue  : Ledger.Owns ⟨s.pushed, s.takenTasks⟩ s.tasks
  taken  : Ledger.Owns ⟨s.takenTasks, s.ran ++ s.skipped⟩ s.before
  tested : Ledger.Owns ⟨s.ran ++ s.skipped, s.deleted⟩ s.past
  pushed : ∀ t, t ∈ s.pushed ↔ s.calls[t]?.any CallPc.pushed

theorem accounts_init {minThreads maxThreads : Nat} (h : Init minThreads maxThreads s) :
    Accounts s := by
  have none (p : WorkerPc → List Nat) (hp : p .init = []) (times : List Nat) :
      (times.map fun n => (⟨.init, false, n, true, .init⟩ : Worker)).flatMap (p ·.pc) = [] := by
    simp [List.flatMap_eq_nil_iff, hp]
  cases h
  refine ⟨.empty, ?_, ?_, by simp⟩
  · rw [before, none _ rfl]
    exact .empty
  · rw [past, none _ rfl]
    exact .empty

theorem Accounts.congr (k : Accounts s) (before : s'.before.Perm s.before)
    (past : s'.past.Perm s.past)
    (rest : s'.tasks = s.tasks ∧ s'.pushed = s.pushed ∧ s'.taken = s.taken ∧ s'.ran = s.ran ∧
      s'.skipped = s.skipped ∧ s'.deleted = s.deleted)
    (calls : ∀ t : Nat, s'.calls[t]?.any CallPc.pushed = s.calls[t]?.any CallPc.pushed) :
    Accounts s' := by
  have ⟨tasks, pushed, taken, ran, skipped, deleted⟩ := rest
  refine ⟨?_, ?_, ?_, fun t => ?_⟩
  · simpa only [takenTasks, tasks, pushed, taken] using k.queue
  · simpa only [takenTasks, taken, ran, skipped] using k.taken.of_perm before.symm
  · simpa only [ran, skipped, deleted] using k.tested.of_perm past.symm
  · rw [pushed, calls, k.pushed]

-- A change of the workers that leaves their tasks.
theorem flatMap_modify {f : WorkerPc → List Nat} {g : Worker → Worker} {l : List Worker}
    (h : ∀ x, f (g x).pc = f x.pc) : (l.modify w g).flatMap (f ·.pc) = l.flatMap (f ·.pc) := by
  induction l generalizing w
  case nil          => simp
  case cons c cs hi => cases w <;> simp [h, hi]

section Work

variable (k : Accounts s) (hx : s.workers[w]? = some x)
include k hx

theorem Accounts.put (hb : y.pc.before = x.pc.before) (hp : y.pc.past = x.pc.past) :
    Accounts { s with workers := s.workers.set w y } := by
  apply k.congr
  case before =>
    have h := flatMap_set_perm (f := fun x : Worker => x.pc.before) (b := y) hx
    rw [hb] at h
    exact (List.perm_append_left_iff _).mp h
  case past =>
    have h := flatMap_set_perm (f := fun x : Worker => x.pc.past) (b := y) hx
    rw [hp] at h
    exact (List.perm_append_left_iff _).mp h
  case rest  => exact ⟨rfl, rfl, rfl, rfl, rfl, rfl⟩
  case calls => exact fun _ => rfl

-- The worker takes the first task.
theorem Accounts.take {task : Nat} {tasks qt : List Nat} (ht : s.tasks = task :: tasks)
    (hb : x.pc.before = []) (hp : x.pc.past = []) (hb' : y.pc.before = [task])
    (hp' : y.pc.past = []) : Accounts { s with
      workers := s.workers.set w y, tasks := tasks, taken := s.taken ++ [(task, w)],
      quickTaken := qt } := by
  have hqueue : Ledger.Owns ⟨s.pushed, s.takenTasks⟩ ([task] ++ tasks) := by
    rw [List.singleton_append, ← ht]
    exact k.queue
  have hbefore := flatMap_set_perm (f := fun x : Worker => x.pc.before) (b := y) hx
  have hpast := flatMap_set_perm (f := fun x : Worker => x.pc.past) (b := y) hx
  have htaken : takenTasks { s with taken := s.taken ++ [(task, w)] } = s.takenTasks ++ [task] := by
    simp [takenTasks]
  rw [hb, hb'] at hbefore
  rw [hp, hp'] at hpast
  refine ⟨htaken ▸ hqueue.release, ?_, k.tested.of_perm hpast.symm, k.pushed⟩
  have hf : Ledger.Fresh ⟨s.takenTasks, s.ran ++ s.skipped⟩ [task] := by
    refine ⟨List.nodup_singleton _, ?_⟩
    simpa using (hqueue.mem_held_iff.mp (List.mem_append_left _ List.mem_cons_self)).2
  have ho := (k.taken.obtain' hf).of_perm (List.perm_append_comm.trans hbefore.symm)
  exact htaken ▸ ho

-- The worker tests m_bQuickFree.
theorem Accounts.test {task : Nat} {ran skipped : List Nat}
    (hr : ((s.ran ++ s.skipped) ++ [task]).Perm (ran ++ skipped)) (hb : x.pc.before = [task])
    (hp : x.pc.past = []) (hb' : y.pc.before = []) (hp' : y.pc.past = [task]) :
    Accounts { s with workers := s.workers.set w y, ran := ran, skipped := skipped } := by
  have hbefore := flatMap_set_perm (f := fun x : Worker => x.pc.before) (b := y) hx
  have hpast := flatMap_set_perm (f := fun x : Worker => x.pc.past) (b := y) hx
  rw [hb, hb'] at hbefore
  rw [hp, hp'] at hpast
  have htaken := k.taken.of_perm hbefore.symm
  have hf : Ledger.Fresh ⟨s.ran ++ s.skipped, s.deleted⟩ [task] := by
    refine ⟨List.nodup_singleton _, ?_⟩
    simpa using (htaken.mem_held_iff.mp (List.mem_append_left _ List.mem_cons_self)).2
  have ho := (k.tested.obtain' hf).of_perm (List.perm_append_comm.trans hpast.symm)
  exact ⟨k.queue, htaken.release.of_history (.refl _) hr, ho.of_history hr (.refl _), k.pushed⟩

-- The worker deletes its task.
theorem Accounts.delete {task : Nat} (hb : x.pc.before = []) (hp : x.pc.past = [task])
    (hb' : y.pc.before = []) (hp' : y.pc.past = []) : Accounts { s with
      workers := s.workers.set w y, deleted := s.deleted ++ [task] } := by
  have hbefore := flatMap_set_perm (f := fun x : Worker => x.pc.before) (b := y) hx
  have hpast := flatMap_set_perm (f := fun x : Worker => x.pc.past) (b := y) hx
  rw [hb, hb'] at hbefore
  rw [hp, hp'] at hpast
  exact ⟨k.queue, k.taken.of_perm hbefore.symm, (k.tested.of_perm hpast.symm).release, k.pushed⟩

end Work

theorem Accounts.work (k : Accounts s) (h : s.work w now = some s') : Accounts s' := by
  unfold ThreadPool.work at h
  split at h
  case h_1 => cases h
  case h_2 x hx =>
    have ⟨status, isBusy, updateTime, running, pc⟩ := x
    cases pc <;> dsimp only at h
    case created | done => cases h
    case get =>
      split at h <;> cases h
      case h_1     => exact k.put hx rfl rfl
      case h_2 htasks => exact k.take hx htasks rfl rfl rfl rfl
    case busy task =>
      cases h
      split
      case isTrue  => exact k.test hx (by simp) rfl rfl rfl rfl
      case isFalse =>
        refine k.test hx ?_ rfl rfl rfl rfl
        have hp : (s.skipped ++ [task]).Perm ([task] ++ s.skipped) := List.perm_append_comm
        simpa only [List.append_assoc] using hp.append_left s.ran
    case del task => cases h; exact k.delete hx rfl rfl rfl rfl
    case test =>
      cases h
      refine k.put hx ?_ ?_
      all_goals
        dsimp only
        split <;> rfl
    all_goals
      cases h
      exact k.put hx rfl rfl

-- A call leaves the tasks of the workers alone.
theorem call_before (h : s.call t pos now = some s') :
    s'.before = s.before ∧ s'.past = s.past := by
  have created (w : Nat) {f : WorkerPc → List Nat} (hf : f .init = f .created) :
      (s.workers.modify w fun x => { x with pc := if x.pc = .created then .init else x.pc }).flatMap
        (f ·.pc) = s.workers.flatMap (f ·.pc) := by
    apply flatMap_modify
    intro x
    dsimp only
    split
    case isTrue hx => rw [hx, hf]
    case isFalse   => rfl
  unfold ThreadPool.call at h
  dsimp only at h
  split at h
  case h_1 | h_13 => cases h
  case h_8 =>
    have ⟨_, h⟩ := Option.ite_none_right_eq_some.mp h
    cases h
    simp [before, past, WorkerPc.before, WorkerPc.past]
  case h_9 w _ => cases h; exact ⟨created w rfl, created w rfl⟩
  case h_10    => cases h; exact ⟨flatMap_modify fun _ => rfl, flatMap_modify fun _ => rfl⟩
  all_goals
    cases h
    exact ⟨rfl, rfl⟩

theorem pushed_set {calls : List CallPc} {pc pc' : CallPc} (h : calls[t]? = some pc)
    (hp : pc'.pushed = pc.pushed) (u : Nat) :
    (calls.set t pc')[u]?.any CallPc.pushed = calls[u]?.any CallPc.pushed := by
  by_cases hu : t = u
  case pos =>
    have ⟨hl, he⟩ := List.getElem?_eq_some_iff.mp h
    subst hu
    simp [hl, hp, he]
  case neg => rw [List.getElem?_set_ne hu]

-- A step of a call that only goes on.
theorem Accounts.goto (k : Accounts s) {pc pc' : CallPc} (h : s.calls[t]? = some pc)
    (hp : pc'.pushed = pc.pushed) : Accounts { s with calls := s.calls.set t pc' } :=
  k.congr (.refl _) (.refl _) ⟨rfl, rfl, rfl, rfl, rfl, rfl⟩ (pushed_set h hp)

-- A change of the workers that leaves their tasks.
theorem Accounts.workers (k : Accounts s) {l : List Worker} (p : List Nat)
    (hb : l.flatMap (·.pc.before) = s.before) (hp : l.flatMap (·.pc.past) = s.past) :
    Accounts { s with workers := l, pool := p } :=
  k.congr (.of_eq hb) (.of_eq hp) ⟨rfl, rfl, rfl, rfl, rfl, rfl⟩ fun _ => rfl

theorem Accounts.push (k : Accounts s) (h : s.calls[t]? = some .push) : Accounts { s with
    calls := s.calls.set t .notify, tasks := s.tasks ++ [t], pushed := s.pushed ++ [t] } := by
  have hf : Ledger.Fresh ⟨s.pushed, s.takenTasks⟩ [t] := by
    refine ⟨List.nodup_singleton _, ?_⟩
    simp [k.pushed, h, CallPc.pushed]
  refine ⟨k.queue.obtain' hf, k.taken, k.tested, fun u => ?_⟩
  have ⟨hl, _⟩ := List.getElem?_eq_some_iff.mp h
  by_cases hu : t = u
  case pos => subst hu; simp [hl, CallPc.pushed]
  case neg =>
    dsimp only
    rw [List.getElem?_set_ne hu, ← k.pushed, List.mem_append, List.mem_singleton]
    exact or_iff_left (Ne.symm hu)

theorem Accounts.insert (k : Accounts s) (hc : s.calls[t]? = some .insert)
    (h : s.insert t pos now = some s') : Accounts s' := by
  have ⟨_, h⟩ := Option.ite_none_right_eq_some.mp h
  cases h
  have g : Accounts { s with calls := s.calls.set t (.create s.workers.length) } := k.goto hc rfl
  apply g.workers
  case hb => simp [before, WorkerPc.before]
  case hp => simp [past, WorkerPc.past]

theorem Accounts.call (k : Accounts s) (h : s.call t pos now = some s') : Accounts s' := by
  unfold ThreadPool.call at h
  dsimp only at h
  split at h
  case h_1 | h_13 => cases h
  case h_2 hc =>
    cases h
    refine k.goto hc ?_
    cases s.enableInsertTask <;> rfl
  case h_6 hc =>
    cases h
    refine k.goto hc ?_
    split
    case isTrue  => rfl
    case isFalse => split <;> rfl
  case h_7 hc =>
    cases h
    refine k.goto hc ?_
    split <;> rfl
  case h_8 hc => exact k.insert hc h
  case h_9 w hc =>
    cases h
    have g : Accounts { s with calls := s.calls.set t (.mark w) } := k.goto hc rfl
    apply g.workers s.pool
    all_goals
      apply flatMap_modify
      intro x
      dsimp only
      split
      case isTrue hx => rw [hx]; rfl
      case isFalse   => rfl
  case h_10 w hc =>
    cases h
    have g : Accounts { s with calls := s.calls.set t .push } := k.goto hc rfl
    apply g.workers s.pool
    all_goals exact flatMap_modify fun _ => rfl
  case h_11 hc => cases h; exact k.push hc
  all_goals
    rename_i hc
    cases h
    exact k.goto hc rfl

theorem Accounts.control (k : Accounts s) (c : Control s a s') : Accounts s' := by
  have ⟨told, tell, _, _, _, _, _, _, _, _, _, _, eq⟩ := c
  have k : Accounts told := by
    obtain rfl | ⟨w, rfl⟩ := tell
    · exact k
    · exact k.workers s.pool (flatMap_modify fun _ => rfl) (flatMap_modify fun _ => rfl)
  subst eq
  exact k.congr (.refl _) (.refl _) ⟨rfl, rfl, rfl, rfl, rfl, rfl⟩ fun _ => rfl

theorem Accounts.execute (k : Accounts s) : Accounts { s with calls := s.calls ++ [.test] } := by
  refine k.congr (.refl _) (.refl _) ⟨rfl, rfl, rfl, rfl, rfl, rfl⟩ fun t => ?_
  dsimp only
  rw [List.getElem?_append]
  split
  case isTrue     => rfl
  case isFalse hl =>
    rw [List.getElem?_eq_none (Nat.not_lt.mp hl)]
    cases t - s.calls.length <;> rfl

theorem Accounts.step (k : Accounts s) (h : s.step a = some s') : Accounts s' := by
  cases a
  case execute => cases h; exact k.execute
  case call    => exact k.call h
  case work    => exact k.work h
  all_goals exact k.control (step_control h nofun nofun nofun)

theorem Accounts.of_reachable {lo hi : Nat} (h : (threadPool lo hi).Reachable s) : Accounts s :=
  h.invariant (fun _ => accounts_init) fun _ _ _ k _ hs => k.step hs

end ThreadPool
end NetPool
