import NetPool.Io.Serving

namespace NetPool

namespace Serving

variable {os : Os} {n t : Nat} {s s' : Serving} {i : JobId} {d : Dispatch} {a : Act}

-- No read callback of a silent job has been called.
def Quiet (s : Serving) : Prop :=
  ∀ c ∈ s.readCalls, c.2 = false

-- The condition on a step: there is nothing to read for a job that `del_read_job` has found with a
-- write event, and no connection to accept for one that `del_listen_job` has found.
def Unheard (s : Serving) : Act → Prop
  | .recv out _ => ∀ a ∈ s.asking, a.1 ∈ s.paused → out = .intr ∨ out = .wouldBlock
  | .accept out => ∀ a ∈ s.asking, a.1 ∈ s.silent → out.conn?.getD 0 = 0
  | .call .. | .close _ | .sweep | .wait _ | .select _ | .go _ | .ret => True

structure Hushed (s : Serving) : Prop where
  listed : ∀ i ∈ s.reg.ioJobs, i < s.reg.next
  lt     : ∀ i ∈ s.silent, i < s.reg.next
  silent : ∀ i ∈ s.silent, (s.reg.job i).isWantDelete = true ∨ i ∈ s.paused
  paused : ∀ i ∈ s.paused, i ∈ s.silent ∧ (s.reg.job i).kind ≠ .listen

namespace Hushed

-- A step that is no call.
theorem grown (inv : s.Hushed) (h : s.reg.Grown s'.reg) (silent : s'.silent = s.silent)
    (paused : s'.paused = s.paused) : s'.Hushed where
  listed := listed_grown inv.listed h
  lt i hi := Nat.lt_of_lt_of_le (inv.lt i (silent ▸ hi)) h.next
  silent i hi := by
    rw [silent] at hi
    exact (inv.silent i hi).imp (h.marked i (inv.lt i hi)) (paused ▸ ·)
  paused i hi := by
    have ⟨hs, hk⟩ := inv.paused i (paused ▸ hi)
    exact ⟨silent ▸ hs, (h.owner i (inv.lt i hs)).kind ▸ hk⟩

theorem call_silent {c : Call} {r' : Registry} {ret : Bool} (inv : s.Hushed)
    (h : s.reg.Outcome c r' ret) (hi : i ∈ silentAfter s.reg c s.silent) :
    i < s.reg.next ∧ ((r'.job i).isWantDelete = true ∨ i ∈ pausedAfter s.reg c s.paused) := by
  have kept (hs : i ∈ s.silent) : i < s.reg.next ∧ ((r'.job i).isWantDelete = true ∨ i ∈ s.paused) :=
    have lt := inv.lt i hs
    ⟨lt, (inv.silent i hs).imp_left (h.grown.marked i lt)⟩
  have new (find : s.reg.findIoJob c.fd = some i) : i < s.reg.next :=
    inv.listed i (Registry.findIoJob_some find).1
  cases c
  case delRead fd freeFunc =>
    obtain hi | hi := List.mem_append.mp hi
    case inl => exact (kept hi).imp_right fun h => h.imp_right (List.mem_append_left _)
    case inr =>
      obtain ⟨find, hk⟩ := mem_found.mp hi
      refine ⟨new find, ?_⟩
      rw [h.job_found find rfl]
      cases hw : (s.reg.job i).ioEventWrite
      case false => left; simp [Call.onJob, hw]
      case true  =>
        right
        refine List.mem_append_right _ <| mem_found.mpr ⟨find, ?_⟩
        simpa [hw] using hk
  case delListen fd freeFunc =>
    obtain hi | hi := List.mem_append.mp hi
    case inl => exact kept hi
    case inr =>
      obtain ⟨find, _⟩ := mem_found.mp hi
      refine ⟨new find, .inl ?_⟩
      rw [h.job_found find rfl]
      rfl
  case addRead _ fd _ _ _ _ =>
    obtain ⟨hi, hf⟩ := List.mem_filter.mp hi
    refine (kept hi).imp_right fun h => h.imp_right fun hp => ?_
    have hf : (s.reg.job i).kind = .listen ∨ (s.reg.job i).fd ≠ fd := by simpa using hf
    exact List.mem_filter.mpr ⟨hp, by simpa using hf.resolve_left (inv.paused i hp).2⟩
  case addListen => exact kept hi
  case addWrite  => exact kept hi
  case delWrite  => exact kept hi

theorem call_paused {c : Call} (inv : s.Hushed) (hi : i ∈ pausedAfter s.reg c s.paused) :
    i ∈ silentAfter s.reg c s.silent ∧ (s.reg.job i).kind ≠ .listen := by
  cases c
  case delRead fd freeFunc =>
    obtain hi | hi := List.mem_append.mp hi
    case inl => exact (inv.paused i hi).imp_left (List.mem_append_left _)
    case inr =>
      have ⟨find, hp⟩ := mem_found.mp hi
      have hk : (s.reg.job i).kind ≠ .listen := (of_decide_eq_true hp).1
      exact ⟨List.mem_append_right _ <| mem_found.mpr ⟨find, by simpa using hk⟩, hk⟩
  case delListen => exact (inv.paused i hi).imp_left (List.mem_append_left _)
  case addRead =>
    have ⟨hi, hf⟩ := List.mem_filter.mp hi
    refine (inv.paused i hi).imp_left fun hs => List.mem_filter.mpr ⟨hs, ?_⟩
    simpa using Or.inr (by simpa using hf)
  case addListen => exact inv.paused i hi
  case addWrite  => exact inv.paused i hi
  case delWrite  => exact inv.paused i hi

theorem call {c : Call} {k : Kernel} (inv : s.Hushed) (h : s.step os t (.call c k) = some s') :
    s'.Hushed := by
  have hg := step_grown h
  have ⟨_, h⟩ := Option.ite_none_right_eq_some.mp h
  cases h
  have outcome : s.reg.Outcome c (os.call s.reg k c).1 (os.call s.reg k c).2 := Os.call_outcome
  constructor
  case listed => exact listed_grown inv.listed hg
  case lt     => exact fun i hi => Nat.lt_of_lt_of_le (inv.call_silent outcome hi).1 hg.next
  case silent => exact fun i hi => (inv.call_silent outcome hi).2
  case paused =>
    intro i hi
    have ⟨hs, hk⟩ := inv.call_paused hi
    have lt := (inv.call_silent outcome hs).1
    exact ⟨hs, (hg.owner i lt).kind ▸ hk⟩

end Hushed

-- Only the calls write the history of the silent jobs.
theorem step_silent (h : s.step os t a = some s') :
    (∃ c k, a = .call c k) ∨ s'.silent = s.silent ∧ s'.paused = s.paused := by
  cases step_cases h
  case call c k _ => exact .inl ⟨c, k, rfl⟩
  all_goals right
  case dispatch k d hpc =>
    have hd : s.Dispatched os k (s.dispatch os k d) := s.dispatch_cases d
    generalize s.dispatch os k d = s' at hd
    cases hd
    case goto  => exact ⟨rfl, rfl⟩
    case write =>
      unfold write
      split <;> exact ⟨rfl, rfl⟩
  case recv v _ _ _   => cases v <;> exact ⟨rfl, rfl⟩
  case accept v _ _ _ => cases v <;> exact ⟨rfl, rfl⟩
  all_goals exact ⟨rfl, rfl⟩

theorem Hushed.step (inv : s.Hushed) (h : s.step os t a = some s') : s'.Hushed := by
  obtain ⟨c, k, rfl⟩ | ⟨hs, hp⟩ := step_silent h
  case inl => exact inv.call h
  case inr => exact inv.grown (step_grown h) hs hp

theorem Hushed.of_reach (h : (serving os n t).Reachable s) : s.Hushed := by
  refine h.invariant ?_ fun _ _ _ inv _ hs => inv.step hs
  rintro _ rfl
  exact ⟨nofun, nofun, nofun, nofun⟩

theorem round_quiet {v : Verdict β} :
    (s.round i d v).Quiet ↔ s.Quiet ∧ (i ∈ s.silent → v.call? = none) := by
  cases v <;> simp [round, Quiet, goto, or_imp, forall_and]

-- A step that meets the condition, and only such a step, calls no read callback of a silent job.
theorem step_quiet (inv : s.Hushed) (h : s.step os t a = some s') :
    s'.Quiet ↔ s.Quiet ∧ s.Unheard a := by
  cases step_cases h
  case recv i d v ask hk hv =>
    have live := (asking_eq_some ask).2 hk
    have hp : i ∈ s.silent ↔ i ∈ s.paused :=
      ⟨fun hi => (inv.silent i hi).resolve_left (by simp [live]), fun hi => (inv.paused i hi).1⟩
    simp [round_quiet, Unheard, ask, hp, hv]
  case accept i d v ask _ hv => simp [round_quiet, Unheard, ask, hv]
  case dispatch k d hpc =>
    have hd : s.Dispatched os k (s.dispatch os k d) := s.dispatch_cases d
    generalize s.dispatch os k d = s' at hd
    cases hd
    case goto  => exact (and_iff_left trivial).symm
    case write =>
      unfold write
      split <;> exact (and_iff_left trivial).symm
  all_goals exact (and_iff_left trivial).symm

-- No read callback of a job is called once the job has been taken back, exactly in the runs in
-- which no data come for a job that was left alive for its write event and no connection for a
-- listening one.
theorem quiet_iff (h : (serving os n t).Reachable s) :
    s.Quiet ↔ (serving os n t).Reach Unheard s := by
  constructor
  case mpr =>
    refine fun hr => hr.invariant_with (fun _ hr => Hushed.of_reach hr.reachable) ?_ ?_
    case refine_1 => rintro _ rfl; exact nofun
    case refine_2 => exact fun _ _ _ inv hq ok hs => (step_quiet inv hs).mpr ⟨hq, ok⟩
  case mp =>
    intro hq
    induction h
    case init h         => exact .init h
    case step hr _ e hi =>
      have ⟨hq, ok⟩ := (step_quiet (Hushed.of_reach hr) e).mp hq
      exact .step (hi hq) ok e

-- A job without a write event that its own callback has taken back.
theorem quiet_iff_marked :
    ∃ s, (serving .linux 1 0).Reachable s ∧
      (s.silent = [0] ∧ s.readCalls = [(0, false)] ∧ s.pc = .outside) ∧
      (s.Quiet ↔ (serving .linux 1 0).Reach Unheard s) := by
  have ⟨s, hr, hs⟩ : ∃ s, (serving .linux 1 0).Reachable s ∧
      s.silent = [0] ∧ s.readCalls = [(0, false)] ∧ s.pc = .outside :=
    System.exists_of_run [
        .call (.addRead (.app 0) 5 0 0 0 true) .plain,
        .sweep,
        .wait [(5, true, false)],
        .go .plain,
        .recv (.ret [1]) [],
        .call (.delRead 5 (.app 1)) .plain,
        .ret,
        .go .plain,
        .go .plain,
        .go .plain]
      _ rfl (by decide)
  exact ⟨s, hr, hs, quiet_iff hr⟩

-- A callback that takes the read event of a job with a write event back, and one that takes its
-- listening job back, while there is more to read and to accept.
theorem not_quiet :
    (¬∀ os n t s, (serving os n t).Reachable s →
      ∀ c ∈ s.readCalls, (s.reg.job c.1).kind ≠ .listen → c.2 = false) ∧
    ¬∀ os n t s, (serving os n t).Reachable s →
      ∀ c ∈ s.readCalls, (s.reg.job c.1).kind = .listen → c.2 = false := by
  constructor
  case left =>
    intro h
    have ⟨s, hr, hc, hk⟩ : ∃ s, (serving .linux 1 0).Reachable s ∧
        (0, true) ∈ s.readCalls ∧ (s.reg.job 0).kind ≠ .listen :=
      System.exists_of_run [
          .call (.addRead (.app 0) 5 0 0 0 true) .plain,
          .call (.addWrite (.app 1) 5 0 0 true) .plain,
          .sweep,
          .wait [(5, true, false)],
          .go .plain,
          .recv (.ret [1]) [],
          .call (.delRead 5 (.app 2)) .plain,
          .ret,
          .recv (.ret [2]) []]
        _ rfl (by decide)
    exact Bool.noConfusion <| h _ _ _ s hr _ hc hk
  case right =>
    intro h
    have ⟨s, hr, hc, hk⟩ : ∃ s, (serving .linux 1 0).Reachable s ∧
        (0, true) ∈ s.readCalls ∧ (s.reg.job 0).kind = .listen :=
      System.exists_of_run [
          .call (.addListen (.app 0) 3 0) .plain,
          .sweep,
          .wait [(3, true, false)],
          .go .plain,
          .accept (.conn 7),
          .call (.delListen 3 (.app 2)) .plain,
          .ret,
          .accept (.conn 8)]
        _ rfl (by decide)
    exact Bool.noConfusion <| h _ _ _ s hr _ hc hk

end Serving
end NetPool
