import NetPool.Io.Ctl
import NetPool.Io.Jobs

namespace NetPool
namespace Registry

variable {r r' : Registry} {k : Kernel} {i i' : JobId} {j : IoJob} {c : Call}

-- A descriptor has at most one job that is not marked, and that job is the one `find_io_job`
-- returns.
structure LookupOk (r : Registry) : Prop where
  one   : ∀ fd, r.ioJobs.countP (fun i => (r.job i).fd = fd ∧ (r.job i).isWantDelete = false) ≤ 1
  found : ∀ i ∈ r.ioJobs, (r.job i).isWantDelete = false → r.findIoJob (r.job i).fd = some i

-- The descriptors of all jobs in the list, marked or not, are different.
def Distinct (r : Registry) : Prop :=
  (r.ioJobs.map fun i => (r.job i).fd).Nodup

theorem Distinct.find?_eq (h : r.Distinct) (hm : i ∈ r.ioJobs) :
    r.ioJobs.find? (fun i' => (r.job i').fd = (r.job i).fd) = some i := by
  cases hf : r.ioJobs.find? (fun i' => (r.job i').fd = (r.job i).fd)
  case none =>
    have := List.find?_eq_none.mp hf i hm
    simp at this
  case some i' =>
    have hfd : (r.job i').fd = (r.job i).fd := by simpa using List.find?_some hf
    rw [List.inj_on_of_nodup_map h (List.mem_of_find?_eq_some hf) hm hfd]

theorem Distinct.findIoJob_eq (h : r.Distinct) (hm : i ∈ r.ioJobs) :
    r.findIoJob (r.job i).fd = if (r.job i).isWantDelete then none else some i := by
  rw [findIoJob, h.find?_eq hm]

theorem Distinct.lookupOk (h : r.Distinct) : r.LookupOk where
  one fd := by
    have h₁ := List.nodup_iff_count_le_one.mp h fd
    rw [List.count_eq_countP, List.countP_map] at h₁
    refine Nat.le_trans (List.countP_mono_left fun i _ hi => ?_) h₁
    simp at hi ⊢
    exact hi.1
  found i hm live := by simp [h.findIoJob_eq hm, live]

theorem Distinct.of_sublist (h : r.Distinct) (ioJobs : r'.ioJobs.Sublist r.ioJobs)
    (fd : ∀ i, (r'.job i).fd = (r.job i).fd) : r'.Distinct := by
  simp only [Distinct, fd]
  exact h.sublist <| ioJobs.map _

end Registry

namespace Net

variable {s s' : Net}

-- No call registers a job for a descriptor while a marked job for it is still in the list.
def Clear (s : Net) : Act → Prop
  | .call c k => c.freeFunc? = none → s.reg.AddAccepted k c →
    ∀ i ∈ s.reg.ioJobs, (s.reg.job i).fd = c.fd → (s.reg.job i).isWantDelete = false
  | _ => True

instance : DecidablePred s.Clear
  | .call _ _ => inferInstanceAs (Decidable (_ → _ → ∀ i ∈ _, _))
  | .listenCtl .. | .sweep _ | .freeCallback _ | .delete _ | .writeCtl .. | .writeClear _ | .close _ =>
    .isTrue trivial

theorem distinct_call {c : Call} {k : Kernel} (inv : s.Inv) (h : s.reg.Distinct)
    (clear : s.Clear (.call c k)) : (s.reg.exec k c).1.Distinct := by
  cases s.reg.exec_effect (k := k) (c := c)
  case keep failed missed job next ioJobs => exact h.of_sublist (by simp [ioJobs]) (by simp [job])
  case register j find add ret fd live freeFunc job next ioJobs =>
    have accepted := Registry.exec_ret find add |>.mp ret
    have hn : ∀ i ∈ s.reg.ioJobs, i ≠ s.reg.next := fun i hm => Nat.ne_of_lt <| inv.lt_next <| .inl hm
    have hc : ∀ i ∈ s.reg.ioJobs, (s.reg.job i).fd ≠ c.fd := by
      intro i hm hfd
      have := h.findIoJob_eq hm
      simp [hfd, find, clear add accepted i hm hfd] at this
    have hl : s.reg.ioJobs.map (fun i => (Function.update s.reg.job s.reg.next j i).fd) =
        s.reg.ioJobs.map fun i => (s.reg.job i).fd :=
      List.map_congr_left fun i hm => by simp [hn i hm]
    simp only [Registry.Distinct, job, ioJobs, List.map_append, hl]
    refine h.append (List.nodup_singleton _) ?_
    simpa [fd, eq_comm] using hc
  case modify i j find handled job next ioJobs =>
    refine h.of_sublist (by simp [ioJobs]) fun i' => ?_
    by_cases hi : i' = i
    case pos => simp [job, hi, handled.fd]
    case neg => simp [job, hi]

theorem distinct_step {a : Act} (inv : s.Inv) (h : s.reg.Distinct) (clear : s.Clear a)
    (hs : s.step a = some s') : s'.reg.Distinct := by
  cases a
  case call c k => cases hs; exact distinct_call inv h clear
  case listenCtl n k =>
    obtain ⟨d, _, hs⟩ := Option.map_eq_some_iff.mp hs
    subst hs
    obtain ⟨hj, _, hl⟩ := s.reg.delListenCtl_frame k d.2
    exact h.of_sublist (by simp [hl]) (by simp [hj])
  case sweep t =>
    simp only [Net.step, Registry.handleDelingJob_eq, Option.some.injEq] at hs
    subst hs
    exact h.of_sublist List.filter_sublist fun _ => rfl
  case writeCtl i k =>
    simp only [Net.step] at hs
    split at hs <;> cases hs
    obtain ⟨hj, _, hl⟩ := s.reg.delIoWritingEvt_frame k i
    exact h.of_sublist (by simp [hl]) (by simp [hj])
  case writeClear i =>
    simp only [Net.step] at hs
    split at hs <;> cases hs
    refine h.of_sublist (List.Sublist.refl _) fun i' => ?_
    by_cases hi : i' = i
    case pos => rw [hi, Registry.modify_job_self]; rfl
    case neg => rw [Registry.modify_job_ne hi]
  case close fd => cases hs; exact h
  all_goals
    simp only [Net.step] at hs
    split at hs <;> cases hs
    exact h

theorem distinct (h : (net n).Reach Clear s) : s.reg.Distinct := by
  refine h.invariant_with (I := (·.reg.Distinct)) (fun s hr => Inv.of_reachable hr.reachable) ?_ ?_
  case refine_1 => rintro _ rfl; exact List.nodup_nil
  case refine_2 => exact fun _ _ _ inv h clear hs => distinct_step inv h clear hs

-- A call that registers a job behind a marked one for the same descriptor makes it unfindable.
theorem not_lookupOk {a : Act} (inv : s.Inv) (h : s.reg.Distinct) (clear : ¬s.Clear a)
    (hs : s.step a = some s') : ¬s'.reg.LookupOk := by
  cases a <;> simp only [Clear, not_true_eq_false, Classical.not_imp, not_forall] at clear
  case call c k =>
    have ⟨add, accepted, i, hm, hfd, hd⟩ := clear
    have none : s.reg.findIoJob c.fd = none := by simpa [hfd, hd] using h.findIoJob_eq hm
    cases hs
    intro ok
    cases s.reg.exec_effect (k := k) (c := c)
    case keep failed _ _ _ _ =>
      have := Registry.exec_ret none add |>.mpr accepted
      simp [failed none add] at this
    case modify find _ _ _ _ => simp [none] at find
    case register j _ _ _ fd live _ job _ ioJobs =>
      have hn : ∀ i ∈ s.reg.ioJobs, i ≠ s.reg.next := fun i hm => Nat.ne_of_lt <| inv.lt_next <| .inl hm
      have hf := ok.found s.reg.next (by simp [ioJobs]) (by simp [job, live])
      simp only [Registry.findIoJob, ioJobs, job, List.find?_append, Function.update_self, fd] at hf
      cases hp : s.reg.ioJobs.find? fun i' => (Function.update s.reg.job s.reg.next j i').fd = c.fd
      case none =>
        have := List.find?_eq_none.mp hp i hm
        simp [hn i hm, hfd] at this
      case some i' =>
        have := hn i' (List.mem_of_find?_eq_some hp)
        simp [hp, this] at hf

-- Lookup works in the runs that are clear, and the first step that is not clear breaks it.
theorem one_live_job_found (n : Nat) :
    (∀ s, (net n).Reach Clear s → s.reg.LookupOk) ∧
    (∀ s a s', (net n).Reach Clear s → ¬s.Clear a → (net n).step s a = some s' →
      ¬s'.reg.LookupOk) := by
  refine ⟨fun s h => (distinct h).lookupOk, fun s a s' h clear hs => ?_⟩
  exact not_lookupOk (Inv.of_reachable h.reachable) (distinct h) clear hs

theorem one_live_job_found_reused :
    ∃ s, (net 1).Reach Clear s ∧ s.reg.ioJobs = [1] ∧ s.reg.LookupOk := by
  have ⟨s, hr, hs⟩ : ∃ s, (net 1).Reach Clear s ∧ s.reg.ioJobs = [1] :=
    System.Reach.exists_of_run [
        .call (.addRead (.app 0) 4 0 0 0 true) .plain,
        .call (.delRead 4 (.app 1)) .plain,
        .sweep 0,
        .call (.addRead (.app 0) 4 0 0 0 true) .plain]
      _ rfl (by decide)
  exact ⟨s, hr, hs, (one_live_job_found 1).1 s hr⟩

theorem not_one_live_job_found :
    ¬∀ n s, (net n).Reachable s → s.reg.LookupOk := by
  intro h
  have ⟨s, hr, hs⟩ : ∃ s, (net 1).Reachable s ∧ 1 ∈ s.reg.ioJobs ∧
      (s.reg.job 1).isWantDelete = false ∧ s.reg.findIoJob (s.reg.job 1).fd = none :=
    System.exists_of_run [
        .call (.addRead (.app 0) 4 0 0 0 true) .plain,
        .call (.delRead 4 (.app 1)) .plain,
        .call (.addRead (.app 0) 4 0 0 0 true) .plain]
      _ rfl (by decide)
  have := (h 1 s hr).found 1 hs.1 hs.2.1
  simp [hs.2.2] at this

end Net
end NetPool
