import NetPool.Io.Jobs
import NetPool.Io.Found

namespace NetPool

-- The call marks the job `j` when it finds it.
def Call.marks (j : IoJob) : Call → Bool
  | delListen ..                            => true
  | delRead ..                              => !j.ioEventWrite
  | delWrite ..                             => !j.ioEventRead
  | addListen .. | addRead .. | addWrite .. => false

namespace Net

variable {n : Nat} {s s' : Net} {r : Registry} {c : Call} {k : Kernel} {i : JobId} {f : Hdl}

-- The call that marks a job hands over a callback.
def HandsOver (s : Net) : Act → Prop
  | .call c _ => (∃ i ∈ s.reg.findIoJob c.fd, c.marks (s.reg.job i)) → c.freeFunc? ≠ some .null
  | .listenCtl .. | .sweep _ | .freeCallback _ | .delete _ | .writeCtl .. | .writeClear _ | .close _ =>
    True

instance : ∀ s a, Decidable (HandsOver s a)
  | _, .call .. => inferInstanceAs (Decidable ((∃ i ∈ _, _) → _))
  | _, .listenCtl .. | _, .sweep _ | _, .freeCallback _ | _, .delete _ | _, .writeCtl ..
  | _, .writeClear _ | _, .close _ => inferInstanceAs (Decidable True)

-- What the log says about the callbacks that were called.
structure Callable (s : Net) : Prop where
  notNull : ∀ i f t, .called i f t ∈ s.log → f ≠ .null
  default : ∀ i f t, .called i f t ∈ s.log → (∀ f', .found i f' true ∈ s.log → f' = .null) →
    f = .defaultFreeHandle

theorem marks_of_found (h : .found i f true ∈ callEvents r k c) :
    (∃ i ∈ r.findIoJob c.fd, c.marks (r.job i)) ∧ c.freeFunc? = some f := by
  unfold callEvents at h
  split at h
  case h_1 i' f' find hf =>
    simp only [List.mem_singleton, JobEvent.found.injEq] at h
    obtain ⟨rfl, rfl, hm⟩ := h
    refine ⟨⟨i, find, ?_⟩, hf⟩
    have live := (Registry.findIoJob_some find).2.2
    cases c <;> try cases hf
    case delListen => rfl
    case delRead fd =>
      have find : r.findIoJob fd = some i := find
      rw [Registry.exec, (Registry.delReadJob_found find).self] at hm
      simpa [live, Call.marks] using hm.symm
    case delWrite fd =>
      have find : r.findIoJob fd = some i := find
      rw [Registry.exec, (Registry.delWriteJob_found find).self] at hm
      simpa [live, Call.marks] using hm.symm
  case h_2 => split at h <;> simp at h
  case h_3 => cases h

-- Every job that was marked was marked by a call that handed over a callback.
def Marked (s : Net) : Prop :=
  ∀ i f, .found i f true ∈ s.log → f ≠ .null

theorem Marked.append {es : List JobEvent} (inv : s.Marked) (h : s'.log = s.log ++ es)
    (he : ∀ i f, .found i f true ∈ es → f ≠ .null) : s'.Marked := by
  intro i f hm
  rw [h] at hm
  exact (List.mem_append.mp hm).elim (inv i f) (he i f)

theorem Marked.step {a : Act} (inv : s.Marked) (ok : s.HandsOver a) (hs : s.step a = some s') :
    s'.Marked := by
  cases a
  case call c k =>
    cases hs
    refine inv.append rfl fun i f hm => ?_
    have ⟨hc, hf⟩ := marks_of_found hm
    rintro rfl
    exact ok hc hf
  case sweep t =>
    cases hs
    exact inv.append rfl fun i f hm => by simp at hm
  case listenCtl n k =>
    have ⟨_, _, hs⟩ := Option.map_eq_some_iff.mp hs
    subst hs
    exact inv
  case close fd => cases hs; exact inv
  case freeCallback n =>
    simp only [Net.step] at hs
    split at hs <;> cases hs
    exact inv.append rfl fun _ _ hm => by simp at hm
  case delete n =>
    simp only [Net.step] at hs
    split at hs <;> cases hs
    exact inv.append rfl fun _ _ hm => by simp at hm
  all_goals
    simp only [Net.step] at hs
    split at hs <;> cases hs
    exact inv

theorem Marked.of_reach (h : (net n).Reach HandsOver s) : s.Marked := by
  refine h.invariant ?_ fun _ _ _ inv ok hs => inv.step ok hs
  rintro _ rfl
  exact nofun

-- The callback of a job that is freed is the one that the call that has marked it has handed over.
theorem found_of_called {t : Nat} (inv : s.Inv) (h : .called i f t ∈ s.log) :
    .found i f true ∈ s.log := by
  obtain ⟨es, es', hl⟩ := List.append_of_mem h
  obtain ⟨_, _, hr, hs⟩ := (inv.alive i).split rfl hl
  obtain ⟨hu, _, _⟩ := Life.called_step hs
  subst hu
  obtain ⟨i', hm⟩ := Life.marked_with hr (by simp [Life.rank]) rfl
  obtain ⟨hf, hi⟩ := List.mem_filter.mp hm
  obtain rfl : i' = i := of_decide_eq_true hi
  rw [hl]
  exact List.mem_append_left _ hf

-- Where every call that marks a job hands over a callback, no null pointer is called. The header's
-- default is the null pointer, and it replaces the function that the constructor has installed.
theorem callable (h : (net n).Reach HandsOver s) : s.Callable where
  notNull i f _ hc := Marked.of_reach h i f <| found_of_called (.of_reachable h.reachable) hc
  default i f _ hc hn :=
    have hf := found_of_called (.of_reachable h.reachable) hc
    absurd (hn f hf) (Marked.of_reach h i f hf)

-- A null pointer that a call without effect has handed over is replaced by the call that marks the
-- job.
theorem callable_replaced :
    ∃ s, (net 1).Reach HandsOver s ∧
      (.found 0 .null false ∈ s.log ∧ .called 0 (.app 1) 0 ∈ s.log) ∧ s.Callable := by
  have ⟨s, hr, hs⟩ : ∃ s, (net 1).Reach HandsOver s ∧
      .found 0 .null false ∈ s.log ∧ .called 0 (.app 1) 0 ∈ s.log :=
    System.Reach.exists_of_run [
        .call (.addRead (.app 0) 5 0 0 0 true) .plain,
        .call (.addWrite (.app 0) 5 0 0 true) .plain,
        .call (.delRead 5 .null) .plain,
        .call (.delWrite 5 (.app 1)) .plain,
        .sweep 0,
        .freeCallback 0]
      _ rfl (by decide)
  exact ⟨s, hr, hs, callable hr⟩

theorem not_callable : ¬∀ n s, (net n).Reachable s → s.Callable := by
  intro h
  have ⟨s, hr, hs⟩ := (net 1).exists_of_run [
      .call (.addRead (.app 0) 5 0 0 0 true) .plain,
      .call (.delRead 5 .null) .plain,
      .sweep 0,
      .freeCallback 0]
    (fun s => .called 0 .null 0 ∈ s.log) rfl (by decide)
  exact (h 1 s hr).notNull 0 .null 0 hs rfl

end Net
end NetPool
