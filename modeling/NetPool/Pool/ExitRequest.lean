import NetPool.Pool.Terminate

namespace NetPool
namespace ThreadPool

variable {s s' : ThreadPool} {x y : Worker} {a : Act} {lo hi w t pos now n k : Nat}

-- The worker is in the loop of Run or past it.
def WorkerPc.begun : WorkerPc → Bool
  | .created | .init => false
  | .test | .get | .wait | .took _ | .busy _ | .run _ | .del _ | .stamp | .idle | .exit
  | .done => true

-- How many steps the worker makes at most when it finds that it has to stop.
def WorkerPc.left : WorkerPc → Nat
  | .created | .init => 0
  | .get    => 9
  | .took _ => 8
  | .busy _ => 7
  | .run _  => 6
  | .del _  => 5
  | .stamp  => 4
  | .idle   => 3
  | .wait   => 3
  | .test   => 2
  | .exit   => 1
  | .done   => 0

-- How many tasks it fetches at most.
def WorkerPc.fetches : WorkerPc → Nat
  | .get => 1
  | .created | .init | .test | .wait | .took _ | .busy _ | .run _ | .del _ | .stamp | .idle | .exit
  | .done => 0

def Act.works (w : Nat) : Act → Bool
  | .work w' _ => w' = w
  | .execute | .call .. | .age _ | .agedStep | .terminate _ | .termStep => false

def takenBy (s : ThreadPool) (w : Nat) : Nat :=
  s.taken.countP (·.2 = w)

-- TellExit stores WORKER_STOPPING in worker `w`.
def Tells (s : ThreadPool) (w : Nat) : Act → Prop
  | .agedStep => ∃ a ∈ s.aged, a.pc = .tell w
  | .termStep => s.term = .status w
  | .execute | .call .. | .work .. | .age _ | .terminate _ => False

-- What has become of the request after the steps `as`: the worker has not gone back to
-- WORKER_STARTED, has fetched one more task at most and has made few steps, and it goes on until
-- it has left its loop.
structure Obeyed (w : Nat) (s : ThreadPool) (as : List Act) (s' : ThreadPool) : Prop where
  status : ∀ x, s'.workers[w]? = some x → x.status ≠ .started
  taken  : s'.takenBy w ≤ s.takenBy w + 1
  steps  : as.countP (Act.works w) ≤ 9
  leaves : ∀ x, s'.workers[w]? = some x → x.pc = .done ∨ ∀ now, (s'.work w now).isSome

def Obeys (lo hi w : Nat) (s : ThreadPool) : Prop :=
  ∀ as s', (threadPool lo hi).run s as = some s' → Obeyed w s as s'

-- A worker that is to stop, with at most `n` steps and at most `k` tasks in its life left.
def Told (w n k : Nat) (s : ThreadPool) : Prop :=
  ∃ x, s.workers[w]? = some x ∧ x.status ≠ .started ∧ x.pc.begun ∧ x.pc.left ≤ n ∧
    s.takenBy w + x.pc.fetches ≤ k

-- The worker is at its next place.
theorem Told.put (h : Told w n k s) (hx : s.workers[w]? = some x)
    (hw : s'.workers = s.workers.set w y) (hy : y.status = x.status) (begun : y.pc.begun)
    (left : y.pc.left + 1 ≤ x.pc.left)
    (taken : s'.takenBy w + y.pc.fetches ≤ s.takenBy w + x.pc.fetches) :
    0 < n ∧ Told w (n - 1) k s' := by
  obtain ⟨x, hx', status, _, left', taken'⟩ := h
  obtain rfl := Option.some.inj (hx.symm.trans hx')
  have ⟨hl, _⟩ := List.getElem?_eq_some_iff.mp hx
  refine ⟨by omega, y, ?_, hy ▸ status, begun, by omega, by omega⟩
  rw [hw, List.getElem?_set_self hl]

theorem Told.own (h : Told w n k s) (hs : s.work w now = some s') :
    0 < n ∧ Told w (n - 1) k s' := by
  have ⟨x, hx, status, begun, _, _⟩ := h
  have ⟨status', isBusy, updateTime, running, pc⟩ := x
  simp only [ThreadPool.work, hx] at hs
  cases pc <;> dsimp only at hs
  case created | init => cases begun
  case done => cases hs
  case test =>
    rw [if_neg status] at hs
    cases hs
    exact h.put hx rfl rfl rfl (by simp [WorkerPc.left]) (Nat.le_refl _)
  case get =>
    split at hs <;> cases hs
    case h_1 => exact h.put hx rfl rfl rfl (by simp [WorkerPc.left]) (Nat.le_succ _)
    case h_2 =>
      refine h.put hx rfl rfl rfl (by simp [WorkerPc.left]) ?_
      simp [takenBy, WorkerPc.fetches]
  case busy =>
    split at hs <;> cases hs
    all_goals exact h.put hx rfl rfl rfl (by simp [WorkerPc.left]) (Nat.le_refl _)
  all_goals
    cases hs
    exact h.put hx rfl rfl rfl (by simp [WorkerPc.left]) (Nat.le_refl _)

-- What the steps of others do to a worker: they may tell it to stop.
structure Kept (w : Nat) (s : ThreadPool) (x : Worker) (s' : ThreadPool) (y : Worker) : Prop where
  worker : s'.workers[w]? = some y
  pc     : y.pc = x.pc
  status : y.status = x.status ∨ y.status = .stopping
  taken  : s'.takenBy w = s.takenBy w

theorem kept_of_workers (hx : s.workers[w]? = some x) (hw : s'.workers = s.workers)
    (ht : s'.taken = s.taken) : Kept w s x s' x :=
  ⟨hw ▸ hx, rfl, .inl rfl, by rw [takenBy, takenBy, ht]⟩

theorem kept_of_modify {u : Nat} {f : Worker → Worker} (hx : s.workers[w]? = some x)
    (hw : s'.workers = s.workers.modify u f) (ht : s'.taken = s.taken) (hp : (f x).pc = x.pc)
    (hs : (f x).status = x.status ∨ (f x).status = .stopping) :
    ∃ y, Kept w s x s' y := by
  have hg : s'.workers[w]? = some (if u = w then f x else x) := by
    rw [hw, List.getElem?_modify, hx]
    rfl
  have taken : s'.takenBy w = s.takenBy w := by rw [takenBy, takenBy, ht]
  by_cases hu : u = w
  case pos => exact ⟨_, by rwa [if_pos hu] at hg, hp, hs, taken⟩
  case neg => exact ⟨_, by rwa [if_neg hu] at hg, rfl, .inl rfl, taken⟩

theorem kept_work {u : Nat} (hx : s.workers[w]? = some x) (hu : u ≠ w)
    (h : s.work u now = some s') : Kept w s x s' x := by
  have set {y : Worker} : (s.workers.set u y)[w]? = some x := by rwa [List.getElem?_set_ne hu]
  unfold ThreadPool.work at h
  split at h
  case h_1 => cases h
  case h_2 z _ =>
    have ⟨status, isBusy, updateTime, running, pc⟩ := z
    cases pc <;> dsimp only at h
    case created | done => cases h
    case get =>
      split at h <;> cases h
      case h_1 => exact ⟨set, rfl, .inl rfl, rfl⟩
      case h_2 => exact ⟨set, rfl, .inl rfl, by simp [takenBy, hu]⟩
    case busy => cases h; split <;> exact ⟨set, rfl, .inl rfl, rfl⟩
    all_goals
      cases h
      exact ⟨set, rfl, .inl rfl, rfl⟩

theorem kept_call (hx : s.workers[w]? = some x) (hc : x.pc ≠ .created)
    (h : s.call t pos now = some s') : ∃ y, Kept w s x s' y := by
  unfold ThreadPool.call at h
  dsimp only at h
  split at h
  case h_1 | h_13 => cases h
  case h_8 =>
    have ⟨_, h⟩ := Option.ite_none_right_eq_some.mp h
    have ⟨hl, _⟩ := List.getElem?_eq_some_iff.mp hx
    cases h
    exact ⟨x, by rwa [List.getElem?_append_left hl], rfl, .inl rfl, rfl⟩
  case h_9  => cases h; exact kept_of_modify hx rfl rfl (if_neg hc) (.inl rfl)
  case h_10 => cases h; exact kept_of_modify hx rfl rfl rfl (.inl rfl)
  all_goals
    cases h
    exact ⟨x, kept_of_workers hx rfl rfl⟩

theorem kept_control (hx : s.workers[w]? = some x) (c : Control s a s') :
    ∃ y, Kept w s x s' y := by
  have ⟨told, tell, _, _, _, _, _, _, _, _, _, _, eq⟩ := c
  subst eq
  obtain rfl | ⟨u, rfl⟩ := tell
  case inl => exact ⟨x, kept_of_workers hx rfl rfl⟩
  case inr => exact kept_of_modify hx rfl rfl rfl (.inr rfl)

theorem kept_step (hx : s.workers[w]? = some x) (hc : x.pc ≠ .created) (ha : ¬a.works w)
    (h : s.step a = some s') : ∃ y, Kept w s x s' y := by
  cases a
  case execute => cases h; exact ⟨x, kept_of_workers hx rfl rfl⟩
  case call    => exact kept_call hx hc h
  case work    => exact ⟨x, kept_work hx (by simpa [Act.works] using ha) h⟩
  all_goals exact kept_control hx (step_control h nofun nofun nofun)

theorem Told.other (h : Told w n k s) (ha : ¬a.works w) (hs : s.step a = some s') :
    Told w n k s' := by
  have ⟨x, hx, status, begun, left, taken⟩ := h
  have hc : x.pc ≠ .created := by
    intro hc
    simp [hc, WorkerPc.begun] at begun
  have ⟨y, kept⟩ := kept_step hx hc ha hs
  have ⟨worker, pc, status', taken'⟩ := kept
  refine ⟨y, worker, ?_, pc ▸ begun, pc ▸ left, taken' ▸ pc ▸ taken⟩
  obtain hy | hy := status'
  case inl => exact hy ▸ status
  case inr => simp [hy]

theorem Told.run {as : List Act} (h : Told w n k s) (hr : (threadPool lo hi).run s as = some s') :
    as.countP (Act.works w) ≤ n ∧ Told w (n - as.countP (Act.works w)) k s' := by
  induction as generalizing s n
  case nil => cases hr; exact ⟨Nat.zero_le _, h⟩
  case cons a as ih =>
    have ⟨m, hm, hm'⟩ := Option.bind_eq_some_iff.mp hr
    by_cases ha : a.works w
    case neg =>
      rw [List.countP_cons_of_neg ha]
      exact ih (h.other ha hm) hm'
    case pos =>
      have ⟨u, now, hu⟩ : ∃ u now, a = .work u now := by
        cases a <;> simp [Act.works] at ha ⊢
      subst hu
      obtain rfl : u = w := by simpa [Act.works] using ha
      have ⟨hn, told⟩ := h.own hm
      have ⟨count, told⟩ := ih told hm'
      rw [List.countP_cons_of_pos ha]
      refine ⟨by omega, ?_⟩
      have : n - (as.countP (Act.works u) + 1) = n - 1 - as.countP (Act.works u) := by omega
      exact this ▸ told

theorem Told.obeyed {as : List Act} (h : Told w 9 (s.takenBy w + 1) s)
    (hr : (threadPool lo hi).run s as = some s') : Obeyed w s as s' := by
  have ⟨steps, x, hx, status, begun, left, taken⟩ := h.run hr
  have only {z : Worker} (hz : s'.workers[w]? = some z) : z = x :=
    Option.some.inj (hz.symm.trans hx)
  refine ⟨fun z hz => only hz ▸ status, by omega, steps, fun z hz => ?_⟩
  cases only hz
  have ⟨_, isBusy, updateTime, running, pc⟩ := x
  cases pc
  case created | init => cases begun
  case done => exact .inl rfl
  case get  =>
    refine .inr fun now => ?_
    simp only [ThreadPool.work, hx]
    split <;> rfl
  all_goals
    refine .inr fun now => ?_
    simp [ThreadPool.work, hx]

-- A worker without a thread has a call of Execute that is about to start it.
def Unborn (s : ThreadPool) : Prop :=
  ∀ w x, s.workers[w]? = some x → x.pc = .created → ∃ t : Nat, s.calls[t]? = some (.create w)

namespace Unborn

theorem put {u : Nat} (b : Unborn s) (hy : y.pc ≠ .created) :
    Unborn { s with workers := s.workers.set u y } := by
  intro w x hx hc
  obtain ⟨rfl, rfl⟩ | ⟨_, hx⟩ := of_getElem?_set hx
  case inl => exact absurd hc hy
  case inr => exact b w x hx hc

theorem work {u : Nat} (b : Unborn s) (h : s.work u now = some s') : Unborn s' := by
  unfold ThreadPool.work at h
  split at h
  case h_1 => cases h
  case h_2 z _ =>
    have ⟨status, isBusy, updateTime, running, pc⟩ := z
    cases pc <;> dsimp only at h
    case created | done => cases h
    case get  => split at h <;> cases h <;> exact b.put nofun
    case busy => cases h; split <;> exact b.put nofun
    case test =>
      cases h
      apply b.put
      dsimp only
      split <;> simp
    all_goals
      cases h
      exact b.put nofun

-- A call that does not start a worker goes on.
theorem goto {pc pc' : CallPc} (b : Unborn s) (hc : s.calls[t]? = some pc)
    (hp : ∀ w, pc ≠ .create w) : Unborn { s with calls := s.calls.set t pc' } := by
  intro w x hx hx'
  have ⟨t', ht⟩ := b w x hx hx'
  by_cases he : t = t'
  case neg => exact ⟨t', by rwa [List.getElem?_set_ne he]⟩
  case pos =>
    subst he
    exact absurd (Option.some.inj (hc.symm.trans ht)) (hp w)

-- The changes of the workers that leave their places alone.
theorem modify {u : Nat} {f : Worker → Worker} (b : Unborn s) (hf : ∀ x, (f x).pc = x.pc) :
    Unborn { s with workers := s.workers.modify u f } := by
  intro w x hx hc
  have hx : (s.workers.modify u f)[w]? = some x := hx
  rw [List.getElem?_modify] at hx
  have ⟨z, hz, he⟩ := Option.map_eq_some_iff.mp hx
  subst he
  refine b w z hz ?_
  by_cases hu : u = w
  case pos => rwa [if_pos hu, hf] at hc
  case neg => rwa [if_neg hu] at hc

theorem insert (b : Unborn s) (hc : s.calls[t]? = some .insert)
    (h : s.insert t pos now = some s') : Unborn s' := by
  have ⟨_, h⟩ := Option.ite_none_right_eq_some.mp h
  cases h
  have ⟨hl, _⟩ := List.getElem?_eq_some_iff.mp hc
  have b : Unborn { s with calls := s.calls.set t (.create s.workers.length) } := b.goto hc nofun
  intro w x hx hx'
  rw [List.getElem?_append] at hx
  split at hx
  case isTrue     => exact b w x hx hx'
  case isFalse hw =>
    have ⟨h₁, _⟩ := List.getElem?_eq_some_iff.mp hx
    rw [List.length_singleton, Nat.lt_one_iff] at h₁
    obtain rfl : w = s.workers.length := by omega
    exact ⟨t, List.getElem?_set_self hl⟩

theorem create (b : Unborn s) (hc : s.calls[t]? = some (.create w))
    (h : s.call t pos now = some s') : Unborn s' := by
  simp only [ThreadPool.call, hc] at h
  cases h
  intro u x hx hx'
  have hx : (s.workers.modify w _)[u]? = some x := hx
  rw [List.getElem?_modify] at hx
  have ⟨z, hz, he⟩ := Option.map_eq_some_iff.mp hx
  subst he
  by_cases hu : w = u
  case pos =>
    rw [if_pos hu] at hx'
    dsimp only at hx'
    split at hx'
    case isTrue     => cases hx'
    case isFalse hn => exact absurd hx' hn
  case neg =>
    rw [if_neg hu] at hx'
    have ⟨t', ht⟩ := b u z hz hx'
    refine ⟨t', ?_⟩
    rw [List.getElem?_set_ne, ht]
    rintro rfl
    exact hu <| CallPc.create.inj <| Option.some.inj (hc.symm.trans ht)

theorem call (b : Unborn s) (h : s.call t pos now = some s') : Unborn s' := by
  have h' := h
  unfold ThreadPool.call at h
  dsimp only at h
  split at h
  case h_1 | h_13 => cases h
  case h_8 hc  => exact b.insert hc h
  case h_9 hc  => exact b.create hc h'
  case h_10 hc => cases h; exact (b.goto hc nofun).modify fun _ => rfl
  all_goals
    rename_i hc
    cases h
    exact b.goto hc nofun

theorem control (b : Unborn s) (c : Control s a s') : Unborn s' := by
  have ⟨told, tell, _, _, _, _, _, _, _, _, _, _, eq⟩ := c
  subst eq
  obtain rfl | ⟨u, rfl⟩ := tell
  case inl => exact b
  case inr => exact b.modify fun _ => rfl

theorem step (b : Unborn s) (h : s.step a = some s') : Unborn s' := by
  cases a
  case execute =>
    cases h
    intro w x hx hc
    have ⟨t, ht⟩ := b w x hx hc
    have ⟨hl, _⟩ := List.getElem?_eq_some_iff.mp ht
    exact ⟨t, by rwa [List.getElem?_append_left hl]⟩
  case call => exact b.call h
  case work => exact b.work h
  all_goals exact b.control (step_control h nofun nofun nofun)

theorem of_reachable (h : (threadPool lo hi).Reachable s) : Unborn s := by
  apply h.invariant
  case h₀ =>
    rintro _ ⟨times, pool, _, _⟩ w x hx hc
    have ⟨n, _, he⟩ := List.mem_map.mp (List.mem_of_getElem? hx)
    rw [← he] at hc
    cases hc
  case hs => exact fun _ _ _ b _ h => b.step h

end Unborn

theorem of_tells (ht : s.Tells w a) (h : s.step a = some s') :
    s'.workers = (s.tellExit w).workers ∧ s'.taken = s.taken := by
  cases a
  case agedStep =>
    have ⟨⟨agetime, pc, rest, trash⟩, ha, hp⟩ := ht
    obtain rfl : pc = .tell w := hp
    have ha : s.aged = some _ := ha
    simp only [ThreadPool.step, ThreadPool.agedStep, ha] at h
    cases h
    exact ⟨rfl, rfl⟩
  case termStep =>
    have ht : s.term = .status w := ht
    simp only [ThreadPool.step, ThreadPool.termStep, ht] at h
    cases h
    exact ⟨rfl, rfl⟩
  all_goals cases ht

theorem worker_of_tells (hx : s.workers[w]? = some x) (ht : s.Tells w a) (h : s.step a = some s') :
    s'.workers[w]? = some { x with status := .stopping } := by
  rw [(of_tells ht h).1]
  simp [tellExit, hx]

theorem run_init (lo hi : Nat) (hx : s.workers[w]? = some x) (hp : x.pc = .init) :
    ∃ s' y, (threadPool lo hi).run s [.work w 0] = some s' ∧ s'.workers[w]? = some y ∧
      y.status = .started := by
  have ⟨hl, _⟩ := List.getElem?_eq_some_iff.mp hx
  refine ⟨{ s with workers := s.workers.set w { x with status := .started, pc := .test } },
    { x with status := .started, pc := .test }, ?_, List.getElem?_set_self hl, rfl⟩
  simp [threadPool, ThreadPool.step, ThreadPool.work, hx, hp]

theorem run_created (lo hi : Nat) (hx : s.workers[w]? = some x) (hp : x.pc = .created)
    (hc : s.calls[t]? = some (.create w)) :
    ∃ s' y, (threadPool lo hi).run s [.call t 0 0] = some s' ∧ s'.workers[w]? = some y ∧
      y.pc = .init := by
  have ⟨s', hs, hw⟩ : ∃ s', s.call t 0 0 = some s' ∧ s'.workers = s.workers.modify w fun x =>
      { x with pc := if x.pc = .created then .init else x.pc } := by
    simp only [ThreadPool.call, hc]
    exact ⟨_, rfl, rfl⟩
  refine ⟨s', { x with pc := .init }, ?_, ?_, rfl⟩
  case refine_1 => simp [threadPool, ThreadPool.step, hs]
  case refine_2 => simp [hw, hx, hp]

-- A worker that has not come to its loop when it is told still stores WORKER_STARTED.
theorem started_of_early (lo hi : Nat) (b : Unborn s) (hx : s.workers[w]? = some x)
    (hp : x.pc = .created ∨ x.pc = .init) : ∃ as s' y, (threadPool lo hi).run s as = some s' ∧
      s'.workers[w]? = some y ∧ y.status = .started := by
  obtain hp | hp := hp
  case inr =>
    have ⟨s', y, hr, hy⟩ := run_init lo hi hx hp
    exact ⟨_, s', y, hr, hy⟩
  case inl =>
    have ⟨t, ht⟩ := b w x hx hp
    have ⟨m, z, hm, hz, hp⟩ := run_created lo hi hx hp ht
    have ⟨s', y, hr, hy⟩ := run_init lo hi hz hp
    refine ⟨[.call t 0 0] ++ [.work w 0], s', y, ?_, hy⟩
    rw [System.run_append, hm]
    exact hr

-- Run stores WORKER_STARTED whatever the status is when the thread comes to it.
theorem exit_request (hr : (threadPool lo hi).Reachable s) (hx : s.workers[w]? = some x)
    (ht : s.Tells w a) (h : (threadPool lo hi).step s a = some s') :
    Obeys lo hi w s' ↔ x.pc ≠ .created ∧ x.pc ≠ .init := by
  have hx' := worker_of_tells hx ht h
  constructor
  case mp =>
    intro ho
    by_contra hp
    have hp : x.pc = .created ∨ x.pc = .init := by
      by_cases hc : x.pc = .created <;> simp_all
    have ⟨as, s'', y, hr', hy, hs⟩ := started_of_early lo hi
      (Unborn.of_reachable (hr.step trivial h)) hx' hp
    exact (ho as s'' hr').status y hy hs
  case mpr =>
    intro ⟨hc, hi⟩ as s'' hr'
    have taken : s'.takenBy w = s.takenBy w := by rw [takenBy, takenBy, (of_tells ht h).2]
    refine Told.obeyed ⟨_, hx', nofun, ?_, ?_, ?_⟩ hr'
    all_goals
      have ⟨_, isBusy, updateTime, running, pc⟩ := x
      cases pc <;> simp_all [WorkerPc.begun, WorkerPc.left, WorkerPc.fetches]

-- Terminate comes to its worker.
def tellActs : List Act :=
  .terminate false :: List.replicate 6 .termStep

-- The worker waits for a task when it is told.
theorem exit_request_waiting : ∃ s s', (threadPool 1 2).Reachable s ∧ s.Tells 0 .termStep ∧
    (threadPool 1 2).step s .termStep = some s' ∧ Obeys 1 2 0 s' := by
  have ⟨s, hr, ht, hw⟩ : ∃ s, (threadPool 1 2).Reachable s ∧ s.term = .status 0 ∧
      s.workers[0]? = some ⟨.started, false, 0, true, .wait⟩ :=
    System.exists_of_run ([.work 0 0, .work 0 0, .work 0 0] ++ tellActs) _ fresh_init (by decide)
  have ⟨s', h⟩ : ∃ s', (threadPool 1 2).step s .termStep = some s' := by
    simp [threadPool, ThreadPool.step, termStep, ht]
  have ht : s.Tells 0 .termStep := ht
  exact ⟨s, s', hr, ht, h, (exit_request hr hw ht h).mpr ⟨nofun, nofun⟩⟩

-- The thread of the worker has not begun Run when it is told.
theorem not_exit_request : ∃ s s', (threadPool 1 2).Reachable s ∧ s.Tells 0 .termStep ∧
    (threadPool 1 2).step s .termStep = some s' ∧ ¬Obeys 1 2 0 s' := by
  have ⟨s, hr, ht, hs⟩ : ∃ s, (threadPool 1 2).Reachable s ∧ s.term = .status 0 ∧
      ((threadPool 1 2).run s [.termStep, .work 0 0]).any fun s =>
        s.workers = [⟨.started, false, 0, true, .test⟩] :=
    System.exists_of_run tellActs _ fresh_init (by decide)
  have ⟨s'', h, hw⟩ := Option.any_eq_true _ _ |>.mp hs
  have ⟨s', hs', hr'⟩ := Option.bind_eq_some_iff.mp h
  refine ⟨s, s', hr, ht, hs', fun ho => ?_⟩
  refine (ho [.work 0 0] s'' hr').status ⟨.started, false, 0, true, .test⟩ ?_ rfl
  simp [of_decide_eq_true hw]

end ThreadPool
end NetPool
