import NetPool.Sync.Steps

open Relation

namespace NetPool.Locking

variable {s : Locking} {t u : Nat} {op : Op} {l : Lock} {S : Finset Nat}

section Deadlock

variable (inv : s.Inv) (dead : Deadlock s.Waits S)

-- What a thread is about to do.
def At (s : Locking) (t : Nat) (op : Op) : Prop :=
  ∃ ops, (s.thread t).todo = op :: ops

theorem At.unique {op' : Op} (h : s.At t op) (h' : s.At t op') : op = op' := by
  obtain ⟨_, h⟩ := h
  obtain ⟨_, h'⟩ := h'
  exact (List.cons.inj (h.symm.trans h')).1

theorem waits_cases (h : s.Waits t u) :
    (∃ l, s.At t (.lock l) ∧ s.holder l = some u ∧ (u = t → ¬l.recursive)) ∨
    ∃ trash, s.At t (.join (u :: trash)) := by
  unfold Waits at h
  split at h
  case h_1 l ops ht      => exact .inl ⟨l, ⟨ops, ht⟩, h⟩
  case h_2 w trash ops ht => exact .inr ⟨trash, ops, h.1 ▸ ht⟩
  case h_3               => cases h

include inv

theorem Inv.fits (h : s.At t op) : op.Fits (s.thread t).held := by
  obtain ⟨ops, h⟩ := h
  have nested := (inv.ok t).nested
  rw [h] at nested
  exact nested.1

theorem Inv.mem_held (h : s.holder l = some t) : l ∈ (s.thread t).held :=
  (inv.holder t l).mpr h

include dead

omit inv in
-- Everyone in the set is about to lock or to join.
theorem blocked (ht : t ∈ S) :
    (∃ l, s.At t (.lock l)) ∨ ∃ w ∈ S, ∃ trash, s.At t (.join (w :: trash)) := by
  have ⟨u, hu, h⟩ := dead.next t ht
  obtain ⟨l, hl, _⟩ | ⟨trash, hj⟩ := waits_cases h
  case inl => exact .inl ⟨l, hl⟩
  case inr => exact .inr ⟨u, hu, trash, hj⟩

theorem holder_mem (ht : t ∈ S) (h : s.At t (.lock l)) : ∃ u ∈ S, l ∈ (s.thread u).held ∧
    ∀ k, s.At u (.lock k) → l.rank < k.rank := by
  have ⟨u, hu, hw⟩ := dead.next t ht
  obtain ⟨l', hl, hh, _⟩ | ⟨_, hj⟩ := waits_cases hw
  case inr => cases h.unique hj
  case inl =>
    cases h.unique hl
    refine ⟨u, hu, inv.mem_held hh, fun k hk => ?_⟩
    obtain lt | ⟨rfl, hr⟩ := inv.fits hk l (inv.mem_held hh)
    case inl => exact lt
    case inr =>
      -- A thread does not wait for a recursive lock that it holds itself.
      have ⟨v, _, hw⟩ := dead.next u hu
      obtain ⟨l', hl', hh', hn⟩ | ⟨_, hj⟩ := waits_cases hw
      case inr => cases hk.unique hj
      case inl =>
        cases hk.unique hl'
        exact absurd hr (hn (Option.some.inj (hh'.symm.trans hh)))

-- The locks that are not held for long are waited for only as far as a last one.
theorem lock_long (ht : t ∈ S) (h : s.At t (.lock l)) : l.long := by
  by_contra hl
  induction hn : 6 - l.rank using Nat.strong_induction_on generalizing t l
  case h n ih =>
    have ⟨u, hu, hm, later⟩ := holder_mem inv dead ht h
    obtain ⟨k, hk⟩ | ⟨w, _, trash, hj⟩ := blocked dead hu
    case inl =>
      have lt := later k hk
      have bound := k.rank_lt
      refine ih (6 - k.rank) (by omega) hu hk (fun hk => hl ?_) rfl
      rw [Lock.long_iff] at hk ⊢
      omega
    case inr =>
      obtain (hc | hc) | ⟨p, hc⟩ := inv.fits hj <;> rw [hc] at hm <;> revert hl <;>
        simp at hm
      · simp [hm, Lock.long]
      · obtain rfl | rfl := hm <;> simp [Lock.long]

-- The holder of the lock of a pool that is waited for is in Join, with the lock of the timers.
theorem pool_joins {p : Nat} (ht : t ∈ S) (h : s.At t (.lock (.pool p))) : ∃ u ∈ S,
    .timer ∈ (s.thread u).held ∧ ∃ w ∈ S, ∃ trash, s.At u (.join (w :: trash)) := by
  have ⟨u, hu, hm, later⟩ := holder_mem inv dead ht h
  obtain ⟨k, hk⟩ | ⟨w, hw, trash, hj⟩ := blocked dead hu
  case inl =>
    have long := Lock.long_iff.mp (lock_long inv dead hu hk)
    have lt : 1 < k.rank := later k hk
    omega
  case inr =>
    refine ⟨u, hu, ?_, w, hw, trash, hj⟩
    obtain (hc | hc) | ⟨q, hc⟩ := inv.fits hj <;> rw [hc] at hm ⊢ <;> simp at hm ⊢

theorem holder_joins (ht : t ∈ S) (h : s.At t (.lock l)) : ∃ u ∈ S, l ∈ (s.thread u).held ∧
    .timer ∈ (s.thread u).held ∧ ∃ w ∈ S, s.Awaits u w := by
  obtain ⟨u, hu, hm, later⟩ := holder_mem inv dead ht h
  refine ⟨u, hu, hm, ?_⟩
  obtain ⟨k, hk⟩ | ⟨w, hw, trash, hj⟩ := blocked dead hu
  case inr =>
    obtain ⟨ops, ho⟩ := hj
    refine ⟨?_, w, hw, _, ho ▸ List.mem_cons_self, List.mem_cons_self⟩
    obtain (hc | hc) | ⟨p, hc⟩ := inv.fits ⟨ops, ho⟩ <;> rw [hc] at hm ⊢ <;> simp at hm ⊢
  case inl =>
    have long := lock_long inv dead hu hk
    have lt := later k hk
    cases k
    case timer => simp [Lock.rank] at lt
    case pool p =>
      obtain ⟨v, _, hv, w, _, trash, hj⟩ := pool_joins inv dead hu hk
      have timer : l = .timer := by
        cases l <;> simp [Lock.rank] at lt
        rfl
      obtain rfl := inv.holder.eq_of_mem (timer ▸ hm) hv
      cases hk.unique hj
    all_goals cases long

omit dead in
theorem Inv.not_deadlock : ¬Deadlock s.Waits S := by
  intro dead
  have last (t : Nat) (ht : t ∈ S) :
      ∃ u ∈ S, ReflTransGen s.Awaits t u ∧ ∃ l, s.At u (.lock l) := by
    refine exists_last inv.sound.acyclic (fun u hu => ?_) ht
    obtain hl | ⟨w, hw, trash, ops, ho⟩ := blocked dead hu
    case inl => exact .inl hl
    case inr => exact .inr ⟨w, hw, _, ho ▸ List.mem_cons_self, List.mem_cons_self⟩
  have ⟨t, ht⟩ := dead.nonempty
  have ⟨a, ha, _, l, hl⟩ := last t ht
  have ⟨u, hu, _, timer, w, hw, joins⟩ := holder_joins inv dead ha hl
  -- The holder comes, through those that it joins, to one that waits for a lock of its own.
  have ⟨b, hb, path, k, hk⟩ := last w hw
  have ⟨v, _, hm, timer', _⟩ := holder_joins inv dead hb hk
  obtain rfl := inv.holder.eq_of_mem timer timer'
  obtain ⟨ops, ho⟩ := hk
  have long := lock_long inv dead hb ⟨ops, ho⟩
  exact inv.sound.clear u k b ⟨long, hm⟩ ⟨_, ho ▸ List.mem_cons_self, by simp [Op.wants, long]⟩
    (.head' joins path)

end Deadlock

theorem Inv.of_reach (h : locking.Reach Orderly s) : s.Inv :=
  h.invariant (fun _ => .init) fun _ _ _ inv ok hs => inv.step ok hs

theorem no_deadlock (h : locking.Reach Orderly s) (S : Finset Nat) : ¬Deadlock s.Waits S :=
  (Inv.of_reach h).not_deadlock

-- Two threads call np_del_time_job, of which the second waits for the first.
theorem no_deadlock_waiting : ∃ s, locking.Reach Orderly s ∧ s.Waits 1 0 ∧
    ¬Deadlock s.Waits {0, 1} := by
  have step {s s' : Locking} {a : Act} (h : locking.Reach Orderly s) (ok : s.Orderly a)
      (hs : s.step a = some s') : locking.Reach Orderly s' := h.step ok hs
  have r₁ := step (a := .spawn) (.init rfl) trivial rfl
  have r₂ := step (a := .spawn) r₁ trivial rfl
  have r₃ := step (a := .go 0 (.call .delTimeJob)) r₂ (by
    rintro op ⟨⟩
    refine ⟨fun l _ ⟨u, ⟨_, hu⟩, _⟩ => ?_, nofun⟩
    cases ((Inv.of_reach r₂).holder u l).mp hu) rfl
  have r₄ := step (a := .go 0 .next) r₃ (by
    rintro op ⟨⟩
    exact ⟨nofun, nofun⟩) rfl
  have r₅ := step (a := .go 1 (.call .delTimeJob)) r₄ (by
    rintro op ⟨⟩
    refine ⟨fun l hl ⟨u, ⟨_, hu⟩, path⟩ => ?_, nofun⟩
    cases hl
    obtain rfl : 0 = u := Option.some.inj (((Inv.of_reach r₄).holder u .timer).mp hu)
    obtain hp | ⟨v, ⟨a, ha, hv⟩, _⟩ := ReflTransGen.cases_head path
    · cases hp
    · have ha : a ∈ [.log, .unlock .timer, .log, .callback] := ha
      simp only [List.mem_cons, List.not_mem_nil, or_false] at ha
      obtain rfl | rfl | rfl | rfl := ha <;> cases hv) rfl
  exact ⟨_, r₅, ⟨rfl, nofun⟩, no_deadlock r₅ _⟩

-- A timer callback that calls np_del_time_job.
theorem not_no_deadlock : ∃ s, locking.Reachable s ∧ Deadlock s.Waits {0} := by
  have ⟨s, hr, ht, hh⟩ : ∃ s, locking.Reachable s ∧
      (s.thread 0).todo.head? = some (.lock .timer) ∧ s.holder .timer = some 0 :=
    System.exists_of_run [.spawn, .go 0 (.call .start), .go 0 .leave, .go 0 .leave, .go 0 .next,
      .go 0 .next, .go 0 .next, .go 0 .next, .go 0 .next, .go 0 .leave, .go 0 .leave, .go 0 .next,
      .go 0 .next, .go 0 .next, .go 0 (.call .delTimeJob)] _ rfl (by decide)
  refine ⟨s, hr, ⟨0, by simp⟩, fun t ht' => ⟨0, by simp, ?_⟩⟩
  obtain rfl := Finset.mem_singleton.mp ht'
  have ⟨ops, ho⟩ := List.head?_eq_some_iff.mp ht
  rw [Waits, ho]
  exact ⟨hh, fun _ => nofun⟩

end NetPool.Locking
