import NetPool.Lib.List
import NetPool.Lib.Mutex
import NetPool.Lib.System

namespace NetPool

-- The ways in which `m_time_jobs` is accessed: by an iterator, by `remove` and by `push_back`.
inductive ListAccess
  | iterate
  | remove
  | pushBack
  deriving DecidableEq

def ListAccess.changes : ListAccess → Bool
  | .iterate           => false
  | .remove | pushBack => true

-- What a thread still has to do in the functions that it is in. `itr` is the head of the loop of
-- `time_job_walk`, behind the comparison with the end of the list.
inductive ListOp
  | lock
  | unlock
  | access (a : ListAccess)
  | findTimeJobs
  | itr
  | doit
  deriving DecidableEq

inductive ListCall
  | addTimeJob
  | delTimeJob
  | timeJobWalk
  deriving DecidableEq

def ListCall.ops : ListCall → List ListOp
  | addTimeJob  => [.access .pushBack]
  | delTimeJob  => [.lock, .access .iterate, .findTimeJobs, .unlock]
  | timeJobWalk => [.lock, .access .iterate, .itr, .unlock]

-- `inside` is the access to the list that is under way.
structure ListThread where
  inside : Option ListAccess
  todo   : List ListOp
  deriving DecidableEq

-- What a thread does next. It calls a function, out of nothing or in the callback of a timer; it
-- takes or gives back the lock, begins or ends an access; `find_time_jobs` answers; the walk goes
-- on with a job that is expired or not, or is at the end; and a callback returns.
inductive ListMove
  | call (f : ListCall)
  | go
  | found (timeJob : Bool)
  | visit (expired : Option Bool)
  | ret (isOnce : Bool)

def ListThread.next (recursive : Bool) (m : Mutex Nat) (t : Nat) (th : ListThread) :
    ListMove → Option (Mutex Nat × ListThread)
  | .call f =>
    match th.inside, th.todo with
    | none, []         => some (m, ⟨none, f.ops⟩)
    | none, .doit :: _ => if f = .timeJobWalk then none else some (m, ⟨none, f.ops ++ th.todo⟩)
    | _, _             => none
  | .go =>
    match th.inside, th.todo with
    | some _, ops              => some (m, ⟨none, ops⟩)
    | none, .lock :: ops       => (m.acquire recursive t).map fun m => (m, ⟨none, ops⟩)
    | none, .unlock :: ops     => (m.release t).map fun m => (m, ⟨none, ops⟩)
    | none, .access a :: ops   => some (m, ⟨some a, ops⟩)
    | none, _                  => none
  | .found timeJob =>
    match th.inside, th.todo with
    | none, .findTimeJobs :: ops =>
      some (m, ⟨none, if timeJob then .access .remove :: ops else ops⟩)
    | _, _ => none
  | .visit expired =>
    match th.inside, th.todo with
    | none, .itr :: ops =>
      some (m, ⟨none, match expired with
        | none       => ops
        | some true  => .doit :: ops
        | some false => .access .iterate :: .itr :: ops⟩)
    | _, _ => none
  | .ret isOnce =>
    match th.inside, th.todo with
    | none, .doit :: ops =>
      let ops := .access .iterate :: .itr :: ops
      some (m, ⟨none, if isOnce then .access .remove :: ops else ops⟩)
    | _, _ => none

-- The threads that use the list, and its lock.
structure ListLock where
  lock    : Mutex Nat
  threads : List ListThread

namespace ListLock

def step (recursive : Bool) (s : ListLock) (a : Nat × ListMove) : Option ListLock := do
  let th ← s.threads[a.1]?
  let (m, th) ← th.next recursive s.lock a.1 a.2
  return ⟨m, s.threads.set a.1 th⟩

end ListLock

-- The lock is one that its holder can take again on one platform, and one that it cannot on the
-- other.
def listLock (recursive : Bool) : System ListLock (Nat × ListMove) where
  init s := s.lock = none ∧ ∀ th ∈ s.threads, th = ⟨none, []⟩
  step   := ListLock.step recursive

namespace ListLock

variable {s s' : ListLock} {th th' : ListThread} {m m' : Mutex Nat} {t u d : Nat} {mv : ListMove}
  {recursive : Bool}

-- No two threads are in the list at once when one of them changes it.
def Exclusive (s : ListLock) : Prop :=
  s.threads.Pairwise fun th th' => ∀ a ∈ th.inside, ∀ b ∈ th'.inside, ¬a.changes ∧ ¬b.changes

def Quiet (s : ListLock) : Prop :=
  ∀ th ∈ s.threads, th.inside ≠ some .pushBack

instance : Decidable s.Exclusive :=
  inferInstanceAs (Decidable (List.Pairwise _ _))

instance : Decidable s.Quiet :=
  inferInstanceAs (Decidable (∀ th ∈ s.threads, _))

-- A thread that does not hold the lock begins `push_back` only while it could have taken the lock,
-- and nobody takes the lock before such a `push_back` has ended.
def Guarded (s : ListLock) (a : Nat × ListMove) : Prop :=
  match a.2, s.threads[a.1]? with
  | .go, some ⟨none, .access .pushBack :: _⟩ => 0 < s.lock.depth a.1 ∨ s.lock = none ∧ s.Quiet
  | .go, some ⟨none, .lock :: _⟩             => s.Quiet
  | _, _                                     => True

-- All accesses but `push_back` are made under the lock, which is held `d` times in front of `ops`.
def Covered (d : Nat) : List ListOp → Prop
  | []                        => True
  | .lock :: ops              => Covered (d + 1) ops
  | .unlock :: ops            => Covered (d - 1) ops
  | .access .pushBack :: ops  => Covered d ops
  | .access .iterate :: ops | .access .remove :: ops | .findTimeJobs :: ops | .itr :: ops
  | .doit :: ops              => 0 < d ∧ Covered d ops

theorem Covered.call {ops : List ListOp} (h : Covered d ops) (f : ListCall) :
    Covered d (f.ops ++ ops) := by
  cases f <;> simpa [ListCall.ops, Covered] using h

theorem next_cases (h : th.next recursive m t mv = some (m', th')) :
    (∃ ops, mv = .go ∧ th = ⟨none, .lock :: ops⟩ ∧ m.acquire recursive t = some m' ∧
      th' = ⟨none, ops⟩) ∨
    (∃ ops, th = ⟨none, .unlock :: ops⟩ ∧ m.release t = some m' ∧ th' = ⟨none, ops⟩) ∨
    (∃ a ops, mv = .go ∧ th = ⟨none, .access a :: ops⟩ ∧ m' = m ∧ th' = ⟨some a, ops⟩) ∨
    (m' = m ∧ th'.inside = none ∧ ∀ d, Covered d th.todo → Covered d th'.todo) := by
  have ⟨inside, todo⟩ := th
  cases mv <;> simp only [ListThread.next] at h
  case call f =>
    split at h
    case h_1 =>
      cases h
      exact .inr <| .inr <| .inr ⟨rfl, rfl, fun d hd => by simpa using hd.call f⟩
    case h_2 =>
      have ⟨_, h⟩ := Option.ite_none_left_eq_some.mp h
      cases h
      exact .inr <| .inr <| .inr ⟨rfl, rfl, fun d hd => hd.call f⟩
    case h_3 => cases h
  case go =>
    split at h
    case h_1 => cases h; exact .inr <| .inr <| .inr ⟨rfl, rfl, fun _ => id⟩
    case h_2 ops =>
      have ⟨_, ha, h⟩ := Option.map_eq_some_iff.mp h
      cases h
      exact .inl ⟨ops, rfl, rfl, ha, rfl⟩
    case h_3 ops =>
      have ⟨_, hr, h⟩ := Option.map_eq_some_iff.mp h
      cases h
      exact .inr <| .inl ⟨ops, rfl, hr, rfl⟩
    case h_4 a ops => cases h; exact .inr <| .inr <| .inl ⟨a, ops, rfl, rfl, rfl, rfl⟩
    case h_5       => cases h
  case found timeJob =>
    split at h <;> cases h
    refine .inr <| .inr <| .inr ⟨rfl, rfl, fun d ⟨h0, hd⟩ => ?_⟩
    cases timeJob
    case false => exact hd
    case true  => exact ⟨h0, hd⟩
  case visit expired =>
    split at h <;> cases h
    refine .inr <| .inr <| .inr ⟨rfl, rfl, fun d ⟨h0, hd⟩ => ?_⟩
    obtain _ | expired := expired
    case none => exact hd
    case some =>
      cases expired
      case false => exact ⟨h0, h0, hd⟩
      case true  => exact ⟨h0, hd⟩
  case ret isOnce =>
    split at h <;> cases h
    refine .inr <| .inr <| .inr ⟨rfl, rfl, fun d ⟨h0, hd⟩ => ?_⟩
    cases isOnce
    case false => exact ⟨h0, h0, hd⟩
    case true  => exact ⟨h0, h0, h0, hd⟩

-- What holds for a thread that holds the lock `d` times.
structure Holds (d : Nat) (th : ListThread) : Prop where
  inside : ∀ a ∈ th.inside, a ≠ .pushBack → 0 < d
  todo   : Covered d th.todo

theorem Holds.next (h : Holds (m.depth t) th) (hn : th.next recursive m t mv = some (m', th')) :
    Holds (m'.depth t) th' ∧ ∀ u, u ≠ t → m'.depth u = m.depth u := by
  have todo := h.todo
  obtain ⟨ops, _, rfl, ha, rfl⟩ | ⟨ops, rfl, hr, rfl⟩ | ⟨a, ops, _, rfl, rfl, rfl⟩ | ⟨rfl, hi, hc⟩ :=
    next_cases hn
  case inl =>
    have ⟨own, frame⟩ := Mutex.depth_acquire ha
    exact ⟨⟨nofun, own ▸ todo⟩, frame⟩
  case inr.inl =>
    have ⟨own, frame⟩ := Mutex.depth_release hr
    refine ⟨⟨nofun, ?_⟩, frame⟩
    have : m'.depth t = m.depth t - 1 := by omega
    exact this ▸ todo
  case inr.inr.inl =>
    refine ⟨?_, fun _ _ => rfl⟩
    cases a
    case iterate  => exact ⟨fun _ _ _ => todo.1, todo.2⟩
    case remove   => exact ⟨fun _ _ _ => todo.1, todo.2⟩
    case pushBack => exact ⟨fun a ha hp => absurd (Option.some.inj ha).symm hp, todo⟩
  case inr.inr.inr => exact ⟨⟨by simp [hi], hc _ todo⟩, fun _ _ => rfl⟩

structure Inv (s : ListLock) : Prop where
  holds : ∀ t th, s.threads[t]? = some th → Holds (s.lock.depth t) th
  alone : ∀ t th, s.threads[t]? = some th → th.inside = some .pushBack → s.lock.depth t = 0 →
    s.lock = none ∧ ∀ u th', s.threads[u]? = some th' → u ≠ t → th'.inside ≠ some .pushBack

-- A step that begins `push_back` or takes the lock, seen from the state before it.
theorem Guarded.pushBack {ops : List ListOp} (ok : s.Guarded (t, .go))
    (ht : s.threads[t]? = some ⟨none, .access .pushBack :: ops⟩) :
    0 < s.lock.depth t ∨ s.lock = none ∧ s.Quiet := by
  simpa [Guarded, ht] using ok

theorem Guarded.acquire {ops : List ListOp} (ok : s.Guarded (t, .go))
    (ht : s.threads[t]? = some ⟨none, .lock :: ops⟩) : s.Quiet := by
  simpa [Guarded, ht] using ok

section Next

variable (ht : s.threads[t]? = some th) (hn : th.next recursive s.lock t mv = some (m', th'))
include ht hn

-- A thread that has just begun `push_back` without the lock.
theorem Guarded.begins (ok : s.Guarded (t, mv)) (hp : th'.inside = some .pushBack)
    (hd : m'.depth t = 0) : m' = none ∧ s.Quiet := by
  obtain ⟨_, _, _, _, rfl⟩ | ⟨_, _, _, rfl⟩ | ⟨a, ops, rfl, rfl, rfl, rfl⟩ | ⟨_, hi, _⟩ :=
    next_cases hn
  case inl           => cases hp
  case inr.inl       => cases hp
  case inr.inr.inr   => cases hi ▸ hp
  case inr.inr.inl =>
    cases hp
    exact (ok.pushBack ht).resolve_left fun hl => absurd hd hl.ne'

-- While a thread is in `push_back`, no other one takes the lock or begins it as well.
theorem Guarded.waits (ok : s.Guarded (t, mv)) (hl : s.lock = none) (loud : ¬s.Quiet) :
    m' = none ∧ th'.inside ≠ some .pushBack := by
  obtain ⟨_, rfl, rfl, _⟩ | ⟨_, _, hr, _⟩ | ⟨a, ops, rfl, rfl, rfl, rfl⟩ | ⟨rfl, hi, _⟩ :=
    next_cases hn
  case inl           => exact absurd (ok.acquire ht) loud
  case inr.inl       => rw [hl] at hr; cases hr
  case inr.inr.inr   => exact ⟨hl, by simp [hi]⟩
  case inr.inr.inl =>
    refine ⟨hl, fun ha => ?_⟩
    cases ha
    obtain hd | ⟨_, hq⟩ := ok.pushBack ht
    case inl => simp [hl] at hd
    case inr => exact loud hq

end Next

theorem Inv.step {a : Nat × ListMove} (inv : s.Inv) (ok : s.Guarded a)
    (hs : s.step recursive a = some s') : s'.Inv := by
  have ⟨t, mv⟩ := a
  have ⟨th, ht, hs⟩ := Option.bind_eq_some_iff.mp hs
  have ⟨⟨m', th'⟩, hn, hs⟩ := Option.bind_eq_some_iff.mp hs
  cases hs
  have ⟨own, frame⟩ := (inv.holds t th ht).next hn
  constructor
  case holds =>
    intro u tu hu
    obtain ⟨rfl, rfl⟩ | ⟨hne, hu⟩ := of_getElem?_set hu
    case inl => exact own
    case inr => exact frame u hne ▸ inv.holds u tu hu
  case alone =>
    intro v tv hv hp hd
    obtain ⟨rfl, rfl⟩ | ⟨hne, hv⟩ := of_getElem?_set hv
    case inl =>
      have ⟨hl, hq⟩ := ok.begins ht hn hp hd
      refine ⟨hl, fun u tu hu hne => ?_⟩
      obtain ⟨rfl, _⟩ | ⟨_, hu⟩ := of_getElem?_set hu
      case inl => exact absurd rfl hne
      case inr => exact hq tu (List.mem_of_getElem? hu)
    case inr =>
      have ⟨hl, others⟩ := inv.alone v tv hv hp (frame v hne ▸ hd)
      have loud : ¬s.Quiet := fun hq => hq tv (List.mem_of_getElem? hv) hp
      have ⟨hm, still⟩ := ok.waits ht hn hl loud
      refine ⟨hm, fun u tu hu hu' => ?_⟩
      obtain ⟨rfl, rfl⟩ | ⟨_, hu⟩ := of_getElem?_set hu
      case inl => exact still
      case inr => exact others u tu hu hu'

-- A thread that is in the list without the lock is in `push_back`, and nobody holds the lock.
theorem Inv.free {a : ListAccess} (inv : s.Inv) (ht : s.threads[t]? = some th) (ha : a ∈ th.inside)
    (hd : s.lock.depth t = 0) : s.lock = none ∧ a = .pushBack ∧
      ∀ u th', s.threads[u]? = some th' → u ≠ t → th'.inside ≠ some .pushBack := by
  have hp : a = .pushBack := by
    by_contra hp
    exact absurd ((inv.holds t th ht).inside a ha hp) (by omega)
  have ⟨hl, others⟩ := inv.alone t th ht (hp ▸ ha) hd
  exact ⟨hl, hp, others⟩

theorem Inv.exclusive (inv : s.Inv) : s.Exclusive := by
  refine List.pairwise_iff_getElem.mpr fun t u ht hu hlt a ha b hb => ?_
  have ht := List.getElem?_eq_getElem ht
  have hu := List.getElem?_eq_getElem hu
  exfalso
  by_cases hd : s.lock.depth t = 0
  case pos =>
    obtain ⟨hl, _, others⟩ := inv.free ht ha hd
    obtain ⟨_, hb', _⟩ := inv.free hu hb (by simp [hl])
    exact others u _ hu hlt.ne' (hb' ▸ hb)
  case neg =>
    by_cases hd' : s.lock.depth u = 0
    case pos =>
      obtain ⟨hl, _⟩ := inv.free hu hb hd'
      simp [hl] at hd
    case neg => exact hlt.ne <| Mutex.eq_of_depth (by omega) (by omega : 0 < s.lock.depth u)

-- `add_time_job` does not take the lock itself.
theorem list_exclusive (h : (listLock recursive).Reach Guarded s) : s.Exclusive := by
  refine (h.invariant (I := Inv) ?_ fun _ _ _ inv ok hs => inv.step ok hs).exclusive
  rintro ⟨lock, threads⟩ ⟨rfl, idle⟩
  constructor
  case holds =>
    intro t th ht
    rw [idle th (List.mem_of_getElem? ht)]
    exact ⟨nofun, trivial⟩
  case alone =>
    intro t th ht hp
    rw [idle th (List.mem_of_getElem? ht)] at hp
    cases hp

instance : ∀ (s : ListLock) a, Decidable (s.Guarded a)
  | s, a => by
    unfold Guarded
    split <;> infer_instance

-- A callback of the walk adds a timer, while another thread waits for the lock to delete one.
theorem list_exclusive_in_callback : ∃ s, (listLock false).Reach Guarded s ∧
    s.threads.map (·.inside) = [some .pushBack, none] ∧ s.Exclusive := by
  have ⟨s, hr, hs⟩ : ∃ s, (listLock false).Reach Guarded s ∧
      s.threads.map (·.inside) = [some .pushBack, none] :=
    System.Reach.exists_of_run (s := ⟨none, [⟨none, []⟩, ⟨none, []⟩]⟩)
      [(0, .call .timeJobWalk), (1, .call .delTimeJob), (0, .go), (0, .go), (0, .go),
        (0, .visit (some true)), (0, .call .addTimeJob), (0, .go)]
      _ ⟨rfl, by decide⟩ (by decide)
  exact ⟨s, hr, hs, list_exclusive hr⟩

-- One thread adds a timer while another one walks the list.
theorem not_list_exclusive : ∃ s, (listLock false).Reachable s ∧
    s.threads.map (·.inside) = [some .iterate, some .pushBack] ∧ ¬s.Exclusive :=
  System.exists_of_run (s := ⟨none, [⟨none, []⟩, ⟨none, []⟩]⟩)
    [(0, .call .timeJobWalk), (0, .go), (0, .go), (1, .call .addTimeJob), (1, .go)]
    _ ⟨rfl, by decide⟩ (by decide)

end ListLock
end NetPool
