import NetPool.Sync.Locks

namespace NetPool

namespace Lock

-- A thread takes locks in this order. The last two are taken one after the other.
def rank : Lock → Nat
  | .timer                                               => 0
  | .pool _                                              => 1
  | .register _                                          => 2
  | .ioJobs                                              => 3
  | .job _ | .queue _ | .poll | .tasks _ | .notify _     => 4
  | .logQueue | .logNotify                               => 5

def Before (h l : Lock) : Prop :=
  h.rank < l.rank ∨ h = l ∧ l.recursive

-- The locks that are held while callbacks run or threads are joined.
def long : Lock → Bool
  | .timer | .pool _ => true
  | .register _ | .ioJobs | .job _ | .queue _ | .poll | .tasks _ | .notify _ | .logQueue
  | .logNotify => false

theorem long_iff {l : Lock} : l.long ↔ l.rank ≤ 1 := by
  cases l <;> simp [long, rank]

theorem rank_lt (l : Lock) : l.rank < 6 := by
  cases l <;> simp [rank]

end Lock

namespace Locking

variable {s s' : Locking} {t u w i p : Nat} {op : Op} {ops e : List Op} {c : Choice} {f : Fn}
variable {held : List Lock} {l : Lock}

-- What is held where the application runs.
def Calm (held : List Lock) : Prop :=
  held = [] ∨ held = [.timer]

namespace Op

def Fits : Op → List Lock → Prop
  | .lock l, held                                   => ∀ h ∈ held, h.Before l
  | .unlock l, held                                 => held.head? = some l
  | .log, held                                      => ∀ h ∈ held, h.rank < 5
  | .walk, held | .ageing, held                     => held = [.timer]
  | .age p _, held                                  => held = [.pool p, .timer]
  | .join _, held                                   => Calm held ∨ ∃ p, held = [.pool p, .timer]
  | .insert p, held                                 => ∃ rest, held = .pool p :: rest ∧ Calm rest
  | .stop _, _ | .drop _ _, _                       => True
  | .callback, held | .loop _, held | .events, held => Calm held
  | .run _, held | .tell _ _, held | .grow _, held  => Calm held
  | .create _, held | .mark _, held                 => Calm held
  | .publish _, held | .erase _, held               => Calm held
  | .start, held | .work _, held | .got _, held     => Calm held
  | .finish, held | .exit, held                       => Calm held

def after : Op → List Lock → List Lock
  | .lock l, held   => l :: held
  | .unlock l, held => held.erase l
  | _, held         => held

-- What is held when the operations that stand for this one are done.
def past : Op → List Lock → List Lock
  | .insert p, held => held.erase (.pool p)
  | op, held        => op.after held

end Op

-- The locks are taken in order, given back in the reverse order, and callbacks run under the lock
-- of the timers at most.
def Nested (held : List Lock) : List Op → Prop
  | []        => held = []
  | op :: ops => op.Fits held ∧ Nested (op.past held) ops

attribute [local simp] Nested Op.Fits Op.after Op.past Lock.Before Lock.rank Lock.recursive

theorem nested_execute (hc : Calm held) (h : Nested held ops) :
    Nested held (execute p ++ ops) := by
  obtain rfl | rfl := hc <;> simp [execute, getTaskSize, Calm, h]

theorem nested_replicate (hl : ∀ ops, Nested held ops → Nested held (e ++ ops))
    (h : Nested held ops) (n : Nat) : Nested held ((List.replicate n e).flatten ++ ops) := by
  induction n
  case zero      => exact h
  case succ n hi =>
    rw [List.replicate_succ, List.flatten_cons, List.append_assoc]
    exact hl _ hi

theorem nested_start (hc : Calm held) (h : Nested held ops) :
    Nested held (s.npStart ++ ops) := by
  unfold npStart
  split
  case h_1 =>
    refine ⟨?_, nested_replicate (fun _ => nested_execute hc) h _⟩
    obtain rfl | rfl := hc <;> simp
  case h_2 => obtain rfl | rfl := hc <;> simp [loopHandle, Calm, h]

theorem nested_delJob (hr : Calm held ∨ ∃ r rest, held = .register r :: rest ∧ Calm rest)
    (h : Nested held ops) (found : Option IoLock) :
    Nested held (delReadJob found ++ ops) ∧ Nested held (delWriteJob found ++ ops) := by
  obtain (rfl | rfl) | ⟨r, _, rfl, rfl | rfl⟩ := hr <;> obtain _ | (_ | _) := found <;>
    simp [delReadJob, delWriteJob, IoLock.lock, IoLock.unlock, h]

theorem nested_addJob (hr : Calm held ∨ ∃ r rest, held = .register r :: rest ∧ Calm rest)
    (h : Nested held ops) (found : Option IoLock) (i : Nat) (accepted : Bool) :
    Nested held (addReadJob found i accepted ++ ops) ∧
      Nested held (addWriteJob found i accepted ++ ops) := by
  obtain (rfl | rfl) | ⟨r, _, rfl, rfl | rfl⟩ := hr <;> obtain _ | (_ | _) := found <;>
    cases accepted <;>
    simp [addReadJob, addWriteJob, addIoJob, IoLock.lock, IoLock.unlock, h]

theorem nested_getD {α : Type} {f : α → List Op} (hf : ∀ a, Nested held (f a ++ ops))
    (h : Nested held ops) (o : Option α) : Nested held ((o.map f).getD [] ++ ops) := by
  cases o
  case none   => exact h
  case some a => exact hf a

theorem nested_body (hc : Calm held) (hd : f = .delTimeJob → held = []) (h : Nested held ops) :
    Nested held (s.body f ++ ops) := by
  cases f
  case start => exact nested_start hc h
  case addEvtJob => exact nested_execute hc h
  case delTimeJob =>
    obtain rfl := hd rfl
    simp [body, delTimeJob, h]
  case initWorkerThrds n =>
    by_cases hn : n = 0 <;> obtain rfl | rfl := hc <;> simp [body, addWorker, Calm, h, hn]
  case initEvtThrds n =>
    by_cases hn : n = 0 <;> obtain rfl | rfl := hc <;> simp [body, addWorker, Calm, h, hn]
  case addListenJob found accepted =>
    obtain rfl | rfl := hc <;> cases found <;> cases accepted <;>
      simp [body, addListenJob, addIoJob, h]
  case addReadJob => exact (nested_addJob (.inl hc) h _ _ _).1
  case addWriteJob => exact (nested_addJob (.inl hc) h _ _ _).2
  case delReadJob => exact (nested_delJob (.inl hc) h _).1
  case delWriteJob => exact (nested_delJob (.inl hc) h _).2
  case sendData r queued write =>
    have hr : Nested (.register r :: held) (.unlock (.register r) :: ops) := by simp [h]
    have hw := nested_getD (f := registerWrite)
      (fun _ => (nested_addJob (.inr ⟨r, held, rfl, hc⟩) hr ..).2) hr write
    cases queued
    case true  => obtain rfl | rfl := hc <;> simpa [body, sendData, queueNode] using hw
    case false => obtain rfl | rfl := hc <;> simp [body, sendData, queueNode, h]
  case sendHandle r nodes write =>
    have log {ops : List Op} (h : Nested held ops) : Nested held (.log :: ops) := by
      obtain rfl | rfl := hc <;> simp [h]
    have node (ops : List Op) (h : Nested held ops) :
        Nested held (queueNode r ++ [.log] ++ ops) := by
      obtain rfl | rfl := hc <;> simp [queueNode, h]
    have hw := nested_getD (f := registerWrite)
      (fun _ => (nested_addJob (.inl hc) (log h) ..).2) (log h) write
    simpa [body, sendHandle] using log (nested_replicate node (log hw) nodes)
  case free r read write =>
    have del {ops : List Op} (h : Nested (.register r :: held) ops) :=
      nested_delJob (.inr ⟨r, held, rfl, hc⟩) h
    have hr : Nested (.register r :: held) (.unlock (.register r) :: ops) := by simp [h]
    have hw := nested_getD (fun found => (del hr found).2) hr write
    have hw := nested_getD (fun found => (del hw found).1) hw read
    obtain rfl | rfl := hc <;> simpa [body, free] using hw
  all_goals
    obtain rfl | rfl := hc <;>
      simp [body, freeEvtThrds, getTaskSize, delListenJob, freeAsyncWriteResource, Calm, h]

-- The long lock that a step puts before a thread.
def takes (s : Locking) : Op → Choice → Option Lock
  | .run _, .next                         => some .timer
  | .callback, .call .delTimeJob          => some .timer
  | .callback, .call (.initWorkerThrds _) => some (.pool s.pools)
  | .callback, .call (.initEvtThrds _)    => some (.pool s.pools)
  | .grow p, .next                        => some (.pool p)
  | .ageing, .pool p                      => some (.pool p)
  | _, _                                  => none

theorem nested_expand (h : Nested held (op :: ops)) (ht : s.takes op c = some .timer → held = [])
    (he : s.expand t op c = some e) : Nested (op.after held) (e ++ ops) := by
  obtain ⟨fits, h⟩ := h
  cases op
  case callback =>
    cases c <;> dsimp only [expand] at he <;> try cases he
    case leave => exact h
    case call f =>
      obtain ⟨_, he⟩ := Option.ite_none_right_eq_some.mp he
      cases he
      rw [List.append_assoc]
      refine nested_body fits (fun hf => ht ?_) ⟨fits, h⟩
      rw [hf]
      rfl
  case run i =>
    cases c <;> dsimp only [expand] at he <;> try cases he
    case leave => exact h
    case next =>
      obtain ⟨_, he⟩ := Option.ite_none_right_eq_some.mp he
      cases he
      obtain rfl := ht rfl
      simpa [timeJobWalk] using h
  case lock l =>
    cases c <;> dsimp only [expand] at he <;> try cases he
    obtain ⟨_, he⟩ := Option.ite_none_right_eq_some.mp he
    cases he
    exact h
  case log =>
    cases c <;> dsimp only [expand] at he <;> cases he
    case leave => exact h
    case next =>
      have low : ∀ h ∈ held, h.rank < 5 := fits
      have queue : ∀ h ∈ held, h.Before .logQueue := fun h hh => .inl (low h hh)
      have notify : ∀ h ∈ held, h.Before .logNotify := fun h hh => .inl (low h hh)
      have last : Nested held (.lock .logNotify :: .unlock .logNotify :: ops) :=
        ⟨notify, rfl, by simpa using h⟩
      refine ⟨queue, rfl, ?_⟩
      change Nested ((.logQueue :: held).erase .logQueue) _
      rwa [List.erase_cons_head]
  case age p trash =>
    cases c <;> dsimp only [expand] at he <;> try cases he
    case leave =>
      obtain rfl := fits
      simpa using h
    case worker w =>
      obtain ⟨_, he⟩ := Option.ite_none_right_eq_some.mp he
      cases he
      obtain rfl := fits
      simpa [tellExit] using h
  case tell p trash =>
    cases c <;> dsimp only [expand] at he <;> try cases he
    case leave => exact ⟨.inl fits, h⟩
    case worker w =>
      obtain ⟨_, he⟩ := Option.ite_none_right_eq_some.mp he
      cases he
      obtain rfl | rfl := fits <;> simpa [tellExit, Calm] using h
  case ageing =>
    cases c <;> dsimp only [expand] at he <;> try cases he
    case leave => exact h
    case pool p =>
      obtain ⟨_, he⟩ := Option.ite_none_right_eq_some.mp he
      cases he
      obtain rfl := fits
      simpa [agedWorker] using h
  case walk =>
    obtain rfl := fits
    cases c <;> dsimp only [expand] at he <;> cases he <;> simpa [Calm] using h
  case insert p =>
    obtain ⟨rest, rfl, fits⟩ := fits
    cases c <;> dsimp only [expand] at he <;> cases he
    obtain rfl | rfl := fits <;> simpa [Calm] using h
  case join trash =>
    cases c <;> cases trash <;> dsimp only [expand] at he <;> try cases he
    case next.nil.refl => exact h
    case next.cons =>
      split at he <;> cases he
      exact ⟨fits, h⟩
  case work p =>
    cases c <;> dsimp only [expand] at he <;> cases he
    obtain rfl | rfl := fits <;> split <;> simpa [getTaskSize, Calm] using h
  case got p =>
    cases c <;> try cases ‹Option Nat›
    all_goals dsimp only [expand] at he; cases he
    all_goals obtain rfl | rfl := fits <;> simpa [loopHandle, Calm] using h
  case loop =>
    cases c <;> dsimp only [expand] at he <;> cases he <;> obtain rfl | rfl := fits <;>
      simpa [handleDelingJob, Calm] using h
  case events =>
    cases c <;> dsimp only [expand] at he <;> cases he <;> obtain rfl | rfl := fits <;>
      simpa [writeEvtHandle, Calm] using h
  case grow =>
    cases c <;> dsimp only [expand] at he <;> cases he <;> obtain rfl | rfl := fits <;>
      simpa [addWorker, Calm] using h
  all_goals
    cases c <;> dsimp only [expand] at he <;> cases he
    exact h

namespace Op

-- The workers that are to be joined.
def told : Op → List Nat
  | .age _ trash | .tell _ trash | .join trash => trash
  | _ => []

def wants : Op → Option Lock
  | .lock l => if l.long then some l else none
  | _ => none

-- What is done while workers are told to exit.
def small : Op → Bool
  | .lock l | .unlock l        => !l.long
  | .log | .stop _ | .drop _ _ => true
  | _                          => false

-- CWorker::Run outside of the tasks.
def outer : Op → Bool
  | .start | .work _ | .got _ | .finish | .exit => true
  | _ => false

-- What a worker may have before it while m_isBusy is not set.
def idle : Op → Bool
  | .start | .work _ | .got _ | .exit | .log => true
  | .lock l | .unlock l                      => !l.long
  | _                                        => false

-- What may come behind an operation.
def Above (op o : Op) : Prop :=
  (op.small ∨ o.told = []) ∧ (op.outer → o.idle)

-- What may come in the place of an operation.
@[mk_iff]
structure Follows (a : Op) (s : Locking) (op : Op) (c : Choice) : Prop where
  small : op.small → a.small
  outer : a.outer → op.outer
  told  : ∀ w ∈ a.told, w ∈ op.told ∨ c = .worker w
  wants : ∀ l ∈ a.wants, s.takes op c = some l
  idle  : op.idle → (∀ i, c ≠ .task i) → a.idle

-- What a call of the application may consist of.
def Called (a : Op) (s : Locking) (f : Fn) : Prop :=
  a.told = [] ∧ a.outer = false ∧ ∀ l ∈ a.wants, s.takes .callback (.call f) = some l

end Op

attribute [local simp] Op.told Op.wants Op.small Op.outer Op.idle Op.Above Op.follows_iff Op.Called
  Lock.long takes

theorem called_execute : ∀ a ∈ execute p, a.Called s f := by
  simp [execute, getTaskSize]

theorem called_addJob (found : Option IoLock) (i : Nat) (accepted : Bool) :
    (∀ a ∈ addReadJob found i accepted, a.Called s f) ∧
      ∀ a ∈ addWriteJob found i accepted, a.Called s f := by
  obtain _ | (_ | _) := found <;> cases accepted <;>
    simp [addReadJob, addWriteJob, addIoJob, IoLock.lock, IoLock.unlock]

theorem called_delJob (found : Option IoLock) :
    (∀ a ∈ delReadJob found, a.Called s f) ∧ ∀ a ∈ delWriteJob found, a.Called s f := by
  obtain _ | (_ | _) := found <;> simp [delReadJob, delWriteJob, IoLock.lock, IoLock.unlock]

theorem called_getD {α : Type} {g : α → List Op} (hg : ∀ x, ∀ a ∈ g x, a.Called s f)
    (o : Option α) : ∀ a ∈ (o.map g).getD [], a.Called s f := by
  cases o
  case none   => nofun
  case some x => exact hg x

theorem called_body : ∀ a ∈ s.body f, a.Called s f := by
  cases f
  case start =>
    change ∀ a ∈ s.npStart, _
    unfold npStart
    refine List.forall_mem_cons.mpr ⟨by simp, ?_⟩
    split
    case h_2 => simp [loopHandle]
    case h_1 =>
      intro a ha
      obtain ⟨_, hl, ha⟩ := List.mem_flatten.mp ha
      rw [List.eq_of_mem_replicate hl] at ha
      exact called_execute a ha
  case addEvtJob => exact called_execute
  case initWorkerThrds n => by_cases hn : n = 0 <;> simp [body, addWorker, hn]
  case initEvtThrds n => by_cases hn : n = 0 <;> simp [body, addWorker, hn]
  case addListenJob found accepted =>
    cases found <;> cases accepted <;> simp [body, addListenJob, addIoJob]
  case addReadJob => exact (called_addJob ..).1
  case addWriteJob => exact (called_addJob ..).2
  case delReadJob => exact (called_delJob _).1
  case delWriteJob => exact (called_delJob _).2
  case sendData r queued write =>
    cases queued
    case false => simp [body, sendData, queueNode]
    case true =>
      intro a ha
      simp only [body, sendData, if_true, List.mem_append] at ha
      obtain ha | (ha | ha) | ha := ha
      case inr.inl.inr => exact called_getD (fun _ => (called_addJob ..).2) write a ha
      all_goals revert a; simp [queueNode]
  case sendHandle r nodes write =>
    intro a ha
    simp only [body, sendHandle, List.mem_append] at ha
    obtain (((ha | ha) | ha) | ha) | ha := ha
    case inl.inr => exact called_getD (fun _ => (called_addJob ..).2) write a ha
    case inl.inl.inl.inr =>
      obtain ⟨_, hl, ha⟩ := List.mem_flatten.mp ha
      rw [List.eq_of_mem_replicate hl] at ha
      have node : ∀ a ∈ queueNode r ++ [.log], a.Called s (.sendHandle r nodes write) := by
        simp [queueNode]
      exact node a ha
    all_goals revert a; simp
  case free r read write =>
    intro a ha
    simp only [body, free, List.mem_append] at ha
    obtain ((ha | ha) | ha) | ha := ha
    case inl.inl.inr => exact called_getD (fun x => (called_delJob x).1) read a ha
    case inl.inr => exact called_getD (fun x => (called_delJob x).2) write a ha
    all_goals revert a; simp
  all_goals
    simp [body, freeEvtThrds, getTaskSize, delListenJob, freeAsyncWriteResource, delTimeJob]

theorem Op.Called.follows {a : Op} (h : a.Called s f) : a.Follows s .callback (.call f) where
  small := nofun
  outer := by rw [h.2.1]; exact nofun
  told  := by rw [h.1]; exact nofun
  wants := h.2.2
  idle  := nofun

theorem expand_follows (he : s.expand t op c = some e) : ∀ a ∈ e, a.Follows s op c := by
  cases op
  case callback =>
    cases c <;> dsimp only [expand] at he <;> try cases he
    case leave => simp
    case call f =>
      obtain ⟨_, he⟩ := Option.ite_none_right_eq_some.mp he
      cases he
      intro a ha
      obtain ha | ha := List.mem_append.mp ha
      · exact (called_body a ha).follows
      · rw [List.mem_singleton.mp ha]
        simp
  case got p =>
    cases c <;> try cases ‹Option Nat›
    all_goals
      dsimp only [expand] at he
      cases he
      try simp [loopHandle]
  case age | tell =>
    cases c <;> dsimp only [expand] at he <;> (try split at he) <;> cases he <;> simp [tellExit]
    all_goals exact fun w hw => hw.imp_right Eq.symm
  case join trash =>
    cases trash <;> cases c <;> dsimp only [expand] at he <;> (try split at he) <;> cases he <;>
      simp +contextual
  all_goals
    cases c <;> dsimp only [expand] at he <;> (try split at he) <;> cases he <;>
      simp +contextual [logWrite, handleDelingJob, writeEvtHandle, timeJobWalk, agedWorker,
        addWorker, getTaskSize]

theorem pairwise_above (h : ∀ a ∈ e, a.Called s f) : e.Pairwise Op.Above :=
  List.pairwise_of_forall_mem_list fun a ha b hb =>
    ⟨.inr (h b hb).1, fun ho => by rw [(h a ha).2.1] at ho; cases ho⟩

theorem expand_above (he : s.expand t op c = some e) : e.Pairwise Op.Above := by
  cases op
  case callback =>
    cases c <;> dsimp only [expand] at he <;> try cases he
    case leave => simp
    case call f =>
      obtain ⟨_, he⟩ := Option.ite_none_right_eq_some.mp he
      cases he
      refine pairwise_above (s := s) (f := f) fun a ha => ?_
      obtain ha | ha := List.mem_append.mp ha
      · exact called_body a ha
      · rw [List.mem_singleton.mp ha]
        simp
  case got p =>
    cases c <;> try cases ‹Option Nat›
    all_goals
      dsimp only [expand] at he
      cases he
      try simp [loopHandle]
  case join trash =>
    cases trash <;> cases c <;> dsimp only [expand] at he <;> (try split at he) <;> cases he <;>
      simp
  all_goals
    cases c <;> dsimp only [expand] at he <;> (try split at he) <;> cases he <;>
      simp [logWrite, handleDelingJob, writeEvtHandle, timeJobWalk, agedWorker,
        tellExit, addWorker, getTaskSize]

end Locking
end NetPool
