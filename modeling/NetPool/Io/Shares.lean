import NetPool.Lib.Turns
import NetPool.Io.Builds
import NetPool.Io.Pointers

namespace NetPool
namespace Registry

variable {r r' : Registry} {c : Call} {k : Kernel} {j : IoJob} {n : Nat}

-- The threads of all jobs for a connection that have ever been made, in the order of their making.
def threads (r : Registry) : List Nat :=
  ((List.range r.next).filter fun i => (r.job i).kind ≠ .listen).map fun i => (r.job i).thrdIndex

-- The jobs have been given to the `n` threads in turn, beginning with thread 1.
structure Shared (n : Nat) (r : Registry) : Prop where
  cnt     : r.workerThrdCnt = n
  cur     : r.curThrdIndex = r.threads.length % n
  threads : r.threads = turns n 1 r.threads.length

theorem threads_same (next : r'.next = r.next)
    (owner : ∀ i < r.next, (r.job i).SameOwner (r'.job i)) : r'.threads = r.threads := by
  unfold threads
  rw [next]
  have kind : (List.range r.next).filter (fun i => (r'.job i).kind ≠ .listen) =
      (List.range r.next).filter fun i => (r.job i).kind ≠ .listen :=
    List.filter_congr fun i hi => by rw [(owner i (List.mem_range.mp hi)).kind]
  rw [kind]
  refine List.map_congr_left fun i hi => ?_
  exact (owner i (List.mem_range.mp (List.mem_filter.mp hi).1)).thrdIndex

theorem threads_made (job : r'.job = Function.update r.job r.next j) (next : r'.next = r.next + 1) :
    r'.threads = r.threads ++ if j.kind = .listen then [] else [j.thrdIndex] := by
  have old : ∀ i < r.next, r'.job i = r.job i := fun i hi => by
    rw [job, Function.update_of_ne (Nat.ne_of_lt hi)]
  have new : r'.job r.next = j := by rw [job, Function.update_self]
  have before : ({ r' with next := r.next } : Registry).threads = r.threads :=
    threads_same rfl fun i hi => old i hi ▸ .refl _
  unfold threads at before
  rw [threads, next, List.range_succ, List.filter_append, List.map_append, before, ← threads,
    List.filter_singleton, new]
  by_cases hk : j.kind = .listen <;> simp [hk, new]

theorem Shared.same (h : r.Shared n) (turn : r'.turn = r.turn) (threads : r'.threads = r.threads) :
    r'.Shared n := by
  obtain ⟨cur, cnt⟩ := Prod.mk.inj turn
  exact ⟨cnt.trans h.cnt, by rw [cur, threads, h.cur], by rw [threads]; exact h.threads⟩

-- A call that makes a job leaves the choice of its thread to `get_next_thrd_index`, and `epoll_ctl`
-- accepts the job.
def Chosen (r : Registry) (k : Kernel) (c : Call) : Prop :=
  r.findIoJob c.fd = none → c.freeFunc? = none →
    (∀ t ∈ c.thrdIndex?, r.workerThrdCnt ≤ t) ∧ r.AddAccepted k c

theorem Shared.next (h : r.Shared n) (hn : 0 < n) :
    r.getNextThrdIndex.curThrdIndex = (1 + r.threads.length) % n := by
  have hc : r.curThrdIndex < n := h.cur ▸ Nat.mod_lt _ hn
  have turn : (1 + r.threads.length) % n = (1 + r.curThrdIndex) % n := by
    rw [h.cur, Nat.add_mod_mod]
  rw [turn, getNextThrdIndex, h.cnt, Nat.add_comm 1]
  split
  case isTrue hl  =>
    obtain rfl : r.curThrdIndex + 1 = n := by omega
    exact (Nat.mod_self _).symm
  case isFalse hl => exact (Nat.mod_eq_of_lt (Nat.not_le.mp hl)).symm

section Made

variable (h : r.Shared n) (hn : 0 < n) (job : r'.job = Function.update r.job r.next j)
  (next : r'.next = r.next + 1)
include h hn job next

theorem Shared.made_next (thread : j.thrdIndex = r.getNextThrdIndex.curThrdIndex)
    (kind : j.kind ≠ .listen) (turn : r'.turn = r.getNextThrdIndex.turn) : r'.Shared n := by
  have threads := threads_made job next
  rw [if_neg kind, thread, h.next hn] at threads
  have length : r'.threads.length = r.threads.length + 1 := by simp [threads]
  obtain ⟨cur, cnt⟩ := Prod.mk.inj turn
  refine ⟨cnt.trans h.cnt, ?_, ?_⟩
  case refine_1 => rw [cur, h.next hn, length, Nat.add_comm]
  case refine_2 => rw [length, Turns.turns_succ, ← h.threads, threads]

-- A new job gets the next turn if it is for a connection.
theorem Shared.made (chosen : ∀ t ∈ c.thrdIndex?, n ≤ t) (find : r.findIoJob c.fd = none)
    (new : r.newJob c = some j) (turn : r'.turn = (r.turned c).turn) : r'.Shared n := by
  have own (t : Nat) (ht : t ∈ c.thrdIndex?) :
      r.pickThrdIndex t = (r.getNextThrdIndex, r.getNextThrdIndex.curThrdIndex) :=
    if_pos (h.cnt.symm ▸ chosen t ht)
  have kind (isTcp : Bool) : (if isTcp then JobKind.tcp else .udp) ≠ .listen := by
    cases isTcp <;> nofun
  cases c <;> cases new
  case addListen =>
    have threads : r'.threads = _ ++ [] := threads_made job next
    simp only [turned, find, Call.thrdIndex?] at turn
    exact h.same turn (by rw [threads, List.append_nil])
  case addRead fd _ _ t _ _ =>
    have own := own t rfl
    simp only [turned, find, Call.thrdIndex?, own] at turn
    exact h.made_next hn job next (by simp [newRead, own, IoJob.setThrdIndex]) (kind _) turn
  case addWrite fd _ _ t _ =>
    have own := own t rfl
    simp only [turned, find, Call.thrdIndex?, own] at turn
    exact h.made_next hn job next (by simp [newWrite, own, IoJob.setThrdIndex]) (kind _) turn

end Made

theorem Shared.keep (h : r.Shared n) (next : r'.next = r.next)
    (owner : ∀ i < r.next, (r.job i).SameOwner (r'.job i)) (turn : r'.turn = r.turn) : r'.Shared n :=
  h.same turn (threads_same next owner)

theorem Shared.call (h : r.Shared n) (hn : 0 < n) (chosen : r.Chosen k c) :
    (r.exec k c).1.Shared n := by
  have turn : (r.exec k c).1.turn = _ := exec_turn
  cases find : r.findIoJob c.fd
  case some i =>
    have same : r.turned c = r := by simp only [turned, find]
    rw [same] at turn
    cases r.exec_effect (k := k) (c := c)
    case keep job next _            => exact h.keep next (fun i _ => job ▸ .refl _) turn
    case register none _ _ _ _ _ _ _ _ => simp [find] at none
    case modify i j _ handled job next _ =>
      refine h.keep next (fun i' _ => ?_) turn
      by_cases hi : i' = i
      case pos => subst hi; simpa [job] using handled.toSameOwner
      case neg => simpa [job, hi] using IoJob.SameOwner.refl _
  case none   =>
    by_cases add : c.freeFunc? = none
    case neg => rwa [exec_missed_del find add]
    case pos =>
      obtain ⟨picks, accepted⟩ := chosen find add
      have ret := (exec_ret find add).mpr accepted
      have whole : r.exec k c = r.callWhole k c := by cases c <;> first | rfl | cases add
      have outcome : r.Outcome c (r.exec k c).1 (r.exec k c).2 := whole ▸ r.callWhole_outcome
      cases outcome
      case keep failed _ _ _    => simp [failed add] at ret
      case change find' _       => simp [find] at find'
      case make new _ job next _ => exact h.made hn job next (h.cnt ▸ picks) find new turn

end Registry

namespace Net

variable {s s' : Net} {a : Act} {n : Nat}

def Chosen (s : Net) : Act → Prop
  | .call c k => s.reg.Chosen k c
  | .listenCtl .. | .sweep _ | .freeCallback _ | .delete _ | .writeCtl .. | .writeClear _ | .close _ =>
    True

-- The steps that are no calls make no job, and nobody gets a turn.
theorem step_rest (h : s.step a = some s') (hc : ∀ c k, a ≠ .call c k) :
    s'.reg.next = s.reg.next ∧ s'.reg.turn = s.reg.turn := by
  cases a
  case call c k      => exact absurd rfl (hc c k)
  case listenCtl n k =>
    obtain ⟨d, _, rfl⟩ := Option.map_eq_some_iff.mp h
    exact ⟨(s.reg.delListenCtl_frame k d.2).2.1, Registry.delListenCtl_turn⟩
  case sweep t       =>
    simp only [Net.step, Registry.handleDelingJob_eq, Option.some.injEq] at h
    subst h
    exact ⟨rfl, rfl⟩
  case close fd      => cases h; exact ⟨rfl, rfl⟩
  all_goals
    simp only [Net.step] at h
    split at h <;> cases h
  case writeCtl i k _ =>
    exact ⟨(s.reg.delIoWritingEvt_frame k i).2.1, Registry.delIoWritingEvt_turn⟩
  all_goals exact ⟨rfl, rfl⟩

theorem shared_step (shared : s.reg.Shared n) (hn : 0 < n) (chosen : s.Chosen a)
    (h : s.step a = some s') : s'.reg.Shared n := by
  by_cases call : ∃ c k, a = .call c k
  case pos =>
    obtain ⟨c, k, rfl⟩ := call
    cases h
    exact shared.call hn chosen
  case neg =>
    obtain ⟨next, turn⟩ := step_rest h fun c k hc => call ⟨c, k, hc⟩
    exact shared.keep next (fun i hi => (step_owner h hi).1) turn

-- The connections are spread evenly over the threads, as long as every caller leaves the choice of
-- the thread to the library.
theorem spread (hn : 0 < n) (r : (net n).Reach Chosen s) :
    s.reg.threads = turns n 1 s.reg.threads.length ∧ ∀ t < n, ∀ u < n,
      s.reg.threads.count t ≤ s.reg.threads.count u + 1 := by
  have shared : s.reg.Shared n := by
    refine r.invariant (I := fun s => s.reg.Shared n) (fun s h₀ => ?_) fun _ _ _ shared chosen h =>
      shared_step shared hn chosen h
    obtain rfl : s = .start n := h₀
    exact ⟨rfl, (Nat.zero_mod n).symm, rfl⟩
  refine ⟨shared.threads, fun t ht u hu => ?_⟩
  rw [shared.threads]
  exact Turns.count_turns_le ht hu

instance {r : Registry} {k : Kernel} {c : Call} : Decidable (r.Chosen k c) :=
  inferInstanceAs (Decidable (_ → _ → _))

instance : ∀ a, Decidable (s.Chosen a)
  | .call c k => inferInstanceAs (Decidable (s.reg.Chosen k c))
  | .listenCtl .. | .sweep _ | .freeCallback _ | .delete _ | .writeCtl .. | .writeClear _ | .close _ =>
    .isTrue trivial

-- A listening job takes no turn.
theorem spread_four : ∃ s, (net 3).Reach Chosen s ∧ s.reg.threads = [1, 2, 0, 1] ∧
    ∀ t < 3, ∀ u < 3, s.reg.threads.count t ≤ s.reg.threads.count u + 1 := by
  obtain ⟨s, r, hs⟩ : ∃ s, (net 3).Reach Chosen s ∧ s.reg.threads = [1, 2, 0, 1] :=
    System.Reach.exists_of_run [
        .call (.addRead (.app 0) 4 7 256 100 true) .plain,
        .call (.addListen (.app 1) 3 7) .plain,
        .call (.addWrite (.app 2) 5 7 256 true) .plain,
        .call (.addRead (.app 0) 6 7 256 100 false) .plain,
        .call (.addRead (.app 0) 8 7 256 100 true) .plain]
      _ rfl (by decide)
  exact ⟨s, r, hs, (spread (by decide) r).2⟩

end Net
end NetPool
