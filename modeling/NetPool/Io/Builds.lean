import NetPool.Io.Bookkeeping
import NetPool.Io.Serving

namespace NetPool

-- What a call returns if `epoll_ctl` accepts everything it is asked for.
def Call.answer (found : Bool) : Call → Bool
  | addListen ..                     => !found
  | addRead .. | addWrite .. | delWrite .. => true
  | delRead .. | delListen ..        => found

def Call.isDelListen : Call → Bool
  | delListen ..                                                     => true
  | addListen .. | addRead .. | delRead .. | addWrite .. | delWrite .. => false

namespace Registry

variable {r r' w w' : Registry} {c : Call} {i : JobId} {fd : Fd} {t : Nat}

section Turn

variable {k : Kernel} {op : EpollOp} {f : Hdl} {j : IoJob} {ev : EpollEvents}

-- The thread whose turn it was last, and the number of threads.
def turn (r : Registry) : Nat × Nat :=
  (r.curThrdIndex, r.workerThrdCnt)

-- A call that finds no job takes a thread in turn.
def turned (r : Registry) (c : Call) : Registry :=
  match r.findIoJob c.fd, c.thrdIndex? with
  | none, some t => (r.pickThrdIndex t).1
  | _,    _      => r

@[simp] theorem modify_turn {f : IoJob → IoJob} : (r.modify i f).turn = r.turn := rfl
@[simp] theorem addIoJob_turn : (r.addIoJob j).turn = r.turn := rfl

theorem epollCtl_turn (h : r.epollCtl k t op fd = some r') : r'.turn = r.turn := by
  have ⟨_, _, h⟩ := Option.map_eq_some_iff.mp h
  exact h ▸ rfl

@[simp]
theorem epollCtl_getD_turn : ((r.epollCtl k t op fd).getD r).turn = r.turn := by
  cases h : r.epollCtl k t op fd
  case none => rfl
  case some => exact epollCtl_turn h

@[simp]
theorem register_turn : (r.register k j ev).1.turn = r.turn := by
  unfold register
  split
  case h_1   => rfl
  case h_2 h => exact (epollCtl_turn h :)

theorem exec_turn : (r.exec k c).1.turn = (r.turned c).turn := by
  cases find : r.findIoJob c.fd
  case none =>
    cases c <;> simp only [Call.fd] at find
    all_goals
      simp [exec, addListenJob, addReadJob, addWriteJob, delReadJob, delWriteJob, delListenJob, turned,
        find, Call.fd, Call.thrdIndex?]
  case some i =>
    have ht : r.turned c = r := by simp only [turned, find]
    rw [ht]
    cases c <;> simp only [Call.fd] at find
    case addListen | delListen => simp [exec, addListenJob, delListenJob, find]
    case addRead               =>
      simp only [exec, addReadJob, find]
      split
      case h_1   => rfl
      case h_2 h =>
        split at h <;> try split at h
        case isFalse.isFalse => cases h; rfl
        all_goals exact (epollCtl_turn h :)
    case addWrite              =>
      simp only [exec, addWriteJob, find]
      split
      case isFalse => rfl
      case isTrue  =>
        split
        case h_1   => rfl
        case h_2 h => split at h <;> exact (epollCtl_turn h :)
    case delRead | delWrite    =>
      simp only [exec, delReadJob, delWriteJob, find]
      split
      case isTrue => exact epollCtl_getD_turn
      case isFalse =>
        split
        case isTrue  => exact epollCtl_getD_turn
        case isFalse => rfl

theorem delListenCtl_turn : (r.delListenCtl k fd).1.turn = r.turn := by
  unfold delListenCtl
  split
  case h_1   => rfl
  case h_2 h => exact epollCtl_turn h

theorem callWhole_turn : (r.callWhole k c).1.turn = (r.turned c).turn := by
  cases c
  case delListen fd freeFunc =>
    cases find : r.findIoJob fd
    case none   => simp [callWhole, delListenJob, turned, find, Call.fd, Call.thrdIndex?]
    case some i => simp [callWhole, delListenJob, turned, find, Call.fd, delListenCtl_turn]
  all_goals exact exec_turn

theorem delIoWritingEvt_turn : (r.delIoWritingEvt k i).turn = r.turn := by
  unfold delIoWritingEvt
  dsimp only
  split <;> exact epollCtl_getD_turn

theorem callWin_turn : (r.callWin c).1.turn = (r.turned c).turn := by
  cases c
  case addWrite ioFunc fd param1 t isTcp =>
    cases find : r.findIoJob fd
    case none   => simp [callWin, addWriteJobWin, turned, find, Call.fd, Call.thrdIndex?]
    case some i =>
      simp only [callWin, addWriteJobWin, turned, find, Call.fd]
      split <;> rfl
  case delRead fd freeFunc | delWrite fd freeFunc =>
    cases find : r.findIoJob fd
    case none   => simp [callWin, delReadJobWin, delWriteJobWin, turned, find, Call.fd, Call.thrdIndex?]
    case some i =>
      simp only [callWin, delReadJobWin, delWriteJobWin, turned, find, Call.fd]
      split <;> rfl
  case addListen _ fd _ | addRead _ fd _ _ _ _ | delListen fd _ =>
    cases find : r.findIoJob fd
    all_goals
      simp [callWin, addListenJobWin, addReadJobWin, delListenJobWin, turned, find, Call.fd,
        Call.thrdIndex?]

end Turn

-- The two registries differ in the interest lists only.
structure Alike (r w : Registry) : Prop where
  job    : w.job = r.job
  next   : w.next = r.next
  ioJobs : w.ioJobs = r.ioJobs
  turn   : w.turn = r.turn

-- A call is consistent, a call that may register a job finds one if there is one that is not marked,
-- and `del_listen_job` finds a job that thread 0 waits for.
def Orderly (r : Registry) (c : Call) : Prop :=
  (∀ i ∈ r.findIoJob c.fd,
    (∀ t ∈ c.thrdIndex?, (r.job i).nowEvent = .zero → t = (r.job i).thrdIndex) ∧
    (c.isDelListen → (r.job i).thrdIndex = 0 ∧ (r.job i).nowEvent ≠ .zero)) ∧
  (r.findIoJob c.fd = none → c.freeFunc? = none →
    ∀ i ∈ r.ioJobs, (r.job i).fd = c.fd → (r.job i).isWantDelete = true)

theorem Orderly.consistent (h : r.Orderly c) : r.Consistent c := by
  obtain ⟨found, missing⟩ := h
  unfold Consistent
  split
  case h_1 i find => exact (found i find).1
  case h_2 find   => exact fun add _ => missing find add

theorem callWin_answer : (r.callWin c).2 = c.answer (r.findIoJob c.fd).isSome := by
  cases c
  all_goals
    cases find : r.findIoJob (Call.fd _)
    all_goals
      simp only [Call.fd] at find
      simp [callWin, addListenJobWin, addReadJobWin, addWriteJobWin, delReadJobWin, delWriteJobWin,
        delListenJobWin, find, Call.answer]

-- `epoll_ctl` accepts what an orderly call asks for.
theorem callWhole_answer (booked : r.Booked) (h : r.Orderly c) :
    (r.callWhole .plain c).2 = c.answer (r.findIoJob c.fd).isSome := by
  cases find : r.findIoJob c.fd
  case none =>
    have absent (add : c.freeFunc? = none) (t : Nat) : r.epfd t c.fd = none := by
      cases booked.fdOk c.fd
      case one i mem hf live _ _ => simp [h.2 find add i mem hf] at live
      case none epfd             => exact epfd t
    cases c <;> simp only [Call.fd] at find
    case addListen | addRead | addWrite =>
      exact (exec_ret (k := .plain) find rfl).mpr ⟨rfl, absent rfl _⟩
    all_goals
      simp [callWhole, exec, delReadJob, delWriteJob, delListenJob, find, Call.answer]
  case some i =>
    obtain ⟨same, listening⟩ := h.1 i find
    obtain ⟨mem, hf, live⟩ := findIoJob_some find
    have settled := booked.settled mem live
    cases c <;> simp only [Call.fd] at find hf
    case addListen => simp [callWhole, exec, addListenJob, find, Call.answer]
    case delRead   => simp [callWhole, exec, delReadJob, find, Call.answer]
    case delWrite  => simp [callWhole, exec, delWriteJob, find, Call.answer]
    case delListen fd freeFunc =>
      obtain ⟨ht, hz⟩ := listening rfl
      have present := settled.isSome live hz
      rw [ht, hf] at present
      have ret : ((r.modify i fun j => j.setFreeCallback freeFunc |>.setDeletingFlag).delListenCtl
          .plain fd).2 = true := delListenCtl_ret.mpr ⟨rfl, present⟩
      simp [callWhole, delListenJob, find, Call.answer, ret]
    case addWrite ioFunc fd param1 t isTcp              =>
      refine addWriteJob_ret.mpr ?_
      simp only [WriteAccepted, find]
      intro hw
      split
      case isTrue hr  =>
        have present := settled.isSome live (NowEvent.ne_zero_iff.mpr (.inl hr))
        exact ⟨rfl, hf ▸ present⟩
      case isFalse hr =>
        have hz : (r.job i).nowEvent = .zero := NowEvent.ext (Bool.eq_false_iff.mpr hr) hw
        exact ⟨rfl, hf ▸ settled.eq_none (by simp [IoJob.wanted, hz])⟩
    case addRead ioFunc fd param1 t bufferSize isTcp =>
      subst hf
      cases hw : (r.job i).nowEvent.write <;> cases hr : (r.job i).nowEvent.read
      case true.false | true.true =>
        have present := settled.isSome live (NowEvent.ne_zero_iff.mpr (.inr hw))
        simp [callWhole, exec, addReadJob, find, hw, epollCtl_mod (k := .plain) rfl present, Call.answer]
      case false.true  => simp [callWhole, exec, addReadJob, find, hw, hr, Call.answer]
      case false.false =>
        have hz : (r.job i).nowEvent = .zero := NowEvent.ext hr hw
        have absent := settled.eq_none (t := (r.job i).thrdIndex) (by simp [IoJob.wanted, hz])
        simp [callWhole, exec, addReadJob, find, hw, hr, same _ rfl hz,
          epollCtl_add (k := .plain) rfl absent, Call.answer]

namespace Alike

variable (alike : r.Alike w)
include alike

theorem findIoJob : w.findIoJob fd = r.findIoJob fd := by
  simp only [Registry.findIoJob, alike.job, alike.ioJobs]

theorem pickThrdIndex : (w.pickThrdIndex t).2 = (r.pickThrdIndex t).2 ∧
    (w.pickThrdIndex t).1.turn = (r.pickThrdIndex t).1.turn := by
  obtain ⟨cur, cnt⟩ := Prod.mk.inj alike.turn
  unfold Registry.pickThrdIndex
  rw [cnt]
  split <;> simp [getNextThrdIndex, Registry.turn, cur, cnt]

theorem turned : (w.turned c).turn = (r.turned c).turn := by
  unfold Registry.turned
  rw [alike.findIoJob]
  split
  case h_1 => exact alike.pickThrdIndex.2
  case h_2 => exact alike.turn

theorem newJob : w.newJob c = r.newJob c := by
  cases c
  case addRead  => simp only [Registry.newJob, newRead, alike.pickThrdIndex.1]
  case addWrite => simp only [Registry.newJob, newWrite, alike.pickThrdIndex.1]
  all_goals rfl

end Alike

-- The jobs and the list after a call that returns its answer.
def performed (r : Registry) (c : Call) : (JobId → IoJob) × JobId × List JobId :=
  match r.findIoJob c.fd, r.newJob c with
  | some i, _      => (Function.update r.job i (c.onJob (r.job i)), r.next, r.ioJobs)
  | none,   some j => (Function.update r.job r.next j, r.next + 1, r.ioJobs ++ [r.next])
  | none,   none   => (r.job, r.next, r.ioJobs)

theorem Outcome.performed {b : Bool} (h : r.Outcome c r' b)
    (hb : b = c.answer (r.findIoJob c.fd).isSome) :
    (r'.job, r'.next, r'.ioJobs) = r.performed c := by
  subst hb
  cases h
  case keep found failed job next ioJobs =>
    rw [job, next, ioJobs]
    cases find : r.findIoJob c.fd
    case none   =>
      have new : r.newJob c = none := by
        cases c <;> simp [find, Call.answer, Call.freeFunc?] at failed <;> rfl
      simp only [Registry.performed, find, new]
    case some i =>
      have same : c.onJob (r.job i) = r.job i := by
        cases c <;> simp [find, Call.answer, Call.freeFunc?, Call.mayKeep] at found failed
        rfl
      simp only [Registry.performed, find, same, Function.update_eq_self]
  case change i find only =>
    simp only [Registry.performed, find, only.job, only.next, only.ioJobs]
  case make j find new _ job next ioJobs =>
    simp only [Registry.performed, find, new, job, next, ioJobs]

theorem Alike.performed (alike : r.Alike w) : w.performed c = r.performed c := by
  simp only [Registry.performed, alike.findIoJob, alike.newJob, alike.job, alike.next, alike.ioJobs]

-- An orderly call does the same to the list and to the jobs on both systems, and returns the same.
theorem Alike.call (alike : r.Alike w) (booked : r.Booked) (h : r.Orderly c) :
    (r.callWhole .plain c).1.Alike (w.callWin c).1 ∧ (r.callWhole .plain c).2 = (w.callWin c).2 := by
  have whole := callWhole_answer booked h
  have win : (w.callWin c).2 = _ := callWin_answer
  have same : (r.performed c) = _ := (Outcome.performed r.callWhole_outcome whole).symm
  have same' : (w.performed c) = _ := (Outcome.performed w.callWin_outcome win).symm
  rw [alike.performed, same] at same'
  obtain ⟨job, next, ioJobs⟩ := by simpa using same'
  rw [alike.findIoJob, ← whole] at win
  refine ⟨⟨job.symm, next.symm, ioJobs.symm, ?_⟩, win.symm⟩
  rw [callWhole_turn, callWin_turn, alike.turned]

theorem Booked.delListen {freeFunc : Hdl} (booked : r.Booked)
    (h : r.Orderly (.delListen fd freeFunc)) :
    (r.callWhole .plain (.delListen fd freeFunc)).1.Booked := by
  cases find : r.findIoJob fd
  case none   => simpa [callWhole, delListenJob, find] using booked
  case some i =>
    obtain ⟨ht, hz⟩ := (h.1 i find).2 rfl
    obtain ⟨mem, hf, live⟩ := findIoJob_some find
    have settled := booked.settled mem live
    have present := settled.isSome live hz
    rw [ht, hf] at present
    let mark (j : IoJob) : IoJob := j.setFreeCallback freeFunc |>.setDeletingFlag
    have he : (r.callWhole .plain (.delListen fd freeFunc)).1 = (r.setEntry 0 fd none).modify i mark := by
      simp [callWhole, delListenJob, find, delListenCtl, epollCtl_del (k := .plain) rfl present, mark]
    rw [he]
    refine ⟨booked.next, fun fd' => ?_⟩
    have job : ((r.setEntry 0 fd none).modify i mark).job = Function.update r.job i (mark (r.job i)) :=
      modify_job
    by_cases hf' : fd' = (r.job i).fd
    case pos =>
      subst hf'
      refine (booked.fdOk _).change mem rfl live job ⟨rfl, rfl, rfl, rfl⟩ rfl ?_
      rw [← ht, ← hf]
      exact settled.setEntry rfl rfl (by simp [IoJob.wanted, mark, IoJob.setDeletingFlag])
    case neg =>
      have owner : (r.job i).SameOwner (mark (r.job i)) := ⟨rfl, rfl, rfl, rfl⟩
      refine (booked.fdOk fd').change_ne hf' owner job rfl fun t => ?_
      exact setEntry_epfd_ne (.inr (hf ▸ hf'))

theorem Booked.callWhole (booked : r.Booked) (h : r.Orderly c) : (r.callWhole .plain c).1.Booked := by
  cases c
  case delListen => exact booked.delListen h
  all_goals exact booked.call h.consistent nofun

theorem Alike.writeEvt (alike : r.Alike w) :
    (r.writeEvtHandle .plain i).Alike (w.writeEvtHandleWin i) := by
  have changed : ((r.delIoWritingEvt .plain i).modify i (·.delWriteIoEvent)).Alike
      (w.modify i (·.delWriteIoEvent)) := by
    obtain ⟨job, next, ioJobs⟩ := r.delIoWritingEvt_frame .plain i
    refine ⟨?_, alike.next.trans next.symm, alike.ioJobs.trans ioJobs.symm, ?_⟩
    case refine_1 => rw [modify_job, modify_job, job, alike.job]
    case refine_2 => rw [modify_turn, modify_turn, delIoWritingEvt_turn, alike.turn]
  cases kind : (r.job i).kind
  case listen    => simpa only [writeEvtHandle, writeEvtHandleWin, alike.job, kind] using alike
  case tcp | udp =>
    simp only [writeEvtHandle, writeEvtHandleWin, alike.job, kind]
    split
    case isTrue  => exact alike
    case isFalse => exact changed

theorem Alike.sweep (alike : r.Alike w) : (r.handleDelingJob t).1.Alike (w.handleDelingJob t).1 := by
  simp only [handleDelingJob_eq]
  exact ⟨alike.job, alike.next, by simp only [Dead, alike.job, alike.ioJobs], alike.turn⟩

end Registry

-- `epoll_ctl` refuses nothing that it could do.
structure Kernel.Accepts (k : Kernel) : Prop where
  add : k.refuseAdd = false
  mod : k.refuseMod = false
  del : k.refuseDel = false

theorem Kernel.Accepts.eq_plain {k : Kernel} (h : k.Accepts) : k = .plain := by
  obtain ⟨_, _, _⟩ := k
  obtain ⟨rfl, rfl, rfl⟩ := h
  rfl

instance {k : Kernel} : Decidable k.Accepts :=
  decidable_of_iff (k = .plain) ⟨by rintro rfl; exact ⟨rfl, rfl, rfl⟩, fun h => h.eq_plain⟩

-- The two builds with the same calls, events and passes.
structure Builds where
  linux   : Registry
  windows : Registry
  answers : List (Bool × Bool)

namespace Builds

-- `k` is what the kernel of Linux answers.
inductive Act
  | call (c : Call) (k : Kernel)
  | writeEvt (i : JobId) (k : Kernel)
  | sweep (t : Nat)

def step (s : Builds) : Act → Option Builds
  | .call c k     =>
    let linux   := s.linux.callWhole k c
    let windows := s.windows.callWin c
    some ⟨linux.1, windows.1, s.answers ++ [(linux.2, windows.2)]⟩
  | .writeEvt i k =>
    if i ∈ s.linux.ioJobs
    then some ⟨s.linux.writeEvtHandle k i, s.windows.writeEvtHandleWin i, s.answers⟩
    else none
  | .sweep t      => some ⟨(s.linux.handleDelingJob t).1, (s.windows.handleDelingJob t).1, s.answers⟩

end Builds

def builds (workerThrdCnt : Nat) : System Builds Builds.Act where
  init s := s = ⟨.empty workerThrdCnt, .empty workerThrdCnt, []⟩
  step   := Builds.step

namespace Builds

variable {s s' : Builds} {a : Act} {n : Nat}

-- A call does not misuse its descriptor, and `epoll_ctl` refuses nothing.
def Orderly (s : Builds) : Act → Prop
  | .call c k     => s.linux.Orderly c ∧ k.Accepts
  | .writeEvt _ k => k.Accepts
  | .sweep _      => True

structure Kept (s : Builds) : Prop where
  booked  : s.linux.Booked
  alike   : s.linux.Alike s.windows
  answers : ∀ b ∈ s.answers, b.1 = b.2

theorem Kept.step (kept : s.Kept) (h : s.Orderly a) (hs : s.step a = some s') : s'.Kept := by
  cases a
  case call c k     =>
    obtain ⟨h, hk⟩ := h
    obtain rfl := hk.eq_plain
    cases hs
    obtain ⟨alike, same⟩ := kept.alike.call kept.booked h
    refine ⟨kept.booked.callWhole h, alike, fun b hb => ?_⟩
    rw [List.mem_append, List.mem_singleton] at hb
    exact hb.elim (kept.answers b) fun hb => hb ▸ same
  case writeEvt i k =>
    obtain rfl := Kernel.Accepts.eq_plain h
    obtain ⟨mem, hs⟩ := Option.ite_none_right_eq_some.mp hs
    cases hs
    exact ⟨kept.booked.writeEvt mem, kept.alike.writeEvt, kept.answers⟩
  case sweep t      =>
    cases hs
    exact ⟨kept.booked.sweep, kept.alike.sweep, kept.answers⟩

theorem Kept.of_reach (r : (builds n).Reach Orderly s) : s.Kept := by
  refine r.invariant (fun s h₀ => ?_) fun _ _ _ kept h hs => kept.step h hs
  obtain rfl : s = _ := h₀
  exact ⟨⟨nofun, fun _ => .none nofun fun _ => rfl⟩, ⟨rfl, rfl, rfl, rfl⟩, nofun⟩

end Builds

namespace Registry

variable {r w : Registry} {fd : Fd}

-- Some thread waits for an event of the descriptor.
def AskedFor (r : Registry) (p : EpollEvents → Bool) (fd : Fd) : Prop :=
  ∃ t, ∃ e ∈ r.epfd t fd, p e.events

-- `walk_to_handle_sets` serves a job of the descriptor if `select` leaves it in the set.
def Serves (w : Registry) (p : IoJob → Bool) (set : List Fd) (fd : Fd) : Prop :=
  ∃ i ∈ w.ioJobs, (w.job i).fd = fd ∧ (w.job i).isWantDelete = false ∧ p (w.job i) ∧ fd ∈ set

section AskedFor

variable {p : EpollEvents → Bool} {q : IoJob → Bool} {set : List Fd}
  (booked : r.Booked) (alike : r.Alike w)
  (hp : ∀ i ∈ r.ioJobs, (r.job i).isWantDelete = false → ∀ e,
    r.epfd (r.job i).thrdIndex (r.job i).fd = some e → p e.events = q (r.job i))
include booked alike hp

theorem Booked.asked_of_serves (hq : ∀ j, q j → j.nowEvent ≠ .zero) (h : w.Serves q set fd) :
    r.AskedFor p fd := by
  unfold Serves at h
  rw [alike.ioJobs, alike.job] at h
  obtain ⟨i, mem, rfl, live, hqi, _⟩ := h
  obtain ⟨e, he⟩ := Option.isSome_iff_exists.mp ((booked.settled mem live).isSome live (hq _ hqi))
  exact ⟨_, e, he, (hp i mem live e he).trans hqi⟩

theorem Booked.serves_of_asked (hs : ∀ i ∈ r.ioJobs, q (r.job i) → (r.job i).fd ∈ set)
    (h : r.AskedFor p fd) : w.Serves q set fd := by
  unfold Serves
  rw [alike.ioJobs, alike.job]
  obtain ⟨t, e, he, hpe⟩ := h
  cases booked.fdOk fd
  case none epfd                => simp [epfd t] at he
  case one i mem hf live agree _ =>
    subst hf
    have ht : t = (r.job i).thrdIndex := by
      by_contra ht
      have absent := agree.eq_none (t := t) (by simp [IoJob.wanted, ht])
      simp [absent] at he
    subst ht
    have hqi := (hp i mem live e he) ▸ hpe
    exact ⟨i, mem, rfl, live, hqi, hs i mem hqi⟩

end AskedFor

end Registry

section Sets

variable {set fds : List Fd} {fd : Fd} {r : Registry}

theorem length_fdSet : (fdSet set fd).length ≤ set.length + 1 := by
  unfold fdSet
  split <;> simp

theorem mem_fdSet_of_mem {fd' : Fd} (h : fd' ∈ set) : fd' ∈ fdSet set fd := by
  unfold fdSet
  split
  case isTrue  => exact h
  case isFalse => exact List.mem_append_left _ h

theorem mem_fdSet (h : set.length < fdSetSize) : fd ∈ fdSet set fd := by
  unfold fdSet
  split
  case isTrue hf  => exact hf.resolve_right (by omega)
  case isFalse hf => simp

-- A set takes all descriptors as long as it has room for them.
theorem mem_foldl_fdSet (room : set.length + fds.length ≤ fdSetSize) (h : fd ∈ set ∨ fd ∈ fds) :
    fd ∈ fds.foldl fdSet set := by
  induction fds generalizing set
  case nil => simpa using h
  case cons fd' fds hi =>
    have length : (fdSet set fd').length ≤ set.length + 1 := length_fdSet
    rw [List.length_cons] at room
    refine hi (by omega) ?_
    obtain h | h := h
    case inl => exact .inl (mem_fdSet_of_mem h)
    case inr =>
      obtain rfl | h := List.mem_cons.mp h
      case inl => exact .inl (mem_fdSet (by omega))
      case inr => exact .inr h

theorem ask_sets {is : List JobId} {sets : FdSets} :
    (is.foldl (fun sets i => sets.ask (r.job i)) sets).rset =
      ((is.filter fun i => (r.job i).ioEventRead).map fun i => (r.job i).fd).foldl fdSet
        sets.rset ∧
    (is.foldl (fun sets i => sets.ask (r.job i)) sets).wset =
      ((is.filter fun i => (r.job i).ioEventWrite).map fun i => (r.job i).fd).foldl fdSet
        sets.wset := by
  induction is generalizing sets
  case nil => exact ⟨rfl, rfl⟩
  case cons i is hi =>
    rw [List.foldl_cons, hi.1, hi.2, List.filter_cons, List.filter_cons]
    cases hr : (r.job i).ioEventRead <;> cases hw : (r.job i).ioEventWrite <;>
      simp [FdSets.ask, hr, hw]

-- The jobs that wait for an event, if a set has room for them, are all in it.
theorem mem_asked {is : List JobId} {q : IoJob → Bool} {i : JobId}
    (room : is.countP (fun i => q (r.job i)) ≤ fdSetSize) (mem : i ∈ is) (hq : q (r.job i)) :
    (r.job i).fd ∈ ((is.filter fun i => q (r.job i)).map fun i => (r.job i).fd).foldl fdSet [] := by
  refine mem_foldl_fdSet ?_ (.inr ?_)
  case refine_1 => simpa [List.countP_eq_length_filter] using room
  case refine_2 => exact List.mem_map_of_mem (List.mem_filter.mpr ⟨mem, hq⟩)

end Sets

namespace Builds

variable {s : Builds} {n : Nat}

-- What the two builds have in common after the same calls. The sets of Windows have room for
-- FD_SETSIZE descriptors.
structure Agree (s : Builds) : Prop where
  alike   : s.linux.Alike s.windows
  answers : ∀ b ∈ s.answers, b.1 = b.2
  served  : ∀ fd,
    (s.windows.Serves (·.ioEventRead) s.windows.walkToSetSets.rset fd →
      s.linux.AskedFor (·.epollin) fd) ∧
    (s.windows.Serves (·.ioEventWrite) s.windows.walkToSetSets.wset fd →
      s.linux.AskedFor (·.epollout) fd)
  read    : s.windows.ioJobs.countP (fun i => (s.windows.job i).ioEventRead) ≤ fdSetSize →
    ∀ fd, s.linux.AskedFor (·.epollin) fd →
      s.windows.Serves (·.ioEventRead) s.windows.walkToSetSets.rset fd
  write   : s.windows.ioJobs.countP (fun i => (s.windows.job i).ioEventWrite) ≤ fdSetSize →
    ∀ fd, s.linux.AskedFor (·.epollout) fd →
      s.windows.Serves (·.ioEventWrite) s.windows.walkToSetSets.wset fd

-- Where no call misuses a descriptor and `epoll_ctl` refuses nothing, it makes no difference whether
-- the registry is the one for Linux or the one for Windows, as long as the sets are not full.
theorem builds_agree (r : (builds n).Reach Orderly s) : s.Agree := by
  obtain ⟨booked, alike, answers⟩ := Kept.of_reach r
  have agrees := booked.epollAgrees
  have read i mem live e he := ((agrees i mem live).events e he).1
  have write i mem live e he := ((agrees i mem live).events e he).2
  refine ⟨alike, answers, fun fd => ⟨?_, ?_⟩, fun room fd => ?_, fun room fd => ?_⟩
  case refine_1 =>
    exact booked.asked_of_serves alike read fun j hq => NowEvent.ne_zero_iff.mpr (.inl hq)
  case refine_2 =>
    exact booked.asked_of_serves alike write fun j hq => NowEvent.ne_zero_iff.mpr (.inr hq)
  case refine_3 =>
    refine booked.serves_of_asked alike read fun i mem hq => ?_
    rw [alike.ioJobs, alike.job] at room
    rw [Registry.walkToSetSets, ask_sets.1, alike.ioJobs, alike.job]
    exact mem_asked room mem hq
  case refine_4 =>
    refine booked.serves_of_asked alike write fun i mem hq => ?_
    rw [alike.ioJobs, alike.job] at room
    rw [Registry.walkToSetSets, ask_sets.2, alike.ioJobs, alike.job]
    exact mem_asked room mem hq

instance {r : Registry} {c : Call} : Decidable (r.Orderly c) :=
  inferInstanceAs (Decidable (_ ∧ _))

instance : ∀ a, Decidable (s.Orderly a)
  | .call ..      => inferInstanceAs (Decidable (_ ∧ _))
  | .writeEvt ..  => inferInstanceAs (Decidable (Kernel.Accepts _))
  | .sweep _      => .isTrue trivial

-- A write event that has been handled is asked for again, and the listening job is deleted.
theorem builds_agree_again : ∃ s : Builds, s.windows.walkToSetSets.wset = [4] ∧
    s.linux.ioJobs = [1] ∧ s.answers = List.replicate 5 (true, true) ∧ s.Agree := by
  obtain ⟨s, r, hw, hl, ha⟩ : ∃ s, (builds 2).Reach Orderly s ∧ s.windows.walkToSetSets.wset = [4] ∧
      s.linux.ioJobs = [1] ∧ s.answers = List.replicate 5 (true, true) :=
    System.Reach.exists_of_run [
        .call (.addListen (.app 0) 3 7) .plain,
        .call (.addRead (.app 1) 4 8 1 100 true) .plain,
        .call (.addWrite (.app 2) 4 8 1 true) .plain,
        .writeEvt 1 .plain,
        .call (.delListen 3 (.app 3)) .plain,
        .call (.addWrite (.app 2) 4 8 1 true) .plain,
        .sweep 0]
      _ rfl (by decide)
  exact ⟨s, hw, hl, ha, builds_agree r⟩

end Builds
end NetPool
