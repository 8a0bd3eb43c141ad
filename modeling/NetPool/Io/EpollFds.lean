import NetPool.Io.Found
import NetPool.Io.Pointers

namespace NetPool

namespace Registry

variable {r r' : Registry} {k : Kernel} {c : Call} {i : JobId} {t : Nat} {fd : Fd}

-- The indices with which a call reads `m_epfd`.
def epfdUses (r : Registry) : Call → List Nat
  | .addListen _ fd _ => match r.findIoJob fd with
    | none   => [0]
    | some _ => []
  | .delListen .. => []
  | .addRead _ fd _ thrdIndex _ _ => match r.findIoJob fd with
    | none   => [(r.pickThrdIndex thrdIndex).2]
    | some i =>
      if (r.job i).ioEventWrite then [(r.job i).thrdIndex]
      else if !(r.job i).ioEventRead then [thrdIndex]
      else []
  | .addWrite _ fd _ thrdIndex _ => match r.findIoJob fd with
    | none   => [(r.pickThrdIndex thrdIndex).2]
    | some i =>
      if !(r.job i).ioEventWrite then
        if (r.job i).ioEventRead then [(r.job i).thrdIndex] else [thrdIndex]
      else []
  | .delRead fd _ => match r.findIoJob fd with
    | none   => []
    | some i =>
      if (r.job i).ioEventWrite then [(r.job i).thrdIndex]
      else if (r.job i).ioEventRead then [(r.job i).thrdIndex]
      else []
  | .delWrite fd _ => match r.findIoJob fd with
    | none   => []
    | some i =>
      if (r.job i).ioEventRead then [(r.job i).thrdIndex]
      else if (r.job i).ioEventWrite then [(r.job i).thrdIndex]
      else []

end Registry

-- The entries of `m_epfd` that `init_event_fds` fills, and the loops that `start` runs: one for
-- each worker thread, or one on the calling thread if there are none.
def initEventFds (workerThrdCnt : Nat) : List Nat :=
  if workerThrdCnt > 0 then List.range workerThrdCnt else [0]

def startLoops (workerThrdCnt : Nat) : List Nat :=
  if workerThrdCnt > 0 then List.range workerThrdCnt else [0]

-- `m_epfd` beside the registry. `filled` are the entries that `init_event_fds` has filled, nothing
-- before it was called, and `used` the indices of all accesses.
structure EpollFds where
  net    : Net
  filled : Option (List Nat)
  used   : List Nat

namespace EpollFds

def start : EpollFds :=
  ⟨.start 0, none, []⟩

inductive Act
  | init (maxThrdCnt : UInt32)
  | net (a : Net.Act)
  | wait (t : Nat)

def uses (s : Net) : Net.Act → List Nat
  | .call c _     => s.reg.epfdUses c
  | .listenCtl .. => [0]
  | .writeCtl i _ => [(s.reg.job i).thrdIndex]
  | .sweep _ | .freeCallback _ | .delete _ | .writeClear _ | .close _ => []

def step (s : EpollFds) : Act → Option EpollFds
  -- `np_init_worker_thrds`. Without a worker thread `init_worker_thrds` fails and the count stays
  -- 0.
  | .init maxThrdCnt =>
    match s.filled with
    | some _ => none
    | none   =>
      let fds := initEventFds maxThrdCnt.toNat
      some ⟨.start maxThrdCnt.toNat, some fds, s.used ++ fds⟩
  | .net a =>
    match s.filled with
    | none   => none
    | some _ => (s.net.step a).map fun net => { s with net := net, used := s.used ++ uses s.net a }
  -- `epoll_wait` in `loop_handle`.
  | .wait t =>
    match s.filled with
    | none   => none
    | some _ =>
      if t ∈ startLoops s.net.reg.workerThrdCnt then some { s with used := s.used ++ [t] } else none

end EpollFds

def epollFds : System EpollFds EpollFds.Act where
  init s := s = .start
  step   := EpollFds.step

namespace Registry

variable {r r' : Registry} {k : Kernel} {c : Call} {i : JobId} {t : Nat} {fd : Fd} {op : EpollOp}

theorem epollCtl_cnt (h : r.epollCtl k t op fd = some r') : r'.workerThrdCnt = r.workerThrdCnt := by
  cases epollCtl_eq_some h
  rfl

theorem epollCtl_getD_cnt : ((r.epollCtl k t op fd).getD r).workerThrdCnt = r.workerThrdCnt := by
  have set : (r.epollCtl k t op fd).getD r = r ∨ _ := epollCtl_getD
  obtain h | h := set <;> rw [h]
  rfl

theorem register_cnt {j : IoJob} {ev : EpollEvents} :
    (r.register k j ev).1.workerThrdCnt = r.workerThrdCnt := by
  unfold register
  split
  case h_1   => rfl
  case h_2 h => exact (epollCtl_cnt h :)

theorem pickThrdIndex_cnt : (r.pickThrdIndex t).1.workerThrdCnt = r.workerThrdCnt := by
  unfold pickThrdIndex
  split <;> rfl

theorem exec_cnt : (r.exec k c).1.workerThrdCnt = r.workerThrdCnt := by
  cases c
  case addListen =>
    simp only [exec, addListenJob]
    split
    case h_1 => rfl
    case h_2 => exact register_cnt
  case addRead =>
    simp only [exec, addReadJob]
    split
    case h_1 => exact register_cnt.trans pickThrdIndex_cnt
    case h_2 =>
      split
      case h_1   => rfl
      case h_2 h =>
        split at h <;> try split at h
        case isFalse.isFalse => cases h; rfl
        all_goals exact (epollCtl_cnt h :)
  case addWrite =>
    simp only [exec, addWriteJob]
    split
    case h_1 => exact register_cnt.trans pickThrdIndex_cnt
    case h_2 =>
      split
      case isFalse => rfl
      case isTrue  =>
        split
        case h_1   => rfl
        case h_2 h => split at h <;> exact (epollCtl_cnt h :)
  case delRead =>
    simp only [exec, delReadJob]
    split
    case h_1 => rfl
    case h_2 =>
      split
      case isTrue => exact epollCtl_getD_cnt
      case isFalse =>
        split
        case isTrue  => exact epollCtl_getD_cnt
        case isFalse => rfl
  case delWrite =>
    simp only [exec, delWriteJob]
    split
    case h_1 => rfl
    case h_2 =>
      split
      case isTrue => exact epollCtl_getD_cnt
      case isFalse =>
        split
        case isTrue  => exact epollCtl_getD_cnt
        case isFalse => rfl
  case delListen =>
    simp only [exec, delListenJob]
    split <;> rfl

theorem pickThrdIndex_mem : (r.pickThrdIndex t).2 ∈ startLoops r.workerThrdCnt := by
  unfold pickThrdIndex startLoops getNextThrdIndex
  split <;> split <;> simp <;> try split
  all_goals omega

theorem newThrdIndex_mem : r.newThrdIndex c ∈ startLoops r.workerThrdCnt := by
  have zero : 0 ∈ startLoops r.workerThrdCnt := by
    unfold startLoops
    split <;> simp
    omega
  cases c
  case addRead | addWrite => exact pickThrdIndex_mem
  all_goals exact zero

-- The job of a call belongs to the thread it has belonged to, or is a new one.
theorem exec_thrdIndex (hi : i < (r.exec k c).1.next) :
    i < r.next ∧ ((r.exec k c).1.job i).thrdIndex = (r.job i).thrdIndex ∨
      ((r.exec k c).1.job i).thrdIndex = r.newThrdIndex c := by
  by_cases lt : i < r.next
  case pos =>
    have hs : (⟨r, [], [], [], []⟩ : Net).step (.call c k) = some _ := rfl
    exact .inl ⟨lt, (Net.step_owner hs lt).1.thrdIndex⟩
  case neg =>
    right
    cases find : r.findIoJob c.fd
    case some i' =>
      cases r.exec_effect (k := k) (c := c)
      case keep next _              => rw [next] at hi; exact absurd hi lt
      case modify next _            => rw [next] at hi; exact absurd hi lt
      case register j find' _ _ _ _ _ _ _ _ => rw [find] at find'; cases find'
    case none =>
      by_cases add : c.freeFunc? = none
      case neg => rw [exec_missed_del find add] at hi; exact absurd hi lt
      case pos =>
        have ⟨r₀, j, ev, he, new, _, hn, _, _⟩ := exec_missed (k := k) find add
        rw [he] at hi ⊢
        by_cases h : k.refuseAdd = false ∧ r₀.epfd j.thrdIndex j.fd = none
        case neg => rw [register_refused h, hn] at hi; exact absurd hi lt
        case pos =>
          rw [register_accepted h.1 h.2] at hi ⊢
          simp only [addIoJob, setEntry_next, hn] at hi ⊢
          obtain rfl : i = r.next := Nat.le_antisymm (Nat.le_of_lt_succ hi) (Nat.le_of_not_lt lt)
          simp [new.thrdIndex]

end Registry

namespace EpollFds

variable {s s' : EpollFds} {t : Nat}

-- Every access is inside the array, and reads an entry that was filled.
structure InRange (s : EpollFds) : Prop where
  bound  : ∀ t ∈ s.used, t < 32
  filled : ∀ t ∈ s.used, ∃ fds ∈ s.filled, t ∈ fds

-- `np_init_worker_thrds` is asked for at most 32 threads, and a call that finds a job without an
-- event is given the index of a loop.
def Fits (s : EpollFds) : Act → Prop
  | .init maxThrdCnt => maxThrdCnt.toNat ≤ 32
  | .net (.call c _) => ∀ i ∈ s.net.reg.findIoJob c.fd, (s.net.reg.job i).nowEvent = .zero →
    ∀ t ∈ c.thrdIndex?, t ∈ startLoops s.net.reg.workerThrdCnt
  | .net (.listenCtl ..) | .net (.sweep _) | .net (.freeCallback _) | .net (.delete _)
  | .net (.writeCtl ..) | .net (.writeClear _) | .net (.close _) | .wait _ => True

instance : ∀ s a, Decidable (Fits s a)
  | _, .init _         => inferInstanceAs (Decidable (_ ≤ _))
  | _, .net (.call ..) => inferInstanceAs (Decidable (∀ i ∈ _, _))
  | _, .net (.listenCtl ..) | _, .net (.sweep _) | _, .net (.freeCallback _) | _, .net (.delete _)
  | _, .net (.writeCtl ..) | _, .net (.writeClear _) | _, .net (.close _) | _, .wait _ =>
    inferInstanceAs (Decidable True)

structure Inv (s : EpollFds) : Prop where
  net    : s.net.Inv
  used   : ∀ t ∈ s.used, ∃ fds ∈ s.filled, t ∈ fds
  filled : ∀ fds ∈ s.filled, fds = startLoops s.net.reg.workerThrdCnt ∧ s.net.reg.workerThrdCnt ≤ 32
  jobs   : ∀ i < s.net.reg.next, (s.net.reg.job i).thrdIndex ∈ startLoops s.net.reg.workerThrdCnt

theorem startLoops_bound {n : Nat} (hn : n ≤ 32) (h : t ∈ startLoops n) : t < 32 := by
  unfold startLoops at h
  split at h
  case isTrue  => exact Nat.lt_of_lt_of_le (List.mem_range.mp h) hn
  case isFalse => simp [List.mem_singleton.mp h]

theorem Inv.inRange (inv : s.Inv) : s.InRange where
  filled := inv.used
  bound  := by
    intro t ht
    have ⟨fds, hf, hm⟩ := inv.used t ht
    have ⟨he, hn⟩ := inv.filled fds hf
    exact startLoops_bound hn (he ▸ hm)

theorem step_cnt {s s' : Net} {a : Net.Act} (h : s.step a = some s') :
    s'.reg.workerThrdCnt = s.reg.workerThrdCnt := by
  cases a
  case call c k => cases h; exact Registry.exec_cnt
  case sweep t  =>
    simp only [Net.step, Registry.handleDelingJob_eq, Option.some.injEq] at h
    subst h
    rfl
  case close fd => cases h; rfl
  case listenCtl n k =>
    obtain ⟨d, _, h⟩ := Option.map_eq_some_iff.mp h
    subst h
    unfold Registry.delListenCtl
    split
    case h_1   => rfl
    case h_2 h => exact (Registry.epollCtl_cnt h :)
  case writeCtl i k =>
    simp only [Net.step] at h
    split at h <;> cases h
    unfold Registry.delIoWritingEvt
    dsimp only
    split <;> exact Registry.epollCtl_getD_cnt
  all_goals
    simp only [Net.step] at h
    split at h <;> cases h
    rfl

-- Only a call makes jobs, and it gives a new one to a loop.
theorem step_new {s s' : Net} {a : Net.Act} {i : JobId} (h : s.step a = some s')
    (hi : i < s'.reg.next) (hn : ¬i < s.reg.next) :
    (s'.reg.job i).thrdIndex ∈ startLoops s.reg.workerThrdCnt := by
  cases a
  case call c k =>
    cases h
    obtain ⟨lt, _⟩ | h := Registry.exec_thrdIndex hi
    case inl => exact absurd lt hn
    case inr => exact h ▸ Registry.newThrdIndex_mem
  case sweep t =>
    simp only [Net.step, Registry.handleDelingJob_eq, Option.some.injEq] at h
    subst h
    exact absurd hi hn
  case close fd => cases h; exact absurd hi hn
  case listenCtl n k =>
    obtain ⟨d, _, h⟩ := Option.map_eq_some_iff.mp h
    subst h
    exact absurd ((s.reg.delListenCtl_frame k d.2).2.1 ▸ hi) hn
  case writeCtl i' k =>
    simp only [Net.step] at h
    split at h <;> cases h
    exact absurd ((s.reg.delIoWritingEvt_frame k i').2.1 ▸ hi) hn
  all_goals
    simp only [Net.step] at h
    split at h <;> cases h
    exact absurd hi hn

-- A call reads the entry of the thread of its job, or of a thread that was asked for.
theorem epfdUses_mem {r : Registry} {c : Call} (jobs : ∀ i ∈ r.ioJobs,
    (r.job i).thrdIndex ∈ startLoops r.workerThrdCnt) (ok : ∀ i ∈ r.findIoJob c.fd,
    (r.job i).nowEvent = .zero → ∀ t ∈ c.thrdIndex?, t ∈ startLoops r.workerThrdCnt)
    (h : t ∈ r.epfdUses c) : t ∈ startLoops r.workerThrdCnt := by
  cases find : r.findIoJob c.fd
  case none =>
    have := r.newThrdIndex_mem (c := c)
    cases c <;> simp only [Call.fd] at find <;> simp [Registry.epfdUses, find] at h
    all_goals simpa [h, Registry.newThrdIndex] using this
  case some i =>
    have hj := jobs i (Registry.findIoJob_some find).1
    have ho := ok i find
    cases hw : (r.job i).nowEvent.write <;> cases hr : (r.job i).nowEvent.read
    case false.false =>
      have hz : (r.job i).nowEvent = .zero := NowEvent.ext hr hw
      cases c <;> simp only [Call.fd] at find <;> simp [Registry.epfdUses, find, hw, hr] at h
      all_goals exact ho hz t (by simp [Call.thrdIndex?, h])
    all_goals
      cases c <;> simp only [Call.fd] at find <;> simp [Registry.epfdUses, find, hw, hr] at h
      all_goals exact h ▸ hj

theorem Inv.uses (inv : s.Inv) {a : Net.Act} {net : Net} (ok : s.Fits (.net a))
    (hs : s.net.step a = some net) (h : t ∈ uses s.net a) :
    t ∈ startLoops s.net.reg.workerThrdCnt := by
  cases a
  case call c k => exact epfdUses_mem (fun i hi => inv.jobs i (inv.net.lt_next (.inl hi))) ok h
  case listenCtl n k =>
    cases List.mem_singleton.mp h
    exact Registry.newThrdIndex_mem (r := s.net.reg) (c := .delRead 0 .null)
  case writeCtl i k =>
    have ⟨⟨lt, _⟩, _⟩ := Option.ite_none_right_eq_some.mp hs
    exact List.mem_singleton.mp h ▸ inv.jobs i lt
  all_goals cases h

theorem Inv.netStep (inv : s.Inv) {a : Net.Act} {net : Net} (ok : s.Fits (.net a))
    (hs : s.net.step a = some net) (hf : s.filled.isSome) :
    Inv { s with net := net, used := s.used ++ EpollFds.uses s.net a } := by
  have ⟨fds, hf⟩ := Option.isSome_iff_exists.mp hf
  have ⟨he, _⟩ := inv.filled fds hf
  have cnt := step_cnt hs
  constructor
  case net    => exact inv.net.step hs
  case used   =>
    refine List.forall_mem_append.mpr ⟨inv.used, fun t ht => ⟨fds, hf, ?_⟩⟩
    exact he ▸ inv.uses ok hs ht
  case filled => simpa only [cnt] using inv.filled
  case jobs   =>
    simp only [cnt]
    intro i hi
    by_cases lt : i < s.net.reg.next
    case pos => exact (Net.step_owner hs lt).1.thrdIndex ▸ inv.jobs i lt
    case neg => exact step_new hs hi lt

theorem Inv.step {a : Act} (inv : s.Inv) (ok : s.Fits a) (hs : s.step a = some s') : s'.Inv := by
  cases a <;> simp only [EpollFds.step] at hs <;> cases hf : s.filled <;> simp only [hf] at hs
  case init.some => cases hs
  case net.none  => cases hs
  case wait.none => cases hs
  case init.none maxThrdCnt =>
    cases hs
    have hu : s.used = [] := List.eq_nil_iff_forall_not_mem.mpr fun t ht => by
      have ⟨_, h, _⟩ := inv.used t ht
      simp [hf] at h
    refine ⟨.start _, ?_, ?_, nofun⟩
    case refine_1 => simp [hu]
    case refine_2 =>
      intro fds h
      cases h
      exact ⟨rfl, ok⟩
  case net.some a _ =>
    have ⟨net, hn, h⟩ := Option.map_eq_some_iff.mp hs
    subst h
    have := inv.netStep ok hn (by simp [hf])
    rwa [hf] at this
  case wait.some t fds =>
    have ⟨ht, h⟩ := Option.ite_none_right_eq_some.mp hs
    cases h
    have ⟨he, _⟩ := inv.filled fds hf
    refine ⟨inv.net, ?_, by simpa only [hf] using inv.filled, inv.jobs⟩
    refine List.forall_mem_append.mpr ⟨by simpa only [hf] using inv.used, fun t' ht' => ⟨fds, rfl, ?_⟩⟩
    exact he ▸ List.mem_singleton.mp ht' ▸ ht

-- A call that finds a job without an event uses the index it is given as it is, and
-- `init_event_fds` does not know the size of the array.
theorem epfd_in_range (h : epollFds.Reach Fits s) : s.InRange := by
  refine (h.invariant (I := Inv) ?_ fun _ _ _ inv ok hs => inv.step ok hs).inRange
  rintro _ rfl
  exact ⟨.start 0, nofun, nofun, nofun⟩

-- A job whose only event has been handled is found again.
theorem epfd_in_range_again : ∃ s, epollFds.Reach Fits s ∧
    s.used = [0, 1, 1, 1, 0] ∧ s.InRange := by
  have ⟨s, hr, hs⟩ : ∃ s, epollFds.Reach Fits s ∧ s.used = [0, 1, 1, 1, 0] :=
    System.Reach.exists_of_run [.init 2,
        .net (.call (.addWrite (.app 0) 5 0 256 true) .plain),
        .net (.writeCtl 0 .plain),
        .net (.writeClear 0),
        .net (.call (.addRead (.app 0) 5 0 0 0 true) .plain)]
      _ rfl (by decide)
  exact ⟨s, hr, hs, epfd_in_range hr⟩

-- 33 threads, and the header's default index for a job whose write event has been handled.
theorem not_epfd_in_range :
    (∃ s, epollFds.Reachable s ∧ ¬s.InRange ∧ 32 ∈ s.used) ∧
    ∃ s, epollFds.Reachable s ∧ ¬s.InRange ∧ 256 ∈ s.used := by
  constructor
  case left =>
    have ⟨s, hr, hs⟩ : ∃ s, epollFds.Reachable s ∧ 32 ∈ s.used :=
      System.exists_of_run [.init 33] _ rfl (by decide)
    exact ⟨s, hr, fun h => absurd (h.bound 32 hs) (by decide), hs⟩
  case right =>
    have ⟨s, hr, hs⟩ : ∃ s, epollFds.Reachable s ∧ 256 ∈ s.used :=
      System.exists_of_run [.init 1,
          .net (.call (.addWrite (.app 0) 5 0 256 true) .plain),
          .net (.writeCtl 0 .plain),
          .net (.writeClear 0),
          .net (.call (.addWrite (.app 0) 5 0 256 true) .plain)]
        _ rfl (by decide)
    exact ⟨s, hr, fun h => absurd (h.bound 256 hs) (by decide), hs⟩

end EpollFds
end NetPool
