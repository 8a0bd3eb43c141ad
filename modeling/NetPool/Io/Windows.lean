import NetPool.Io.Failure

namespace NetPool

-- A call changes a job it has found in the same way on both systems.
def Call.onJob : Call → IoJob → IoJob
  | addListen .., j                  => j
  | addRead ioFunc _ _ _ bufferSize _, j =>
    j.setReadCallback ioFunc |>.addReadIoEvent |>.initRecvBuf bufferSize
  | delRead _ freeFunc, j            => Registry.delRead j freeFunc
  | addWrite ioFunc .., j            => (j.setWriteCallback ioFunc).addWriteIoEvent
  | delWrite _ freeFunc, j           => Registry.delWrite j freeFunc
  | delListen _ freeFunc, j          => j.setFreeCallback freeFunc |>.setDeletingFlag

theorem Call.onJob_sameOwner (c : Call) (j : IoJob) : j.SameOwner (c.onJob j) := by
  cases c
  case delRead  => exact Registry.delRead_sameOwner
  case delWrite => exact Registry.delWrite_sameOwner
  all_goals exact ⟨rfl, rfl, rfl, rfl⟩

theorem Call.onJob_marked {c : Call} {j : IoJob} (h : j.isWantDelete = true) :
    (c.onJob j).isWantDelete = true := by
  cases c
  case delRead   => simp [onJob, h]
  case delWrite  => simp [onJob, h]
  case delListen => rfl
  all_goals exact h

-- The calls that may leave the job they have found as it is.
def Call.mayKeep : Call → Bool
  | addListen .. | addRead ..                        => true
  | delRead .. | addWrite .. | delWrite .. | delListen .. => false

namespace Registry

variable {r r' : Registry} {k : Kernel} {c : Call} {i : JobId} {fd : Fd} {f : Hdl}

-- The job that `add_listen_job` makes.
def newListen (fd : Fd) (ioFunc : Hdl) (param1 : Nat) : IoJob :=
  IoJob.new .listen fd param1 |>.setReadCallback ioFunc |>.addReadIoEvent |>.setThrdIndex 0

-- The job that a call makes if it finds none.
def newJob (r : Registry) : Call → Option IoJob
  | .addListen ioFunc fd param1 => some (newListen fd ioFunc param1)
  | .addRead ioFunc fd param1 thrdIndex bufferSize isTcp =>
    some (r.newRead thrdIndex fd ioFunc param1 bufferSize isTcp)
  | .addWrite ioFunc fd param1 thrdIndex isTcp => some (r.newWrite thrdIndex fd ioFunc param1 isTcp)
  | .delRead .. | .delWrite .. | .delListen .. => none

section Win

-- The calls as they are compiled for Windows, where there are no epoll instances.
def addListenJobWin (r : Registry) (ioFunc : Hdl) (fd : Fd) (param1 : Nat) : Registry × Bool :=
  match r.findIoJob fd with
  | some _ => (r, false)
  | none   => (r.addIoJob <| newListen fd ioFunc param1, true)

def delListenJobWin (r : Registry) (fd : Fd) (freeFunc : Hdl) : Registry × Bool :=
  match r.findIoJob fd with
  | none   => (r, false)
  | some i => (r.modify i fun j => j.setFreeCallback freeFunc |>.setDeletingFlag, true)

def addReadJobWin (r : Registry) (ioFunc : Hdl) (fd : Fd) (param1 thrdIndex bufferSize : Nat)
    (isTcp : Bool) : Registry × Bool :=
  match r.findIoJob fd with
  | none =>
    let j := IoJob.newWr isTcp fd param1 |>.setReadCallback ioFunc |>.addReadIoEvent
      |>.initRecvBuf bufferSize
    let (r, thrdIndex) := r.pickThrdIndex thrdIndex
    (r.addIoJob <| j.setThrdIndex thrdIndex, true)
  | some i => (r.modify i fun j => j.setReadCallback ioFunc |>.addReadIoEvent
      |>.initRecvBuf bufferSize, true)

-- Without `epoll_ctl` the last two of its branches are the same.
def delReadJobWin (r : Registry) (fd : Fd) (freeFunc : Hdl) : Registry × Bool :=
  match r.findIoJob fd with
  | none   => (r, false)
  | some i =>
    let r := r.modify i (·.setFreeCallback freeFunc)
    let r := if (r.job i).ioEventWrite then r else r.modify i (·.setDeletingFlag)
    (r.modify i (·.delReadIoEvent), true)

def addWriteJobWin (r : Registry) (ioFunc : Hdl) (fd : Fd) (param1 thrdIndex : Nat) (isTcp : Bool) :
    Registry × Bool :=
  match r.findIoJob fd with
  | none =>
    let j := IoJob.newWr isTcp fd param1 |>.setWriteCallback ioFunc |>.addWriteIoEvent
    let (r, thrdIndex) := r.pickThrdIndex thrdIndex
    (r.addIoJob <| j.setThrdIndex thrdIndex, true)
  | some i =>
    let r := r.modify i (·.setWriteCallback ioFunc)
    (if (r.job i).ioEventWrite then r else r.modify i (·.addWriteIoEvent), true)

def delWriteJobWin (r : Registry) (fd : Fd) (freeFunc : Hdl) : Registry × Bool :=
  match r.findIoJob fd with
  | none   => (r, true)
  | some i =>
    let r := r.modify i (·.setFreeCallback freeFunc)
    let r := if (r.job i).ioEventRead then r else r.modify i (·.setDeletingFlag)
    (r.modify i (·.delWriteIoEvent), true)

def callWin (r : Registry) : Call → Registry × Bool
  | .addListen ioFunc fd param1 => r.addListenJobWin ioFunc fd param1
  | .addRead ioFunc fd param1 thrdIndex bufferSize isTcp =>
    r.addReadJobWin ioFunc fd param1 thrdIndex bufferSize isTcp
  | .delRead fd freeFunc => r.delReadJobWin fd freeFunc
  | .addWrite ioFunc fd param1 thrdIndex isTcp => r.addWriteJobWin ioFunc fd param1 thrdIndex isTcp
  | .delWrite fd freeFunc => r.delWriteJobWin fd freeFunc
  | .delListen fd freeFunc => r.delListenJobWin fd freeFunc

-- `CWrIoJob::write_evt_handle` under the lock of the job.
def writeEvtHandleWin (r : Registry) (i : JobId) : Registry :=
  match (r.job i).kind with
  | .listen     => r
  | .tcp | .udp => if (r.job i).isWantDelete then r else r.modify i (·.delWriteIoEvent)

end Win

-- What a call from its entry to its return does to the list and the jobs, on both systems: nothing,
-- change the job it has found, or put a new one at the end of the list.
inductive Outcome (r : Registry) (c : Call) (r' : Registry) (ret : Bool) : Prop
  | keep (found : r.findIoJob c.fd ≠ none → c.mayKeep = true)
      (failed : c.freeFunc? = none → ret = false)
      (job : r'.job = r.job) (next : r'.next = r.next) (ioJobs : r'.ioJobs = r.ioJobs)
  | change (i : JobId) (find : r.findIoJob c.fd = some i) (only : r.OnlyJob r' i (c.onJob (r.job i)))
  | make (j : IoJob) (find : r.findIoJob c.fd = none) (new : r.newJob c = some j) (ret : ret = true)
      (job : r'.job = Function.update r.job r.next j) (next : r'.next = r.next + 1)
      (ioJobs : r'.ioJobs = r.ioJobs ++ [r.next])

-- What the write handler does on the two systems, if it does anything.
theorem writeEvtHandle_eq (hl : (r.job i).kind ≠ .listen) (live : (r.job i).isWantDelete = false) :
    r.writeEvtHandle k i = (r.delIoWritingEvt k i).modify i (·.delWriteIoEvent) := by
  unfold writeEvtHandle
  cases hk : (r.job i).kind <;> simp_all

theorem writeEvtHandleWin_eq (hl : (r.job i).kind ≠ .listen) (live : (r.job i).isWantDelete = false) :
    r.writeEvtHandleWin i = r.modify i (·.delWriteIoEvent) := by
  unfold writeEvtHandleWin
  cases hk : (r.job i).kind <;> simp_all

-- No step changes the owner of a job that has been registered, and none takes its mark away.
structure Grown (r r' : Registry) : Prop where
  owner  : ∀ i < r.next, (r.job i).SameOwner (r'.job i)
  marked : ∀ i < r.next, (r.job i).isWantDelete = true → (r'.job i).isWantDelete = true
  next   : r.next ≤ r'.next
  ioJobs : ∀ i ∈ r'.ioJobs, i ∈ r.ioJobs ∨ i < r'.next

theorem Grown.of_job (job : r'.job = r.job) (next : r'.next = r.next)
    (ioJobs : r'.ioJobs ⊆ r.ioJobs) : r.Grown r' where
  owner _ _    := job ▸ .refl _
  marked _ _ h := job ▸ h
  next         := Nat.le_of_eq next.symm
  ioJobs _ hi  := .inl (ioJobs hi)

theorem OnlyJob.grown {j : IoJob} (h : r.OnlyJob r' i j) (owner : (r.job i).SameOwner j)
    (marked : (r.job i).isWantDelete = true → j.isWantDelete = true) : r.Grown r' where
  owner i' _ := by
    by_cases hi : i' = i
    case pos => rw [hi, h.self]; exact owner
    case neg => rw [h.ne hi]; exact .refl _
  marked i' _ hm := by
    by_cases hi : i' = i
    case pos => rw [hi, h.self]; exact marked (hi ▸ hm)
    case neg => rwa [h.ne hi]
  next        := Nat.le_of_eq h.next.symm
  ioJobs _ hi := .inl (h.ioJobs ▸ hi)

-- A new job at the end of the list.
theorem Grown.of_added {j : IoJob} (job : r'.job = Function.update r.job r.next j)
    (next : r'.next = r.next + 1) (ioJobs : r'.ioJobs = r.ioJobs ++ [r.next]) : r.Grown r' := by
  have old (i : JobId) (hi : i < r.next) : r'.job i = r.job i := by
    rw [job, Function.update_of_ne (Nat.ne_of_lt hi)]
  refine ⟨fun i hi => old i hi ▸ .refl _, fun i hi h => old i hi ▸ h, ?_, fun i hi => ?_⟩
  case refine_1 => exact next ▸ Nat.le_succ _
  case refine_2 =>
    rw [ioJobs] at hi
    refine (List.mem_append.mp hi).imp id fun hi => ?_
    rw [List.mem_singleton.mp hi, next]
    exact Nat.lt_succ_self _

theorem Outcome.grown {ret : Bool} (h : Outcome r c r' ret) : r.Grown r' := by
  cases h
  case keep job next ioJobs     => exact .of_job job next (ioJobs ▸ List.Subset.refl _)
  case change only              => exact only.grown (c.onJob_sameOwner _) Call.onJob_marked
  case make _ _ _ job next list => exact .of_added job next list

theorem Outcome.job_found {ret : Bool} (h : Outcome r c r' ret) (find : r.findIoJob c.fd = some i)
    (hc : c.mayKeep = false) : r'.job i = c.onJob (r.job i) := by
  cases h
  case keep found _ _ _ _ =>
    have := found (by simp [find])
    simp [hc] at this
  case change i' find' only =>
    cases find.symm.trans find'
    exact only.self
  case make find' _ _ _ _ _ => cases find.symm.trans find'

theorem Same.outcome {ret : Bool} (h : r.Same r') (find : r.findIoJob c.fd = none)
    (hr : ret = false) : Outcome r c r' ret :=
  .keep (absurd find) (fun _ => hr) h.job h.next h.ioJobs

theorem Made.outcome {j : IoJob} {ev : EpollEvents} {ret : Bool} (h : r.Made fd j ev r')
    (find : r.findIoJob c.fd = none) (new : r.newJob c = some j) (hr : ret = true) :
    Outcome r c r' ret :=
  .make j find new hr h.job h.next h.ioJobs

theorem addListenJob_cases {param1 : Nat} :
    r.addListenJob k f fd param1 = (r, false) ∨
      r.findIoJob fd = none ∧ (r.addListenJob k f fd param1).2 = true ∧
        r.Made fd (newListen fd f param1) ⟨true, false, true⟩ (r.addListenJob k f fd param1).1 := by
  cases find : r.findIoJob fd
  case some i => left; simp [addListenJob, find]
  case none =>
    have hc : r.addListenJob k f fd param1 =
        r.register k (newListen fd f param1) ⟨true, false, true⟩ := by
      simp [addListenJob, find, newListen]
    rw [hc]
    by_cases h : k.refuseAdd = false ∧ r.epfd (newListen fd f param1).thrdIndex fd = none
    case neg => exact .inl (register_refused h)
    case pos =>
      rw [register_accepted h.1 h.2]
      exact .inr ⟨rfl, rfl, rfl, rfl, rfl, rfl⟩

theorem addListenJob_outcome {param1 : Nat} :
    Outcome r (.addListen f fd param1) (r.addListenJob k f fd param1).1
      (r.addListenJob k f fd param1).2 := by
  have cases : r.addListenJob k f fd param1 = (r, false) ∨ _ := addListenJob_cases
  obtain he | ⟨find, hr, hm⟩ := cases
  · rw [he]
    exact .keep (fun _ => rfl) (fun _ => rfl) rfl rfl rfl
  · exact hm.outcome find rfl hr

theorem addReadJob_outcome {param1 t bufferSize : Nat} {isTcp : Bool} :
    Outcome r (.addRead f fd param1 t bufferSize isTcp)
      (r.addReadJob k f fd param1 t bufferSize isTcp).1
      (r.addReadJob k f fd param1 t bufferSize isTcp).2 := by
  cases find : r.findIoJob fd
  case none =>
    obtain ⟨hr, hm⟩ | ⟨hr, hs⟩ := addReadJob_missed (k := k) (t := t) f param1 bufferSize isTcp find
    · exact hm.outcome find rfl hr
    · exact hs.outcome find hr
  case some i =>
    have found : r.addReadJob k f fd param1 t bufferSize isTcp = (r, false) ∨ _ :=
      addReadJob_found find
    obtain he | ⟨hr, ha⟩ := found
    · rw [he]
      exact .keep (fun _ => rfl) (fun _ => rfl) rfl rfl rfl
    · exact .change i find ha.toOnlyJob

theorem addWriteJob_outcome {param1 t : Nat} {isTcp : Bool} :
    Outcome r (.addWrite f fd param1 t isTcp) (r.addWriteJob k f fd param1 t isTcp).1
      (r.addWriteJob k f fd param1 t isTcp).2 := by
  cases find : r.findIoJob fd
  case none =>
    obtain ⟨_, hr, hm⟩ | ⟨_, hr, hs⟩ := addWriteJob_missed (k := k) (t := t) f param1 isTcp find
    · exact hm.outcome find rfl hr
    · exact hs.outcome find hr
  case some i => exact .change i find (addWriteJob_found find).toOnlyJob

theorem callWhole_outcome : Outcome r c (r.callWhole k c).1 (r.callWhole k c).2 := by
  cases c
  case addListen => exact addListenJob_outcome
  case addRead   => exact addReadJob_outcome
  case addWrite  => exact addWriteJob_outcome
  case delRead fd freeFunc =>
    cases find : r.findIoJob fd
    case some i => exact .change i find (delReadJob_found find)
    case none =>
      have hc : r.callWhole k (.delRead fd freeFunc) = (r, false) := by
        simp [callWhole, exec, delReadJob, find]
      exact hc ▸ .keep (absurd find) (by simp [Call.freeFunc?]) rfl rfl rfl
  case delWrite fd freeFunc =>
    cases find : r.findIoJob fd
    case some i => exact .change i find (delWriteJob_found find)
    case none =>
      have hc : r.callWhole k (.delWrite fd freeFunc) = (r, true) := by
        simp [callWhole, exec, delWriteJob, find]
      exact hc ▸ .keep (absurd find) (by simp [Call.freeFunc?]) rfl rfl rfl
  case delListen fd freeFunc =>
    cases find : r.findIoJob fd
    case none =>
      have hc : r.callWhole k (.delListen fd freeFunc) = (r, false) := by
        simp [callWhole, delListenJob, find]
      exact hc ▸ .keep (absurd find) (by simp [Call.freeFunc?]) rfl rfl rfl
    case some i =>
      let r₁ := r.modify i fun j => j.setFreeCallback freeFunc |>.setDeletingFlag
      have hc : r.callWhole k (.delListen fd freeFunc) = r₁.delListenCtl k fd := by
        simp [callWhole, delListenJob, find, r₁]
      obtain ⟨hj, hn, hl⟩ := r₁.delListenCtl_frame k fd
      rw [hc]
      exact .change i find ⟨hj, hn, hl⟩

attribute [local simp] IoJob.ioEventRead IoJob.ioEventWrite IoJob.setFreeCallback
  IoJob.setDeletingFlag IoJob.delReadIoEvent IoJob.addWriteIoEvent IoJob.delWriteIoEvent

theorem callWin_outcome : Outcome r c (r.callWin c).1 (r.callWin c).2 := by
  have frame (t : Nat) := r.pickThrdIndex_frame (t := t)
  cases find : r.findIoJob c.fd
  case none =>
    cases c <;> simp only [Call.fd] at find
    case addListen => simpa [callWin, addListenJobWin, find] using .make _ find rfl rfl rfl rfl rfl
    case addRead =>
      simp only [callWin, addReadJobWin, find]
      refine .make _ find rfl rfl ?_ ?_ ?_ <;> simp [addIoJob, newRead, frame]
    case addWrite =>
      simp only [callWin, addWriteJobWin, find]
      refine .make _ find rfl rfl ?_ ?_ ?_ <;> simp [addIoJob, newWrite, frame]
    all_goals
      simp only [callWin, delReadJobWin, delWriteJobWin, delListenJobWin, find]
      exact .keep (absurd find) (by simp [Call.freeFunc?]) rfl rfl rfl
  case some i =>
    cases c
    case addListen =>
      simp only [Call.fd] at find
      simp only [callWin, addListenJobWin, find]
      exact .keep (fun _ => rfl) (fun _ => rfl) rfl rfl rfl
    all_goals
      refine .change i find ?_
      simp only [Call.fd] at find
    case addRead => simpa [callWin, addReadJobWin, find] using ⟨modify_job, rfl, rfl⟩
    case delListen => simpa [callWin, delListenJobWin, find] using ⟨modify_job, rfl, rfl⟩
    case addWrite ioFunc _ _ _ _ =>
      have hs : ((r.job i).setWriteCallback ioFunc).nowEvent = (r.job i).nowEvent := rfl
      cases hw : (r.job i).nowEvent.write
      case false =>
        constructor
        all_goals simp [callWin, addWriteJobWin, find, hs, hw, modify_job, Call.onJob]
      case true =>
        have he : { (r.job i).nowEvent with write := true } = (r.job i).nowEvent :=
          NowEvent.ext rfl hw.symm
        constructor
        case job =>
          simp [callWin, addWriteJobWin, find, hs, hw, modify_job, Call.onJob, he]
          simp [← hs]
        all_goals simp [callWin, addWriteJobWin, find, hs, hw]
    case delRead =>
      cases hw : (r.job i).nowEvent.write
      all_goals
        constructor
        all_goals simp [callWin, delReadJobWin, find, hw, modify_job, delRead, Call.onJob]
    case delWrite =>
      cases hw : (r.job i).nowEvent.read
      all_goals
        constructor
        all_goals simp [callWin, delWriteJobWin, find, hw, modify_job, delWrite, Call.onJob]

end Registry
end NetPool
