import NetPool.Io.Registry

namespace NetPool

-- A call of the interface whose effect is made in one section under the lock of the registry.
inductive Call
  | addListen (ioFunc : Hdl) (fd : Fd) (param1 : Nat)
  | addRead (ioFunc : Hdl) (fd : Fd) (param1 thrdIndex bufferSize : Nat) (isTcp : Bool)
  | delRead (fd : Fd) (freeFunc : Hdl)
  | addWrite (ioFunc : Hdl) (fd : Fd) (param1 thrdIndex : Nat) (isTcp : Bool)
  | delWrite (fd : Fd) (freeFunc : Hdl)
  | delListen (fd : Fd) (freeFunc : Hdl)

namespace Call

def fd : Call → Fd
  | addListen _ fd _ | addRead _ fd .. | delRead fd _ | addWrite _ fd .. | delWrite fd _
  | delListen fd _ => fd

-- The free callback that a deleting call hands over.
def freeFunc? : Call → Option Hdl
  | delRead _ f | delWrite _ f | delListen _ f => some f
  | addListen .. | addRead .. | addWrite ..    => none

end Call

namespace Registry

variable {r r' : Registry} {k : Kernel} {i i' : JobId} {fd : Fd}

section Fields

variable {f : IoJob → IoJob} {op : EpollOp} {t : Nat}

@[simp]
theorem modify_job_self : (r.modify i f).job i = f (r.job i) := by
  simp [modify]

@[simp]
theorem modify_job_ne (h : i' ≠ i) : (r.modify i f).job i' = r.job i' := by
  simp [modify, h]

@[simp] theorem modify_next : (r.modify i f).next = r.next := rfl
@[simp] theorem modify_ioJobs : (r.modify i f).ioJobs = r.ioJobs := rfl
@[simp] theorem modify_epfd : (r.modify i f).epfd = r.epfd := rfl

theorem modify_job : (r.modify i f).job = Function.update r.job i (f (r.job i)) :=
  rfl

theorem epollCtl_frame (h : r.epollCtl k t op fd = some r') :
    r'.job = r.job ∧ r'.next = r.next ∧ r'.ioJobs = r.ioJobs := by
  have ⟨_, _, h⟩ := Option.map_eq_some_iff.mp h
  subst h
  exact ⟨rfl, rfl, rfl⟩

@[simp]
theorem epollCtl_getD_job : ((r.epollCtl k t op fd).getD r).job = r.job := by
  cases h : r.epollCtl k t op fd
  case none => rfl
  case some => exact (epollCtl_frame h).1

@[simp]
theorem epollCtl_getD_next : ((r.epollCtl k t op fd).getD r).next = r.next := by
  cases h : r.epollCtl k t op fd
  case none => rfl
  case some => exact (epollCtl_frame h).2.1

@[simp]
theorem epollCtl_getD_ioJobs : ((r.epollCtl k t op fd).getD r).ioJobs = r.ioJobs := by
  cases h : r.epollCtl k t op fd
  case none => rfl
  case some => exact (epollCtl_frame h).2.2

theorem pickThrdIndex_frame :
    (r.pickThrdIndex t).1.job = r.job ∧ (r.pickThrdIndex t).1.next = r.next ∧
      (r.pickThrdIndex t).1.ioJobs = r.ioJobs ∧ (r.pickThrdIndex t).1.epfd = r.epfd := by
  unfold pickThrdIndex
  split <;> exact ⟨rfl, rfl, rfl, rfl⟩

theorem delListenCtl_frame (k : Kernel) (fd : Fd) :
    (r.delListenCtl k fd).1.job = r.job ∧ (r.delListenCtl k fd).1.next = r.next ∧
      (r.delListenCtl k fd).1.ioJobs = r.ioJobs := by
  unfold delListenCtl
  cases h : r.epollCtl k 0 .del fd
  case none => exact ⟨rfl, rfl, rfl⟩
  case some => exact epollCtl_frame h

theorem delIoWritingEvt_frame (k : Kernel) (i : JobId) :
    (r.delIoWritingEvt k i).job = r.job ∧ (r.delIoWritingEvt k i).next = r.next ∧
      (r.delIoWritingEvt k i).ioJobs = r.ioJobs := by
  unfold delIoWritingEvt
  dsimp only
  split <;> exact ⟨epollCtl_getD_job, epollCtl_getD_next, epollCtl_getD_ioJobs⟩

end Fields

theorem findIoJob_some (h : r.findIoJob fd = some i) :
    i ∈ r.ioJobs ∧ (r.job i).fd = fd ∧ (r.job i).isWantDelete = false := by
  unfold findIoJob at h
  split at h
  case h_1 => contradiction
  case h_2 _ hf =>
    split at h <;> cases h
    exact ⟨List.mem_of_find?_eq_some hf, by simpa using List.find?_some hf, by simp_all⟩

def exec (r : Registry) (k : Kernel) : Call → Registry × Bool
  | .addListen ioFunc fd param1                              => r.addListenJob k ioFunc fd param1
  | .addRead ioFunc fd param1 thrdIndex bufferSize isTcp     =>
    r.addReadJob k ioFunc fd param1 thrdIndex bufferSize isTcp
  | .delRead fd freeFunc                                     => r.delReadJob k fd freeFunc
  | .addWrite ioFunc fd param1 thrdIndex isTcp               =>
    r.addWriteJob k ioFunc fd param1 thrdIndex isTcp
  | .delWrite fd freeFunc                                    => r.delWriteJob k fd freeFunc
  | .delListen fd freeFunc                                   => r.delListenJob fd freeFunc

-- What a job that a call has found may become. A deleting call replaces the free callback, the
-- others leave it, and only a deleting call marks the job.
structure Handled (c : Call) (j j' : IoJob) : Prop extends IoJob.SameOwner j j' where
  freeFunc : j'.freeFunc = c.freeFunc?.getD j.freeFunc
  marked   : c.freeFunc? = none → j'.isWantDelete = j.isWantDelete

-- Everything a call can do to the list and to the jobs: nothing, put a new job at the end of the
-- list, or change the job it has found. A call that could have made a new job says whether it has.
inductive Effect (r : Registry) (c : Call) (r' : Registry) (b : Bool) : Prop
  | keep (failed : r.findIoJob c.fd = none → c.freeFunc? = none → b = false)
      (missed : c.freeFunc? ≠ none → r.findIoJob c.fd = none)
      (job : r'.job = r.job) (next : r'.next = r.next) (ioJobs : r'.ioJobs = r.ioJobs)
  | register (j : IoJob) (find : r.findIoJob c.fd = none) (add : c.freeFunc? = none) (ret : b = true)
      (fd : j.fd = c.fd) (live : j.isWantDelete = false) (freeFunc : j.freeFunc = .defaultFreeHandle)
      (job : r'.job = Function.update r.job r.next j) (next : r'.next = r.next + 1)
      (ioJobs : r'.ioJobs = r.ioJobs ++ [r.next])
  | modify (i : JobId) (j : IoJob) (find : r.findIoJob c.fd = some i) (handled : Handled c (r.job i) j)
      (job : r'.job = Function.update r.job i j) (next : r'.next = r.next)
      (ioJobs : r'.ioJobs = r.ioJobs)

theorem register_effect {j : IoJob} {ev : EpollEvents} {r₀ : Registry} {c : Call}
    (find : r₀.findIoJob c.fd = none) (add : c.freeFunc? = none) (fd : j.fd = c.fd)
    (live : j.isWantDelete = false) (freeFunc : j.freeFunc = .defaultFreeHandle)
    (frame : r.job = r₀.job ∧ r.next = r₀.next ∧ r.ioJobs = r₀.ioJobs) :
    Effect r₀ c (r.register k j ev).1 (r.register k j ev).2 := by
  obtain ⟨hj, hn, hl⟩ := frame
  unfold register
  cases h : r.epollCtl k j.thrdIndex (.add ⟨ev, r.next⟩) j.fd
  case none => exact .keep (fun _ _ => rfl) (absurd add) hj hn hl
  case some r' =>
    have ⟨hj', hn', hl'⟩ := epollCtl_frame h
    apply Effect.register j find add rfl fd live freeFunc
    all_goals simp [addIoJob, hj', hn', hl', hj, hn, hl]

theorem addListenJob_effect {ioFunc : Hdl} {param1 : Nat} :
    Effect r (.addListen ioFunc fd param1) (r.addListenJob k ioFunc fd param1).1
      (r.addListenJob k ioFunc fd param1).2 := by
  unfold addListenJob
  split
  case h_1 h => exact .keep (by simp [Call.fd, h]) (absurd rfl) rfl rfl rfl
  case h_2 h => exact register_effect h rfl rfl rfl rfl ⟨rfl, rfl, rfl⟩

theorem Effect.of_found {c : Call} (find : r.findIoJob c.fd = some i)
    (others : ∀ i' ≠ i, r'.job i' = r.job i') (handled : Handled c (r.job i) (r'.job i))
    (next : r'.next = r.next) (ioJobs : r'.ioJobs = r.ioJobs) {b : Bool} : Effect r c r' b := by
  refine .modify i (r'.job i) find handled ?_ next ioJobs
  ext1 i'
  by_cases h : i' = i
  case pos => simp [h]
  case neg => simp [h, others]

theorem delListenJob_effect {freeFunc : Hdl} :
    Effect r (.delListen fd freeFunc) (r.delListenJob fd freeFunc).1
      (r.delListenJob fd freeFunc).2 := by
  unfold delListenJob
  split
  case h_1 h => exact .keep nofun (fun _ => h) rfl rfl rfl
  case h_2 h =>
    apply Effect.of_found h <;> simp +contextual
    exact ⟨⟨rfl, rfl, rfl, rfl⟩, rfl, nofun⟩

theorem delReadJob_effect {freeFunc : Hdl} :
    Effect r (.delRead fd freeFunc) (r.delReadJob k fd freeFunc).1
      (r.delReadJob k fd freeFunc).2 := by
  unfold delReadJob
  split
  case h_1 h => exact .keep nofun (fun _ => h) rfl rfl rfl
  case h_2 h =>
    dsimp only
    split <;> try split
    all_goals
      apply Effect.of_found h <;> simp +contextual
      exact ⟨⟨rfl, rfl, rfl, rfl⟩, rfl, nofun⟩

theorem delWriteJob_effect {freeFunc : Hdl} :
    Effect r (.delWrite fd freeFunc) (r.delWriteJob k fd freeFunc).1
      (r.delWriteJob k fd freeFunc).2 := by
  unfold delWriteJob
  split
  case h_1 h => exact .keep nofun (fun _ => h) rfl rfl rfl
  case h_2 h =>
    dsimp only
    split <;> try split
    all_goals
      apply Effect.of_found h <;> simp +contextual
      exact ⟨⟨rfl, rfl, rfl, rfl⟩, rfl, nofun⟩

theorem addReadJob_effect {ioFunc : Hdl} {param1 t bufferSize : Nat} {isTcp : Bool} :
    Effect r (.addRead ioFunc fd param1 t bufferSize isTcp)
      (r.addReadJob k ioFunc fd param1 t bufferSize isTcp).1
      (r.addReadJob k ioFunc fd param1 t bufferSize isTcp).2 := by
  unfold addReadJob
  split
  case h_1 h =>
    have ⟨hj, hn, hl, _⟩ := r.pickThrdIndex_frame (t := t)
    exact register_effect h rfl rfl rfl rfl ⟨hj, hn, hl⟩
  case h_2 i h =>
    dsimp only
    split
    case h_1 => exact .keep (by simp [Call.fd, h]) (absurd rfl) rfl rfl rfl
    case h_2 ctl r' hc =>
      have ⟨hj, hn, hl⟩ : r'.job = r.job ∧ r'.next = r.next ∧ r'.ioJobs = r.ioJobs := by
        split at hc <;> try split at hc
        case isFalse.isFalse => cases hc; exact ⟨rfl, rfl, rfl⟩
        all_goals exact epollCtl_frame hc
      apply Effect.of_found h
      case others  => simp +contextual [hj]
      case handled => simp [hj]; exact ⟨⟨rfl, rfl, rfl, rfl⟩, rfl, fun _ => rfl⟩
      case next    => exact hn
      case ioJobs  => exact hl

theorem addWriteJob_effect {ioFunc : Hdl} {param1 t : Nat} {isTcp : Bool} :
    Effect r (.addWrite ioFunc fd param1 t isTcp)
      (r.addWriteJob k ioFunc fd param1 t isTcp).1
      (r.addWriteJob k ioFunc fd param1 t isTcp).2 := by
  unfold addWriteJob
  split
  case h_1 h =>
    have ⟨hj, hn, hl, _⟩ := r.pickThrdIndex_frame (t := t)
    exact register_effect h rfl rfl rfl rfl ⟨hj, hn, hl⟩
  case h_2 i h =>
    dsimp only
    split
    case isFalse =>
      apply Effect.of_found h <;> simp +contextual
      exact ⟨⟨rfl, rfl, rfl, rfl⟩, rfl, fun _ => rfl⟩
    case isTrue =>
      split
      case h_1 =>
        apply Effect.of_found h <;> simp +contextual
        exact ⟨⟨rfl, rfl, rfl, rfl⟩, rfl, fun _ => rfl⟩
      case h_2 ctl r' hc =>
        let r₁ := (r.modify i (·.setWriteCallback ioFunc)).modify i (·.addWriteIoEvent)
        have ⟨hj, hn, hl⟩ : r'.job = r₁.job ∧ r'.next = r₁.next ∧ r'.ioJobs = r₁.ioJobs := by
          split at hc <;> exact epollCtl_frame hc
        apply Effect.of_found h
        case others  => simp +contextual [hj, r₁]
        case handled => simp [hj, r₁]; exact ⟨⟨rfl, rfl, rfl, rfl⟩, rfl, fun _ => rfl⟩
        case next    => exact hn
        case ioJobs  => exact hl

theorem exec_effect {c : Call} : Effect r c (r.exec k c).1 (r.exec k c).2 := by
  cases c
  case addListen => exact addListenJob_effect
  case addRead   => exact addReadJob_effect
  case delRead   => exact delReadJob_effect
  case addWrite  => exact addWriteJob_effect
  case delWrite  => exact delWriteJob_effect
  case delListen => exact delListenJob_effect

end Registry
end NetPool
