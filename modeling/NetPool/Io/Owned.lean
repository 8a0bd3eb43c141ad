import NetPool.Io.Acceptor

namespace NetPool
namespace Accepting

variable {e : Endian} {pton : InetPton} {os : Os} {n t p : Nat} {s s' : Accepting} {a : Act}
  {k : Kernel} {c : Call} {i : JobId} {fd : Fd} {j j' : IoJob} {asked : List Nat}

-- The jobs that are listed, and those that are not freed yet.
def jobs (s : Accepting) : List JobId :=
  s.serving.pc.freed ++ s.serving.reg.ioJobs

-- The object of a job with `_accept_callback` is there, and listens on the descriptor of the job.
structure Listens (s : Accepting) (j : IoJob) : Prop where
  lt       : j.param1 < s.next
  live     : (s.obj j.param1).deleted = false
  listenFd : (s.obj j.param1).listenFd = j.fd
  valid    : j.fd ≠ -1

structure Owned (s : Accepting) : Prop where
  nodup   : s.jobs.Nodup
  lt      : ∀ i ∈ s.jobs, i < s.serving.reg.next
  listens : ∀ i ∈ s.jobs, (s.job i).readFunc = .acceptCallback → s.Listens (s.job i)
  one     : ∀ i ∈ s.jobs, ∀ i' ∈ s.jobs, (s.job i).readFunc = .acceptCallback →
    (s.job i').readFunc = .acceptCallback → (s.job i).param1 = (s.job i').param1 → i = i'
  own     : ∀ p < s.next, (s.obj p).listenFd ≠ -1 → ∀ i ∈ s.serving.reg.ioJobs,
    (s.job i).fd = (s.obj p).listenFd → (s.job i).isWantDelete = false →
      (s.job i).readFunc = .acceptCallback ∧ (s.job i).param1 = p
  free    : ∀ i ∈ s.jobs, (s.job i).freeFunc = .freeListenCallback →
    (s.job i).readFunc = .acceptCallback ∧ (s.job i).param1 ∈ s.asked

-- A change of a job that leaves its object alone.
structure Kept (asked : List Nat) (j j' : IoJob) : Prop extends j.SameOwner j' where
  readFunc : j'.readFunc = .acceptCallback ↔ j.readFunc = .acceptCallback
  live     : j'.isWantDelete = false → j.isWantDelete = false
  freeFunc : j'.freeFunc = .freeListenCallback → j.freeFunc = .freeListenCallback ∨
    j'.readFunc = .acceptCallback ∧ j'.param1 ∈ asked

theorem Kept.refl (j : IoJob) : Kept asked j j :=
  ⟨.refl _, .rfl, id, .inl⟩

theorem Kept.delWriteIoEvent : Kept asked j j.delWriteIoEvent :=
  ⟨⟨rfl, rfl, rfl, rfl⟩, .rfl, id, .inl⟩

-- The new job of a call, with its object.
structure Added (s : Accepting) (j : IoJob) : Prop where
  listens  : j.readFunc = .acceptCallback → s.Listens j
  one      : j.readFunc = .acceptCallback → ∀ i ∈ s.jobs, (s.job i).readFunc = .acceptCallback →
    (s.job i).param1 ≠ j.param1
  own      : ∀ p < s.next, (s.obj p).listenFd ≠ -1 → j.fd = (s.obj p).listenFd →
    j.readFunc = .acceptCallback ∧ j.param1 = p
  freeFunc : j.freeFunc ≠ .freeListenCallback

theorem Listens.kept (h : s.Listens j) (kept : Kept asked j j') (obj : s'.obj = s.obj)
    (next : s'.next = s.next) : s'.Listens j' where
  lt       := by rw [kept.param1, next]; exact h.lt
  live     := by rw [kept.param1, obj]; exact h.live
  listenFd := by rw [kept.param1, kept.fd, obj]; exact h.listenFd
  valid    := by rw [kept.fd]; exact h.valid

theorem Listens.of_obj (h : s.Listens j) (obj : s'.obj j.param1 = s.obj j.param1)
    (next : s.next ≤ s'.next) : s'.Listens j where
  lt       := Nat.lt_of_lt_of_le h.lt next
  live     := obj ▸ h.live
  listenFd := obj ▸ h.listenFd
  valid    := h.valid

namespace Owned

theorem mono (inv : s.Owned) (obj : s'.obj = s.obj) (next : s'.next = s.next)
    (asked : s.asked ⊆ s'.asked) (nodup : s'.jobs.Nodup) (jobs : s'.jobs ⊆ s.jobs)
    (ioJobs : s'.serving.reg.ioJobs ⊆ s.serving.reg.ioJobs)
    (lt : s.serving.reg.next ≤ s'.serving.reg.next)
    (kept : ∀ i ∈ s.jobs, Kept s'.asked (s.job i) (s'.job i)) : s'.Owned where
  nodup := nodup
  lt i hi := Nat.lt_of_lt_of_le (inv.lt i (jobs hi)) lt
  listens i hi hr :=
    have kept := kept i (jobs hi)
    (inv.listens i (jobs hi) (kept.readFunc.mp hr)).kept kept obj next
  one i hi i' hi' hr hr' hp := by
    have kept₁ := kept i (jobs hi)
    have kept₂ := kept i' (jobs hi')
    rw [kept₁.param1, kept₂.param1] at hp
    exact inv.one i (jobs hi) i' (jobs hi') (kept₁.readFunc.mp hr) (kept₂.readFunc.mp hr') hp
  own p hp hl i hi hf live := by
    have mem : i ∈ s.jobs := List.mem_append_right _ (ioJobs hi)
    have kept := kept i mem
    rw [obj] at hl hf
    rw [kept.fd] at hf
    have ⟨hr, hp⟩ := inv.own p (next ▸ hp) hl i (ioJobs hi) hf (kept.live live)
    exact ⟨kept.readFunc.mpr hr, kept.param1.trans hp⟩
  free i hi hf := by
    have kept := kept i (jobs hi)
    obtain h | h := kept.freeFunc hf
    case inr => exact h
    case inl =>
      have ⟨hr, hp⟩ := inv.free i (jobs hi) h
      exact ⟨kept.readFunc.mpr hr, kept.param1 ▸ asked hp⟩

-- A call adds the job `j` behind the others.
theorem add (inv : s.Owned) (added : s.Added j) (obj : s'.obj = s.obj) (next : s'.next = s.next)
    (asked : s'.asked = s.asked) (pc : s'.serving.pc = s.serving.pc)
    (job : s'.serving.reg.job = Function.update s.serving.reg.job s.serving.reg.next j)
    (lt : s'.serving.reg.next = s.serving.reg.next + 1)
    (ioJobs : s'.serving.reg.ioJobs = s.serving.reg.ioJobs ++ [s.serving.reg.next]) :
    s'.Owned := by
  have new : s'.job s.serving.reg.next = j := by rw [Accepting.job, job, Function.update_self]
  have old {i : JobId} (hi : i ∈ s.jobs) : s'.job i = s.job i := by
    rw [Accepting.job, job, Function.update_of_ne (Nat.ne_of_lt (inv.lt i hi)), Accepting.job]
  have hj : s'.jobs = s.jobs ++ [s.serving.reg.next] := by
    rw [jobs, pc, ioJobs, jobs, List.append_assoc]
  have split {i : JobId} (hi : i ∈ s'.jobs) : i ∈ s.jobs ∨ i = s.serving.reg.next := by
    simpa [hj] using hi
  refine ⟨?_, fun i hi => ?_, fun i hi hr => ?_, fun i hi i' hi' hr hr' hp => ?_,
    fun p hp hl i hi hf live => ?_, fun i hi hf => ?_⟩
  case refine_1 =>
    rw [hj]
    refine inv.nodup.append (List.nodup_singleton _) ?_
    exact List.disjoint_singleton.mpr fun h => Nat.lt_irrefl _ (inv.lt _ h)
  case refine_2 =>
    rw [lt]
    obtain hi | rfl := split hi
    case inl => exact Nat.lt_succ_of_lt (inv.lt i hi)
    case inr => exact Nat.lt_succ_self _
  case refine_3 =>
    obtain hi | rfl := split hi
    case inl =>
      rw [old hi] at hr ⊢
      exact (inv.listens i hi hr).of_obj (congrFun obj _) (Nat.le_of_eq next.symm)
    case inr =>
      rw [new] at hr ⊢
      exact (added.listens hr).of_obj (congrFun obj _) (Nat.le_of_eq next.symm)
  case refine_4 =>
    obtain hi | rfl := split hi <;> obtain hi' | rfl := split hi'
    case inl.inl =>
      rw [old hi] at hr hp
      rw [old hi'] at hr' hp
      exact inv.one i hi i' hi' hr hr' hp
    case inl.inr =>
      rw [old hi] at hr hp
      rw [new] at hr' hp
      exact absurd hp (added.one hr' i hi hr)
    case inr.inl =>
      rw [old hi'] at hr' hp
      rw [new] at hr hp
      exact absurd hp.symm (added.one hr i' hi' hr')
    case inr.inr => rfl
  case refine_5 =>
    rw [obj] at hl hf
    rw [ioJobs] at hi
    obtain hi | hi := List.mem_append.mp hi
    case inl =>
      rw [old (List.mem_append_right _ hi)] at hf live ⊢
      exact inv.own p (next ▸ hp) hl i hi hf live
    case inr =>
      rw [List.mem_singleton.mp hi, new] at hf ⊢
      exact added.own p (next ▸ hp) hl hf
  case refine_6 =>
    rw [asked]
    obtain hi | rfl := split hi
    case inl =>
      rw [old hi] at hf ⊢
      exact inv.free i hi hf
    case inr => exact absurd (new ▸ hf) added.freeFunc

-- A call of the interface, which may be one that marks the job of the object `p`.
theorem called (inv : s.Owned) (serving : s'.serving = s.serving.called os k c)
    (obj : s'.obj = s.obj) (next : s'.next = s.next) (asked : s.asked ⊆ s'.asked)
    (found : ∀ i, s.serving.reg.findIoJob c.fd = some i →
      Kept s'.asked (s.job i) (c.onJob (s.job i)))
    (made : ∀ j, s.serving.reg.findIoJob c.fd = none → s.serving.reg.newJob c = some j →
      s.Added j ∧ s'.asked = s.asked) : s'.Owned := by
  have pc : s'.serving.pc = s.serving.pc := serving ▸ rfl
  have reg : s'.serving.reg = (os.call s.serving.reg k c).1 := serving ▸ rfl
  have same (ioJobs : s'.serving.reg.ioJobs = s.serving.reg.ioJobs) : s'.jobs = s.jobs := by
    rw [jobs, pc, ioJobs, jobs]
  have outcome : s.serving.reg.Outcome c (os.call s.serving.reg k c).1 _ := Os.call_outcome
  cases outcome
  case keep _ _ job lt ioJobs =>
    rw [← reg] at job lt ioJobs
    refine inv.mono obj next asked (same ioJobs ▸ inv.nodup) (same ioJobs ▸ List.Subset.refl _)
      (ioJobs ▸ List.Subset.refl _) (Nat.le_of_eq lt.symm) fun i _ => ?_
    rw [Accepting.job, Accepting.job, job]
    exact .refl _
  case change i find only =>
    rw [← reg] at only
    refine inv.mono obj next asked (same only.ioJobs ▸ inv.nodup)
      (same only.ioJobs ▸ List.Subset.refl _) (only.ioJobs ▸ List.Subset.refl _)
      (Nat.le_of_eq only.next.symm) fun i' _ => ?_
    by_cases hi : i' = i
    case pos =>
      have kept := found i find
      rw [hi, Accepting.job, Accepting.job, only.self]
      exact kept
    case neg =>
      rw [Accepting.job, Accepting.job, only.ne hi]
      exact .refl _
  case make j find new _ job lt ioJobs =>
    rw [← reg] at job lt ioJobs
    have ⟨added, asked⟩ := made j find new
    exact inv.add added obj next asked pc job lt ioJobs

-- A call of the application.
theorem foreign (inv : s.Owned) (hc : c.Foreign)
    (apart : ∀ p < s.next, (s.obj p).listenFd = c.fd → c.fd = -1) : (s.call os k c).Owned := by
  refine inv.called rfl rfl rfl (List.Subset.refl _) (fun i find => ?_) fun j _ new => ⟨?_, rfl⟩
  case refine_1 =>
    have ⟨mem, hf, live⟩ := Registry.findIoJob_some find
    have other : (s.job i).readFunc ≠ .acceptCallback := fun hr => by
      have h := inv.listens i (List.mem_append_right _ mem) hr
      exact h.valid <| hf.trans <| apart _ h.lt (h.listenFd.trans hf)
    refine ⟨c.onJob_sameOwner _, iff_of_false (mt (Call.onJob_readFunc hc.1) other) other,
      fun _ => live, fun h => .inl (Call.onJob_freeFunc hc.2 h)⟩
  case refine_2 =>
    have other := Call.newJob_readFunc new hc.1
    have ⟨hf, free⟩ := Call.newJob_fd new
    refine ⟨fun h => absurd h other, fun h => absurd h other, fun p hp hl h => ?_, free ▸ nofun⟩
    rw [← h, hf] at hl
    exact absurd (apart p hp (h.symm.trans hf)) hl

-- `m_listen_fd` of an object that does not listen is set.
theorem listen (inv : s.Owned) (hl : (s.obj p).listenFd = -1) (fresh : s.Fresh fd) : Owned { s with
    obj := Function.update s.obj p { s.obj p with listenFd := fd } } := by
  refine ⟨inv.nodup, inv.lt, fun i hi hr => ?_, inv.one, fun p' hp' hl' i hi hf live => ?_,
    inv.free⟩
  case refine_1 =>
    have h := inv.listens i hi hr
    have hp : (s.job i).param1 ≠ p := fun hp => h.valid <| h.listenFd.symm.trans (hp ▸ hl)
    exact h.of_obj (Function.update_of_ne hp _ _) (Nat.le_refl _)
  case refine_2 =>
    by_cases hp : p' = p
    case pos =>
      subst hp
      simp only [Function.update_self] at hl' hf
      exact absurd (fresh.2 i hi hf hl') (Bool.eq_false_iff.mp live)
    case neg =>
      simp only [Function.update_of_ne hp] at hl' hf
      exact inv.own p' hp' hl' i hi hf live

-- `register_accept` of an object that does not listen.
theorem init (inv : s.Owned) (hp : p < s.next) (obj : s.obj p = .new (s.obj p).listenPort)
    (fresh : s.Fresh fd) : (s.registerAccept os k p fd).Owned := by
  have hl : (s.obj p).listenFd = -1 := obj ▸ rfl
  have inv' := inv.listen hl fresh
  unfold registerAccept
  dsimp only
  split
  case isTrue => exact inv'
  case isFalse valid =>
    refine inv'.called rfl rfl rfl (List.Subset.refl _) (fun i find => ?_) fun j _ new => ⟨?_, rfl⟩
    case refine_1 =>
      have ⟨mem, hf, live⟩ := Registry.findIoJob_some find
      exact absurd (fresh.2 i mem hf valid) (Bool.eq_false_iff.mp live)
    case refine_2 =>
      cases new
      refine ⟨fun _ => ⟨hp, ?_, ?_, valid⟩, fun _ i hi hr => ?_, fun p' hp' _ hf => ⟨rfl, ?_⟩,
        nofun⟩
      case refine_1 =>
        change (Function.update s.obj p _ p).deleted = false
        rw [Function.update_self]
        exact obj ▸ rfl
      case refine_2 =>
        change (Function.update s.obj p _ p).listenFd = fd
        rw [Function.update_self]
      case refine_3 =>
        intro hp
        have hp : (s.job i).param1 = p := hp
        have h := inv.listens i hi hr
        exact h.valid <| h.listenFd.symm.trans (hp ▸ hl)
      case refine_4 =>
        by_contra hn
        have other : p' ≠ p := Ne.symm hn
        change fd = (Function.update s.obj p _ p').listenFd at hf
        rw [Function.update_of_ne other] at hf
        exact valid (fresh.1 p' hp' hf.symm)

-- `unregister_accept`: the job that the call finds is the one of the object.
theorem unregister (inv : s.Owned) (hp : p < s.next) : (s.unregisterAccept os k p).Owned := by
  unfold unregisterAccept
  split
  case isFalse => exact inv
  case isTrue hl =>
    refine inv.called rfl rfl rfl (List.subset_append_left _ _) (fun i find => ?_)
      fun j _ new => by cases new
    have ⟨mem, hf, live⟩ := Registry.findIoJob_some find
    have ⟨hr, hi⟩ := inv.own p hp hl i mem hf live
    exact ⟨⟨rfl, rfl, rfl, rfl⟩, .rfl, fun _ => live,
      fun _ => .inr ⟨hr, List.mem_append_right _ (List.mem_singleton.mpr hi)⟩⟩

theorem construct (inv : s.Owned) (port : BitVec 16) : Owned { s with
    obj  := Function.update s.obj s.next (.new port)
    next := s.next + 1 } := by
  refine ⟨inv.nodup, inv.lt, fun i hi hr => ?_, inv.one, fun p hp hl i hi hf live => ?_, inv.free⟩
  case refine_1 =>
    have h := inv.listens i hi hr
    exact h.of_obj (Function.update_of_ne (Nat.ne_of_lt h.lt) _ _) (Nat.le_succ _)
  case refine_2 =>
    by_cases hn : p = s.next
    case pos =>
      subst hn
      simp [NetAccept.new] at hl
    case neg =>
      simp only [Function.update_of_ne hn] at hl hf
      exact inv.own p (Nat.lt_of_le_of_ne (Nat.le_of_lt_succ hp) hn) hl i hi hf live

-- The object whose `_free_callback` is running.
theorem freeing (inv : s.Owned) (h : s.freeing? = some i) :
    ∃ is, s.serving.pc = .freeing (i :: is) ∧ i ∈ s.jobs ∧ s.Listens (s.job i) ∧
      (s.job i).readFunc = .acceptCallback ∧ (s.job i).param1 ∈ s.asked := by
  obtain ⟨head, free⟩ := Option.filter_eq_some_iff.mp h
  obtain ⟨is, hpc⟩ : ∃ is, s.serving.pc = .freeing (i :: is) := by
    generalize s.serving.pc = pc at head
    cases pc
    case freeing is =>
      obtain ⟨is', h⟩ := List.head?_eq_some_iff.mp head
      exact ⟨is', congrArg _ h⟩
    all_goals cases head
  have mem : i ∈ s.jobs := by simp [jobs, hpc, ServePc.freed]
  obtain ⟨hr, asked⟩ := inv.free i mem (of_decide_eq_true free)
  exact ⟨is, hpc, mem, inv.listens i mem hr, hr, asked⟩

-- The guard of `_free_callback` never fails.
theorem freeCallback_eq (inv : s.Owned) (h : s.freeing? = some i) :
    s.freeCallback (s.job i).fd (s.job i).param1 = { s with
      serving := s.closed (s.job i).fd
      obj     := Function.update s.obj (s.job i).param1
        { s.obj (s.job i).param1 with listenFd := -1, deleted := true }
      frees   := s.frees ++ [((s.job i).param1, (s.job i).fd, s.obj (s.job i).param1)] } := by
  have ⟨_, _, _, listens, _, _⟩ := inv.freeing h
  simp [freeCallback, listens.listenFd, closed]

-- `_free_callback` takes the object away from no other job.
theorem freed {is : List JobId} (inv : s.Owned) (hpc : s.serving.pc = .freeing (i :: is))
    (hr : (s.job i).readFunc = .acceptCallback) (pc : s'.serving.pc = .freeing is)
    (reg : s'.serving.reg = s.serving.reg.closeFd fd)
    (obj : s'.obj = Function.update s.obj (s.job i).param1
      { s.obj (s.job i).param1 with listenFd := -1, deleted := true })
    (next : s'.next = s.next) (asked : s'.asked = s.asked) : s'.Owned := by
  have hj : s.jobs = i :: s'.jobs := by rw [jobs, jobs, hpc, pc, reg]; rfl
  have job (i : JobId) : s'.job i = s.job i := by rw [Accepting.job, reg]; rfl
  have ⟨notMem, nodup⟩ := List.nodup_cons.mp (hj ▸ inv.nodup)
  have mem {i' : JobId} (hi : i' ∈ s'.jobs) : i' ∈ s.jobs := hj ▸ List.mem_cons_of_mem _ hi
  have first : i ∈ s.jobs := hj ▸ List.mem_cons_self
  refine ⟨nodup, fun i' hi => ?_, fun i' hi hr' => ?_, fun i₁ hi₁ i₂ hi₂ => ?_,
    fun p hp hl i' hi hf live => ?_, fun i' hi hf => ?_⟩
  case refine_1 => rw [reg]; exact inv.lt i' (mem hi)
  case refine_2 =>
    rw [job] at hr' ⊢
    have hp : (s.job i').param1 ≠ (s.job i).param1 := fun hp =>
      notMem (inv.one i' (mem hi) i first hr' hr hp ▸ hi)
    refine (inv.listens i' (mem hi) hr').of_obj ?_ (Nat.le_of_eq next.symm)
    rw [obj, Function.update_of_ne hp]
  case refine_3 =>
    rw [job, job]
    exact inv.one i₁ (mem hi₁) i₂ (mem hi₂)
  case refine_4 =>
    rw [job] at hf live ⊢
    rw [obj] at hl hf
    by_cases hn : p = (s.job i).param1
    case pos => simp [hn] at hl
    case neg =>
      rw [Function.update_of_ne hn] at hl hf
      rw [reg] at hi
      exact inv.own p (next ▸ hp) hl i' hi hf live
  case refine_5 =>
    rw [job] at hf ⊢
    rw [asked]
    exact inv.free i' (mem hi) hf

-- A step of the worker without a call.
theorem left {serving : Serving} (inv : s.Owned) (h : s.serving.Left serving) :
    Owned { s with serving } := by
  refine inv.mono rfl rfl (List.Subset.refl _) (h.nodup inv.nodup) h.jobs h.ioJobs
    (Nat.le_of_eq h.next.symm) fun i _ => ?_
  obtain h | h := h.job i
  all_goals rw [Accepting.job, Accepting.job, h]
  case inl => exact .refl _
  case inr => exact .delWriteIoEvent

theorem serve {serving : Serving} {a : Serving.Act} (inv : s.Owned) (ok : Meets e pton s (.serve a))
    (h : s.serving.step os t a = some serving) : Owned { s with serving } := by
  cases hc : a.isCall
  case false => exact inv.left (Serving.step_left h hc)
  case true =>
    cases a <;> cases hc
    have ⟨_, h⟩ := Option.ite_none_right_eq_some.mp h
    cases h
    exact inv.foreign ok.2.2.1 ok.2.2.2

end Owned
end Accepting
end NetPool
