import NetPool.Io.Serving
import NetPool.Io.WriteEntries

namespace NetPool

-- The jobs of the events that are still to be tested for `EPOLLOUT` and have it.
def Dispatch.outs : Dispatch → List JobId
  | epollin es    => (es.filter (·.epollout)).map (·.ptr)
  | epollout e es => ((e :: es).filter (·.epollout)).map (·.ptr)
  | walk _ | rset .. | readEset .. | wset .. | writeEset .. => []

def Dispatch.os : Dispatch → Os
  | epollin _ | epollout ..                               => .linux
  | walk _ | rset .. | readEset .. | wset .. | writeEset .. => .windows

def ServePc.dispatch? : ServePc → Option Dispatch
  | dispatch d | reading _ d | readFunc _ _ d | writeFunc _ d => some d
  | outside | freeing _                                       => none

def ServePc.outs (pc : ServePc) : List JobId :=
  (pc.dispatch?.map Dispatch.outs).getD []

namespace Serving

variable {os : Os} {n t : Nat} {s s' : Serving} {k : Kernel} {c : Call} {i : JobId} {d : Dispatch}
  {a : Act} {r r' : Registry} {ret : Bool}

-- Every call of a write callback uses up a write event that a call has added and none has taken
-- back.
structure OnePerAdd (s : Serving) : Prop where
  bit   : ∀ c ∈ s.writeCalls, c.2 = true
  count : ∀ i, s.writeCalls.countP (·.1 = i) + s.writeDels.count i ≤ s.writeAdds.count i

-- `write_evt_handle` of the job does not only log.
def Writes (s : Serving) (i : JobId) : Prop :=
  (s.reg.job i).kind ≠ .listen ∧ (s.reg.job i).isWantDelete = false

instance : Decidable (Writes s i) :=
  inferInstanceAs (Decidable (_ ∧ _))

-- The condition on a step. On Linux the calls keep the entries that ask for a write event true, the
-- kernel does not refuse to take the write event out of an entry, and no `EPOLLOUT` is left in the
-- array for a job whose write event `del_write_job` has taken back. On Windows a job that is in the
-- write set and in the exception set has been given a new write event, or is deleted, by its write
-- callback.
def Unspent (os : Os) (t : Nat) (s : Serving) : Act → Prop
  | .call c k => os = .linux → s.reg.WriteKept k t c
  | .go k     => match s.pc with
    | .dispatch (.epollout e _)  => e.epollout = true → s.Writes e.ptr → e.ptr ∉ s.cancelled ∧
      if (s.reg.job e.ptr).ioEventRead then k.refuseMod = false else k.refuseDel = false
    | .dispatch (.writeEset i _) => (s.reg.job i).fd ∈ s.sets.eset → s.Writes i →
      (s.reg.job i).ioEventWrite = true
    | _ => True
  | .close _ | .sweep | .wait _ | .select _ | .recv .. | .accept _ | .ret => True

theorem found_of_some {fd : Fd} {p : IoJob → Bool} (find : r.findIoJob fd = some i) :
    found r fd p = if p (r.job i) then [i] else [] := by
  cases hp : p (r.job i) <;> simp [found, find, hp]

-- What a call does to the write bits is what the history of the calls says: first of the job it has
-- found, then of the job it has made.
theorem count_found (find : r.findIoJob c.fd = some i) :
    (writeAdd r c ret).count i + (r.job i).nowEvent.write.toNat =
      (writeDel r c).count i + (c.onJob (r.job i)).nowEvent.write.toNat := by
  cases c <;> simp only [Call.fd] at find
  case addWrite =>
    cases hw : (r.job i).nowEvent.write <;>
      simp [writeAdd, writeDel, find, found_of_some, hw, Call.onJob, IoJob.addWriteIoEvent]
  case delWrite =>
    cases hw : (r.job i).nowEvent.write <;>
      simp [writeAdd, writeDel, found_of_some find, hw, Call.onJob]
  case delRead => simp [writeAdd, writeDel, Call.onJob]
  all_goals rfl

theorem count_made {j : IoJob} (find : r.findIoJob c.fd = none) (new : r.newJob c = some j) :
    (writeAdd r c true).count r.next = (writeDel r c).count r.next + j.nowEvent.write.toNat := by
  cases c <;> simp only [Call.fd] at find <;> cases new
  case addListen => rfl
  case addRead   => rfl
  case addWrite => simp [writeAdd, writeDel, find, Registry.newWrite, IoJob.addWriteIoEvent,
      IoJob.setThrdIndex]

theorem mem_history (hi : i ∈ writeAdd r c ret ∨ i ∈ writeDel r c) :
    r.findIoJob c.fd = some i ∨
      (r.findIoJob c.fd = none ∧ c.freeFunc? = none ∧ ret = true) ∧ i = r.next := by
  cases c
  case addWrite _ fd _ _ _ =>
    simp only [writeAdd, writeDel, List.not_mem_nil, or_false] at hi
    split at hi
    case h_1   => exact .inl (mem_found.mp hi).1
    case h_2 h =>
      obtain ⟨hr, hi⟩ : ret = true ∧ i = r.next := by simpa using hi
      exact .inr ⟨⟨h, rfl, hr⟩, hi⟩
  case delWrite => exact .inl (mem_found.mp <| hi.resolve_left (by simp [writeAdd])).1
  all_goals simp [writeAdd, writeDel] at hi

-- The write bits after a call.
theorem write_found (h : r.Outcome c r' ret) (find : r.findIoJob c.fd = some i) :
    (r'.job i).nowEvent.write = (c.onJob (r.job i)).nowEvent.write := by
  cases hc : c.mayKeep
  case false => rw [h.job_found find hc]
  case true =>
    have same : (c.onJob (r.job i)).nowEvent.write = (r.job i).nowEvent.write := by
      cases c <;> first | rfl | cases hc
    cases h
    case keep job _ _ => rw [job, same]
    case change i' find' only =>
      cases find.symm.trans find'
      rw [only.self]
    case make find' _ _ _ _ _ => cases find.symm.trans find'

theorem write_not_found (h : r.Outcome c r' ret) (find : r.findIoJob c.fd ≠ some i) :
    (r'.job i = r.job i ∧
      ((r.findIoJob c.fd = none ∧ c.freeFunc? = none ∧ ret = true) → i ≠ r.next)) ∨
    r.findIoJob c.fd = none ∧ ret = true ∧ i = r.next ∧ r.newJob c = some (r'.job i) := by
  cases h
  case keep failed job _ _ =>
    exact .inl ⟨by rw [job], fun ⟨_, add, hr⟩ => by simp [failed add] at hr⟩
  case change i' find' only =>
    exact .inl ⟨only.ne fun hi => find (hi ▸ find'), fun h => by simp [find'] at h⟩
  case make j find' new ret job _ _ =>
    by_cases hi : i = r.next
    case neg => exact .inl ⟨by rw [job, Function.update_of_ne hi], fun _ => hi⟩
    case pos => exact .inr ⟨find', ret, hi, by rw [job, hi, Function.update_self, new]⟩

theorem count_called (h : r.Outcome c r' ret) (fresh : (r.job r.next).nowEvent.write = false)
    (i : JobId) :
    (writeAdd r c ret).count i + (r.job i).nowEvent.write.toNat =
      (writeDel r c).count i + (r'.job i).nowEvent.write.toNat := by
  by_cases find : r.findIoJob c.fd = some i
  case pos => rw [count_found find, write_found h find]
  case neg =>
    obtain ⟨same, hn⟩ | ⟨find', rfl, rfl, new⟩ := write_not_found h find
    case inr => simp [count_made find' new, fresh]
    case inl =>
      have empty : ¬(i ∈ writeAdd r c ret ∨ i ∈ writeDel r c) := fun hi =>
        (mem_history hi).elim find fun ⟨h, hi⟩ => hn h hi
      rw [not_or] at empty
      rw [same, List.count_eq_zero_of_not_mem empty.1, List.count_eq_zero_of_not_mem empty.2]

-- A write event in the array is one of the job, or the job is deleted, or the event has been taken
-- back.
def Due (r : Registry) (cancelled : List JobId) (i : JobId) : Prop :=
  (r.job i).nowEvent.write = true ∨ (r.job i).isWantDelete = true ∨ i ∈ cancelled

theorem Due.call {cancelled : List JobId} (h : r.Outcome c r' ret) (lt : i < r.next)
    (due : Due r cancelled i) : Due r' (cancelledAfter r c cancelled) i := by
  obtain hw | hm | hc := due
  case inr.inl => exact .inr <| .inl <| h.grown.marked i lt hm
  case inl =>
    by_cases find : r.findIoJob c.fd = some i
    case pos =>
      have hw' := write_found h find
      cases c <;> simp only [Call.fd] at find
      case delWrite => exact .inr <| .inr <| List.mem_append_right _ <| mem_found.mpr ⟨find, hw⟩
      case addWrite => exact .inl (hw'.trans rfl)
      case delRead  => exact .inl (hw'.trans <| by simpa [Call.onJob] using hw)
      all_goals exact .inl (hw'.trans hw)
    case neg =>
      obtain ⟨same, _⟩ | ⟨_, _, hi, _⟩ := write_not_found h find
      case inl => exact .inl (same ▸ hw)
      case inr => exact absurd hi (Nat.ne_of_lt lt)
  case inr.inr =>
    by_cases find : r.findIoJob c.fd = some i
    case pos =>
      cases c
      case addWrite => exact .inl ((write_found h find).trans rfl)
      case delWrite => exact .inr <| .inr <| List.mem_append_left _ hc
      all_goals exact .inr <| .inr hc
    case neg =>
      right; right
      cases c <;> simp only [Call.fd] at find
      case delWrite => exact List.mem_append_left _ hc
      case addWrite => exact List.mem_filter.mpr ⟨hc, by simpa using find⟩
      all_goals exact hc

theorem fresh_called (h : r.Outcome c r' ret) (listed : ∀ i ∈ r.ioJobs, i < r.next)
    (fresh : ∀ i, (r.job i).nowEvent.write = true → i < r.next) (i : JobId)
    (hi : (r'.job i).nowEvent.write = true) : i < r'.next := by
  cases h
  case keep job next _ => exact next ▸ fresh i (job ▸ hi)
  case change i' find only =>
    rw [only.next]
    by_cases hn : i = i'
    case pos => exact hn ▸ listed i' (Registry.findIoJob_some find).1
    case neg => exact fresh i (only.ne hn ▸ hi)
  case make job next _ =>
    rw [next]
    by_cases hn : i = r.next
    case pos => exact hn ▸ Nat.lt_succ_self _
    case neg =>
      rw [job, Function.update_of_ne hn] at hi
      exact Nat.lt_succ_of_lt (fresh i hi)

structure WriteInv (os : Os) (t : Nat) (s : Serving) : Prop where
  listed  : ∀ i ∈ s.reg.ioJobs, i < s.reg.next
  fresh   : ∀ i, (s.reg.job i).nowEvent.write = true → i < s.reg.next
  entries : os = .linux → s.reg.WriteEntries t
  system  : ∀ d ∈ s.pc.dispatch?, d.os = os
  nodup   : s.pc.outs.Nodup
  outs    : ∀ i ∈ s.pc.outs, i < s.reg.next ∧ Due s.reg s.cancelled i
  bit     : ∀ c ∈ s.writeCalls, c.2 = true
  count   : ∀ i, s.writeAdds.count i =
    s.writeDels.count i + s.writeCalls.countP (·.1 = i) + (s.reg.job i).nowEvent.write.toNat

theorem WriteInv.onePerAdd (inv : s.WriteInv os t) : s.OnePerAdd where
  bit     := inv.bit
  count i := by have := inv.count i; omega

namespace WriteInv

theorem call (inv : s.WriteInv os t) (ok : s.Unspent os t (.call c k)) :
    (s.called os k c).WriteInv os t := by
  have outcome : s.reg.Outcome c (os.call s.reg k c).1 (os.call s.reg k c).2 := Os.call_outcome
  have hg := outcome.grown
  constructor
  case listed => exact listed_grown inv.listed hg
  case fresh => exact fresh_called outcome inv.listed inv.fresh
  case entries =>
    rintro rfl
    exact Registry.callWhole_entries inv.listed (inv.entries rfl) (ok rfl)
  case system => exact inv.system
  case nodup => exact inv.nodup
  case outs =>
    intro i hi
    have ⟨lt, due⟩ := inv.outs i hi
    exact ⟨Nat.lt_of_lt_of_le lt hg.next, due.call outcome lt⟩
  case bit => exact inv.bit
  case count =>
    intro i
    have hc := inv.count i
    have new : (s.reg.job s.reg.next).nowEvent.write = false := by
      simpa using fun h => Nat.lt_irrefl _ (inv.fresh _ h)
    have hw := count_called outcome new i
    simp only [called, List.count_append]
    omega

-- The thread goes on, without new events.
theorem goto {pc : ServePc} (inv : s.WriteInv os t) (system : ∀ d ∈ pc.dispatch?, d.os = os)
    (outs : pc.outs.Sublist s.pc.outs) : (s.goto pc).WriteInv os t where
  listed    := inv.listed
  fresh     := inv.fresh
  entries   := inv.entries
  system    := system
  nodup     := inv.nodup.sublist outs
  outs i hi := inv.outs i (outs.subset hi)
  bit       := inv.bit
  count     := inv.count

theorem write (inv : s.WriteInv os t) (system : d.os = os) (outs : d.outs.Sublist s.pc.outs)
    (spent : s.Writes i → i ∉ d.outs) (bit : s.Writes i → (s.reg.job i).nowEvent.write = true)
    (kernel : os = .linux → s.Writes i →
      if (s.reg.job i).ioEventRead then k.refuseMod = false else k.refuseDel = false) :
    (s.write os k i d).WriteInv os t := by
  unfold Serving.write
  split
  case isTrue => exact inv.goto (by simpa [ServePc.dispatch?] using system) outs
  case isFalse h =>
    have hw : s.Writes i := by simpa [not_or, Writes] using h
    have only : s.reg.OnlyJob (os.writeEvtHandle s.reg k i) i _ := Os.writeEvtHandle_found hw.1 hw.2
    have hg : s.reg.Grown (os.writeEvtHandle s.reg k i) := only.grown ⟨rfl, rfl, rfl, rfl⟩ id
    have hb : ((os.writeEvtHandle s.reg k i).job i).nowEvent.write = false := by rw [only.self]; rfl
    constructor
    case listed => exact listed_grown inv.listed hg
    case fresh =>
      intro i' hi
      dsimp only at hi ⊢
      by_cases hn : i' = i
      case pos => rw [hn, hb] at hi; cases hi
      case neg => exact only.next ▸ inv.fresh i' (only.ne hn ▸ hi)
    case entries =>
      rintro rfl
      exact Registry.writeEvtHandle_entries hw.1 hw.2 (kernel rfl hw) (inv.entries rfl)
    case system => simpa [ServePc.dispatch?] using system
    case nodup => exact inv.nodup.sublist outs
    case outs =>
      intro i' hi
      have ⟨lt, due⟩ := inv.outs i' (outs.subset hi)
      have hn : i' ≠ i := fun hn => spent hw (hn ▸ hi)
      refine ⟨only.next ▸ lt, ?_⟩
      simpa [Due, only.ne hn] using due
    case bit =>
      intro c hc
      cases List.mem_append.mp hc
      case inl hc => exact inv.bit c hc
      case inr hc => rw [List.mem_singleton.mp hc]; exact bit hw
    case count =>
      intro i'
      have hc := inv.count i'
      dsimp only
      rw [List.countP_append]
      by_cases hn : i' = i
      case pos =>
        subst hn
        rw [hb]
        rw [bit hw] at hc
        simpa [Nat.add_assoc] using hc
      case neg =>
        rw [only.ne hn]
        simpa [Ne.symm hn] using hc

theorem dispatch (inv : s.WriteInv os t) (hpc : s.pc = .dispatch d) (ok : s.Unspent os t (.go k)) :
    (s.dispatch os k d).WriteInv os t := by
  have hos : d.os = os := inv.system d (by simp [hpc, ServePc.dispatch?])
  have outs : s.pc.outs = d.outs := by simp [hpc, ServePc.outs, ServePc.dispatch?]
  have stop : (s.goto .outside).WriteInv os t :=
    inv.goto (by simp [ServePc.dispatch?]) (List.nil_sublist _)
  simp only [Unspent, hpc] at ok
  cases d <;> cases hos
  case epollin es =>
    cases es
    case nil => exact stop
    case cons e es =>
      have same : (Dispatch.epollout e es).outs.Sublist s.pc.outs := outs ▸ List.Sublist.refl _
      simp only [Serving.dispatch]
      split <;> exact inv.goto (by simp [ServePc.dispatch?, Dispatch.os]) same
  case epollout e es =>
    simp only [Serving.dispatch]
    split
    case isFalse he =>
      refine inv.goto (by simp [ServePc.dispatch?, Dispatch.os]) ?_
      rw [outs]
      simp [ServePc.outs, ServePc.dispatch?, Dispatch.outs, he]
    case isTrue he =>
      have cons : s.pc.outs = e.ptr :: (Dispatch.epollin es).outs := by
        rw [outs]
        simp [Dispatch.outs, he]
      have nodup := inv.nodup
      rw [cons, List.nodup_cons] at nodup
      have ⟨_, due⟩ := inv.outs e.ptr (by simp [cons])
      refine inv.write rfl (by rw [cons]; exact List.sublist_cons_self _ _) (fun _ => nodup.1)
        (fun hw => ?_) (fun _ hw => (ok he hw).2)
      exact due.resolve_right fun h => h.elim (by simp [hw.2]) (ok he hw).1
  all_goals
    -- The places of the walk have no events, and only the last one meets a condition.
    have walk (pc : ServePc) (hw : pc.dispatch?.map Dispatch.os = some .windows) :
        (s.goto pc).WriteInv .windows t := by
      have ⟨d', hd, ho⟩ := Option.map_eq_some_iff.mp hw
      refine inv.goto (fun d hm => ?_) ?_
      case refine_1 => cases hd.symm.trans hm; exact ho
      case refine_2 =>
        have : d'.outs = [] := by cases d' <;> first | rfl | cases ho
        simp [ServePc.outs, hd, this]
    simp only [Serving.dispatch]
  case walk itr =>
    cases itr
    case none => exact stop
    case some n =>
      dsimp only
      cases nextJob s.reg n
      case none => exact stop
      case some p =>
        dsimp only
        split
        case isTrue => exact walk _ rfl
        case isFalse => split <;> exact walk _ rfl
  case rset | readEset => split <;> exact walk _ rfl
  case wset i itr =>
    split
    case isFalse => exact walk _ rfl
    case isTrue hw =>
      have write {d : Dispatch} (hd : d.os = .windows) (outs : d.outs = []) :
          (s.write .windows k i d).WriteInv .windows t :=
        inv.write hd (outs ▸ List.nil_sublist _) (by simp [outs]) (fun _ => hw) nofun
      split
      case isTrue => exact write rfl rfl
      case isFalse =>
        split
        case isTrue  => exact write rfl rfl
        case isFalse => exact walk _ rfl
  case writeEset i itr =>
    split
    case isFalse   => exact walk _ rfl
    case isTrue he => exact inv.write rfl (List.nil_sublist _) (fun _ => nofun) (ok he) nofun

-- The write events that the kernel reports are those of entries, each of another descriptor.
theorem outs_wait {ready : List (Fd × Bool × Bool)} {es : List EpollEvent} (inv : r.WriteEntries t)
    (h : ready.mapM (Loop.epollEvent r t) = some es) :
    ((Dispatch.epollin es).outs.map fun i => (r.job i).fd).Sublist (ready.map (·.1)) ∧
      ∀ i ∈ (Dispatch.epollin es).outs, i < r.next ∧ Due r [] i := by
  induction ready generalizing es
  case nil => cases h; simp [Dispatch.outs]
  case cons rd ready hi =>
    simp only [List.mapM_cons, Option.bind_eq_bind, Option.bind_eq_some_iff] at h
    have ⟨e, he, es', hes, h⟩ := h
    cases h
    have ⟨sub, due⟩ := hi hes
    have ⟨entry, hentry, he⟩ := Option.bind_eq_some_iff.mp he
    have ⟨⟨_, hout⟩, he⟩ := Option.ite_none_right_eq_some.mp he
    cases he
    cases hr : rd.2.2
    case false =>
      have : (Dispatch.epollin (⟨entry.ptr, rd.2.1, rd.2.2⟩ :: es')).outs =
          (Dispatch.epollin es').outs := by
        simp [Dispatch.outs, hr]
      rw [hr] at this
      rw [this]
      exact ⟨sub.cons _, due⟩
    case true =>
      have own := inv rd.1 entry hentry (hout hr)
      have : (Dispatch.epollin (⟨entry.ptr, rd.2.1, true⟩ :: es')).outs =
          entry.ptr :: (Dispatch.epollin es').outs := by
        simp [Dispatch.outs]
      rw [this, List.map_cons, List.map_cons, own.fd]
      refine ⟨sub.cons_cons _, List.forall_mem_cons.mpr ⟨⟨own.lt, ?_⟩, due⟩⟩
      exact own.bit.imp_right .inl

-- The thread goes on where it was among the events.
theorem stay {pc : ServePc} (inv : s.WriteInv os t) (h : pc.dispatch? = s.pc.dispatch?) :
    (s.goto pc).WriteInv os t := by
  refine inv.goto (h ▸ inv.system) ?_
  rw [ServePc.outs, h]
  exact List.Sublist.refl _

theorem round {v : Verdict β} (inv : s.WriteInv os t) (hpc : s.pc = .reading i d) :
    (s.round i d v).WriteInv os t := by
  have stay (pc : ServePc) (h : pc.dispatch? = some d) : (s.goto pc).WriteInv os t :=
    inv.stay (h.trans (by simp [hpc, ServePc.dispatch?]))
  cases v
  case again => exact inv
  case stop  => exact stay _ rfl
  case hand  => exact { stay (.readFunc i false d) rfl with }
  case last  => exact { stay (.readFunc i true d) rfl with }

theorem returned {pc : ServePc} (inv : s.WriteInv os t) (h : s.pc.Returned pc) :
    (s.goto pc).WriteInv os t := by
  have hd : pc.dispatch? = s.pc.dispatch? := by
    cases hpc : s.pc <;> rw [hpc] at h
    case freeing is =>
      cases is <;> cases h
      rfl
    case readFunc recvEnd _ =>
      cases recvEnd <;> cases h <;> rfl
    case writeFunc => cases h; rfl
    all_goals cases h
  exact inv.stay hd

theorem step (inv : s.WriteInv os t) (ok : s.Unspent os t a) (h : s.step os t a = some s') :
    s'.WriteInv os t := by
  have hg := step_grown h
  cases step_cases h
  case call => exact inv.call ok
  case close fd _ =>
    refine { inv with
      entries := fun ho => (inv.entries ho).fewer hg (fun _ => .inl) fun fd' e he => ?_ }
    have hn : fd' ≠ fd := fun hn => by simp [hn, Registry.closeFd] at he
    simpa [Registry.closeFd, hn] using he
  case sweep =>
    rw [Registry.handleDelingJob_eq] at hg ⊢
    exact { inv with
      listed  := fun i hi => inv.listed i (List.mem_filter.mp hi).1
      entries := fun ho => (inv.entries ho).fewer hg (fun _ => .inl) fun _ _ => id
      system  := by simp [ServePc.dispatch?]
      nodup   := List.nodup_nil
      outs    := nofun }
  case wait hos hpc nodup hs =>
    have ⟨sub, due⟩ := outs_wait (inv.entries hos) hs
    exact { inv with
      system := by simp [ServePc.dispatch?, Dispatch.os, hos]
      nodup  := (nodup.sublist sub).of_map
      outs   := due }
  case select hos hpc =>
    exact { inv with
      system := by simp [ServePc.dispatch?, Dispatch.os, hos]
      nodup  := List.nodup_nil
      outs   := nofun }
  case dispatch hpc   => exact inv.dispatch hpc ok
  case halted hpc     => exact inv.stay (by simp [hpc, ServePc.dispatch?])
  case recv ask _ _   => exact inv.round (asking_eq_some ask).1
  case accept ask _ _ => exact inv.round (asking_eq_some ask).1
  case ret hpc        => exact inv.returned hpc

theorem of_reach (h : (serving os n t).Reach (Unspent os t) s) : s.WriteInv os t := by
  refine h.invariant ?_ fun _ _ _ inv ok hs => inv.step ok hs
  rintro _ rfl
  exact ⟨nofun, nofun, fun _ => nofun, nofun, List.nodup_nil, nofun, nofun, fun _ => rfl⟩

end WriteInv

-- In the runs whose steps meet the condition, every call of a write callback has a write event of
-- its own.
theorem one_per_add (h : (serving os n t).Reach (Unspent os t) s) : s.OnePerAdd :=
  (WriteInv.of_reach h).onePerAdd

instance : Decidable (r.WriteKept k t c) := by
  cases c <;> unfold Registry.WriteKept <;> infer_instance

instance : Decidable (s.Unspent os t a) := by
  cases a
  case call => exact inferInstanceAs (Decidable (_ → _))
  case go =>
    unfold Unspent
    dsimp only
    split <;> infer_instance
  all_goals exact .isTrue trivial

-- A write event that has been taken back in time, and one that has been added after that.
theorem one_per_add_again :
    ∃ s, (serving .linux 1 0).Reach (Unspent .linux 0) s ∧
      (s.writeCalls = [(0, true)] ∧ s.writeDels = [0] ∧ s.writeAdds = [0, 0]) ∧ s.OnePerAdd := by
  have ⟨s, hr, hs⟩ : ∃ s, (serving .linux 1 0).Reach (Unspent .linux 0) s ∧
      s.writeCalls = [(0, true)] ∧ s.writeDels = [0] ∧ s.writeAdds = [0, 0] :=
    System.Reach.exists_of_run [
        .call (.addRead (.app 0) 5 0 0 0 true) .plain,
        .call (.addWrite (.app 1) 5 0 0 true) .plain,
        .call (.delWrite 5 (.app 2)) .plain,
        .call (.addWrite (.app 1) 5 0 0 true) .plain,
        .sweep,
        .wait [(5, false, true)],
        .go .plain,
        .go .plain]
      _ rfl (by decide)
  exact ⟨s, hr, hs, one_per_add hr⟩

-- On Linux a read callback takes back the write event that has come with its own event; on Windows
-- `select` reports the same descriptor in two sets.
theorem not_one_per_add :
    (¬∀ n t s, (serving .linux n t).Reachable s → s.OnePerAdd) ∧
    ¬∀ n t s, (serving .windows n t).Reachable s → s.OnePerAdd := by
  constructor
  case left =>
    intro h
    have ⟨s, hr, hc⟩ : ∃ s, (serving .linux 1 0).Reachable s ∧ (0, false) ∈ s.writeCalls :=
      System.exists_of_run [
          .call (.addRead (.app 0) 5 0 0 0 true) .plain,
          .call (.addWrite (.app 1) 5 0 0 true) .plain,
          .sweep,
          .wait [(5, true, true)],
          .go .plain,
          .recv (.ret [1]) [],
          .call (.delWrite 5 (.app 2)) .plain,
          .ret,
          .recv .wouldBlock [],
          .go .plain]
        _ rfl (by decide)
    exact Bool.noConfusion <| (h _ _ s hr).bit _ hc
  case right =>
    intro h
    have ⟨s, hr, hc⟩ : ∃ s, (serving .windows 1 0).Reachable s ∧ (0, false) ∈ s.writeCalls :=
      System.exists_of_run [
          .call (.addWrite (.app 1) 5 0 0 true) .plain,
          .sweep,
          .select ⟨[], [5], [5]⟩,
          .go .plain,
          .go .plain,
          .ret,
          .go .plain]
        _ rfl (by decide)
    exact Bool.noConfusion <| (h _ _ s hr).bit _ hc

end Serving
end NetPool
