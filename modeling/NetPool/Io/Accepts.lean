import NetPool.Io.Owned

namespace NetPool
namespace Accepting

variable {e : Endian} {pton : InetPton} {os : Os} {n t p : Nat} {s s' : Accepting} {a : Act}
  {k : Kernel} {c : Call} {i : JobId} {fd : Fd}

-- The worker is in a callback while `_accept_callback` is running, and the object stays as it is up
-- to the call of `accept_handle`.
structure Inv (os : Os) (s : Accepting) : Prop extends s.Safe where
  held    : s.serving.Held os
  owned   : s.Owned
  busy    : s.acceptPc ≠ .outside → ∃ i recvEnd d, s.serving.pc = .readFunc i recvEnd d
  entered : ∀ p cliFd, s.acceptPc = .entered p cliFd →
    p < s.next ∧ (s.obj p).deleted = false ∧ (s.obj p).listenFd ≠ -1

theorem served_cases (s : Accepting) (a : Serving.Act) (serving : Serving) :
    s.served a serving = { s with serving } ∨
      ∃ connFd i recvEnd d, a = .accept (.conn connFd) ∧ serving.pc = .readFunc i recvEnd d ∧
        (s.job i).readFunc = .acceptCallback ∧ s.served a serving = { s with
          serving  := serving
          acceptPc := .entered (s.job i).param1 connFd
          accepts  := s.accepts ++ [((s.job i).param1, s.obj (s.job i).param1)]
          accepted := s.accepted ++ [connFd] } := by
  unfold served
  split
  case h_2 => exact .inl rfl
  case h_1 connFd i recvEnd d hpc =>
    split
    case isFalse   => exact .inl rfl
    case isTrue hr => exact .inr ⟨connFd, i, recvEnd, d, rfl, hpc, hr, rfl⟩

-- A listening job is listed when a callback of it is called.
theorem accept_listens {serving : Serving} {out : AcceptOut} {recvEnd : Bool} {d : Dispatch}
    (held : s.serving.Held os) (owned : s.Owned)
    (h : s.serving.step os t (.accept out) = some serving)
    (hpc : serving.pc = .readFunc i recvEnd d) (hr : (s.job i).readFunc = .acceptCallback) :
    s.Listens (s.job i) ∧ ∃ d, s.serving.pc = .reading i d := by
  cases Serving.step_cases h
  case accept i' d' v ask kind _ =>
    have reading := (Serving.asking_eq_some ask).1
    obtain rfl : i' = i := by
      cases v <;> simp only [Serving.round, Serving.goto, reading] at hpc <;> cases hpc <;> rfl
    have mem := held.hand i' (reading ▸ List.mem_cons_self) kind
    exact ⟨owned.listens i' (List.mem_append_right _ mem) hr, d', reading⟩

namespace Inv

theorem start : (Accepting.start n).Inv os where
  accepts := nofun
  handles := nofun
  frees   := nofun
  once    := .nil
  asked   := nofun
  gone p  := by simp [Accepting.start]
  settled := rfl
  handled := rfl
  closed  := rfl
  held    := .start
  owned   := ⟨.nil, nofun, nofun, nofun, nofun, nofun⟩
  busy    := fun h => absurd rfl h
  entered := nofun

theorem serve_busy {serving : Serving} {a : Serving.Act} (inv : s.Inv os)
    (may : s.mayServe a = true) (h : s.serving.step os t a = some serving)
    (hc : s.acceptPc ≠ .outside) : ∃ i recvEnd d, serving.pc = .readFunc i recvEnd d := by
  have ⟨i, recvEnd, d, hpc⟩ := inv.busy hc
  cases Serving.step_cases h
  case call | close            => exact ⟨i, recvEnd, d, hpc⟩
  case recv ask _ _            => cases hpc.symm.trans (Serving.asking_eq_some ask).1
  case accept ask _ _          => cases hpc.symm.trans (Serving.asking_eq_some ask).1
  case ret                     => simp [mayServe, hc] at may
  case sweep hpc' | wait hpc' _ _ | select hpc' | dispatch hpc' | halted hpc' =>
    cases hpc.symm.trans hpc'

theorem serve {serving : Serving} {a : Serving.Act} (inv : s.Inv os)
    (ok : Meets e pton s (.serve a)) (may : s.mayServe a = true)
    (h : s.serving.step os t a = some serving) : (s.served a serving).Inv os := by
  have owned := inv.owned.serve ok h
  have held : serving.Held os := by
    refine inv.held.step ?_ h
    cases a
    case call => exact ⟨ok.1, ok.2.1⟩
    case go   => exact ok
    all_goals trivial
  obtain hs | ⟨connFd, i, recvEnd, d, rfl, hpc, hr, hs⟩ := s.served_cases a serving
  case inl =>
    rw [hs]
    exact ⟨{ inv.toSafe with }, held, owned, inv.serve_busy may h, inv.entered⟩
  case inr =>
    rw [hs]
    have ⟨listens, _, reading⟩ := accept_listens inv.held inv.owned h hpc hr
    have live : (s.obj (s.job i).param1).deleted = false ∧
        (s.obj (s.job i).param1).listenFd ≠ -1 :=
      ⟨listens.live, listens.listenFd ▸ listens.valid⟩
    have idle : s.acceptPc = .outside := by
      by_contra hc
      have ⟨_, _, _, hpc⟩ := inv.busy hc
      cases hpc.symm.trans reading
    refine ⟨{ inv.toSafe with accepts := fun c hc => ?_, settled := ?_, handled := ?_ }, held, ?_,
      fun _ => ⟨i, recvEnd, d, hpc⟩, ?_⟩
    case refine_1 =>
      obtain hc | hc := List.mem_append.mp hc
      case inl => exact inv.accepts c hc
      case inr =>
        rw [List.mem_singleton.mp hc]
        exact live
    case refine_2 =>
      have settled := inv.settled
      simpa [idle, AcceptPc.cliFd?] using settled
    case refine_3 =>
      have handled := inv.handled
      simpa [idle, AcceptPc.handling?] using handled
    case refine_5 =>
      rintro p cliFd ⟨⟩
      exact ⟨listens.lt, live⟩
    case refine_4 =>
      exact owned.mono rfl rfl (List.Subset.refl _) owned.nodup (List.Subset.refl _)
        (List.Subset.refl _) (Nat.le_refl _) fun _ _ => .refl _

theorem construct (inv : s.Inv os) (port : BitVec 16) : Inv os { s with
    obj  := Function.update s.obj s.next (.new port)
    next := s.next + 1 } := by
  refine ⟨{ inv.toSafe with gone := fun p => ?_ }, inv.held, inv.owned.construct port, inv.busy,
    fun p cliFd hc => ?_⟩
  case refine_1 =>
    refine (inv.gone p).trans ?_
    by_cases hp : p = s.next
    case pos => simp [hp, NetAccept.new]
    case neg => simp only [Function.update_of_ne hp, Nat.lt_succ_iff_lt_or_eq, hp, or_false]
  case refine_2 =>
    obtain ⟨lt, live⟩ := inv.entered p cliFd hc
    dsimp only
    rw [Function.update_of_ne (Nat.ne_of_lt lt)]
    exact ⟨Nat.lt_succ_of_lt lt, live⟩

theorem called_of_mayCall (h : s.mayCall) :
    s.serving.pc.inCallback = true ∧ ∀ p cliFd, s.acceptPc ≠ .entered p cliFd := by
  obtain ⟨hpc, hc⟩ := (Bool.and_eq_true ..).mp h
  refine ⟨hpc, fun p cliFd he => ?_⟩
  simp [he, AcceptPc.isEntered] at hc

theorem called_held (inv : s.Inv os) (hpc : s.serving.pc.inCallback = true)
    (hk : k.refuseDel = false) (hc : c.isListen = true) : (s.serving.called os k c).Held os :=
  inv.held.step (t := 0) (a := .call c k) ⟨hk, fun _ _ _ => hc⟩ (if_pos hpc)

-- Where only `m_listen_fd` of an object changes, and the worker stays where it is.
theorem of_owned (inv : s.Inv os) (held : s'.serving.Held os) (owned : s'.Owned)
    (pc : s'.serving.pc = s.serving.pc) (next : s'.next = s.next)
    (obj : ∀ p, (s'.obj p).deleted = (s.obj p).deleted) (acceptPc : s'.acceptPc = s.acceptPc)
    (entered : ∀ p cliFd, s.acceptPc ≠ .entered p cliFd) (asked : s.asked ⊆ s'.asked)
    (accepts : s'.accepts = s.accepts) (handled : s'.handled = s.handled)
    (frees : s'.frees = s.frees) (accepted : s'.accepted = s.accepted)
    (closes : s'.closes = s.closes) (settled : s'.settled = s.settled) : s'.Inv os where
  accepts   := accepts ▸ inv.accepts
  handles   := handled ▸ inv.handles
  frees     := frees ▸ inv.frees
  once      := frees ▸ inv.once
  asked p h := asked <| inv.asked p (frees ▸ h)
  gone p    := by rw [frees, next, obj]; exact inv.gone p
  settled   := by rw [accepted, settled, acceptPc]; exact inv.settled
  handled   := by rw [handled, settled, acceptPc]; exact inv.handled
  closed    := by rw [closes, settled]; exact inv.closed
  held      := held
  owned     := owned
  busy      := by rw [acceptPc, pc]; exact inv.busy
  entered   := fun p cliFd h => absurd (acceptPc ▸ h) (entered p cliFd)

theorem init (inv : s.Inv os) (may : s.mayCall) (hp : p < s.next)
    (hk : k.refuseDel = false) (obj : s.obj p = .new (s.obj p).listenPort) (fresh : s.Fresh fd) :
    (s.registerAccept os k p fd).Inv os := by
  have ⟨hpc, idle⟩ := called_of_mayCall may
  have owned : (s.registerAccept os k p fd).Owned := inv.owned.init hp obj fresh
  have same (p' : Nat) : (Function.update s.obj p { s.obj p with listenFd := fd } p').deleted =
      (s.obj p').deleted := by
    by_cases hn : p' = p
    case pos => simp [hn]
    case neg => rw [Function.update_of_ne hn]
  by_cases valid : fd = -1
  case pos =>
    simp only [registerAccept, if_pos valid] at owned ⊢
    exact inv.of_owned inv.held owned rfl rfl same rfl idle (List.Subset.refl _) rfl rfl rfl rfl rfl
      rfl
  case neg =>
    simp only [registerAccept, if_neg valid] at owned ⊢
    have held := inv.called_held (c := .addListen .acceptCallback fd p) hpc hk rfl
    exact inv.of_owned held owned rfl rfl same rfl idle (List.Subset.refl _) rfl rfl rfl rfl rfl
      rfl

theorem free (inv : s.Inv os) (may : s.mayCall) (hp : p < s.next) (hk : k.refuseDel = false) :
    (s.unregisterAccept os k p).Inv os := by
  have ⟨hpc, idle⟩ := called_of_mayCall may
  have owned : (s.unregisterAccept os k p).Owned := inv.owned.unregister hp
  by_cases hl : (s.obj p).listenFd ≠ -1
  case neg => rwa [unregisterAccept, if_neg hl]
  case pos =>
    rw [unregisterAccept, if_pos hl] at owned ⊢
    have held := inv.called_held (c := .delListen (s.obj p).listenFd .freeListenCallback) hpc hk rfl
    exact inv.of_owned held owned rfl rfl (fun _ => rfl) rfl idle (List.subset_append_left _ _) rfl
      rfl rfl rfl rfl rfl

theorem closed_step (hpc : s.serving.pc.inCallback = true) :
    s.serving.step os t (.close fd) = some (s.closed fd) :=
  if_pos hpc

-- The end of `_accept_callback`, when it is known what becomes of the connection.
theorem settle {cliFd : Nat} {o : Settled} (inv : s.Inv os) (hc : s.acceptPc.cliFd? = some cliFd)
    (ho : s.acceptPc.handling? = if o = .noPeer then none else some cliFd)
    (h : s.settle os t cliFd o = some s') : s'.Inv os := by
  have ⟨serving, hs, h⟩ := Option.map_eq_some_iff.mp h
  subst h
  have ⟨i, recvEnd, d, hpc⟩ := inv.busy (by rintro h; simp [h, AcceptPc.cliFd?] at hc)
  have close : s.serving.step os t (.close cliFd) = some (s.closed cliFd) :=
    closed_step (hpc ▸ rfl)
  have before : (if o = .taken then s.serving else s.closed cliFd).Held os ∧
      Owned { s with serving := if o = .taken then s.serving else s.closed cliFd } := by
    split
    case isTrue  => exact ⟨inv.held, inv.owned⟩
    case isFalse =>
      have left := Serving.step_left close rfl
      exact ⟨inv.held.step (a := .close _) trivial close, inv.owned.left left⟩
  have held : serving.Held os := before.1.step (a := .ret) trivial hs
  refine ⟨{ inv.toSafe with settled := ?_, handled := ?_, closed := ?_ }, held, ?_,
    fun h => absurd rfl h, nofun⟩
  case refine_1 =>
    have settled := inv.settled
    rw [hc] at settled
    simpa [AcceptPc.cliFd?] using settled
  case refine_2 =>
    have handled := inv.handled
    rw [ho] at handled
    cases o <;> simpa [AcceptPc.handling?] using handled
  case refine_3 =>
    have closed := inv.closed
    cases o <;> simpa using closed
  case refine_4 =>
    have owned := before.2.left (Serving.step_left hs rfl)
    exact owned.mono rfl rfl (List.Subset.refl _) owned.nodup (List.Subset.refl _)
      (List.Subset.refl _) (Nat.le_refl _) fun _ _ => .refl _

theorem getpeername {ret : Int} (inv : s.Inv os) (h : s.getpeername os t ret = some s') :
    s'.Inv os := by
  unfold Accepting.getpeername at h
  split at h <;> try cases h
  rename_i p cliFd hc
  split at h
  case isTrue => exact inv.settle (by rw [hc]; rfl) (by rw [hc]; rfl) h
  case isFalse =>
    cases h
    have ⟨_, live⟩ := inv.entered p cliFd hc
    refine ⟨{ inv.toSafe with
      handles := fun c hc => ?_
      settled := ?_
      handled := ?_ }, inv.held, ?_, fun _ => inv.busy (by simp [hc]), nofun⟩
    case refine_1 =>
      obtain hc | hc := List.mem_append.mp hc
      case inl => exact inv.handles c hc
      case inr => exact List.mem_singleton.mp hc ▸ live
    case refine_2 =>
      have settled := inv.settled
      simpa [hc, AcceptPc.cliFd?] using settled
    case refine_3 =>
      have handled := inv.handled
      simpa [hc, AcceptPc.handling?] using handled
    case refine_4 =>
      exact inv.owned.mono rfl rfl (List.Subset.refl _) inv.owned.nodup (List.Subset.refl _)
        (List.Subset.refl _) (Nat.le_refl _) fun _ _ => .refl _

theorem acceptHandle {ret : Int} (inv : s.Inv os) (h : s.acceptHandle os t ret = some s') :
    s'.Inv os := by
  unfold Accepting.acceptHandle at h
  split at h <;> try cases h
  rename_i cliFd hc
  refine inv.settle (by rw [hc]; rfl) ?_ h
  rw [hc]
  split <;> rfl

theorem freed {serving : Serving} (inv : s.Inv os) (hi : s.freeing? = some i)
    (h : (s.freeCallback (s.job i).fd (s.job i).param1).serving.step os t .ret = some serving) :
    Inv os { s.freeCallback (s.job i).fd (s.job i).param1 with serving := serving } := by
  obtain ⟨is, hpc, _, listens, hr, asked⟩ := inv.owned.freeing hi
  have close : s.serving.step os t (.close (s.job i).fd) = some (s.closed (s.job i).fd) :=
    closed_step (hpc ▸ rfl)
  rw [inv.owned.freeCallback_eq hi] at h ⊢
  have held : serving.Held os :=
    (inv.held.step (a := .close _) trivial close).step (a := .ret) trivial h
  have hs : serving = (s.closed (s.job i).fd).goto (.freeing is) := by
    simp [Serving.step, closed, hpc] at h
    exact h.symm
  subst hs
  have new : (s.job i).param1 ∉ s.frees.map (·.1) := fun h => by
    obtain ⟨_, deleted⟩ := (inv.gone _).mp h
    cases deleted.symm.trans listens.live
  have idle : s.acceptPc = .outside := by
    by_contra hc
    obtain ⟨_, _, _, hpc'⟩ := inv.busy hc
    cases hpc.symm.trans hpc'
  refine ⟨{ inv.toSafe with
    frees := fun c hc => ?_
    once  := ?_
    asked := fun p hp => ?_
    gone  := fun p => ?_ }, held, inv.owned.freed hpc hr rfl rfl rfl rfl rfl,
    fun hc => absurd idle hc, fun p cliFd hc => by cases idle.symm.trans hc⟩
  case refine_1 =>
    obtain hc | hc := List.mem_append.mp hc
    case inl => exact inv.frees c hc
    case inr =>
      rw [List.mem_singleton.mp hc]
      exact ⟨listens.live, listens.listenFd, listens.valid⟩
  case refine_2 =>
    rw [List.map_append]
    exact inv.once.append (List.nodup_singleton _) (List.disjoint_singleton.mpr new)
  case refine_3 =>
    rw [List.map_append] at hp
    obtain hp | hp := List.mem_append.mp hp
    case inl => exact inv.asked p hp
    case inr => exact List.mem_singleton.mp hp ▸ asked
  case refine_4 =>
    rw [List.map_append, List.mem_append]
    by_cases hp : p = (s.job i).param1
    case pos => simp [hp, listens.lt]
    case neg =>
      have gone := inv.gone p
      simpa [Function.update_of_ne hp, hp] using gone

theorem step (inv : s.Inv os) (ok : Meets e pton s a) (h : s.step e pton os t a = some s') :
    s'.Inv os := by
  cases a
  case serve a =>
    have ⟨may, h⟩ := Option.ite_none_right_eq_some.mp h
    have ⟨serving, hs, h⟩ := Option.map_eq_some_iff.mp h
    exact h ▸ inv.serve ok may hs
  case construct port => exact Option.some.inj h ▸ inv.construct port
  case init p a k =>
    have ⟨⟨may, hp⟩, h⟩ := Option.ite_none_right_eq_some.mp h
    exact Option.some.inj h ▸ inv.init may hp ok.1 ok.2.1 ok.2.2
  case free p k =>
    have ⟨⟨may, hp⟩, h⟩ := Option.ite_none_right_eq_some.mp h
    exact Option.some.inj h ▸ inv.free may hp ok.1
  case getpeername ret  => exact inv.getpeername h
  case acceptHandle ret => exact inv.acceptHandle h
  case freed =>
    have ⟨i, hi, h⟩ := Option.bind_eq_some_iff.mp h
    have ⟨serving, hs, h⟩ := Option.map_eq_some_iff.mp h
    exact h ▸ inv.freed hi hs

end Inv

-- The two callbacks meet the objects that the application has made and that are not deleted, in
-- every run of the worker.
theorem acceptors (h : (accepting e pton os n t).Reach (Meets e pton) s) : s.Safe := by
  have inv : s.Inv os := by
    refine h.invariant ?_ fun _ _ _ inv ok hs => inv.step ok hs
    rintro _ rfl
    exact .start
  exact inv.toSafe

-- Three connections, of which the second one has gone and the third one is refused by an
-- `accept_handle` that stops the object.
theorem acceptors_three :
    let pton : InetPton := ⟨fun _ => none, fun _ => none⟩
    ∃ s, (accepting .little pton .linux 1 0).Reach (Meets .little pton) s ∧
      (s.handled.map (·.1) = [7, 9] ∧
        s.settled = [(7, .taken), (8, .noPeer), (9, .refused)] ∧ s.frees.map (·.1) = [0]) ∧
      s.Safe := by
  intro pton
  have ⟨s, hr, hs⟩ : ∃ s, (accepting .little pton .linux 1 0).Reach (Meets .little pton) s ∧
      s.handled.map (·.1) = [7, 9] ∧
        s.settled = [(7, .taken), (8, .noPeer), (9, .refused)] ∧ s.frees.map (·.1) = [0] :=
    System.Reach.exists_of_run [
        .construct 80,
        .init 0 ⟨some 3, ⟨true, true⟩, true, true⟩ .plain,
        .serve .sweep,
        .serve (.wait [(3, true, false)]),
        .serve (.go .plain),
        .serve (.accept (.conn 7)),
        .getpeername 0,
        .acceptHandle 0,
        .serve (.accept (.conn 8)),
        .getpeername (-1),
        .serve (.accept (.conn 9)),
        .getpeername 0,
        .free 0 .plain,
        .acceptHandle (-1),
        .serve (.accept .wouldBlock),
        .serve (.go .plain),
        .serve (.go .plain),
        .serve .sweep,
        .freed]
      _ rfl (by decide)
  exact ⟨s, hr, hs, acceptors hr⟩

end Accepting
end NetPool
