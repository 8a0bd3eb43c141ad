import NetPool.Lib.System

namespace NetPool

-- A reliable stream from a sender to a receiver: what is under way, what has arrived and waits, and
-- the notice that the receiver gets only when something new has arrived. `sent` and `received` are
-- history. A broken conduit loses what is on it.
structure Conduit (α : Type*) where
  sent     : List α
  flight   : List α
  waiting  : List α
  received : List α
  edge     : Bool
  closed   : Bool
  fin      : Bool
  broken   : Bool

namespace Conduit

variable {α : Type*} {c c' : Conduit α}

-- `notice` is a notice without a reason, and `pick` is the receiver taking up a notice.
inductive Act (α : Type*)
  | put (l : List α)
  | close
  | arrive (n : Nat)
  | finish
  | reset
  | notice
  | pick
  | recv (n : Nat)

def empty : Conduit α :=
  ⟨[], [], [], [], false, false, false, false⟩

def step (c : Conduit α) : Act α → Option (Conduit α)
  | .put l    => if c.closed then none else some { c with
    sent   := c.sent ++ l
    flight := c.flight ++ l }
  | .close    => some { c with closed := true }
  | .arrive n => if c.broken then none else some { c with
    flight  := c.flight.drop n
    waiting := c.waiting ++ c.flight.take n
    edge    := true }
  | .finish   => if c.closed ∧ c.flight = [] ∧ c.broken = false then some { c with
      fin  := true
      edge := true }
    else none
  | .reset    => some { c with
    flight  := []
    waiting := []
    broken  := true
    edge    := true }
  | .notice   => some { c with edge := true }
  | .pick     => if c.edge then some { c with edge := false } else none
  | .recv n   => if c.broken then none else some { c with
    waiting  := c.waiting.drop n
    received := c.received ++ c.waiting.take n }

-- There is nothing that the receiver has not been told of.
def Dry (c : Conduit α) : Prop :=
  c.waiting = [] ∧ c.fin = false ∧ c.broken = false

-- Nothing will come any more.
def Over (c : Conduit α) : Prop :=
  c.broken = true ∨ c.fin = true ∧ c.waiting = []

-- The steps of the sender's end and of the net, without those that put something in.
def Act.quiet : Act α → Bool
  | close | arrive _ | finish | reset | notice => true
  | put _ | pick | recv _                      => false

end Conduit

def conduit (α : Type*) : System (Conduit α) (Conduit.Act α) where
  init c := c = .empty
  step   := Conduit.step

namespace Conduit

variable {α : Type*} {c c' : Conduit α} {a : Act α}

theorem reachable_step (r : (conduit α).Reachable c) (h : c.step a = some c') :
    (conduit α).Reachable c' :=
  .step r trivial h

-- Nothing is lost, doubled or put into another order on a conduit that does not break.
structure Wf (c : Conduit α) : Prop where
  pre    : c.received <+: c.sent
  whole  : c.broken = false → c.received ++ c.waiting ++ c.flight = c.sent
  fin    : c.fin = true → c.closed = true ∧ (c.broken = false → c.flight = [])

theorem Wf.step (wf : c.Wf) (h : c.step a = some c') : c'.Wf := by
  obtain ⟨pre, whole, fin⟩ := wf
  cases a
  case put l =>
    have ⟨hc, h⟩ := Option.ite_none_left_eq_some.mp h
    cases h
    refine ⟨pre.trans (List.prefix_append _ _), fun hb => ?_, fun hf => absurd (fin hf).1 hc⟩
    rw [← whole hb]
    simp
  case arrive n =>
    have ⟨hb, h⟩ := Option.ite_none_left_eq_some.mp h
    cases h
    refine ⟨pre, fun hb => ?_, fun hf => ⟨(fin hf).1, fun hb => ?_⟩⟩
    case refine_1 => simpa using whole hb
    case refine_2 => simp [(fin hf).2 hb]
  case finish =>
    have ⟨⟨hc, hf, hb⟩, h⟩ := Option.ite_none_right_eq_some.mp h
    cases h
    exact ⟨pre, whole, fun _ => ⟨hc, fun _ => hf⟩⟩
  case recv n =>
    have ⟨hb, h⟩ := Option.ite_none_left_eq_some.mp h
    cases h
    have whole := whole (by simpa using hb)
    refine ⟨?_, fun _ => by simpa using whole, fin⟩
    rw [← whole, List.append_assoc, List.prefix_append_right_inj]
    exact (List.take_prefix n c.waiting).trans (List.prefix_append _ _)
  case pick =>
    have ⟨_, h⟩ := Option.ite_none_right_eq_some.mp h
    cases h
    exact ⟨pre, whole, fin⟩
  case reset =>
    cases h
    exact ⟨pre, nofun, fun hf => ⟨(fin hf).1, nofun⟩⟩
  case close =>
    cases h
    exact ⟨pre, whole, fun hf => ⟨rfl, (fin hf).2⟩⟩
  case notice =>
    cases h
    exact ⟨pre, whole, fin⟩

theorem Wf.empty : (empty : Conduit α).Wf :=
  ⟨List.prefix_refl _, fun _ => rfl, nofun⟩

theorem Wf.of_reachable (h : (conduit α).Reachable c) : c.Wf := by
  apply h.invariant
  case h₀ => rintro _ rfl; exact .empty
  case hs => exact fun _ _ _ wf _ hs => wf.step hs

-- What happens on the way to the receiver is noticed, and leaves alone what is sent and received.
structure Quiet (a : Act α) (c c' : Conduit α) : Prop where
  sent     : c'.sent = c.sent
  received : c'.received = c.received
  told     : c'.edge = true ∨ c'.edge = c.edge ∧ (c.Dry → c'.Dry)
  closed   : c'.closed = true → c.closed = true ∨ a = .close
  ended    : c.Over → c'.Over

theorem Wf.quiet (wf : c.Wf) (ha : a.quiet) (h : c.step a = some c') : Quiet a c c' := by
  cases a
  case close =>
    cases h
    exact ⟨rfl, rfl, .inr ⟨rfl, id⟩, fun _ => .inr rfl, id⟩
  case arrive n =>
    have ⟨hb, h⟩ := Option.ite_none_left_eq_some.mp h
    cases h
    refine ⟨rfl, rfl, .inl rfl, .inl, ?_⟩
    rintro (hb' | ⟨hf, hw⟩)
    case inl => exact absurd hb' hb
    case inr => exact .inr ⟨hf, by simp [hw, (wf.fin hf).2 (by simpa using hb)]⟩
  case finish =>
    have ⟨_, h⟩ := Option.ite_none_right_eq_some.mp h
    cases h
    exact ⟨rfl, rfl, .inl rfl, .inl, .imp_right fun ⟨_, hw⟩ => ⟨rfl, hw⟩⟩
  case reset =>
    cases h
    exact ⟨rfl, rfl, .inl rfl, .inl, fun _ => .inl rfl⟩
  case notice =>
    cases h
    exact ⟨rfl, rfl, .inl rfl, .inl, id⟩
  all_goals cases ha

end Conduit
end NetPool
