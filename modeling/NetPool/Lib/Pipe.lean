import NetPool.Lib.System

namespace NetPool

-- A stream between a writer and a reader: what has been put in, what has been given out, and what
-- waits in between. A pipe that is cut gives up what waits, and takes nothing more.
structure Pipe (α : Type*) where
  accepted : List α
  given    : List α
  waiting  : List α
  cut      : Bool

namespace Pipe

variable {α : Type*} {p p' : Pipe α}

inductive Act (α : Type*)
  | put (l : List α)
  | give (n : Nat)
  | cut

def empty : Pipe α :=
  ⟨[], [], [], false⟩

def step (p : Pipe α) : Act α → Option (Pipe α)
  | .put l  => if p.cut then none else some { p with
      accepted := p.accepted ++ l
      waiting  := p.waiting ++ l }
  | .give n => some { p with
      given   := p.given ++ p.waiting.take n
      waiting := p.waiting.drop n }
  | .cut    => some { p with
      waiting := []
      cut     := true }

end Pipe

def pipe (α : Type*) : System (Pipe α) (Pipe.Act α) where
  init p := p = .empty
  step   := Pipe.step

namespace Pipe

variable {α : Type*} {p p' : Pipe α}

-- What is given out and what waits come from the front of what was accepted, in its order.
theorem given_waiting_prefix (h : (pipe α).Reachable p) :
    p.given ++ p.waiting <+: p.accepted ∧ (p.cut = false → p.given ++ p.waiting = p.accepted) := by
  refine h.invariant (I := fun p => p.given ++ p.waiting <+: p.accepted ∧
    (p.cut = false → p.given ++ p.waiting = p.accepted)) ?_ ?_
  case refine_1 =>
    rintro _ rfl
    exact ⟨List.prefix_refl _, fun _ => rfl⟩
  case refine_2 =>
    intro p a p' ⟨hp, he⟩ _ hs
    cases a
    case put l =>
      have ⟨hc, hs⟩ := Option.ite_none_left_eq_some.mp hs
      cases hs
      have he := he (by simpa using hc)
      simp [← he, List.append_assoc]
    case give n =>
      cases hs
      simpa [List.append_assoc] using And.intro hp he
    case cut =>
      cases hs
      refine ⟨?_, nofun⟩
      simpa using (List.prefix_append _ _).trans hp

end Pipe
end NetPool
