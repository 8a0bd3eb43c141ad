import Mathlib

namespace NetPool

-- What a loop does with an answer of the source that it asks: it asks again, it leaves, or it hands
-- something to its client and then asks again or leaves.
inductive Verdict (β : Type*)
  | again
  | stop
  | hand (b : β)
  | last (b : β)

namespace Verdict

variable {β γ : Type*} {v : Verdict β}

def call? : Verdict β → Option β
  | again | stop    => none
  | hand b | last b => some b

def goesOn : Verdict β → Bool
  | again | hand _ => true
  | stop | last _  => false

@[simp] theorem call?_again : (again : Verdict β).call? = none := rfl
@[simp] theorem call?_stop : (stop : Verdict β).call? = none := rfl
@[simp] theorem call?_hand {b : β} : (hand b).call? = some b := rfl
@[simp] theorem call?_last {b : β} : (last b).call? = some b := rfl
@[simp] theorem goesOn_again : (again : Verdict β).goesOn = true := rfl
@[simp] theorem goesOn_stop : (stop : Verdict β).goesOn = false := rfl
@[simp] theorem goesOn_hand {b : β} : (hand b).goesOn = true := rfl
@[simp] theorem goesOn_last {b : β} : (last b).goesOn = false := rfl

end Verdict

-- How a loop was left: by its own test, or by the last answer without or with a call.
inductive Exit
  | halted
  | stopped
  | handed
  deriving DecidableEq

-- What a loop has done: its calls, the answers it has taken, each with the state in which it has
-- asked for it, the state at the end, and how it was left, if it was.
structure Pumped (σ α β : Type*) where
  calls : List β
  taken : List (σ × α)
  final : σ
  exit  : Option Exit

section Pump

variable {σ α β : Type*}

-- The loop. An answer comes with what the client does to the state if the answer is handed to it.
def pump (halted : σ → Bool) (judge : σ → α → Verdict β) : σ → List (α × (σ → σ)) → Pumped σ α β
  | s, answers =>
    if halted s then ⟨[], [], s, some .halted⟩
    else match answers with
      | []                => ⟨[], [], s, none⟩
      | (a, f) :: answers =>
        match judge s a with
        | .again  =>
          let p := pump halted judge s answers
          { p with taken := (s, a) :: p.taken }
        | .stop   => ⟨[], [(s, a)], s, some .stopped⟩
        | .hand b =>
          let p := pump halted judge (f s) answers
          { p with calls := b :: p.calls, taken := (s, a) :: p.taken }
        | .last b => ⟨[b], [(s, a)], f s, some .handed⟩

namespace Pumped

variable (halted : σ → Bool) (judge : σ → α → Verdict β)

-- The loop was left for the reason `e`.
def LeftBy (s : σ) (answers : List (α × (σ → σ))) (p : Pumped σ α β) : Option Exit → Prop
  | none          => (∀ t ∈ p.taken, (judge t.1 t.2).goesOn) ∧ p.taken.length = answers.length
  | some .halted  => halted p.final = true ∧ (p.taken = [] ∧ p.final = s ∨
    ∃ t ∈ p.taken.getLast?, ∃ b, judge t.1 t.2 = .hand b)
  | some .stopped => ∃ t ∈ p.taken.getLast?, judge t.1 t.2 = .stop
  | some .handed  => ∃ t ∈ p.taken.getLast?, ∃ b, judge t.1 t.2 = .last b

structure Spec (s : σ) (answers : List (α × (σ → σ))) (p : Pumped σ α β) : Prop where
  calls  : p.calls = p.taken.filterMap fun t => (judge t.1 t.2).call?
  pre    : p.taken.map (·.2) <+: answers.map (·.1)
  live   : ∀ t ∈ p.taken, halted t.1 = false
  goesOn : ∀ t ∈ p.taken.dropLast, (judge t.1 t.2).goesOn
  left   : p.LeftBy halted judge s answers p.exit

variable {halted judge} {s s' : σ} {a : α} {f : σ → σ} {answers : List (α × (σ → σ))}
  {p : Pumped σ α β}

theorem getLast?_cons_of_mem {t u : σ × α} {ts : List (σ × α)} (h : t ∈ ts.getLast?) :
    t ∈ (u :: ts).getLast? := by
  rw [List.getLast?_cons, Option.mem_def.mp h]
  rfl

-- An answer after which the loop goes on in `s'`, in front of what it does from there.
theorem Spec.cons (spec : p.Spec halted judge s' answers) (live : halted s = false)
    (next : judge s a = .again ∧ s' = s ∨ ∃ b, judge s a = .hand b) :
    Spec halted judge s ((a, f) :: answers)
      ⟨(judge s a).call?.toList ++ p.calls, (s, a) :: p.taken, p.final, p.exit⟩ := by
  have hg : (judge s a).goesOn := by
    obtain ⟨h, _⟩ | ⟨_, h⟩ := next <;> simp [h]
  constructor
  case calls  => rw [List.filterMap_cons]; cases h : (judge s a).call? <;> simp [spec.calls]
  case pre    => simpa using spec.pre
  case live   => exact List.forall_mem_cons.mpr ⟨live, spec.live⟩
  case goesOn =>
    intro t ht
    cases h : p.taken
    case nil       => simp [h] at ht
    case cons u us =>
      simp only [h, List.dropLast_cons_cons, List.mem_cons] at ht
      obtain rfl | ht := ht
      case inl => exact hg
      case inr => exact spec.goesOn t (h ▸ ht)
  case left   =>
    have left := spec.left
    cases he : p.exit <;> rw [he] at left
    case none => exact ⟨List.forall_mem_cons.mpr ⟨hg, left.1⟩, by simp [left.2]⟩
    case some e =>
      cases e
      case halted =>
        obtain ⟨hf, ⟨hn, hs⟩ | ⟨t, ht, hb⟩⟩ := left
        case inr => exact ⟨hf, .inr ⟨t, getLast?_cons_of_mem ht, hb⟩⟩
        case inl =>
          obtain ⟨_, rfl⟩ | hb := next
          case inl => rw [← hs, hf] at live; cases live
          case inr => exact ⟨hf, .inr ⟨(s, a), by simp [hn], hb⟩⟩
      case stopped =>
        have ⟨t, ht, h⟩ := left
        exact ⟨t, getLast?_cons_of_mem ht, h⟩
      case handed =>
        have ⟨t, ht, h⟩ := left
        exact ⟨t, getLast?_cons_of_mem ht, h⟩

end Pumped

variable {halted : σ → Bool} {judge : σ → α → Verdict β}

open Pumped in
theorem pump_spec (s : σ) (answers : List (α × (σ → σ))) :
    (pump halted judge s answers).Spec halted judge s answers := by
  fun_induction pump halted judge s answers
  case case1 s answers hh => exact ⟨rfl, List.nil_prefix, nofun, nofun, hh, .inl ⟨rfl, rfl⟩⟩
  case case2 s hh         => exact ⟨rfl, List.nil_prefix, nofun, nofun, nofun, rfl⟩
  case case3 s hh a f answers hj p spec =>
    have := spec.cons (f := f) (by simpa using hh) (.inl ⟨hj, rfl⟩)
    simpa [hj] using this
  case case4 s hh a f answers hj =>
    exact ⟨by simp [hj], by simp, by simpa using hh, nofun, ⟨_, rfl, hj⟩⟩
  case case5 s hh a f answers b hj p spec =>
    have := spec.cons (f := f) (by simpa using hh) (.inr ⟨b, hj⟩)
    simpa [hj] using this
  case case6 s hh a f answers b hj =>
    exact ⟨by simp [hj], by simp, by simpa using hh, nofun, ⟨_, rfl, b, hj⟩⟩

namespace Pumped

variable {s : σ} {answers : List (α × (σ → σ))} {p : Pumped σ α β}

-- The answers that the source has given.
def received (p : Pumped σ α β) : List α :=
  p.taken.map (·.2)

theorem Spec.getLast? (spec : p.Spec halted judge s answers) {t : σ × α} (ht : t ∈ p.taken)
    (h : (judge t.1 t.2).goesOn = false) : t ∈ p.taken.getLast? := by
  have hn := List.ne_nil_of_mem ht
  rw [← List.dropLast_append_getLast hn] at ht
  obtain ht | ht := List.mem_append.mp ht
  case inl => rw [spec.goesOn t ht] at h; cases h
  case inr => rw [List.getLast?_eq_some_getLast hn, List.mem_singleton.mp ht]; rfl

-- An answer that ends the loop with a call is the last one, and the call is the last action.
theorem Spec.handed (spec : p.Spec halted judge s answers) {t : σ × α} {b : β} (ht : t ∈ p.taken)
    (h : judge t.1 t.2 = .last b) : p.exit = some .handed := by
  have hl : p.taken.getLast? = some t := spec.getLast? ht (by simp [h])
  have left := spec.left
  cases he : p.exit <;> rw [he] at left
  case none => have := left.1 t ht; simp [h] at this
  case some e =>
    cases e
    case handed  => rfl
    case stopped => obtain ⟨u, hu, hs⟩ := left; cases hl.symm.trans hu; simp [h] at hs
    case halted  =>
      obtain ⟨_, ⟨hn, _⟩ | ⟨u, hu, _, hs⟩⟩ := left
      case inl => simp [hn] at ht
      case inr => cases hl.symm.trans hu; simp [h] at hs

theorem Spec.exists_last (spec : p.Spec halted judge s answers) (he : p.exit.isSome)
    (hh : p.exit ≠ some .halted) : ∃ t, p.taken.getLast? = some t := by
  have left := spec.left
  cases hx : p.exit <;> rw [hx] at left he
  case none => cases he
  case some e =>
    cases e
    case halted  => exact absurd hx hh
    case stopped => obtain ⟨t, ht, _⟩ := left; exact ⟨t, ht⟩
    case handed  => obtain ⟨t, ht, _⟩ := left; exact ⟨t, ht⟩

-- A loop whose client never halts it is left by the first answer that ends it.
theorem Spec.find? {g : α → Bool} (spec : p.Spec halted judge s answers)
    (hg : ∀ s a, (judge s a).goesOn = g a) (hh : p.exit ≠ some .halted) :
    (answers.map (·.1)).find? (!g ·) = if p.exit.isSome then p.received.getLast? else none := by
  have ⟨rest, hr⟩ := spec.pre
  have left := spec.left
  have on : ∀ t ∈ p.taken, (judge t.1 t.2).goesOn → g t.2 = true := fun t _ h => hg t.1 t.2 ▸ h
  cases he : p.exit <;> rw [he] at left
  case none =>
    have hn : rest = [] := by
      have := congrArg List.length hr
      simp only [List.length_append, List.length_map, left.2] at this
      exact List.eq_nil_of_length_eq_zero (by omega)
    rw [← hr, hn, List.append_nil]
    simpa using fun s a ht => on (s, a) ht (left.1 _ ht)
  case some e =>
    have ⟨t, ht, hn⟩ : ∃ t ∈ p.taken.getLast?, g t.2 = false := by
      cases e
      case halted  => exact absurd he hh
      case stopped => obtain ⟨t, ht, h⟩ := left; exact ⟨t, ht, by simp [← hg t.1, h]⟩
      case handed  => obtain ⟨t, ht, _, h⟩ := left; exact ⟨t, ht, by simp [← hg t.1, h]⟩
    have ⟨ts, hts⟩ := List.getLast?_eq_some_iff.mp ht
    have goesOn := spec.goesOn
    rw [hts, List.dropLast_concat] at goesOn
    have hf : (ts.map (·.2)).find? (!g ·) = none := by
      simpa using fun s a ht => hg s a ▸ goesOn (s, a) ht
    rw [← hr, received, hts]
    simp [hf, hn]

theorem pump_not_halted (hk : ∀ a ∈ answers, ∀ s, halted (a.2 s) = halted s) (live : halted s = false) :
    (pump halted judge s answers).exit ≠ some .halted := by
  fun_induction pump halted judge s answers
  case case1 hh               => simp [hh] at live
  case case3 a f _ _ _ hi     => exact hi (fun _ h => hk _ <| List.mem_cons_of_mem _ h) live
  case case5 s _ a f _ _ _ _ hi =>
    have hf : halted (f s) = halted s := hk (a, f) List.mem_cons_self s
    exact hi (fun _ h => hk _ <| List.mem_cons_of_mem _ h) (hf.trans live)
  all_goals simp

end Pumped
end Pump
end NetPool
