import NetPool.Lib.Pipe
import NetPool.Recv.Writer

namespace NetPool
namespace Writer

variable {w w' : Writer}

-- The bytes of a writer as a pipe to the socket. `free_async_write_resource` cuts it.
def pipe (w : Writer) : Pipe UInt8 where
  accepted := w.accepted
  given    := w.wire
  waiting  := if w.isAsyncWrite then unsentOf w.nodes else []
  cut      := !w.isAsyncWrite

theorem Effect.pipe (e : Effect w w') :
    ∃ acts, (NetPool.pipe UInt8).run w.pipe acts = some w'.pipe := by
  cases e
  case quiet nodes entered wire _ async _ _ =>
    exact ⟨[], by simp [Writer.pipe, accepted, nodes, entered, wire, async]⟩
  case fill c _ entered unsent _ _ _ wire _ _ async async' =>
    refine ⟨[.put c.copied], ?_⟩
    simp [NetPool.pipe, Pipe.step, Writer.pipe, accepted, entered, unsent, wire, async, async']
  case send n unsent _ wire entered _ async async' =>
    refine ⟨[.give n], ?_⟩
    simp [NetPool.pipe, Pipe.step, Writer.pipe, accepted, entered, unsent, wire, async, async']
  case release _ unsent _ wire entered _ async async' =>
    exact ⟨[], by simp [Writer.pipe, accepted, unsent, entered, wire, async, async']⟩
  case flush sent _ wire pre _ _ _ entered async async' =>
    refine ⟨[.give sent.length, .cut], ?_⟩
    have ht := List.prefix_iff_eq_take.mp pre
    simp [NetPool.pipe, Pipe.step, Writer.pipe, accepted, entered, wire, async, async', ← ht]

theorem pipe_reachable (h : writer.Reachable w) : (NetPool.pipe UInt8).Reachable w.pipe := by
  apply h.simulation (I := Wf)
  case inv  => exact fun _ => Wf.of_reachable
  case init => rintro _ rfl; rfl
  case step => exact fun _ _ _ wf hs => (step_effect wf hs).2.pipe

-- The writes of a flush give each node to the socket as a whole.
def Written : List BufNode → List (List Round) → Prop
  | [],            _      => True
  | node :: queue, rounds =>
    (sockWriteTimeout (rounds.headD []) node.unsent).1 = node.unsent ∧ Written queue rounds.tail

theorem drain_failed_iff (nodes : List BufNode) (rounds : List (List Round)) :
    (drain nodes rounds).failed = true ↔ ¬Written nodes rounds := by
  fun_induction drain nodes rounds
  case case1 => simp [Written]
  case case2 node queue rounds sent ret he hr =>
    have hs := (sockWriteTimeout_spec (rounds.headD []) node.unsent).2
    rw [he] at hs
    have cut : sent ≠ node.unsent := fun h => hr (by simpa using (hs.mpr h).symm)
    rw [Written, he]
    simp [cut]
  case case3 node queue rounds sent ret he hr d hi =>
    have hs := (sockWriteTimeout_spec (rounds.headD []) node.unsent).2
    rw [he] at hs
    have all : sent = node.unsent := hs.mp (by simpa using (Decidable.not_not.mp hr).symm)
    rw [Written, he]
    simpa [all] using hi

-- Before the flush all bytes are in one of three places, in their order. The flush loses bytes only
-- when a write fails: one of the worker before it, or one of its own.
structure InOrder (w : Writer) : Prop where
  copied : ∀ c ∈ w.entered, c.copied <+: c.buf ∧ (c.done = true → c.copied = c.buf)
  before : w.isAsyncWrite = true →
    w.wire ++ unsentOf w.curSendNode.toList ++ unsentOf w.dataQueue = w.accepted ∧ w.direct = []
  freed  : w.pc = .freed → w.isAsyncWrite = false
  after  : w.isAsyncWrite = false → w.wire <+: w.accepted ∧
    (w.isWriteFailed = false → w.flushFailed = false → w.wire = w.accepted)
  flush  : ∀ rounds w', w.step (.free rounds) = some w' → w'.isWriteFailed = w.isWriteFailed ∧
    (w'.flushFailed = true ↔ w.isWriteFailed = false ∧ ¬Written w.nodes rounds)
  nodes  : ∀ node ∈ w.curSendNode.toList ++ w.dataQueue,
    node.consumePos ≤ node.producePos ∧ node.producePos ≤ 1500

theorem copied_of_reachable (h : writer.Reachable w) :
    ∀ c ∈ w.entered, c.copied <+: c.buf ∧ (c.done = true → c.copied = c.buf) := by
  apply h.invariant_with (J := Wf) (fun _ => Wf.of_reachable)
  case h₀ => rintro _ rfl; exact nofun
  case hs =>
    intro w a w' wf hi _ hs
    cases (step_effect wf hs).2
    case fill c _ entered _ _ pre all _ _ _ _ _ =>
      rw [entered, List.forall_mem_append]
      exact ⟨hi, by simpa using ⟨pre, all⟩⟩
    all_goals simp_all

-- What the flush writes is all there is, unless a write fails.
theorem complete_of_reachable (h : writer.Reachable w) : w.isAsyncWrite = false →
    w.isWriteFailed = false → w.flushFailed = false → w.wire = w.accepted := by
  apply h.invariant_with (J := fun w => w.Wf ∧ (w.isAsyncWrite = true →
    w.wire ++ unsentOf w.nodes = w.accepted))
  case hJ =>
    intro w h
    refine ⟨Wf.of_reachable h, fun ha => ?_⟩
    have ⟨_, he⟩ := Pipe.given_waiting_prefix (pipe_reachable h)
    simpa [pipe, ha] using he
  case h₀ => rintro _ rfl; exact nofun
  case hs =>
    intro w a w' ⟨wf, hw⟩ hi _ hs ha hf hl
    cases (step_effect wf hs).2
    case quiet nodes entered wire _ async flush write =>
      have hf : w.isWriteFailed = false := by
        rw [← Bool.not_eq_true]
        exact fun h => by simp [write h] at hf
      simpa [accepted, wire, entered] using hi (async ▸ ha) hf (flush ▸ hl)
    case flush wire _ all _ _ entered async _ =>
      rw [wire, all hf hl, hw async]
      simp [accepted, entered]
    all_goals simp_all

theorem free_flushFailed {rounds : List (List Round)} (wf : w.Wf)
    (h : w.step (.free rounds) = some w') : w'.isWriteFailed = w.isWriteFailed ∧
      (w'.flushFailed = true ↔ w.isWriteFailed = false ∧ ¬Written w.nodes rounds) := by
  have ⟨hp, h⟩ := Option.ite_none_right_eq_some.mp h
  have ha : w.isAsyncWrite = true := by
    rw [← Bool.not_eq_false]
    exact fun ha => by simp [wf.freed.mpr ha] at hp
  cases h
  cases hw : w.isWriteFailed <;> simp [freeAsyncWriteResource, ha, hw, drain_failed_iff]

theorem bytes_in_order (h : writer.Reachable w) : w.InOrder where
  copied := copied_of_reachable h
  before := by
    intro ha
    have ⟨_, he⟩ := Pipe.given_waiting_prefix (pipe_reachable h)
    have he : w.wire ++ unsentOf w.nodes = w.accepted := by simpa [pipe, ha] using he
    exact ⟨by simpa [nodes] using he, ((Wf.of_reachable h).direct ha).1⟩
  after  := by
    intro ha
    have ⟨hp, _⟩ := Pipe.given_waiting_prefix (pipe_reachable h)
    exact ⟨by simpa [pipe, ha] using hp, complete_of_reachable h ha⟩
  freed  := (Wf.of_reachable h).freed.mp
  flush  := fun _ _ hs => free_flushFailed (Wf.of_reachable h) hs
  nodes  := fun node hm => have ok := (Wf.of_reachable h).ok node hm; ⟨ok.consume_le, ok.produce_le⟩

-- A message that is sent in part, one that is glued to the next node meanwhile, and a flush.
theorem bytes_in_order_flushed : ∃ w, writer.Reachable w ∧ w.InOrder ∧ w.isAsyncWrite = false ∧
    w.wire = [1, 2, 3, 4, 5, 6] := by
  have ⟨w, hr, ha, hw⟩ : ∃ w, writer.Reachable w ∧ w.isAsyncWrite = false ∧
      w.wire = [1, 2, 3, 4, 5, 6] :=
    System.exists_of_run [.enter [⟨0, fun _ => 0⟩] [1, 2, 3], .start, .deq, .send (.sent 2),
      .enter [⟨1, fun _ => 0⟩] [4, 5], .send .again, .finish, .register, .enter [] [6],
      .free [[.sent 1], [.sent 1, .sent 2]]] _ rfl (by decide)
  exact ⟨w, hr, bytes_in_order hr, ha, hw⟩

end Writer
end NetPool
