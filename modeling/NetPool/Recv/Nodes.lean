import NetPool.Recv.Writer

namespace NetPool
namespace Writer

variable {w w' : Writer}

-- The nodes that are held. After the flush `m_cur_send_node` may point to a freed one.
def held (w : Writer) : List MemId :=
  if w.isAsyncWrite then w.ids else []

theorem held_async (h : w.isAsyncWrite = true) : w.held = w.ids :=
  if_pos h

theorem held_sync (h : w.isAsyncWrite = false) : w.held = [] := by
  simp [held, h]

theorem Effect.owns (h : w.mem.Owns w.held) (e : Effect w w') : w'.mem.Owns w'.held := by
  cases e
  case quiet nodes _ _ mem async _ _ =>
    have he : w'.held = w.held := by simp [held, ids, nodes, async]
    exact mem ▸ he ▸ h
  case fill c taken _ _ ids _ _ _ fresh mem async async' =>
    rw [held_async async] at h
    rw [held_async async', ids, mem]
    exact h.obtain' fresh
  case send n _ ids _ _ mem async async' =>
    rw [held_async async] at h
    rwa [held_async async', ids, mem]
  case release id _ ids _ _ mem async async' =>
    rw [held_async async, ids] at h
    rw [held_async async', mem]
    exact h.release
  case flush _ freed _ _ _ perm mem _ async async' =>
    rw [held_async async] at h
    rw [held_sync async', mem]
    exact (h.of_perm <| by simpa using perm.symm).release

theorem owns (h : writer.Reachable w) : w.mem.Owns w.held := by
  apply h.invariant_with (J := Wf) (fun _ => Wf.of_reachable)
  case h₀ => rintro _ rfl; exact .empty
  case hs => exact fun w a w' wf hi _ hs => (step_effect wf hs).2.owns hi

-- Without the asynchronous mode no node is obtained any more.
theorem Effect.sync (h : w.isAsyncWrite = false) (e : Effect w w') :
    w'.isAsyncWrite = false ∧ w'.mem = w.mem := by
  cases e
  case quiet _ _ _ mem async _ _ => exact ⟨async.trans h, mem⟩
  all_goals simp_all

theorem sync_run {acts : List Act} (wf : w.Wf) (h : w.isAsyncWrite = false)
    (hr : writer.run w acts = some w') : w'.mem = w.mem := by
  have inv : w'.Wf ∧ w'.isAsyncWrite = false ∧ w'.mem = w.mem := by
    refine System.invariant_of_run (I := fun w' => w'.Wf ∧ w'.isAsyncWrite = false ∧ w'.mem = w.mem)
      ?_ ⟨wf, h, rfl⟩ hr
    intro m a m' ⟨wf, h, hm⟩ hs
    have ⟨wf', e⟩ := step_effect wf hs
    have ⟨h', hm'⟩ := e.sync h
    exact ⟨wf', h', hm'.trans hm⟩
  exact inv.2.2

-- The nodes that were obtained and not freed are those of the writer, each once, and none is freed
-- twice. After the flush, which ends the asynchronous mode, there are none, and no more are obtained.
structure NodesKept (w : Writer) : Prop where
  once   : w.mem.released.Nodup
  known  : ∀ a ∈ w.mem.released, a ∈ w.mem.obtained
  before : w.isAsyncWrite = true → ((w.curSendNode.toList ++ w.dataQueue).map (·.id)).Nodup
  exact  : w.isAsyncWrite = true → ∀ a, a ∈ (w.curSendNode.toList ++ w.dataQueue).map (·.id) ↔
    a ∈ w.mem.obtained ∧ a ∉ w.mem.released
  freed  : w.pc = .freed → w.isAsyncWrite = false
  after  : w.isAsyncWrite = false → ∀ a ∈ w.mem.obtained, a ∈ w.mem.released
  final  : w.isAsyncWrite = false → ∀ acts w', writer.run w acts = some w' →
    w'.mem.obtained = w.mem.obtained

theorem nodes_kept (h : writer.Reachable w) : w.NodesKept := by
  have o := owns h
  constructor
  case once   => exact o.released_nodup
  case known  => exact fun a ha => o.perm.mem_iff.mpr <| List.mem_append_left _ ha
  case before =>
    intro ha
    rw [held_async ha] at o
    exact o.held_nodup
  case exact  =>
    intro ha a
    rw [held_async ha] at o
    exact o.mem_held_iff
  case freed  => exact (Wf.of_reachable h).freed.mp
  case after  =>
    intro ha a hm
    by_contra hr
    have := o.mem_held_iff.mpr ⟨hm, hr⟩
    simp [held_sync ha] at this
  case final  =>
    intro ha acts w' hr
    rw [sync_run (Wf.of_reachable h) ha hr]

-- One node is freed when it is sent, one after a failed write, and one with what was left in the
-- queue.
theorem nodes_kept_flushed : ∃ w, writer.Reachable w ∧ w.NodesKept ∧ w.isAsyncWrite = false ∧
    w.mem.obtained = [0, 1] ∧ w.mem.released = [0, 1] := by
  have ⟨w, hr, hw⟩ : ∃ w, writer.Reachable w ∧ w.isAsyncWrite = false ∧
      w.mem.obtained = [0, 1] ∧ w.mem.released = [0, 1] :=
    System.exists_of_run [.enter [⟨0, fun _ => 0⟩] [1, 2], .start, .deq, .send (.sent 2), .finish,
      .enter [⟨1, fun _ => 0⟩] [3], .deq, .send .error, .free []] _ rfl (by decide)
  exact ⟨w, hr, nodes_kept hr, hw⟩

end Writer
end NetPool
