import NetPool.Recv.Writer

namespace NetPool

variable {node : BufNode} {queue : List BufNode} {news : List Mem} {buf : List UInt8}

-- The room behind the last byte of the queue.
def tailSpareLen (queue : List BufNode) : Nat :=
  match queue.getLast? with
  | some node => node.bufSpareLen
  | none      => 0

-- The loop copies as much as fits into the last node and into the nodes it gets.
theorem fillLoop_copied (news : List Mem) (node : BufNode) (buf : List UInt8) :
    (fillLoop news node buf).copied.length =
        min buf.length (node.bufSpareLen + bufNodeSize * news.length) ∧
      ((fillLoop news node buf).done = true ↔
        buf.length ≤ node.bufSpareLen + bufNodeSize * news.length) := by
  fun_induction fillLoop news node buf
  case case1 => simp
  case case2 node buf _ hl bytes =>
    simp only [bytes, List.length_take, List.length_nil, Nat.mul_zero, Bool.false_eq_true, false_iff]
    omega
  case case3 node buf _ hl bytes m news fill hi =>
    obtain ⟨hc, hd⟩ := hi
    have hs : (BufNode.new m).bufSpareLen = bufNodeSize := rfl
    simp only [List.length_drop, hs] at hc hd
    simp only [bytes, fill, List.length_append, List.length_take, List.length_cons, hc, hd,
      Nat.mul_succ]
    omega
  case case4 node buf _ hl =>
    simp only [true_iff]
    omega

-- What the blocks suffice for.
theorem fillQueue_copied (queue : List BufNode) (news : List Mem) (buf : List UInt8) :
    (fillQueue queue news buf).copied.length =
        min buf.length (tailSpareLen queue + bufNodeSize * news.length) ∧
      ((fillQueue queue news buf).done = true →
        buf.length ≤ tailSpareLen queue + bufNodeSize * news.length) ∧
      ((fillQueue queue news buf).done = false → queue = [] ∧ news = [] ∨
        tailSpareLen queue + bufNodeSize * news.length < buf.length) := by
  cases hl : queue.getLast?
  case some node =>
    have ⟨hc, hd⟩ := fillLoop_copied news node buf
    have hs : tailSpareLen queue = node.bufSpareLen := by simp [tailSpareLen, hl]
    simp only [fillQueue, hl, hs]
    refine ⟨hc, hd.mp, fun hf => .inr ?_⟩
    rw [← Nat.not_le, ← hd]
    simpa using hf
  case none =>
    have hs : tailSpareLen queue = 0 := by simp [tailSpareLen, hl]
    have hq := List.getLast?_eq_none_iff.mp hl
    cases news
    case nil           => simp [fillQueue, hq, tailSpareLen]
    case cons m news =>
      have ⟨hc, hd⟩ := fillLoop_copied news (.new m) buf
      have hm : (BufNode.new m).bufSpareLen = bufNodeSize := rfl
      rw [hm] at hc hd
      simp only [fillQueue, hl, hs, List.length_cons, Nat.mul_succ, Nat.zero_add]
      rw [Nat.add_comm]
      refine ⟨hc, hd.mp, fun hf => .inr ?_⟩
      rw [← Nat.not_le, ← hd]
      simpa using hf

namespace Writer

variable {w : Writer}

-- A `send_data` that runs out of buffers leaves the bytes of the queue as they were, any other
-- appends the whole message to them.
structure WholeOrNothing (w : Writer) (news : List Mem) (buf : List UInt8) : Prop where
  rejected : (fillQueue w.dataQueue news buf).done = false →
    unsentOf (fillQueue w.dataQueue news buf).nodes = unsentOf w.dataQueue
  accepted : (fillQueue w.dataQueue news buf).done = true →
    unsentOf (fillQueue w.dataQueue news buf).nodes = unsentOf w.dataQueue ++ buf

-- There is room for the whole message, or for no byte of it.
def FitsOrFull (w : Writer) (news : List Mem) (buf : List UInt8) : Prop :=
  buf.length ≤ tailSpareLen w.dataQueue + bufNodeSize * news.length ∨
    tailSpareLen w.dataQueue = 0 ∧ news = []

theorem ok_of_reachable (h : writer.Reachable w) : ∀ node ∈ w.dataQueue, node.Ok :=
  fun n hn => (Wf.of_reachable h).ok n <| List.mem_append_right _ hn

theorem WholeOrNothing.fits (h : writer.Reachable w) (whole : w.WholeOrNothing news buf) :
    w.FitsOrFull news buf := by
  have spec := fillQueue_spec news buf (ok_of_reachable h)
  have ⟨hc, ht, _⟩ := fillQueue_copied w.dataQueue news buf
  cases hd : (fillQueue w.dataQueue news buf).done
  case true  => exact .inl <| ht hd
  case false =>
    have hu := spec.unsent.symm.trans (whole.rejected hd)
    have hn : (fillQueue w.dataQueue news buf).copied.length = 0 := by simpa using hu
    rw [hn] at hc
    cases news
    case nil =>
      rw [List.length_nil, Nat.mul_zero] at hc
      by_cases hs : tailSpareLen w.dataQueue = 0
      case pos => exact .inr ⟨hs, rfl⟩
      case neg =>
        have : buf.length ≤ tailSpareLen w.dataQueue := by omega
        exact .inl <| Nat.le_add_right_of_le this
    case cons m news =>
      simp only [List.length_cons, Nat.mul_succ, bufNodeSize] at hc
      exact .inl <| by omega

theorem FitsOrFull.whole (h : writer.Reachable w) (fits : w.FitsOrFull news buf) :
    w.WholeOrNothing news buf := by
  have spec := fillQueue_spec news buf (ok_of_reachable h)
  have ⟨hc, _, hf⟩ := fillQueue_copied w.dataQueue news buf
  constructor
  case accepted => intro hd; rw [spec.unsent, spec.all hd]
  case rejected =>
    intro hd
    have hn : (fillQueue w.dataQueue news buf).copied.length = 0 := by
      obtain ⟨hq, rfl⟩ | hl := hf hd
      case inl => simpa [hq, tailSpareLen] using hc
      case inr =>
        obtain fits | ⟨hs, rfl⟩ := fits
        case inl => omega
        case inr => simpa [hs] using hc
    rw [spec.unsent, List.eq_nil_of_length_eq_zero hn, List.append_nil]

-- The message is copied node by node, and what was copied before `m_new_mem_func` returns NULL
-- stays.
theorem whole_or_nothing_iff (h : writer.Reachable w) :
    w.WholeOrNothing news buf ↔ w.FitsOrFull news buf :=
  ⟨WholeOrNothing.fits h, FitsOrFull.whole h⟩

theorem whole_or_nothing_iff_glued : ∃ w, writer.Reachable w ∧
    w.dataQueue.length = 1 ∧ (w.WholeOrNothing [] [4, 5] ↔ w.FitsOrFull [] [4, 5]) := by
  have ⟨w, hr, hw⟩ : ∃ w, writer.Reachable w ∧ w.dataQueue.length = 1 :=
    System.exists_of_run [.enter [⟨0, fun _ => 0⟩] [1, 2, 3]] _ rfl (by decide)
  exact ⟨w, hr, hw, whole_or_nothing_iff hr⟩

-- A message of 1501 bytes for an empty queue when only one block is left.
theorem not_whole_or_nothing :
    ¬∀ w, writer.Reachable w → w.isAsyncWrite = true → ∀ news buf, w.WholeOrNothing news buf := by
  intro h
  have hr : writer.Reachable Writer.new.initAsyncWriteResource := .init rfl
  have hw := h _ hr rfl [⟨0, fun _ => 0⟩] (List.replicate 1501 0)
  obtain hf | ⟨_, hf⟩ := hw.fits hr
  case inl =>
    rw [List.length_replicate] at hf
    exact absurd hf (by decide)
  case inr => cases hf

end Writer
end NetPool
