import NetPool.Lib.Ledger

namespace NetPool

def bufNodeSize : Nat :=
  1500

-- Each block that `m_new_mem_func` returns counts as a block of its own, also where an allocator
-- would use the memory of a freed one again.
abbrev MemId := Nat

-- A block that `m_new_mem_func` has returned, with whatever it contains.
structure Mem where
  id   : MemId
  data : Nat → UInt8

-- `buf_node_t`; the link to the next node is left to the list that the node is in.
structure BufNode where
  id         : MemId
  consumePos : Nat
  producePos : Nat
  data       : Nat → UInt8

namespace BufNode

variable {node : BufNode} {bytes : List UInt8} {n : Nat}

def new (m : Mem) : BufNode where
  id         := m.id
  consumePos := 0
  producePos := 0
  data       := m.data

-- The room behind the last byte: `BUF_NODE_SIZE - produce_pos`.
def bufSpareLen (node : BufNode) : Nat :=
  bufNodeSize - node.producePos

-- What is still to be sent: `produce_pos - consume_pos`.
def spareLen (node : BufNode) : Nat :=
  node.producePos - node.consumePos

-- `memcpy` to the end of the data, and `produce_pos` moved behind it.
def write (node : BufNode) (bytes : List UInt8) : BufNode :=
  { node with
    producePos := node.producePos + bytes.length
    data i     := if i < node.producePos then node.data i
      else bytes[i - node.producePos]?.getD (node.data i) }

def consume (node : BufNode) (n : Nat) : BufNode :=
  { node with consumePos := node.consumePos + n }

def unsent (node : BufNode) : List UInt8 :=
  (List.range' node.consumePos node.spareLen).map node.data

-- The two positions stay inside the block and in order.
structure Ok (node : BufNode) : Prop where
  consume_le : node.consumePos ≤ node.producePos
  produce_le : node.producePos ≤ bufNodeSize

theorem Ok.new {m : Mem} : (BufNode.new m).Ok :=
  ⟨Nat.le_refl _, Nat.zero_le _⟩

theorem Ok.write (h : node.Ok) (hb : bytes.length ≤ node.bufSpareLen) : (node.write bytes).Ok where
  consume_le := Nat.le_add_right_of_le h.consume_le
  produce_le := by
    have := h.produce_le
    simp only [bufSpareLen, BufNode.write] at *
    omega

theorem Ok.consume (h : node.Ok) (hn : n ≤ node.spareLen) : (node.consume n).Ok where
  consume_le := by
    have := h.consume_le
    simp only [spareLen, BufNode.consume] at *
    omega
  produce_le := h.produce_le

@[simp] theorem write_id : (node.write bytes).id = node.id := rfl
@[simp] theorem consume_id : (node.consume n).id = node.id := rfl
@[simp] theorem new_id {m : Mem} : (new m).id = m.id := rfl

@[simp]
theorem unsent_length : node.unsent.length = node.spareLen := by
  simp [unsent]

@[simp]
theorem unsent_new {m : Mem} : (new m).unsent = [] :=
  rfl

theorem unsent_eq_nil (h : node.spareLen = 0) : node.unsent = [] := by
  simp [unsent, h]

-- The old bytes are still there, and the new ones follow them.
theorem unsent_write (h : node.Ok) : (node.write bytes).unsent = node.unsent ++ bytes := by
  have hc := h.consume_le
  have hlen : (node.write bytes).spareLen = node.spareLen + bytes.length := by
    simp only [spareLen, write]
    omega
  apply List.ext_getElem
  case hl => simp [hlen]
  case h  =>
    intro i h₁ h₂
    simp only [unsent_length, hlen] at h₁
    by_cases hi : i < node.spareLen
    case pos =>
      have : node.consumePos + i < node.producePos := by simp only [spareLen] at hi; omega
      simp [unsent, write, hi, this]
    case neg =>
      have hn : ¬node.consumePos + i < node.producePos := by simp only [spareLen] at hi; omega
      have hs : node.consumePos + i - node.producePos = i - node.spareLen := by
        simp only [spareLen]
        omega
      have hb : i - node.spareLen < bytes.length := by omega
      simp [unsent, write, List.getElem_append, hi, hn, hs, hb]

theorem unsent_consume : (node.consume n).unsent = node.unsent.drop n := by
  simp only [unsent, consume, spareLen, ← List.map_drop, List.drop_range', Nat.sub_add_eq,
    Nat.mul_one]

end BufNode

-- One `send_data` in asynchronous mode: the buffer it was given, what it has copied of it, and
-- whether it has copied all of it or run out of memory.
structure Copy where
  buf    : List UInt8
  copied : List UInt8
  done   : Bool

-- The nodes that the filled ones have become, and the blocks that were taken for them.
structure Fill where
  nodes  : List BufNode
  taken  : List MemId
  copied : List UInt8
  done   : Bool

-- The loop of `send_data`: `node` is the last one of the queue and `buf` what is left to copy. The
-- blocks `news` are what `m_new_mem_func` returns until it returns NULL.
def fillLoop : List Mem → BufNode → List UInt8 → Fill
  | news, node, buf =>
    if buf = [] then ⟨[node], [], [], true⟩
    else if buf.length > node.bufSpareLen then
      let bytes := buf.take node.bufSpareLen
      match news with
      | []        => ⟨[node.write bytes], [], bytes, false⟩
      | m :: news =>
        let fill := fillLoop news (.new m) (buf.drop node.bufSpareLen)
        ⟨node.write bytes :: fill.nodes, m.id :: fill.taken, bytes ++ fill.copied, fill.done⟩
    else ⟨[node.write buf], [], buf, true⟩

-- The section of `send_data` under the lock of the queue, in asynchronous mode.
def fillQueue (queue : List BufNode) (news : List Mem) (buf : List UInt8) : Fill :=
  match queue.getLast? with
  | some node =>
    let fill := fillLoop news node buf
    { fill with nodes := queue.dropLast ++ fill.nodes }
  | none =>
    match news with
    | []        => ⟨[], [], [], false⟩
    | m :: news =>
      let fill := fillLoop news (.new m) buf
      { fill with taken := m.id :: fill.taken }

abbrev unsentOf (nodes : List BufNode) : List UInt8 :=
  nodes.flatMap (·.unsent)

-- What filling does to nodes that hold `old`, for a buffer `buf`.
structure Fill.Spec (fill : Fill) (old : List BufNode) (buf : List UInt8) : Prop where
  unsent : unsentOf fill.nodes = unsentOf old ++ fill.copied
  ids    : fill.nodes.map (·.id) = old.map (·.id) ++ fill.taken
  ok     : (∀ node ∈ old, node.Ok) → ∀ node ∈ fill.nodes, node.Ok
  pre    : fill.copied <+: buf
  all    : fill.done = true → fill.copied = buf

variable {node : BufNode} {queue : List BufNode}

theorem fillLoop_spec (news : List Mem) (buf : List UInt8) (h : node.Ok) :
    (fillLoop news node buf).Spec [node] buf := by
  fun_induction fillLoop news node buf
  case case1 node => exact ⟨by simp, rfl, id, List.prefix_refl _, fun _ => rfl⟩
  case case2 node buf _ hl bytes =>
    have ok : (node.write (buf.take node.bufSpareLen)).Ok := h.write (by simp)
    exact ⟨by simp [BufNode.unsent_write h, bytes], rfl, by simp [ok, bytes],
      List.take_prefix _ _, nofun⟩
  case case3 node buf _ hl bytes m news fill hi =>
    have ok : (node.write (buf.take node.bufSpareLen)).Ok := h.write (by simp)
    have rest := hi BufNode.Ok.new
    have hall := List.take_append_drop node.bufSpareLen buf
    constructor
    case unsent => simpa [BufNode.unsent_write h, bytes, fill] using rest.unsent
    case ids    => simpa using rest.ids
    case ok     =>
      intro _
      simpa [ok, bytes] using rest.ok (by simp [BufNode.Ok.new])
    case pre    =>
      have := (List.prefix_append_right_inj (buf.take node.bufSpareLen)).mpr rest.pre
      rwa [hall] at this
    case all    =>
      intro hd
      exact (congrArg (_ ++ ·) <| rest.all hd).trans hall
  case case4 node buf _ hl =>
    have ok := h.write (Nat.le_of_not_lt hl)
    exact ⟨by simp [BufNode.unsent_write h], rfl, by simp [ok], List.prefix_refl _, fun _ => rfl⟩

theorem fillQueue_spec (news : List Mem) (buf : List UInt8) (h : ∀ node ∈ queue, node.Ok) :
    (fillQueue queue news buf).Spec queue buf := by
  unfold fillQueue
  split
  case h_1 node hl =>
    have ⟨front, hq⟩ := List.getLast?_eq_some_iff.mp hl
    subst hq
    have hn := h node (by simp)
    have spec := fillLoop_spec news buf hn
    constructor
    case unsent => simpa [List.append_assoc] using spec.unsent
    case ids    => simpa [List.append_assoc] using spec.ids
    case ok     =>
      intro ho n hm
      have hm := List.mem_append.mp hm
      rw [List.dropLast_concat] at hm
      exact hm.elim (fun hm => ho n (List.mem_append_left _ hm)) <| spec.ok (by simpa using hn) n
    case pre    => exact spec.pre
    case all    => exact spec.all
  case h_2 hl =>
    have hq := List.getLast?_eq_none_iff.mp hl
    subst hq
    split
    case h_1 => exact ⟨rfl, rfl, id, List.nil_prefix, nofun⟩
    case h_2 m news =>
      have spec := fillLoop_spec news buf (BufNode.Ok.new (m := m))
      constructor
      case unsent => simpa using spec.unsent
      case ids    => simpa using spec.ids
      case ok     => exact fun _ => spec.ok (by simp [BufNode.Ok.new])
      case pre    => exact spec.pre
      case all    => exact spec.all

end NetPool
