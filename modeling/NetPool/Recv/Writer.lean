import NetPool.Lib.System
import NetPool.Recv.Buffer

namespace NetPool

-- One round of the loop of `sock_write_timeout`: `sock_writeable` does not return 1, `send` fails,
-- or `send` takes some bytes. The test for the errors after which the loop should go on never
-- holds.
inductive Round
  | notReady
  | error
  | sent (n : Nat)

-- The bytes given to the socket, and whether the loop was left by `return 0`.
def sockWriteLoop : List Round → Nat → Nat × Bool
  | _,                 0   => (0, false)
  | [],                _   => (0, false)
  | .notReady :: _,    _   => (0, false)
  | .error :: _,       _   => (0, true)
  | .sent n :: rounds, len =>
    let (sent, failed) := sockWriteLoop rounds (len - min n len)
    (min n len + sent, failed)

-- What `sock_write_timeout` gives to the socket, and what it returns.
def sockWriteTimeout (rounds : List Round) (buf : List UInt8) : List UInt8 × Nat :=
  let (sent, failed) := sockWriteLoop rounds buf.length
  (buf.take sent, if failed then 0 else sent)

-- The loop of `free_async_write_resource`: what it leaves in the queue, the nodes it has freed, the
-- bytes it has given to the socket, and whether it was left by the `goto`.
structure Drain where
  queue  : List BufNode
  freed  : List MemId
  wire   : List UInt8
  failed : Bool

def drain : List BufNode → List (List Round) → Drain
  | [],            _      => ⟨[], [], [], false⟩
  | node :: queue, rounds =>
    let (sent, ret) := sockWriteTimeout (rounds.headD []) node.unsent
    if node.spareLen ≠ ret then ⟨queue, [node.id], sent, true⟩
    else
      let d := drain queue rounds.tail
      ⟨d.queue, node.id :: d.freed, sent ++ d.wire, d.failed⟩

-- What `send` does in `send_buf_node`.
inductive SendOut
  | sent (n : Nat)
  | again
  | intr
  | error

-- How far the worker is in `send_handle`: before the section that dequeues, in the loop of
-- `send_buf_node` with its `spare_len`, behind that loop, or before `register_write`. It is `freed`
-- once `free_async_write_resource` has returned.
inductive SendPc
  | idle
  | deq
  | sending (spareLen : Nat)
  | sent
  | register
  | freed
  deriving DecidableEq

-- The part of a `CNetRecv` that its writer uses. `senders` are the `send_data` calls that have
-- found the synchronous mode, each with what it still has to write. The rest is history: the
-- `send_data` calls in the order of their sections, the bytes given to the socket by the worker and
-- by the synchronous calls, the nodes, and whether a write of `free_async_write_resource` has
-- failed.
structure Writer where
  isAsyncWrite  : Bool
  isWriteFailed : Bool
  dataQueue     : List BufNode
  curSendNode   : Option BufNode
  pc            : SendPc
  senders       : List (List UInt8)
  entered       : List Copy
  wire          : List UInt8
  direct        : List UInt8
  mem           : Ledger MemId
  flushFailed   : Bool

namespace Writer

-- `init_common_data`.
def new : Writer where
  isAsyncWrite  := false
  isWriteFailed := false
  dataQueue     := []
  curSendNode   := none
  pc            := .idle
  senders       := []
  entered       := []
  wire          := []
  direct        := []
  mem           := .empty
  flushFailed   := false

def initAsyncWriteResource (w : Writer) : Writer :=
  { w with
    isWriteFailed := false
    isAsyncWrite  := true
    dataQueue     := []
    curSendNode   := none }

-- The nodes that the writer holds, in the order in which they are sent.
def nodes (w : Writer) : List BufNode :=
  w.curSendNode.toList ++ w.dataQueue

def ids (w : Writer) : List MemId :=
  w.nodes.map (·.id)

-- What the `send_data` calls have copied in.
def accepted (w : Writer) : List UInt8 :=
  w.entered.flatMap (·.copied)

-- The section of `send_data` under the lock of the queue.
def enter (w : Writer) (news : List Mem) (buf : List UInt8) : Option Writer :=
  if w.isAsyncWrite then
    let fill := fillQueue w.dataQueue news buf
    if w.mem.Fresh fill.taken then some { w with
      dataQueue := fill.nodes
      entered   := w.entered ++ [⟨buf, fill.copied, fill.done⟩]
      mem       := w.mem.obtain' fill.taken }
    else none
  else some { w with senders := w.senders ++ [buf] }

-- One round of the `sock_write_timeout` of a synchronous `send_data`.
def directRound (w : Writer) (i : Nat) (buf : List UInt8) : Round → Writer
  | .sent n          => { w with
    direct  := w.direct ++ buf.take n
    senders := if n < buf.length then w.senders.set i (buf.drop n) else w.senders.eraseIdx i }
  | .notReady | .error => { w with senders := w.senders.eraseIdx i }

-- The entry of `send_handle`.
def start (w : Writer) : Writer :=
  match w.curSendNode with
  | none      => { w with pc := .deq }
  | some node => { w with pc := .sending node.spareLen }

-- The section of `send_handle` that dequeues, and the test of its loop.
def deq (w : Writer) : Writer :=
  match w.dataQueue with
  | []            => { w with curSendNode := none, pc := .idle }
  | node :: queue => { w with
    curSendNode := some node
    dataQueue   := queue
    pc          := .sending node.spareLen }

-- One round of the loop of `send_buf_node`.
def sendRound (w : Writer) (node : BufNode) (spareLen : Nat) : SendOut → Writer
  | .sent n => { w with
    curSendNode := some (node.consume n)
    pc          := .sending (spareLen - n)
    wire        := w.wire ++ node.unsent.take n }
  | .again  => { w with pc := .sent }
  | .intr   => w
  -- The caller hands -1 on.
  | .error  => { w with isWriteFailed := true, pc := .idle }

-- What the loop of `send_handle` does after `send_buf_node`.
def finish (w : Writer) (node : BufNode) : Writer :=
  if node.consumePos = node.producePos then { w with
    curSendNode := none
    pc          := .deq
    mem         := w.mem.release [node.id] }
  else { w with pc := .register }

-- `m_cur_send_node` is written and freed as the nodes of the queue are after it. When a write has
-- failed before, none is written, and the pointer to the freed `m_cur_send_node` stays.
def freeAsyncWriteResource (w : Writer) (rounds : List (List Round)) : Writer :=
  if w.isAsyncWrite then
    let (cur, d) :=
      if w.isWriteFailed then (w.curSendNode, ⟨w.dataQueue, [], [], false⟩)
      else (none, drain w.nodes rounds)
    { w with
      isAsyncWrite := false
      dataQueue    := []
      curSendNode  := cur
      wire         := w.wire ++ d.wire
      mem          := w.mem.release <| d.freed ++ d.queue.map (·.id) ++ (cur.map (·.id)).toList
      flushFailed  := d.failed }
  else w

inductive Act
  | enter (news : List Mem) (buf : List UInt8)
  | direct (i : Nat) (round : Round)
  | start
  | deq
  | send (out : SendOut)
  | finish
  | register
  | free (rounds : List (List Round))

-- The kernel takes at least one byte and at most those it was given.
def sendable (spareLen : Nat) : SendOut → Bool
  | .sent n => 0 < n ∧ n ≤ spareLen
  | _       => true

def step (w : Writer) : Act → Option Writer
  | .enter news buf => w.enter news buf
  | .direct i round => w.senders[i]?.map (w.directRound i · round)
  | .start          => if w.pc = .idle then some w.start else none
  | .deq            => if w.pc = .deq then some w.deq else none
  | .send out       =>
    match w.pc, w.curSendNode with
    | .sending spareLen, some node =>
      if 0 < spareLen ∧ sendable spareLen out then some (w.sendRound node spareLen out) else none
    | _, _ => none
  | .finish         =>
    match w.curSendNode with
    | some node => if w.pc = .sending 0 ∨ w.pc = .sent then some (w.finish node) else none
    | none      => none
  | .register       => if w.pc = .register then some { w with pc := .idle } else none
  | .free rounds    =>
    if w.pc = .idle then some { w.freeAsyncWriteResource rounds with pc := .freed } else none

end Writer

-- A writer from `init_async_write_resource` on. The worker that runs `send_handle` runs
-- `free_async_write_resource` in the end.
def writer : System Writer Writer.Act where
  init w := w = Writer.new.initAsyncWriteResource
  step   := Writer.step

namespace Writer

variable {w w' : Writer} {node : BufNode}

@[simp]
theorem nodes_some {n : BufNode} (h : w.curSendNode = some n) : w.nodes = n :: w.dataQueue := by
  simp [nodes, h]

-- What holds between any two steps of the threads.
structure Wf (w : Writer) : Prop where
  ok      : ∀ node ∈ w.nodes, node.Ok
  deq     : w.pc = .deq → w.curSendNode = none
  sending : ∀ n, w.pc = .sending n → ∃ node, w.curSendNode = some node ∧ node.spareLen = n
  freed   : w.pc = .freed ↔ w.isAsyncWrite = false
  direct  : w.isAsyncWrite = true → w.direct = [] ∧ w.senders = []

-- Everything a step can do to the bytes and the nodes of a writer.
inductive Effect (w w' : Writer) : Prop
  | quiet (nodes : w'.nodes = w.nodes) (entered : w'.entered = w.entered) (wire : w'.wire = w.wire)
      (mem : w'.mem = w.mem) (async : w'.isAsyncWrite = w.isAsyncWrite)
      (flush : w'.flushFailed = w.flushFailed) (write : w.isWriteFailed = true → w'.isWriteFailed = true)
  | fill (c : Copy) (taken : List MemId) (entered : w'.entered = w.entered ++ [c])
      (unsent : unsentOf w'.nodes = unsentOf w.nodes ++ c.copied) (ids : w'.ids = w.ids ++ taken)
      (pre : c.copied <+: c.buf) (all : c.done = true → c.copied = c.buf) (wire : w'.wire = w.wire)
      (fresh : w.mem.Fresh taken) (mem : w'.mem = w.mem.obtain' taken)
      (async : w.isAsyncWrite = true) (async' : w'.isAsyncWrite = true)
  | send (n : Nat) (unsent : unsentOf w'.nodes = (unsentOf w.nodes).drop n) (ids : w'.ids = w.ids)
      (wire : w'.wire = w.wire ++ (unsentOf w.nodes).take n) (entered : w'.entered = w.entered)
      (mem : w'.mem = w.mem) (async : w.isAsyncWrite = true) (async' : w'.isAsyncWrite = true)
  | release (id : MemId) (unsent : unsentOf w'.nodes = unsentOf w.nodes) (ids : w.ids = id :: w'.ids)
      (wire : w'.wire = w.wire) (entered : w'.entered = w.entered) (mem : w'.mem = w.mem.release [id])
      (async : w.isAsyncWrite = true) (async' : w'.isAsyncWrite = true)
  | flush (sent : List UInt8) (freed : List MemId) (wire : w'.wire = w.wire ++ sent)
      (pre : sent <+: unsentOf w.nodes)
      (all : w'.isWriteFailed = false → w'.flushFailed = false → sent = unsentOf w.nodes)
      (perm : freed.Perm w.ids) (mem : w'.mem = w.mem.release freed) (entered : w'.entered = w.entered)
      (async : w.isAsyncWrite = true) (async' : w'.isAsyncWrite = false)

theorem sockWriteLoop_spec (rounds : List Round) (len : Nat) :
    (sockWriteLoop rounds len).1 ≤ len ∧
      ((sockWriteLoop rounds len).2 = true → (sockWriteLoop rounds len).1 < len) := by
  fun_induction sockWriteLoop rounds len
  case case1 | case2 | case3 | case4 => simp_all; try omega
  case case5 n rounds len _ sent failed he hi =>
    simp only [he] at hi
    refine ⟨by omega, fun hf => ?_⟩
    have := hi.2 hf
    omega

-- `sock_write_timeout` sends the front of its buffer, and returns the length if and only if that is
-- all.
theorem sockWriteTimeout_spec (rounds : List Round) (buf : List UInt8) :
    (sockWriteTimeout rounds buf).1 <+: buf ∧
      ((sockWriteTimeout rounds buf).2 = buf.length ↔ (sockWriteTimeout rounds buf).1 = buf) := by
  have ⟨hle, hlt⟩ := sockWriteLoop_spec rounds buf.length
  refine ⟨List.take_prefix _ _, ?_⟩
  simp only [sockWriteTimeout, List.take_eq_self_iff]
  cases hf : (sockWriteLoop rounds buf.length).2
  case false => simp; omega
  case true  => have := hlt hf; simp; omega

theorem drain_spec (nodes : List BufNode) (rounds : List (List Round)) :
    (drain nodes rounds).freed ++ (drain nodes rounds).queue.map (·.id) = nodes.map (·.id) ∧
      (drain nodes rounds).wire <+: unsentOf nodes ∧
      ((drain nodes rounds).failed = false → (drain nodes rounds).wire = unsentOf nodes) := by
  fun_induction drain nodes rounds
  case case1 => exact ⟨rfl, List.prefix_refl _, fun _ => rfl⟩
  case case2 node queue rounds sent ret he hr =>
    have ⟨hp, _⟩ := sockWriteTimeout_spec (rounds.headD []) node.unsent
    rw [he] at hp
    exact ⟨rfl, hp.trans <| List.prefix_append _ _, nofun⟩
  case case3 node queue rounds sent ret he hr d hi =>
    have ⟨_, hs⟩ := sockWriteTimeout_spec (rounds.headD []) node.unsent
    rw [he] at hs
    have hs : sent = node.unsent := hs.mp (by simpa using (Decidable.not_not.mp hr).symm)
    subst hs
    have ⟨hids, hpre, hall⟩ := hi
    refine ⟨by simpa using hids, ?_, ?_⟩
    case refine_1 => simpa using (List.prefix_append_right_inj node.unsent).mpr hpre
    case refine_2 => intro hd; simpa using hall hd

theorem enter_effect (wf : w.Wf) {news : List Mem} {buf : List UInt8}
    (h : w.enter news buf = some w') : w'.Wf ∧ Effect w w' := by
  unfold enter at h
  split at h
  case isTrue ha =>
    have ⟨fresh, h⟩ := Option.ite_none_right_eq_some.mp h
    cases h
    have okq : ∀ n ∈ w.dataQueue, n.Ok := fun n hn => wf.ok n <| List.mem_append_right _ hn
    have spec := fillQueue_spec news buf okq
    constructor
    case left  =>
      refine ⟨fun n hn => ?_, wf.deq, wf.sending, wf.freed, wf.direct⟩
      exact (List.mem_append.mp hn).elim (fun hn => wf.ok n <| List.mem_append_left _ hn)
        (spec.ok okq n)
    case right =>
      refine .fill _ _ rfl ?_ ?_ spec.pre spec.all rfl fresh rfl ha ha
      case refine_1 => simp [nodes, spec.unsent]
      case refine_2 => simp [ids, nodes, spec.ids]
  case isFalse ha =>
    cases h
    exact ⟨⟨wf.ok, wf.deq, wf.sending, wf.freed, fun h => absurd h ha⟩,
      .quiet rfl rfl rfl rfl rfl rfl id⟩

theorem directRound_effect (wf : w.Wf) {i : Nat} {buf : List UInt8} {round : Round}
    (h : w.senders[i]? = some buf) : (w.directRound i buf round).Wf ∧
      Effect w (w.directRound i buf round) := by
  have ha : ¬w.isAsyncWrite = true := fun ha => by simp [(wf.direct ha).2] at h
  cases round
  all_goals exact ⟨⟨wf.ok, wf.deq, wf.sending, wf.freed, fun h => absurd h ha⟩,
    .quiet rfl rfl rfl rfl rfl rfl id⟩

theorem start_effect (wf : w.Wf) (hp : w.pc = .idle) : w.start.Wf ∧ Effect w w.start := by
  have hf : w.isAsyncWrite ≠ false := fun ha => by simp [wf.freed.mpr ha] at hp
  unfold start
  split
  case h_1 hc =>
    exact ⟨⟨wf.ok, fun _ => hc, nofun, by simpa using hf, wf.direct⟩, .quiet rfl rfl rfl rfl rfl rfl id⟩
  case h_2 node hc =>
    exact ⟨⟨wf.ok, nofun, fun n hn => ⟨node, hc, by simpa using hn⟩, by simpa using hf, wf.direct⟩,
      .quiet rfl rfl rfl rfl rfl rfl id⟩

theorem deq_effect (wf : w.Wf) (hp : w.pc = .deq) : w.deq.Wf ∧ Effect w w.deq := by
  have hf : w.isAsyncWrite ≠ false := fun ha => by simp [wf.freed.mpr ha] at hp
  have hc := wf.deq hp
  unfold deq
  split
  case h_1 hq =>
    refine ⟨⟨by simp [nodes, hq], nofun, nofun, by simpa using hf, wf.direct⟩, ?_⟩
    exact .quiet (by simp [nodes, hq, hc]) rfl rfl rfl rfl rfl id
  case h_2 node queue hq =>
    have hn : w.nodes = node :: queue := by simp [nodes, hc, hq]
    refine ⟨⟨?_, nofun, fun n hn => ⟨node, rfl, by simpa using hn⟩, by simpa using hf, wf.direct⟩, ?_⟩
    case refine_1 => exact fun n h => wf.ok n (hn ▸ h)
    case refine_2 => exact .quiet hn.symm rfl rfl rfl rfl rfl id

theorem sendRound_effect (wf : w.Wf) {spareLen : Nat} {out : SendOut} (hp : w.pc = .sending spareLen)
    (hc : w.curSendNode = some node) (ho : sendable spareLen out) :
    (w.sendRound node spareLen out).Wf ∧ Effect w (w.sendRound node spareLen out) := by
  have hf : w.isAsyncWrite ≠ false := fun ha => by simp [wf.freed.mpr ha] at hp
  obtain ⟨node', hc', hs⟩ := wf.sending _ hp
  cases hc.symm.trans hc'
  have hok := wf.ok node (by simp [nodes, hc])
  cases out
  case sent n =>
    obtain ⟨_, hn⟩ : 0 < n ∧ n ≤ spareLen := by simpa [sendable] using ho
    constructor
    case left =>
      refine ⟨fun m hm => ?_, by simp [sendRound], fun k hk => ⟨_, rfl, ?_⟩,
        by simpa [sendRound] using hf, wf.direct⟩
      case refine_1 =>
        have hm : m = node.consume n ∨ m ∈ w.dataQueue := by simpa [nodes, sendRound] using hm
        cases hm
        case inl hm => exact hm ▸ hok.consume (hs ▸ hn)
        case inr hm => exact wf.ok m <| List.mem_append_right _ hm
      case refine_2 =>
        cases hk
        simp only [BufNode.spareLen, BufNode.consume] at hs ⊢
        omega
    case right =>
      have ht : (unsentOf w.nodes).take n = node.unsent.take n := by
        rw [nodes_some hc, unsentOf, List.flatMap_cons, List.take_append_of_le_length (by simpa [hs])]
      have hd : (unsentOf w.nodes).drop n = node.unsent.drop n ++ unsentOf w.dataQueue := by
        rw [nodes_some hc, unsentOf, List.flatMap_cons, List.drop_append_of_le_length (by simpa [hs])]
      refine .send n ?_ ?_ ?_ rfl rfl (by simpa using hf) (by simpa [sendRound] using hf)
      case refine_1 => rw [hd]; simp [sendRound, nodes, BufNode.unsent_consume]
      case refine_2 => simp [ids, sendRound, nodes, hc]
      case refine_3 => simp [ht, sendRound]
  case again =>
    exact ⟨⟨wf.ok, by simp [sendRound], by simp [sendRound], by simpa [sendRound] using hf, wf.direct⟩,
      .quiet rfl rfl rfl rfl rfl rfl id⟩
  case intr  => exact ⟨wf, .quiet rfl rfl rfl rfl rfl rfl id⟩
  case error =>
    exact ⟨⟨wf.ok, by simp [sendRound], by simp [sendRound], by simpa [sendRound] using hf, wf.direct⟩,
      .quiet rfl rfl rfl rfl rfl rfl fun _ => rfl⟩

theorem finish_effect (wf : w.Wf) (hc : w.curSendNode = some node) (hp : w.pc ≠ .freed) :
    (w.finish node).Wf ∧ Effect w (w.finish node) := by
  have hf : w.isAsyncWrite ≠ false := fun ha => hp <| wf.freed.mpr ha
  unfold finish
  split
  case isTrue he =>
    have hu : node.unsent = [] := BufNode.unsent_eq_nil (by simp [BufNode.spareLen, he])
    constructor
    case left =>
      refine ⟨fun m hm => wf.ok m ?_, fun _ => rfl, by simp, by simpa using hf, wf.direct⟩
      simpa [nodes] using Or.inr hm
    case right =>
      refine .release node.id ?_ ?_ rfl rfl rfl (by simpa using hf) (by simpa using hf)
      all_goals simp [ids, nodes, hc, hu]
  case isFalse =>
    exact ⟨⟨wf.ok, by simp, by simp, by simpa using hf, wf.direct⟩, .quiet rfl rfl rfl rfl rfl rfl id⟩

theorem free_effect (wf : w.Wf) (rounds : List (List Round)) (hp : w.pc ≠ .freed) :
    ({ w.freeAsyncWriteResource rounds with pc := .freed } : Writer).Wf ∧
      Effect w { w.freeAsyncWriteResource rounds with pc := .freed } := by
  have ha : w.isAsyncWrite = true := by
    rw [← Bool.not_eq_false]
    exact fun ha => hp <| wf.freed.mpr ha
  cases hw : w.isWriteFailed <;> simp only [freeAsyncWriteResource, ha, hw, reduceIte]
  case true =>
    constructor
    case left =>
      refine ⟨fun m hm => wf.ok m ?_, nofun, nofun, by simp, nofun⟩
      exact List.mem_append_left _ (by simpa [nodes] using hm)
    case right =>
      refine .flush [] _ (by simp) List.nil_prefix nofun ?_ rfl rfl ha rfl
      simpa [ids, nodes, Option.toList_map] using List.perm_append_comm
  case false =>
    have ⟨hids, hpre, hall⟩ := drain_spec w.nodes rounds
    constructor
    case left  => exact ⟨nofun, nofun, nofun, by simp, nofun⟩
    case right =>
      refine .flush _ _ rfl hpre (fun _ hf => hall hf) ?_ rfl rfl ha rfl
      simp [hids, ids]

theorem step_effect {a : Act} (wf : w.Wf) (h : w.step a = some w') : w'.Wf ∧ Effect w w' := by
  cases a
  case enter news buf => exact enter_effect wf h
  case direct i round =>
    have ⟨_, hb, h⟩ := Option.map_eq_some_iff.mp h
    exact h ▸ directRound_effect wf hb
  case start =>
    have ⟨hp, h⟩ := Option.ite_none_right_eq_some.mp h
    cases h
    exact start_effect wf hp
  case deq =>
    have ⟨hp, h⟩ := Option.ite_none_right_eq_some.mp h
    cases h
    exact deq_effect wf hp
  case send out =>
    simp only [step] at h
    split at h
    case h_2 => contradiction
    case h_1 hp hc =>
      have ⟨hs, h⟩ := Option.ite_none_right_eq_some.mp h
      cases h
      exact sendRound_effect wf hp hc hs.2
  case finish =>
    simp only [step] at h
    split at h
    case h_2 => contradiction
    case h_1 hc =>
      have ⟨hp, h⟩ := Option.ite_none_right_eq_some.mp h
      cases h
      exact finish_effect wf hc (by rintro hf; simp [hf] at hp)
  case register =>
    have ⟨hp, h⟩ := Option.ite_none_right_eq_some.mp h
    cases h
    have hf : w.isAsyncWrite ≠ false := fun ha => by simp [wf.freed.mpr ha] at hp
    exact ⟨⟨wf.ok, nofun, nofun, by simpa using hf, wf.direct⟩, .quiet rfl rfl rfl rfl rfl rfl id⟩
  case free rounds =>
    have ⟨hp, h⟩ := Option.ite_none_right_eq_some.mp h
    cases h
    exact free_effect wf rounds (by simp [hp])

theorem Wf.of_reachable (h : writer.Reachable w) : w.Wf := by
  refine h.invariant ?_ fun _ _ _ wf _ hs => (step_effect wf hs).1
  rintro _ rfl
  exact ⟨nofun, nofun, nofun, by simp [new, initAsyncWriteResource], fun _ => ⟨rfl, rfl⟩⟩

end Writer
end NetPool
