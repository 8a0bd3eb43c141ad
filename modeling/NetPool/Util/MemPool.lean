import NetPool.Lib.Stock
import NetPool.Lib.System

namespace NetPool

-- The arithmetic of `unsigned int`.
def u32 (n : Nat) : Nat :=
  n % 2 ^ 32

theorem u32_eq {n : Nat} (h : n < 2 ^ 32) : u32 n = n :=
  Nat.mod_eq_of_lt h

-- `sizeof(struct list_head)`, and `sizeof(MEM_NODE_T)`: the data of a node follow its links.
def sizeofListHead : Nat :=
  16

-- A `MEM_POOL_T`. An array has the contents that it has been allocated with, and an access outside
-- of it has no result. The links of the nodes, which nothing in here reads, are left out.
structure MemPool where
  nodeCnt  : Nat
  nodeSize : Nat
  baseaddr : Nat
  stack    : List Nat
  stackIdx : Nat
  deriving DecidableEq

namespace MemPool

-- `&m_baseaddr[i * m_node_size]`.
def node (s : MemPool) (i : Nat) : Nat :=
  s.baseaddr + u32 (i * s.nodeSize)

-- `m_stack[m_stack_idx] = node`, and the increment.
def push (s : MemPool) (node : Nat) : Option MemPool :=
  if s.stackIdx < s.stack.length then some { s with
    stack    := s.stack.set s.stackIdx node
    stackIdx := u32 (s.stackIdx + 1) }
  else none

def freeObj (s : MemPool) (node : Nat) : Option MemPool :=
  if s.stackIdx ≥ s.nodeCnt then some s else s.push node

def freeObjs (s : MemPool) : List Nat → Option MemPool
  | []         => some s
  | node :: ns => (s.freeObj node).bind (·.freeObjs ns)

def reset (s : MemPool) : Option MemPool :=
  { s with stackIdx := 0 }.freeObjs <| (List.range s.nodeCnt).map s.node

-- `mpool_init`, with what the two `malloc` return: the address of the arena, and the array of
-- `obj_max_cnt` entries with what is in it.
def init (objMaxCnt nodeSize : Nat) (baseaddr : Option Nat) (stack : Option (List Nat)) :
    Option MemPool :=
  match baseaddr, stack with
  | some baseaddr, some stack => reset {
    nodeCnt  := objMaxCnt
    nodeSize := u32 (nodeSize + sizeofListHead)
    baseaddr := baseaddr
    stack    := stack
    stackIdx := 0 }
  | _, _ => none

def malloc (s : MemPool) : Option (MemPool × Option Nat) :=
  if s.stackIdx = 0 then some (s, none)
  else
    let s := { s with stackIdx := s.stackIdx - 1 }
    s.stack[s.stackIdx]?.map fun node => (s, some (node + sizeofListHead))

def free (s : MemPool) (ptr : Nat) : Option MemPool :=
  if s.stackIdx ≥ s.nodeCnt then some s else s.push (ptr - sizeofListHead)

def getUsedCnt (s : MemPool) : Nat :=
  u32 (s.nodeCnt + 2 ^ 32 - s.stackIdx)

end MemPool

-- A pool and the pointers that have been handed out, the last one first.
structure MemUse where
  pool : MemPool
  out  : List Nat

namespace MemUse

inductive Act
  | malloc
  | free (ptr : Nat)
  | reset

def step (s : MemUse) : Act → Option MemUse
  | .malloc   => s.pool.malloc.map fun (pool, ptr) => ⟨pool, ptr.toList ++ s.out⟩
  | .free ptr => if ptr ∈ s.out then (s.pool.free ptr).map (⟨·, s.out.erase ptr⟩) else none
  | .reset    => s.pool.reset.map (⟨·, []⟩)

-- `mpool_init` has returned 0, and the bytes of all the nodes can be counted.
def Init (objMaxCnt nodeSize : Nat) (s : MemUse) : Prop :=
  ∃ baseaddr stack, stack.length = objMaxCnt ∧ objMaxCnt * (nodeSize + sizeofListHead) < 2 ^ 32 ∧
    MemPool.init objMaxCnt nodeSize (some baseaddr) (some stack) = some s.pool ∧ s.out = []

end MemUse

def memUse (objMaxCnt nodeSize : Nat) : System MemUse MemUse.Act where
  init := MemUse.Init objMaxCnt nodeSize
  step := MemUse.step

namespace MemPool

variable {s s' : MemPool} {node ptr i j : Nat} {ns : List Nat}

-- The addresses that the application gets to see.
def data (node : Nat) : Nat :=
  node + sizeofListHead

def nodes (s : MemPool) : List Nat :=
  (List.range s.nodeCnt).map s.node

-- The offset of a node does not wrap when the size of all of them does not.
theorem node_eq (total : s.nodeCnt * s.nodeSize < 2 ^ 32) (hi : i < s.nodeCnt) :
    s.node i = s.baseaddr + i * s.nodeSize := by
  have : i * s.nodeSize ≤ s.nodeCnt * s.nodeSize := Nat.mul_le_mul_right _ (Nat.le_of_lt hi)
  rw [node, u32_eq (Nat.lt_of_le_of_lt this total)]

-- A node ends before the next one begins.
theorem node_add_le (total : s.nodeCnt * s.nodeSize < 2 ^ 32) (hij : i < j) (hj : j < s.nodeCnt) :
    s.node i + s.nodeSize ≤ s.node j := by
  have : (i + 1) * s.nodeSize ≤ j * s.nodeSize := Nat.mul_le_mul_right _ hij
  rw [node_eq total hj, node_eq total (Nat.lt_trans hij hj)]
  linarith

-- The array has an entry for each of the nodes.
structure Sized (s : MemPool) : Prop where
  lt    : s.nodeCnt < 2 ^ 32
  stack : s.stack.length = s.nodeCnt
  idx   : s.stackIdx ≤ s.nodeCnt

-- What `mpool_init` makes sure of, and nothing changes.
structure WellFormed (s : MemPool) : Prop where
  total : s.nodeCnt * s.nodeSize < 2 ^ 32
  size  : 0 < s.nodeCnt → sizeofListHead ≤ s.nodeSize
  stack : s.stack.length = s.nodeCnt
  idx   : s.stackIdx ≤ s.nodeCnt

namespace WellFormed

theorem nodeCnt_lt (h : s.WellFormed) : s.nodeCnt < 2 ^ 32 := by
  by_cases hc : 0 < s.nodeCnt
  case neg => omega
  case pos =>
    have hs : 1 ≤ s.nodeSize := Nat.le_trans (by decide) (h.size hc)
    calc s.nodeCnt = s.nodeCnt * 1 := (Nat.mul_one _).symm
      _ ≤ s.nodeCnt * s.nodeSize   := Nat.mul_le_mul_left _ hs
      _ < 2 ^ 32                   := h.total

theorem sized (h : s.WellFormed) : s.Sized :=
  ⟨h.nodeCnt_lt, h.stack, h.idx⟩

theorem node_apart (h : s.WellFormed) (hi : i < s.nodeCnt) (hj : j < s.nodeCnt) (hn : i ≠ j) :
    s.node i + s.nodeSize ≤ s.node j ∨ s.node j + s.nodeSize ≤ s.node i :=
  (Nat.lt_or_gt_of_ne hn).imp (node_add_le h.total · hj) (node_add_le h.total · hi)

theorem nodes_nodup (h : s.WellFormed) : s.nodes.Nodup := by
  refine List.Nodup.map_on (fun i hi j hj he => ?_) List.nodup_range
  have size := h.size <| Nat.zero_lt_of_lt <| List.mem_range.mp hi
  by_contra hn
  obtain ha | ha := h.node_apart (List.mem_range.mp hi) (List.mem_range.mp hj) hn
  all_goals
    simp only [sizeofListHead] at size
    omega

end WellFormed

-- A node has been put on top of the stack.
structure Pushed (s : MemPool) (ns : List Nat) (s' : MemPool) : Prop where
  nodeCnt  : s'.nodeCnt = s.nodeCnt
  nodeSize : s'.nodeSize = s.nodeSize
  baseaddr : s'.baseaddr = s.baseaddr
  length   : s'.stack.length = s.stack.length
  stackIdx : s'.stackIdx = s.stackIdx + ns.length
  take     : s'.stack.take s'.stackIdx = s.stack.take s.stackIdx ++ ns

theorem Pushed.wellFormed (h : s.WellFormed) (p : s.Pushed ns s')
    (hn : s.stackIdx + ns.length ≤ s.nodeCnt) : s'.WellFormed where
  total := by rw [p.nodeCnt, p.nodeSize]; exact h.total
  size  := by rw [p.nodeCnt, p.nodeSize]; exact h.size
  stack := by rw [p.length, p.nodeCnt, h.stack]
  idx   := by rw [p.stackIdx, p.nodeCnt]; exact hn

theorem Pushed.sized (h : s.Sized) (p : s.Pushed ns s')
    (hn : s.stackIdx + ns.length ≤ s.nodeCnt) : s'.Sized where
  lt    := by rw [p.nodeCnt]; exact h.lt
  stack := by rw [p.length, p.nodeCnt, h.stack]
  idx   := by rw [p.stackIdx, p.nodeCnt]; exact hn

theorem Pushed.nodes (p : s.Pushed ns s') : s'.nodes = s.nodes := by
  unfold MemPool.nodes
  rw [p.nodeCnt]
  refine List.map_congr_left fun i _ => ?_
  rw [node, node, p.baseaddr, p.nodeSize]

theorem push_pushed (h : s.Sized) (hi : s.stackIdx < s.nodeCnt) :
    ∃ s', s.push node = some s' ∧ s.Pushed [node] s' := by
  have hl : s.stackIdx < s.stack.length := h.stack ▸ hi
  have hu : u32 (s.stackIdx + 1) = s.stackIdx + 1 :=
    u32_eq <| Nat.lt_of_le_of_lt hi h.lt
  refine ⟨_, if_pos hl, rfl, rfl, rfl, by simp, hu, ?_⟩
  simp [hu, List.take_add_one, hl, List.take_set_of_le]

theorem freeObj_pushed (h : s.Sized) (hi : s.stackIdx < s.nodeCnt) :
    ∃ s', s.freeObj node = some s' ∧ s.Pushed [node] s' := by
  rw [freeObj, if_neg (Nat.not_le_of_lt hi)]
  exact push_pushed h hi

theorem freeObjs_pushed (h : s.Sized) (hn : s.stackIdx + ns.length ≤ s.nodeCnt) :
    ∃ s', s.freeObjs ns = some s' ∧ s.Pushed ns s' := by
  induction ns generalizing s
  case nil               => exact ⟨s, rfl, rfl, rfl, rfl, rfl, rfl, by simp⟩
  case cons node ns hind =>
    simp only [List.length_cons] at hn
    have ⟨s₁, he₁, p₁⟩ := @freeObj_pushed _ node h (by omega)
    have idx : s₁.stackIdx = s.stackIdx + 1 := p₁.stackIdx
    have sized := p₁.sized h (by simp only [List.length_singleton]; omega)
    have ⟨s₂, he₂, p₂⟩ := hind sized (by rw [p₁.nodeCnt, idx]; omega)
    refine ⟨s₂, by simp [freeObjs, he₁, he₂], ?_, ?_, ?_, ?_, ?_, ?_⟩
    case refine_1 => rw [p₂.nodeCnt, p₁.nodeCnt]
    case refine_2 => rw [p₂.nodeSize, p₁.nodeSize]
    case refine_3 => rw [p₂.baseaddr, p₁.baseaddr]
    case refine_4 => rw [p₂.length, p₁.length]
    case refine_5 => rw [p₂.stackIdx, idx, List.length_cons]; omega
    case refine_6 => rw [p₂.take, p₁.take, List.append_assoc, List.singleton_append]

end MemPool

namespace MemUse

open MemPool

variable {s s' : MemUse} {objMaxCnt nodeSize ptr : Nat}

structure Inv (objMaxCnt nodeSize : Nat) (s : MemUse) : Prop where
  cnt   : s.pool.nodeCnt = objMaxCnt
  size  : 0 < objMaxCnt → s.pool.nodeSize = nodeSize + sizeofListHead
  wf    : s.pool.WellFormed
  stock : Stock (s.pool.nodes.map data) ((s.pool.stack.take s.pool.stackIdx).map data) s.out

namespace Inv

theorem mem_out (h : s.Inv objMaxCnt nodeSize) (hp : ptr ∈ s.out) :
    ∃ i < s.pool.nodeCnt, ptr = data (s.pool.node i) := by
  have ⟨node, hn, hd⟩ := List.mem_map.mp <| h.stock.out_subset hp
  have ⟨i, hi, he⟩ := List.mem_map.mp hn
  exact ⟨i, List.mem_range.mp hi, by rw [he, hd]⟩

theorem data_sub (h : s.Inv objMaxCnt nodeSize) (hp : ptr ∈ s.out) :
    data (ptr - sizeofListHead) = ptr := by
  have ⟨i, _, he⟩ := h.mem_out hp
  rw [he, data, data, Nat.add_sub_cancel]

theorem count (h : s.Inv objMaxCnt nodeSize) : s.pool.stackIdx + s.out.length = s.pool.nodeCnt := by
  have := h.stock.length
  simpa [MemPool.nodes, h.wf.stack, h.wf.idx] using this

theorem malloc (h : s.Inv objMaxCnt nodeSize) : ∃ pool ptr, s.pool.malloc = some (pool, ptr) ∧
    (ptr = none ↔ s.out.length = s.pool.nodeCnt) ∧
    Inv objMaxCnt nodeSize ⟨pool, ptr.toList ++ s.out⟩ := by
  have count := h.count
  by_cases hi : s.pool.stackIdx = 0
  case pos => exact ⟨s.pool, none, if_pos hi, by simp; omega, h⟩
  case neg =>
    have hl : s.pool.stackIdx - 1 < s.pool.stack.length := by
      have := h.wf.stack
      have := h.wf.idx
      omega
    have top : s.pool.stack.take s.pool.stackIdx =
        s.pool.stack.take (s.pool.stackIdx - 1) ++ [s.pool.stack[s.pool.stackIdx - 1]] := by
      rw [List.take_append_getElem, Nat.sub_add_cancel (by omega)]
    have stock := h.stock
    rw [top, List.map_append] at stock
    refine ⟨{ s.pool with stackIdx := s.pool.stackIdx - 1 }, some (data _),
      ?_, ?_, h.cnt, h.size, ?_, stock.take⟩
    case refine_1 => simp [MemPool.malloc, hi, hl, data]
    case refine_2 => simp; omega
    case refine_3 =>
      have wf := h.wf
      exact ⟨wf.total, wf.size, wf.stack, Nat.le_trans (Nat.sub_le _ _) wf.idx⟩

theorem free (h : s.Inv objMaxCnt nodeSize) (hp : ptr ∈ s.out) :
    ∃ pool, s.pool.free ptr = some pool ∧ s.pool.Pushed [ptr - sizeofListHead] pool ∧
      Inv objMaxCnt nodeSize ⟨pool, s.out.erase ptr⟩ := by
  have hi : s.pool.stackIdx < s.pool.nodeCnt := by
    have := h.count
    have := List.length_pos_of_mem hp
    omega
  have ⟨pool, he, p⟩ := @push_pushed _ (ptr - sizeofListHead) h.wf.sized hi
  refine ⟨pool, ?_, p, p.nodeCnt.trans h.cnt, fun hc => p.nodeSize.trans <| h.size hc,
    p.wellFormed h.wf hi, ?_⟩
  case refine_1 => rw [MemPool.free, if_neg (Nat.not_le_of_lt hi), he]
  case refine_2 =>
    have stock := h.stock.give hp
    rwa [p.nodes, p.take, List.map_append, List.map_singleton, h.data_sub hp]

end Inv

-- With all nodes on the stack.
theorem Inv.full {pool : MemPool} (cnt : pool.nodeCnt = objMaxCnt)
    (size : 0 < objMaxCnt → pool.nodeSize = nodeSize + sizeofListHead) (h : pool.WellFormed) :
    ∃ pool', pool.reset = some pool' ∧ Inv objMaxCnt nodeSize ⟨pool', []⟩ := by
  have wf : { pool with stackIdx := 0 }.WellFormed :=
    ⟨h.total, h.size, h.stack, Nat.zero_le _⟩
  have hn : 0 + pool.nodes.length ≤ pool.nodeCnt := by simp [MemPool.nodes]
  have ⟨pool', he, p⟩ := freeObjs_pushed wf.sized hn
  refine ⟨pool', he, p.nodeCnt.trans cnt, fun hc => p.nodeSize.trans <| size hc,
    p.wellFormed wf hn, ?_⟩
  have nodes : pool'.nodes = pool.nodes := p.nodes
  rw [p.take, nodes]
  refine Stock.full <| h.nodes_nodup.map fun m n hd => ?_
  exact Nat.add_right_cancel hd

theorem Inv.step (h : s.Inv objMaxCnt nodeSize) {a : Act} (hs : s.step a = some s') :
    s'.Inv objMaxCnt nodeSize := by
  cases a
  case malloc =>
    have ⟨pool, ptr, he, _, inv⟩ := h.malloc
    simp only [MemUse.step, he] at hs
    cases hs
    exact inv
  case free ptr =>
    have ⟨hp, hs⟩ := Option.ite_none_right_eq_some.mp hs
    have ⟨pool, he, _, inv⟩ := h.free hp
    rw [he] at hs
    cases hs
    exact inv
  case reset =>
    have ⟨pool, he, inv⟩ := Inv.full h.cnt h.size h.wf
    simp only [MemUse.step, he] at hs
    cases hs
    exact inv

theorem Init.inv (h : Init objMaxCnt nodeSize s) : s.Inv objMaxCnt nodeSize := by
  have ⟨baseaddr, stack, hl, total, hi, ho⟩ := h
  have size : 0 < objMaxCnt → u32 (nodeSize + sizeofListHead) = nodeSize + sizeofListHead := by
    intro hc
    have := Nat.le_mul_of_pos_left (nodeSize + sizeofListHead) hc
    exact u32_eq <| Nat.lt_of_le_of_lt this total
  let pool : MemPool := ⟨objMaxCnt, u32 (nodeSize + sizeofListHead), baseaddr, stack, 0⟩
  have wf : pool.WellFormed := {
    total := Nat.lt_of_le_of_lt (Nat.mul_le_mul_left _ <| Nat.mod_le _ _) total
    size  := fun hc => Nat.le_trans (Nat.le_add_left _ _) (size hc).ge
    stack := hl
    idx   := Nat.zero_le _ }
  have ⟨pool, he, inv⟩ := Inv.full (by rfl) size wf
  cases Option.some.inj <| he.symm.trans hi
  cases s
  cases ho
  exact inv

-- What the pool promises: every node is on the stack or handed out, and every operation stays
-- inside of the array.
structure Partitioned (objMaxCnt nodeSize : Nat) (s : MemUse) : Prop where
  cnt      : s.pool.nodeCnt = objMaxCnt
  length   : s.pool.stack.length = s.pool.nodeCnt
  nodup    : s.pool.nodes.Nodup
  nodes    : (s.pool.stack.take s.pool.stackIdx ++ s.out.map (· - sizeofListHead)).Perm s.pool.nodes
  distinct : s.out.Nodup
  apart    : s.out.Pairwise fun p q =>
    p + (nodeSize + sizeofListHead) ≤ q ∨ q + (nodeSize + sizeofListHead) ≤ p
  null     : ∃ pool ptr, s.pool.malloc = some (pool, ptr) ∧
    (ptr = none ↔ s.out.length = s.pool.nodeCnt)
  back     : ∀ ptr ∈ s.out, ∃ pool, s.pool.free ptr = some pool ∧
    pool.stack.take pool.stackIdx =
      s.pool.stack.take s.pool.stackIdx ++ [ptr - sizeofListHead]
  reset    : s.pool.reset.isSome
  used     : s.pool.getUsedCnt = s.out.length

theorem Inv.nodes_perm (h : s.Inv objMaxCnt nodeSize) :
    (s.pool.stack.take s.pool.stackIdx ++ s.out.map (· - sizeofListHead)).Perm s.pool.nodes := by
  have back : ∀ l : List Nat, (l.map data).map (· - sizeofListHead) = l := by
    intro l
    simp [data, Function.comp_def]
  have := h.stock.perm.map (· - sizeofListHead)
  rwa [List.map_append, back, back] at this

theorem Inv.apart (h : s.Inv objMaxCnt nodeSize) : s.out.Pairwise fun p q =>
    p + (nodeSize + sizeofListHead) ≤ q ∨ q + (nodeSize + sizeofListHead) ≤ p := by
  refine h.stock.out_nodup.imp_of_mem fun {p q} hp hq hn => ?_
  have ⟨i, hi, hp⟩ := h.mem_out hp
  have ⟨j, hj, hq⟩ := h.mem_out hq
  have hij : i ≠ j := by
    rintro rfl
    exact hn <| hp.trans hq.symm
  have size := h.size <| h.cnt ▸ Nat.zero_lt_of_lt hi
  have := h.wf.node_apart hi hj hij
  rw [hp, hq, ← size, data, data]
  omega

theorem partitioned (h : (memUse objMaxCnt nodeSize).Reachable s) :
    s.Partitioned objMaxCnt nodeSize := by
  have inv : s.Inv objMaxCnt nodeSize := h.invariant (fun _ => Init.inv) fun _ _ _ hi _ => hi.step
  have ⟨pool, ptr, he, hp, _⟩ := inv.malloc
  have ⟨pool', he', _⟩ := Inv.full inv.cnt inv.size inv.wf
  refine ⟨inv.cnt, inv.wf.stack, inv.wf.nodes_nodup, inv.nodes_perm, inv.stock.out_nodup, inv.apart,
    ⟨pool, ptr, he, hp⟩, fun ptr hp => ?_, by rw [he']; rfl, ?_⟩
  case refine_1 =>
    have ⟨pool, he, p, _⟩ := inv.free hp
    exact ⟨pool, he, p.take⟩
  case refine_2 =>
    have := inv.count
    have := inv.wf.nodeCnt_lt
    simp only [getUsedCnt, u32]
    omega

-- A node that has been freed is handed out again.
theorem partitioned_again : ∃ s, ((memUse 2 8).Reachable s ∧ s.out = [1016, 1040]) ∧
    s.Partitioned 2 8 := by
  have init : Init 2 8 ⟨⟨2, 24, 1000, [1000, 1024], 2⟩, []⟩ :=
    ⟨1000, [0, 0], rfl, by decide, rfl, rfl⟩
  have ⟨s, hr, ho⟩ : ∃ s, (memUse 2 8).Reachable s ∧ s.out = [1016, 1040] :=
    System.exists_of_run [.malloc, .malloc, .malloc, .free 1016, .malloc] _ init (by decide)
  exact ⟨s, ⟨hr, ho⟩, partitioned hr⟩

end MemUse

end NetPool
