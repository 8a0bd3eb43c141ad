import NetPool.Util.MemPool

namespace NetPool

namespace MemPool

-- The index is lowered when the entry has been read with it.
def newObj (s : MemPool) : Option (MemPool × Option Nat) :=
  if s.stackIdx = 0 then some (s, none)
  else s.stack[s.stackIdx]?.map fun node => ({ s with stackIdx := s.stackIdx - 1 }, some node)

-- The index with which `mpool_new_obj` reads `m_stack`, and that of `mpool_malloc`.
def newObjIndex (s : MemPool) : Option Nat :=
  if s.stackIdx = 0 then none else some s.stackIdx

def mallocIndex (s : MemPool) : Option Nat :=
  if s.stackIdx = 0 then none else some (s.stackIdx - 1)

-- The entry above the stack is a copy of the uppermost one, if there is one.
def Doubled (s : MemPool) : Prop :=
  s.stackIdx = 0 ∨ ∃ node, s.stack[s.stackIdx]? = some node ∧ s.stack[s.stackIdx - 1]? = some node

end MemPool

namespace MemUse

open MemPool

inductive Call
  | newObj
  | freeObj (node : Nat)
  | malloc
  | free (ptr : Nat)
  | reset
  deriving DecidableEq

-- A node counts as handed out with the address of its data, whichever of the calls returned it.
def call (s : MemUse) : Call → Option MemUse
  | .newObj       => s.pool.newObj.map fun (pool, node) => ⟨pool, (node.map data).toList ++ s.out⟩
  | .freeObj node =>
    if data node ∈ s.out then (s.pool.freeObj node).map (⟨·, s.out.erase (data node)⟩) else none
  | .malloc       => s.step .malloc
  | .free ptr     => s.step (.free ptr)
  | .reset        => s.step .reset

-- `mpool_init` has returned 0.
def Started (objMaxCnt nodeSize : Nat) (s : MemUse) : Prop :=
  objMaxCnt < 2 ^ 32 ∧ ∃ baseaddr stack, stack.length = objMaxCnt ∧
    MemPool.init objMaxCnt nodeSize (some baseaddr) (some stack) = some s.pool ∧ s.out = []

-- Where the offsets of the nodes wrap, several of them have one address.
def Free (s : MemUse) (node : Nat) : Prop :=
  s.out.count (data node) < s.pool.nodes.count node

-- Both return the same node, or none, and leave the same pool. What they read is free.
structure Agree (s : MemUse) : Prop where
  same  : ∃ pool node, s.pool.newObj = some (pool, node) ∧
    s.pool.malloc = some (pool, node.map data)
  reads : ∀ i, s.pool.newObjIndex = some i ∨ s.pool.mallocIndex = some i →
    i < s.pool.nodeCnt ∧ ∃ node, s.pool.stack[i]? = some node ∧ s.Free node

-- `mpool_new_obj` is called where it reads what `mpool_malloc` would.
def ReadsTop (s : MemUse) (c : Call) : Prop :=
  c = .newObj → s.pool.Doubled

end MemUse

-- Any mix of the calls.
def memMix (objMaxCnt nodeSize : Nat) : System MemUse MemUse.Call where
  init := MemUse.Started objMaxCnt nodeSize
  step := MemUse.call

namespace MemUse

open MemPool

variable {s s' : MemUse} {objMaxCnt nodeSize node ptr : Nat} {c : Call}

-- Without wrapping, a free node is one that is not handed out.
theorem free_iff (h : s.pool.nodes.Nodup) :
    s.Free node ↔ node ∈ s.pool.nodes ∧ data node ∉ s.out := by
  unfold Free
  constructor
  case mp =>
    intro lt
    have one := h.count (a := node)
    split at one
    case isFalse => omega
    case isTrue hn => exact ⟨hn, List.count_eq_zero.mp (by omega)⟩
  case mpr =>
    rintro ⟨hn, ho⟩
    rw [List.count_eq_zero.mpr ho]
    exact List.count_pos_iff.mpr hn

structure Kept (s : MemUse) : Prop where
  sized : s.pool.Sized
  perm  : ((s.pool.stack.take s.pool.stackIdx).map data ++ s.out).Perm (s.pool.nodes.map data)

namespace Kept

theorem count_le (h : s.Kept) (node : Nat) :
    (s.pool.stack.take s.pool.stackIdx).count node + s.out.count (data node) =
      s.pool.nodes.count node := by
  have inj : Function.Injective data := fun m n h => Nat.add_right_cancel h
  have := h.perm.count_eq (data node)
  rwa [List.count_append, List.count_map_of_injective _ _ inj, List.count_map_of_injective _ _ inj]
    at this

theorem length_eq (h : s.Kept) : s.pool.stackIdx + s.out.length = s.pool.nodeCnt := by
  have := h.perm.length_eq
  simpa [MemPool.nodes, h.sized.stack, h.sized.idx] using this

-- With all nodes on the stack.
theorem full {pool : MemPool} (h : pool.Sized) :
    ∃ pool', pool.reset = some pool' ∧ Kept ⟨pool', []⟩ := by
  have sized : { pool with stackIdx := 0 }.Sized := ⟨h.lt, h.stack, Nat.zero_le _⟩
  have hn : 0 + pool.nodes.length ≤ pool.nodeCnt := by simp [MemPool.nodes]
  obtain ⟨pool', he, p⟩ := freeObjs_pushed sized hn
  have nodes : pool'.nodes = pool.nodes := p.nodes
  refine ⟨pool', he, p.sized sized hn, ?_⟩
  rw [p.take, nodes]
  simp

-- The uppermost node is taken from the stack.
theorem malloc (h : s.Kept) : ∃ pool ptr, s.pool.malloc = some (pool, ptr) ∧
    Kept ⟨pool, ptr.toList ++ s.out⟩ := by
  by_cases hi : s.pool.stackIdx = 0
  case pos => exact ⟨s.pool, none, if_pos hi, h⟩
  case neg =>
    have hl : s.pool.stackIdx - 1 < s.pool.stack.length := by
      have := h.sized.stack
      have := h.sized.idx
      omega
    have top : s.pool.stack.take s.pool.stackIdx =
        s.pool.stack.take (s.pool.stackIdx - 1) ++ [s.pool.stack[s.pool.stackIdx - 1]] := by
      rw [List.take_append_getElem, Nat.sub_add_cancel (by omega)]
    have perm := h.perm
    rw [top, List.map_append] at perm
    refine ⟨{ s.pool with stackIdx := s.pool.stackIdx - 1 }, some (data _), ?_, ?_,
      Stock.perm_take perm⟩
    case refine_1 => simp [MemPool.malloc, hi, hl, data]
    case refine_2 => exact ⟨h.sized.lt, h.sized.stack, Nat.le_trans (Nat.sub_le _ _) h.sized.idx⟩

-- A node that is handed out is put back.
theorem push (h : s.Kept) (hn : data node ∈ s.out) : s.pool.stackIdx < s.pool.nodeCnt ∧
    ∃ pool, s.pool.push node = some pool ∧ Kept ⟨pool, s.out.erase (data node)⟩ := by
  have hi : s.pool.stackIdx < s.pool.nodeCnt := by
    have := h.length_eq
    have := List.length_pos_of_mem hn
    omega
  obtain ⟨pool, he, p⟩ := push_pushed h.sized hi
  refine ⟨hi, pool, he, p.sized h.sized hi, ?_⟩
  have perm := Stock.perm_give h.perm hn
  rwa [p.nodes, p.take, List.map_append]

theorem data_sub (h : s.Kept) (hp : ptr ∈ s.out) : data (ptr - sizeofListHead) = ptr := by
  obtain ⟨node, _, rfl⟩ := List.mem_map.mp (h.perm.subset (List.mem_append_right _ hp))
  rw [data, data, Nat.add_sub_cancel]

theorem agree_iff (h : s.Kept) : s.Agree ↔ s.pool.Doubled := by
  have inj : Function.Injective data := fun m n h => Nat.add_right_cancel h
  by_cases hi : s.pool.stackIdx = 0
  case pos =>
    refine ⟨fun _ => .inl hi, fun _ => ⟨⟨s.pool, none, if_pos hi, if_pos hi⟩, fun i hr => ?_⟩⟩
    rw [newObjIndex, mallocIndex, if_pos hi, if_pos hi] at hr
    obtain hr | hr := hr <;> cases hr
  case neg =>
    constructor
    case mp =>
      intro ⟨⟨pool, node, new, old⟩, _⟩
      rw [newObj, if_neg hi] at new
      rw [MemPool.malloc, if_neg hi] at old
      obtain ⟨n, hn, new⟩ := Option.map_eq_some_iff.mp new
      obtain ⟨m, hm, old⟩ := Option.map_eq_some_iff.mp old
      cases new
      obtain ⟨_, hd⟩ := Prod.mk.inj old
      have same : m = n := inj (Option.some.inj hd)
      exact .inr ⟨n, hn, same ▸ hm⟩
    case mpr =>
      intro hd
      obtain ⟨node, above, top⟩ := hd.resolve_left hi
      have hl := (List.getElem?_eq_some_iff.mp above).1
      rw [h.sized.stack] at hl
      have free : s.Free node := by
        have entry : (s.pool.stack.take s.pool.stackIdx)[s.pool.stackIdx - 1]? = some node := by
          rw [List.getElem?_take_of_lt (by omega), top]
        have mem : node ∈ s.pool.stack.take s.pool.stackIdx := List.mem_of_getElem? entry
        have := List.count_pos_iff.mpr mem
        have := h.count_le node
        unfold Free
        omega
      refine ⟨⟨{ s.pool with stackIdx := s.pool.stackIdx - 1 }, some node, ?_, ?_⟩, fun i hr => ?_⟩
      case refine_1 => rw [newObj, if_neg hi, above]; rfl
      case refine_2 => rw [MemPool.malloc, if_neg hi]; simp [top, data]
      case refine_3 =>
        rw [newObjIndex, mallocIndex, if_neg hi, if_neg hi] at hr
        obtain hr | hr := hr <;> cases hr
        case inl => exact ⟨hl, node, above, free⟩
        case inr => exact ⟨by omega, node, top, free⟩

theorem call (h : s.Kept) (ok : s.ReadsTop c) (hs : s.call c = some s') : s'.Kept := by
  cases c
  case malloc =>
    obtain ⟨pool, ptr, he, kept⟩ := h.malloc
    simp only [MemUse.call, MemUse.step, he] at hs
    cases hs
    exact kept
  case newObj =>
    -- It does what `mpool_malloc` does.
    obtain ⟨⟨pool, node, new, old⟩, _⟩ := h.agree_iff.mpr (ok rfl)
    obtain ⟨pool', ptr, he, kept⟩ := h.malloc
    rw [old] at he
    cases he
    simp only [MemUse.call, new] at hs
    cases hs
    exact kept
  case freeObj node =>
    obtain ⟨hn, hs⟩ := Option.ite_none_right_eq_some.mp hs
    obtain ⟨hi, pool, he, kept⟩ := h.push hn
    rw [MemPool.freeObj, if_neg (Nat.not_le_of_lt hi), he] at hs
    cases hs
    exact kept
  case free ptr =>
    obtain ⟨hp, hs⟩ := Option.ite_none_right_eq_some.mp hs
    have hd := h.data_sub hp
    obtain ⟨hi, pool, he, kept⟩ := h.push (hd.symm ▸ hp)
    rw [MemPool.free, if_neg (Nat.not_le_of_lt hi), he] at hs
    cases hs
    rwa [hd] at kept
  case reset =>
    obtain ⟨pool, he, kept⟩ := full h.sized
    simp only [MemUse.call, MemUse.step, he] at hs
    cases hs
    exact kept

end Kept

theorem Started.kept (h : Started objMaxCnt nodeSize s) : s.Kept := by
  obtain ⟨lt, baseaddr, stack, hl, hi, ho⟩ := h
  have sized : Sized ⟨objMaxCnt, u32 (nodeSize + sizeofListHead), baseaddr, stack, 0⟩ :=
    ⟨lt, hl, Nat.zero_le _⟩
  obtain ⟨pool, he, kept⟩ := Kept.full sized
  cases Option.some.inj (he.symm.trans hi)
  cases s
  cases ho
  exact kept

-- The two interfaces agree where the entry above the stack is a copy of the uppermost one, and as
-- long as `mpool_new_obj` has been called there only.
theorem mem_mix (h : (memMix objMaxCnt nodeSize).Reach ReadsTop s) : s.Agree ↔ s.pool.Doubled :=
  have kept : s.Kept := h.invariant (fun _ => Started.kept) fun _ _ _ kept ok hs => kept.call ok hs
  kept.agree_iff

-- Two nodes of three are taken, and the first of them is put into the place of the second.
theorem mem_mix_doubled : ∃ s : MemUse, s.out = [1040] ∧ s.pool.stack = [1000, 1048, 1048] ∧ s.Agree := by
  have init : Started 3 8 ⟨⟨3, 24, 1000, [1000, 1024, 1048], 3⟩, []⟩ :=
    ⟨by decide, 1000, [0, 0, 0], rfl, rfl, rfl⟩
  have step {s s' : MemUse} {c : Call} (r : (memMix 3 8).Reach ReadsTop s) (hc : c ≠ .newObj)
      (hs : s.call c = some s') : (memMix 3 8).Reach ReadsTop s' :=
    r.step (fun h => absurd h hc) hs
  have r₁ := step (c := .malloc) (.init init) (by decide) rfl
  have r₂ := step (c := .malloc) r₁ (by decide) rfl
  have r₃ := step (c := .free 1064) r₂ (by decide) rfl
  exact ⟨_, rfl, rfl, (mem_mix r₃).mpr (.inr ⟨1048, rfl, rfl⟩)⟩

-- After `mpool_init`, what stands behind the array is read.
theorem not_mem_mix : ∃ s, (memMix 2 8).Reachable s ∧ s.pool.newObjIndex = some s.pool.nodeCnt ∧
    s.pool.newObj = none ∧ ¬s.Agree := by
  have init : Started 2 8 ⟨⟨2, 24, 1000, [1000, 1024], 2⟩, []⟩ :=
    ⟨by decide, 1000, [0, 0], rfl, rfl, rfl⟩
  refine ⟨_, .init init, rfl, rfl, fun agree => ?_⟩
  obtain ⟨_, _, new, _⟩ := agree.same
  cases new

end MemUse
end NetPool
