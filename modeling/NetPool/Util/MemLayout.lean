import NetPool.Util.MemPool

namespace NetPool.MemPool

variable {s s' : MemPool} {node objMaxCnt nodeSize i j : Nat} {ns : List Nat}

-- `m_node_cnt * m_node_size`: as many bytes are asked for from `malloc`, and cleared by `memset`.
def blockSize (s : MemPool) : Nat :=
  u32 (s.nodeCnt * s.nodeSize)

-- The addresses of the block, where `malloc` has returned one.
def block (s : MemPool) : Set Nat :=
  Set.Ico s.baseaddr (s.baseaddr + s.blockSize)

-- What `memset` writes.
def cleared (s : MemPool) : Set Nat :=
  Set.Ico s.baseaddr (s.baseaddr + s.blockSize)

-- A node with the data that it is meant for.
def nodeBytes (s : MemPool) (nodeSize i : Nat) : Set Nat :=
  Set.Ico (s.node i) (s.node i + (nodeSize + sizeofListHead))

structure Layout (objMaxCnt nodeSize : Nat) (s : MemPool) : Prop where
  cleared : s.cleared ⊆ s.block
  inside  : ∀ i < objMaxCnt, s.nodeBytes nodeSize i ⊆ s.block
  apart   : ∀ i < objMaxCnt, ∀ j < objMaxCnt, i ≠ j →
    Disjoint (s.nodeBytes nodeSize i) (s.nodeBytes nodeSize j)

section Init

-- The nodes stay where they are.
structure Kept (s s' : MemPool) : Prop where
  nodeCnt  : s'.nodeCnt = s.nodeCnt
  nodeSize : s'.nodeSize = s.nodeSize
  baseaddr : s'.baseaddr = s.baseaddr
  length   : s'.stack.length = s.stack.length

theorem Kept.refl : s.Kept s :=
  ⟨rfl, rfl, rfl, rfl⟩

theorem Kept.trans {s'' : MemPool} (h : s.Kept s') (h' : s'.Kept s'') : s.Kept s'' :=
  ⟨h'.nodeCnt.trans h.nodeCnt, h'.nodeSize.trans h.nodeSize, h'.baseaddr.trans h.baseaddr,
    h'.length.trans h.length⟩

theorem push_kept (h : s.push node = some s') : s.Kept s' := by
  have ⟨_, h⟩ := Option.ite_none_right_eq_some.mp h
  cases h
  exact ⟨rfl, rfl, rfl, List.length_set⟩

theorem freeObj_kept (h : s.freeObj node = some s') : s.Kept s' := by
  unfold freeObj at h
  split at h
  case isTrue  => cases h; exact .refl
  case isFalse => exact push_kept h

theorem freeObjs_kept (h : s.freeObjs ns = some s') : s.Kept s' := by
  induction ns generalizing s
  case nil => cases h; exact .refl
  case cons node ns ih =>
    have ⟨s₁, h₁, h⟩ := Option.bind_eq_some_iff.mp h
    exact (freeObj_kept h₁).trans (ih h)

-- With an entry of the array for each of the nodes, none of them is put outside of it.
theorem freeObj_isSome (node : Nat) (hl : s.stack.length = s.nodeCnt) :
    ∃ s', s.freeObj node = some s' := by
  unfold freeObj
  split
  case isTrue     => exact ⟨s, rfl⟩
  case isFalse hi => exact ⟨_, if_pos (hl ▸ Nat.lt_of_not_le hi)⟩

theorem freeObjs_isSome (hl : s.stack.length = s.nodeCnt) : ∃ s', s.freeObjs ns = some s' := by
  induction ns generalizing s
  case nil => exact ⟨s, rfl⟩
  case cons node ns ih =>
    have ⟨s₁, h₁⟩ := freeObj_isSome node hl
    have kept := freeObj_kept h₁
    have ⟨s₂, h₂⟩ := ih (kept.length.trans (hl.trans kept.nodeCnt.symm))
    exact ⟨s₂, by rw [freeObjs, h₁, Option.bind_some, h₂]⟩

theorem init_kept {baseaddr : Option Nat} {stack : Option (List Nat)} {pool : MemPool}
    (h : init objMaxCnt nodeSize baseaddr stack = some pool) :
    pool.nodeCnt = objMaxCnt ∧ pool.nodeSize = u32 (nodeSize + sizeofListHead) := by
  unfold init at h
  split at h
  case h_1 => exact ⟨(freeObjs_kept h).nodeCnt, (freeObjs_kept h).nodeSize⟩
  case h_2 => cases h

theorem init_isSome (objMaxCnt nodeSize baseaddr : Nat) : ∃ pool,
    init objMaxCnt nodeSize (some baseaddr) (some (List.replicate objMaxCnt 0)) = some pool :=
  freeObjs_isSome List.length_replicate

end Init

theorem nodeBytes_subset : s.nodeBytes nodeSize i ⊆ s.block ↔
    u32 (i * s.nodeSize) + (nodeSize + sizeofListHead) ≤ s.blockSize := by
  have pos : s.node i < s.node i + (nodeSize + sizeofListHead) := by
    simp only [sizeofListHead]
    omega
  rw [nodeBytes, block, Set.Ico_subset_Ico_iff pos, node]
  omega

section Counted

variable (total : s.nodeCnt * s.nodeSize < 2 ^ 32) (size : s.nodeSize = nodeSize + sizeofListHead)
include total size

theorem nodeBytes_subset_of_lt (hi : i < s.nodeCnt) : s.nodeBytes nodeSize i ⊆ s.block := by
  have last : (i + 1) * s.nodeSize ≤ s.nodeCnt * s.nodeSize := Nat.mul_le_mul_right _ hi
  rw [Nat.add_mul, Nat.one_mul] at last
  rw [nodeBytes_subset, blockSize, u32_eq total, u32_eq (by omega), ← size]
  exact last

theorem nodeBytes_disjoint_of_lt (hij : i < j) (hj : j < s.nodeCnt) :
    Disjoint (s.nodeBytes nodeSize i) (s.nodeBytes nodeSize j) := by
  have le := node_add_le total hij hj
  rw [size] at le
  exact Set.disjoint_left.mpr fun _ ⟨_, hi⟩ ⟨hj, _⟩ => absurd (hi.trans_le le) (Nat.not_lt_of_le hj)

end Counted

-- As long as the bytes of all the nodes can be counted, the block has them.
theorem layout_of_lt (cnt : s.nodeCnt = objMaxCnt)
    (size : s.nodeSize = u32 (nodeSize + sizeofListHead))
    (h : objMaxCnt = 0 ∨ objMaxCnt * (nodeSize + sizeofListHead) < 2 ^ 32) :
    s.Layout objMaxCnt nodeSize := by
  have counted (hc : 0 < objMaxCnt) :
      s.nodeCnt * s.nodeSize < 2 ^ 32 ∧ s.nodeSize = nodeSize + sizeofListHead := by
    have total := h.resolve_left (Nat.ne_of_gt hc)
    have le := Nat.le_mul_of_pos_left (nodeSize + sizeofListHead) hc
    rw [u32_eq (Nat.lt_of_le_of_lt le total)] at size
    exact ⟨by rwa [cnt, size], size⟩
  refine ⟨Set.Subset.rfl, fun i hi => ?_, fun i hi j hj hn => ?_⟩
  case refine_1 =>
    have ⟨total, size⟩ := counted (Nat.zero_lt_of_lt hi)
    exact nodeBytes_subset_of_lt total size (cnt ▸ hi)
  case refine_2 =>
    have ⟨total, size⟩ := counted (Nat.zero_lt_of_lt hi)
    obtain hij | hji := Nat.lt_or_gt_of_ne hn
    · exact nodeBytes_disjoint_of_lt total size hij (cnt ▸ hj)
    · exact (nodeBytes_disjoint_of_lt total size hji (cnt ▸ hi)).symm

-- When the nodes are all inside of the block, each of them begins where the one before it ends, up
-- to the last.
theorem Layout.total (h : s.Layout objMaxCnt nodeSize)
    (size : s.nodeSize = u32 (nodeSize + sizeofListHead)) :
    objMaxCnt = 0 ∨ objMaxCnt * (nodeSize + sizeofListHead) < 2 ^ 32 := by
  by_cases hc : objMaxCnt = 0
  case pos => exact .inl hc
  case neg =>
    have block : s.blockSize < 2 ^ 32 := Nat.mod_lt _ (Nat.two_pow_pos 32)
    have inside (i : Nat) (hi : i < objMaxCnt) := nodeBytes_subset.mp (h.inside i hi)
    have first := inside 0 (Nat.pos_of_ne_zero hc)
    have size : s.nodeSize = nodeSize + sizeofListHead := size.trans (u32_eq (by omega))
    have run (i : Nat) (hi : i ≤ objMaxCnt) : i * (nodeSize + sizeofListHead) < 2 ^ 32 := by
      induction i
      case zero => omega
      case succ i ih =>
        have node := inside i hi
        rw [size, u32_eq (ih (Nat.le_of_lt hi))] at node
        rw [Nat.add_mul, Nat.one_mul]
        omega
    exact .inr (run objMaxCnt (Nat.le_refl _))

-- The size of the block and the offsets of the nodes wrap in 32 bits.
theorem pool_layout (objMaxCnt nodeSize : Nat) :
    (∀ baseaddr stack pool, init objMaxCnt nodeSize baseaddr stack = some pool →
      pool.Layout objMaxCnt nodeSize) ↔
    objMaxCnt = 0 ∨ objMaxCnt * (nodeSize + sizeofListHead) < 2 ^ 32 := by
  constructor
  case mp =>
    intro h
    have ⟨pool, hi⟩ := init_isSome objMaxCnt nodeSize 0
    exact (h _ _ pool hi).total (init_kept hi).2
  case mpr =>
    intro h baseaddr stack pool hi
    have ⟨cnt, size⟩ := init_kept hi
    exact layout_of_lt cnt size h

-- The size of a node wraps to 0, so that both nodes are at the beginning of a block of no bytes.
theorem not_pool_layout : ∃ pool, init 2 (2 ^ 32 - 16) (some 4096) (some [0, 0]) = some pool ∧
    (pool.blockSize = 0 ∧ pool.node 0 = pool.node 1) ∧ ¬pool.Layout 2 (2 ^ 32 - 16) := by
  refine ⟨⟨2, 0, 4096, [4096, 4096], 2⟩, by decide, by decide, fun h => ?_⟩
  exact absurd (nodeBytes_subset.mp (h.inside 0 (by decide))) (by decide)

end NetPool.MemPool
