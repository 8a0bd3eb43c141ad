import NetPool.Lib.Turns

namespace NetPool

-- The fields of CThreadPool that `get_new_core` uses.
structure Cores where
  startCoreId : BitVec 32
  curCoreId   : BitVec 32
  useCoreCnt  : BitVec 32
  deriving DecidableEq

namespace Cores

def noSpecCore : BitVec 32 :=
  0xffff

-- What Init makes of its arguments.
def init (startCore coreCnt : BitVec 32) : Cores :=
  ⟨startCore, startCore, coreCnt⟩

def getNewCore (c : Cores) : Cores × BitVec 32 :=
  if c.useCoreCnt ≠ 0 then
    let cur := c.startCoreId + (c.curCoreId - c.startCoreId) % c.useCoreCnt
    ({ c with curCoreId := cur + 1 }, cur)
  else (c, noSpecCore)

-- The cores that the first `n` workers are given when the pool starts them.
def newCores (c : Cores) : Nat → Cores × List (BitVec 32)
  | 0     => (c, [])
  | n + 1 =>
    let (c, cores) := c.newCores n
    let (c, core)  := c.getNewCore
    (c, cores ++ [core])

variable {start cnt : BitVec 32} {n u v : Nat}

-- The core with the number `v` among those of the pool.
def core (start : BitVec 32) (v : Nat) : BitVec 32 :=
  start + BitVec.ofNat 32 v

theorem umod_ofNat (hn : n < 2 ^ 32) : BitVec.ofNat 32 n % cnt = BitVec.ofNat 32 (n % cnt.toNat) := by
  refine BitVec.eq_of_toNat_eq ?_
  have hm : n % cnt.toNat < 2 ^ 32 := Nat.lt_of_le_of_lt (Nat.mod_le _ _) hn
  rw [BitVec.toNat_umod, BitVec.toNat_ofNat, BitVec.toNat_ofNat, Nat.mod_eq_of_lt hn,
    Nat.mod_eq_of_lt hm]

-- `n` cores have been given out.
structure AtTurn (start cnt : BitVec 32) (n : Nat) (c : Cores) : Prop where
  cur         : (c.curCoreId - start) % cnt = BitVec.ofNat 32 (n % cnt.toNat)
  startCoreId : c.startCoreId = start
  useCoreCnt  : c.useCoreCnt = cnt

theorem AtTurn.next {c : Cores} (h : AtTurn start cnt n c) (hc : cnt ≠ 0) :
    AtTurn start cnt (n + 1) c.getNewCore.1 ∧ c.getNewCore.2 = core start (n % cnt.toNat) := by
  obtain ⟨cur, rfl, rfl⟩ := h
  have pos : 0 < c.useCoreCnt.toNat := Nat.pos_of_ne_zero fun h => hc (BitVec.eq_of_toNat_eq h)
  have lt : n % c.useCoreCnt.toNat + 1 < 2 ^ 32 :=
    Nat.lt_of_le_of_lt (Nat.mod_lt n pos) c.useCoreCnt.isLt
  have next : c.startCoreId + BitVec.ofNat 32 (n % c.useCoreCnt.toNat) + 1 - c.startCoreId =
      BitVec.ofNat 32 (n % c.useCoreCnt.toNat + 1) := by
    rw [BitVec.add_assoc, BitVec.add_comm, BitVec.add_sub_cancel, BitVec.ofNat_add]
    rfl
  unfold getNewCore
  rw [if_pos hc, cur]
  exact ⟨⟨by rw [next, umod_ofNat lt, Nat.mod_add_mod], rfl, rfl⟩, rfl⟩

theorem newCores_succ {c : Cores} :
    (c.newCores (n + 1)).2 = (c.newCores n).2 ++ [(c.newCores n).1.getNewCore.2] :=
  rfl

theorem newCores_turns (hc : cnt ≠ 0) (n : Nat) :
    AtTurn start cnt n ((init start cnt).newCores n).1 ∧
      ((init start cnt).newCores n).2 = (turns cnt.toNat 0 n).map (core start) := by
  induction n
  case zero      => exact ⟨⟨by simp [newCores, init], rfl, rfl⟩, rfl⟩
  case succ n hi =>
    obtain ⟨turn, cores⟩ := hi
    obtain ⟨turn, core⟩ := turn.next hc
    refine ⟨turn, ?_⟩
    rw [newCores_succ, Turns.turns_succ, List.map_append, ← cores, core, Nat.zero_add]
    rfl

theorem core_inj (hu : u < cnt.toNat) (hv : v < cnt.toNat) : core start u = core start v ↔ u = v := by
  have small {w : Nat} (hw : w < cnt.toNat) : (BitVec.ofNat 32 w).toNat = w :=
    Nat.mod_eq_of_lt (Nat.lt_trans hw cnt.isLt)
  refine ⟨fun h => ?_, congrArg _⟩
  have := congrArg BitVec.toNat ((BitVec.add_right_inj _).mp h)
  rwa [small hu, small hv] at this

-- The cores that the workers of a pool are given, which are the `cnt` ones from `start` on, are given
-- evenly. A worker that is given `noSpecCore` or whom the system refuses the core runs anywhere.
theorem even_cores (hc : cnt ≠ 0) (n : Nat) :
    (∀ c ∈ ((init start cnt).newCores n).2, ∃ v < cnt.toNat, c = core start v) ∧
    ∀ u < cnt.toNat, ∀ v < cnt.toNat,
      ((init start cnt).newCores n).2.count (core start u) ≤
        ((init start cnt).newCores n).2.count (core start v) + 1 := by
  have cores : ((init start cnt).newCores n).2 = _ := (newCores_turns hc n).2
  have mem {v : Nat} (hv : v ∈ turns cnt.toNat 0 n) : v < cnt.toNat :=
    Turns.lt_of_mem (Nat.pos_of_ne_zero fun h => hc (BitVec.eq_of_toNat_eq h)) hv
  have count {v : Nat} (hv : v < cnt.toNat) :
      ((turns cnt.toNat 0 n).map (core start)).count (core start v) = (turns cnt.toNat 0 n).count v := by
    rw [List.count, List.count, List.countP_map]
    refine List.countP_congr fun u hu => ?_
    simpa using core_inj (mem hu) hv
  rw [cores]
  refine ⟨fun c hm => ?_, fun u hu v hv => ?_⟩
  case refine_1 =>
    obtain ⟨v, hv, rfl⟩ := List.mem_map.mp hm
    exact ⟨v, mem hv, rfl⟩
  case refine_2 =>
    rw [count hu, count hv]
    exact Turns.count_turns_le hu hv

-- Seven workers on three cores.
theorem even_cores_seven :
    ((init 4 3).newCores 7).2 = [4, 5, 6, 4, 5, 6, 4] ∧ ∀ u < 3, ∀ v < 3,
      ((init 4 3).newCores 7).2.count (core 4 u) ≤ ((init 4 3).newCores 7).2.count (core 4 v) + 1 := by
  have h : (3 : BitVec 32) ≠ 0 := by decide
  exact ⟨by decide, (even_cores h 7).2⟩

end Cores
end NetPool
