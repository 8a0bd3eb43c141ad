import Mathlib

namespace NetPool

-- What an outcome means to a loop that transfers bytes until it has all of them: it tries again, it
-- has transferred some, it leaves with what it has, or it reports that it has nothing.
inductive Kind
  | again
  | data
  | stop
  | fail
  deriving DecidableEq

-- Outcomes of the calls of such a loop, for `len` bytes. At the position `pos`, an outcome transfers
-- as many bytes as it has, or as are left.
structure Channel (ω β : Type*) where
  len    : Nat
  kind   : ω → Kind
  size   : ω → Nat
  bytes  : Nat → ω → List β
  length : ∀ pos o, (bytes pos o).length = min (size o) (len - pos)

-- What is returned, what has been transferred, and the outcomes that are left.
structure Transferred (ω β : Type*) where
  ret  : Nat
  data : List β
  rest : List ω
  deriving DecidableEq

def Transferred.result {ω β : Type*} (t : Transferred ω β) : Nat × List β :=
  (t.ret, t.data)

namespace Channel

variable {ω β : Type*}

-- The loop. Behind the last of the outcomes it waits in vain.
def transfer (c : Channel ω β) : List β → List ω → Transferred ω β
  | data, []      => ⟨data.length, data, []⟩
  | data, o :: os =>
    match c.kind o with
    | .again => c.transfer data os
    | .data  =>
      let data := data ++ c.bytes data.length o
      if data.length = c.len then ⟨c.len, data, os⟩ else c.transfer data os
    | .stop  => ⟨data.length, data, os⟩
    | .fail  => ⟨0, data, os⟩

def run (c : Channel ω β) (os : List ω) : Transferred ω β :=
  c.transfer [] os

def total (c : Channel ω β) (os : List ω) : Nat :=
  (os.map fun o => if c.kind o = .data then c.size o else 0).sum

-- The loop is left at one of the outcomes.
def Ended (c : Channel ω β) (os : List ω) : Prop :=
  c.len ≤ c.total os ∨ ∃ o ∈ os, c.kind o = .stop ∨ c.kind o = .fail

-- All bytes are transferred before the loop is left.
def Complete (c : Channel ω β) (os : List ω) : Prop :=
  c.len ≤ c.total (os.takeWhile fun o => c.kind o ≠ .stop ∧ c.kind o ≠ .fail)

instance (c : Channel ω β) (os : List ω) : Decidable (c.Complete os) :=
  Nat.decLe _ _

-- Nothing is transferred, and 0 is returned when `got` bytes have been transferred before.
def Fruitless (c : Channel ω β) (got : Nat) : List ω → Prop
  | []      => got = 0
  | o :: os =>
    match c.kind o with
    | .again => c.Fruitless got os
    | .data  => c.size o = 0 ∧ c.Fruitless got os
    | .stop  => got = 0
    | .fail  => True

variable {c : Channel ω β} {data : List β} {os pre post : List ω} {o e : ω}

section Step

theorem transfer_again (h : c.kind o = .again) :
    c.transfer data (o :: os) = c.transfer data os := by
  rw [transfer, h]

theorem transfer_stop (h : c.kind o = .stop) :
    c.transfer data (o :: os) = ⟨data.length, data, os⟩ := by
  rw [transfer, h]

theorem transfer_fail (h : c.kind o = .fail) : c.transfer data (o :: os) = ⟨0, data, os⟩ := by
  rw [transfer, h]

-- The outcome has as many bytes as are left.
theorem transfer_full (h : c.kind o = .data) (hd : data.length < c.len)
    (hs : c.len ≤ data.length + c.size o) : c.transfer data (o :: os) =
    ⟨c.len, data ++ c.bytes data.length o, os⟩ := by
  have full : (data ++ c.bytes data.length o).length = c.len := by
    rw [List.length_append, c.length]
    omega
  rw [transfer, h]
  exact if_pos full

-- The outcome has less.
theorem transfer_part (h : c.kind o = .data) (hs : data.length + c.size o < c.len)
    (os : List ω) : c.transfer data (o :: os) = c.transfer (data ++ c.bytes data.length o) os ∧
      (data ++ c.bytes data.length o).length = data.length + c.size o := by
  have part : (data ++ c.bytes data.length o).length = data.length + c.size o := by
    rw [List.length_append, c.length]
    omega
  refine ⟨?_, part⟩
  rw [transfer, h]
  exact if_neg (by omega)

theorem total_cons_data (h : c.kind o = .data) : c.total (o :: os) = c.size o + c.total os := by
  simp [total, h]

theorem total_cons (h : c.kind o ≠ .data) : c.total (o :: os) = c.total os := by
  simp [total, h]

end Step

theorem prefix_transfer : data <+: (c.transfer data os).data := by
  induction os generalizing data
  case nil => exact List.prefix_refl _
  case cons o os ih =>
    unfold transfer
    split
    case h_1 => exact ih
    case h_2 =>
      have pre : data <+: data ++ c.bytes data.length o := List.prefix_append _ _
      dsimp only
      split
      case isTrue  => exact pre
      case isFalse => exact pre.trans ih
    case h_3 | h_4 => exact List.prefix_refl _

-- What comes behind the end of the loop does not matter.
theorem transfer_of_ended (hd : data.length < c.len)
    (h : c.len ≤ data.length + c.total pre ∨ ∃ o ∈ pre, c.kind o = .stop ∨ c.kind o = .fail)
    (x y : List ω) : (c.transfer data (pre ++ x)).result = (c.transfer data (pre ++ y)).result := by
  induction pre generalizing data
  case nil =>
    obtain h | ⟨_, h, _⟩ := h
    case inl => simp only [total, List.map_nil, List.sum_nil] at h; omega
    case inr => cases h
  case cons o os ih =>
    rw [List.cons_append, List.cons_append]
    cases hk : c.kind o
    case stop => rw [transfer_stop hk, transfer_stop hk]; rfl
    case fail => rw [transfer_fail hk, transfer_fail hk]; rfl
    case again =>
      rw [transfer_again hk, transfer_again hk]
      refine ih hd ?_
      rw [total_cons (by simp [hk])] at h
      simpa [hk] using h
    case data =>
      by_cases hs : c.len ≤ data.length + c.size o
      case pos => rw [transfer_full hk hd hs, transfer_full hk hd hs]; rfl
      case neg =>
        have part := transfer_part hk (Nat.lt_of_not_le hs)
        have length := (part os).2
        rw [(part _).1, (part _).1]
        refine ih (by omega) ?_
        rw [length, Nat.add_assoc, ← total_cons_data hk]
        simpa [hk] using h

-- Up to there, the bytes of the outcomes are transferred.
theorem transfer_of_not_ended (hd : data.length + c.total pre < c.len)
    (h : ∀ o ∈ pre, c.kind o ≠ .stop ∧ c.kind o ≠ .fail) : ∃ data' : List β,
    data'.length = data.length + c.total pre ∧
    ∀ x, c.transfer data (pre ++ x) = c.transfer data' x := by
  induction pre generalizing data
  case nil => exact ⟨data, by simp [total], fun _ => rfl⟩
  case cons o os ih =>
    obtain ⟨⟨ns, nf⟩, h⟩ := List.forall_mem_cons.mp h
    cases hk : c.kind o
    case stop => exact absurd hk ns
    case fail => exact absurd hk nf
    case again =>
      rw [total_cons (by simp [hk])] at hd ⊢
      obtain ⟨data', length, same⟩ := ih hd h
      exact ⟨data', length, fun x => by rw [List.cons_append, transfer_again hk, same]⟩
    case data =>
      rw [total_cons_data hk] at hd ⊢
      have less : data.length + c.size o < c.len := by omega
      have part := transfer_part hk less
      have here := (part os).2
      have hd : (data ++ c.bytes data.length o).length + c.total os < c.len := by omega
      obtain ⟨data', length, same⟩ := ih hd h
      exact ⟨data', by omega, fun x => by rw [List.cons_append, (part _).1, same]⟩

theorem transfer_fruitless_iff (hd : data.length < c.len) :
    (c.transfer data post).result = (0, data) ↔ c.Fruitless data.length post := by
  induction post generalizing data
  case nil => simp [transfer, Transferred.result, Fruitless]
  case cons o os ih =>
    rw [Fruitless]
    cases hk : c.kind o
    case again => rw [transfer_again hk, ih hd]
    case stop  => simp [transfer_stop hk, Transferred.result]
    case fail  => simp [transfer_fail hk, Transferred.result]
    case data =>
      by_cases hs : c.size o = 0
      case pos =>
        have less : data.length + c.size o < c.len := by omega
        have part := transfer_part hk less os
        have same : data ++ c.bytes data.length o = data := by
          simpa [hs] using part.2
        rw [part.1, same, ih hd]
        simp [hs]
      case neg =>
        -- What has been transferred stays.
        have longer : data.length < (data ++ c.bytes data.length o).length := by
          rw [List.length_append, c.length]
          omega
        have kept : data ++ c.bytes data.length o <+: (c.transfer data (o :: os)).data := by
          rw [transfer, hk]
          dsimp only
          split
          case isTrue  => exact List.prefix_refl _
          case isFalse => exact prefix_transfer
        refine ⟨fun h => ?_, fun h => absurd h.1 hs⟩
        rw [(Prod.mk.inj h).2] at kept
        exact absurd kept.length_le (Nat.not_le_of_lt longer)

theorem transfer_ret_iff (hd : data.length < c.len) : (c.transfer data os).ret = c.len ↔
    c.len ≤ data.length +
      c.total (os.takeWhile fun o => c.kind o ≠ .stop ∧ c.kind o ≠ .fail) := by
  induction os generalizing data
  case nil => simp only [transfer, List.takeWhile_nil, total, List.map_nil, List.sum_nil]; omega
  case cons o os ih =>
    cases hk : c.kind o
    case stop =>
      rw [transfer_stop hk, List.takeWhile_cons_of_neg (by simp [hk])]
      simp only [total, List.map_nil, List.sum_nil]
      omega
    case fail =>
      rw [transfer_fail hk, List.takeWhile_cons_of_neg (by simp [hk])]
      simp only [total, List.map_nil, List.sum_nil]
      omega
    case again =>
      rw [transfer_again hk, List.takeWhile_cons_of_pos (by simp [hk]),
        total_cons (by simp [hk]), ih hd]
    case data =>
      rw [List.takeWhile_cons_of_pos (by simp [hk]), total_cons_data hk]
      by_cases hs : c.len ≤ data.length + c.size o
      case pos =>
        rw [transfer_full hk hd hs]
        exact iff_of_true rfl (by omega)
      case neg =>
        have part := transfer_part hk (Nat.lt_of_not_le hs) os
        rw [part.1, ih (by omega), part.2, Nat.add_assoc]

theorem run_ret_iff (h : 0 < c.len) (os : List ω) : (c.run os).ret = c.len ↔ c.Complete os := by
  have none : ([] : List β).length < c.len := h
  rw [run, transfer_ret_iff none, List.length_nil, Nat.zero_add]
  rfl

-- Of no bytes, nothing is transferred.
theorem run_of_len_eq_zero (h : c.len = 0) (os : List ω) : (c.run os).result = (0, []) := by
  have none (o : ω) : c.bytes 0 o = [] := List.length_eq_zero_iff.mp (by rw [c.length]; omega)
  unfold run
  induction os
  case nil => rfl
  case cons o os ih =>
    cases hk : c.kind o
    case again => rw [transfer_again hk, ih]
    case stop  => rw [transfer_stop hk]; rfl
    case fail  => rw [transfer_fail hk]; rfl
    case data  =>
      rw [transfer, hk]
      simp [none, h, Transferred.result]

-- A failing outcome that is put in between changes nothing if the loop is left before, or if it
-- would transfer nothing more and return 0.
theorem run_insert_iff (he : c.kind e = .fail) (pre post post' : List ω) :
    (c.run (pre ++ e :: post')).result = (c.run (pre ++ post)).result ↔
      c.Ended pre ∨ c.Fruitless (c.total pre) post := by
  by_cases hd : c.len = 0
  case pos =>
    rw [run_of_len_eq_zero hd, run_of_len_eq_zero hd]
    exact ⟨fun _ => .inl (.inl (by omega)), fun _ => rfl⟩
  case neg =>
    by_cases ended : c.Ended pre
    case pos =>
      have pos : ([] : List β).length < c.len := Nat.pos_of_ne_zero hd
      have same := transfer_of_ended pos (ended.imp_left fun h => by simpa using h) (e :: post') post
      exact ⟨fun _ => .inl ended, fun _ => same⟩
    case neg =>
      obtain ⟨short, goes⟩ := not_or.mp ended
      have short : c.total pre < c.len := Nat.lt_of_not_le short
      have less : ([] : List β).length + c.total pre < c.len := by simpa using short
      obtain ⟨data, length, same⟩ := transfer_of_not_ended less fun o ho =>
        not_or.mp fun h => goes ⟨o, ho, h⟩
      rw [List.length_nil, Nat.zero_add] at length
      rw [run, run, same, same, transfer_fail he, ← length, eq_comm]
      exact (transfer_fruitless_iff (by omega)).trans (or_iff_right ended).symm

end Channel
end NetPool
