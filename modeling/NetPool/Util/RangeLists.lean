import NetPool.Util.Ports
import NetPool.Util.ShortForm

namespace NetPool

-- `util_str_trim`, which goes through `src` with an `int`: no longer text has a result.
def utilStrTrim (src : List Char) (find : Char) : Option (List Char) :=
  if src.length < 2 ^ 31 then
    some ((src.dropWhile (· = find)).reverse.dropWhile (· = find)).reverse
  else none

-- A call of `strtok`: the next token, and what comes behind it and its delimiter.
def strtok (delim : Char) (s : List Char) : Option (List Char × List Char) :=
  match s.dropWhile (· = delim) with
  | [] => none
  | s  => some (s.takeWhile (· ≠ delim), (s.dropWhile (· ≠ delim)).tail)

-- The results of the calls, of which there are at most `n`. A token is edited in place before the
-- next call, which goes on behind it.
def strtoks (delim : Char) : Nat → List Char → List (List Char)
  | 0,     _ => []
  | n + 1, s =>
    match strtok delim s with
    | none           => []
    | some (t, rest) => t :: strtoks delim n rest

-- What a parser of one element of a list returns.
inductive ItemRet (α : Type)
  | ok (range : α)
  | error
  | undefined
  deriving DecidableEq

-- What a parser of a list returns.
inductive ListRet
  | ok (cnt : Nat)
  | error
  | undefined
  deriving DecidableEq

namespace ItemRet

variable {α : Type}

def isOk : ItemRet α → Bool
  | ok _ => true
  | error | undefined => false

-- What is returned for a list when one of its elements is not accepted.
def failed : ItemRet α → ListRet
  | ok _ | error => .error
  | undefined    => .undefined

theorem isOk_iff {r : ItemRet α} : r.isOk ↔ ∃ range, r = ok range := by
  cases r <;> simp [isOk]

end ItemRet

-- `ipRanges` and `ipIndex`, or `portRanges` and `portIndex`. The entries which a parser of an
-- element was called with are listed in `written`.
structure RangeList (α : Type) where
  index   : Nat
  entries : List α
  written : List Nat

namespace RangeList

variable {α : Type}

-- `&ipRanges[ipIndex]` is handed to the parser of an element.
def touch (s : RangeList α) : RangeList α :=
  { s with written := s.written ++ [s.index] }

-- The element has been accepted. The index is a `uint16_t`.
def next (s : RangeList α) (range : α) : RangeList α := { s.touch with
  index   := (s.index + 1) % 2 ^ 16
  entries := s.entries.set s.index range }

-- The loop of `engine_ip_parse_ranges` and of `port_parse_ranges`.
def parse (item : List Char → ItemRet α) (maxCnt : Nat) (s : RangeList α) :
    List (List Char) → ListRet × RangeList α
  | []      => (.ok s.index, s)
  | t :: ts =>
    if s.index ≥ maxCnt then (.error, s)
    else match item t with
      | .error     => (.error, s.touch)
      | .undefined => (.undefined, s.touch)
      | .ok range  => parse item maxCnt (s.next range) ts

end RangeList

-- `engine_ip_parse_ranges` and `port_parse_ranges` differ in the parser of an element.
def parseRangesOf {α : Type} (item : List Char → ItemRet α) (str : List Char) (ranges : List α)
    (maxCnt : Nat) : ListRet × RangeList α :=
  match utilStrTrim str ' ' with
  | none     => (.undefined, ⟨0, ranges, []⟩)
  | some str =>
    match strtoks ',' str.length str with
    | [] => (.error, ⟨0, ranges, []⟩)
    | ts => RangeList.parse item maxCnt ⟨0, ranges, []⟩ ts

def ipItem (e : Endian) (pton : InetPton) (t : List Char) : ItemRet IpRange :=
  match parseRange e pton t with
  | .ok range  => .ok range
  | .error     => .error
  | .undefined => .undefined

def portItem (t : List Char) : ItemRet PortRange :=
  match portParseRange t with
  | some range => .ok range
  | none       => .error

def engineIpParseRanges (e : Endian) (pton : InetPton) :
    List Char → List IpRange → Nat → ListRet × RangeList IpRange :=
  parseRangesOf (ipItem e pton)

def portParseRanges : List Char → List PortRange → Nat → ListRet × RangeList PortRange :=
  parseRangesOf portItem

-- The pieces between the commas that are not empty.
def pieces (s : List Char) : List (List Char) :=
  (s.splitOn ',').filter (· ≠ [])

def stripped (s : List Char) : List Char :=
  (s.dropWhile (· = ' ')).rdropWhile (· = ' ')

-- The list is parsed piece by piece, into as many entries as there are.
structure ElementWise {α : Type} (item : List Char → ItemRet α) (maxCnt : Nat)
    (ts : List (List Char)) (r : ListRet × RangeList α) : Prop where
  defined  : r.1 ≠ .undefined
  zero     : ∀ cnt, r.1 = .ok cnt → 1 ≤ ts.length ∧ ts.length ≤ maxCnt ∧ cnt = ts.length ∧
    ∀ (i : Nat) t, ts[i]? = some t → ∃ range, item t = .ok range ∧ r.2.entries[i]? = some range
  rejected : maxCnt < ts.length ∨ ts = [] ∨ (∃ t ∈ ts, item t = .error) → r.1 = .error
  bounds   : ∀ i ∈ r.2.written, i < maxCnt

-- The index does not come back to 0.
def NoWrap {α : Type} (item : List Char → ItemRet α) (maxCnt : Nat) (ts : List (List Char)) : Prop :=
  ¬(2 ^ 16 ≤ maxCnt ∧ 2 ^ 16 ≤ ts.length ∧ ∀ t ∈ ts, (item t).isOk)

-- The pieces for which the index finds an entry.
def room (maxCnt index : Nat) (ts : List (List Char)) : List (List Char) :=
  if maxCnt < 2 ^ 16 then ts.take (maxCnt - index) else ts

def firstFailed {α : Type} (item : List Char → ItemRet α) (maxCnt index : Nat)
    (ts : List (List Char)) : Option (List Char) :=
  (room maxCnt index ts).find? fun t => !(item t).isOk

section Tokens

variable {s t : List Char} {n : Nat}

theorem pieces_dropWhile (s : List Char) : pieces (s.dropWhile (· = ',')) = pieces s := by
  induction s
  case nil => rfl
  case cons c cs ih =>
    by_cases hc : c = ','
    case neg => rw [List.dropWhile_cons_of_neg (by simpa using hc)]
    case pos =>
      rw [List.dropWhile_cons_of_pos (by simpa using hc), ih]
      simp [pieces, hc, List.splitOn_cons_eq_if_modifyHead]

theorem pieces_single (hn : t ≠ []) (ht : ',' ∉ t) : pieces t = [t] := by
  simp [pieces, List.splitOn_eq_singleton ht, hn]

theorem pieces_append (hn : t ≠ []) (ht : ',' ∉ t) : pieces (t ++ ',' :: s) = t :: pieces s := by
  simp [pieces, List.splitOn_append_cons_self_of_not_mem ht, hn]

-- The tokens of `strtok` are the pieces that are not empty.
theorem strtoks_eq_pieces (h : s.length ≤ n) : strtoks ',' n s = pieces s := by
  induction n generalizing s
  case zero =>
    rw [List.length_eq_zero_iff.mp (Nat.le_zero.mp h)]
    rfl
  case succ n ih =>
    rw [← pieces_dropWhile]
    have le := (List.dropWhile_suffix (l := s) (· = ',')).length_le
    cases hd : s.dropWhile (· = ',')
    case nil => simp [strtoks, strtok, hd, pieces]
    case cons c cs =>
      have hc : c ≠ ',' := by
        have hn : s.dropWhile (· = ',') ≠ [] := by simp [hd]
        simpa [hd] using List.head_dropWhile_not (fun d => decide (d = ',')) hn
      have step : strtoks ',' (n + 1) s = (c :: cs).takeWhile (· ≠ ',') ::
          strtoks ',' n ((c :: cs).dropWhile (· ≠ ',')).tail := by
        simp only [strtoks, strtok, hd]
      have split := List.takeWhile_append_dropWhile (p := (· ≠ ',')) (l := c :: cs)
      have first := List.head_dropWhile_not (l := c :: cs) (· ≠ ',')
      have ne : (c :: cs).takeWhile (· ≠ ',') ≠ [] := by simp [hc]
      have not_mem : ',' ∉ (c :: cs).takeWhile (· ≠ ',') :=
        fun hm => by simpa using List.mem_takeWhile_imp hm
      rw [step]
      rw [hd] at le
      generalize (c :: cs).takeWhile (· ≠ ',') = t at *
      generalize (c :: cs).dropWhile (· ≠ ',') = r at *
      rw [← split]
      cases r
      case nil =>
        rw [List.append_nil, pieces_single ne not_mem, List.tail_nil, ih (by simp)]
        rfl
      case cons d rest =>
        have hd : d = ',' := not_not.mp <| of_decide_eq_false <| first (by simp)
        have := List.length_pos_iff.mpr ne
        have len := congrArg List.length split
        simp only [List.length_append, List.length_cons] at len le
        subst hd
        rw [pieces_append ne not_mem, List.tail_cons, ih (by omega)]

end Tokens

section Room

variable {maxCnt index : Nat} {t : List Char} {ts : List (List Char)}

theorem room_full (hi : index < 2 ^ 16) (h : maxCnt ≤ index) : room maxCnt index ts = [] := by
  rw [room, if_pos (by omega), Nat.sub_eq_zero_of_le h, List.take_zero]

theorem room_cons (h : index < maxCnt) :
    room maxCnt index (t :: ts) = t :: room maxCnt ((index + 1) % 2 ^ 16) ts := by
  unfold room
  split
  case isFalse => rfl
  case isTrue hm =>
    have hs : maxCnt - index = maxCnt - (index + 1) % 2 ^ 16 + 1 := by omega
    rw [hs, List.take_succ_cons]

theorem room_eq_self (h : (room maxCnt index ts).length = ts.length) : room maxCnt index ts = ts := by
  unfold room at h ⊢
  split at h
  case isTrue hm  => rw [if_pos hm, List.take_of_length_le (by simpa using h)]
  case isFalse hm => rw [if_neg hm]

end Room

namespace RangeList

variable {α : Type} {item : List Char → ItemRet α} {maxCnt i : Nat} {s : RangeList α}
  {t : List Char} {ts : List (List Char)} {range : α}

theorem next_index_lt : (s.next range).index < 2 ^ 16 :=
  Nat.mod_lt _ (Nat.two_pow_pos 16)

theorem parse_full (h : maxCnt ≤ s.index) : s.parse item maxCnt (t :: ts) = (.error, s) :=
  if_pos h

theorem parse_failed (h : s.index < maxCnt) (ht : (item t).isOk = false) :
    s.parse item maxCnt (t :: ts) = ((item t).failed, s.touch) := by
  rw [parse, if_neg (Nat.not_le_of_lt h)]
  cases hi : item t
  case ok        => simp [hi, ItemRet.isOk] at ht
  case error     => rfl
  case undefined => rfl

theorem parse_next (h : s.index < maxCnt) (ht : item t = .ok range) :
    s.parse item maxCnt (t :: ts) = (s.next range).parse item maxCnt ts := by
  rw [parse, if_neg (Nat.not_le_of_lt h), ht]

-- What is returned depends on the first piece that is not accepted, and then on whether there is
-- an entry for each of the pieces.
theorem parse_ret (hi : s.index < 2 ^ 16) :
    (s.parse item maxCnt ts).1 = match firstFailed item maxCnt s.index ts with
      | some t => (item t).failed
      | none   =>
        if (room maxCnt s.index ts).length = ts.length then .ok ((s.index + ts.length) % 2 ^ 16)
        else .error := by
  induction ts generalizing s
  case nil =>
    have hr : room maxCnt s.index [] = [] := by simp [room]
    simp only [firstFailed, hr, parse, List.find?_nil, List.length_nil, Nat.add_zero,
      Nat.mod_eq_of_lt hi, if_true]
  case cons t ts ih =>
    by_cases hm : s.index < maxCnt
    case neg =>
      have hm : maxCnt ≤ s.index := Nat.le_of_not_lt hm
      rw [parse_full hm, firstFailed, room_full hi hm]
      rfl
    case pos =>
      rw [firstFailed, room_cons hm, List.find?_cons]
      cases ht : (item t).isOk
      case false => rw [parse_failed hm ht]; rfl
      case true  =>
        have ⟨range, hr⟩ := ItemRet.isOk_iff.mp ht
        have count : ((s.next range).index + ts.length) % 2 ^ 16 =
            (s.index + (ts.length + 1)) % 2 ^ 16 := by
          rw [next, Nat.mod_add_mod]
          congr 1
          omega
        rw [parse_next hm hr, ih next_index_lt, count]
        simp only [Bool.not_true, List.length_cons, Nat.add_right_cancel_iff]
        rfl

theorem parse_written (h : i ∈ (s.parse item maxCnt ts).2.written) :
    i ∈ s.written ∨ i < maxCnt := by
  induction ts generalizing s
  case nil => exact .inl h
  case cons t ts ih =>
    by_cases hm : s.index < maxCnt
    case neg =>
      rw [parse_full (Nat.le_of_not_lt hm)] at h
      exact .inl h
    case pos =>
      have touched (h : i ∈ s.written ++ [s.index]) : i ∈ s.written ∨ i < maxCnt := by
        rw [List.mem_append, List.mem_singleton] at h
        exact h.imp_right fun (he : i = s.index) => he ▸ hm
      cases ht : (item t).isOk
      case false =>
        rw [parse_failed hm ht] at h
        exact touched h
      case true =>
        have ⟨range, hr⟩ := ItemRet.isOk_iff.mp ht
        rw [parse_next hm hr] at h
        exact (ih h).elim touched .inr

-- The entries behind the index hold the ranges of the pieces, as long as the index does not come
-- back to them.
theorem parse_entries {cnt : Nat} (h : (s.parse item maxCnt ts).1 = .ok cnt)
    (hl : s.index + ts.length < 2 ^ 16) (he : s.entries.length = maxCnt) :
    (∀ j t, ts[j]? = some t → ∃ range, item t = .ok range ∧
      (s.parse item maxCnt ts).2.entries[s.index + j]? = some range) ∧
    ∀ j < s.index, (s.parse item maxCnt ts).2.entries[j]? = s.entries[j]? := by
  induction ts generalizing s
  case nil => exact ⟨nofun, fun _ _ => rfl⟩
  case cons t ts ih =>
    have hm : s.index < maxCnt := by
      by_contra hm
      rw [parse_full (Nat.le_of_not_lt hm)] at h
      exact ListRet.noConfusion h
    cases ht : (item t).isOk
    case false =>
      rw [parse_failed hm ht] at h
      cases hi : item t <;> simp [hi, ItemRet.failed] at h
    case true =>
      have ⟨range, hr⟩ := ItemRet.isOk_iff.mp ht
      have index : (s.next range).index = s.index + 1 := by
        rw [List.length_cons] at hl
        exact Nat.mod_eq_of_lt (by omega)
      rw [parse_next hm hr] at h ⊢
      rw [List.length_cons] at hl
      have ⟨behind, before⟩ := ih h (by omega) (by simpa [next] using he)
      rw [index] at behind before
      refine ⟨fun j u hu => ?_, fun j hj => ?_⟩
      case refine_1 =>
        cases j
        case zero =>
          cases hu
          refine ⟨range, hr, (before s.index (by omega)).trans ?_⟩
          simp [next, he, hm]
        case succ j =>
          have := behind j u hu
          rwa [Nat.add_right_comm] at this
      case refine_2 =>
        refine (before j (by omega)).trans ?_
        exact List.getElem?_set_ne (by omega)

end RangeList

section ElementWise

variable {α : Type} {item : List Char → ItemRet α} {maxCnt : Nat} {ts : List (List Char)}
  {ranges : List α}

theorem firstFailed_eq_none :
    firstFailed item maxCnt 0 ts = none ↔ ∀ t ∈ room maxCnt 0 ts, (item t).isOk := by
  simp [firstFailed]

-- An accepted list, as long as the index does not come back to 0.
theorem parse_accepted {cnt : Nat} {s : RangeList α} (hs : s.index = 0)
    (hw : NoWrap item maxCnt ts) (h : (s.parse item maxCnt ts).1 = .ok cnt) :
    ts.length < 2 ^ 16 ∧ ts.length ≤ maxCnt ∧ cnt = ts.length ∧ ∀ t ∈ ts, (item t).isOk := by
  rw [RangeList.parse_ret (by omega), hs] at h
  cases hf : firstFailed item maxCnt 0 ts
  case some t =>
    rw [hf] at h
    cases hi : item t <;> simp [hi, ItemRet.failed] at h
  case none =>
    simp only [hf] at h
    have hr : (room maxCnt 0 ts).length = ts.length := by
      by_contra hr
      rw [if_neg hr] at h
      exact ListRet.noConfusion h
    rw [if_pos hr] at h
    have ok := firstFailed_eq_none.mp hf
    rw [room_eq_self hr] at ok
    have le : ts.length < 2 ^ 16 ∧ ts.length ≤ maxCnt := by
      by_cases hm : maxCnt < 2 ^ 16
      case pos =>
        simp only [room, if_pos hm, Nat.sub_zero, List.length_take] at hr
        omega
      case neg =>
        have : ¬2 ^ 16 ≤ ts.length := fun hl => hw ⟨Nat.le_of_not_lt hm, hl, ok⟩
        omega
    rw [Nat.zero_add, Nat.mod_eq_of_lt le.1] at h
    cases h
    exact ⟨le.1, le.2, rfl, ok⟩

section Start

variable {s : RangeList α} (hs : s.index = 0) (he : s.entries.length = maxCnt)
include hs

theorem NoWrap.of_elementWise (h : ElementWise item maxCnt ts (s.parse item maxCnt ts)) :
    NoWrap item maxCnt ts := by
  intro ⟨hm, hl, ok⟩
  have ret := @RangeList.parse_ret _ item maxCnt s ts (by omega)
  have all : room maxCnt 0 ts = ts := if_neg (Nat.not_lt_of_le hm)
  have none : firstFailed item maxCnt 0 ts = none := firstFailed_eq_none.mpr (all.symm ▸ ok)
  rw [hs, none, all] at ret
  have ⟨_, _, cnt, _⟩ := h.zero ((0 + ts.length) % 2 ^ 16) (by simpa using ret)
  omega

theorem parse_ne_undefined_iff : (s.parse item maxCnt ts).1 ≠ .undefined ↔
    ∀ t ∈ firstFailed item maxCnt 0 ts, item t ≠ .undefined := by
  rw [RangeList.parse_ret (by omega), hs]
  cases firstFailed item maxCnt 0 ts
  case none =>
    refine iff_of_true ?_ nofun
    dsimp only
    split <;> simp
  case some t =>
    simp only [Option.mem_some_iff, forall_eq']
    cases item t <;> simp [ItemRet.failed]

include he

theorem ElementWise.of_noWrap (hn : ts ≠ []) (hw : NoWrap item maxCnt ts)
    (hu : (s.parse item maxCnt ts).1 ≠ .undefined) (hb : s.written = []) :
    ElementWise item maxCnt ts (s.parse item maxCnt ts) := by
  have accepted {cnt : Nat} (h : (s.parse item maxCnt ts).1 = .ok cnt) := parse_accepted hs hw h
  refine ⟨hu, fun cnt h => ?_, fun h => ?_, fun i hi => ?_⟩
  case refine_1 =>
    have ⟨lt, le, eq, _⟩ := accepted h
    have held := (RangeList.parse_entries h (by omega) he).1
    rw [hs] at held
    exact ⟨List.length_pos_iff.mpr hn, le, eq, by simpa using held⟩
  case refine_2 =>
    cases hr : (s.parse item maxCnt ts).1
    case error     => rfl
    case undefined => exact absurd hr hu
    case ok cnt    =>
      have ⟨_, le, _, ok⟩ := accepted hr
      obtain h | h | ⟨t, ht, h⟩ := h
      · omega
      · exact absurd h hn
      · simpa [h, ItemRet.isOk] using ok t ht
  case refine_3 => simpa [hb] using RangeList.parse_written hi

theorem elementWise_iff (hn : ts ≠ []) (hb : s.written = []) :
    ElementWise item maxCnt ts (s.parse item maxCnt ts) ↔
    NoWrap item maxCnt ts ∧ ∀ t ∈ firstFailed item maxCnt 0 ts, item t ≠ .undefined := by
  rw [← parse_ne_undefined_iff hs]
  constructor
  case mp  => exact fun h => ⟨.of_elementWise hs h, h.defined⟩
  case mpr => exact fun ⟨hw, hu⟩ => .of_noWrap hs he hn hw hu hb

end Start

theorem parseRangesOf_cons {str t : List Char} (hl : str.length < 2 ^ 31)
    (hp : pieces (stripped str) = t :: ts) : parseRangesOf item str ranges maxCnt =
      RangeList.parse item maxCnt ⟨0, ranges, []⟩ (t :: ts) := by
  have trim : utilStrTrim str ' ' = some (stripped str) := if_pos hl
  simp only [parseRangesOf, trim, strtoks_eq_pieces (Nat.le_refl _), hp]

theorem parseRangesOf_nil {str : List Char} (hl : str.length < 2 ^ 31)
    (hp : pieces (stripped str) = []) :
    parseRangesOf item str ranges maxCnt = (.error, ⟨0, ranges, []⟩) := by
  have trim : utilStrTrim str ' ' = some (stripped str) := if_pos hl
  simp only [parseRangesOf, trim, strtoks_eq_pieces (Nat.le_refl _), hp]

-- A parser of a list, from one of its elements.
theorem parseRangesOf_iff (item : List Char → ItemRet α) (str : List Char) (ranges : List α) :
    ElementWise item ranges.length (pieces (stripped str))
        (parseRangesOf item str ranges ranges.length) ↔
      str.length < 2 ^ 31 ∧ NoWrap item ranges.length (pieces (stripped str)) ∧
      ∀ t ∈ firstFailed item ranges.length 0 (pieces (stripped str)), item t ≠ .undefined := by
  by_cases hl : str.length < 2 ^ 31
  case neg =>
    refine iff_of_false (fun h => h.defined ?_) (fun h => hl h.1)
    rw [parseRangesOf, utilStrTrim, if_neg hl]
  case pos =>
    rw [and_iff_right hl]
    cases hp : pieces (stripped str)
    case cons t ts =>
      rw [parseRangesOf_cons hl hp]
      exact elementWise_iff rfl rfl (List.cons_ne_nil _ _) rfl
    case nil =>
      rw [parseRangesOf_nil hl hp]
      refine iff_of_true ⟨nofun, nofun, fun _ => rfl, nofun⟩ ⟨fun h => ?_, fun t ht => ?_⟩
      · simpa using h.2.1
      · simp [firstFailed, room] at ht

-- With entries for all of them, the pieces are counted up to the wrap.
theorem parseRangesOf_ret {str : List Char} (ranges : List α) (hl : str.length < 2 ^ 31)
    (hm : 2 ^ 16 ≤ maxCnt) (hn : pieces (stripped str) ≠ [])
    (ok : ∀ t ∈ pieces (stripped str), (item t).isOk) :
    (parseRangesOf item str ranges maxCnt).1 =
      .ok ((pieces (stripped str)).length % 2 ^ 16) := by
  have all : room maxCnt 0 (pieces (stripped str)) = pieces (stripped str) :=
    if_neg (Nat.not_lt_of_le hm)
  have none : firstFailed item maxCnt 0 (pieces (stripped str)) = none :=
    firstFailed_eq_none.mpr (all.symm ▸ ok)
  cases hp : pieces (stripped str)
  case nil => exact absurd hp hn
  case cons t ts =>
    rw [hp] at none all
    rw [parseRangesOf_cons hl hp, RangeList.parse_ret (Nat.two_pow_pos 16), none, all]
    simp

end ElementWise

section Undefined

variable {e : Endian} {pton : InetPton} {sep : Char} {strTo : List Char → Option EngineIp}
  {loadSubnet : List Char → List Char → Option IpRange} {t : List Char}

theorem of_ne_undefined {o : Option IpRange} : ParseRet.of o ≠ .undefined := by
  cases o <;> exact nofun

theorem parseRangeIn_ne_undefined_iff : parseRangeIn sep strTo loadSubnet t ≠ .undefined ↔
    ∀ w ∈ strWritesIn sep strTo t, w.2 + 1 < inetAddrstrlen := by
  cases hc : cut '/' t
  case some ap =>
    exact iff_of_true (by simp [parseRangeIn, hc, of_ne_undefined]) (by simp [strWritesIn, hc])
  case none =>
    cases hd : cut '-' t
    case none =>
      exact iff_of_true (by simp [parseRangeIn, hc, hd, of_ne_undefined])
        (by simp [strWritesIn, hc, hd])
    case some ap =>
      obtain ⟨a, p⟩ := ap
      obtain ⟨ht, ha⟩ := cut_eq_some hd
      have slash := cut_eq_none.mp hc
      rw [ht, List.mem_append, List.mem_cons, not_or, not_or] at slash
      subst ht
      by_cases hs : sep ∈ a
      case neg =>
        rw [parseRangeIn_no_sep slash.1 ha slash.2.2 hs, strWritesIn_no_sep slash.1 ha slash.2.2 hs]
        exact iff_of_true (by simp) (by simp)
      case pos =>
        cases hr : strTo a
        case none =>
          exact iff_of_true (by simp [parseRangeIn, hc, hd, hr]) (by simp [strWritesIn, hc, hd, hr])
        case some start =>
          rw [parseRangeIn_dash slash.1 ha slash.2.2 hs hr]
          by_cases hp : sep ∈ p
          case pos =>
            rw [if_pos hp]
            exact iff_of_true of_ne_undefined (by simp [strWritesIn, hc, hd, hp])
          case neg =>
            have ne : upTo sep a ++ p ≠ [] := by simp [List.ne_nil_of_mem (mem_upTo hs)]
            rw [if_neg hp, strWritesIn_dash slash.1 ha slash.2.2 hs hr hp, room_iff ne]
            by_cases hl : (upTo sep a ++ p).length ≥ inetAddrstrlen
            case pos =>
              rw [if_pos hl]
              exact iff_of_false (not_not_intro rfl) (Nat.not_lt_of_le hl)
            case neg =>
              rw [if_neg hl]
              exact iff_of_true of_ne_undefined (Nat.lt_of_not_ge hl)

-- A piece has no result when its short form does not fit into `str`.
theorem ipItem_ne_undefined_iff : ipItem e pton t ≠ .undefined ↔
    ∀ w ∈ strWrites pton t, w.2 + 1 < inetAddrstrlen := by
  have item : ipItem e pton t ≠ .undefined ↔ parseRange e pton t ≠ .undefined := by
    rw [ipItem]
    cases parseRange e pton t <;> simp
  rw [item, parseRange, strWrites]
  split
  case isTrue => exact parseRangeIn_ne_undefined_iff
  case isFalse =>
    split
    case isTrue  => exact parseRangeIn_ne_undefined_iff
    case isFalse => exact iff_of_true (by simp) (by simp)

theorem portItem_ne_undefined : portItem t ≠ .undefined := by
  rw [portItem]
  cases portParseRange t <;> exact nofun

end Undefined

-- The index is compared with `maxCnt` after it has been cut to 16 bits.
theorem list_parsing (e : Endian) (pton : InetPton) (str : List Char) (ipRanges : List IpRange)
    (portRanges : List PortRange) :
    (ElementWise (ipItem e pton) ipRanges.length (pieces (stripped str))
        (engineIpParseRanges e pton str ipRanges ipRanges.length) ↔
      str.length < 2 ^ 31 ∧ NoWrap (ipItem e pton) ipRanges.length (pieces (stripped str)) ∧
      ∀ t ∈ firstFailed (ipItem e pton) ipRanges.length 0 (pieces (stripped str)),
        ∀ w ∈ strWrites pton t, w.2 + 1 < inetAddrstrlen) ∧
    (ElementWise portItem portRanges.length (pieces (stripped str))
        (portParseRanges str portRanges portRanges.length) ↔
      str.length < 2 ^ 31 ∧ NoWrap portItem portRanges.length (pieces (stripped str))) := by
  have ip := parseRangesOf_iff (ipItem e pton) str ipRanges
  have port := parseRangesOf_iff portItem str portRanges
  simp only [ipItem_ne_undefined_iff] at ip
  simp only [ne_eq, portItem_ne_undefined, not_false_iff, implies_true, and_true] at port
  exact ⟨ip, port⟩

-- `80,80,80,` and so on.
def manyPorts (n : Nat) : List Char :=
  (List.replicate n ['8', '0', ',']).flatten

theorem length_manyPorts (n : Nat) : (manyPorts n).length = n * 3 := by
  simp [manyPorts]

theorem pieces_manyPorts (n : Nat) : pieces (manyPorts n) = List.replicate n ['8', '0'] := by
  induction n
  case zero => rfl
  case succ n ih =>
    have first : manyPorts (n + 1) = ['8', '0'] ++ ',' :: manyPorts n := rfl
    rw [first, pieces_append (by simp) (by decide), ih, List.replicate_succ]

theorem stripped_of_not_mem {s : List Char} (h : ' ' ∉ s) : stripped s = s := by
  have ne (c : Char) (hc : c ∈ s) : c ≠ ' ' := fun he => h (he ▸ hc)
  have front : s.dropWhile (· = ' ') = s := by
    cases s
    case nil => rfl
    case cons c cs => exact List.dropWhile_cons_of_neg (by simpa using ne c (by simp))
  rw [stripped, front, List.rdropWhile_eq_self_iff]
  intro hl
  simpa using ne _ (List.getLast_mem hl)

-- The list has 65536 pieces, and 0 is returned with a count of 0.
theorem not_list_parsing : ∃ str : List Char, ∃ portRanges : List PortRange,
    str.length < 2 ^ 31 ∧ (pieces (stripped str)).length = 2 ^ 16 ∧ portRanges.length = 2 ^ 16 ∧
    (portParseRanges str portRanges portRanges.length).1 = .ok 0 ∧
    ¬ElementWise portItem portRanges.length (pieces (stripped str))
      (portParseRanges str portRanges portRanges.length) := by
  have blank : ' ' ∉ manyPorts (2 ^ 16) := by
    intro h
    have ⟨l, hl, h⟩ := List.mem_flatten.mp h
    rw [List.eq_of_mem_replicate hl] at h
    exact absurd h (by decide)
  have all : pieces (stripped (manyPorts (2 ^ 16))) = List.replicate (2 ^ 16) ['8', '0'] := by
    rw [stripped_of_not_mem blank, pieces_manyPorts]
  have len : (manyPorts (2 ^ 16)).length < 2 ^ 31 := by
    rw [length_manyPorts]
    omega
  have ok : ∀ t ∈ pieces (stripped (manyPorts (2 ^ 16))), (portItem t).isOk := by
    intro t ht
    rw [all] at ht
    rw [List.eq_of_mem_replicate ht]
    decide
  have cnt : (pieces (stripped (manyPorts (2 ^ 16)))).length = 2 ^ 16 := by
    rw [all, List.length_replicate]
  have ranges : (List.replicate (2 ^ 16) (⟨0, 0⟩ : PortRange)).length = 2 ^ 16 :=
    List.length_replicate
  refine ⟨manyPorts (2 ^ 16), List.replicate (2 ^ 16) ⟨0, 0⟩, len, cnt, ranges, ?_, fun h => ?_⟩
  case refine_1 =>
    have ret := parseRangesOf_ret (List.replicate (2 ^ 16) ⟨0, 0⟩) len
      (Nat.le_of_eq ranges.symm) (List.length_pos_iff.mp (by omega)) ok
    rwa [cnt] at ret
  case refine_2 =>
    exact ((parseRangesOf_iff portItem _ _).mp h).2.1
      ⟨Nat.le_of_eq ranges.symm, Nat.le_of_eq cnt.symm, ok⟩

end NetPool
