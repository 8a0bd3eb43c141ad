import NetPool.Lib.Circle
import NetPool.Lib.List
import NetPool.Lib.System
import NetPool.Util.ListHead

namespace NetPool
namespace ListHead

variable {α : Type*} [DecidableEq α]

-- `__list_add`
def listAddBetween (h : Links α) (entry prev next : α) : Links α :=
  let h := h.setPrev next entry
  let h := h.setNext entry next
  let h := h.setPrev entry prev
  h.setNext prev entry

def listAdd (h : Links α) (entry head : α) : Links α :=
  listAddBetween h entry head (h.next head)

def listAddTail (h : Links α) (entry head : α) : Links α :=
  listAddBetween h entry (h.prev head) head

-- `__list_del`
def listDelBetween (h : Links α) (prev next : α) : Links α :=
  let h := h.setPrev next prev
  h.setNext prev next

def listDel (h : Links α) (entry : α) : Links α :=
  listDelBetween h (h.prev entry) (h.next entry)

def listEmpty (h : Links α) (head : α) : Bool :=
  h.next head = head

def listIsSingular (h : Links α) (head : α) : Bool :=
  !listEmpty h head && h.next head = h.prev head

-- `__list_cut_position`
def listCut (h : Links α) (list head entry : α) : Links α :=
  let newFirst := h.next entry
  let h := h.setNext list (h.next head)
  let h := h.setPrev (h.next list) list
  let h := h.setPrev list entry
  let h := h.setNext entry list
  let h := h.setNext head newFirst
  h.setPrev newFirst head

def listCutPosition (h : Links α) (list head entry : α) : Links α :=
  if listEmpty h head then h
  else if listIsSingular h head ∧ h.next head ≠ entry ∧ head ≠ entry then h
  else if entry = head then initListHead h list
  else listCut h list head entry

-- The positions that `list_for_each` visits from `pos` on, if it ends within the given number of
-- tests.
def listForEach (h : Links α) (head : α) : Nat → α → Option (List α)
  | 0,          _   => none
  | tests + 1, pos =>
    if pos = head then some []
    else (listForEach h head tests (h.next pos)).map (pos :: ·)

variable {h : Links α} {head entry list x : α} {l xs ys : List α}

variable {c : List α} {p n : α}

theorem circle_listAddBetween (circle : h.Circle c) (nodup : c.Nodup) (he : entry ∉ c)
    (hp : p ∈ c.getLast?) (hn : n ∈ c.head?) : (listAddBetween h entry p n).Circle (entry :: c) := by
  have ne {a} (ha : a ∈ c) : a ≠ entry := fun h => he (h ▸ ha)
  have hp' := ne (List.mem_of_getLast? hp)
  have hn' := ne (List.mem_of_mem_head? hn)
  refine circle.path.circle_cons nodup hp hn (fun a ha hne => ?_) (fun a ha hne => ?_) ?_ ?_
  case refine_1 => simp [listAddBetween, hne, ne ha]
  case refine_2 => simp [listAddBetween, hne, ne ha]
  case refine_3 => simp [listAddBetween, Links.Linked, hp'.symm, hn']
  case refine_4 => simp [listAddBetween, Links.Linked]

theorem circle_listDelBetween (path : h.Path c) (nodup : c.Nodup) (hp : p ∈ c.getLast?)
    (hn : n ∈ c.head?) : (listDelBetween h p n).Circle c := by
  refine path.circle nodup hp hn (fun a _ hne => ?_) (fun a _ hne => ?_) ?_
  case refine_1 => simp [listDelBetween, hne]
  case refine_2 => simp [listDelBetween, hne]
  case refine_3 => simp [listDelBetween, Links.Linked]

-- The list `l` with the head `a`: the head and the entries are a circle.
structure Rooted (h : Links α) (a : α) (l : List α) : Prop where
  nodup  : (a :: l).Nodup
  circle : h.Circle (a :: l)

omit [DecidableEq α] in
theorem rooted_iff : Rooted h head l ↔ Headed h head l :=
  ⟨fun ⟨nodup, circle⟩ => ⟨nodup, Links.circle_iff_chain.mp circle⟩,
    fun ⟨nodup, chain⟩ => ⟨nodup, Links.circle_iff_chain.mpr chain⟩⟩

namespace Rooted

omit [DecidableEq α] in
theorem of_perm {l' : List α} (r : Rooted h head l) (circle : h.Circle (x :: l'))
    (perm : (x :: l').Perm (head :: l)) : Rooted h x l' :=
  ⟨perm.nodup_iff.mpr r.nodup, circle⟩

-- Every cell of the circle can be seen as its head.
omit [DecidableEq α] in
theorem rotate (r : Rooted h head (xs ++ x :: ys)) : Rooted h x (ys ++ head :: xs) := by
  have circle : h.Circle ((head :: xs) ++ (x :: ys)) := r.circle
  have perm : ((x :: ys) ++ (head :: xs)).Perm ((head :: xs) ++ (x :: ys)) := List.perm_append_comm
  exact r.of_perm circle.rotate perm

variable (r : Rooted h head l)
include r

omit [DecidableEq α] in
theorem circle_last : h.Circle (l ++ [head]) := by
  have circle : h.Circle ([head] ++ l) := r.circle
  exact circle.rotate

omit [DecidableEq α] in
theorem nodup_last : (l ++ [head]).Nodup := by
  have perm : (l ++ [head]).Perm ([head] ++ l) := List.perm_append_comm
  exact perm.nodup_iff.mpr r.nodup

omit [DecidableEq α] in
theorem next_head : h.next head ∈ (l ++ [head]).head? := by
  have hl : head ∈ (l ++ [head]).getLast? := by simp
  cases hh : (l ++ [head]).head?
  case none   => simp at hh
  case some b => exact congrArg some (r.circle_last.close head hl b hh).1.symm

omit [DecidableEq α] in
theorem prev_head : h.prev head ∈ (head :: l).getLast? := by
  cases hh : (head :: l).getLast?
  case none   => simp at hh
  case some b => exact congrArg some (r.circle.close b hh head rfl).2.symm

omit [DecidableEq α] in
theorem next_mem : h.next head ∈ head :: l := by
  have := List.mem_of_mem_head? r.next_head
  rw [List.mem_append, List.mem_singleton] at this
  exact List.mem_cons.mpr this.symm

omit [DecidableEq α] in
theorem prev_mem : h.prev head ∈ head :: l :=
  List.mem_of_getLast? r.prev_head

theorem add (he : entry ∉ head :: l) : Rooted (listAdd h entry head) head (entry :: l) := by
  have he' : entry ∉ l ++ [head] := by simpa [or_comm, not_or] using he
  have circle : (listAdd h entry head).Circle ((entry :: l) ++ [head]) :=
    circle_listAddBetween r.circle_last r.nodup_last he' (by simp) r.next_head
  refine ⟨?_, circle.rotate⟩
  exact (List.Perm.swap entry head l).nodup_iff.mpr (List.nodup_cons.mpr ⟨he, r.nodup⟩)

theorem addTail (he : entry ∉ head :: l) :
    Rooted (listAddTail h entry head) head (l ++ [entry]) := by
  have circle : (listAddTail h entry head).Circle ([entry] ++ (head :: l)) :=
    circle_listAddBetween r.circle r.nodup he r.prev_head rfl
  refine ⟨?_, circle.rotate⟩
  have perm : (head :: l ++ [entry]).Perm ([entry] ++ head :: l) := List.perm_append_comm
  exact perm.nodup_iff.mpr (List.nodup_cons.mpr ⟨he, r.nodup⟩)

-- The circle without its head.
theorem listDel (hl : l ≠ []) : (listDel h head).Circle l := by
  have path : h.Path ([head] ++ l) := r.circle.path
  have ⟨_, path, _⟩ := Links.path_append.mp path
  refine circle_listDelBetween path (List.nodup_cons.mp r.nodup).2 ?_ ?_
  case refine_1 =>
    have last : (head :: l).getLast? = l.getLast? :=
      List.getLast?_append_of_ne_nil [head] hl
    exact last ▸ r.prev_head
  case refine_2 =>
    have first : (l ++ [head]).head? = l.head? := by
      rw [List.head?_append_of_ne_nil l hl]
    exact first ▸ r.next_head

theorem listEmpty_iff : listEmpty h head ↔ l = [] := by
  have hn := r.next_head
  cases l
  case nil       =>
    have hn : head = h.next head := by simpa using hn
    simp [listEmpty, ← hn]
  case cons y ys =>
    have hn : y = h.next head := by simpa using hn
    have ne : y ≠ head := fun he => (List.nodup_cons.mp r.nodup).1 (he ▸ List.mem_cons_self)
    simp [listEmpty, ← hn, ne]

theorem listIsSingular_iff : listIsSingular h head ↔ l.length = 1 := by
  have empty := r.listEmpty_iff
  have hn := r.next_head
  have hp := r.prev_head
  match l with
  | []           => simp [listIsSingular, empty.mpr rfl]
  | [y]          =>
    have first : y = h.next head := by simpa using hn
    have last : y = h.prev head := by simpa using hp
    have filled : listEmpty h head = false := by simpa using empty
    simp [listIsSingular, filled, ← first, ← last]
  | y :: z :: zs =>
    have first : y = h.next head := by simpa using hn
    rw [List.getLast?_cons_cons, List.getLast?_cons_cons] at hp
    have hy := (List.nodup_cons.mp (List.nodup_cons.mp r.nodup).2).1
    have ne : y ≠ h.prev head := fun he => hy (he ▸ List.mem_of_getLast? hp)
    simp [listIsSingular, ← first, ne]

-- `list_for_each` visits the entries in their order, and comes back to the head.
theorem listForEach {tests : Nat} (ht : l.length < tests) :
    listForEach h head tests (h.next head) = some l := by
  have visit (ys : List α) (tests : Nat) (pos : α) (path : h.Path (ys ++ [head])) (hy : head ∉ ys)
      (hpos : pos ∈ (ys ++ [head]).head?) (ht : ys.length < tests) :
      ListHead.listForEach h head tests pos = some ys := by
    induction ys generalizing tests pos
    case nil          =>
      obtain ⟨n, rfl⟩ := Nat.exists_eq_add_one_of_ne_zero (Nat.ne_zero_of_lt ht)
      obtain rfl : head = pos := by simpa using hpos
      simp [ListHead.listForEach]
    case cons y ys hi =>
      obtain ⟨n, rfl⟩ := Nat.exists_eq_add_one_of_ne_zero (Nat.ne_zero_of_lt ht)
      obtain rfl : y = pos := by simpa using hpos
      obtain ⟨ne, hy⟩ := List.ne_and_not_mem_of_not_mem_cons hy
      obtain ⟨link, path⟩ := List.isChain_cons.mp path
      have hn : h.next y ∈ (ys ++ [head]).head? := by
        cases hh : (ys ++ [head]).head?
        case none   => simp at hh
        case some b => exact congrArg some (link b hh).1.symm
      rw [ListHead.listForEach, if_neg ne.symm,
        hi n (h.next y) path hy hn (by simpa using ht)]
      rfl
  exact visit l tests _ r.circle_last.path (List.nodup_cons.mp r.nodup).1 r.next_head ht

end Rooted

theorem Rooted.del (r : Rooted h head (xs ++ x :: ys)) :
    Rooted (ListHead.listDel h x) head (xs ++ ys) := by
  have circle := r.rotate.listDel (by simp)
  refine ⟨?_, circle.rotate⟩
  refine List.Nodup.sublist ?_ r.nodup
  exact (List.Sublist.append_left (List.sublist_cons_self x ys) xs).cons_cons head

-- The first entries up to `entry` go over to `list`.
structure Cut (h : Links α) (list head entry : α) (xs ys : List α) : Prop where
  list : Rooted h list (xs ++ [entry])
  head : Rooted h head ys

theorem listCut_next : (listCut h list head entry).next x =
    if x = head then h.next entry else if x = entry then list else if x = list then h.next head
    else h.next x := by
  simp [listCut]

theorem listCut_prev : (listCut h list head entry).prev x =
    if x = h.next entry then head else if x = list then entry else if x = h.next head then list
    else h.prev x := by
  simp [listCut]

theorem Rooted.listCut (r : Rooted h head (xs ++ entry :: ys))
    (hl : list ∉ head :: (xs ++ entry :: ys)) :
    Cut (listCut h list head entry) list head entry xs ys := by
  have path : h.Path ((xs ++ [entry]) ++ (ys ++ [head])) := by simpa using r.circle_last.path
  have nodup : ((xs ++ [entry]) ++ (ys ++ [head])).Nodup := by simpa using r.nodup_last
  have absent : list ∉ (xs ++ [entry]) ++ (ys ++ [head]) := fun hm =>
    hl (by simpa [or_comm, or_left_comm, or_assoc] using hm)
  have first : h.next head ∈ (xs ++ [entry]).head? := by cases xs <;> simpa using r.next_head
  have newFirst : h.next entry ∈ (ys ++ [head]).head? := by
    cases ys <;> simpa using r.rotate.next_head
  obtain ⟨path₁, path₂, _⟩ := Links.path_append.mp path
  obtain ⟨nodup₁, nodup₂, apart⟩ := List.nodup_append.mp nodup
  rw [List.mem_append, not_or] at absent
  obtain ⟨absent₁, absent₂⟩ := absent
  have ne₁ {a} (ha : a ∈ xs ++ [entry]) : a ≠ list := fun h => absent₁ (h ▸ ha)
  have ne₂ {a} (ha : a ∈ ys ++ [head]) : a ≠ list := fun h => absent₂ (h ▸ ha)
  have mem_entry : entry ∈ xs ++ [entry] := by simp
  have mem_head : head ∈ ys ++ [head] := by simp
  have last₁ : entry ∈ (xs ++ [entry]).getLast? := by simp
  have last₂ : head ∈ (ys ++ [head]).getLast? := by simp
  have mem_first := List.mem_of_mem_head? first
  have mem_newFirst := List.mem_of_mem_head? newFirst
  have circle₁ : (ListHead.listCut h list head entry).Circle (list :: (xs ++ [entry])) := by
    refine path₁.circle_cons nodup₁ last₁ first (fun a ha hne => ?_) (fun a ha hne => ?_)
      ⟨?_, ?_⟩ ⟨?_, ?_⟩
    case refine_1 =>
      rw [listCut_next, if_neg (apart a ha head mem_head), if_neg hne, if_neg (ne₁ ha)]
    case refine_2 =>
      rw [listCut_prev, if_neg (apart a ha _ mem_newFirst), if_neg (ne₁ ha), if_neg hne]
    case refine_3 =>
      rw [listCut_next, if_neg (ne₂ mem_head).symm, if_neg (ne₁ mem_entry).symm, if_pos rfl]
    case refine_4 =>
      rw [listCut_prev, if_neg (apart _ mem_first _ mem_newFirst), if_neg (ne₁ mem_first), if_pos rfl]
    case refine_5 => rw [listCut_next, if_neg (apart _ mem_entry _ mem_head), if_pos rfl]
    case refine_6 => rw [listCut_prev, if_neg (ne₂ mem_newFirst).symm, if_pos rfl]
  have circle₂ : (ListHead.listCut h list head entry).Circle (ys ++ [head]) := by
    refine path₂.circle nodup₂ last₂ newFirst (fun a ha hne => ?_) (fun a ha hne => ?_) ⟨?_, ?_⟩
    case refine_1 =>
      rw [listCut_next, if_neg hne, if_neg (apart _ mem_entry a ha).symm, if_neg (ne₂ ha)]
    case refine_2 =>
      rw [listCut_prev, if_neg hne, if_neg (ne₂ ha), if_neg (apart _ mem_first a ha).symm]
    case refine_3 => rw [listCut_next, if_pos rfl]
    case refine_4 => rw [listCut_prev, if_pos rfl]
  refine ⟨⟨List.nodup_cons.mpr ⟨absent₁, nodup₁⟩, circle₁⟩, ?_, circle₂.rotate⟩
  have perm : ([head] ++ ys).Perm (ys ++ [head]) := List.perm_append_comm
  exact perm.nodup_iff.mpr nodup₂

end ListHead

-- The memory, and for each head the entries that a user of the functions means it to have.
structure Lists (α : Type*) where
  links : Links α
  lists : List (α × List α)

namespace Lists

open ListHead

variable {α : Type*}

def cells (p : α × List α) : List α :=
  p.1 :: p.2

def used (s : Lists α) : List α :=
  s.lists.flatMap cells

variable [DecidableEq α]

-- What `list_cut_position` makes of the entries `m` of its first argument and `l` of its second one.
-- An empty list is left without a change of the first argument.
def cutAt (head entry : α) (m l : List α) : List α × List α :=
  if l = [] then (m, l)
  else if entry = head then ([], l)
  else (l.takeWhile (· ≠ entry) ++ [entry], (l.dropWhile (· ≠ entry)).tail)

-- The calls, with the number of the list in place of its head. An entry that is put in is new, the
-- one that a list is cut at is on it or its head, and a list that `copy_list_and_flush` moves is not
-- empty.
inductive Act (α : Type*)
  | init (head : α)
  | add (i : Nat) (entry : α)
  | addTail (i : Nat) (entry : α)
  | del (i : Nat) (entry : α)
  | cut (i j : Nat) (entry : α)
  | move (i j : Nat)

def step (s : Lists α) : Act α → Option (Lists α)
  | .init head       =>
    if head ∈ s.used then none
    else some ⟨initListHead s.links head, s.lists ++ [(head, [])]⟩
  | .add i entry     =>
    match s.lists[i]? with
    | none           => none
    | some (head, l) =>
      if entry ∈ s.used then none
      else some ⟨listAdd s.links entry head, s.lists.set i (head, entry :: l)⟩
  | .addTail i entry =>
    match s.lists[i]? with
    | none           => none
    | some (head, l) =>
      if entry ∈ s.used then none
      else some ⟨listAddTail s.links entry head, s.lists.set i (head, l ++ [entry])⟩
  | .del i entry     =>
    match s.lists[i]? with
    | none           => none
    | some (head, l) =>
      if entry ∈ l then some ⟨listDel s.links entry, s.lists.set i (head, l.erase entry)⟩ else none
  | .cut i j entry   =>
    match s.lists[i]?, s.lists[j]? with
    | some (list, m), some (head, l) =>
      if i ≠ j ∧ entry ∈ head :: l then
        let (m', l') := cutAt head entry m l
        some ⟨listCutPosition s.links list head entry, (s.lists.set i (list, m')).set j (head, l')⟩
      else none
    | _, _                           => none
  | .move i j        =>
    match s.lists[i]?, s.lists[j]? with
    | some (dst, _), some (src, l) =>
      if i ≠ j ∧ l ≠ [] then
        some ⟨copyListAndFlush s.links dst src, (s.lists.set i (dst, l)).set j (src, [])⟩
      else none
    | _, _                         => none

end Lists

def listHeads (α : Type*) [DecidableEq α] : System (Lists α) (Lists.Act α) where
  init s := s.lists = []
  step   := Lists.step

namespace Lists

open ListHead

variable {α : Type*} {s s' : Lists α} {h : Links α} {ls : List (α × List α)} {p q : α × List α}
  {i k : Nat} {x head entry : α} {l xs ys : List α}

structure Kept (s : Lists α) : Prop where
  nodup  : s.used.Nodup
  circle : ∀ (k : Nat) p, s.lists[k]? = some p → s.links.Circle (cells p)

-- The links of a cell in two directions are the same.
def Agree (h h' : Links α) (x : α) : Prop :=
  h'.next x = h.next x ∧ h'.prev x = h.prev x

theorem mem_used (hk : s.lists[k]? = some p) (hx : x ∈ cells p) : x ∈ s.used :=
  List.mem_flatMap.mpr ⟨p, List.mem_of_getElem? hk, hx⟩

theorem apart (nodup : (ls.flatMap cells).Nodup) (hi : ls[i]? = some p) (hk : ls[k]? = some q)
    (ne : k ≠ i) (hx : x ∈ cells q) : x ∉ cells p := by
  obtain ⟨_, pair⟩ := List.nodup_flatMap.mp nodup
  obtain ⟨li, rfl⟩ := List.getElem?_eq_some_iff.mp hi
  obtain ⟨lk, rfl⟩ := List.getElem?_eq_some_iff.mp hk
  rw [List.pairwise_iff_getElem] at pair
  obtain lt | lt := Nat.lt_or_gt_of_ne ne
  case inl => exact pair k i lk li lt hx
  case inr => exact fun h => pair i k li lk lt h hx

namespace Kept

variable (kept : Kept s)
include kept

theorem rooted (hi : s.lists[i]? = some (head, l)) : Rooted s.links head l :=
  ⟨(List.nodup_flatMap.mp kept.nodup).1 _ (List.mem_of_getElem? hi), kept.circle i _ hi⟩

-- A step changes one list, and does not touch the cells of the others.
theorem set (hi : s.lists[i]? = some p) (circle : h.Circle (cells q))
    (nodup : ((s.lists.set i q).flatMap cells).Nodup)
    (frame : ∀ x ∈ s.used, x ∉ cells p → Agree s.links h x) : Kept ⟨h, s.lists.set i q⟩ := by
  refine ⟨nodup, fun k r hk => ?_⟩
  by_cases ne : k = i
  case pos =>
    have ⟨lt, _⟩ := List.getElem?_eq_some_iff.mp hi
    subst ne
    dsimp only at hk
    rw [List.getElem?_set_self lt] at hk
    cases hk
    exact circle
  case neg =>
    dsimp only at hk
    rw [List.getElem?_set_ne (Ne.symm ne)] at hk
    have frame x (hx : x ∈ cells r) : Agree s.links h x :=
      frame x (mem_used hk hx) (apart kept.nodup hi hk ne hx)
    exact (kept.circle k r hk).frame (fun x hx => (frame x hx).1) fun x hx => (frame x hx).2

-- A step that changes two lists.
theorem set_set {j : Nat} {p' q' : α × List α} (hi : s.lists[i]? = some p)
    (hj : s.lists[j]? = some q) (ne : i ≠ j) (first : h.Circle (cells p'))
    (second : h.Circle (cells q')) (nodup : (((s.lists.set i p').set j q').flatMap cells).Nodup)
    (frame : ∀ x, x ∉ cells p → x ∉ cells q → Agree s.links h x) :
    Kept ⟨h, (s.lists.set i p').set j q'⟩ := by
  obtain ⟨li, _⟩ := List.getElem?_eq_some_iff.mp hi
  obtain ⟨lj, _⟩ := List.getElem?_eq_some_iff.mp hj
  refine ⟨nodup, fun k r hk => ?_⟩
  dsimp only at hk
  by_cases hkj : k = j
  case pos =>
    subst hkj
    rw [List.getElem?_set_self (by simpa using lj)] at hk
    cases hk
    exact second
  case neg =>
    rw [List.getElem?_set_ne (Ne.symm hkj)] at hk
    by_cases hki : k = i
    case pos =>
      subst hki
      rw [List.getElem?_set_self li] at hk
      cases hk
      exact first
    case neg =>
      rw [List.getElem?_set_ne (Ne.symm hki)] at hk
      have frame x (hx : x ∈ cells r) : Agree s.links h x :=
        frame x (apart kept.nodup hi hk hki hx) (apart kept.nodup hj hk hkj hx)
      exact (kept.circle k r hk).frame (fun x hx => (frame x hx).1) fun x hx => (frame x hx).2

end Kept

section Perm

variable {l' : List α} (hi : ls[i]? = some (head, l))
include hi

theorem perm_set_insert (new : List α) (perm : l'.Perm (new ++ l)) :
    ((ls.set i (head, l')).flatMap cells).Perm (new ++ ls.flatMap cells) := by
  have h := flatMap_set_perm (f := cells) (b := (head, l')) hi
  have perm : (cells (head, l')).Perm (cells (head, l) ++ new) :=
    (perm.cons head).trans (List.perm_append_comm.cons head)
  refine (List.perm_append_left_iff (cells (head, l))).mp (h.trans ?_)
  rw [← List.append_assoc]
  exact perm.append_right _

theorem perm_set_erase (gone : List α) (perm : l.Perm (gone ++ l')) :
    (ls.flatMap cells).Perm (gone ++ (ls.set i (head, l')).flatMap cells) := by
  have h := flatMap_set_perm (f := cells) (b := (head, l')) hi
  have perm : (cells (head, l)).Perm (cells (head, l') ++ gone) :=
    (perm.cons head).trans (List.perm_append_comm.cons head)
  refine (List.perm_append_left_iff (cells (head, l'))).mp (h.symm.trans ?_)
  rw [← List.append_assoc]
  exact perm.append_right _

theorem nodup_set_insert (nodup : (ls.flatMap cells).Nodup) (hx : x ∉ ls.flatMap cells)
    (perm : l'.Perm (x :: l)) : ((ls.set i (head, l')).flatMap cells).Nodup :=
  (perm_set_insert hi [x] perm).nodup_iff.mpr (List.nodup_cons.mpr ⟨hx, nodup⟩)

theorem nodup_set_erase (nodup : (ls.flatMap cells).Nodup) (gone : List α)
    (perm : l.Perm (gone ++ l')) : ((ls.set i (head, l')).flatMap cells).Nodup :=
  (List.nodup_append.mp ((perm_set_erase hi gone perm).nodup_iff.mp nodup)).2.1

end Perm

-- The entries `taken` of the one list take the place of those of the other one.
theorem nodup_set_move {j : Nat} {a b : α} {m taken rest : List α} (hi : ls[i]? = some (a, m))
    (hj : ls[j]? = some (b, l)) (ne : i ≠ j) (nodup : (ls.flatMap cells).Nodup)
    (perm : l.Perm (taken ++ rest)) :
    (((ls.set i (a, taken)).set j (b, rest)).flatMap cells).Nodup := by
  rw [List.set_comm _ _ ne]
  have hi : (ls.set j (b, rest))[i]? = some (a, m) := by rw [List.getElem?_set_ne ne.symm, hi]
  have ⟨lt, _⟩ := List.getElem?_eq_some_iff.mp hi
  have left := perm_set_erase hj taken perm
  have lost := perm_set_erase hi m (by simp : m.Perm (m ++ []))
  have hi' : ((ls.set j (b, rest)).set i (a, []))[i]? = some (a, []) := by
    rw [List.getElem?_set_self (by simpa using lt)]
  have come := perm_set_insert hi' taken (by simp : taken.Perm (taken ++ []))
  rw [List.set_set] at come
  have nodup := (left.trans (lost.append_left taken)).nodup_iff.mp nodup
  refine come.nodup_iff.mpr (nodup.sublist ?_)
  exact (List.sublist_append_right m _).append_left taken

variable [DecidableEq α]

-- The functions write to their arguments and the neighbours of these only.
theorem agree_listAdd (r : Rooted s.links head l) (hx : x ∉ head :: l) (hn : x ≠ entry) :
    Agree s.links (listAdd s.links entry head) x := by
  have ne : x ≠ head := fun he => hx (he ▸ List.mem_cons_self)
  have ne' : x ≠ s.links.next head := fun he => hx (he ▸ r.next_mem)
  simp [Agree, listAdd, listAddBetween, ne, ne', hn]

theorem agree_listAddTail (r : Rooted s.links head l) (hx : x ∉ head :: l) (hn : x ≠ entry) :
    Agree s.links (listAddTail s.links entry head) x := by
  have ne : x ≠ head := fun he => hx (he ▸ List.mem_cons_self)
  have ne' : x ≠ s.links.prev head := fun he => hx (he ▸ r.prev_mem)
  simp [Agree, listAddTail, listAddBetween, ne, ne', hn]

theorem agree_listDel (r : Rooted s.links head (xs ++ entry :: ys))
    (hx : x ∉ head :: (xs ++ entry :: ys)) : Agree s.links (listDel s.links entry) x := by
  have mem {y} (hy : y ∈ entry :: (ys ++ head :: xs)) : y ∈ head :: (xs ++ entry :: ys) := by
    simpa [or_comm, or_left_comm, or_assoc] using hy
  have ne : x ≠ s.links.next entry := fun he => hx (mem (he ▸ r.rotate.next_mem))
  have ne' : x ≠ s.links.prev entry := fun he => hx (mem (he ▸ r.rotate.prev_mem))
  simp [Agree, listDel, listDelBetween, ne, ne']

theorem agree_listCut (r : Rooted s.links head (xs ++ entry :: ys)) {list : α} (hl : x ≠ list)
    (hx : x ∉ head :: (xs ++ entry :: ys)) : Agree s.links (listCut s.links list head entry) x := by
  have mem {y} (hy : y ∈ entry :: (ys ++ head :: xs)) : y ∈ head :: (xs ++ entry :: ys) := by
    simpa [or_comm, or_left_comm, or_assoc] using hy
  have h₁ : x ≠ head := fun he => hx (he ▸ List.mem_cons_self)
  have h₂ : x ≠ entry := fun he => hx (he ▸ by simp)
  have h₃ : x ≠ s.links.next entry := fun he => hx (mem (he ▸ r.rotate.next_mem))
  have h₄ : x ≠ s.links.next head := fun he => hx (he ▸ r.next_mem)
  exact ⟨by rw [listCut_next, if_neg h₁, if_neg h₂, if_neg hl],
    by rw [listCut_prev, if_neg h₃, if_neg hl, if_neg h₄]⟩

theorem Kept.init (kept : Kept s) (hh : head ∉ s.used) :
    Kept ⟨initListHead s.links head, s.lists ++ [(head, [])]⟩ := by
  refine ⟨?_, fun k r hk => ?_⟩
  case refine_1 =>
    have perm : (s.used ++ [head]).Perm ([head] ++ s.used) := List.perm_append_comm
    simpa [used, cells] using perm.nodup_iff.mpr (List.nodup_cons.mpr ⟨hh, kept.nodup⟩)
  case refine_2 =>
    dsimp only at hk ⊢
    rw [List.getElem?_append] at hk
    split at hk
    case isTrue  =>
      have ne {x} (hx : x ∈ cells r) : x ≠ head := fun he => hh (he ▸ mem_used hk hx)
      refine (kept.circle k r hk).frame (fun x hx => ?_) fun x hx => ?_
      all_goals simp [initListHead, ne hx]
    case isFalse =>
      obtain rfl : (head, []) = r := by
        cases hz : k - s.lists.length <;> simp_all
      exact (rooted_iff.mpr headed_initListHead).circle

theorem Kept.add (kept : Kept s) (hi : s.lists[i]? = some (head, l)) (he : entry ∉ s.used) :
    Kept ⟨listAdd s.links entry head, s.lists.set i (head, entry :: l)⟩ := by
  have r := kept.rooted hi
  have absent : entry ∉ head :: l := fun hm => he (mem_used hi hm)
  refine kept.set hi (r.add absent).circle (nodup_set_insert hi kept.nodup he (.refl _)) ?_
  exact fun x hx hn => agree_listAdd r hn fun h => he (h ▸ hx)

theorem Kept.addTail (kept : Kept s) (hi : s.lists[i]? = some (head, l)) (he : entry ∉ s.used) :
    Kept ⟨listAddTail s.links entry head, s.lists.set i (head, l ++ [entry])⟩ := by
  have r := kept.rooted hi
  have absent : entry ∉ head :: l := fun hm => he (mem_used hi hm)
  refine kept.set hi (r.addTail absent).circle
    (nodup_set_insert hi kept.nodup he List.perm_append_comm) ?_
  exact fun x hx hn => agree_listAddTail r hn fun h => he (h ▸ hx)

theorem Kept.del (kept : Kept s) (hi : s.lists[i]? = some (head, l)) (he : entry ∈ l) :
    Kept ⟨listDel s.links entry, s.lists.set i (head, l.erase entry)⟩ := by
  have r := kept.rooted hi
  obtain ⟨xs, ys, hx, rfl, herase⟩ := List.exists_erase_eq he
  rw [herase]
  refine kept.set hi r.del.circle (nodup_set_erase hi kept.nodup [entry] List.perm_middle) ?_
  exact fun x _ hn => agree_listDel r hn

section Two

variable {j : Nat} {list dst src : α} {m : List α} (kept : Kept s)
include kept

theorem Kept.move (hi : s.lists[i]? = some (dst, m)) (hj : s.lists[j]? = some (src, l))
    (ne : i ≠ j) (hl : l ≠ []) :
    Kept ⟨copyListAndFlush s.links dst src, (s.lists.set i (dst, l)).set j (src, [])⟩ := by
  have r := kept.rooted hj
  have absent : dst ∉ src :: l := apart kept.nodup hj hi ne List.mem_cons_self
  obtain ⟨x, xs, rfl⟩ := List.exists_cons_of_ne_nil hl
  have moved := moved_cons (rooted_iff.mp r) absent
  refine kept.set_set hi hj ne (rooted_iff.mpr moved.dst).circle (rooted_iff.mpr moved.src).circle
    (nodup_set_move hi hj ne kept.nodup (by simp)) fun y hi hj => ?_
  have hd : y ≠ dst := fun he => hi (he ▸ List.mem_cons_self)
  have hs : y ≠ src := fun he => hj (he ▸ List.mem_cons_self)
  have hp : y ≠ s.links.prev src := fun he => hj (he ▸ r.prev_mem)
  have hn : y ≠ s.links.next src := fun he => hj (he ▸ r.next_mem)
  exact ⟨by rw [copyListAndFlush_next, if_neg hs, if_neg hp, if_neg hd],
    by rw [copyListAndFlush_prev, if_neg hs, if_neg hn, if_neg hd]⟩

theorem Kept.cut (hi : s.lists[i]? = some (list, m)) (hj : s.lists[j]? = some (head, l))
    (ne : i ≠ j) (he : entry ∈ head :: l) :
    Kept ⟨listCutPosition s.links list head entry,
      (s.lists.set i (list, (cutAt head entry m l).1)).set j (head, (cutAt head entry m l).2)⟩ := by
  have r := kept.rooted hj
  have absent : list ∉ head :: l := apart kept.nodup hj hi ne List.mem_cons_self
  have empty := r.listEmpty_iff
  by_cases hl : l = []
  case pos =>
    subst hl
    obtain ⟨_, hi'⟩ := List.getElem?_eq_some_iff.mp hi
    obtain ⟨_, hj'⟩ := List.getElem?_eq_some_iff.mp hj
    have same : (s.lists.set i (list, m)).set j (head, []) = s.lists := by
      rw [← hi', List.set_getElem_self, ← hj', List.set_getElem_self]
    simpa [listCutPosition, cutAt, empty.mpr rfl, same] using kept
  case neg =>
    have filled : ¬listEmpty s.links head := fun h => hl (empty.mp h)
    by_cases heq : entry = head
    case pos =>
      have unlike : ¬(listIsSingular s.links head ∧ s.links.next head ≠ entry ∧ head ≠ entry) :=
        fun h => h.2.2 heq.symm
      rw [listCutPosition, cutAt, if_neg filled, if_neg unlike, if_pos heq, if_neg hl, if_pos heq]
      have circle : (initListHead s.links list).Circle [list] :=
        (rooted_iff.mpr headed_initListHead).circle
      have other {x} (hx : x ≠ list) : Agree s.links (initListHead s.links list) x := by
        simp [Agree, initListHead, hx]
      have ne_list {x} (hx : x ∈ head :: l) : x ≠ list := fun he => absent (he ▸ hx)
      refine kept.set_set hi hj ne circle (r.circle.frame (fun x hx => (other (ne_list hx)).1)
        fun x hx => (other (ne_list hx)).2) (nodup_set_move hi hj ne kept.nodup (by simp)) ?_
      exact fun x hx _ => other fun he => hx (he ▸ List.mem_cons_self)
    case neg =>
      have mem : entry ∈ l := (List.mem_cons.mp he).resolve_left heq
      have single : ¬(listIsSingular s.links head ∧ s.links.next head ≠ entry ∧ head ≠ entry) := by
        rintro ⟨one, next, -⟩
        obtain ⟨y, rfl⟩ := List.length_eq_one_iff.mp (r.listIsSingular_iff.mp one)
        have first : y = s.links.next head := by simpa using r.next_head
        exact next (first ▸ (List.mem_singleton.mp mem).symm)
      obtain ⟨xs, ys, rfl, hx⟩ := List.eq_append_cons_of_mem mem
      have pass (a : α) (ha : a ∈ xs) : decide (a ≠ entry) := by
        simpa using fun he : a = entry => hx (he ▸ ha)
      have parts : cutAt head entry m (xs ++ entry :: ys) = (xs ++ [entry], ys) := by
        rw [cutAt, if_neg hl, if_neg heq, List.takeWhile_append_of_pos pass,
          List.dropWhile_append_of_pos pass]
        simp
      rw [listCutPosition, if_neg filled, if_neg single, if_neg heq, parts]
      have cut := r.listCut absent
      refine kept.set_set hi hj ne cut.list.circle cut.head.circle
        (nodup_set_move hi hj ne kept.nodup (by simp)) ?_
      exact fun x hx hj => agree_listCut r (fun he => hx (he ▸ List.mem_cons_self)) hj

end Two

theorem Kept.step {a : Act α} (kept : Kept s) (h : Lists.step s a = some s') : Kept s' := by
  cases a
  case init head       =>
    simp only [Lists.step] at h
    split at h
    case isTrue      => cases h
    case isFalse hh  => exact Option.some.inj h ▸ kept.init hh
  case add i entry     =>
    simp only [Lists.step] at h
    split at h
    case h_1           => cases h
    case h_2 hi        =>
      split at h
      case isTrue     => cases h
      case isFalse he => exact Option.some.inj h ▸ kept.add hi he
  case addTail i entry =>
    simp only [Lists.step] at h
    split at h
    case h_1           => cases h
    case h_2 hi        =>
      split at h
      case isTrue     => cases h
      case isFalse he => exact Option.some.inj h ▸ kept.addTail hi he
  case del i entry     =>
    simp only [Lists.step] at h
    split at h
    case h_1           => cases h
    case h_2 hi        =>
      split at h
      case isTrue he  => exact Option.some.inj h ▸ kept.del hi he
      case isFalse    => cases h
  case cut i j entry   =>
    simp only [Lists.step] at h
    split at h
    case h_1 hi hj     =>
      split at h
      case isTrue he  => exact Option.some.inj h ▸ kept.cut hi hj he.1 he.2
      case isFalse    => cases h
    case h_2           => cases h
  case move i j        =>
    simp only [Lists.step] at h
    split at h
    case h_1 hi hj     =>
      split at h
      case isTrue he  => exact Option.some.inj h ▸ kept.move hi hj he.1 he.2
      case isFalse    => cases h
    case h_2           => cases h

theorem Kept.of_reachable (r : (listHeads α).Reachable s) : Kept s := by
  refine r.invariant (fun s h₀ => ⟨?_, ?_⟩) fun s a s' kept _ h => kept.step h
  case refine_1 => simp [used, show s.lists = [] from h₀]
  case refine_2 => simp [show s.lists = [] from h₀]

-- The list in memory is `l` for whoever reads it.
structure Represented (h : Links α) (head : α) (l : List α) : Prop where
  headed    : Headed h head l
  empty     : listEmpty h head ↔ l = []
  singular  : listIsSingular h head ↔ l.length = 1
  for_each  : ∀ tests > l.length, listForEach h head tests (h.next head) = some l

-- Whatever the calls before, every list has the entries that they have given it, and no cell is on
-- two lists.
theorem represented (r : (listHeads α).Reachable s) :
    s.used.Nodup ∧ ∀ head l, (head, l) ∈ s.lists → Represented s.links head l := by
  have kept := Kept.of_reachable r
  refine ⟨kept.nodup, fun head l hm => ?_⟩
  obtain ⟨i, hi⟩ := List.getElem?_of_mem hm
  have r := kept.rooted hi
  exact ⟨rooted_iff.mp r, r.listEmpty_iff, r.listIsSingular_iff, fun _ ht => r.listForEach ht⟩

-- The list at 0 loses its first two entries to the one at 1.
theorem represented_cut : ∃ s : Lists Nat, s.lists = [(0, [3]), (1, [4, 2])] ∧
    Represented s.links 0 [3] ∧ Represented s.links 1 [4, 2] := by
  obtain ⟨s, r, hs⟩ := (listHeads Nat).exists_of_run (s := ⟨⟨id, id⟩, []⟩)
    [.init 0, .init 1, .addTail 0 2, .addTail 0 5, .addTail 0 3, .add 0 4, .del 0 5, .cut 1 0 2]
    (fun s => s.lists = [(0, [3]), (1, [4, 2])]) rfl (by decide)
  obtain ⟨_, all⟩ := represented r
  exact ⟨s, hs, all 0 [3] (by simp [hs]), all 1 [4, 2] (by simp [hs])⟩

end Lists
end NetPool
