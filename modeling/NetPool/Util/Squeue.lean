import NetPool.Lib.Links
import NetPool.Lib.System

namespace NetPool

abbrev Addr := Nat

-- `NULL`.
abbrev Addr.null : Addr :=
  0

-- The memory of the queue. The two words at the address of a `struct list_head` are its `next` and
-- its `prev`. Those at the address of an `s_queue_head` are its `first` and its `last_addr`:
-- `&head->first` is the address of the head and `&element->next` that of the element.
abbrev Heap := Links Addr

namespace Squeue

def initHead (h : Heap) (ptr : Addr) : Heap :=
  (h.setNext ptr .null).setPrev ptr ptr

def copy (h : Heap) (dst src : Addr) : Heap :=
  if h.next src ≠ .null then
    let h := h.setNext dst (h.next src)
    let h := h.setPrev dst (h.prev src)
    h.setPrev (h.next src) dst
  else initHead h dst

def inq (h : Heap) (elment head : Addr) : Heap :=
  let h := h.setNext elment .null
  let h := h.setPrev elment (h.prev head)
  let h := h.setNext (h.prev head) elment
  h.setPrev head elment

def insertPrev (h : Heap) (head nextNode node : Addr) : Heap :=
  let h := h.setNext node nextNode
  let h := h.setPrev node (h.prev nextNode)
  let tmpNode := h.prev nextNode
  let h := h.setPrev nextNode node
  if tmpNode = head then h.setNext head node else h.setNext tmpNode node

-- What `squeue_deq` and `squeue_deq_condition` do with a queue whose first node is `ret`.
def unlink (h : Heap) (head ret : Addr) : Heap :=
  let h := h.setNext head (h.next ret)
  if h.next head = .null then h.setPrev head head
  else h.setPrev (h.next ret) (h.prev ret)

def deq (h : Heap) (head : Addr) : Heap × Addr :=
  let ret := h.next head
  if ret = .null then (h, .null) else (unlink h head ret, ret)

def deqCondition (h : Heap) (head : Addr) (check : Addr → Bool) : Heap × Addr :=
  let ret := h.next head
  if ret = .null then (h, .null)
  else if check ret = false then (h, .null)
  else (unlink h head ret, ret)

def getTail (h : Heap) (head : Addr) : Addr :=
  if h.next head = .null then .null else h.prev head

def getPrev (h : Heap) (head node : Addr) : Addr :=
  if h.prev node = head then .null else h.prev node

-- The rounds of the loop of `squeue_walk` from `node` on, with what the calls of `walk_func` make
-- of their parameters. There is no result after too few rounds.
def walkFrom (h : Heap) (walkFunc : σ → Addr → σ) : Nat → Addr → σ → Option σ
  | 0,     _,    _   => none
  | n + 1, node, acc =>
    if node = .null then some acc else walkFrom h walkFunc n (h.next node) (walkFunc acc node)

def walk (h : Heap) (head : Addr) (walkFunc : σ → Addr → σ) (rounds : Nat) (param : σ) : Option σ :=
  walkFrom h walkFunc rounds (h.next head) param

end Squeue

-- The same operations on the list of the nodes.
namespace Fifo

def inq (l : List Addr) (elment : Addr) : List Addr :=
  l ++ [elment]

def insertPrev (l : List Addr) (nextNode node : Addr) : List Addr :=
  l.takeWhile (· ≠ nextNode) ++ node :: l.dropWhile (· ≠ nextNode)

def deq (l : List Addr) : List Addr :=
  l.tail

def deqCondition (l : List Addr) (check : Addr → Bool) : List Addr :=
  if l.head?.any check then l.tail else l

end Fifo

-- A queue in memory, and beside it the list that the operations on it make.
structure Squeue where
  heap : Heap
  head : Addr
  list : List Addr

namespace Squeue

inductive Act
  | inq (elment : Addr)
  | insertPrev (nextNode node : Addr)
  | deq
  | deqCondition (check : Addr → Bool)
  | copy (dst : Addr)

-- A node or a head that the operations may be called with is an object of its own.
def Apart (s : Squeue) (a : Addr) : Prop :=
  a ≠ .null ∧ a ∉ s.head :: s.list

instance (s : Squeue) (a : Addr) : Decidable (s.Apart a) :=
  inferInstanceAs (Decidable (_ ∧ _))

def step (s : Squeue) : Act → Option Squeue
  | .inq elment               => if s.Apart elment then some { s with
      heap := inq s.heap elment s.head
      list := Fifo.inq s.list elment }
    else none
  | .insertPrev nextNode node => if nextNode ∈ s.list ∧ s.Apart node then some { s with
      heap := insertPrev s.heap s.head nextNode node
      list := Fifo.insertPrev s.list nextNode node }
    else none
  | .deq                      => some { s with
      heap := (deq s.heap s.head).1
      list := Fifo.deq s.list }
  | .deqCondition check       => some { s with
      heap := (deqCondition s.heap s.head check).1
      list := Fifo.deqCondition s.list check }
  -- The new head replaces the old one.
  | .copy dst                 => if s.Apart dst then some { s with
      heap := copy s.heap dst s.head
      head := dst }
    else none

end Squeue

-- A queue from its `SQUEUE_INIT_HEAD` on.
def squeue : System Squeue Squeue.Act where
  init s := ∃ heap, s.head ≠ .null ∧ s.heap = Squeue.initHead heap s.head ∧ s.list = []
  step   := Squeue.step

namespace Squeue

variable {h : Heap} {head src dst elment node nextNode ret a y : Addr} {l as bs xs : List Addr}
  {s s' : Squeue}

section Effect

theorem copy_next (hs : h.next src ≠ .null) :
    (copy h dst src).next y = if y = dst then h.next src else h.next y := by
  simp [copy, hs]

theorem copy_prev (hs : h.next src ≠ .null) (hd : src ≠ dst) : (copy h dst src).prev y =
    if y = h.next src then dst else if y = dst then h.prev src else h.prev y := by
  simp [copy, hs, hd]

theorem inq_next (he : head ≠ elment) : (inq h elment head).next y =
    if y = h.prev head then elment else if y = elment then .null else h.next y := by
  simp [inq, he]

theorem inq_prev : (inq h elment head).prev y =
    if y = head then elment else if y = elment then h.prev head else h.prev y := by
  simp [inq]

theorem insertPrev_next (hn : nextNode ≠ node) : (insertPrev h head nextNode node).next y =
    if y = h.prev nextNode then node else if y = node then nextNode else h.next y := by
  by_cases hp : h.prev nextNode = head <;> simp [insertPrev, hn, hp]

theorem insertPrev_prev (hn : nextNode ≠ node) : (insertPrev h head nextNode node).prev y =
    if y = nextNode then node else if y = node then h.prev nextNode else h.prev y := by
  by_cases hp : h.prev nextNode = head <;> simp [insertPrev, hn, hp]

theorem unlink_next : (unlink h head ret).next y =
    if y = head then h.next ret else h.next y := by
  by_cases hn : h.next ret = .null <;> simp [unlink, hn]

theorem unlink_prev (hr : ret ≠ head) : (unlink h head ret).prev y =
    if h.next ret = .null then if y = head then head else h.prev y
    else if y = h.next ret then h.prev ret else h.prev y := by
  by_cases hn : h.next ret = .null <;> simp [unlink, hn, hr]

end Effect

-- The links are those of the nodes `l` behind the head.
structure Represents (h : Heap) (head : Addr) (l : List Addr) : Prop where
  chain    : h.Chain head l
  last     : h.next (l.getLastD head) = .null
  lastAddr : h.prev head = l.getLastD head
  nodup    : (head :: l).Nodup
  null     : ∀ a ∈ head :: l, a ≠ .null

namespace Represents

theorem first_eq (r : Represents h head l) : h.next head = l.headD .null := by
  cases l
  case nil  => exact r.last
  case cons => exact r.chain.1

theorem first_eq_null (r : Represents h head l) : h.next head = .null ↔ l = [] := by
  rw [r.first_eq]
  cases l
  case nil       => simp
  case cons x xs => simpa using r.null x (by simp)

theorem initHead (hn : head ≠ .null) : Represents (initHead h head) head [] :=
  ⟨trivial, by simp [Squeue.initHead], by simp [Squeue.initHead], by simp, by simpa using hn⟩

theorem copy (r : Represents h head l) (hn : dst ≠ .null) (hd : dst ∉ head :: l) :
    Represents (copy h dst head) dst l := by
  cases l
  case nil =>
    rw [Squeue.copy, if_neg (not_not.mpr <| r.first_eq_null.mpr rfl)]
    exact .initHead hn
  case cons x xs =>
    have ⟨first, _, chain⟩ := r.chain
    have ⟨hh, nodup⟩ := List.nodup_cons.mp r.nodup
    have ⟨hd, hl⟩ := List.ne_and_not_mem_of_not_mem_cons hd
    have hs := r.first_eq_null.not.mpr nofun
    have last : xs.getLastD x ∈ x :: xs := List.getLastD_mem_cons
    have ne : ∀ y ∈ x :: xs, y ≠ dst := fun y hy he => hl <| he ▸ hy
    refine ⟨⟨?_, ?_, chain.frame nodup (fun y hy _ => ?_) fun y hy => ?_⟩, ?_, ?_, ?_, ?_⟩
    case refine_1 => rw [copy_next hs, if_pos rfl, first]
    case refine_2 => rw [copy_prev hs hd.symm, first, if_pos rfl]
    case refine_3 => rw [copy_next hs, if_neg (ne y hy)]
    case refine_4 =>
      have hx : y ≠ x := fun he => (List.nodup_cons.mp nodup).1 <| he ▸ hy
      rw [copy_prev hs hd.symm, first, if_neg hx, if_neg (ne y (List.mem_cons_of_mem _ hy))]
    case refine_5 =>
      rw [List.getLastD_cons, copy_next hs, if_neg (ne _ last)]
      exact List.getLastD_cons ▸ r.last
    case refine_6 =>
      have hx : dst ≠ x := (ne x List.mem_cons_self).symm
      rw [copy_prev hs hd.symm, first, if_neg hx, if_pos rfl, r.lastAddr]
      simp only [List.getLastD_cons]
    case refine_7 => exact List.nodup_cons.mpr ⟨hl, nodup⟩
    case refine_8 =>
      refine List.forall_mem_cons.mpr ⟨hn, fun y hy => r.null y <| List.mem_cons_of_mem _ hy⟩

theorem inq (r : Represents h head l) (hn : elment ≠ .null) (he : elment ∉ head :: l) :
    Represents (inq h elment head) head (l ++ [elment]) := by
  have hh : head ≠ elment := fun hh => he <| hh ▸ List.mem_cons_self
  have ne : ∀ y ∈ head :: l, y ≠ elment := fun y hy hy' => he <| hy' ▸ hy
  have last : l.getLastD head ∈ head :: l := List.getLastD_mem_cons
  have ⟨hd, _⟩ := List.nodup_cons.mp r.nodup
  refine ⟨Links.chain_append.mpr ⟨r.chain.frame r.nodup (fun y hy hl => ?_) fun y hy => ?_, ?_, ?_,
    trivial⟩, ?_, ?_, ?_, ?_⟩
  case refine_1 => rw [inq_next hh, r.lastAddr, if_neg hl, if_neg (ne y hy)]
  case refine_2 =>
    have hy' : y ≠ head := fun he => hd <| he ▸ hy
    rw [inq_prev, if_neg hy', if_neg (ne y <| List.mem_cons_of_mem _ hy)]
  case refine_3 => rw [inq_next hh, r.lastAddr, if_pos rfl]
  case refine_4 => rw [inq_prev, if_neg hh.symm, if_pos rfl, r.lastAddr]
  case refine_5 =>
    rw [List.getLastD_concat, inq_next hh, r.lastAddr, if_neg (ne _ last).symm, if_pos rfl]
  case refine_6 => rw [inq_prev, if_pos rfl, List.getLastD_concat]
  case refine_7 =>
    rw [← List.cons_append, ← List.concat_eq_append]
    exact r.nodup.concat he
  case refine_8 =>
    intro y hy
    obtain hy | hy := List.mem_append.mp (List.cons_append ▸ hy)
    case inl => exact r.null y hy
    case inr => exact List.mem_singleton.mp hy ▸ hn

theorem unlink {x : Addr} (r : Represents h head (x :: xs)) :
    Represents (unlink h head x) head xs := by
  have ⟨_, prev, chain⟩ := r.chain
  have ⟨hh, nodup⟩ := List.nodup_cons.mp r.nodup
  have hx : x ≠ head := fun he => hh <| he ▸ List.mem_cons_self
  have hxs : head ∉ xs := fun hm => hh <| List.mem_cons_of_mem _ hm
  have null : ∀ y ∈ head :: xs, y ≠ .null := fun y hy => r.null y <| by
    rw [List.mem_cons] at hy ⊢
    exact hy.imp_right <| List.mem_cons_of_mem _
  have nodup' := List.nodup_cons.mpr ⟨hxs, (List.nodup_cons.mp nodup).2⟩
  cases xs
  case nil =>
    have last : h.next x = .null := r.last
    refine ⟨trivial, ?_, ?_, nodup', null⟩
    case refine_1 => rw [List.getLastD_nil, unlink_next, if_pos rfl, last]
    case refine_2 => rw [List.getLastD_nil, unlink_prev hx, if_pos last, if_pos rfl]
  case cons y ys =>
    have ⟨hy, _, chain⟩ := chain
    have hn : h.next x ≠ .null := hy ▸ null y (by simp)
    have ne : ∀ z ∈ y :: ys, z ≠ head := fun z hz he => hxs <| he ▸ hz
    have nodup := (List.nodup_cons.mp nodup).2
    have last : ys.getLastD y ∈ y :: ys := List.getLastD_mem_cons
    refine ⟨⟨?_, ?_, chain.frame nodup (fun z hz _ => ?_) fun z hz => ?_⟩, ?_, ?_, nodup', null⟩
    case refine_1 => rw [unlink_next, if_pos rfl, hy]
    case refine_2 => rw [unlink_prev hx, if_neg hn, if_pos hy.symm, prev]
    case refine_3 => rw [unlink_next, if_neg (ne z hz)]
    case refine_4 =>
      have hz : z ≠ y := fun he => (List.nodup_cons.mp nodup).1 <| he ▸ hz
      rw [unlink_prev hx, if_neg hn, hy, if_neg hz]
    case refine_5 =>
      have := r.last
      simp only [List.getLastD_cons] at this ⊢
      rw [unlink_next, if_neg (ne _ last), this]
    case refine_6 =>
      have := r.lastAddr
      simp only [List.getLastD_cons] at this ⊢
      rw [unlink_prev hx, if_neg hn, hy, if_neg (ne y List.mem_cons_self).symm, this]

theorem insertPrev (r : Represents h head (as ++ nextNode :: bs)) (hn : node ≠ .null)
    (hd : node ∉ head :: (as ++ nextNode :: bs)) :
    Represents (insertPrev h head nextNode node) head (as ++ node :: nextNode :: bs) := by
  have ⟨before, _, prev, after⟩ := Links.chain_append.mp r.chain
  rw [← List.cons_append, List.mem_append, not_or] at hd
  have ne₁ : ∀ y ∈ head :: as, y ≠ node := fun y hy he => hd.1 <| he ▸ hy
  have ne₂ : ∀ y ∈ nextNode :: bs, y ≠ node := fun y hy he => hd.2 <| he ▸ hy
  have hnn : nextNode ≠ node := ne₂ _ List.mem_cons_self
  have nodup := r.nodup
  rw [← List.cons_append, List.nodup_append'] at nodup
  obtain ⟨nodup₁, nodup₂, disjoint⟩ := nodup
  have ⟨hnb, _⟩ := List.nodup_cons.mp nodup₂
  have last : as.getLastD head ∈ head :: as := List.getLastD_mem_cons
  have lastD : bs.getLastD nextNode ∈ nextNode :: bs := List.getLastD_mem_cons
  have hp : ∀ y ∈ nextNode :: bs, y ≠ as.getLastD head := fun y hy he => disjoint last <| he ▸ hy
  refine ⟨Links.chain_append.mpr ⟨before.frame nodup₁ (fun y hy hl => ?_) fun y hy => ?_, ?_, ?_, ?_,
    ?_, after.frame nodup₂ (fun y hy hl => ?_) fun y hy => ?_⟩, ?_, ?_, ?_, ?_⟩
  case refine_1 =>
    rw [insertPrev_next hnn, prev, if_neg hl, if_neg (ne₁ y hy)]
  case refine_2 =>
    have hy : y ∈ head :: as := List.mem_cons_of_mem _ hy
    have hyn : y ≠ nextNode := fun he => disjoint (he ▸ hy) List.mem_cons_self
    rw [insertPrev_prev hnn, if_neg hyn, if_neg (ne₁ y hy)]
  case refine_3 => rw [insertPrev_next hnn, prev, if_pos rfl]
  case refine_4 => rw [insertPrev_prev hnn, if_neg hnn.symm, if_pos rfl, prev]
  case refine_5 => rw [insertPrev_next hnn, prev, if_neg (ne₁ _ last).symm, if_pos rfl]
  case refine_6 => rw [insertPrev_prev hnn, if_pos rfl]
  case refine_7 => rw [insertPrev_next hnn, prev, if_neg (hp y hy), if_neg (ne₂ y hy)]
  case refine_8 =>
    have hyn : y ≠ nextNode := fun he => hnb <| he ▸ hy
    rw [insertPrev_prev hnn, if_neg hyn, if_neg (ne₂ y <| List.mem_cons_of_mem _ hy)]
  case refine_9 =>
    have := r.last
    rw [Links.getLastD_append_cons] at this ⊢
    rw [List.getLastD_cons, insertPrev_next hnn, prev, if_neg (hp _ lastD), if_neg (ne₂ _ lastD),
      this]
  case refine_10 =>
    have := r.lastAddr
    rw [Links.getLastD_append_cons] at this ⊢
    have hh : head ≠ nextNode := fun he => disjoint List.mem_cons_self <| he ▸ List.mem_cons_self
    rw [List.getLastD_cons, insertPrev_prev hnn, if_neg hh, if_neg (ne₁ _ List.mem_cons_self), this]
  case refine_11 =>
    have nodup₂ := List.nodup_cons.mpr ⟨fun hm => ne₂ _ hm rfl, nodup₂⟩
    have disjoint := List.disjoint_cons_right.mpr ⟨fun hm => ne₁ _ hm rfl, disjoint⟩
    exact List.cons_append ▸ List.nodup_append'.mpr ⟨nodup₁, nodup₂, disjoint⟩
  case refine_12 =>
    intro y hy
    have hy : y = node ∨ y ∈ head :: (as ++ nextNode :: bs) := by
      simp only [List.mem_cons, List.mem_append] at hy ⊢
      tauto
    obtain rfl | hy := hy
    case inl => exact hn
    case inr => exact r.null y hy

theorem deq (r : Represents h head l) :
    Represents (deq h head).1 head (Fifo.deq l) ∧ (deq h head).2 = l.headD .null := by
  cases l
  case nil       => simpa [Squeue.deq, Fifo.deq, r.first_eq] using r
  case cons x xs =>
    have hx : x ≠ .null := r.null x (by simp)
    simpa [Squeue.deq, Fifo.deq, r.first_eq, hx] using r.unlink

theorem deqCondition (r : Represents h head l) (check : Addr → Bool) :
    Represents (deqCondition h head check).1 head (Fifo.deqCondition l check) ∧
      (deqCondition h head check).2 = (l.head?.filter check).getD .null := by
  cases l
  case nil       => simpa [Squeue.deqCondition, Fifo.deqCondition, r.first_eq] using r
  case cons x xs =>
    have hx : x ≠ .null := r.null x (by simp)
    cases hc : check x
    all_goals simp [Squeue.deqCondition, Fifo.deqCondition, Option.filter, r.first_eq, hx, hc]
    case false => exact r
    case true  => exact r.unlink

theorem insertPrev_mem (r : Represents h head l) (hm : nextNode ∈ l) (hn : node ≠ .null)
    (hd : node ∉ head :: l) :
    Represents (Squeue.insertPrev h head nextNode node) head (Fifo.insertPrev l nextNode node) := by
  have ⟨as, bs, he, ha⟩ := List.eq_append_cons_of_mem hm
  have before : ∀ a ∈ as, decide (a ≠ nextNode) = true := by
    intro a hm
    simpa using ne_of_mem_of_not_mem hm ha
  subst he
  rw [Fifo.insertPrev, List.takeWhile_append_of_pos before, List.dropWhile_append_of_pos before]
  simpa using r.insertPrev hn hd

end Represents

theorem Represents.step (r : Represents s.heap s.head s.list) {a : Act} (hs : s.step a = some s') :
    Represents s'.heap s'.head s'.list := by
  cases a
  case inq elment =>
    have ⟨⟨hn, hd⟩, hs⟩ := Option.ite_none_right_eq_some.mp hs
    cases hs
    exact r.inq hn hd
  case insertPrev nextNode node =>
    have ⟨⟨hm, hn, hd⟩, hs⟩ := Option.ite_none_right_eq_some.mp hs
    cases hs
    exact r.insertPrev_mem hm hn hd
  case deq                => cases hs; exact r.deq.1
  case deqCondition check => cases hs; exact (r.deqCondition check).1
  case copy dst =>
    have ⟨⟨hn, hd⟩, hs⟩ := Option.ite_none_right_eq_some.mp hs
    cases hs
    exact r.copy hn hd

-- The `next` links from `a` on spell `l`.
def Spells (h : Heap) : Addr → List Addr → Prop
  | a, []      => a = .null
  | a, x :: xs => a = x ∧ a ≠ .null ∧ Spells h (h.next x) xs

theorem Spells.walkFrom {walkFunc : σ → Addr → σ} {rounds : Nat} {acc : σ} (sp : Spells h a l)
    (hr : l.length < rounds) : walkFrom h walkFunc rounds a acc = some (l.foldl walkFunc acc) := by
  induction l generalizing a acc rounds
  all_goals
    cases rounds
    case zero => simp at hr
  case nil.succ       => exact if_pos sp
  case cons.succ x xs hi n =>
    obtain ⟨rfl, hn, sp⟩ := sp
    rw [Squeue.walkFrom, if_neg hn, hi sp (Nat.lt_of_succ_lt_succ hr), List.foldl_cons]

theorem spells_of_chain (c : h.Chain a l) (last : h.next (l.getLastD a) = .null)
    (null : ∀ x ∈ l, x ≠ .null) : Spells h (h.next a) l := by
  induction l generalizing a
  case nil          => exact last
  case cons x xs hi =>
    have ⟨next, _, c⟩ := c
    have ⟨hx, null⟩ := List.forall_mem_cons.mp null
    exact ⟨next, next ▸ hx, hi c (List.getLastD_cons ▸ last) null⟩

-- What the memory says about the queue is what the list says.
structure Sequence (s : Squeue) : Prop where
  spells       : Spells s.heap (s.heap.next s.head) s.list
  lastAddr     : s.heap.prev s.head = s.list.getLast?.getD s.head
  prev         : ∀ as x bs, s.list = as ++ x :: bs → s.heap.prev x = as.getLast?.getD s.head
  getTail      : getTail s.heap s.head = s.list.getLast?.getD .null
  getPrev      : ∀ as x bs, s.list = as ++ x :: bs →
    getPrev s.heap s.head x = as.getLast?.getD .null
  deq          : (deq s.heap s.head).2 = s.list.head?.getD .null
  deqCondition : ∀ check,
    (deqCondition s.heap s.head check).2 = (s.list.head?.filter check).getD .null
  walk         : ∀ {σ : Type} (walkFunc : σ → Addr → σ) (param : σ) (rounds : Nat),
    s.list.length < rounds →
    walk s.heap s.head walkFunc rounds param = some (s.list.foldl walkFunc param)

theorem Represents.operations (r : Represents s.heap s.head s.list) : s.Sequence := by
  have spells := spells_of_chain r.chain r.last fun x hx => r.null x <| List.mem_cons_of_mem _ hx
  have prev : ∀ as x bs, s.list = as ++ x :: bs → s.heap.prev x = as.getLastD s.head := by
    intro as x bs he
    exact Links.Chain.prev_eq (he ▸ r.chain)
  refine ⟨spells, ?_, fun as x bs he => ?_, ?_, fun as x bs he => ?_, ?_, fun check => ?_,
    fun f p n hn => spells.walkFrom hn⟩
  case refine_1 => rw [r.lastAddr, List.getLastD_eq_getLast?]
  case refine_2 => rw [prev as x bs he, List.getLastD_eq_getLast?]
  case refine_3 =>
    cases hl : s.list
    case nil       => simp [getTail, r.first_eq, hl]
    case cons x xs =>
      have hx : x ≠ .null := r.null x (by simp [hl])
      simp [getTail, r.first_eq, r.lastAddr, hl, hx, List.getLast?_cons]
  case refine_4 =>
    rw [Squeue.getPrev, prev as x bs he, List.getLastD_eq_getLast?]
    cases hp : as.getLast?
    case none   => exact if_pos rfl
    case some p =>
      have hm : p ∈ s.list := he ▸ List.mem_append_left _ (List.mem_of_getLast? hp)
      exact if_neg <| ne_of_mem_of_not_mem hm (List.nodup_cons.mp r.nodup).1
  case refine_5 => rw [r.deq.2, List.headD_eq_head?_getD]
  case refine_6 => exact (r.deqCondition check).2

-- Over every run, the memory holds the sequence that the operations make.
theorem sequence (h : squeue.Reachable s) : s.Sequence := by
  have r : Represents s.heap s.head s.list := by
    refine h.invariant (I := fun s => Represents s.heap s.head s.list) (fun s hi => ?_)
      fun s a s' r _ hs => r.step hs
    have ⟨heap, hn, he, hl⟩ := hi
    rw [he, hl]
    exact .initHead hn
  exact r.operations

-- A queue that has been moved to another head, and lost its first node.
theorem sequence_moved : ∃ s, (squeue.Reachable s ∧ s.head = 500 ∧ s.list = [100, 200]) ∧
    s.Sequence := by
  have init : squeue.init ⟨initHead ⟨fun _ => 0, fun _ => 0⟩ 10, 10, []⟩ := ⟨_, by decide, rfl, rfl⟩
  have ⟨s, hr, hs⟩ : ∃ s, squeue.Reachable s ∧ s.head = 500 ∧ s.list = [100, 200] :=
    System.exists_of_run [.inq 100, .inq 200, .insertPrev 100 300, .copy 500,
      .deqCondition (· = 300)] _ init (by decide)
  exact ⟨s, ⟨hr, hs⟩, sequence hr⟩

end Squeue

end NetPool
