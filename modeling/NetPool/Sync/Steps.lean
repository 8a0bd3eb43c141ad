import NetPool.Lib.Wait
import NetPool.Sync.Nesting

open Relation

namespace NetPool.Locking

variable {s s' : Locking} {t u w : Nat} {op : Op} {ops e : List Op} {c : Choice} {l : Lock}

-- Thread `t` has told worker `u` to exit and is going to join it.
def Awaits (s : Locking) (t u : Nat) : Prop :=
  ∃ op ∈ (s.thread t).todo, u ∈ op.told

def graph (s : Locking) : WaitGraph Nat Lock where
  awaits  := s.Awaits
  holds t l := l.long ∧ l ∈ (s.thread t).held
  wants t l := ∃ op ∈ (s.thread t).todo, l ∈ op.wants

-- No thread goes for the lock of the timers or of a pool while one that holds it, itself or
-- another, is to join it, and TellAllWorkerExit tells no worker to exit that is to join the caller
-- or goes for a lock that is not given back before.
def Orderly (s : Locking) : Act → Prop
  | .spawn  => True
  | .go t c => ∀ op ∈ (s.thread t).todo.head?,
    (∀ l ∈ s.takes op c, ¬s.graph.Under l t) ∧
    ∀ p trash w, op = .tell p trash → c = .worker w → ¬ReflTransGen s.Awaits w t ∧
      ∀ l u, s.graph.Under l t → ReflTransGen s.Awaits w u → ¬s.graph.wants u l

-- What holds for each of the threads.
structure Thread.Ok (x : Thread) : Prop where
  nested : Nested x.held x.todo
  above  : x.todo.Pairwise Op.Above
  idle   : x.isBusy = false → ∀ op ∈ x.todo, op.idle

structure Inv (s : Locking) : Prop where
  ok     : ∀ t, (s.thread t).Ok
  holder : Agree (fun t => (s.thread t).held) s.holder
  fresh  : ∀ t, s.count ≤ t → (s.thread t).todo = []
  sound  : s.graph.Sound

section Idle

theorem told_of_idle (h : op.idle) : op.told = [] := by
  cases op <;> simp_all [Op.idle, Op.told]

theorem wants_of_idle (h : op.idle) : op.wants = none := by
  cases op <;> simp_all [Op.idle, Op.wants]

end Idle

-- As far as threads still have to do, hold locks and are busy.
@[mk_iff]
structure Thread.Same (x y : Thread) : Prop where
  todo : y.todo = x.todo
  held : y.held = x.held
  busy : y.isBusy = x.isBusy

section Effect

attribute [local simp] effect modify Function.update_apply Thread.same_iff

theorem enter_thread (s : Locking) (f : Fn) : (s.enter f).thread = s.thread := by
  unfold enter
  split
  case h_3 => rfl
  all_goals split <;> rfl

attribute [local simp] enter_thread

variable (s) (t) (op) (c)

-- What a step changes of the other threads: at most, a new worker is made.
theorem effect_other (hu : u ≠ t) : (s.thread u).Same ((s.effect t op c).thread u) ∨
    u = s.count ∧ ∃ p, op = .insert p ∧
      (s.effect t op c).thread u = { todo := [.start, .work p, .exit] } := by
  cases op
  case insert p =>
    by_cases hc : u = s.count
    case pos => exact .inr ⟨hc, p, rfl, by simp [hc]⟩
    case neg => exact .inl (by simp [hc])
  case stop w | create w | mark w => by_cases hw : u = w <;> simp [hw]
  case got | callback => cases c <;> simp [hu]
  all_goals simp [hu]

theorem effect_held (ht : t < s.count) :
    ((s.effect t op c).thread t).held = op.after (s.thread t).held := by
  cases op
  case stop w | create w | mark w => by_cases hw : t = w <;> simp [hw, Op.after]
  case got | callback => cases c <;> simp [Op.after]
  all_goals simp [ht.ne, Op.after]

-- A worker is busy from the task on that it gets until it has finished it.
theorem effect_busy (ht : t < s.count) (he : s.expand t op c = some e)
    (h : ((s.effect t op c).thread t).isBusy = false) :
    op = .finish ∨ (s.thread t).isBusy = false ∧ ∀ i, c ≠ .task i := by
  by_cases hi : ∃ i, c = .task i
  case pos =>
    obtain ⟨i, rfl⟩ := hi
    cases op
    case got => simp at h
    case join trash => cases trash <;> cases he
    all_goals cases he
  case neg =>
    have hi : ∀ i, c ≠ .task i := fun i hc => hi ⟨i, hc⟩
    refine or_iff_not_imp_left.mpr fun hf => ⟨?_, hi⟩
    cases op
    case stop w | create w | mark w => by_cases hw : t = w <;> simpa [hw] using h
    case got => cases c <;> first | exact absurd rfl (hi _) | simpa using h
    case callback => cases c <;> simpa using h
    case finish => exact absurd rfl hf
    all_goals simpa [ht.ne] using h

theorem enter_holder (s : Locking) (f : Fn) : (s.enter f).holder = s.holder := by
  unfold enter
  split
  case h_3 => rfl
  all_goals split <;> rfl

theorem enter_count (s : Locking) (f : Fn) : (s.enter f).count = s.count := by
  unfold enter
  split
  case h_3 => rfl
  all_goals split <;> rfl

attribute [local simp] enter_holder enter_count

theorem effect_holder : (s.effect t op c).holder = match op with
    | .lock l   => Function.update s.holder l (some t)
    | .unlock l =>
      if l ∈ (s.thread t).held.erase l then s.holder else Function.update s.holder l none
    | _         => s.holder := by
  cases op
  case got | callback => cases c <;> simp
  all_goals simp

theorem le_effect_count : s.count ≤ (s.effect t op c).count := by
  cases op
  case got | callback => cases c <;> simp
  all_goals simp

theorem lt_effect_count {p : Nat} (hp : op = .insert p) : s.count < (s.effect t op c).count := by
  simp [hp]

end Effect

-- A step of a thread, from what it has still to do.
theorem go_cases (h : s.go t c = some s') : ∃ op ops e, (s.thread t).todo = op :: ops ∧
    s.expand t op c = some e ∧
    s' = (s.effect t op c).modify t fun x => { x with todo := e ++ ops } := by
  unfold go at h
  split at h
  case h_1 op ops _ ht =>
    have ⟨e, he, h⟩ := Option.map_eq_some_iff.mp h
    exact ⟨op, ops, e, ht, he, h.symm⟩
  case h_2 => cases h

-- What a step does: the thread goes on, and at most one worker is made.
structure Moved (s : Locking) (t : Nat) (op : Op) (c : Choice) (todo : List Op) (s' : Locking) :
    Prop where
  todo   : (s'.thread t).todo = todo
  held   : (s'.thread t).held = op.after (s.thread t).held
  busy   : (s'.thread t).isBusy = false →
    op = .finish ∨ (s.thread t).isBusy = false ∧ ∀ i, c ≠ .task i
  others : ∀ u ≠ t, (s.thread u).Same (s'.thread u) ∨
    u = s.count ∧ ∃ p, op = .insert p ∧ s'.thread u = { todo := [.start, .work p, .exit] }

theorem moved (ops : List Op) (hn : t < s.count) (he : s.expand t op c = some e) :
    s.Moved t op c (e ++ ops)
      ((s.effect t op c).modify t fun x => { x with todo := e ++ ops }) := by
  refine ⟨?_, ?_, fun h => ?_, fun u hu => ?_⟩
  case refine_1 => simp [modify]
  case refine_2 => simpa [modify] using effect_held s t op c hn
  case refine_3 => exact effect_busy s t op c hn he (by simpa [modify] using h)
  case refine_4 => simpa [modify, hu] using effect_other s t op c hu

namespace Thread

variable {x y : Thread}

theorem Same.ok (h : x.Same y) (ok : x.Ok) : y.Ok where
  nested := by rw [h.todo, h.held]; exact ok.nested
  above  := by rw [h.todo]; exact ok.above
  idle   := by rw [h.todo, h.busy]; exact ok.idle

theorem ok_worker (p : Nat) : Ok { todo := [.start, .work p, .exit] } where
  nested := by simp [Nested, Op.Fits, Op.past, Op.after, Calm]
  above  := by simp [Op.Above, Op.told, Op.idle]
  idle   := by simp [Op.idle]

theorem ok_application : Ok { todo := [.callback], live := true, isBusy := true } where
  nested := by simp [Nested, Op.Fits, Op.past, Op.after, Calm]
  above  := by simp
  idle   := nofun

end Thread

-- What a thread has still to do after a step.
theorem Thread.Ok.go {x y : Thread} (ok : x.Ok) (ht : x.todo = op :: ops)
    (he : s.expand t op c = some e) (hd : s.takes op c = some .timer → x.held = [])
    (todo : y.todo = e ++ ops) (held : y.held = op.after x.held)
    (busy : y.isBusy = false → op = .finish ∨ x.isBusy = false ∧ ∀ i, c ≠ .task i) : y.Ok := by
  have follows := expand_follows he
  have above := ok.above
  rw [ht] at above
  have ⟨first, rest⟩ := List.pairwise_cons.mp above
  constructor
  case nested =>
    have nested := ok.nested
    rw [ht] at nested
    rw [todo, held]
    exact nested_expand nested hd he
  case above =>
    rw [todo]
    refine List.pairwise_append.mpr ⟨expand_above he, rest, fun a ha o ho => ?_⟩
    exact ⟨(first o ho).1.imp_left (follows a ha).small,
      fun hr => (first o ho).2 ((follows a ha).outer hr)⟩
  case idle =>
    intro hb a ha
    rw [todo] at ha
    obtain rfl | ⟨hb, hi⟩ := busy hb
    case inl =>
      have : e = [] := by
        cases c <;> cases he
        rfl
      rw [this] at ha
      exact (first a ha).2 rfl
    case inr =>
      have idle := ok.idle hb
      rw [ht] at idle
      obtain ha | ha := List.mem_append.mp ha
      · exact (follows a ha).idle (idle op List.mem_cons_self) hi
      · exact idle a (List.mem_cons_of_mem _ ha)

-- What a step adds to the wait graph.
section Graph

variable (ht : (s.thread t).todo = op :: ops) (he : s.expand t op c = some e)
  (m : s.Moved t op c (e ++ ops) s')
include ht he m

-- The operations of a thread come from those that it had, or in place of the first.
theorem Moved.todo_cases {a : Op} (ha : a ∈ (s'.thread u).todo) :
    a ∈ (s.thread u).todo ∨ u = t ∧ a.Follows s op c ∨ a.told = [] ∧ a.wants = none := by
  by_cases hu : u = t
  case pos =>
    subst hu
    rw [m.todo] at ha
    obtain ha | ha := List.mem_append.mp ha
    case inl => exact .inr <| .inl ⟨rfl, expand_follows he a ha⟩
    case inr => exact .inl (ht ▸ List.mem_cons_of_mem _ ha)
  case neg =>
    obtain same | ⟨_, p, _, hp⟩ := m.others u hu
    case inl => exact .inl (same.todo ▸ ha)
    case inr =>
      refine .inr <| .inr ?_
      rw [hp] at ha
      revert a
      simp [Op.told, Op.wants]

theorem Moved.awaits (h : s'.Awaits u w) : s.Awaits u w ∨ u = t ∧ c = .worker w := by
  obtain ⟨a, ha, hw⟩ := h
  obtain ha | ⟨rfl, follows⟩ | ⟨told, _⟩ := m.todo_cases ht he ha
  case inl => exact .inl ⟨a, ha, hw⟩
  case inr.inr => rw [told] at hw; cases hw
  case inr.inl =>
    obtain hw | hw := follows.told w hw
    case inl => exact .inl ⟨op, ht ▸ List.mem_cons_self, hw⟩
    case inr => exact .inr ⟨rfl, hw⟩

theorem Moved.wants (h : s'.graph.wants u l) :
    s.graph.wants u l ∨ u = t ∧ s.takes op c = some l := by
  obtain ⟨a, ha, hl⟩ := h
  obtain ha | ⟨rfl, follows⟩ | ⟨_, wants⟩ := m.todo_cases ht he ha
  case inl     => exact .inl ⟨a, ha, hl⟩
  case inr.inl => exact .inr ⟨rfl, follows.wants l hl⟩
  case inr.inr => rw [wants] at hl; cases hl

omit ht he in
theorem Moved.holds (h : s'.graph.holds u l) :
    s.graph.holds u l ∨ u = t ∧ op = .lock l ∧ l.long := by
  obtain ⟨hl, hm⟩ := h
  by_cases hu : u = t
  case neg =>
    obtain same | ⟨_, p, _, hp⟩ := m.others u hu
    case inl => exact .inl ⟨hl, same.held ▸ hm⟩
    case inr => rw [hp] at hm; cases hm
  case pos =>
    subst hu
    rw [m.held] at hm
    cases op
    case lock k =>
      obtain rfl | hm := List.mem_cons.mp hm
      case inl => exact .inr ⟨rfl, rfl, hl⟩
      case inr => exact .inl ⟨hl, hm⟩
    case unlock k => exact .inl ⟨hl, List.mem_of_mem_erase hm⟩
    all_goals exact .inl ⟨hl, hm⟩

end Graph

theorem worker_of_expand (he : s.expand t op (.worker w) = some e) :
    (∃ p trash, op = .age p trash ∧ (s.thread w).isBusy = false) ∨
      ∃ p trash, op = .tell p trash := by
  cases op
  case age p trash =>
    obtain ⟨⟨_, hb⟩, _⟩ := Option.ite_none_right_eq_some.mp he
    exact .inl ⟨p, trash, rfl, by simpa using hb⟩
  case tell p trash => exact .inr ⟨p, trash, rfl⟩
  case join trash => cases trash <;> cases he
  all_goals cases he

-- Where the lock of the timers is about to be taken, none but it is held.
theorem calm_of_takes {held : List Lock} (h : s.takes op c = some .timer) (fits : op.Fits held) :
    Calm held := by
  cases op
  case run      => exact fits
  case callback => exact fits
  case grow     => cases c <;> cases h
  case ageing   => cases c <;> cases h
  all_goals cases h

namespace Inv

-- A worker that is not busy waits for nobody and goes for no lock that is held for long.
theorem lone (inv : s.Inv) (hb : (s.thread w).isBusy = false) :
    (∀ u, ¬s.Awaits w u) ∧ ∀ l, ¬s.graph.wants w l := by
  have idle := (inv.ok w).idle hb
  refine ⟨fun u ⟨a, ha, hu⟩ => ?_, fun l ⟨a, ha, hl⟩ => ?_⟩
  · rw [told_of_idle (idle a ha)] at hu; cases hu
  · rw [wants_of_idle (idle a ha)] at hl; cases hl

theorem sound_go (inv : s.Inv) (ok : s.Orderly (.go t c)) (ht : (s.thread t).todo = op :: ops)
    (he : s.expand t op c = some e) (m : s.Moved t op c (e ++ ops) s') : s'.graph.Sound := by
  have awaits (a b : Nat) := m.awaits ht he (u := a) (w := b)
  have holds (a : Nat) (l : Lock) := m.holds (u := a) (l := l)
  have wants (a : Nat) (l : Lock) := m.wants ht he (u := a) (l := l)
  have ⟨ok, told⟩ := ok op (by simp [ht])
  by_cases hc : ∃ w, c = .worker w
  case pos =>
    obtain ⟨w, rfl⟩ := hc
    have takes (l : Lock) : s.takes op (.worker w) ≠ some l := by
      cases op <;> simp [takes]
    have lock (l : Lock) : op ≠ .lock l := by
      rintro rfl
      cases he
    have safe : ¬ReflTransGen s.Awaits w t ∧ ∀ l u, s.graph.Under l t →
        ReflTransGen s.Awaits w u → ¬s.graph.wants u l := by
      obtain ⟨p, trash, rfl, hb⟩ | ⟨p, trash, rfl⟩ := worker_of_expand he
      case inr => exact told p trash w rfl rfl
      case inl =>
        have ⟨alone, wants⟩ := inv.lone hb
        have only (u : Nat) (h : ReflTransGen s.Awaits w u) : u = w := by
          obtain rfl | ⟨v, hv, _⟩ := ReflTransGen.cases_head h
          · rfl
          · exact absurd hv (alone v)
        refine ⟨fun h => ?_, fun l u _ h => only u h ▸ wants l⟩
        have idle := (inv.ok w).idle hb (.age p trash) (only t h ▸ ht ▸ List.mem_cons_self)
        cases idle
    refine inv.sound.await (x := t) (y := w) safe.1 safe.2 (fun a b h => ?_) (fun a l h => ?_)
      fun a l h => ?_
    · exact (awaits a b h).imp_right fun ⟨ha, hb⟩ => ⟨ha, (Choice.worker.inj hb).symm⟩
    · exact (holds a l h).resolve_right fun ⟨_, hl, _⟩ => lock l hl
    · exact (wants a l h).resolve_right fun ⟨_, hl⟩ => takes l hl
  case neg =>
    have awaits (a b : Nat) (h : s'.Awaits a b) : s.Awaits a b :=
      (awaits a b h).resolve_right fun ⟨_, hb⟩ => hc ⟨b, hb⟩
    by_cases hl : ∃ l, op = .lock l ∧ l.long
    case pos =>
      obtain ⟨l, rfl, hl⟩ := hl
      have wants (a : Nat) (k : Lock) (h : s'.graph.wants a k) : s.graph.wants a k :=
        (wants a k h).resolve_right fun ⟨_, hk⟩ => by simp [takes] at hk
      -- What comes behind a lock that is held for long joins no worker.
      have alone (u : Nat) : ¬s.Awaits t u := by
        intro ⟨a, ha, hu⟩
        have above := (inv.ok t).above
        rw [ht] at ha above
        obtain rfl | ha := List.mem_cons.mp ha
        case inl => cases hu
        case inr =>
          obtain small | told := ((List.pairwise_cons.mp above).1 a ha).1
          case inl => simp [Op.small, hl] at small
          case inr => rw [told] at hu; cases hu
      exact inv.sound.hold (x := t) alone awaits
        (fun a k h => (holds a k h).imp_right And.left) wants
    case neg =>
      have holds (a : Nat) (k : Lock) (h : s'.graph.holds a k) : s.graph.holds a k :=
        (holds a k h).resolve_right fun ⟨_, hk⟩ => hl ⟨k, hk⟩
      cases ho : s.takes op c
      case none =>
        exact inv.sound.mono awaits holds fun a k h => (wants a k h).resolve_right (by simp [ho])
      case some l =>
        refine inv.sound.want (x := t) (ok l ho) awaits holds fun a k h => ?_
        exact (wants a k h).imp_right fun ⟨ha, hk⟩ => ⟨ha, Option.some.inj (hk.symm.trans ho)⟩

theorem init (h : locking.init s) : s.Inv := by
  have todo (t : Nat) : (s.thread t).todo = [] := by rw [h]; rfl
  have held (t : Nat) : (s.thread t).held = [] := by rw [h]; rfl
  have alone (t u : Nat) : ¬s.graph.awaits t u := by
    intro ⟨a, ha, _⟩
    rw [todo] at ha
    cases ha
  refine ⟨fun t => ?_, fun t l => ?_, fun t _ => todo t, fun t hc => ?_, fun t l u hl => ?_⟩
  case refine_1 =>
    constructor
    case nested => rw [todo, held]; rfl
    case above  => rw [todo]; exact .nil
    case idle   => rw [todo]; exact nofun
  case refine_2 =>
    dsimp only
    rw [held, h]
    exact iff_of_false List.not_mem_nil nofun
  case refine_3 =>
    obtain ⟨u, hu, _⟩ := TransGen.head'_iff.mp hc
    exact alone t u hu
  case refine_4 =>
    obtain ⟨_, hl⟩ := hl
    rw [held] at hl
    cases hl

-- A thread that has nothing to do holds nothing.
theorem held_fresh (inv : s.Inv) (hu : s.count ≤ u) : (s.thread u).held = [] := by
  have nested := (inv.ok u).nested
  rwa [inv.fresh u hu] at nested

theorem spawn (inv : s.Inv) : s.spawn.Inv := by
  have own : s.spawn.thread s.count = { todo := [.callback], live := true, isBusy := true } :=
    Function.update_self ..
  have other (u : Nat) (hu : u ≠ s.count) : s.spawn.thread u = s.thread u :=
    Function.update_of_ne hu ..
  have todo (u : Nat) (a : Op) (ha : a ∈ (s.spawn.thread u).todo) :
      a ∈ (s.thread u).todo ∨ a = .callback := by
    by_cases hu : u = s.count
    case pos => rw [hu, own] at ha; exact .inr (List.mem_singleton.mp ha)
    case neg => exact .inl (other u hu ▸ ha)
  have held (u : Nat) : (s.spawn.thread u).held = (s.thread u).held := by
    by_cases hu : u = s.count
    case pos => rw [hu, own, inv.held_fresh (Nat.le_refl _)]
    case neg => rw [other u hu]
  refine ⟨fun u => ?_, fun u l => ?_, fun u hu => ?_, inv.sound.mono ?_ ?_ ?_⟩
  case refine_1 =>
    by_cases hu : u = s.count
    case pos => rw [hu, own]; exact Thread.ok_application
    case neg => rw [other u hu]; exact inv.ok u
  case refine_2 =>
    dsimp only
    rw [held]
    exact inv.holder u l
  case refine_3 =>
    have hu : s.count < u := hu
    rw [other u hu.ne']
    exact inv.fresh u hu.le
  case refine_4 =>
    intro u w ⟨a, ha, hw⟩
    obtain ha | rfl := todo u a ha
    case inl => exact ⟨a, ha, hw⟩
    case inr => cases hw
  case refine_5 => exact fun u l ⟨hl, hm⟩ => ⟨hl, held u ▸ hm⟩
  case refine_6 =>
    intro u l ⟨a, ha, hl⟩
    obtain ha | rfl := todo u a ha
    case inl => exact ⟨a, ha, hl⟩
    case inr => cases hl

theorem held_moved (inv : s.Inv) (m : s.Moved t op c (e ++ ops) s') :
    (fun u => (s'.thread u).held) =
      Function.update (fun u => (s.thread u).held) t (op.after (s.thread t).held) := by
  funext u
  by_cases hu : u = t
  case pos => rw [hu, Function.update_self, m.held]
  case neg =>
    rw [Function.update_of_ne hu]
    obtain same | ⟨hc, p, _, hp⟩ := m.others u hu
    case inl => exact same.held
    case inr => rw [hp, inv.held_fresh hc.ge]

theorem holder_go (inv : s.Inv) (ht : (s.thread t).todo = op :: ops)
    (he : s.expand t op c = some e) :
    Agree (Function.update (fun u => (s.thread u).held) t (op.after (s.thread t).held))
      (s.effect t op c).holder := by
  rw [effect_holder]
  have nested := (inv.ok t).nested
  rw [ht] at nested
  cases op
  case lock l =>
    cases c <;> try cases he
    exact inv.holder.lock ((Option.ite_none_right_eq_some.mp he).1.imp_right And.left)
  case unlock l => exact inv.holder.unlock (List.mem_of_mem_head? nested.1)
  all_goals
    have same := Function.update_eq_self t fun u => (s.thread u).held
    exact Eq.mpr (congrArg (Agree · s.holder) same) inv.holder

theorem step {a : Act} (inv : s.Inv) (ok : s.Orderly a) (h : s.step a = some s') : s'.Inv := by
  cases a
  case spawn => cases h; exact inv.spawn
  case go t c =>
    obtain ⟨op, ops, e, ht, he, rfl⟩ := go_cases h
    have hn : t < s.count := by
      by_contra hn
      rw [inv.fresh t (Nat.le_of_not_lt hn)] at ht
      cases ht
    have m := moved ops hn he
    generalize hs : ((s.effect t op c).modify t fun x => { x with todo := e ++ ops }) = s' at *
    refine ⟨fun u => ?_, ?_, fun u hu => ?_, inv.sound_go ok ht he m⟩
    case refine_1 =>
      by_cases hu : u = t
      case pos =>
        subst hu
        refine (inv.ok u).go ht he (fun hl => ?_) m.todo m.held m.busy
        have free := (ok op (by simp [ht])).1 _ hl
        have nested := (inv.ok u).nested
        rw [ht] at nested
        have calm : Calm (s.thread u).held := calm_of_takes hl nested.1
        exact calm.resolve_right fun hh => free ⟨u, ⟨rfl, by simp [hh]⟩, .refl⟩
      case neg =>
        obtain same | ⟨_, p, _, hp⟩ := m.others u hu
        case inl => exact same.ok (inv.ok u)
        case inr => rw [hp]; exact Thread.ok_worker p
    case refine_2 =>
      rw [inv.held_moved m, ← hs]
      exact inv.holder_go ht he
    case refine_3 =>
      have le := le_effect_count s t op c
      have count : (s.effect t op c).count ≤ u := by rw [← hs] at hu; exact hu
      obtain same | ⟨hc, p, hp, _⟩ := m.others u (by omega)
      case inl => rw [same.todo, inv.fresh u (le.trans count)]
      case inr =>
        have := lt_effect_count s t op c hp
        omega

end Inv

end NetPool.Locking
