import NetPool.Lib.Links

namespace NetPool
namespace Links

variable {α : Type*} {h h' : Links α} {a b x : α} {c xs ys : List α}

def Linked (h : Links α) (a b : α) : Prop :=
  h.next a = b ∧ h.prev b = a

-- Each cell is linked to the one after it, in both directions.
def Path (h : Links α) (c : List α) : Prop :=
  c.IsChain h.Linked

-- The last cell is linked to the first one, too.
structure Circle (h : Links α) (c : List α) : Prop where
  path  : h.Path c
  close : ∀ a ∈ c.getLast?, ∀ b ∈ c.head?, h.Linked a b

theorem path_append : h.Path (xs ++ ys) ↔
    h.Path xs ∧ h.Path ys ∧ ∀ a ∈ xs.getLast?, ∀ b ∈ ys.head?, h.Linked a b :=
  List.isChain_append

theorem chain_iff : h.Chain a xs ↔ h.Path (a :: xs) := by
  induction xs generalizing a
  case nil          => exact iff_of_true trivial (List.isChain_singleton a)
  case cons x xs hi =>
    rw [Chain, hi, Path, Path, List.isChain_cons_cons, Linked, and_assoc]

theorem circle_iff_chain : h.Circle (a :: xs) ↔ h.Chain a (xs ++ [a]) := by
  rw [chain_iff, ← List.cons_append, path_append]
  constructor
  case mp  => exact fun ⟨path, close⟩ => ⟨path, List.isChain_singleton a, close⟩
  case mpr => exact fun ⟨path, _, close⟩ => ⟨path, close⟩

-- It does not matter with which cell a circle begins.
theorem Circle.rotate (c : h.Circle (xs ++ ys)) : h.Circle (ys ++ xs) := by
  obtain ⟨path, close⟩ := c
  cases xs
  case nil       => simpa using Circle.mk path close
  case cons x xs =>
    cases ys
    case nil       => simpa using Circle.mk path close
    case cons y ys =>
      obtain ⟨px, py, link⟩ := path_append.mp path
      have last (z : α) (zs ws : List α) : (ws ++ z :: zs).getLast? = (z :: zs).getLast? :=
        List.getLast?_append_of_ne_nil _ (List.cons_ne_nil z zs)
      refine ⟨path_append.mpr ⟨py, px, fun a ha b hb => ?_⟩, fun a ha b hb => ?_⟩
      case refine_1 => exact close a (last y ys _ ▸ ha) b hb
      case refine_2 => exact link a (last x xs _ ▸ ha) b hb

theorem Path.frame (p : h.Path c) (nodup : c.Nodup)
    (next : ∀ a ∈ c, a ∉ c.getLast? → h'.next a = h.next a)
    (prev : ∀ a ∈ c, a ∉ c.head? → h'.prev a = h.prev a) : h'.Path c := by
  induction c
  case nil          => exact List.isChain_nil
  case cons x c hi =>
    cases c
    case nil       => exact List.isChain_singleton x
    case cons y c =>
      obtain ⟨hx, nodup'⟩ := List.nodup_cons.mp nodup
      obtain ⟨⟨hn, hp⟩, p⟩ := List.isChain_cons_cons.mp p
      refine List.isChain_cons_cons.mpr ⟨⟨?_, ?_⟩, hi p nodup' (fun a ha hl => ?_) fun a ha hh => ?_⟩
      case refine_1 =>
        refine (next x List.mem_cons_self fun hl => hx ?_).trans hn
        rw [List.getLast?_cons_cons] at hl
        exact List.mem_of_getLast? hl
      case refine_2 =>
        refine (prev y (by simp) fun hy => hx ?_).trans hp
        obtain rfl : x = y := by simpa using hy
        exact List.mem_cons_self
      case refine_3 =>
        rw [List.getLast?_cons_cons] at next
        exact next a (List.mem_cons_of_mem x ha) hl
      case refine_4 =>
        refine prev a (List.mem_cons_of_mem x ha) fun hh => hx ?_
        obtain rfl : x = a := by simpa using hh
        exact ha

theorem Circle.frame (p : h.Circle c) (next : ∀ a ∈ c, h'.next a = h.next a)
    (prev : ∀ a ∈ c, h'.prev a = h.prev a) : h'.Circle c := by
  have linked {a b} (ha : a ∈ c) (hb : b ∈ c) (l : h.Linked a b) : h'.Linked a b :=
    ⟨(next a ha).trans l.1, (prev b hb).trans l.2⟩
  refine ⟨?_, fun a ha b hb => ?_⟩
  case refine_1 => exact p.path.imp_of_mem_imp fun a b ha hb l => linked ha hb l
  case refine_2 =>
    exact linked (List.mem_of_getLast? ha) (List.mem_of_mem_head? hb) (p.close a ha b hb)

section Close

variable {p n e : α} (path : h.Path c) (nodup : c.Nodup) (hp : p ∈ c.getLast?) (hn : n ∈ c.head?)
  (next : ∀ a ∈ c, a ≠ p → h'.next a = h.next a) (prev : ∀ a ∈ c, a ≠ n → h'.prev a = h.prev a)
include path nodup hp hn next prev

theorem Path.keep : h'.Path c :=
  path.frame nodup (fun a ha hl => next a ha fun he => hl (he ▸ hp))
    fun a ha hh => prev a ha fun he => hh (he ▸ hn)

-- A path is closed by one link from its end to its beginning,
theorem Path.circle (link : h'.Linked p n) : h'.Circle c := by
  refine ⟨path.keep nodup hp hn next prev, fun a ha b hb => ?_⟩
  cases Option.mem_unique ha hp
  cases Option.mem_unique hb hn
  exact link

-- or by a cell that is not on it.
theorem Path.circle_cons (link : h'.Linked e n) (link' : h'.Linked p e) : h'.Circle (e :: c) := by
  refine ⟨?_, fun a ha b hb => ?_⟩
  case refine_1 =>
    rw [Path, List.isChain_cons]
    refine ⟨fun y hy => ?_, path.keep nodup hp hn next prev⟩
    cases Option.mem_unique hy hn
    exact link
  case refine_2 =>
    obtain rfl : e = b := by simpa using hb
    have hl : (e :: c).getLast? = c.getLast? := by
      cases c
      case nil      => cases hp
      case cons x c => rw [List.getLast?_cons_cons]
    cases Option.mem_unique (hl ▸ ha) hp
    exact link'

end Close

end Links
end NetPool
