import Mathlib.Data.List.Basic

/-!
# Folding a List Level by Level

A list is folded into one element bottom-up: `pairUp` joins neighbours, and an element that has none
with itself, and `levels` goes on until one element is left. Folding with `node` gives the shape of
the fold (`BinTree`), of which every other fold is an image (`map_levels`).
-/

namespace KappaRegistry.Lib

open List

variable {α β : Type}

def pairUp (op : α → α → α) : List α → List α
  | a :: b :: rest => op a b :: pairUp op rest
  | [a] => [op a a]
  | [] => []

/-- At most as many levels as the first argument says. -/
def levels (op : α → α → α) : ℕ → List α → List α
  | 0, level => level
  | n + 1, level => if level.length ≤ 1 then level else levels op n (pairUp op level)

inductive BinTree (α : Type) where
  | leaf (a : α)
  | node (l r : BinTree α)
  deriving DecidableEq

/-- The shape of the fold of a list. -/
def shape (xs : List α) : Option (BinTree α) :=
  (levels .node xs.length (xs.map .leaf)).head?

def BinTree.subtrees : BinTree α → List (BinTree α)
  | leaf a => [leaf a]
  | node l r => node l r :: (l.subtrees ++ r.subtrees)

theorem length_pairUp (op : α → α → α) (xs : List α) :
    (pairUp op xs).length = (xs.length + 1) / 2 := by
  fun_induction pairUp op xs with
  | case1 a b rest ih =>
    simp only [length_cons, ih]
    omega
  | case2 | case3 => simp

/-- The element above index `i` joins the element there with its neighbour. -/
theorem getD_pairUp (op : α → α → α) (xs : List α) (d : α) {i : ℕ} (hi : i < xs.length) :
    (pairUp op xs).getD (i / 2) d =
      if i % 2 = 0 then op (xs.getD i d) (xs.getD (i + 1) (xs.getD i d))
      else op (xs.getD (i - 1) (xs.getD i d)) (xs.getD i d) := by
  fun_induction pairUp op xs generalizing i with
  | case1 a b rest ih =>
    rcases i with _ | _ | i
    · rfl
    · rfl
    · have hi : i < rest.length := by simpa using hi
      have hdiv : (i + 2) / 2 = i / 2 + 1 := by omega
      have hmod : (i + 2) % 2 = i % 2 := by omega
      rw [hdiv, hmod, getD_cons_succ, ih hi]
      rcases i with _ | i <;> rfl
  | case2 a =>
    obtain rfl : i = 0 := by simpa using hi
    rfl
  | case3 => exact absurd hi (Nat.not_lt_zero i)

theorem forall_mem_levels {op : α → α → α} {p : α → Prop} (hop : ∀ a b, p a → p b → p (op a b))
    (n : ℕ) {xs : List α} (h : ∀ a ∈ xs, p a) : ∀ a ∈ levels op n xs, p a := by
  have hpair : ∀ ys : List α, (∀ a ∈ ys, p a) → ∀ a ∈ pairUp op ys, p a := by
    intro ys
    fun_induction pairUp op ys with
    | case1 a b rest ih => simp +contextual [hop, ih]
    | case2 a => simp +contextual [hop]
    | case3 => simp
  induction n generalizing xs with
  | zero => exact h
  | succ n ih =>
    rw [levels]
    split_ifs
    · exact h
    · exact ih (hpair xs h)

theorem map_levels {op : α → α → α} {op' : β → β → β} {f : α → β}
    (hf : ∀ a b, f (op a b) = op' (f a) (f b)) (n : ℕ) (xs : List α) :
    (levels op n xs).map f = levels op' n (xs.map f) := by
  have hpair : ∀ ys : List α, (pairUp op ys).map f = pairUp op' (ys.map f) := by
    intro ys
    fun_induction pairUp op ys with
    | case1 a b rest ih => simp [pairUp, hf, ih]
    | case2 a => simp [pairUp, hf]
    | case3 => rfl
  induction n generalizing xs with
  | zero => rfl
  | succ n ih =>
    rw [levels, levels, length_map]
    split_ifs
    · rfl
    · rw [ih, hpair]

theorem shape_eq_none {xs : List α} : shape xs = none ↔ xs = [] := by
  have hlength : ∀ (n : ℕ) (ys : List (BinTree α)), levels .node n ys = [] ↔ ys = [] := by
    intro n
    induction n with
    | zero => exact fun _ => Iff.rfl
    | succ n ih =>
      intro ys
      rw [levels]
      split_ifs
      · rfl
      · rw [ih, ← length_eq_zero_iff, length_pairUp, ← length_eq_zero_iff]
        omega
  rw [shape, head?_eq_none_iff, hlength, map_eq_nil_iff]

/-- The shape tells lists of one length apart. -/
theorem shape_inj {xs ys : List α} (hlength : xs.length = ys.length) (h : shape xs = shape ys) :
    xs = ys := by
  have hpair : ∀ us vs : List (BinTree α), us.length = vs.length →
      pairUp .node us = pairUp .node vs → us = vs := by
    intro us
    fun_induction pairUp .node us with
    | case1 a b rest ih =>
      rintro (_ | ⟨c, _ | ⟨d, vs⟩⟩) hlen huv
      · cases hlen
      · cases hlen
      · obtain ⟨hnode, hrest⟩ := cons.inj huv
        obtain ⟨rfl, rfl⟩ := BinTree.node.inj hnode
        rw [ih vs (by simpa using hlen) hrest]
    | case2 a => rintro (_ | ⟨c, _ | ⟨d, vs⟩⟩) hlen huv <;> simp_all [pairUp]
    | case3 => exact fun vs hlen _ => (length_eq_zero_iff.mp hlen.symm).symm
  have hsingle : ∀ us : List (BinTree α), us.length ≤ 1 → us.head?.toList = us := by
    rintro (_ | ⟨_, _ | _⟩) hlen <;> simp_all
  have hlevels : ∀ (n : ℕ) (us vs : List (BinTree α)), us.length = vs.length → us.length ≤ n + 1 →
      (levels .node n us).head? = (levels .node n vs).head? → us = vs := by
    intro n
    induction n with
    | zero =>
      intro us vs hlen hn huv
      rw [← hsingle us hn, ← hsingle vs (hlen ▸ hn)]
      exact congrArg Option.toList huv
    | succ n ih =>
      intro us vs hlen hn huv
      rw [levels, levels, ← hlen] at huv
      split_ifs at huv with hone
      · rw [← hsingle us hone, ← hsingle vs (hlen ▸ hone), huv]
      · refine hpair us vs hlen (ih _ _ ?_ ?_ huv) <;> simp only [length_pairUp] <;> omega
  rw [shape, shape, ← hlength] at h
  have hmap := hlevels _ _ _ (by simpa using hlength) (by simp) h
  exact map_injective_iff.mpr (fun _ _ => BinTree.leaf.inj) hmap

namespace BinTree

theorem self_mem_subtrees (t : BinTree α) : t ∈ t.subtrees := by
  cases t with
  | leaf a => exact mem_singleton_self _
  | node l r => exact mem_cons_self

theorem mem_subtrees_of_node {t l r : BinTree α} (h : node l r ∈ t.subtrees) :
    l ∈ t.subtrees ∧ r ∈ t.subtrees := by
  induction t with
  | leaf a => cases mem_singleton.mp h
  | node l' r' ihl ihr =>
    simp only [subtrees, mem_cons, mem_append] at h ⊢
    rcases h with h | h | h
    · obtain ⟨rfl, rfl⟩ := node.inj h
      exact ⟨.inr (.inl l.self_mem_subtrees), .inr (.inr r.self_mem_subtrees)⟩
    · exact ⟨.inr (.inl (ihl h).1), .inr (.inl (ihl h).2)⟩
    · exact ⟨.inr (.inr (ihr h).1), .inr (.inr (ihr h).2)⟩

/-- The leaves of the shape are the elements. -/
theorem mem_of_leaf_mem_shape {xs : List α} {t : BinTree α} {a : α} (ht : shape xs = some t)
    (ha : leaf a ∈ t.subtrees) : a ∈ xs := by
  refine forall_mem_levels (p := fun t => ∀ a, leaf a ∈ t.subtrees → a ∈ xs) ?_ _ ?_ t
    (mem_of_mem_head? ht) a ha
  · intro l r hl hr a ha
    simp only [subtrees, mem_cons, mem_append, reduceCtorEq, false_or] at ha
    exact ha.elim (hl a) (hr a)
  · intro t ht a ha
    obtain ⟨x, hx, rfl⟩ := mem_map.mp ht
    obtain rfl := leaf.inj (mem_singleton.mp ha)
    exact hx

end BinTree

end KappaRegistry.Lib
