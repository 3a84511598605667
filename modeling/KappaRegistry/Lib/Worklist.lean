import Mathlib.Algebra.Order.BigOperators.Group.Finset
import Mathlib.Data.Set.Finite.List

/-!
# Walking a Graph With a Queue

`walk` takes items off the front of a queue. An item that was visited before, or is to be skipped,
is dropped. Any other is marked and visited: the visit changes a state and finds further items,
which are queued. The steps are counted, since nothing bounds the graph.

- `walk_invariant` is the rule for everything a walk leaves behind.
- `mem_walk_iff`: if every visit finds all successors that are neither visited nor skipped, the walk
  visits exactly what is reached without passing through a skipped item.
- `walk_isSome`: the walk ends if what the roots reach is finite.
-/

namespace KappaRegistry.Lib

open List

variable {α σ : Type} [DecidableEq α]

/-! ## Reaching -/

/-- Some root leads to `x`, from item to successor. -/
def Reaches (next : α → List α) (roots : List α) (x : α) : Prop :=
  ∃ r ∈ roots, Relation.ReflTransGen (fun a b => b ∈ next a) r x

section

variable {α : Type} {next : α → List α} {roots : List α} {x y : α}

theorem Reaches.root (h : x ∈ roots) : Reaches next roots x := ⟨x, h, .refl⟩

theorem Reaches.step (h : Reaches next roots x) (hy : y ∈ next x) : Reaches next roots y := by
  obtain ⟨r, hr, hrx⟩ := h
  exact ⟨r, hr, hrx.tail hy⟩

theorem Reaches.trans (h : Reaches next roots x) (hy : Reaches next [x] y) :
    Reaches next roots y := by
  obtain ⟨r, hr, hrx⟩ := h
  obtain ⟨x', hx', hxy⟩ := hy
  obtain rfl := mem_singleton.mp hx'
  exact ⟨r, hr, hrx.trans hxy⟩

/-- **Induction along a path**: what holds of the roots and passes on to successors holds of
everything the roots reach. -/
theorem Reaches.induct {P : α → Prop} (hroot : ∀ r ∈ roots, P r)
    (hstep : ∀ a b, P a → b ∈ next a → P b) (h : Reaches next roots x) : P x := by
  obtain ⟨r, hr, hrx⟩ := h
  induction hrx with
  | refl => exact hroot r hr
  | tail _ hb ih => exact hstep _ _ ih hb

theorem Reaches.finite (h : ∀ r ∈ roots, {x | Reaches next [r] x}.Finite) :
    {x | Reaches next roots x}.Finite := by
  have hunion : {x | Reaches next roots x} ⊆ ⋃ r ∈ {r | r ∈ roots}, {x | Reaches next [r] x} := by
    intro x ⟨r, hr, hrx⟩
    exact Set.mem_biUnion hr ⟨r, mem_singleton.mpr rfl, hrx⟩
  exact (Set.Finite.biUnion (finite_toSet roots) h).subset hunion

end

/-! ## The walk -/

/-- Works through `queue` until it is empty. -/
def walk (skip : α → Bool) (visit : List α → σ → α → σ × List α) :
    ℕ → List α → List α → σ → Option (List α × σ)
  | _, [], visited, s => some (visited, s)
  | 0, _ :: _, _, _ => none
  | fuel + 1, x :: queue, visited, s =>
    if x ∈ visited ∨ skip x = true then walk skip visit fuel queue visited s
    else
      let (s', found) := visit (x :: visited) s x
      walk skip visit fuel (queue ++ found) (x :: visited) s'

variable {skip : α → Bool} {visit : List α → σ → α → σ × List α}

theorem walk_nil (fuel : ℕ) (visited : List α) (s : σ) :
    walk skip visit fuel [] visited s = some (visited, s) := by
  cases fuel <;> rfl

variable {visited : List α}

theorem walk_drop {x : α} (h : x ∈ visited ∨ skip x = true) (fuel : ℕ) (queue : List α) (s : σ) :
    walk skip visit (fuel + 1) (x :: queue) visited s = walk skip visit fuel queue visited s := by
  rw [walk, if_pos h]

theorem walk_visit {x : α} (h : ¬ (x ∈ visited ∨ skip x = true)) (fuel : ℕ)
    (queue : List α) (s : σ) : walk skip visit (fuel + 1) (x :: queue) visited s =
      walk skip visit fuel (queue ++ (visit (x :: visited) s x).2) (x :: visited)
        (visit (x :: visited) s x).1 := by
  rw [walk, if_neg h]

variable {fuel : ℕ}

/-- **The invariant rule**: what dropping and visiting the first item keep holds when the queue is
empty. -/
theorem walk_invariant {I : List α → List α → σ → Prop}
    (hdrop : ∀ x queue visited s, I (x :: queue) visited s → x ∈ visited ∨ skip x = true →
      I queue visited s)
    (hvisit : ∀ x queue visited s, I (x :: queue) visited s → x ∉ visited → skip x = false →
      I (queue ++ (visit (x :: visited) s x).2) (x :: visited) (visit (x :: visited) s x).1)
    {queue visited visited' : List α} {s s' : σ}
    (h : walk skip visit fuel queue visited s = some (visited', s')) (hI : I queue visited s) :
    I [] visited' s' := by
  induction fuel generalizing queue visited s with
  | zero =>
    cases queue with
    | nil =>
      rw [walk_nil] at h
      cases h
      exact hI
    | cons x queue => cases h
  | succ fuel ih =>
    cases queue with
    | nil =>
      rw [walk_nil] at h
      cases h
      exact hI
    | cons x queue =>
      by_cases hx : x ∈ visited ∨ skip x = true
      · rw [walk_drop hx] at h
        exact ih h (hdrop x queue visited s hI hx)
      · rw [walk_visit hx] at h
        rw [not_or, Bool.not_eq_true] at hx
        exact ih h (hvisit x queue visited s hI hx.1 hx.2)

def unskipped (skip : α → Bool) (next : α → List α) (x : α) : List α :=
  (next x).filter fun y => !skip y

variable {next : α → List α}

omit [DecidableEq α] in
theorem mem_unskipped {x y : α} : y ∈ unskipped skip next x ↔ y ∈ next x ∧ skip y = false := by
  rw [unskipped, mem_filter, Bool.not_eq_true']

omit [DecidableEq α] in
@[simp] theorem unskipped_false (next : α → List α) : unskipped (fun _ => false) next = next := by
  funext x
  simp [unskipped]

variable {roots : List α}

/-- **A walk visits exactly what is reached around the skipped items**, if every visit finds the
successors that are neither visited nor skipped. -/
theorem mem_walk_iff (hfound : ∀ visited s x y,
      y ∈ (visit visited s x).2 ↔ y ∈ next x ∧ y ∉ visited ∧ skip y = false)
    {s s' : σ} (h : walk skip visit fuel roots [] s = some (visited, s')) (x : α) : x ∈ visited ↔
      Reaches (unskipped skip next) (roots.filter fun r => !skip r) x := by
  have hend := walk_invariant
    (I := fun queue visited _ =>
      (∀ x ∈ queue, skip x = false → Reaches (unskipped skip next) (roots.filter fun r => !skip r) x) ∧
      (∀ x ∈ visited, Reaches (unskipped skip next) (roots.filter fun r => !skip r) x) ∧
      (∀ r ∈ roots, r ∈ visited ∨ r ∈ queue ∨ skip r = true) ∧
      ∀ x ∈ visited, ∀ y ∈ next x, y ∈ visited ∨ y ∈ queue ∨ skip y = true)
    ?_ ?_ h ?_
  · obtain ⟨-, hsound, hroots, hclosed⟩ := hend
    refine ⟨hsound x, ?_⟩
    intro hx
    refine hx.induct ?_ ?_
    · intro r hr
      obtain ⟨hr, hskip⟩ := mem_filter.mp hr
      rcases hroots r hr with hmem | hmem | hmem
      · exact hmem
      · cases hmem
      · simp [hmem] at hskip
    · intro a b ha hb
      obtain ⟨hb, hskip⟩ := mem_unskipped.mp hb
      rcases hclosed a ha b hb with hmem | hmem | hmem
      · exact hmem
      · cases hmem
      · simp [hmem] at hskip
  · intro x queue visited s ⟨hqueue, hsound, hroots, hclosed⟩ hx
    -- an item that leaves the queue unvisited was visited or is skipped
    have hleave : ∀ y, y ∈ visited ∨ y ∈ x :: queue ∨ skip y = true →
        y ∈ visited ∨ y ∈ queue ∨ skip y = true := by
      intro y hy
      rcases hy with hy | hy | hy
      · exact .inl hy
      · rcases mem_cons.mp hy with rfl | hy
        · rcases hx with hx | hx
          · exact .inl hx
          · exact .inr (.inr hx)
        · exact .inr (.inl hy)
      · exact .inr (.inr hy)
    exact ⟨fun y hy => hqueue y (mem_cons_of_mem x hy), hsound,
      fun r hr => hleave r (hroots r hr), fun a ha b hb => hleave b (hclosed a ha b hb)⟩
  · intro x queue visited s ⟨hqueue, hsound, hroots, hclosed⟩ _ hskip
    have hx := hqueue x mem_cons_self hskip
    have hfind := hfound (x :: visited) s x
    have hleave : ∀ y, y ∈ visited ∨ y ∈ x :: queue ∨ skip y = true →
        y ∈ x :: visited ∨ y ∈ queue ++ (visit (x :: visited) s x).2 ∨ skip y = true := by
      intro y hy
      rcases hy with hy | hy | hy
      · exact .inl (mem_cons_of_mem x hy)
      · rcases mem_cons.mp hy with rfl | hy
        · exact .inl mem_cons_self
        · exact .inr (.inl (mem_append_left _ hy))
      · exact .inr (.inr hy)
    refine ⟨?_, ?_, fun r hr => hleave r (hroots r hr), ?_⟩
    · intro y hy hyskip
      rcases mem_append.mp hy with hy | hy
      · exact hqueue y (mem_cons_of_mem x hy) hyskip
      · exact hx.step (mem_unskipped.mpr ⟨((hfind y).mp hy).1, hyskip⟩)
    · intro y hy
      rcases mem_cons.mp hy with rfl | hy
      · exact hx
      · exact hsound y hy
    · intro a ha b hb
      rcases mem_cons.mp ha with rfl | ha
      · by_cases hmem : b ∈ a :: visited
        · exact .inl hmem
        · cases hbskip : skip b with
          | true => exact .inr (.inr rfl)
          | false => exact .inr (.inl (mem_append_right _ ((hfind b).mpr ⟨hb, hmem, hbskip⟩)))
      · exact hleave b (hclosed a ha b hb)
  · exact ⟨fun r hr hskip => Reaches.root (mem_filter.mpr ⟨hr, by simp [hskip]⟩),
      fun y hy => absurd hy not_mem_nil, fun r hr => .inr (.inl hr),
      fun y hy => absurd hy not_mem_nil⟩

/-! ## The walk ends -/

section

variable (hfound : ∀ visited s x, (visit visited s x).2 ⊆ next x ∧ (visit visited s x).2.length ≤ (next x).length)
include hfound

/-- A step takes one item off the queue, and a visit adds no more than the item's own successors. -/
theorem walk_isSome_of_le {U : Finset α}
    (hU : ∀ x ∈ U, ∀ y ∈ next x, y ∈ U) {queue visited : List α} {s : σ}
    (hqueue : ∀ x ∈ queue, x ∈ U)
    (hfuel : queue.length + ∑ x ∈ U.filter (· ∉ visited), (next x).length ≤ fuel) :
    (walk skip visit fuel queue visited s).isSome := by
  induction fuel generalizing queue visited s with
  | zero =>
    cases queue with
    | nil => rfl
    | cons x queue => simp at hfuel
  | succ fuel ih =>
    cases queue with
    | nil =>
      rw [walk_nil]
      rfl
    | cons x queue =>
      rw [length_cons] at hfuel
      have hrest : ∀ y ∈ queue, y ∈ U := fun y hy => hqueue y (mem_cons_of_mem x hy)
      have hxU := hqueue x mem_cons_self
      by_cases hx : x ∈ visited ∨ skip x = true
      · rw [walk_drop hx]
        exact ih hrest (by omega)
      · rw [walk_visit hx]
        have hnew : x ∉ visited := fun hmem => hx (.inl hmem)
        obtain ⟨hsub, hlen⟩ := hfound (x :: visited) s x
        have hsplit : U.filter (· ∉ visited) = insert x (U.filter (· ∉ x :: visited)) := by
          ext y
          simp only [Finset.mem_filter, Finset.mem_insert, mem_cons, not_or]
          constructor
          · intro ⟨hy, hyv⟩
            by_cases hyx : y = x
            · exact .inl hyx
            · exact .inr ⟨hy, hyx, hyv⟩
          · rintro (rfl | ⟨hy, -, hyv⟩)
            · exact ⟨hxU, hnew⟩
            · exact ⟨hy, hyv⟩
        rw [hsplit, Finset.sum_insert (by simp)] at hfuel
        apply ih
        · intro y hy
          rcases mem_append.mp hy with hy | hy
          · exact hrest y hy
          · exact hU x hxU y (hsub hy)
        · rw [length_append]
          omega

/-- **A walk ends if its roots reach finitely many items**, whatever the number of steps beyond a
bound. -/
theorem walk_isSome (hfinite : {x | Reaches next roots x}.Finite) (s : σ) :
    ∃ bound, ∀ fuel ≥ bound, (walk skip visit fuel roots [] s).isSome := by
  refine ⟨roots.length + ∑ x ∈ hfinite.toFinset.filter (· ∉ ([] : List α)), (next x).length, ?_⟩
  intro fuel hfuel
  apply walk_isSome_of_le hfound (U := hfinite.toFinset) ?_ ?_ hfuel
  · intro x hx y hy
    rw [Set.Finite.mem_toFinset] at hx ⊢
    exact Reaches.step hx hy
  · intro x hx
    rw [Set.Finite.mem_toFinset]
    exact Reaches.root hx

end

end KappaRegistry.Lib
