import KappaRegistry.Lib.Table
import KappaRegistry.Lib.Text

/-!
# Range Scans by Prefix

The rows of a table whose key starts with a text, which an ordered database reads as one range.
`scan t p` lists them under what follows the prefix. It is the one list in the order of the
remainders that has exactly the rows (`scan_unique`), so two scans are equal iff their rows are
(`scan_eq_iff`).
-/

namespace KappaRegistry.Lib

open List Std.ExtTreeMap

variable {V : Type} (t : Table String V) (p : String)

/-- The rows under a prefix, by what follows the prefix. -/
def scan : List (String × V) :=
  (t.toList.filter fun row => startsWith row.1 p).map fun row =>
    (String.ofList (row.1.toList.drop p.toList.length), row.2)

@[simp] theorem scan_empty : scan (∅ : Table String V) p = [] := by simp [scan]

theorem drop_of_append {key p x : String} (h : key = p ++ x) :
    String.ofList (key.toList.drop p.toList.length) = x := by
  simp [h]

theorem mem_scan {t : Table String V} {p x : String} {v : V} :
    (x, v) ∈ scan t p ↔ t[p ++ x]? = some v := by
  simp only [scan, mem_map, mem_filter, Prod.exists, startsWith_iff, Prod.mk.injEq,
    mem_toList_iff_getElem?_eq_some]
  constructor
  · intro ⟨key, v', ⟨hrow, y, hkey⟩, hx, hv⟩
    rw [drop_of_append hkey] at hx
    rwa [← hx, ← hv, ← hkey]
  · intro hrow
    exact ⟨p ++ x, v, ⟨hrow, x, rfl⟩, drop_of_append rfl, rfl⟩

theorem pairwise_scan : (scan t p).Pairwise fun a b => a.1 < b.1 := by
  rw [scan, pairwise_map]
  have hrows : (t.toList.filter fun row => startsWith row.1 p).Pairwise
      fun a b => compare a.1 b.1 = .lt :=
    ordered_keys_toList.filter _
  refine hrows.imp_of_mem ?_
  intro a b ha hb hlt
  obtain ⟨x, hx⟩ := startsWith_iff.mp (mem_filter.mp ha).2
  obtain ⟨y, hy⟩ := startsWith_iff.mp (mem_filter.mp hb).2
  -- both keys continue the prefix, so they compare as the remainders do
  rw [hx, hy] at hlt
  dsimp only
  rw [drop_of_append hx, drop_of_append hy]
  exact append_lt_append_left.mp (compareOfLessAndEq_eq_lt.mp hlt)

section

variable {α : Type} {f : α → String}

theorem eq_of_pairwise_lt {xs ys : List α}
    (hxs : xs.Pairwise fun a b => f a < f b) (hys : ys.Pairwise fun a b => f a < f b)
    (hmem : ∀ a, a ∈ xs ↔ a ∈ ys) : xs = ys := by
  have hirrefl : Std.Irrefl fun a b : α => f a < f b := ⟨fun a => lt_irrefl (f a)⟩
  have hantisymm : Std.Antisymm fun a b : α => f a < f b :=
    ⟨fun a b hab hba => absurd hab (lt_asymm hba)⟩
  exact hxs.eq_of_mem_iff hys hmem

/-- Sorting by distinct names gives a strictly sorted list. -/
theorem pairwise_mergeSort_lt {xs : List α}
    (hne : xs.Pairwise fun a b => f a ≠ f b) :
    (xs.mergeSort fun a b => decide (f a ≤ f b)).Pairwise fun a b => f a < f b := by
  have hle : (xs.mergeSort fun a b => decide (f a ≤ f b)).Pairwise fun a b => f a ≤ f b := by
    refine (pairwise_mergeSort ?_ ?_ _).imp ?_
    · intro a b c hab hbc
      exact decide_eq_true (le_trans (of_decide_eq_true hab) (of_decide_eq_true hbc))
    · intro a b
      simpa using le_total (f a) (f b)
    · intro a b hab
      exact of_decide_eq_true hab
  refine (hle.and (((mergeSort_perm _ _).pairwise_iff fun hab => Ne.symm hab).mpr hne)).imp ?_
  intro a b hab
  exact lt_of_le_of_ne hab.1 hab.2

theorem filter_gt_of_pairwise_lt {xs ys : List α} {x : α}
    (h : (xs ++ x :: ys).Pairwise fun a b => f a < f b) :
    ((xs ++ x :: ys).filter fun a => f x < f a) = ys := by
  obtain ⟨-, hys, hcross⟩ := pairwise_append.mp h
  rw [pairwise_cons] at hys
  have hbefore : (xs.filter fun a => f x < f a) = [] := by
    rw [filter_eq_nil_iff]
    intro a ha
    rw [decide_eq_true_eq]
    exact lt_asymm (hcross a ha x mem_cons_self)
  have hafter : (ys.filter fun a => f x < f a) = ys := by
    rw [filter_eq_self]
    intro a ha
    rw [decide_eq_true_eq]
    exact hys.1 a ha
  have hself : ¬ decide (f x < f x) = true := by
    rw [decide_eq_true_eq]
    exact lt_irrefl _
  rw [filter_append, hbefore, nil_append, filter_cons, if_neg hself, hafter]

end

/-- **A list in order with exactly the rows under a prefix is the scan.** -/
theorem scan_unique {t : Table String V} {p : String} {xs : List (String × V)}
    (hxs : xs.Pairwise fun a b => a.1 < b.1)
    (hmem : ∀ x v, (x, v) ∈ xs ↔ t[p ++ x]? = some v) : xs = scan t p := by
  apply eq_of_pairwise_lt hxs (pairwise_scan t p)
  intro (x, v)
  rw [hmem, mem_scan]

theorem scan_eq_iff {t t' : Table String V} {p p' : String} :
    scan t p = scan t' p' ↔ ∀ x, t[p ++ x]? = t'[p' ++ x]? := by
  constructor
  · intro h x
    apply Option.ext
    intro v
    rw [← mem_scan, ← mem_scan, h]
  · intro h
    apply scan_unique (pairwise_scan t p)
    intro x v
    rw [mem_scan, h x]

theorem toList_eq_scan : t.toList = scan t "" := by
  apply scan_unique
  · refine ordered_keys_toList.imp ?_
    intro a b hlt
    exact compareOfLessAndEq_eq_lt.mp hlt
  · intro x v
    rw [mem_toList_iff_getElem?_eq_some, String.empty_append]

end KappaRegistry.Lib
