import Std.Data.ExtTreeMap.Lemmas
import Std.Data.ExtTreeSet.Lemmas
import Mathlib.Data.List.Sort

/-!
# Keyed Tables

Tables of an embedded key-value database: `Table K V` maps keys to one value each and
`Multimap K V` to a set of values each, both enumerated in key order. They are the standard
library's extensional tree maps, so tables with the same entries are equal; the lemmas here state
their operations with equality of keys, and describe a multimap through `values`, the list of
values under a key.
-/

namespace KappaRegistry.Lib

open Std List ExtTreeMap

/-- Pairs are ordered by their first component, then by their second. -/
scoped instance instOrdPair {α β : Type} [Ord α] [Ord β] : Ord (α × β) := lexOrd

/-- One value per key, in key order. -/
abbrev Table (K V : Type) [Ord K] := ExtTreeMap K V compare

namespace Table

variable {K V : Type} [Ord K] [TransOrd K] [LawfulEqOrd K] [DecidableEq K]

@[simp] theorem get_insert (t : Table K V) (k k' : K) (v : V) :
    (t.insert k v)[k']? = if k = k' then some v else t[k']? := by
  rw [ExtTreeMap.getElem?_insert]
  simp only [Std.compare_eq_iff_eq]

@[simp] theorem get_erase (t : Table K V) (k k' : K) :
    (t.erase k)[k']? = if k = k' then none else t[k']? := by
  rw [getElem?_erase]
  simp only [Std.compare_eq_iff_eq]

variable {t : Table K V} {k k' : K} {v w : V}

theorem of_get_insert (h : (t.insert k v)[k']? = some w) :
    (k = k' ∧ v = w) ∨ (k ≠ k' ∧ t[k']? = some w) := by
  rw [get_insert] at h
  split_ifs at h with hkey
  · exact .inl ⟨hkey, Option.some.inj h⟩
  · exact .inr ⟨hkey, h⟩

theorem of_get_erase (h : (t.erase k)[k']? = some w) : t[k']? = some w := by
  rw [get_erase] at h
  split at h
  · cases h
  · exact h

theorem get_insertIfNew (t : Table K V) (k k' : K) (v : V) :
    (t.insertIfNew k v)[k']? = if k = k' ∧ t[k]? = none then some v else t[k']? := by
  rw [getElem?_insertIfNew]
  simp only [Std.compare_eq_iff_eq, mem_iff_isSome_getElem?, Bool.not_eq_true,
    Option.isSome_eq_false_iff, Option.isNone_iff_eq_none]

theorem of_get_insertIfNew (h : (t.insertIfNew k v)[k']? = some w) : (k = k' ∧ v = w) ∨ t[k']? = some w := by
  rw [get_insertIfNew] at h
  split_ifs at h with hnew
  · exact .inl ⟨hnew.1, Option.some.inj h⟩
  · exact .inr h

theorem get_insertIfNew_of_some (h : t[k']? = some w) : (t.insertIfNew k v)[k']? = some w := by
  rw [get_insertIfNew, if_neg]
  · exact h
  · rintro ⟨rfl, hnone⟩
    simp [h] at hnone

variable {p : K → Bool}

omit [DecidableEq K] in
theorem filter_toList_congr {t' : Table K V} (h : ∀ k, p k = true → t[k]? = t'[k]?) :
    (t.toList.filter fun row => p row.1) = t'.toList.filter fun row => p row.1 := by
  have hfilter : t.filter (fun k _ => p k) = t'.filter fun k _ => p k := by
    apply ExtTreeMap.ext_getElem?
    intro k
    rw [getElem?_filter', getElem?_filter']
    by_cases hk : p k = true
    · rw [h k hk]
    · simp [hk]
  have hlist := congrArg ExtTreeMap.toList hfilter
  rwa [toList_filter, toList_filter] at hlist

omit [DecidableEq K] in
/-- **A list in key order with exactly the rows of a table** is its listing. -/
theorem toList_unique {rows : List (K × V)} (hrows : rows.Pairwise fun a b => compare a.1 b.1 = .lt)
    (hmem : ∀ k v, (k, v) ∈ rows ↔ t[k]? = some v) : t.toList = rows := by
  have hirrefl : Std.Irrefl fun a b : K × V => compare a.1 b.1 = .lt := by
    refine ⟨?_⟩
    intro a
    rw [compare_self]
    simp
  have hantisymm : Std.Antisymm fun a b : K × V => compare a.1 b.1 = .lt := by
    refine ⟨?_⟩
    intro a b hab hba
    simp [OrientedCmp.gt_of_lt hba] at hab
  apply ordered_keys_toList.eq_of_mem_iff hrows
  intro (k, v)
  rw [hmem, mem_toList_iff_getElem?_eq_some]

theorem find?_insertIfNew_pos (hk : p k = true) (hnone : ∀ k' v', t[k']? = some v' → p k' = false) :
    ((t.insertIfNew k v).toList.find? fun row => p row.1) = some (k, v) := by
  have hget : ∀ k' v', (t.insertIfNew k v)[k']? = some v' → p k' = true → k' = k ∧ v' = v := by
    intro k' v' hrow hp
    rw [get_insertIfNew] at hrow
    split_ifs at hrow with hnew
    · exact ⟨hnew.1.symm, (Option.some.inj hrow).symm⟩
    · exact absurd hp (by rw [hnone k' v' hrow]; exact Bool.false_ne_true)
  have hmem : (k, v) ∈ (t.insertIfNew k v).toList := by
    have hnew : t[k]? = none := by
      cases hrow : t[k]? with
      | none => rfl
      | some v' => exact absurd hk (by rw [hnone k v' hrow]; exact Bool.false_ne_true)
    rw [mem_toList_iff_getElem?_eq_some, get_insertIfNew, if_pos ⟨rfl, hnew⟩]
  cases hfind : (t.insertIfNew k v).toList.find? fun row => p row.1 with
  | none => exact absurd hk (find?_eq_none.mp hfind (k, v) hmem)
  | some row =>
    have hp : p row.1 = true := find?_some (p := fun row : K × V => p row.1) hfind
    obtain ⟨hkey, hvalue⟩ := hget row.1 row.2
      (mem_toList_iff_getElem?_eq_some.mp (mem_of_find?_eq_some hfind)) hp
    rw [← hkey, ← hvalue]

theorem find?_insertIfNew_neg (hk : p k = false) :
    ((t.insertIfNew k v).toList.find? fun row => p row.1) = t.toList.find? fun row => p row.1 := by
  rw [← head?_filter, ← head?_filter]
  congr 1
  apply filter_toList_congr
  intro k' hk'
  rw [get_insertIfNew, if_neg]
  intro hnew
  rw [← hnew.1, hk] at hk'
  cases hk'

theorem toList_insert_first (h : ∀ row ∈ t.toList, compare k row.1 = .lt) : (t.insert k v).toList = (k, v) :: t.toList := by
  apply toList_unique
  · rw [pairwise_cons]
    exact ⟨h, ordered_keys_toList⟩
  · intro k' v'
    rw [get_insert, mem_cons, mem_toList_iff_getElem?_eq_some, Prod.mk.injEq]
    by_cases hk : k = k'
    · subst hk
      have hnone : t[k]? ≠ some v' := by
        intro hrow
        have hlt := h (k, v') (mem_toList_iff_getElem?_eq_some.mpr hrow)
        simp [compare_self] at hlt
      simp [hnone, eq_comm]
    · simp [hk, Ne.symm hk]

theorem filter_toList_insert_first (hk : p k = true)
    (h : ∀ row ∈ t.toList.filter fun row => p row.1, compare k row.1 = .lt) :
    ((t.insert k v).toList.filter fun row => p row.1) =
      (k, v) :: t.toList.filter fun row => p row.1 := by
  have hfilter : (t.insert k v).filter (fun k _ => p k) = (t.filter fun k _ => p k).insert k v := by
    apply ExtTreeMap.ext_getElem?
    intro k'
    rw [getElem?_filter', get_insert, get_insert, getElem?_filter']
    by_cases heq : k = k'
    · subst heq
      simp [hk]
    · simp [heq]
  have hlist : ((t.insert k v).filter fun k _ => p k).toList =
      (k, v) :: (t.filter fun k _ => p k).toList := by
    rw [hfilter]
    refine toList_insert_first fun row hrow => ?_
    rw [toList_filter] at hrow
    exact h row hrow
  rwa [toList_filter, toList_filter] at hlist

theorem toList_erase (t : Table K V) (k : K) :
    (t.erase k).toList = t.toList.filter fun row => row.1 ≠ k := by
  apply toList_unique (ordered_keys_toList.filter _)
  intro k' v'
  rw [get_erase, mem_filter, mem_toList_iff_getElem?_eq_some]
  by_cases hk : k = k'
  · simp [hk]
  · simp [hk, Ne.symm hk]

/-- The table without some keys. -/
def eraseAll (t : Table K V) (ks : List K) : Table K V := ks.foldl (fun t k => t.erase k) t

theorem toList_eraseAll (t : Table K V) (ks : List K) :
    (eraseAll t ks).toList = t.toList.filter fun row => row.1 ∉ ks := by
  induction ks generalizing t with
  | nil => simp [eraseAll]
  | cons k ks ih =>
    show (eraseAll (t.erase k) ks).toList = _
    rw [ih, toList_erase, filter_filter]
    congr 1
    funext row
    by_cases hk : row.1 = k <;> simp [hk]

end Table

/-- A set of values per key, in key order and then in value order. -/
abbrev Multimap (K V : Type) [Ord K] [Ord V] := Table K (ExtTreeSet V compare)

namespace Multimap

variable {K V : Type} [Ord K] [TransOrd K] [Ord V]

def valueSet (m : Multimap K V) (k : K) : ExtTreeSet V compare := m[k]?.getD ∅

theorem valueSet_insert [LawfulEqOrd K] [DecidableEq K] (m : Multimap K V) (k k' : K)
    (s : ExtTreeSet V compare) :
    valueSet (m.insert k s) k' = if k = k' then s else valueSet m k' := by
  unfold valueSet
  rw [Table.get_insert]
  split <;> simp

variable [TransOrd V]

def values (m : Multimap K V) (k : K) : List V := (m.valueSet k).toList

@[simp] theorem values_empty (k : K) : values (∅ : Multimap K V) k = [] := by
  simp [values, valueSet]

/-- Adds a value under a key; nothing happens if it is there already. -/
def add (m : Multimap K V) (k : K) (v : V) : Multimap K V := m.insert k ((m.valueSet k).insert v)

def remove (m : Multimap K V) (k : K) (v : V) : Multimap K V :=
  m.insert k ((m.valueSet k).erase v)

variable [LawfulEqOrd K] [DecidableEq K] [LawfulEqOrd V]

section

variable (m : Multimap K V) (k k' : K)

@[simp] theorem mem_values_add (v w : V) :
    w ∈ (m.add k v).values k' ↔ (k = k' ∧ v = w) ∨ w ∈ m.values k' := by
  unfold add values
  rw [valueSet_insert]
  by_cases hk : k = k'
  · subst hk
    simp [ExtTreeSet.mem_toList, ExtTreeSet.mem_insert]
  · simp [hk]

@[simp] theorem mem_values_remove (v w : V) :
    w ∈ (m.remove k v).values k' ↔ ¬ (k = k' ∧ v = w) ∧ w ∈ m.values k' := by
  unfold remove values
  rw [valueSet_insert]
  by_cases hk : k = k'
  · subst hk
    simp [ExtTreeSet.mem_toList, ExtTreeSet.mem_erase]
  · simp [hk]

theorem mem_values_foldl_remove (vs : List V) (w : V) :
    w ∈ (vs.foldl (fun m v => m.remove k v) m).values k' ↔
      ¬ (k = k' ∧ w ∈ vs) ∧ w ∈ m.values k' := by
  induction vs generalizing m with
  | nil => simp
  | cons v vs ih =>
    rw [foldl_cons, ih, mem_values_remove, mem_cons]
    grind

end

end Multimap

end KappaRegistry.Lib
