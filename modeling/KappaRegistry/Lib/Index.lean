import KappaRegistry.Lib.Table

/-!
# Secondary Indexes

A table of rows is kept under keys made of a place and a label, and a multimap lists the labels of
a place by a field of their rows, under keys made in the same way. `IndexedBy` says that the
multimap lists exactly the rows; it survives the three ways in which a table and its index are
written together: a new row, a row that is replaced by one with the same field, and a deletion.

Places for which the keys may run into each other are left out by a predicate.
-/

namespace KappaRegistry.Lib

open Std List ExtTreeSet

namespace Multimap

variable {K V : Type} [Ord K] [TransOrd K] [Ord V] [TransOrd V] [LawfulEqOrd V]

theorem nodup_values (m : Multimap K V) (k : K) : (m.values k).Nodup := by
  refine (distinct_toList (t := m.valueSet k)).imp ?_
  intro a b hne heq
  rw [heq] at hne
  exact hne compare_self

theorem values_ext {m m' : Multimap K V} {k k' : K} (h : ∀ v, v ∈ m.values k ↔ v ∈ m'.values k') :
    m.values k = m'.values k' := by
  have hset : m.valueSet k = m'.valueSet k' := by
    refine ext_mem fun v => ?_
    rw [← mem_toList, ← mem_toList]
    exact h v
  rw [values, hset, values]

theorem find?_values_eq_some {m : Multimap K V} {k : K} {p : V → Bool} {v : V} :
    (m.values k).find? p = some v ↔
      v ∈ m.values k ∧ p v = true ∧ ∀ w ∈ m.values k, p w = true → compare w v ≠ .lt := by
  have hleast : ∀ v, (m.values k).find? p = some v →
      v ∈ m.values k ∧ p v = true ∧ ∀ w ∈ m.values k, p w = true → compare w v ≠ .lt := by
    intro v hfind
    refine ⟨mem_of_find?_eq_some hfind, find?_some hfind, ?_⟩
    intro w hw hpw hlt
    obtain ⟨-, before, after, hsplit, hbefore⟩ := find?_eq_some_iff_append.mp hfind
    have hordered : (m.values k).Pairwise fun a b => compare a b = .lt := ordered_toList
    rw [hsplit] at hw hordered
    rcases mem_append.mp hw with hw | hw
    · simpa [hpw] using hbefore w hw
    · rcases mem_cons.mp hw with rfl | hw
      · simp [compare_self] at hlt
      · have hgt := (pairwise_cons.mp (pairwise_append.mp hordered).2.1).1 w hw
        rw [OrientedOrd.eq_swap, hgt] at hlt
        cases hlt
  refine ⟨hleast v, ?_⟩
  rintro ⟨hmem, hpv, hmin⟩
  cases hfind : (m.values k).find? p with
  | none => exact absurd hpv (find?_eq_none.mp hfind v hmem)
  | some u =>
    obtain ⟨humem, hpu, humin⟩ := hleast u hfind
    -- neither of the two is before the other
    have huv := hmin u humem hpu
    have hvu := humin v hmem hpv
    rw [OrientedOrd.eq_swap] at hvu
    have heq : compare u v = .eq := by
      cases hcmp : compare u v with
      | lt => exact absurd hcmp huv
      | eq => rfl
      | gt =>
        rw [hcmp] at hvu
        exact absurd rfl hvu
    rw [compare_eq_iff_eq.mp heq]

end Multimap

section

variable {P X K R : Type} [Ord K] [TransOrd K] [Ord X] [TransOrd X]
variable (key : P → X → K) (valid : P → Prop)

/-- A multimap lists, under each place and value, the labels of the rows of the place whose field
has that value. -/
def IndexedBy (field : R → X) (rows : Table K R) (index : Multimap K X) : Prop :=
  ∀ p x label, valid p →
    (label ∈ index.values (key p x) ↔ ∃ r, rows[key p label]? = some r ∧ field r = x)

/-- Keys of valid places do not run into each other. -/
def KeysApart : Prop :=
  ∀ p p' x x', valid p → valid p' → key p x = key p' x' → p = p' ∧ x = x'

variable {key valid} {field : R → X} {rows : Table K R} {index : Multimap K X} {p : P} {label : X}
  {r : R}

namespace IndexedBy

theorem empty : IndexedBy key valid field (∅ : Table K R) ∅ := by
  intro p x label _
  simp

variable [LawfulEqOrd K] [DecidableEq K]

theorem replace (hkey : KeysApart key valid) (h : IndexedBy key valid field rows index)
    (hp : valid p) {old : R} (hold : rows[key p label]? = some old) (hfield : field old = field r) :
    IndexedBy key valid field (rows.insert (key p label) r) index := by
  intro p' x label' hp'
  rw [h p' x label' hp', Table.get_insert]
  by_cases heq : key p label = key p' label'
  · obtain ⟨rfl, rfl⟩ := hkey p p' label label' hp hp' heq
    rw [if_pos rfl, hold]
    simp [hfield]
  · rw [if_neg heq]

variable [LawfulEqOrd X]

section

variable (hkey : KeysApart key valid) (h : IndexedBy key valid field rows index) (hp : valid p)
include hkey h hp

theorem insert (hnew : rows[key p label]? = none) :
    IndexedBy key valid field (rows.insert (key p label) r)
      (index.add (key p (field r)) label) := by
  intro p' x label' hp'
  rw [Multimap.mem_values_add, Table.get_insert]
  by_cases heq : key p label = key p' label'
  · obtain ⟨rfl, rfl⟩ := hkey p p' label label' hp hp' heq
    have hold : label ∉ index.values (key p x) := by
      intro hmem
      obtain ⟨old, hrow, -⟩ := (h p x label hp).mp hmem
      simp [hnew] at hrow
    rw [if_pos rfl]
    constructor
    · rintro (⟨hfield, -⟩ | hmem)
      · exact ⟨r, rfl, (hkey p p _ _ hp hp hfield).2⟩
      · exact absurd hmem hold
    · rintro ⟨r', hr', hfield⟩
      rw [Option.some.inj hr', hfield]
      exact .inl ⟨rfl, rfl⟩
  · rw [if_neg heq, ← h p' x label' hp']
    refine ⟨?_, .inr⟩
    rintro (⟨hfield, rfl⟩ | hmem)
    · exact absurd (by rw [(hkey p p' _ _ hp hp' hfield).1]) heq
    · exact hmem

theorem add_listed (hrow : rows[key p label]? = some r) :
    IndexedBy key valid field rows (index.add (key p (field r)) label) := by
  intro p' x label' hp'
  rw [Multimap.mem_values_add, h p' x label' hp']
  refine ⟨?_, .inr⟩
  rintro (⟨hfield, rfl⟩ | hex)
  · obtain ⟨rfl, rfl⟩ := hkey p p' _ _ hp hp' hfield
    exact ⟨r, hrow, rfl⟩
  · exact hex

theorem erase (hrow : rows[key p label]? = some r) :
    IndexedBy key valid field (rows.erase (key p label))
      (index.remove (key p (field r)) label) := by
  intro p' x label' hp'
  rw [Multimap.mem_values_remove, Table.get_erase, h p' x label' hp']
  by_cases heq : key p label = key p' label'
  · obtain ⟨rfl, rfl⟩ := hkey p p' label label' hp hp' heq
    rw [if_pos rfl, hrow]
    constructor
    · rintro ⟨hne, r', hr', hfield⟩
      rw [Option.some.inj hr', hfield] at hne
      exact absurd ⟨rfl, rfl⟩ hne
    · rintro ⟨r', hr', -⟩
      cases hr'
  · rw [if_neg heq]
    refine ⟨And.right, fun hex => ⟨?_, hex⟩⟩
    rintro ⟨hfield, rfl⟩
    exact heq (by rw [(hkey p p' _ _ hp hp' hfield).1])

end

end IndexedBy

end

end KappaRegistry.Lib
