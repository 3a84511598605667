import KappaRegistry.Store.TagMap

/-!
# The Versions of One Tag

The history of one row of the tag table, without encryption: every write installs a binding, with
the version after the one it finds. A write finds zero where there is no row, so a tag that is
deleted and set again counts from one again.

As long as that does not happen, the versions of a run count up by one (`versions_installations`),
and a version that is found again is the same binding (`row_after`). **`tagVersions_iff`**: no two
bindings of a run have the same version iff the tag is never set again after it was deleted, and
there are no more bindings than 64-bit numbers.
-/

namespace KappaRegistry

open Lib PersistentStore List Bool

/-! ## Installations -/

variable (t : TagTable) (version : ℕ) (key : String)

/-- The labels that a call writes to a row, in order. -/
def TagOp.labelsWritten (t : TagTable) : TagOp → List String
  | set ns name kappa => if dbKey ns name = key then [kappa] else []
  | setBatch ns updates =>
    match casCheckAll t ns updates with
    | .ok _ => (updates.filter fun update => dbKey ns update.name = key).map TagUpdate.kappa
    | .error _ => []
  | _ => []

/-- A binding that was installed for a tag. -/
structure Installation where
  kappa : String
  version : ℕ
  deriving DecidableEq

/-- Labels written one after the other, from a version on. -/
def installedFrom : ℕ → List String → List Installation
  | _, [] => []
  | version, kappa :: kappas =>
    ⟨kappa, nextVersion version⟩ :: installedFrom (nextVersion version) kappas

def installations (key : String) : TagTable → List TagOp → List Installation
  | _, [] => []
  | t, op :: ops =>
    installedFrom (rowVersion t key) (op.labelsWritten key t) ++
      installations key (op.step none t).2 ops

def TagOp.unbinds (t : TagTable) : TagOp → Bool
  | delete ns name => dbKey ns name = key && t.contains key
  | _ => false

/-- The run deletes the row, and writes it again later. -/
def recreated (key : String) : TagTable → List TagOp → Bool
  | _, [] => false
  | t, op :: ops =>
    (op.unbinds key t && !(installations key (op.step none t).2 ops).isEmpty) ||
      recreated key (op.step none t).2 ops

/-- The run neither writes the row nor deletes it. -/
def undisturbed (key : String) : TagTable → List TagOp → Bool
  | _, [] => true
  | t, op :: ops =>
    (op.labelsWritten key t).isEmpty && !op.unbinds key t && undisturbed key (op.step none t).2 ops

def tableAfter (ops : List TagOp) : TagTable :=
  ops.foldl (fun t op => (op.step none t).2) t

/-! ## One call -/

theorem nextVersion_add (n : ℕ) :
    (nextVersion version + n) % (u64Max + 1) = (version + 1 + n) % (u64Max + 1) := by
  rw [nextVersion, Nat.mod_add_mod]

theorem length_installedFrom (kappas : List String) :
    (installedFrom version kappas).length = kappas.length := by
  induction kappas generalizing version with
  | nil => rfl
  | cons kappa kappas ih => rw [installedFrom, length_cons, length_cons, ih]

theorem versions_installedFrom (kappas : List String) :
    (installedFrom version kappas).map Installation.version =
      (List.range kappas.length).map fun i => (version + 1 + i) % (u64Max + 1) := by
  induction kappas generalizing version with
  | nil => rfl
  | cons kappa kappas ih =>
    rw [installedFrom, map_cons, ih, length_cons, range_succ_eq_map, map_cons,
      map_map]
    congr 1
    refine map_congr_left ?_
    intro i _
    show (nextVersion version + 1 + i) % (u64Max + 1) = (version + 1 + (i + 1)) % (u64Max + 1)
    rw [Nat.add_assoc, nextVersion_add, Nat.add_comm 1 i]

theorem writeTag_none (ns name kappa : String) : writeTag none t ns name kappa =
      .ok (nextVersion (rowVersion t (dbKey ns name)),
        t.insert (dbKey ns name) (tagText kappa (nextVersion (rowVersion t (dbKey ns name))))) := rfl

theorem rowVersion_insert (kappa : String) {version : ℕ}
    (h : version ≤ u64Max) : rowVersion (t.insert key (tagText kappa version)) key = version := by
  rw [rowVersion, Table.get_insert, if_pos rfl]
  exact parseVersion_tagText kappa h

variable {t : TagTable}

theorem rowVersion_congr {t' : TagTable} {key : String} (h : t'[key]? = t[key]?) :
    rowVersion t' key = rowVersion t key := by
  rw [rowVersion, rowVersion, h]

/-- What a list of writes does to a row: nothing if it is not among them, and otherwise as many
versions as it is. -/
theorem writeAll_row (ns key : String) (updates : List TagUpdate) (t : TagTable) :
    ∃ t', writeAll none ns t updates = .ok t' ∧
      ((updates.filter fun update => dbKey ns update.name = key) = [] ∧ t'[key]? = t[key]? ∨
        (updates.filter fun update => dbKey ns update.name = key) ≠ [] ∧ t'[key]? ≠ none ∧
          rowVersion t' key = (rowVersion t key +
            (updates.filter fun update => dbKey ns update.name = key).length) % (u64Max + 1)) := by
  induction updates generalizing t with
  | nil => exact ⟨t, rfl, .inl ⟨rfl, rfl⟩⟩
  | cons update updates ih =>
    obtain ⟨t', hwrite, hrow⟩ := ih (t.insert (dbKey ns update.name)
      (tagText update.kappa (nextVersion (rowVersion t (dbKey ns update.name)))))
    refine ⟨t', hwrite, ?_⟩
    by_cases hkey : dbKey ns update.name = key
    · right
      subst hkey
      have hversion := rowVersion_insert t (dbKey ns update.name) update.kappa
        (nextVersion_le (rowVersion t (dbKey ns update.name)))
      rw [filter_cons_of_pos (by simp)]
      refine ⟨by simp, ?_, ?_⟩
      · rcases hrow with ⟨-, hsame⟩ | ⟨-, hbound, -⟩
        · rw [hsame, Table.get_insert, if_pos rfl]
          simp
        · exact hbound
      · rcases hrow with ⟨hnil, hsame⟩ | ⟨-, -, hcount⟩
        · rw [rowVersion_congr hsame, hversion, hnil]
          rfl
        · rw [hcount, hversion, nextVersion_add, length_cons]
          congr 1
          omega
    · have hsame : (t.insert (dbKey ns update.name)
          (tagText update.kappa (nextVersion (rowVersion t (dbKey ns update.name)))))[key]? =
            t[key]? := by
        rw [Table.get_insert, if_neg hkey]
      rw [filter_cons_of_neg (by simpa using hkey)]
      rwa [hsame, rowVersion_congr hsame] at hrow

/-- **One call and one row**: the row is deleted, or it is as before, or it has been written. -/
theorem TagOp.step_row (op : TagOp) (t : TagTable) (key : String) :
    (op.unbinds key t = true ∧ op.labelsWritten key t = [] ∧ (op.step none t).2[key]? = none) ∨
    (op.unbinds key t = false ∧ op.labelsWritten key t = [] ∧ (op.step none t).2[key]? = t[key]?) ∨
    (op.unbinds key t = false ∧ op.labelsWritten key t ≠ [] ∧ (op.step none t).2[key]? ≠ none ∧
      rowVersion (op.step none t).2 key =
        (rowVersion t key + (op.labelsWritten key t).length) % (u64Max + 1)) := by
  cases op with
  | set ns name kappa =>
    right
    have hstep : ((set ns name kappa).step none t).2 = t.insert (dbKey ns name)
        (tagText kappa (nextVersion (rowVersion t (dbKey ns name)))) := by
      simp only [step, writeTag_none, committed]
    rw [hstep]
    by_cases hkey : dbKey ns name = key
    · right
      subst hkey
      refine ⟨rfl, by simp [labelsWritten], by simp, ?_⟩
      rw [rowVersion_insert _ _ _ (nextVersion_le _)]
      simp only [labelsWritten, if_pos, length_singleton]
      rfl
    · left
      refine ⟨rfl, by simp [labelsWritten, hkey], ?_⟩
      rw [Table.get_insert, if_neg hkey]
  | setBatch ns updates =>
    right
    cases hcas : casCheckAll t ns updates with
    | error e =>
      left
      refine ⟨rfl, by simp only [labelsWritten, hcas], ?_⟩
      simp only [step, hcas]
      rfl
    | ok u =>
      obtain ⟨t', hwrite, hrow⟩ := writeAll_row ns key updates t
      have hstep : ((setBatch ns updates).step none t).2 = t' := by
        simp only [step, hcas, hwrite]
        rfl
      rw [hstep]
      simp only [labelsWritten, hcas, length_map, ne_eq, map_eq_nil_iff]
      rcases hrow with ⟨hnil, hsame⟩ | ⟨hne, hbound, hcount⟩
      · exact .inl ⟨rfl, hnil, hsame⟩
      · exact .inr ⟨rfl, hne, hbound, hcount⟩
  | delete ns name =>
    by_cases hkey : dbKey ns name = key
    · subst hkey
      by_cases hbound : t.contains (dbKey ns name) = true
      · left
        exact ⟨by simp [unbinds, hbound], rfl, by simp [step]⟩
      · right
        left
        have hnone : t[dbKey ns name]? = none := by simpa using hbound
        exact ⟨by simp [unbinds, hbound], rfl, by simp [step, hnone]⟩
    · right
      left
      exact ⟨by simp [unbinds, hkey], rfl, by simp [step, hkey]⟩
  | get ns name | list ns | prefixed ns namePrefix => exact .inr (.inl ⟨rfl, rfl, rfl⟩)

/-! ## Runs without re-creation -/

section

variable {key : String} {t : TagTable} {ops : List TagOp}

theorem not_recreated_cons {op : TagOp} (h : recreated key t (op :: ops) = false) :
    (op.unbinds key t = true → installations key (op.step none t).2 ops = []) ∧
      recreated key (op.step none t).2 ops = false := by
  rw [recreated, or_eq_false_iff, and_eq_false_imp] at h
  refine ⟨?_, h.2⟩
  intro hunbinds
  simpa using h.1 hunbinds

/-- **The versions of a run count up by one**, unless the tag is re-created. -/
theorem versions_installations (h : recreated key t ops = false) :
    (installations key t ops).map Installation.version =
      (List.range (installations key t ops).length).map
        fun i => (rowVersion t key + 1 + i) % (u64Max + 1) := by
  induction ops generalizing t with
  | nil => rfl
  | cons op ops ih =>
    obtain ⟨hlast, hrest⟩ := not_recreated_cons h
    rw [installations, map_append, length_append, length_installedFrom,
      versions_installedFrom, range_add, map_append, map_map, ih hrest]
    congr 1
    refine map_congr_left ?_
    intro i hi
    show (rowVersion (op.step none t).2 key + 1 + i) % (u64Max + 1) =
      (rowVersion t key + 1 + ((op.labelsWritten key t).length + i)) % (u64Max + 1)
    rcases op.step_row t key with ⟨hunbinds, -, -⟩ | ⟨-, hnil, hsame⟩ | ⟨-, -, -, hcount⟩
    · -- nothing is installed after the deletion
      rw [hlast hunbinds] at hi
      simp at hi
    · rw [rowVersion_congr hsame, hnil, length_nil, Nat.zero_add]
    · rw [hcount, Nat.add_assoc, Nat.mod_add_mod]
      congr 1
      omega

/-- **The row after a run** without re-creation: gone, or untouched, or as many versions on as
bindings were installed. -/
theorem row_after (h : recreated key t ops = false) : (tableAfter t ops)[key]? = none ∨
    (undisturbed key t ops = true ∧ installations key t ops = [] ∧
      (tableAfter t ops)[key]? = t[key]?) ∨
    (installations key t ops ≠ [] ∧ rowVersion (tableAfter t ops) key =
        (rowVersion t key + (installations key t ops).length) % (u64Max + 1)) := by
  induction ops generalizing t with
  | nil => exact .inr (.inl ⟨rfl, rfl, rfl⟩)
  | cons op ops ih =>
    obtain ⟨hlast, hrest⟩ := not_recreated_cons h
    have hafter : tableAfter t (op :: ops) = tableAfter (op.step none t).2 ops := rfl
    rw [hafter, undisturbed, installations, length_append, length_installedFrom]
    rcases op.step_row t key with ⟨hunbinds, hnil, hgone⟩ | ⟨hunbinds, hnil, hsame⟩ |
      ⟨hunbinds, hne, -, hcount⟩
    · -- after the deletion nothing is installed, so the row stays away
      rcases ih hrest with hnone | ⟨-, -, hrow⟩ | ⟨hsome, -⟩
      · exact .inl hnone
      · exact .inl (hrow.trans hgone)
      · exact absurd (hlast hunbinds) hsome
    · rw [hnil, hunbinds]
      rcases ih hrest with hnone | ⟨hkept, hinst, hrow⟩ | ⟨hsome, hversion⟩
      · exact .inl hnone
      · exact .inr (.inl ⟨hkept, hinst, hrow.trans hsame⟩)
      · refine .inr (.inr ⟨hsome, ?_⟩)
        rw [hversion, rowVersion_congr hsame, length_nil, Nat.zero_add]
    · have hinstalled : installedFrom (rowVersion t key) (op.labelsWritten key t) ++
          installations key (op.step none t).2 ops ≠ [] := by
        intro hnil
        have hlen := congrArg List.length (append_eq_nil_iff.mp hnil).1
        rw [length_installedFrom] at hlen
        exact hne (eq_nil_of_length_eq_zero hlen)
      rcases ih hrest with hnone | ⟨-, hinst, hrow⟩ | ⟨-, hversion⟩
      · exact .inl hnone
      · refine .inr (.inr ⟨hinstalled, ?_⟩)
        rw [rowVersion_congr hrow, hcount, hinst]
        rfl
      · refine .inr (.inr ⟨hinstalled, ?_⟩)
        rw [hversion, hcount, Nat.mod_add_mod, Nat.add_assoc]

theorem installations_append (ops₁ ops₂ : List TagOp) : installations key t (ops₁ ++ ops₂) =
      installations key t ops₁ ++ installations key (tableAfter t ops₁) ops₂ := by
  induction ops₁ generalizing t with
  | nil => rfl
  | cons op ops₁ ih =>
    rw [cons_append, installations, installations, ih, append_assoc]
    rfl

theorem not_recreated_append {ops₁ ops₂ : List TagOp} (h : recreated key t (ops₁ ++ ops₂) = false) :
    recreated key t ops₁ = false ∧ recreated key (tableAfter t ops₁) ops₂ = false := by
  induction ops₁ generalizing t with
  | nil => exact ⟨rfl, h⟩
  | cons op ops₁ ih =>
    rw [cons_append] at h
    obtain ⟨hlast, hrest⟩ := not_recreated_cons h
    obtain ⟨hfirst, hsecond⟩ := ih hrest
    refine ⟨?_, hsecond⟩
    rw [recreated, or_eq_false_iff, and_eq_false_imp]
    refine ⟨?_, hfirst⟩
    intro hunbinds
    have hnil := hlast hunbinds
    rw [installations_append] at hnil
    simp [(append_eq_nil_iff.mp hnil).1]

/-! ## Re-creation -/

theorem step_of_unwritten {op : TagOp} (hrow : t[key]? = none)
    (hlabels : op.labelsWritten key t = []) : (op.step none t).2[key]? = none := by
  rcases op.step_row t key with ⟨-, -, hgone⟩ | ⟨-, -, hsame⟩ | ⟨-, hne, -⟩
  · exact hgone
  · exact hsame.trans hrow
  · exact absurd hlabels hne

theorem one_mem_versions (hrow : t[key]? = none) (h : installations key t ops ≠ []) :
    1 ∈ (installations key t ops).map Installation.version := by
  induction ops generalizing t with
  | nil => exact absurd rfl h
  | cons op ops ih =>
    rw [installations] at h ⊢
    have hzero : rowVersion t key = 0 := by
      rw [rowVersion, hrow]
      rfl
    cases hlabels : op.labelsWritten key t with
    | cons kappa kappas =>
      rw [hzero, installedFrom, map_append, map_cons]
      exact mem_append_left _ (mem_cons_self ..)
    | nil =>
      rw [hlabels] at h
      exact ih (step_of_unwritten hrow hlabels) h

theorem versions_of_recreated (h : recreated key t ops = true) :
    1 ∈ (installations key t ops).map Installation.version ∧
      (t[key]? = none → ¬ ((installations key t ops).map Installation.version).Nodup) := by
  induction ops generalizing t with
  | nil => cases h
  | cons op ops ih =>
    rw [recreated, or_eq_true, and_eq_true] at h
    rw [installations, map_append]
    rcases h with ⟨hunbinds, hlater⟩ | hlater
    · rcases op.step_row t key with ⟨-, -, hgone⟩ | ⟨hno, -⟩ | ⟨hno, -⟩
      · have hone := one_mem_versions hgone (by simpa using hlater)
        refine ⟨mem_append_right _ hone, ?_⟩
        intro hnone
        -- a row that is deleted is there
        cases op with
        | delete ns name =>
          simp only [TagOp.unbinds, and_eq_true, Std.ExtTreeMap.contains_eq_isSome_getElem?,
            hnone] at hunbinds
          simp at hunbinds
        | _ => cases hunbinds
      · simp [hunbinds] at hno
      · simp [hunbinds] at hno
    · obtain ⟨hone, hdup⟩ := ih hlater
      refine ⟨mem_append_right _ hone, ?_⟩
      intro hnone hnodup
      rw [nodup_append] at hnodup
      obtain ⟨-, hnodup', hdisj⟩ := hnodup
      cases hlabels : op.labelsWritten key t with
      | nil =>
        exact hdup (step_of_unwritten hnone hlabels) hnodup'
      | cons kappa kappas =>
        have hzero : rowVersion t key = 0 := by
          rw [rowVersion, hnone]
          rfl
        have hfirst : 1 ∈ (installedFrom (rowVersion t key) (op.labelsWritten key t)).map
            Installation.version := by
          rw [hlabels, hzero]
          exact mem_cons_self ..
        exact hdisj 1 hfirst 1 hone rfl

theorem nodup_versions_iff (n : ℕ) :
    ((List.range n).map fun i => (0 + 1 + i) % (u64Max + 1)).Nodup ↔ n ≤ u64Max + 1 := by
  constructor
  · intro h
    by_contra hlt
    have heq := inj_on_of_nodup_map h (x := 0) (by simp; omega) (y := u64Max + 1)
      (by simp; omega) (by simp)
    omega
  · intro h
    refine List.Nodup.map_on ?_ nodup_range
    intro i hi j hj heq
    have hi' := mem_range.mp hi
    have hj' := mem_range.mp hj
    have hmax : u64Max = 18446744073709551615 := rfl
    rw [hmax] at h heq
    omega

end

/-! ## Versions and compare-and-swap -/

theorem rowVersion_of_tagGet {ns name : String} {entry : TagEntry}
    (h : tagGet none t ns name = .ok entry) :
    t[dbKey ns name]? ≠ none ∧ rowVersion t (dbKey ns name) = entry.version := by
  simp only [KappaRegistry.tagGet, bind_eq_ok, need_eq_ok] at h
  obtain ⟨raw, hraw, text, htext, hparse⟩ := h
  obtain rfl : raw = text := Except.ok.inj htext
  refine ⟨by simp [hraw], ?_⟩
  simp only [parseEntry, bind_eq_ok, need_eq_ok, mapError_eq_ok, pure_eq_ok] at hparse
  obtain ⟨⟨kappa, digits⟩, hsplit, version, hversion, rfl⟩ := hparse
  rw [rowVersion, hraw, Option.map_some, Option.getD_some, parseVersion, hsplit]
  show (parseRadix 10 u64Max (String.ofList digits)).toOption.getD 0 = version
  rw [hversion]
  rfl

theorem rowVersion_of_done {ns : String} {updates : List TagUpdate}
    (h : ((TagOp.setBatch ns updates).step none t).1 = .ok .done) {update : TagUpdate}
    (hupdate : update ∈ updates) {expected : ℕ} (hexpected : update.expectedVersion = some expected) :
    rowVersion t (dbKey ns update.name) = expected := by
  have hcas : casCheckAll t ns updates = .ok () := by
    cases hcas : casCheckAll t ns updates with
    | ok u => rfl
    | error e =>
      simp only [TagOp.step, hcas] at h
      cases h
  clear h
  induction updates with
  | nil => cases hupdate
  | cons u updates ih =>
    simp only [casCheckAll, bind_eq_ok] at hcas
    obtain ⟨_, hfirst, hrest⟩ := hcas
    rcases mem_cons.mp hupdate with heq | hmem
    · subst heq
      simp only [casCheck, hexpected, ensure_eq_ok] at hfirst
      exact hfirst
    · exact ih hmem hrest

/-- **Versions tell the bindings of a tag apart** iff the tag is never set again after it was
deleted, and is bound no more than `2 ^ 64` times. -/
theorem tagVersions_iff (ns name : String) (ops : List TagOp) :
    (((installations (dbKey ns name) ∅ ops).map Installation.version).Nodup ↔
      recreated (dbKey ns name) ∅ ops = false ∧
        (installations (dbKey ns name) ∅ ops).length ≤ u64Max + 1) ∧
    (∀ (ops₁ ops₂ : List TagOp) (entry : TagEntry) (updates : List TagUpdate) (update : TagUpdate),
      ops = ops₁ ++ ops₂ → recreated (dbKey ns name) ∅ ops = false →
      (installations (dbKey ns name) ∅ ops).length ≤ u64Max →
      tagGet none (tableAfter ∅ ops₁) ns name = .ok entry →
      update ∈ updates → update.name = name → update.expectedVersion = some entry.version →
      ((TagOp.setBatch ns updates).step none (tableAfter (tableAfter ∅ ops₁) ops₂)).1 = .ok .done →
      undisturbed (dbKey ns name) (tableAfter ∅ ops₁) ops₂ = true) := by
  have hempty : rowVersion ∅ (dbKey ns name) = 0 := by simp [rowVersion]
  constructor
  · cases hre : recreated (dbKey ns name) ∅ ops with
    | true =>
      have hdup := (versions_of_recreated hre).2 (by simp)
      exact ⟨fun h => absurd h hdup, fun h => absurd h.1 (by simp)⟩
    | false =>
      rw [versions_installations hre, hempty, nodup_versions_iff]
      simp
  · intro ops₁ ops₂ entry updates update hops hre hcount hread hupdate hname hexpected hdone
    subst hops
    obtain ⟨hre₁, hre₂⟩ := not_recreated_append hre
    rw [installations_append, List.length_append] at hcount
    obtain ⟨hbound, hversion⟩ := rowVersion_of_tagGet hread
    have hfound := rowVersion_of_done hdone hupdate hexpected
    rw [hname, ← hversion] at hfound
    -- the version read is the number of bindings so far, which is not zero
    obtain ⟨hpos, hread₁⟩ : 0 < (installations (dbKey ns name) ∅ ops₁).length ∧
        rowVersion (tableAfter ∅ ops₁) (dbKey ns name) =
          (installations (dbKey ns name) ∅ ops₁).length := by
      rcases row_after hre₁ with hnone | ⟨-, -, hrow⟩ | ⟨hne, hrow⟩
      · exact absurd hnone hbound
      · exact absurd (hrow.trans (by simp)) hbound
      · refine ⟨List.length_pos_iff.mpr hne, ?_⟩
        rw [hrow, hempty, Nat.zero_add, Nat.mod_eq_of_lt (by omega)]
    rcases row_after hre₂ with hnone | ⟨hkept, -⟩ | ⟨hne, hrow⟩
    · rw [rowVersion, hnone] at hfound
      simp only [Option.map_none, Option.getD_none] at hfound
      omega
    · exact hkept
    · have hpos₂ := List.length_pos_iff.mpr hne
      rw [hrow, hread₁, Nat.mod_eq_of_lt (by omega)] at hfound
      omega

/-- A tag that is set twice, and read in between. -/
theorem tagVersions_set_twice :
    ((installations "ns\x00t" ∅ [.set "ns" "t" "k", .set "ns" "t" "l"]).map
      Installation.version).Nodup ∧
    undisturbed "ns\x00t" (tableAfter ∅ [.set "ns" "t" "k"]) [.set "ns" "s" "l"] = true := by
  constructor
  · exact (tagVersions_iff "ns" "t" [.set "ns" "t" "k", .set "ns" "t" "l"]).1.mpr
      (by decide +kernel)
  · exact (tagVersions_iff "ns" "t" [.set "ns" "t" "k", .set "ns" "s" "l"]).2
      [.set "ns" "t" "k"] [.set "ns" "s" "l"] ⟨"t", "k", 1⟩ [⟨"t", "m", some 1⟩] ⟨"t", "m", some 1⟩
      rfl (by decide +kernel) (by decide +kernel) (by decide +kernel) (by simp) rfl rfl
      (by decide +kernel)

/-- A tag that is deleted and set again: version 1 twice, and a batch that expects the version
read with the first label replaces the second one. -/
theorem tagVersions_repeat :
    installations "ns\x00t" ∅ [.set "ns" "t" "k", .delete "ns" "t", .set "ns" "t" "l"] =
      [⟨"k", 1⟩, ⟨"l", 1⟩] ∧
    runTags none ∅ [.set "ns" "t" "k", .get "ns" "t", .delete "ns" "t", .set "ns" "t" "l",
        .setBatch "ns" [⟨"t", "m", some 1⟩], .get "ns" "t"] =
      [.ok (.version 1), .ok (.entry ⟨"t", "k", 1⟩), .ok .done, .ok (.version 1), .ok .done,
        .ok (.entry ⟨"t", "m", 2⟩)] := by
  decide +kernel

end KappaRegistry
