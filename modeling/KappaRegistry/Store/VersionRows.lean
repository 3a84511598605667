import KappaRegistry.Store.VersionHistory

/-!
# The Object That a Key Shows

What `version_get` without a version finds for a key (`VersionStore.currentLabel`): the label of the
tag in an unversioned namespace, and otherwise that of the newest row, if it is no delete marker.

A call on one key changes its tag and its rows only (`Touches`), so another key shows what it showed,
unless the call changes the versioning state of the namespace, which is itself a tag. A put is shown,
and a deletion hides what was shown, if the clock is not behind the newest row of the key (`InTime`).

Unlike in `Store.VersionHistory` there may be rows of other keys. Names are assumed to be free of
NUL, which separates the parts of the key of a row.
-/

namespace KappaRegistry

open Lib PersistentStore List Table

namespace VersionStore

/-! ## Rows of different keys -/

theorem versionPrefix_eq_textBytes (ns key : String) :
    versionPrefix ns key = textBytes (dbKey ns (dbKey key "")) := by
  have hchar : textBytes (String.singleton '\x00') = [0] := by decide
  have hempty : textBytes "" = [] := by decide
  simp only [versionPrefix, dbKey, joinKey, textBytes_append, hchar, hempty, append_nil,
    append_assoc, singleton_append]

section

variable {ns key ns' key' : String} (hns : NulFree ns) (hkey : NulFree key) (hns' : NulFree ns')
  (hkey' : NulFree key')
include hns hkey hns' hkey'

/-- One prefix of rows starts another only if it is the same. -/
theorem eq_of_versionPrefix_prefix
    (h : versionPrefix ns key <+: versionPrefix ns' key') : ns = ns' ∧ key = key' := by
  rw [versionPrefix_eq_textBytes, versionPrefix_eq_textBytes] at h
  obtain ⟨rest, hrest⟩ := isPrefix_of_textBytes h
  simp only [dbKey, joinKey, String.toList_append, String.toList_singleton, append_assoc,
    cons_append] at hrest
  obtain ⟨hname, hrest⟩ := append_cons_inj hns hns' hrest
  obtain ⟨hname', -⟩ := append_cons_inj hkey hkey' hrest
  exact ⟨String.ext hname, String.ext hname'⟩

theorem eq_of_versionPrefix {row : Bytes}
    (h : versionPrefix ns key <+: row) (h' : versionPrefix ns' key' <+: row) :
    ns = ns' ∧ key = key' := by
  rcases prefix_or_prefix_of_prefix h h' with hle | hle
  · exact eq_of_versionPrefix_prefix hns hkey hns' hkey' hle
  · obtain ⟨hn, hk⟩ := eq_of_versionPrefix_prefix hns' hkey' hns hkey hle
    exact ⟨hn.symm, hk.symm⟩

end

/-! ## What a call on a key changes -/

/-- The tag and the rows of one key are all that differs, besides blobs. -/
structure Touches (ns key : String) (s s' : VersionStore) : Prop where
  tags : ∀ k, k ≠ dbKey ns key → s'.tables.store.tags[k]? = s.tables.store.tags[k]?
  versions : ∀ row, ¬ versionPrefix ns key <+: row → s'.versions[row]? = s.versions[row]?

variable {ns key : String} {s s' s'' : VersionStore}

theorem Touches.refl (ns key : String) (s : VersionStore) : s.Touches ns key s :=
  ⟨fun _ _ => rfl, fun _ _ => rfl⟩

theorem Touches.trans (h : s.Touches ns key s') (h' : s'.Touches ns key s'') :
    s.Touches ns key s'' := by
  constructor
  · intro k hk
    rw [h'.tags k hk, h.tags k hk]
  · intro row hrow
    rw [h'.versions row hrow, h.versions row hrow]

theorem touches_tagSet (s : VersionStore) (ns key kappa : String) :
    s.Touches ns key (s.tagSet ns key kappa) := by
  refine ⟨?_, fun _ _ => rfl⟩
  intro k hk
  show (s.tables.store.tags.insert _ _)[k]? = _
  rw [get_insert, if_neg (Ne.symm hk)]

theorem touches_tagDelete (s : VersionStore) (ns key : String) :
    s.Touches ns key (s.tagDelete ns key) := by
  refine ⟨?_, fun _ _ => rfl⟩
  intro k hk
  show (s.tables.store.tags.erase _)[k]? = _
  rw [get_erase, if_neg (Ne.symm hk)]

theorem touches_insertVersion (s : VersionStore) (ns key : String) (entry : VersionEntry) :
    s.Touches ns key (s.insertVersion ns key entry) := by
  refine ⟨fun _ _ => rfl, ?_⟩
  intro row hrow
  show (s.versions.insert _ _)[row]? = _
  rw [get_insert, if_neg]
  intro heq
  exact hrow (heq ▸ prefix_append _ _)

theorem touches_eraseRow {row : Bytes × VersionEntry} (hrow : row ∈ s.versionRows ns key) :
    s.Touches ns key { s with versions := s.versions.erase row.1 } := by
  refine ⟨fun _ _ => rfl, ?_⟩
  intro k hk
  rw [get_erase, if_neg]
  intro heq
  exact hk (heq ▸ (mem_versionRows.mp hrow).2)

theorem touches_versionRemoveNull (s : VersionStore) (ns key : String) :
    s.Touches ns key (s.versionRemoveNull ns key) := by
  refine ⟨fun _ _ => rfl, ?_⟩
  intro k hk
  unfold versionRemoveNull
  rw [get_foldl_erase, if_neg]
  intro hmem
  obtain ⟨row, hrow, rfl⟩ := mem_map.mp hmem
  exact hk (mem_versionRows.mp (mem_of_mem_filter hrow)).2

theorem touches_versionPut (s : VersionStore) (ns key kappa : String) (etag : Option String)
    (freshId : String) (nowMs : ℕ) :
    s.Touches ns key (s.versionPut ns key kappa etag freshId nowMs).2 := by
  unfold versionPut
  cases s.versioningState ns with
  | unversioned => exact s.touches_tagSet ns key kappa
  | enabled => exact (s.touches_insertVersion ns key _).trans (touches_tagSet _ ns key kappa)
  | suspended =>
    exact ((s.touches_versionRemoveNull ns key).trans (touches_insertVersion _ ns key _)).trans
      (touches_tagSet _ ns key kappa)

theorem touches_versionDelete (s : VersionStore) (ns key : String) (versionId : Option String)
    (freshId : String) (nowMs : ℕ) :
    s.Touches ns key (s.versionDelete ns key versionId freshId nowMs).2 := by
  apply versionDelete_induction (P := s.Touches ns key)
  · exact fun _ => s.touches_tagDelete ns key
  · exact fun _ => (s.touches_insertVersion ns key _).trans (touches_tagDelete _ ns key)
  · exact fun row hrow => touches_eraseRow hrow
  · exact .refl ns key s

/-! ## What another key shows -/

def currentLabel (s : VersionStore) (ns key : String) : Option String :=
  match s.versioningState ns with
  | .unversioned => s.boundTo ns key
  | .enabled | .suspended =>
    (s.versionRows ns key).head?.bind fun row =>
      if row.2.isDeleteMarker then none else row.2.kappa

theorem currentLabel_of_unversioned (h : s.versioningState ns = .unversioned) :
    s.currentLabel ns key = s.boundTo ns key := by
  rw [currentLabel, h]

theorem currentLabel_of_versioned (h : s.versioningState ns ≠ .unversioned) :
    s.currentLabel ns key = (s.versionRows ns key).head?.bind fun row =>
      if row.2.isDeleteMarker then none else row.2.kappa := by
  rw [currentLabel]
  cases hs : s.versioningState ns with
  | unversioned => exact absurd hs h
  | enabled | suspended => rfl

theorem currentLabel_congr (hstate : s'.versioningState ns = s.versioningState ns)
    (hbound : s'.boundTo ns key = s.boundTo ns key)
    (hrows : s'.versionRows ns key = s.versionRows ns key) :
    s'.currentLabel ns key = s.currentLabel ns key := by
  unfold currentLabel
  rw [hstate, hbound, hrows]

section

variable {ns' key' : String}

section

variable (h : s.Touches ns key s')
include h

theorem Touches.boundTo_eq (hns : NulFree ns) (hns' : NulFree ns')
    (hne : ¬ (ns = ns' ∧ key = key')) : s'.boundTo ns' key' = s.boundTo ns' key' := by
  unfold boundTo
  rw [h.tags]
  intro heq
  obtain ⟨hn, hk⟩ := (PersistentStore.dbKey_inj hns' hns).mp heq
  exact hne ⟨hn.symm, hk.symm⟩

theorem Touches.versioningState_eq (hns : NulFree ns) (hns' : NulFree ns')
    (hconfig : ns = ns' → key ≠ configTag) : s'.versioningState ns' = s.versioningState ns' := by
  apply versioningState_congr
  apply h.boundTo_eq hns hns'
  intro ⟨hn, hk⟩
  exact hconfig hn hk

section

variable (hns : NulFree ns) (hkey : NulFree key) (hns' : NulFree ns') (hkey' : NulFree key')
  (hne : ¬ (ns = ns' ∧ key = key'))
include hns hkey hns' hkey' hne

theorem Touches.versionRows_eq :
    s'.versionRows ns' key' = s.versionRows ns' key' := by
  apply filter_toList_congr (p := fun row => (versionPrefix ns' key').isPrefixOf row)
  intro row hrow
  apply h.versions
  intro htouched
  exact hne (eq_of_versionPrefix hns hkey hns' hkey' htouched (List.isPrefixOf_iff_prefix.mp hrow))

/-- **A call on one key** leaves what another shows, if the versioning state stays. -/
theorem Touches.currentLabel_eq (hstate : s'.versioningState ns' = s.versioningState ns') :
    s'.currentLabel ns' key' = s.currentLabel ns' key' :=
  currentLabel_congr hstate (h.boundTo_eq hns hns' hne) (h.versionRows_eq hns hkey hns' hkey' hne)

end

end

end

/-! ## What the key of the call shows -/

/-- A row at this time does not come after another row of the key. -/
def InTime (s : VersionStore) (ns key : String) (nowMs : ℕ) : Prop :=
  ∀ row ∈ s.versionRows ns key, compare (versionCompositeKey ns key nowMs) row.1 ≠ .gt
  deriving Decidable

theorem head?_versionRows_insertVersion (entry : VersionEntry)
    (h : s.InTime ns key entry.timestampMs) :
    ((s.insertVersion ns key entry).versionRows ns key).head? =
      some (versionCompositeKey ns key entry.timestampMs, entry) := by
  have hmem : (versionCompositeKey ns key entry.timestampMs, entry) ∈
      (s.insertVersion ns key entry).versionRows ns key := by
    rw [mem_versionRows]
    refine ⟨?_, prefix_append _ _⟩
    show (s.versions.insert _ _)[_]? = _
    rw [get_insert, if_pos rfl]
  have hordered : ((s.insertVersion ns key entry).versionRows ns key).Pairwise
      fun a b => compare a.1 b.1 = .lt :=
    Std.ExtTreeMap.ordered_keys_toList.filter _
  cases hrows : (s.insertVersion ns key entry).versionRows ns key with
  | nil =>
    simp [hrows] at hmem
  | cons first rest =>
    rw [hrows] at hmem hordered
    rcases mem_cons.mp hmem with heq | hrest
    · rw [← heq]
      rfl
    · -- a row before it would have been there, and would not be in time
      have hlt := (pairwise_cons.mp hordered).1 _ hrest
      have hfirst : first ∈ (s.insertVersion ns key entry).versionRows ns key := by
        rw [hrows]
        exact mem_cons_self
      obtain ⟨hget, hstarts⟩ := mem_versionRows.mp hfirst
      rcases of_get_insert hget with ⟨hsame, -⟩ | ⟨-, hget⟩
      · rw [← hsame, Std.compare_self] at hlt
        cases hlt
      · exact absurd (Std.OrientedCmp.gt_of_lt hlt) (h first (mem_versionRows.mpr ⟨hget, hstarts⟩))

theorem InTime.versionRemoveNull {nowMs : ℕ} (h : s.InTime ns key nowMs) :
    (s.versionRemoveNull ns key).InTime ns key nowMs := by
  intro row hrow
  obtain ⟨hget, hstarts⟩ := mem_versionRows.mp hrow
  apply h
  rw [mem_versionRows]
  refine ⟨?_, hstarts⟩
  unfold VersionStore.versionRemoveNull at hget
  rw [get_foldl_erase] at hget
  by_cases hmem : row.1 ∈ ((s.versionRows ns key).filter fun row => row.2.versionId = "null").map Prod.fst
  · simp [if_pos hmem] at hget
  · rwa [if_neg hmem] at hget

theorem versioningState_tagSet (s : VersionStore) (ns : String) (hconfig : key ≠ configTag)
    (kappa : String) : (s.tagSet ns key kappa).versioningState ns = s.versioningState ns :=
  versioningState_congr (s.boundTo_tagSet_of_ne hconfig kappa)

theorem versioningState_tagDelete (s : VersionStore) (ns : String) (hconfig : key ≠ configTag) :
    (s.tagDelete ns key).versioningState ns = s.versioningState ns :=
  versioningState_congr (s.boundTo_tagDelete_of_ne hconfig)

theorem currentLabel_insertVersion (entry : VersionEntry)
    (hversioned : s.versioningState ns ≠ .unversioned) (h : s.InTime ns key entry.timestampMs)
    {s' : VersionStore} (hversions : s'.versions = (s.insertVersion ns key entry).versions)
    (hstate : s'.versioningState ns = s.versioningState ns) :
    s'.currentLabel ns key = if entry.isDeleteMarker then none else entry.kappa := by
  have hrows : s'.versionRows ns key = (s.insertVersion ns key entry).versionRows ns key := by
    unfold versionRows
    rw [hversions]
  rw [currentLabel_of_versioned (hstate ▸ hversioned), hrows, head?_versionRows_insertVersion entry h]
  rfl

/-- **A put in time is shown.** -/
theorem currentLabel_versionPut (hconfig : key ≠ configTag) {nowMs : ℕ}
    (h : s.versioningState ns ≠ .unversioned → s.InTime ns key nowMs) (kappa : String)
    (etag : Option String) (freshId : String) :
    (s.versionPut ns key kappa etag freshId nowMs).2.currentLabel ns key = some kappa := by
  cases hs : s.versioningState ns with
  | unversioned =>
    simp only [versionPut, hs]
    rw [currentLabel_of_unversioned ((s.versioningState_tagSet ns hconfig kappa).trans hs),
      boundTo_tagSet]
  | enabled =>
    have hne : s.versioningState ns ≠ .unversioned := by simp [hs]
    simp only [versionPut, hs]
    exact currentLabel_insertVersion (s.putEntry freshId kappa etag nowMs) hne (h hne) rfl
      (versioningState_tagSet _ ns hconfig kappa)
  | suspended =>
    have hne : s.versioningState ns ≠ .unversioned := by simp [hs]
    simp only [versionPut, hs]
    exact currentLabel_insertVersion (s := s.versionRemoveNull ns key)
      (s.putEntry "null" kappa etag nowMs) hne (h hne).versionRemoveNull rfl
      (versioningState_tagSet _ ns hconfig kappa)

/-- **A deletion hides the object**: that of an unversioned namespace, and a marker in time. -/
theorem currentLabel_versionDelete (hconfig : key ≠ configTag) {nowMs : ℕ} {versionId : Option String}
    (h : s.versioningState ns ≠ .unversioned → versionId = none ∧ s.InTime ns key nowMs)
    (freshId : String) :
    (s.versionDelete ns key versionId freshId nowMs).2.currentLabel ns key = none := by
  by_cases hstate : s.versioningState ns = .unversioned
  · rw [versionDelete_of_unversioned hstate,
      currentLabel_of_unversioned ((s.versioningState_tagDelete ns hconfig).trans hstate),
      boundTo_tagDelete]
  · obtain ⟨rfl, htime⟩ := h hstate
    rw [versionDelete_of_versioned hstate]
    exact currentLabel_insertVersion (deleteMarker freshId nowMs) hstate htime rfl
      (versioningState_tagDelete _ ns hconfig)

theorem currentLabel_tagSet (s : VersionStore) (ns : String) (hconfig : key ≠ configTag)
    (kappa : String) : (s.tagSet ns key kappa).currentLabel ns key =
      if s.versioningState ns = .unversioned then some kappa else s.currentLabel ns key := by
  have hstate := s.versioningState_tagSet ns hconfig kappa
  split_ifs with hs
  · rw [currentLabel_of_unversioned (hstate.trans hs), boundTo_tagSet]
  · rw [currentLabel_of_versioned (hstate ▸ hs), currentLabel_of_versioned hs]
    rfl

theorem currentLabel_tagDelete (s : VersionStore) (ns : String) (hconfig : key ≠ configTag) :
    (s.tagDelete ns key).currentLabel ns key =
      if s.versioningState ns = .unversioned then none else s.currentLabel ns key := by
  have hstate := s.versioningState_tagDelete ns hconfig
  split_ifs with hs
  · rw [currentLabel_of_unversioned (hstate.trans hs), boundTo_tagDelete]
  · rw [currentLabel_of_versioned (hstate ▸ hs), currentLabel_of_versioned hs]
    rfl

theorem versionGet_none (s : VersionStore) (ns key : String) :
    (∃ entry, s.versionGet ns key none = .ok entry ∧ entry.kappa = s.currentLabel ns key) ∨
      (∃ message, s.versionGet ns key none = .error (.notFound message)) ∧
        s.currentLabel ns key = none := by
  by_cases hs : s.versioningState ns = .unversioned
  · rw [currentLabel_of_unversioned hs]
    simp only [versionGet, hs]
    rcases s.tagGet_eq ns key with ⟨entry, hget, hbound⟩ | ⟨hget, hbound⟩
    · rw [hget, hbound]
      exact .inl ⟨_, rfl, rfl⟩
    · rw [hget]
      exact .inr ⟨⟨_, rfl⟩, hbound⟩
  · rw [versionGet_newest hs, currentLabel_of_versioned hs]
    cases (s.versionRows ns key).head? with
    | none => exact .inr ⟨⟨_, rfl⟩, rfl⟩
    | some row =>
      simp only [Option.bind_some]
      cases row.2.isDeleteMarker with
      | true => exact .inr ⟨⟨_, rfl⟩, rfl⟩
      | false => exact .inl ⟨_, rfl, rfl⟩

end VersionStore

end KappaRegistry
