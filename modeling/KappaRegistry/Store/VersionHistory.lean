import KappaRegistry.Store.Isolation

/-!
# The History of One Object

An object has a history of puts and delete markers, newest first, and its current content is that of the
newest entry that was not removed for good (`VersionedObject`). The store keeps the object twice, in the
tag of its key and in the version rows, and reads one or the other, as the versioning state tells.

The two agree as long as no step lets them drift apart (`Tidy`): nothing is written or deleted
while unversioned if the key has version rows, an object that was written while unversioned is not
taken over into a versioned state, and the newest row is not removed. **`versionGet_current`**: in
every such run the store reads the current content of the object, and the tag is bound to it.
-/

namespace KappaRegistry

open Lib PersistentStore List Table Std.ExtTreeMap

/-! ## Objects -/

/-- One entry of the history; a delete marker has no label. -/
structure ObjectVersion where
  versionId : String
  kappa : Option String
  deriving DecidableEq

/-- An object: what is done with earlier versions, and its entries, newest first. -/
structure VersionedObject where
  state : VersioningState
  entries : List ObjectVersion
  deriving DecidableEq

/-- A call on one key, or a change of the versioning state of its namespace. -/
inductive VersionOp where
  | put (kappa : String) (etag : Option String) (freshId : String) (nowMs : ℕ)
  | delete (versionId : Option String) (freshId : String) (nowMs : ℕ)
  | configure (value : Option String)

/-- The state that a value of the configuration tag stands for. -/
def VersioningState.ofConfig (value : Option String) : VersioningState :=
  if value = some "enabled" then .enabled
  else if value = some "suspended" then .suspended
  else .unversioned

namespace VersionedObject

def new : VersionedObject := ⟨.unversioned, []⟩

/-- The entries without the one version that is not numbered. -/
def withoutNull (entries : List ObjectVersion) : List ObjectVersion :=
  entries.filter fun entry => entry.versionId ≠ "null"

variable (o : VersionedObject)

/-- What a call does to the object. Without versions there is one entry, which a put replaces and
a deletion removes. -/
def step : VersionOp → VersionedObject
  | .put kappa _ freshId _ =>
    match o.state with
    | .enabled => { o with entries := ⟨freshId, some kappa⟩ :: o.entries }
    | .unversioned | .suspended =>
      { o with entries := ⟨"null", some kappa⟩ :: withoutNull o.entries }
  | .delete none freshId _ =>
    match o.state with
    | .unversioned => { o with entries := withoutNull o.entries }
    | .enabled | .suspended => { o with entries := ⟨freshId, none⟩ :: o.entries }
  | .delete (some vid) _ _ =>
    { o with entries := o.entries.eraseP fun entry => entry.versionId = vid }
  | .configure value => { o with state := .ofConfig value }

def run (ops : List VersionOp) : VersionedObject := ops.foldl step o

/-- The current content: none if the newest entry is a delete marker, or there is none. -/
def current : Option String := o.entries.head?.bind ObjectVersion.kappa

end VersionedObject

open VersionedObject

/-! ## Runs of the store -/

namespace VersionStore

variable (ns key : String) (s : VersionStore)

def versionStep : VersionOp → VersionStore
  | .put kappa etag freshId nowMs => (s.versionPut ns key kappa etag freshId nowMs).2
  | .delete versionId freshId nowMs => (s.versionDelete ns key versionId freshId nowMs).2
  | .configure (some value) => s.tagSet ns configTag value
  | .configure none => s.tagDelete ns configTag

def versionRun (ops : List VersionOp) : VersionStore :=
  ops.foldl (versionStep ns key) s

def boundTo : Option String :=
  s.tables.store.tags[dbKey ns key]?.map TagValue.kappa

/-- The store reads an object: `version_get` without a version returns its current content, which
the tag is bound to, and does not find it if there is none. -/
def Reads (o : VersionedObject) : Prop :=
  match o.current with
  | some kappa =>
    (∃ entry, s.versionGet ns key none = .ok entry ∧ entry.kappa = some kappa) ∧
      s.boundTo ns key = some kappa
  | none => ∃ message, s.versionGet ns key none = .error (.notFound message)

/-- The step keeps the tag and the version rows of the key together. -/
def Tidy : VersionOp → Prop
  | .put .. => s.versioningState ns = .unversioned → s.versionRows ns key = []
  | .delete none _ _ => s.versioningState ns = .unversioned → s.versionRows ns key = []
  | .delete (some vid) _ _ =>
    if s.versioningState ns = .unversioned then
      s.versionRows ns key = [] ∧ (vid = "null" ∨ s.boundTo ns key = none)
    else ∀ row ∈ (s.versionRows ns key).head?, row.2.versionId ≠ vid
  | .configure value =>
    s.versioningState ns = .unversioned → VersioningState.ofConfig value ≠ .unversioned →
      s.versionRows ns key = [] → s.boundTo ns key = none

instance (s : VersionStore) (op : VersionOp) : Decidable (s.Tidy ns key op) := by
  rcases op with _ | (_ | _) | _ <;> dsimp only [Tidy] <;> infer_instance

/-- Every step of a run is tidy where it is made. -/
def TidyRun : VersionStore → List VersionOp → Prop
  | _, [] => True
  | s, op :: ops => s.Tidy ns key op ∧ TidyRun (s.versionStep ns key op) ops

instance instDecidableTidyRun : (s : VersionStore) → (ops : List VersionOp) →
    Decidable (s.TidyRun ns key ops)
  | _, [] => .isTrue trivial
  | s, op :: ops =>
    have := instDecidableTidyRun (s.versionStep ns key op) ops
    inferInstanceAs (Decidable (_ ∧ _))

end VersionStore

/-- Times that are read in a run, from `clock` on: each is later than the one before, and is a
64-bit number. -/
def Increasing : ℕ → List VersionOp → Prop
  | _, [] => True
  | clock, .put _ _ _ nowMs :: ops => clock ≤ nowMs ∧ nowMs ≤ u64Max ∧ Increasing (nowMs + 1) ops
  | clock, .delete _ _ nowMs :: ops => clock ≤ nowMs ∧ nowMs ≤ u64Max ∧ Increasing (nowMs + 1) ops
  | clock, .configure _ :: ops => Increasing clock ops

instance instDecidableIncreasing : (clock : ℕ) → (ops : List VersionOp) →
    Decidable (Increasing clock ops)
  | _, [] => .isTrue trivial
  | _, .put _ _ _ nowMs :: ops =>
    have := instDecidableIncreasing (nowMs + 1) ops
    inferInstanceAs (Decidable (_ ∧ _ ∧ _))
  | _, .delete _ _ nowMs :: ops =>
    have := instDecidableIncreasing (nowMs + 1) ops
    inferInstanceAs (Decidable (_ ∧ _ ∧ _))
  | clock, .configure _ :: ops => instDecidableIncreasing clock ops

/-! ## Rows and tags -/

namespace VersionStore

variable {ns key : String}

theorem compare_versionCompositeKey (ns key : String) {a b : ℕ} (h : a < b) (hb : b ≤ u64Max) :
    compare (versionCompositeKey ns key b) (versionCompositeKey ns key a) = .lt := by
  unfold versionCompositeKey
  rw [compare_append_left]
  have hmax : u64Max = 2 ^ 64 - 1 := rfl
  apply compare_bigEndian <;> omega

variable (s : VersionStore)

theorem boundTo_tagSet (kappa : String) : (s.tagSet ns key kappa).boundTo ns key = some kappa := by
  show (Option.map _ (s.tables.store.tags.insert _ _)[_]?) = _
  rw [get_insert, if_pos rfl]
  rfl

theorem boundTo_tagDelete : (s.tagDelete ns key).boundTo ns key = none := by
  show (Option.map _ (s.tables.store.tags.erase _)[_]?) = _
  rw [get_erase, if_pos rfl]
  rfl

variable {x : String}

theorem dbKey_ne {y : String} (h : x ≠ y) : dbKey ns x ≠ dbKey ns y := by
  intro heq
  exact h (dbKey_cancel heq)

theorem boundTo_tagSet_of_ne (h : x ≠ key) (kappa : String) :
    (s.tagSet ns x kappa).boundTo ns key = s.boundTo ns key := by
  show (Option.map _ (s.tables.store.tags.insert _ _)[_]?) = _
  rw [get_insert, if_neg (dbKey_ne h)]
  rfl

theorem boundTo_tagDelete_of_ne (h : x ≠ key) :
    (s.tagDelete ns x).boundTo ns key = s.boundTo ns key := by
  show (Option.map _ (s.tables.store.tags.erase _)[_]?) = _
  rw [get_erase, if_neg (dbKey_ne h)]
  rfl

theorem versioningState_eq : s.versioningState ns = .ofConfig (s.boundTo ns configTag) := by
  unfold versioningState boundTo PersistentStore.tagGet VersioningState.ofConfig
  cases s.tables.store.tags[dbKey ns configTag]? with
  | none => rfl
  | some value => simp

theorem tagGet_eq (ns key : String) : (∃ entry, s.tables.store.tagGet ns key = .ok entry ∧
        s.boundTo ns key = some entry.kappa) ∨
      (s.tables.store.tagGet ns key = .error (.notFound (ns ++ "/" ++ key)) ∧
        s.boundTo ns key = none) := by
  unfold boundTo PersistentStore.tagGet
  cases s.tables.store.tags[dbKey ns key]? with
  | none => exact .inr ⟨rfl, rfl⟩
  | some value => exact .inl ⟨_, rfl, rfl⟩

theorem toList_versionRemoveNull (h : s.versionRows ns key = s.versions.toList) :
    (s.versionRemoveNull ns key).versions.toList =
      s.versions.toList.filter fun row => row.2.versionId ≠ "null" := by
  apply toList_unique (ordered_keys_toList.filter _)
  intro k e
  unfold versionRemoveNull
  rw [get_foldl_erase, h]
  simp only [mem_filter, mem_map, Prod.exists, exists_and_right, exists_eq_right,
    mem_toList_iff_getElem?_eq_some, decide_eq_true_eq]
  split_ifs with hnull
  · obtain ⟨e', he', hid⟩ := hnull
    simp only [he', Option.some.injEq, iff_false, not_and]
    intro heq
    simp [← heq, hid]
  · refine ⟨And.left, ?_⟩
    intro hrow
    exact ⟨hrow, fun hid => hnull ⟨e, hrow, hid⟩⟩

variable {row : Bytes × VersionEntry}

theorem filter_ne_eq_eraseP {rows : List (Bytes × VersionEntry)} {p : Bytes × VersionEntry → Bool}
    (hdistinct : rows.Pairwise fun a b => a.1 ≠ b.1)
    (hfind : rows.find? p = some row) : (rows.filter fun r => r.1 ≠ row.1) = rows.eraseP p := by
  induction rows with
  | nil => cases hfind
  | cons r rows ih =>
    obtain ⟨hfirst, hrest⟩ := pairwise_cons.mp hdistinct
    by_cases hp : p r = true
    · rw [find?_cons_of_pos hp] at hfind
      cases hfind
      rw [eraseP_cons_of_pos hp, filter_cons_of_neg (by simp), filter_eq_self]
      intro r' hr'
      simpa using (hfirst r' hr').symm
    · rw [find?_cons_of_neg hp] at hfind
      rw [eraseP_cons_of_neg hp, filter_cons_of_pos, ih hrest hfind]
      simpa using hfirst row (mem_of_find?_eq_some hfind)

/-! ## The invariant -/

def rowVersion (row : Bytes × VersionEntry) : ObjectVersion := ⟨row.2.versionId, row.2.kappa⟩

variable (ns key) in
/-- The version rows are those of the key, made before a time. -/
def RowsBefore (versions : Table Bytes VersionEntry) (clock : ℕ) : Prop :=
  ∀ row ∈ versions.toList, row.1 = versionCompositeKey ns key row.2.timestampMs ∧
    row.2.timestampMs < clock ∧ row.2.isDeleteMarker = row.2.kappa.isNone

variable (ns key) in
/-- The store keeps an object: the tag is bound to the current content, and the entries are the
version rows, or there are none and the tag has the one entry. -/
structure Keeps (s : VersionStore) (o : VersionedObject) (clock : ℕ) : Prop where
  state : s.versioningState ns = o.state
  rows : RowsBefore ns key s.versions clock
  bound : s.boundTo ns key = o.current
  entries : (s.versions.toList = [] ∧
      o.entries = (s.boundTo ns key).toList.map (fun kappa => ⟨"null", some kappa⟩) ∧
      (o.state ≠ .unversioned → s.boundTo ns key = none)) ∨
    (s.versions.toList ≠ [] ∧ o.entries = s.versions.toList.map rowVersion)

variable {s : VersionStore} {o : VersionedObject} {clock : ℕ}

theorem keeps_new (encrypted : Bool) (ns key : String) : (new encrypted).Keeps ns key .new 0 := by
  have hbound : ∀ key, (new encrypted).boundTo ns key = none := by
    intro key
    show (Option.map _ (∅ : Table String TagValue)[_]?) = none
    simp
  have hrows : (new encrypted).versions.toList = [] := by
    show (∅ : Table Bytes VersionEntry).toList = []
    simp
  refine ⟨?_, by simp [RowsBefore, hrows], hbound key,
    .inl ⟨hrows, by simp [hbound, VersionedObject.new], fun _ => hbound key⟩⟩
  rw [versioningState_eq, hbound]
  rfl

theorem Keeps.versionRows_eq (h : s.Keeps ns key o clock) :
    s.versionRows ns key = s.versions.toList := by
  rw [versionRows, filter_eq_self]
  intro row hrow
  rw [List.isPrefixOf_iff_prefix, (h.rows row hrow).1]
  exact prefix_append _ _

theorem Keeps.entries_eq (h : s.Keeps ns key o clock) (hstate : o.state ≠ .unversioned) :
    o.entries = s.versions.toList.map rowVersion := by
  rcases h.entries with ⟨hnil, hentries, hnone⟩ | ⟨-, hentries⟩
  · rw [hentries, hnone hstate, hnil]
    rfl
  · exact hentries

theorem Keeps.entries_of_unversioned (h : s.Keeps ns key o clock)
    (hrows : s.versionRows ns key = []) :
    o.entries = (s.boundTo ns key).toList.map (fun kappa => ⟨"null", some kappa⟩) := by
  rw [h.versionRows_eq] at hrows
  rcases h.entries with ⟨-, hentries, -⟩ | ⟨hne, -⟩
  · exact hentries
  · exact absurd hrows hne

theorem withoutNull_of_tag (bound : Option String) :
    withoutNull (bound.toList.map fun kappa => ⟨"null", some kappa⟩) = [] := by
  cases bound with
  | none | some kappa => rfl

theorem versionDelete_of_versioned (hstate : s.versioningState ns ≠ .unversioned)
    (versionId : Option String) (freshId : String) (nowMs : ℕ) :
    s.versionDelete ns key versionId freshId nowMs =
      match versionId with
      | none =>
        (⟨freshId, true⟩, (s.insertVersion ns key (deleteMarker freshId nowMs)).tagDelete ns key)
      | some vid =>
        match (s.versionRows ns key).find? fun row => row.2.versionId = vid with
        | some row => (⟨vid, row.2.isDeleteMarker⟩, { s with versions := s.versions.erase row.1 })
        | none => (⟨vid, false⟩, s) := by
  unfold versionDelete
  cases hs : s.versioningState ns with
  | unversioned => exact absurd hs hstate
  | enabled | suspended => rfl

theorem versionDelete_of_unversioned (hstate : s.versioningState ns = .unversioned)
    (versionId : Option String) (freshId : String) (nowMs : ℕ) :
    s.versionDelete ns key versionId freshId nowMs = (⟨"null", false⟩, s.tagDelete ns key) := by
  unfold versionDelete
  rw [hstate]

theorem versionGet_newest (hstate : s.versioningState ns ≠ .unversioned) :
    s.versionGet ns key none =
      match (s.versionRows ns key).head? with
      | some row =>
        if row.2.isDeleteMarker then
          .error (.notFound (ns ++ "/" ++ key ++ " (delete marker: " ++ row.2.versionId ++ ")"))
        else .ok row.2
      | none => .error (.notFound (ns ++ "/" ++ key)) := by
  unfold versionGet
  cases hs : s.versioningState ns with
  | unversioned => exact absurd hs hstate
  | enabled | suspended => rfl

/-- **What is kept is read.** -/
theorem Keeps.reads (h : s.Keeps ns key o clock) : s.Reads ns key o := by
  have hbound := h.bound
  unfold Reads
  -- both reads find the label that the tag is bound to
  have hread : (∃ entry, s.versionGet ns key none = .ok entry ∧ entry.kappa = o.current ∧
        o.current ≠ none) ∨
      (∃ message, s.versionGet ns key none = .error (.notFound message)) ∧ o.current = none := by
    by_cases hstate : s.versioningState ns = .unversioned
    · rw [versionGet, hstate]
      rcases s.tagGet_eq ns key with ⟨entry, hget, hentry⟩ | ⟨hget, hnone⟩
      · rw [hget]
        rw [hbound] at hentry
        exact .inl ⟨_, rfl, hentry.symm, by simp [hentry]⟩
      · rw [hget]
        rw [hbound] at hnone
        exact .inr ⟨⟨_, rfl⟩, hnone⟩
    · have hentries := h.entries_eq (h.state ▸ hstate)
      rw [versionGet_newest hstate, h.versionRows_eq, current, hentries]
      cases hlist : s.versions.toList with
      | nil => exact .inr ⟨⟨_, rfl⟩, rfl⟩
      | cons row rows =>
        have hmarker := (h.rows row (by simp [hlist])).2.2
        simp only [head?_cons, map_cons, Option.bind_some, rowVersion]
        cases hkappa : row.2.kappa with
        | none =>
          rw [hkappa] at hmarker
          rw [hmarker]
          exact .inr ⟨⟨_, rfl⟩, rfl⟩
        | some kappa =>
          rw [hkappa] at hmarker
          rw [hmarker]
          exact .inl ⟨_, rfl, hkappa, by simp⟩
  rcases hread with ⟨entry, hget, hkappa, hne⟩ | ⟨hget, hnone⟩
  · cases hcurrent : o.current with
    | none => exact absurd hcurrent hne
    | some kappa =>
      rw [hcurrent] at hkappa hbound
      exact ⟨⟨entry, hget, hkappa⟩, hbound⟩
  · rwa [hnone]

/-! ## One call -/

theorem Keeps.toList_insertVersion {t : Table Bytes VersionEntry} {entry : VersionEntry}
    (hrows : RowsBefore ns key t clock) (hclock : clock ≤ entry.timestampMs)
    (hmax : entry.timestampMs ≤ u64Max) :
    (t.insert (versionCompositeKey ns key entry.timestampMs) entry).toList =
      (versionCompositeKey ns key entry.timestampMs, entry) :: t.toList := by
  apply toList_insert_first
  intro row hrow
  obtain ⟨hkey, hlt, -⟩ := hrows row hrow
  rw [hkey]
  exact compare_versionCompositeKey ns key (by omega) hmax

theorem Keeps.push (t : Table Bytes VersionEntry) (entry : VersionEntry)
    (hstate : s.versioningState ns = o.state) (hrows : RowsBefore ns key t clock)
    (hclock : clock ≤ entry.timestampMs) (hmax : entry.timestampMs ≤ u64Max)
    (hmarker : entry.isDeleteMarker = entry.kappa.isNone)
    (hversions : s.versions = t.insert (versionCompositeKey ns key entry.timestampMs) entry)
    (hentries : o.entries = ⟨entry.versionId, entry.kappa⟩ :: t.toList.map rowVersion)
    (hbound : s.boundTo ns key = entry.kappa) : s.Keeps ns key o (entry.timestampMs + 1) := by
  have hlist := toList_insertVersion hrows hclock hmax
  rw [← hversions] at hlist
  refine ⟨hstate, ?_, ?_, .inr ⟨by simp [hlist], by rw [hentries, hlist]; rfl⟩⟩
  · intro row hrow
    rw [hlist] at hrow
    rcases mem_cons.mp hrow with rfl | hrow
    · exact ⟨rfl, Nat.lt_succ_self _, hmarker⟩
    · obtain ⟨hkey, hlt, hm⟩ := hrows row hrow
      exact ⟨hkey, by omega, hm⟩
  · rw [hbound, current, hentries]
    rfl

theorem versioningState_congr {s s' : VersionStore}
    (h : s'.boundTo ns configTag = s.boundTo ns configTag) :
    s'.versioningState ns = s.versioningState ns := by
  rw [versioningState_eq, versioningState_eq, h]

/-- Without versions, and without rows of earlier ones, a call that leaves the tag of the key as it
should be has done its work. -/
theorem Keeps.tagOnly (h : s.Keeps ns key o clock) (hstate : o.state = .unversioned)
    (hrows : s.versionRows ns key = []) {s' : VersionStore}
    (hconfig : s'.boundTo ns configTag = s.boundTo ns configTag) (hversions : s'.versions = s.versions)
    {entries : List ObjectVersion}
    (hentries : entries = (s'.boundTo ns key).toList.map (fun kappa => ⟨"null", some kappa⟩))
    (clock : ℕ) : s'.Keeps ns key { o with entries } clock := by
  rw [h.versionRows_eq, ← hversions] at hrows
  refine ⟨(versioningState_congr hconfig).trans h.state, by simp [RowsBefore, hrows], ?_,
    .inl ⟨hrows, hentries, fun hne => absurd hstate hne⟩⟩
  rw [current, hentries]
  cases s'.boundTo ns key with
  | none | some kappa => rfl

variable {freshId : String} {nowMs : ℕ}

section

variable (hkey : key ≠ configTag) (h : s.Keeps ns key o clock) (hclock : clock ≤ nowMs)
  (hmax : nowMs ≤ u64Max)
include hkey h hclock hmax

/-- **A put.** -/
theorem Keeps.put {kappa : String}
    {etag : Option String}
    (htidy : s.Tidy ns key (.put kappa etag freshId nowMs)) :
    (s.versionStep ns key (.put kappa etag freshId nowMs)).Keeps ns key
      (o.step (.put kappa etag freshId nowMs)) (nowMs + 1) := by
  have hconfig : ∀ s : VersionStore,
      (s.tagSet ns key kappa).versioningState ns = s.versioningState ns :=
    fun s => versioningState_congr (s.boundTo_tagSet_of_ne hkey kappa)
  cases hs : o.state with
  | unversioned =>
    have hrows := htidy (h.state.trans hs)
    simp only [versionStep, versionPut, step, h.state, hs, h.entries_of_unversioned hrows,
      withoutNull_of_tag]
    rw [← hs]
    refine h.tagOnly hs hrows (s.boundTo_tagSet_of_ne hkey kappa) rfl ?_ _
    rw [boundTo_tagSet]
    rfl
  | enabled =>
    have hentries := h.entries_eq (by rw [hs]; decide)
    simp only [versionStep, versionPut, step, h.state, hs, hentries]
    rw [← hs]
    exact push s.versions (s.putEntry freshId kappa etag nowMs) ((hconfig _).trans h.state) h.rows
      hclock hmax rfl rfl rfl (boundTo_tagSet _ kappa)
  | suspended =>
    have hentries := h.entries_eq (by rw [hs]; decide)
    have hlist := s.toList_versionRemoveNull h.versionRows_eq
    have hremoved : withoutNull (s.versions.toList.map rowVersion) =
        (s.versionRemoveNull ns key).versions.toList.map rowVersion := by
      rw [hlist, withoutNull, filter_map]
      rfl
    simp only [versionStep, versionPut, step, h.state, hs, hentries, hremoved]
    rw [← hs]
    refine push (s.versionRemoveNull ns key).versions (s.putEntry "null" kappa etag nowMs)
      ((hconfig _).trans h.state) ?_ hclock hmax rfl rfl rfl (boundTo_tagSet _ kappa)
    intro row hrow
    rw [hlist] at hrow
    exact h.rows row (mem_of_mem_filter hrow)

/-- **A deletion without a version.** -/
theorem Keeps.delete (htidy : s.Tidy ns key (.delete none freshId nowMs)) :
    (s.versionStep ns key (.delete none freshId nowMs)).Keeps ns key
      (o.step (.delete none freshId nowMs)) (nowMs + 1) := by
  have hconfig : ∀ s : VersionStore,
      (s.tagDelete ns key).versioningState ns = s.versioningState ns :=
    fun s => versioningState_congr (s.boundTo_tagDelete_of_ne hkey)
  by_cases hs : o.state = .unversioned
  · have hrows := htidy (h.state.trans hs)
    simp only [versionStep, versionDelete_of_unversioned (h.state.trans hs), step, hs,
      h.entries_of_unversioned hrows, withoutNull_of_tag]
    rw [← hs]
    refine h.tagOnly hs hrows (s.boundTo_tagDelete_of_ne hkey) rfl ?_ _
    rw [boundTo_tagDelete]
    rfl
  · -- a marker is put over the rows, whether versioning is enabled or suspended
    have hobject : o.step (.delete none freshId nowMs) =
        { o with entries := ⟨freshId, none⟩ :: s.versions.toList.map rowVersion } := by
      simp only [step, h.entries_eq hs]
      cases hstate : o.state with
      | unversioned => exact absurd hstate hs
      | enabled | suspended => rfl
    rw [versionStep, versionDelete_of_versioned (h.state ▸ hs), hobject]
    exact push s.versions (deleteMarker freshId nowMs) ((hconfig _).trans h.state) h.rows hclock hmax
      rfl rfl rfl (boundTo_tagDelete _)

end

variable {vid : String}

theorem eraseP_tag (bound : Option String) (h : vid = "null" ∨ bound = none) :
    ((bound.toList.map fun kappa => (⟨"null", some kappa⟩ : ObjectVersion)).eraseP
      fun entry => entry.versionId = vid) = [] := by
  cases bound with
  | none => rfl
  | some kappa =>
    obtain rfl : vid = "null" := h.resolve_right (by simp)
    rfl

theorem Keeps.eraseRow (h : s.Keeps ns key o clock) (hstate : o.state ≠ .unversioned)
    (hhead : ∀ row ∈ s.versions.toList.head?, row.2.versionId ≠ vid)
    (hfind : (s.versions.toList.find? fun row => row.2.versionId = vid) = some row) :
    ({ s with versions := s.versions.erase row.1 } : VersionStore).Keeps ns key
      { o with entries := o.entries.eraseP fun entry => entry.versionId = vid } clock := by
  have hdistinct : s.versions.toList.Pairwise fun a b => a.1 ≠ b.1 := by
    refine ordered_keys_toList.imp ?_
    intro a b hlt heq
    simp [heq, Std.compare_self] at hlt
  have hlist : (s.versions.erase row.1).toList =
      s.versions.toList.eraseP fun row => row.2.versionId = vid := by
    rw [toList_erase, filter_ne_eq_eraseP hdistinct hfind]
  have hentries : (o.entries.eraseP fun entry => entry.versionId = vid) =
      (s.versions.erase row.1).toList.map rowVersion := by
    rw [h.entries_eq hstate, eraseP_map, hlist]
    rfl
  -- the newest row stays, and with it the current content
  cases hrows : s.versions.toList with
  | nil =>
    simp [hrows] at hfind
  | cons first rest =>
    have hfirst : ¬ decide (first.2.versionId = vid) = true := by
      simpa using hhead first (by simp [hrows])
    have hlist' : (s.versions.erase row.1).toList =
        first :: rest.eraseP fun row => row.2.versionId = vid := by
      rw [hlist, hrows]
      exact eraseP_cons_of_neg
        (p := fun row : Bytes × VersionEntry => decide (row.2.versionId = vid)) hfirst
    refine ⟨h.state, ?_, ?_, .inr ⟨?_, hentries⟩⟩
    · intro r hr
      exact h.rows r (eraseP_subset (hlist ▸ hr))
    · show s.boundTo ns key = _
      rw [h.bound, current, current, hentries, hlist',
        h.entries_eq hstate, hrows]
      rfl
    · show (s.versions.erase row.1).toList ≠ []
      simp [hlist']

/-- **A permanent removal.** -/
theorem Keeps.remove (hkey : key ≠ configTag) (h : s.Keeps ns key o clock)
    (htidy : s.Tidy ns key (.delete (some vid) freshId nowMs)) :
    (s.versionStep ns key (.delete (some vid) freshId nowMs)).Keeps ns key
      (o.step (.delete (some vid) freshId nowMs)) clock := by
  simp only [Tidy, h.state] at htidy
  have hobject : o.step (.delete (some vid) freshId nowMs) =
      { o with entries := o.entries.eraseP fun entry => entry.versionId = vid } := rfl
  rw [hobject]
  split_ifs at htidy with hs
  · obtain ⟨hrows, hvid⟩ := htidy
    simp only [versionStep, versionDelete, h.state, hs]
    rw [h.entries_of_unversioned hrows, eraseP_tag _ hvid, ← hs]
    refine h.tagOnly hs hrows (s.boundTo_tagDelete_of_ne hkey) rfl ?_ _
    rw [boundTo_tagDelete]
    rfl
  · rw [h.versionRows_eq] at htidy
    have hstep : s.versionStep ns key (.delete (some vid) freshId nowMs) =
        (s.versions.toList.find? fun row => row.2.versionId = vid).elim s
          fun row => { s with versions := s.versions.erase row.1 } := by
      rw [← h.versionRows_eq, versionStep, versionDelete_of_versioned (h.state ▸ hs)]
      dsimp only
      cases (s.versionRows ns key).find? fun row => row.2.versionId = vid <;> rfl
    rw [hstep]
    cases hfind : s.versions.toList.find? fun row => row.2.versionId = vid with
    | some row => exact h.eraseRow hs htidy hfind
    | none =>
      have hsame : (o.entries.eraseP fun entry => entry.versionId = vid) = o.entries := by
        apply eraseP_of_forall_not
        intro entry hentry
        rw [h.entries_eq hs] at hentry
        obtain ⟨row, hrow, rfl⟩ := mem_map.mp hentry
        exact find?_eq_none.mp hfind row hrow
      rwa [hsame]

/-- **A change of the versioning state.** -/
theorem Keeps.configure (hkey : key ≠ configTag) (h : s.Keeps ns key o clock)
    {value : Option String} (htidy : s.Tidy ns key (.configure value)) :
    (s.versionStep ns key (.configure value)).Keeps ns key (o.step (.configure value)) clock := by
  have hafter : ∀ s' : VersionStore, s'.versions = s.versions →
      s'.boundTo ns key = s.boundTo ns key → s'.boundTo ns configTag = value →
      s'.Keeps ns key (o.step (.configure value)) clock := by
    intro s' hversions hbound hconfig
    refine ⟨by rw [versioningState_eq, hconfig]; rfl, hversions ▸ h.rows, hbound.trans h.bound, ?_⟩
    rw [hversions, hbound]
    rcases h.entries with ⟨hnil, hentries, hnone⟩ | ⟨hne, hentries⟩
    · refine .inl ⟨hnil, hentries, ?_⟩
      intro hstate
      by_cases hold : o.state = .unversioned
      · exact htidy (h.state.trans hold) hstate (h.versionRows_eq.trans hnil)
      · exact hnone hold
    · exact .inr ⟨hne, hentries⟩
  cases value with
  | none =>
    exact hafter _ rfl (s.boundTo_tagDelete_of_ne (Ne.symm hkey)) (boundTo_tagDelete s)
  | some value =>
    exact hafter _ rfl (s.boundTo_tagSet_of_ne (Ne.symm hkey) value) (boundTo_tagSet s value)

/-! ## Runs -/

theorem Keeps.run (hkey : key ≠ configTag) {ops : List VersionOp} (h : s.Keeps ns key o clock)
    (hclock : Increasing clock ops) (htidy : s.TidyRun ns key ops) :
    ∃ clock', (s.versionRun ns key ops).Keeps ns key (o.run ops) clock' := by
  induction ops generalizing s o clock with
  | nil => exact ⟨clock, h⟩
  | cons op ops ih =>
    obtain ⟨hfirst, hrest⟩ := htidy
    cases op with
    | put kappa etag freshId nowMs =>
      obtain ⟨hle, hmax, hnext⟩ := hclock
      exact ih (h.put hkey hle hmax hfirst) hnext hrest
    | delete versionId freshId nowMs =>
      obtain ⟨hle, hmax, hnext⟩ := hclock
      cases versionId with
      | none => exact ih (h.delete hkey hle hmax hfirst) hnext hrest
      | some vid =>
        have hkept := h.remove hkey hfirst
        refine ih ⟨hkept.state, ?_, hkept.bound, hkept.entries⟩ hnext hrest
        intro row hrow
        obtain ⟨hk, hlt, hm⟩ := hkept.rows row hrow
        exact ⟨hk, by omega, hm⟩
    | configure value => exact ih (h.configure hkey hfirst) hclock hrest

/-- **A tidy run reads its object.** -/
theorem versionGet_current (encrypted : Bool) {ns key : String} (hkey : key ≠ configTag)
    {ops : List VersionOp} (hclock : Increasing 0 ops)
    (htidy : (new encrypted).TidyRun ns key ops) :
    ((new encrypted).versionRun ns key ops).Reads ns key (VersionedObject.new.run ops) := by
  obtain ⟨clock, hkept⟩ := (keeps_new encrypted ns key).run hkey hclock htidy
  exact hkept.reads

/-- Versions that are enabled before the first put, a delete marker, an older version that is
removed, and a put while versioning is suspended. -/
theorem versionGet_current_suspended :
    let ops : List VersionOp :=
      [.configure (some "enabled"), .put "k" none "1" 0, .delete none "2" 1,
        .delete (some "1") "3" 2, .configure (some "suspended"), .put "l" none "4" 3]
    ((VersionedObject.new.run ops).entries = [⟨"null", some "l"⟩, ⟨"2", none⟩]) ∧
      ((new false).versionRun "ns" "key" ops).Reads "ns" "key" (VersionedObject.new.run ops) := by
  intro ops
  exact ⟨by decide, versionGet_current false (by decide) (by decide) (by decide +kernel)⟩

/-- An object that was written while unversioned is not found once versioning is enabled. And
after the newest version was removed the one before it is read, but the tag has the label of the
removed one. -/
theorem versionGet_drifts :
    let put : VersionOp := .put "k" none "1" 0
    let enable : VersionOp := .configure (some "enabled")
    (VersionedObject.new.run [put, enable]).current = some "k" ∧
      ((new false).versionRun "ns" "key" [put, enable]).versionGet "ns" "key" none =
        .error (.notFound "ns/key") ∧
    let ops := [enable, put, .put "l" none "2" 1, .delete (some "2") "3" 2]
    (VersionedObject.new.run ops).current = some "k" ∧
      let s := (new false).versionRun "ns" "key" ops
      (s.versionGet "ns" "key" none).map VersionEntry.kappa = .ok (some "k") ∧
        s.boundTo "ns" "key" = some "l" := by
  decide +kernel

end VersionStore

end KappaRegistry
