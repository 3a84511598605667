import KappaRegistry.Identity.Handlers
import KappaRegistry.Store.EdgeTables

/-!
# What an Identity Write Leaves Alone

What is stored for an anchor is the tags and edges of its namespace, watermarks among them, the
bindings to it, and its succession. `Untouched` says that nothing of it changed. Every step of the
store that works in another namespace keeps it, and so a write touches one anchor at most: the one
whose namespace, target or old anchor it works with. For the writes that are not signed the lemmas
say also when that anchor itself is left alone.
-/

namespace KappaRegistry

open Lib PersistentStore Multimap

/-! ## Rows of one namespace -/

/-- The tags and edges of a namespace, and the succession of the anchor it is named by, are the same
in both stores. -/
structure SameUnder (anchor : String) (s s' : PersistentStore) : Prop where
  tags : ∀ name, s'.tags[dbKey anchor name]? = s.tags[dbKey anchor name]?
  edges : ∀ kappa, s'.edges[dbKey anchor kappa]? = s.edges[dbKey anchor kappa]?
  succession : s'.identitySuccessions[anchor]? = s.identitySuccessions[anchor]?

namespace SameUnder

variable {anchor : String} {s s' s'' : PersistentStore}

theorem refl (anchor : String) (s : PersistentStore) : SameUnder anchor s s :=
  ⟨fun _ => rfl, fun _ => rfl, rfl⟩

theorem trans (h : SameUnder anchor s s') (h' : SameUnder anchor s' s'') : SameUnder anchor s s'' :=
  ⟨fun name => (h'.tags name).trans (h.tags name), fun kappa => (h'.edges kappa).trans (h.edges kappa),
    h'.succession.trans h.succession⟩

theorem blobPut (anchor : String) (s : PersistentStore) (kappa : String) (content : Bytes) :
    SameUnder anchor s (s.blobPut kappa content) :=
  ⟨fun _ => rfl, fun _ => rfl, rfl⟩

theorem assertionIndexPut (anchor : String) (s : PersistentStore) (subject facet kappa : String) :
    SameUnder anchor s (s.assertionIndexPut subject facet kappa) :=
  ⟨fun _ => rfl, fun _ => rfl, rfl⟩

variable {ns : String} (hanchor : NulFree anchor) (hns : NulFree ns) (hne : ns ≠ anchor)

include hanchor hns hne

theorem dbKey_ne (x y : String) : dbKey ns x ≠ dbKey anchor y := by
  intro heq
  exact hne ((dbKey_inj hns hanchor).mp heq).1

theorem tagSet (s : PersistentStore) (name kappa : String) :
    SameUnder anchor s (s.tagSet ns name kappa) := by
  refine ⟨?_, fun _ => rfl, rfl⟩
  intro other
  show (s.tags.insert (dbKey ns name) _)[dbKey anchor other]? = _
  rw [Table.get_insert, if_neg (dbKey_ne hanchor hns hne name other)]

theorem edgePut (prim : Primitives) (s : PersistentStore) (edge : Edge) :
    SameUnder anchor s (s.edgePut prim ns edge) := by
  obtain ⟨htags, hsuccessions⟩ := s.edgePut_others prim ns edge
  refine ⟨?_, ?_, ?_⟩
  · intro name
    rw [htags]
  · intro kappa
    rcases s.edgePut_edges prim ns edge with hedges | ⟨kappa', hedges⟩
    · rw [hedges]
    · rw [hedges, Table.get_insert, if_neg (dbKey_ne hanchor hns hne kappa' kappa)]
  · rw [hsuccessions]

end SameUnder

/-! ## What is stored for an anchor -/

variable {D P : Type}

/-- `kappa_from_bytes` returns a SHA-256 label: its axis, and digits. -/
def LabelShape (prim : Primitives) : Prop :=
  ∀ bytes, ∃ digits, prim.kappaFromBytes bytes = "sha256:" ++ digits ∧ NulFree digits

namespace IdentityLibs

variable (L : IdentityLibs D P)

/-- A text that is the anchor of some key. -/
def IsAnchor (anchor : String) : Prop :=
  ∃ algorithm publicKey, anchor = L.computeAnchor algorithm publicKey

/-- Nothing that is stored for an anchor differs. -/
structure Untouched (anchor : String) (app app' : IdentityApp D) : Prop where
  store : SameUnder anchor app.store app'.store
  bindings : ∀ source text, L.bindingTarget text = some anchor →
    (text ∈ app'.bindings.values source ↔ text ∈ app.bindings.values source)

variable {L} {anchor : String}

theorem IsAnchor.nulFree (hlabel : LabelShape L.prim) (h : L.IsAnchor anchor) : NulFree anchor := by
  obtain ⟨algorithm, publicKey, rfl⟩ := h
  obtain ⟨digits, hdigits, hfree⟩ := hlabel (L.anchorBytes algorithm publicKey)
  show '\x00' ∉ (L.prim.kappaFromBytes _).toList
  rw [hdigits, String.toList_append, List.mem_append]
  rintro (hmem | hmem)
  · revert hmem
    decide
  · exact hfree hmem

theorem IsAnchor.ne_akdNamespace (hlabel : LabelShape L.prim) (h : L.IsAnchor anchor) :
    akdNamespace ≠ anchor := by
  obtain ⟨algorithm, publicKey, rfl⟩ := h
  obtain ⟨digits, hdigits, -⟩ := hlabel (L.anchorBytes algorithm publicKey)
  intro heq
  have hhead : (L.computeAnchor algorithm publicKey).toList.head? = some 's' := by
    show (L.prim.kappaFromBytes _).toList.head? = some 's'
    rw [hdigits]
    exact head?_toList_append (by decide) digits
  rw [← heq] at hhead
  revert hhead
  decide

/-! ## Steps that leave an anchor alone -/

section

variable {app app' app'' : IdentityApp D}

theorem Untouched.refl (anchor : String) (app : IdentityApp D) : L.Untouched anchor app app :=
  ⟨.refl anchor _, fun _ _ _ => Iff.rfl⟩

theorem Untouched.trans (h : L.Untouched anchor app app') (h' : L.Untouched anchor app' app'') :
    L.Untouched anchor app app'' :=
  ⟨h.store.trans h'.store, fun source text htarget =>
    (h'.bindings source text htarget).trans (h.bindings source text htarget)⟩

theorem Untouched.withStore {s : PersistentStore} (h : SameUnder anchor app.store s) :
    L.Untouched anchor app (app.withStore s) :=
  ⟨h, fun _ _ _ => Iff.rfl⟩

theorem Untouched.advance {s : PersistentStore} (h : SameUnder anchor app.store s) (ns : String)
    (mutation : EpochMutation) (nowMs : ℕ) :
    L.Untouched anchor app (L.advance app s ns mutation nowMs).2 := by
  unfold IdentityLibs.advance
  cases hadvance : TableStore.epochAdvance L.prim L.leafBytes { app.table with store := s } ns
      [mutation] nowMs with
  | error e => exact .withStore h
  | ok result =>
    obtain _ | ⟨kappa, table⟩ := result
    · exact .withStore h
    obtain ⟨leaf, hstore⟩ := TableStore.epochAdvance_store L.prim L.leafBytes hadvance
    refine ⟨?_, fun _ _ _ => Iff.rfl⟩
    show SameUnder anchor app.store table.store
    rw [hstore]
    exact h.trans (.blobPut anchor s kappa leaf)

theorem Untouched.publishLabel (hlabel : LabelShape L.prim) (hanchor : L.IsAnchor anchor)
    (app : IdentityApp D) (label kappa : String) :
    L.Untouched anchor app (L.publishLabel app label kappa) := by
  unfold IdentityLibs.publishLabel
  cases app.directory with
  | none => exact .refl anchor app
  | some directory =>
    refine ⟨?_, fun _ _ _ => Iff.rfl⟩
    show SameUnder anchor app.store (AkdManager.publish L.akd L.prim _ _).2.store
    unfold AkdManager.publish
    cases L.akd.publish directory [(textBytes label, textBytes kappa)] with
    | error e => exact .refl anchor _
    | ok published =>
      obtain ⟨epochHash, directory'⟩ := published
      dsimp only
      unfold AkdManager.checkpoint
      cases L.akd.checkpointBytes directory' with
      | error e => exact .refl anchor _
      | ok bytes =>
        exact (SameUnder.blobPut anchor _ _ _).trans
          (.tagSet (hanchor.nulFree hlabel) (by decide) (hanchor.ne_akdNamespace hlabel) _ _ _)

end

/-! ## Writes in the namespace of a signer -/

section

variable {app : IdentityApp D} (hlabel : LabelShape L.prim) (hanchor : L.IsAnchor anchor)

include hlabel hanchor

variable (nowMs : UInt64)

theorem assertWrite_untouched {assertion : IdentityAssertion}
    (hasserter : L.IsAnchor assertion.asserter) (hne : assertion.asserter ≠ anchor) (label : String) :
    L.Untouched anchor app (L.assertWrite app nowMs assertion label).2 := by
  have hfree := hanchor.nulFree hlabel
  have hns := hasserter.nulFree hlabel
  unfold assertWrite
  dsimp only
  generalize hadvance : L.advance app _ _ _ _ = result
  have huntouched : L.Untouched anchor app result.2 := by
    rw [← hadvance]
    apply Untouched.advance
    exact (((SameUnder.blobPut anchor _ _ _).trans (.tagSet hfree hns hne _ _ _)).trans
      (.assertionIndexPut anchor _ _ _ _)).trans (.edgePut hfree hns hne _ _ _)
  obtain ⟨outcome, app'⟩ := result
  cases outcome with
  | error e => exact huntouched
  | ok u => exact huntouched.trans (.publishLabel hlabel hanchor app' label _)

theorem revokeWrite_untouched {revocation : Revocation}
    (hasserter : L.IsAnchor revocation.asserter) (hne : revocation.asserter ≠ anchor) :
    L.Untouched anchor app (L.revokeWrite app nowMs revocation).2 := by
  have hfree := hanchor.nulFree hlabel
  have hns := hasserter.nulFree hlabel
  apply Untouched.advance
  exact ((SameUnder.blobPut anchor _ _ _).trans (.tagSet hfree hns hne _ _ _)).trans
    (.edgePut hfree hns hne _ _ _)

theorem watermarkWrite_untouched {watermark : Watermark}
    (hasserter : L.IsAnchor watermark.asserter) (hne : watermark.asserter ≠ anchor) :
    L.Untouched anchor app (L.watermarkWrite app nowMs watermark).2 := by
  apply Untouched.advance
  exact (SameUnder.blobPut anchor _ _ _).trans
    (.tagSet (hanchor.nulFree hlabel) (hasserter.nulFree hlabel) hne _ _ _)

theorem successionWrite_untouched {succession : IdentitySuccession}
    (hold : L.IsAnchor succession.oldAnchor) (hne : succession.oldAnchor ≠ anchor) :
    L.Untouched anchor app (L.successionWrite app nowMs succession).2 := by
  unfold successionWrite PersistentStore.identitySuccessionPut
  split_ifs
  · exact .refl anchor app
  · apply Untouched.withStore
    -- the entry of the old anchor, and then a blob and a tag
    have hentry : SameUnder anchor app.store { app.store with
        identitySuccessions :=
          app.store.identitySuccessions.insert succession.oldAnchor succession.newAnchor } := by
      refine ⟨fun _ => rfl, fun _ => rfl, ?_⟩
      rw [Table.get_insert, if_neg hne]
    exact (hentry.trans (.blobPut anchor _ _ _)).trans
      (.tagSet (hanchor.nulFree hlabel) (hold.nulFree hlabel) hne _ _ _)

end

/-! ## Registrations and bindings -/

/-- A store with a key numbers every tag 1; without one, setting a tag counts up. -/
theorem tagSet_row_eq_iff (s : PersistentStore) (ns name kappa : String) :
    (s.tagSet ns name kappa).tags[dbKey ns name]? = s.tags[dbKey ns name]? ↔
      s.encrypted = true ∧ s.tags[dbKey ns name]? = some ⟨kappa, 1⟩ := by
  show (s.tags.insert (dbKey ns name) _)[dbKey ns name]? = _ ↔ _
  rw [Table.get_insert, if_pos rfl]
  split_ifs with hencrypted
  · exact ⟨fun h => ⟨hencrypted, h.symm⟩, fun h => h.2.symm⟩
  · refine ⟨?_, fun h => absurd h.1 hencrypted⟩
    intro h
    rw [← h] at h
    have hversion := congrArg TagValue.version (Option.some.inj h)
    simp at hversion

theorem tagSet_row_of_ne (s : PersistentStore) {ns name : String} (kappa : String) {key : String}
    (h : dbKey ns name ≠ key) : (s.tagSet ns name kappa).tags[key]? = s.tags[key]? := by
  show (s.tags.insert (dbKey ns name) _)[key]? = _
  rw [Table.get_insert, if_neg h]

theorem tagSet_eq_self {s : PersistentStore} {ns name kappa : String} (hencrypted : s.encrypted = true)
    (hrow : s.tags[dbKey ns name]? = some ⟨kappa, 1⟩) : s.tagSet ns name kappa = s := by
  have htags : (s.tagSet ns name kappa).tags = s.tags := by
    apply Std.ExtTreeMap.ext_getElem?
    intro key
    by_cases hkey : dbKey ns name = key
    · rw [← hkey]
      exact (tagSet_row_eq_iff s ns name kappa).mpr ⟨hencrypted, hrow⟩
    · exact tagSet_row_of_ne s kappa hkey
  show { s with tags := (s.tagSet ns name kappa).tags } = s
  rw [htags]

/-- The rows that a registration writes hold what it writes. -/
def HoldsSpec (L : IdentityLibs D P) (app : IdentityApp D) (spec : AnchorSpec) : Prop :=
  app.store.encrypted = true ∧
    app.store.tags[dbKey (L.anchorOfSpec spec) "anchor/spec"]? = some ⟨L.specKappa spec, 1⟩ ∧
    (spec.endpoint = "" ∨
      app.store.tags[dbKey (L.anchorOfSpec spec) "anchor/endpoint"]? = some ⟨L.specKappa spec, 1⟩)

theorem isAnchor_anchorOfSpec (spec : AnchorSpec) : L.IsAnchor (L.anchorOfSpec spec) :=
  ⟨spec.algorithm, spec.publicKey, rfl⟩

section

variable {app : IdentityApp D}

theorem anchorWrite_untouched (hlabel : LabelShape L.prim) (hanchor : L.IsAnchor anchor)
    {spec : AnchorSpec} (hne : L.anchorOfSpec spec ≠ anchor) :
    L.Untouched anchor app (L.anchorWrite app spec).2 := by
  have hfree := hanchor.nulFree hlabel
  have hns := (isAnchor_anchorOfSpec (L := L) spec).nulFree hlabel
  have hspec := (SameUnder.blobPut anchor app.store (L.specKappa spec) (L.specBytes spec)).trans
    (.tagSet hfree hns hne _ "anchor/spec" (L.specKappa spec))
  apply Untouched.withStore
  split_ifs
  · exact hspec.trans (.tagSet hfree hns hne _ _ _)
  · exact hspec

theorem anchorWrite_untouched_iff (hlabel : LabelShape L.prim) {spec : AnchorSpec} :
    L.Untouched (L.anchorOfSpec spec) app (L.anchorWrite app spec).2 ↔ L.HoldsSpec app spec := by
  have hfree := (isAnchor_anchorOfSpec (L := L) spec).nulFree hlabel
  have hkeys : dbKey (L.anchorOfSpec spec) "anchor/endpoint" ≠
      dbKey (L.anchorOfSpec spec) "anchor/spec" := by
    intro heq
    have hnames := ((dbKey_inj hfree hfree).mp heq).2
    revert hnames
    decide
  -- the store after its blob, and after its first tag
  let s₀ := app.store.blobPut (L.specKappa spec) (L.specBytes spec)
  let s₁ := s₀.tagSet (L.anchorOfSpec spec) "anchor/spec" (L.specKappa spec)
  have hspec : s₁.tags[dbKey (L.anchorOfSpec spec) "anchor/spec"]? =
      app.store.tags[dbKey (L.anchorOfSpec spec) "anchor/spec"]? ↔ app.store.encrypted = true ∧
        app.store.tags[dbKey (L.anchorOfSpec spec) "anchor/spec"]? = some ⟨L.specKappa spec, 1⟩ :=
    tagSet_row_eq_iff s₀ _ _ _
  by_cases hendpoint : spec.endpoint = ""
  · have hstate : (L.anchorWrite app spec).2 = app.withStore s₁ := by
      unfold anchorWrite
      dsimp only
      rw [if_neg (not_not_intro hendpoint)]
      rfl
    rw [hstate]
    constructor
    · intro h
      obtain ⟨hencrypted, hrow⟩ := hspec.mp (h.store.tags "anchor/spec")
      exact ⟨hencrypted, hrow, .inl hendpoint⟩
    · intro h
      have heq : s₁ = s₀ := tagSet_eq_self h.1 h.2.1
      rw [heq]
      exact .withStore (.blobPut _ _ _ _)
  · have hstate : (L.anchorWrite app spec).2 =
        app.withStore (s₁.tagSet (L.anchorOfSpec spec) "anchor/endpoint" (L.specKappa spec)) := by
      unfold anchorWrite
      dsimp only
      rw [if_pos hendpoint]
      rfl
    have hother : s₁.tags[dbKey (L.anchorOfSpec spec) "anchor/endpoint"]? =
        app.store.tags[dbKey (L.anchorOfSpec spec) "anchor/endpoint"]? :=
      tagSet_row_of_ne s₀ _ hkeys.symm
    rw [hstate]
    constructor
    · intro h
      have hfirst := h.store.tags "anchor/spec"
      have hsecond := h.store.tags "anchor/endpoint"
      have hkept := tagSet_row_of_ne s₁ (L.specKappa spec) hkeys
      obtain ⟨hencrypted, hrow⟩ := hspec.mp (hkept.symm.trans hfirst)
      have hrow' := ((tagSet_row_eq_iff s₁ _ _ _).mp (hsecond.trans hother.symm)).2
      exact ⟨hencrypted, hrow, .inr (hother.symm.trans hrow')⟩
    · intro h
      have hrow' := h.2.2.resolve_left hendpoint
      have heq : s₁ = s₀ := tagSet_eq_self h.1 h.2.1
      have heq' : s₀.tagSet (L.anchorOfSpec spec) "anchor/endpoint" (L.specKappa spec) = s₀ :=
        tagSet_eq_self h.1 hrow'
      rw [heq, heq']
      exact .withStore (.blobPut _ _ _ _)

theorem bindsTo_iff {target text : String} :
    L.bindsTo target text = true ↔ L.bindingTarget text = some target := by
  simp [bindsTo]

/-- Only texts for one target differ, so the other anchors' bindings do not. -/
theorem untouched_of_bindings {app app' : IdentityApp D} (hstore : app'.store = app.store)
    {target : String} (hbindings : ∀ source text, L.bindingTarget text ≠ some target →
      (text ∈ app'.bindings.values source ↔ text ∈ app.bindings.values source))
    (hne : target ≠ anchor) : L.Untouched anchor app app' := by
  constructor
  · rw [hstore]
    exact .refl anchor app.store
  · intro source text htarget
    apply hbindings
    rw [htarget]
    intro heq
    exact hne (Option.some.inj heq).symm

theorem identityBindingPut_untouched_iff {binding : IdentityBinding} :
    L.Untouched anchor app (L.identityBindingPut app binding) ↔
      binding.target ≠ anchor ∨ (app.bindings.values binding.source).find?
        (L.bindsTo binding.target) = some (L.bindingText binding) := by
  have htext := L.bindingTarget_text binding
  unfold identityBindingPut
  cases hfind : (app.bindings.values binding.source).find? (L.bindsTo binding.target) with
  | none =>
    constructor
    · intro h
      refine .inl ?_
      intro heq
      have hmem := (h.bindings binding.source (L.bindingText binding) (htext.trans (heq ▸ rfl))).mp
        ((mem_values_add _ _ _ _ _).mpr (.inl ⟨rfl, rfl⟩))
      exact List.find?_eq_none.mp hfind _ hmem (bindsTo_iff.mpr htext)
    · intro h
      refine untouched_of_bindings rfl ?_ (h.resolve_right (by simp))
      intro source text hother
      rw [mem_values_add]
      refine or_iff_right ?_
      intro heq
      rw [← heq.2] at hother
      exact hother htext
  | some old =>
    have hold := bindsTo_iff.mp (List.find?_some hfind)
    dsimp only
    split_ifs with hsame
    · rw [hsame]
      exact iff_of_true (.refl anchor app) (.inr rfl)
    · constructor
      · intro h
        refine .inl ?_
        intro heq
        have hmem := (h.bindings binding.source old (hold.trans (heq ▸ rfl))).mpr
          (List.mem_of_find?_eq_some hfind)
        rcases (mem_values_add _ _ _ _ _).mp hmem with hnew | hkept
        · exact hsame hnew.2.symm
        · exact ((mem_values_remove _ _ _ _ _).mp hkept).1 ⟨rfl, rfl⟩
      · intro h
        have hne := h.resolve_right fun heq => hsame (Option.some.inj heq)
        refine untouched_of_bindings rfl ?_ hne
        intro source text hother
        rw [mem_values_add, mem_values_remove]
        -- neither the old nor the new text is one for another target
        have hnew : ¬ (binding.source = source ∧ L.bindingText binding = text) := by
          intro heq
          rw [← heq.2] at hother
          exact hother htext
        have hgone : ¬ (binding.source = source ∧ old = text) := by
          intro heq
          rw [← heq.2] at hother
          exact hother hold
        rw [or_iff_right hnew, and_iff_right hgone]

theorem identityBindingDelete_untouched_iff {source target : String} :
    L.Untouched anchor app (L.identityBindingDelete app source target) ↔
      target ≠ anchor ∨ L.bindingsTo app source target = [] := by
  have hmem : ∀ text, text ∈ L.bindingsTo app source target ↔
      text ∈ app.bindings.values source ∧ L.bindingTarget text = some target := by
    intro text
    rw [bindingsTo, List.mem_filter, bindsTo_iff]
  unfold identityBindingDelete
  constructor
  · intro h
    by_cases htarget : target = anchor
    · refine .inr (List.eq_nil_iff_forall_not_mem.mpr ?_)
      intro text htext
      obtain ⟨hbefore, hbinds⟩ := (hmem text).mp htext
      have hafter := (h.bindings source text (hbinds.trans (htarget ▸ rfl))).mpr hbefore
      exact ((mem_values_foldl_remove _ _ _ _ _).mp hafter).1 ⟨rfl, htext⟩
    · exact .inl htarget
  · rintro (hne | hnone)
    · refine untouched_of_bindings rfl ?_ hne
      intro source' text hother
      rw [mem_values_foldl_remove]
      refine and_iff_right ?_
      intro hgone
      exact hother ((hmem text).mp hgone.2).2
    · rw [hnone]
      exact .refl anchor app

end

end IdentityLibs

end KappaRegistry
