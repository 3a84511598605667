import KappaRegistry.Distribution.Edge
import KappaRegistry.Store.EdgeBatch
import KappaRegistry.Store.Memory

/-!
# Deleting an Edge by its Label

`DELETE /v2/{*ns}/edges/{kappa}` reads the blob under the label, decodes the edge in it, and passes
its source, target and relation to `edge_delete`. The asserter is lost on the way: the store removes the
first row it finds for the two ends and the relation, whoever asserts it. With the row it deletes
the blob under the row's label, which other namespaces may share.

**`deleteEdge_exact_iff`**: the handler removes the edge it was asked for, and nothing of another
edge or another namespace, exactly if every row of the edge is the first one for its ends and
relation, and its blob is no edge blob elsewhere.
-/

namespace KappaRegistry

open Lib PersistentStore

/-- `delete` of the edge handler; `decode` is `from_canonical`. Every failure to read the edge is a 404. -/
def deleteEdge (decode : Bytes → Option Edge) (s : PersistentStore) (ns edgeKappa : String) :
    Except HttpError PersistentStore :=
  match (s.blobGet edgeKappa).toOption.bind decode with
  | none => .error ⟨404, none, "not found"⟩
  | some edge => .ok (s.edgeDelete ns edge.source edge.target edge.relation)

/-- The edge is gone from every query of its namespace, which still return every other edge, and
nothing of another namespace has changed: no row, no answer, and no blob of a live edge, be it under the
label of the edge or under the label of its row. -/
structure RemovesExactly (prim : Primitives) (s s' : PersistentStore) (ns : String) (e : Edge) : Prop where
  gone : ∀ q es, s'.edgeQuery ns q = .ok es → e ∉ es
  others : ∀ q es es' f, s.edgeQuery ns q = .ok es → s'.edgeQuery ns q = .ok es' → f ∈ es → f ≠ e → f ∈ es'
  rows : ∀ w k, NulFree w → w ≠ ns → s'.edgeAt w k = s.edgeAt w k
  queries : ∀ w q, NulFree w → w ≠ ns → s'.edgeQuery w q = s.edgeQuery w q
  blobs : ∀ w k f label, NulFree w → w ≠ ns → s.edgeAt w k = some f → label = k ∨ label = f.kappa prim →
    s'.blobs[label]? = s.blobs[label]?

/-- Every row of the edge comes before the other rows for its ends and relation, and no live edge
of another namespace uses the blob under the row's label, if there is one. -/
def FirstAndAlone (prim : Primitives) (s : PersistentStore) (ns : String) (e : Edge) : Prop :=
  ∀ kappa, s.edgeAt ns kappa = some e →
    (∀ k f, s.edgeAt ns k = some f → f.source = e.source → f.target = e.target →
      f.relation = e.relation → compare k kappa ≠ .lt) ∧
    (s.blobs[kappa]?.isSome → ∀ w k f, NulFree w → w ≠ ns → s.edgeAt w k = some f →
      kappa ≠ k ∧ kappa ≠ f.kappa prim)

variable {prim : Primitives} {put : Set Edge} {s s' : PersistentStore} {ns kappa : String} {e : Edge}
  {decode : Bytes → Option Edge}

theorem PersistentStore.EdgesListed.edgeToDelete_first (h : s.EdgesListed prim put) (hns : NulFree ns)
    {source target : String} {relation : EdgeRelation}
    (hfound : s.edgeToDelete ns source target relation = some (kappa, e)) {k : String} {f : Edge}
    (hrow : s.edgeAt ns k = some f) (hsource : f.source = source) (htarget : f.target = target)
    (hrelation : f.relation = relation) : compare k kappa ≠ .lt := by
  -- the search for a row is a search for a label
  have hfind : (s.edgeFwd.values (dbKey ns source)).find? (fun k => ((s.edgeAt ns k).filter fun edge =>
      edge.source == source && edge.target == target && edge.relation == relation).isSome) =
      some kappa := by
    obtain ⟨before, label, after, hsplit, hlabel, hbefore⟩ := List.findSome?_eq_some_iff.mp hfound
    obtain ⟨edge, hedge, heq⟩ := Option.map_eq_some_iff.mp hlabel
    cases heq
    refine List.find?_eq_some_iff_append.mpr ⟨Option.isSome_of_eq_some hedge, before, after, hsplit, ?_⟩
    intro k hk
    rw [Option.map_eq_none_iff.mp (hbefore k hk)]
    rfl
  refine (Multimap.find?_values_eq_some.mp hfind).2.2 k ((h.fwd ns source k hns).mpr ⟨f, hrow, hsource⟩) ?_
  rw [hrow, Option.filter_some, if_pos (by simp [hsource, htarget, hrelation])]
  rfl

theorem deleteEdge_of_blobGet (ns : String)
    (h : (s.blobGet kappa).toOption.bind decode = some e) :
    deleteEdge decode s ns kappa = .ok (s.edgeDelete ns e.source e.target e.relation) := by
  rw [deleteEdge, h]

theorem deleteEdge_eq (hput : NormalEdges prim put)
    (hdecode : ∀ f, decode (prim.edgeBytes f) = some (f.canonical prim)) (hs : s.EdgesListed prim put)
    (hns : NulFree ns) (hrow : s.edgeAt ns kappa = some e)
    (hblob : ∀ bytes, s.blobs[e.kappa prim]? = some bytes → bytes = prim.edgeBytes e)
    (hok : deleteEdge decode s ns (e.kappa prim) = .ok s') :
    s' = s.edgeDelete ns e.source e.target e.relation := by
  obtain ⟨first, hfirst, -, hkey⟩ := hs.labelled ns kappa e hns hrow
  obtain ⟨hsource, htarget, -, -⟩ := Edge.key_eq_iff.mp hkey
  unfold deleteEdge at hok
  cases hget : s.blobs[e.kappa prim]? with
  | none =>
    rw [blobGet, hget] at hok
    cases hok
  | some bytes =>
    have hread : (s.blobGet (e.kappa prim)).toOption.bind decode = some (e.canonical prim) := by
      rw [blobGet_eq_ok.mpr hget, hblob bytes hget]
      exact hdecode e
    rw [hread] at hok
    -- the ends of a row are in normal form
    have hends : (e.canonical prim).source = e.source ∧ (e.canonical prim).target = e.target := by
      rw [← hsource, ← htarget]
      constructor
      · show prim.nfc e.source = _
        rw [← hsource]
        exact congrArg Edge.source (hput.canonical hfirst)
      · show prim.nfc e.target = _
        rw [← htarget]
        exact congrArg Edge.target (hput.canonical hfirst)
    cases hok
    rw [hends.1, hends.2]
    rfl

/-! ## The row that goes -/

section

variable {k₀ : String} (hedges : s'.edges = s.edges.erase (dbKey ns k₀)) (hblobs : s'.blobs = s.blobs.erase k₀)

include hblobs in
theorem RemovesExactly.alone (h : RemovesExactly prim s s' ns e) (hblob : s.blobs[k₀]?.isSome) (w k : String)
    (f : Edge) (hw : NulFree w) (hne : w ≠ ns) (hrow : s.edgeAt w k = some f) :
    k₀ ≠ k ∧ k₀ ≠ f.kappa prim := by
  have hshared : ∀ label, label = k ∨ label = f.kappa prim → k₀ ≠ label := by
    rintro label hlabel rfl
    have hkept := h.blobs w k f k₀ hw hne hrow hlabel
    rw [hblobs, Table.get_erase, if_pos rfl] at hkept
    rw [← hkept] at hblob
    cases hblob
  exact ⟨hshared k (.inl rfl), hshared _ (.inr rfl)⟩

variable (hs : s.EdgesListed prim put) (hs' : s'.EdgesListed prim put) (hns : NulFree ns)
include hedges hs' hns

/-- A row of the edge that is not the deleted one would still answer. -/
theorem RemovesExactly.only (h : RemovesExactly prim s s' ns e) (k : String)
    (hrow : s.edgeAt ns k = some e) : k = k₀ := by
  by_contra hne
  refine h.gone ⟨e.source, .outbound, none, none⟩ _ rfl
    ((hs'.mem_edgeQuery hns rfl).mpr ⟨⟨k, ?_⟩, rfl, rfl⟩)
  rwa [edgeAt_erase hedges hns hns, if_neg fun hk => hne hk.2.symm]

include hs hblobs in
theorem removesExactly_of_only (hput : NormalEdges prim put) (hrow : s.edgeAt ns k₀ = some e)
    (honly : ∀ k, s.edgeAt ns k = some e → k = k₀)
    (halone : s.blobs[k₀]?.isSome → ∀ w k f, NulFree w → w ≠ ns → s.edgeAt w k = some f →
      k₀ ≠ k ∧ k₀ ≠ f.kappa prim) : RemovesExactly prim s s' ns e := by
  have hrows : ∀ w k, NulFree w → w ≠ ns → s'.edgeAt w k = s.edgeAt w k := by
    intro w k hw hne
    rw [edgeAt_erase hedges hns hw, if_neg fun hk => hne hk.1.symm]
  refine ⟨?_, ?_, hrows, ?_, ?_⟩
  · intro q es hes hmem
    obtain ⟨⟨k, hk⟩, -⟩ := (hs'.mem_edgeQuery hns hes).mp hmem
    rw [edgeAt_erase hedges hns hns] at hk
    split at hk
    · cases hk
    · rename_i hne
      exact hne ⟨rfl, (honly k hk).symm⟩
  · intro q es es' f hes hes' hmem hne
    obtain ⟨⟨k, hk⟩, hrest⟩ := (hs.mem_edgeQuery hns hes).mp hmem
    refine (hs'.mem_edgeQuery hns hes').mpr ⟨⟨k, ?_⟩, hrest⟩
    rw [edgeAt_erase hedges hns hns, if_neg ?_]
    · exact hk
    · rintro ⟨-, rfl⟩
      rw [hrow] at hk
      exact hne (Option.some.inj hk).symm
  · intro w q hw hne
    refine (hs'.edgeQuery_eq_iff hput hs hw ?_).mpr (fun k => hrows w k hw hne) q
    intro k hsome
    rwa [← hrows w k hw hne]
  · intro w k f label hw hne hf hlabel
    rw [hblobs, Table.get_erase]
    by_cases hk : k₀ = label
    · subst hk
      rw [if_pos rfl]
      cases hblob : s.blobs[k₀]? with
      | none => rfl
      | some bytes =>
        have hother := halone (Option.isSome_of_eq_some hblob) w k f hw hne hf
        rcases hlabel with heq | heq
        · exact absurd heq hother.1
        · exact absurd heq hother.2
    · rw [if_neg hk]

end

/-- **Deletion by label**, if the blob under the label of the edge, where there is one, is that of the
edge. -/
theorem deleteEdge_exact_iff (prim : Primitives) (decode : Bytes → Option Edge) (put : Set Edge)
    (hput : NormalEdges prim put)
    (hdecode : ∀ f, decode (prim.edgeBytes f) = some (f.canonical prim)) (s : PersistentStore)
    (hs : s.EdgesListed prim put) (ns : String) (hns : NulFree ns) (e : Edge)
    (hlive : ∃ kappa, s.edgeAt ns kappa = some e)
    (hblob : ∀ bytes, s.blobs[e.kappa prim]? = some bytes → bytes = prim.edgeBytes e)
    (s' : PersistentStore) (hok : deleteEdge decode s ns (e.kappa prim) = .ok s') :
    RemovesExactly prim s s' ns e ↔ FirstAndAlone prim s ns e := by
  obtain ⟨k₁, hrow₁⟩ := hlive
  obtain rfl := deleteEdge_eq hput hdecode hs hns hrow₁ hblob hok
  cases hfound : s.edgeToDelete ns e.source e.target e.relation with
  | none => exact absurd ⟨rfl, rfl, rfl⟩ (hs.edgeToDelete_none hns hfound hrow₁)
  | some found =>
    obtain ⟨k₀, e₀⟩ := found
    obtain ⟨hrow₀, hsource, htarget, hrelation⟩ := edgeToDelete_some hfound
    have hs' : (s.edgeDelete ns e.source e.target e.relation).EdgesListed prim put := hs.edgeDelete hns
    have hedges : (s.edgeDelete ns e.source e.target e.relation).edges = s.edges.erase (dbKey ns k₀) := by
      rw [edgeDelete_found hfound]
    have hblobs : (s.edgeDelete ns e.source e.target e.relation).blobs = s.blobs.erase k₀ := by
      rw [edgeDelete_found hfound]
    constructor
    · intro h k hrow
      obtain rfl := h.only hedges hs' hns k hrow
      exact ⟨fun k' f => hs.edgeToDelete_first hns hfound, h.alone hblobs⟩
    · intro h
      -- the deleted row is the only row of the edge
      have honly : ∀ k, s.edgeAt ns k = some e → k = k₀ := by
        intro k hrow
        have hbefore := (h k hrow).1 k₀ e₀ hrow₀ hsource htarget hrelation
        have hafter := hs.edgeToDelete_first hns hfound hrow rfl rfl rfl
        rw [Std.OrientedOrd.eq_swap] at hafter
        cases hcmp : compare k₀ k with
        | lt => exact absurd hcmp hbefore
        | eq => exact (Std.compare_eq_iff_eq.mp hcmp).symm
        | gt =>
          rw [hcmp] at hafter
          exact absurd rfl hafter
      obtain rfl := honly k₁ hrow₁
      exact removesExactly_of_only hedges hblobs hs hs' hns hput hrow₁ honly (h k₁ hrow₁).2

def oneEdge : Edge := ⟨"a", "b", .owns, "x", none, none⟩

/-- The same relation, asserted by somebody else. -/
def otherAsserter : Edge := { oneEdge with asserter := "y" }

/-- The two in one namespace, and the second in another. -/
def twoAsserters : PersistentStore :=
  (((new false).edgePut (.distinct id) "n" oneEdge).edgePut (.distinct id) "n" otherAsserter).edgePut
    (.distinct id) "m" otherAsserter

def edgeLabels : List (String × String) :=
  [("m", otherAsserter.kappa (.distinct id)), ("n", oneEdge.kappa (.distinct id)),
    ("n", otherAsserter.kappa (.distinct id))]

theorem mem_edgeLabels (hns : NulFree ns) (hrow : twoAsserters.edgeAt ns kappa = some e) :
    (ns, kappa) ∈ edgeLabels :=
  mem_of_edgeAt (by decide +kernel) (by decide +kernel) hns hrow

theorem deleteEdge_exact_first : ∃ s', deleteEdge SampleCodec.getEdge twoAsserters "n"
      (oneEdge.kappa (.distinct id)) = .ok s' ∧
    RemovesExactly (.distinct id) twoAsserters s' "n" oneEdge := by
  have hfree := EdgeStore.normalEdges_distinct
  have hlisted : twoAsserters.EdgesListed (.distinct id) Set.univ :=
    (((edgesIndexed_new false).edgePut hfree (by decide) trivial).edgePut hfree (by decide) trivial
      |>.edgePut hfree (by decide) trivial).toEdgesListed
  have hok : deleteEdge SampleCodec.getEdge twoAsserters "n" (oneEdge.kappa (.distinct id)) =
      .ok (twoAsserters.edgeDelete "n" "a" "b" .owns) :=
    deleteEdge_of_blobGet "n" (e := oneEdge) (by decide +kernel)
  refine ⟨_, hok, (deleteEdge_exact_iff (.distinct id) SampleCodec.getEdge Set.univ hfree
    (getEdge_edgeBytes_distinct id) twoAsserters hlisted "n" (by decide) oneEdge
    ⟨oneEdge.kappa (.distinct id), by decide +kernel⟩ (by decide +kernel) _ hok).mpr ?_⟩
  have hrows : ∀ row ∈ edgeLabels, row.1 = "n" → twoAsserters.edgeAt row.1 row.2 = some oneEdge →
      ∀ row' ∈ edgeLabels, (row'.1 = "n" → compare row'.2 row.2 ≠ .lt) ∧ (row'.1 ≠ "n" → row.2 ≠ row'.2 ∧
        ∀ f, twoAsserters.edgeAt row'.1 row'.2 = some f → row.2 ≠ f.kappa (.distinct id)) := by
    decide +kernel
  intro kappa hrow
  have hfirst := hrows _ (mem_edgeLabels (by decide) hrow) rfl hrow
  constructor
  · intro k f hk _ _ _
    exact (hfirst _ (mem_edgeLabels (by decide) hk)).1 rfl
  · intro _ w k f hw hne hk
    obtain ⟨hlabel, hkappa⟩ := (hfirst _ (mem_edgeLabels hw hk)).2 hne
    exact ⟨hlabel, hkappa f hk⟩

/-- With two asserters of one relation, the request for the label of the second edge leaves it
there, and removes the first. And a request in one namespace removes the blob of the same edge in
another. The in-memory store does both as well. -/
theorem deleteEdge_not_exact :
    (∃ s', deleteEdge SampleCodec.getEdge twoAsserters "n" (otherAsserter.kappa (.distinct id)) =
        .ok s' ∧
      ¬ RemovesExactly (.distinct id) twoAsserters s' "n" otherAsserter) ∧
    (∃ s', deleteEdge SampleCodec.getEdge twoAsserters "m" (otherAsserter.kappa (.distinct id)) =
        .ok s' ∧
      ¬ RemovesExactly (.distinct id) twoAsserters s' "m" otherAsserter) ∧
    let prim := Primitives.distinct id
    let s := ((InMemoryStore.new.edgePut prim (.withName 1 "n") oneEdge).edgePut prim (.withName 1 "n")
      otherAsserter).edgePut prim (.withName 2 "m") otherAsserter
    (s.edgeDelete prim (.withName 1 "n") "a" "b" .owns).edgeQuery prim (.withName 1 "n")
        ⟨"a", .outbound, none, none⟩ = .ok [otherAsserter] ∧
      (s.edgeDelete prim (.withName 2 "m") "a" "b" .owns).blobs[otherAsserter.kappa prim]? = none := by
  refine ⟨⟨_, deleteEdge_of_blobGet "n" (e := otherAsserter) (by decide +kernel), ?_⟩,
    ⟨_, deleteEdge_of_blobGet "m" (e := otherAsserter) (by decide +kernel), ?_⟩, by decide +kernel⟩
  · intro h
    refine h.gone ⟨"a", .outbound, none, none⟩ [otherAsserter] ?_ List.mem_cons_self
    exact toOption_eq_some.mp (by decide +kernel)
  · intro h
    exact absurd (h.blobs "n" (otherAsserter.kappa (.distinct id)) otherAsserter _ (by decide)
      (by decide) (by decide +kernel) (.inl rfl)) (by decide +kernel)

end KappaRegistry
