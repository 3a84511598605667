import KappaRegistry.Store.EdgeIndex

/-!
# The Index of Inbound Assertions

`ASSERTION_INBOUND` lists, for a target and one of the four relations that bear on identity, the
labels of the edges into the target, over all namespaces. `edge_put` enters a new edge, and an
update needs no entry, since the row keeps its label. `edge_delete` clears the other indexes and
does not touch this one.

**`inbound_lists_live`**: the index lists exactly the live edges in every run in which a deletion
of such an edge leaves the same label live in another namespace. `inbound_after_delete` is the
shortest run that does not: one edge is put and deleted.
-/

namespace KappaRegistry

open Lib

namespace EdgeRelation

theorem nulFree_asStr (relation : EdgeRelation) : PersistentStore.NulFree relation.asStr := by
  cases relation <;> decide

theorem parse_asStr (relation : EdgeRelation) : parse relation.asStr = some relation := by
  cases relation <;> rfl

theorem asStr_inj {relation relation' : EdgeRelation} (h : relation.asStr = relation'.asStr) :
    relation = relation' := by
  have hparse := parse_asStr relation
  rw [h, parse_asStr] at hparse
  exact (Option.some.inj hparse).symm

end EdgeRelation

namespace PersistentStore

theorem inboundKey_inj {target target' : String} {relation relation' : EdgeRelation} :
    dbKey target relation.asStr = dbKey target' relation'.asStr ↔
      target = target' ∧ relation = relation' := by
  rw [dbKey_inj_right relation.nulFree_asStr relation'.nulFree_asStr]
  refine and_congr_right fun _ => ⟨EdgeRelation.asStr_inj, congrArg _⟩

variable (prim : Primitives) (put : Set Edge) (s : PersistentStore)

/-- The store after a request that writes edges. -/
def edgeStep : EdgeRequest → PersistentStore
  | .put ns edge => s.edgePut prim ns edge
  | .delete ns source target relation => s.edgeDelete ns source target relation

def edgeRun (reqs : List EdgeRequest) : PersistentStore :=
  reqs.foldl (edgeStep prim) s

/-- The index of inbound assertions lists the labels of the live edges of its relations. -/
def InboundListsLive : Prop :=
  ∀ target relation kappa, isInbound relation = true →
    (kappa ∈ s.assertionInbound.values (dbKey target relation.asStr) ↔
      ∃ ns e, NulFree ns ∧ s.edgeAt ns kappa = some e ∧ e.target = target ∧ e.relation = relation)

/-- One of the edges is put, or a deletion takes no edge of an inbound relation that is not
live in another namespace too, under the same label. -/
def LeavesLive : EdgeRequest → Prop
  | .put ns edge => NulFree ns ∧ edge ∈ put
  | .delete ns source target relation =>
    NulFree ns ∧ (isInbound relation = true → ∀ kappa e, s.edgeAt ns kappa = some e →
      e.source = source → e.target = target → e.relation = relation →
        ∃ ns' e', NulFree ns' ∧ ns' ≠ ns ∧ s.edgeAt ns' kappa = some e')

/-- Every request of a run meets the condition in the state it finds. -/
def LeavesLiveRun (s : PersistentStore) : List EdgeRequest → Prop
  | [] => True
  | req :: reqs => s.LeavesLive put req ∧ (s.edgeStep prim req).LeavesLiveRun reqs

variable {prim put} {s : PersistentStore} {ns : String} {edge : Edge}

theorem InboundListsLive.congr (h : s.InboundListsLive) {s' : PersistentStore}
    (hindex : s'.assertionInbound = s.assertionInbound)
    (hlive : ∀ kappa target relation, isInbound relation = true →
      ((∃ ns e, NulFree ns ∧ s'.edgeAt ns kappa = some e ∧ e.target = target ∧ e.relation = relation) ↔
        ∃ ns e, NulFree ns ∧ s.edgeAt ns kappa = some e ∧ e.target = target ∧
          e.relation = relation)) : s'.InboundListsLive := by
  intro target relation kappa hinbound
  rw [hindex, h target relation kappa hinbound, hlive kappa target relation hinbound]

section

variable (hfree : NormalEdges prim put) (hs : s.EdgesIndexed prim put) (h : s.InboundListsLive)
include hfree hs h

theorem InboundListsLive.edgePut (hns : NulFree ns) (hedge : edge ∈ put) :
    (s.edgePut prim ns edge).InboundListsLive := by
  cases hfind : s.findLogical ns edge with
  | some kappa =>
    -- the row keeps its label, its target and its relation
    obtain ⟨old, hold, hsame⟩ := findLogical_eq_some hfind
    obtain ⟨-, htarget, hrelation, -⟩ := sameLogicalEdge_iff.mp hsame
    have hedges : (s.edgePut prim ns edge).edges = s.edges.insert (dbKey ns kappa) edge := by
      rw [edgePut_found (hfree.canonical hedge) hfind]
    refine h.congr (by rw [edgePut_found (hfree.canonical hedge) hfind]; rfl) ?_
    intro k target relation _
    refine exists_congr fun w => ⟨?_, ?_⟩
    · rintro ⟨e, hw, hrow, he⟩
      rcases of_edgeAt_insert hedges hns hw hrow with ⟨rfl, rfl, rfl⟩ | hrow
      · exact ⟨old, hw, hold, htarget.trans he.1, hrelation.trans he.2⟩
      · exact ⟨e, hw, hrow, he⟩
    · rintro ⟨e, hw, hrow, he⟩
      by_cases hk : ns = w ∧ kappa = k
      · obtain ⟨rfl, rfl⟩ := hk
        rw [hold] at hrow
        cases hrow
        refine ⟨edge, hw, ?_, htarget.symm.trans he.1, hrelation.symm.trans he.2⟩
        rw [edgeAt_insert hedges hns hw, if_pos ⟨rfl, rfl⟩]
      · refine ⟨e, hw, ?_, he⟩
        rwa [edgeAt_insert hedges hns hw, if_neg hk]
  | none =>
    have hnew := hs.label_free hfree hns hedge hfind
    have hedges : (s.edgePut prim ns edge).edges =
        s.edges.insert (dbKey ns (edge.kappa prim)) edge := by
      rw [edgePut_new (hfree.canonical hedge) hfind]
    intro target relation k hinbound
    have hindex : k ∈ (s.edgePut prim ns edge).assertionInbound.values (dbKey target relation.asStr) ↔
        (edge.target = target ∧ edge.relation = relation ∧ edge.kappa prim = k) ∨
          k ∈ s.assertionInbound.values (dbKey target relation.asStr) := by
      rw [edgePut_new (hfree.canonical hedge) hfind]
      dsimp only
      split_ifs with hrel
      · rw [Multimap.mem_values_add, inboundKey_inj, and_assoc]
      · refine ⟨.inr, ?_⟩
        rintro (⟨-, rfl, -⟩ | hmem)
        · exact absurd hinbound hrel
        · exact hmem
    rw [hindex, h target relation k hinbound]
    constructor
    · rintro (⟨rfl, rfl, rfl⟩ | ⟨w, e, hw, hrow, he⟩)
      · refine ⟨ns, edge, hns, ?_, rfl, rfl⟩
        rw [edgeAt_insert hedges hns hns, if_pos ⟨rfl, rfl⟩]
      · refine ⟨w, e, hw, ?_, he⟩
        rw [edgeAt_insert hedges hns hw, if_neg ?_]
        · exact hrow
        · rintro ⟨rfl, rfl⟩
          simp [hnew] at hrow
    · rintro ⟨w, e, hw, hrow, he⟩
      rcases of_edgeAt_insert hedges hns hw hrow with ⟨-, rfl, rfl⟩ | hrow
      · exact .inl ⟨he.1, he.2, rfl⟩
      · exact .inr ⟨w, e, hw, hrow, he⟩

theorem InboundListsLive.edgeDelete {source target : String} {relation : EdgeRelation}
    (hleaves : s.LeavesLive put (.delete ns source target relation)) :
    (s.edgeDelete ns source target relation).InboundListsLive := by
  obtain ⟨hns, hother⟩ := hleaves
  cases hfound : s.edgeToDelete ns source target relation with
  | none =>
    rwa [edgeDelete_absent hfound]
  | some found =>
    obtain ⟨kappa, edge⟩ := found
    obtain ⟨hrow, hsource, htarget, hrelation⟩ := edgeToDelete_some hfound
    have hedges : (s.edgeDelete ns source target relation).edges = s.edges.erase (dbKey ns kappa) := by
      rw [edgeDelete_found hfound]
    refine h.congr (by rw [edgeDelete_found hfound]) ?_
    intro k x r hinbound
    constructor
    · rintro ⟨w, e, hw, hrow', he⟩
      exact ⟨w, e, hw, edgeDelete_row hrow', he⟩
    · rintro ⟨w, e, hw, hrow', he⟩
      by_cases hk : ns = w ∧ kappa = k
      · -- the row is gone, and the same label is live elsewhere
        obtain ⟨rfl, rfl⟩ := hk
        rw [hrow] at hrow'
        cases hrow'
        have hrel : isInbound relation = true := by
          rwa [← hrelation, he.2]
        obtain ⟨ns', e', hns', hne, hlive⟩ := hother hrel kappa edge hrow hsource htarget hrelation
        have hkey := Edge.key_eq_iff.mp (hs.key_of_label hfree hs.toEdgesListed hns' hns hlive hrow)
        refine ⟨ns', e', hns', ?_, hkey.2.1.trans he.1, hkey.2.2.1.trans he.2⟩
        rwa [edgeAt_erase hedges hns hns', if_neg fun hk => hne hk.1.symm]
      · refine ⟨w, e, hw, ?_, he⟩
        rwa [edgeAt_erase hedges hns hw, if_neg hk]

theorem edgeStep_keeps {req : EdgeRequest} (hreq : s.LeavesLive put req) :
    (s.edgeStep prim req).EdgesIndexed prim put ∧ (s.edgeStep prim req).InboundListsLive := by
  cases req with
  | put ns edge => exact ⟨hs.edgePut hfree hreq.1 hreq.2, h.edgePut hfree hs hreq.1 hreq.2⟩
  | delete ns source target relation => exact ⟨hs.edgeDelete hreq.1, h.edgeDelete hfree hs hreq⟩

end

/-- **The inbound index lists live edges.** -/
theorem inbound_lists_live (prim : Primitives) (put : Set Edge) (hfree : NormalEdges prim put) (encrypted : Bool)
    (reqs : List EdgeRequest) (hreqs : (new encrypted).LeavesLiveRun prim put reqs) :
    ((new encrypted).edgeRun prim reqs).InboundListsLive := by
  have hrun : ∀ s : PersistentStore, s.EdgesIndexed prim put → s.InboundListsLive →
      s.LeavesLiveRun prim put reqs → (s.edgeRun prim reqs).InboundListsLive := by
    clear hreqs
    induction reqs with
    | nil =>
      intro s _ h _
      exact h
    | cons req reqs ih =>
      intro s hs h hreqs
      obtain ⟨hs', h'⟩ := edgeStep_keeps hfree hs h hreqs.1
      exact ih _ hs' h' hreqs.2
  refine hrun _ (edgesIndexed_new encrypted) ?_ hreqs
  intro target relation kappa _
  constructor
  · intro hmem
    simp [show (new encrypted).assertionInbound = ∅ from rfl, Multimap.values_empty] at hmem
  · rintro ⟨ns, e, -, hrow, -⟩
    cases hrow

/-- One edge stands in two namespaces, and is deleted in one of them. -/
def deleteOfTwo : List EdgeRequest :=
  [.put "m" ⟨"a", "b", .assertion, "me", none, none⟩, .put "n" ⟨"a", "b", .assertion, "me", none, none⟩,
    .delete "n" "a" "b" .assertion]

def sharedLabel : String := Edge.kappa (.distinct id) ⟨"a", "b", .assertion, "me", none, none⟩

/-- The rows of a store with these keys. -/
theorem mem_of_edgeAt {rows : List (String × String)} {kappa : String} {e : Edge}
    (hkeys : s.edges.keys = rows.map fun row => dbKey row.1 row.2) (hrows : ∀ row ∈ rows, NulFree row.1)
    (hns : NulFree ns) (hrow : s.edgeAt ns kappa = some e) : (ns, kappa) ∈ rows := by
  have hmem : dbKey ns kappa ∈ s.edges.keys :=
    Std.ExtTreeMap.mem_keys.mpr (Std.ExtTreeMap.mem_iff_isSome_getElem?.mpr (Option.isSome_of_eq_some hrow))
  rw [hkeys, List.mem_map] at hmem
  obtain ⟨row, hmem, hkey⟩ := hmem
  obtain ⟨rfl, rfl⟩ := (dbKey_inj (hrows row hmem) hns).mp hkey
  exact hmem

theorem inbound_lists_live_shared : ((new false).edgeRun (.distinct id) deleteOfTwo).InboundListsLive := by
  refine inbound_lists_live (.distinct id) Set.univ EdgeStore.normalEdges_distinct false deleteOfTwo
    ⟨⟨by decide, trivial⟩, ⟨by decide, trivial⟩, ⟨by decide, ?_⟩, trivial⟩
  intro _ kappa e hrow _ _ _
  -- two rows are there, both under the shared label
  have hmem : ("n", kappa) ∈ [("m", sharedLabel), ("n", sharedLabel)] :=
    mem_of_edgeAt (s := (new false).edgeRun (.distinct id) (deleteOfTwo.take 2)) (by decide +kernel)
      (by decide) (by decide) hrow
  have hlive : ((new false).edgeRun (.distinct id) (deleteOfTwo.take 2)).edgeAt "m" sharedLabel =
      some ⟨"a", "b", .assertion, "me", none, none⟩ := by decide +kernel
  obtain rfl : kappa = sharedLabel := by simpa using hmem
  exact ⟨"m", _, by decide, by decide, hlive⟩

/-- A deletion leaves the entry of an edge that is live nowhere. -/
theorem inbound_after_delete :
    let s := (new false).edgeRun (.distinct id)
      [.put "n" ⟨"a", "b", .assertion, "me", none, none⟩, .delete "n" "a" "b" .assertion]
    ¬ s.InboundListsLive := by
  intro s h
  have hlisted : sharedLabel ∈ s.assertionInbound.values (dbKey "b" "assertion") := by decide +kernel
  have hempty : s.edges.isEmpty = true := by decide +kernel
  obtain ⟨ns, e, -, hrow, -⟩ := (h "b" .assertion sharedLabel rfl).mp hlisted
  simp [edgeAt, Std.ExtTreeMap.isEmpty_iff.mp hempty] at hrow

end PersistentStore

end KappaRegistry
