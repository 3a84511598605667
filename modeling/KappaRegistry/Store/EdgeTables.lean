import KappaRegistry.Auth
import KappaRegistry.Store.Persistent

/-!
# The Edge Tables of the Persistent Store

What `edge_put` does to the table of edges and to the index by target, and what a query for the
Delegation edges into an anchor then lists. `edgePut_cases` takes the upsert apart once.

The index by target lists a row under the text the edge was first put with, and the row keeps the
normal form of it. For Delegation edges the two agree, in that the index names a row under its target
only (`RevListsTargets`), as long as the targets of the edges that are put are in normal form and the
label of a new edge does not collide with the label of another one.
-/

namespace KappaRegistry

open Lib List Table

namespace PersistentStore

/-! ## Keys -/

/-- A name without the separator of database keys. -/
def NulFree (t : String) : Prop := '\x00' ∉ t.toList
  deriving Decidable

theorem dbKey_inj {ns ns' x x' : String} (h : NulFree ns) (h' : NulFree ns') :
    dbKey ns x = dbKey ns' x' ↔ ns = ns' ∧ x = x' :=
  joinKey_inj h h'

theorem dbKey_inj_right {x y name name' : String} (h : NulFree name) (h' : NulFree name') :
    dbKey x name = dbKey y name' ↔ x = y ∧ name = name' := by
  constructor
  · intro heq
    have hlist := congrArg (fun text => text.toList.reverse) heq
    simp only [dbKey, joinKey, String.toList_append, String.toList_singleton, reverse_append,
      reverse_singleton, singleton_append] at hlist
    obtain ⟨hname, hfirst⟩ := append_cons_inj (by simpa [NulFree] using h) (by simpa [NulFree] using h') hlist
    exact ⟨String.ext (reverse_injective hfirst), String.ext (reverse_injective hname)⟩
  · intro hboth
    rw [hboth.1, hboth.2]

/-! ## Queries -/

/-- A query for the Delegation edges into an anchor lists the rows that the index by target names
under it. -/
theorem mem_delegationsInto {s : PersistentStore} {ns : NamespaceRef} {x : String} {e : Edge} :
    e ∈ s.toKappaStore.edgesOf ns (.delegationsInto x) ↔ e.relation = .delegation ∧
        ∃ kappa ∈ s.edgeRev.values (dbKey ns.asStr x), s.edgeAt ns.asStr kappa = some e := by
  show e ∈ List.filter _ (filterMap _ _) ↔ _
  rw [mem_filter, mem_filterMap]
  simp only [EdgeQuery.admits, EdgeQuery.delegationsInto, Option.all_some, Option.all_none,
    Bool.and_true, beq_iff_eq]
  exact and_comm

/-! ## The upsert -/

variable (prim : Primitives)

theorem findLogical_eq_some {s : PersistentStore} {ns kappa : String} {edge : Edge}
    (h : s.findLogical ns edge = some kappa) :
    ∃ old, s.edgeAt ns kappa = some old ∧ sameLogicalEdge old edge = true := by
  have hfound := find?_some h
  exact (Option.any_eq_true _ _).mp hfound

variable (s : PersistentStore) (ns : String) (edge : Edge)

theorem edgeUpsert_cases :
    (∃ kappa old, s.edgeAt ns kappa = some old ∧ sameLogicalEdge old edge = true ∧
      old.valueKappa = edge.valueKappa ∧ old.metadata = edge.metadata ∧
      s.edgeUpsert prim ns edge = s) ∨
    (∃ kappa old, s.edgeAt ns kappa = some old ∧ sameLogicalEdge old edge = true ∧
      s.edgeUpsert prim ns edge =
        { s with edges := s.edges.insert (dbKey ns kappa) (edge.canonical prim) }) ∨
    ((s.edgeUpsert prim ns edge).edges =
        s.edges.insert (dbKey ns (edge.kappa prim)) (edge.canonical prim) ∧
      (s.edgeUpsert prim ns edge).edgeRev =
        s.edgeRev.add (dbKey ns edge.target) (edge.kappa prim)) := by
  unfold edgeUpsert
  cases hfind : s.findLogical ns edge with
  | some kappa =>
    obtain ⟨old, hold, hsame⟩ := findLogical_eq_some hfind
    by_cases heq : old.valueKappa = edge.valueKappa ∧ old.metadata = edge.metadata
    · exact .inl ⟨kappa, old, hold, hsame, heq.1, heq.2, by simp [hold, heq.1, heq.2]⟩
    · exact .inr (.inl ⟨kappa, old, hold, hsame, by simp [hold, heq]⟩)
  | none =>
    refine .inr (.inr ?_)
    dsimp only
    split <;> exact ⟨rfl, rfl⟩

theorem edgePut_cases :
    (∃ kappa old, s.edgeAt ns kappa = some old ∧ sameLogicalEdge old edge = true ∧
      old.valueKappa = edge.valueKappa ∧ old.metadata = edge.metadata ∧
      (s.edgePut prim ns edge).edges = s.edges ∧ (s.edgePut prim ns edge).edgeRev = s.edgeRev) ∨
    (∃ kappa old, s.edgeAt ns kappa = some old ∧ sameLogicalEdge old edge = true ∧
      (s.edgePut prim ns edge).edges = s.edges.insert (dbKey ns kappa) (edge.canonical prim) ∧
      (s.edgePut prim ns edge).edgeRev = s.edgeRev) ∨
    ((s.edgePut prim ns edge).edges =
        s.edges.insert (dbKey ns (edge.kappa prim)) (edge.canonical prim) ∧
      (s.edgePut prim ns edge).edgeRev =
        s.edgeRev.add (dbKey ns edge.target) (edge.kappa prim)) := by
  -- storing the blob touches neither table
  rcases (s.blobPut (edge.kappa prim) (prim.edgeBytes edge)).edgeUpsert_cases prim ns edge with
    ⟨kappa, old, hold, hsame, hvalue, hmeta, heq⟩ | ⟨kappa, old, hold, hsame, heq⟩ | hinsert
  · refine .inl ⟨kappa, old, hold, hsame, hvalue, hmeta, ?_, ?_⟩ <;> rw [edgePut, heq] <;> rfl
  · refine .inr (.inl ⟨kappa, old, hold, hsame, ?_, ?_⟩) <;> rw [edgePut, heq] <;> rfl
  · exact .inr (.inr hinsert)

theorem edgePut_edges : (s.edgePut prim ns edge).edges = s.edges ∨ ∃ kappa,
    (s.edgePut prim ns edge).edges = s.edges.insert (dbKey ns kappa) (edge.canonical prim) := by
  rcases s.edgePut_cases prim ns edge with ⟨_, _, -, -, -, -, hedges, -⟩ | ⟨kappa, _, -, -, hedges, -⟩ |
    ⟨hedges, -⟩
  · exact .inl hedges
  · exact .inr ⟨kappa, hedges⟩
  · exact .inr ⟨_, hedges⟩

theorem edgePut_others : (s.edgePut prim ns edge).tags = s.tags ∧
      (s.edgePut prim ns edge).identitySuccessions = s.identitySuccessions := by
  unfold edgePut edgeUpsert
  cases (s.blobPut (edge.kappa prim) (prim.edgeBytes edge)).findLogical ns edge with
  | some kappa | none =>
    dsimp only
    split <;> exact ⟨rfl, rfl⟩

section

variable {s : PersistentStore}

theorem edgePut_row {ns key : String} {edge f : Edge}
    (h : (s.edgePut prim ns edge).edges[key]? = some f) :
    s.edges[key]? = some f ∨ f = edge.canonical prim ∧ ∃ kappa, key = dbKey ns kappa := by
  rcases s.edgePut_edges prim ns edge with hedges | ⟨kappa, hedges⟩
  · rw [hedges] at h
    exact .inl h
  · rw [hedges] at h
    rcases of_get_insert h with ⟨hkey, hnew⟩ | ⟨-, hold⟩
    · exact .inr ⟨hnew.symm, kappa, hkey.symm⟩
    · exact .inl hold

theorem edgePutBatch_row {ns key : String} {edges : List Edge} {f : Edge}
    (h : (s.edgePutBatch prim ns edges).edges[key]? = some f) :
    s.edges[key]? = some f ∨
      ∃ edge ∈ edges, key = dbKey ns (edge.kappa prim) ∧ f = edge.canonical prim := by
  induction edges generalizing s with
  | nil => exact .inl h
  | cons edge edges ih =>
    rcases ih h with hrow | ⟨e, he, heq⟩
    · change (s.edges.insert (dbKey ns (edge.kappa prim)) (edge.canonical prim))[key]? = some f at hrow
      rcases of_get_insert hrow with ⟨hkey, hnew⟩ | ⟨-, hold⟩
      · exact .inr ⟨edge, mem_cons_self, hkey.symm, hnew.symm⟩
      · exact .inl hold
    · exact .inr ⟨e, mem_cons_of_mem _ he, heq⟩

theorem edgeDelete_row {ns source target key : String} {relation : EdgeRelation}
    {f : Edge} (h : (s.edgeDelete ns source target relation).edges[key]? = some f) :
    s.edges[key]? = some f := by
  unfold edgeDelete at h
  dsimp only at h
  split at h
  · exact h
  · exact of_get_erase h

/-- A label that the index by target names after a put was named before, or is named under the
target of the edge that was put. -/
theorem edgePut_rev {ns key kappa : String} {edge : Edge}
    (h : kappa ∈ (s.edgePut prim ns edge).edgeRev.values key) :
    kappa ∈ s.edgeRev.values key ∨ key = dbKey ns edge.target := by
  rcases s.edgePut_cases prim ns edge with ⟨_, _, -, -, -, -, -, hrev⟩ | ⟨_, _, -, -, -, hrev⟩ |
    ⟨-, hrev⟩
  · exact .inl (hrev ▸ h)
  · exact .inl (hrev ▸ h)
  · rw [hrev, Multimap.mem_values_add] at h
    rcases h with ⟨hkey, -⟩ | hbefore
    · exact .inr hkey.symm
    · exact .inl hbefore

end

/-! ## The index by target -/

/-- The index by target names a Delegation row under its target only. -/
def RevListsTargets : Prop :=
  ∀ ns x kappa e, NulFree ns → kappa ∈ s.edgeRev.values (dbKey ns x) →
    s.edgeAt ns kappa = some e → e.relation = .delegation → e.target = x

theorem sameLogicalEdge_iff {a b : Edge} : sameLogicalEdge a b = true ↔
    a.source = b.source ∧ a.target = b.target ∧ a.relation = b.relation ∧
      a.asserter = b.asserter := by
  simp [sameLogicalEdge, and_assoc]

theorem RevListsTargets.edgePut {s : PersistentStore} (hs : s.RevListsTargets) {ns : String}
    (hns : NulFree ns) {edge : Edge}
    (hedge : edge.relation = .delegation → prim.nfc edge.target = edge.target ∧
      ∀ x, edge.kappa prim ∈ s.edgeRev.values (dbKey ns x) → x = edge.target) :
    (s.edgePut prim ns edge).RevListsTargets := by
  intro w x kappa e hw hlisted hrow hrel
  unfold edgeAt at hrow
  rcases s.edgePut_cases prim ns edge with ⟨_, _, -, -, -, -, hedges, hrev⟩ |
    ⟨k, old, hold, hsame, hedges, hrev⟩ | ⟨hedges, hrev⟩
  · rw [hedges] at hrow
    rw [hrev] at hlisted
    exact hs w x kappa e hw hlisted hrow hrel
  · rw [hrev] at hlisted
    rw [hedges] at hrow
    rcases of_get_insert hrow with ⟨hkey, rfl⟩ | ⟨-, hbefore⟩
    · -- the overwritten row keeps its target
      obtain ⟨rfl, rfl⟩ := (dbKey_inj hns hw).mp hkey
      obtain ⟨-, htarget, hrelation, -⟩ := sameLogicalEdge_iff.mp hsame
      have hx := hs ns x k old hns hlisted hold (hrelation.trans hrel)
      rw [← hx, htarget]
      exact (hedge hrel).1
    · exact hs w x kappa e hw hlisted hbefore hrel
  · rw [hrev, Multimap.mem_values_add] at hlisted
    rw [hedges] at hrow
    rcases of_get_insert hrow with ⟨hkey, rfl⟩ | ⟨hkey, hold⟩
    · obtain ⟨rfl, rfl⟩ := (dbKey_inj hns hw).mp hkey
      obtain ⟨hnfc, hfresh⟩ := hedge hrel
      show prim.nfc edge.target = x
      rw [hnfc]
      rcases hlisted with ⟨hkey', -⟩ | hbefore
      · exact ((dbKey_inj hns hns).mp hkey').2
      · exact (hfresh x hbefore).symm
    · rcases hlisted with ⟨hkey', rfl⟩ | hbefore
      · obtain ⟨rfl, -⟩ := (dbKey_inj hns hw).mp hkey'
        exact absurd rfl hkey
      · exact hs w x kappa e hw hbefore hold hrel

end PersistentStore

end KappaRegistry
