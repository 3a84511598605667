import KappaRegistry.Lib.Index
import KappaRegistry.Primitives.Distinct
import KappaRegistry.Store.Isolation

/-!
# The Edges of a Store as a Keyed Map

An edge stands for one fact: who asserts which relation between which two ends. A put of the same
fact replaces its value label and metadata, a deletion removes it (`EdgeMap`).

The store keeps an edge under the label of its first version. Later versions overwrite the row in
place, and four multimaps go on naming the row by that label. The invariant `EdgesIndexed` says what
makes this work: the indexes list exactly the rows, the label of a row is that of some edge with the
key of the row, so that a new edge finds its label free, and there is one row for each key.

**`edges_refine_map`**: every run refines the map, and queries and indexes show exactly its
entries, if the texts of the edges are in normal form. `edge_twice` is a run with a text that is
not: the row holds its normal form, so the next put of the same edge does not find it.
-/

namespace KappaRegistry

open Lib PersistentStore List

/-! ## Keys and values -/

/-- What an edge says, without its value. -/
abbrev EdgeKey := String × String × EdgeRelation × String

abbrev EdgeValue := Option String × Option Bytes

namespace Edge

def key (edge : Edge) : EdgeKey := (edge.source, edge.target, edge.relation, edge.asserter)

def value (edge : Edge) : EdgeValue := (edge.valueKappa, edge.metadata)

theorem eq_of_key_value {e e' : Edge} (hkey : e.key = e'.key) (hvalue : e.value = e'.value) :
    e = e' := by
  cases e
  cases e'
  simp only [key, value, Prod.mk.injEq] at hkey hvalue
  simp only [Edge.mk.injEq]
  exact ⟨hkey.1, hkey.2.1, hkey.2.2.1, hkey.2.2.2, hvalue.1, hvalue.2⟩

theorem key_eq_iff {e e' : Edge} : e.key = e'.key ↔ e.source = e'.source ∧ e.target = e'.target ∧
    e.relation = e'.relation ∧ e.asserter = e'.asserter := by
  simp [key]

end Edge

open Edge

/-- The end of an edge that a query's anchor is compared with. -/
def EdgeQuery.endOf (q : EdgeQuery) (edge : Edge) : String := q.direction.endOf edge

theorem sameLogicalEdge_iff_key {e e' : Edge} : sameLogicalEdge e e' = true ↔ e.key = e'.key := by
  rw [sameLogicalEdge_iff, key_eq_iff]

namespace PersistentStore

/-! ## The invariant -/

/-- An index of the edges by one of their fields. -/
abbrev EdgesBy := IndexedBy (R := Edge) dbKey NulFree

theorem dbKey_apart : KeysApart dbKey NulFree :=
  fun _ _ _ _ hp hp' heq => (dbKey_inj hp hp').mp heq

variable (prim : Primitives) (put : Set Edge)

/-- The edges that may be put: in normal form, and apart by their labels. -/
structure NormalEdges : Prop where
  canonical : ∀ {e : Edge}, e ∈ put → e.canonical prim = e
  apart : Set.InjOn (Edge.kappa prim) put

/-- The rows of edges and the two indexes that queries read. -/
structure EdgesListed (s : PersistentStore) : Prop where
  fwd : EdgesBy source s.edges s.edgeFwd
  rev : EdgesBy target s.edges s.edgeRev
  /-- The label of a row is the label of an edge with its key: the version first put. -/
  labelled : ∀ ns kappa e, NulFree ns → s.edgeAt ns kappa = some e →
    ∃ first ∈ put, first.kappa prim = kappa ∧ first.key = e.key

/-- Besides, there is one row for each key. -/
structure EdgesIndexed (s : PersistentStore) : Prop extends EdgesListed prim put s where
  once : ∀ ns kappa kappa' e e', NulFree ns → s.edgeAt ns kappa = some e →
    s.edgeAt ns kappa' = some e' → e.key = e'.key → kappa = kappa'

variable {prim put} {s : PersistentStore} {ns kappa source target : String} {relation : EdgeRelation}
  {edge e : Edge}

theorem edgesIndexed_new (encrypted : Bool) : (PersistentStore.new encrypted).EdgesIndexed prim put := by
  refine ⟨⟨.empty, .empty, ?_⟩, ?_⟩
  · intro ns kappa e _ hrow
    cases hrow
  · intro ns kappa kappa' e e' _ hrow
    cases hrow

variable {s' : PersistentStore} {ns' : String} {e' : Edge}

theorem EdgesListed.key_of_label (hfree : NormalEdges prim put) (h : s.EdgesListed prim put)
    (h' : s'.EdgesListed prim put) (hns : NulFree ns)
    (hns' : NulFree ns') (hrow : s.edgeAt ns kappa = some e) (hrow' : s'.edgeAt ns' kappa = some e') :
    e.key = e'.key := by
  obtain ⟨first, hput, hlabel, hkey⟩ := h.labelled ns kappa e hns hrow
  obtain ⟨first', hput', hlabel', hkey'⟩ := h'.labelled ns' kappa e' hns' hrow'
  rw [← hkey, ← hkey', hfree.apart hput hput' (hlabel.trans hlabel'.symm)]

/-! ## What a put finds -/

theorem EdgesListed.findLogical_none (h : s.EdgesListed prim put) (hns : NulFree ns)
    (hnone : s.findLogical ns edge = none) (hrow : s.edgeAt ns kappa = some e) : e.key ≠ edge.key := by
  intro hkey
  have hlisted : kappa ∈ s.edgeFwd.values (dbKey ns edge.source) :=
    (h.fwd ns edge.source kappa hns).mpr ⟨e, hrow, (key_eq_iff.mp hkey).1⟩
  refine absurd ?_ (find?_eq_none.mp hnone kappa hlisted)
  rw [hrow]
  exact sameLogicalEdge_iff_key.mpr hkey

section

variable (hfree : NormalEdges prim put) (h : s.EdgesListed prim put) (hns : NulFree ns)
  (hedge : edge ∈ put)
include hfree h hns hedge

theorem EdgesListed.key_of_kappa
    (hrow : s.edgeAt ns (edge.kappa prim) = some e) : e.key = edge.key := by
  obtain ⟨first, hfirst, hlabel, hkey⟩ := h.labelled ns _ e hns hrow
  rw [← hkey, hfree.apart hfirst hedge hlabel]

theorem EdgesListed.label_free (hfind : s.findLogical ns edge = none) :
    s.edgeAt ns (edge.kappa prim) = none := by
  cases hrow : s.edgeAt ns (edge.kappa prim) with
  | none => rfl
  | some e => exact absurd (h.key_of_kappa hfree hns hedge hrow) (h.findLogical_none hns hfind hrow)

end

/-- A put that finds the row of its key leaves the edge there, and nothing else of the tables
changes. -/
theorem edgePut_found (hcanon : edge.canonical prim = edge) (hfind : s.findLogical ns edge = some kappa) :
    s.edgePut prim ns edge =
      { s.blobPut (edge.kappa prim) (prim.edgeBytes edge) with
        edges := s.edges.insert (dbKey ns kappa) edge } := by
  obtain ⟨old, hold, hsame⟩ := findLogical_eq_some hfind
  have hfind' : (s.blobPut (edge.kappa prim) (prim.edgeBytes edge)).findLogical ns edge = some kappa :=
    hfind
  have hold' : (s.blobPut (edge.kappa prim) (prim.edgeBytes edge)).edgeAt ns kappa = some old := hold
  rw [edgePut, edgeUpsert, hfind']
  dsimp only
  rw [hold', hcanon, Option.any_some]
  by_cases hvalue : old.valueKappa = edge.valueKappa ∧ old.metadata = edge.metadata
  · -- the row is not written, and holds the edge already
    have heq : old = edge := eq_of_key_value (sameLogicalEdge_iff_key.mp hsame)
      (by rw [value, value, hvalue.1, hvalue.2])
    have hinsert : s.edges.insert (dbKey ns kappa) edge = s.edges := by
      refine Std.ExtTreeMap.ext_getElem? fun key => ?_
      rw [Table.get_insert]
      split_ifs with hkey
      · rw [← hkey, ← heq]
        exact hold.symm
      · rfl
    rw [if_pos (by simp [hvalue.1, hvalue.2]), hinsert]
    rfl
  · rw [if_neg (by simpa using hvalue)]
    rfl

theorem edgePut_new (hcanon : edge.canonical prim = edge) (hfind : s.findLogical ns edge = none) :
    s.edgePut prim ns edge =
      { s.blobPut (edge.kappa prim) (prim.edgeBytes edge) with
        edges := s.edges.insert (dbKey ns (edge.kappa prim)) edge
        edgeFwd := s.edgeFwd.add (dbKey ns edge.source) (edge.kappa prim)
        edgeRev := s.edgeRev.add (dbKey ns edge.target) (edge.kappa prim)
        assertionInbound :=
          if isInbound edge.relation then
            s.assertionInbound.add (dbKey edge.target edge.relation.asStr) (edge.kappa prim)
          else s.assertionInbound } := by
  have hfind' : (s.blobPut (edge.kappa prim) (prim.edgeBytes edge)).findLogical ns edge = none := hfind
  rw [edgePut, edgeUpsert, hfind']
  rw [edgeInsert, hcanon]
  by_cases hinbound : isInbound edge.relation = true
  · rw [if_pos hinbound, if_pos hinbound]
    rfl
  · rw [if_neg hinbound, if_neg hinbound]
    rfl

/-! ## What a deletion finds -/

theorem edgeToDelete_some (h : s.edgeToDelete ns source target relation = some (kappa, e)) :
    s.edgeAt ns kappa = some e ∧ e.source = source ∧ e.target = target ∧ e.relation = relation := by
  obtain ⟨kappa', -, hfound⟩ := exists_of_findSome?_eq_some h
  obtain ⟨e', he', heq⟩ := Option.map_eq_some_iff.mp hfound
  obtain ⟨hrow, hmatch⟩ := Option.filter_eq_some_iff.mp he'
  cases heq
  simp only [Bool.and_eq_true, beq_iff_eq] at hmatch
  exact ⟨hrow, hmatch.1.1, hmatch.1.2, hmatch.2⟩

theorem EdgesListed.edgeToDelete_none (h : s.EdgesListed prim put) (hns : NulFree ns)
    (hnone : s.edgeToDelete ns source target relation = none) (hrow : s.edgeAt ns kappa = some e) :
    ¬ (e.source = source ∧ e.target = target ∧ e.relation = relation) := by
  rintro ⟨rfl, rfl, rfl⟩
  have hlisted := (h.fwd ns e.source kappa hns).mpr ⟨e, hrow, rfl⟩
  have hfound := findSome?_eq_none_iff.mp hnone kappa hlisted
  rw [hrow] at hfound
  simp at hfound

theorem edgeDelete_found (h : s.edgeToDelete ns source target relation = some (kappa, e)) :
    s.edgeDelete ns source target relation =
      { s with
        edges := s.edges.erase (dbKey ns kappa)
        edgeFwd := s.edgeFwd.remove (dbKey ns e.source) kappa
        edgeRev := s.edgeRev.remove (dbKey ns e.target) kappa
        blobs := s.blobs.erase kappa } := by
  rw [edgeDelete_eq, h]

theorem edgeDelete_absent (h : s.edgeToDelete ns source target relation = none) :
    s.edgeDelete ns source target relation = s := by
  rw [edgeDelete_eq, h]

/-! ## The invariant under a put and a deletion -/

section

variable (hedges : s'.edges = s.edges.insert (dbKey ns kappa) edge) (hns : NulFree ns)
  {w k k' : String} (hw : NulFree w)
include hedges hns

theorem edgeAt_insert {ns' kappa' : String} (hns' : NulFree ns') :
    s'.edgeAt ns' kappa' = if ns = ns' ∧ kappa = kappa' then some edge else s.edgeAt ns' kappa' := by
  rw [edgeAt, hedges, Table.get_insert]
  simp only [dbKey_inj hns hns']
  rfl

include hw

theorem of_edgeAt_insert (hrow : s'.edgeAt w k = some e) :
    (ns = w ∧ kappa = k ∧ edge = e) ∨ s.edgeAt w k = some e := by
  rw [edgeAt_insert hedges hns hw] at hrow
  split_ifs at hrow with hk
  · exact .inl ⟨hk.1, hk.2, Option.some.inj hrow⟩
  · exact .inr hrow

theorem EdgesListed.labelled_insert (h : s.EdgesListed prim put)
    (hlabel : ∃ first ∈ put, first.kappa prim = kappa ∧ first.key = edge.key)
    (hrow : s'.edgeAt w k = some e) : ∃ first ∈ put, first.kappa prim = k ∧ first.key = e.key := by
  rcases of_edgeAt_insert hedges hns hw hrow with ⟨-, rfl, rfl⟩ | hold
  · exact hlabel
  · exact h.labelled w k e hw hold

theorem EdgesIndexed.once_insert (h : s.EdgesIndexed prim put)
    (hother : ∀ kappa' e', s.edgeAt ns kappa' = some e' → e'.key = edge.key → kappa' = kappa)
    (hrow : s'.edgeAt w k = some e) (hrow' : s'.edgeAt w k' = some e') (hkey : e.key = e'.key) :
    k = k' := by
  rcases of_edgeAt_insert hedges hns hw hrow with ⟨rfl, rfl, rfl⟩ | hold <;>
    rcases of_edgeAt_insert hedges hns hw hrow' with ⟨hn, rfl, rfl⟩ | hold'
  · rfl
  · exact (hother k' e' hold' hkey.symm).symm
  · exact hother k e (hn ▸ hold) hkey
  · exact h.once w k k' e e' hw hold hold' hkey

end

theorem edgeAt_erase (hedges : s'.edges = s.edges.erase (dbKey ns kappa))
    (hns : NulFree ns) {ns' kappa' : String} (hns' : NulFree ns') :
    s'.edgeAt ns' kappa' = if ns = ns' ∧ kappa = kappa' then none else s.edgeAt ns' kappa' := by
  rw [edgeAt, hedges, Table.get_erase]
  simp only [dbKey_inj hns hns']
  rfl

theorem EdgesListed.edgePut (hfree : NormalEdges prim put) (h : s.EdgesListed prim put)
    (hns : NulFree ns) (hedge : edge ∈ put) :
    (s.edgePut prim ns edge).EdgesListed prim put := by
  cases hfind : s.findLogical ns edge with
  | some kappa =>
    obtain ⟨old, hold, hsame⟩ := findLogical_eq_some hfind
    have hkey := sameLogicalEdge_iff_key.mp hsame
    obtain ⟨hsource, htarget, -, -⟩ := key_eq_iff.mp hkey
    obtain ⟨first, hfirst, hlabel, hfirstKey⟩ := h.labelled ns kappa old hns hold
    rw [edgePut_found (hfree.canonical hedge) hfind]
    refine ⟨h.fwd.replace dbKey_apart hns hold hsource, h.rev.replace dbKey_apart hns hold htarget, ?_⟩
    intro w k e hw hrow
    exact h.labelled_insert rfl hns hw ⟨first, hfirst, hlabel, hfirstKey.trans hkey⟩ hrow
  | none =>
    have hnew := h.label_free hfree hns hedge hfind
    rw [edgePut_new (hfree.canonical hedge) hfind]
    refine ⟨h.fwd.insert dbKey_apart hns hnew, h.rev.insert dbKey_apart hns hnew, ?_⟩
    intro w k e hw hrow
    exact h.labelled_insert rfl hns hw ⟨edge, hedge, rfl, rfl⟩ hrow

theorem EdgesIndexed.edgePut (hfree : NormalEdges prim put) (h : s.EdgesIndexed prim put)
    (hns : NulFree ns) (hedge : edge ∈ put) :
    (s.edgePut prim ns edge).EdgesIndexed prim put := by
  refine ⟨h.toEdgesListed.edgePut hfree hns hedge, ?_⟩
  intro w k k' e e' hw hrow hrow' hkey
  cases hfind : s.findLogical ns edge with
  | some kappa =>
    obtain ⟨old, hold, hsame⟩ := findLogical_eq_some hfind
    refine h.once_insert (by rw [edgePut_found (hfree.canonical hedge) hfind]) hns hw ?_ hrow hrow' hkey
    intro kappa' f hf hfkey
    exact h.once ns kappa' kappa f old hns hf hold (hfkey.trans (sameLogicalEdge_iff_key.mp hsame).symm)
  | none =>
    refine h.once_insert (by rw [edgePut_new (hfree.canonical hedge) hfind]) hns hw ?_ hrow hrow' hkey
    intro kappa' f hf hfkey
    exact absurd hfkey (h.findLogical_none hns hfind hf)

theorem EdgesListed.edgeDelete (h : s.EdgesListed prim put) (hns : NulFree ns) :
    (s.edgeDelete ns source target relation).EdgesListed prim put := by
  cases hfound : s.edgeToDelete ns source target relation with
  | none =>
    rwa [edgeDelete_absent hfound]
  | some found =>
    obtain ⟨hrow, -, -, -⟩ := edgeToDelete_some hfound
    refine ⟨?_, ?_, ?_⟩
    · rw [edgeDelete_found hfound]
      exact h.fwd.erase dbKey_apart hns hrow
    · rw [edgeDelete_found hfound]
      exact h.rev.erase dbKey_apart hns hrow
    · intro w k e hw hk
      exact h.labelled w k e hw (edgeDelete_row hk)

theorem EdgesIndexed.edgeDelete (h : s.EdgesIndexed prim put) (hns : NulFree ns) :
    (s.edgeDelete ns source target relation).EdgesIndexed prim put := by
  refine ⟨h.toEdgesListed.edgeDelete hns, ?_⟩
  intro w k k' e e' hw hk hk'
  exact h.once w k k' e e' hw (edgeDelete_row hk) (edgeDelete_row hk')

/-! ## Queries -/

theorem EdgesListed.edgeQuery_eq (h : s.EdgesListed prim put) (hns : NulFree ns) (q : EdgeQuery) :
    ∃ labels : List String, s.edgeQuery ns q = .ok ((labels.filterMap (s.edgeAt ns)).filter q.admits) ∧
      labels.Nodup ∧ ∀ kappa, kappa ∈ labels ↔ ∃ e, s.edgeAt ns kappa = some e ∧ q.endOf e = q.anchor := by
  cases q with
  | mk anchor direction relation asserter =>
    cases direction with
    | outbound =>
      exact ⟨_, rfl, Multimap.nodup_values _ _, fun kappa => h.fwd ns anchor kappa hns⟩
    | inbound =>
      exact ⟨_, rfl, Multimap.nodup_values _ _, fun kappa => h.rev ns anchor kappa hns⟩

variable {q : EdgeQuery} {es : List Edge}

theorem EdgesListed.mem_edgeQuery (h : s.EdgesListed prim put) (hns : NulFree ns)
    (hes : s.edgeQuery ns q = .ok es) :
    e ∈ es ↔ (∃ kappa, s.edgeAt ns kappa = some e) ∧ q.endOf e = q.anchor ∧ q.admits e = true := by
  obtain ⟨labels, hquery, -, hlabels⟩ := h.edgeQuery_eq hns q
  rw [hquery] at hes
  cases hes
  rw [mem_filter, mem_filterMap]
  constructor
  · rintro ⟨⟨kappa, hlisted, hrow⟩, hadmits⟩
    obtain ⟨e', hrow', hend⟩ := (hlabels kappa).mp hlisted
    rw [hrow] at hrow'
    cases hrow'
    exact ⟨⟨kappa, hrow⟩, hend, hadmits⟩
  · rintro ⟨⟨kappa, hrow⟩, hend, hadmits⟩
    exact ⟨⟨kappa, (hlabels kappa).mpr ⟨e, hrow, hend⟩, hrow⟩, hadmits⟩

theorem EdgesIndexed.nodup_edgeQuery (h : s.EdgesIndexed prim put) (hns : NulFree ns)
    (hes : s.edgeQuery ns q = .ok es) : es.Nodup := by
  obtain ⟨labels, hquery, hnodup, -⟩ := h.edgeQuery_eq hns q
  rw [hquery] at hes
  cases hes
  refine List.Nodup.filter _ (hnodup.filterMap ?_)
  intro kappa kappa' e hrow hrow'
  exact h.once ns kappa kappa' e e hns hrow hrow' rfl

end PersistentStore

/-! ## The map -/

/-- The live edges: for each namespace and key, the value, if there is one. -/
abbrev EdgeMap := String → EdgeKey → Option EdgeValue

inductive EdgeRequest where
  | put (ns : String) (edge : Edge)
  | delete (ns source target : String) (relation : EdgeRelation)

namespace EdgeMap

def empty : EdgeMap := fun _ _ => none

def set (m : EdgeMap) (ns : String) (key : EdgeKey) (value : Option EdgeValue) : EdgeMap :=
  fun ns' key' => if ns = ns' ∧ key = key' then value else m ns' key'

/-- What a request may do to the map. A deletion does not name the asserter: it takes one of the
edges with its ends and relation, whoever asserts it, and does nothing only if there is none. -/
inductive Step : EdgeMap → EdgeRequest → EdgeMap → Prop
  | put (m : EdgeMap) (ns : String) (edge : Edge) :
    Step m (.put ns edge) (m.set ns edge.key (some edge.value))
  | delete {m : EdgeMap} {ns source target : String} {relation : EdgeRelation} {asserter : String}
      (h : (m ns (source, target, relation, asserter)).isSome) :
    Step m (.delete ns source target relation) (m.set ns (source, target, relation, asserter) none)
  | absent {m : EdgeMap} {ns source target : String} {relation : EdgeRelation}
      (h : ∀ asserter, m ns (source, target, relation, asserter) = none) :
    Step m (.delete ns source target relation) m

inductive Runs : EdgeMap → List EdgeRequest → EdgeMap → Prop
  | nil (m : EdgeMap) : Runs m [] m
  | cons {m m' m'' : EdgeMap} {req : EdgeRequest} {reqs : List EdgeRequest} (hstep : Step m req m')
      (hruns : Runs m' reqs m'') : Runs m (req :: reqs) m''

/-- The rows of a store are the entries of the map. -/
def Represents (s : PersistentStore) (m : EdgeMap) : Prop :=
  ∀ ns e, NulFree ns → ((∃ kappa, s.edgeAt ns kappa = some e) ↔ m ns e.key = some e.value)

variable {prim : Primitives} {put : Set Edge} {s : PersistentStore} {m : EdgeMap} {ns : String} {edge : Edge}
  {kappa : String} {s' : PersistentStore}

theorem Represents.insert (hm : Represents s m)
    (hedges : s'.edges = s.edges.insert (dbKey ns kappa) edge) (hns : NulFree ns)
    (hother : ∀ kappa' e', s.edgeAt ns kappa' = some e' → e'.key = edge.key → kappa' = kappa)
    (hbefore : ∀ old, s.edgeAt ns kappa = some old → old.key = edge.key) :
    Represents s' (m.set ns edge.key (some edge.value)) := by
  intro w e hw
  unfold set
  by_cases hcase : ns = w ∧ edge.key = e.key
  · obtain ⟨rfl, hkey⟩ := hcase
    rw [if_pos ⟨rfl, hkey⟩]
    constructor
    · rintro ⟨kappa', hrow⟩
      rw [edgeAt_insert hedges hns hns] at hrow
      split_ifs at hrow with hne
      · cases hrow
        rfl
      · exact absurd ⟨rfl, (hother kappa' e hrow hkey.symm).symm⟩ hne
    · intro hvalue
      refine ⟨kappa, ?_⟩
      rw [edgeAt_insert hedges hns hns, if_pos ⟨rfl, rfl⟩,
        eq_of_key_value hkey (Option.some.inj hvalue)]
  · rw [if_neg hcase, ← hm w e hw]
    -- the written row is not the row of this edge, before or after
    have hsame : ∀ kappa', s'.edgeAt w kappa' = some e ↔ s.edgeAt w kappa' = some e := by
      intro kappa'
      rw [edgeAt_insert hedges hns hw]
      split_ifs with hk
      · obtain ⟨rfl, rfl⟩ := hk
        constructor
        · intro hrow
          exact absurd ⟨rfl, congrArg key (Option.some.inj hrow)⟩ hcase
        · intro hrow
          exact absurd ⟨rfl, (hbefore e hrow).symm⟩ hcase
      · exact Iff.rfl
    exact exists_congr hsame

theorem Represents.erase (hm : Represents s m)
    (hedges : s'.edges = s.edges.erase (dbKey ns kappa)) (hns : NulFree ns)
    (hrow : s.edgeAt ns kappa = some edge)
    (hother : ∀ kappa' e', s.edgeAt ns kappa' = some e' → e'.key = edge.key → kappa' = kappa) :
    Represents s' (m.set ns edge.key none) := by
  intro w e hw
  unfold set
  by_cases hcase : ns = w ∧ edge.key = e.key
  · obtain ⟨rfl, hkey⟩ := hcase
    rw [if_pos ⟨rfl, hkey⟩]
    refine ⟨?_, nofun⟩
    rintro ⟨kappa', hrow'⟩
    rw [edgeAt_erase hedges hns hns] at hrow'
    split at hrow'
    · cases hrow'
    · rename_i hne
      exact absurd ⟨rfl, (hother kappa' e hrow' hkey.symm).symm⟩ hne
  · rw [if_neg hcase, ← hm w e hw]
    have hsame : ∀ kappa', s'.edgeAt w kappa' = some e ↔ s.edgeAt w kappa' = some e := by
      intro kappa'
      rw [edgeAt_erase hedges hns hw]
      split_ifs with hk
      · obtain ⟨rfl, rfl⟩ := hk
        refine ⟨nofun, ?_⟩
        intro hrow'
        rw [hrow] at hrow'
        exact absurd ⟨rfl, congrArg key (Option.some.inj hrow')⟩ hcase
      · exact Iff.rfl
    exact exists_congr hsame

theorem Represents.edgePut (hfree : NormalEdges prim put) (h : s.EdgesIndexed prim put)
    (hm : Represents s m) (hns : NulFree ns) (hedge : edge ∈ put) :
    Represents (s.edgePut prim ns edge) (m.set ns edge.key (some edge.value)) := by
  cases hfind : s.findLogical ns edge with
  | some kappa =>
    obtain ⟨old, hold, hsame⟩ := findLogical_eq_some hfind
    have hkey := sameLogicalEdge_iff_key.mp hsame
    refine hm.insert (by rw [edgePut_found (hfree.canonical hedge) hfind]) hns ?_ ?_
    · intro kappa' e' hrow hkey'
      exact h.once ns kappa' kappa e' old hns hrow hold (hkey'.trans hkey.symm)
    · intro old' hold'
      rw [hold] at hold'
      cases hold'
      exact hkey
  | none =>
    refine hm.insert (by rw [edgePut_new (hfree.canonical hedge) hfind]) hns ?_ ?_
    · intro kappa' e' hrow hkey'
      exact absurd hkey' (h.findLogical_none hns hfind hrow)
    · intro old hold
      simp [h.label_free hfree hns hedge hfind] at hold

theorem Represents.edgeDelete (h : s.EdgesIndexed prim put) (hm : Represents s m) (hns : NulFree ns)
    (source target : String) (relation : EdgeRelation) :
    ∃ m', Step m (.delete ns source target relation) m' ∧
      Represents (s.edgeDelete ns source target relation) m' := by
  cases hfound : s.edgeToDelete ns source target relation with
  | none =>
    rw [edgeDelete_absent hfound]
    refine ⟨m, .absent ?_, hm⟩
    intro asserter
    cases hentry : m ns (source, target, relation, asserter) with
    | none => rfl
    | some value =>
      obtain ⟨kappa, hrow⟩ :=
        (hm ns ⟨source, target, relation, asserter, value.1, value.2⟩ hns).mpr hentry
      exact absurd ⟨rfl, rfl, rfl⟩ (h.edgeToDelete_none hns hfound hrow)
  | some found =>
    obtain ⟨kappa, e⟩ := found
    obtain ⟨hrow, rfl, rfl, rfl⟩ := edgeToDelete_some hfound
    refine ⟨m.set ns e.key none, ?_, ?_⟩
    · refine .delete ?_
      rw [show (e.source, e.target, e.relation, e.asserter) = e.key from rfl,
        (hm ns e hns).mp ⟨kappa, hrow⟩]
      rfl
    · refine hm.erase (by rw [edgeDelete_found hfound]) hns hrow ?_
      intro kappa' e' hrow' hkey
      exact h.once ns kappa' kappa e' e hns hrow' hrow hkey

end EdgeMap

/-! ## Runs of the store -/

/-- The store with the indexes of edges by relation and by asserter, which no query reads. -/
structure EdgeStore where
  store : PersistentStore
  edgeRel : Multimap String String
  edgeAsr : Multimap String String

namespace EdgeStore

def new (encrypted : Bool) : EdgeStore := ⟨.new encrypted, ∅, ∅⟩

/-- `edge_put`: only a new row is entered in the indexes. -/
def edgePut (prim : Primitives) (s : EdgeStore) (ns : String) (edge : Edge) : EdgeStore :=
  match s.store.findLogical ns edge with
  | some _ => { s with store := s.store.edgePut prim ns edge }
  | none =>
    { store := s.store.edgePut prim ns edge
      edgeRel := s.edgeRel.add (dbKey ns edge.relation.asStr) (edge.kappa prim)
      edgeAsr := s.edgeAsr.add (dbKey ns edge.asserter) (edge.kappa prim) }

def edgeDelete (s : EdgeStore) (ns source target : String) (relation : EdgeRelation) : EdgeStore :=
  match s.store.edgeToDelete ns source target relation with
  | none => s
  | some (kappa, edge) =>
    { store := s.store.edgeDelete ns source target relation
      edgeRel := s.edgeRel.remove (dbKey ns edge.relation.asStr) kappa
      edgeAsr := s.edgeAsr.remove (dbKey ns edge.asserter) kappa }

variable (prim : Primitives)

def step (s : EdgeStore) : EdgeRequest → EdgeStore
  | .put ns edge => s.edgePut prim ns edge
  | .delete ns source target relation => s.edgeDelete ns source target relation

def run (s : EdgeStore) (reqs : List EdgeRequest) : EdgeStore := reqs.foldl (step prim) s

/-- A request with a namespace name without NUL, and one of the edges that may be put. -/
def Normal (put : Set Edge) : EdgeRequest → Prop
  | .put ns edge => NulFree ns ∧ edge ∈ put
  | .delete ns _ _ _ => NulFree ns

/-- The rows and all four indexes. -/
structure Indexed (put : Set Edge) (s : EdgeStore) : Prop where
  store : s.store.EdgesIndexed prim put
  rel : EdgesBy (fun edge => edge.relation.asStr) s.store.edges s.edgeRel
  asr : EdgesBy asserter s.store.edges s.edgeAsr

/-- The store shows exactly the entries of the map: in its rows, in every query and in every
index, and it has one row for each key. -/
structure Shows (s : EdgeStore) (m : EdgeMap) : Prop where
  live : EdgeMap.Represents s.store m
  once : ∀ ns kappa kappa' e e', NulFree ns → s.store.edgeAt ns kappa = some e →
    s.store.edgeAt ns kappa' = some e' → e.key = e'.key → kappa = kappa'
  query : ∀ ns q, NulFree ns → ∃ es, s.store.edgeQuery ns q = .ok es ∧ es.Nodup ∧
    ∀ e, e ∈ es ↔ m ns e.key = some e.value ∧ q.endOf e = q.anchor ∧ q.admits e = true
  fwd : EdgesBy source s.store.edges s.store.edgeFwd
  rev : EdgesBy target s.store.edges s.store.edgeRev
  rel : EdgesBy (fun edge => edge.relation.asStr) s.store.edges s.edgeRel
  asr : EdgesBy asserter s.store.edges s.edgeAsr

variable {prim} {put : Set Edge} {s : EdgeStore} {m : EdgeMap}

theorem represents_new (encrypted : Bool) : EdgeMap.Represents (new encrypted).store .empty := by
  intro ns e _
  refine ⟨?_, nofun⟩
  rintro ⟨kappa, hrow⟩
  cases hrow

theorem Indexed.shows (h : s.Indexed prim put) (hm : EdgeMap.Represents s.store m) : s.Shows m where
  live := hm
  once := h.store.once
  query := by
    intro ns q hns
    refine ⟨_, rfl, h.store.nodup_edgeQuery hns rfl, fun e => ?_⟩
    rw [h.store.mem_edgeQuery hns rfl, hm ns e hns]
  fwd := h.store.fwd
  rev := h.store.rev
  rel := h.rel
  asr := h.asr

variable {ns : String}

theorem Indexed.edgePut (hfree : NormalEdges prim put) (h : s.Indexed prim put) (hns : NulFree ns)
    {edge : Edge} (hedge : edge ∈ put) :
    (s.edgePut prim ns edge).Indexed prim put := by
  have hstore := h.store.edgePut hfree hns hedge
  unfold EdgeStore.edgePut
  cases hfind : s.store.findLogical ns edge with
  | some kappa =>
    obtain ⟨old, hold, hsame⟩ := findLogical_eq_some hfind
    obtain ⟨-, -, hrel, hasr⟩ := sameLogicalEdge_iff.mp hsame
    refine ⟨hstore, ?_, ?_⟩
    · dsimp only
      rw [edgePut_found (hfree.canonical hedge) hfind]
      exact h.rel.replace dbKey_apart hns hold (congrArg EdgeRelation.asStr hrel)
    · dsimp only
      rw [edgePut_found (hfree.canonical hedge) hfind]
      exact h.asr.replace dbKey_apart hns hold hasr
  | none =>
    have hnew := h.store.label_free hfree hns hedge hfind
    refine ⟨hstore, ?_, ?_⟩
    · dsimp only
      rw [edgePut_new (hfree.canonical hedge) hfind]
      exact h.rel.insert dbKey_apart hns hnew
    · dsimp only
      rw [edgePut_new (hfree.canonical hedge) hfind]
      exact h.asr.insert dbKey_apart hns hnew

theorem Indexed.edgeDelete (h : s.Indexed prim put) (hns : NulFree ns)
    (source target : String) (relation : EdgeRelation) :
    (s.edgeDelete ns source target relation).Indexed prim put := by
  have hstore : (s.store.edgeDelete ns source target relation).EdgesIndexed prim put := h.store.edgeDelete hns
  unfold EdgeStore.edgeDelete
  cases hfound : s.store.edgeToDelete ns source target relation with
  | none => exact h
  | some found =>
    obtain ⟨hrow, -, -, -⟩ := edgeToDelete_some hfound
    refine ⟨hstore, ?_, ?_⟩
    · dsimp only
      rw [edgeDelete_found hfound]
      exact h.rel.erase dbKey_apart hns hrow
    · dsimp only
      rw [edgeDelete_found hfound]
      exact h.asr.erase dbKey_apart hns hrow

theorem store_edgePut (ns : String) (edge : Edge) :
    (s.edgePut prim ns edge).store = s.store.edgePut prim ns edge := by
  unfold EdgeStore.edgePut
  cases s.store.findLogical ns edge with
  | some kappa | none => rfl

theorem store_edgeDelete (ns source target : String) (relation : EdgeRelation) :
    (s.edgeDelete ns source target relation).store = s.store.edgeDelete ns source target relation := by
  unfold EdgeStore.edgeDelete
  cases hfound : s.store.edgeToDelete ns source target relation with
  | some found => rfl
  | none => exact (edgeDelete_absent hfound).symm

theorem step_refines (hfree : NormalEdges prim put) (h : s.Indexed prim put)
    (hm : EdgeMap.Represents s.store m) {req : EdgeRequest} (hreq : Normal put req) :
    (s.step prim req).Indexed prim put ∧
      ∃ m', EdgeMap.Step m req m' ∧ EdgeMap.Represents (s.step prim req).store m' := by
  cases req with
  | put ns edge =>
    refine ⟨h.edgePut hfree hreq.1 hreq.2, _, .put m ns edge, ?_⟩
    show EdgeMap.Represents (s.edgePut prim ns edge).store _
    rw [store_edgePut]
    exact hm.edgePut hfree h.store hreq.1 hreq.2
  | delete ns source target relation =>
    refine ⟨h.edgeDelete hreq source target relation, ?_⟩
    show ∃ m', _ ∧ EdgeMap.Represents (s.edgeDelete ns source target relation).store m'
    rw [store_edgeDelete]
    exact hm.edgeDelete h.store hreq source target relation

theorem run_refines (hfree : NormalEdges prim put) {reqs : List EdgeRequest}
    (hreqs : ∀ req ∈ reqs, Normal put req) (h : s.Indexed prim put)
    (hm : EdgeMap.Represents s.store m) :
    (s.run prim reqs).Indexed prim put ∧
      ∃ m', EdgeMap.Runs m reqs m' ∧ EdgeMap.Represents (s.run prim reqs).store m' := by
  induction reqs generalizing s m with
  | nil => exact ⟨h, m, .nil m, hm⟩
  | cons req reqs ih =>
    obtain ⟨hstep, m', hmstep, hm'⟩ := step_refines hfree h hm (hreqs req mem_cons_self)
    obtain ⟨hrun, m'', hruns, hm''⟩ :=
      ih (fun r hr => hreqs r (mem_cons_of_mem _ hr)) hstep hm'
    exact ⟨hrun, m'', .cons hmstep hruns, hm''⟩

/-- **The edge store refines a keyed map.** -/
theorem edges_refine_map (prim : Primitives) (put : Set Edge) (hfree : NormalEdges prim put) (encrypted : Bool)
    (reqs : List EdgeRequest) (hreqs : ∀ req ∈ reqs, Normal put req) :
    ∃ m, EdgeMap.Runs .empty reqs m ∧ ((new encrypted).run prim reqs).Shows m := by
  obtain ⟨hindexed, m, hruns, hm⟩ := run_refines hfree hreqs ⟨edgesIndexed_new encrypted, .empty, .empty⟩
    (represents_new encrypted)
  exact ⟨m, hruns, hindexed.shows hm⟩

theorem normalEdges_distinct : NormalEdges (.distinct id) Set.univ := by
  refine ⟨fun _ => canonical_distinct_id _, ?_⟩
  intro e _ e' _ hlabel
  simpa only [canonical_distinct_id] using canonical_eq_of_kappa_distinct id e e' hlabel

/-- An edge is put, put again with a value, and deleted. -/
def putUpdateDelete : List EdgeRequest :=
  [.put "n" ⟨"a", "b", .assertion, "me", none, none⟩, .put "n" ⟨"a", "b", .assertion, "me", some "v", none⟩,
    .delete "n" "a" "b" .assertion]

theorem edges_refine_map_once : ∃ m, EdgeMap.Runs .empty putUpdateDelete m ∧
    ((new false).run (.distinct id) putUpdateDelete).Shows m := by
  refine edges_refine_map (.distinct id) Set.univ normalEdges_distinct false putUpdateDelete ?_
  intro req hreq
  simp only [putUpdateDelete, List.mem_cons, List.not_mem_nil, or_false] at hreq
  rcases hreq with rfl | rfl | rfl
  · exact ⟨by decide, trivial⟩
  · exact ⟨by decide, trivial⟩
  · show NulFree "n"
    decide

def composeAccent (text : String) : String := if text = "e\u0301" then "\u00e9" else text

/-- One edge is put twice, with two values, and its source is not in normal form. -/
def accentTwice : List EdgeRequest :=
  [.put "n" ⟨"e\u0301", "b", .owns, "me", none, none⟩, .put "n" ⟨"e\u0301", "b", .owns, "me", some "v", none⟩]

def accentLabel (value : Option String) : String :=
  kappa (.distinct composeAccent) ⟨"e\u0301", "b", .owns, "me", value, none⟩

/-- The second put does not find the row of the first, and there are two live edges of one key. -/
theorem edge_twice :
    (∀ e e' : Edge, e.kappa (.distinct composeAccent) = e'.kappa (.distinct composeAccent) →
      e.canonical (.distinct composeAccent) = e'.canonical (.distinct composeAccent)) ∧
    ¬ ∃ m, EdgeMap.Runs .empty accentTwice m ∧
      ((new false).run (.distinct composeAccent) accentTwice).Shows m := by
  refine ⟨canonical_eq_of_kappa_distinct composeAccent, ?_⟩
  rintro ⟨m, -, hshows⟩
  have hfirst : ((new false).run (.distinct composeAccent) accentTwice).store.edgeAt "n"
      (accentLabel none) = some ⟨"\u00e9", "b", .owns, "me", none, none⟩ := by decide +kernel
  have hsecond : ((new false).run (.distinct composeAccent) accentTwice).store.edgeAt "n"
      (accentLabel (some "v")) = some ⟨"\u00e9", "b", .owns, "me", some "v", none⟩ := by decide +kernel
  have hlabels := hshows.once "n" _ _ _ _ (by decide) hfirst hsecond rfl
  exact absurd hlabels (by decide +kernel)

end EdgeStore

end KappaRegistry
