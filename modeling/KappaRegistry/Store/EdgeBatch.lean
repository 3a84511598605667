import KappaRegistry.Store.InboundIndex
import Mathlib.Data.List.Perm.Subperm

/-!
# Batches of Edges

`edge_put_batch` is documented as a loop of `edge_put` in one transaction. It writes every edge
under its own label, does not look for a row of the same key, and does not enter the edge in the index
of inbound assertions.

A put writes to the row it finds for the key, the first one listed, or makes one under the edge's label
(`batchHome`); the row then holds the last edge of the key. The two stores answer queries alike exactly
if they have the same rows, because every label that is live after the puts is live after the batch
(`edgeQuery_eq_iff`). **`edgePutBatch_agrees_iff`** compares the two row by row.
-/

namespace KappaRegistry

open Lib List Option Multimap

theorem Lib.map_some_filterMap {α β : Type} {f : α → Option β} {xs : List α}
    (hf : ∀ x ∈ xs, (f x).isSome) : (xs.filterMap f).map some = xs.map f := by
  rw [map_filterMap_some_eq_filter_map_isSome, filter_eq_self]
  simpa using hf

namespace PersistentStore

variable (prim : Primitives)

/-- `edge_put` for each edge in order. -/
def edgePutEach (s : PersistentStore) (ns : String) (edges : List Edge) : PersistentStore :=
  edges.foldl (fun s edge => s.edgePut prim ns edge) s

/-- Two stores answer every query for edges and for inbound assertions alike. -/
def SameAnswers (s s' : PersistentStore) : Prop :=
  (∀ ns q, NulFree ns → s.edgeQuery ns q = s'.edgeQuery ns q) ∧
    ∀ key, s.assertionInbound.values key = s'.assertionInbound.values key

def lastWith (edges : List Edge) (key : EdgeKey) : Option Edge :=
  edges.reverse.find? fun edge => edge.key == key

/-- The row that the puts of a list of edges use for the key of an edge. -/
def batchHome (s : PersistentStore) (ns : String) (edges : List Edge) (edge : Edge) : String :=
  (s.findLogical ns edge).getD (((edges.find? fun f => f.key == edge.key).getD edge).kappa prim)

variable {prim} {put : Set Edge} {s : PersistentStore} {ns kappa : String} {edge e x : Edge} {edges : List Edge}

/-! ## The row a put finds -/

theorem findLogical_congr (hkey : e.key = x.key) : s.findLogical ns e = s.findLogical ns x := by
  have hsame : (fun kappa => (s.edgeAt ns kappa).any fun existing => sameLogicalEdge existing e) =
      fun kappa => (s.edgeAt ns kappa).any fun existing => sameLogicalEdge existing x := by
    funext kappa
    cases s.edgeAt ns kappa with
    | none => rfl
    | some old => rw [any_some, any_some, Bool.eq_iff_iff, sameLogicalEdge_iff_key,
        sameLogicalEdge_iff_key, hkey]
  rw [findLogical, findLogical, hsame, (Edge.key_eq_iff.mp hkey).1]

theorem EdgesListed.findLogical_iff (h : s.EdgesListed prim put) (hns : NulFree ns) :
    s.findLogical ns edge = some kappa ↔
      (∃ old, s.edgeAt ns kappa = some old ∧ old.key = edge.key) ∧
        ∀ k old, s.edgeAt ns k = some old → old.key = edge.key → compare k kappa ≠ .lt := by
  have hmatch : ∀ k, ((s.edgeAt ns k).any fun existing => sameLogicalEdge existing edge) = true ↔
      ∃ old, s.edgeAt ns k = some old ∧ old.key = edge.key := by
    intro k
    rw [Option.any_eq_true]
    exact exists_congr fun old => and_congr_right fun _ => sameLogicalEdge_iff_key
  have hlisted : ∀ k old, s.edgeAt ns k = some old → old.key = edge.key →
      k ∈ s.edgeFwd.values (dbKey ns edge.source) :=
    fun k old hold hkey => (h.fwd ns edge.source k hns).mpr ⟨old, hold, (Edge.key_eq_iff.mp hkey).1⟩
  rw [findLogical, find?_values_eq_some, hmatch]
  constructor
  · rintro ⟨-, hrow, hmin⟩
    exact ⟨hrow, fun k old hold hkey => hmin k (hlisted k old hold hkey) ((hmatch k).mpr ⟨old, hold, hkey⟩)⟩
  · rintro ⟨⟨old, hold, hkey⟩, hmin⟩
    refine ⟨hlisted kappa old hold hkey, ⟨old, hold, hkey⟩, ?_⟩
    intro k _ hk
    obtain ⟨old', hold', hkey'⟩ := (hmatch k).mp hk
    exact hmin k old' hold' hkey'

theorem edgeAt_edgePut (hns : NulFree ns) (hcanon : edge.canonical prim = edge) {w k : String}
    (hw : NulFree w) : (s.edgePut prim ns edge).edgeAt w k =
      if ns = w ∧ (s.findLogical ns edge).getD (edge.kappa prim) = k then some edge
      else s.edgeAt w k := by
  refine edgeAt_insert ?_ hns hw
  cases hfind : s.findLogical ns edge with
  | some kappa =>
    rw [edgePut_found hcanon hfind]
    rfl
  | none =>
    rw [edgePut_new hcanon hfind]
    rfl

theorem EdgesListed.findLogical_edgePut (hfree : NormalEdges prim put) (h : s.EdgesListed prim put)
    (hns : NulFree ns) (hedge : edge ∈ put) :
    (s.edgePut prim ns edge).findLogical ns x =
      if x.key = edge.key then some ((s.findLogical ns edge).getD (edge.kappa prim))
      else s.findLogical ns x := by
  have hput := h.edgePut hfree hns hedge
  -- the row written to had the key before, or was free
  have hhome : ∀ old, s.edgeAt ns ((s.findLogical ns edge).getD (edge.kappa prim)) = some old →
      old.key = edge.key := by
    intro old hold
    cases hfind : s.findLogical ns edge with
    | some kappa =>
      obtain ⟨found, hrow, hsame⟩ := findLogical_eq_some hfind
      rw [hfind, getD_some, hrow] at hold
      cases hold
      exact sameLogicalEdge_iff_key.mp hsame
    | none =>
      simp [hfind, getD_none, h.label_free hfree hns hedge hfind] at hold
  split_ifs with hkey
  · rw [hput.findLogical_iff hns]
    refine ⟨⟨edge, ?_, hkey.symm⟩, ?_⟩
    · rw [edgeAt_edgePut hns (hfree.canonical hedge) hns, if_pos ⟨rfl, rfl⟩]
    · intro k old hold hold' hlt
      rw [edgeAt_edgePut hns (hfree.canonical hedge) hns] at hold
      split_ifs at hold with hk
      · simp [hk.2, Std.compare_self] at hlt
      · cases hfind : s.findLogical ns edge with
        | some kappa =>
          rw [hfind] at hlt
          exact ((h.findLogical_iff hns).mp hfind).2 k old hold (hold'.trans hkey) hlt
        | none => exact absurd (hold'.trans hkey) (h.findLogical_none hns hfind hold)
  · refine ext fun kappa => ?_
    rw [hput.findLogical_iff hns, h.findLogical_iff hns]
    -- the rows with the other key are the same
    have hrows : ∀ k old, old.key = x.key →
        ((s.edgePut prim ns edge).edgeAt ns k = some old ↔ s.edgeAt ns k = some old) := by
      intro k old hold
      rw [edgeAt_edgePut hns (hfree.canonical hedge) hns]
      split_ifs with hk
      · constructor
        · intro heq
          rw [Option.some.inj heq] at hkey
          exact absurd hold.symm hkey
        · intro hrow
          rw [← hk.2] at hrow
          exact absurd (hold.symm.trans (hhome old hrow)) hkey
      · exact Iff.rfl
    refine and_congr ?_ ?_
    · exact exists_congr fun old => and_congr_left fun hold => hrows kappa old hold
    · exact forall_congr' fun k => forall_congr' fun old =>
        ⟨fun hall hrow hold => hall ((hrows k old hold).mpr hrow) hold,
          fun hall hrow hold => hall ((hrows k old hold).mp hrow) hold⟩

/-! ## The rows after the puts -/

theorem batchHome_found (hfind : s.findLogical ns e = some kappa) :
    s.batchHome prim ns edges e = kappa := by
  rw [batchHome, hfind, getD_some]

variable (prim) in
theorem batchHome_new (he : e ∈ edges) (hfind : s.findLogical ns e = none) :
    ∃ first ∈ edges, first.key = e.key ∧ s.batchHome prim ns edges e = first.kappa prim := by
  cases hfirst : edges.find? fun f => f.key == e.key with
  | none => exact absurd (beq_self_eq_true _) (find?_eq_none.mp hfirst e he)
  | some f =>
    have hkey := find?_some hfirst
    refine ⟨f, mem_of_find?_eq_some hfirst, beq_iff_eq.mp hkey, ?_⟩
    rw [batchHome, hfind, getD_none, hfirst, getD_some]

section

variable (hfree : NormalEdges prim put) (h : s.EdgesListed prim put) (hns : NulFree ns)
  (hedges : ∀ f ∈ edges, f ∈ put) (he : e ∈ edges) (hx : x ∈ edges)
include hfree h hns hedges he hx

/-- A row that the puts use for a key is the label of an edge in normal form only if the edge has
the key. -/
theorem EdgesListed.key_of_batchHome
    (hhome : s.batchHome prim ns edges e = x.kappa prim) : e.key = x.key := by
  cases hfind : s.findLogical ns e with
  | some kappa =>
    obtain ⟨old, hold, hsame⟩ := findLogical_eq_some hfind
    rw [batchHome_found hfind] at hhome
    rw [hhome] at hold
    rw [← sameLogicalEdge_iff_key.mp hsame]
    exact h.key_of_kappa hfree hns (hedges x hx) hold
  | none =>
    obtain ⟨first, hfirst, hkey, hhome'⟩ := batchHome_new prim he hfind
    rw [← hkey, hfree.apart (hedges first hfirst) (hedges x hx) (hhome'.symm.trans hhome)]

theorem EdgesListed.key_of_batchHome_eq
    (hhome : s.batchHome prim ns edges e = s.batchHome prim ns edges x) : e.key = x.key := by
  cases hfind : s.findLogical ns x with
  | none =>
    obtain ⟨first, hfirst, hkey, hhome'⟩ := batchHome_new prim hx hfind
    rw [← hkey]
    exact h.key_of_batchHome hfree hns hedges he hfirst (hhome.trans hhome')
  | some kappa =>
    cases hfind' : s.findLogical ns e with
    | none =>
      obtain ⟨first, hfirst, hkey, hhome'⟩ := batchHome_new prim he hfind'
      rw [← hkey]
      exact (h.key_of_batchHome hfree hns hedges hx hfirst (hhome.symm.trans hhome')).symm
    | some kappa' =>
      rw [batchHome_found hfind, batchHome_found hfind'] at hhome
      subst hhome
      obtain ⟨old, hold, hsame⟩ := findLogical_eq_some hfind
      obtain ⟨old', hold', hsame'⟩ := findLogical_eq_some hfind'
      rw [hold] at hold'
      cases hold'
      exact (sameLogicalEdge_iff_key.mp hsame').symm.trans (sameLogicalEdge_iff_key.mp hsame)

end

theorem batchHome_congr (he : e ∈ edges) (hkey : e.key = x.key) :
    s.batchHome prim ns edges e = s.batchHome prim ns edges x := by
  unfold batchHome
  rw [findLogical_congr hkey, hkey]
  cases hfirst : edges.find? fun f => f.key == x.key with
  | none => exact absurd (beq_iff_eq.mpr hkey) (find?_eq_none.mp hfirst e he)
  | some f => rfl

theorem EdgesListed.batchHome_cons (hfree : NormalEdges prim put) (h : s.EdgesListed prim put)
    (hns : NulFree ns) (hedge : edge ∈ put) :
    (s.edgePut prim ns edge).batchHome prim ns edges x = s.batchHome prim ns (edge :: edges) x := by
  unfold batchHome
  rw [h.findLogical_edgePut hfree hns hedge, find?_cons]
  split_ifs with hkey
  · rw [getD_some, findLogical_congr hkey, hkey, beq_self_eq_true]
    rfl
  · rw [beq_eq_false_iff_ne.mpr (Ne.symm hkey)]

theorem lastWith_of_mem (he : e ∈ edges) : ∃ last, lastWith edges e.key = some last :=
  isSome_iff_exists.mp (find?_isSome.mpr ⟨e, mem_reverse.mpr he, beq_self_eq_true _⟩)

theorem lastWith_cons_of_mem (hx : x ∈ edges) :
    lastWith (edge :: edges) x.key = lastWith edges x.key := by
  obtain ⟨last, hlast⟩ := lastWith_of_mem hx
  rw [hlast, lastWith, reverse_cons, find?_append, ← lastWith, hlast, some_or]

theorem lastWith_cons_self (hx : ∀ f ∈ edges, f.key ≠ edge.key) :
    lastWith (edge :: edges) edge.key = some edge := by
  unfold lastWith
  rw [reverse_cons, find?_append, find?_eq_none.mpr ?_]
  · simp
  · intro f hf
    simpa using hx f (mem_reverse.mp hf)

theorem lastWith_mem {key : EdgeKey} (h : lastWith edges key = some e) : e ∈ edges ∧ e.key = key := by
  have hkey := find?_some h
  exact ⟨mem_reverse.mp (mem_of_find?_eq_some h), beq_iff_eq.mp hkey⟩

/-- The puts keep the invariant. -/
theorem EdgesListed.edgePutEach (hfree : NormalEdges prim put) (hns : NulFree ns)
    (hedges : ∀ f ∈ edges, f ∈ put) (h : s.EdgesListed prim put) :
    (s.edgePutEach prim ns edges).EdgesListed prim put ∧
      (∀ e ∈ edges, (s.edgePutEach prim ns edges).edgeAt ns (s.batchHome prim ns edges e) =
        lastWith edges e.key) ∧
      ∀ w k, NulFree w → (ns = w → ∀ e ∈ edges, s.batchHome prim ns edges e ≠ k) →
        (s.edgePutEach prim ns edges).edgeAt w k = s.edgeAt w k := by
  induction edges generalizing s with
  | nil => exact ⟨h, nofun, fun _ _ _ _ => rfl⟩
  | cons edge edges ih =>
    have hedge := hedges edge mem_cons_self
    have hput := h.edgePut hfree hns hedge
    have hhome : ∀ x, (s.edgePut prim ns edge).batchHome prim ns edges x =
        s.batchHome prim ns (edge :: edges) x := fun x => h.batchHome_cons hfree hns hedge
    obtain ⟨hlisted, hrows, hframe⟩ := ih (fun f hf => hedges f (mem_cons_of_mem _ hf)) hput
    have hself : s.batchHome prim ns (edge :: edges) edge =
        (s.findLogical ns edge).getD (edge.kappa prim) := by
      rw [batchHome, find?_cons, beq_self_eq_true]
      rfl
    refine ⟨hlisted, ?_, ?_⟩
    · intro e he
      by_cases hlater : ∃ f ∈ edges, f.key = e.key
      · obtain ⟨f, hf, hkey⟩ := hlater
        rw [batchHome_congr he hkey.symm, ← hkey, lastWith_cons_of_mem hf, ← hrows f hf, hhome]
        rfl
      · -- the edge is the first one, and the last of its key
        push Not at hlater
        obtain rfl := (mem_cons.mp he).resolve_right fun hlater' => hlater e hlater' rfl
        rw [lastWith_cons_self hlater]
        refine (hframe ns _ hns ?_).trans ?_
        · intro _ f hf hsame
          rw [hhome] at hsame
          exact hlater f hf (h.key_of_batchHome_eq hfree hns hedges (mem_cons_of_mem _ hf) he hsame)
        · rw [edgeAt_edgePut hns (hfree.canonical hedge) hns, hself, if_pos ⟨rfl, rfl⟩]
    · intro w k hw hk
      refine (hframe w k hw ?_).trans ?_
      · intro hw' f hf
        rw [hhome]
        exact hk hw' f (mem_cons_of_mem _ hf)
      · rw [edgeAt_edgePut hns (hfree.canonical hedge) hw, if_neg ?_]
        rintro ⟨rfl, heq⟩
        exact hk rfl edge mem_cons_self (hself.trans heq)

/-! ## The rows after the batch -/

def batchInsert (prim : Primitives) (s : PersistentStore) (ns : String) (edge : Edge) : PersistentStore :=
  (s.blobPut (edge.kappa prim) (prim.edgeBytes edge)).edgeInsert prim ns edge

theorem edgeAt_batchInsert (hns : NulFree ns) (hcanon : edge.canonical prim = edge) {w k : String}
    (hw : NulFree w) : (s.batchInsert prim ns edge).edgeAt w k =
      if ns = w ∧ edge.kappa prim = k then some edge else s.edgeAt w k := by
  refine edgeAt_insert ?_ hns hw
  show s.edges.insert _ (edge.canonical prim) = _
  rw [hcanon]

theorem EdgesListed.batchInsert (hfree : NormalEdges prim put) (h : s.EdgesListed prim put)
    (hns : NulFree ns) (hedge : edge ∈ put) :
    (s.batchInsert prim ns edge).EdgesListed prim put := by
  have hlabelled : ∀ w k e, NulFree w → (s.batchInsert prim ns edge).edgeAt w k = some e →
      ∃ first ∈ put, first.kappa prim = k ∧ first.key = e.key := by
    intro w k e hw hrow
    refine h.labelled_insert ?_ hns hw ⟨edge, hedge, rfl, rfl⟩ hrow
    show s.edges.insert _ (edge.canonical prim) = _
    rw [hfree.canonical hedge]
  have hby : ∀ {field : Edge → String} {index : Multimap String String},
      EdgesBy field s.edges index → (∀ old : Edge, old.key = edge.key → field old = field edge) →
      EdgesBy field (s.edges.insert (dbKey ns (edge.kappa prim)) (edge.canonical prim))
        (index.add (dbKey ns (field edge)) (edge.kappa prim)) := by
    intro field index hindex hfield
    rw [hfree.canonical hedge]
    cases hrow : s.edgeAt ns (edge.kappa prim) with
    | none => exact hindex.insert dbKey_apart hns hrow
    | some old =>
      have hold := hfield old (h.key_of_kappa hfree hns hedge hrow)
      refine (hindex.replace dbKey_apart hns hrow hold).add_listed dbKey_apart hns ?_
      rw [Table.get_insert, if_pos rfl]
  exact ⟨hby h.fwd fun old hold => (Edge.key_eq_iff.mp hold).1,
    hby h.rev fun old hold => (Edge.key_eq_iff.mp hold).2.1, hlabelled⟩

/-- The batch keeps the indexes. Each of its labels holds its edge, and the other rows are as
before. -/
theorem EdgesListed.edgePutBatch (hfree : NormalEdges prim put) (hns : NulFree ns)
    (hedges : ∀ f ∈ edges, f ∈ put) (h : s.EdgesListed prim put) :
    (s.edgePutBatch prim ns edges).EdgesListed prim put ∧
      (∀ e ∈ edges, (s.edgePutBatch prim ns edges).edgeAt ns (e.kappa prim) = some e) ∧
      ∀ w k, NulFree w → (ns = w → ∀ e ∈ edges, e.kappa prim ≠ k) →
        (s.edgePutBatch prim ns edges).edgeAt w k = s.edgeAt w k := by
  induction edges generalizing s with
  | nil => exact ⟨h, nofun, fun _ _ _ _ => rfl⟩
  | cons edge edges ih =>
    have hedge := hedges edge mem_cons_self
    obtain ⟨hlisted, hrows, hframe⟩ :=
      ih (fun f hf => hedges f (mem_cons_of_mem _ hf)) (h.batchInsert hfree hns hedge)
    refine ⟨hlisted, ?_, ?_⟩
    · intro e he
      by_cases hlater : ∃ f ∈ edges, f.kappa prim = e.kappa prim
      · -- a later edge with the label is the same edge
        obtain ⟨f, hf, hlabel⟩ := hlater
        rw [← hfree.apart (hedges f (mem_cons_of_mem _ hf)) (hedges e he) hlabel]
        exact hrows f hf
      · push Not at hlater
        obtain rfl := (mem_cons.mp he).resolve_right fun hlater' => hlater e hlater' rfl
        refine (hframe ns _ hns fun _ f hf => hlater f hf).trans ?_
        rw [edgeAt_batchInsert hns (hfree.canonical hedge) hns, if_pos ⟨rfl, rfl⟩]
    · intro w k hw hk
      refine (hframe w k hw fun hw' f hf => hk hw' f (mem_cons_of_mem _ hf)).trans ?_
      rw [edgeAt_batchInsert hns (hfree.canonical hedge) hw, if_neg ?_]
      rintro ⟨rfl, heq⟩
      exact hk rfl edge mem_cons_self heq

/-- A request that writes edges, one at a time or in a batch. -/
inductive EdgeWrite where
  | one (req : EdgeRequest)
  | batch (ns : String) (edges : List Edge)

def edgeWrite (prim : Primitives) (s : PersistentStore) : EdgeWrite → PersistentStore
  | .one req => s.edgeStep prim req
  | .batch ns edges => s.edgePutBatch prim ns edges

/-- A request with a namespace name without NUL, and with edges that may be put. -/
def NormalWrite (put : Set Edge) : EdgeWrite → Prop
  | .one req => EdgeStore.Normal put req
  | .batch ns edges => NulFree ns ∧ ∀ f ∈ edges, f ∈ put

theorem edgesListed_run (hfree : NormalEdges prim put) (writes : List EdgeWrite)
    (hwrites : ∀ write ∈ writes, NormalWrite put write) (h : s.EdgesListed prim put) :
    (writes.foldl (edgeWrite prim) s).EdgesListed prim put := by
  induction writes generalizing s with
  | nil => exact h
  | cons write writes ih =>
    refine ih (fun w hw => hwrites w (mem_cons_of_mem _ hw)) ?_
    have hnormal := hwrites write mem_cons_self
    cases write with
    | one req =>
      cases req with
      | put ns edge => exact h.edgePut hfree hnormal.1 hnormal.2
      | delete ns source target relation => exact h.edgeDelete hnormal
    | batch ns edges => exact (h.edgePutBatch hfree hnormal.1 hnormal.2).1

def mine (target : String) (value : Option String) : Edge := ⟨"a", target, .owns, "me", value, none⟩

/-- A batch with two edges of one key, an update and a deletion. -/
def mixedWrites : List EdgeWrite :=
  [.batch "n" [mine "b" none, mine "b" (some "v"), mine "c" none], .one (.put "n" (mine "c" (some "w"))),
    .one (.delete "n" "a" "b" .owns)]

theorem edgesListed_run_batch :
    (foldl (edgeWrite (.distinct id)) (new false) mixedWrites).EdgesListed (.distinct id) Set.univ := by
  refine edgesListed_run EdgeStore.normalEdges_distinct mixedWrites ?_ (edgesIndexed_new false).toEdgesListed
  simp [mixedWrites, NormalWrite, EdgeStore.Normal, show NulFree "n" by decide]

/-! ## Queries and rows -/

/-- If every label that is live in one store is live in the other, the two answer the queries of a
namespace alike exactly if they have the same rows. -/
theorem EdgesListed.edgeQuery_eq_iff (hfree : NormalEdges prim put) {s s' : PersistentStore}
    (h : s.EdgesListed prim put) (h' : s'.EdgesListed prim put) (hns : NulFree ns)
    (hlive : ∀ k, (s.edgeAt ns k).isSome → (s'.edgeAt ns k).isSome) :
    (∀ q, s.edgeQuery ns q = s'.edgeQuery ns q) ↔ ∀ k, s.edgeAt ns k = s'.edgeAt ns k := by
  constructor
  · intro hquery k
    cases hrow' : s'.edgeAt ns k with
    | none =>
      cases hrow : s.edgeAt ns k with
      | none => rfl
      | some e =>
        have hsome := hlive k (by rw [hrow]; rfl)
        simp [hrow'] at hsome
    | some e' =>
      -- the labels under the source: the rows listed under them are the same list
      have hquery := hquery ⟨e'.source, .outbound, none, none⟩
      have hsome : ∀ l ∈ s.edgeFwd.values (dbKey ns e'.source), (s.edgeAt ns l).isSome := by
        intro l hl
        obtain ⟨e, he, -⟩ := (h.fwd ns e'.source l hns).mp hl
        exact isSome_of_eq_some he
      have hsome' : ∀ l ∈ s'.edgeFwd.values (dbKey ns e'.source), (s'.edgeAt ns l).isSome := by
        intro l hl
        obtain ⟨e, he, -⟩ := (h'.fwd ns e'.source l hns).mp hl
        exact isSome_of_eq_some he
      have hsub : s.edgeFwd.values (dbKey ns e'.source) ⊆ s'.edgeFwd.values (dbKey ns e'.source) := by
        intro l hl
        obtain ⟨e, he, hsource⟩ := (h.fwd ns e'.source l hns).mp hl
        obtain ⟨f, hf⟩ := isSome_iff_exists.mp (hlive l (isSome_of_eq_some he))
        have hkey := Edge.key_eq_iff.mp (h.key_of_label hfree h' hns hns he hf)
        exact (h'.fwd ns e'.source l hns).mpr ⟨f, hf, hkey.1.symm.trans hsource⟩
      have hlists : (s.edgeFwd.values (dbKey ns e'.source)).filterMap (s.edgeAt ns) =
          (s'.edgeFwd.values (dbKey ns e'.source)).filterMap (s'.edgeAt ns) := by
        have hadmits : ∀ es : List Edge,
            es.filter (EdgeQuery.admits ⟨e'.source, .outbound, none, none⟩) = es :=
          fun es => filter_eq_self.mpr fun _ _ => rfl
        have hok := Except.ok.inj hquery
        rwa [hadmits, hadmits] at hok
      have hlists := congrArg (List.map some) hlists
      rw [Lib.map_some_filterMap hsome, Lib.map_some_filterMap hsome'] at hlists
      have hlength := congrArg List.length hlists
      rw [length_map, length_map] at hlength
      have hperm := ((nodup_values _ _).subperm hsub).perm_of_length_le hlength.ge
      have hvalues := values_ext fun l => hperm.mem_iff (a := l)
      rw [← hvalues] at hlists
      rw [← hrow']
      refine map_inj_left.mp hlists k ?_
      rw [hvalues]
      exact (h'.fwd ns e'.source k hns).mpr ⟨e', hrow', rfl⟩
  · intro hrows q
    have hsame : ∀ labels labels' : List String, labels = labels' →
        (Except.ok ((labels.filterMap (s.edgeAt ns)).filter q.admits) : Except StoreError (List Edge)) =
          .ok ((labels'.filterMap (s'.edgeAt ns)).filter q.admits) := by
      rintro labels _ rfl
      rw [funext hrows]
    have hvalues : ∀ {field : Edge → String} {index index' : Multimap String String},
        EdgesBy field s.edges index → EdgesBy field s'.edges index' → ∀ anchor,
        index.values (dbKey ns anchor) = index'.values (dbKey ns anchor) := by
      intro field index index' hindex hindex' anchor
      refine values_ext fun k => ?_
      rw [hindex ns anchor k hns, hindex' ns anchor k hns]
      exact exists_congr fun e => by rw [← edgeAt, ← edgeAt, hrows k]
    cases q with
    | mk anchor direction relation asserter =>
      cases direction with
      | outbound => exact hsame _ _ (hvalues h.fwd h'.fwd anchor)
      | inbound => exact hsame _ _ (hvalues h.rev h'.rev anchor)

/-! ## The index of inbound assertions -/

theorem inbound_edgePutBatch (edges : List Edge) (s : PersistentStore) :
    (s.edgePutBatch prim ns edges).assertionInbound = s.assertionInbound := by
  induction edges generalizing s with
  | nil => rfl
  | cons edge edges ih => exact ih (s.batchInsert prim ns edge)

theorem mem_inbound_edgePut (hcanon : edge.canonical prim = edge) {key v : String} :
    v ∈ (s.edgePut prim ns edge).assertionInbound.values key ↔
      (s.findLogical ns edge = none ∧ isInbound edge.relation = true ∧
        dbKey edge.target edge.relation.asStr = key ∧ edge.kappa prim = v) ∨
      v ∈ s.assertionInbound.values key := by
  cases hfind : s.findLogical ns edge with
  | some kappa =>
    rw [edgePut_found hcanon hfind]
    refine ⟨.inr, ?_⟩
    rintro (⟨hnone, -⟩ | hmem)
    · cases hnone
    · exact hmem
  | none =>
    rw [edgePut_new hcanon hfind]
    split_ifs with hrel
    · rw [mem_values_add]
      simp [hrel]
    · simp [hrel]

theorem EdgesListed.inbound_edgePutEach (hfree : NormalEdges prim put) (hns : NulFree ns)
    (hedges : ∀ f ∈ edges, f ∈ put) (h : s.EdgesListed prim put) :
    (∀ key v, v ∈ s.assertionInbound.values key →
      v ∈ (s.edgePutEach prim ns edges).assertionInbound.values key) ∧
    (∀ key v, v ∈ (s.edgePutEach prim ns edges).assertionInbound.values key →
      v ∈ s.assertionInbound.values key ∨ ∃ e ∈ edges, s.findLogical ns e = none ∧
        isInbound e.relation = true ∧ dbKey e.target e.relation.asStr = key ∧ e.kappa prim = v) ∧
    ∀ e ∈ edges, s.findLogical ns e = none → isInbound e.relation = true →
      ∃ f ∈ edges, f.key = e.key ∧ f.kappa prim ∈
        (s.edgePutEach prim ns edges).assertionInbound.values (dbKey e.target e.relation.asStr) := by
  induction edges generalizing s with
  | nil => exact ⟨fun _ _ hv => hv, fun _ _ hv => .inl hv, nofun⟩
  | cons edge edges ih =>
    have hedge := hedges edge mem_cons_self
    obtain ⟨hkeep, hnew, hfirst⟩ :=
      ih (fun f hf => hedges f (mem_cons_of_mem _ hf)) (h.edgePut hfree hns hedge)
    refine ⟨?_, ?_, ?_⟩
    · intro key v hv
      exact hkeep key v ((mem_inbound_edgePut (hfree.canonical hedge)).mpr (.inr hv))
    · intro key v hv
      rcases hnew key v hv with hbefore | ⟨e, he, hnone, hrest⟩
      · rcases (mem_inbound_edgePut (hfree.canonical hedge)).mp hbefore with hadded | hold
        · exact .inr ⟨edge, mem_cons_self, hadded⟩
        · exact .inl hold
      · rw [h.findLogical_edgePut hfree hns hedge] at hnone
        split at hnone
        · cases hnone
        · exact .inr ⟨e, mem_cons_of_mem _ he, hnone, hrest⟩
    · intro e he hnone hrel
      by_cases hkey : e.key = edge.key
      · -- the first edge of the key is this one
        obtain ⟨-, htarget, hrelation, -⟩ := Edge.key_eq_iff.mp hkey
        refine ⟨edge, mem_cons_self, hkey.symm, hkeep _ _ ((mem_inbound_edgePut (hfree.canonical hedge)).mpr (.inl ?_))⟩
        rw [findLogical_congr hkey] at hnone
        rw [hrelation] at hrel
        exact ⟨hnone, hrel, by rw [htarget, hrelation], rfl⟩
      · rcases mem_cons.mp he with rfl | he
        · exact absurd rfl hkey
        · obtain ⟨f, hf, hrest⟩ := hfirst e he
            (by rw [h.findLogical_edgePut hfree hns hedge, if_neg hkey, hnone]) hrel
          exact ⟨f, mem_cons_of_mem _ hf, hrest⟩

/-! ## The comparison -/

variable (prim) in
/-- When a batch answers like the puts of its edges. -/
structure BatchAgrees (s : PersistentStore) (ns : String) (edges : List Edge) : Prop where
  /-- A new key comes once, whatever the number of times, and with an inbound relation the label of its
  edge is listed already. -/
  new : ∀ e ∈ edges, s.findLogical ns e = none →
    (∀ f ∈ edges, f.key = e.key → f = e) ∧
      (isInbound e.relation = true →
        e.kappa prim ∈ s.assertionInbound.values (dbKey e.target e.relation.asStr))
  /-- For a key with a row, an edge of the batch stands in the store under its own label, unless
  that is the row that the puts write to; this row gets, or has, the last edge of the key. -/
  found : ∀ e ∈ edges, ∀ k, s.findLogical ns e = some k →
    (e.kappa prim = k → lastWith edges e.key = some e) ∧
      (e.kappa prim ≠ k → s.edgeAt ns (e.kappa prim) = some e) ∧
      (lastWith edges e.key = some e → e.kappa prim = k ∨ s.edgeAt ns k = some e)

section

variable (hfree : NormalEdges prim put) (hedges : ∀ f ∈ edges, f ∈ put)

include hfree hedges

variable (hs : s.EdgesListed prim put) (hns : NulFree ns)

include hs hns

theorem live_edgePutBatch (hlive : ((s.edgePutEach prim ns edges).edgeAt ns kappa).isSome) :
    ((s.edgePutBatch prim ns edges).edgeAt ns kappa).isSome := by
  obtain ⟨-, hrows, hframe⟩ := hs.edgePutBatch hfree hns hedges
  obtain ⟨-, heach, hframe'⟩ := hs.edgePutEach hfree hns hedges
  by_cases hbatch : ∃ e ∈ edges, e.kappa prim = kappa
  · obtain ⟨e, he, rfl⟩ := hbatch
    rw [hrows e he]
    rfl
  · push Not at hbatch
    rw [hframe ns kappa hns fun _ => hbatch]
    by_cases hhome : ∃ e ∈ edges, s.batchHome prim ns edges e = kappa
    · obtain ⟨e, he, rfl⟩ := hhome
      cases hfind : s.findLogical ns e with
      | some k =>
        obtain ⟨old, hold, -⟩ := findLogical_eq_some hfind
        rw [batchHome_found hfind]
        exact isSome_of_eq_some hold
      | none =>
        obtain ⟨first, hfirst, -, hlabel⟩ := batchHome_new prim he hfind
        exact absurd hlabel.symm (hbatch first hfirst)
    · push Not at hhome
      rwa [hframe' ns kappa hns fun _ => hhome] at hlive

theorem BatchAgrees.rows_eq (h : s.BatchAgrees prim ns edges) (k : String) :
    (s.edgePutEach prim ns edges).edgeAt ns k = (s.edgePutBatch prim ns edges).edgeAt ns k := by
  obtain ⟨-, hrows, hframe⟩ := hs.edgePutBatch hfree hns hedges
  obtain ⟨-, heach, hframe'⟩ := hs.edgePutEach hfree hns hedges
  by_cases hhome : ∃ e ∈ edges, s.batchHome prim ns edges e = k
  · obtain ⟨e, he, rfl⟩ := hhome
    obtain ⟨last, hlast⟩ := lastWith_of_mem he
    obtain ⟨hmem, hkey⟩ := lastWith_mem hlast
    rw [heach e he, hlast]
    cases hfind : s.findLogical ns e with
    | none =>
      -- one edge of the key, under its own label
      obtain ⟨first, hfirst, hfirstKey, hlabel⟩ := batchHome_new prim he hfind
      have honly := (h.new e he hfind).1
      rw [hlabel, honly first hfirst hfirstKey, honly last hmem hkey, hrows e he]
    | some k =>
      rw [batchHome_found hfind]
      have hfind' : s.findLogical ns last = some k := by rw [findLogical_congr hkey, hfind]
      rw [← hkey] at hlast
      rcases (h.found last hmem k hfind').2.2 hlast with hlabel | hrow
      · rw [← hlabel, hrows last hmem]
      · by_cases hbatch : ∃ f ∈ edges, f.kappa prim = k
        · obtain ⟨f, hf, rfl⟩ := hbatch
          have hfkey : last.key = f.key := hs.key_of_kappa hfree hns (hedges f hf) hrow
          have hfind'' : s.findLogical ns f = some (f.kappa prim) := by
            rw [← findLogical_congr hfkey, hfind']
          have hflast := (h.found f hf _ hfind'').1 rfl
          rw [← hfkey, hlast] at hflast
          rw [hflast, hrows f hf]
        · push Not at hbatch
          rw [hframe ns k hns fun _ => hbatch, hrow]
  · push Not at hhome
    rw [hframe' ns k hns fun _ => hhome]
    by_cases hbatch : ∃ f ∈ edges, f.kappa prim = k
    · obtain ⟨f, hf, rfl⟩ := hbatch
      rw [hrows f hf]
      cases hfind : s.findLogical ns f with
      | none =>
        obtain ⟨first, hfirst, hkey, hlabel⟩ := batchHome_new prim hf hfind
        rw [(h.new f hf hfind).1 first hfirst hkey] at hlabel
        exact absurd hlabel (hhome f hf)
      | some k =>
        refine (h.found f hf k hfind).2.1 ?_
        rintro rfl
        exact hhome f hf (batchHome_found hfind)
    · push Not at hbatch
      rw [hframe ns k hns fun _ => hbatch]

theorem batchAgrees_of_eq
    (hrows : ∀ k, (s.edgePutEach prim ns edges).edgeAt ns k = (s.edgePutBatch prim ns edges).edgeAt ns k)
    (hinbound : ∀ key, (s.edgePutBatch prim ns edges).assertionInbound.values key =
      (s.edgePutEach prim ns edges).assertionInbound.values key) :
    s.BatchAgrees prim ns edges := by
  obtain ⟨-, hbatch, hframe⟩ := hs.edgePutBatch hfree hns hedges
  obtain ⟨-, heach, hframe'⟩ := hs.edgePutEach hfree hns hedges
  -- an edge whose label is not the row of its key stood under its label before
  have hbefore : ∀ e ∈ edges, s.batchHome prim ns edges e ≠ e.kappa prim →
      s.edgeAt ns (e.kappa prim) = some e := by
    intro e he hne
    rw [← hbatch e he, ← hrows, hframe' ns _ hns ?_]
    intro _ f hf hhome
    rw [batchHome_congr hf (hs.key_of_batchHome hfree hns hedges hf he hhome)] at hhome
    exact hne hhome
  constructor
  · intro e he hnone
    obtain ⟨first, hfirst, hfirstKey, hlabel⟩ := batchHome_new prim he hnone
    have honly : ∀ f ∈ edges, f.key = e.key → f = first := by
      intro f hf hkey
      by_cases hhome : s.batchHome prim ns edges f = f.kappa prim
      · rw [batchHome_congr hf hkey, hlabel] at hhome
        exact hfree.apart (hedges f hf) (hedges first hfirst) hhome.symm
      · exact absurd hkey (hs.findLogical_none hns hnone (hbefore f hf hhome))
    constructor
    · intro f hf hkey
      rw [honly f hf hkey, honly e he rfl]
    · intro hrel
      obtain ⟨f, hf, hkey, hlisted⟩ :=
        (hs.inbound_edgePutEach hfree hns hedges).2.2 e he hnone hrel
      rwa [honly f hf hkey, ← honly e he rfl, ← hinbound, inbound_edgePutBatch] at hlisted
  · intro e he k hfind
    have hhome : s.batchHome prim ns edges e = k := batchHome_found hfind
    refine ⟨?_, ?_, ?_⟩
    · rintro rfl
      rw [← heach e he, hhome, hrows, hbatch e he]
    · intro hne
      refine hbefore e he ?_
      rw [hhome]
      exact Ne.symm hne
    · intro hlast
      have hrow := heach e he
      rw [hhome, hlast, hrows] at hrow
      by_cases hlabel : ∃ f ∈ edges, f.kappa prim = k
      · obtain ⟨f, hf, rfl⟩ := hlabel
        rw [hbatch f hf] at hrow
        rw [Option.some.inj hrow]
        exact .inl rfl
      · push Not at hlabel
        rw [hframe ns k hns fun _ => hlabel] at hrow
        exact .inr hrow

end

/-- **A batch against its puts.** -/
theorem edgePutBatch_agrees_iff (prim : Primitives) (put : Set Edge) (hfree : NormalEdges prim put) (s : PersistentStore)
    (hs : s.EdgesListed prim put) (ns : String) (hns : NulFree ns) (edges : List Edge)
    (hedges : ∀ f ∈ edges, f ∈ put) :
    SameAnswers (s.edgePutBatch prim ns edges) (s.edgePutEach prim ns edges) ↔
      s.BatchAgrees prim ns edges := by
  obtain ⟨hbatch, -, hframe⟩ := hs.edgePutBatch hfree hns hedges
  obtain ⟨heach, -, hframe'⟩ := hs.edgePutEach hfree hns hedges
  have hquery := heach.edgeQuery_eq_iff hfree hbatch hns
    fun k hlive => live_edgePutBatch hfree hedges hs hns hlive
  constructor
  · rintro ⟨hqueries, hinbound⟩
    refine batchAgrees_of_eq hfree hedges hs hns ?_ hinbound
    exact hquery.mp fun q => (hqueries ns q hns).symm
  · intro h
    have hrows := h.rows_eq hfree hedges hs hns
    constructor
    · intro w q hw
      by_cases hw' : ns = w
      · subst hw'
        exact (hquery.mpr hrows q).symm
      · -- the rows of other namespaces are as before
        have hsame : ∀ k, (s.edgePutEach prim ns edges).edgeAt w k =
            (s.edgePutBatch prim ns edges).edgeAt w k := by
          intro k
          rw [hframe w k hw fun hw'' => absurd hw'' hw', hframe' w k hw fun hw'' => absurd hw'' hw']
        refine ((heach.edgeQuery_eq_iff hfree hbatch hw ?_).mpr hsame q).symm
        intro k hlive
        rwa [← hsame k]
    · intro key
      refine Multimap.values_ext fun v => ?_
      rw [inbound_edgePutBatch]
      obtain ⟨hkeep, hnew, -⟩ := hs.inbound_edgePutEach hfree hns hedges
      refine ⟨hkeep key v, ?_⟩
      intro hv
      rcases hnew key v hv with hold | ⟨e, he, hnone, hrel, rfl, rfl⟩
      · exact hold
      · exact (h.new e he hnone).2 hrel

/-- An edge has been updated. The batch puts its first version back, and a new edge twice. -/
theorem edgePutBatch_agrees_update :
    let s := (new false).edgePutEach (.distinct id) "n" [mine "b" none, mine "b" (some "v")]
    SameAnswers (s.edgePutBatch (.distinct id) "n" [mine "b" none, mine "c" none, mine "c" none])
      (s.edgePutEach (.distinct id) "n" [mine "b" none, mine "c" none, mine "c" none]) := by
  intro s
  have hs : s.EdgesListed (.distinct id) Set.univ := ((edgesIndexed_new false).toEdgesListed.edgePutEach
    EdgeStore.normalEdges_distinct (by decide) fun _ _ => trivial).1
  refine (edgePutBatch_agrees_iff (.distinct id) Set.univ EdgeStore.normalEdges_distinct s hs "n"
    (by decide) _ fun _ _ => trivial).mpr ⟨?_, ?_⟩
  · decide +kernel
  · decide +kernel

/-- One edge with two values in a batch becomes two edges, and an assertion in a batch is not
listed for its target. -/
theorem edgePutBatch_differs :
    ¬ SameAnswers
      ((new false).edgePutBatch (.distinct id) "n" [mine "b" none, mine "b" (some "v")])
      ((new false).edgePutEach (.distinct id) "n" [mine "b" none, mine "b" (some "v")]) ∧
    ¬ SameAnswers
      ((new false).edgePutBatch (.distinct id) "n" [⟨"a", "b", .assertion, "me", none, none⟩])
      ((new false).edgePutEach (.distinct id) "n" [⟨"a", "b", .assertion, "me", none, none⟩]) := by
  constructor
  · intro h
    have hquery := congrArg (fun answer => answer.toOption.map List.length)
      (h.1 "n" ⟨"a", .outbound, none, none⟩ (by decide))
    exact absurd hquery (by decide +kernel)
  · intro h
    exact absurd (h.2 (dbKey "b" "assertion")) (by decide +kernel)

end PersistentStore

end KappaRegistry
