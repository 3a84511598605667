import KappaRegistry.Store.EdgeBatch
import KappaRegistry.Store.Memory

/-!
# What `edge_query` Lists

Authorisation rests on the edges that `edge_query` lists. Both stores keep the labels of the edges in
two indexes, under the texts the edges were put with, and read an edge from a row that a later put may
have overwritten. What is listed still passes the filters of the query, and its end is the anchor up
to normal form (`KappaStore.Lists`). It need not be the anchor itself: the persistent store keeps the
normal form of every text, and in the in-memory store the spellings of one edge share a row.

`Layout.Keeps` is the invariant behind it, for rows and indexes under keys of any kind;
**`persistent_lists`** and **`memory_lists`** carry it through runs of edge writes.
-/

namespace KappaRegistry

open Lib PersistentStore List

/-- What the edges that a query lists have to do with it, for anchors among `texts`; `norm` is the
normal form of texts. -/
structure KappaStore.Lists (store : KappaStore) (norm : String → String) (texts : Set String) :
    Prop where
  resolved : ∀ name ns, store.namespaceResolve name none = .ok ns → ns.asStr = name
  admits : ∀ ns q e, e ∈ store.edgesOf ns q → q.admits e = true
  ends : ∀ ns q e, NulFree ns.asStr → q.anchor ∈ texts → e ∈ store.edgesOf ns q →
    norm (q.direction.endOf e) = norm q.anchor ∧ ∀ d : Direction, d.endOf e ∈ texts

/-- No two of the edges with different normal forms have the same label. -/
def EdgesApart (prim : Primitives) (put : Set Edge) : Prop :=
  ∀ f ∈ put, ∀ g ∈ put, f.kappa prim = g.kappa prim → f.canonical prim = g.canonical prim

/-! ## Rows and indexes -/

/-- How a store keeps the edges of `put`: the keys of its tables, from a name and a text, are
distinct for distinct texts in use, and so are the labels of edges with different ends. -/
structure Layout (K N : Type) where
  key : N → String → K
  names : Set N
  texts : Set String
  put : Set Edge
  kappa : Edge → String
  norm : String → String
  apart : ∀ n ∈ names, ∀ m ∈ names, ∀ x ∈ texts, ∀ y ∈ texts, key n x = key m y → x = y
  labels : ∀ f ∈ put, ∀ g ∈ put, kappa f = kappa g →
    ∀ d : Direction, norm (d.endOf f) = norm (d.endOf g)
  used : ∀ f ∈ put, kappa f ∈ texts ∧ ∀ d : Direction, d.endOf f ∈ texts

namespace Layout

variable {K N : Type} [Ord K] [Std.TransOrd K] (L : Layout K N)

/-- A row stands under the label of an edge with its ends, and the indexes name a label under the
end of an edge that has it. -/
structure Keeps (rows : Table K Edge) (index : Direction → K → List String) : Prop where
  row : ∀ k e, rows[k]? = some e → (∀ d : Direction, d.endOf e ∈ L.texts) ∧
    ∃ n ∈ L.names, ∃ f ∈ L.put, k = L.key n (L.kappa f) ∧
      ∀ d : Direction, L.norm (d.endOf e) = L.norm (d.endOf f)
  listed : ∀ d k l, l ∈ index d k →
    ∃ n ∈ L.names, ∃ f ∈ L.put, k = L.key n (d.endOf f) ∧ l = L.kappa f

variable {L} {rows rows' : Table K Edge} {index index' : Direction → K → List String} {n : N}
  {d : Direction} {k : K} {x l : String} {e f : Edge}

theorem Keeps.ends (h : L.Keeps rows index) (hn : n ∈ L.names) (hx : x ∈ L.texts)
    (hl : l ∈ index d (L.key n x)) (hrow : rows[L.key n l]? = some e) :
    L.norm (d.endOf e) = L.norm x ∧ ∀ d : Direction, d.endOf e ∈ L.texts := by
  obtain ⟨m, hm, f, hf, hkey, rfl⟩ := h.listed d _ l hl
  obtain ⟨htexts, m', hm', g, hg, hkey', hends⟩ := h.row _ e hrow
  have hxf := L.apart n hn m hm x hx _ ((L.used f hf).2 d) hkey
  have hlabel := L.apart n hn m' hm' _ (L.used f hf).1 _ (L.used g hg).1 hkey'
  refine ⟨?_, htexts⟩
  rw [hends d, hxf]
  exact (L.labels f hf g hg hlabel d).symm

theorem Keeps.empty (hrows : rows = ∅) (hindex : ∀ d k, index d k = []) : L.Keeps rows index := by
  subst hrows
  refine ⟨fun k e hrow => ?_, fun d k l hl => ?_⟩
  · simp at hrow
  · simp [hindex d k] at hl

/-- A store that finds edges through such indexes lists what it is asked for. -/
theorem Keeps.lists {store : KappaStore} (h : L.Keeps rows index) (nameOf : NamespaceRef → N)
    (hresolved : ∀ name ns, store.namespaceResolve name none = .ok ns → ns.asStr = name)
    (hname : ∀ ns, NulFree ns.asStr → nameOf ns ∈ L.names)
    (hquery : ∀ ns q, store.edgesOf ns q =
      ((index q.direction (L.key (nameOf ns) q.anchor)).filterMap
        fun l => rows[L.key (nameOf ns) l]?).filter q.admits) :
    store.Lists L.norm L.texts := by
  refine ⟨hresolved, ?_, ?_⟩
  · intro ns q e he
    rw [hquery] at he
    exact (mem_filter.mp he).2
  · intro ns q e hns hx he
    rw [hquery] at he
    obtain ⟨l, hl, hrow⟩ := mem_filterMap.mp (mem_filter.mp he).1
    exact h.ends (hname ns hns) hx hl hrow

theorem Keeps.shrink (h : L.Keeps rows index)
    (hrows : ∀ (k : K) e, rows'[k]? = some e → rows[k]? = some e)
    (hindex : ∀ d k l, l ∈ index' d k → l ∈ index d k) : L.Keeps rows' index' :=
  ⟨fun k e hrow => h.row k e (hrows k e hrow), fun d k l hl => h.listed d k l (hindex d k l hl)⟩

variable [Std.LawfulEqOrd K] [DecidableEq K]

/-- A row is overwritten by an edge with its ends. -/
theorem Keeps.update {old : Edge} (h : L.Keeps rows index) (hold : rows[k]? = some old)
    (htexts : ∀ d : Direction, d.endOf e ∈ L.texts)
    (hends : ∀ d : Direction, L.norm (d.endOf e) = L.norm (d.endOf old)) :
    L.Keeps (rows.insert k e) index := by
  refine ⟨?_, h.listed⟩
  intro k' e' hrow
  rcases Table.of_get_insert hrow with ⟨rfl, rfl⟩ | ⟨-, hbefore⟩
  · obtain ⟨-, n, hn, f, hf, hkey, hsame⟩ := h.row k old hold
    exact ⟨htexts, n, hn, f, hf, hkey, fun d => (hends d).trans (hsame d)⟩
  · exact h.row k' e' hbefore

/-- A new row is entered under its label, and its label under its ends. -/
theorem Keeps.insert (h : L.Keeps rows index) (hn : n ∈ L.names) (hf : f ∈ L.put)
    (htexts : ∀ d : Direction, d.endOf e ∈ L.texts)
    (hends : ∀ d : Direction, L.norm (d.endOf e) = L.norm (d.endOf f))
    (hindex : ∀ d k l, l ∈ index' d k →
      l ∈ index d k ∨ L.key n (d.endOf f) = k ∧ L.kappa f = l) :
    L.Keeps (rows.insert (L.key n (L.kappa f)) e) index' := by
  constructor
  · intro k e' hrow
    rcases Table.of_get_insert hrow with ⟨rfl, rfl⟩ | ⟨-, hbefore⟩
    · exact ⟨htexts, n, hn, f, hf, rfl, hends⟩
    · exact h.row k e' hbefore
  · intro d k l hl
    rcases hindex d k l hl with hbefore | ⟨rfl, rfl⟩
    · exact h.listed d k l hbefore
    · exact ⟨n, hn, f, hf, rfl, rfl⟩

end Layout

theorem endOf_eq_of_same {e f : Edge} (h : sameLogicalEdge e f = true) (d : Direction) :
    d.endOf e = d.endOf f := by
  obtain ⟨hsource, htarget, -⟩ := sameLogicalEdge_iff.mp h
  cases d with
  | outbound => exact hsource
  | inbound => exact htarget

/-! ## The persistent store -/

namespace PersistentStore

variable {prim : Primitives} {put : Set Edge} {s : PersistentStore} {ns : String} {edge : Edge}

/-- The layout of the edge tables. -/
def layout (hlabels : EdgesApart prim put) : Layout String String where
  key := dbKey
  names := {name | NulFree name}
  texts := Set.univ
  put := put
  kappa := Edge.kappa prim
  norm := prim.nfc
  apart _ hn _ hm _ _ _ _ heq := ((dbKey_inj hn hm).mp heq).2
  labels f hf g hg heq d := by
    have hcanon := hlabels f hf g hg heq
    cases d with
    | outbound => exact congrArg Edge.source hcanon
    | inbound => exact congrArg Edge.target hcanon
  used _ _ := ⟨trivial, fun _ => trivial⟩

/-- The labels that the index of a direction lists under a key. -/
def listedAt (s : PersistentStore) : Direction → String → List String
  | .outbound => s.edgeFwd.values
  | .inbound => s.edgeRev.values

abbrev Kept (hlabels : EdgesApart prim put) (s : PersistentStore) : Prop :=
  (layout hlabels).Keeps s.edges s.listedAt

variable (hnfc : ∀ t, prim.nfc (prim.nfc t) = prim.nfc t) {hlabels : EdgesApart prim put}
include hnfc

theorem kept_edgeInsert (h : Kept hlabels s) (hns : NulFree ns) (hedge : edge ∈ put) :
    Kept hlabels (s.edgeInsert prim ns edge) := by
  refine h.insert (n := ns) (f := edge) hns hedge (fun _ => trivial) ?_ ?_
  · intro d
    cases d <;> exact hnfc _
  · intro d k l hl
    cases d <;> exact ((Multimap.mem_values_add ..).mp hl).symm

theorem kept_edgePut (h : Kept hlabels s) (hns : NulFree ns) (hedge : edge ∈ put) :
    Kept hlabels (s.edgePut prim ns edge) := by
  unfold edgePut edgeUpsert
  cases hfind : (s.blobPut (edge.kappa prim) (prim.edgeBytes edge)).findLogical ns edge with
  | some kappa =>
    dsimp only
    split
    · exact h
    · obtain ⟨old, hold, hsame⟩ := findLogical_eq_some hfind
      refine h.update hold (fun _ => trivial) ?_
      intro d
      rw [endOf_eq_of_same hsame d]
      cases d <;> exact hnfc _
  | none =>
    dsimp only
    split <;> exact kept_edgeInsert hnfc h hns hedge

theorem kept_edgePutBatch {edges : List Edge} (h : Kept hlabels s) (hns : NulFree ns)
    (hedges : ∀ f ∈ edges, f ∈ put) : Kept hlabels (s.edgePutBatch prim ns edges) := by
  induction edges generalizing s with
  | nil => exact h
  | cons edge edges ih =>
    refine ih ?_ (fun f hf => hedges f (mem_cons_of_mem _ hf))
    exact kept_edgeInsert hnfc (s := s.blobPut (edge.kappa prim) (prim.edgeBytes edge)) h hns
      (hedges edge mem_cons_self)

omit hnfc in
theorem kept_edgeDelete (h : Kept hlabels s) (source target : String) (relation : EdgeRelation) :
    Kept hlabels (s.edgeDelete ns source target relation) := by
  refine h.shrink (fun _ _ => edgeDelete_row) ?_
  intro d k l hl
  unfold edgeDelete at hl
  dsimp only at hl
  split at hl
  · exact hl
  · cases d <;> exact ((Multimap.mem_values_remove ..).mp hl).2

/-- A write to a namespace without NUL in its name, of edges in `put`. -/
def Puts (put : Set Edge) : EdgeWrite → Prop
  | .one (.put ns edge) => NulFree ns ∧ edge ∈ put
  | .one (.delete ..) => True
  | .batch ns edges => NulFree ns ∧ ∀ f ∈ edges, f ∈ put

theorem kept_run (h : Kept hlabels s) (writes : List EdgeWrite)
    (hwrites : ∀ write ∈ writes, Puts put write) :
    Kept hlabels (writes.foldl (edgeWrite prim) s) := by
  induction writes generalizing s with
  | nil => exact h
  | cons write writes ih =>
    refine ih ?_ (fun w hw => hwrites w (mem_cons_of_mem _ hw))
    have hwrite := hwrites write mem_cons_self
    cases write with
    | one req =>
      cases req with
      | put ns edge => exact kept_edgePut hnfc h hwrite.1 hwrite.2
      | delete ns source target relation => exact kept_edgeDelete h source target relation
    | batch ns edges => exact kept_edgePutBatch hnfc h hwrite.1 hwrite.2

/-- **The persistent store lists what it is asked for**, after every run of edge writes whose
labels do not collide. -/
theorem persistent_lists (hempty : s.edges = ∅ ∧ s.edgeFwd = ∅ ∧ s.edgeRev = ∅)
    (hlabels : EdgesApart prim put) (writes : List EdgeWrite)
    (hwrites : ∀ write ∈ writes, Puts put write) :
    (writes.foldl (edgeWrite prim) s).toKappaStore.Lists prim.nfc Set.univ := by
  have hstart : Kept hlabels s := by
    refine .empty hempty.1 fun d k => ?_
    cases d <;> simp [listedAt, hempty.2]
  refine (kept_run hnfc hstart writes hwrites).lists NamespaceRef.asStr ?_ (fun _ h => h) ?_
  · intro name ns hres
    obtain ⟨uuid, -, rfl⟩ := namespaceResolve_eq_ok.mp hres
    rfl
  · rintro ns ⟨anchor, direction, relation, asserter⟩
    cases direction <;> rfl

end PersistentStore

/-! ## The in-memory store -/

namespace InMemoryStore

variable {prim : Primitives} {put : Set Edge} {texts : Set String} {s : InMemoryStore}

/-- The layout of the edge maps, if the hashes of the texts in use do not collide either. -/
def layout (hhash : Set.InjOn prim.itemHash texts) (hlabels : EdgesApart prim put)
    (hused : ∀ f ∈ put, f.kappa prim ∈ texts ∧ ∀ d : Direction, d.endOf f ∈ texts) :
    Layout (Uuid × ℕ) Uuid where
  key uuid text := (uuid, prim.itemHash text)
  names := Set.univ
  texts := texts
  put := put
  kappa := Edge.kappa prim
  norm := prim.nfc
  apart _ _ _ _ _ hx _ hy heq := hhash hx hy (Prod.mk.inj heq).2
  labels := (PersistentStore.layout hlabels).labels
  used := hused

/-- The labels that the index of a direction lists under a key. -/
def listedAt (s : InMemoryStore) : Direction → Uuid × ℕ → List String
  | .outbound, key => s.fwdIndex[key]?.getD []
  | .inbound, key => s.revIndex[key]?.getD []

theorem mem_pushIndex {index : Table (Uuid × ℕ) (List String)} {ns : NamespaceRef}
    {anchor kappa l : String} {k : Uuid × ℕ}
    (h : l ∈ (pushIndex prim index ns anchor kappa)[k]?.getD []) :
    l ∈ index[k]?.getD [] ∨ (ns.uuid, prim.itemHash anchor) = k ∧ kappa = l := by
  rw [pushIndex, Table.get_insert] at h
  split_ifs at h with hk
  · subst hk
    rcases mem_append.mp h with hbefore | hnew
    · exact .inl hbefore
    · exact .inr ⟨rfl, (mem_singleton.mp hnew).symm⟩
  · exact .inl h

variable {hhash : Set.InjOn prim.itemHash texts} {hlabels : EdgesApart prim put}
  {hused : ∀ f ∈ put, f.kappa prim ∈ texts ∧ ∀ d : Direction, d.endOf f ∈ texts}

theorem keeps_edgePut (h : (layout hhash hlabels hused).Keeps s.edges s.listedAt)
    (ns : NamespaceRef) {edge : Edge} (hedge : edge ∈ put) :
    (layout hhash hlabels hused).Keeps (s.edgePut prim ns edge).edges
      (s.edgePut prim ns edge).listedAt := by
  have hsame : (layout hhash hlabels hused).Keeps (s.ensureNamespace ns).edges
      (s.ensureNamespace ns).listedAt := by
    unfold ensureNamespace
    split <;> exact h
  unfold edgePut
  dsimp only
  split
  · rename_i kappa hfind
    have hfound := find?_some hfind
    obtain ⟨old, hold, hlogical⟩ := (Option.any_eq_true _ _).mp hfound
    exact hsame.update hold (hused edge hedge).2 fun d => by rw [endOf_eq_of_same hlogical d]
  · refine hsame.insert (n := ns.uuid) (f := edge) trivial hedge (hused edge hedge).2
      (fun _ => rfl) ?_
    intro d k l hl
    cases d <;> exact mem_pushIndex hl

/-- Puts edges, each into its namespace. -/
def putAll (prim : Primitives) (s : InMemoryStore) (puts : List (NamespaceRef × Edge)) :
    InMemoryStore :=
  puts.foldl (fun s p => s.edgePut prim p.1 p.2) s

theorem keeps_putAll (h : (layout hhash hlabels hused).Keeps s.edges s.listedAt)
    (puts : List (NamespaceRef × Edge)) (hputs : ∀ p ∈ puts, p.2 ∈ put) :
    (layout hhash hlabels hused).Keeps (s.putAll prim puts).edges (s.putAll prim puts).listedAt := by
  induction puts generalizing s with
  | nil => exact h
  | cons p puts ih =>
    exact ih (keeps_edgePut h p.1 (hputs p mem_cons_self))
      (fun p' hp' => hputs p' (mem_cons_of_mem _ hp'))

/-- **The in-memory store lists what it is asked for**, after every run of puts, as far as the
hashes of the texts in use do not collide. -/
theorem memory_lists (hempty : s.edges = ∅ ∧ s.fwdIndex = ∅ ∧ s.revIndex = ∅)
    (hhash : Set.InjOn prim.itemHash texts) (hlabels : EdgesApart prim put)
    (hused : ∀ f ∈ put, f.kappa prim ∈ texts ∧ ∀ d : Direction, d.endOf f ∈ texts)
    (puts : List (NamespaceRef × Edge)) (hputs : ∀ p ∈ puts, p.2 ∈ put) :
    ((s.putAll prim puts).toKappaStore prim).Lists prim.nfc texts := by
  have hstart : (layout hhash hlabels hused).Keeps s.edges s.listedAt := by
    refine .empty hempty.1 fun d k => ?_
    cases d <;> simp [listedAt, hempty.2]
  refine (keeps_putAll hstart puts hputs).lists NamespaceRef.uuid ?_ (fun _ _ => trivial) ?_
  · intro name ns hres
    change namespaceResolve _ name none = .ok ns at hres
    unfold namespaceResolve at hres
    split at hres
    · cases hres
      rfl
    · cases hres
  · rintro ns ⟨anchor, direction, relation, asserter⟩
    cases direction <;> rfl

end InMemoryStore

end KappaRegistry
