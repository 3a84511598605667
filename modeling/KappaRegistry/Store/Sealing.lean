import KappaRegistry.Store.EdgeTables
import KappaRegistry.Store.Epoch
import KappaRegistry.Store.TagRows
import Mathlib.Data.List.Pairwise

/-!
# What Is Sealed Under Which Nonce

Every write of a tag, an edge, a sequence counter or an epoch pointer is a call of `encrypt_value`,
and the nonce of the call is derived from the row's key alone. Rows are rewritten, and the keys of the
four tables are the same kind of text, so two tables can have a row of one key.

`runWrites` lists the calls of a run. It ends at `epoch_advance`, which seals the number of the epoch and
then waits for ever. **`runWrites_nonceRespecting`**: no nonce is used for two plaintexts if a row that
two operations name gets the same label of a tag, or the same edge, from both, and no edge is put again
with another value.
-/

namespace KappaRegistry

open Lib PersistentStore List

/-! ## Tags in batches -/

namespace PersistentStore

variable (s : PersistentStore)

def tagVersion (key : String) : ℕ :=
  if s.encrypted then 0 else (s.tags[key]?.map TagValue.version).getD 0

def tagDelete (ns name : String) : PersistentStore :=
  { s with tags := s.tags.erase (dbKey ns name) }

/-- The first update of a batch whose version check fails. -/
def casConflict (ns : String) (updates : List TagUpdate) : Option TagUpdate :=
  updates.find? fun update => update.expectedVersion.any
    fun expected => s.tagVersion (dbKey ns update.name) != expected

end PersistentStore

/-! ## Writes -/

/-- What is written to a row. -/
inductive Content where
  | tag (kappa : String) (version : ℕ)
  | edge (bytes : Bytes)
  | counter (value : ℕ)
  | pointer (kappa : String)
  deriving DecidableEq

def Content.plaintext : Content → Bytes
  | tag kappa version => textBytes (tagText kappa version)
  | edge bytes => bytes
  | counter value => bigEndian 8 value
  | pointer kappa => textBytes kappa

/-- A call of `encrypt_value`: the row's key, and what is written there. -/
structure Write where
  row : String
  content : Content
  deriving DecidableEq

/-- A call of a table operation. Reads seal nothing and are left out. -/
inductive TableOp where
  | tagSet (ns name kappa : String)
  | tagSetBatch (ns : String) (updates : List TagUpdate)
  | tagDelete (ns name : String)
  | edgePut (ns : String) (edge : Edge)
  | edgePutBatch (ns : String) (edges : List Edge)
  | edgeDelete (ns source target : String) (relation : EdgeRelation)
  | sequenceNext (ns name : String)
  | epochAdvance (ns : String) (mutations : List EpochMutation) (nowMs : ℕ)

variable (prim : Primitives) (leafBytes : EpochFields → Bytes)

namespace TableStore

/-- The write of `tag_set`. -/
def tagWrite (s : PersistentStore) (ns name kappa : String) : Write :=
  ⟨dbKey ns name, .tag kappa (s.tagVersion (dbKey ns name) + 1)⟩

/-- Phase 2 of a batch. -/
def tagWrites (ns : String) : PersistentStore → List TagUpdate → List Write × PersistentStore
  | s, [] => ([], s)
  | s, update :: updates =>
    let (writes, s') := tagWrites ns (s.tagSet ns update.name update.kappa) updates
    (tagWrite s ns update.name update.kappa :: writes, s')

/-- The writes of `edge_put`: none if the same edge is there, and otherwise one, under the label
of the same logical edge if there is one. -/
def edgeWrites (s : PersistentStore) (ns : String) (edge : Edge) : List Write :=
  match s.findLogical ns edge with
  | some kappa =>
    let unchanged := (s.edgeAt ns kappa).any fun existing =>
      existing.valueKappa == edge.valueKappa && existing.metadata == edge.metadata
    if unchanged then [] else [⟨dbKey ns kappa, .edge (prim.edgeBytes edge)⟩]
  | none => [⟨dbKey ns (edge.kappa prim), .edge (prim.edgeBytes edge)⟩]

/-- One operation: the rows it writes, and the tables after it. -/
def apply (s : TableStore) : TableOp → List Write × TableStore
  | .tagSet ns name kappa =>
    ([tagWrite s.store ns name kappa], { s with store := s.store.tagSet ns name kappa })
  | .tagSetBatch ns updates =>
    match s.store.casConflict ns updates with
    | some _ => ([], s)
    | none =>
      let (writes, store) := tagWrites ns s.store updates
      (writes, { s with store })
  | .tagDelete ns name => ([], { s with store := s.store.tagDelete ns name })
  | .edgePut ns edge =>
    (edgeWrites prim s.store ns edge, { s with store := s.store.edgePut prim ns edge })
  | .edgePutBatch ns edges =>
    (edges.map fun edge => ⟨dbKey ns (edge.kappa prim), .edge (prim.edgeBytes edge)⟩,
      { s with store := s.store.edgePutBatch prim ns edges })
  | .edgeDelete ns source target relation =>
    ([], { s with store := s.store.edgeDelete ns source target relation })
  | .sequenceNext ns name =>
    let (value, s') := s.sequenceNext ns name
    ([⟨dbKey ns name, .counter value⟩], s')
  | .epochAdvance ns mutations nowMs =>
    let number : Write := ⟨dbKey ns "_epoch", .counter (s.nextCounter (dbKey ns "_epoch"))⟩
    match s.epochAdvance prim leafBytes ns mutations nowMs with
    | .error _ => ([], s)
    | .ok none => ([number], s)
    | .ok (some (kappa, s')) => ([number, ⟨ns, .pointer kappa⟩], s')

/-- The operation never returns. -/
def waits (s : TableStore) : TableOp → Bool
  | .epochAdvance ns mutations nowMs =>
    (s.epochAdvance prim leafBytes ns mutations nowMs).toOption.any Option.isNone
  | _ => false

/-- Every call of `encrypt_value` in a run. What comes after an operation that never returns waits for
its write transaction. -/
def runWrites : TableStore → List TableOp → List Write
  | _, [] => []
  | s, op :: ops => (s.apply prim leafBytes op).1 ++
      if s.waits prim leafBytes op then [] else runWrites (s.apply prim leafBytes op).2 ops

end TableStore

open TableStore

/-! ## Nonces -/

def Write.call (enc : TableEncryptor) (w : Write) : Bytes × Bytes :=
  (enc.rowNonce w.row, w.content.plaintext)

/-- No nonce is used for two plaintexts. -/
def NonceRespecting (calls : List (Bytes × Bytes)) : Prop :=
  ∀ c ∈ calls, ∀ c' ∈ calls, c.1 = c'.1 → c.2 = c'.2

/-! ## What the operations name -/

namespace TableOp

/-- The edges that are put, with the namespace. -/
def puts : TableOp → List (String × Edge)
  | .edgePut ns edge => [(ns, edge)]
  | .edgePutBatch ns edges => edges.map fun edge => (ns, edge)
  | _ => []

/-- The rows that an operation can write, and what it seals there. A counter is something else every
time. -/
def rows (op : TableOp) : List (String × Option Content) :=
  match op with
  | .tagSet ns name kappa => [(dbKey ns name, some (.tag kappa 1))]
  | .tagSetBatch ns updates =>
    updates.map fun update => (dbKey ns update.name, some (.tag update.kappa 1))
  | .sequenceNext ns name => [(dbKey ns name, none)]
  | .epochAdvance ns _ _ => [(dbKey ns "_epoch", none)]
  | _ => op.puts.map fun put => (dbKey put.1 (put.2.kappa prim), some (.edge (prim.edgeBytes put.2)))

end TableOp

/-- An edge that is put where another with its names is has the same value. -/
def KeepsValue (old new : String × Edge) : Prop :=
  (∃ k, dbKey old.1 (old.2.kappa prim) = dbKey new.1 k) →
    sameLogicalEdge (old.2.canonical prim) new.2 = true →
    (old.2.canonical prim).valueKappa = new.2.valueKappa ∧
      (old.2.canonical prim).metadata = new.2.metadata

/-- No row is sealed with two contents, and no edge is put again with another value. -/
structure SealsOnce (ops : List TableOp) : Prop where
  rows : (ops.flatMap (TableOp.rows prim)).Pairwise fun a b => a.1 = b.1 → a.2 = b.2 ∧ a.2 ≠ none
  values : ∀ old ∈ ops.flatMap TableOp.puts, ∀ new ∈ ops.flatMap TableOp.puts, KeepsValue prim old new

/-- An encrypted store whose edges were all put. -/
structure SealedBy (puts : List (String × Edge)) (s : TableStore) : Prop where
  encrypted : s.store.encrypted = true
  edges : ∀ (key : String) (e : Edge), s.store.edges[key]? = some e →
    ∃ put ∈ puts, key = dbKey put.1 (put.2.kappa prim) ∧ e = put.2.canonical prim

def Write.named (w : Write) : String × Option Content :=
  (w.row, match w.content with
    | .tag .. | .edge _ => some w.content
    | .counter _ | .pointer _ => none)

theorem tagWrite_named {s : PersistentStore} (hs : s.encrypted = true) (ns name kappa : String) :
    (tagWrite s ns name kappa).named = (dbKey ns name, some (.tag kappa 1)) := by
  rw [tagWrite, tagVersion, if_pos hs]
  rfl

theorem tagWrites_named (ns : String) (updates : List TagUpdate) {s : PersistentStore}
    (hs : s.encrypted = true) : (tagWrites ns s updates).2.encrypted = true ∧
      (tagWrites ns s updates).2.edges = s.edges ∧
      (tagWrites ns s updates).1.map Write.named =
        updates.map fun update => (dbKey ns update.name, some (.tag update.kappa 1)) := by
  induction updates generalizing s with
  | nil => exact ⟨hs, rfl, rfl⟩
  | cons update updates ih =>
    obtain ⟨hnext, hedges, hwrites⟩ := ih (s := s.tagSet ns update.name update.kappa) hs
    refine ⟨hnext, hedges, ?_⟩
    rw [tagWrites, map_cons, map_cons, hwrites, tagWrite_named hs]

section

variable (s : PersistentStore) (ns : String)

theorem edgeUpsert_encrypted (edge : Edge) :
    (s.edgeUpsert prim ns edge).encrypted = s.encrypted :=
  edgeUpsert_induction prim (P := fun t => t.encrypted = s.encrypted) rfl (fun _ => rfl) fun _ => rfl

theorem edgePutBatch_encrypted (edges : List Edge) :
    (s.edgePutBatch prim ns edges).encrypted = s.encrypted := by
  unfold edgePutBatch
  induction edges generalizing s with
  | nil => rfl
  | cons edge edges ih => exact (ih _).trans rfl

theorem edgeDelete_encrypted (source target : String)
    (relation : EdgeRelation) : (s.edgeDelete ns source target relation).encrypted = s.encrypted := by
  unfold edgeDelete
  dsimp only
  split <;> rfl

end

variable {prim} in
theorem edgePut_once {s : PersistentStore} {ns : String} {edge : Edge}
    (hsame : ∀ kappa old, s.edgeAt ns kappa = some old → sameLogicalEdge old edge = true →
      old.valueKappa = edge.valueKappa ∧ old.metadata = edge.metadata) :
    (edgeWrites prim s ns edge = [] ∧ (s.edgePut prim ns edge).edges = s.edges) ∨
      (edgeWrites prim s ns edge = [⟨dbKey ns (edge.kappa prim), .edge (prim.edgeBytes edge)⟩] ∧
        (s.edgePut prim ns edge).edges =
          s.edges.insert (dbKey ns (edge.kappa prim)) (edge.canonical prim)) := by
  have hblob : (s.blobPut (edge.kappa prim) (prim.edgeBytes edge)).findLogical ns edge =
    s.findLogical ns edge := rfl
  unfold edgeWrites edgePut edgeUpsert
  rw [hblob]
  cases hfind : s.findLogical ns edge with
  | some kappa =>
    obtain ⟨old, hold, hlogical⟩ := findLogical_eq_some hfind
    obtain ⟨hvalue, hmeta⟩ := hsame kappa old hold hlogical
    have hkept : ((s.blobPut (edge.kappa prim) (prim.edgeBytes edge)).edgeAt ns kappa).any
        (fun existing => existing.valueKappa == edge.valueKappa && existing.metadata == edge.metadata) =
          true := by
      show (s.edgeAt ns kappa).any _ = true
      simp [hold, hvalue, hmeta]
    left
    dsimp only
    rw [if_pos hkept]
    exact ⟨if_pos hkept, rfl⟩
  | none =>
    refine .inr ⟨rfl, ?_⟩
    dsimp only
    split <;> rfl

variable {prim} {puts : List (String × Edge)} {s : TableStore} {op : TableOp}

theorem SealedBy.epochAdvance (hs : SealedBy prim puts s) (ns : String)
    (mutations : List EpochMutation) (nowMs : ℕ) :
    s.epochAdvance prim leafBytes ns mutations nowMs = .ok none ∨
      ∃ e, s.epochAdvance prim leafBytes ns mutations nowMs = .error e := by
  unfold TableStore.epochAdvance
  cases s.store.tagPrefix ns "" with
  | error e => exact .inr ⟨e, rfl⟩
  | ok tags =>
    left
    show (if s.store.encrypted = true then _ else _) = _
    rw [if_pos hs.encrypted]
    rfl

theorem SealedBy.apply_edgePut {ns : String} {edge : Edge} (hs : SealedBy prim puts s)
    (hmem : (ns, edge) ∈ puts) (hvalues : ∀ old ∈ puts, KeepsValue prim old (ns, edge)) :
    (s.apply prim leafBytes (.edgePut ns edge)).1.map Write.named <+ (TableOp.edgePut ns edge).rows prim ∧
      SealedBy prim puts (s.apply prim leafBytes (.edgePut ns edge)).2 := by
  have hencrypted : (s.store.edgePut prim ns edge).encrypted = true :=
    (edgeUpsert_encrypted prim _ ns edge).trans hs.encrypted
  -- an edge that is there was put by the run, so it has the same value
  have hsame : ∀ kappa old, s.store.edgeAt ns kappa = some old → sameLogicalEdge old edge = true →
      old.valueKappa = edge.valueKappa ∧ old.metadata = edge.metadata := by
    intro kappa old hold hlogical
    obtain ⟨put, hput, hkey, rfl⟩ := hs.edges _ _ hold
    exact hvalues put hput ⟨kappa, hkey.symm⟩ hlogical
  rcases edgePut_once hsame with ⟨hwrites, hedges⟩ | ⟨hwrites, hedges⟩
  · refine ⟨?_, hencrypted, ?_⟩
    · rw [TableStore.apply, hwrites]
      exact nil_sublist _
    · rw [TableStore.apply, hedges]
      exact hs.edges
  · refine ⟨?_, hencrypted, ?_⟩
    · rw [TableStore.apply, hwrites]
      exact .refl _
    · intro key e hrow
      rw [TableStore.apply, hedges] at hrow
      rcases Table.of_get_insert hrow with ⟨rfl, rfl⟩ | ⟨-, hold⟩
      · exact ⟨(ns, edge), hmem, rfl, rfl⟩
      · exact hs.edges key e hold

/-- **One operation** seals at most what it names, and adds no edges but those it puts. -/
theorem SealedBy.apply (hs : SealedBy prim puts s) (hputs : op.puts ⊆ puts)
    (hvalues : ∀ old ∈ puts, ∀ new ∈ op.puts, KeepsValue prim old new) :
    (s.apply prim leafBytes op).1.map Write.named <+ op.rows prim ∧
      SealedBy prim puts (s.apply prim leafBytes op).2 := by
  cases op with
  | tagSet ns name kappa =>
    refine ⟨?_, hs.encrypted, hs.edges⟩
    simp only [TableStore.apply, map_cons, tagWrite_named hs.encrypted]
    exact .refl _
  | tagSetBatch ns updates =>
    cases hconflict : s.store.casConflict ns updates with
    | some update =>
      simp only [TableStore.apply, hconflict]
      exact ⟨nil_sublist _, hs⟩
    | none =>
      obtain ⟨hnext, hedges, hwrites⟩ := tagWrites_named ns updates hs.encrypted
      simp only [TableStore.apply, hconflict]
      refine ⟨by rw [hwrites]; exact .refl _, hnext, ?_⟩
      rw [hedges]
      exact hs.edges
  | tagDelete ns name => exact ⟨nil_sublist _, hs.encrypted, hs.edges⟩
  | edgePut ns edge =>
    exact hs.apply_edgePut leafBytes (hputs (mem_singleton_self _))
      fun old hold => hvalues old hold _ (mem_singleton_self _)
  | edgePutBatch ns edges =>
    refine ⟨?_, (edgePutBatch_encrypted prim _ ns edges).trans hs.encrypted, ?_⟩
    · simp only [TableStore.apply, TableOp.rows, TableOp.puts, map_map]
      exact .refl _
    · intro key e hrow
      rcases edgePutBatch_row prim hrow with hold | ⟨edge, hedge, hkey, he⟩
      · exact hs.edges key e hold
      · exact ⟨(ns, edge), hputs (mem_map_of_mem hedge), hkey, he⟩
  | edgeDelete ns source target relation =>
    refine ⟨nil_sublist _, (edgeDelete_encrypted _ ns source target relation).trans hs.encrypted, ?_⟩
    intro key e hrow
    exact hs.edges key e (edgeDelete_row hrow)
  | sequenceNext ns name => exact ⟨.refl _, hs.encrypted, hs.edges⟩
  | epochAdvance ns mutations nowMs =>
    rcases hs.epochAdvance leafBytes ns mutations nowMs with hwaits | ⟨e, herror⟩
    · simp only [TableStore.apply, hwaits]
      exact ⟨.refl _, hs⟩
    · simp only [TableStore.apply, herror]
      exact ⟨nil_sublist _, hs⟩

theorem runWrites_named {ops : List TableOp} (hs : SealedBy prim puts s)
    (hputs : ops.flatMap TableOp.puts ⊆ puts)
    (hvalues : ∀ old ∈ puts, ∀ new ∈ ops.flatMap TableOp.puts, KeepsValue prim old new) :
    (runWrites prim leafBytes s ops).map Write.named <+ ops.flatMap (TableOp.rows prim) := by
  induction ops generalizing s with
  | nil => exact .refl _
  | cons op ops ih =>
    rw [flatMap_cons] at hputs hvalues
    obtain ⟨hwrites, hnext⟩ := hs.apply leafBytes (fun put h => hputs (mem_append_left _ h))
      fun old hold new hnew => hvalues old hold new (mem_append_left _ hnew)
    rw [runWrites, map_append, flatMap_cons]
    refine hwrites.append ?_
    split
    · exact nil_sublist _
    · exact ih hnext (fun put h => hputs (mem_append_right _ h))
        fun old hold new hnew => hvalues old hold new (mem_append_right _ hnew)

theorem Write.plaintext_eq {w w' : Write} (h : w.named.2 = w'.named.2) (hne : w.named.2 ≠ none) :
    w.content.plaintext = w'.content.plaintext := by
  obtain ⟨row, content⟩ := w
  obtain ⟨row', content'⟩ := w'
  cases content with
  | tag kappa version | edge bytes =>
    cases content' with
    | tag kappa' version' | edge bytes' => cases h <;> rfl
    | counter value | pointer kappa => cases h
  | counter value | pointer kappa => exact absurd rfl hne

/-- **No nonce is used for two plaintexts** in a run that seals every row once. -/
theorem runWrites_nonceRespecting {enc : TableEncryptor} {s : TableStore}
    (hs : s.store.encrypted = true) (hedges : s.store.edges = ∅) {ops : List TableOp}
    (hhash : Set.InjOn enc.rowNonce {row | row ∈ (ops.flatMap (TableOp.rows prim)).map Prod.fst})
    (hops : SealsOnce prim ops) :
    NonceRespecting ((runWrites prim leafBytes s ops).map (Write.call enc)) := by
  have hstart : SealedBy prim (ops.flatMap TableOp.puts) s := ⟨hs, by simp [hedges]⟩
  have hnamed := runWrites_named leafBytes hstart (fun _ h => h) hops.values
  have hrow : ∀ w ∈ runWrites prim leafBytes s ops,
      w.row ∈ (ops.flatMap (TableOp.rows prim)).map Prod.fst := by
    intro w hw
    exact mem_map_of_mem (f := Prod.fst) (hnamed.subset (mem_map_of_mem hw))
  -- two writes of one row have the same plaintext, whichever of them came first
  have hplain : ∀ w ∈ runWrites prim leafBytes s ops, ∀ w' ∈ runWrites prim leafBytes s ops,
      w.row = w'.row → w.content.plaintext = w'.content.plaintext := by
    have hsymm : Std.Symm fun w w' : Write =>
        w.row = w'.row → w.content.plaintext = w'.content.plaintext :=
      ⟨fun _ _ h hrow => (h hrow.symm).symm⟩
    apply List.Pairwise.forall_of_forall
    · intro w _ _
      rfl
    · refine (pairwise_map.mp (hops.rows.sublist hnamed)).imp ?_
      intro w w' h hrow
      exact Write.plaintext_eq (h hrow).1 (h hrow).2
  intro c hc c' hc' hnonce
  obtain ⟨w, hw, rfl⟩ := List.mem_map.mp hc
  obtain ⟨w', hw', rfl⟩ := List.mem_map.mp hc'
  exact hplain w hw w' hw' (hhash (hrow w hw) (hrow w' hw') hnonce)

/-- A tag and an edge are set twice, a sequence is counted, an epoch begins, and a tag is never set. -/
def sealedOps : List TableOp :=
  [.tagSet "ns" "a" "k", .tagSet "ns" "a" "k", .edgePut "ns" ⟨"a", "b", .owns, "x", none, none⟩,
    .edgePutBatch "ns" [⟨"a", "b", .owns, "x", none, none⟩], .sequenceNext "other" "a",
    .epochAdvance "ns" [] 0, .tagSet "ns" "b" "k"]

theorem runWrites_nonceRespecting_repeat :
    (runWrites Primitives.sample (fun _ => []) (.new true) sealedOps).length = 6 ∧
    NonceRespecting ((runWrites Primitives.sample (fun _ => []) (.new true) sealedOps).map
      (Write.call .sample)) := by
  have hnonce : ∀ a ∈ (sealedOps.flatMap (TableOp.rows .sample)).map Prod.fst,
      ∀ b ∈ (sealedOps.flatMap (TableOp.rows .sample)).map Prod.fst,
      TableEncryptor.sample.rowNonce a = TableEncryptor.sample.rowNonce b → a = b := by decide +kernel
  refine ⟨by decide +kernel, runWrites_nonceRespecting _ rfl rfl
    (fun a ha b hb => hnonce a ha b hb) ⟨by decide +kernel, ?_⟩⟩
  intro old hold new hnew _ _
  simp only [sealedOps, TableOp.puts, flatMap_cons, flatMap_nil, map_cons, map_nil, nil_append,
    append_nil, cons_append, mem_cons, not_mem_nil, or_false, or_self] at hold hnew
  rw [hold, hnew]
  exact ⟨rfl, rfl⟩

/-- Setting a tag to another label seals two texts under one nonce, and so does every second step
of a sequence. -/
theorem runWrites_nonce_reused :
    let written := runWrites Primitives.sample (fun _ => []) (.new true)
    ¬ NonceRespecting ((written [.tagSet "ns" "a" "k", .tagSet "ns" "a" "l"]).map
        (Write.call .sample)) ∧
      ¬ NonceRespecting ((written [.sequenceNext "ns" "a", .sequenceNext "ns" "a"]).map
        (Write.call .sample)) := by
  intro written
  have htags : written [.tagSet "ns" "a" "k", .tagSet "ns" "a" "l"] =
      [⟨"ns\x00a", .tag "k" 1⟩, ⟨"ns\x00a", .tag "l" 1⟩] := by decide +kernel
  have hcounts : written [.sequenceNext "ns" "a", .sequenceNext "ns" "a"] =
      [⟨"ns\x00a", .counter 1⟩, ⟨"ns\x00a", .counter 2⟩] := by decide +kernel
  have hdiffer : (Content.tag "k" 1).plaintext ≠ (Content.tag "l" 1).plaintext ∧
      (Content.counter 1).plaintext ≠ (Content.counter 2).plaintext := by decide +kernel
  rw [htags, hcounts]
  constructor
  · intro h
    exact hdiffer.1 (h (Write.call .sample ⟨"ns\x00a", .tag "k" 1⟩) (by simp)
      (Write.call .sample ⟨"ns\x00a", .tag "l" 1⟩) (by simp) rfl)
  · intro h
    exact hdiffer.2 (h (Write.call .sample ⟨"ns\x00a", .counter 1⟩) (by simp)
      (Write.call .sample ⟨"ns\x00a", .counter 2⟩) (by simp) rfl)

end KappaRegistry
