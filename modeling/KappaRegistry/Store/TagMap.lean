import KappaRegistry.Lib.VersionedMap
import KappaRegistry.Store.Memory
import KappaRegistry.Store.Namespaces
import KappaRegistry.Store.TagRows

/-!
# One Tag Map for Both Stores

What a store's tags are for: each namespace has a versioned map from names to labels (`TagMap`).
The in-memory store keeps an entry under the namespace's UUID and a hash of the name, and sorts
when it lists. The persistent store keeps a text under the namespace's name and the tag's name, and
lists a range of its ordered table.

Both simulate the map, call by call (`InMemoryStore.step_holds`, `step_rowsHold`), so both give its
answers along every run: **`tagStores_refine`**. Versions are unsigned words, so the successor
wraps around in all three.
-/

namespace KappaRegistry

open Lib PersistentStore List Function Table TagUpdate VersionedMap

/-! ## The abstract map -/

/-- The tags of every namespace, by the namespace's name. -/
abbrev TagMap := String → VersionedMap String String

/-- The version after a version, in 64 bits. -/
def nextVersion (version : ℕ) : ℕ := (version + 1) % (u64Max + 1)

theorem nextVersion_le (version : ℕ) : nextVersion version ≤ u64Max :=
  Nat.le_of_lt_succ (Nat.mod_lt _ (Nat.succ_pos _))

/-- A call of a tag operation through a reference. -/
inductive TagRequest where
  | set (ns : NamespaceRef) (name kappa : String)
  | setBatch (ns : NamespaceRef) (updates : List TagUpdate)
  | delete (ns : NamespaceRef) (name : String)
  | get (ns : NamespaceRef) (name : String)
  | list (ns : NamespaceRef)

namespace TagRequest

def ns : TagRequest → NamespaceRef
  | set ns _ _ | setBatch ns _ | delete ns _ | get ns _ | list ns => ns

def names : TagRequest → List String
  | set _ name _ | delete _ name | get _ name => [name]
  | setBatch _ updates => updates.map name
  | list _ => []

end TagRequest

open TagRequest

/-- What a caller learns from a call: the answer, or the kind of failure. -/
inductive TagOutcome where
  | answer (answer : TagAnswer)
  | notFound
  | conflict
  | failed
  deriving DecidableEq

/-- The outcome of a call that returned or failed. -/
def TagOutcome.of : Except StoreError TagAnswer → TagOutcome
  | .ok a => answer a
  | .error (.notFound _) => notFound
  | .error (.conflict _) => conflict
  | .error _ => failed

/-- One write of a batch, to the map of its namespace. -/
def TagUpdate.toUpdate (update : TagUpdate) : VersionedUpdate String String :=
  ⟨update.name, update.kappa, update.expectedVersion⟩

theorem admits_cons (tags : VersionedMap String String) (update : TagUpdate)
    (updates : List TagUpdate) : tags.admits ((update :: updates).map toUpdate) =
      (update.expectedVersion.all (fun expected => tags.version update.name == expected) &&
        tags.admits (updates.map toUpdate)) := rfl

/-- A tag of the map as stores list it. -/
def mapEntry (row : String × Versioned String) : TagEntry :=
  { name := row.1, kappa := row.2.value, version := row.2.version }

namespace TagMap

def write (m : TagMap) (ns name kappa : String) : TagMap :=
  Function.update m ns ((m ns).write nextVersion name kappa)

variable (m : TagMap)

def delete (ns name : String) : TagMap := Function.update m ns ((m ns).erase name)

/-- The map's answer to a call, and the map after it. -/
def step : TagRequest → TagOutcome × TagMap
  | .set ns name kappa =>
    (.answer (.version (nextVersion ((m ns.asStr).version name))), m.write ns.asStr name kappa)
  | .setBatch ns updates =>
    match (m ns.asStr).writeBatch nextVersion (updates.map toUpdate) with
    | some tags => (.answer .done, Function.update m ns.asStr tags)
    | none => (.conflict, m)
  | .delete ns name => (.answer .done, m.delete ns.asStr name)
  | .get ns name =>
    match (m ns.asStr)[name]? with
    | some e => (.answer (.entry (mapEntry (name, e))), m)
    | none => (.notFound, m)
  | .list ns => (.answer (.entries ((m ns.asStr).toList.map mapEntry)), m)

/-- The map's answers to a list of calls. -/
def run : TagMap → List TagRequest → List TagOutcome
  | _, [] => []
  | m, request :: requests => (m.step request).1 :: run (m.step request).2 requests

def empty : TagMap := fun _ => ∅

theorem get_write (ns ns' name name' kappa : String) : (m.write ns name kappa ns')[name']? =
      if ns = ns' ∧ name = name' then some ⟨kappa, nextVersion ((m ns).version name)⟩
      else (m ns')[name']? := by
  unfold write
  by_cases hns : ns = ns'
  · subst hns
    simp only [update_self, VersionedMap.get_write, true_and]
  · rw [update_of_ne (Ne.symm hns), if_neg fun h => hns h.1]

theorem get_delete (ns ns' name name' : String) : (m.delete ns name ns')[name']? =
      if ns = ns' ∧ name = name' then none else (m ns')[name']? := by
  unfold delete
  by_cases hns : ns = ns'
  · subst hns
    simp only [update_self, get_erase, true_and]
  · rw [update_of_ne (Ne.symm hns), if_neg fun h => hns h.1]

theorem update_writeAll (ns : String) (updates : List TagUpdate) :
    update m ns ((m ns).writeAll nextVersion (updates.map toUpdate)) =
      updates.foldl (fun m update => m.write ns update.name update.kappa) m := by
  induction updates generalizing m with
  | nil => exact update_eq_self ns m
  | cons update updates ih =>
    rw [foldl_cons, ← ih, write, update_self, update_idem]
    rfl

theorem step_setBatch (ns : NamespaceRef) (updates : List TagUpdate) :
    m.step (.setBatch ns updates) =
      if (m ns.asStr).admits (updates.map toUpdate) then
        (.answer .done, updates.foldl (fun m update => m.write ns.asStr update.name update.kappa) m)
      else (.conflict, m) := by
  unfold step writeBatch
  by_cases hadmits : (m ns.asStr).admits (updates.map toUpdate) = true
  · simp only [if_pos hadmits]
    rw [update_writeAll]
  · simp only [if_neg hadmits]

/-- **A call changes no tag that it does not name**, in its namespace or in another. -/
theorem step_frame (request : TagRequest) {ns name : String}
    (h : ns ≠ request.ns.asStr ∨ name ∉ request.names) :
    ((m.step request).2 ns)[name]? = (m ns)[name]? := by
  have hother : ∀ name' ∈ request.names, ¬(request.ns.asStr = ns ∧ name' = name) := by
    rintro name' hname' ⟨rfl, rfl⟩
    exact h.elim (· rfl) (· hname')
  cases request with
  | set ns' name' kappa =>
    exact (get_write ..).trans (if_neg (hother name' (by simp [names])))
  | setBatch ns' updates =>
    unfold step writeBatch
    by_cases hadmits : (m ns'.asStr).admits (updates.map toUpdate) = true
    · simp only [if_pos hadmits]
      by_cases hns : ns = ns'.asStr
      · subst hns
        have hname : name ∉ (updates.map toUpdate).map VersionedUpdate.key := by
          rw [map_map]
          exact h.resolve_left (fun hne => hne rfl)
        rw [update_self, get_writeAll_of_notMem _ _ hname]
      · rw [update_of_ne hns]
    · simp only [if_neg hadmits]
  | delete ns' name' =>
    exact (get_delete ..).trans (if_neg (hother name' (by simp [names])))
  | get ns' name' =>
    simp only [step]
    cases (m ns'.asStr)[name']? <;> rfl
  | list ns' => rfl

end TagMap

open TagMap

/-! ## The in-memory store -/

namespace InMemoryStore

variable (prim : Primitives) (s : InMemoryStore)

def tagVersion (ns : NamespaceRef) (name : String) : ℕ :=
  (s.tags[(ns.uuid, prim.itemHash name)]?.map TagEntry.version).getD 0

/-- The first version check of a batch that fails. -/
def casConflict (ns : NamespaceRef) (updates : List TagUpdate) : Option StoreError :=
  updates.findSome? fun update => update.expectedVersion.bind fun expected =>
    let current := s.tagVersion prim ns update.name
    if expected = current then none
    else some (.conflict ("tag " ++ update.name ++ ": expected version " ++ toString expected ++
      " but current is " ++ toString current))

def tagList (ns : NamespaceRef) : List TagEntry :=
  ((s.tags.toList.filter fun row => row.1.1 == ns.uuid).map Prod.snd).mergeSort
    fun a b => decide (a.name ≤ b.name)

def step : TagRequest → Except StoreError TagAnswer × InMemoryStore
  | .set ns name kappa =>
    (.ok (.version ((s.ensureNamespace ns).nextTagVersion prim ns name)), s.tagSet prim ns name kappa)
  | .setBatch ns updates =>
    let s := s.ensureNamespace ns
    match s.casConflict prim ns updates with
    | some e => (.error e, s)
    | none =>
      (.ok .done, updates.foldl (fun s update => s.writeTag prim ns update.name update.kappa) s)
  | .delete ns name => (.ok .done, s.tagDelete prim ns name)
  | .get ns name => ((s.tagGet prim ns name).map .entry, s)
  | .list ns => (.ok (.entries (s.tagList ns)), s)

def runTags : InMemoryStore → List TagRequest → List (Except StoreError TagAnswer)
  | _, [] => []
  | s, request :: requests => (s.step prim request).1 :: runTags (s.step prim request).2 requests

end InMemoryStore

/-! ## Namespaces with distinct names -/

/-- References of a run and the tag names it mentions. A namespace has one name, different
namespaces have different names, none holds a NUL, and the hash tells the tag names apart. -/
structure DistinctNames (prim : Primitives) (refs : List NamespaceRef) (names : List String) :
    Prop where
  nulFree : ∀ r ∈ refs, NulFree r.asStr
  uuid_iff : ∀ r ∈ refs, ∀ r' ∈ refs, r.uuid = r'.uuid ↔ r.asStr = r'.asStr
  hash_inj : ∀ x ∈ names, ∀ y ∈ names, prim.itemHash x = prim.itemHash y → x = y

namespace InMemoryStore

variable {prim : Primitives} {refs : List NamespaceRef} {names : List String}

variable (prim refs names) in
/-- The store holds a tag map: every tag has its entry, and there are no other entries. -/
structure Holds (s : InMemoryStore) (m : TagMap) : Prop where
  entry : ∀ r ∈ refs, ∀ name ∈ names, s.tags[(r.uuid, prim.itemHash name)]? =
    ((m r.asStr)[name]?).map fun e => mapEntry (name, e)
  named : ∀ r ∈ refs, ∀ (hash : ℕ) e, s.tags[(r.uuid, hash)]? = some e →
    e.name ∈ names ∧ hash = prim.itemHash e.name
  known : ∀ r ∈ refs, ∀ (name : String) e, (m r.asStr)[name]? = some e → name ∈ names

theorem holds_new : (new).Holds prim refs names .empty := by
  refine ⟨?_, ?_, ?_⟩
  · intro r _ name _
    show (∅ : Table (Uuid × ℕ) TagEntry)[_]? = ((∅ : VersionedMap String String)[name]?).map _
    simp
  · intro r _ hash e h
    have h' : (∅ : Table (Uuid × ℕ) TagEntry)[(r.uuid, hash)]? = some e := h
    simp at h'
  · intro r _ name e h
    have h' : (∅ : VersionedMap String String)[name]? = some e := h
    simp at h'

variable {s : InMemoryStore} {m : TagMap}

theorem Holds.ensureNamespace (h : s.Holds prim refs names m) (ns : NamespaceRef) :
    (s.ensureNamespace ns).Holds prim refs names m := by
  refine ⟨?_, ?_, h.known⟩
  · rw [ensureNamespace_tags]
    exact h.entry
  · rw [ensureNamespace_tags]
    exact h.named

variable {r : NamespaceRef} {name : String}

section

variable (h : s.Holds prim refs names m) (hr : r ∈ refs) (hname : name ∈ names)
include h hr hname

theorem Holds.tagVersion_eq :
    s.tagVersion prim r name = (m r.asStr).version name := by
  unfold tagVersion version
  rw [h.entry r hr name hname, Option.map_map]
  rfl

theorem Holds.nextTagVersion_eq :
    s.nextTagVersion prim r name = nextVersion ((m r.asStr).version name) := by
  unfold nextTagVersion version
  rw [h.entry r hr name hname]
  cases (m r.asStr)[name]? with
  | none | some e => rfl

end

section

variable (hd : DistinctNames prim refs names)
include hd

theorem key_eq_iff {r' : NamespaceRef} (hr : r ∈ refs)
    (hr' : r' ∈ refs) {x y : String} (hx : x ∈ names) (hy : y ∈ names) :
    (r.uuid, prim.itemHash x) = (r'.uuid, prim.itemHash y) ↔ r.asStr = r'.asStr ∧ x = y := by
  rw [Prod.mk.injEq, hd.uuid_iff r hr r' hr']
  refine and_congr_right fun _ => ⟨hd.hash_inj x hx y hy, ?_⟩
  intro hxy
  rw [hxy]

section

variable (h : s.Holds prim refs names m) (hr : r ∈ refs) (hname : name ∈ names)
include h hr hname

theorem Holds.writeTag (kappa : String) :
    (s.writeTag prim r name kappa).Holds prim refs names (m.write r.asStr name kappa) := by
  refine ⟨?_, ?_, ?_⟩
  · intro r' hr' name' hname'
    show (s.tags.insert (r.uuid, prim.itemHash name) _)[(r'.uuid, prim.itemHash name')]? = _
    rw [get_insert, get_write, h.nextTagVersion_eq hr hname]
    simp only [key_eq_iff hd hr hr' hname hname']
    by_cases hsame : r.asStr = r'.asStr ∧ name = name'
    · rw [if_pos hsame, if_pos hsame, hsame.2]
      rfl
    · rw [if_neg hsame, if_neg hsame]
      exact h.entry r' hr' name' hname'
  · intro r' hr' hash e he
    rcases of_get_insert he with ⟨hkey, hentry⟩ | ⟨-, hold⟩
    · subst hentry
      exact ⟨hname, (Prod.mk.inj hkey).2.symm⟩
    · exact h.named r' hr' hash e hold
  · intro r' hr' name' e he
    rw [get_write] at he
    by_cases hsame : r.asStr = r'.asStr ∧ name = name'
    · rwa [← hsame.2]
    · rw [if_neg hsame] at he
      exact h.known r' hr' name' e he

theorem Holds.tagDelete :
    (s.tagDelete prim r name).Holds prim refs names (m.delete r.asStr name) := by
  refine ⟨?_, ?_, ?_⟩
  · intro r' hr' name' hname'
    show (s.tags.erase (r.uuid, prim.itemHash name))[(r'.uuid, prim.itemHash name')]? = _
    rw [get_erase, get_delete]
    simp only [key_eq_iff hd hr hr' hname hname']
    by_cases hsame : r.asStr = r'.asStr ∧ name = name'
    · rw [if_pos hsame, if_pos hsame]
      rfl
    · rw [if_neg hsame, if_neg hsame]
      exact h.entry r' hr' name' hname'
  · intro r' hr' hash e he
    exact h.named r' hr' hash e (of_get_erase he)
  · intro r' hr' name' e he
    rw [get_delete] at he
    by_cases hsame : r.asStr = r'.asStr ∧ name = name'
    · simp [if_pos hsame] at he
    · rw [if_neg hsame] at he
      exact h.known r' hr' name' e he

end

end

variable {updates : List TagUpdate}

theorem Holds.writeTags (hd : DistinctNames prim refs names) (h : s.Holds prim refs names m)
    (hr : r ∈ refs) (hnames : ∀ update ∈ updates, update.name ∈ names) :
    (updates.foldl (fun s update => s.writeTag prim r update.name update.kappa) s).Holds prim refs
      names (updates.foldl (fun m update => m.write r.asStr update.name update.kappa) m) := by
  induction updates generalizing s m with
  | nil => exact h
  | cons update updates ih =>
    exact ih (h.writeTag hd hr (hnames update (by simp)) update.kappa)
      fun u hu => hnames u (by simp [hu])

theorem Holds.casConflict_eq (h : s.Holds prim refs names m) (hr : r ∈ refs)
    (hnames : ∀ update ∈ updates, update.name ∈ names) :
    if (m r.asStr).admits (updates.map toUpdate) then s.casConflict prim r updates = none
    else ∃ message, s.casConflict prim r updates = some (.conflict message) := by
  induction updates with
  | nil => rfl
  | cons update updates ih =>
    have hrest := ih fun u hu => hnames u (by simp [hu])
    have hversion := h.tagVersion_eq hr (hnames update (by simp))
    rw [admits_cons, casConflict, findSome?_cons, ← casConflict]
    cases update.expectedVersion with
    | none => exact hrest
    | some expected =>
      dsimp only [Option.bind_some]
      rw [hversion, Option.all_some]
      by_cases heq : expected = (m r.asStr).version update.name
      · rwa [if_pos heq, beq_iff_eq.mpr heq.symm]
      · rw [if_neg heq, beq_eq_false_iff_ne.mpr (Ne.symm heq)]
        exact ⟨_, rfl⟩

theorem Holds.tagList_eq (h : s.Holds prim refs names m) (hr : r ∈ refs) :
    s.tagList r = (m r.asStr).toList.map mapEntry := by
  have hmem : ∀ e, e ∈ s.tagList r ↔ ∃ hash : ℕ, s.tags[(r.uuid, hash)]? = some e := by
    intro e
    simp only [tagList, mem_mergeSort, mem_map, mem_filter, Prod.exists, beq_iff_eq,
      Std.ExtTreeMap.mem_toList_iff_getElem?_eq_some]
    constructor
    · intro ⟨uuid, hash, e', ⟨hrow, huuid⟩, he⟩
      subst huuid he
      exact ⟨hash, hrow⟩
    · intro ⟨hash, hrow⟩
      exact ⟨r.uuid, hash, e, ⟨hrow, rfl⟩, rfl⟩
  -- no two entries of the namespace have one name, so the sorted list is strictly sorted
  have hdistinct : ((s.tags.toList.filter fun row => row.1.1 == r.uuid).map Prod.snd).Pairwise
      fun a b => a.name ≠ b.name := by
    rw [pairwise_map]
    refine (Std.ExtTreeMap.distinct_keys_toList.filter _).imp_of_mem ?_
    intro a b ha hb hkeys hname
    obtain ⟨⟨ua, ha'⟩, ea⟩ := a
    obtain ⟨⟨ub, hb'⟩, eb⟩ := b
    obtain ⟨hrowa, huuida⟩ := mem_filter.mp ha
    obtain ⟨hrowb, huuidb⟩ := mem_filter.mp hb
    obtain rfl : ua = r.uuid := by simpa using huuida
    obtain rfl : ub = r.uuid := by simpa using huuidb
    have hhasha := (h.named r hr ha' ea (Std.ExtTreeMap.mem_toList_iff_getElem?_eq_some.mp hrowa)).2
    have hhashb := (h.named r hr hb' eb (Std.ExtTreeMap.mem_toList_iff_getElem?_eq_some.mp hrowb)).2
    apply hkeys
    rw [Std.compare_eq_iff_eq, hhasha, hhashb]
    exact congrArg (fun name => (r.uuid, prim.itemHash name)) hname
  apply eq_of_pairwise_lt (pairwise_mergeSort_lt hdistinct)
  · rw [pairwise_map, toList_eq_scan]
    exact pairwise_scan _ _
  · intro e
    refine (hmem e).trans ?_
    simp only [mem_map, Prod.exists, Std.ExtTreeMap.mem_toList_iff_getElem?_eq_some]
    constructor
    · intro ⟨hash, hrow⟩
      obtain ⟨hname, hhash⟩ := h.named r hr hash e hrow
      rw [hhash, h.entry r hr e.name hname] at hrow
      obtain ⟨v, hv, he⟩ := Option.map_eq_some_iff.mp hrow
      exact ⟨e.name, v, hv, he⟩
    · intro ⟨name, v, hv, he⟩
      refine ⟨prim.itemHash name, ?_⟩
      rw [h.entry r hr name (h.known r hr name v hv), hv, ← he]
      rfl

section

variable (hd : DistinctNames prim refs names) (h : s.Holds prim refs names m)
include hd h

/-- **One call on the in-memory store** has the map's outcome, and the store holds the map after
it. -/
theorem step_holds
    (request : TagRequest) (hns : request.ns ∈ refs) (hnames : ∀ x ∈ request.names, x ∈ names) :
    .of (s.step prim request).1 = (m.step request).1 ∧
      (s.step prim request).2.Holds prim refs names (m.step request).2 := by
  cases request with
  | set ns name kappa =>
    have hr : ns ∈ refs := hns
    have hname : name ∈ names := hnames name (by simp [TagRequest.names])
    have h' := h.ensureNamespace ns
    refine ⟨?_, h'.writeTag hd hr hname kappa⟩
    show TagOutcome.answer (.version ((s.ensureNamespace ns).nextTagVersion prim ns name)) = _
    rw [h'.nextTagVersion_eq hr hname]
    rfl
  | setBatch ns updates =>
    have hr : ns ∈ refs := hns
    have hupdates : ∀ update ∈ updates, update.name ∈ names :=
      fun update hu => hnames update.name (mem_map_of_mem hu)
    have h' := h.ensureNamespace ns
    have hcas := h'.casConflict_eq hr hupdates
    rw [TagMap.step_setBatch]
    by_cases hadmits : (m ns.asStr).admits (updates.map toUpdate) = true
    · rw [if_pos hadmits] at hcas ⊢
      simp only [step, hcas]
      exact ⟨rfl, h'.writeTags hd hr hupdates⟩
    · rw [if_neg hadmits] at hcas ⊢
      obtain ⟨message, hcas⟩ := hcas
      simp only [step, hcas]
      exact ⟨rfl, h'⟩
  | delete ns name =>
    exact ⟨rfl, h.tagDelete hd hns (hnames name (by simp [TagRequest.names]))⟩
  | get ns name =>
    have hr : ns ∈ refs := hns
    have hentry := h.entry ns hr name (hnames name (by simp [TagRequest.names]))
    simp only [step, TagMap.step, tagGet, hentry]
    cases (m ns.asStr)[name]? with
    | none | some e => exact ⟨rfl, h⟩
  | list ns =>
    have hr : ns ∈ refs := hns
    refine ⟨?_, h⟩
    show TagOutcome.answer (.entries (s.tagList ns)) = _
    rw [h.tagList_eq hr]
    rfl

theorem runTags_holds {requests : List TagRequest}
    (hrun : ∀ request ∈ requests, request.ns ∈ refs ∧ ∀ x ∈ request.names, x ∈ names) :
    (s.runTags prim requests).map .of = m.run requests := by
  induction requests generalizing s m with
  | nil => rfl
  | cons request requests ih =>
    obtain ⟨hns, hnames⟩ := hrun request (by simp)
    obtain ⟨hanswer, hnext⟩ := step_holds hd h request hns hnames
    rw [runTags, map_cons, run, hanswer, ih hnext fun q hq => hrun q (by simp [hq])]

end

end InMemoryStore

/-! ## The rows of the persistent store -/

def TagRequest.toTagOp : TagRequest → TagOp
  | set ns name kappa => .set ns.asStr name kappa
  | setBatch ns updates => .setBatch ns.asStr updates
  | delete ns name => .delete ns.asStr name
  | get ns name => .get ns.asStr name
  | list ns => .list ns.asStr

section

variable {refs : List NamespaceRef} {t : TagTable} {m : TagMap}

variable (refs) in
/-- The rows of some namespaces encode a tag map, whose versions fit their words. -/
structure RowsHold (t : TagTable) (m : TagMap) : Prop where
  row : ∀ r ∈ refs, ∀ name, t[dbKey r.asStr name]? =
    ((m r.asStr)[name]?).map fun e => tagText e.value e.version
  bounded : ∀ (ns name : String) e, (m ns)[name]? = some e → e.version ≤ u64Max

theorem rowsHold_empty : RowsHold refs ∅ .empty := by
  constructor
  · intro r _ name
    show (∅ : TagTable)[_]? = ((∅ : VersionedMap String String)[name]?).map _
    simp
  · intro ns name e h
    have h' : (∅ : VersionedMap String String)[name]? = some e := h
    simp at h'

variable {r : NamespaceRef}

theorem RowsHold.rowVersion_eq (h : RowsHold refs t m) (hr : r ∈ refs)
    (name : String) : rowVersion t (dbKey r.asStr name) = (m r.asStr).version name := by
  unfold rowVersion version
  rw [h.row r hr name]
  cases he : (m r.asStr)[name]? with
  | none => rfl
  | some e => exact parseVersion_tagText e.value (h.bounded _ _ e he)

section

variable (hnul : ∀ r ∈ refs, NulFree r.asStr) (h : RowsHold refs t m) (hr : r ∈ refs)
include hnul h hr

theorem RowsHold.insert (name kappa : String) : RowsHold refs (t.insert (dbKey r.asStr name)
        (tagText kappa (nextVersion ((m r.asStr).version name)))) (m.write r.asStr name kappa) := by
  constructor
  · intro r' hr' name'
    rw [get_insert, get_write]
    simp only [PersistentStore.dbKey_inj (hnul r hr) (hnul r' hr')]
    split_ifs
    · rfl
    · exact h.row r' hr' name'
  · intro ns' name' e he
    rw [get_write] at he
    split_ifs at he
    · cases he
      exact nextVersion_le _
    · exact h.bounded ns' name' e he

theorem RowsHold.erase (name : String) :
    RowsHold refs (t.erase (dbKey r.asStr name)) (m.delete r.asStr name) := by
  constructor
  · intro r' hr' name'
    rw [get_erase, get_delete]
    simp only [PersistentStore.dbKey_inj (hnul r hr) (hnul r' hr')]
    split_ifs
    · rfl
    · exact h.row r' hr' name'
  · intro ns' name' e he
    rw [get_delete] at he
    split_ifs at he
    exact h.bounded ns' name' e he

end

theorem RowsHold.writeTag_eq (h : RowsHold refs t m) (hr : r ∈ refs) (name kappa : String) :
    writeTag none t r.asStr name kappa =
      .ok (nextVersion ((m r.asStr).version name), t.insert (dbKey r.asStr name)
        (tagText kappa (nextVersion ((m r.asStr).version name)))) := by
  have hversion := h.rowVersion_eq hr name
  show Except.ok _ = Except.ok _
  rw [hversion]
  rfl

theorem RowsHold.writeAll (hnul : ∀ r ∈ refs, NulFree r.asStr) (h : RowsHold refs t m)
    (hr : r ∈ refs) (updates : List TagUpdate) :
    ∃ t', KappaRegistry.writeAll none r.asStr t updates = .ok t' ∧
      RowsHold refs t' (updates.foldl (fun m update => m.write r.asStr update.name update.kappa) m) := by
  induction updates generalizing t m with
  | nil => exact ⟨t, rfl, h⟩
  | cons update updates ih =>
    obtain ⟨t', ht', h'⟩ := ih (h.insert hnul hr update.name update.kappa)
    refine ⟨t', ?_, h'⟩
    rwa [KappaRegistry.writeAll, h.writeTag_eq hr]

theorem RowsHold.casCheckAll_eq (h : RowsHold refs t m) (hr : r ∈ refs) (updates : List TagUpdate) :
    if (m r.asStr).admits (updates.map toUpdate) then
      casCheckAll t r.asStr updates = .ok ()
    else ∃ message, casCheckAll t r.asStr updates = .error (.conflict message) := by
  induction updates with
  | nil => rfl
  | cons update updates ih =>
    have hversion := h.rowVersion_eq hr update.name
    have hcas : casCheckAll t r.asStr (update :: updates) =
        (casCheck t r.asStr update >>= fun _ => casCheckAll t r.asStr updates) := rfl
    rw [admits_cons, hcas, casCheck]
    cases update.expectedVersion with
    | none => exact ih
    | some expected =>
      dsimp only
      rw [hversion, Option.all_some]
      by_cases heq : (m r.asStr).version update.name = expected
      · rwa [ensure, if_pos heq, beq_iff_eq.mpr heq]
      · rw [ensure, if_neg heq, beq_eq_false_iff_ne.mpr heq]
        exact ⟨_, rfl⟩

theorem RowsHold.rows_eq (h : RowsHold refs t m) (hr : r ∈ refs) :
    (t.toList.filter fun row => startsWith row.1 (dbKey r.asStr "")) =
      (m r.asStr).toList.map fun row =>
        (dbKey r.asStr row.1, tagText row.2.value row.2.version) := by
  apply eq_of_pairwise_lt (f := Prod.fst)
  · refine (Std.ExtTreeMap.ordered_keys_toList.filter _).imp ?_
    intro a b hlt
    exact compareOfLessAndEq_eq_lt.mp hlt
  · rw [pairwise_map, toList_eq_scan]
    refine (pairwise_scan _ _).imp ?_
    intro a b hlt
    rw [dbKey_eq_append r.asStr a.1, dbKey_eq_append r.asStr b.1]
    exact append_lt_append_left.mpr hlt
  · intro (key, text)
    simp only [mem_filter, mem_map, Prod.exists, Prod.mk.injEq, startsWith_iff,
      Std.ExtTreeMap.mem_toList_iff_getElem?_eq_some]
    constructor
    · intro ⟨hrow, x, hkey⟩
      rw [← dbKey_eq_append] at hkey
      subst hkey
      rw [h.row r hr x] at hrow
      obtain ⟨e, he, htext⟩ := Option.map_eq_some_iff.mp hrow
      exact ⟨x, e, he, rfl, htext⟩
    · intro ⟨x, e, he, hkey, htext⟩
      subst hkey htext
      refine ⟨?_, x, dbKey_eq_append r.asStr x⟩
      rw [h.row r hr x, he]
      rfl

theorem RowsHold.tagList_eq (h : RowsHold refs t m) (hr : r ∈ refs) :
    KappaRegistry.tagList none t r.asStr = .ok ((m r.asStr).toList.map mapEntry) := by
  rw [KappaRegistry.tagList, tagPrefixRows, successorIsUtf8_dbKey, if_pos (by decide), h.rows_eq hr,
    mapM_map]
  refine (mapM_congr ?_).trans mapM_pure
  intro row hrow
  obtain ⟨name, e⟩ := row
  have hbound := h.bounded _ _ e (Std.ExtTreeMap.mem_toList_iff_getElem?_eq_some.mp hrow)
  have hstrip : stripPrefix (dbKey r.asStr name) (dbKey r.asStr "") = some name := by
    rw [dbKey_eq_append r.asStr name, stripPrefix_append]
  show readRow none r.asStr (dbKey r.asStr name, tagText e.value e.version) = _
  unfold readRow
  rw [hstrip]
  exact parseEntry_tagText name e.value hbound

/-- **One call on the rows** has the map's outcome, and the rows encode the map after it. -/
theorem step_rowsHold (hnul : ∀ r ∈ refs, NulFree r.asStr) (h : RowsHold refs t m)
    (request : TagRequest) (hns : request.ns ∈ refs) :
    .of (request.toTagOp.step none t).1 = (m.step request).1 ∧
      RowsHold refs (request.toTagOp.step none t).2 (m.step request).2 := by
  cases request with
  | set ns name kappa =>
    have hr : ns ∈ refs := hns
    simp only [toTagOp, TagOp.step, h.writeTag_eq hr]
    exact ⟨rfl, h.insert hnul hr name kappa⟩
  | setBatch ns updates =>
    have hr : ns ∈ refs := hns
    have hcas := h.casCheckAll_eq hr updates
    rw [step_setBatch]
    by_cases hadmits : (m ns.asStr).admits (updates.map toUpdate) = true
    · rw [if_pos hadmits] at hcas ⊢
      obtain ⟨t', ht', h'⟩ := h.writeAll hnul hr updates
      simp only [toTagOp, TagOp.step, hcas, ht']
      exact ⟨rfl, h'⟩
    · rw [if_neg hadmits] at hcas ⊢
      obtain ⟨message, hcas⟩ := hcas
      simp only [toTagOp, TagOp.step, hcas]
      exact ⟨rfl, h⟩
  | delete ns name => exact ⟨rfl, h.erase hnul hns name⟩
  | get ns name =>
    have hr : ns ∈ refs := hns
    simp only [toTagOp, TagOp.step, step, KappaRegistry.tagGet, h.row ns hr name]
    cases he : (m ns.asStr)[name]? with
    | none => exact ⟨rfl, h⟩
    | some e =>
      refine ⟨?_, h⟩
      show TagOutcome.of ((parseEntry name (tagText e.value e.version)).map .entry) = _
      rw [parseEntry_tagText name e.value (h.bounded _ _ e he)]
      rfl
  | list ns =>
    have hr : ns ∈ refs := hns
    simp only [toTagOp, TagOp.step, h.tagList_eq hr]
    exact ⟨rfl, h⟩

theorem runTags_rowsHold (hnul : ∀ r ∈ refs, NulFree r.asStr) (h : RowsHold refs t m)
    {requests : List TagRequest} (hrun : ∀ request ∈ requests, request.ns ∈ refs) :
    (runTags none t (requests.map toTagOp)).map .of = m.run requests := by
  induction requests generalizing t m with
  | nil => rfl
  | cons request requests ih =>
    obtain ⟨hanswer, hnext⟩ := step_rowsHold hnul h request (hrun request (by simp))
    rw [map_cons, runTags, map_cons, run, hanswer,
      ih hnext fun q hq => hrun q (by simp [hq])]

end

/-! ## Both stores -/

/-- **Both stores implement the tag map.** -/
theorem tagStores_refine {prim : Primitives} {requests : List TagRequest}
    (hd : DistinctNames prim (requests.map TagRequest.ns) (requests.flatMap TagRequest.names)) :
    (InMemoryStore.new.runTags prim requests).map .of = TagMap.empty.run requests ∧
    (runTags none ∅ (requests.map TagRequest.toTagOp)).map .of = TagMap.empty.run requests ∧
    ∀ (m : TagMap) (request : TagRequest) (ns name : String),
      ns ≠ request.ns.asStr ∨ name ∉ request.names →
        ((m.step request).2 ns)[name]? = (m ns)[name]? := by
  have hrun : ∀ request ∈ requests, request.ns ∈ requests.map ns ∧
      ∀ x ∈ request.names, x ∈ requests.flatMap names := by
    intro request hrequest
    refine ⟨List.mem_map_of_mem hrequest, ?_⟩
    intro x hx
    exact List.mem_flatMap.mpr ⟨request, hrequest, hx⟩
  refine ⟨?_, ?_, ?_⟩
  · exact InMemoryStore.runTags_holds hd InMemoryStore.holds_new hrun
  · exact runTags_rowsHold hd.nulFree rowsHold_empty fun request hrequest => (hrun request hrequest).1
  · intro m request ns name h
    exact m.step_frame request h

/-- A batch that names a tag twice, a batch that expects an old version, and a listing. -/
theorem tagStores_refine_batches :
    let requests : List TagRequest :=
      [.setBatch (.withName 1 "a") [⟨"t", "k", some 0⟩, ⟨"t", "l", some 0⟩],
        .setBatch (.withName 1 "a") [⟨"s", "k", none⟩, ⟨"t", "m", some 1⟩], .list (.withName 1 "a")]
    (InMemoryStore.new.runTags .sample requests).map TagOutcome.of =
        (runTags none ∅ (requests.map toTagOp)).map TagOutcome.of ∧
      empty.run requests = [.answer .done, .conflict, .answer (.entries [⟨"t", "l", 2⟩])] := by
  intro requests
  have hd : DistinctNames .sample (requests.map ns)
      (requests.flatMap names) := by
    refine ⟨by decide, by decide, ?_⟩
    decide +kernel
  obtain ⟨hmemory, hrows, -⟩ := tagStores_refine hd
  exact ⟨hmemory.trans hrows.symm, by decide +kernel⟩

end KappaRegistry
