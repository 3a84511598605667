import KappaRegistry.Lib.Worklist
import KappaRegistry.Store.Files

/-!
# Garbage Collection

`kappa-core/src/gc.rs` over the persistent store. The collector walks from a root set along the
edges it is given and deletes every listed blob that it did not come by.

For each namespace that is listed, the tags and the epoch chain under the first alias of its record are
roots (`gcNames`), whatever other rows the store has. So what the collector spares is what those rows
reach: **`sweep_spares`**. Decoding an epoch and the content of the cache of epochs are parameters.
-/

namespace KappaRegistry

open Lib PersistentStore List Option

structure GcResult where
  objectsScanned : ℕ
  objectsReachable : ℕ
  objectsCollected : ℕ
  bytesFreed : ℕ
  deriving DecidableEq

/-! ## The walk -/

/-- One turn of the loop: the targets that were not reached yet. -/
def followEdges (resolveEdges : String → List String) (reachable : List String) (_ : Unit)
    (kappa : String) : Unit × List String :=
  ((), (resolveEdges kappa).filter (· ∉ reachable))

/-- `compute_reachable`; `none` if the steps run out. -/
def computeReachable (fuel : ℕ) (rootKappas : List String) (resolveEdges : String → List String) :
    Option (List String) :=
  (walk (fun _ => false) (followEdges resolveEdges) fuel rootKappas [] ()).map Prod.fst

section

variable {rootKappas : List String} {resolveEdges : String → List String}

/-- **What `compute_reachable` returns** is what the roots reach. -/
theorem mem_computeReachable {fuel : ℕ} {reachable : List String}
    (h : computeReachable fuel rootKappas resolveEdges = some reachable) (kappa : String) :
    kappa ∈ reachable ↔ Reaches resolveEdges rootKappas kappa := by
  obtain ⟨⟨visited, u⟩, hwalk, rfl⟩ := map_eq_some_iff.mp h
  have hfound : ∀ reachable u kappa target, target ∈ (followEdges resolveEdges reachable u kappa).2 ↔
      target ∈ resolveEdges kappa ∧ target ∉ reachable ∧ false = false := by
    intro reachable u kappa target
    simp [followEdges]
  simpa using mem_walk_iff hfound hwalk kappa

theorem computeReachable_isSome (hfinite : {kappa | Reaches resolveEdges rootKappas kappa}.Finite) :
    ∃ bound, ∀ fuel ≥ bound, (computeReachable fuel rootKappas resolveEdges).isSome := by
  have hfound : ∀ reachable u kappa,
      (followEdges resolveEdges reachable u kappa).2 ⊆ resolveEdges kappa ∧
        (followEdges resolveEdges reachable u kappa).2.length ≤ (resolveEdges kappa).length :=
    fun reachable _ kappa => ⟨fun y hy => mem_of_mem_filter hy, length_filter_le _ _⟩
  obtain ⟨bound, hbound⟩ := walk_isSome hfound hfinite ()
  refine ⟨bound, ?_⟩
  intro fuel hfuel
  rw [computeReachable, isSome_map]
  exact hbound fuel hfuel

/-- The sets that hold the roots and the targets of whatever they hold. -/
def closedSets (rootKappas : List String) (resolveEdges : String → List String) : Set (Set String) :=
  {S | (∀ r ∈ rootKappas, r ∈ S) ∧ ∀ kappa ∈ S, ∀ target ∈ resolveEdges kappa, target ∈ S}

theorem isLeast_reaches (rootKappas : List String) (resolveEdges : String → List String) :
    IsLeast (closedSets rootKappas resolveEdges) {kappa | Reaches resolveEdges rootKappas kappa} := by
  refine ⟨⟨?_, ?_⟩, ?_⟩
  · intro r hr
    exact Reaches.root hr
  · intro kappa hkappa target htarget
    exact Reaches.step hkappa htarget
  · intro S hS kappa hkappa
    exact Reaches.induct hS.1 (fun a b ha hb => hS.2 a ha b hb) hkappa

/-- **`compute_reachable` ends and returns the least closed set**, if the roots reach finitely many
labels. -/
theorem computeReachable_isLeast (rootKappas : List String) (resolveEdges : String → List String)
    (hfinite : {kappa | Reaches resolveEdges rootKappas kappa}.Finite) :
    ∃ bound, ∀ fuel ≥ bound, ∃ reachable,
      computeReachable fuel rootKappas resolveEdges = some reachable ∧
        IsLeast (closedSets rootKappas resolveEdges) {kappa | kappa ∈ reachable} := by
  obtain ⟨bound, hbound⟩ := computeReachable_isSome hfinite
  refine ⟨bound, ?_⟩
  intro fuel hfuel
  obtain ⟨reachable, hreachable⟩ := Option.isSome_iff_exists.mp (hbound fuel hfuel)
  refine ⟨reachable, hreachable, ?_⟩
  have hset : {kappa | kappa ∈ reachable} = {kappa | Reaches resolveEdges rootKappas kappa} := by
    ext kappa
    exact mem_computeReachable hreachable kappa
  rw [hset]
  exact isLeast_reaches rootKappas resolveEdges

/-- Two labels that lead to each other, one of them twice. -/
def sampleCycle (kappa : String) : List String := if kappa = "a" then ["b", "b"] else ["a"]

theorem computeReachable_isLeast_cycle : ∃ bound, ∀ fuel ≥ bound, ∃ reachable,
    computeReachable fuel ["a"] sampleCycle = some reachable ∧
      IsLeast (closedSets ["a"] sampleCycle) {kappa | kappa ∈ reachable} := by
  refine computeReachable_isLeast ["a"] sampleCycle ?_
  refine Set.Finite.subset (Set.toFinite {"a", "b"}) ?_
  intro kappa hkappa
  refine Reaches.induct (P := fun kappa => kappa ∈ ({"a", "b"} : Set String)) ?_ ?_ hkappa
  · intro r hr
    exact .inl (List.mem_singleton.mp hr)
  · intro a b _ hb
    unfold sampleCycle at hb
    split at hb
    · right
      simpa using hb
    · left
      simpa using hb

end

/-! ## Epoch chains -/

/-- The loop over `prev_root_kappa`, which ends behind an epoch that cannot be read; `none` if the
steps run out. -/
def epochChain (get : String → Option (Option String)) : ℕ → Option String → Option (List String)
  | _, none => some []
  | 0, some _ => none
  | fuel + 1, some kappa =>
    match get kappa with
    | some prev => (epochChain get fuel prev).map (kappa :: ·)
    | none => some [kappa]

def epochBefore (get : String → Option (Option String)) (kappa : String) : List String :=
  ((get kappa).getD none).toList

section

variable {get : String → Option (Option String)}

theorem epochChain_none (fuel : ℕ) : epochChain get fuel none = some [] := by
  cases fuel <;> rfl

variable {fuel : ℕ} {kappa : String} {chain : List String}

theorem epochChain_cases (h : epochChain get fuel (some kappa) = some chain) :
    ∃ fuel' rest, epochChain get fuel' ((get kappa).getD none) = some rest ∧
      fuel = fuel' + 1 ∧ chain = kappa :: rest := by
  cases fuel with
  | zero => cases h
  | succ fuel =>
    rw [epochChain] at h
    cases hget : get kappa with
    | none =>
      rw [hget] at h
      cases h
      exact ⟨fuel, [], epochChain_none fuel, rfl, rfl⟩
    | some prev =>
      rw [hget] at h
      obtain ⟨rest, hrest, rfl⟩ := map_eq_some_iff.mp h
      exact ⟨fuel, rest, hrest, rfl, rfl⟩

variable {current : Option String}

section

variable (h : epochChain get fuel current = some chain)
include h

theorem epochChain_closed :
    (∀ kappa ∈ current, kappa ∈ chain) ∧
      ∀ kappa ∈ chain, ∀ prev ∈ epochBefore get kappa, prev ∈ chain := by
  induction fuel generalizing current chain with
  | zero =>
    cases current with
    | none =>
      cases h
      simp
    | some kappa => cases h
  | succ fuel ih =>
    cases current with
    | none =>
      cases h
      simp
    | some kappa =>
      obtain ⟨fuel', rest, hrest, hfuel, rfl⟩ := epochChain_cases h
      obtain rfl : fuel = fuel' := Nat.succ.inj hfuel
      obtain ⟨hfirst, hclosed⟩ := ih hrest
      refine ⟨by simp, ?_⟩
      intro k hk prev hprev
      apply mem_cons_of_mem
      rcases mem_cons.mp hk with rfl | hk
      · exact hfirst prev (mem_toList.mp hprev)
      · exact hclosed k hk prev hprev

theorem mem_epochChain
    (hkappa : Reaches (epochBefore get) current.toList kappa) : kappa ∈ chain := by
  obtain ⟨hfirst, hclosed⟩ := epochChain_closed h
  refine hkappa.induct ?_ ?_
  · intro r hr
    exact hfirst r (mem_toList.mp hr)
  · intro a b ha hb
    exact hclosed a ha b hb

theorem epochChain_mono {fuel' : ℕ} (hle : fuel ≤ fuel') :
    epochChain get fuel' current = some chain := by
  induction fuel generalizing current chain fuel' with
  | zero =>
    cases current with
    | none =>
      rwa [epochChain_none]
    | some kappa => cases h
  | succ fuel ih =>
    cases current with
    | none =>
      rwa [epochChain_none]
    | some kappa =>
      obtain ⟨fuel', rfl⟩ : ∃ n, fuel' = n + 1 := ⟨fuel' - 1, by omega⟩
      rw [epochChain] at h ⊢
      cases hget : get kappa with
      | none =>
        rwa [hget] at h
      | some prev =>
        rw [hget] at h
        obtain ⟨rest, hrest, rfl⟩ := map_eq_some_iff.mp h
        have hrest' : epochChain get fuel' prev = some rest := ih hrest (by omega)
        show (epochChain get fuel' prev).map (kappa :: ·) = _
        rw [hrest']
        rfl

end

end

namespace VersionStore

variable (root : String) (readEpoch : Bytes → Option (Option String))
  (cache : Table String (Option String))

/-! ## The root set -/

variable (s : VersionStore) (fuel : ℕ)

/-- `epoch_get`, as far as the link to the epoch before goes. -/
def epochGet (kappa : String) : Option (Option String) :=
  match cache[kappa]? with
  | some prev => some prev
  | none => (s.blobGet root kappa).toOption.bind readEpoch

/-- The name under which the rows of a record are looked up. -/
def gcName (record : NamespaceRecord) : Option String :=
  match hexDecode record.uuidHex with
  | .ok uuid => if uuid.length = 16 then some (record.aliases.head?.getD "") else none
  | .error _ => none

def gcNames : List String :=
  (s.tables.store.namespaceList none).filterMap gcName

def namespaceRoots (s : VersionStore) (name : String) : Option (Except StoreError (List String)) :=
  match s.tables.store.tagList name with
  | .error e => some (.error e)
  | .ok tags =>
    (epochChain (s.epochGet root readEpoch cache) fuel s.tables.epochCurrent[name]?).map fun chain =>
      .ok (tags.map TagEntry.kappa ++ chain)

def rootsOf (fuel : ℕ) (s : VersionStore) : List String → Option (Except StoreError (List String))
  | [] => some (.ok [])
  | name :: names =>
    match s.namespaceRoots root readEpoch cache fuel name with
    | some (.ok roots) => (rootsOf fuel s names).map fun rest => rest.map (roots ++ ·)
    | failed => failed

def buildRootSet (s : VersionStore) : Option (Except StoreError (List String)) :=
  (s.rootsOf root readEpoch cache fuel s.gcNames).map fun roots =>
    roots.map fun roots => (roots.insertionSort (· ≤ ·)).dedup

/-! ## The sweep -/

/-- The loop over the listed blobs; a deletion that fails ends it. -/
def sweepBlobs (reachable : List String) :
    List String → GcResult → VersionStore → Except StoreError GcResult × VersionStore
  | [], result, s => (.ok result, s)
  | kappa :: kappas, result, s =>
    if kappa ∈ reachable then sweepBlobs reachable kappas result s
    else
      let size := ((s.blobGet root kappa).toOption.map List.length).getD 0
      match s.blobDelete root kappa with
      | .error e => (.error e, s)
      | .ok s' =>
        sweepBlobs reachable kappas
          { result with
            objectsCollected := result.objectsCollected + 1
            bytesFreed := result.bytesFreed + size } s'

/-- `sweep`: what it returns, and the store it leaves; `none` if the steps run out. -/
def sweep (resolveEdges : String → List String) (s : VersionStore) :
    Option (Except StoreError GcResult × VersionStore) :=
  match s.buildRootSet root readEpoch cache fuel with
  | none => none
  | some (.error e) => some (.error e, s)
  | some (.ok roots) =>
    (computeReachable fuel roots resolveEdges).map fun reachable =>
      sweepBlobs root reachable s.blobList ⟨s.blobList.length, reachable.length, 0, 0⟩ s

/-- The rows that make roots: tags and epoch chains under the names that are looked up. -/
def GcRoot (kappa : String) : Prop :=
  ∃ name ∈ s.gcNames, (∃ entry ∈ s.tables.store.tagEntries name, entry.kappa = kappa) ∨
    Reaches (epochBefore (s.epochGet root readEpoch cache)) s.tables.epochCurrent[name]?.toList kappa

/-- Some number of steps reads the epoch chain of every name to its end. -/
def ChainsEnd : Prop :=
  ∀ name : String, ∃ fuel chain, epochChain (s.epochGet root readEpoch cache) fuel
    s.tables.epochCurrent[name]? = some chain

variable {root readEpoch cache}

/-! ## What the collector finds -/

theorem namespaceRoots_eq (s : VersionStore) (name : String) :
    s.namespaceRoots root readEpoch cache fuel name =
      (epochChain (s.epochGet root readEpoch cache) fuel s.tables.epochCurrent[name]?).map
        fun chain => .ok ((s.tables.store.tagEntries name).map TagEntry.kappa ++ chain) := by
  rw [namespaceRoots, tagList_eq]

variable {fuel : ℕ} {s : VersionStore}

theorem mem_rootsOf {names roots : List String}
    (h : s.rootsOf root readEpoch cache fuel names = some (.ok roots)) {name : String}
    (hname : name ∈ names) : (∀ entry ∈ s.tables.store.tagEntries name, entry.kappa ∈ roots) ∧
      ∀ kappa, Reaches (epochBefore (s.epochGet root readEpoch cache))
        s.tables.epochCurrent[name]?.toList kappa → kappa ∈ roots := by
  induction names generalizing roots with
  | nil => cases hname
  | cons first names ih =>
    rw [rootsOf, namespaceRoots_eq] at h
    cases hchain : epochChain (s.epochGet root readEpoch cache) fuel
        s.tables.epochCurrent[first]? with
    | none =>
      simp [hchain] at h
    | some chain =>
      rw [hchain] at h
      obtain ⟨rest, hrest, hmap⟩ := map_eq_some_iff.mp h
      obtain ⟨more, rfl, rfl⟩ := map_eq_ok.mp hmap
      rcases mem_cons.mp hname with rfl | hname
      · constructor
        · intro entry hentry
          exact mem_append_left _ (mem_append_left _ (mem_map_of_mem hentry))
        · intro kappa hkappa
          exact mem_append_left _ (mem_append_right _ (mem_epochChain hchain hkappa))
      · obtain ⟨htags, hepochs⟩ := ih hrest hname
        constructor
        · intro entry hentry
          exact mem_append_right _ (htags entry hentry)
        · intro kappa hkappa
          exact mem_append_right _ (hepochs kappa hkappa)

theorem mem_buildRootSet {roots : List String}
    (h : s.buildRootSet root readEpoch cache fuel = some (.ok roots)) {kappa : String}
    (hkappa : s.GcRoot root readEpoch cache kappa) : kappa ∈ roots := by
  obtain ⟨listed, hlisted, hmap⟩ := map_eq_some_iff.mp h
  obtain ⟨unsorted, rfl, rfl⟩ := map_eq_ok.mp hmap
  rw [mem_dedup, mem_insertionSort]
  obtain ⟨name, hname, hrow⟩ := hkappa
  obtain ⟨htags, hepochs⟩ := mem_rootsOf hlisted hname
  rcases hrow with ⟨entry, hentry, rfl⟩ | hchain
  · exact htags entry hentry
  · exact hepochs kappa hchain

theorem buildRootSet_of_chainsEnd (hchains : s.ChainsEnd root readEpoch cache) :
    ∃ bound roots, ∀ fuel ≥ bound, s.buildRootSet root readEpoch cache fuel = some (.ok roots) := by
  suffices hnames : ∀ names : List String, ∃ bound roots, ∀ fuel ≥ bound,
      s.rootsOf root readEpoch cache fuel names = some (.ok roots) by
    obtain ⟨bound, roots, hbound⟩ := hnames s.gcNames
    refine ⟨bound, (roots.insertionSort (· ≤ ·)).dedup, ?_⟩
    intro fuel hfuel
    rw [buildRootSet, hbound fuel hfuel]
    rfl
  intro names
  induction names with
  | nil => exact ⟨0, [], fun _ _ => rfl⟩
  | cons name names ih =>
    obtain ⟨bound, roots, hbound⟩ := ih
    obtain ⟨enough, chain, hchain⟩ := hchains name
    refine ⟨max bound enough, (s.tables.store.tagEntries name).map TagEntry.kappa ++ chain ++ roots, ?_⟩
    intro fuel hfuel
    rw [rootsOf, namespaceRoots_eq, epochChain_mono hchain (by omega), hbound fuel (by omega)]
    rfl

/-! ## What the collector spares -/

variable {outcome : Except StoreError GcResult} {label : String}

theorem blobGet_sweepBlobs {reachable kappas : List String} {result : GcResult} {s s' : VersionStore}
    (h : sweepBlobs root reachable kappas result s = (outcome, s')) (hlabel : ∀ kappa ∈ kappas, s.SameBlob root kappa label → kappa ∈ reachable) :
    s'.blobGet root label = s.blobGet root label := by
  induction kappas generalizing result s with
  | nil =>
    cases h
    rfl
  | cons kappa kappas ih =>
    have hrest : ∀ k ∈ kappas, s.SameBlob root k label → k ∈ reachable :=
      fun k hk => hlabel k (mem_cons_of_mem kappa hk)
    rw [sweepBlobs] at h
    split_ifs at h with hreach
    · exact ih h hrest
    · cases hdelete : s.blobDelete root kappa with
      | error e =>
        rw [hdelete] at h
        cases h
        rfl
      | ok next =>
        rw [hdelete] at h
        have hkeys : ∀ k, next.SameBlob root k label ↔ s.SameBlob root k label := by
          intro k
          obtain ⟨key, -, rfl⟩ := blobDelete_eq_ok.mp hdelete
          exact Iff.rfl
        rw [ih h fun k hk hsame => hrest k hk ((hkeys k).mp hsame), blobGet_blobDelete hdelete, if_neg]
        intro hsame
        exact hreach (hlabel kappa mem_cons_self hsame)

variable {resolveEdges : String → List String}

/-- **What a sweep spares.** -/
theorem sweep_spares {s s' : VersionStore}
    (h : s.sweep root readEpoch cache fuel resolveEdges = some (outcome, s')) (hlabel : ∀ kappa ∈ s.blobList, s.SameBlob root kappa label →
      ∃ r, s.GcRoot root readEpoch cache r ∧ Reaches resolveEdges [r] kappa) :
    s'.blobGet root label = s.blobGet root label := by
  unfold sweep at h
  cases hroots : s.buildRootSet root readEpoch cache fuel with
  | none =>
    simp [hroots] at h
  | some found =>
    rw [hroots] at h
    cases found with
    | error e =>
      cases h
      rfl
    | ok roots =>
      obtain ⟨reachable, hreachable, hsweep⟩ := map_eq_some_iff.mp h
      apply blobGet_sweepBlobs hsweep
      intro kappa hkappa hsame
      obtain ⟨r, hr, hreach⟩ := hlabel kappa hkappa hsame
      rw [mem_computeReachable hreachable]
      exact (Reaches.root (mem_buildRootSet hroots hr)).trans hreach

theorem sweep_isSome (hchains : s.ChainsEnd root readEpoch cache)
    (hfinite : ∀ r, {kappa | Reaches resolveEdges [r] kappa}.Finite) :
    ∃ bound, ∀ fuel ≥ bound, (s.sweep root readEpoch cache fuel resolveEdges).isSome := by
  obtain ⟨bound, roots, hroots⟩ := buildRootSet_of_chainsEnd hchains
  obtain ⟨enough, henough⟩ := computeReachable_isSome (Reaches.finite fun r (_ : r ∈ roots) => hfinite r)
  refine ⟨max bound enough, ?_⟩
  intro fuel hfuel
  rw [sweep, hroots fuel (by omega), isSome_map]
  exact henough fuel (by omega)

end VersionStore

end KappaRegistry
