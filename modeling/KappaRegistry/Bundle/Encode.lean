import KappaRegistry.Bundle.Decode
import KappaRegistry.Bundle.DeltaEncode

/-!
# Encoding Bundles

`encode` of `kappa-core/src/bundle.rs`. Without deltas, the objects follow the header as they are.
With deltas, they are sorted by size, each one may become a delta against one of the ten before it,
and the entries are ordered so that a base comes before its deltas.

What an encoder writes is a script of entries (`WireEntry`): objects, and deltas with the objects
they are against. **`encode_script`**: the script is a rearrangement of the objects in which every
base comes before its deltas. The order is found in one pass: a base is always at a lower index, so
the first pass over the indices emits every delta (`emittedOrder_eq`).
-/

namespace KappaRegistry

open Lib List

/-! ## The encoder -/

structure EntryPlan where
  kappa : String
  content : Bytes
  /-- The index of the base, and the delta. -/
  deltaBase : Option (ℕ × Bytes)

def deltaWindowSize : ℕ := 10

variable (indexed : List BundleEntry) (plans : List EntryPlan) (hashes : Hashes)
  (objects : List BundleEntry) (kappa : String) (content : Bytes)

/-- The objects by size, largest first. -/
def bySize : List BundleEntry :=
  objects.mergeSort fun a b => decide (b.content.length ≤ a.content.length)

/-- One candidate for a base: a shorter delta is better. -/
def betterDelta (best : Option (ℕ × Bytes)) (candidate : BundleEntry × ℕ) : Option (ℕ × Bytes) :=
  match computeDelta candidate.1.content content with
  | none => best
  | some d => if best.all fun prev => d.length < prev.2.length then some (candidate.2, d) else best

/-- The shortest delta against the objects in the window before an index. -/
def bestDelta (idx : ℕ) (content : Bytes) : Option (ℕ × Bytes) :=
  ((indexed.zipIdx.take idx).drop (idx - deltaWindowSize)).foldl (betterDelta content) none

def planEntries : List EntryPlan :=
  indexed.zipIdx.map fun o => ⟨o.1.kappa, o.1.content, bestDelta indexed o.2 o.1.content⟩

def baseOf (i : ℕ) : Option ℕ :=
  (plans[i]?.bind EntryPlan.deltaBase).map Prod.fst

/-- One step of a pass: an index whose base has been emitted is emitted. -/
def emitReady (order : List ℕ) (i : ℕ) : List ℕ :=
  if i ∈ order then order
  else
    match baseOf plans i with
    | some baseIdx => if baseIdx ∈ order then order ++ [i] else order
    | none => order

/-- The passes, until one makes no progress. -/
def emitPasses (plans : List EntryPlan) : ℕ → List ℕ → List ℕ
  | 0, order => order
  | n + 1, order =>
    let next := (List.range plans.length).foldl (emitReady plans) order
    if next = order then order else emitPasses plans n next

/-- The indices that are emitted: those without a base, and then the passes. -/
def emittedOrder : List ℕ :=
  emitPasses plans plans.length ((List.range plans.length).filter fun i => (baseOf plans i).isNone)

def kappaField : Bytes := bigEndian 2 (textBytes kappa).length ++ textBytes kappa

def contentField : Bytes := bigEndian 8 content.length ++ content

def fullEntry : Bytes := 1 :: (kappaField kappa ++ contentField content)

def deltaEntry (baseKappa : String) (delta : Bytes) : Bytes :=
  2 :: (kappaField kappa ++ (kappaField baseKappa ++ contentField delta))

def emitPlan (emitted : List ℕ) (idx : ℕ) : Bytes :=
  match plans[idx]? with
  | none => []
  | some plan =>
    match plan.deltaBase with
    | none => fullEntry plan.kappa plan.content
    | some (baseIdx, delta) =>
      if baseIdx ∈ emitted then
        deltaEntry plan.kappa ((plans[baseIdx]?.map EntryPlan.kappa).getD "") delta
      else fullEntry plan.kappa plan.content

/-- Magic, version, flags and the number of entries. -/
def bundleHeader (flags : UInt8) (count : ℕ) : Bytes := [75, 66, 78, 68, 1, flags] ++ bigEndian 4 count

def withHash (out : Bytes) : Bytes := out ++ hashes.digest .sha256 out

def encodeFullOnly : Bytes :=
  withHash hashes (bundleHeader 0 objects.length ++ objects.flatMap fun o => fullEntry o.kappa o.content)

def encode (useDeltas : Bool) : Bytes :=
  if useDeltas = false ∨ objects.length < 2 then encodeFullOnly hashes objects
  else
    let plans := planEntries (bySize objects)
    let emitted := emittedOrder plans
    let order := emitted ++ (List.range plans.length).filter fun i => i ∉ emitted
    let flags := if plans.any fun p => p.deltaBase.isSome then 1 else 0
    withHash hashes (bundleHeader flags plans.length ++ order.flatMap (emitPlan plans emitted))

/-! ## Scripts -/

inductive WireEntry where
  | full (object : BundleEntry)
  | delta (object base : BundleEntry) (bytes : Bytes)

namespace WireEntry

def object : WireEntry → BundleEntry
  | full object => object
  | delta object _ _ => object

def bytes : WireEntry → Bytes
  | full object => fullEntry object.kappa object.content
  | delta object base d => deltaEntry object.kappa base.kappa d

def isDelta : WireEntry → Bool
  | full _ => false
  | delta _ _ _ => true

/-- A delta was computed against an object that comes before. -/
def Ready (done : List BundleEntry) : WireEntry → Prop
  | full _ => True
  | delta object base d => base ∈ done ∧ computeDelta base.content object.content = some d

def GivesBack : WireEntry → Prop
  | full _ => True
  | delta object base _ => ShortCopies base.content object.content

end WireEntry

/-- Every base comes before its deltas. -/
def ScriptReady (done : List BundleEntry) : List WireEntry → Prop
  | [] => True
  | e :: script => e.Ready done ∧ ScriptReady (done ++ [e.object]) script

/-! ## The encoder writes a script -/

theorem scriptReady_append {done : List BundleEntry} {script script' : List WireEntry} :
    ScriptReady done (script ++ script') ↔
      ScriptReady done script ∧ ScriptReady (done ++ script.map WireEntry.object) script' := by
  induction script generalizing done with
  | nil => simp [ScriptReady]
  | cons e script ih =>
    rw [cons_append, ScriptReady, ScriptReady, ih, map_cons, append_assoc, singleton_append,
      and_assoc]

theorem scriptReady_map_full (done : List BundleEntry) : ScriptReady done (objects.map .full) := by
  induction objects generalizing done with
  | nil => trivial
  | cons o objects ih => exact ⟨trivial, ih _⟩

theorem bestDelta_spec {indexed : List BundleEntry} {idx ci : ℕ} {content delta : Bytes}
    (h : bestDelta indexed idx content = some (ci, delta)) :
    ci < idx ∧ ∃ base, indexed[ci]? = some base ∧ computeDelta base.content content = some delta := by
  have hfold : ∀ (candidates : List (BundleEntry × ℕ)) (best : Option (ℕ × Bytes)),
      (∀ c ∈ candidates, c.2 < idx ∧ indexed[c.2]? = some c.1) →
      (∀ r, best = some r → r.1 < idx ∧ ∃ base, indexed[r.1]? = some base ∧
        computeDelta base.content content = some r.2) →
      ∀ r, candidates.foldl (betterDelta content) best = some r → r.1 < idx ∧
        ∃ base, indexed[r.1]? = some base ∧ computeDelta base.content content = some r.2 := by
    intro candidates
    induction candidates with
    | nil => exact fun best _ hbest => hbest
    | cons c candidates ih =>
      intro best hin hbest
      refine ih _ (fun c' hc' => hin c' (mem_cons_of_mem _ hc')) ?_
      intro r hr
      unfold betterDelta at hr
      cases hdelta : computeDelta c.1.content content with
      | none =>
        rw [hdelta] at hr
        exact hbest r hr
      | some d =>
        rw [hdelta] at hr
        dsimp only at hr
        split at hr
        · cases hr
          obtain ⟨hlt, hget⟩ := hin c mem_cons_self
          exact ⟨hlt, c.1, hget, hdelta⟩
        · exact hbest r hr
  refine hfold _ none ?_ nofun (ci, delta) h
  intro c hc
  have htake := mem_of_mem_drop hc
  obtain ⟨i, hi, hget⟩ := mem_iff_getElem.mp htake
  rw [length_take] at hi
  rw [getElem_take, getElem_zipIdx] at hget
  subst hget
  refine ⟨by omega, ?_⟩
  rw [Nat.zero_add]
  exact getElem?_eq_getElem _

def wireAt (o : BundleEntry × ℕ) : WireEntry :=
  match bestDelta indexed o.2 o.1.content with
  | none => .full o.1
  | some (ci, delta) =>
    match indexed[ci]? with
    | none => .full o.1
    | some base => .delta o.1 base delta

theorem object_wireAt (o : BundleEntry × ℕ) : (wireAt indexed o).object = o.1 := by
  unfold wireAt
  split
  · rfl
  · split <;> rfl

theorem map_object_wireAt (os : List (BundleEntry × ℕ)) :
    (os.map (wireAt indexed)).map WireEntry.object = os.map Prod.fst := by
  rw [map_map]
  exact map_congr_left fun o _ => object_wireAt indexed o

section

variable (indexed : List BundleEntry)

def hasBase (o : BundleEntry × ℕ) : Bool := (bestDelta indexed o.2 o.1.content).isSome

theorem isDelta_wireAt (o : BundleEntry × ℕ) : (wireAt indexed o).isDelta = hasBase indexed o := by
  unfold wireAt hasBase
  cases hbest : bestDelta indexed o.2 o.1.content with
  | none => rfl
  | some r =>
    obtain ⟨ci, delta⟩ := r
    obtain ⟨-, base, hbase, -⟩ := bestDelta_spec hbest
    dsimp only
    rw [hbase]
    rfl

variable {o : BundleEntry × ℕ}

theorem planEntries_get (ho : o ∈ indexed.zipIdx) :
    (planEntries indexed)[o.2]? = some ⟨o.1.kappa, o.1.content, bestDelta indexed o.2 o.1.content⟩ := by
  have hget := List.mem_zipIdx_iff_getElem?.mp ho
  rw [planEntries, getElem?_map, getElem?_zipIdx, hget, Option.map_some, Option.map_some, Nat.zero_add]

theorem baseOf_planEntries (ho : o ∈ indexed.zipIdx) :
    baseOf (planEntries indexed) o.2 = (bestDelta indexed o.2 o.1.content).map Prod.fst := by
  rw [baseOf, planEntries_get indexed ho]
  rfl

theorem baseOf_lt {i b : ℕ} (h : baseOf (planEntries indexed) i = some b) : b < i := by
  obtain ⟨⟨b', delta⟩, hplan, rfl⟩ := Option.map_eq_some_iff.mp h
  obtain ⟨plan, hget, hbase⟩ := Option.bind_eq_some_iff.mp hplan
  rw [planEntries, getElem?_map, getElem?_zipIdx] at hget
  obtain ⟨o, ho, rfl⟩ := Option.map_eq_some_iff.mp hget
  obtain ⟨obj, -, rfl⟩ := Option.map_eq_some_iff.mp ho
  rw [Nat.zero_add] at hbase
  exact (bestDelta_spec hbase).1

theorem length_planEntries : (planEntries indexed).length = indexed.length := by
  rw [planEntries, length_map, length_zipIdx]

end

/-- The order of the entries when every base is earlier: those without a base, and then the others. -/
def sortedOrder (n : ℕ) : List ℕ :=
  (List.range plans.length).filter (fun i => (baseOf plans i).isNone) ++
    (List.range n).filter fun i => (baseOf plans i).isSome

variable {plans : List EntryPlan}

theorem mem_sortedOrder {i n : ℕ} (hi : i < n) (hn : n ≤ plans.length) :
    i ∈ sortedOrder plans n := by
  cases hbase : baseOf plans i with
  | none =>
    refine mem_append_left _ (mem_filter.mpr ⟨mem_range.mpr (by omega), ?_⟩)
    rw [hbase]
    rfl
  | some b =>
    refine mem_append_right _ (mem_filter.mpr ⟨mem_range.mpr hi, ?_⟩)
    rw [hbase]
    rfl

section

variable {plans : List EntryPlan} (hlt : ∀ i b, baseOf plans i = some b → b < i)
include hlt

/-- One pass emits everything, because it goes through the indices in order. -/
theorem foldl_emitReady {n : ℕ} (hn : n ≤ plans.length) :
    (List.range n).foldl (emitReady plans) (sortedOrder plans 0) = sortedOrder plans n := by
  induction n with
  | zero => rfl
  | succ n ih =>
    rw [range_succ, foldl_append, ih (by omega), foldl_cons, foldl_nil]
    unfold emitReady
    cases hbase : baseOf plans n with
    | none =>
      have hmem : n ∈ sortedOrder plans n := by
        refine mem_append_left _ (mem_filter.mpr ⟨mem_range.mpr (by omega), ?_⟩)
        rw [hbase]
        rfl
      rw [if_pos hmem, sortedOrder, sortedOrder, range_succ, filter_append, filter_singleton, hbase]
      simp
    | some b =>
      have hnot : n ∉ sortedOrder plans n := by
        intro hmem
        rcases mem_append.mp hmem with hfull | hdelta
        · have hnone := (mem_filter.mp hfull).2
          simp [hbase] at hnone
        · exact absurd (mem_range.mp (mem_filter.mp hdelta).1) (Nat.lt_irrefl n)
      have hmem : b ∈ sortedOrder plans n := mem_sortedOrder (hlt n b hbase) (by omega)
      dsimp only
      rw [if_neg hnot, if_pos hmem, sortedOrder, sortedOrder, range_succ, filter_append,
        filter_singleton, hbase, append_assoc]
      rfl

end

theorem foldl_emitReady_of_mem {order : List ℕ} (is : List ℕ) (h : ∀ i ∈ is, i ∈ order) :
    is.foldl (emitReady plans) order = order := by
  induction is with
  | nil => rfl
  | cons i is ih =>
    rw [foldl_cons, emitReady, if_pos (h i mem_cons_self)]
    exact ih fun j hj => h j (mem_cons_of_mem _ hj)

theorem emitPasses_done (n : ℕ) :
    emitPasses plans n (sortedOrder plans plans.length) = sortedOrder plans plans.length := by
  cases n with
  | zero => rfl
  | succ n =>
    rw [emitPasses, foldl_emitReady_of_mem _ fun i hi => mem_sortedOrder (mem_range.mp hi) le_rfl, if_pos rfl]

theorem emittedOrder_eq (hlt : ∀ i b, baseOf plans i = some b → b < i) :
    emittedOrder plans = sortedOrder plans plans.length := by
  have hstart : sortedOrder plans 0 = (List.range plans.length).filter fun i => (baseOf plans i).isNone := by
    rw [sortedOrder, range_zero, filter_nil, append_nil]
  rw [emittedOrder, ← hstart]
  cases hn : plans.length with
  | zero =>
    rfl
  | succ n =>
    rw [emitPasses, foldl_emitReady hlt le_rfl]
    split_ifs with hsame
    · rw [← hn]
      exact hsame.symm
    · rw [emitPasses_done, hn]

/-! ## The script -/

section

variable (indexed : List BundleEntry)

/-- The entries in the order they are written. -/
def scriptOf : List WireEntry :=
  ((indexed.zipIdx.filter fun o => !hasBase indexed o) ++ indexed.zipIdx.filter (hasBase indexed)).map
    (wireAt indexed)

theorem map_object_scriptOf : ((scriptOf indexed).map WireEntry.object).Perm indexed := by
  have hperm : ((indexed.zipIdx.filter fun o => !hasBase indexed o) ++ indexed.zipIdx.filter (hasBase indexed)).Perm
      indexed.zipIdx :=
    perm_append_comm.trans (filter_append_perm (hasBase indexed) indexed.zipIdx)
  rw [scriptOf, map_object_wireAt]
  refine (hperm.map Prod.fst).trans ?_
  rw [zipIdx_map_fst]

theorem ready_wireAt (o : BundleEntry × ℕ) {done : List BundleEntry}
    (hdone : ∀ o' ∈ indexed.zipIdx, o'.2 < o.2 → o'.1 ∈ done) : (wireAt indexed o).Ready done := by
  unfold wireAt
  cases hbest : bestDelta indexed o.2 o.1.content with
  | none => trivial
  | some r =>
    obtain ⟨ci, delta⟩ := r
    obtain ⟨hlt, base, hbase, hdelta⟩ := bestDelta_spec hbest
    dsimp only
    rw [hbase]
    exact ⟨hdone (base, ci) (List.mem_zipIdx_iff_getElem?.mpr hbase) hlt, hdelta⟩

theorem scriptReady_full {os : List (BundleEntry × ℕ)} (hos : ∀ o ∈ os, hasBase indexed o = false)
    (done : List BundleEntry) : ScriptReady done (os.map (wireAt indexed)) := by
  induction os generalizing done with
  | nil => trivial
  | cons o os ih =>
    refine ⟨?_, ih (fun o' ho' => hos o' (mem_cons_of_mem _ ho')) _⟩
    have hnot := hos o mem_cons_self
    rw [← isDelta_wireAt] at hnot
    cases hwire : wireAt indexed o with
    | full object => trivial
    | delta object base d =>
      rw [hwire] at hnot
      cases hnot

theorem scriptReady_deltas {k : ℕ} (hk : k ≤ indexed.length) :
    ScriptReady ((indexed.zipIdx.filter fun o => !hasBase indexed o).map Prod.fst)
      (((indexed.zipIdx.take k).filter (hasBase indexed)).map (wireAt indexed)) := by
  induction k with
  | zero => trivial
  | succ k ih =>
    have hlength : k < indexed.zipIdx.length := by
      rw [length_zipIdx]
      omega
    rw [take_succ_eq_append_getElem hlength, filter_append, map_append, scriptReady_append,
      map_object_wireAt]
    refine ⟨ih (by omega), ?_⟩
    by_cases hbase : hasBase indexed indexed.zipIdx[k] = true
    · rw [filter_cons_of_pos hbase, filter_nil]
      refine ⟨ready_wireAt indexed _ ?_, trivial⟩
      intro o ho hlt
      rw [getElem_zipIdx] at hlt
      by_cases hdelta : hasBase indexed o = true
      · refine mem_append_right _ (mem_map.mpr ⟨o, mem_filter.mpr ⟨?_, hdelta⟩, rfl⟩)
        have hget : indexed.zipIdx[o.2]? = some o := by
          rw [getElem?_zipIdx, List.mem_zipIdx_iff_getElem?.mp ho, Option.map_some, Nat.zero_add]
        refine mem_of_getElem? (i := o.2) ?_
        rw [getElem?_take, if_pos (by omega), hget]
      · refine mem_append_left _ (mem_map.mpr ⟨o, mem_filter.mpr ⟨ho, ?_⟩, rfl⟩)
        rw [Bool.not_eq_true] at hdelta
        rw [hdelta]
        rfl
    · rw [filter_cons_of_neg hbase, filter_nil]
      trivial

theorem scriptReady_scriptOf : ScriptReady [] (scriptOf indexed) := by
  rw [scriptOf, map_append, scriptReady_append, nil_append, map_object_wireAt]
  refine ⟨scriptReady_full indexed ?_ [], ?_⟩
  · intro o ho
    have hnot := (mem_filter.mp ho).2
    rwa [Bool.not_eq_true'] at hnot
  · have hall := scriptReady_deltas indexed le_rfl
    rwa [← length_zipIdx (l := indexed), take_length] at hall

variable {emitted : List ℕ}

theorem emitPlan_planEntries (hemitted : ∀ i < indexed.length, i ∈ emitted)
    {o : BundleEntry × ℕ} (ho : o ∈ indexed.zipIdx) :
    emitPlan (planEntries indexed) emitted o.2 = (wireAt indexed o).bytes := by
  rw [emitPlan, planEntries_get indexed ho]
  unfold wireAt
  cases hbest : bestDelta indexed o.2 o.1.content with
  | none => rfl
  | some r =>
    obtain ⟨ci, delta⟩ := r
    obtain ⟨-, base, hbase, -⟩ := bestDelta_spec hbest
    obtain ⟨hci, -⟩ := List.getElem?_eq_some_iff.mp hbase
    have hplan := planEntries_get indexed (o := (base, ci)) (List.mem_zipIdx_iff_getElem?.mpr hbase)
    dsimp only at hplan ⊢
    rw [if_pos (hemitted ci hci), hplan, hbase]
    rfl

theorem flatMap_emitPlan (hemitted : ∀ i < indexed.length, i ∈ emitted)
    {p : ℕ → Bool} {q : BundleEntry × ℕ → Bool} (hpq : ∀ o ∈ indexed.zipIdx, p o.2 = q o) :
    ((List.range indexed.length).filter p).flatMap (emitPlan (planEntries indexed) emitted) =
      ((indexed.zipIdx.filter q).map (wireAt indexed)).flatMap WireEntry.bytes := by
  have hrange : List.range indexed.length = indexed.zipIdx.map Prod.snd := by
    rw [zipIdx_map_snd, range_eq_range']
  have hfilter : indexed.zipIdx.filter (p ∘ Prod.snd) = indexed.zipIdx.filter q :=
    filter_congr hpq
  rw [hrange, filter_map, hfilter, flatMap_map, flatMap_map]
  rw [flatMap_def, flatMap_def]
  refine congrArg flatten (map_congr_left ?_)
  intro o ho
  exact emitPlan_planEntries indexed hemitted (mem_filter.mp ho).1

theorem flatMap_emittedOrder :
    let plans := planEntries indexed
    let emitted := emittedOrder plans
    (emitted ++ (List.range plans.length).filter fun i => i ∉ emitted).flatMap (emitPlan plans emitted) =
      (scriptOf indexed).flatMap WireEntry.bytes := by
  intro plans emitted
  have horder : emitted = sortedOrder plans plans.length :=
    emittedOrder_eq fun i b h => baseOf_lt indexed h
  have hlength : plans.length = indexed.length := length_planEntries indexed
  have hmem : ∀ i < indexed.length, i ∈ emitted := by
    intro i hi
    rw [horder]
    exact mem_sortedOrder (by omega) le_rfl
  have hrest : ((List.range plans.length).filter fun i => i ∉ emitted) = [] := by
    rw [filter_eq_nil_iff]
    intro i hi
    have hi := hmem i (hlength ▸ mem_range.mp hi)
    simpa using hi
  have hnone : ∀ o ∈ indexed.zipIdx, (baseOf plans o.2).isNone = !hasBase indexed o := by
    intro o ho
    rw [baseOf_planEntries indexed ho, hasBase, Option.isNone_map, Option.not_isSome]
  have hsome : ∀ o ∈ indexed.zipIdx, (baseOf plans o.2).isSome = hasBase indexed o := by
    intro o ho
    rw [baseOf_planEntries indexed ho, hasBase, Option.isSome_map]
  have hsplit : ∀ f : ℕ → Bytes, emitted.flatMap f =
      ((List.range indexed.length).filter fun i => (baseOf plans i).isNone).flatMap f ++
        ((List.range indexed.length).filter fun i => (baseOf plans i).isSome).flatMap f := by
    intro f
    rw [horder, sortedOrder, hlength, flatMap_append]
  rw [hrest, append_nil, hsplit, flatMap_emitPlan indexed hmem hnone, flatMap_emitPlan indexed hmem hsome, scriptOf, map_append,
    flatMap_append]

end

/-- The deltas that the encoder chooses have no copy of 2^24 bytes or more. -/
def DeltasFit : Prop :=
  ∀ idx o baseIdx delta base, (bySize objects)[idx]? = some o →
    bestDelta (bySize objects) idx o.content = some (baseIdx, delta) →
    (bySize objects)[baseIdx]? = some base → ShortCopies base.content o.content

theorem givesBack_scriptOf :
    (∀ e ∈ scriptOf indexed, e.GivesBack) ↔ ∀ idx o baseIdx delta base, indexed[idx]? = some o →
      bestDelta indexed idx o.content = some (baseIdx, delta) → indexed[baseIdx]? = some base →
      ShortCopies base.content o.content := by
  have hmem : ∀ e, e ∈ scriptOf indexed ↔ ∃ o ∈ indexed.zipIdx, wireAt indexed o = e := by
    intro e
    rw [scriptOf, mem_map]
    refine exists_congr fun o => and_congr_left fun _ => ?_
    rw [mem_append, mem_filter, mem_filter, ← and_or_left]
    cases hasBase indexed o <;> simp
  constructor
  · intro h idx o baseIdx delta base ho hbest hbase
    have hback := h _ ((hmem _).mpr ⟨(o, idx), List.mem_zipIdx_iff_getElem?.mpr ho, rfl⟩)
    rw [wireAt, hbest] at hback
    dsimp only at hback
    rwa [hbase] at hback
  · intro h e he
    obtain ⟨o, ho, rfl⟩ := (hmem e).mp he
    unfold wireAt
    cases hbest : bestDelta indexed o.2 o.1.content with
    | none => trivial
    | some r =>
      obtain ⟨ci, delta⟩ := r
      obtain ⟨-, base, hbase, -⟩ := bestDelta_spec hbest
      dsimp only
      rw [hbase]
      exact h o.2 o.1 ci delta base (List.mem_zipIdx_iff_getElem?.mp ho) hbest hbase

/-- **What the encoder writes**: a script that rearranges the objects, with every base before its deltas. -/
theorem encode_script (useDeltas : Bool) :
    ∃ flags script, encode hashes objects useDeltas =
        withHash hashes (bundleHeader flags objects.length ++ script.flatMap WireEntry.bytes) ∧
      (script.map WireEntry.object).Perm objects ∧ ScriptReady [] script ∧
      (∀ e ∈ script, e.isDelta = true → flags.toNat % 2 ≠ 0) ∧
      ((∀ e ∈ script, e.GivesBack) ↔ (useDeltas = true → 2 ≤ objects.length → DeltasFit objects)) := by
  by_cases hfull : useDeltas = false ∨ objects.length < 2
  · refine ⟨0, objects.map .full, ?_, ?_, ?_, ?_, ?_⟩
    · rw [encode, if_pos hfull, encodeFullOnly, flatMap_map]
      rfl
    · rw [map_map]
      exact List.Perm.of_eq (map_id objects)
    · exact scriptReady_map_full objects []
    · intro e he hdelta
      obtain ⟨o, -, rfl⟩ := mem_map.mp he
      cases hdelta
    · constructor
      · intro _ huse hlength
        rcases hfull with hnot | hshort
        · simp [huse] at hnot
        · omega
      · intro _ e he
        obtain ⟨o, -, rfl⟩ := mem_map.mp he
        trivial
  · have hperm : (bySize objects).Perm objects := mergeSort_perm objects _
    have hlength : (planEntries (bySize objects)).length = objects.length := by
      rw [length_planEntries, hperm.length_eq]
    rw [not_or, Bool.not_eq_false, not_lt] at hfull
    refine ⟨if (planEntries (bySize objects)).any fun p => p.deltaBase.isSome then 1 else 0,
      scriptOf (bySize objects), ?_, (map_object_scriptOf _).trans hperm, scriptReady_scriptOf _, ?_, ?_⟩
    · rw [encode, if_neg (by rw [not_or, Bool.not_eq_false, not_lt]; exact hfull)]
      dsimp only
      rw [flatMap_emittedOrder, hlength]
    · intro e he hdelta
      obtain ⟨o, ho, rfl⟩ := mem_map.mp he
      rw [isDelta_wireAt] at hdelta
      have hin : o ∈ (bySize objects).zipIdx := by
        rcases mem_append.mp ho with ho | ho <;> exact (mem_filter.mp ho).1
      have hany : ((planEntries (bySize objects)).any fun p => p.deltaBase.isSome) = true :=
        any_eq_true.mpr ⟨_, mem_of_getElem? (planEntries_get _ hin), hdelta⟩
      rw [if_pos hany]
      decide
    · rw [givesBack_scriptOf]
      exact ⟨fun h _ _ => h, fun h => h hfull.1 hfull.2⟩

end KappaRegistry
