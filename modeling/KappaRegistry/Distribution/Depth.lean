import KappaRegistry.Auth.Delegation
import KappaRegistry.Distribution.Edge
import KappaRegistry.Store.EdgeTables

/-!
# Delegation Depth Along Runs

A Delegation edge says how often it may be re-delegated. The handler enforces this when an edge is
created: the new depth must be below the depth the delegator has left. So whether a chain respects the
depths on it is an invariant of runs: every edge into an anchor must be deeper than every edge out of it.

The handler does not maintain it. It compares with one edge, the first it finds, and not at all for
owners and holders of a `_root` capability; it adds one for delegates of `_root`; and it never looks at
the edges that already leave the delegate. `WithinDepth` is what it leaves to the callers. In every run
of requests that keep to it, no edge of an authorising path is followed by more edges than its depth
allows (**`delegationDepth_bounds_path`**).
-/

namespace KappaRegistry

open Lib PersistentStore

/-! ## Requests -/

/-- A request for an edge as it comes out of the interceptor: the namespace in its path, the
authenticated caller and the body, and the UUID and time that serving it draws. -/
structure EdgePutRequest where
  uuid : Uuid
  nowMs : ℕ
  ns : ResolvedNamespace
  caller : String
  body : Bytes
  nulFree : NulFree ns.name

variable (prim : Primitives) (serde : SerdeJson) (node : Option String)

def EdgePutRequest.asserter (r : EdgePutRequest) : String := registryAnchor (some r.caller) node

variable (s : PersistentStore)

/-- The store after a request that `check_authority_edge` and the handler accept. -/
def edgePutStep (r : EdgePutRequest) : Option PersistentStore :=
  match checkAuthorityEdge serde s.toKappaStore r.nowMs r.ns r.caller r.body with
  | .error _ => none
  | .ok () =>
    match putRoute serde (impl prim) s r.uuid r.nowMs r.ns (r.asserter node) r.body with
    | (.ok (), s') => some s'
    | (.error _, _) => none

/-- The store after a run of accepted requests. -/
def edgePutRun (rs : List EdgePutRequest) : Option PersistentStore :=
  rs.foldlM (edgePutStep prim serde node) s

section

variable {prim serde node}

theorem edgePutStep_eq_some {s s' : PersistentStore} {r : EdgePutRequest}
    (h : edgePutStep prim serde node s r = some s') :
    ∃ ns s₁ e, resolveNsWrite (impl prim) s r.uuid r.nowMs (r.asserter node) r.ns = .ok (ns, s₁) ∧
      parseEdge serde (r.asserter node) r.body = .ok e ∧
      checkDepth serde s₁.toKappaStore ns e = .ok () ∧ s' = s₁.edgePut prim ns.asStr e := by
  unfold edgePutStep at h
  split at h
  · cases h
  unfold putRoute at h
  cases hres : resolveNsWrite (impl prim) s r.uuid r.nowMs (r.asserter node) r.ns with
  | error e => simp [hres] at h
  | ok found =>
    obtain ⟨ns, s₁⟩ := found
    cases hput : put serde (impl prim) s₁ ns (r.asserter node) r.body with
    | error e => simp [hres, hput] at h
    | ok s₂ =>
      obtain ⟨e, hparse, -, hdepth, hedge⟩ := put_eq_ok.mp hput
      obtain rfl : s₂ = s' := by simpa [hres, hput] using h
      exact ⟨ns, s₁, e, rfl, hparse, hdepth, (Except.ok.inj hedge).symm⟩

end

/-! ## What the handler compares with -/

/-- The Delegation edge whose depth the handler compares with, if its rule gets that far: the first
one into the delegator that carries a scope. -/
def checkedParent (store : KappaStore) (ns : NamespaceRef) (delegator : String) : Option Edge :=
  if ownerIs store ns delegator then none
  else
    match rootDepth serde store delegator with
    | some _ => none
    | none => (store.edgesOf ns (.delegationsInto delegator)).find? fun e => (scopeOf serde e).isSome

section

variable {serde} {store : KappaStore} {ns : NamespaceRef}

theorem depthOf_eq {e : Edge} {scope : DelegationScope} (h : scopeOf serde e = some scope) :
    depthOf serde e = scope.delegationDepth := by
  simp [depthOf, h]

theorem firstDepth_eq (edges : List Edge) : firstDepth serde edges =
      (edges.find? fun e => (scopeOf serde e).isSome).map (depthOf serde) := by
  induction edges with
  | nil => rfl
  | cons e es ih =>
    cases hscope : scopeOf serde e with
    | none => simpa [firstDepth, hscope] using ih
    | some scope => simp [firstDepth, hscope, depthOf]

/-- **What the depth rule guarantees**: an accepted edge is less deep than the one compared with. -/
theorem checkDepth_parent {edge parent : Edge} (hrel : edge.relation = .delegation)
    (hscope : (scopeOf serde edge).isSome = true) (hcheck : checkDepth serde store ns edge = .ok ())
    (hparent : checkedParent serde store ns edge.source = some parent) :
    depthOf serde edge < depthOf serde parent := by
  obtain ⟨scope, hsc⟩ := Option.isSome_iff_exists.mp hscope
  have hlt := (checkDepth_eq_ok hrel hsc).mp hcheck
  rw [← depthOf_eq hsc] at hlt
  have hdepth : delegatorDepth serde store ns edge.source = depthOf serde parent := by
    unfold checkedParent at hparent
    unfold delegatorDepth
    by_cases howner : ownerIs store ns edge.source = true
    · simp [if_pos howner] at hparent
    · rw [if_neg howner] at hparent ⊢
      cases hroot : rootDepth serde store edge.source with
      | some depth =>
        simp [hroot] at hparent
      | none =>
        simp only [hroot] at hparent ⊢
        rw [firstDepth_eq, hparent]
        rfl
  rwa [hdepth] at hlt

end

/-! ## The invariant -/

/-- Some row of the namespace `w` is the Delegation edge `e`, and `e` carries a scope. -/
def DelegationRow (w : String) (e : Edge) : Prop :=
  (∃ kappa, s.edgeAt w kappa = some e) ∧ e.relation = .delegation ∧ (scopeOf serde e).isSome = true

/-- A walk may follow edges of both namespaces: they are the same, or one is `_root`. -/
def Overlap (w w' : String) : Prop := w = w' ∨ w = "_root" ∨ w' = "_root"

theorem Overlap.symm {w w' : String} (h : Overlap w w') : Overlap w' w := by
  rcases h with rfl | h | h
  · exact .inl rfl
  · exact .inr (.inr h)
  · exact .inr (.inl h)

/-- Every edge is less deep than every edge into its source. -/
def DepthsDecrease : Prop :=
  ∀ w w' e f, NulFree w → NulFree w' → Overlap w w' → DelegationRow serde s w e →
    DelegationRow serde s w' f → f.target = e.source → depthOf serde e < depthOf serde f

/-- What a caller has to keep to when putting a Delegation edge. Its texts are in normal form and
its label is not in use for another target. If it carries a scope, then it does not lead back to
its source, it is less deep than every Delegation edge into its source other than the one the
handler compares it with, and it is deeper than every Delegation edge out of its target. -/
structure WithinDepth (s : PersistentStore) (ns : NamespaceRef) (e : Edge) : Prop where
  source_nfc : prim.nfc e.source = e.source
  target_nfc : prim.nfc e.target = e.target
  label : ∀ x, e.kappa prim ∈ s.edgeRev.values (dbKey ns.asStr x) → x = e.target
  noLoop : (scopeOf serde e).isSome = true → e.source ≠ e.target
  below : (scopeOf serde e).isSome = true → ∀ w f, NulFree w → Overlap ns.asStr w →
    DelegationRow serde s w f → f.target = e.source →
    checkedParent serde s.toKappaStore ns e.source = some f ∨ depthOf serde e < depthOf serde f
  above : (scopeOf serde e).isSome = true → ∀ w f, NulFree w → Overlap ns.asStr w →
    DelegationRow serde s w f → f.source = e.target → depthOf serde f < depthOf serde e

section

variable {prim serde} {s : PersistentStore}

theorem DelegationRow.of_edgePut {ns w : String} {edge e : Edge}
    (hns : NulFree ns) (hw : NulFree w) (h : DelegationRow serde (s.edgePut prim ns edge) w e) :
    DelegationRow serde s w e ∨ w = ns ∧ e = edge.canonical prim := by
  obtain ⟨⟨kappa, hrow⟩, hrel, hscope⟩ := h
  rcases edgePut_row prim hrow with hbefore | ⟨rfl, kappa', hkey⟩
  · exact .inl ⟨⟨kappa, hbefore⟩, hrel, hscope⟩
  · exact .inr ⟨((dbKey_inj hw hns).mp hkey).1, rfl⟩

/-- **One step**: an accepted put that keeps within depth keeps the invariant. -/
theorem DepthsDecrease.edgePut (hs : DepthsDecrease serde s)
    {ns : NamespaceRef} (hns : NulFree ns.asStr) {edge : Edge}
    (hcheck : checkDepth serde s.toKappaStore ns edge = .ok ())
    (hwithin : edge.relation = .delegation → WithinDepth prim serde s ns edge) :
    DepthsDecrease serde (s.edgePut prim ns.asStr edge) := by
  intro w w' e f hw hw' hover he hf hlink
  rcases he.of_edgePut hns hw with heold | ⟨rfl, rfl⟩
  · rcases hf.of_edgePut hns hw' with hfold | ⟨rfl, rfl⟩
    · exact hs w w' e f hw hw' hover heold hfold hlink
    · -- the new edge leads into the source of an old one
      have hin := hwithin hf.2.1
      have htarget : e.source = edge.target := by
        rw [← hlink]
        exact hin.target_nfc
      exact hin.above hf.2.2 w e hw hover.symm heold htarget
  · have hrel : edge.relation = .delegation := he.2.1
    have hscope : (scopeOf serde edge).isSome = true := he.2.2
    have hin := hwithin hrel
    have hsource : f.target = edge.source := by
      rw [hlink]
      exact hin.source_nfc
    rcases hf.of_edgePut hns hw' with hfold | ⟨-, rfl⟩
    · -- an old edge leads into the source of the new one
      rcases hin.below hscope w' f hw' hover hfold hsource with hparent | hlt
      · show depthOf serde edge < depthOf serde f
        exact checkDepth_parent hrel hscope hcheck hparent
      · exact hlt
    · refine absurd ?_ (hin.noLoop hscope)
      rw [← hsource]
      exact hin.target_nfc

end

/-! ## Runs -/

/-- The stores reached from `s₀` by accepted requests that keep within depth, each judged in the
store it finds once its namespace is there. -/
inductive DepthRun (s₀ : PersistentStore) : PersistentStore → Prop where
  | start : DepthRun s₀ s₀
  | step {s s' : PersistentStore} (r : EdgePutRequest) (run : DepthRun s₀ s)
      (accepted : edgePutStep prim serde node s r = some s')
      (within : ∀ ns s₁ e,
        resolveNsWrite (impl prim) s r.uuid r.nowMs (r.asserter node) r.ns = .ok (ns, s₁) →
        parseEdge serde (r.asserter node) r.body = .ok e → e.relation = .delegation →
        WithinDepth prim serde s₁ ns e) :
      DepthRun s₀ s'

/-- The path the walk succeeds through, from its last edge back to its first. -/
def authorisingPath (store : KappaStore) (nowMs : ℕ) (ns : NamespaceRef) (op : OpClass)
    (a : String) : List Edge :=
  ((delegationGraph serde store nowMs ns op).trail 6 a).getD []

section

variable {prim serde node} {s₀ s : PersistentStore}

/-- **Every run** from a store without Delegation edges keeps both invariants. -/
theorem DepthRun.invariant (hrun : DepthRun prim serde node s₀ s)
    (hstart : ∀ (key : String) e, s₀.edges[key]? = some e → e.relation ≠ .delegation) :
    s.RevListsTargets ∧ DepthsDecrease serde s := by
  induction hrun with
  | start =>
    constructor
    · intro ns x kappa e _ _ hrow hrel
      exact absurd hrel (hstart _ e hrow)
    · intro w w' e f _ _ _ ⟨⟨kappa, hrow⟩, hrel, _⟩
      exact absurd hrel (hstart _ e hrow)
  | step r run accepted within ih =>
    obtain ⟨ns, s₁, e, hresolve, hparse, hcheck, rfl⟩ := edgePutStep_eq_some accepted
    obtain ⟨hname, hedges, hrev⟩ := resolveNsWrite_eq_ok prim hresolve
    have hns : NulFree ns.asStr := hname ▸ r.nulFree
    have hin := within ns s₁ e hresolve hparse
    -- finding the namespace changed neither table
    have hlists : s₁.RevListsTargets := by
      simpa only [RevListsTargets, edgeAt, hedges, hrev] using ih.1
    have hdepths : DepthsDecrease serde s₁ := by
      simpa only [DepthsDecrease, DelegationRow, edgeAt, hedges] using ih.2
    refine ⟨hlists.edgePut prim hns fun hrel => ?_, hdepths.edgePut hns hcheck hin⟩
    exact ⟨(hin hrel).target_nfc, (hin hrel).label⟩

variable {ns : NamespaceRef}

theorem asStr_mem_authorityNamespaces {c : NamespaceRef}
    (hc : c ∈ authorityNamespaces s.toKappaStore ns) : c.asStr = ns.asStr ∨ c.asStr = "_root" := by
  unfold authorityNamespaces at hc
  split at hc
  · rename_i rootNs hroot
    obtain ⟨_, -, rfl⟩ := namespaceResolve_eq_ok.mp hroot
    rcases List.mem_cons.mp hc with rfl | hmem
    · exact .inl rfl
    · exact .inr (by rw [List.mem_singleton.mp hmem]; rfl)
  · exact .inl (by rw [List.mem_singleton.mp hc])

variable {nowMs : ℕ} {op : OpClass}

theorem delegationRow_of_mem_into (hlists : s.RevListsTargets) (hns : NulFree ns.asStr) {x : String}
    {e : Edge}
    (he : e ∈ (delegationGraph serde s.toKappaStore nowMs ns op).into x) :
    ∃ w, (w = ns.asStr ∨ w = "_root") ∧ NulFree w ∧ DelegationRow serde s w e ∧ e.target = x := by
  obtain ⟨⟨c, hc, hlisted⟩, scope, hscope, -⟩ := mem_into_iff.mp he
  obtain ⟨hrel, kappa, hkappa, hrow⟩ := mem_delegationsInto.mp hlisted
  have hname := asStr_mem_authorityNamespaces hc
  have hnul : NulFree c.asStr := by
    rcases hname with h | h
    · rwa [h]
    · rw [h]
      decide
  refine ⟨c.asStr, hname, hnul, ⟨⟨kappa, hrow⟩, hrel, ?_⟩, ?_⟩
  · rw [hscope]
    rfl
  · exact hlists c.asStr x kappa e hnul hkappa hrow hrel

theorem into_exempt (store : KappaStore) (nowMs : ℕ) (ns : NamespaceRef) (x : String) :
    (delegationGraph serde store nowMs ns .exempt).into x = [] := by
  show List.filter _ _ = []
  rw [List.filter_eq_nil_iff]
  intro e _
  simp [isCounted, OpClass.opStr]

theorem authorisingPath_eq {store : KappaStore} {a : String}
    (hwalk : checkDelegation serde store nowMs ns op a 0 = .ok true) :
    (op = .exempt ∧ authorisingPath serde store nowMs ns op a = []) ∨
      DelegationPath serde store nowMs ns op a (authorisingPath serde store nowMs ns op a) := by
  by_cases hop : op = .exempt
  · refine .inl ⟨hop, ?_⟩
    subst hop
    have hnone : (delegationGraph serde store nowMs ns .exempt).find 6 a = none := by
      rw [GrantGraph.find_succ, into_exempt]
      rfl
    rw [authorisingPath, GrantGraph.trail, hnone]
    rfl
  · right
    rw [checkDelegation_eq hop] at hwalk
    cases hroot : store.namespaceResolve "_root" none with
    | error e => simp [hroot] at hwalk
    | ok rootNs =>
      have hsome : ((delegationGraph serde store nowMs ns op).find 6 a).isSome = true := by
        simpa [hroot] using hwalk
      obtain ⟨e, he⟩ := Option.isSome_iff_exists.mp hsome
      obtain ⟨es, htrail, hpath, hlen⟩ := GrantGraph.trail_of_find he
      rw [authorisingPath, htrail]
      exact delegationPath_iff.mpr ⟨hpath, hlen⟩

end

/-- **Depths bound paths.** -/
theorem delegationDepth_bounds_path (s₀ s : PersistentStore)
    (hstart : ∀ (key : String) e, s₀.edges[key]? = some e → e.relation ≠ .delegation)
    (hrun : DepthRun prim serde node s₀ s) (nowMs : ℕ) (ns : NamespaceRef)
    (hns : NulFree ns.asStr) (op : OpClass) (a : String)
    (hwalk : checkDelegation serde s.toKappaStore nowMs ns op a 0 = .ok true) :
    (op ≠ .exempt → DelegationPath serde s.toKappaStore nowMs ns op a
      (authorisingPath serde s.toKappaStore nowMs ns op a)) ∧
    ∀ i e, (authorisingPath serde s.toKappaStore nowMs ns op a)[i]? = some e →
      i ≤ depthOf serde e := by
  obtain ⟨hlists, hdepths⟩ := hrun.invariant hstart
  have hdecrease : ∀ x e f, e ∈ (delegationGraph serde s.toKappaStore nowMs ns op).into x →
      f ∈ (delegationGraph serde s.toKappaStore nowMs ns op).into e.source →
      depthOf serde e < depthOf serde f := by
    intro x e f he hf
    obtain ⟨w, hw, hwnul, herow, -⟩ := delegationRow_of_mem_into hlists hns he
    obtain ⟨w', hw', hwnul', hfrow, hlink⟩ := delegationRow_of_mem_into hlists hns hf
    have hover : Overlap w w' := by
      rcases hw with rfl | rfl
      · rcases hw' with rfl | rfl
        · exact .inl rfl
        · exact .inr (.inr rfl)
      · exact .inr (.inl rfl)
    exact hdepths w w' e f hwnul hwnul' hover herow hfrow hlink
  rcases authorisingPath_eq hwalk with ⟨hop, hempty⟩ | hpath
  · refine ⟨fun hne => absurd hop hne, ?_⟩
    intro i e hi
    simp [hempty] at hi
  · refine ⟨fun _ => hpath, ?_⟩
    intro i e hi
    exact (delegationPath_iff.mp hpath).1.index_le hdecrease hi

/-! ## Concrete runs -/

/-- `_root`, in which `ann` and `amy` hold the capability to write, and the namespace `nix/app`. -/
def rootedStore : PersistentStore :=
  ((PersistentStore.withNamespaces [("_root", "anonymous"), ("nix/app", "zoe")]).edgePut .sample
    "_root" (.capability "ann" "_root" ["write"])).edgePut .sample
    "_root" (.capability "amy" "_root" ["write"])

theorem relation_rootedStore (key : String) (e : Edge) (h : rootedStore.edges[key]? = some e) :
    e.relation ≠ .delegation := by
  rcases edgePut_row _ h with h | ⟨rfl, -⟩
  · rcases edgePut_row _ h with h | ⟨rfl, -⟩
    · have hempty : (withNamespaces [("_root", "anonymous"), ("nix/app", "zoe")]).edges = ∅ := rfl
      simp [hempty] at h
    · nofun
  · nofun

theorem edgeRev_rootedStore (x kappa : String) :
    kappa ∉ rootedStore.edgeRev.values (dbKey appNs.asStr x) := by
  have hne : ∀ y, dbKey appNs.asStr x ≠ dbKey "_root" y := by
    intro y hkey
    exact absurd ((dbKey_inj (by decide) (by decide)).mp hkey).1 (by decide)
  intro h
  rcases edgePut_rev _ h with h | hkey
  · rcases edgePut_rev _ h with h | hkey
    · have hempty : (withNamespaces [("_root", "anonymous"), ("nix/app", "zoe")]).edgeRev = ∅ := rfl
      simp [hempty] at h
    · exact hne _ hkey
  · exact hne _ hkey

/-- A request for a Delegation edge in `nix/app`. -/
def delegationRequest (caller target : String) (ops : List String) (depth : ℕ) :
    EdgePutRequest where
  uuid := 0
  nowMs := 0
  ns := .exists appNs
  caller := caller
  body := Edge.requestBody caller target "delegation" (.delegation [] ops depth)
  nulFree := by decide

/-- **A request within depth**: `ann` lets `bob` write, which `bob` may not delegate further. -/
theorem delegationDepth_bounds_path_bob : ∃ s,
    edgePutStep .sample .text none rootedStore (delegationRequest "ann" "bob" ["write"] 0) = some s ∧
    checkDelegation .text s.toKappaStore 0 appNs .write "bob" 0 = .ok true ∧
    DelegationPath .text s.toKappaStore 0 appNs .write "bob"
      (authorisingPath .text s.toKappaStore 0 appNs .write "bob") ∧
    ∀ i e, (authorisingPath .text s.toKappaStore 0 appNs .write "bob")[i]? = some e →
      i ≤ depthOf .text e := by
  have hstep : (edgePutStep .sample .text none rootedStore
      (delegationRequest "ann" "bob" ["write"] 0)).any (fun s =>
        checkDelegation .text s.toKappaStore 0 appNs .write "bob" 0 = .ok true) = true := by
    decide +kernel
  obtain ⟨s, hs, hwalk⟩ := (Option.any_eq_true _ _).mp hstep
  have hnone : ∀ w f, ¬ DelegationRow .text rootedStore w f := by
    intro w f ⟨⟨kappa, hrow⟩, hrel, _⟩
    exact relation_rootedStore _ f hrow hrel
  have hparse : parseEdge .text "ann" (delegationRequest "ann" "bob" ["write"] 0).body =
      .ok (.delegation "ann" "bob" [] ["write"] 0) := by decide +kernel
  have hrun : DepthRun .sample .text none rootedStore s := by
    refine .step _ .start hs ?_
    intro ns s₁ e hresolve he _
    obtain ⟨rfl, rfl⟩ := Prod.mk.inj (Except.ok.inj hresolve)
    obtain rfl := Except.ok.inj (hparse.symm.trans he)
    exact {
      source_nfc := rfl
      target_nfc := rfl
      label := fun x hx => absurd hx (edgeRev_rootedStore x _)
      noLoop := fun _ => by decide
      below := fun _ w f _ _ hrow => absurd hrow (hnone w f)
      above := fun _ w f _ _ hrow => absurd hrow (hnone w f) }
  have hok := of_decide_eq_true hwalk
  obtain ⟨hpath, hbound⟩ := delegationDepth_bounds_path .sample .text none rootedStore s
    relation_rootedStore hrun 0 appNs (by decide) .write "bob" hok
  exact ⟨s, hs, hok, hpath nofun, hbound⟩

/-- `bob` may read with depth five by `amy`, and write with depth one by `ann`. The first of these
edges is the one the handler compares `bob`'s own delegation of writing with. -/
def overlappingRequests : List EdgePutRequest :=
  [delegationRequest "amy" "bob" ["read"] 5, delegationRequest "ann" "bob" ["write"] 1,
    delegationRequest "bob" "carol" ["write"] 4, delegationRequest "carol" "dave" ["write"] 3]

/-- **A depth of one, followed by two edges**: all four requests are accepted, and `dave` may write
by a path whose first edge has depth one. -/
theorem delegationDepth_exceeded :
    (∀ (key : String) e, rootedStore.edges[key]? = some e → e.relation ≠ .delegation) ∧
    ∃ s e, edgePutRun .sample .text none rootedStore overlappingRequests = some s ∧
      checkDelegation .text s.toKappaStore 0 appNs .write "dave" 0 = .ok true ∧
      (authorisingPath .text s.toKappaStore 0 appNs .write "dave")[2]? = some e ∧
      depthOf .text e = 1 := by
  have hrun : (edgePutRun .sample .text none rootedStore overlappingRequests).any (fun s =>
      checkDelegation .text s.toKappaStore 0 appNs .write "dave" 0 = .ok true ∧
      (authorisingPath .text s.toKappaStore 0 appNs .write "dave")[2]?.any (fun e =>
        depthOf .text e = 1)) = true := by
    decide +kernel
  obtain ⟨s, hs, hwalk⟩ := (Option.any_eq_true _ _).mp hrun
  simp only [Bool.decide_and, Bool.and_eq_true, decide_eq_true_eq, Option.any_eq_true] at hwalk
  obtain ⟨hok, e, he, hdepth⟩ := hwalk
  exact ⟨relation_rootedStore, s, e, hs, hok, he, hdepth⟩

end KappaRegistry
