import KappaRegistry.Lib.GrantGraph
import KappaRegistry.Auth
import KappaRegistry.Store.Sample

/-!
# The Delegation Walk

The Delegation edges that count towards an operation in a namespace form a grant graph: the grants into
an anchor are the counting edges that the namespace and `_root` list into it, the roots are the anchors
that hold a self-asserted Capability in either, and an edge is renewable if its `delegation_depth` is at
least one. `checkDelegationInner_eq` says that the walk is the first-match search of `Lib.GrantGraph`.

`DelegationPath` is the meaning the walk is for: a chain of at most six edges from a holder of the
capability. A successful walk has such a path behind it (`checkDelegation_sound`). The converse
fails: at each delegator the walk settles for the first authorising edge it meets, and if that
edge may not be re-delegated it never looks at a later one that may. `checkDelegation_finds` says
which depths and listing orders let a path be found.
-/

namespace KappaRegistry

open Lib List

variable (serde : SerdeJson) (store : KappaStore) (nowMs : ℕ)
  (ns : NamespaceRef) (op : OpClass) (edge : Edge)

/-- The namespaces whose edges count towards authority in `ns`: itself and `_root`. -/
def authorityNamespaces : List NamespaceRef :=
  match store.namespaceResolve "_root" none with
  | .ok rootNs => [ns, rootNs]
  | .error _ => [ns]

/-- The re-delegation depth of an edge, zero for an edge that carries no scope. -/
def depthOf : ℕ := ((scopeOf serde edge).map DelegationScope.delegationDepth).getD 0

/-- A Delegation edge counts towards `op` in `ns`: it carries a scope that covers the namespace,
lists the operation and has not expired, and its source asserted it. -/
def CountsFor (ns : NamespaceRef) (op : OpClass) (edge : Edge) : Prop :=
  ∃ scope, scopeOf serde edge = some scope ∧
    (scope.namespaces = [] ∨ ∃ m ∈ scope.namespaces, startsWith ns.asStr m = true) ∧
    (∃ opStr, op.opStr = some opStr ∧ opStr ∈ scope.operations) ∧
    (∀ expires, scope.expiresAtMs = some expires → nowMs ≤ expires) ∧
    edge.asserter = edge.source

/-- The test of the walk for `CountsFor`. -/
def isCounted : Bool :=
  op.opStr.any fun opStr => (admittedScope serde nowMs ns opStr edge).isSome

theorem admittedScope_eq_some {ns : NamespaceRef} {opStr : String} {edge : Edge}
    {scope : DelegationScope} : admittedScope serde nowMs ns opStr edge = some scope ↔
      scopeOf serde edge = some scope ∧
      (scope.namespaces = [] ∨ ∃ m ∈ scope.namespaces, startsWith ns.asStr m = true) ∧
      opStr ∈ scope.operations ∧ (∀ expires, scope.expiresAtMs = some expires → nowMs ≤ expires) ∧
      edge.asserter = edge.source := by
  unfold admittedScope
  cases scopeOf serde edge with
  | none => simp
  | some sc =>
    have hcover : ¬ (!sc.namespaces.isEmpty &&
        !(sc.namespaces.any fun n => startsWith ns.asStr n)) = true ↔
        (sc.namespaces = [] ∨ ∃ m ∈ sc.namespaces, startsWith ns.asStr m = true) := by
      simp [or_iff_not_imp_left]
    have hops : ¬ (!(sc.operations.any fun o => o == opStr)) = true ↔ opStr ∈ sc.operations := by
      simp
    have hexp : ¬ (sc.expiresAtMs.any fun expires => decide (nowMs > expires)) = true ↔
        ∀ expires, sc.expiresAtMs = some expires → nowMs ≤ expires := by
      cases sc.expiresAtMs <;> simp
    dsimp only
    constructor
    · intro h
      split_ifs at h with h₁ h₂ h₃ h₄
      cases h
      exact ⟨rfl, hcover.mp h₁, hops.mp h₂, hexp.mp h₃, not_not.mp h₄⟩
    · intro ⟨hsc, h₁, h₂, h₃, h₄⟩
      cases hsc
      rw [if_neg (hcover.mpr h₁), if_neg (hops.mpr h₂), if_neg (hexp.mpr h₃),
        if_neg (not_not.mpr h₄)]

theorem isCounted_iff {ns : NamespaceRef} {op : OpClass} {edge : Edge} :
    isCounted serde nowMs ns op edge = true ↔ CountsFor serde nowMs ns op edge := by
  unfold isCounted CountsFor
  rw [Option.any_eq_true]
  constructor
  · intro ⟨opStr, hop, hsome⟩
    obtain ⟨scope, hscope⟩ := Option.isSome_iff_exists.mp hsome
    obtain ⟨h₁, h₂, h₃, h₄, h₅⟩ := (admittedScope_eq_some serde nowMs).mp hscope
    exact ⟨scope, h₁, h₂, ⟨opStr, hop, h₃⟩, h₄, h₅⟩
  · intro ⟨scope, h₁, h₂, ⟨opStr, hop, h₃⟩, h₄, h₅⟩
    refine ⟨opStr, hop, Option.isSome_iff_exists.mpr ⟨scope, ?_⟩⟩
    exact (admittedScope_eq_some serde nowMs).mpr ⟨h₁, h₂, h₃, h₄, h₅⟩

/-! ## The walk is a grant search -/

/-- The counting Delegation edges for `op` in `ns`, as a grant graph. -/
def delegationGraph : GrantGraph String Edge where
  into x := ((authorityNamespaces store ns).flatMap fun c =>
    store.edgesOf c (.delegationsInto x)).filter (isCounted serde nowMs ns op)
  source := Edge.source
  root x := (authorityNamespaces store ns).any fun c => holdsCapability serde store c op x
  renewable e := decide (1 ≤ depthOf serde e)

section

variable {serde store nowMs} {ns rootNs : NamespaceRef} {op : OpClass} {opStr : String}
  (hop : op.opStr = some opStr) (found : String → Option ℕ)
include hop

/-- The loop over a list of edges stops at the first that counts and whose source is a root or is
found with a depth of at least one. -/
theorem scanEdges_eq (edges : List Edge) :
    scanEdges serde store nowMs ns rootNs op opStr (fun x => .ok (found x)) edges =
      .ok (((edges.filter (isCounted serde nowMs ns op)).find? fun e =>
        ([ns, rootNs].any fun c => holdsCapability serde store c op e.source) ||
          (found e.source).any fun depth => decide (1 ≤ depth)).map (depthOf serde)) := by
  induction edges with
  | nil => rfl
  | cons e es ih =>
    cases hadm : admittedScope serde nowMs ns opStr e with
    | none =>
      have hcount : ¬ isCounted serde nowMs ns op e = true := by simp [isCounted, hop, hadm]
      rw [filter_cons_of_neg hcount]
      simp only [scanEdges, hadm]
      exact ih
    | some scope =>
      have hcount : isCounted serde nowMs ns op e = true := by simp [isCounted, hop, hadm]
      have hdepth : depthOf serde e = scope.delegationDepth := by
        simp [depthOf, ((admittedScope_eq_some serde nowMs).mp hadm).1]
      rw [filter_cons_of_pos hcount, find?_cons]
      simp only [scanEdges, hadm]
      cases hroot : [ns, rootNs].any fun c => holdsCapability serde store c op e.source with
      | true => simp [hdepth]
      | false =>
        cases hfound : found e.source with
        | none => simpa using ih
        | some depth =>
          by_cases hd : 1 ≤ depth
          · simp [hd, hdepth]
          · simpa [hd] using ih

theorem scanNamespaces_eq (target : String) (nss : List NamespaceRef) :
    scanNamespaces serde store nowMs ns rootNs op opStr (fun x => .ok (found x)) target nss =
      .ok ((((nss.flatMap fun c => store.edgesOf c (.delegationsInto target)).filter
        (isCounted serde nowMs ns op)).find? fun e =>
        ([ns, rootNs].any fun c => holdsCapability serde store c op e.source) ||
          (found e.source).any fun depth => decide (1 ≤ depth)).map (depthOf serde)) := by
  induction nss with
  | nil => rfl
  | cons c cs ih =>
    rw [flatMap_cons, filter_append, find?_append]
    cases hq : store.edgeQuery c (.delegationsInto target) with
    | error err =>
      simp only [scanNamespaces, hq]
      rw [ih]
      simp [KappaStore.edgesOf, hq]
    | ok edges =>
      simp only [scanNamespaces, hq, scanEdges_eq hop found]
      have hlist : store.edgesOf c (.delegationsInto target) = edges := by
        simp [KappaStore.edgesOf, hq]
      rw [hlist]
      cases (edges.filter (isCounted serde nowMs ns op)).find? _ with
      | none => simpa using ih
      | some e => simp

/-- **The walk is the first-match search of the delegation graph.** -/
theorem checkDelegationInner_eq (hroot : store.namespaceResolve "_root" none = .ok rootNs)
    (hops : ℕ) (target : String) : checkDelegationInner serde store nowMs ns op hops target =
      .ok (((delegationGraph serde store nowMs ns op).find hops target).map (depthOf serde)) := by
  induction hops generalizing target with
  | zero => rfl
  | succ hops ih =>
    have hrec : checkDelegationInner serde store nowMs ns op hops = fun x =>
        .ok (((delegationGraph serde store nowMs ns op).find hops x).map (depthOf serde)) :=
      funext ih
    have hnss : authorityNamespaces store ns = [ns, rootNs] := by simp [authorityNamespaces, hroot]
    simp only [checkDelegationInner, hop, hroot, hrec, scanNamespaces_eq hop]
    simp only [GrantGraph.find, delegationGraph, hnss, Option.any_map]

end

/-! ## Delegation paths -/

/-- Each edge of the list is listed among the Delegation edges into the source of the one before
it, and the first among those into `x`. -/
def Linked (nss : List NamespaceRef) : String → List Edge → Prop
  | _, [] => True
  | x, e :: es => (∃ c ∈ nss, e ∈ store.edgesOf c (.delegationsInto x)) ∧ Linked nss e.source es

/-- A chain of Delegation edges that ends at `a`, written from its last edge back to its first. -/
structure DelegationPath (ns : NamespaceRef) (op : OpClass) (a : String) (path : List Edge) :
    Prop where
  nonempty : path ≠ []
  length_le : path.length ≤ 6
  linked : Linked store (authorityNamespaces store ns) a path
  counted : ∀ e ∈ path, CountsFor serde nowMs ns op e
  rooted : ∃ e, path.getLast? = some e ∧
    ∃ c ∈ authorityNamespaces store ns, holdsCapability serde store c op e.source = true
  renewable : ∀ e ∈ path.tail, 1 ≤ depthOf serde e

section

variable (nss : List NamespaceRef) (ns : NamespaceRef) (op : OpClass)

instance decidableLinked : ∀ x es, Decidable (Linked store nss x es)
  | _, [] => isTrue trivial
  | x, e :: es =>
    have := decidableLinked e.source es
    inferInstanceAs (Decidable
      ((∃ c ∈ nss, e ∈ store.edgesOf c (.delegationsInto x)) ∧ Linked store nss e.source es))

instance (e : Edge) : Decidable (CountsFor serde nowMs ns op e) :=
  decidable_of_iff _ (isCounted_iff serde nowMs)

instance (a : String) (path : List Edge) :
    Decidable (DelegationPath serde store nowMs ns op a path) :=
  decidable_of_iff
    (path ≠ [] ∧ path.length ≤ 6 ∧ Linked store (authorityNamespaces store ns) a path ∧
      (∀ e ∈ path, CountsFor serde nowMs ns op e) ∧
      (∃ e ∈ path.getLast?, ∃ c ∈ authorityNamespaces store ns,
        holdsCapability serde store c op e.source = true) ∧
      ∀ e ∈ path.tail, 1 ≤ depthOf serde e)
    ⟨fun ⟨h₁, h₂, h₃, h₄, h₅, h₆⟩ => ⟨h₁, h₂, h₃, h₄, h₅, h₆⟩,
      fun h => ⟨h.nonempty, h.length_le, h.linked, h.counted, h.rooted, h.renewable⟩⟩

end

section

variable {serde store nowMs} {ns : NamespaceRef} {op : OpClass} {a : String}

theorem Linked.exists_listed {nss : List NamespaceRef} {path : List Edge} {e : Edge}
    (h : Linked store nss a path) (he : e ∈ path) :
    ∃ c x, e ∈ store.edgesOf c (.delegationsInto x) := by
  induction path generalizing a with
  | nil => cases he
  | cons f path ih =>
    rcases mem_cons.mp he with rfl | he
    · obtain ⟨c, -, hlisted⟩ := h.1
      exact ⟨c, a, hlisted⟩
    · exact ih h.2 he

theorem mem_into_iff {x : String} {e : Edge} :
    e ∈ (delegationGraph serde store nowMs ns op).into x ↔
      (∃ c ∈ authorityNamespaces store ns, e ∈ store.edgesOf c (.delegationsInto x)) ∧
        CountsFor serde nowMs ns op e := by
  simp only [delegationGraph, mem_filter, mem_flatMap, isCounted_iff]

theorem root_iff {x : String} : (delegationGraph serde store nowMs ns op).root x = true ↔
    ∃ c ∈ authorityNamespaces store ns, holdsCapability serde store c op x = true := by
  simp only [delegationGraph, any_eq_true]

theorem renewable_iff {e : Edge} :
    (delegationGraph serde store nowMs ns op).renewable e = true ↔ 1 ≤ depthOf serde e :=
  decide_eq_true_iff

theorem delegationPath_iff {path : List Edge} : DelegationPath serde store nowMs ns op a path ↔
      (delegationGraph serde store nowMs ns op).Path a path ∧ path.length ≤ 6 := by
  constructor
  · intro ⟨hne, hlen, hlinked, hcounted, hrooted, hrenew⟩
    refine ⟨?_, hlen⟩
    clear hlen
    induction path generalizing a with
    | nil => exact absurd rfl hne
    | cons e es ih =>
      have hmem : e ∈ (delegationGraph serde store nowMs ns op).into a :=
        mem_into_iff.mpr ⟨hlinked.1, hcounted e (by simp)⟩
      cases es with
      | nil =>
        obtain ⟨e', hlast, hcap⟩ := hrooted
        obtain rfl : e = e' := by simpa using hlast
        exact .root hmem (root_iff.mpr hcap)
      | cons p ps =>
        refine .grant hmem ?_ (renewable_iff.mpr (hrenew p (by simp)))
        refine ih (by simp) hlinked.2 (fun f hf => hcounted f (mem_cons_of_mem _ hf)) ?_ ?_
        · simpa using hrooted
        · exact fun f hf => hrenew f (by simpa using Or.inr hf)
  · intro ⟨hpath, hlen⟩
    suffices h : Linked store (authorityNamespaces store ns) a path ∧
        (∀ e ∈ path, CountsFor serde nowMs ns op e) ∧
        (∃ e, path.getLast? = some e ∧
          ∃ c ∈ authorityNamespaces store ns, holdsCapability serde store c op e.source = true) ∧
        ∀ e ∈ path.tail, 1 ≤ depthOf serde e from
      ⟨hpath.ne_nil, hlen, h.1, h.2.1, h.2.2.1, h.2.2.2⟩
    clear hlen
    induction hpath with
    | root mem hroot =>
      obtain ⟨hlisted, hcounts⟩ := mem_into_iff.mp mem
      exact ⟨⟨hlisted, trivial⟩, by simpa using hcounts, ⟨_, rfl, root_iff.mp hroot⟩, by simp⟩
    | grant mem rest hrenew ih =>
      obtain ⟨hlisted, hcounts⟩ := mem_into_iff.mp mem
      obtain ⟨hlinked, hcounted, hrooted, hrenewable⟩ := ih
      refine ⟨⟨hlisted, hlinked⟩, ?_, by simpa using hrooted, ?_⟩
      · exact forall_mem_cons.mpr ⟨hcounts, hcounted⟩
      · exact forall_mem_cons.mpr ⟨renewable_iff.mp hrenew, hrenewable⟩

end

/-! ## What the walk decides -/

theorem OpClass.opStr_of_ne_exempt {op : OpClass} (h : op ≠ .exempt) :
    ∃ opStr, op.opStr = some opStr := by
  cases op with
  | exempt => exact absurd rfl h
  | read | write | admin => exact ⟨_, rfl⟩

/-- Some counting edge into `a` is live: its source holds the capability, or some re-delegable live
edge into its source has no live edge before it in the listing that may not be re-delegated, and so
on for at most five hops. -/
def HasLiveDelegation (a : String) : Prop :=
  (∃ rootNs, store.namespaceResolve "_root" none = .ok rootNs) ∧
    ∃ e ∈ (delegationGraph serde store nowMs ns op).into a,
      (delegationGraph serde store nowMs ns op).Live 5 e

section

variable {serde store nowMs} {ns : NamespaceRef} {op : OpClass} {a : String}

theorem checkDelegation_eq (hop : op ≠ .exempt) : checkDelegation serde store nowMs ns op a 0 =
      match store.namespaceResolve "_root" none with
      | .error e => .error (.store e)
      | .ok _ => .ok ((delegationGraph serde store nowMs ns op).find 6 a).isSome := by
  obtain ⟨opStr, hstr⟩ := OpClass.opStr_of_ne_exempt hop
  unfold checkDelegation
  cases hroot : store.namespaceResolve "_root" none with
  | error e => simp [checkDelegationInner, hstr, hroot, Except.map]
  | ok rootNs =>
    rw [checkDelegationInner_eq hstr hroot]
    simp [Except.map]

theorem checkDelegation_true_iff (hop : op ≠ .exempt) :
    checkDelegation serde store nowMs ns op a 0 = .ok true ↔
      HasLiveDelegation serde store nowMs ns op a := by
  rw [checkDelegation_eq hop, HasLiveDelegation, ← GrantGraph.find_isSome_iff]
  cases store.namespaceResolve "_root" none with
  | error e | ok rootNs => simp

/-- **A successful walk has a path behind it.** -/
theorem checkDelegation_sound (hop : op ≠ .exempt)
    (h : checkDelegation serde store nowMs ns op a 0 = .ok true) :
    ∃ path, DelegationPath serde store nowMs ns op a path := by
  rw [checkDelegation_eq hop] at h
  cases hroot : store.namespaceResolve "_root" none with
  | error e => simp [hroot] at h
  | ok rootNs =>
    have hsome : ((delegationGraph serde store nowMs ns op).find 6 a).isSome = true := by
      simpa [hroot] using h
    obtain ⟨e, he⟩ := Option.isSome_iff_exists.mp hsome
    obtain ⟨es, hpath, hlen⟩ := GrantGraph.find_sound he
    exact ⟨e :: es, delegationPath_iff.mpr ⟨hpath, hlen⟩⟩

theorem DelegationPath.op_ne_exempt {path : List Edge}
    (h : DelegationPath serde store nowMs ns op a path) : op ≠ .exempt := by
  obtain ⟨e, he⟩ := exists_mem_of_ne_nil path h.nonempty
  obtain ⟨_, _, _, ⟨opStr, hop, _⟩, _⟩ := h.counted e he
  rintro rfl
  cases hop

theorem DelegationPath.found {rootNs : NamespaceRef} {path : List Edge}
    (hroot : store.namespaceResolve "_root" none = .ok rootNs)
    (h : DelegationPath serde store nowMs ns op a path)
    (hfirst : (delegationGraph serde store nowMs ns op).Unhidden path) :
    checkDelegation serde store nowMs ns op a 0 = .ok true := by
  obtain ⟨hgraph, hlen⟩ := delegationPath_iff.mp h
  refine (checkDelegation_true_iff h.op_ne_exempt).mpr ⟨⟨rootNs, hroot⟩, ?_⟩
  cases path with
  | nil => exact absurd rfl hgraph.ne_nil
  | cons e es =>
    exact ⟨e, hgraph.head_mem,
      GrantGraph.live_of_unhidden hgraph hfirst (Nat.le_of_succ_le_succ hlen)⟩

end

def appNs : NamespaceRef := .withName 1 "nix/app"

/-- Two holders of the capability delegate to `bob`: `alice` without re-delegation, then `amy` with
it. `bob` delegates to `carol`. -/
def shadowStore : KappaStore :=
  ((InMemoryStore.withNamespaces [("_root", "anonymous"), ("nix/app", "alice")]).putEdges appNs
    [.capability "alice" "nix/app" ["write"], .capability "amy" "nix/app" ["write"],
      .delegation "alice" "bob" [] ["write"] 0, .delegation "amy" "bob" [] ["write"] 1,
      .delegation "bob" "carol" [] ["write"] 0]).toKappaStore .sample

/-- The path from `amy` to `carol`. -/
def shadowedPath : List Edge :=
  [.delegation "bob" "carol" [] ["write"] 0, .delegation "amy" "bob" [] ["write"] 1]

/-- A store that lists these edges, in every namespace; every name resolves. -/
def KappaStore.holding (edges : List Edge) : KappaStore where
  namespaceResolve name _ := .ok (.withName 0 name)
  namespaceInfo name _ := .error (.notFound name)
  edgeQuery _ q := .ok (edges.filter fun e => q.admits e && q.direction.endOf e == q.anchor)

/-- The edges of `shadowStore`, with those into `bob` as listed. -/
def listedStore (intoBob : List Edge) : KappaStore :=
  .holding ([.capability "alice" "nix/app" ["write"], .capability "amy" "nix/app" ["write"],
    .delegation "bob" "carol" [] ["write"] 0] ++ intoBob)

/-- An edge whose scope names namespaces covers `ns` at a boundary: some entry is the name of `ns`
or of a namespace above it. -/
def CoversAtBoundary (ns : NamespaceRef) (edge : Edge) : Prop :=
  ∀ scope, scopeOf serde edge = some scope → scope.namespaces ≠ [] →
    ∃ m ∈ scope.namespaces, ns.asStr = m ∨ startsWith ns.asStr (m ++ "/") = true

/-- The test for `CoversAtBoundary`. -/
def coversAtBoundary : Bool :=
  (scopeOf serde edge).all fun scope => scope.namespaces.isEmpty ||
    scope.namespaces.any fun m => ns.asStr == m || startsWith ns.asStr (m ++ "/")

theorem coversAtBoundary_iff {ns : NamespaceRef} {edge : Edge} :
    coversAtBoundary serde ns edge = true ↔ CoversAtBoundary serde ns edge := by
  unfold coversAtBoundary CoversAtBoundary
  cases scopeOf serde edge with
  | none => simp
  | some scope => simp [or_iff_not_imp_left]

/-- A namespace whose name continues that of another without a boundary. -/
def appleNs : NamespaceRef := .withName 1 "nix/apple"

/-- `alice` delegates the namespace `nix/app` to `bob`; the edge is stored in `nix/apple`. -/
def boundaryStore : KappaStore :=
  ((InMemoryStore.withNamespaces [("_root", "anonymous"), ("nix/apple", "alice")]).putEdges appleNs
    [.capability "alice" "nix/apple" ["write"],
      .delegation "alice" "bob" ["nix/app"] ["write"] 0]).toKappaStore .sample

end KappaRegistry
