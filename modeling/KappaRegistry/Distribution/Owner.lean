import KappaRegistry.Auth.Authorize
import KappaRegistry.Distribution.Edge
import KappaRegistry.Store.EdgeTables

/-!
# Delegations Issued by an Owner

The edge handler lets the owner of a namespace delegate without limit, but the walk that honours a
delegation at access time accepts as roots only holders of a capability. An owner who never wrote
a Capability edge for themselves is accepted by the owner rule, and nobody they delegate to is.

`ownerDelegation_honoured_iff` is the exact extent, for every store: the delegate is authorised iff
they would be without the edge, or the edge, which the store keeps in normal form, is listed for them
(`ListsInto`) and the owner has what the walk asks of any other delegator (`MayDelegate`).
-/

namespace KappaRegistry

open Lib PersistentStore

variable (serde : SerdeJson) (store : KappaStore) (nowMs : ℕ)

/-- What the walk over `ns` asks of a delegator: the capability in `ns` or in `_root`, or a live
edge into it that may be re-delegated, with no live edge before it that may not. -/
def MayDelegate (ns : NamespaceRef) (op : OpClass) (x : String) : Prop :=
  (∃ c ∈ authorityNamespaces store ns, holdsCapability serde store c op x = true) ∨
  ∃ pre p post, (delegationGraph serde store nowMs ns op).into x = pre ++ p :: post ∧
    1 ≤ depthOf serde p ∧ (delegationGraph serde store nowMs ns op).Live 4 p ∧
    ∀ q ∈ pre, depthOf serde q = 0 → ¬ (delegationGraph serde store nowMs ns op).Live 4 q

/-- The walk over `w` succeeds for `b` through an edge other than `e`. -/
def HasOtherDelegation (e : Edge) (op : OpClass) (b : String) (w : NamespaceRef) : Prop :=
  (∃ rootNs, store.namespaceResolve "_root" none = .ok rootNs) ∧
    ∃ f ∈ (delegationGraph serde store nowMs w op).into b, f ≠ e ∧
      (delegationGraph serde store nowMs w op).Live 5 f

section

variable {serde store nowMs} {ns : NamespaceRef} {op : OpClass} {a : String}

theorem live_iff_mayDelegate {e : Edge} : (delegationGraph serde store nowMs ns op).Live 5 e ↔
      MayDelegate serde store nowMs ns op e.source := by
  show (delegationGraph serde store nowMs ns op).root e.source = true ∨ _ ↔ _
  rw [root_iff]
  simp only [MayDelegate, delegationGraph, decide_eq_true_eq, decide_eq_false_iff_not,
    Nat.not_le, Nat.lt_one_iff]

theorem hasLiveDelegation_iff_other (e : Edge) : HasLiveDelegation serde store nowMs ns op a ↔
      HasOtherDelegation serde store nowMs e op a ns ∨
      (∃ rootNs, store.namespaceResolve "_root" none = .ok rootNs) ∧
        e ∈ (delegationGraph serde store nowMs ns op).into a ∧
        MayDelegate serde store nowMs ns op e.source := by
  constructor
  · intro ⟨hroot, f, hf, hlive⟩
    by_cases heq : f = e
    · subst heq
      exact .inr ⟨hroot, hf, live_iff_mayDelegate.mp hlive⟩
    · exact .inl ⟨hroot, f, hf, heq, hlive⟩
  · rintro (⟨hroot, f, hf, -, hlive⟩ | ⟨hroot, he, hmay⟩)
    · exact ⟨hroot, f, hf, hlive⟩
    · exact ⟨hroot, e, he, live_iff_mayDelegate.mpr hmay⟩

theorem ground_or_iff {D E : NamespaceRef → Prop} :
    Ground serde store (fun w => D w ∨ E w) ns op a ↔ Ground serde store D ns op a ∨ E ns ∨
        ∃ rootNs, store.namespaceResolve "_root" none = .ok rootNs ∧ E rootNs := by
  constructor
  · intro h
    cases h with
    | owner info read owns => exact .inl (.owner info read owns)
    | rootCapability rootNs resolved holds => exact .inl (.rootCapability rootNs resolved holds)
    | capability holds => exact .inl (.capability holds)
    | ancestorCapability name rest above parentNs resolved holds =>
      exact .inl (.ancestorCapability name rest above parentNs resolved holds)
    | role e listed isRole holds => exact .inl (.role e listed isRole holds)
    | rootDelegation rootNs resolved delegated =>
      rcases delegated with hD | hE
      · exact .inl (.rootDelegation rootNs resolved hD)
      · exact .inr (.inr ⟨rootNs, resolved, hE⟩)
    | delegation delegated =>
      rcases delegated with hD | hE
      · exact .inl (.delegation hD)
      · exact .inr (.inl hE)
  · rintro (hground | hns | ⟨rootNs, resolved, hroot⟩)
    · exact hground.mono fun _ => .inl
    · exact .delegation (.inr hns)
    · exact .rootDelegation rootNs resolved (.inr hroot)

end

/-! ## Delegations the handler accepts -/

/-- The handler accepted, from the owner `o` of `ns`, a Delegation edge `e` to `b` that lists `op`,
has not expired and covers all namespaces; `s'` is the store after it. -/
structure OwnerDelegation {σ : Type} (impl : StoreImpl σ) (s s' : σ) (ns : NamespaceRef)
    (o b : String) (op : OpClass) (body : Bytes) (e : Edge) : Prop where
  owner : ownerIs (impl.view s) ns o = true
  accepted : put serde impl s ns o body = .ok s'
  parsed : parseEdge serde o body = .ok e
  relation : e.relation = .delegation
  source : e.source = o
  target : e.target = b
  carries : ∃ scope, scopeOf serde e = some scope ∧ scope.namespaces = [] ∧
    (∃ opStr, op.opStr = some opStr ∧ opStr ∈ scope.operations) ∧
    ∀ expires, scope.expiresAtMs = some expires → nowMs ≤ expires

/-- A query of the walk over `w` for the edges into `b` lists the edge. -/
def ListsInto (w : NamespaceRef) (b : String) (e : Edge) : Prop :=
  ∃ c ∈ authorityNamespaces store w, e ∈ store.edgesOf c (.delegationsInto b)

section

variable {serde nowMs} {σ : Type} {impl : StoreImpl σ} {s s' : σ} {ns : NamespaceRef} {o b : String}
  {op : OpClass} {body : Bytes} {e : Edge}

/-- Where the edge is listed, in its normal form, it counts. -/
theorem OwnerDelegation.mem_into (h : OwnerDelegation serde nowMs impl s s' ns o b op body e)
    (prim : Primitives) (w : NamespaceRef) :
    e.canonical prim ∈ (delegationGraph serde (impl.view s') nowMs w op).into b ↔
      ListsInto (impl.view s') w b (e.canonical prim) := by
  obtain ⟨scope, hscope, hall, hops, hexpires⟩ := h.carries
  have hself : e.asserter = e.source := by
    obtain ⟨_, _, -, -, -, -, -, hasserter, -⟩ := parseEdge_eq_ok.mp h.parsed
    rw [hasserter, h.source]
  exact mem_into_iff.trans
    (and_iff_left ⟨scope, hscope, .inl hall, hops, hexpires, congrArg prim.nfc hself⟩)

theorem OwnerDelegation.op_ne_exempt (h : OwnerDelegation serde nowMs impl s s' ns o b op body e) :
    op ≠ .exempt := by
  obtain ⟨_, -, -, ⟨_, hop, -⟩, -⟩ := h.carries
  intro hexempt
  rw [hexempt] at hop
  cases hop

end

/-- **When a delegation by the owner is honoured**, by a store that keeps edges in the normal form
of `prim`. -/
theorem ownerDelegation_honoured_iff (prim : Primitives) {σ : Type} (impl : StoreImpl σ) (s s' : σ)
    (ns : NamespaceRef) (o b : String) (op : OpClass) (body : Bytes) (e : Edge)
    (h : OwnerDelegation serde nowMs impl s s' ns o b op body e) :
    (authorize serde (impl.view s') nowMs (.exists ns) op b).isOk = true ↔
      openToAll (impl.view s') ns = true ∨
      Ground serde (impl.view s')
        (HasOtherDelegation serde (impl.view s') nowMs (e.canonical prim) op b) ns op b ∨
      ∃ rootNs, (impl.view s').namespaceResolve "_root" none = .ok rootNs ∧
        ∃ w ∈ [ns, rootNs], ListsInto (impl.view s') w b (e.canonical prim) ∧
          MayDelegate serde (impl.view s') nowMs w op (prim.nfc o) := by
  have hwalk : ∀ w, checkDelegation serde (impl.view s') nowMs w op b 0 = .ok true ↔ _ := fun w =>
    (checkDelegation_true_iff h.op_ne_exempt).trans (hasLiveDelegation_iff_other (e.canonical prim))
  have hsource : (e.canonical prim).source = prim.nfc o := congrArg prim.nfc h.source
  rw [authorize_isOk_iff h.op_ne_exempt]
  simp only [hwalk, ground_or_iff, h.mem_into, hsource]
  refine or_congr_right (or_congr_right ?_)
  constructor
  · rintro (⟨⟨rootNs, hroot⟩, hby⟩ | ⟨rootNs, hroot, -, hby⟩)
    · exact ⟨rootNs, hroot, ns, by simp, hby⟩
    · exact ⟨rootNs, hroot, rootNs, by simp, hby⟩
  · intro ⟨rootNs, hroot, w, hw, hby⟩
    rcases List.mem_pair.mp hw with rfl | rfl
    · exact .inl ⟨⟨rootNs, hroot⟩, hby⟩
    · exact .inr ⟨w, hroot, ⟨w, hroot⟩, hby⟩

/-- A store with `_root`, and the reserved namespace `nix/app` that `alice` owns. -/
def ownedStore : PersistentStore :=
  .withNamespaces [("_root", "anonymous"), ("nix/app", "alice")]

/-- `alice` holds the capability as well. -/
def capableStore : PersistentStore :=
  ownedStore.edgePut accentPrim "nix/app" (.capability "alice" "nix/app" ["write"])

/-- The request with which `alice` lets somebody write. -/
def letWrite (b : String) : Bytes :=
  Edge.requestBody "alice" b "delegation" (.delegation [] ["write"] 0)

def mayWrite (b : String) : Edge := .delegation "alice" b [] ["write"] 0

def delegatedStore (s : PersistentStore) (b : String) : PersistentStore :=
  s.edgePut accentPrim "nix/app" (mayWrite b)

theorem scopeOf_mayWrite (b : String) : scopeOf .text (mayWrite b) = some ⟨[], ["write"], none, 0⟩ := by
  show scopeOf .text (mayWrite "") = _
  decide +kernel

theorem ownerDelegation_letWrite {s : PersistentStore} {b : String}
    (howner : ownerIs s.toKappaStore appNs "alice" = true)
    (hparse : parseEdge .text "alice" (letWrite b) = .ok (mayWrite b)) :
    OwnerDelegation .text 0 (impl accentPrim) s (delegatedStore s b) appNs "alice" b .write
      (letWrite b) (mayWrite b) where
  owner := howner
  accepted := by
    refine put_eq_ok.mpr ⟨mayWrite b, hparse, rfl,
      (checkDepth_eq_ok rfl (scopeOf_mayWrite b)).mpr ?_, rfl⟩
    show 0 < delegatorDepth .text s.toKappaStore appNs "alice"
    rw [delegatorDepth, if_pos howner]
    decide
  parsed := hparse
  relation := rfl
  source := rfl
  target := rfl
  carries := ⟨_, scopeOf_mayWrite b, rfl, ⟨"write", rfl, by simp⟩, by simp⟩

/-- With the capability, the delegation is honoured, here for a name that is not in normal form. -/
theorem ownerDelegation_honoured_capability :
    let s' := delegatedStore capableStore "e\u0301"
    OwnerDelegation .text 0 (impl accentPrim) capableStore s' appNs "alice" "e\u0301" .write
        (letWrite "e\u0301") (mayWrite "e\u0301") ∧
      (authorize .text s'.toKappaStore 0 (.exists appNs) .write "e\u0301").isOk = true := by
  intro s'
  have h := ownerDelegation_letWrite (s := capableStore) (b := "e\u0301") (by decide +kernel)
    (by decide +kernel)
  refine ⟨h, (ownerDelegation_honoured_iff .text 0 accentPrim _ _ _ _ _ _ _ _ _ h).mpr
    (.inr (.inr ?_))⟩
  exact ⟨.withName 0 "_root", by decide +kernel, appNs, by simp, ⟨appNs, by decide +kernel,
    by decide +kernel⟩, .inl (by decide +kernel)⟩

/-- **The delegate of an owner is refused**: the handler accepts `alice`'s delegation, the store
lists it, and `bob` may not write. With the capability, a name in normal form may not write either if
an earlier delegation spelled it otherwise: the row is still listed under that spelling. -/
theorem ownerDelegation_refused :
    let s := delegatedStore capableStore "e\u0301"
    (OwnerDelegation .text 0 (impl accentPrim) ownedStore (delegatedStore ownedStore "bob") appNs
        "alice" "bob" .write (letWrite "bob") (mayWrite "bob") ∧
      ListsInto (delegatedStore ownedStore "bob").toKappaStore appNs "bob" (mayWrite "bob") ∧
      authorize .text (delegatedStore ownedStore "bob").toKappaStore 0 (.exists appNs) .write "bob" =
        .error (.forbidden "access denied")) ∧
    OwnerDelegation .text 0 (impl accentPrim) s (delegatedStore s "\u00e9") appNs "alice" "\u00e9" .write
        (letWrite "\u00e9") (mayWrite "\u00e9") ∧
      authorize .text (delegatedStore s "\u00e9").toKappaStore 0 (.exists appNs) .write "\u00e9" =
        .error (.forbidden "access denied") := by
  intro s
  refine ⟨⟨ownerDelegation_letWrite (by decide +kernel) (by decide +kernel), ?_, by decide +kernel⟩,
    ownerDelegation_letWrite (by decide +kernel) (by decide +kernel), by decide +kernel⟩
  exact ⟨appNs, by decide +kernel, by decide +kernel⟩

end KappaRegistry
