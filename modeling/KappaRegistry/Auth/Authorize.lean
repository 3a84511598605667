import KappaRegistry.Auth.Delegation
import KappaRegistry.Auth.Listing

/-!
# What `authorize` Lets Through

The rules of `authorize` as grounds a caller may have (`Ground`): ownership, a capability in
`_root`, in the namespace or above it, a role, or delegation. `authorize_isOk_iff`: it accepts a caller
iff the caller has a ground or the namespace is open to all.

For a reserved namespace only grounds count. `authorize_reserved_sound` spells out the edges behind
them, from what `edge_query` lists: relations and asserters are exact, and ends match up to
normal form (`authorize_respelled` is a caller to whom no edge is made out exactly). For the other namespaces the rule meant to open unclaimed ones asks
for Capability edges whose source is the empty text. `authorize_claimed_iff` says what is left of
the protection of a claimed namespace.
-/

namespace KappaRegistry

open Lib PersistentStore EdgeStore

variable (serde : SerdeJson) (store : KappaStore) (nowMs : ℕ)

/-! ## Grounds -/

/-- `anchor` holds a self-asserted Capability edge in `ns` that permits `op`. -/
def HoldsCapability (ns : NamespaceRef) (op : OpClass) (anchor : String) : Prop :=
  ∃ e ∈ store.edgesOf ns (.selfCapability anchor), capPermits serde e op = true

/-- The grounds on which `a` may perform `op` in `ns`. `Delegated w` is what it takes to have
authority over `w` by delegation. -/
inductive Ground (Delegated : NamespaceRef → Prop) (ns : NamespaceRef) (op : OpClass) (a : String) :
    Prop where
  | owner (info : NamespaceRecord) (read : store.namespaceInfo ns.asStr none = .ok info)
      (owns : info.owner = a)
  | rootCapability (rootNs : NamespaceRef)
      (resolved : store.namespaceResolve "_root" none = .ok rootNs)
      (holds : HoldsCapability serde store rootNs op a)
  | capability (holds : HoldsCapability serde store ns op a)
  | ancestorCapability (name rest : String) (above : ns.asStr = name ++ "/" ++ rest)
      (parentNs : NamespaceRef) (resolved : store.namespaceResolve name none = .ok parentNs)
      (holds : HoldsCapability serde store parentNs op a)
  | role (e : Edge) (listed : e ∈ store.edgesOf ns (.capabilitiesOf a))
      (isRole : isHoldsRole serde e = true) (holds : HoldsCapability serde store ns op e.target)
  | rootDelegation (rootNs : NamespaceRef)
      (resolved : store.namespaceResolve "_root" none = .ok rootNs) (delegated : Delegated rootNs)
  | delegation (delegated : Delegated ns)

section

variable {serde store nowMs} {ns : NamespaceRef} {op : OpClass} {a : String}

theorem holdsCapability_iff :
    holdsCapability serde store ns op a = true ↔ HoldsCapability serde store ns op a := by
  unfold holdsCapability HoldsCapability KappaStore.edgesOf
  cases store.edgeQuery ns (.selfCapability a) with
  | ok edges | error e => simp

theorem ownerIs_iff : ownerIs store ns a = true ↔
    ∃ info, store.namespaceInfo ns.asStr none = .ok info ∧ info.owner = a := by
  unfold ownerIs
  cases store.namespaceInfo ns.asStr none with
  | ok info | error e => simp

theorem ancestorPermits_iff : ancestorPermits serde store ns op a = true ↔
    ∃ name rest parentNs, ns.asStr = name ++ "/" ++ rest ∧
      store.namespaceResolve name none = .ok parentNs ∧
      HoldsCapability serde store parentNs op a := by
  unfold ancestorPermits
  rw [List.any_eq_true]
  constructor
  · intro ⟨name, hmem, hpermits⟩
    obtain ⟨rest, habove⟩ := mem_ancestors_iff.mp hmem
    cases hres : store.namespaceResolve name none with
    | error e => simp [hres] at hpermits
    | ok parentNs =>
      rw [hres] at hpermits
      exact ⟨name, rest, parentNs, habove, hres, holdsCapability_iff.mp hpermits⟩
  · intro ⟨name, rest, parentNs, habove, hres, hholds⟩
    refine ⟨name, mem_ancestors_iff.mpr ⟨rest, habove⟩, ?_⟩
    simp only [hres]
    exact holdsCapability_iff.mpr hholds

theorem rolePermits_iff : rolePermits serde store ns op a = true ↔
    ∃ e ∈ store.edgesOf ns (.capabilitiesOf a), isHoldsRole serde e = true ∧
      HoldsCapability serde store ns op e.target := by
  unfold rolePermits KappaStore.edgesOf
  cases store.edgeQuery ns (.capabilitiesOf a) with
  | error e => simp
  | ok edges => simp [holdsCapability_iff]

variable (serde store nowMs op a) in
/-- The first rule never fails: the walk on `_root` fails only if `_root` does not exist. -/
theorem rootAuthority_eq_ok : ∃ b, rootAuthority serde store nowMs op a = .ok b := by
  unfold rootAuthority
  cases hroot : store.namespaceResolve "_root" none with
  | error e => exact ⟨_, rfl⟩
  | ok rootNs =>
    by_cases hcap : holdsCapability serde store rootNs op a = true
    · exact ⟨true, by simp [hcap]⟩
    · simp only [hcap, Bool.false_eq_true, if_false]
      by_cases hop : op = .exempt
      · subst hop
        exact ⟨_, rfl⟩
      · exact ⟨_, by rw [checkDelegation_eq hop, hroot]⟩

theorem rootAuthority_true_iff : rootAuthority serde store nowMs op a = .ok true ↔
    ∃ rootNs, store.namespaceResolve "_root" none = .ok rootNs ∧
      (HoldsCapability serde store rootNs op a ∨
        checkDelegation serde store nowMs rootNs op a 0 = .ok true) := by
  unfold rootAuthority
  cases store.namespaceResolve "_root" none with
  | error e => simp
  | ok rootNs =>
    simp only [← holdsCapability_iff]
    cases hcap : holdsCapability serde store rootNs op a <;> simp [hcap]

theorem ground_iff :
    Ground serde store (fun w => checkDelegation serde store nowMs w op a 0 = .ok true) ns op a ↔
      rootAuthority serde store nowMs op a = .ok true ∨ ownerIs store ns a = true ∨
      holdsCapability serde store ns op a = true ∨ ancestorPermits serde store ns op a = true ∨
      rolePermits serde store ns op a = true ∨
      checkDelegation serde store nowMs ns op a 0 = .ok true := by
  rw [rootAuthority_true_iff, ownerIs_iff, holdsCapability_iff, ancestorPermits_iff,
    rolePermits_iff]
  constructor
  · intro h
    cases h with
    | owner info read owns => exact .inr (.inl ⟨info, read, owns⟩)
    | rootCapability rootNs resolved holds => exact .inl ⟨rootNs, resolved, .inl holds⟩
    | capability holds => exact .inr (.inr (.inl holds))
    | ancestorCapability name rest above parentNs resolved holds =>
      exact .inr (.inr (.inr (.inl ⟨name, rest, parentNs, above, resolved, holds⟩)))
    | role e listed isRole holds =>
      exact .inr (.inr (.inr (.inr (.inl ⟨e, listed, isRole, holds⟩))))
    | rootDelegation rootNs resolved delegated => exact .inl ⟨rootNs, resolved, .inr delegated⟩
    | delegation delegated => exact .inr (.inr (.inr (.inr (.inr delegated))))
  · rintro (⟨rootNs, resolved, holds | delegated⟩ | ⟨info, read, owns⟩ | holds |
      ⟨name, rest, parentNs, above, resolved, holds⟩ | ⟨e, listed, isRole, holds⟩ | delegated)
    · exact .rootCapability rootNs resolved holds
    · exact .rootDelegation rootNs resolved delegated
    · exact .owner info read owns
    · exact .capability holds
    · exact .ancestorCapability name rest above parentNs resolved holds
    · exact .role e listed isRole holds
    · exact .delegation delegated

theorem authorizeExisting_isOk_iff : (authorizeExisting serde store nowMs ns op a).isOk = true ↔
      ownerIs store ns a = true ∨ openToAll store ns = true ∨
      holdsCapability serde store ns op a = true ∨ ancestorPermits serde store ns op a = true ∨
      rolePermits serde store ns op a = true ∨
      checkDelegation serde store nowMs ns op a 0 = .ok true := by
  unfold authorizeExisting
  split_ifs with h₁ h₂ h₃ h₄ h₅
  · simp [h₁]
  · simp [h₂]
  · simp [h₃]
  · simp [h₄]
  · simp [h₅]
  · rcases hwalk : checkDelegation serde store nowMs ns op a 0 with e | b
    · simp [h₁, h₂, h₃, h₄, h₅]
    · cases b <;> simp [h₁, h₂, h₃, h₄, h₅]

/-- **What `authorize` accepts** in an existing namespace: callers with a ground, and everyone if
the namespace is open to all. -/
theorem authorize_isOk_iff (hop : op ≠ .exempt) :
    (authorize serde store nowMs (.exists ns) op a).isOk = true ↔ openToAll store ns = true ∨
      Ground serde store (fun w => checkDelegation serde store nowMs w op a 0 = .ok true)
        ns op a := by
  rw [ground_iff]
  obtain ⟨b, hb⟩ := rootAuthority_eq_ok serde store nowMs op a
  unfold authorize
  rw [if_neg hop, hb]
  cases b with
  | true => simp 
  | false =>
    dsimp only
    rw [authorizeExisting_isOk_iff]
    simp only [Except.ok.injEq, Bool.false_eq_true, false_or]
    exact or_left_comm

theorem Ground.mono {D D' : NamespaceRef → Prop} (himp : ∀ w, D w → D' w)
    (h : Ground serde store D ns op a) : Ground serde store D' ns op a := by
  cases h with
  | owner info read owns => exact .owner info read owns
  | rootCapability rootNs resolved holds => exact .rootCapability rootNs resolved holds
  | capability holds => exact .capability holds
  | ancestorCapability name rest above parentNs resolved holds =>
    exact .ancestorCapability name rest above parentNs resolved holds
  | role e listed isRole holds => exact .role e listed isRole holds
  | rootDelegation rootNs resolved delegated =>
    exact .rootDelegation rootNs resolved (himp rootNs delegated)
  | delegation delegated => exact .delegation (himp ns delegated)

end

/-! ## Reserved namespaces -/

section

variable (norm : String → String) (op : OpClass)

/-- `x` asserts a Capability edge about itself in `ns` that permits `op`. -/
def SelfCapability (ns : NamespaceRef) (x : String) : Prop :=
  ∃ e ∈ store.edgesOf ns (.selfCapability x), e.relation = .capability ∧ e.asserter = x ∧
    norm e.source = norm x ∧ capPermits serde e op = true

/-- Delegation edges that lead to `x`: the first is made out to `x`, and each of the others to the
source of the one before it. -/
def Chained : String → List Edge → Prop
  | _, [] => True
  | x, e :: es => e.relation = .delegation ∧ norm e.target = norm x ∧ Chained e.source es

/-- What lets `a` perform `op` in a reserved namespace, edge by edge. Texts that `norm` makes
equal count as one. -/
inductive ReservedGround (ns : NamespaceRef) (a : String) : Prop where
  | owner (info : NamespaceRecord) (read : store.namespaceInfo ns.asStr none = .ok info)
      (owns : info.owner = a)
  | capability (c : NamespaceRef)
      (holder : c = ns ∨ store.namespaceResolve "_root" none = .ok c ∨
        ∃ name rest, ns.asStr = name ++ "/" ++ rest ∧ store.namespaceResolve name none = .ok c)
      (holds : SelfCapability serde store norm op c a)
  | role (e : Edge) (listed : e ∈ store.edgesOf ns (.capabilitiesOf a))
      (relation : e.relation = .capability) (source : norm e.source = norm a)
      (isRole : isHoldsRole serde e = true) (holds : SelfCapability serde store norm op ns e.target)
  | delegation (w : NamespaceRef) (walked : w = ns ∨ store.namespaceResolve "_root" none = .ok w)
      (path : List Edge) (isPath : DelegationPath serde store nowMs w op a path)
      (chained : Chained norm a path)
      (rooted : ∃ e, path.getLast? = some e ∧
        ∃ c ∈ authorityNamespaces store w, SelfCapability serde store norm op c e.source)

end

section

variable {serde store nowMs} {norm : String → String} {texts : Set String} {ns : NamespaceRef}
  {op : OpClass} {x : String} (hlists : store.Lists norm texts)
include hlists

theorem selfCapability_of_holds (hns : NulFree ns.asStr) (hx : x ∈ texts)
    (h : HoldsCapability serde store ns op x) : SelfCapability serde store norm op ns x := by
  obtain ⟨e, he, hpermits⟩ := h
  have hadmits := hlists.admits _ _ e he
  simp only [EdgeQuery.admits, EdgeQuery.selfCapability, Option.all_some, Bool.and_eq_true,
    beq_iff_eq] at hadmits
  exact ⟨e, he, hadmits.1, hadmits.2, (hlists.ends _ _ e hns hx he).1, hpermits⟩

/-- A linked path leads to its end, and its sources are texts in use. -/
theorem chained_of_linked {nss : List NamespaceRef} {path : List Edge}
    (hnss : ∀ c ∈ nss, NulFree c.asStr) (hx : x ∈ texts) (h : Linked store nss x path) :
    Chained norm x path ∧ ∀ e ∈ path, e.source ∈ texts := by
  induction path generalizing x with
  | nil => exact ⟨trivial, nofun⟩
  | cons e es ih =>
    obtain ⟨⟨c, hc, he⟩, htail⟩ := h
    have hadmits := hlists.admits _ _ e he
    simp only [EdgeQuery.admits, EdgeQuery.delegationsInto, Option.all_some, Option.all_none,
      Bool.and_true, beq_iff_eq] at hadmits
    obtain ⟨hend, htexts⟩ := hlists.ends _ _ e (hnss c hc) hx he
    obtain ⟨hchained, hsources⟩ := ih (htexts .outbound) htail
    exact ⟨⟨hadmits, hend, hchained⟩, List.forall_mem_cons.mpr ⟨htexts .outbound, hsources⟩⟩

theorem nulFree_authorityNamespaces (hns : NulFree ns.asStr) :
    ∀ c ∈ authorityNamespaces store ns, NulFree c.asStr := by
  intro c hc
  unfold authorityNamespaces at hc
  cases hroot : store.namespaceResolve "_root" none with
  | error e =>
    rw [hroot] at hc
    exact List.mem_singleton.mp hc ▸ hns
  | ok rootNs =>
    have hname := hlists.resolved _ _ hroot
    rw [hroot] at hc
    rcases List.mem_pair.mp hc with rfl | rfl
    · exact hns
    · rw [hname]
      decide

theorem reservedGround_of_path {w : NamespaceRef} {path : List Edge}
    (walked : w = ns ∨ store.namespaceResolve "_root" none = .ok w) (hw : NulFree w.asStr)
    (hx : x ∈ texts) (hpath : DelegationPath serde store nowMs w op x path) :
    ReservedGround serde store nowMs norm op ns x := by
  have hnss := nulFree_authorityNamespaces hlists hw
  obtain ⟨hchained, hsources⟩ := chained_of_linked hlists hnss hx hpath.linked
  refine .delegation w walked path hpath hchained ?_
  obtain ⟨e, hlast, c, hc, hholds⟩ := hpath.rooted
  refine ⟨e, hlast, c, hc, selfCapability_of_holds hlists (hnss c hc) ?_ (holdsCapability_iff.mp hholds)⟩
  exact hsources e (List.mem_of_getLast? hlast)

end

/-- **Reserved namespaces are closed**, in every store that lists what it is asked for. -/
theorem authorize_reserved_sound {norm : String → String} {texts : Set String}
    (hlists : store.Lists norm texts) (ns : NamespaceRef) (op : OpClass) (a : String)
    (hns : NulFree ns.asStr) (ha : a ∈ texts)
    (hreserved : isReserved ns.asStr = true) (hop : op ≠ .exempt)
    (hok : (authorize serde store nowMs (.exists ns) op a).isOk = true) :
    ReservedGround serde store nowMs norm op ns a := by
  have hclosed : openToAll store ns = false := by simp [openToAll, hreserved]
  have hrootName : ∀ c, store.namespaceResolve "_root" none = .ok c → NulFree c.asStr := by
    intro c hc
    rw [hlists.resolved _ _ hc]
    decide
  rcases (authorize_isOk_iff hop).mp hok with hopen | hground
  · simp [hclosed] at hopen
  cases hground with
  | owner info read owns => exact .owner info read owns
  | rootCapability c resolved holds =>
    exact .capability c (.inr (.inl resolved))
      (selfCapability_of_holds hlists (hrootName c resolved) ha holds)
  | capability holds => exact .capability ns (.inl rfl) (selfCapability_of_holds hlists hns ha holds)
  | ancestorCapability name rest above c resolved holds =>
    have hname : NulFree c.asStr := by
      rw [hlists.resolved _ _ resolved]
      simp only [above, NulFree, String.toList_append, List.mem_append, not_or] at hns ⊢
      exact hns.1.1
    exact .capability c (.inr (.inr ⟨name, rest, above, resolved⟩))
      (selfCapability_of_holds hlists hname ha holds)
  | role e listed isRole holds =>
    obtain ⟨hend, htexts⟩ := hlists.ends _ _ e hns ha listed
    have hadmits := hlists.admits _ _ e listed
    simp only [EdgeQuery.admits, EdgeQuery.capabilitiesOf, Option.all_some, Option.all_none,
      Bool.and_true, beq_iff_eq] at hadmits
    exact .role e listed hadmits hend isRole (selfCapability_of_holds hlists hns (htexts .inbound) holds)
  | rootDelegation w resolved delegated =>
    obtain ⟨path, hpath⟩ := checkDelegation_sound hop delegated
    exact reservedGround_of_path hlists (.inr resolved) (hrootName w resolved) ha hpath
  | delegation delegated =>
    obtain ⟨path, hpath⟩ := checkDelegation_sound hop delegated
    exact reservedGround_of_path hlists (.inl rfl) hns ha hpath

def accentPrim : Primitives := { Primitives.sample with nfc := composeAccent }

/-- `alice` holds the capability in `nix/app` and delegates to a name spelled with a combining
accent. -/
def accentEdges : List Edge :=
  [.capability "alice" "nix/app" ["write"], .delegation "alice" "e\u0301" [] ["write"] 0]

def accentStore : KappaStore :=
  ((accentEdges.map fun e => EdgeWrite.one (.put "nix/app" e)).foldl (edgeWrite accentPrim)
    (.withNamespaces [("_root", "anonymous"), ("nix/app", "alice")])).toKappaStore

/-- The theorem at the caller with that name. -/
theorem authorize_reserved_sound_accent :
    ReservedGround .text accentStore 0 composeAccent .write appNs "e\u0301" := by
  have hnfc : ∀ t, composeAccent (composeAccent t) = composeAccent t := by
    intro t
    unfold composeAccent
    split_ifs <;> simp_all
  have hlabels : EdgesApart accentPrim {e | e ∈ accentEdges} := by
    show ∀ f ∈ accentEdges, ∀ g ∈ accentEdges, _
    decide +kernel
  have hlists : accentStore.Lists composeAccent Set.univ := by
    refine persistent_lists hnfc ⟨rfl, rfl, rfl⟩ hlabels _ ?_
    simp only [List.forall_mem_map]
    exact fun e he => ⟨by decide, he⟩
  exact authorize_reserved_sound .text accentStore 0 hlists appNs .write
    "e\u0301" (by decide) trivial (by decide) (by decide) (by decide +kernel)

/-- The edge that lets this caller in is made out to the normal form of its name, and there is no
ground in which all texts match exactly. -/
theorem authorize_respelled :
    (authorize .text accentStore 0 (.exists appNs) .write "e\u0301").isOk = true ∧
      ¬ ReservedGround .text accentStore 0 id .write appNs "e\u0301" := by
  have heval : (authorize .text accentStore 0 (.exists appNs) .write "e\u0301").isOk = true ∧
      ¬ (ownerIs accentStore appNs "e\u0301" = true ∨
        holdsCapability .text accentStore appNs .write "e\u0301" = true ∨
        rootAuthority .text accentStore 0 .write "e\u0301" = .ok true ∨
        ancestorPermits .text accentStore appNs .write "e\u0301" = true ∨
        rolePermits .text accentStore appNs .write "e\u0301" = true) ∧
      ∀ c ∈ authorityNamespaces accentStore appNs,
        ∀ w ∈ authorityNamespaces accentStore c,
        ∀ e ∈ accentStore.edgesOf w (.delegationsInto "e\u0301"),
          e.target ≠ "e\u0301" := by
    decide +kernel
  obtain ⟨hok, hgrounds, htargets⟩ := heval
  refine ⟨hok, ?_⟩
  intro hground
  rw [ownerIs_iff, holdsCapability_iff, rootAuthority_true_iff, ancestorPermits_iff,
    rolePermits_iff] at hgrounds
  have hholds : ∀ {c x}, SelfCapability .text accentStore id .write c x →
      HoldsCapability .text accentStore c .write x :=
    fun ⟨e, he, _, _, _, hpermits⟩ => ⟨e, he, hpermits⟩
  cases hground with
  | owner info read owns => exact hgrounds (.inl ⟨info, read, owns⟩)
  | capability c holder holds =>
    rcases holder with rfl | hroot | ⟨name, rest, above, resolved⟩
    · exact hgrounds (.inr (.inl (hholds holds)))
    · exact hgrounds (.inr (.inr (.inl ⟨c, hroot, .inl (hholds holds)⟩)))
    · exact hgrounds (.inr (.inr (.inr (.inl ⟨name, rest, c, above, resolved, hholds holds⟩))))
  | role e listed _ _ isRole holds =>
    exact hgrounds (.inr (.inr (.inr (.inr ⟨e, listed, isRole, hholds holds⟩))))
  | delegation w walked path isPath chained _ =>
    cases path with
    | nil => exact isPath.nonempty rfl
    | cons e es =>
      obtain ⟨c, hc, he⟩ := isPath.linked.1
      refine htargets w ?_ c hc e he chained.2.1
      rcases walked with rfl | hroot
      · unfold authorityNamespaces
        split <;> simp
      · simp [authorityNamespaces, hroot]

/-! ## Claimed namespaces -/

theorem openToAll_eq_false_iff {ns : NamespaceRef} (hopen : isReserved ns.asStr = false) :
    openToAll store ns = false ↔ store.edgesOf ns (.capabilitiesOf "") ≠ [] := by
  unfold openToAll KappaStore.edgesOf
  cases store.edgeQuery ns (.capabilitiesOf "") with
  | ok caps | error e => simp [hopen]

/-- **What protects a claimed namespace.** -/
theorem authorize_claimed_iff (ns : NamespaceRef) (op : OpClass) (a : String)
    (hopen : isReserved ns.asStr = false) (hop : op ≠ .exempt) :
    ((authorize serde store nowMs (.exists ns) op a).isOk = true →
      Ground serde store (fun w => checkDelegation serde store nowMs w op a 0 = .ok true)
        ns op a) ↔
    (store.edgesOf ns (.capabilitiesOf "") ≠ [] ∨
      Ground serde store (fun w => checkDelegation serde store nowMs w op a 0 = .ok true)
        ns op a) := by
  rw [authorize_isOk_iff hop, ← openToAll_eq_false_iff store hopen]
  cases openToAll store ns <;> simp

/-- A namespace that is not reserved, claimed by `alice`. -/
def teamNs : NamespaceRef := .withName 1 "team/app"

/-- `alice` owns the namespace and holds a capability in it. -/
def claimedStore : KappaStore :=
  ((InMemoryStore.withNamespaces [("_root", "anonymous"), ("team/app", "alice")]).putEdges teamNs
    [.capability "alice" "team/app" ["read", "write", "admin"]]).toKappaStore .sample

/-- The theorem at a claimed namespace and its owner. -/
theorem authorize_claimed_iff_alice :
    let ground := Ground .text claimedStore
      (fun w => checkDelegation .text claimedStore 0 w .write "alice" 0 = .ok true) teamNs .write "alice"
    ((authorize .text claimedStore 0 (.exists teamNs) .write "alice").isOk = true → ground) ↔
      (claimedStore.edgesOf teamNs (.capabilitiesOf "") ≠ [] ∨ ground) :=
  authorize_claimed_iff .text claimedStore 0 teamNs .write "alice" (by decide) (by decide)

/-- `mallory`, a stranger to the claimed namespace, is accepted for every operation in it. -/
theorem authorize_accepts_stranger :
    claimedStore.edgesOf teamNs (.capabilitiesOf "alice") ≠ [] ∧
      ∀ op ∈ [OpClass.read, .write, .admin],
        authorize .text claimedStore 0 (.exists teamNs) op "mallory" = .ok .allowed ∧
        ¬ Ground .text claimedStore
          (fun w => checkDelegation .text claimedStore 0 w op "mallory" 0 = .ok true)
          teamNs op "mallory" := by
  simp only [ground_iff]
  decide +kernel

end KappaRegistry
