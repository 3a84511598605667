import KappaRegistry.Auth.Authorize

/-!
# The Owner of a Resolved Namespace

`authorize` and `check_authority_edge` find the owner of a namespace they were handed by looking
its display name up again, as a global alias. The request resolved the name under its protocol,
so the two look-ups can end at different records.

Runs of the four operations that write aliases and records are folds of `namespaceStep`. One
lemma, `namespaceApply_effect`, says what any of them can do to the two tables, and from it every
alias of a reached state has a record. **`ownerIs_record_iff`** then says exactly when the owner
test answers for the resolved namespace: when the name is a global alias too, of a namespace with
the same owner.
-/

namespace KappaRegistry

open Lib

/-- An operation on the namespace tables, with what it draws from outside the store. -/
inductive NamespaceOp where
  | create (uuid : Uuid) (nowMs : ℕ) (name owner : String) (protocol : Option String)
  | addAlias (uuid : Uuid) (newAlias actor : String) (protocol : Option String)
  | rename (oldName newName actor : String) (protocol : Option String)
  | transfer (uuid : Uuid) (newOwner actor : String)

namespace PersistentStore

variable (s : PersistentStore)

/-- The store after an operation, if it succeeds. -/
def namespaceApply : NamespaceOp → Except StoreError PersistentStore
  | .create uuid nowMs name owner protocol =>
    (s.namespaceCreate uuid nowMs name owner protocol).map Prod.snd
  | .addAlias uuid newAlias actor protocol => s.namespaceAddAlias uuid newAlias actor protocol
  | .rename oldName newName actor protocol => s.namespaceRename oldName newName actor protocol
  | .transfer uuid newOwner actor => s.namespaceTransfer uuid newOwner actor

/-- The store after a request; a request that fails leaves it as it was. -/
def namespaceStep (op : NamespaceOp) : PersistentStore :=
  match s.namespaceApply op with
  | .ok s' => s'
  | .error _ => s

def namespaceRun (ops : List NamespaceOp) : PersistentStore :=
  ops.foldl namespaceStep s

/-! ## What an operation can do -/

/-- The change an operation makes: one record is written, and every alias that is new stands for
the namespace of that record. -/
def NamespaceEffect (s' : PersistentStore) : Prop :=
  ∃ uuid record, s'.namespaceRecords = s.namespaceRecords.insert uuid record ∧
    ∀ (key : String) u, s'.namespaceAliases[key]? = some u → u = uuid ∨ s.namespaceAliases[key]? = some u

variable {s s' : PersistentStore} {uuid : Uuid} {protocol : Option String}

theorem namespaceCreate_effect {nowMs : ℕ} {name owner : String} {ns : NamespaceRef}
    (h : s.namespaceCreate uuid nowMs name owner protocol = .ok (ns, s')) :
    NamespaceEffect s s' := by
  unfold namespaceCreate at h
  cases hc : s.aliasCollision name protocol with
  | some message =>
    simp [hc] at h
  | none =>
    rw [hc] at h
    cases h
    refine ⟨uuid, _, rfl, ?_⟩
    intro key u hu
    rcases Table.of_get_insert hu with ⟨-, hnew⟩ | ⟨-, hold⟩
    · exact .inl hnew.symm
    · exact .inr hold

theorem namespaceAddAlias_effect {newAlias actor : String}
    (h : s.namespaceAddAlias uuid newAlias actor protocol = .ok s') : NamespaceEffect s s' := by
  simp only [namespaceAddAlias, bind_eq_ok, pure_eq_ok] at h
  obtain ⟨record, -, -, -, -, -, rfl⟩ := h
  refine ⟨uuid, _, rfl, ?_⟩
  intro key u hu
  rcases Table.of_get_insert hu with ⟨-, hnew⟩ | ⟨-, hold⟩
  · exact .inl hnew.symm
  · exact .inr hold

theorem namespaceRename_effect {oldName newName actor : String}
    (h : s.namespaceRename oldName newName actor protocol = .ok s') : NamespaceEffect s s' := by
  simp only [namespaceRename, bind_eq_ok, pure_eq_ok] at h
  obtain ⟨uuid, -, -, -, record, -, -, -, rfl⟩ := h
  refine ⟨uuid, _, rfl, ?_⟩
  intro key u hu
  rcases Table.of_get_insert hu with ⟨-, hnew⟩ | ⟨-, hold⟩
  · exact .inl hnew.symm
  · exact .inr (Table.of_get_erase hold)

theorem namespaceTransfer_effect {newOwner actor : String}
    (h : s.namespaceTransfer uuid newOwner actor = .ok s') : NamespaceEffect s s' := by
  simp only [namespaceTransfer, bind_eq_ok, pure_eq_ok] at h
  obtain ⟨record, -, -, -, rfl⟩ := h
  exact ⟨uuid, _, rfl, fun key u hu => .inr hu⟩

theorem namespaceApply_effect {op : NamespaceOp}
    (h : s.namespaceApply op = .ok s') : NamespaceEffect s s' := by
  cases op with
  | create uuid nowMs name owner protocol =>
    obtain ⟨⟨ns, t⟩, ht, rfl⟩ := map_eq_ok.mp h
    exact namespaceCreate_effect ht
  | addAlias uuid newAlias actor protocol => exact namespaceAddAlias_effect h
  | rename oldName newName actor protocol => exact namespaceRename_effect h
  | transfer uuid newOwner actor => exact namespaceTransfer_effect h

/-! ## Every alias has a record -/

/-- Every alias stands for a namespace that has a record. -/
def AliasesRecorded (s : PersistentStore) : Prop :=
  ∀ (key : String) uuid, s.namespaceAliases[key]? = some uuid →
    ∃ record, s.namespaceRecords[uuid]? = some record

theorem AliasesRecorded.effect (hs : s.AliasesRecorded)
    (h : NamespaceEffect s s') : s'.AliasesRecorded := by
  obtain ⟨uuid, record, hrecords, haliases⟩ := h
  intro key u hu
  rw [hrecords, Table.get_insert]
  by_cases heq : uuid = u
  · exact ⟨record, if_pos heq⟩
  · rw [if_neg heq]
    rcases haliases key u hu with hnew | hold
    · exact absurd hnew.symm heq
    · exact hs key u hold

theorem AliasesRecorded.step (hs : s.AliasesRecorded) (op : NamespaceOp) :
    (s.namespaceStep op).AliasesRecorded := by
  unfold namespaceStep
  cases h : s.namespaceApply op with
  | ok s' => exact hs.effect (namespaceApply_effect h)
  | error e => exact hs

theorem AliasesRecorded.run (hs : s.AliasesRecorded)
    (ops : List NamespaceOp) : (s.namespaceRun ops).AliasesRecorded :=
  List.foldlRecOn ops namespaceStep hs fun _ ht op _ => ht.step op

theorem AliasesRecorded.empty (h : s.namespaceAliases = ∅) : s.AliasesRecorded := by
  intro key uuid hu
  rw [h] at hu
  simp at hu

end PersistentStore

/-! ## The owner test -/

/-- The record of the namespace names `a` as its owner. -/
def PersistentStore.OwnedBy (s : PersistentStore) (uuid : Uuid) (a : String) : Prop :=
  ∃ record, s.namespaceRecords[uuid]? = some record ∧ record.owner = a

instance (s : PersistentStore) (uuid : Uuid) (a : String) : Decidable (s.OwnedBy uuid a) :=
  decidable_of_iff ((s.namespaceRecords[uuid]?.map NamespaceRecord.owner) = some a) (by
    rw [Option.map_eq_some_iff]
    exact Iff.rfl)

variable {s : PersistentStore}

theorem PersistentStore.OwnedBy.unique {uuid : Uuid} {a b : String}
    (ha : s.OwnedBy uuid a) (hb : s.OwnedBy uuid b) : a = b := by
  obtain ⟨record, hrecord, rfl⟩ := ha
  obtain ⟨record', hrecord', rfl⟩ := hb
  rw [hrecord] at hrecord'
  rw [Option.some.inj hrecord']

open PersistentStore

theorem ownerIs_persistent_iff {ns : NamespaceRef} {a : String} :
    ownerIs s.toKappaStore ns a = true ↔
      ∃ uuid, s.namespaceAliases[ns.asStr]? = some uuid ∧ s.OwnedBy uuid a := by
  rw [ownerIs_iff]
  constructor
  · rintro ⟨info, hinfo, howner⟩
    obtain ⟨uuid, halias, hrecord⟩ := namespaceInfo_eq_ok.mp hinfo
    exact ⟨uuid, halias, info, hrecord, howner⟩
  · rintro ⟨uuid, halias, record, hrecord, howner⟩
    exact ⟨record, namespaceInfo_eq_ok.mpr ⟨uuid, halias, hrecord⟩, howner⟩

/-- **The owner test follows the global alias.** -/
theorem ownerIs_record_iff (s₀ : PersistentStore) (hempty : s₀.namespaceAliases = ∅)
    (ops : List NamespaceOp) (name : String) (protocol : Option String) (r : NamespaceRef)
    (hr : (s₀.namespaceRun ops).namespaceResolve name protocol = .ok r) :
    (∀ a,
      (ownerIs (s₀.namespaceRun ops).toKappaStore r a = true ↔
        (s₀.namespaceRun ops).OwnedBy r.uuid a) ∧
      (isOwner (s₀.namespaceRun ops).toKappaStore (.exists r) a = true ↔
        (s₀.namespaceRun ops).OwnedBy r.uuid a)) ↔
    ∃ global owner, (s₀.namespaceRun ops).namespaceAliases[name]? = some global ∧
      (s₀.namespaceRun ops).OwnedBy global owner ∧ (s₀.namespaceRun ops).OwnedBy r.uuid owner := by
  have hrecorded := (AliasesRecorded.empty hempty).run ops
  generalize s₀.namespaceRun ops = s at hr hrecorded ⊢
  obtain ⟨uuid, halias, rfl⟩ := namespaceResolve_eq_ok.mp hr
  obtain ⟨record, hrecord⟩ := hrecorded _ _ halias
  constructor
  · intro h
    obtain ⟨global, hglobal, howned⟩ :=
      ownerIs_persistent_iff.mp ((h record.owner).1.mpr ⟨record, hrecord, rfl⟩)
    exact ⟨global, record.owner, hglobal, howned, record, hrecord, rfl⟩
  · intro ⟨global, owner, hglobal, hg, hu⟩ a
    have htest : ownerIs s.toKappaStore (.withName uuid name) a = true ↔ s.OwnedBy uuid a := by
      rw [ownerIs_persistent_iff]
      constructor
      · intro ⟨g, hg', hga⟩
        rw [NamespaceRef.asStr_withName, hglobal] at hg'
        cases hg'
        rwa [hg.unique hga] at hu
      · intro hua
        rw [hu.unique hua] at hg
        exact ⟨global, hglobal, hg⟩
    exact ⟨htest, htest⟩

theorem ownerIs_record_iff_global :
    let s := (PersistentStore.new false).namespaceRun [.create 1 0 "app" "alice" none]
    s.namespaceResolve "app" none = .ok (.withName 1 "app") ∧
      ∀ a, ownerIs s.toKappaStore (.withName 1 "app") a = true ↔ s.OwnedBy 1 a := by
  intro s
  have hr : s.namespaceResolve "app" none = .ok (.withName 1 "app") := by decide +kernel
  refine ⟨hr, fun a => ?_⟩
  exact ((ownerIs_record_iff (.new false) rfl _ "app" none _ hr).mpr
    ⟨1, "alice", by decide +kernel, by decide +kernel, by decide +kernel⟩ a).1

/-- A run in which a name has one owner under a protocol and another one globally: alice creates
the OCI repository `app`, and mallory adds `app` as a global alias of a namespace of their own. -/
def squattedRun : List NamespaceOp :=
  [.create 1 0 "app" "alice" (some "oci"), .create 2 0 "mine" "mallory" none,
    .addAlias 2 "app" "mallory" none]

/-- **The owner test takes mallory for the owner of alice's repository**, and refuses alice. -/
theorem ownerIs_follows_squatter :
    let s := (PersistentStore.new false).namespaceRun squattedRun
    let r := NamespaceRef.withName 1 "app"
    s.namespaceResolve "app" (some "oci") = .ok r ∧ s.OwnedBy r.uuid "alice" ∧
      ¬ s.OwnedBy r.uuid "mallory" ∧
      ownerIs s.toKappaStore r "alice" = false ∧ isOwner s.toKappaStore (.exists r) "alice" = false ∧
      ownerIs s.toKappaStore r "mallory" = true ∧
      isOwner s.toKappaStore (.exists r) "mallory" = true := by
  decide +kernel

end KappaRegistry
