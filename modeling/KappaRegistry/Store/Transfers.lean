import KappaRegistry.Store.Persistent

/-!
# Transfers That Run Side by Side

`namespace_transfer_impl` checks the actor in a read transaction and writes the new owner in a write
transaction, which reads the record once more but does not check it again. Other transfers, and writes
of successions, may come in between: a run is a sequence of checks, writes and successions
(`TransferSystem`).

**`transfers_authorised`**: every change of an owner is made for that owner or for its last successor,
if a call writes only while the owner, and whom the owner's successions lead to, are what the call saw.
`transfer_by_former_owner` is a run of two calls of one owner.
-/

namespace KappaRegistry

open Lib Function

namespace PersistentStore

/-- The arguments of a call of `namespace_transfer`. -/
structure TransferCall where
  uuid : Uuid
  newOwner : String
  actor : String

variable (s : PersistentStore) (call : TransferCall)

/-- The read transaction of `namespace_transfer`, which returns the owner. -/
def transferCheck : Except StoreError String := do
  let record ← s.recordLookup call.uuid
  s.mayTransfer record.owner call.actor
  return record.owner

/-- The write transaction of `namespace_transfer`. -/
def transferWrite : Except StoreError PersistentStore := do
  let record ← s.recordLookup call.uuid
  return { s with
    namespaceRecords := s.namespaceRecords.insert call.uuid { record with owner := call.newOwner } }

theorem namespaceTransfer_eq : s.namespaceTransfer call.uuid call.newOwner call.actor =
      (s.transferCheck call >>= fun _ => s.transferWrite call) := by
  unfold namespaceTransfer transferCheck transferWrite
  cases s.recordLookup call.uuid with
  | error e => rfl
  | ok record =>
    show (s.mayTransfer record.owner call.actor >>= _) = ((s.mayTransfer record.owner call.actor >>= _) >>= _)
    cases s.mayTransfer record.owner call.actor with
    | error e | ok u => rfl

/-- The write transaction of `identity_succession_put`. -/
def successionWrite (oldAnchor newAnchor : String) : PersistentStore :=
  { s with identitySuccessions := s.identitySuccessions.insert oldAnchor newAnchor }

def ownerOf (uuid : Uuid) : Option String :=
  (s.namespaceRecords[uuid]?).map NamespaceRecord.owner

/-- The actor is the owner, or the owner's last successor. -/
def Authorised (owner actor : String) : Prop :=
  owner = actor ∨ successionResolve s.identitySuccessions owner = .ok actor

instance (s : PersistentStore) (owner actor : String) : Decidable (s.Authorised owner actor) :=
  decidable_of_iff
    (owner = actor ∨ (successionResolve s.identitySuccessions owner).toOption = some actor)
    (or_congr Iff.rfl toOption_eq_some)

variable {s : PersistentStore}

theorem mayTransfer_eq_ok {owner actor : String} :
    s.mayTransfer owner actor = .ok () ↔ s.Authorised owner actor := by
  unfold mayTransfer Authorised
  split_ifs with hsame
  · exact ⟨fun _ => .inl hsame, fun _ => rfl⟩
  · rw [bind_eq_ok]
    constructor
    · rintro ⟨resolved, hresolved, hactor⟩
      rw [ensure_eq_ok.mp hactor] at hresolved
      exact .inr hresolved
    · rintro (heq | hresolved)
      · exact absurd heq hsame
      · exact ⟨actor, hresolved, ensure_eq_ok.mpr rfl⟩

variable {call : TransferCall}

theorem transferCheck_eq_ok {owner : String} (h : s.transferCheck call = .ok owner) :
    s.ownerOf call.uuid = some owner ∧ s.Authorised owner call.actor := by
  obtain ⟨record, hrecord, hrest⟩ := bind_eq_ok.mp h
  obtain ⟨_, hmay, heq⟩ := bind_eq_ok.mp hrest
  cases heq
  refine ⟨?_, mayTransfer_eq_ok.mp hmay⟩
  rw [ownerOf, recordLookup_eq_ok.mp hrecord]
  rfl

theorem ownerOf_transferWrite {s' : PersistentStore} (h : s.transferWrite call = .ok s') (uuid : Uuid) :
    s'.ownerOf uuid = if call.uuid = uuid then some call.newOwner else s.ownerOf uuid := by
  obtain ⟨record, -, heq⟩ := bind_eq_ok.mp h
  cases heq
  show ((s.namespaceRecords.insert call.uuid _)[uuid]?).map NamespaceRecord.owner = _
  rw [Table.get_insert]
  by_cases hsame : call.uuid = uuid
  · rw [if_pos hsame, if_pos hsame]
    rfl
  · rw [if_neg hsame, if_neg hsame]
    rfl

end PersistentStore

open PersistentStore

/-! ## Runs -/

/-- The store, and what each call saw that has checked and not yet written. -/
structure TransferSystem where
  store : PersistentStore
  seen : ℕ → Option PersistentStore

inductive TransferAction where
  | check (i : ℕ)
  | write (i : ℕ)
  | succession (oldAnchor newAnchor : String)

namespace TransferSystem

def start (store : PersistentStore) : TransferSystem := ⟨store, fun _ => none⟩

section

variable (calls : ℕ → TransferCall)

/-- A call's read transaction; a call that is refused ends there. -/
def check (sys : TransferSystem) (i : ℕ) : TransferSystem :=
  if (sys.store.transferCheck (calls i)).isOk then
    { sys with seen := Function.update sys.seen i (some sys.store) }
  else sys

variable (sys : TransferSystem)

/-- A call's write transaction, if it has passed its check. -/
def write (i : ℕ) : TransferSystem :=
  if (sys.seen i).isSome then
    ⟨(sys.store.transferWrite (calls i)).toOption.getD sys.store, Function.update sys.seen i none⟩
  else sys

def step : TransferAction → TransferSystem
  | .check i => sys.check calls i
  | .write i => sys.write calls i
  | .succession oldAnchor newAnchor => { sys with store := sys.store.successionWrite oldAnchor newAnchor }

def run (actions : List TransferAction) : TransferSystem :=
  actions.foldl (step calls) sys

/-- The condition: when a call writes, the owner is the one it saw, and the owner's successions lead
where they led. -/
def Orderly : TransferAction → Prop
  | .write i => ∀ seen, sys.seen i = some seen →
      sys.store.ownerOf (calls i).uuid = seen.ownerOf (calls i).uuid ∧
      ∀ owner, seen.ownerOf (calls i).uuid = some owner →
        successionResolve sys.store.identitySuccessions owner =
          successionResolve seen.identitySuccessions owner
  | _ => True

/-- Every action meets the condition in the state it finds. -/
def OrderlyRun (sys : TransferSystem) : List TransferAction → Prop
  | [] => True
  | a :: actions => sys.Orderly calls a ∧ OrderlyRun (sys.step calls a) actions

/-- What a call saw authorised it. -/
def Checked : Prop :=
  ∀ i seen, sys.seen i = some seen →
    ∃ owner, seen.ownerOf (calls i).uuid = some owner ∧ seen.Authorised owner (calls i).actor

end

variable {calls : ℕ → TransferCall} {sys : TransferSystem}

theorem Checked.step (h : sys.Checked calls) (a : TransferAction) : (sys.step calls a).Checked calls := by
  cases a with
  | check i =>
    show (sys.check calls i).Checked calls
    unfold check
    cases hcheck : sys.store.transferCheck (calls i) with
    | error e => exact h
    | ok owner =>
      intro j seen hseen
      have hseen : update sys.seen i (some sys.store) j = some seen := hseen
      by_cases hij : j = i
      · subst hij
        rw [update_self] at hseen
        cases hseen
        exact ⟨owner, transferCheck_eq_ok hcheck⟩
      · rw [update_of_ne hij] at hseen
        exact h j seen hseen
  | write i =>
    show (sys.write calls i).Checked calls
    unfold write
    split_ifs
    · intro j seen hseen
      have hseen : update sys.seen i none j = some seen := hseen
      by_cases hij : j = i
      · simp [hij, update_self] at hseen
      · rw [update_of_ne hij] at hseen
        exact h j seen hseen
    · exact h
  | succession oldAnchor newAnchor => exact h

theorem Checked.run (h : sys.Checked calls) (actions : List TransferAction) :
    (sys.run calls actions).Checked calls := by
  induction actions generalizing sys with
  | nil => exact h
  | cons a actions ih => exact ih (h.step a)

theorem checked_start (store : PersistentStore) : (start store).Checked calls := nofun

variable {a : TransferAction}

theorem of_ownerOf_step {uuid : Uuid} {o p : String}
    (ho : sys.store.ownerOf uuid = some o) (hp : (sys.step calls a).store.ownerOf uuid = some p)
    (hne : o ≠ p) : ∃ i seen, a = .write i ∧ sys.seen i = some seen ∧ (calls i).uuid = uuid ∧
      (calls i).newOwner = p := by
  have hsame : ∀ store : PersistentStore, store.ownerOf uuid = sys.store.ownerOf uuid →
      store.ownerOf uuid ≠ some p := by
    intro store hstore heq
    rw [hstore, ho] at heq
    exact hne (Option.some.inj heq)
  cases a with
  | check i =>
    refine absurd hp (hsame _ ?_)
    show (sys.check calls i).store.ownerOf uuid = _
    unfold check
    split <;> rfl
  | succession oldAnchor newAnchor => exact absurd hp (hsame _ rfl)
  | write i =>
    have hp : (sys.write calls i).store.ownerOf uuid = some p := hp
    unfold write at hp
    cases hseen : sys.seen i with
    | none =>
      rw [hseen] at hp
      exact absurd hp (hsame _ rfl)
    | some seen =>
      rw [hseen, Option.isSome_some, if_pos rfl] at hp
      cases hwrite : sys.store.transferWrite (calls i) with
      | error e =>
        rw [hwrite] at hp
        exact absurd hp (hsame _ rfl)
      | ok store =>
        rw [hwrite] at hp
        have hp : store.ownerOf uuid = some p := hp
        rw [ownerOf_transferWrite hwrite] at hp
        split_ifs at hp with huuid
        · exact ⟨i, seen, rfl, hseen, huuid, Option.some.inj hp⟩
        · exact absurd hp (hsame _ rfl)

theorem orderly_of_append {actions : List TransferAction}
    (h : sys.OrderlyRun calls (actions ++ [a])) : (sys.run calls actions).Orderly calls a := by
  induction actions generalizing sys with
  | nil => exact h.1
  | cons b actions ih => exact ih h.2

/-- **Every change of an owner is authorised when it is made**, in every run whose writes find what
their calls saw. -/
theorem transfers_authorised (calls : ℕ → TransferCall) (store : PersistentStore)
    (actions : List TransferAction) (a : TransferAction)
    (horderly : (start store).OrderlyRun calls (actions ++ [a])) (uuid : Uuid) (o p : String)
    (ho : ((start store).run calls actions).store.ownerOf uuid = some o)
    (hp : ((start store).run calls (actions ++ [a])).store.ownerOf uuid = some p) (hne : o ≠ p) :
    ∃ i, a = .write i ∧ (calls i).uuid = uuid ∧ (calls i).newOwner = p ∧
      ((start store).run calls actions).store.Authorised o (calls i).actor := by
  have hrun : (start store).run calls (actions ++ [a]) = ((start store).run calls actions).step calls a := by
    unfold run
    rw [List.foldl_append]
    rfl
  rw [hrun] at hp
  obtain ⟨i, seen, rfl, hseen, rfl, hnew⟩ := of_ownerOf_step ho hp hne
  refine ⟨i, rfl, rfl, hnew, ?_⟩
  obtain ⟨hsameOwner, hsameEnd⟩ := orderly_of_append horderly seen hseen
  obtain ⟨owner, howner, hauthorised⟩ := (checked_start store).run actions i seen hseen
  -- the owner that is changed is the one the call saw
  rw [hsameOwner, howner] at ho
  obtain rfl := Option.some.inj ho
  rcases hauthorised with heq | hresolved
  · exact .inl heq
  · exact .inr ((hsameEnd owner howner).trans hresolved)

/-- A store with a namespace of the owner `o`. -/
def ownedStore : PersistentStore :=
  { PersistentStore.new false with
    namespaceRecords := (∅ : Table Uuid NamespaceRecord).insert 0 ⟨"", "o", 0, none, ["n"], false⟩ }

/-- The owner gives the namespace to `p` and, in another call, to `q`. -/
def twoTransfers (i : ℕ) : TransferCall := ⟨0, if i = 0 then "p" else "q", "o"⟩

/-- A call that writes right after its check finds what it saw. -/
theorem orderly_write_of_check {i : ℕ} (h : (sys.seen i).isNone) :
    (sys.step calls (.check i)).Orderly calls (.write i) := by
  intro seen hseen
  have hseen : (sys.check calls i).seen i = some seen := hseen
  have hstep : sys.step calls (.check i) = sys.check calls i := rfl
  rw [hstep]
  unfold check at hseen ⊢
  split_ifs at hseen ⊢
  · obtain rfl : sys.store = seen := by simpa using hseen
    exact ⟨rfl, fun _ _ => rfl⟩
  · simp [hseen] at h

/-- The owner gives the namespace to `p`, and the successor of `p` gives it to `q`. -/
def relayTransfers (i : ℕ) : TransferCall := if i = 0 then ⟨0, "p", "o"⟩ else ⟨0, "q", "r"⟩

theorem transfers_authorised_relay :
    ∃ i, TransferAction.write 1 = .write i ∧ (relayTransfers i).uuid = 0 ∧
      (relayTransfers i).newOwner = "q" ∧
      ((start ownedStore).run relayTransfers [.check 0, .write 0, .succession "p" "r", .check 1]
        ).store.Authorised "p" (relayTransfers i).actor := by
  refine transfers_authorised relayTransfers ownedStore [.check 0, .write 0, .succession "p" "r", .check 1]
    (.write 1) ⟨trivial, orderly_write_of_check rfl, trivial, trivial, orderly_write_of_check ?_, trivial⟩
    0 "p" "q" (by decide +kernel) (by decide +kernel) (by decide)
  decide +kernel

/-- Both calls check before they write. The second takes the namespace from `p`, for an actor that is
neither `p` nor a successor. -/
theorem transfer_by_former_owner :
    let before := (start ownedStore).run twoTransfers [.check 0, .check 1, .write 0]
    before.store.ownerOf 0 = some "p" ∧
      (before.step twoTransfers (.write 1)).store.ownerOf 0 = some "q" ∧
      ¬ before.store.Authorised "p" (twoTransfers 1).actor := by
  decide +kernel

end TransferSystem

end KappaRegistry
