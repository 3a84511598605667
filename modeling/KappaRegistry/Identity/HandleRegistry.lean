import KappaRegistry.Store.Sealing

/-!
# The Handle Registry

Handles are tags of the namespace `_handles`: `handle:{protocol}:{handle}` names the record of the
handle, and `anchor:{anchor}` the keys that an anchor has claimed. Two handlers write them,
`handle_claim_handler` of the identity module and `update_handle` of the AT Protocol module. Each is a
sequence of store calls, and a run is a schedule that says whose next call is made.

A record of another anchor may be replaced once it is unverified and seven days old. A claim looks for
such a record before it writes, but in another call; an update does not look. **`handles_not_stolen`**:
no record is taken from its anchor in a run where a claim's tag is at its write what the claim saw,
and an update writes or deletes only tags that a claim of the same account could have written.
-/

namespace KappaRegistry

open Lib PersistentStore

inductive HandleLiveness where
  | active
  | expired
  | unverified
  deriving DecidableEq

/-- A name bound to an anchor. -/
structure HandleRecord where
  anchor : String
  handle : String
  protocol : String
  claimedAtMs : ℕ
  verifiedAtMs : Option ℕ
  verificationMethod : String
  liveness : HandleLiveness
  deriving DecidableEq

/-- `serde_json` for handle records. -/
structure HandleCodec where
  toVec : HandleRecord → Bytes
  fromSlice : Bytes → Option HandleRecord

/-- A codec that runs. -/
def HandleCodec.sample : HandleCodec where
  toVec record := UInt8.ofNat record.claimedAtMs :: textBytes record.anchor
  fromSlice
    | time :: anchor => some ⟨String.ofList (anchor.map fun b => Char.ofNat b.toNat), "", "",
        time.toNat, none, "", .unverified⟩
    | [] => none

def graceMs : ℕ := 7 * 24 * 3600 * 1000

def HandleRecord.heldAgainst (existing : HandleRecord) (anchor : String) (nowMs : ℕ) : Bool :=
  existing.anchor != anchor &&
    (existing.liveness != .unverified || decide (nowMs - existing.claimedAtMs < graceMs))

/-- A request with what it was sent and the clock when it came. -/
inductive HandleRequest where
  | claim (handle protocol anchor verificationMethod : String) (nowMs : ℕ)
  | update (did handle : String) (nowMs : ℕ)
  deriving DecidableEq

namespace HandleRequest

def record : HandleRequest → HandleRecord
  | .claim handle protocol anchor verificationMethod nowMs =>
    ⟨anchor, handle, protocol, nowMs, none, verificationMethod, .unverified⟩
  | .update did handle nowMs => ⟨did, handle, "atproto", nowMs, none, "unverified", .unverified⟩

def anchor (r : HandleRequest) : String := r.record.anchor

def nowMs (r : HandleRequest) : ℕ := r.record.claimedAtMs

end HandleRequest

/-- `handle:{protocol}:{handle}`. -/
def handleKey (protocol handle : String) : String := "handle:" ++ protocol ++ ":" ++ handle

/-- `anchor:{anchor}`. -/
def anchorKey (anchor : String) : String := "anchor:" ++ anchor

def handlesNs : String := "_handles"

def HandleRequest.key (r : HandleRequest) : String := handleKey r.record.protocol r.record.handle

/-- The next call of a request, with what the calls before it gave. -/
inductive HandlePhase where
  | resolve
  | lookup
  /-- A claim reads the record that its tag names. -/
  | check (kappa : String)
  /-- An update reads the keys that its reverse tag names. -/
  | readOld (kappa : String)
  | delete (keys : List String)
  /-- The record is stored; `seen` is the label that a claim found under its tag. -/
  | ingest (seen : Option String)
  | bind (kappa : String) (seen : Option String)
  | reverseLookup
  | reverseIngest (text : String)
  | reverseBind (kappa : String)
  | done
  deriving DecidableEq

section

variable (prim : Primitives) (codec : HandleCodec)

/-- After `namespace_resolve`. -/
def afterResolve : Except StoreError NamespaceRef → HandlePhase
  | .ok _ => .lookup
  | .error _ => .done

/-- A claim looks up its tag, an update the reverse tag of its account. -/
def HandleRequest.lookupKey : HandleRequest → String
  | r@(.claim ..) => r.key
  | r@(.update ..) => anchorKey r.anchor

/-- After the first `tag_get`. -/
def HandleRequest.afterLookup : HandleRequest → Except StoreError TagEntry → HandlePhase
  | .claim .., .ok entry => .check entry.kappa
  | .update .., .ok entry => .readOld entry.kappa
  | _, .error _ => .ingest none

variable (r : HandleRequest) (s : PersistentStore)

/-- What a claim does with the blob under its tag; one that is no record is no conflict. -/
def HandleRequest.afterCheck (kappa : String) : Except StoreError Bytes → HandlePhase
  | .ok bytes =>
    if (codec.fromSlice bytes).any fun existing => existing.heldAgainst r.anchor r.nowMs then .done
    else .ingest (some kappa)
  | .error _ => .done

/-- The keys that an update deletes, from the text that its reverse tag names. -/
def oldKeys (bytes : Bytes) : List String :=
  (splitText ',' ((fromUtf8 bytes).getD "")).filter (startsWith · "handle:atproto:")

/-- After an update has read the keys of its account. -/
def afterOld : Except StoreError Bytes → HandlePhase
  | .ok bytes => .delete (oldKeys bytes)
  | .error _ => .ingest none

/-- After the record is bound. A claim appends to its reverse entry, an update writes it anew. -/
def HandleRequest.afterBind : HandleRequest → HandlePhase
  | .claim .. => .reverseLookup
  | r@(.update ..) => .reverseIngest r.key

/-- The reverse entry of a claim: what the reverse tag holds, which is a label, and the key. -/
def HandleRequest.reverseText (existing : Except StoreError TagEntry) : String :=
  let existingReverse := (existing.toOption.map TagEntry.kappa).getD ""
  if existingReverse = "" then r.key else existingReverse ++ "," ++ r.key

def HandleRequest.call : HandlePhase → PersistentStore × HandlePhase
  | .resolve => (s, afterResolve (s.namespaceResolve handlesNs none))
  | .lookup => (s, r.afterLookup (s.tagGet handlesNs r.lookupKey))
  | .check kappa => (s, r.afterCheck codec kappa (s.blobGet kappa))
  | .readOld kappa => (s, afterOld (s.blobGet kappa))
  | .delete (key :: keys) => (s.tagDelete handlesNs key, .delete keys)
  | .delete [] => (s, .ingest none)
  | .ingest seen =>
    let bytes := codec.toVec r.record
    (s.blobPut (prim.kappaFromBytes bytes) bytes, .bind (prim.kappaFromBytes bytes) seen)
  | .bind kappa _ => (s.tagSet handlesNs r.key kappa, r.afterBind)
  | .reverseLookup => (s, .reverseIngest (r.reverseText (s.tagGet handlesNs (anchorKey r.anchor))))
  | .reverseIngest text =>
    (s.blobPut (prim.kappaFromBytes (textBytes text)) (textBytes text),
      .reverseBind (prim.kappaFromBytes (textBytes text)))
  | .reverseBind kappa => (s.tagSet handlesNs (anchorKey r.anchor) kappa, .done)
  | .done => (s, .done)

def recordAt (key : String) : Option HandleRecord :=
  (s.tagGet handlesNs key).toOption.bind fun entry =>
    (s.blobGet entry.kappa).toOption.bind codec.fromSlice

/-- Whether a claim of the account would find no conflict under the tag. -/
def openTo (key : String) (r : HandleRequest) : Bool :=
  !(recordAt codec s key).any fun existing => existing.heldAgainst r.anchor r.nowMs

/-- A claim finds its tag as it saw it; an update writes and deletes what is open to it. -/
def HandleRequest.orderly : HandlePhase → Bool
  | .bind _ seen =>
    match r with
    | .claim .. => (s.tagGet handlesNs r.key).toOption.map TagEntry.kappa == seen
    | .update .. => openTo codec s r.key r
  | .delete (key :: _) => openTo codec s key r
  | _ => true

/-- The store and where each request is. -/
structure HandleSystem where
  store : PersistentStore
  phase : ℕ → HandlePhase

namespace HandleSystem

variable (requests : ℕ → HandleRequest)

/-- The next call of request `i`. -/
def step (s : HandleSystem) (i : ℕ) : HandleSystem :=
  let next := (requests i).call prim codec s.store (s.phase i)
  ⟨next.1, Function.update s.phase i next.2⟩

/-- The system after `n` calls. -/
def stateAt (store : PersistentStore) (schedule : ℕ → ℕ) : ℕ → HandleSystem
  | 0 => ⟨store, fun _ => .resolve⟩
  | n + 1 => (stateAt store schedule n).step prim codec requests (schedule n)

end HandleSystem

/-- What a claim that goes on after its check knows: the record that it saw is stored and was open to
it. -/
def Checked : HandlePhase → Prop
  | .ingest (some kappa) | .bind _ (some kappa) =>
    ∃ bytes, s.blobs[kappa]? = some bytes ∧
      ∀ existing, codec.fromSlice bytes = some existing → existing.heldAgainst r.anchor r.nowMs = false
  | _ => True

end

variable {prim : Primitives} {codec : HandleCodec} {r : HandleRequest} {s : PersistentStore}

/-! ## Blobs -/

variable {kappa : String} {content : Bytes}

theorem get_blobPut_of_some {k : String} {bytes : Bytes} (h : s.blobs[k]? = some content) :
    (s.blobPut kappa bytes).blobs[k]? = some content :=
  Table.get_insertIfNew_of_some h

theorem call_blobs (phase : HandlePhase)
    (h : s.blobs[kappa]? = some content) : (r.call prim codec s phase).1.blobs[kappa]? = some content := by
  cases phase with
  | resolve | lookup | check k | readOld k => exact h
  | delete keys => cases keys <;> exact h
  | ingest seen => exact get_blobPut_of_some h
  | bind k seen | reverseLookup => exact h
  | reverseIngest text => exact get_blobPut_of_some h
  | reverseBind k | done => exact h

variable {phase : HandlePhase}

theorem Checked.mono {s' : PersistentStore} (h : Checked codec r s phase)
    (hblobs : ∀ (kappa : String) (content : Bytes),
      s.blobs[kappa]? = some content → s'.blobs[kappa]? = some content) :
    Checked codec r s' phase := by
  unfold Checked at h ⊢
  split at h
  · obtain ⟨bytes, hbytes, hopen⟩ := h
    exact ⟨bytes, hblobs _ _ hbytes, hopen⟩
  · obtain ⟨bytes, hbytes, hopen⟩ := h
    exact ⟨bytes, hblobs _ _ hbytes, hopen⟩
  · trivial

/-- A claim goes on after its check only if what it read was open to it. -/
theorem checked_afterCheck (kappa : String) : Checked codec r s (r.afterCheck codec kappa (s.blobGet kappa)) := by
  cases hblob : s.blobGet kappa with
  | error e => trivial
  | ok bytes =>
    by_cases hheld : ((codec.fromSlice bytes).any fun existing =>
        existing.heldAgainst r.anchor r.nowMs) = true
    · rw [HandleRequest.afterCheck, if_pos hheld]
      trivial
    · rw [HandleRequest.afterCheck, if_neg hheld]
      refine ⟨bytes, blobGet_eq_ok.mp hblob, ?_⟩
      intro existing hexisting
      rw [hexisting, Option.any_some] at hheld
      exact Bool.eq_false_of_not_eq_true hheld

theorem Checked.call (h : Checked codec r s phase) :
    Checked codec r (r.call prim codec s phase).1 (r.call prim codec s phase).2 := by
  cases phase with
  | resolve =>
    show Checked codec r s (afterResolve (s.namespaceResolve handlesNs none))
    cases s.namespaceResolve handlesNs none <;> trivial
  | lookup =>
    show Checked codec r s (r.afterLookup (s.tagGet handlesNs r.lookupKey))
    cases s.tagGet handlesNs r.lookupKey <;> cases r <;> trivial
  | check k => exact checked_afterCheck k
  | readOld k =>
    show Checked codec r s (afterOld (s.blobGet k))
    cases s.blobGet k <;> trivial
  | delete keys => cases keys <;> trivial
  | ingest seen =>
    cases seen with
    | none => trivial
    | some kappa =>
      obtain ⟨bytes, hbytes, hopen⟩ := h
      exact ⟨bytes, get_blobPut_of_some hbytes, hopen⟩
  | bind k seen => cases r <;> trivial
  | reverseLookup | reverseIngest text | reverseBind k | done => trivial

namespace HandleSystem

variable {requests : ℕ → HandleRequest} {store : PersistentStore} {schedule : ℕ → ℕ}

theorem checked_stateAt (n i : ℕ) :
    Checked codec (requests i) (stateAt prim codec requests store schedule n).store
      ((stateAt prim codec requests store schedule n).phase i) := by
  induction n generalizing i with
  | zero => trivial
  | succ n ih =>
    rw [stateAt, step]
    dsimp only
    by_cases heq : i = schedule n
    · subst heq
      rw [Function.update_self]
      exact (ih (schedule n)).call
    · rw [Function.update_of_ne heq]
      exact (ih i).mono fun kappa content h => call_blobs _ h

end HandleSystem

/-! ## Tags -/

theorem tagGet_tagSet_of_ne {key key' kappa : String} (h : key ≠ key') :
    (s.tagSet handlesNs key kappa).tagGet handlesNs key' = s.tagGet handlesNs key' := by
  have hne : dbKey handlesNs key ≠ dbKey handlesNs key' := fun heq => h (dbKey_cancel heq)
  simp only [PersistentStore.tagGet, PersistentStore.tagSet, Table.get_insert, if_neg hne]

theorem tagGet_tagDelete_of_ne {key key' : String} (h : key ≠ key') :
    (s.tagDelete handlesNs key).tagGet handlesNs key' = s.tagGet handlesNs key' := by
  have hne : dbKey handlesNs key ≠ dbKey handlesNs key' := fun heq => h (dbKey_cancel heq)
  simp only [PersistentStore.tagGet, PersistentStore.tagDelete, Table.get_erase, if_neg hne]

theorem anchorKey_ne_handleKey (anchor protocol handle : String) :
    anchorKey anchor ≠ handleKey protocol handle := by
  intro heq
  have hhead := congrArg (fun text => text.toList.head?) heq
  simp [anchorKey, handleKey] at hhead

variable {key : String} {record : HandleRecord}

theorem recordAt_eq_some (h : recordAt codec s key = some record) :
    ∃ entry bytes, s.tagGet handlesNs key = .ok entry ∧ s.blobs[entry.kappa]? = some bytes ∧
      codec.fromSlice bytes = some record := by
  obtain ⟨entry, hentry, h⟩ := Option.bind_eq_some_iff.mp h
  obtain ⟨bytes, hbytes, h⟩ := Option.bind_eq_some_iff.mp h
  exact ⟨entry, bytes, toOption_eq_some.mp hentry, blobGet_eq_ok.mp (toOption_eq_some.mp hbytes), h⟩

theorem openTo_of_orderly {seen : Option String} (hchecked : Checked codec r s (.bind kappa seen))
    (horderly : r.orderly codec s (.bind kappa seen) = true)
    (hrecord : recordAt codec s r.key = some record) :
    record.heldAgainst r.anchor r.nowMs = false := by
  cases r with
  | update did handle nowMs =>
    have hopen : openTo codec s (HandleRequest.update did handle nowMs).key (.update did handle nowMs) = true :=
      horderly
    rwa [openTo, hrecord, Option.any_some, Bool.not_eq_true'] at hopen
  | claim handle protocol anchor method nowMs =>
    obtain ⟨entry, bytes, hentry, hbytes, hslice⟩ := recordAt_eq_some hrecord
    -- the tag names what the claim saw, so the record is the one that it checked
    have hseen : some entry.kappa = seen := by
      have heq := beq_iff_eq.mp horderly
      rwa [hentry] at heq
    subst hseen
    obtain ⟨bytes', hbytes', hopen⟩ := hchecked
    rw [hbytes] at hbytes'
    cases hbytes'
    exact hopen record hslice

theorem call_keeps (prim : Primitives) {protocol handle : String}
    (hchecked : Checked codec r s phase) (horderly : r.orderly codec s phase = true)
    (hrecord : recordAt codec s (handleKey protocol handle) = some record)
    (hheld : record.heldAgainst r.anchor r.nowMs = true) :
    (r.call prim codec s phase).1.tagGet handlesNs (handleKey protocol handle) =
      s.tagGet handlesNs (handleKey protocol handle) := by
  cases phase with
  | resolve | lookup | check k | readOld k => rfl
  | delete keys =>
    cases keys with
    | nil => rfl
    | cons key keys =>
      refine tagGet_tagDelete_of_ne ?_
      rintro rfl
      have hopen : openTo codec s (handleKey protocol handle) r = true := horderly
      simp [openTo, hrecord, Option.any_some, hheld] at hopen
  | ingest seen => rfl
  | bind k seen =>
    refine tagGet_tagSet_of_ne ?_
    intro heq
    rw [← heq] at hrecord
    simp [openTo_of_orderly hchecked horderly hrecord] at hheld
  | reverseLookup | reverseIngest text => rfl
  | reverseBind k => exact tagGet_tagSet_of_ne (anchorKey_ne_handleKey _ _ _)
  | done => rfl

namespace HandleSystem

/-- **Handles are not stolen.** -/
theorem handles_not_stolen (prim : Primitives) (codec : HandleCodec) (requests : ℕ → HandleRequest)
    (store : PersistentStore) (schedule : ℕ → ℕ) (n : ℕ) (protocol handle : String)
    (record : HandleRecord)
    (horderly : (requests (schedule n)).orderly codec (stateAt prim codec requests store schedule n).store
      ((stateAt prim codec requests store schedule n).phase (schedule n)) = true)
    (hrecord : recordAt codec (stateAt prim codec requests store schedule n).store
      (handleKey protocol handle) = some record)
    (hheld : record.heldAgainst (requests (schedule n)).anchor (requests (schedule n)).nowMs = true) :
    (stateAt prim codec requests store schedule (n + 1)).store.tagGet handlesNs
        (handleKey protocol handle) =
      (stateAt prim codec requests store schedule n).store.tagGet handlesNs
        (handleKey protocol handle) ∧
    recordAt codec (stateAt prim codec requests store schedule (n + 1)).store
      (handleKey protocol handle) = some record := by
  have htag := call_keeps prim (checked_stateAt n (schedule n)) horderly hrecord hheld
  obtain ⟨entry, bytes, hentry, hbytes, hslice⟩ := recordAt_eq_some hrecord
  refine ⟨htag, ?_⟩
  rw [stateAt, step, recordAt, htag, hentry]
  show (PersistentStore.blobGet _ entry.kappa).toOption.bind codec.fromSlice = some record
  rwa [blobGet_eq_ok.mpr (call_blobs _ hbytes)]

def handlesStore : PersistentStore :=
  { PersistentStore.new false with namespaceAliases := (∅ : Table String Uuid).insert (aliasKey handlesNs none) 0 }

/-- Account `A` claims the handle `a` at 0 ms. At 1 ms, `B` claims it and then updates its handle to it. -/
def contenders : ℕ → HandleRequest
  | 0 => .claim "a" "atproto" "A" "unverified" 0
  | 1 => .claim "a" "atproto" "B" "unverified" 1
  | _ => .update "B" "a" 1

/-- The first request runs to its end, then request `i` alone. -/
def oneAfter (i : ℕ) : ℕ → ℕ := fun n => if n < 7 then 0 else i

/-- The second claim finds the record of the first. -/
theorem handles_not_stolen_claim :
    let record (n : ℕ) := recordAt .sample
      (stateAt .sample .sample contenders handlesStore (oneAfter 1) n).store (handleKey "atproto" "a")
    (record 10).map HandleRecord.anchor = some "A" := by
  intro record
  have hrecord : record 9 = some ⟨"A", "", "", 0, none, "", .unverified⟩ := by
    decide +kernel
  have hkept : record 10 = _ := (handles_not_stolen .sample .sample contenders handlesStore (oneAfter 1) 9
    "atproto" "a" _ (by decide +kernel) hrecord (by decide +kernel)).2
  rw [hkept]
  rfl

/-- An update one millisecond after a claim of another account takes the handle. -/
theorem handles_stolen_by_update :
    (recordAt .sample (stateAt .sample .sample contenders handlesStore (oneAfter 2) 10).store
        (handleKey "atproto" "a")).any (fun record => record.heldAgainst "B" 1) = true ∧
      (contenders (oneAfter 2 10)).anchor = "B" ∧ (contenders (oneAfter 2 10)).nowMs = 1 ∧
      (recordAt .sample (stateAt .sample .sample contenders handlesStore (oneAfter 2) 11).store
        (handleKey "atproto" "a")).map HandleRecord.anchor = some "B" := by
  decide +kernel

end HandleSystem

end KappaRegistry
