import KappaRegistry.Lib.Scan
import KappaRegistry.Store.ContentAddressing
import Mathlib.Data.List.Dedup

/-!
# Transactions

`TransactionManager` of `kappa-core/src/transaction.rs`: objects are put into a staging directory,
one for each transaction, and a commit promotes them into the main store, one file after the other in
the order of their names; the first failure ends it. The main store takes an object under its own label
and then under the mandatory ones. Files can fail to be written at any put, and any label can fail to be
stored at a commit (`faults`).

A run keeps a log of the labels that were put with success. `listStagedBlobs` gives back exactly the
labels of the log (`StagedAt.mem_listStagedBlobs`), whatever failed puts have left in the directory.

**`commit_atomic_iff`**: a commit that succeeds promotes exactly the labels of the log. One that
fails leaves nothing behind exactly if the labels of the log that it stored before the failure could
be read before.
-/

namespace KappaRegistry

open Lib Table List Prod

/-- Why an operation on a transaction failed. -/
inductive TransactionError where
  | io (message : String)
  | notFound
  | atCapacity (limit : ℕ)
  | perTxnLimitExceeded (limit : ℕ)
  | globalLimitExceeded (limit : ℕ)
  | digestMismatch (kappa : String)
  | invalidLabel (kappa : String) (reason : LabelError)

structure TransactionState where
  stagingBytes : ℕ
  stagingDirCreated : Bool

/-- The files of a staging directory, by axis, shard and name. -/
abbrev StagingDir := Table (String × String × String) Bytes

structure TransactionManager where
  active : Table String TransactionState
  activeCount : ℕ
  totalStagingBytes : ℕ
  /-- The staging directories, by transaction. -/
  staging : Table String StagingDir
  maxConcurrent : ℕ
  maxBytesPerTxn : ℕ
  maxBytesGlobal : ℕ

/-- The main store, as far as a commit sees it: its readable blobs, and the number of labels that
commits have tried to store so far. -/
structure MainStore where
  blobs : Table String Bytes
  attempts : ℕ

/-- What goes wrong on the disk during a put: the staging directory, the directory of the shard, or
the file, of which some content is left under the temporary name. -/
inductive PutFault where
  | createDir (message : String)
  | createShard (message : String)
  | write (left : Bytes) (message : String)

/-- What goes wrong when the main store takes a label: the call fails, or the link of a mandatory label
is not made, which is not noticed. -/
inductive MainFault where
  | fails (e : TransactionError)
  | lost

/-- A label under which the main store takes an object: its own, or a mandatory one. -/
structure MainPut where
  kappa : String
  content : Bytes
  mandatory : Bool

/-! ## The files of a transaction -/

variable (kappa : String) (k : KappaLabel)

/-- `blob_path_in`: axis, shard and name of the file of a label. -/
def blobPathIn : String × String × String :=
  let (axis, hex) := (splitOnceText ':' kappa).getD ("unknown", "00")
  (axis, if 2 ≤ byteLen hex then hexSlice hex 0 2 else "xx", kappa)

/-- The temporary file of `atomic_write`, for a label without a dot. -/
def tmpPathIn : String × String × String :=
  ((blobPathIn kappa).1, (blobPathIn kappa).2.1, kappa ++ ".tmp")

/-- The names that `list_staged_blobs` takes for labels. -/
def isStagedName (name : String) : Bool :=
  !(".meta".toList.isSuffixOf name.toList || ".tmp".toList.isSuffixOf name.toList) &&
    name.toList.contains ':'

/-- `list_staged_blobs`, with the contents of the files. -/
def listStagedBlobs (dir : StagingDir) : List (String × Bytes) :=
  ((dir.toList.filter fun entry => isStagedName entry.1.2.2).map fun entry =>
    (entry.1.2.2, entry.2)).mergeSort fun a b => decide (a.1 ≤ b.1)

namespace TransactionManager

def new (maxConcurrent maxBytesPerTxn maxBytesGlobal : ℕ) : TransactionManager :=
  { active := ∅, activeCount := 0, totalStagingBytes := 0, staging := ∅, maxConcurrent, maxBytesPerTxn,
    maxBytesGlobal }

variable (m : TransactionManager) (id : String)

/-- `begin`, with the identifier it draws. -/
def begin : Except TransactionError TransactionManager :=
  if m.maxConcurrent ≤ m.activeCount then .error (.atCapacity m.maxConcurrent)
  else .ok { m with
    active := m.active.insert id { stagingBytes := 0, stagingDirCreated := false }
    activeCount := m.activeCount + 1 }

def dirOf : StagingDir := m.staging[id]?.getD ∅

/-- The manager with the state and the directory of a transaction changed. -/
def update (state : TransactionState) (dir : StagingDir) : TransactionManager :=
  { m with active := m.active.insert id state, staging := m.staging.insert id dir }

/-- The part of `put` behind its checks: the staging directory is made for the first object, and the
file is written if it is not there. -/
def writeStaged (kappa : String) (content : Bytes) (state : TransactionState)
    (fault : Option PutFault) : Except TransactionError Bool × TransactionManager :=
  let created := { state with stagingDirCreated := true }
  let dir := m.dirOf id
  match fault, state.stagingDirCreated with
  | some (.createDir message), false => (.error (.io message), m)
  | _, _ =>
    if dir[blobPathIn kappa]?.isSome then (.ok false, m.update id created dir)
    else
      match fault with
      | some (.createShard message) => (.error (.io message), m.update id created dir)
      | some (.write left message) =>
        (.error (.io message), m.update id created (dir.insert (tmpPathIn kappa) left))
      | _ =>
        let m := { m with totalStagingBytes := m.totalStagingBytes + content.length }
        (.ok true, m.update id { created with stagingBytes := state.stagingBytes + content.length }
          ((dir.erase (tmpPathIn kappa)).insert (blobPathIn kappa) content))

def put (H : Hashes) (m : TransactionManager) (id kappa : String) (content : Bytes)
    (fault : Option PutFault) : Except TransactionError Bool × TransactionManager :=
  match H.verifyKappa kappa content with
  | .error e => (.error (.invalidLabel kappa e), m)
  | .ok false => (.error (.digestMismatch kappa), m)
  | .ok true =>
    match m.active[id]? with
    | none => (.error .notFound, m)
    | some state =>
      if m.maxBytesPerTxn < state.stagingBytes + content.length then
        (.error (.perTxnLimitExceeded m.maxBytesPerTxn), m)
      else if m.maxBytesGlobal < m.totalStagingBytes + content.length then
        (.error (.globalLimitExceeded m.maxBytesGlobal), m)
      else m.writeStaged id kappa content state fault

/-- The manager without a transaction and its staging directory. -/
def discard (state : TransactionState) : TransactionManager :=
  { m with
    active := m.active.erase id
    activeCount := m.activeCount - 1
    totalStagingBytes := m.totalStagingBytes - state.stagingBytes
    staging := m.staging.erase id }

def abort : Except TransactionError TransactionManager :=
  match m.active[id]? with
  | none => .error .notFound
  | some state => .ok (m.discard id state)

/-- The labels that `ingest_verified` stores for an object, in order. -/
def mainPuts (H : Hashes) (object : String × Bytes) : List MainPut :=
  let others := mandatoryAxes.filter fun axis =>
    (KappaLabel.parse object.1).toOption.map KappaLabel.axis ≠ some axis
  ⟨object.1, object.2, false⟩ :: others.map fun axis => ⟨(H.label axis object.2).asStr, object.2, true⟩

/-- Labels are stored up to the first failure. -/
def storePuts (faults : ℕ → Option MainFault) :
    MainStore → List MainPut → Option TransactionError × MainStore
  | main, [] => (none, main)
  | main, put :: puts =>
    match faults main.attempts, put.mandatory with
    | some (.fails e), _ => (some e, { main with attempts := main.attempts + 1 })
    | some .lost, true => storePuts faults { main with attempts := main.attempts + 1 } puts
    | _, _ => storePuts faults
        { blobs := main.blobs.insertIfNew put.kappa put.content, attempts := main.attempts + 1 } puts

/-- The loop of `commit`: `ingest_verified` of one object after the other, up to the first failure. The
result is the labels of the objects. -/
def promote (H : Hashes) (faults : ℕ → Option MainFault) (main : MainStore)
    (staged : List (String × Bytes)) : Except TransactionError (List String) × MainStore :=
  match storePuts faults main (staged.flatMap (mainPuts H)) with
  | (some e, main) => (.error e, main)
  | (none, main) => (.ok (staged.map fst), main)

/-- `commit`. A transaction that has no staging directory has no objects. -/
def commit (H : Hashes) (faults : ℕ → Option MainFault) (m : TransactionManager) (main : MainStore)
    (id : String) : Except TransactionError (List String) × TransactionManager × MainStore :=
  match m.active[id]? with
  | none => (.error .notFound, m, main)
  | some state =>
    if state.stagingDirCreated then
      match promote H faults main (listStagedBlobs (m.dirOf id)) with
      | (.error e, main) => (.error e, m, main)
      | (.ok promoted, main) => (.ok promoted, m.discard id state, main)
    else
      (.ok [], { m with active := m.active.erase id, activeCount := m.activeCount - 1 }, main)

end TransactionManager

open TransactionManager

/-! ## Promotion -/

section

variable (faults : ℕ → Option MainFault) (main : MainStore)

/-- The `j`-th label from now on is stored, if it is reached. -/
def Stores (j : ℕ) (put : MainPut) : Prop :=
  put.mandatory = false ∨ faults (main.attempts + j) = none

/-- A first part `done` of the labels was taken, which is all of them unless one failed. Those of it that
are stored can be read afterwards, and those that could be read before. -/
structure Taken (done rest : List MainPut) (failure : Option TransactionError) (after : MainStore) :
    Prop where
  reads : ∀ kappa : String, after.blobs[kappa]?.isSome ↔
    (∃ j put, done[j]? = some put ∧ Stores faults main j put ∧ put.kappa = kappa) ∨
      main.blobs[kappa]?.isSome
  fine : ∀ j < done.length, ∀ e, faults (main.attempts + j) ≠ some (.fails e)
  ends : rest = [] ∧ failure = none ∨
    rest ≠ [] ∧ ∃ e, faults (main.attempts + done.length) = some (.fails e) ∧ failure = some e

variable {faults main}

theorem Taken.cons {done rest : List MainPut} {failure : Option TransactionError} {after : MainStore}
    {put : MainPut} {blobs : Table String Bytes}
    (h : Taken faults ⟨blobs, main.attempts + 1⟩ done rest failure after)
    (hfine : ∀ e, faults main.attempts ≠ some (.fails e))
    (hblobs : ∀ kappa : String, blobs[kappa]?.isSome ↔
      Stores faults main 0 put ∧ put.kappa = kappa ∨ main.blobs[kappa]?.isSome) :
    Taken faults main (put :: done) rest failure after := by
  have hshift : ∀ j, main.attempts + 1 + j = main.attempts + (j + 1) := by
    intro j
    omega
  obtain ⟨hreads, hnone, hends⟩ := h
  simp only [Stores, hshift] at hreads hnone hends
  refine ⟨?_, ?_, hends⟩
  · intro kappa
    rw [hreads, hblobs, ← or_assoc]
    refine or_congr_left ⟨?_, ?_⟩
    · rintro (⟨j, q, hq⟩ | hput)
      · exact ⟨j + 1, q, hq⟩
      · exact ⟨0, put, rfl, hput⟩
    · rintro ⟨_ | j, q, hq, hstores⟩
      · cases hq
        exact .inr hstores
      · exact .inl ⟨j, q, hq, hstores⟩
  · rintro (_ | j) hj
    · exact hfine
    · exact hnone j (Nat.lt_of_succ_lt_succ hj)

theorem isSome_insertIfNew (blobs : Table String Bytes) (k kappa : String) (content : Bytes) :
    (blobs.insertIfNew k content)[kappa]?.isSome ↔ k = kappa ∨ blobs[kappa]?.isSome := by
  rw [get_insertIfNew]
  split_ifs with h
  · simp [h.1]
  · rw [not_and] at h
    refine ⟨.inr, ?_⟩
    rintro (rfl | hsome)
    · exact Option.isSome_iff_ne_none.mpr (h rfl)
    · exact hsome

variable (faults main) in
theorem storePuts_spec (puts : List MainPut) : ∃ done rest, puts = done ++ rest ∧
    Taken faults main done rest (storePuts faults main puts).1 (storePuts faults main puts).2 := by
  induction puts generalizing main with
  | nil => exact ⟨[], [], rfl, by simp [storePuts], nofun, .inl ⟨rfl, rfl⟩⟩
  | cons put puts ih =>
    have hstored := ih ⟨main.blobs.insertIfNew put.kappa put.content, main.attempts + 1⟩
    cases hfault : faults main.attempts with
    | none =>
      obtain ⟨done, rest, rfl, h⟩ := hstored
      rw [storePuts, hfault]
      refine ⟨put :: done, rest, rfl, h.cons (by simp [hfault]) fun kappa => ?_⟩
      rw [isSome_insertIfNew]
      simp [Stores, hfault]
    | some fault =>
      cases fault with
      | fails e =>
        rw [storePuts, hfault]
        exact ⟨[], put :: puts, rfl, by simp, nofun, .inr ⟨nofun, e, hfault, rfl⟩⟩
      | lost =>
        cases hmandatory : put.mandatory with
        | true =>
          obtain ⟨done, rest, rfl, h⟩ := ih ⟨main.blobs, main.attempts + 1⟩
          rw [storePuts, hfault, hmandatory]
          exact ⟨put :: done, rest, rfl, h.cons (by simp [hfault]) fun kappa => by
            simp [Stores, hfault, hmandatory]⟩
        | false =>
          obtain ⟨done, rest, rfl, h⟩ := hstored
          rw [storePuts, hfault, hmandatory]
          refine ⟨put :: done, rest, rfl, h.cons (by simp [hfault]) fun kappa => ?_⟩
          rw [isSome_insertIfNew]
          simp [Stores, hmandatory]

end

/-! ## Names of staged files -/

@[simp] theorem blobPathIn_name : (blobPathIn kappa).2.2 = kappa := rfl

@[simp] theorem tmpPathIn_name : (tmpPathIn kappa).2.2 = kappa ++ ".tmp" := rfl

theorem KappaLabel.dot_notMem : '.' ∉ k.asStr.toList := by
  refine notMem_asStr ?_ rfl (by decide) k
  intro axis
  cases axis <;> decide

theorem KappaLabel.isStagedName : isStagedName k.asStr = true := by
  have hsuffix : ∀ suffix : List Char, '.' ∈ suffix → suffix.isSuffixOf k.asStr.toList = false := by
    intro suffix hdot
    rw [Bool.eq_false_iff]
    intro h
    exact k.dot_notMem ((isSuffixOf_iff_suffix.mp h).subset hdot)
  have hcolon : k.asStr.toList.contains ':' = true := by
    simp [asStr]
  rw [KappaRegistry.isStagedName, hsuffix _ (by decide), hsuffix _ (by decide), hcolon]
  rfl

theorem isStagedName_tmp : isStagedName (kappa ++ ".tmp") = false := by
  have hsuffix : ".tmp".toList.isSuffixOf (kappa ++ ".tmp").toList = true := by
    rw [isSuffixOf_iff_suffix, String.toList_append]
    exact suffix_append _ _
  rw [isStagedName, hsuffix, Bool.or_true]
  rfl

theorem KappaLabel.ne_tmp (kappa : String) : kappa ++ ".tmp" ≠ k.asStr := by
  intro heq
  have hname := isStagedName_tmp kappa
  simp [heq, k.isStagedName] at hname

/-! ## Runs -/

/-- The manager, the main store, and the labels put into each transaction with success. -/
structure TransactionSystem where
  manager : TransactionManager
  main : MainStore
  log : List (String × String)

inductive TransactionRequest where
  | begin (id : String)
  | put (id kappa : String) (content : Bytes) (fault : Option PutFault)
  | abort (id : String)
  | commit (id : String)

namespace TransactionSystem

variable (H : Hashes) (faults : ℕ → Option MainFault)

def step (s : TransactionSystem) : TransactionRequest → TransactionSystem
  | .begin id => { s with manager := (s.manager.begin id).toOption.getD s.manager }
  | .put id kappa content fault =>
    let result := s.manager.put H id kappa content fault
    { s with
      manager := result.2
      log := if result.1.isOk then (id, kappa) :: s.log else s.log }
  | .abort id => { s with manager := (s.manager.abort id).toOption.getD s.manager }
  | .commit id =>
    let result := s.manager.commit H faults s.main id
    { s with manager := result.2.1, main := result.2.2 }

def run (s : TransactionSystem) (reqs : List TransactionRequest) : TransactionSystem :=
  reqs.foldl (step H faults) s

/-- A new manager over any main store. -/
def new (maxConcurrent maxBytesPerTxn maxBytesGlobal : ℕ) (main : MainStore) : TransactionSystem :=
  ⟨.new maxConcurrent maxBytesPerTxn maxBytesGlobal, main, []⟩

def begun (reqs : List TransactionRequest) : List String :=
  reqs.filterMap fun req =>
    match req with
    | .begin id => some id
    | _ => none

end TransactionSystem

/-- The staging directory of a transaction holds the labels of the log, each under its path, and temporary
files. -/
structure StagedAt (m : TransactionManager) (log : List (String × String)) (id : String) : Prop where
  files : ∀ path, (m.dirOf id)[path]?.isSome →
    (∃ kappa, path = blobPathIn kappa ∧ (id, kappa) ∈ log) ∨ ∃ kappa, path.2.2 = kappa ++ ".tmp"
  logged : ∀ kappa, (id, kappa) ∈ log → (m.dirOf id)[blobPathIn kappa]?.isSome
  created : ∀ state, m.active[id]? = some state → state.stagingDirCreated = false →
    ∀ kappa, (id, kappa) ∉ log
  labels : ∀ kappa, (id, kappa) ∈ log → ∃ k : KappaLabel, k.asStr = kappa

namespace StagedAt

variable {m m' : TransactionManager} {log log' : List (String × String)} {id : String}

section

variable (h : StagedAt m log id)
include h

theorem congr (hactive : m'.active[id]? = m.active[id]?)
    (hdir : m'.dirOf id = m.dirOf id) (hlog : ∀ kappa, (id, kappa) ∈ log' ↔ (id, kappa) ∈ log) :
    StagedAt m' log' id := by
  refine ⟨?_, ?_, ?_, ?_⟩
  · intro path hfile
    rw [hdir] at hfile
    rcases h.files path hfile with ⟨kappa, hpath, hmem⟩ | htmp
    · exact .inl ⟨kappa, hpath, (hlog kappa).mpr hmem⟩
    · exact .inr htmp
  · intro kappa hmem
    rw [hdir]
    exact h.logged kappa ((hlog kappa).mp hmem)
  · intro state hstate hcreated kappa hmem
    rw [hactive] at hstate
    exact h.created state hstate hcreated kappa ((hlog kappa).mp hmem)
  · intro kappa hmem
    exact h.labels kappa ((hlog kappa).mp hmem)

theorem mem_staged {entry : (String × String × String) × Bytes} :
    entry ∈ (m.dirOf id).toList.filter (fun entry => isStagedName entry.1.2.2) ↔
      (m.dirOf id)[entry.1]? = some entry.2 ∧ entry.1 = blobPathIn entry.1.2.2 ∧
        (id, entry.1.2.2) ∈ log := by
  obtain ⟨path, content⟩ := entry
  rw [mem_filter, Std.ExtTreeMap.mem_toList_iff_getElem?_eq_some]
  constructor
  · rintro ⟨hfile, hname⟩
    rcases h.files path (Option.isSome_of_eq_some hfile) with ⟨kappa, rfl, hmem⟩ | ⟨kappa, htmp⟩
    · exact ⟨hfile, rfl, hmem⟩
    · simp [htmp, isStagedName_tmp] at hname
  · rintro ⟨hfile, -, hmem⟩
    obtain ⟨k, hk⟩ := h.labels _ hmem
    refine ⟨hfile, ?_⟩
    rw [← hk]
    exact k.isStagedName

/-- **Listing is the inverse of putting.** -/
theorem mem_listStagedBlobs {kappa : String} :
    kappa ∈ (listStagedBlobs (m.dirOf id)).map fst ↔ (id, kappa) ∈ log := by
  simp only [listStagedBlobs, mem_map, mem_mergeSort]
  constructor
  · rintro ⟨object, ⟨entry, hentry, rfl⟩, rfl⟩
    exact (h.mem_staged.mp hentry).2.2
  · intro hmem
    obtain ⟨content, hcontent⟩ := Option.isSome_iff_exists.mp (h.logged kappa hmem)
    refine ⟨(kappa, content), ⟨(blobPathIn kappa, content), ?_, rfl⟩, rfl⟩
    exact h.mem_staged.mpr ⟨hcontent, rfl, hmem⟩

theorem pairwise_listStagedBlobs :
    ((listStagedBlobs (m.dirOf id)).map fst).Pairwise (· < ·) := by
  rw [pairwise_map]
  apply pairwise_mergeSort_lt
  rw [pairwise_map]
  refine (Std.ExtTreeMap.distinct_keys_toList.filter _).imp_of_mem ?_
  intro a b ha hb hkeys hname
  -- the name of a listed file gives its path
  have hpath : a.1 = b.1 := by
    rw [(h.mem_staged.mp ha).2.1, (h.mem_staged.mp hb).2.1]
    exact congrArg blobPathIn hname
  exact hkeys (Std.compare_eq_iff_eq.mpr hpath)

end

end StagedAt

/-! ## What a put does -/

theorem label_of_verifyKappa {H : Hashes} {kappa : String} {content : Bytes}
    (h : H.verifyKappa kappa content = .ok true) : ∃ k : KappaLabel, k.asStr = kappa := by
  obtain ⟨k, hk, -⟩ := bind_eq_ok.mp h
  exact ⟨k, KappaLabel.parse_eq_ok.mp hk⟩

/-- The directory after a put that reached the disk, and whether the put succeeded. -/
structure DirAfterPut (dir : StagingDir) (kappa : String) (ok : Bool) (dir' : StagingDir) : Prop where
  files : ∀ path, dir'[path]?.isSome →
    dir[path]?.isSome ∨ path = tmpPathIn kappa ∨ ok = true ∧ path = blobPathIn kappa
  kept : ∀ path, path ≠ tmpPathIn kappa → dir[path]?.isSome → dir'[path]?.isSome
  own : ok = true → dir'[blobPathIn kappa]?.isSome

/-- A put reached the disk: the transaction has another state and another directory. -/
def ReachesDisk (m : TransactionManager) (id kappa : String)
    (result : Except TransactionError Bool × TransactionManager) : Prop :=
  ∃ state' dir', state'.stagingDirCreated = true ∧ result.2.active = m.active.insert id state' ∧
    result.2.staging = m.staging.insert id dir' ∧ DirAfterPut (m.dirOf id) kappa result.1.isOk dir'

namespace TransactionManager

variable (H : Hashes) (m : TransactionManager) (id kappa : String) (content : Bytes)
  (fault : Option PutFault)

theorem writeStaged_cases (state : TransactionState) :
    ((m.writeStaged id kappa content state fault).1.isOk = false ∧
      (m.writeStaged id kappa content state fault).2 = m) ∨
    ReachesDisk m id kappa (m.writeStaged id kappa content state fault) := by
  unfold writeStaged
  dsimp only
  split
  · exact .inl ⟨rfl, rfl⟩
  · right
    split_ifs with hfile
    · exact ⟨_, _, rfl, rfl, rfl, fun _ => .inl, fun _ _ h => h, fun _ => hfile⟩
    · split
      · exact ⟨_, _, rfl, rfl, rfl, fun _ => .inl, fun _ _ h => h, nofun⟩
      · refine ⟨_, _, rfl, rfl, rfl, ?_, ?_, nofun⟩
        · intro path hpath
          by_cases htmp : tmpPathIn kappa = path
          · exact .inr (.inl htmp.symm)
          · rw [get_insert, if_neg htmp] at hpath
            exact .inl hpath
        · intro path htmp hpath
          rwa [get_insert, if_neg (Ne.symm htmp)]
      · refine ⟨_, _, rfl, rfl, rfl, ?_, ?_, fun _ => by simp⟩
        · intro path hpath
          by_cases hblob : blobPathIn kappa = path
          · exact .inr (.inr ⟨rfl, hblob.symm⟩)
          · rw [get_insert, if_neg hblob, get_erase] at hpath
            split at hpath
            · cases hpath
            · exact .inl hpath
        · intro path htmp hpath
          rw [get_insert]
          split
          · rfl
          · rwa [get_erase, if_neg (Ne.symm htmp)]

/-- A put changes nothing and fails, or it reached the directory of an active transaction with a
valid label. -/
theorem put_cases :
    ((m.put H id kappa content fault).1.isOk = false ∧ (m.put H id kappa content fault).2 = m) ∨
    (∃ state, m.active[id]? = some state) ∧ (∃ k : KappaLabel, k.asStr = kappa) ∧
      ReachesDisk m id kappa (m.put H id kappa content fault) := by
  unfold put
  cases hverify : H.verifyKappa kappa content with
  | error e => exact .inl ⟨rfl, rfl⟩
  | ok verified =>
    cases verified with
    | false => exact .inl ⟨rfl, rfl⟩
    | true =>
      cases hactive : m.active[id]? with
      | none => exact .inl ⟨rfl, rfl⟩
      | some state =>
        dsimp only
        split
        · exact .inl ⟨rfl, rfl⟩
        · split
          · exact .inl ⟨rfl, rfl⟩
          · rcases m.writeStaged_cases id kappa content fault state with hsame | hwritten
            · exact .inl hsame
            · exact .inr ⟨⟨state, rfl⟩, label_of_verifyKappa hverify, hwritten⟩

end TransactionManager

namespace StagedAt

variable {m m' : TransactionManager} {log : List (String × String)} {id kappa : String}

theorem put (h : StagedAt m log id) (hlabel : ∃ k : KappaLabel, k.asStr = kappa)
    {state' : TransactionState} {dir' : StagingDir} {ok : Bool} (hcreated : state'.stagingDirCreated = true)
    (hactive : m'.active[id]? = some state') (hdir : m'.dirOf id = dir')
    (hafter : DirAfterPut (m.dirOf id) kappa ok dir') :
    StagedAt m' (if ok then (id, kappa) :: log else log) id := by
  have hstate : ∀ state, m'.active[id]? = some state → state.stagingDirCreated ≠ false := by
    intro state hstate
    rw [hactive] at hstate
    rw [← Option.some.inj hstate, hcreated]
    decide
  have hlog : ∀ k, (id, k) ∈ (if ok then (id, kappa) :: log else log) ↔
      ok = true ∧ k = kappa ∨ (id, k) ∈ log := by
    intro k
    cases ok <;> simp
  refine ⟨?_, ?_, fun state hs hc => absurd hc (hstate state hs), ?_⟩
  · intro path hget
    rw [hdir] at hget
    rcases hafter.files path hget with hold | htmp | ⟨hok, hpath⟩
    · rcases h.files path hold with ⟨k, hpath, hmem⟩ | hrest
      · exact .inl ⟨k, hpath, (hlog k).mpr (.inr hmem)⟩
      · exact .inr hrest
    · exact .inr ⟨kappa, by rw [htmp]; rfl⟩
    · exact .inl ⟨kappa, hpath, (hlog kappa).mpr (.inl ⟨hok, rfl⟩)⟩
  · intro k hk
    rw [hdir]
    rcases (hlog k).mp hk with ⟨hok, rfl⟩ | hold
    · exact hafter.own hok
    · refine hafter.kept _ ?_ (h.logged k hold)
      intro heq
      obtain ⟨label, rfl⟩ := h.labels k hold
      exact label.ne_tmp kappa (congrArg (fun path => path.2.2) heq).symm
  · intro k hk
    rcases (hlog k).mp hk with ⟨-, rfl⟩ | hold
    · exact hlabel
    · exact h.labels k hold

end StagedAt

/-! ## The invariant -/

namespace TransactionSystem

variable {H : Hashes} {faults : ℕ → Option MainFault} {s : TransactionSystem} {ids : List String}

/-- The directories of the active transactions are right, and nothing is there for identifiers that have not been
drawn. -/
structure Staged (s : TransactionSystem) (ids : List String) : Prop where
  active : ∀ id : String, (s.manager.active[id]?).isSome → StagedAt s.manager s.log id
  fresh : ∀ id : String, id ∉ ids →
    s.manager.active[id]? = none ∧ s.manager.staging[id]? = none ∧ ∀ kappa, (id, kappa) ∉ s.log

theorem Staged.drop (h : s.Staged ids) (id : String) (m' : TransactionManager)
    (hactive : m'.active = s.manager.active.erase id)
    (hstaging : m'.staging = s.manager.staging ∨ m'.staging = s.manager.staging.erase id)
    (main : MainStore) : Staged ⟨m', main, s.log⟩ ids := by
  have hdir : ∀ i : String, id ≠ i → m'.staging[i]? = s.manager.staging[i]? := by
    intro i hi
    rcases hstaging with heq | heq
    · rw [heq]
    · rw [heq, get_erase, if_neg hi]
  constructor
  · intro i hi
    have hne : id ≠ i := by
      rintro rfl
      rw [hactive, get_erase, if_pos rfl] at hi
      cases hi
    rw [hactive, get_erase, if_neg hne] at hi
    refine (h.active i hi).congr ?_ ?_ fun _ => Iff.rfl
    · rw [hactive, get_erase, if_neg hne]
    · rw [dirOf, dirOf, hdir i hne]
  · intro i hi
    obtain ⟨hnone, hdirs, hlog⟩ := h.fresh i hi
    refine ⟨?_, ?_, hlog⟩
    · rw [hactive, get_erase, hnone, ite_self]
    · rcases hstaging with heq | heq
      · rw [heq, hdirs]
      · rw [heq, get_erase, hdirs, ite_self]

variable {id : String}

theorem Staged.begin (h : s.Staged ids) (hid : id ∉ ids) :
    (s.step H faults (.begin id)).Staged (id :: ids) := by
  obtain ⟨hnone, hdir, hlog⟩ := h.fresh id hid
  unfold step TransactionManager.begin
  split_ifs
  · exact ⟨h.active, fun i hi => h.fresh i fun hmem => hi (mem_cons_of_mem _ hmem)⟩
  · constructor
    · intro i hi
      by_cases hne : id = i
      · subst hne
        refine ⟨?_, ?_, ?_, ?_⟩
        · intro path hfile
          change (s.manager.staging[id]?.getD ∅)[path]?.isSome at hfile
          simp [hdir] at hfile
        · exact fun kappa hmem => absurd hmem (hlog kappa)
        · exact fun _ _ _ kappa => hlog kappa
        · exact fun kappa hmem => absurd hmem (hlog kappa)
      · have hsame : (s.manager.active.insert id ⟨0, false⟩)[i]? = s.manager.active[i]? := by
          rw [get_insert, if_neg hne]
        refine (h.active i ?_).congr hsame rfl fun _ => Iff.rfl
        rwa [← hsame]
    · intro i hi
      rw [mem_cons, not_or] at hi
      obtain ⟨hne, hmem⟩ := hi
      obtain ⟨hnone', hrest⟩ := h.fresh i hmem
      refine ⟨?_, hrest⟩
      show (s.manager.active.insert id ⟨0, false⟩)[i]? = none
      rw [get_insert, if_neg (Ne.symm hne), hnone']

theorem Staged.put (h : s.Staged ids) {id kappa : String} {content : Bytes} {fault : Option PutFault} :
    (s.step H faults (.put id kappa content fault)).Staged ids := by
  unfold step
  dsimp only
  rcases put_cases H s.manager id kappa content fault with
    ⟨hok, hsame⟩ | ⟨⟨state, hstate⟩, hlabel, state', dir', hcreated, hactive, hstaging, hafter⟩
  · rwa [hok, hsame]
  · have hmem : ∀ i k, id ≠ i → ((i, k) ∈ (if (s.manager.put H id kappa content fault).1.isOk = true
        then (id, kappa) :: s.log else s.log) ↔ (i, k) ∈ s.log) := by
      intro i k hne
      split
      · rw [mem_cons]
        refine or_iff_right ?_
        intro heq
        exact hne (congrArg fst heq).symm
      · exact Iff.rfl
    constructor
    · intro i hi
      by_cases hne : id = i
      · subst hne
        refine (h.active id (Option.isSome_of_eq_some hstate)).put hlabel hcreated ?_ ?_ hafter
        · rw [hactive, get_insert, if_pos rfl]
        · rw [dirOf, hstaging, get_insert, if_pos rfl, Option.getD_some]
      · have hsame : (s.manager.put H id kappa content fault).2.active[i]? = s.manager.active[i]? := by
          rw [hactive, get_insert, if_neg hne]
        refine (h.active i ?_).congr hsame ?_ fun k => hmem i k hne
        · rwa [← hsame]
        · rw [dirOf, dirOf, hstaging, get_insert, if_neg hne]
    · intro i hi
      obtain ⟨hnone, hdir, hlog⟩ := h.fresh i hi
      have hne : id ≠ i := by
        rintro rfl
        simp [hstate] at hnone
      refine ⟨?_, ?_, ?_⟩
      · rw [hactive, get_insert, if_neg hne, hnone]
      · rw [hstaging, get_insert, if_neg hne, hdir]
      · intro k hk
        exact hlog k ((hmem i k hne).mp hk)

theorem Staged.abort (h : s.Staged ids) : (s.step H faults (.abort id)).Staged ids := by
  unfold step TransactionManager.abort
  dsimp only
  cases s.manager.active[id]? with
  | none => exact h
  | some state =>
    exact h.drop id (s.manager.discard id state) rfl (.inr rfl) s.main

theorem Staged.commit (h : s.Staged ids) : (s.step H faults (.commit id)).Staged ids := by
  unfold step TransactionManager.commit
  dsimp only
  cases s.manager.active[id]? with
  | none => exact h
  | some state =>
    dsimp only
    split_ifs
    · cases promote H faults s.main (listStagedBlobs (s.manager.dirOf id)) with
      | mk result main =>
        cases result with
        | error e => exact ⟨h.active, h.fresh⟩
        | ok promoted =>
          exact h.drop id (s.manager.discard id state) rfl (.inr rfl) main
    · exact h.drop id { s.manager with
        active := s.manager.active.erase id, activeCount := s.manager.activeCount - 1 } rfl (.inl rfl) s.main

variable (H faults) in
theorem Staged.run {reqs : List TransactionRequest} (h : s.Staged ids)
    (hfresh : (begun reqs).Nodup) (hnew : ∀ id ∈ begun reqs, id ∉ ids) :
    ∃ ids', (s.run H faults reqs).Staged ids' := by
  induction reqs generalizing s ids with
  | nil => exact ⟨ids, h⟩
  | cons req reqs ih =>
    cases req with
    | begin id =>
      obtain ⟨hid, hrest⟩ := nodup_cons.mp hfresh
      refine ih (h.begin (hnew id mem_cons_self)) hrest ?_
      intro i hi
      rw [mem_cons, not_or]
      refine ⟨?_, hnew i (mem_cons_of_mem _ hi)⟩
      rintro rfl
      exact hid hi
    | put id kappa content fault => exact ih h.put hfresh hnew
    | abort id => exact ih h.abort hfresh hnew
    | commit id => exact ih h.commit hfresh hnew

/-! ## Commits -/

/-- The labels put into a transaction, in order. -/
def labelsPut (s : TransactionSystem) (id : String) : List String :=
  ((s.log.filter fun entry => entry.1 == id).map snd).dedup.mergeSort fun a b => decide (a ≤ b)

theorem mem_labelsPut {id kappa : String} : kappa ∈ s.labelsPut id ↔ (id, kappa) ∈ s.log := by
  simp [labelsPut]

theorem pairwise_labelsPut (id : String) : (s.labelsPut id).Pairwise (· < ·) :=
  pairwise_mergeSort_lt (f := fun label => label) (nodup_dedup _)

/-- If a commit fails, no label of the transaction can be read that could not be read before. If it
succeeds, it gives each of them once, and all can be read. -/
def CommitAtomic (before after : MainStore) (labels : List String)
    (result : Except TransactionError (List String)) : Prop :=
  (∀ e, result = .error e → ∀ kappa ∈ labels, before.blobs[kappa]? = none → after.blobs[kappa]? = none) ∧
    ∀ promoted, result = .ok promoted → promoted.Nodup ∧ (∀ kappa, kappa ∈ promoted ↔ kappa ∈ labels) ∧
      ∀ kappa ∈ promoted, after.blobs[kappa]?.isSome

/-- A commit of the transaction is atomic in this sense. -/
def Atomic (H : Hashes) (faults : ℕ → Option MainFault) (s : TransactionSystem) (id : String) : Prop :=
  CommitAtomic s.main (s.manager.commit H faults s.main id).2.2 (s.labelsPut id)
    (s.manager.commit H faults s.main id).1

/-- The labels of the objects that are stored before the first one that fails can all be read already. -/
def FailsHarmlessly (H : Hashes) (faults : ℕ → Option MainFault) (main : MainStore)
    (staged : List (String × Bytes)) : Prop :=
  ∀ first put rest, staged.flatMap (mainPuts H) = first ++ put :: rest →
    (∀ j < first.length, ∀ e, faults (main.attempts + j) ≠ some (.fails e)) →
    (∃ e, faults (main.attempts + first.length) = some (.fails e)) →
    ∀ j stored, first[j]? = some stored → Stores faults main j stored →
      stored.kappa ∈ staged.map fst → main.blobs[stored.kappa]?.isSome

variable (H faults) in
theorem promote_atomic_iff (main : MainStore) (staged : List (String × Bytes))
    (hnodup : (staged.map fst).Nodup) :
    CommitAtomic main (promote H faults main staged).2 (staged.map fst)
        (promote H faults main staged).1 ↔
      FailsHarmlessly H faults main staged := by
  obtain ⟨done, rest, hputs, hread, hnone, hend⟩ := storePuts_spec faults main (staged.flatMap (mainPuts H))
  unfold promote FailsHarmlessly
  rw [hputs]
  rw [hputs] at hread hend
  cases hloop : storePuts faults main (done ++ rest) with
  | mk failure main' =>
  rw [hloop] at hread hend
  rcases hend with ⟨rfl, rfl⟩ | ⟨hrest, e, he, rfl⟩
  · -- nothing failed
    constructor
    · intro _ first put last hsplit _ hfault
      obtain ⟨e, he⟩ := hfault
      have hlength := congrArg length hsplit
      rw [append_nil, length_append, length_cons] at hlength
      exact absurd he (hnone first.length (by omega) e)
    · intro _
      refine ⟨nofun, ?_⟩
      rintro promoted ⟨⟩
      refine ⟨hnodup, fun _ => Iff.rfl, ?_⟩
      intro kappa hkappa
      obtain ⟨object, hobject, rfl⟩ := mem_map.mp hkappa
      have hmem : (⟨object.1, object.2, false⟩ : MainPut) ∈ done := by
        rw [← append_nil done, ← hputs]
        exact mem_flatMap.mpr ⟨object, hobject, mem_cons_self⟩
      obtain ⟨j, hj⟩ := mem_iff_getElem?.mp hmem
      exact (hread object.1).mpr (.inl ⟨j, _, hj, .inl rfl, rfl⟩)
  · obtain ⟨failed, last, rfl⟩ := exists_cons_of_ne_nil hrest
    constructor
    · intro h first put after hsplit hbefore hfault j stored hj hstored hmem
      -- the first failure is the one the loop stopped at
      have hlength : first.length = done.length := by
        obtain ⟨e', he'⟩ := hfault
        rcases lt_trichotomy first.length done.length with hlt | heq | hgt
        · exact absurd he' (hnone _ hlt e')
        · exact heq
        · exact absurd he (hbefore _ hgt e)
      obtain rfl := (append_inj hsplit hlength.symm).1
      by_contra hunread
      have hafter := h.1 e rfl stored.kappa hmem (by simpa using hunread)
      have hsome := (hread stored.kappa).mpr (.inl ⟨j, stored, hj, hstored, rfl⟩)
      simp [hafter] at hsome
    · intro h
      refine ⟨?_, nofun⟩
      intro _ _ kappa hkappa hunread
      rw [← Option.not_isSome_iff_eq_none, hread kappa]
      rintro (⟨j, stored, hj, hstored, rfl⟩ | hsome)
      · have hsome := h done failed last rfl hnone ⟨e, he⟩ j stored hj hstored hkappa
        simp [hunread] at hsome
      · simp [hunread] at hsome

theorem staged_new (maxConcurrent maxBytesPerTxn maxBytesGlobal : ℕ) (main : MainStore) :
    (new maxConcurrent maxBytesPerTxn maxBytesGlobal main).Staged [] := by
  constructor
  · intro id hid
    cases hid
  · intro id _
    exact ⟨rfl, rfl, nofun⟩

theorem Staged.commit_iff (hstaged : s.Staged ids) (hactive : (s.manager.active[id]?).isSome) :
    Atomic H faults s id ↔
      FailsHarmlessly H faults s.main (listStagedBlobs (s.manager.dirOf id)) := by
  have hat := hstaged.active id hactive
  obtain ⟨state, hstate⟩ := Option.isSome_iff_exists.mp hactive
  -- the list of the directory is the list of the labels
  have hlabels : s.labelsPut id = (listStagedBlobs (s.manager.dirOf id)).map fst := by
    refine eq_of_pairwise_lt (f := fun k => k) (pairwise_labelsPut id) hat.pairwise_listStagedBlobs ?_
    intro kappa
    rw [mem_labelsPut, hat.mem_listStagedBlobs]
  unfold Atomic TransactionManager.commit
  rw [hstate, hlabels]
  dsimp only
  by_cases hcreated : state.stagingDirCreated = true
  · have hnodup : ((listStagedBlobs (s.manager.dirOf id)).map fst).Nodup :=
      hat.pairwise_listStagedBlobs.imp fun hlt => ne_of_lt hlt
    have hloop := promote_atomic_iff H faults s.main _ hnodup
    rw [if_pos hcreated, ← hloop]
    cases promote H faults s.main (listStagedBlobs (s.manager.dirOf id)) with
    | mk result main' =>
      cases result with
      | error e | ok promoted => exact Iff.rfl
  · -- nothing was put
    have hempty : listStagedBlobs (s.manager.dirOf id) = [] := by
      rw [← map_eq_nil_iff (f := fst), ← hlabels]
      refine eq_nil_iff_forall_not_mem.mpr fun kappa hmem => ?_
      exact hat.created state hstate (Bool.not_eq_true _ ▸ hcreated) kappa (mem_labelsPut.mp hmem)
    rw [if_neg hcreated, hempty]
    constructor
    · intro _ first put rest hsplit
      exact absurd hsplit.symm (by simp)
    · intro _
      refine ⟨nofun, ?_⟩
      rintro promoted ⟨⟩
      exact ⟨nodup_nil, fun _ => Iff.rfl, nofun⟩

/-- **Atomic promotion.** -/
theorem commit_atomic_iff (H : Hashes) (faults : ℕ → Option MainFault)
    (maxConcurrent maxBytesPerTxn maxBytesGlobal : ℕ) (main : MainStore) (reqs : List TransactionRequest)
    (hfresh : (begun reqs).Nodup) (s : TransactionSystem)
    (hs : (new maxConcurrent maxBytesPerTxn maxBytesGlobal main).run H faults reqs = s) (id : String)
    (hactive : (s.manager.active[id]?).isSome) :
    Atomic H faults s id ↔
      FailsHarmlessly H faults s.main (listStagedBlobs (s.manager.dirOf id)) := by
  obtain ⟨ids, hstaged⟩ :=
    (staged_new maxConcurrent maxBytesPerTxn maxBytesGlobal main).run H faults hfresh nofun
  rw [hs] at hstaged
  exact hstaged.commit_iff hactive

def oneByteLabel (b : UInt8) : String := (Hashes.sample.label .sha1 [b]).asStr

def stageTwo : List TransactionRequest :=
  [.begin "t", .put "t" (oneByteLabel 1) [1] none, .put "t" (oneByteLabel 2) [2] none]

/-- The disk is full when a label is to be stored. -/
def diskFull (full n : ℕ) : Option MainFault :=
  if n = full then some (.fails (.io "disk full")) else none

/-- The system with the transaction, over a main store that has the first of the objects. -/
def stagedTwo (full : ℕ) : TransactionSystem :=
  (new 64 1024 4096 ⟨(∅ : Table String Bytes).insert (oneByteLabel 1) [1], 0⟩).run .sample (diskFull full)
    stageTwo

theorem stagedTwo_puts (full : ℕ) (hfull : full ∈ [1, 3]) : ∃ ids, (stagedTwo full).Staged ids ∧ ∃ c c',
    let staged := listStagedBlobs ((stagedTwo full).manager.dirOf "t")
    staged.map fst = [oneByteLabel 1, oneByteLabel 2] ∧ staged.flatMap (mainPuts .sample) =
      [⟨oneByteLabel 1, c, false⟩, ⟨(Hashes.sample.label .sha256 c).asStr, c, true⟩,
        ⟨oneByteLabel 2, c', false⟩, ⟨(Hashes.sample.label .sha256 c').asStr, c', true⟩] := by
  have hlog : ∀ n ∈ [1, 3], (stagedTwo n).log = [("t", oneByteLabel 2), ("t", oneByteLabel 1)] ∧
      ((stagedTwo n).manager.active["t"]?).isSome = true := by decide +kernel
  obtain ⟨hlog, hactive⟩ := hlog full hfull
  obtain ⟨ids, hstaged⟩ := (staged_new 64 1024 4096 _).run .sample (diskFull full)
    (show (begun stageTwo).Nodup by decide) nofun
  have hdir : StagedAt (stagedTwo full).manager (stagedTwo full).log "t" := hstaged.active "t" hactive
  have hlabels : (listStagedBlobs ((stagedTwo full).manager.dirOf "t")).map fst =
      [oneByteLabel 1, oneByteLabel 2] := by
    refine eq_of_pairwise_lt (f := fun k => k) hdir.pairwise_listStagedBlobs (by decide +kernel) ?_
    intro kappa
    rw [hdir.mem_listStagedBlobs, hlog]
    simp [or_comm]
  have hputs : ∀ b ∈ [(1 : UInt8), 2], (mandatoryAxes.filter fun axis =>
      (KappaLabel.parse (oneByteLabel b)).toOption.map KappaLabel.axis ≠ some axis) = [.sha256] := by
    decide +kernel
  obtain ⟨⟨l, c⟩, rest, hlist, rfl, hrest⟩ := map_eq_cons_iff.mp hlabels
  obtain ⟨⟨l', c'⟩, rest', rfl, rfl, hnil⟩ := map_eq_cons_iff.mp hrest
  obtain rfl := map_eq_nil_iff.mp hnil
  refine ⟨ids, hstaged, c, c', hlabels, ?_⟩
  simp only [hlist, flatMap_cons, flatMap_nil, mainPuts, hputs 1 (by simp), hputs 2 (by simp)]
  rfl

/-- The first object meets a full disk between its two labels, and its own could be read before. -/
theorem commit_atomic_two : Atomic .sample (diskFull 1) (stagedTwo 1) "t" := by
  refine (commit_atomic_iff .sample (diskFull 1) 64 1024 4096 _ stageTwo (by decide)
    (stagedTwo 1) rfl "t" (by decide +kernel)).mpr ?_
  obtain ⟨-, -, c, c', -, hputs⟩ := stagedTwo_puts 1 (by simp)
  intro first put rest hsplit _ hfault j stored hj _ _
  have hlength : first.length = 1 := by
    obtain ⟨e, he⟩ := hfault
    by_contra hne
    have hzero : (stagedTwo 1).main.attempts = 0 := by decide +kernel
    rw [hzero, Nat.zero_add, diskFull, if_neg hne] at he
    cases he
  obtain ⟨q, rfl⟩ := length_eq_one_iff.mp hlength
  rw [hputs] at hsplit
  obtain rfl := (cons.inj hsplit).1
  cases j with
  | zero =>
    cases hj
    show (stagedTwo 1).main.blobs[oneByteLabel 1]?.isSome = true
    decide +kernel
  | succ j => cases hj

/-- The second one does, and its own label can be read now. -/
theorem commit_not_atomic : ¬ Atomic .sample (diskFull 3) (stagedTwo 3) "t" := by
  obtain ⟨ids, hstaged, c, c', hlabels, hputs⟩ := stagedTwo_puts 3 (by simp)
  rw [Staged.commit_iff hstaged (by decide +kernel)]
  intro h
  have hzero : (stagedTwo 3).main.attempts = 0 := by decide +kernel
  have hfine : ∀ j < 3, ∀ e, diskFull 3 ((stagedTwo 3).main.attempts + j) ≠ some (.fails e) := by
    intro j hj e
    rw [hzero, Nat.zero_add, diskFull, if_neg (by omega)]
    nofun
  have hread := h [_, _, _] _ [] hputs hfine ⟨_, by rw [hzero]; rfl⟩ 2 _ rfl (.inl rfl)
    (by rw [hlabels]; simp)
  have hunread : (stagedTwo 3).main.blobs[oneByteLabel 2]?.isSome = false := by decide +kernel
  exact absurd hread (by rw [hunread]; decide)

end TransactionSystem

end KappaRegistry
