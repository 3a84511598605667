import KappaRegistry.Store.VersionRows

/-!
# Listing the Versions of a Key

All keys share one table of version rows. In enabled mode, with a clock that increases, a new row of
a key comes before its others, so `version_list` shows the versions and delete markers that were
made and not removed, newest first (**`versionList_exact`**).
-/

namespace KappaRegistry

open Lib PersistentStore List

/-- A call on a key. -/
structure VersionCall where
  ns : String
  key : String
  op : VersionOp

def VersionOp.time : VersionOp → Option ℕ
  | .put _ _ _ nowMs | .delete none _ nowMs => some nowMs
  | .delete (some _) _ _ | .configure _ => none

namespace VersionStore

def runCalls (s : VersionStore) (calls : List VersionCall) : VersionStore :=
  calls.foldl (fun s call => s.versionStep call.ns call.key call.op) s

/-- What was made under a key and not removed, after one more call, given the sizes of the blobs. -/
def noted (size : String → ℕ) (entries : List VersionEntry) : VersionOp → List VersionEntry
  | .put kappa etag freshId nowMs =>
    { versionId := freshId, kappa := some kappa, isDeleteMarker := false, timestampMs := nowMs,
      size := size kappa, etag } :: entries
  | .delete none freshId nowMs =>
    { versionId := freshId, kappa := none, isDeleteMarker := true, timestampMs := nowMs, size := 0,
      etag := none } :: entries
  | .delete (some vid) _ _ => entries.eraseP fun entry => entry.versionId = vid
  | .configure _ => entries

/-- What a run makes under a key and does not remove, newest first. -/
def history (size : String → ℕ) (ns key : String) (entries : List VersionEntry)
    (calls : List VersionCall) : List VersionEntry :=
  calls.foldl (fun entries call =>
    if call.ns = ns ∧ call.key = key then noted size entries call.op else entries) entries

/-- The call is a put or a deletion in enabled mode, and reads a time that is not before `clock`. -/
structure InOrder (s : VersionStore) (clock : ℕ) (call : VersionCall) : Prop where
  ns : NulFree call.ns
  key : NulFree call.key
  enabled : s.versioningState call.ns = .enabled
  op : ∀ value, call.op ≠ .configure value
  time : ∀ now ∈ call.op.time, clock ≤ now ∧ now ≤ u64Max

/-- Every call is `InOrder`, with a clock that increases. -/
def InOrderRun : VersionStore → ℕ → List VersionCall → Prop
  | _, _, [] => True
  | s, clock, call :: calls => s.InOrder clock call ∧
      InOrderRun (s.versionStep call.ns call.key call.op) ((call.op.time.map (· + 1)).getD clock) calls

/-- The rows of a key are those of some entries before `clock`. -/
structure Lists (ns key : String) (s : VersionStore) (entries : List VersionEntry) (clock : ℕ) : Prop where
  rows : s.versionRows ns key =
    entries.map fun entry => (versionCompositeKey ns key entry.timestampMs, entry)
  time : ∀ entry ∈ entries, entry.timestampMs < clock
  newestFirst : entries.Pairwise fun a b => b.timestampMs < a.timestampMs

variable {ns key : String} {s s' : VersionStore} {entries : List VersionEntry} {clock : ℕ}

theorem Lists.push (h : s.Lists ns key entries clock) {entry : VersionEntry}
    (hclock : clock ≤ entry.timestampMs) (hmax : entry.timestampMs ≤ u64Max)
    (hversions : s'.versions = (s.insertVersion ns key entry).versions) :
    s'.Lists ns key (entry :: entries) (entry.timestampMs + 1) := by
  refine ⟨?_, ?_, pairwise_cons.mpr ⟨fun e he => (h.time e he).trans_le hclock, h.newestFirst⟩⟩
  · rw [map_cons, ← h.rows, versionRows, hversions]
    refine Table.filter_toList_insert_first (p := (versionPrefix ns key).isPrefixOf) ?_ fun row hrow => ?_
    · exact isPrefixOf_iff_prefix.mpr (prefix_append _ _)
    · have hrow' : row ∈ s.versionRows ns key := hrow
      rw [h.rows] at hrow'
      obtain ⟨e, he, rfl⟩ := mem_map.mp hrow'
      exact compare_versionCompositeKey ns key ((h.time e he).trans_le hclock) hmax
  · intro e he
    rcases mem_cons.mp he with rfl | he
    · exact Nat.lt_succ_self _
    · exact Nat.lt_succ_of_lt ((h.time e he).trans_le hclock)

/-- `prefix_successor`: the last byte below `FF` is counted up, and what follows it is cut off. -/
def prefixSuccessor (p : Bytes) : Option Bytes :=
  match p.reverse.dropWhile (· = 0xFF) with
  | [] => none
  | b :: rest => some ((b + 1) :: rest).reverse

/-- The rows of a key are those of the range that is read. -/
theorem versionRows_eq_range (s : VersionStore) (ns key : String) :
    s.versionRows ns key = s.versions.toList.filter fun row =>
      compare (versionPrefix ns key) row.1 ≠ .gt ∧
        ∀ stop ∈ prefixSuccessor (versionPrefix ns key), compare row.1 stop = .lt := by
  refine filter_congr fun row _ => ?_
  have hp : versionPrefix ns key = (textBytes ns ++ 0 :: textBytes key) ++ [0] := by
    simp [versionPrefix]
  have hstop : prefixSuccessor (versionPrefix ns key) =
      some ((textBytes ns ++ 0 :: textBytes key) ++ [1]) := by
    rw [hp, prefixSuccessor]
    simp
  rw [Bool.eq_iff_iff, isPrefixOf_iff_prefix, decide_eq_true_iff, hstop, hp]
  simp only [Option.mem_some_iff, forall_eq']
  exact (compare_range_iff _ row.1).symm

theorem versionRows_erase {row : Bytes × VersionEntry} {p : Bytes × VersionEntry → Bool}
    (hfind : (s.versionRows ns key).find? p = some row) :
    ({ s with versions := s.versions.erase row.1 } : VersionStore).versionRows ns key =
      (s.versionRows ns key).eraseP p := by
  have hdistinct : (s.versionRows ns key).Pairwise fun a b => a.1 ≠ b.1 := by
    refine (Std.ExtTreeMap.ordered_keys_toList.filter _).imp ?_
    intro a b hlt heq
    simp [heq, Std.compare_self] at hlt
  rw [← filter_ne_eq_eraseP hdistinct hfind, versionRows, versionRows, Table.toList_erase,
    filter_filter, filter_filter]
  simp only [Bool.and_comm]

section

variable (h : s.Lists ns key entries clock)
include h

theorem Lists.remove (hstate : s.versioningState ns = .enabled)
    (vid freshId : String) (nowMs : ℕ) :
    (s.versionDelete ns key (some vid) freshId nowMs).2.Lists ns key
      (entries.eraseP fun entry => entry.versionId = vid) clock := by
  have hsub : (entries.eraseP fun entry => entry.versionId = vid).Sublist entries := eraseP_sublist
  refine ⟨?_, fun e he => h.time e (hsub.subset he), h.newestFirst.sublist hsub⟩
  have hmap : (s.versionRows ns key).eraseP (fun row => decide (row.2.versionId = vid)) =
      (entries.eraseP fun entry => entry.versionId = vid).map
        fun entry => (versionCompositeKey ns key entry.timestampMs, entry) := by
    rw [h.rows, eraseP_map]
    rfl
  rw [← hmap, versionDelete_of_versioned (by rw [hstate]; decide)]
  cases hfind : (s.versionRows ns key).find? fun row => row.2.versionId = vid with
  | none =>
    dsimp only
    rw [hfind, eraseP_of_forall_not (find?_eq_none.mp hfind)]
  | some row =>
    dsimp only
    rw [hfind]
    exact versionRows_erase hfind

theorem Lists.step (hns : NulFree ns) (hkey : NulFree key)
    {call : VersionCall} (hcall : s.InOrder clock call) :
    (s.versionStep call.ns call.key call.op).Lists ns key
      (if call.ns = ns ∧ call.key = key then noted s.blobSize entries call.op else entries)
      ((call.op.time.map (· + 1)).getD clock) := by
  obtain ⟨ns', key', op⟩ := call
  have hlater : clock ≤ (op.time.map (· + 1)).getD clock := by
    cases htime : op.time with
    | none => exact le_refl clock
    | some now => exact Nat.le_succ_of_le (hcall.time now htime).1
  by_cases hsame : ns' = ns ∧ key' = key
  · obtain ⟨rfl, rfl⟩ := hsame
    rw [if_pos ⟨rfl, rfl⟩]
    cases op with
    | put kappa etag freshId nowMs =>
      obtain ⟨hclock, hmax⟩ := hcall.time nowMs rfl
      refine h.push hclock hmax ?_
      show (s.versionPut ns' key' kappa etag freshId nowMs).2.versions = _
      rw [versionPut, hcall.enabled]
      rfl
    | delete vid freshId nowMs =>
      cases vid with
      | none =>
        obtain ⟨hclock, hmax⟩ := hcall.time nowMs rfl
        refine h.push hclock hmax ?_
        show (s.versionDelete ns' key' none freshId nowMs).2.versions = _
        rw [versionDelete, hcall.enabled]
        rfl
      | some vid => exact h.remove hcall.enabled vid freshId nowMs
    | configure value => exact absurd rfl (hcall.op value)
  · rw [if_neg hsame]
    have htouches : s.Touches ns' key' (s.versionStep ns' key' op) := by
      cases op with
      | put kappa etag freshId nowMs => exact s.touches_versionPut ns' key' kappa etag freshId nowMs
      | delete vid freshId nowMs => exact s.touches_versionDelete ns' key' vid freshId nowMs
      | configure value => exact absurd rfl (hcall.op value)
    refine ⟨?_, fun e he => (h.time e he).trans_le hlater, h.newestFirst⟩
    rw [htouches.versionRows_eq hcall.ns hcall.key hns hkey hsame, h.rows]

omit h in
theorem blobSize_step {call : VersionCall} (hcall : s.InOrder clock call) :
    (s.versionStep call.ns call.key call.op).blobSize = s.blobSize := by
  obtain ⟨ns, key, op⟩ := call
  funext kappa
  unfold blobSize versionStep
  cases op with
  | put label etag freshId nowMs => rw [(s.versionPut_blobs ns key label etag freshId nowMs).2]
  | delete vid freshId nowMs => rw [(s.versionDelete_blobs ns key vid freshId nowMs).2]
  | configure value => exact absurd rfl (hcall.op value)

theorem Lists.run (hns : NulFree ns) (hkey : NulFree key)
    (calls : List VersionCall) (hcalls : s.InOrderRun clock calls) :
    ∃ clock', (s.runCalls calls).Lists ns key (history s.blobSize ns key entries calls) clock' := by
  induction calls generalizing s entries clock with
  | nil => exact ⟨clock, h⟩
  | cons call calls ih =>
    have hrest := ih (h.step hns hkey hcalls.1) hcalls.2
    rwa [blobSize_step hcalls.1] at hrest

end

/-- **Version listing is exact**: from a store without versions, in a run in enabled mode. -/
theorem versionList_exact {s : VersionStore} (hempty : s.versions = ∅) (calls : List VersionCall)
    (hcalls : s.InOrderRun 0 calls) {ns key : String} (hns : NulFree ns) (hkey : NulFree key)
    (hstate : (s.runCalls calls).versioningState ns = .enabled) (max : ℕ) :
    (s.runCalls calls).versionList ns key max = (history s.blobSize ns key [] calls).take max ∧
      (history s.blobSize ns key [] calls).Pairwise fun a b => b.timestampMs < a.timestampMs := by
  have hstart : s.Lists ns key [] 0 := by
    refine ⟨?_, by simp, by simp⟩
    rw [versionRows, hempty]
    rfl
  obtain ⟨clock', h⟩ := hstart.run hns hkey calls hcalls
  refine ⟨?_, h.newestFirst⟩
  rw [versionList, hstate]
  dsimp only
  rw [h.rows, ← List.map_take, List.map_map]
  exact List.map_id _

/-- A store that keeps versions in one namespace. -/
def versionedStore : VersionStore := (new false).tagSet "n" configTag "enabled"

/-- Two puts, one of another key, a deletion, and the removal of the first version. -/
def versionCalls : List VersionCall :=
  [⟨"n", "k", .put "a" none "v" 5⟩, ⟨"n", "k", .put "b" (some "e") "w" 6⟩,
    ⟨"n", "l", .put "c" none "x" 7⟩, ⟨"n", "k", .delete none "m" 8⟩, ⟨"n", "k", .delete (some "v") "" 9⟩]

theorem versionList_exact_removed :
    (versionedStore.runCalls versionCalls).versionList "n" "k" 5 =
      [⟨"m", none, true, 8, 0, none⟩, ⟨"w", some "b", false, 6, 0, some "e"⟩] := by
  have hcalls : versionedStore.InOrderRun 0 versionCalls := by
    have hcall : ∀ (s : VersionStore) (clock : ℕ) (call : VersionCall), NulFree call.ns → NulFree call.key →
        s.versioningState call.ns = .enabled → (∀ value, call.op ≠ .configure value) →
        (call.op.time.all fun now => clock ≤ now ∧ now ≤ u64Max) = true → s.InOrder clock call := by
      intro s clock call hns hkey hstate hop htime
      refine ⟨hns, hkey, hstate, hop, fun now hnow => ?_⟩
      simpa [Option.mem_def.mp hnow] using htime
    refine ⟨?_, ?_, ?_, ?_, ?_, trivial⟩ <;>
      exact hcall _ _ _ (by decide) (by decide) (by decide +kernel) nofun (by decide +kernel)
  exact (versionList_exact rfl versionCalls hcalls (by decide) (by decide)
    (by decide +kernel) 5).1.trans (by decide +kernel)

end VersionStore

end KappaRegistry
