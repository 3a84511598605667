import KappaRegistry.S3.Effects
import KappaRegistry.Store.ContentAddressing

/-!
# Reading What Was Written

For one key of one bucket, the object that should be read after a run of handler calls is what the last
successful put, completion or copy wrote, unless it was deleted since (`Call.written`). Puts and
deletions go to the version rows and to the tag, but completions, copies and batch deletions to the
tag alone, which a bucket that keeps versions does not read.

**`getObject_lastWritten`**: the two agree along every run of `Orderly` calls. In a bucket without
versions a call is orderly if its label does not already stand for other content, and a body is within
the limit. In one with
versions the clock must not be behind the newest row, no version may be removed by its identifier,
and a completion, a copy or a batch deletion must not change what should be read.
-/

namespace KappaRegistry.S3

open Lib PersistentStore SessionStore VersionStore

/-! ## Calls -/

/-- A call of a handler. The namespace of a bucket has the bucket's name. -/
inductive Call where
  | put (bucket key : String) (headers : PutHeaders) (body : Bytes)
  | complete (bucket key uploadId body : String) (contentType : Option String)
  | copy (bucket key source : String)
  | delete (bucket key : String) (versionId : Option String)
  | deleteObjects (bucket body : String)
  | initiate (bucket : String) (maxBlobSize : ℕ)
  | part (uploadId : String) (frames : List Bytes)
  | abort (uploadId : String)

namespace Call

variable (lib : Libs)

/-- Whether a call succeeds, and the store that it leaves. -/
def run (s : SessionStore) (draws : Draws) : Call → Bool × SessionStore
  | .put bucket key headers body =>
    (putObject lib s bucket bucket key headers body draws).map Except.isOk id
  | .complete bucket key uploadId body contentType =>
    (completeMultipart lib s bucket key uploadId body contentType draws).map Except.isOk id
  | .copy bucket key source => (copyObject s bucket key source draws).map Except.isOk id
  | .delete bucket key versionId => (true, (deleteObject s bucket key versionId draws).2)
  | .deleteObjects bucket body => (true, (S3.deleteObjects s bucket body).2)
  | .initiate bucket maxBlobSize => (true, (initiateMultipart s bucket maxBlobSize draws).2)
  | .part uploadId frames => (uploadPart lib s uploadId frames draws).map Except.isOk id
  | .abort uploadId => (true, abortMultipart s uploadId)

/-- What a copy writes: the content of the label that its source is bound to. -/
def copied (s : SessionStore) (source : String) : Option Bytes :=
  (copySource s source).toOption.bind fun entry => (s.blobGet lib.cfg entry.kappa).toOption

/-- The content that should be read for a key after a call on a store, which succeeded or not. -/
def written (b k : String) (s : SessionStore) (ok : Bool) (old : Option Bytes) : Call → Option Bytes
  | .put bucket key _ body => if ok ∧ bucket = b ∧ key = k then some body else old
  | .complete bucket key uploadId _ _ =>
    if ok ∧ bucket = b ∧ key = k then s.uploads[uploadId]?.map UploadSession.staged else old
  | .copy bucket key source => if ok ∧ bucket = b ∧ key = k then copied lib s source else old
  | .delete bucket key _ => if bucket = b ∧ key = k then none else old
  | .deleteObjects bucket body => if bucket = b ∧ k ∈ keysToDelete body then none else old
  | .initiate .. | .part .. | .abort _ => old

end Call

section

variable (lib : Libs) (s : SessionStore)

def runCalls (calls : List (Call × Draws)) : SessionStore :=
  calls.foldl (fun s call => (call.1.run lib s call.2).2) s

/-- The content that should be read for a key after a run. -/
def lastWritten (b k : String) : SessionStore → Option Bytes → List (Call × Draws) → Option Bytes
  | _, old, [] => old
  | s, old, (call, draws) :: calls =>
    lastWritten b k (call.run lib s draws).2
      (call.written lib b k s (call.run lib s draws).1 old) calls

/-- What `get_object` returns without a version: the content, or the error. -/
def returned (b k : String) : Except S3Error Bytes :=
  ((getObject lib s b k none).map GetAnswer.content).mapError Missing.error

/-- The answer for an object, or for a key without one. -/
def expected : Option Bytes → Except S3Error Bytes
  | some content => .ok content
  | none => .error ⟨404, "NoSuchKey", "The specified key does not exist."⟩

/-- A key shows an object that can be read, or shows none. -/
def Shows (b k : String) (object : Option Bytes) : Prop :=
  (s.objects.currentLabel b k).map (s.blobGet lib.cfg) = object.map Except.ok
  deriving Decidable

/-- No other content is stored under the label of the content. -/
def Fits (content : Bytes) : Prop :=
  ∀ c ∈ (s.blobGet lib.cfg (kappaFromBytes lib.blobs content)).toOption, c = content
  deriving Decidable

/-- A key has no NUL in its names, and is not the one with the versioning state of a bucket. -/
def Plain (b bucket key : String) : Prop :=
  NulFree bucket ∧ NulFree key ∧ (bucket = b → key ≠ configTag)
  deriving Decidable

namespace Call

/-- The call lets the key show what should be read. -/
def Orderly (b k : String) (s : SessionStore) (draws : Draws) : Call → Prop
  | .put bucket key _ body => Plain b bucket key ∧
      (bucket = b ∧ key = k → body.length ≤ putLimit ∧ Fits lib s body ∧
        (s.objects.versioningState b ≠ .unversioned → s.objects.InTime b k draws.nowMs))
  | .complete bucket key uploadId _ _ => Plain b bucket key ∧ (bucket = b ∧ key = k →
      ∀ session ∈ s.uploads[uploadId]?,
        if s.objects.versioningState b = .unversioned then
          s.objects.tables.store.encrypted = false ∧ Fits lib s session.staged
        else Shows lib s b k (some session.staged))
  | .copy bucket key source => Plain b bucket key ∧ (bucket = b ∧ key = k →
      ∀ entry ∈ (copySource s source).toOption, ∃ content ∈ (s.blobGet lib.cfg entry.kappa).toOption,
        s.objects.versioningState b ≠ .unversioned → Shows lib s b k (some content))
  | .delete bucket key versionId => Plain b bucket key ∧ (bucket = b ∧ key = k →
      s.objects.versioningState b ≠ .unversioned →
        versionId = none ∧ s.objects.InTime b k draws.nowMs)
  | .deleteObjects bucket body => (∀ key ∈ keysToDelete body, Plain b bucket key) ∧
      (bucket = b ∧ k ∈ keysToDelete body →
        s.objects.versioningState b ≠ .unversioned → Shows lib s b k none)
  | .initiate .. | .part .. | .abort _ => True

instance (b k : String) (s : SessionStore) (draws : Draws) (call : Call) :
    Decidable (call.Orderly lib b k s draws) := by
  cases call <;> dsimp only [Orderly] <;> infer_instance

end Call

/-- Every call of a run is orderly where it is made. -/
def OrderlyRun (b k : String) : SessionStore → List (Call × Draws) → Prop
  | _, [] => True
  | s, (call, draws) :: calls =>
    call.Orderly lib b k s draws ∧ OrderlyRun b k (call.run lib s draws).2 calls

instance instDecidableOrderlyRun (b k : String) : (s : SessionStore) →
    (calls : List (Call × Draws)) → Decidable (OrderlyRun lib b k s calls)
  | _, [] => .isTrue trivial
  | s, (call, draws) :: calls =>
    have := instDecidableOrderlyRun b k (call.run lib s draws).2 calls
    inferInstanceAs (Decidable (_ ∧ _))

end

/-! ## What a key shows -/

section

variable {lib : Libs} {s s' : SessionStore} {b k : String} {draws : Draws} {old : Option Bytes}

theorem shows_none : Shows lib s b k none ↔ s.objects.currentLabel b k = none := by
  unfold Shows
  rw [Option.map_none, Option.map_eq_none_iff]

variable {content : Bytes}

theorem shows_some : Shows lib s b k (some content) ↔
    ∃ kappa, s.objects.currentLabel b k = some kappa ∧ s.blobGet lib.cfg kappa = .ok content := by
  unfold Shows
  rw [Option.map_some, Option.map_eq_some_iff]

/-- **What is shown is returned.** -/
theorem Shows.returned_eq (h : Shows lib s b k old) : returned lib s b k = expected old := by
  unfold returned
  cases old with
  | none =>
    obtain ⟨message, hfind⟩ := findObject_of_none (shows_none.mp h)
    rw [getObject_of_notFound hfind]
    rfl
  | some content =>
    obtain ⟨kappa, hlabel, hblob⟩ := shows_some.mp h
    obtain ⟨vid, hfind⟩ := findObject_of_some hlabel
    rw [getObject_of_found hfind hblob]
    rfl

theorem Shows.keep (h : Shows lib s b k old)
    (hlabel : s'.objects.currentLabel b k = s.objects.currentLabel b k)
    (hblobs : ∀ kappa content, s.blobGet lib.cfg kappa = .ok content →
      s'.blobGet lib.cfg kappa = .ok content) : Shows lib s' b k old := by
  cases old with
  | none =>
    rw [shows_none, hlabel]
    exact shows_none.mp h
  | some content =>
    obtain ⟨kappa, hkappa, hblob⟩ := shows_some.mp h
    exact shows_some.mpr ⟨kappa, hlabel.trans hkappa, hblobs kappa content hblob⟩

theorem Shows.of_objects (h : Shows lib s b k old) (hobjects : s'.objects = s.objects) :
    Shows lib s' b k old := by
  unfold Shows SessionStore.blobGet
  rw [hobjects]
  exact h

variable {bucket key : String}

theorem Shows.other (h : Shows lib s b k old) (hb : NulFree b) (hk : NulFree k)
    (hplain : Plain b bucket key) (hne : ¬ (bucket = b ∧ key = k))
    (htouches : s.objects.Touches bucket key s'.objects)
    (hblobs : ∀ kappa content, s.blobGet lib.cfg kappa = .ok content →
      s'.blobGet lib.cfg kappa = .ok content) : Shows lib s' b k old := by
  obtain ⟨hbucket, hkey, hconfig⟩ := hplain
  exact h.keep (htouches.currentLabel_eq hbucket hkey hb hk hne
    (htouches.versioningState_eq hbucket hb hconfig)) hblobs

theorem fits_iff : Fits lib s content ↔
    ∀ c, s.blobGet lib.cfg (kappaFromBytes lib.blobs content) = .ok c → c = content := by
  unfold Fits
  cases s.blobGet lib.cfg (kappaFromBytes lib.blobs content) with
  | error e | ok c => simp [Except.toOption]

theorem blobGet_own {puts : List (String × Bytes)}
    (hadds : Adds lib.cfg ((kappaFromBytes lib.blobs content, content) :: puts) s s')
    (hfits : Fits lib s content) :
    s'.blobGet lib.cfg (kappaFromBytes lib.blobs content) = .ok content := by
  obtain ⟨key, hkey⟩ := s.objects.exists_blobKey lib.cfg.blobRoot (lib.blobs.hashes.label .sha256 content)
  exact hadds.blobGet_first hkey (fits_iff.mp hfits)

/-! ## One call -/

/-- After the call the key shows what should be read. -/
def Call.ShowsWritten (call : Call) (lib : Libs) (b k : String) (s : SessionStore) (draws : Draws)
    (old : Option Bytes) : Prop :=
  Shows lib (call.run lib s draws).2 b k (call.written lib b k s (call.run lib s draws).1 old)

section

variable (hb : NulFree b)
include hb

section

variable (hk : NulFree k) (h : Shows lib s b k old)
include hk h

theorem shows_put {headers : PutHeaders} {body : Bytes}
    (ho : (Call.put bucket key headers body).Orderly lib b k s draws) :
    (Call.put bucket key headers body).ShowsWritten lib b k s draws old := by
  obtain ⟨hplain, hsame⟩ := ho
  unfold Call.ShowsWritten
  obtain ⟨content, hbody⟩ : ∃ content, bodyBytes putLimit body = content := ⟨_, rfl⟩
  cases hcheck : checkPut lib s bucket headers content with
  | error e =>
    have hrun : (Call.put bucket key headers body).run lib s draws = (false, s) := by
      rw [Call.run, putObject_of_error hbody hcheck]
      rfl
    rw [hrun]
    exact h
  | ok _ =>
    obtain ⟨s₁, answer, hadds, hput⟩ := putObject_of_ok hbody hcheck bucket key draws
    have hrun : (Call.put bucket key headers body).run lib s draws =
        (true, afterPut lib s₁ bucket key headers content draws) := by
      rw [Call.run, hput]
      rfl
    rw [hrun, Call.written]
    simp only [true_and]
    have hblobs : ∀ kappa c, s₁.blobGet lib.cfg kappa = .ok c →
        (afterPut lib s₁ bucket key headers content draws).blobGet lib.cfg kappa = .ok c := by
      intro kappa c hget
      exact (blobGet_versionPut _ _ _ _ _ _ _ _ _).trans hget
    split_ifs with heq
    · obtain ⟨hlimit, hfits, htime⟩ := hsame heq
      obtain ⟨rfl, rfl⟩ := heq
      obtain rfl : body = content := (if_pos hlimit).symm.trans hbody
      apply shows_some.mpr
      refine ⟨kappaFromBytes lib.blobs body, ?_, hblobs _ _ (blobGet_own hadds hfits)⟩
      apply currentLabel_versionPut (hplain.2.2 rfl)
      intro hversioned
      rw [versioningState_of_adds hadds] at hversioned
      unfold InTime
      rw [versionRows_of_adds hadds]
      exact htime hversioned
    · refine h.other hb hk hplain heq ((touches_of_adds hadds bucket key).trans
        (touches_versionPut _ _ _ _ _ _ _)) ?_
      intro kappa c hget
      exact hblobs kappa c (hadds.blobGet_of_ok hget)

theorem shows_complete_live
    {session : UploadSession} {s₁ : SessionStore} (hplain : Plain b bucket key)
    (hadds : Adds lib.cfg (uploadPuts lib.blobs s session draws.frames) s s₁)
    (hsame : bucket = b ∧ key = k →
      if s.objects.versioningState b = .unversioned then
        s.objects.tables.store.encrypted = false ∧ Fits lib s session.staged
      else Shows lib s b k (some session.staged))
    (hobjects : s'.objects = s₁.objects.tagSet bucket key
      (uploadLabel lib.blobs s session draws.frames)) :
    Shows lib s' b k (if bucket = b ∧ key = k then some session.staged else old) := by
  have hstate : s₁.objects.versioningState b = s.objects.versioningState b :=
    versioningState_of_adds hadds b
  have hblobs : ∀ kappa c, s₁.blobGet lib.cfg kappa = .ok c → s'.blobGet lib.cfg kappa = .ok c := by
    intro kappa c hget
    unfold SessionStore.blobGet
    rw [hobjects]
    exact hget
  by_cases heq : bucket = b ∧ key = k
  · have hshown := hsame heq
    rw [if_pos heq]
    obtain ⟨rfl, rfl⟩ := heq
    have hlabel : s'.objects.currentLabel bucket key =
        if s.objects.versioningState bucket = .unversioned then
          some (uploadLabel lib.blobs s session draws.frames)
        else s.objects.currentLabel bucket key := by
      rw [hobjects, currentLabel_tagSet _ bucket (hplain.2.2 rfl), hstate, currentLabel_of_adds hadds]
    by_cases hversions : s.objects.versioningState bucket = .unversioned
    · rw [if_pos hversions] at hshown hlabel
      obtain ⟨hplainStore, hfits⟩ := hshown
      have hown : uploadLabel lib.blobs s session draws.frames =
          kappaFromBytes lib.blobs session.staged := by
        rw [uploadLabel, hplainStore]
        rfl
      rw [hown] at hlabel
      exact shows_some.mpr ⟨_, hlabel, hblobs _ _ (blobGet_own hadds hfits)⟩
    · rw [if_neg hversions] at hshown hlabel
      refine hshown.keep hlabel ?_
      intro kappa c hget
      exact hblobs kappa c (hadds.blobGet_of_ok hget)
  · rw [if_neg heq]
    refine h.other hb hk hplain heq ?_ ?_
    · rw [hobjects]
      exact (touches_of_adds hadds bucket key).trans (touches_tagSet _ _ _ _)
    · intro kappa c hget
      exact hblobs kappa c (hadds.blobGet_of_ok hget)

theorem shows_complete {uploadId body : String} {contentType : Option String}
    (ho : (Call.complete bucket key uploadId body contentType).Orderly lib b k s draws) :
    (Call.complete bucket key uploadId body contentType).ShowsWritten lib b k s draws old := by
  obtain ⟨hplain, hsame⟩ := ho
  rw [Call.ShowsWritten, Call.run]
  cases hcompleted : completed lib s draws uploadId body with
  | none =>
    obtain ⟨e, s', hobjects, hrun⟩ := completeMultipart_of_none bucket key contentType hcompleted
    rw [hrun]
    exact h.of_objects hobjects
  | some session =>
    obtain ⟨s₁, hadds, hrun⟩ := completeMultipart_of_some bucket key contentType hcompleted
    have hsession : s.uploads[uploadId]? = some session := session_of_completed hcompleted
    rw [hrun, Call.written, hsession]
    show Shows lib _ b k (if true = true ∧ bucket = b ∧ key = k then some session.staged else old)
    simp only [true_and]
    refine shows_complete_live hb hk h hplain hadds ?_ ?_
    · intro heq
      exact hsame heq session hsession
    · simp only [Prod.map_snd, id_eq, putObjectMeta_objects]
      rfl

theorem shows_copy {source : String} (ho : (Call.copy bucket key source).Orderly lib b k s draws) :
    (Call.copy bucket key source).ShowsWritten lib b k s draws old := by
  obtain ⟨hplain, hsame⟩ := ho
  rw [Call.ShowsWritten, Call.run]
  cases hsource : copySource s source with
  | error e =>
    obtain ⟨e', hcopy⟩ := copyObject_of_error hsource bucket key draws
    rw [hcopy]
    exact h
  | ok entry =>
    rw [copyObject_of_ok hsource, Call.written]
    show Shows lib _ b k (if true = true ∧ bucket = b ∧ key = k then Call.copied lib s source else old)
    simp only [true_and]
    split_ifs with heq
    · obtain ⟨content, hcontent, hshown⟩ := hsame heq entry (by rw [hsource]; rfl)
      have hget : s.blobGet lib.cfg entry.kappa = .ok content := toOption_eq_some.mp hcontent
      have hcopied : Call.copied lib s source = some content := by
        rw [Call.copied, hsource]
        exact hcontent
      rw [hcopied]
      obtain ⟨rfl, rfl⟩ := heq
      have hlabel := s.objects.currentLabel_tagSet bucket (hplain.2.2 rfl) entry.kappa
      split_ifs at hlabel with hversions
      · exact shows_some.mpr ⟨entry.kappa, hlabel, hget⟩
      · exact (hshown hversions).keep hlabel fun _ _ hread => hread
    · exact h.other hb hk hplain heq (touches_tagSet _ _ _ _) fun _ _ hread => hread

theorem shows_delete {versionId : Option String}
    (ho : (Call.delete bucket key versionId).Orderly lib b k s draws) :
    (Call.delete bucket key versionId).ShowsWritten lib b k s draws old := by
  obtain ⟨hplain, hsame⟩ := ho
  rw [Call.ShowsWritten, Call.written, Call.run]
  split_ifs with heq
  · have htime := hsame heq
    obtain ⟨rfl, rfl⟩ := heq
    exact shows_none.mpr (currentLabel_versionDelete (hplain.2.2 rfl) htime draws.freshId)
  · refine h.other hb hk hplain heq (touches_versionDelete _ _ _ _ _ _) ?_
    intro kappa c hget
    exact (blobGet_versionDelete _ _ _ _ _ _ _ _).trans hget

end

theorem shows_tagDeletes (hk : NulFree k) {keys : List String}
    (hplain : ∀ key ∈ keys, Plain b bucket key) (h : Shows lib s b k old)
    (hsame : bucket = b ∧ k ∈ keys →
      s.objects.versioningState b ≠ .unversioned → Shows lib s b k none) :
    Shows lib (keys.foldl (fun s key => s.tagDelete bucket key) s) b k
      (if bucket = b ∧ k ∈ keys then none else old) := by
  induction keys generalizing s old with
  | nil =>
    rw [if_neg (by simp)]
    exact h
  | cons key keys ih =>
    have hfirst := hplain key List.mem_cons_self
    have hrest : ∀ key' ∈ keys, Plain b bucket key' := fun key' hkey' =>
      hplain key' (List.mem_cons_of_mem _ hkey')
    have htouches : s.objects.Touches bucket key (s.tagDelete bucket key).objects :=
      touches_tagDelete _ _ _
    have hstate : (s.tagDelete bucket key).objects.versioningState b = s.objects.versioningState b :=
      htouches.versioningState_eq hfirst.1 hb hfirst.2.2
    rw [List.foldl_cons]
    by_cases heq : bucket = b ∧ key = k
    · -- the first key is the one that is looked at
      obtain ⟨rfl, rfl⟩ := heq
      have hnone : Shows lib (s.tagDelete bucket key) bucket key none := by
        have hlabel := s.objects.currentLabel_tagDelete bucket (hfirst.2.2 rfl)
        rw [shows_none]
        refine hlabel.trans ?_
        split_ifs with hversions
        · rfl
        · exact shows_none.mp (hsame ⟨rfl, List.mem_cons_self⟩ hversions)
      have hall := ih hrest hnone fun _ _ => hnone
      rw [if_pos ⟨rfl, List.mem_cons_self⟩]
      rwa [ite_self] at hall
    · have hshown : Shows lib (s.tagDelete bucket key) b k old :=
        h.other hb hk hfirst heq htouches fun _ _ hread => hread
      have hmem : (bucket = b ∧ k ∈ key :: keys) ↔ (bucket = b ∧ k ∈ keys) := by
        rw [List.mem_cons]
        refine ⟨?_, fun hin => ⟨hin.1, .inr hin.2⟩⟩
        intro ⟨hbucket, hin⟩
        rcases hin with rfl | hin
        · exact absurd ⟨hbucket, rfl⟩ heq
        · exact ⟨hbucket, hin⟩
      simp only [hmem]
      apply ih hrest hshown
      intro hin hversions
      rw [hstate] at hversions
      exact (hsame (hmem.mpr hin) hversions).other hb hk hfirst heq htouches fun _ _ hread => hread

/-- **A call that is orderly** shows what should be read. -/
theorem shows_run (hk : NulFree k) (h : Shows lib s b k old) {call : Call}
    (ho : call.Orderly lib b k s draws) : call.ShowsWritten lib b k s draws old := by
  cases call with
  | put bucket key headers body => exact shows_put hb hk h ho
  | complete bucket key uploadId body contentType => exact shows_complete hb hk h ho
  | copy bucket key source => exact shows_copy hb hk h ho
  | delete bucket key versionId => exact shows_delete hb hk h ho
  | deleteObjects bucket body =>
    simp only [Call.ShowsWritten, Call.run, S3.deleteObjects, Call.written]
    exact shows_tagDeletes hb hk ho.1 h ho.2
  | initiate bucket maxBlobSize => exact h
  | part uploadId frames => exact h.of_objects (uploadPart_objects lib s uploadId frames draws)
  | abort uploadId => exact h

end

/-! ## Runs -/

theorem shows_runCalls (hb : NulFree b) (hk : NulFree k) {calls : List (Call × Draws)}
    (h : Shows lib s b k old) (ho : OrderlyRun lib b k s calls) :
    Shows lib (runCalls lib s calls) b k (lastWritten lib b k s old calls) := by
  induction calls generalizing s old with
  | nil => exact h
  | cons call calls ih => exact ih (shows_run hb hk h ho.1) ho.2

end

/-! ## Runs on small buckets -/

def Libs.sample : Libs where
  blobs := .sample
  base64 := .sample
  dates := .sample
  headDate := fun ms => some (toString ms)
  cfg := .sample

/-- What a call reads and draws at a time. -/
def Draws.sample (nowMs : ℕ) : Draws := ⟨nowMs, nowMs, "v" ++ toString nowMs, []⟩

def PutHeaders.none : PutHeaders := ⟨false, Option.none, Option.none, Option.none, Option.none⟩

/-- An encrypted store with a bucket `b` in a versioning state, and an object `j` in it. -/
def bucketStore (state : String) : SessionStore :=
  let objects := (withNamespaces [("b", some "s3")]).tagSet "b" configTag state
  let objects := objects.withStore { objects.tables.store with
    encrypted := true, blobs := objects.tables.store.blobs.insert "x" [8] }
  ⟨(objects.versionPut "b" "j" "x" none "v" 0).2, ∅, ∅⟩

/-- Calls, one millisecond after another. -/
def timed (calls : List Call) : List (Call × Draws) :=
  calls.zipIdx.map fun call => (call.1, .sample (call.2 + 1))

/-- Calls on the key `k` of a bucket with versions, and on others. -/
def orderlyCalls : List Call :=
  [.copy "b" "i" "b/j", .delete "b" "k" none, .put "b" "k" .none [9],
    .deleteObjects "b" "<Key>i</Key><Key>j</Key>"]

/-- An upload of one part that becomes the key `k`. -/
def uploadCalls : List Call :=
  [.initiate "b" 0, .part "v1" [[7]], .complete "b" "k" "v1" "" none]

end KappaRegistry.S3
