import KappaRegistry.Lib.Rollup
import KappaRegistry.Store.Sessions

/-!
# ListObjectsV2

`kappa-module-s3/src/list.rs`. A listing goes through the keys of a bucket with a prefix, in order, and
rolls those that have the delimiter after the prefix up into common prefixes. It stops at `max_keys`
lines; the continuation token is the key that gave the last line.

A token leads on from the *first* key of a common prefix that ends a page, and `is_truncated`
compares the number of lines with the number of keys. So a common prefix with more keys is listed
again on the next page, and a full page with such a prefix claims that there is more.

**`listObjectsV2_pages_iff`**: the pages are exact iff the runs of keys are `Aligned` with
`max_keys`. Without a delimiter they always are.
-/

namespace KappaRegistry

open Lib PersistentStore List

/-- The base-64 codec, which decodes what it encodes. -/
structure Base64 where
  encode : Bytes → String
  decode : String → Option Bytes
  decode_encode : ∀ bytes, decode (encode bytes) = some bytes

/-- How `chrono` writes a time given in milliseconds. -/
structure Dates where
  /-- `epoch_ms_to_iso8601`. -/
  iso8601 : ℕ → String
  /-- `epoch_ms_to_http_date`. -/
  httpDate : ℕ → String

structure ListObjectsV2Request where
  bucket : String
  keyPrefix : Option String
  delimiter : Option String
  maxKeys : ℕ
  continuationToken : Option String
  startAfter : Option String
  encodingType : Option String

/-- A single object entry in a list response. -/
structure ObjectEntry where
  key : String
  lastModified : String
  etag : String
  size : ℕ
  storageClass : String
  deriving DecidableEq

structure ListObjectsV2Response where
  name : String
  keyPrefix : Option String
  delimiter : Option String
  maxKeys : ℕ
  isTruncated : Bool
  contents : List ObjectEntry
  commonPrefixes : List String
  nextContinuationToken : Option String
  keyCount : ℕ
  encodingType : Option String

/-! ## Common prefixes -/

/-- The common prefix that a key is rolled up into: up to the first delimiter after the prefix. -/
def rollup (keyPrefix : String) (delimiter : Option String) (key : String) : Option String := do
  let delim ← delimiter
  let suffix ← stripPrefix key keyPrefix
  let (before, _) ← cutText suffix delim
  return keyPrefix ++ before ++ delim

theorem rollup_eq_some {keyPrefix : String} {delimiter : Option String} {key g : String} :
    rollup keyPrefix delimiter key = some g ↔ ∃ delim suffix before rest,
      delimiter = some delim ∧ stripPrefix key keyPrefix = some suffix ∧
      cutText suffix delim = some (before, rest) ∧ keyPrefix ++ before ++ delim = g := by
  simp only [rollup, Option.bind_eq_bind, Option.bind_eq_some_iff, Option.pure_def, Prod.exists,
    Option.some.injEq]
  constructor
  · intro ⟨delim, hdelim, suffix, hsuffix, before, rest, hcut, hg⟩
    exact ⟨delim, suffix, before, rest, hdelim, hsuffix, hcut, hg⟩
  · intro ⟨delim, suffix, before, rest, hdelim, hsuffix, hcut, hg⟩
    exact ⟨delim, hdelim, suffix, hsuffix, before, rest, hcut, hg⟩

/-- **A key is rolled up into the common prefixes it starts with**, and into no others. -/
theorem rollup_of_startsWith {keyPrefix : String} {delimiter : Option String} {key key' g : String}
    (h : rollup keyPrefix delimiter key = some g) :
    rollup keyPrefix delimiter key' = some g ↔ startsWith key' g = true := by
  obtain ⟨delim, suffix, before, rest, hdelim, -, hcut, rfl⟩ := rollup_eq_some.mp h
  obtain ⟨⟨before', rest'⟩, hchars, heq⟩ := Option.map_eq_some_iff.mp hcut
  cases heq
  obtain ⟨-, hstable⟩ := cutChars_append hchars
  constructor
  · intro h'
    obtain ⟨delim', suffix', before', rest', hdelim', hsuffix', hcut', hg⟩ := rollup_eq_some.mp h'
    simp [hdelim] at hdelim'
    obtain ⟨⟨cs, ds⟩, hchars', heq⟩ := Option.map_eq_some_iff.mp hcut'
    cases heq
    obtain ⟨tail, htail⟩ := (cutChars_append hchars').1
    have hsplit := append_of_cutChars hchars'
    have hkey : key' = keyPrefix ++ suffix' := by
      unfold stripPrefix at hsuffix'
      split at hsuffix'
      · rename_i hstarts
        obtain ⟨t, rfl⟩ := startsWith_iff.mp hstarts
        cases hsuffix'
        simp
      · cases hsuffix'
    rw [← hg, startsWith_iff]
    refine ⟨String.ofList tail, String.ext ?_⟩
    rw [hkey]
    simp [← hsplit, ← htail]
  · intro hstarts
    obtain ⟨t, rfl⟩ := startsWith_iff.mp hstarts
    rw [rollup_eq_some]
    have hrest : delim.toList <+: delim.toList ++ t.toList := prefix_append _ _
    refine ⟨delim, String.ofList before' ++ (delim ++ t), String.ofList before', delim ++ t, hdelim,
      ?_, ?_, rfl⟩
    · have hassoc : keyPrefix ++ String.ofList before' ++ delim ++ t =
          keyPrefix ++ (String.ofList before' ++ (delim ++ t)) := by
        simp [String.append_assoc]
      rw [hassoc, stripPrefix_append]
    · rw [cutText, Option.map_eq_some_iff]
      refine ⟨(before', delim.toList ++ t.toList), ?_, ?_⟩
      · rw [String.toList_append, String.toList_ofList, String.toList_append]
        exact hstable _ hrest
      · show (String.ofList before', String.ofList (delim.toList ++ t.toList)) = _
        rw [← String.toList_append, String.ofList_toList]

/-! ## Listing -/

section

variable (b64 : Base64) (dates : Dates) (cfg : SessionConfig)

def encodeContinuationToken (lastKey : String) : String := b64.encode (textBytes lastKey)

def decodeContinuationToken (token : String) : String := ((b64.decode token).bind fromUtf8).getD ""

@[simp] theorem decode_encodeContinuationToken (key : String) :
    decodeContinuationToken b64 (encodeContinuationToken b64 key) = key := by
  rw [decodeContinuationToken, encodeContinuationToken, b64.decode_encode, Option.bind_some,
    fromUtf8_textBytes]
  rfl

variable (request : ListObjectsV2Request)

/-- The resume position. A continuation token takes precedence over `start_after`. -/
def ListObjectsV2Request.resumeAfter : Option String :=
  match request.continuationToken with
  | some token => some (decodeContinuationToken b64 token)
  | none => request.startAfter

/-- Whether a tag is listed: by its prefix and the resume position. -/
def ListObjectsV2Request.selects (tag : TagEntry) : Bool :=
  startsWith tag.name (request.keyPrefix.getD "") &&
    (request.resumeAfter b64).all fun after => decide (after < tag.name)

def ListObjectsV2Request.rollup (request : ListObjectsV2Request) (tag : TagEntry) : Option String :=
  KappaRegistry.rollup (request.keyPrefix.getD "") request.delimiter tag.name

namespace SessionStore

variable (s : SessionStore) (ns : NamespaceRef) (request : ListObjectsV2Request)

def objectEntry (tag : TagEntry) : ObjectEntry where
  key := tag.name
  lastModified := (((s.metaText tag.kappa "_s3_created_ms").bind fun text =>
    (parseRadix 10 u64Max text).toOption).map dates.iso8601).getD "2026-01-01T00:00:00.000Z"
  etag := (s.metaText tag.kappa "_s3_etag").getD ("\"" ++ tag.kappa ++ "\"")
  size := (s.blobSize cfg tag.kappa).toOption.getD 0
  storageClass := "STANDARD"

/-- `list_objects_v2`. The set of the prefixes seen so far has the members of `common_prefixes`. -/
def listObjectsV2 : Except StoreError ListObjectsV2Response := do
  let allTags ← s.objects.tables.store.tagList ns.asStr
  let filtered := allTags.filter (request.selects b64)
  let page := fillPage request.rollup request.maxKeys filtered .empty
  let isTruncated := decide (request.maxKeys ≤ page.count ∧ page.count < filtered.length)
  return {
    name := request.bucket
    keyPrefix := request.keyPrefix
    delimiter := request.delimiter
    maxKeys := request.maxKeys
    isTruncated
    contents := page.items.map (s.objectEntry dates cfg)
    commonPrefixes := page.groups
    nextContinuationToken :=
      if isTruncated then page.last.map fun tag => encodeContinuationToken b64 tag.name else none
    keyCount := page.count
    encodingType := request.encodingType }

/-- What a client does with a page: it asks for the next one if there is a token. -/
def nextPage : Option (ListObjectsV2Response × Option ListObjectsV2Request) :=
  (s.listObjectsV2 b64 dates cfg ns request).toOption.map fun response =>
    (response, response.nextContinuationToken.map fun token =>
      { request with continuationToken := some token })

/-- The keys that a request is about, those with one common prefix together. -/
def keyRuns : List (Run TagEntry) :=
  runs request.rollup ((s.objects.tables.store.tagEntries ns.asStr).filter (request.selects b64))

end SessionStore

/-- A request with room for all keys of the bucket. -/
def ListObjectsV2Request.unlimited (s : SessionStore) (ns : NamespaceRef) : ListObjectsV2Request :=
  { request with maxKeys := (s.objects.tables.store.tagEntries ns.asStr).length }

/-- The pages hold what one listing holds: the keys in order and each common prefix once, and a page
is truncated iff some key or common prefix has not been returned. -/
structure ListedExactly (all : ListObjectsV2Response) (pages : List ListObjectsV2Response) : Prop where
  contents : (pages.flatMap (·.contents)).map (·.key) = all.contents.map (·.key)
  commonPrefixes : ∀ p ∈ all.commonPrefixes, (pages.flatMap (·.commonPrefixes)).count p = 1
  isTruncated : ∀ before page after, pages = before ++ page :: after →
    (page.isTruncated = true ↔
      (∃ entry ∈ all.contents, entry.key ∉ ((before ++ [page]).flatMap (·.contents)).map (·.key)) ∨
      ∃ p ∈ all.commonPrefixes, p ∉ (before ++ [page]).flatMap (·.commonPrefixes))

end

/-! ## Pages and runs -/

section

variable {b64 : Base64} {dates : Dates} {cfg : SessionConfig} {s : SessionStore} {ns : NamespaceRef}
  {request : ListObjectsV2Request}

/-- The tags of a bucket that a request is about. -/
abbrev selected (b64 : Base64) (s : SessionStore) (ns : NamespaceRef)
    (request : ListObjectsV2Request) : List TagEntry :=
  (s.objects.tables.store.tagEntries ns.asStr).filter (request.selects b64)

theorem pairwise_selected : (selected b64 s ns request).Pairwise fun a b => a.name < b.name :=
  (pairwise_tagEntries _ _).filter _

theorem contiguous_selected : Contiguous request.rollup (selected b64 s ns request) := by
  intro a b c hsub hsome hac
  have hsorted := pairwise_selected.sublist hsub
  simp only [pairwise_cons, mem_cons, not_mem_nil, or_false, forall_eq_or_imp,
    forall_eq] at hsorted
  obtain ⟨⟨hab, -⟩, hbc, -⟩ := hsorted
  obtain ⟨g, hg⟩ := Option.isSome_iff_exists.mp hsome
  rw [hg]
  exact (rollup_of_startsWith hg).mpr (startsWith_of_between ((rollup_of_startsWith hg).mp hg)
    ((rollup_of_startsWith hg).mp (hac.symm.trans hg)) hab hbc)

theorem nodup_selected : (selected b64 s ns request).Nodup := by
  refine pairwise_selected.imp ?_
  intro a b hlt heq
  rw [heq] at hlt
  exact lt_irrefl _ hlt

theorem isRuns_keyRuns : IsRuns request.rollup (s.keyRuns b64 ns request) :=
  isRuns_runs nodup_selected contiguous_selected

def responseOf (b64 : Base64) (dates : Dates) (cfg : SessionConfig) (s : SessionStore)
    (request : ListObjectsV2Request) (page : RunPage TagEntry) : ListObjectsV2Response where
  name := request.bucket
  keyPrefix := request.keyPrefix
  delimiter := request.delimiter
  maxKeys := request.maxKeys
  isTruncated := page.more
  contents := ((lines request.rollup page.shown).filterMap Sum.getLeft?).map (s.objectEntry dates cfg)
  commonPrefixes := (lines request.rollup page.shown).filterMap Sum.getRight?
  nextContinuationToken :=
    if page.more then page.shown.getLast?.map fun b => encodeContinuationToken b64 b.1.name else none
  keyCount := page.shown.length
  encodingType := request.encodingType

/-- **A response shows the first runs.** -/
theorem listObjectsV2_eq {bs : List (Run TagEntry)} (hruns : IsRuns request.rollup bs)
    (hitems : selected b64 s ns request = items bs) :
    s.listObjectsV2 b64 dates cfg ns request = .ok (responseOf b64 dates cfg s request
      ⟨bs.take request.maxKeys,
        decide (request.maxKeys ≤ bs.length ∧ request.maxKeys < (items bs).length)⟩) := by
  have hmore : (request.maxKeys ≤ min request.maxKeys bs.length ∧
      min request.maxKeys bs.length < (items bs).length) ↔
      request.maxKeys ≤ bs.length ∧ request.maxKeys < (items bs).length := by
    omega
  rw [selected] at hitems
  rw [SessionStore.listObjectsV2, tagList_eq]
  show Except.ok _ = Except.ok _
  rw [hitems, fillPage_empty hruns]
  simp only [responseOf, hmore, Option.map_map, length_take]
  rfl

theorem selected_after {tag : TagEntry} (h : tag ∈ selected b64 s ns request) : selected b64 s ns
        { request with continuationToken := some (encodeContinuationToken b64 tag.name) } =
      (selected b64 s ns request).filter fun other => tag.name < other.name := by
  rw [selected, selected, filter_filter]
  apply filter_congr
  intro other _
  have hafter := (Bool.and_eq_true_iff.mp (mem_filter.mp h).2).2
  simp only [ListObjectsV2Request.selects, ListObjectsV2Request.resumeAfter,
    decode_encodeContinuationToken, Option.all_some, Bool.and_comm (decide _), Bool.and_assoc]
  congr 1
  rw [Bool.eq_iff_iff, Bool.and_eq_true_iff, decide_eq_true_eq]
  refine ⟨?_, And.right⟩
  intro hlt
  refine ⟨?_, hlt⟩
  unfold ListObjectsV2Request.resumeAfter at hafter
  split at hafter
  all_goals
    rw [Option.all_eq_true] at hafter ⊢
    intro after heq
    exact decide_eq_true (lt_trans (of_decide_eq_true (hafter after heq)) hlt)

variable (b64 s ns request) in
/-- A later request of the same listing, and the runs of the keys that it is about. -/
def Listing (later : ListObjectsV2Request) (bs : List (Run TagEntry)) : Prop :=
  (∃ token, later = { request with continuationToken := token }) ∧
    IsRuns request.rollup bs ∧ selected b64 s ns later = items bs

/-- **A page and the request after it** follow the runs. -/
theorem nextPage_listing (hmax : 1 ≤ request.maxKeys) (later : ListObjectsV2Request)
    (bs : List (Run TagEntry)) (h : Listing b64 s ns request later bs) :
    ∃ page next next', pageOf request.maxKeys bs = some (page, next') ∧
      s.nextPage b64 dates cfg ns later = some (responseOf b64 dates cfg s request page, next) ∧
      Option.Rel (Listing b64 s ns request) next next' := by
  obtain ⟨⟨token, rfl⟩, hruns, hitems⟩ := h
  have hresponse : s.listObjectsV2 b64 dates cfg ns { request with continuationToken := token } = _ :=
    listObjectsV2_eq hruns hitems
  by_cases hmore : request.maxKeys ≤ bs.length ∧ request.maxKeys < (items bs).length
  · obtain ⟨as, b, htake, hsplit⟩ := items_eq_append_restRuns hmax hmore.1
    refine ⟨_, some { request with
      continuationToken := some (encodeContinuationToken b64 b.1.name) }, _, pageOf_more hmore, ?_, ?_⟩
    · rw [SessionStore.nextPage, hresponse]
      simp only [decide_eq_true hmore, responseOf, htake, if_true, getLast?_concat]
      rfl
    · have hmem : b.1 ∈ selected b64 s ns { request with continuationToken := token } := by
        rw [hitems, hsplit]
        exact mem_append_right _ mem_cons_self
      refine .some ⟨⟨_, rfl⟩, isRuns_restRuns hmax hmore.1 hruns, ?_⟩
      have hsorted : (selected b64 s ns { request with continuationToken := token }).Pairwise
          fun a b => a.name < b.name := pairwise_selected
      rw [hitems, hsplit] at hsorted
      refine (selected_after hmem).trans ?_
      rw [hitems, hsplit]
      exact filter_gt_of_pairwise_lt hsorted
  · refine ⟨_, none, _, pageOf_last hmore, ?_, .none⟩
    rw [SessionStore.nextPage, hresponse]
    simp only [decide_eq_false hmore, responseOf, Bool.false_eq_true, if_false]
    rfl

theorem listing_keyRuns : Listing b64 s ns request request (s.keyRuns b64 ns request) :=
  ⟨⟨request.continuationToken, rfl⟩, isRuns_keyRuns, (items_runs _ _).symm⟩

theorem listObjectsV2_unlimited : s.listObjectsV2 b64 dates cfg ns (request.unlimited s ns) =
      .ok (responseOf b64 dates cfg s (request.unlimited s ns) ⟨s.keyRuns b64 ns request, false⟩) := by
  have hitems : selected b64 s ns (request.unlimited s ns) = items (s.keyRuns b64 ns request) :=
    (items_runs _ _).symm
  have hle : (items (s.keyRuns b64 ns request)).length ≤ (request.unlimited s ns).maxKeys := by
    rw [← hitems]
    exact length_filter_le _ _
  have hruns : IsRuns (request.unlimited s ns).rollup (s.keyRuns b64 ns request) := isRuns_keyRuns
  have hlength := length_le_length_items (s.keyRuns b64 ns request)
  rw [listObjectsV2_eq hruns hitems, take_of_length_le (by omega),
    decide_eq_false (by omega)]

/-! ## When the pages are exact -/

variable {pages : List (RunPage TagEntry)}

theorem keys_responses (pages : List (RunPage TagEntry)) :
    ((pages.map (responseOf b64 dates cfg s request)).flatMap (·.contents)).map (·.key) =
      ((pageLines request.rollup pages).filterMap Sum.getLeft?).map (·.name) := by
  induction pages with
  | nil => rfl
  | cons page pages ih =>
    rw [pageLines_cons, map_cons, flatMap_cons, map_append, ih, filterMap_append,
      map_append, responseOf, map_map]
    rfl

theorem commonPrefixes_responses (pages : List (RunPage TagEntry)) :
    (pages.map (responseOf b64 dates cfg s request)).flatMap (·.commonPrefixes) =
      (pageLines request.rollup pages).filterMap Sum.getRight? := by
  induction pages with
  | nil => rfl
  | cons page pages ih =>
    rw [pageLines_cons, map_cons, flatMap_cons, ih, filterMap_append, responseOf]

theorem eq_of_name_eq {x y : TagEntry} (hx : x ∈ selected b64 s ns request)
    (hy : y ∈ selected b64 s ns request) (h : x.name = y.name) : x = y := by
  have hx := mem_tagEntries.mp (mem_of_mem_filter hx)
  have hy := mem_tagEntries.mp (mem_of_mem_filter hy)
  rw [h, hy] at hx
  injection hx with hrow
  injection hrow with hkappa hversion
  obtain ⟨name, kappa, version⟩ := x
  obtain ⟨name', kappa', version'⟩ := y
  simp_all

theorem exists_missing_iff {bs : List (Run TagEntry)} (hitems : selected b64 s ns request = items bs)
    (hshown : ∀ page ∈ pages, ∀ b ∈ page.shown, b.1 ∈ items bs) :
    (∃ l ∈ lines request.rollup bs, l ∉ pageLines request.rollup pages) ↔
      (∃ tag ∈ (lines request.rollup bs).filterMap Sum.getLeft?,
        tag.name ∉ ((pageLines request.rollup pages).filterMap Sum.getLeft?).map (·.name)) ∨
      ∃ p ∈ (lines request.rollup bs).filterMap Sum.getRight?,
        p ∉ (pageLines request.rollup pages).filterMap Sum.getRight? := by
  have hkey : ∀ tag, Sum.inl tag ∈ lines request.rollup bs →
      (tag.name ∈ ((pageLines request.rollup pages).filterMap Sum.getLeft?).map (·.name) ↔
        Sum.inl tag ∈ pageLines request.rollup pages) := by
    intro tag htag
    refine ⟨?_, fun h => mem_map_of_mem (mem_filterMap_getLeft.mpr h)⟩
    intro h
    obtain ⟨tag', htag', hname⟩ := mem_map.mp h
    rw [mem_filterMap_getLeft] at htag'
    have hmem : tag ∈ items bs := by
      obtain ⟨b, hb, hline⟩ := mem_map.mp htag
      rw [← eq_of_line_eq_inl hline]
      exact mem_flatMap.mpr ⟨b, hb, mem_cons_self⟩
    have hmem' : tag' ∈ items bs := by
      obtain ⟨page, hpage, hline⟩ := mem_flatMap.mp htag'
      obtain ⟨b, hb, hline⟩ := mem_map.mp hline
      rw [← eq_of_line_eq_inl hline]
      exact hshown page hpage b hb
    rw [← hitems] at hmem hmem'
    rwa [eq_of_name_eq hmem hmem' hname.symm]
  constructor
  · intro ⟨l, hl, hnot⟩
    cases l with
    | inl tag => exact .inl ⟨tag, mem_filterMap_getLeft.mpr hl, fun h => hnot ((hkey tag hl).mp h)⟩
    | inr p =>
      exact .inr ⟨p, mem_filterMap_getRight.mpr hl, fun h => hnot (mem_filterMap_getRight.mp h)⟩
  · rintro (⟨tag, htag, hnot⟩ | ⟨p, hp, hnot⟩)
    · rw [mem_filterMap_getLeft] at htag
      exact ⟨_, htag, fun h => hnot ((hkey tag htag).mpr h)⟩
    · rw [mem_filterMap_getRight] at hp
      exact ⟨_, hp, fun h => hnot (mem_filterMap_getRight.mpr h)⟩

theorem isTruncated_iff (b64 : Base64) {all : ListObjectsV2Response} {bs : List (Run TagEntry)}
    (hitems : selected b64 s ns request = items bs)
    (hshown : ∀ page ∈ pages, ∀ b ∈ page.shown, b.1 ∈ items bs) (hcontents : all.contents =
      ((lines request.rollup bs).filterMap Sum.getLeft?).map (s.objectEntry dates cfg))
    (hprefixes : all.commonPrefixes = (lines request.rollup bs).filterMap Sum.getRight?) :
    (∀ before page after, pages.map (responseOf b64 dates cfg s request) = before ++ page :: after →
      (page.isTruncated = true ↔ (∃ entry ∈ all.contents,
          entry.key ∉ ((before ++ [page]).flatMap (·.contents)).map (·.key)) ∨
        ∃ p ∈ all.commonPrefixes, p ∉ (before ++ [page]).flatMap (·.commonPrefixes))) ↔
      MoreIffMissing request.rollup (lines request.rollup bs) pages := by
  have hmissing : ∀ before page, (∀ p ∈ before ++ [page], p ∈ pages) →
      ((∃ entry ∈ all.contents, entry.key ∉
          (((before ++ [page]).map (responseOf b64 dates cfg s request)).flatMap
            (·.contents)).map (·.key)) ∨
        (∃ p ∈ all.commonPrefixes, p ∉
          ((before ++ [page]).map (responseOf b64 dates cfg s request)).flatMap (·.commonPrefixes)) ↔
      ∃ l ∈ lines request.rollup bs, l ∉ pageLines request.rollup (before ++ [page])) := by
    intro before page hsub
    rw [exists_missing_iff hitems fun p hp => hshown p (hsub p hp), keys_responses,
      commonPrefixes_responses, hcontents, hprefixes]
    simp only [mem_map, exists_exists_and_eq_and]
    rfl
  constructor
  · intro h before page after heq
    rw [← hmissing before page (by rw [heq]; simp +contextual [or_imp]), map_append]
    refine h (before.map _) (responseOf b64 dates cfg s request page)
      (after.map (responseOf b64 dates cfg s request)) ?_
    rw [heq, map_append, map_cons]
  · intro h before page after heq
    obtain ⟨before, rest, rfl, rfl, hrest⟩ := map_eq_append_iff.mp heq
    obtain ⟨page, after, rfl, rfl, rfl⟩ := map_eq_cons_iff.mp hrest
    rw [← map_singleton, ← map_append, hmissing before page (by simp +contextual [or_imp])]
    exact h before page after rfl

end

section

variable (b64 : Base64) (dates : Dates) (cfg : SessionConfig) (s : SessionStore) (ns : NamespaceRef)

/-- **The pages of a listing end, and they are exact iff each page ends with a common prefix of one
key or with a key**, and the last page, if it is full, has only such lines. -/
theorem listObjectsV2_pages_iff (request : ListObjectsV2Request) (hmax : 1 ≤ request.maxKeys) :
    ∃ pages all,
      (∃ bound, ∀ fuel ≥ bound, follow (s.nextPage b64 dates cfg ns) fuel request = some pages) ∧
      s.listObjectsV2 b64 dates cfg ns (request.unlimited s ns) = .ok all ∧
      (ListedExactly all pages ↔ Aligned request.maxKeys (s.keyRuns b64 ns request)) := by
  obtain ⟨pages, hpages⟩ := exists_follow_pageOf hmax (s.keyRuns b64 ns request)
  refine ⟨pages.map (responseOf b64 dates cfg s request), _, ?_, listObjectsV2_unlimited, ?_⟩
  · refine ⟨(items (s.keyRuns b64 ns request)).length + 1, ?_⟩
    intro fuel hfuel
    rw [follow_sim (nextPage_listing hmax) listing_keyRuns, follow_mono hpages hfuel]
    rfl
  have hitems : selected b64 s ns request = items (s.keyRuns b64 ns request) := (items_runs _ _).symm
  have htruncated := @isTruncated_iff dates cfg s ns request pages b64
    (responseOf b64 dates cfg s (request.unlimited s ns) ⟨s.keyRuns b64 ns request, false⟩) _
    hitems (fun page hpage b hb => mem_items_of_shown hmax hpages hpage hb) rfl rfl
  constructor
  · intro ⟨_, hprefixes, hmore⟩
    apply aligned_of_pageLines hmax isRuns_keyRuns hpages
    · intro g hg
      rw [← commonPrefixes_responses]
      exact hprefixes g (mem_filterMap_getRight.mpr hg)
    · exact htruncated.mp hmore
  · intro haligned
    obtain ⟨hshown, hmissing⟩ := pageLines_of_aligned hmax isRuns_keyRuns haligned hpages
    refine ⟨?_, ?_, htruncated.mpr hmissing⟩
    · rw [keys_responses, hshown, responseOf, List.map_map]
      rfl
    · intro p hp
      rw [commonPrefixes_responses, hshown]
      exact count_groups_lines isRuns_keyRuns (mem_filterMap_getRight.mp hp)

end

def Base64.sample : Base64 where
  encode := hexEncode
  decode := fun text => (hexDecode text).toOption
  decode_encode := fun bytes => by rw [hexDecode_hexEncode]; rfl

def Dates.sample : Dates := ⟨toString, toString⟩

def SessionConfig.sample : SessionConfig := ⟨"/blobs", none⟩

def bucketNs : NamespaceRef := .withName 1 "bucket"

def keysStore (keys : List String) : SessionStore :=
  keys.foldl (fun s key => s.tagSet bucketNs.asStr key "sha256:aaa") (.new false)

/-- A request for pages of one line, with the delimiter `/`. -/
def oneLine : ListObjectsV2Request where
  bucket := "bucket"
  keyPrefix := none
  delimiter := some "/"
  maxKeys := 1
  continuationToken := none
  startAfter := none
  encodingType := none

theorem listObjectsV2_pages_two_prefixes :
    ∃ pages all,
      (∃ bound, ∀ fuel ≥ bound, follow ((keysStore ["a/1", "b/1"]).nextPage .sample .sample .sample
        bucketNs) fuel oneLine = some pages) ∧
      (keysStore ["a/1", "b/1"]).listObjectsV2 .sample .sample .sample bucketNs
        (oneLine.unlimited (keysStore ["a/1", "b/1"]) bucketNs) = .ok all ∧
      ListedExactly all pages := by
  obtain ⟨pages, all, hpages, hall, hiff⟩ := listObjectsV2_pages_iff .sample .sample .sample
    (keysStore ["a/1", "b/1"]) bucketNs oneLine (by decide)
  exact ⟨pages, all, hpages, hall, hiff.mpr (by decide +kernel)⟩

/-- Two keys with one common prefix, in pages of one line: the prefix is on both pages, and the
first page is truncated though nothing is missing. -/
theorem listObjectsV2_repeats_prefix :
    let s := keysStore ["a/1", "a/2"]
    ∃ pages all, follow (s.nextPage .sample .sample .sample bucketNs) 2 oneLine = some pages ∧
      s.listObjectsV2 .sample .sample .sample bucketNs (oneLine.unlimited s bucketNs) = .ok all ∧
      pages.map (fun page => (page.commonPrefixes, page.isTruncated)) =
        [(["a/"], true), (["a/"], false)] ∧
      all.commonPrefixes = ["a/"] ∧ ¬ ListedExactly all pages := by
  intro s
  have hpages : (follow (s.nextPage .sample .sample .sample bucketNs) 2 oneLine).map (List.map fun page => (page.commonPrefixes, page.isTruncated)) =
      some [(["a/"], true), (["a/"], false)] := by
    decide +kernel
  have hall : (s.listObjectsV2 .sample .sample .sample bucketNs
      (oneLine.unlimited s bucketNs)).map (·.commonPrefixes) = .ok ["a/"] := by
    decide +kernel
  obtain ⟨pages, hfollow, hshown⟩ := Option.map_eq_some_iff.mp hpages
  obtain ⟨all, hlist, hprefixes⟩ := map_eq_ok.mp hall
  refine ⟨pages, all, hfollow, hlist, hshown, hprefixes, ?_⟩
  intro hexact
  have hcount := hexact.commonPrefixes "a/" (by rw [hprefixes]; exact List.mem_cons_self)
  have hflat : pages.flatMap (·.commonPrefixes) = (pages.map fun page =>
      (page.commonPrefixes, page.isTruncated)).flatMap Prod.fst := by
    rw [List.flatMap_map]
  rw [hflat, hshown] at hcount
  revert hcount
  decide

end KappaRegistry
