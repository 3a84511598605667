import KappaRegistry.Atproto.RepoAuth
import KappaRegistry.Json.Text
import KappaRegistry.Lib.Pages
import KappaRegistry.Store.Namespaces

/-!
# Listing the Records of a Collection

`list_records` of `kappa-module-atproto/src/xrpc.rs`. The records of a collection are the tags
`record/{collection}/{rkey}`, in order. A request with a cursor skips all tags up to the first one that
ends with the cursor, which need not be the one whose key it is: **`listRecords_resumes_iff`** says when
the page is the right one, and when a client who goes on with the last key of each page sees every record
once.
-/

namespace KappaRegistry.Atproto

open Lib PersistentStore List

/-- The value of a query parameter, as it stands in the query. -/
def queryParam (query : Option String) (key : String) : Option String :=
  query.bind fun q => (splitText '&' q).findSome? fun pair =>
    (splitOnceText '=' pair).bind fun kv => if kv.1 = key then some kv.2 else none

structure RecordView where
  uri : String
  cid : String
  value : Json

def recordPrefix (collection : String) : String := "record/" ++ collection ++ "/"

def uriPrefix (repo collection : String) : String := "at://" ++ repo ++ "/" ++ collection ++ "/"

variable (serde : SerdeJson) (s : PersistentStore)

def recordView (repo collection : String) (tag : TagEntry) : RecordView where
  uri := uriPrefix repo collection ++ (stripPrefix tag.name (recordPrefix collection)).getD tag.name
  cid := tag.kappa
  value := ((s.blobGet tag.kappa).toOption.bind serde.fromSlice).getD .null

/-- The loop over the tags, with the flag `skipping` and the records so far. -/
def listLoop (cursor : Option String) (limit : ℕ) (view : TagEntry → RecordView) :
    Bool → List RecordView → List TagEntry → List RecordView
  | _, records, [] => records
  | true, records, tag :: tags =>
    listLoop cursor limit view (!cursor.any (endsWith tag.name)) records tags
  | false, records, tag :: tags =>
    if limit ≤ records.length then records
    else listLoop cursor limit view false (records ++ [view tag]) tags

def pageLimit (query : Option String) : ℕ :=
  ((queryParam query "limit").bind fun text => (parseRadix 10 u64Max text).toOption).getD 50

def listRecords (query : Option String) : Except XrpcError (List RecordView) := do
  let repo ← need (queryParam query "repo") ⟨400, "InvalidRequest", "missing repo parameter"⟩
  let collection ← need (queryParam query "collection")
    ⟨400, "InvalidRequest", "missing collection parameter"⟩
  let cursor := queryParam query "cursor"
  let tags ← (do
    let ns ← s.namespaceResolve repo (some "atproto")
    s.tagPrefix ns.asStr (recordPrefix collection)).mapError
      fun _ => ⟨500, "InternalServerError", "list records failed"⟩
  return listLoop cursor (pageLimit query) (recordView serde s repo collection) cursor.isSome [] tags

/-- The first records whose key is greater than the cursor. -/
def recordsAfter (repo collection cursor : String) (limit : ℕ) (tags : List TagEntry) : List RecordView :=
  ((tags.filter fun t => decide (recordPrefix collection ++ cursor < t.name)).take limit).map
    (recordView serde s repo collection)

/-- The query asks for a page of a collection, after a cursor if there is one. -/
structure Asks (query : Option String) (repo collection : String) (limit : ℕ) (cursor : Option String) :
    Prop where
  repo : queryParam query "repo" = some repo
  collection : queryParam query "collection" = some collection
  limit : pageLimit query = limit
  cursor : queryParam query "cursor" = cursor

/-- The page for a cursor, and the key of its last record, with which a client goes on. -/
def nextPage (queryOf : Option String → Option String) (repo collection : String)
    (cursor : Option String) : Option (List RecordView × Option (Option String)) :=
  (listRecords serde s (queryOf cursor)).toOption.map fun page => (page, page.getLast?.map
    fun record => stripPrefix record.uri (uriPrefix repo collection))

/-- The cursor of a client who has seen the first `n` records. -/
def cursorAt (collection : String) (tags : List TagEntry) (n : ℕ) : Option String :=
  (tags.take n).getLast?.bind fun t => stripPrefix t.name (recordPrefix collection)

/-- The number of tags that the loop skips. -/
def pageStart (tags : List TagEntry) : Option String → ℕ
  | none => 0
  | some c => tags.findIdx (fun t => endsWith t.name c) + 1

/-- The first tag that ends with the cursor is the one it names. -/
abbrev Resumes (collection : String) (tags : List TagEntry) (cursor : String) : Prop :=
  (tags.find? fun t => endsWith t.name cursor).map TagEntry.name =
    some (recordPrefix collection ++ cursor)

variable {serde s} {cursor : Option String} {limit : ℕ} {view : TagEntry → RecordView}

theorem listLoop_take (records : List RecordView) (tags : List TagEntry) :
    listLoop cursor limit view false records tags =
      records ++ (tags.take (limit - records.length)).map view := by
  induction tags generalizing records with
  | nil => simp [listLoop]
  | cons tag tags ih =>
    rw [listLoop]
    split_ifs with hfull
    · simp [Nat.sub_eq_zero_of_le hfull]
    · obtain ⟨n, hn⟩ : ∃ n, limit - records.length = n + 1 := ⟨limit - records.length - 1, by omega⟩
      have hrest : limit - (records ++ [view tag]).length = n := by
        rw [length_append, length_singleton]
        omega
      rw [ih, hrest, hn, take_succ_cons, map_cons, append_assoc]
      rfl

theorem listLoop_eq (tags : List TagEntry) : listLoop cursor limit view cursor.isSome [] tags =
    ((tags.map view).drop (pageStart tags cursor)).take limit := by
  rw [← map_drop, ← map_take]
  cases cursor with
  | none => exact listLoop_take [] tags
  | some c =>
    induction tags with
    | nil => simp [listLoop]
    | cons t tags ih =>
      rw [Option.isSome_some, listLoop, Option.any_some, pageStart, findIdx_cons]
      cases endsWith t.name c with
      | false => exact ih
      | true => exact listLoop_take [] tags

variable {ns p : String} {tags : List TagEntry}

theorem tagPrefix_spec (h : s.tagPrefix ns p = .ok tags) :
    (tags.Pairwise fun a b => a.name < b.name) ∧ ∀ t ∈ tags, ∃ rkey, t.name = p ++ rkey := by
  by_cases hutf8 : successorIsUtf8 (dbKey ns p) = true
  · rw [tagPrefix_eq hutf8] at h
    cases h
    exact ⟨(pairwise_tagEntries s ns).filter _,
      fun t ht => startsWith_iff.mp (mem_filter.mp ht).2⟩
  · simp [tagPrefix, if_neg hutf8] at h

variable {query : Option String} {repo collection : String} {ns : NamespaceRef}

theorem recordView_uri {tag : TagEntry} {rkey : String} (h : tag.name = recordPrefix collection ++ rkey) :
    (recordView serde s repo collection tag).uri = uriPrefix repo collection ++ rkey := by
  rw [recordView, h, stripPrefix_append]
  rfl

section

variable (htags : s.tagPrefix ns.asStr (recordPrefix collection) = .ok tags)
include htags

theorem listRecords_eq (hns : s.namespaceResolve repo (some "atproto") = .ok ns)
    (h : Asks query repo collection limit cursor) : listRecords serde s query =
      .ok (((tags.map (recordView serde s repo collection)).drop (pageStart tags cursor)).take limit) := by
  rw [← listLoop_eq]
  simp [listRecords, h.repo, h.collection, h.cursor, h.limit, hns, htags, need, Except.mapError, bind,
    Except.bind]

theorem nodup_views : (tags.map (recordView serde s repo collection)).Nodup := by
  obtain ⟨hsorted, hnames⟩ := tagPrefix_spec htags
  rw [Nodup, pairwise_map]
  refine hsorted.imp_of_mem ?_
  intro a b ha hb hlt heq
  obtain ⟨ra, hra⟩ := hnames a ha
  obtain ⟨rb, hrb⟩ := hnames b hb
  have huri := congrArg RecordView.uri heq
  rw [recordView_uri hra, recordView_uri hrb, String.append_right_inj] at huri
  rw [hra, hrb, huri] at hlt
  exact lt_irrefl _ hlt

/-- The loop skips at most the tags up to the cursor's own, and all of them iff the cursor
`Resumes`. -/
theorem pageStart_spec {before after : List TagEntry} {own : TagEntry} {c : String}
    (hsplit : before ++ own :: after = tags) (hown : own.name = recordPrefix collection ++ c) :
    pageStart tags (some c) ≤ before.length + 1 ∧
      (pageStart tags (some c) = before.length + 1 ↔ Resumes collection tags c) := by
  have hget : tags[before.length]? = some own := by rw [← hsplit]; simp
  obtain ⟨hlt, hget'⟩ := List.getElem?_eq_some_iff.mp hget
  have hends : endsWith own.name c = true := by
    rw [hown, endsWith, List.isSuffixOf_iff_suffix, String.toList_append]
    exact suffix_append _ _
  have hle : tags.findIdx (fun t => endsWith t.name c) ≤ before.length := by
    by_contra hnot
    have hfalse := not_of_lt_findIdx (Nat.lt_of_not_le hnot)
    rw [hget', hends] at hfalse
    cases hfalse
  have hnodup : (tags.map TagEntry.name).Nodup := by
    rw [Nodup, pairwise_map]
    exact (tagPrefix_spec htags).1.imp ne_of_lt
  refine ⟨Nat.succ_le_succ hle, ?_⟩
  rw [Resumes, find?_eq_getElem?_findIdx, ← hown, ← Option.map_some, ← hget, ← getElem?_map,
    ← getElem?_map, getElem?_inj (by rw [length_map]; omega) hnodup, pageStart, Nat.add_right_cancel_iff]

theorem cursorAt_spec (n : ℕ) : pageStart tags (cursorAt collection tags n) ≤ min n tags.length ∧
    (pageStart tags (cursorAt collection tags n) = min n tags.length ↔
      ∀ c ∈ cursorAt collection tags n, Resumes collection tags c) ∧
    ∀ c ∈ cursorAt collection tags n, ∃ t ∈ tags, t.name = recordPrefix collection ++ c := by
  rw [← length_take, cursorAt]
  cases hlast : (tags.take n).getLast? with
  | none =>
    rw [getLast?_eq_none_iff.mp hlast]
    exact ⟨le_rfl, iff_of_true rfl nofun, nofun⟩
  | some own =>
    obtain ⟨before, hbefore⟩ := getLast?_eq_some_iff.mp hlast
    have hsplit : before ++ own :: tags.drop n = tags := by
      simpa [hbefore] using take_append_drop n tags
    have hmem : own ∈ tags := mem_of_mem_take (mem_of_getLast? hlast)
    obtain ⟨c, hc⟩ := (tagPrefix_spec htags).2 own hmem
    rw [hbefore, length_append, length_singleton, Option.bind_some, hc, stripPrefix_append]
    obtain ⟨hle, hiff⟩ := pageStart_spec htags hsplit hc
    refine ⟨hle, by simpa using hiff, ?_⟩
    rintro _ ⟨⟩
    exact ⟨own, hmem, hc⟩

theorem getLast_page {n : ℕ} (hlimit : 1 ≤ limit) :
    (((tags.map (recordView serde s repo collection)).drop n).take limit).getLast?.map
        (fun record => stripPrefix record.uri (uriPrefix repo collection)) =
      if tags.length ≤ n then none else some (cursorAt collection tags (n + limit)) := by
  rw [take_drop, getLast?_drop, ← map_take, length_map, length_take, cursorAt, getLast?_map]
  by_cases hle : tags.length ≤ n
  · rw [if_pos hle, if_pos (by omega)]
    rfl
  · rw [if_neg hle, if_neg (by omega)]
    cases hlast : (tags.take (n + limit)).getLast? with
    | none =>
      have := congrArg length (getLast?_eq_none_iff.mp hlast)
      rw [length_take, length_nil] at this
      omega
    | some own =>
      obtain ⟨c, hc⟩ := (tagPrefix_spec htags).2 own (mem_of_mem_take (mem_of_getLast? hlast))
      simp only [Option.map_some, Option.bind_some, recordView_uri hc, hc, stripPrefix_append]

end

/-- **The page goes on after the cursor iff the first tag that ends with it is the one it names**, and
the pages of a client who follows the last key of each are the records of the collection iff this
holds for each cursor on the way. -/
theorem listRecords_resumes_iff (hns : s.namespaceResolve repo (some "atproto") = .ok ns)
    (htags : s.tagPrefix ns.asStr (recordPrefix collection) = .ok tags) :
    (∀ query limit cursor, Asks query repo collection limit (some cursor) → 1 ≤ limit →
      (∃ t ∈ tags, t.name = recordPrefix collection ++ cursor) →
      (listRecords serde s query = .ok (recordsAfter serde s repo collection cursor limit tags) ↔
        Resumes collection tags cursor)) ∧
    ∀ (queryOf : Option String → Option String) (limit : ℕ), 1 ≤ limit →
      (∀ cursor, (∀ c ∈ cursor, ∃ t ∈ tags, t.name = recordPrefix collection ++ c) →
        Asks (queryOf cursor) repo collection limit cursor) →
      ((∃ fuel pages, follow (nextPage serde s queryOf repo collection) fuel none = some pages ∧
          pages.flatten = tags.map (recordView serde s repo collection)) ↔
        ∀ k, ∀ c ∈ cursorAt collection tags (k * limit), Resumes collection tags c) := by
  have hnodup : (tags.map (recordView serde s repo collection)).Nodup := nodup_views htags
  constructor
  · intro query limit cursor hasks hlimit ⟨own, hmem, hown⟩
    obtain ⟨before, after, rfl⟩ := append_of_mem hmem
    obtain ⟨hle, hiff⟩ := pageStart_spec htags rfl hown
    have hafter : recordsAfter serde s repo collection cursor limit (before ++ own :: after) =
        (((before ++ own :: after).map (recordView serde s repo collection)).drop
          (before.length + 1)).take limit := by
      rw [recordsAfter, ← hown, filter_gt_of_pairwise_lt (tagPrefix_spec htags).1, map_take, ← map_drop,
        ← drop_drop, drop_left]
      rfl
    rw [listRecords_eq htags hns hasks, hafter, Except.ok.injEq, ← hiff]
    constructor
    · intro heq
      have hlen : before.length + 1 ≤
          ((before ++ own :: after).map (recordView serde s repo collection)).length := by simp
      have hstart := start_of_append hnodup hlimit (Nat.le_min.mpr ⟨hle, hle.trans hlen⟩)
        ((congrArg (· ++ _) heq).trans (take_append_drop limit _))
      rwa [Nat.min_eq_left hlen] at hstart
    · intro heq
      rw [heq]
  · intro queryOf limit hlimit hasks
    refine (@follow_flatten_iff _ _ _ limit hnodup hlimit (nextPage serde s queryOf repo collection)
      (cursorAt collection tags) (pageStart tags) ?_ ?_ ?_ 0).trans (forall_congr' fun k => ?_)
    · intro n
      rw [length_map]
      exact (cursorAt_spec htags n).1
    · intro n hn
      rw [length_map] at hn ⊢
      rw [cursorAt, cursorAt, take_of_length_le hn, take_length]
    · intro n
      rw [nextPage, listRecords_eq htags hns (hasks _ (cursorAt_spec htags n).2.2), length_map,
        ← getLast_page htags hlimit]
      rfl
    · rw [Nat.zero_add, length_map]
      exact (cursorAt_spec htags _).2.1

def listing (rkeys : List String) : PersistentStore :=
  let s := PersistentStore.new false
  rkeys.foldl (fun s rkey => s.tagSet "d" ("record/c/" ++ rkey) "x")
    { s with namespaceAliases := s.namespaceAliases.insert (aliasKey "d" (some "atproto")) default }

/-- Two pages of one record, and the empty one. -/
theorem listRecords_resumes_listing :
    let s := listing ["a", "b"]
    let queryOf (cursor : Option String) :=
      some ("repo=d&collection=c&limit=1" ++ cursor.elim "" ("&cursor=" ++ ·))
    let tags : List TagEntry := [⟨"record/c/a", "x", 1⟩, ⟨"record/c/b", "x", 1⟩]
    listRecords .text s (queryOf (some "a")) = .ok (recordsAfter .text s "d" "c" "a" 1 tags) ∧
      ∃ fuel pages, follow (nextPage .text s queryOf "d" "c") fuel none = some pages ∧
        pages.flatten = tags.map (recordView .text s "d" "c") := by
  intro s queryOf tags
  have hasks : ∀ cursor, (∀ c ∈ cursor, ∃ t ∈ tags, t.name = recordPrefix "c" ++ c) →
      Asks (queryOf cursor) "d" "c" 1 cursor := by
    intro cursor hcursor
    have hmem : cursor ∈ [none, some "a", some "b"] := by
      cases cursor with
      | none => simp
      | some c =>
        have hall : ∀ t ∈ tags, stripPrefix t.name (recordPrefix "c") ∈ [none, some "a", some "b"] := by
          decide +kernel
        obtain ⟨t, ht, hc⟩ := hcursor c rfl
        have hmem := hall t ht
        rwa [hc, stripPrefix_append] at hmem
    simp only [mem_cons, not_mem_nil, or_false] at hmem
    rcases hmem with rfl | rfl | rfl <;>
      exact ⟨by decide +kernel, by decide +kernel, by decide +kernel, by decide +kernel⟩
  obtain ⟨hpage, hpages⟩ := @listRecords_resumes_iff .text s tags "d" "c" _ rfl (by decide +kernel)
  refine ⟨(hpage _ 1 "a" (hasks _ ?_) le_rfl ?_).mpr ?_, (hpages queryOf 1 le_rfl hasks).mpr ?_⟩
  · decide +kernel
  · decide +kernel
  · decide +kernel
  · rintro (_ | _ | k)
    · decide +kernel
    · decide +kernel
    · have hlast : cursorAt "c" tags ((k + 2) * 1) = some "b" := by
        rw [cursorAt, take_of_length_le (by simp [tags])]
        decide +kernel
      rw [hlast]
      decide +kernel

/-- The key `1a` ends with the cursor `a`, so the page holds the record `a` again. -/
theorem listRecords_repeats :
    (listRecords .text (listing ["1a", "a"]) (some "repo=d&collection=c&cursor=a")).map
      (List.map RecordView.uri) = .ok ["at://d/c/a"] := by
  decide +kernel

end KappaRegistry.Atproto
