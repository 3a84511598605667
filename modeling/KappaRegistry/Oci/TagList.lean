import KappaRegistry.Lib.Bytes
import KappaRegistry.Lib.Pages
import KappaRegistry.Lib.Split
import KappaRegistry.Store.Namespaces

/-!
# Listing Tags over OCI

`tag_list` of `kappa-module-oci/src/manifests.rs`, with the query parameters as `helpers.rs` reads
them. A page ends after `n` tags, and the `Link` header leads on after the last of them.

The link carries `last` and nothing else, and it carries the tag as it is. So the request that
follows it has no limit, no order and no range: it lists all tags after the last one in ascending
order, provided that the tag survives in the URL. **`tagList_pages`** says when the two pages are
the whole list.
-/

namespace KappaRegistry.Oci

open Lib PersistentStore List

/-! ## Query parameters -/

def hexVal (b : UInt8) : Option UInt8 :=
  if 48 ≤ b ∧ b ≤ 57 then some (b - 48)
  else if 97 ≤ b ∧ b ≤ 102 then some (b - 97 + 10)
  else if 65 ≤ b ∧ b ≤ 70 then some (b - 65 + 10)
  else none

/-- The loop of `percent_decode`: each byte becomes a character. A `%` takes the next two bytes,
whether they are digits or not. -/
def percentChars : List UInt8 → List Char
  | [] => []
  | b :: bytes =>
    if b = 37 then
      match bytes with
      | hi :: lo :: rest =>
        (match hexVal hi, hexVal lo with
          | some h, some l => Char.ofUInt8 (h <<< 4 ||| l)
          | _, _ => '%') :: percentChars rest
      | _ => ['%']
    else (if b = 43 then ' ' else Char.ofUInt8 b) :: percentChars bytes

def percentDecode (s : String) : String := String.ofList (percentChars (textBytes s))

def queryParam (query : Option String) (key : String) : Option String := do
  let pairs := (splitText '&' (← query)).filterMap (splitOnceText '=')
  let (_, value) ← pairs.find? fun pair => pair.1 = key
  return percentDecode value

structure TagListParams where
  n : Option ℕ
  last : Option String
  order : Option String
  after : Option String
  before : Option String

namespace TagListParams

def ofQuery (query : Option String) : TagListParams where
  n := (queryParam query "n").bind fun s => (parseRadix 10 u64Max s).toOption
  last := queryParam query "last"
  order := queryParam query "order"
  after := queryParam query "after"
  before := queryParam query "before"

variable (params : TagListParams)

def inRange (tag : String) : Bool :=
  (params.after.all fun after => decide (after < tag)) &&
    params.before.all fun before => decide (tag < before)

/-- The tags in the range, in the order asked for. -/
def sorted (names : List String) : List String :=
  if params.order = some "desc" then (names.filter params.inRange).insertionSort (· ≥ ·)
  else (names.filter params.inRange).insertionSort (· ≤ ·)

/-- The tags that a request lists if it has no limit: those past `last`, if that is one of them. -/
def select (names : List String) : List String :=
  match params.last with
  | none => params.sorted names
  | some last =>
    if last ∈ params.sorted names then
      (params.sorted names).drop ((params.sorted names).idxOf last + 1)
    else params.sorted names

end TagListParams

open TagListParams

/-! ## The handler -/

structure TagListResponse where
  name : String
  tags : List String
  link : Option String

def nextLink (ns lastTag : String) : String :=
  "</v2/" ++ ns ++ "/tags/list?last=" ++ lastTag ++ ">; rel=\"next\""

def visibleTags (entries : List TagEntry) : List String :=
  (entries.map (·.name)).filter fun name => !startsWith name "_"

def tagList (s : PersistentStore) (ns : NamespaceRef) (params : TagListParams) :
    Except StoreError TagListResponse :=
  if params.n = some 0 then .ok { name := ns.asStr, tags := [], link := none }
  else do
    let allTags ← s.tagList ns.asStr
    let tagNames := params.select (visibleTags allTags)
    match params.n with
    | none => return { name := ns.asStr, tags := tagNames, link := none }
    | some limit =>
      if limit < tagNames.length then
        let tagNames := tagNames.take limit
        return { name := ns.asStr, tags := tagNames, link := tagNames.getLast?.map (nextLink ns.asStr) }
      else return { name := ns.asStr, tags := tagNames, link := none }

/-! ## Following a link

The target of a link ends at the first `>`, its query begins after the first `?` and ends at a `#`. -/

def upTo (c : Char) (s : String) : String := String.ofList (s.toList.takeWhile (· ≠ c))

def linkQuery (link : String) : Option String := do
  let target := upTo '>' (← stripPrefix link "<")
  let (_, query) ← splitOnceText '?' (upTo '#' target)
  return query

/-- A page, and the request that its link leads to. -/
def nextTags (s : PersistentStore) (ns : NamespaceRef) (params : TagListParams) :
    Option (List String × Option TagListParams) :=
  (tagList s ns params).toOption.map fun response =>
    (response.tags, response.link.map fun link => .ofQuery (linkQuery link))

/-- What comes back of a tag in a link. -/
def received (tag : String) : String := percentDecode (upTo '#' (upTo '>' tag))

def PathName (name : String) : Prop := '>' ∉ name.toList ∧ '?' ∉ name.toList ∧ '#' ∉ name.toList
  deriving Decidable

variable {c : Char}

theorem takeWhile_append_stop {p : Char → Bool} (hc : p c = false) (as bs : List Char) :
    (as ++ c :: bs).takeWhile p = as.takeWhile p := by
  induction as with
  | nil => rw [nil_append, takeWhile_cons_of_neg (by simp [hc])]; rfl
  | cons a as ih =>
    rw [cons_append, takeWhile_cons, takeWhile_cons, ih]

variable {s : String}

theorem upTo_append (h : c ∉ s.toList) (t : String) : upTo c (s ++ t) = s ++ upTo c t := by
  rw [upTo, upTo, String.toList_append, takeWhile_append_of_pos, String.ofList_append,
    String.ofList_toList]
  intro a ha
  rw [decide_eq_true_eq]
  exact fun heq => h (heq ▸ ha)

theorem notMem_upTo {d : Char} (h : d ∉ s.toList) : d ∉ (upTo c s).toList := by
  rw [upTo, String.toList_ofList]
  exact fun hmem => h ((takeWhile_sublist _).subset hmem)

variable {ns : String}

theorem linkQuery_nextLink (hns : PathName ns) (tag : String) :
    linkQuery (nextLink ns tag) = some ("last=" ++ upTo '#' (upTo '>' tag)) := by
  obtain ⟨hgt, hquestion, hhash⟩ := hns
  have hlink : nextLink ns tag =
      "<" ++ ("/v2/" ++ ns ++ "/tags/list?last=" ++ (tag ++ ">; rel=\"next\"")) := by
    have hopen : "</v2/" = "<" ++ "/v2/" := by decide
    simp only [nextLink, hopen, String.append_assoc]
  have htarget : upTo '>' ("/v2/" ++ ns ++ "/tags/list?last=" ++ (tag ++ ">; rel=\"next\"")) =
      "/v2/" ++ ns ++ "/tags/list?last=" ++ upTo '>' tag := by
    rw [upTo_append (by simp [hgt])]
    congr 1
    rw [upTo, upTo, String.toList_append]
    exact congrArg String.ofList (takeWhile_append_stop (by decide) _ _)
  have hquery : splitOnceText '?' ("/v2/" ++ ns ++ "/tags/list?last=" ++ upTo '#' (upTo '>' tag)) =
      some ("/v2/" ++ ns ++ "/tags/list", "last=" ++ upTo '#' (upTo '>' tag)) := by
    rw [splitOnceText_eq_some]
    refine ⟨?_, by simp [hquestion]⟩
    have hpath : "/tags/list?last=" = "/tags/list" ++ String.singleton '?' ++ "last=" := by decide
    simp only [hpath, String.append_assoc]
  rw [hlink, linkQuery, stripPrefix_append]
  simp only [Option.bind_eq_bind, Option.bind_some, htarget]
  rw [upTo_append (by simp [hhash]), hquery]
  rfl

/-- **A link asks for the tags after the last one**, and for nothing else. -/
theorem ofQuery_nextLink (hns : PathName ns) {tag : String} (h : '&' ∉ tag.toList) :
    ofQuery (linkQuery (nextLink ns tag)) =
      { n := none, last := some (received tag), order := none, after := none, before := none } := by
  have hpairs : (splitText '&' ("last=" ++ upTo '#' (upTo '>' tag))).filterMap (splitOnceText '=') =
      [("last", upTo '#' (upTo '>' tag))] := by
    rw [splitText_of_notMem]
    · have hlast : "last=" = "last" ++ String.singleton '=' := by decide
      have hpair : splitOnceText '=' ("last=" ++ upTo '#' (upTo '>' tag)) =
          some ("last", upTo '#' (upTo '>' tag)) :=
        splitOnceText_eq_some.mpr ⟨by rw [hlast], by decide⟩
      rw [filterMap_cons, hpair]
      rfl
    · rw [String.toList_append, mem_append, not_or]
      exact ⟨by decide, notMem_upTo (notMem_upTo h)⟩
  have hparam : ∀ key, queryParam (some ("last=" ++ upTo '#' (upTo '>' tag))) key =
      if "last" = key then some (received tag) else none := by
    intro key
    simp only [queryParam, Option.bind_eq_bind, Option.bind_some, hpairs, find?_cons,
      find?_nil]
    by_cases hkey : "last" = key
    · simp [hkey, received]
    · simp [hkey]
  rw [linkQuery_nextLink hns]
  simp only [ofQuery, hparam]
  rfl

/-! ## Sorted lists -/

theorem pairwise_visibleTags (s : PersistentStore) (ns : String) :
    (visibleTags (s.tagEntries ns)).Pairwise (· < ·) := by
  apply List.Pairwise.filter
  rw [pairwise_map]
  exact pairwise_tagEntries s ns

section

variable {params : TagListParams} {names : List String}

theorem sorted_asc (h : params.order ≠ some "desc") (hnames : names.Pairwise (· < ·)) :
    params.sorted names = names.filter params.inRange := by
  rw [sorted, if_neg h]
  apply List.Pairwise.insertionSort_eq
  exact (hnames.filter _).imp le_of_lt

theorem pairwise_sorted_desc (h : params.order = some "desc") (hnames : names.Pairwise (· < ·)) :
    (params.sorted names).Pairwise (· > ·) := by
  rw [sorted, if_pos h]
  have hnodup : ((names.filter params.inRange).insertionSort (· ≥ ·)).Nodup := by
    rw [(perm_insertionSort _ _).nodup_iff]
    exact (hnames.filter _).imp ne_of_lt
  have hsorted := pairwise_insertionSort (· ≥ ·) (names.filter params.inRange)
  refine (hsorted.and hnodup).imp ?_
  intro a b hab
  exact lt_of_le_of_ne hab.1 hab.2.symm

theorem exists_append_select (params : TagListParams) (names : List String) :
    ∃ passed, params.sorted names = passed ++ params.select names := by
  unfold select
  split
  · exact ⟨[], rfl⟩
  · split
    · exact ⟨_, (take_append_drop _ _).symm⟩
    · exact ⟨[], rfl⟩

theorem exists_append_cons_drop {n : ℕ} {tag : String} (hn : 1 ≤ n)
    (h : (params.select names)[n - 1]? = some tag) :
    ∃ passed, params.sorted names = passed ++ tag :: (params.select names).drop n := by
  obtain ⟨passed, hpassed⟩ := exists_append_select params names
  obtain ⟨hlt, hget⟩ := List.getElem?_eq_some_iff.mp h
  refine ⟨passed ++ (params.select names).take (n - 1), ?_⟩
  have hdrop := drop_eq_getElem_cons hlt
  rw [hget, Nat.sub_add_cancel hn] at hdrop
  rwa [append_assoc, ← hdrop, take_append_drop]

theorem select_last (hnames : names.Pairwise (· < ·)) (last : String) :
    select ⟨none, some last, none, none, none⟩ names =
      if last ∈ names then names.filter (last < ·) else names := by
  have hsorted : sorted ⟨none, some last, none, none, none⟩ names = names := by
    rw [sorted_asc (by simp) hnames]
    exact filter_eq_self.mpr fun _ _ => rfl
  simp only [select, hsorted]
  by_cases hmem : last ∈ names
  · rw [if_pos hmem, if_pos hmem]
    obtain ⟨before, after, rfl⟩ := append_of_mem hmem
    have hnot : last ∉ before := by
      intro hbefore
      exact lt_irrefl _ ((pairwise_append.mp hnames).2.2 last hbefore last mem_cons_self)
    have hafter : (before ++ last :: after).filter (fun tag => last < tag) = after :=
      filter_gt_of_pairwise_lt (f := id) hnames
    rw [hafter, idxOf_append_of_notMem hnot, idxOf_cons_self, Nat.add_zero,
      drop_length_add_append, drop_succ_cons, drop_zero]
  · rw [if_neg hmem, if_neg hmem]

end

/-! ## When the pages are exact -/

section

variable (s : PersistentStore) (ns : NamespaceRef) (params : TagListParams)

/-- The tags that a request is about, before it is cut to a page. -/
def listed : List String := params.select (visibleTags (s.tagEntries ns.asStr))

/-- The pages that follow a request are the list that it gets without a limit. -/
def ListsExactly : Prop :=
  ∃ pages whole, (∃ bound, ∀ fuel ≥ bound, follow (nextTags s ns) fuel params = some pages) ∧
    tagList s ns { params with n := none } = .ok whole ∧ pages.flatten = whole.tags

/-- The link of a page that ends with a tag leads to the rest of the list: the tag comes back as it
was, the order is ascending, and no later tag is out of the range. -/
structure Resumes (tag : String) : Prop where
  plain : '&' ∉ tag.toList
  received : received tag = tag
  ascending : params.order ≠ some "desc"
  before : ∀ later ∈ visibleTags (s.tagEntries ns.asStr), tag < later →
    ∀ b ∈ params.before, later < b

variable {s ns params}

theorem tagList_unlimited : tagList s ns { params with n := none } =
    .ok { name := ns.asStr, tags := listed s ns params, link := none } := by
  rw [tagList, if_neg (by simp), tagList_eq]
  rfl

theorem nextTags_unlimited (h : params.n = none) : nextTags s ns params = some (listed s ns params, none) := by
  have hparams : params = { params with n := none } := by rw [← h]
  rw [nextTags]
  conv_lhs => rw [hparams, tagList_unlimited]
  rfl

variable {n : ℕ}

theorem tagList_limited (h : params.n = some n) (hn : 1 ≤ n) :
    tagList s ns params = .ok (if n < (listed s ns params).length then
      { name := ns.asStr, tags := (listed s ns params).take n,
        link := ((listed s ns params).take n).getLast?.map (nextLink ns.asStr) }
      else { name := ns.asStr, tags := listed s ns params, link := none }) := by
  have hzero : params.n ≠ some 0 := by
    rw [h]
    intro heq
    cases heq
    omega
  rw [tagList, if_neg hzero, tagList_eq]
  rw [h]
  show (if n < (listed s ns params).length then _ else _) = _
  by_cases hlt : n < (listed s ns params).length
  · rw [if_pos hlt, if_pos hlt]
    rfl
  · rw [if_neg hlt, if_neg hlt]
    rfl

theorem nextTags_last (h : params.n = some n) (hn : 1 ≤ n) (hle : (listed s ns params).length ≤ n) :
    nextTags s ns params = some (listed s ns params, none) := by
  rw [nextTags, tagList_limited h hn, if_neg (Nat.not_lt.mpr hle)]
  rfl

variable {tag : String}

theorem nextTags_more (h : params.n = some n) (hn : 1 ≤ n) (hlt : n < (listed s ns params).length)
    (htag : (listed s ns params)[n - 1]? = some tag) :
    nextTags s ns params = some ((listed s ns params).take n,
      some (.ofQuery (linkQuery (nextLink ns.asStr tag)))) := by
  have hlast : ((listed s ns params).take n).getLast? = some tag := by
    rw [getLast?_eq_getElem?, length_take, Nat.min_eq_left hlt.le,
      getElem?_take_of_lt (by omega)]
    exact htag
  rw [nextTags, tagList_limited h hn, if_pos hlt, hlast]
  rfl

theorem follow_nextTags (hns : PathName ns.asStr) (h : params.n = some n) (hn : 1 ≤ n)
    (hlt : n < (listed s ns params).length) (htag : (listed s ns params)[n - 1]? = some tag)
    (hplain : '&' ∉ tag.toList) (fuel : ℕ) :
    follow (nextTags s ns) (fuel + 2) params = some [(listed s ns params).take n,
      listed s ns ⟨none, some (received tag), none, none, none⟩] := by
  have hnext := nextTags_more h hn hlt htag
  rw [ofQuery_nextLink hns hplain] at hnext
  rw [follow_next hnext, follow_last (nextTags_unlimited rfl)]
  rfl

theorem drop_listed_asc (hasc : params.order ≠ some "desc") (hn : 1 ≤ n)
    (htag : (listed s ns params)[n - 1]? = some tag) :
    (listed s ns params).drop n =
      (visibleTags (s.tagEntries ns.asStr)).filter fun later => params.inRange later && tag < later := by
  have hnames := pairwise_visibleTags s ns.asStr
  obtain ⟨passed, hsplit⟩ := exists_append_cons_drop hn htag
  rw [sorted_asc hasc hnames] at hsplit
  have hsorted := hnames.filter params.inRange
  rw [hsplit] at hsorted
  have hafter := filter_gt_of_pairwise_lt (f := id) hsorted
  rw [← hsplit, filter_filter] at hafter
  rw [listed, ← hafter]
  exact filter_congr fun later _ => Bool.and_comm _ _

theorem lt_of_mem_drop_desc (hdesc : params.order = some "desc") (hn : 1 ≤ n) {later : String}
    (htag : (listed s ns params)[n - 1]? = some tag) (hlater : later ∈ (listed s ns params).drop n) :
    later < tag := by
  obtain ⟨passed, hsplit⟩ := exists_append_cons_drop hn htag
  have hsorted := pairwise_sorted_desc hdesc (pairwise_visibleTags s ns.asStr)
  rw [hsplit] at hsorted
  have hcons := (pairwise_append.mp hsorted).2.1
  exact (pairwise_cons.mp hcons).1 later hlater

theorem mem_listed (h : tag ∈ listed s ns params) :
    tag ∈ visibleTags (s.tagEntries ns.asStr) ∧ params.inRange tag = true := by
  obtain ⟨passed, hsplit⟩ := exists_append_select params
    (visibleTags (s.tagEntries ns.asStr))
  have hmem : tag ∈ params.sorted (visibleTags (s.tagEntries ns.asStr)) := by
    rw [hsplit]
    exact mem_append_right _ h
  have hfilter : tag ∈ (visibleTags (s.tagEntries ns.asStr)).filter params.inRange := by
    unfold sorted at hmem
    split at hmem <;> exact (mem_insertionSort _).mp hmem
  exact mem_filter.mp hfilter

theorem inRange_between {a b c : String} (ha : params.inRange a = true) (hc : params.inRange c = true)
    (hab : a < b) (hbc : b < c) : params.inRange b = true := by
  simp only [TagListParams.inRange, Bool.and_eq_true, Option.all_eq_true, decide_eq_true_eq] at ha hc ⊢
  exact ⟨fun x hx => lt_trans (ha.1 x hx) hab, fun x hx => lt_trans hbc (hc.2 x hx)⟩

/-- **The request that a link makes lists the rest iff the link resumes the listing.** -/
theorem listed_link_iff (hn : 1 ≤ n) (hlt : n < (listed s ns params).length)
    (htag : (listed s ns params)[n - 1]? = some tag) (hplain : '&' ∉ tag.toList) :
    listed s ns ⟨none, some (received tag), none, none, none⟩ = (listed s ns params).drop n ↔
      Resumes s ns params tag := by
  have hnames := pairwise_visibleTags s ns.asStr
  obtain ⟨hvisible, hrange⟩ := mem_listed (mem_of_getElem? htag)
  rw [listed, select_last hnames]
  constructor
  · intro heq
    obtain ⟨later, hlater⟩ : ∃ later, later ∈ (listed s ns params).drop n :=
      exists_mem_of_length_pos (by rw [length_drop]; omega)
    have hnot : tag ∉ (listed s ns params).drop n := by
      intro hmem
      by_cases hdesc : params.order = some "desc"
      · exact lt_irrefl _ (lt_of_mem_drop_desc hdesc hn htag hmem)
      · rw [drop_listed_asc hdesc hn htag, mem_filter, Bool.and_eq_true, decide_eq_true_eq] at hmem
        exact lt_irrefl _ hmem.2.2
    -- what came back is a tag, or else the whole list follows
    have hreceived : received tag ∈ visibleTags (s.tagEntries ns.asStr) := by
      by_contra hmiss
      rw [if_neg hmiss] at heq
      rw [← heq] at hnot
      exact hnot hvisible
    rw [if_pos hreceived] at heq
    have hmem : ∀ later, later ∈ (listed s ns params).drop n ↔
        later ∈ visibleTags (s.tagEntries ns.asStr) ∧ received tag < later := by
      intro later
      rw [← heq, mem_filter, decide_eq_true_eq]
    have hge : ¬ received tag < tag := fun hlt => hnot ((hmem tag).mpr ⟨hvisible, hlt⟩)
    have hasc : params.order ≠ some "desc" := by
      intro hdesc
      exact hge (lt_trans ((hmem later).mp hlater).2 (lt_of_mem_drop_desc hdesc hn htag hlater))
    have hback : received tag = tag := by
      rcases lt_trichotomy (received tag) tag with hlt | heq | hgt
      · exact absurd hlt hge
      · exact heq
      · -- a tag between the last one and the rest would be in the rest
        obtain ⟨-, hlaterRange⟩ := mem_listed (mem_of_mem_drop hlater)
        have hbetween := inRange_between hrange hlaterRange hgt ((hmem later).mp hlater).2
        have hdrop : received tag ∈ (listed s ns params).drop n := by
          rw [drop_listed_asc hasc hn htag, mem_filter, Bool.and_eq_true, decide_eq_true_eq]
          exact ⟨hreceived, hbetween, hgt⟩
        exact absurd ((hmem _).mp hdrop).2 (lt_irrefl _)
    refine ⟨hplain, hback, hasc, ?_⟩
    intro later hvisible hlt b hb
    rw [← hback] at hlt
    obtain ⟨-, hlaterRange⟩ := mem_listed (mem_of_mem_drop ((hmem later).mpr ⟨hvisible, hlt⟩))
    simp only [TagListParams.inRange, Bool.and_eq_true, Option.all_eq_true, decide_eq_true_eq]
      at hlaterRange
    exact hlaterRange.2 b hb
  · rintro ⟨-, hback, hasc, hbefore⟩
    rw [hback, if_pos hvisible, drop_listed_asc hasc hn htag]
    apply filter_congr
    intro later hlater
    rw [Bool.eq_iff_iff, Bool.and_eq_true, decide_eq_true_eq]
    refine ⟨?_, And.right⟩
    intro hlt
    simp only [TagListParams.inRange, Bool.and_eq_true, Option.all_eq_true, decide_eq_true_eq]
      at hrange ⊢
    exact ⟨⟨fun x hx => lt_trans (hrange.1 x hx) hlt, hbefore later hlater hlt⟩, hlt⟩

theorem listsExactly_of_length_le (h : params.n = some n) (hn : 1 ≤ n)
    (hle : (listed s ns params).length ≤ n) : ListsExactly s ns params := by
  refine ⟨[listed s ns params], _, ⟨1, ?_⟩, tagList_unlimited, by simp⟩
  intro fuel hfuel
  obtain ⟨fuel, rfl⟩ : ∃ k, fuel = k + 1 := ⟨fuel - 1, by omega⟩
  exact follow_last (nextTags_last h hn hle) fuel

theorem listsExactly_iff (hns : PathName ns.asStr) (h : params.n = some n) (hn : 1 ≤ n)
    (hlt : n < (listed s ns params).length) (htag : (listed s ns params)[n - 1]? = some tag)
    (hplain : '&' ∉ tag.toList) : ListsExactly s ns params ↔
      listed s ns ⟨none, some (received tag), none, none, none⟩ = (listed s ns params).drop n := by
  have hfollow := follow_nextTags hns h hn hlt htag hplain
  have hflat : ∀ rest, [(listed s ns params).take n, rest].flatten = listed s ns params ↔
      rest = (listed s ns params).drop n := by
    intro rest
    have hflatten : [(listed s ns params).take n, rest].flatten =
        (listed s ns params).take n ++ rest := by
      simp
    rw [hflatten]
    conv_lhs => rhs; rw [← take_append_drop n (listed s ns params)]
    exact append_right_inj _
  constructor
  · intro ⟨pages, whole, ⟨bound, hpages⟩, hwhole, heq⟩
    rw [tagList_unlimited] at hwhole
    cases hwhole
    have hsame := (hpages (bound + 2) (by omega)).symm.trans (hfollow bound)
    cases hsame
    exact (hflat _).mp heq
  · intro heq
    refine ⟨_, _, ⟨2, ?_⟩, tagList_unlimited, (hflat _).mpr heq⟩
    intro fuel hfuel
    obtain ⟨fuel, rfl⟩ : ∃ k, fuel = k + 2 := ⟨fuel - 2, by omega⟩
    exact hfollow fuel

/-- **The pages are the whole list if there is one page, or if the link of the first one resumes the
listing**; and only then, if the tag in the link has no `&`, which would begin a parameter. -/
theorem tagList_pages (s : PersistentStore) (ns : NamespaceRef) (params : TagListParams) (n : ℕ)
    (hns : PathName ns.asStr) (h : params.n = some n) (hn : 1 ≤ n) :
    ((∀ tag, n < (listed s ns params).length → (listed s ns params)[n - 1]? = some tag →
        Resumes s ns params tag) → ListsExactly s ns params) ∧
    ((∀ tag, n < (listed s ns params).length → (listed s ns params)[n - 1]? = some tag →
        '&' ∉ tag.toList) → ListsExactly s ns params →
      ∀ tag, n < (listed s ns params).length → (listed s ns params)[n - 1]? = some tag →
        Resumes s ns params tag) := by
  constructor
  · intro hresumes
    by_cases hlt : n < (listed s ns params).length
    · have htag : (listed s ns params)[n - 1]? = some (listed s ns params)[n - 1] :=
        List.getElem?_eq_getElem (by omega)
      have hplain := (hresumes _ hlt htag).plain
      exact (listsExactly_iff hns h hn hlt htag hplain).mpr
        ((listed_link_iff hn hlt htag hplain).mpr (hresumes _ hlt htag))
    · exact listsExactly_of_length_le h hn (by omega)
  · intro hplain hexact tag hlt htag
    exact (listed_link_iff hn hlt htag (hplain tag hlt htag)).mp
      ((listsExactly_iff hns h hn hlt htag (hplain tag hlt htag)).mp hexact)

end

def threeTags : PersistentStore :=
  ["a", "b", "c", "_pin/x"].foldl (fun s tag => s.tagSet "app" tag "sha256:aaa") (.new false)

def appNs : NamespaceRef := .withName 1 "app"

theorem tagList_pages_three_tags :
    let params : TagListParams := ⟨some 2, none, none, none, none⟩
    ListsExactly threeTags appNs params := by
  intro params
  apply (tagList_pages threeTags appNs params 2 (by decide) rfl (by decide)).1
  intro tag _ htag
  have hlisted : listed threeTags appNs params = ["a", "b", "c"] := by
    decide +kernel
  rw [hlisted] at htag
  cases htag
  exact ⟨by decide, by decide +kernel, by decide, fun _ _ _ b hb => absurd hb (by simp)⟩

/-- In descending order the second page is empty, and a range is forgotten. -/
theorem tagList_pages_lost :
    let pages := follow (nextTags threeTags appNs) 2
    let whole (params : TagListParams) := (tagList threeTags appNs params).map (·.tags)
    pages ⟨some 1, none, some "desc", none, none⟩ = some [["c"], []] ∧
    whole ⟨none, none, some "desc", none, none⟩ = .ok ["c", "b", "a"] ∧
    pages ⟨some 1, none, none, none, some "c"⟩ = some [["a"], ["b", "c"]] ∧
    whole ⟨none, none, none, none, some "c"⟩ = .ok ["a", "b"] ∧
    ¬ ListsExactly threeTags appNs ⟨some 1, none, some "desc", none, none⟩ := by
  intro pages whole
  have hpages : pages ⟨some 1, none, some "desc", none, none⟩ = some [["c"], []] := by
    decide +kernel
  have hwhole : whole ⟨none, none, some "desc", none, none⟩ = .ok ["c", "b", "a"] := by
    decide +kernel
  refine ⟨hpages, hwhole, by decide +kernel, by decide +kernel, ?_⟩
  intro ⟨pages, page, ⟨bound, hall⟩, hlist, heq⟩
  have hsame := (hall (max bound 2) (le_max_left _ _)).symm.trans
    (follow_mono hpages (le_max_right _ _))
  cases hsame
  have htags : page.tags = ["c", "b", "a"] :=
    Except.ok.inj ((congrArg (Except.map TagListResponse.tags) hlist).symm.trans hwhole)
  rw [htags] at heq
  revert heq
  decide

end KappaRegistry.Oci
