import KappaRegistry.Store.Namespaces
import KappaRegistry.Store.TagRows

/-!
# Listing Tags by Prefix

`tag_list` and `tag_prefix` read the range of keys from a text to its successor. The successor is
taken on bytes and must be text again, which fails if the prefix ends in a byte `7F` or `BF`; when
it does not, the range holds the keys that start with the prefix, and `tag_prefix` is a filter of
`tag_list`.
-/

namespace KappaRegistry

open Lib PersistentStore List

/-- The end of the range for a prefix, as text; the range of the empty prefix has none.
`prefix_successor` counts up the last byte, which in UTF-8 is never `FF`; if that is text again, it is
the prefix with its last character counted up. -/
def prefixEnd (p : String) : Except StoreError (Option String) :=
  match p.toList.getLast? with
  | some c =>
    if successorIsUtf8 p then .ok (some (String.ofList (p.toList.dropLast ++ [Char.ofNat (c.toNat + 1)])))
    else .error (.io "utf8")
  | none => .ok none

variable (enc : Option TableEncryptor)

def readRange (t : TagTable) (ns p : String) : Except StoreError (List TagEntry) := do
  let stop ← prefixEnd p
  (t.toList.filter fun row => decide (p ≤ row.1) && stop.all fun stop => decide (row.1 < stop)).mapM
    (readRow enc ns)

def tagListImpl (t : TagTable) (ns : String) : Except StoreError (List TagEntry) :=
  readRange enc t ns (dbKey ns "")

def tagPrefixImpl (t : TagTable) (ns namePrefix : String) : Except StoreError (List TagEntry) :=
  readRange enc t ns (dbKey ns namePrefix)

theorem between_iff {c d : Char} (hd : d.toNat = c.toNat + 1) (cs k : List Char) :
    (¬ k < cs ++ [c] ∧ k < cs ++ [d]) ↔ cs ++ [c] <+: k := by
  induction cs generalizing k with
  | nil =>
    cases k with
    | nil => simp
    | cons x k =>
      have hx : (¬ x < c ∧ x < d) ↔ c = x := by
        show (¬ x.toNat < c.toNat ∧ x.toNat < d.toNat) ↔ _
        rw [← Char.toNat_inj]
        omega
      simpa [cons_lt_cons_iff] using hx
  | cons y cs ih =>
    cases k with
    | nil => simp
    | cons x k =>
      rcases lt_trichotomy x y with hxy | rfl | hxy
      · simp [cons_lt_cons_iff, hxy, hxy.ne']
      · simpa [cons_lt_cons_iff] using ih k
      · simp [cons_lt_cons_iff, hxy.not_gt, hxy.ne, hxy.ne']

theorem toNat_ofNat_succ {c : Char} (h : ¬ (127 ≤ c.toNat ∧ c.toNat % 64 = 63)) :
    (Char.ofNat (c.toNat + 1)).toNat = c.toNat + 1 := by
  have hc : c.toNat < 0xD800 ∨ 0xDFFF < c.toNat ∧ c.toNat < 0x110000 := c.valid
  have hvalid : (c.toNat + 1).isValidChar := by
    unfold Nat.isValidChar
    omega
  unfold Char.ofNat
  rw [dif_pos hvalid]
  rfl

theorem readRange_eq (t : TagTable) (ns p : String) :
    readRange enc t ns p =
      if successorIsUtf8 p then (t.toList.filter fun row => startsWith row.1 p).mapM (readRow enc ns)
      else .error (.io "utf8") := by
  unfold readRange prefixEnd
  by_cases hlist : p.toList = []
  · obtain rfl : p = "" := String.toList_eq_nil_iff.mp hlist
    refine congrArg (mapM (readRow enc ns)) (filter_congr fun row _ => ?_)
    have hle : "" ≤ row.1 := by
      rw [← not_lt, String.lt_iff_toList_lt]
      exact not_lt_nil _
    simp [startsWith, hle]
  have hlast := getLast?_eq_some_getLast hlist
  have hp' := dropLast_append_getLast hlist
  generalize p.toList.getLast hlist = c at hlast hp'
  rw [hlast]
  dsimp only
  split_ifs with hutf8
  · have hc : ¬ (127 ≤ c.toNat ∧ c.toNat % 64 = 63) := by
      rintro ⟨hlow, hmod⟩
      rw [successorIsUtf8, hlast] at hutf8
      simp [hlow, hmod] at hutf8
    refine congrArg (mapM (readRow enc ns)) (filter_congr fun row _ => ?_)
    have hbetween := between_iff (toNat_ofNat_succ hc) p.toList.dropLast row.1.toList
    rw [Option.all_some, Bool.eq_iff_iff, Bool.and_eq_true, decide_eq_true_iff, decide_eq_true_iff, ← not_lt,
      String.lt_iff_toList_lt, String.lt_iff_toList_lt, String.toList_ofList, startsWith,
      isPrefixOf_iff_prefix]
    rwa [hp'] at hbetween
  · rfl

theorem startsWith_dbKey_of_readRow {ns p : String} {row : String × String} {entry : TagEntry}
    (h : readRow enc ns row = .ok entry) :
    startsWith row.1 (dbKey ns p) = startsWith entry.name p := by
  simp only [readRow, parseEntry, bind_eq_ok, need_eq_ok, pure_eq_ok] at h
  obtain ⟨name, hname, text, -, parts, -, version, -, rfl⟩ := h
  rw [eq_append_of_stripPrefix hname, dbKey_eq_append ns p, startsWith, startsWith, Bool.eq_iff_iff]
  simp

theorem mapM_filter {α β ε : Type} {f : α → Except ε β} {q : α → Bool} {q' : β → Bool}
    (xs : List α) {ys : List β} (hq : ∀ x y, x ∈ xs → f x = .ok y → q x = q' y)
    (h : xs.mapM f = .ok ys) : (xs.filter q).mapM f = .ok (ys.filter q') := by
  induction xs generalizing ys with
  | nil =>
    cases h
    rfl
  | cons x xs ih =>
    simp only [mapM_cons, bind_eq_ok, pure_eq_ok] at h
    obtain ⟨y, hy, ys, hys, rfl⟩ := h
    have hrest := ih (fun x' y' hx' => hq x' y' (mem_cons_of_mem x hx')) hys
    have hxy := hq x y mem_cons_self hy
    cases hqx : q x with
    | false =>
      rw [filter_cons_of_neg (by simp [hqx]), filter_cons_of_neg (by simp [← hxy, hqx]), hrest]
    | true =>
      rw [filter_cons_of_pos hqx, filter_cons_of_pos (hxy ▸ hqx), mapM_cons, hy, hrest]
      rfl

/-- **A prefix listing filters the full one** exactly when the successor of the prefix is text. -/
theorem tagPrefixImpl_eq_filter_iff (t : TagTable) (ns p : String) {entries : List TagEntry}
    (h : tagListImpl enc t ns = .ok entries) :
    tagPrefixImpl enc t ns p = .ok (entries.filter fun entry => startsWith entry.name p) ↔
      successorIsUtf8 p = true := by
  rw [tagListImpl, readRange_eq, successorIsUtf8_dbKey,
    if_pos (by decide)] at h
  rw [tagPrefixImpl, readRange_eq, successorIsUtf8_dbKey]
  split_ifs with hutf8
  · refine iff_of_true ?_ hutf8
    have hfilter : (t.toList.filter fun row => startsWith row.1 (dbKey ns p)) =
        (t.toList.filter fun row => startsWith row.1 (dbKey ns "")).filter
          fun row => startsWith row.1 (dbKey ns p) := by
      rw [List.filter_filter]
      refine List.filter_congr fun row _ => ?_
      cases hrow : startsWith row.1 (dbKey ns p) with
      | false => rfl
      | true =>
        obtain ⟨rest, hrest⟩ := startsWith_iff.mp hrow
        rw [hrest, dbKey_eq_append ns p, String.append_assoc, startsWith_append]
        rfl
    rw [hfilter]
    exact mapM_filter _ (fun row entry _ hrow => startsWith_dbKey_of_readRow enc hrow) h
  · exact iff_of_false (fun heq => nomatch heq) hutf8

def oneTag : TagTable := (∅ : TagTable).insert (dbKey "n" "a") (tagText "k" 1)

/-- Of three tags of the namespace, two have the prefix. -/
theorem tagPrefixImpl_two :
    tagPrefixImpl none ((oneTag.insert (dbKey "n" "ab") (tagText "k" 2)).insert (dbKey "n" "b")
        (tagText "l" 1)) "n" "a" = .ok ([⟨"a", "k", 1⟩, ⟨"ab", "k", 2⟩, ⟨"b", "l", 1⟩].filter fun entry =>
      startsWith entry.name "a") ↔ successorIsUtf8 "a" = true :=
  tagPrefixImpl_eq_filter_iff none _ "n" "a" (by decide +kernel)

theorem tagPrefixImpl_del : tagListImpl none oneTag "n" = .ok [⟨"a", "k", 1⟩] ∧
    tagPrefixImpl none oneTag "n" "\x7f" = .error (.io "utf8") := by
  decide +kernel

end KappaRegistry
