import Mathlib.Data.List.DropRight
import Mathlib.Data.List.Infix
import Mathlib.Data.String.Basic

/-!
# Text Operations

The string tests a path-addressed service is built from, on `String` through its list of
characters so that they evaluate in the kernel. Each comes with the equation that says what it means on
the text itself: `startsWith_iff`, `mem_ancestors_iff` (the cutting loop enumerates exactly the names
that a separator can be appended to), and `joinKey_inj` (a separated key determines both halves when
the first half is free of the separator).
-/

namespace KappaRegistry.Lib

open String List Option

/-! ## Prefixes, suffixes, substrings -/

/-- Whether `s` starts with `p`, character by character. -/
def startsWith (s p : String) : Bool := p.toList.isPrefixOf s.toList

/-- Whether `s` ends with `p`. -/
def endsWith (s p : String) : Bool := p.toList.isSuffixOf s.toList

/-- Whether `p` occurs in `s` as a block of consecutive characters. -/
def containsText (s p : String) : Bool := s.toList.tails.any fun t => p.toList.isPrefixOf t

variable {s p : String}

theorem startsWith_iff : startsWith s p = true ↔ ∃ t : String, s = p ++ t := by
  unfold startsWith
  rw [List.isPrefixOf_iff_prefix]
  constructor
  · intro ⟨t, ht⟩
    exact ⟨ofList t, ext (by simp [ht])⟩
  · intro ⟨t, ht⟩
    exact ⟨t.toList, by simp [ht]⟩

@[simp] theorem startsWith_append (p t : String) : startsWith (p ++ t) p = true :=
  startsWith_iff.mpr ⟨t, rfl⟩

variable {t : String}

theorem append_lt_append_left : p ++ s < p ++ t ↔ s < t := by
  have hmono : ∀ {s t : String}, s < t → p ++ s < p ++ t := by
    intro s t h
    rw [lt_iff_toList_lt, toList_append, toList_append]
    exact append_left_lt (lt_iff_toList_lt.mp h)
  refine ⟨?_, hmono⟩
  intro h
  rcases lt_trichotomy s t with hlt | heq | hgt
  · exact hlt
  · rw [heq] at h
    exact absurd h (lt_irrefl _)
  · exact absurd h (lt_asymm (hmono hgt))

theorem startsWith_of_between {p a b c : String} (ha : startsWith a p = true)
    (hc : startsWith c p = true) (hab : a < b) (hbc : b < c) : startsWith b p = true := by
  unfold startsWith at ha hc ⊢
  rw [List.isPrefixOf_iff_prefix] at ha hc ⊢
  rw [lt_iff_toList_lt] at hab hbc
  generalize a.toList = as at ha hab
  generalize b.toList = bs at hab hbc ⊢
  generalize c.toList = cs at hc hbc
  generalize p.toList = ps at ha hc ⊢
  induction ps generalizing as bs cs with
  | nil => exact List.nil_prefix
  | cons d ps ih =>
    obtain ⟨as', rfl⟩ := ha
    obtain ⟨cs', rfl⟩ := hc
    cases bs with
    | nil => exact absurd hab (not_lt_nil _)
    | cons e bs =>
      rw [List.cons_append, cons_lt_cons_iff] at hab hbc
      rcases hab with hlt | ⟨rfl, hab⟩
      · rcases hbc with hlt' | ⟨rfl, -⟩
        · exact absurd hlt (lt_asymm hlt')
        · exact absurd hlt (lt_irrefl _)
      · rcases hbc with hlt' | ⟨-, hbc⟩
        · exact absurd hlt' (lt_irrefl _)
        · rw [cons_prefix_cons]
          exact ⟨rfl, ih _ _ hab _ hbc (prefix_append ps as') (prefix_append ps cs')⟩

/-! ## Stripping, cutting and replacing -/

/-- What follows the prefix `p` of `s`. -/
def stripPrefix (s p : String) : Option String :=
  if startsWith s p then some (String.ofList (s.toList.drop p.toList.length)) else none

@[simp] theorem stripPrefix_append (p t : String) : stripPrefix (p ++ t) p = some t := by
  simp [stripPrefix]

theorem eq_append_of_stripPrefix (h : stripPrefix s p = some t) : s = p ++ t := by
  by_cases hstarts : startsWith s p = true
  · obtain ⟨t', rfl⟩ := startsWith_iff.mp hstarts
    rw [stripPrefix_append] at h
    cases h
    rfl
  · simp [stripPrefix, if_neg hstarts] at h

theorem ne_empty_of_stripPrefix (hp : p ≠ "") (h : stripPrefix s p = some t) : s ≠ "" := by
  rw [eq_append_of_stripPrefix h]
  intro heq
  exact hp (append_eq_empty_iff.mp heq).1

theorem stripPrefix_append_eq_none {q : String} (hpq : startsWith q p = false)
    (hqp : startsWith p q = false) (t : String) : stripPrefix (q ++ t) p = none := by
  have hno : ¬ startsWith (q ++ t) p = true := by
    intro h
    simp only [startsWith, List.isPrefixOf_iff_prefix, ← Bool.not_eq_true, toList_append]
      at h hpq hqp
    rcases List.prefix_or_prefix_of_prefix h (prefix_append q.toList t.toList) with hp | hq
    · exact hpq hp
    · exact hqp hq
  rw [stripPrefix, if_neg hno]

/-- What precedes the suffix `p` of `s`. -/
def stripSuffix (s p : String) : Option String :=
  if endsWith s p then some (String.ofList (s.toList.take (s.toList.length - p.toList.length)))
  else none

/-- The characters before the first occurrence of `p`, and those from it on. -/
def cutChars (p : List Char) : List Char → Option (List Char × List Char)
  | [] => if p.isEmpty then some ([], []) else none
  | c :: cs =>
    if p.isPrefixOf (c :: cs) then some ([], c :: cs)
    else (cutChars p cs).map fun (before, rest) => (c :: before, rest)

/-- The part of `s` before the first occurrence of `p`, and the part from it on. -/
def cutText (s p : String) : Option (String × String) :=
  (cutChars p.toList s.toList).map fun (before, rest) => (String.ofList before, String.ofList rest)

/-- Every occurrence of `p` becomes `q`, from the left; `skip` characters of an occurrence are left
to pass over. -/
def replaceChars (p q : List Char) : ℕ → List Char → List Char
  | _, [] => []
  | skip + 1, _ :: cs => replaceChars p q skip cs
  | 0, c :: cs =>
    if p.isPrefixOf (c :: cs) then q ++ replaceChars p q (p.length - 1) cs
    else c :: replaceChars p q 0 cs

/-- `s` with every occurrence of the non-empty text `p` replaced by `q`. -/
def replaceText (s p q : String) : String := String.ofList (replaceChars p.toList q.toList 0 s.toList)

variable {c : Char}

theorem mem_of_stripPrefix (h : stripPrefix s p = some t) (hc : c ∈ t.toList) : c ∈ s.toList := by
  unfold stripPrefix at h
  split at h
  · cases h
    exact mem_of_mem_drop (by simpa using hc)
  · cases h

theorem mem_of_stripSuffix (h : stripSuffix s p = some t) (hc : c ∈ t.toList) : c ∈ s.toList := by
  unfold stripSuffix at h
  split at h
  · cases h
    exact mem_of_mem_take (by simpa using hc)
  · cases h

section

variable {p cs before rest : List Char} (h : cutChars p cs = some (before, rest))
include h

theorem append_of_cutChars :
    before ++ rest = cs := by
  induction cs generalizing before with
  | nil =>
    unfold cutChars at h
    split at h
    · cases h
      rfl
    · cases h
  | cons c cs ih =>
    unfold cutChars at h
    split at h
    · cases h
      rfl
    · obtain ⟨⟨before', rest'⟩, hcut, heq⟩ := map_eq_some_iff.mp h
      cases heq
      rw [List.cons_append, ih hcut]

theorem cutChars_append :
    p <+: rest ∧ ∀ rest', p <+: rest' → cutChars p (before ++ rest') = some (before, rest') := by
  induction cs generalizing before with
  | nil =>
    unfold cutChars at h
    split at h
    · rename_i hempty
      cases h
      rw [List.isEmpty_iff] at hempty
      subst hempty
      refine ⟨List.nil_prefix, ?_⟩
      intro rest' _
      cases rest' with
      | nil | cons c cs => rfl
    · cases h
  | cons c cs ih =>
    unfold cutChars at h
    split_ifs at h with hstarts
    · cases h
      rw [List.isPrefixOf_iff_prefix] at hstarts
      refine ⟨hstarts, ?_⟩
      intro rest' hrest'
      cases rest' with
      | nil =>
        rw [prefix_nil] at hrest'
        rw [hrest']
        rfl
      | cons d ds =>
        rw [nil_append, cutChars, if_pos (List.isPrefixOf_iff_prefix.mpr hrest')]
    · obtain ⟨⟨before', rest''⟩, hcut, heq⟩ := map_eq_some_iff.mp h
      cases heq
      obtain ⟨hrest, hstable⟩ := ih hcut
      refine ⟨hrest, ?_⟩
      intro rest' hrest'
      -- an occurrence at the front would end before the first one does, in either text
      have hnot : ¬ p.isPrefixOf (c :: (before' ++ rest')) = true := by
        intro hfront
        apply hstarts
        rw [List.isPrefixOf_iff_prefix] at hfront ⊢
        rw [← append_of_cutChars hcut]
        obtain ⟨tail, rfl⟩ := hrest
        obtain ⟨tail', rfl⟩ := hrest'
        rw [← List.append_assoc, ← List.cons_append] at hfront ⊢
        have hshort : p <+: c :: (before' ++ p) :=
          prefix_of_prefix_length_le hfront (prefix_append _ tail') (by simp; omega)
        exact hshort.trans (prefix_append _ tail)
      rw [List.cons_append, cutChars, if_neg hnot, hstable rest' hrest']
      rfl

end

theorem append_of_cutText {before rest : String} (h : cutText s p = some (before, rest)) :
    before ++ rest = s := by
  obtain ⟨⟨bs, rs⟩, hcut, heq⟩ := map_eq_some_iff.mp h
  cases heq
  exact ext (by simpa using append_of_cutChars hcut)

/-! ## White space and case -/

def isWhitespace (c : Char) : Bool :=
  let n := c.toNat
  (9 ≤ n && n ≤ 13) || n = 0x20 || n = 0x85 || n = 0xA0 || n = 0x1680 || (0x2000 ≤ n && n ≤ 0x200A) ||
    n = 0x2028 || n = 0x2029 || n = 0x202F || n = 0x205F || n = 0x3000

theorem isWhitespace_space : ∀ c ∈ " ".toList, isWhitespace c = true :=
  all_eq_true.mp (by decide)

def trim (s : String) : String :=
  String.ofList ((s.toList.dropWhile isWhitespace).rdropWhile isWhitespace)

/-- `str::to_lowercase` of an ASCII text. -/
def asciiLower (s : String) : String := String.ofList (s.toList.map Char.toLower)

theorem trim_eq_self (hfirst : ∀ c ∈ s.toList.head?, isWhitespace c = false)
    (hlast : ∀ c ∈ s.toList.getLast?, isWhitespace c = false) : trim s = s := by
  have hstart : s.toList.dropWhile isWhitespace = s.toList := by
    cases hs : s.toList with
    | nil => rfl
    | cons c cs => rw [dropWhile_cons_of_neg (by simp [hfirst c (by simp [hs])])]
  have hend : s.toList.rdropWhile isWhitespace = s.toList := by
    rw [rdropWhile_eq_self_iff]
    intro hne
    have hc := hlast (s.toList.getLast hne) (by rw [getLast?_eq_some_getLast hne]; rfl)
    simp [hc]
  rw [trim, hstart, hend, ofList_toList]

theorem head?_toList_append (h : s.toList.head? = some c) (t : String) :
    (s ++ t).toList.head? = some c := by
  rw [toList_append, head?_append, h]
  rfl

theorem trim_append_of_whitespace {w : String} (hw : ∀ c ∈ w.toList, isWhitespace c = true) :
    trim (w ++ s) = trim s := by
  have hdrop : (w ++ s).toList.dropWhile isWhitespace = s.toList.dropWhile isWhitespace := by
    rw [toList_append, dropWhile_append_of_pos hw]
  rw [trim, trim, hdrop]

/-! ## Cutting at the last separator -/

/-- The characters before the last occurrence of `c`, if there is one. -/
def cutLast (c : Char) : List Char → Option (List Char)
  | [] => none
  | d :: ds =>
    match cutLast c ds with
    | some pre => some (d :: pre)
    | none => if d = c then some [] else none

variable {cs : List Char}

theorem cutLast_eq_none : cutLast c cs = none ↔ c ∉ cs := by
  induction cs with
  | nil => simp [cutLast]
  | cons d ds ih =>
    cases h : cutLast c ds with
    | some pre =>
      have hmem : c ∈ ds := by
        by_contra hn
        simp [ih.mpr hn] at h
      simp [cutLast, h, hmem]
    | none =>
      have hmem : c ∉ ds := ih.mp h
      by_cases hd : d = c
      · simp [cutLast, h, hd]
      · simp [cutLast, h, hd, hmem, Ne.symm hd]

theorem cutLast_eq_some {pre : List Char} :
    cutLast c cs = some pre ↔ ∃ post, cs = pre ++ c :: post ∧ c ∉ post := by
  induction cs generalizing pre with
  | nil => simp [cutLast]
  | cons d ds ih =>
    cases h : cutLast c ds with
    | some q =>
      obtain ⟨post, hds, hpost⟩ := ih.mp h
      simp only [cutLast, h, some.injEq]
      constructor
      · rintro rfl
        exact ⟨post, by simp [hds], hpost⟩
      · intro ⟨post', heq, hpost'⟩
        cases pre with
        | nil =>
          -- the cut would be at the head, but `c` still occurs in the tail
          obtain ⟨-, rfl⟩ : d = c ∧ ds = post' := by simpa using heq
          exact absurd (by simp [hds]) hpost'
        | cons p ps =>
          obtain ⟨rfl, htl⟩ : d = p ∧ ds = ps ++ c :: post' := by simpa using heq
          have hq : some q = some ps := h ▸ ih.mpr ⟨post', htl, hpost'⟩
          rw [some.inj hq]
    | none =>
      have hmem : c ∉ ds := cutLast_eq_none.mp h
      simp only [cutLast, h]
      constructor
      · intro hcut
        split at hcut
        · rename_i hd
          obtain rfl : [] = pre := some.inj hcut
          exact ⟨ds, by simp [hd], hmem⟩
        · cases hcut
      · intro ⟨post, heq, hpost⟩
        cases pre with
        | nil =>
          obtain ⟨rfl, -⟩ : d = c ∧ ds = post := by simpa using heq
          simp
        | cons p ps =>
          obtain ⟨-, htl⟩ : d = p ∧ ds = ps ++ c :: post := by simpa using heq
          exact absurd (by simp [htl]) hmem

/-- The part of `s` before its last `c`. -/
def parent (c : Char) (s : String) : Option String := (cutLast c s.toList).map String.ofList

theorem parent_eq_some :
    parent c s = some p ↔ ∃ t : String, s = p ++ String.singleton c ++ t ∧ c ∉ t.toList := by
  unfold parent
  rw [map_eq_some_iff]
  constructor
  · intro ⟨pre, hcut, hpre⟩
    subst hpre
    obtain ⟨post, hs, hpost⟩ := cutLast_eq_some.mp hcut
    exact ⟨ofList post, ext (by simp [hs]), by simpa using hpost⟩
  · intro ⟨t, hs, ht⟩
    exact ⟨p.toList, cutLast_eq_some.mpr ⟨t.toList, by simp [hs], ht⟩, by simp⟩

/-- The loop `while let Some(pos) = name.rfind(c) { name = &name[..pos]; … }`: every name it visits,
nearest first. -/
def ancestorsFrom (c : Char) : Nat → String → List String
  | 0, _ => []
  | fuel + 1, s =>
    match parent c s with
    | none => []
    | some p => p :: ancestorsFrom c fuel p

/-- Every proper ancestor of `s` in the hierarchy that `c` separates, nearest first. -/
def ancestors (c : Char) (s : String) : List String := ancestorsFrom c s.toList.length s

theorem mem_ancestorsFrom {fuel : Nat} {s x : String} (h : s.toList.length ≤ fuel) :
    x ∈ ancestorsFrom c fuel s ↔ ∃ t : String, s = x ++ String.singleton c ++ t := by
  induction fuel generalizing s with
  | zero =>
    have hs : s.toList = [] := eq_nil_of_length_eq_zero (Nat.le_zero.mp h)
    simp only [ancestorsFrom, not_mem_nil, false_iff, not_exists]
    intro t ht
    simp [ht] at hs
  | succ fuel ih =>
    cases hp : parent c s with
    | none =>
      have hno : c ∉ s.toList := by simpa [parent, cutLast_eq_none] using hp
      simp only [ancestorsFrom, hp, not_mem_nil, false_iff, not_exists]
      intro t ht
      simp [ht] at hno
    | some p =>
      obtain ⟨t, hs, ht⟩ := parent_eq_some.mp hp
      have hlen : p.toList.length ≤ fuel := by
        have : s.toList.length = p.toList.length + (t.toList.length + 1) := by simp [hs]
        omega
      simp only [ancestorsFrom, hp, mem_cons, ih hlen]
      constructor
      · rintro (rfl | ⟨u, rfl⟩)
        · exact ⟨t, hs⟩
        · exact ⟨u ++ String.singleton c ++ t, by rw [hs]; simp only [String.append_assoc]⟩
      · intro ⟨u, hu⟩
        by_cases hc : c ∈ u.toList
        · -- a cut further left: `x` is an ancestor of the parent
          right
          obtain ⟨pre, hpre⟩ := ne_none_iff_exists'.mp
            (mt cutLast_eq_none.mp (not_not.mpr hc))
          obtain ⟨post, hupost, hpost⟩ := cutLast_eq_some.mp hpre
          refine ⟨ofList pre, ?_⟩
          have hcut : cutLast c s.toList = some (x.toList ++ c :: pre) :=
            cutLast_eq_some.mpr ⟨post, by simp [hu, hupost], hpost⟩
          have hpeq : ofList (x.toList ++ c :: pre) = p := by
            simpa [parent, hcut] using hp
          exact hpeq ▸ ext (by simp)
        · left
          have hx : parent c s = some x := parent_eq_some.mpr ⟨u, hu, hc⟩
          exact (some.inj (hp.symm.trans hx)).symm

/-- **The ancestor loop is complete and exact**: it visits `x` iff `s` continues `x` after a
separator. -/
theorem mem_ancestors_iff {s x : String} :
    x ∈ ancestors c s ↔ ∃ t : String, s = x ++ String.singleton c ++ t :=
  mem_ancestorsFrom le_rfl

/-! ## Separated keys -/

/-- The key `a`, separator, `b`. -/
def joinKey (c : Char) (a b : String) : String := a ++ String.singleton c ++ b

theorem append_cons_inj {xs ys us vs : List Char} (hx : c ∉ xs) (hy : c ∉ ys)
    (h : xs ++ c :: us = ys ++ c :: vs) : xs = ys ∧ us = vs := by
  induction xs generalizing ys with
  | nil =>
    cases ys with
    | nil => simpa using h
    | cons y ys =>
      obtain ⟨rfl, -⟩ : c = y ∧ us = ys ++ c :: vs := by simpa using h
      simp at hy
  | cons x xs ih =>
    cases ys with
    | nil =>
      obtain ⟨rfl, -⟩ : x = c ∧ xs ++ c :: us = vs := by simpa using h
      simp at hx
    | cons y ys =>
      obtain ⟨rfl, htl⟩ : x = y ∧ xs ++ c :: us = ys ++ c :: vs := by simpa using h
      obtain ⟨rfl, rfl⟩ := ih (by simp_all) (by simp_all) htl
      exact ⟨rfl, rfl⟩

theorem joinKey_inj {a a' b b' : String} (ha : c ∉ a.toList) (ha' : c ∉ a'.toList) :
    joinKey c a b = joinKey c a' b' ↔ a = a' ∧ b = b' := by
  constructor
  · intro h
    have hl : a.toList ++ c :: b.toList = a'.toList ++ c :: b'.toList := by
      simpa [joinKey] using congrArg String.toList h
    obtain ⟨h₁, h₂⟩ := append_cons_inj ha ha' hl
    exact ⟨ext h₁, ext h₂⟩
  · intro ⟨ha, hb⟩
    rw [ha, hb]

end KappaRegistry.Lib
