import KappaRegistry.Lib.Separated

/-!
# Splitting at a Separator

The two ways a text format is taken apart: at every separator (`pieces`), and at the first one
(`splitOnce`). Both are stated over lists of any type, so they serve texts and byte strings alike.

Splitting is the inverse of joining: `pieces_intercalate` for pieces that are free of the
separator, and `intercalate_pieces` for any list. `splitOnce_eq_some` determines the first cut.
`splitText`, `joinText` and `splitOnceText` are the same on texts.
-/

namespace KappaRegistry.Lib

open List

variable {α : Type} [DecidableEq α] {sep : α}

/-! ## Every separator -/

/-- The maximal blocks without `sep`, in order; there is always at least one. -/
def pieces (sep : α) : List α → List (List α)
  | [] => [[]]
  | c :: cs => if c = sep then [] :: pieces sep cs else (pieces sep cs).modifyHead (c :: ·)

theorem pieces_ne_nil (cs : List α) : pieces sep cs ≠ [] := by
  induction cs with
  | nil => simp [pieces]
  | cons c cs ih =>
    by_cases hc : c = sep
    · simp [pieces, hc]
    · simp only [pieces, if_neg hc]
      cases h : pieces sep cs with
      | nil => exact absurd h ih
      | cons p ps => simp

theorem pieces_append_cons (as bs : List α) :
    pieces sep (as ++ sep :: bs) = pieces sep as ++ pieces sep bs := by
  induction as with
  | nil => simp [pieces]
  | cons a as ih =>
    by_cases ha : a = sep
    · simp [pieces, ha, ih]
    · simp only [cons_append, pieces, if_neg ha, ih]
      cases h : pieces sep as with
      | nil => exact absurd h (pieces_ne_nil as)
      | cons p ps => simp

variable {cs : List α}

theorem pieces_of_notMem (h : sep ∉ cs) : pieces sep cs = [cs] := by
  induction cs with
  | nil => rfl
  | cons c cs ih =>
    have hc : ¬ c = sep := fun hc => h (by simp [hc])
    simp only [pieces, if_neg hc, ih (fun hmem => h (mem_cons_of_mem _ hmem)),
      modifyHead_cons]

theorem notMem_of_mem_pieces {cs p : List α} (h : p ∈ pieces sep cs) : sep ∉ p := by
  induction cs generalizing p with
  | nil =>
    obtain rfl : p = [] := by simpa [pieces] using h
    simp
  | cons c cs ih =>
    by_cases hc : c = sep
    · simp only [pieces, if_pos hc, mem_cons] at h
      rcases h with rfl | h
      · simp
      · exact ih h
    · simp only [pieces, if_neg hc] at h
      cases hps : pieces sep cs with
      | nil => exact absurd hps (pieces_ne_nil cs)
      | cons q qs =>
        rw [hps, modifyHead_cons, mem_cons] at h
        rcases h with rfl | h
        · have hq : sep ∉ q := ih (by simp [hps])
          simp [hq, Ne.symm hc]
        · exact ih (by simp [hps, h])

/-- **Splitting undoes joining**, when no piece holds the separator. -/
theorem pieces_intercalate {p : List α} {ps : List (List α)} (hp : sep ∉ p)
    (hps : ∀ q ∈ ps, sep ∉ q) : pieces sep ([sep].intercalate (p :: ps)) = p :: ps := by
  induction ps generalizing p with
  | nil => simpa [intercalate] using pieces_of_notMem hp
  | cons q qs ih =>
    have hrest := ih (hps q (by simp)) (fun r hr => hps r (by simp [hr]))
    have hcons : [sep].intercalate (p :: q :: qs) = p ++ sep :: [sep].intercalate (q :: qs) := by
      simp [intercalate]
    rw [hcons, pieces_append_cons, pieces_of_notMem hp, hrest, singleton_append]

/-- **Joining undoes splitting.** -/
theorem intercalate_pieces (cs : List α) : [sep].intercalate (pieces sep cs) = cs := by
  induction cs with
  | nil => simp [pieces, intercalate]
  | cons c cs ih =>
    cases hps : pieces sep cs with
    | nil => exact absurd hps (pieces_ne_nil cs)
    | cons p ps =>
      rw [hps] at ih
      by_cases hc : c = sep
      · simp only [pieces, if_pos hc, hps]
        rw [← ih, hc]
        simp [intercalate]
      · simp only [pieces, if_neg hc, hps, modifyHead_cons]
        rw [← ih]
        cases ps with
        | nil | cons q qs => simp [intercalate]

/-! ## The first separator -/

/-- What is before the first `sep`, and what is after it. -/
def splitOnce (sep : α) : List α → Option (List α × List α)
  | [] => none
  | c :: cs => if c = sep then some ([], cs) else (splitOnce sep cs).map fun (a, b) => (c :: a, b)

theorem splitOnce_eq_some {cs a b : List α} :
    splitOnce sep cs = some (a, b) ↔ cs = a ++ sep :: b ∧ sep ∉ a := by
  induction cs generalizing a with
  | nil => simp [splitOnce]
  | cons c cs ih =>
    by_cases hc : c = sep
    · subst hc
      simp only [splitOnce, if_pos, Option.some.injEq, Prod.mk.injEq]
      constructor
      · rintro ⟨rfl, rfl⟩
        simp
      · intro ⟨heq, hmem⟩
        cases a with
        | nil => simpa using heq
        | cons d ds =>
          obtain ⟨rfl, -⟩ : c = d ∧ cs = ds ++ c :: b := by simpa using heq
          simp at hmem
    · simp only [splitOnce, if_neg hc, Option.map_eq_some_iff, Prod.exists, Prod.mk.injEq]
      constructor
      · rintro ⟨a', b', hsplit, rfl, rfl⟩
        obtain ⟨rfl, hmem⟩ := ih.mp hsplit
        simp [hmem, Ne.symm hc]
      · intro ⟨heq, hmem⟩
        cases a with
        | nil =>
          obtain ⟨rfl, -⟩ : c = sep ∧ cs = b := by simpa using heq
          exact absurd rfl hc
        | cons d ds =>
          obtain ⟨rfl, htl⟩ : c = d ∧ cs = ds ++ sep :: b := by simpa using heq
          exact ⟨ds, b, ih.mpr ⟨htl, fun h => hmem (mem_cons_of_mem _ h)⟩, rfl, rfl⟩

theorem splitOnce_eq_none : splitOnce sep cs = none ↔ sep ∉ cs := by
  induction cs with
  | nil => simp [splitOnce]
  | cons c cs ih =>
    by_cases hc : c = sep
    · simp [splitOnce, hc]
    · simp [splitOnce, hc, ih, Ne.symm hc]

/-! ## The last separator -/

/-- What is before the last `sep`, and what is after it. -/
def rsplitOnce (sep : α) (cs : List α) : Option (List α × List α) :=
  (splitOnce sep cs.reverse).map fun (a, b) => (b.reverse, a.reverse)

theorem rsplitOnce_eq_some {cs a b : List α} :
    rsplitOnce sep cs = some (a, b) ↔ cs = a ++ sep :: b ∧ sep ∉ b := by
  simp only [rsplitOnce, Option.map_eq_some_iff, Prod.exists, splitOnce_eq_some, Prod.mk.injEq]
  constructor
  · rintro ⟨b', a', ⟨hcs, hmem⟩, rfl, rfl⟩
    have := congrArg reverse hcs
    simp_all
  · rintro ⟨rfl, hmem⟩
    exact ⟨b.reverse, a.reverse, by simp [hmem], by simp⟩

theorem rsplitOnce_eq_none : rsplitOnce sep cs = none ↔ sep ∉ cs := by
  simp [rsplitOnce, splitOnce_eq_none]

/-! ## At most so many pieces -/

/-- `splitn`: after `n - 1` cuts the rest is one piece, whatever it holds. -/
def splitN (sep : α) : ℕ → List α → List (List α)
  | 0, _ => []
  | 1, cs => [cs]
  | n + 2, cs =>
    match splitOnce sep cs with
    | none => [cs]
    | some (a, b) => a :: splitN sep (n + 1) b

variable {a : List α}

theorem splitN_append_cons (h : sep ∉ a) (n : ℕ) (b : List α) :
    splitN sep (n + 2) (a ++ sep :: b) = a :: splitN sep (n + 1) b := by
  have hcut : splitOnce sep (a ++ sep :: b) = some (a, b) := splitOnce_eq_some.mpr ⟨rfl, h⟩
  rw [splitN, hcut]

theorem splitN_of_notMem (h : sep ∉ cs) (n : ℕ) : splitN sep (n + 1) cs = [cs] := by
  cases n with
  | zero => rfl
  | succ n => rw [splitN, splitOnce_eq_none.mpr h]

/-! ## Texts -/

/-- `str::split` at a character. -/
def splitText (sep : Char) (s : String) : List String := (pieces sep s.toList).map String.ofList

/-- `join` with a character. -/
def joinText (sep : Char) (ps : List String) : String :=
  String.ofList ([sep].intercalate (ps.map String.toList))

/-- `str::split_once`. -/
def splitOnceText (sep : Char) (s : String) : Option (String × String) :=
  (splitOnce sep s.toList).map fun (a, b) => (String.ofList a, String.ofList b)

/-- `str::splitn`. -/
def splitNText (sep : Char) (n : ℕ) (s : String) : List String :=
  (splitN sep n s.toList).map String.ofList

variable {sep : Char}

theorem splitText_of_notMem {s : String} (h : sep ∉ s.toList) :
    splitText sep s = [s] := by
  simp [splitText, pieces_of_notMem h]

theorem splitText_append (s t : String) :
    splitText sep (s ++ String.singleton sep ++ t) = splitText sep s ++ splitText sep t := by
  simp [splitText, pieces_append_cons]

theorem splitText_joinText {p : String} {ps : List String} (hp : sep ∉ p.toList)
    (hps : ∀ q ∈ ps, sep ∉ q.toList) : splitText sep (joinText sep (p :: ps)) = p :: ps := by
  have hchars : ∀ q ∈ ps.map String.toList, sep ∉ q := by
    intro q hq
    obtain ⟨r, hr, rfl⟩ := mem_map.mp hq
    exact hps r hr
  simp [splitText, joinText, pieces_intercalate hp hchars]

theorem joinText_splitText (s : String) : joinText sep (splitText sep s) = s := by
  have hid : (String.toList ∘ String.ofList) = id := by
    funext cs
    simp
  simp [joinText, splitText, hid, intercalate_pieces]

theorem splitOnceText_eq_some {s a b : String} :
    splitOnceText sep s = some (a, b) ↔ s = a ++ String.singleton sep ++ b ∧ sep ∉ a.toList := by
  unfold splitOnceText
  rw [Option.map_eq_some_iff]
  constructor
  · rintro ⟨⟨as, bs⟩, hcut, heq⟩
    cases heq
    obtain ⟨hs, hmem⟩ := splitOnce_eq_some.mp hcut
    exact ⟨String.ext (by simp [hs]), by simpa using hmem⟩
  · rintro ⟨rfl, hmem⟩
    exact ⟨(a.toList, b.toList), splitOnce_eq_some.mpr ⟨by simp, hmem⟩, by simp⟩

theorem of_mem_splitText {c : Char} {s p : String} (hp : p ∈ splitText sep s)
    (hc : c ∈ p.toList) : c ∈ s.toList := by
  obtain ⟨cs, hcs, rfl⟩ := mem_map.mp hp
  rw [String.toList_ofList] at hc
  have hjoin : [sep].intercalate (pieces sep s.toList) = s.toList := intercalate_pieces s.toList
  rw [← hjoin]
  exact mem_intercalate_of_mem hcs hc

end KappaRegistry.Lib
