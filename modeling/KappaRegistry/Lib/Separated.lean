import Mathlib.Data.List.Infix

/-!
# Lists Joined by a Longer Separator

`List.intercalate` with a separator whose first element does not occur in the rest of it. A list of
parts is determined by its join if no part holds the separator (`intercalate_inj`), and every list is
the join of such parts (`exists_parts`).
-/

namespace KappaRegistry.Lib

open List

variable {α : Type*} {c : α} {s sep : List α}

/-- What stands after a part: nothing, or the separator and the other parts. -/
def afterPart (sep : List α) : List (List α) → List α
  | [] => []
  | p :: ps => sep ++ sep.intercalate (p :: ps)

theorem intercalate_cons (p : List α) (ps : List (List α)) :
    sep.intercalate (p :: ps) = p ++ afterPart sep ps := by
  cases ps with
  | nil => simp [afterPart]
  | cons q qs => simp [afterPart, intercalate]

theorem prefix_afterPart (ps : List (List α)) : afterPart sep ps = [] ∨ sep <+: afterPart sep ps := by
  cases ps with
  | nil => exact .inl rfl
  | cons q qs => exact .inr (prefix_append _ _)

theorem intercalate_map_append (pre p : List α) (ps : List (List α)) :
    [c].intercalate ((p :: ps).map (pre ++ ·)) = pre ++ (c :: pre).intercalate (p :: ps) := by
  induction ps generalizing p with
  | nil => simp
  | cons q qs ih =>
    have hrest := ih q
    rw [map_cons, intercalate_cons, intercalate_cons]
    show pre ++ p ++ ([c] ++ [c].intercalate ((q :: qs).map (pre ++ ·))) =
      pre ++ (p ++ (c :: pre ++ (c :: pre).intercalate (q :: qs)))
    rw [hrest]
    simp

theorem eq_nil_of_append (hc : c ∉ s) {p q x u v : List α} (hq : ¬ (c :: s) <:+: q) (hqx : q = p ++ x)
    (hux : u = x ++ v) (hu : u = [] ∨ (c :: s) <+: u) (hv : v = [] ∨ (c :: s) <+: v) : x = [] := by
  cases x with
  | nil => rfl
  | cons y x =>
    exfalso
    have hprefix : (c :: s) <+: y :: (x ++ v) := by
      rcases hu with hnil | hprefix
      · simp [hux] at hnil
      · rwa [hux] at hprefix
    obtain ⟨rfl, hs⟩ := cons_prefix_cons.mp hprefix
    rcases List.prefix_or_prefix_of_prefix hs (prefix_append x v) with hle | hle
    · -- the separator stands inside the longer part
      refine hq ?_
      rw [hqx]
      exact ((cons_prefix_cons.mpr ⟨rfl, hle⟩).isInfix).trans (suffix_append p _).isInfix
    · -- the separator starts again before it has ended
      obtain ⟨w, rfl⟩ := hle
      cases w with
      | nil =>
        refine hq ?_
        rw [hqx, append_nil]
        exact (suffix_append p _).isInfix
      | cons z w =>
        have hw : z :: w <+: v := (prefix_append_right_inj x).mp hs
        rcases hv with rfl | hv
        · simp at hw
        · obtain ⟨rest, rfl⟩ := hv
          obtain ⟨rfl, -⟩ := cons_prefix_cons.mp hw
          simp at hc

/-- **Parts are determined by their join.** -/
theorem intercalate_inj (hc : c ∉ s) {ps qs : List (List α)} (hps : ps ≠ []) (hqs : qs ≠ [])
    (hp : ∀ p ∈ ps, ¬ (c :: s) <:+: p) (hq : ∀ q ∈ qs, ¬ (c :: s) <:+: q)
    (h : (c :: s).intercalate ps = (c :: s).intercalate qs) : ps = qs := by
  induction ps generalizing qs with
  | nil => exact absurd rfl hps
  | cons p ps ih =>
    cases qs with
    | nil => exact absurd rfl hqs
    | cons q qs =>
      rw [intercalate_cons, intercalate_cons] at h
      have hpq : p = q := by
        rcases append_eq_append_iff.mp h with ⟨x, hx, hu⟩ | ⟨x, hx, hv⟩
        · have := eq_nil_of_append hc (hq q (by simp)) hx hu (prefix_afterPart ps) (prefix_afterPart qs)
          rw [hx, this, append_nil]
        · have := eq_nil_of_append hc (hp p (by simp)) hx hv (prefix_afterPart qs) (prefix_afterPart ps)
          rw [hx, this, append_nil]
      subst hpq
      have hrest := append_cancel_left h
      cases ps with
      | nil =>
        cases qs with
        | nil => rfl
        | cons r rs => simp [afterPart] at hrest
      | cons r rs =>
        cases qs with
        | nil => simp [afterPart] at hrest
        | cons r' rs' =>
          rw [ih (by simp) (by simp) (fun x hx => hp x (by simp [hx])) (fun x hx => hq x (by simp [hx]))
            (append_cancel_left hrest)]

theorem intercalate_append {ps qs : List (List α)} (hps : ps ≠ []) (hqs : qs ≠ []) :
    sep.intercalate (ps ++ qs) = sep.intercalate ps ++ sep ++ sep.intercalate qs := by
  induction ps with
  | nil => exact absurd rfl hps
  | cons p ps ih =>
    cases ps with
    | nil =>
      cases qs with
      | nil => exact absurd rfl hqs
      | cons q qs => simp [intercalate]
    | cons r rs =>
      have hrest := ih (by simp)
      rw [cons_append, intercalate_cons, intercalate_cons]
      show p ++ (sep ++ sep.intercalate ((r :: rs) ++ qs)) = _
      rw [hrest]
      simp [afterPart]

/-- **Every list is the join of parts** that do not hold the separator. -/
theorem exists_parts (hsep : sep ≠ []) (t : List α) :
    ∃ ps, ps ≠ [] ∧ (∀ p ∈ ps, ¬ sep <:+: p) ∧ sep.intercalate ps = t := by
  induction hlength : t.length using Nat.strong_induction_on generalizing t with
  | _ n ih =>
    by_cases h : sep <:+: t
    · obtain ⟨a, b, rfl⟩ := h
      have hpos := length_pos_of_ne_nil hsep
      rw [length_append, length_append] at hlength
      obtain ⟨ps, hps, hplain, ha⟩ := ih a.length (by omega) a rfl
      obtain ⟨qs, hqs, hplain', hb⟩ := ih b.length (by omega) b rfl
      refine ⟨ps ++ qs, by simp [hps], ?_, ?_⟩
      · intro p hp
        rcases mem_append.mp hp with hp | hp
        · exact hplain p hp
        · exact hplain' p hp
      · rw [intercalate_append hps hqs, ha, hb]
    · exact ⟨[t], by simp, by simpa using h, by simp⟩

theorem mem_intercalate_of_mem {ps : List (List α)} {p : List α} {x : α} (hp : p ∈ ps) (hx : x ∈ p) :
    x ∈ sep.intercalate ps := by
  induction ps with
  | nil => cases hp
  | cons q qs ih =>
    rw [intercalate_cons, mem_append]
    rcases mem_cons.mp hp with rfl | hp
    · exact .inl hx
    · cases qs with
      | nil => cases hp
      | cons r rs => exact .inr (mem_append_right _ (ih hp))

theorem of_mem_intercalate {ps : List (List α)} {x : α} (hx : x ∈ sep.intercalate ps) :
    x ∈ sep ∨ ∃ p ∈ ps, x ∈ p := by
  induction ps with
  | nil => simp [intercalate] at hx
  | cons q qs ih =>
    rw [intercalate_cons, mem_append] at hx
    rcases hx with hx | hx
    · exact .inr ⟨q, by simp, hx⟩
    · cases qs with
      | nil => cases hx
      | cons r rs =>
        rcases mem_append.mp hx with hx | hx
        · exact .inl hx
        · rcases ih hx with h | ⟨p, hp, hx⟩
          · exact .inl h
          · exact .inr ⟨p, by simp [hp], hx⟩

end KappaRegistry.Lib
