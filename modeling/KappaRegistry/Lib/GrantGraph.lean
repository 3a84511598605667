import Mathlib.Data.List.Basic

/-!
# Bounded Search in a Grant Graph

Principals hand authority to each other by *grants*. Roots hold the authority themselves, and the
holder of a renewable grant may grant further. A principal has the authority if a path of grants leads
to it from a root and every grant on the path but the last one is renewable (`Path`).

`find` is the depth-first search that services run at access time: it lists the grants into a
principal in a fixed order and returns the *first* one whose source is a root or is itself found
to have a renewable grant.

* `find_sound`: what it returns ends a path no longer than its fuel;
* `find_isSome_iff`: it succeeds iff some grant into the principal is `Live`. That is less than a path:
  a supported grant that is not renewable hides every renewable one listed after it;
* `live_of_unhidden`: a path is found if no grant on it stands, in its listing, behind a grant that
  is not renewable and ends a path itself.
-/

namespace KappaRegistry.Lib

open List

/-- Principals `α`, grants `ε`, and how grants are listed. -/
structure GrantGraph (α ε : Type) where
  /-- The grants into a principal, in the order the search meets them. -/
  into : α → List ε
  /-- The principal that made the grant. -/
  source : ε → α
  /-- Whether the principal holds the authority itself. -/
  root : α → Bool
  /-- Whether the holder of the grant may grant further. -/
  renewable : ε → Bool

namespace GrantGraph

variable {α ε : Type} (g : GrantGraph α ε)

/-! ## Paths -/

/-- A path of grants into `x`, listed from its last grant back to the one a root made. -/
inductive Path : α → List ε → Prop where
  | root {x : α} {e : ε} (mem : e ∈ g.into x) (root : g.root (g.source e) = true) : Path x [e]
  | grant {x : α} {e p : ε} {ps : List ε} (mem : e ∈ g.into x) (rest : Path (g.source e) (p :: ps))
      (renewable : g.renewable p = true) : Path x (e :: p :: ps)

variable {g} {x : α} {es : List ε}

theorem Path.ne_nil (h : g.Path x es) : es ≠ [] := by
  cases h <;> simp

theorem Path.head_mem {e : ε} (h : g.Path x (e :: es)) : e ∈ g.into x := by
  cases h with
  | root mem _ | grant mem _ _ => exact mem

theorem Path.exists_mem_into (h : g.Path x es) : ∃ e ∈ es, e ∈ g.into x := by
  cases es with
  | nil => exact absurd rfl h.ne_nil
  | cons e es => exact ⟨e, mem_cons_self, h.head_mem⟩

/-- A measure that grows from every grant to each grant into its source bounds the positions on a
path: with the last grant at position zero, no grant stands further back than its measure. -/
theorem Path.index_le {d : ε → ℕ}
    (hd : ∀ x e f, e ∈ g.into x → f ∈ g.into (g.source e) → d e < d f) (h : g.Path x es) {i : ℕ} {f : ε} (hf : es[i]? = some f) : i ≤ d f := by
  -- the measure of the last grant is what the induction has to count from
  suffices hcount : ∀ i f, es[i]? = some f → ∀ e, es.head? = some e → d e + i ≤ d f by
    obtain ⟨e, he⟩ := Option.isSome_iff_exists.mp (isSome_head?.mpr h.ne_nil)
    exact Nat.le_trans (Nat.le_add_left _ _) (hcount i f hf e he)
  clear hf
  induction h with
  | root mem _ =>
    intro i f hf e he
    cases i with
    | zero => simp_all
    | succ i => simp at hf
  | @grant x e p ps mem rest _ ih =>
    intro i f hf e' he
    obtain rfl : e = e' := by simpa using he
    cases i with
    | zero => simp_all
    | succ i =>
      have hlt := hd _ _ _ mem rest.head_mem
      have hle := ih i f (by simpa using hf) p rfl
      omega

variable (g)

/-! ## The search -/

/-- The first grant into `x` whose source is a root or has, one level down, found a renewable
grant. -/
def find : ℕ → α → Option ε
  | 0, _ => none
  | fuel + 1, x =>
    (g.into x).find? fun e => g.root (g.source e) || (find fuel (g.source e)).any g.renewable

/-- Whether the search accepts `e` with `fuel` levels left below it. -/
def supported (fuel : ℕ) (e : ε) : Bool :=
  g.root (g.source e) || (g.find fuel (g.source e)).any g.renewable

/-- The path the search succeeds through. -/
def trail : ℕ → α → Option (List ε)
  | 0, _ => none
  | fuel + 1, x =>
    match g.find (fuel + 1) x with
    | none => none
    | some e =>
      if g.root (g.source e) then some [e] else (trail fuel (g.source e)).map (e :: ·)

variable {g}

theorem find_succ (fuel : ℕ) (x : α) :
    g.find (fuel + 1) x = (g.into x).find? (g.supported fuel) := rfl

theorem supported_zero (e : ε) : g.supported 0 e = g.root (g.source e) := by
  simp [supported, find]

variable {fuel : ℕ} {e : ε}

/-- **What the search returns is authorised.** The grant it returns ends its trail, which is a
path no longer than the fuel. -/
theorem trail_of_find (h : g.find fuel x = some e) :
    ∃ es, g.trail fuel x = some (e :: es) ∧ g.Path x (e :: es) ∧ (e :: es).length ≤ fuel := by
  induction fuel generalizing x e with
  | zero => cases h
  | succ fuel ih =>
    have hfind := h
    rw [find_succ] at h
    have hmem : e ∈ g.into x := mem_of_find?_eq_some h
    have hsup : g.supported fuel e = true := find?_some h
    by_cases hroot : g.root (g.source e) = true
    · refine ⟨[], ?_, Path.root hmem hroot, by simp⟩
      simp [trail, hfind, hroot]
    · have hany : (g.find fuel (g.source e)).any g.renewable = true := by
        simpa [supported, hroot] using hsup
      obtain ⟨p, hp, hren⟩ := (Option.any_eq_true _ _).mp hany
      obtain ⟨ps, htrail, hpath, hlen⟩ := ih hp
      refine ⟨p :: ps, ?_, Path.grant hmem hpath hren, ?_⟩
      · simp [trail, hfind, hroot, htrail]
      · simpa using hlen

theorem find_sound (h : g.find fuel x = some e) :
    ∃ es, g.Path x (e :: es) ∧ (e :: es).length ≤ fuel := by
  obtain ⟨es, -, hpath, hlen⟩ := trail_of_find h
  exact ⟨es, hpath, hlen⟩

/-! ## What the search accepts -/

variable (g)

/-- A grant the search accepts with `n` levels below it: its source is a root, or some renewable
live grant into its source has no live grant listed before it that is not renewable. -/
def Live : ℕ → ε → Prop
  | 0, e => g.root (g.source e) = true
  | n + 1, e => g.root (g.source e) = true ∨
      ∃ pre p post, g.into (g.source e) = pre ++ p :: post ∧ g.renewable p = true ∧ Live n p ∧
        ∀ q ∈ pre, g.renewable q = false → ¬ Live n q

variable {g}

theorem find?_any_iff {p q : ε → Bool} {l : List ε} : (l.find? p).any q = true ↔
      ∃ pre e post, l = pre ++ e :: post ∧ q e = true ∧ p e = true ∧
        ∀ f ∈ pre, q f = false → ¬ p f = true := by
  induction l with
  | nil => simp
  | cons f l ih =>
    by_cases hp : p f = true
    · rw [find?_cons_of_pos hp]
      refine ⟨fun hq => ⟨[], f, l, rfl, by simpa using hq, hp, by simp⟩, ?_⟩
      intro ⟨pre, e, post, hl, hqe, _, hpre⟩
      cases pre with
      | nil =>
        obtain ⟨rfl, -⟩ : f = e ∧ l = post := by simpa using hl
        simpa using hqe
      | cons f' pre =>
        obtain ⟨rfl, -⟩ : f = f' ∧ l = pre ++ e :: post := by simpa using hl
        -- `f` itself matches and is listed first, so it must satisfy `q`
        by_contra hq
        exact hpre f (by simp) (by simpa using hq) hp
    · rw [find?_cons_of_neg hp, ih]
      constructor
      · intro ⟨pre, e, post, hl, hqe, hpe, hpre⟩
        refine ⟨f :: pre, e, post, by simp [hl], hqe, hpe, ?_⟩
        intro f₁ hf₁
        rcases mem_cons.mp hf₁ with rfl | hmem
        · exact fun _ => hp
        · exact hpre f₁ hmem
      · intro ⟨pre, e, post, hl, hqe, hpe, hpre⟩
        cases pre with
        | nil =>
          obtain ⟨rfl, -⟩ : f = e ∧ l = post := by simpa using hl
          exact absurd hpe hp
        | cons f' pre =>
          obtain ⟨-, hl'⟩ : f = f' ∧ l = pre ++ e :: post := by simpa using hl
          exact ⟨pre, e, post, hl', hqe, hpe, fun q hq => hpre q (mem_cons_of_mem _ hq)⟩

theorem supported_iff_live {n : ℕ} : g.supported n e = true ↔ g.Live n e := by
  induction n generalizing e with
  | zero => rw [supported_zero]; rfl
  | succ n ih =>
    rw [supported, Bool.or_eq_true, find_succ, find?_any_iff]
    simp only [Live, ih]

/-- **The search succeeds iff some grant into the principal is live.** -/
theorem find_isSome_iff {n : ℕ} :
    (g.find (n + 1) x).isSome = true ↔ ∃ e ∈ g.into x, g.Live n e := by
  rw [find_succ, find?_isSome]
  simp only [supported_iff_live]

theorem Live.path {n : ℕ} (hmem : e ∈ g.into x) (h : g.Live n e) : ∃ es, g.Path x (e :: es) := by
  induction n generalizing x e with
  | zero => exact ⟨[], .root hmem h⟩
  | succ n ih =>
    rcases h with hroot | ⟨pre, p, post, hinto, hrenew, hlive, -⟩
    · exact ⟨[], .root hmem hroot⟩
    · obtain ⟨ps, hps⟩ := ih (x := g.source e) (by simp [hinto]) hlive
      exact ⟨p :: ps, .grant hmem hps hrenew⟩

variable (g)

/-- No grant of the list but the first is listed behind one that is not renewable and ends a
path. -/
def Unhidden : List ε → Prop
  | e :: p :: ps =>
    (∃ pre post, g.into (g.source e) = pre ++ p :: post ∧
      ∀ q ∈ pre, g.renewable q = false → ∀ qs, ¬ g.Path (g.source e) (q :: qs)) ∧
    Unhidden (p :: ps)
  | _ => True

variable {g}

theorem live_of_unhidden {n : ℕ} (h : g.Path x (e :: es)) (hfirst : g.Unhidden (e :: es))
    (hn : es.length ≤ n) : g.Live n e := by
  induction n generalizing x e es with
  | zero =>
    cases h with
    | root _ hroot => exact hroot
    | grant => simp at hn
  | succ n ih =>
    cases h with
    | root _ hroot => exact .inl hroot
    | grant _ rest hrenew =>
      obtain ⟨⟨pre, post, hinto, hpre⟩, htail⟩ := hfirst
      refine .inr ⟨pre, _, post, hinto, hrenew, ih rest htail (by simpa using hn), ?_⟩
      intro q hq hnot hlive
      obtain ⟨qs, hqs⟩ := hlive.path (x := g.source e) (by simp [hinto, hq])
      exact hpre q hq hnot qs hqs

/-! ## One delegator -/

section

variable {y : α} {n : ℕ} (hx : g.into x ≠ []) (hfrom : ∀ e ∈ g.into x, g.source e = y)
  (hy : g.root y = false) (hroots : ∀ p ∈ g.into y, g.root (g.source p) = true)
include hx hfrom hy hroots

theorem find_of_one_delegator :
    (g.find (n + 2) x).isSome = (g.into y).head?.any g.renewable := by
  have hhead : g.find (n + 1) y = (g.into y).head? := by
    rw [find_succ]
    cases hlist : g.into y with
    | nil => rfl
    | cons p ps =>
      refine find?_cons_of_pos ?_
      simp [supported, hroots p (by simp [hlist])]
  have hsup : ∀ e ∈ g.into x, g.supported (n + 1) e = (g.into y).head?.any g.renewable := by
    intro e he
    rw [supported, hfrom e he, hy, hhead, Bool.false_or]
  obtain ⟨e, he⟩ := exists_mem_of_ne_nil _ hx
  rw [find_succ, Bool.eq_iff_iff, find?_isSome]
  exact ⟨fun ⟨f, hf, h⟩ => hsup f hf ▸ h, fun h => ⟨e, he, (hsup e he).trans h⟩⟩

theorem path_of_one_delegator :
    (∃ es, g.Path x es ∧ es.length ≤ n + 2) ↔ ∃ p ∈ g.into y, g.renewable p = true := by
  constructor
  · intro ⟨es, hpath, _⟩
    cases hpath with
    | root mem hroot =>
      rw [hfrom _ mem, hy] at hroot
      cases hroot
    | grant mem rest hrenew =>
      rw [hfrom _ mem] at rest
      exact ⟨_, rest.head_mem, hrenew⟩
  · intro ⟨p, hp, hrenew⟩
    obtain ⟨e, he⟩ := exists_mem_of_ne_nil _ hx
    have hrest : g.Path (g.source e) [p] := .root (by rwa [hfrom e he]) (hroots p hp)
    exact ⟨[e, p], .grant he hrest hrenew, by simp⟩

/-- **One delegator.** If every grant into `x` comes from `y`, which is no root, and roots made all
grants into `y`, then paths to `x` are found iff the first grant into `y` is renewable as soon as
one is. -/
theorem found_of_one_delegator :
    ((∃ es, g.Path x es ∧ es.length ≤ n + 2) → (g.find (n + 2) x).isSome = true) ↔
      ((∃ p ∈ g.into y, g.renewable p = true) →
        ∀ first, (g.into y).head? = some first → g.renewable first = true) := by
  rw [path_of_one_delegator hx hfrom hy hroots, find_of_one_delegator hx hfrom hy hroots]
  refine forall_congr' fun ⟨p, hp, _⟩ => ?_
  obtain ⟨first, hfirst⟩ := Option.isSome_iff_exists.mp (isSome_head?.mpr (ne_nil_of_mem hp))
  simp [hfirst]

end

end GrantGraph

end KappaRegistry.Lib
