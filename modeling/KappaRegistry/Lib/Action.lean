import KappaRegistry.Lib.Except

/-!
# Actions

An action reads and changes a state and returns a value or fails; a failure keeps the changes that
were made before it. `Spec P m Q E` says that from every state with `P`, the action `m` either
returns a value and a state with `Q`, or fails in a state with `E`. There is one rule for each way
to build an action, and `Spec.bind` chains them, so that a program is verified step by step with
the assertions that hold between its steps.
-/

namespace KappaRegistry.Lib

/-- A computation on states `σ` that returns an `α` or fails with an `ε`. -/
def Action (σ ε α : Type) : Type := σ → Except ε α × σ

namespace Action

variable {σ τ ε ε' α β : Type}

instance : Monad (Action σ ε) where
  pure a := fun s => (.ok a, s)
  bind m f := fun s =>
    match m s with
    | (.ok a, s') => f a s'
    | (.error e, s') => (.error e, s')

variable {m : Action σ ε α} {f : α → Action σ ε β}

theorem bind_of_ok {s s' : σ} {a : α} (h : m s = (.ok a, s')) : (m >>= f) s = f a s' := by
  unfold bind Monad.toBind instMonad
  dsimp only
  rw [h]

theorem bind_of_error {s s' : σ} {e : ε}
    (h : m s = (.error e, s')) : (m >>= f) s = (.error e, s') := by
  unfold bind Monad.toBind instMonad
  dsimp only
  rw [h]

def fail (e : ε) : Action σ ε α := fun s => (.error e, s)

def current : Action σ ε σ := fun s => (.ok s, s)

def update (f : σ → σ) : Action σ ε Unit := fun s => (.ok (), f s)

/-- The outcome of an action, as a value. -/
def attempt (m : Action σ ε α) : Action σ ε (Except ε α) := fun s => (.ok (m s).1, (m s).2)

/-- Runs an action whatever its outcome is. -/
def ignore (m : Action σ ε α) : Action σ ε Unit := fun s => (.ok (), (m s).2)

/-- A computation that does not look at the state. -/
def lift (x : Except ε α) : Action σ ε α := fun s => (x, s)

/-- An action on a part of the state, with its errors mapped. -/
def within (get : τ → σ) (put : σ → τ → τ) (f : ε → ε') (m : Action σ ε α) : Action τ ε' α :=
  fun t => ((m (get t)).1.mapError f, put (m (get t)).2 t)

/-! ## Specifications -/

/-- From `P`, a returned value and its state have `Q`, and a failure has `E`. -/
def Spec (P : σ → Prop) (m : Action σ ε α) (Q : α → σ → Prop) (E : ε → σ → Prop) : Prop :=
  ∀ s, P s → (∀ a, (m s).1 = .ok a → Q a (m s).2) ∧ ∀ e, (m s).1 = .error e → E e (m s).2

/-- The action keeps a property of the state, whether it fails or not. -/
abbrev Keeps (I : σ → Prop) (m : Action σ ε α) : Prop := Spec I m (fun _ => I) fun _ => I

namespace Spec

variable {P P' : σ → Prop} {Q Q' : α → σ → Prop} {E E' : ε → σ → Prop} {m : Action σ ε α}

theorem mono (h : Spec P m Q E) (hP : ∀ s, P' s → P s) (hQ : ∀ a s, Q a s → Q' a s)
    (hE : ∀ e s, E e s → E' e s) : Spec P' m Q' E' := by
  intro s hs
  obtain ⟨hok, herror⟩ := h s (hP s hs)
  exact ⟨fun a ha => hQ a _ (hok a ha), fun e he => hE e _ (herror e he)⟩

theorem pre (h : Spec P m Q E) (hP : ∀ s, P' s → P s) : Spec P' m Q E :=
  h.mono hP (fun _ _ hq => hq) (fun _ _ he => he)

theorem post (h : Spec P m Q E) (hQ : ∀ a s, Q a s → Q' a s) (hE : ∀ e s, E e s → E' e s) :
    Spec P m Q' E' :=
  h.mono (fun _ hs => hs) hQ hE

theorem errors (h : Spec P m Q E) (hE : ∀ e s, E e s → E' e s) : Spec P m Q E' :=
  h.post (fun _ _ hq => hq) hE

theorem of_forall (h : ∀ s, P s → Spec (fun s' => s' = s) m Q E) : Spec P m Q E :=
  fun s hs => h s hs s rfl

theorem of_fact {c : Prop} (h : c → Spec P m Q E) : Spec (fun s => c ∧ P s) m Q E :=
  fun s hs => h hs.1 s hs.2

theorem of_exists {ι : Type} {R : ι → σ → Prop} (h : ∀ i, Spec (R i) m Q E) :
    Spec (fun s => ∃ i, R i s) m Q E := by
  rintro s ⟨i, hi⟩
  exact h i s hi

variable {E' : ε → σ → Prop}

theorem pure {a : α} (h : ∀ s, P s → Q a s) : Spec P (Pure.pure a : Action σ ε α) Q E := by
  intro s hs
  refine ⟨?_, fun e he => nomatch he⟩
  intro b hb
  cases hb
  exact h s hs

theorem fail {e : ε} (h : ∀ s, P s → E e s) : Spec P (Action.fail e : Action σ ε α) Q E := by
  intro s hs
  refine ⟨fun a ha => (nomatch ha), ?_⟩
  intro e' he
  cases he
  exact h s hs

theorem update {f : σ → σ} {Q : Unit → σ → Prop} (h : ∀ s, P s → Q () (f s)) :
    Spec P (Action.update f : Action σ ε Unit) Q E := by
  intro s hs
  exact ⟨fun _ _ => h s hs, fun e he => nomatch he⟩

theorem lift {x : Except ε α} (hok : ∀ a, x = .ok a → ∀ s, P s → Q a s)
    (herror : ∀ e, x = .error e → ∀ s, P s → E e s) : Spec P (Action.lift x) Q E := by
  intro s hs
  exact ⟨fun a ha => hok a ha s hs, fun e he => herror e he s hs⟩

variable {R : β → σ → Prop}

theorem bind {f : α → Action σ ε β} (hm : Spec P m Q E)
    (hf : ∀ a, Spec (Q a) (f a) R E) : Spec P (m >>= f) R E := by
  intro s hs
  obtain ⟨hok, herror⟩ := hm s hs
  have heq : (m >>= f) s = match m s with | (.ok a, s') => f a s' | (.error e, s') => (.error e, s') := rfl
  rw [heq]
  rcases hms : m s with ⟨outcome, s'⟩
  rw [hms] at hok herror
  cases outcome with
  | ok a => exact hf a s' (hok a rfl)
  | error e =>
    refine ⟨fun b hb => (nomatch hb), ?_⟩
    intro e' he
    cases he
    exact herror e rfl

theorem bind_current {f : σ → Action σ ε β}
    (h : ∀ s, P s → Spec (fun s' => s' = s) (f s) R E) : Spec P (Action.current >>= f) R E :=
  fun s hs => h s hs s rfl

theorem attempt (h : Spec P m Q E) :
    Spec P m.attempt (fun r s => (∀ a, r = .ok a → Q a s) ∧ ∀ e, r = .error e → E e s) E' := by
  intro s hs
  refine ⟨?_, fun e he => nomatch he⟩
  intro r hr
  cases hr
  exact h s hs

theorem ignore {R : Unit → σ → Prop} (h : Spec P m Q E)
    (hok : ∀ a s, Q a s → R () s) (herror : ∀ e s, E e s → R () s) : Spec P m.ignore R E' := by
  intro s hs
  refine ⟨?_, fun e he => nomatch he⟩
  intro u _
  obtain ⟨hq, he⟩ := h s hs
  show R () (m s).2
  cases houtcome : (m s).1 with
  | ok a => exact hok a _ (hq a houtcome)
  | error e => exact herror e _ (he e houtcome)

theorem ignored {R : σ → Prop} (h : Spec P m (fun _ => R) fun _ => R) :
    Spec P m.ignore (fun _ => R) E' :=
  h.ignore (fun _ _ hs => hs) fun _ _ hs => hs

theorem ite {c : Prop} [Decidable c] {m' : Action σ ε α} (hpos : c → Spec P m Q E)
    (hneg : ¬ c → Spec P m' Q E) : Spec P (if c then m else m') Q E := by
  by_cases hc : c
  · rw [if_pos hc]
    exact hpos hc
  · rw [if_neg hc]
    exact hneg hc

variable {get : τ → σ} {put : σ → τ → τ}

theorem within {f : ε → ε'} {R : τ → Prop} {Q' : α → τ → Prop} {E' : ε' → τ → Prop}
    (h : ∀ t, R t → Spec (fun s => s = get t) m (fun a s => Q' a (put s t)) fun e s =>
      E' (f e) (put s t)) : Spec R (m.within get put f) Q' E' := by
  intro t ht
  obtain ⟨hok, herror⟩ := h t ht (get t) rfl
  constructor
  · intro a ha
    exact hok a (mapError_eq_ok.mp ha)
  · intro e' he
    have hmap : ((m (get t)).1.mapError f) = .error e' := he
    cases houtcome : (m (get t)).1 with
    | ok b =>
      rw [houtcome] at hmap
      cases hmap
    | error e =>
      rw [houtcome] at hmap
      cases hmap
      exact herror e houtcome

theorem within_at (f : ε → ε') (t : τ)
    (hget : ∀ s, get (put s t) = s) (hput : ∀ s s', put s' (put s t) = put s' t)
    (h : Spec P m Q E) : Spec (fun t' => ∃ s, P s ∧ t' = put s t) (m.within get put f)
      (fun a t' => ∃ s, Q a s ∧ t' = put s t) fun _ t' => ∃ e s, E e s ∧ t' = put s t := by
  refine .within ?_
  rintro t' ⟨s, hs, rfl⟩
  rw [hget]
  refine h.mono ?_ ?_ ?_
  · rintro s' rfl
    exact hs
  · intro a s' hq
    exact ⟨s', hq, hput s s'⟩
  · intro e s' he
    exact ⟨e, s', he, hput s s'⟩

end Spec

end Action

end KappaRegistry.Lib
