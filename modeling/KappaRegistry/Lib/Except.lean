import Mathlib.Logic.Basic

/-!
# Computations That May Fail

Inversion rules for `Except`: from a computation that returned, the values its steps returned and
the conditions they checked. A `do` block of `need` and `ensure` steps is taken apart by
`bind_eq_ok`, `need_eq_ok` and `ensure_eq_ok`, with no case analysis on the way.
-/

namespace KappaRegistry.Lib

variable {ε α β : Type}

@[simp] theorem isOk_ok (x : α) : (Except.ok x : Except ε α).isOk = true := rfl

@[simp] theorem isOk_error (e : ε) : (Except.error e : Except ε α).isOk = false := rfl

/-- Fails with `e` unless `c` holds. -/
def ensure (c : Prop) [Decidable c] (e : ε) : Except ε Unit := if c then .ok () else .error e

@[simp] theorem ensure_eq_ok {c : Prop} [Decidable c] {e : ε} {u : Unit} :
    ensure c e = .ok u ↔ c := by
  unfold ensure
  by_cases hc : c <;> simp [hc]

/-- The value of `o`, and a failure with `e` if there is none. -/
def need (o : Option α) (e : ε) : Except ε α :=
  match o with
  | some a => .ok a
  | none => .error e

variable {a : α}

@[simp] theorem need_eq_ok {o : Option α} {e : ε} : need o e = .ok a ↔ o = some a := by
  cases o with
  | none | some b => simp [need]

variable {x : Except ε α}

theorem isOk_iff : x.isOk = true ↔ ∃ a, x = .ok a := by
  cases x with
  | error e | ok a => simp

theorem bind_eq_ok {f : α → Except ε β} {b : β} :
    (x >>= f) = .ok b ↔ ∃ a, x = .ok a ∧ f a = .ok b := by
  cases x with
  | error e =>
    show Except.error e = .ok b ↔ _
    simp
  | ok a =>
    show f a = .ok b ↔ _
    simp

@[simp] theorem pure_eq_ok {b : α} : (pure a : Except ε α) = .ok b ↔ a = b := by
  show Except.ok a = .ok b ↔ _
  rw [Except.ok.injEq]

@[simp] theorem mapError_eq_ok {ε' : Type} {f : ε → ε'} :
    x.mapError f = .ok a ↔ x = .ok a := by
  cases x with
  | error e =>
    show Except.error (f e) = .ok a ↔ _
    simp
  | ok b =>
    show Except.ok b = .ok a ↔ _
    simp

theorem map_eq_ok {f : α → β} {b : β} :
    x.map f = .ok b ↔ ∃ a, x = .ok a ∧ f a = b := by
  cases x with
  | error e | ok a => simp [Except.map]

theorem toOption_eq_some : x.toOption = some a ↔ x = .ok a := by
  cases x with
  | error e =>
    show (none : Option α) = some a ↔ _
    simp
  | ok b =>
    show some b = some a ↔ _
    simp

theorem forM_eq_ok {f : α → Except ε Unit} {l : List α} (h : l.forM f = .ok ()) :
    ∀ a ∈ l, f a = .ok () := by
  induction l with
  | nil => simp
  | cons a l ih =>
    change (f a >>= fun _ => l.forM f) = .ok () at h
    rw [bind_eq_ok] at h
    obtain ⟨_, hfirst, hrest⟩ := h
    intro b hb
    rcases List.mem_cons.mp hb with rfl | hb
    · exact hfirst
    · exact ih hrest b hb

end KappaRegistry.Lib
