import Mathlib.Data.List.Basic

/-!
# Prefix-Free Codes

Fields that are written one after the other, with no length of the whole, can be taken apart from the
front if each of them is a word of a code in which no word begins another.
-/

namespace KappaRegistry.Lib

variable {α β : Type}

/-- The words of the values with `P` can be told apart, whatever follows them. -/
def PrefixFree (P : α → Prop) (code : α → List β) : Prop :=
  ∀ ⦃a b : α⦄, P a → P b → ∀ {x y : List β}, code a ++ x = code b ++ y → a = b ∧ x = y

/-- A list after its length. -/
theorem PrefixFree.withLength {P : ℕ → Prop} {head : ℕ → List β} (h : PrefixFree P head) :
    PrefixFree (fun xs : List β => P xs.length) fun xs => head xs.length ++ xs := by
  intro a b ha hb x y heq
  rw [List.append_assoc, List.append_assoc] at heq
  obtain ⟨hlength, hrest⟩ := h ha hb heq
  exact List.append_inj hrest hlength

end KappaRegistry.Lib
