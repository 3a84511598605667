import Mathlib.Algebra.Group.Nat.Defs
import Mathlib.Order.Nat

/-!
# The Persisted Counter

`SoftwareCounter` of `kappa-core/src/counter.rs`. An increment counts up in memory, writes its number
to a temporary file and renames that file over the persisted one. Calls interleave between these
steps, and they share the temporary file: a call that was overtaken leaves its smaller number on disk,
and after a restart the larger one is returned again (`increment_repeats`). Nothing repeats as long as
no rename puts a number on disk that is smaller than the caller's own or the one there
(`increment_fresh`).
-/

namespace KappaRegistry

/-- The number in memory, the numbers in the two files, and the calls under way. -/
structure SoftwareCounter where
  value : ℕ
  tmp : Option ℕ
  persisted : Option ℕ
  /-- Calls that have their number. -/
  fetched : List ℕ
  /-- Calls that have written it to the temporary file. -/
  written : List ℕ
  /-- What calls returned. -/
  returned : List ℕ

/-- A step of a call; after the first one the call is known by its number. -/
inductive CounterStep where
  | fetchAdd
  | write (newVal : ℕ)
  | rename (newVal : ℕ)

namespace SoftwareCounter

/-- `SoftwareCounter::new` on the persisted file; calls of an earlier process are gone. -/
def new (tmp persisted : Option ℕ) : SoftwareCounter :=
  ⟨persisted.getD 0, tmp, persisted, [], [], []⟩

def step (c : SoftwareCounter) : CounterStep → SoftwareCounter
  | .fetchAdd =>
    let newVal := (c.value + 1) % 2 ^ 64
    { c with value := newVal, fetched := newVal :: c.fetched }
  | .write newVal =>
    if newVal ∈ c.fetched then
      { c with tmp := some newVal, fetched := c.fetched.erase newVal, written := newVal :: c.written }
    else c
  | .rename newVal =>
    if newVal ∈ c.written then
      match c.tmp with
      | some n =>
        { c with
          tmp := none
          persisted := some n
          written := c.written.erase newVal
          returned := newVal :: c.returned }
      -- Another call has moved the file away, and the rename fails.
      | none => { c with written := c.written.erase newVal }
    else c

def run (c : SoftwareCounter) (steps : List CounterStep) : SoftwareCounter := steps.foldl step c

def restart (c : SoftwareCounter) : SoftwareCounter := new c.tmp c.persisted

/-- The counter does not wrap, and no rename puts a number on disk that is smaller than the caller's
own or the one there. -/
def inOrder (c : SoftwareCounter) : CounterStep → Bool
  | .fetchAdd => decide (c.value + 1 < 2 ^ 64)
  | .write _ => true
  | .rename newVal => c.tmp.all fun n => decide (newVal ≤ n ∧ c.persisted.getD 0 ≤ n)

def ordered : SoftwareCounter → List CounterStep → Bool
  | _, [] => true
  | c, st :: steps => c.inOrder st && ordered (c.step st) steps

/-- Every number is greater than `base`, and what was returned is at most what is on disk. -/
structure Inv (base : ℕ) (c : SoftwareCounter) : Prop where
  value : base ≤ c.value
  fetched : ∀ n ∈ c.fetched, base < n
  written : ∀ n ∈ c.written, base < n
  returned : ∀ n ∈ c.returned, base < n ∧ n ≤ c.persisted.getD 0

variable {base : ℕ} {c : SoftwareCounter}

theorem inv_new (tmp persisted : Option ℕ) : Inv (persisted.getD 0) (new tmp persisted) :=
  ⟨le_rfl, by simp [new], by simp [new], by simp [new]⟩

theorem Inv.step (h : Inv base c) {st : CounterStep} (hst : c.inOrder st = true) :
    Inv base (c.step st) := by
  cases st with
  | fetchAdd =>
    have hnew : base < (c.value + 1) % 2 ^ 64 := by
      rw [Nat.mod_eq_of_lt (of_decide_eq_true hst)]
      exact Nat.lt_succ_of_le h.value
    exact ⟨hnew.le, List.forall_mem_cons.mpr ⟨hnew, h.fetched⟩, h.written, h.returned⟩
  | write newVal =>
    simp only [SoftwareCounter.step]
    split_ifs with hmem
    · exact ⟨h.value, fun n hn => h.fetched n (List.mem_of_mem_erase hn),
        List.forall_mem_cons.mpr ⟨h.fetched newVal hmem, h.written⟩, h.returned⟩
    · exact h
  | rename newVal =>
    have herase : ∀ n ∈ c.written.erase newVal, base < n :=
      fun n hn => h.written n (List.mem_of_mem_erase hn)
    simp only [SoftwareCounter.step]
    split_ifs with hmem
    · cases htmp : c.tmp with
      | none => exact ⟨h.value, h.fetched, herase, h.returned⟩
      | some m =>
        rw [inOrder, htmp] at hst
        obtain ⟨hown, hdisk⟩ := of_decide_eq_true hst
        refine ⟨h.value, h.fetched, herase,
          List.forall_mem_cons.mpr ⟨⟨h.written newVal hmem, hown⟩, ?_⟩⟩
        intro n hn
        exact ⟨(h.returned n hn).1, (h.returned n hn).2.trans hdisk⟩
    · exact h

theorem Inv.run (h : Inv base c) {steps : List CounterStep} (hsteps : c.ordered steps = true) :
    Inv base (c.run steps) := by
  induction steps generalizing c with
  | nil => exact h
  | cons st steps ih =>
    obtain ⟨hst, hsteps⟩ := Bool.and_eq_true_iff.mp hsteps
    exact ih (h.step hst) hsteps

/-- **A number returned before a restart is not returned after it**, in every interleaving whose
renames keep the order. -/
theorem increment_fresh {tmp persisted : Option ℕ} {before after : List CounterStep}
    (hbefore : (new tmp persisted).ordered before = true)
    (hafter : ((new tmp persisted).run before).restart.ordered after = true) :
    ∀ n ∈ ((new tmp persisted).run before).returned,
      n ∉ (((new tmp persisted).run before).restart.run after).returned := by
  intro n hn hagain
  have hdisk := (((inv_new tmp persisted).run hbefore).returned n hn).2
  have hnew := (((inv_new _ _).run hafter).returned n hagain).1
  omega

theorem increment_fresh_two :
    let c := (new none none).run [.fetchAdd, .fetchAdd, .write 1, .rename 1, .write 2, .rename 2]
    c.returned = [2, 1] ∧
      ∀ n ∈ c.returned, n ∉ (c.restart.run [.fetchAdd, .write 3, .rename 3]).returned :=
  ⟨by decide, increment_fresh (by decide) (by decide)⟩

/-- The call with number 1 is overtaken by the call with number 2. -/
theorem increment_repeats :
    let c := (new none none).run [.fetchAdd, .fetchAdd, .write 2, .rename 2, .write 1, .rename 1]
    2 ∈ c.returned ∧ 2 ∈ (c.restart.run [.fetchAdd, .write 2, .rename 2]).returned := by
  decide

end SoftwareCounter

end KappaRegistry
