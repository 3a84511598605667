import KappaRegistry.Lib.Action
import Mathlib.Data.Nat.Notation
import Mathlib.Logic.Function.Basic

/-!
# A File System with Hard Links and Failures

Names point to inodes, and inodes hold bytes. Two names may point to one inode, and then a write through
one of them is seen through both. Any call may fail; `faults` says which of the next calls do, and how
far a failing write gets.

What programs read is `file?`, a function from names to bytes. `Ok shared d` says that only the
names in `shared` may point to a common inode. Under it the calls have specifications in terms of
`file?` alone, with `Shows`: a write changes one name, whatever links there are.
-/

namespace KappaRegistry.Lib

open Function Lib.Action

/-- Why a call failed. -/
inductive FsError where
  | notFound
  | alreadyExists
  | failed
  deriving DecidableEq

/-- Names, inodes, and what the next calls run into: `none` for a call that works, `some n` for one
that fails, in the case of a write after `n` bytes. When the list is used up, all calls work. -/
structure Disk (P : Type) where
  entry : P → Option ℕ
  content : ℕ → List UInt8
  next : ℕ
  faults : List (Option ℕ)

namespace Disk

variable {P α : Type}

def empty (faults : List (Option ℕ)) : Disk P := ⟨fun _ => none, fun _ => [], 0, faults⟩

def file? (d : Disk P) (p : P) : Option (List UInt8) := (d.entry p).map d.content

/-! ## Calls -/

def nextFault : Action (Disk P) FsError (Option ℕ) := fun d =>
  match d.faults with
  | [] => (.ok none, d)
  | fault :: faults => (.ok fault, { d with faults })

/-- A call that does nothing if it fails. -/
def call (m : Action (Disk P) FsError α) : Action (Disk P) FsError α := do
  match ← nextFault with
  | some _ => fail .failed
  | none => m

/-- A call without an effect on files, such as making a directory or syncing. -/
def settle : Action (Disk P) FsError Unit := call (pure ())

/-- Whether there is a file; also `false` if that cannot be found out. -/
def existsAt (p : P) : Action (Disk P) FsError Bool := do
  match ← nextFault with
  | some _ => pure false
  | none =>
    let d ← current
    pure (d.entry p).isSome

def readFile (p : P) : Action (Disk P) FsError (List UInt8) := call do
  let d ← current
  match d.file? p with
  | some bytes => pure bytes
  | none => fail .notFound

variable [DecidableEq P]

def setContent (i : ℕ) (bytes : List UInt8) (d : Disk P) : Disk P :=
  { d with content := Function.update d.content i bytes }

def setEntry (p : P) (i : Option ℕ) (d : Disk P) : Disk P :=
  { d with entry := Function.update d.entry p i }

/-- A new inode without bytes, under a name. -/
def addFile (p : P) (d : Disk P) : Disk P :=
  { (d.setContent d.next []).setEntry p (some d.next) with next := d.next + 1 }

def createFile (p : P) : Action (Disk P) FsError Unit := call do
  let d ← current
  match d.entry p with
  | some i => update (setContent i [])
  | none => update (addFile p)

def openFile (p : P) : Action (Disk P) FsError Unit := call do
  let d ← current
  match d.entry p with
  | some _ => pure ()
  | none => update (addFile p)

/-- Writes at the end of a file. A failing write may have written some of the bytes. -/
def append (p : P) (bytes : List UInt8) : Action (Disk P) FsError Unit := do
  let fault ← nextFault
  let d ← current
  match d.entry p with
  | none => fail .notFound
  | some i =>
    match fault with
    | none => update (setContent i (d.content i ++ bytes))
    | some n => do
      update (setContent i (d.content i ++ bytes.take n))
      fail .failed

/-- Moves a name, over the one that is there. Nothing happens if both point to the same inode. -/
def rename (p q : P) : Action (Disk P) FsError Unit := call do
  let d ← current
  match d.entry p with
  | none => fail .notFound
  | some i =>
    if d.entry q = some i then pure ()
    else update fun d => (d.setEntry p none).setEntry q (some i)

def hardLink (p q : P) : Action (Disk P) FsError Unit := call do
  let d ← current
  match d.entry p with
  | none => fail .notFound
  | some i =>
    if (d.entry q).isSome then fail .alreadyExists else update (setEntry q (some i))

def removeFile (p : P) : Action (Disk P) FsError Unit := call do
  let d ← current
  match d.entry p with
  | none => fail .notFound
  | some _ => update (setEntry p none)

/-! ## Inodes with one name -/

/-- Inodes are numbered in the order they are made, and only names in `shared` share one. -/
structure Ok (shared : P → Prop) (d : Disk P) : Prop where
  below : ∀ p i, d.entry p = some i → i < d.next
  exclusive : ∀ p q i, d.entry p = some i → d.entry q = some i → p ≠ q → shared p ∧ shared q

section

variable {shared : P → Prop} {d : Disk P} {p q : P} {i : ℕ}

omit [DecidableEq P] in
theorem ok_empty (faults : List (Option ℕ)) : (empty faults : Disk P).Ok shared :=
  ⟨fun _ _ h => (nomatch h), fun _ _ _ h => (nomatch h)⟩

omit [DecidableEq P] in
theorem file?_eq (h : d.entry p = some i) : d.file? p = some (d.content i) := by
  rw [file?, h]
  rfl

theorem file?_setEntry (p : P) (i : Option ℕ) (d : Disk P) :
    (d.setEntry p i).file? = update d.file? p (i.map d.content) := by
  funext r
  by_cases hr : r = p
  · subst hr
    simp [file?, setEntry]
  · simp [file?, setEntry, hr]

theorem file?_setContent (hok : d.Ok shared) (hp : ¬ shared p) (hi : d.entry p = some i)
    (bytes : List UInt8) : (d.setContent i bytes).file? = update d.file? p (some bytes) := by
  funext r
  by_cases hr : r = p
  · subst hr
    simp [file?, setContent, hi]
  · rw [update_of_ne hr]
    show (d.entry r).map (update d.content i bytes) = (d.entry r).map d.content
    cases hentry : d.entry r with
    | none => rfl
    | some j =>
      have hne : j ≠ i := by
        rintro rfl
        exact hp (hok.exclusive p r j hi hentry (Ne.symm hr)).1
      simp [hne]

theorem file?_addFile (hok : d.Ok shared) (p : P) :
    (d.addFile p).file? = update d.file? p (some []) := by
  funext r
  by_cases hr : r = p
  · subst hr
    simp [file?, addFile, setEntry, setContent]
  · rw [update_of_ne hr]
    show (update d.entry p (some d.next) r).map (update d.content d.next []) = _
    rw [update_of_ne hr]
    cases hentry : d.entry r with
    | none => simp [file?, hentry]
    | some j =>
      have hne : j ≠ d.next := Nat.ne_of_lt (hok.below r j hentry)
      simp [file?, hentry, hne]

omit [DecidableEq P] in
theorem Ok.setContent (hok : d.Ok shared) (i : ℕ) (bytes : List UInt8) :
    (d.setContent i bytes).Ok shared :=
  ⟨hok.below, hok.exclusive⟩

theorem Ok.removeEntry (hok : d.Ok shared) (p : P) : (d.setEntry p none).Ok shared := by
  -- a name that is left pointed to the same inode before
  have hback : ∀ r j, (d.setEntry p none).entry r = some j → d.entry r = some j := by
    intro r j hentry
    by_cases hr : r = p
    · subst hr
      simp [setEntry] at hentry
    · simpa [setEntry, hr] using hentry
  exact ⟨fun r j h => hok.below r j (hback r j h), fun r r' j h h' =>
    hok.exclusive r r' j (hback r j h) (hback r' j h')⟩

theorem Ok.addEntry (hok : d.Ok shared) (hi : i < d.next)
    (hshared : ∀ r, d.entry r = some i → r ≠ p → shared r ∧ shared p) :
    (d.setEntry p (some i)).Ok shared := by
  have hself : (d.setEntry p (some i)).entry p = some i := by simp [setEntry]
  have hother : ∀ {r : P}, r ≠ p → (d.setEntry p (some i)).entry r = d.entry r := by
    intro r hr
    simp [setEntry, hr]
  constructor
  · intro r j hentry
    by_cases hr : r = p
    · subst hr
      rw [hself] at hentry
      cases hentry
      exact hi
    · rw [hother hr] at hentry
      exact hok.below r j hentry
  · intro r r' j h h' hne
    by_cases hr : r = p
    · subst hr
      rw [hself] at h
      cases h
      rw [hother (Ne.symm hne)] at h'
      exact (hshared r' h' (Ne.symm hne)).symm
    · rw [hother hr] at h
      by_cases hr' : r' = p
      · subst hr'
        rw [hself] at h'
        cases h'
        exact hshared r h hr
      · rw [hother hr'] at h'
        exact hok.exclusive r r' j h h' hne

theorem Ok.addFile (hok : d.Ok shared) (p : P) : (d.addFile p).Ok shared := by
  have hraised : ({ d.setContent d.next [] with next := d.next + 1 } : Disk P).Ok shared :=
    ⟨fun r j h => Nat.lt_succ_of_lt (hok.below r j h), hok.exclusive⟩
  refine hraised.addEntry (Nat.lt_succ_self d.next) ?_
  intro r hr
  exact absurd (hok.below r d.next hr) (Nat.lt_irrefl _)

end

/-! ## Specifications -/

/-- The names show the files `f`, and if `quiet`, no call will fail. -/
def Shows (shared : P → Prop) (quiet : Prop) (f : P → Option (List UInt8)) (d : Disk P) : Prop :=
  d.Ok shared ∧ d.file? = f ∧ (quiet → d.faults = [])

section

variable {shared : P → Prop} {quiet : Prop} {f : P → Option (List UInt8)} {p q : P}

omit [DecidableEq P] in
theorem nextFault_spec : Spec (Shows shared quiet f) nextFault
    (fun fault d => (quiet → fault = none) ∧ Shows shared quiet f d) fun _ _ => False := by
  rintro d ⟨hok, hfile, hquiet⟩
  unfold nextFault
  cases hfaults : d.faults with
  | nil =>
    refine ⟨?_, fun e he => (nomatch he)⟩
    intro fault hfault
    cases hfault
    exact ⟨fun _ => rfl, hok, hfile, hquiet⟩
  | cons fault faults =>
    have hnot : ¬ quiet := by
      intro h
      simp [hquiet h] at hfaults
    refine ⟨?_, fun e he => (nomatch he)⟩
    intro fault' _
    exact ⟨fun h => absurd h hnot, ⟨hok.below, hok.exclusive⟩, hfile, fun h => absurd h hnot⟩

omit [DecidableEq P] in
theorem call_spec {m : Action (Disk P) FsError α} {Q : α → Disk P → Prop}
    {E : FsError → Disk P → Prop} (h : Spec (Shows shared quiet f) m Q E)
    (hfailed : ¬ quiet → ∀ d, Shows shared quiet f d → E .failed d) :
    Spec (Shows shared quiet f) (call m) Q E := by
  refine .bind (nextFault_spec.post (fun _ _ hq => hq) (fun _ _ hf => hf.elim)) ?_
  intro fault
  refine .of_fact ?_
  intro hfault
  cases fault with
  | some n =>
    have hnot : ¬ quiet := by
      intro hq
      cases hfault hq
    exact .fail (hfailed hnot)
  | none => exact h

omit [DecidableEq P] in
theorem settle_spec : Spec (Shows shared quiet f) settle (fun _ => Shows shared quiet f)
    fun _ d => ¬ quiet ∧ Shows shared quiet f d :=
  call_spec (.pure fun _ hd => hd) fun hnot _ hd => ⟨hnot, hd⟩

omit [DecidableEq P] in
theorem existsAt_spec : Spec (Shows shared quiet f) (existsAt p)
    (fun found d => ((found = true → (f p).isSome = true) ∧
      (quiet → found = (f p).isSome)) ∧ Shows shared quiet f d) fun _ _ => False := by
  refine .bind nextFault_spec ?_
  intro fault
  refine .of_fact ?_
  intro hfault
  cases fault with
  | some n =>
    refine .pure ?_
    intro d hd
    exact ⟨⟨fun h => (nomatch h), fun hq => (nomatch hfault hq)⟩, hd⟩
  | none =>
    refine .bind_current ?_
    intro d hshows
    refine .pure (forall_eq.mpr ?_)
    have hentry : (f p).isSome = (d.entry p).isSome := by
      rw [← hshows.2.1, file?, Option.isSome_map]
    exact ⟨⟨fun h => hentry.trans h, fun _ => hentry.symm⟩, hshows⟩

omit [DecidableEq P] in
/-- Reading returns the bytes; without failures, it fails only if there is no file. -/
theorem readFile_spec : Spec (Shows shared quiet f) (readFile p)
    (fun bytes d => f p = some bytes ∧ Shows shared quiet f d)
    fun _ d => (quiet → f p = none) ∧ Shows shared quiet f d := by
  refine call_spec (.bind_current ?_) fun hnot _ hd => ⟨fun h => absurd h hnot, hd⟩
  intro d hshows
  have hfile : d.file? p = f p := congrFun hshows.2.1 p
  cases hcase : d.file? p with
  | some bytes =>
    refine .pure (forall_eq.mpr ?_)
    exact ⟨hfile.symm.trans hcase, hshows⟩
  | none =>
    refine .fail (forall_eq.mpr ?_)
    exact ⟨fun _ => hfile.symm.trans hcase, hshows⟩

theorem createFile_spec (hp : ¬ shared p) : Spec (Shows shared quiet f) (createFile p)
    (fun _ => Shows shared quiet (update f p (some [])))
    fun _ d => ¬ quiet ∧ Shows shared quiet f d := by
  refine call_spec (.bind_current ?_) fun hnot _ hd => ⟨hnot, hd⟩
  rintro d ⟨hok, hfile, hquiet⟩
  cases hentry : d.entry p with
  | some i =>
    refine .update (forall_eq.mpr ?_)
    exact ⟨hok.setContent i [], by rw [file?_setContent hok hp hentry, hfile], hquiet⟩
  | none =>
    refine .update (forall_eq.mpr ?_)
    exact ⟨hok.addFile p, by rw [file?_addFile hok, hfile], hquiet⟩

theorem openFile_spec : Spec (Shows shared quiet f) (openFile p)
    (fun _ => Shows shared quiet (update f p (some ((f p).getD []))))
    fun _ d => ¬ quiet ∧ Shows shared quiet f d := by
  refine call_spec (.bind_current ?_) fun hnot _ hd => ⟨hnot, hd⟩
  rintro d ⟨hok, hfile, hquiet⟩
  cases hentry : d.entry p with
  | some i =>
    have hp : f p = some (d.content i) := by rw [← hfile, file?_eq hentry]
    refine .pure (forall_eq.mpr ?_)
    refine ⟨hok, ?_, hquiet⟩
    rwa [hp, Option.getD_some, ← hp, update_eq_self]
  | none =>
    have hp : f p = none := by rw [← hfile, file?, hentry]; rfl
    refine .update (forall_eq.mpr ?_)
    refine ⟨hok.addFile p, ?_, hquiet⟩
    rw [file?_addFile hok, hfile, hp]
    rfl

theorem append_spec (hp : ¬ shared p) (bytes : List UInt8) :
    Spec (Shows shared quiet f) (append p bytes) (fun _ d => ∃ old, f p = some old ∧
      Shows shared quiet (update f p (some (old ++ bytes))) d)
    fun _ d => (quiet → f p = none) ∧ ∃ o, (f p = none → o = none) ∧
      Shows shared quiet (update f p o) d := by
  refine .bind (nextFault_spec.post (fun _ _ hq => hq) (fun _ _ hf => hf.elim)) ?_
  intro fault
  refine .of_fact ?_
  intro hfault
  refine .bind_current ?_
  rintro d ⟨hok, hfile, hquiet⟩
  cases hentry : d.entry p with
  | none =>
    have hnone : f p = none := by rw [← hfile, file?, hentry]; rfl
    refine .fail (forall_eq.mpr ?_)
    refine ⟨fun _ => hnone, none, fun _ => rfl, hok, ?_, hquiet⟩
    rwa [← hnone, update_eq_self]
  | some i =>
    have hsome : f p = some (d.content i) := by rw [← hfile, file?_eq hentry]
    have hwrite : ∀ bytes', (d.setContent i (d.content i ++ bytes')).file? =
        update f p (some (d.content i ++ bytes')) := by
      intro bytes'
      rw [file?_setContent hok hp hentry, hfile]
    cases fault with
    | none =>
      refine .update (forall_eq.mpr ?_)
      exact ⟨_, hsome, hok.setContent i _, hwrite bytes, hquiet⟩
    | some n =>
      refine .bind (.update (Q := fun _ d' => d' = d.setContent i (d.content i ++ bytes.take n)) ?_) ?_
      · intro d' hd
        rw [hd]
      · intro _
        refine .fail (forall_eq.mpr ?_)
        refine ⟨fun hq => (nomatch hfault hq), some (d.content i ++ bytes.take n), ?_,
          hok.setContent i _, hwrite (bytes.take n), hquiet⟩
        intro hnone
        simp [hsome] at hnone

theorem rename_spec (hp : ¬ shared p) (hpq : p ≠ q) :
    Spec (Shows shared quiet f) (rename p q) (fun _ d => ∃ bytes, f p = some bytes ∧
      Shows shared quiet (update (update f p none) q (some bytes)) d)
    fun _ d => (quiet → f p = none) ∧ Shows shared quiet f d := by
  refine call_spec (.bind_current ?_) fun hnot _ hd => ⟨fun h => absurd h hnot, hd⟩
  rintro d ⟨hok, hfile, hquiet⟩
  cases hentry : d.entry p with
  | none =>
    refine .fail (forall_eq.mpr ?_)
    exact ⟨fun _ => by rw [← hfile, file?, hentry]; rfl, hok, hfile, hquiet⟩
  | some i =>
    have hq : d.entry q ≠ some i := by
      intro heq
      exact hp (hok.exclusive p q i hentry heq hpq).1
    dsimp only
    rw [if_neg hq]
    refine .update (forall_eq.mpr ?_)
    refine ⟨d.content i, by rw [← hfile, file?_eq hentry], ?_, ?_, hquiet⟩
    · -- the inode had one name, and that one is gone
      refine (hok.removeEntry p).addEntry (hok.below p i hentry) ?_
      intro r hr
      by_cases hrp : r = p
      · subst hrp
        simp [setEntry] at hr
      · have hold : d.entry r = some i := by simpa [setEntry, hrp] using hr
        exact absurd (hok.exclusive p r i hentry hold (Ne.symm hrp)).1 hp
    · rw [file?_setEntry, file?_setEntry, hfile]
      rfl

theorem hardLink_spec (hp : shared p) (hq : shared q) :
    Spec (Shows shared quiet f) (hardLink p q)
    (fun _ d => f q = none ∧ ∃ bytes, f p = some bytes ∧
      Shows shared quiet (update f q (some bytes)) d)
    fun _ d => (quiet → f p = none ∨ (f q).isSome = true) ∧ Shows shared quiet f d := by
  refine call_spec (.bind_current ?_) fun hnot _ hd => ⟨fun h => absurd h hnot, hd⟩
  rintro d ⟨hok, hfile, hquiet⟩
  have hisSome : (f q).isSome = (d.entry q).isSome := by rw [← hfile, file?, Option.isSome_map]
  cases hentry : d.entry p with
  | none =>
    refine .fail (forall_eq.mpr ?_)
    exact ⟨fun _ => .inl (by rw [← hfile, file?, hentry]; rfl), hok, hfile, hquiet⟩
  | some i =>
    refine .ite ?_ ?_
    · intro hsome
      refine .fail (forall_eq.mpr ?_)
      exact ⟨fun _ => .inr (hisSome.trans hsome), hok, hfile, hquiet⟩
    · intro hnone
      refine .update (forall_eq.mpr ?_)
      refine ⟨?_, d.content i, by rw [← hfile, file?_eq hentry], ?_, ?_, hquiet⟩
      · rwa [← hisSome, Bool.not_eq_true, Option.isSome_eq_false_iff, Option.isNone_iff_eq_none] at hnone
      · refine hok.addEntry (hok.below p i hentry) ?_
        intro r hr hrq
        by_cases hrp : r = p
        · subst hrp
          exact ⟨hp, hq⟩
        · exact ⟨(hok.exclusive r p i hr hentry hrp).1, hq⟩
      · rw [file?_setEntry, hfile]
        rfl

theorem removeFile_spec : Spec (Shows shared quiet f) (removeFile p)
    (fun _ => Shows shared quiet (update f p none))
    fun _ d => (quiet → f p = none) ∧ Shows shared quiet f d := by
  refine call_spec (.bind_current ?_) fun hnot _ hd => ⟨fun h => absurd h hnot, hd⟩
  rintro d ⟨hok, hfile, hquiet⟩
  cases hentry : d.entry p with
  | none =>
    refine .fail (forall_eq.mpr ?_)
    exact ⟨fun _ => by rw [← hfile, file?, hentry]; rfl, hok, hfile, hquiet⟩
  | some i =>
    refine .update (forall_eq.mpr ?_)
    exact ⟨hok.removeEntry p, by rw [file?_setEntry, hfile]; rfl, hquiet⟩

end

end Disk

end KappaRegistry.Lib
