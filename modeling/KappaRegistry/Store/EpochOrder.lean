import KappaRegistry.Store.Sealing

/-!
# Epochs and the States They Commit To

`epoch_advance_impl` reads the tags of the namespace, and numbers and stores the epoch in a write
transaction of its own. Tags may change and other advances may run in between, so a run here is a
sequence of four kinds of step: a tag is set, a tag is deleted, an advance reads, an advance commits.

Whatever the order of the steps, each epoch points to the one before it. **`epochs_inOrder`**: the
states that the epochs commit to come in the order of their numbers if no advance commits what it read
before the last epoch's own read, unless the tags have that state root again.
`epochs_out_of_order` is a run of two advances that overtake each other.
-/

namespace KappaRegistry

open Lib PersistentStore Function

/-- The encoders that an epoch root is made with. -/
structure EpochLibs where
  canonicalTag : TagEntry → Bytes
  canonicalMutation : EpochMutation → Bytes
  /-- `merkle::merkle_root`, which has no root for no leaves. -/
  merkleRoot : List Bytes → Option Bytes
  /-- `encode_leaves` and `to_leaf_bytes`: the namespace, the number, the label of the epoch before,
  the two roots and the time. -/
  leaves : String → ℕ → Option String → Bytes → Bytes → ℕ → Bytes

namespace EpochLibs

variable (libs : EpochLibs)

def stateMerkleRoot (sortedTags : List TagEntry) : Bytes :=
  if sortedTags.isEmpty then List.replicate 32 0
  else (libs.merkleRoot (sortedTags.map libs.canonicalTag)).getD (List.replicate 32 0)

def mutationsMerkleRoot (mutations : List EpochMutation) : Bytes :=
  if mutations.isEmpty then List.replicate 32 0
  else (libs.merkleRoot (mutations.map libs.canonicalMutation)).getD (List.replicate 32 0)

def leafBytes (fields : EpochFields) : Bytes :=
  libs.leaves fields.ns fields.epochNumber fields.prevRootKappa (libs.stateMerkleRoot fields.tags)
    (libs.mutationsMerkleRoot fields.mutations) fields.timestampMs

/-- Encoders that run: a tag is encoded by its name. -/
def sample : EpochLibs where
  canonicalTag tag := tag.name.toList.map fun c => UInt8.ofNat c.toNat
  canonicalMutation _ := []
  merkleRoot leaves := leaves.head?
  leaves _ number _ state mutations _ := UInt8.ofNat number :: (state ++ mutations)

end EpochLibs

namespace TableStore

variable (prim : Primitives) (leafBytes : EpochFields → Bytes) (s : TableStore)

/-- The root of the next epoch, for tags that were read before. -/
def epochFields (ns : String) (tags : List TagEntry) (mutations : List EpochMutation)
    (nowMs : ℕ) : EpochFields where
  ns
  epochNumber := s.nextCounter (dbKey ns "_epoch")
  prevRootKappa := s.epochCurrent[ns]?
  tags
  mutations
  timestampMs := nowMs

/-- The write transaction of `epoch_advance`. -/
def epochCommit (fields : EpochFields) : TableStore :=
  let kappa := prim.kappaFromBytes (leafBytes fields)
  { store := s.store.blobPut kappa (leafBytes fields)
    sequences := s.sequences.insert (dbKey fields.ns "_epoch") fields.epochNumber
    epochCurrent := s.epochCurrent.insert fields.ns kappa }

theorem epochAdvance_eq (ns : String) (mutations : List EpochMutation) (nowMs : ℕ) :
    s.epochAdvance prim leafBytes ns mutations nowMs = (s.store.tagPrefix ns "").map fun tags =>
      if s.store.encrypted then none else
        some (prim.kappaFromBytes (leafBytes (s.epochFields ns tags mutations nowMs)),
          s.epochCommit prim leafBytes (s.epochFields ns tags mutations nowMs)) := by
  cases htags : s.store.tagPrefix ns "" with
  | error e => simp only [epochAdvance, htags]; rfl
  | ok tags => exact epochAdvance_of_tags prim leafBytes htags mutations nowMs

end TableStore

/-- What an advance has read, and the moment at which it did. -/
structure EpochRead where
  tags : List TagEntry
  mutations : List EpochMutation
  timestampMs : ℕ
  readAt : ℕ

/-- The store, the advances on their way and the epochs so far, the newest first. -/
structure EpochSystem where
  tables : TableStore
  /-- The number of steps made. -/
  moment : ℕ
  pending : ℕ → Option EpochRead
  epochs : List EpochFields
  /-- A moment at which the tags were those of the newest epoch. -/
  lastMoment : ℕ

inductive EpochAction where
  | tagSet (name kappa : String)
  | tagDelete (name : String)
  | read (i : ℕ) (mutations : List EpochMutation) (nowMs : ℕ)
  | commit (i : ℕ)

namespace EpochSystem

/-- Before the first step, on a store that has no epoch of the namespace. -/
def start (tables : TableStore) : EpochSystem := ⟨tables, 0, fun _ => none, [], 0⟩

section

variable (libs : EpochLibs) (prim : Primitives) (ns : String) (s : EpochSystem)

def stateRoot : Option Bytes :=
  (s.tables.store.tagPrefix ns "").toOption.map libs.stateMerkleRoot

def fieldsOf (read : EpochRead) : EpochFields :=
  s.tables.epochFields ns read.tags read.mutations read.timestampMs

def read (i : ℕ) (mutations : List EpochMutation) (nowMs : ℕ) : EpochSystem :=
  match s.tables.store.tagPrefix ns "" with
  | .ok tags => { s with moment := s.moment + 1,
                         pending := update s.pending i (some ⟨tags, mutations, nowMs, s.moment⟩) }
  | .error _ => { s with moment := s.moment + 1 }

def commit (i : ℕ) : EpochSystem :=
  match s.pending i with
  | some read =>
    { tables := s.tables.epochCommit prim libs.leafBytes (s.fieldsOf ns read)
      moment := s.moment + 1
      pending := update s.pending i none
      epochs := s.fieldsOf ns read :: s.epochs
      lastMoment := if s.lastMoment ≤ read.readAt then read.readAt else s.moment }
  | none => { s with moment := s.moment + 1 }

def step : EpochAction → EpochSystem
  | .tagSet name kappa =>
    { s with tables := { s.tables with store := s.tables.store.tagSet ns name kappa },
             moment := s.moment + 1 }
  | .tagDelete name =>
    { s with tables := { s.tables with store := s.tables.store.tagDelete ns name },
             moment := s.moment + 1 }
  | .read i mutations nowMs => s.read ns i mutations nowMs
  | .commit i => s.commit libs prim ns i

/-- The system after `n` steps. -/
def stateAt (tables : TableStore) (actions : ℕ → EpochAction) : ℕ → EpochSystem
  | 0 => start tables
  | n + 1 => (stateAt tables actions n).step libs prim ns (actions n)

/-- The label that `epoch_advance` returned for an epoch. -/
def kappaOf (fields : EpochFields) : String := prim.kappaFromBytes (libs.leafBytes fields)

/-- The epochs, the newest first, are numbered from one and each names the one before. -/
def Chain : List EpochFields → Prop
  | [] => True
  | epoch :: older => epoch.epochNumber = older.length + 1 ∧
      epoch.prevRootKappa = older.head?.map (kappaOf libs prim) ∧ Chain older

/-- An advance commits while the counter has room, and what it read is not older than what the last
epoch read, or has the state root that the tags have now. -/
def Orderly : EpochAction → Prop
  | .commit i => ∀ read, s.pending i = some read →
      s.epochs.length < u64Max ∧
      (s.lastMoment ≤ read.readAt ∨ s.stateRoot libs ns = some (libs.stateMerkleRoot read.tags))
  | _ => True

/-- There are moments up to now, in the order of the epochs, at which the tags had the state roots of
the epochs. -/
def InOrder (stateAt : ℕ → EpochSystem) (n : ℕ) : Prop :=
  ∃ moments : ℕ → ℕ, Monotone moments ∧ ∀ epoch ∈ (stateAt n).epochs,
    moments epoch.epochNumber ≤ n ∧
    (stateAt (moments epoch.epochNumber)).stateRoot libs ns = some (libs.stateMerkleRoot epoch.tags)

/-- What holds after `n` steps. -/
structure Inv (stateAt : ℕ → EpochSystem) (n : ℕ) : Prop where
  moment : (stateAt n).moment = n
  counter : ((stateAt n).tables.sequences[dbKey ns "_epoch"]?).getD 0 = (stateAt n).epochs.length
  current : (stateAt n).tables.epochCurrent[ns]? = (stateAt n).epochs.head?.map (kappaOf libs prim)
  chain : Chain libs prim (stateAt n).epochs
  pending : ∀ i read, (stateAt n).pending i = some read → read.readAt ≤ n ∧
    (stateAt read.readAt).stateRoot libs ns = some (libs.stateMerkleRoot read.tags)
  last_le : (stateAt n).lastMoment ≤ n
  moments : ∃ moments : ℕ → ℕ, Monotone moments ∧
    (∀ k, (stateAt n).epochs.length ≤ k → moments k = (stateAt n).lastMoment) ∧
    ∀ epoch ∈ (stateAt n).epochs, epoch.epochNumber ≤ (stateAt n).epochs.length ∧
      (stateAt (moments epoch.epochNumber)).stateRoot libs ns = some (libs.stateMerkleRoot epoch.tags)

end

variable {libs : EpochLibs} {prim : Primitives} {ns : String} {states : ℕ → EpochSystem} {n : ℕ}

section

variable (h : Inv libs prim ns states n)
include h

theorem Inv.inOrder : InOrder libs ns states n := by
  obtain ⟨moments, hmono, hlast, hroots⟩ := h.moments
  refine ⟨moments, hmono, ?_⟩
  intro epoch hepoch
  obtain ⟨hle, hroot⟩ := hroots epoch hepoch
  refine ⟨?_, hroot⟩
  calc moments epoch.epochNumber ≤ moments (states n).epochs.length := hmono hle
    _ = (states n).lastMoment := hlast _ (Nat.le_refl _)
    _ ≤ n := h.last_le

theorem Inv.keep (hmoment : (states (n + 1)).moment = n + 1)
    (hsequences : (states (n + 1)).tables.sequences = (states n).tables.sequences)
    (hcurrent : (states (n + 1)).tables.epochCurrent = (states n).tables.epochCurrent)
    (hepochs : (states (n + 1)).epochs = (states n).epochs)
    (hlast : (states (n + 1)).lastMoment = (states n).lastMoment)
    (hpending : ∀ i read, (states (n + 1)).pending i = some read → (states n).pending i = some read ∨
      (read.readAt = n ∧ (states n).stateRoot libs ns = some (libs.stateMerkleRoot read.tags))) :
    Inv libs prim ns states (n + 1) := by
  refine ⟨hmoment, ?_, ?_, ?_, ?_, ?_, ?_⟩
  · rw [hsequences, hepochs]
    exact h.counter
  · rw [hcurrent, hepochs]
    exact h.current
  · rw [hepochs]
    exact h.chain
  · intro i read hread
    rcases hpending i read hread with hold | ⟨rfl, hroot⟩
    · obtain ⟨hle, hroot⟩ := h.pending i read hold
      exact ⟨Nat.le_succ_of_le hle, hroot⟩
    · exact ⟨Nat.le_succ _, hroot⟩
  · rw [hlast]
    exact Nat.le_succ_of_le h.last_le
  · rw [hepochs, hlast]
    exact h.moments

theorem Inv.tags (store : PersistentStore)
    (hstep : states (n + 1) = { states n with
      tables := { (states n).tables with store := store }, moment := (states n).moment + 1 }) :
    Inv libs prim ns states (n + 1) := by
  refine h.keep (by rw [hstep, h.moment]) (by rw [hstep]) (by rw [hstep]) (by rw [hstep])
    (by rw [hstep]) ?_
  intro i read hread
  rw [hstep] at hread
  exact .inl hread

theorem Inv.read (i : ℕ) (mutations : List EpochMutation) (nowMs : ℕ)
    (hstep : states (n + 1) = (states n).read ns i mutations nowMs) :
    Inv libs prim ns states (n + 1) := by
  have hmoment := h.moment
  unfold EpochSystem.read at hstep
  cases htags : (states n).tables.store.tagPrefix ns "" with
  | error e =>
    rw [htags] at hstep
    exact h.tags _ hstep
  | ok tags =>
    rw [htags] at hstep
    refine h.keep (by rw [hstep, hmoment]) (by rw [hstep]) (by rw [hstep]) (by rw [hstep])
      (by rw [hstep]) ?_
    intro j read hread
    rw [hstep] at hread
    dsimp only at hread
    by_cases heq : j = i
    · subst heq
      rw [update_self] at hread
      cases hread
      refine .inr ⟨hmoment, ?_⟩
      rw [stateRoot, htags]
      rfl
    · rw [update_of_ne heq] at hread
      exact .inl hread

end

theorem monotone_extend {moments : ℕ → ℕ} (hmono : Monotone moments) {length last next : ℕ}
    (hlast : ∀ k, length ≤ k → moments k = last) (hnext : last ≤ next) :
    Monotone fun k => if k ≤ length then moments k else next := by
  intro a b hab
  dsimp only
  by_cases hb : b ≤ length
  · rw [if_pos hb, if_pos (hab.trans hb)]
    exact hmono hab
  · rw [if_neg hb]
    by_cases ha : a ≤ length
    · rw [if_pos ha]
      calc moments a ≤ moments length := hmono ha
        _ = last := hlast _ (Nat.le_refl _)
        _ ≤ next := hnext
    · rw [if_neg ha]

theorem Inv.commit (h : Inv libs prim ns states n) (i : ℕ)
    (horderly : (states n).Orderly libs ns (.commit i))
    (hstep : states (n + 1) = (states n).commit libs prim ns i) :
    Inv libs prim ns states (n + 1) := by
  have hmoment := h.moment
  unfold EpochSystem.commit at hstep
  cases hread : (states n).pending i with
  | none =>
    rw [hread] at hstep
    exact h.tags _ hstep
  | some read =>
    rw [hread] at hstep
    obtain ⟨hroom, horder⟩ := horderly read hread
    obtain ⟨hreadAt, hroot⟩ := h.pending i read hread
    have hnumber : ((states n).fieldsOf ns read).epochNumber = (states n).epochs.length + 1 := by
      show ((states n).tables.nextCounter (dbKey ns "_epoch")) = _
      rw [TableStore.nextCounter, h.counter]
      exact Nat.mod_eq_of_lt (by omega)
    -- the moment of the new epoch is that of its read, or this one
    have hnext : (states n).lastMoment ≤ (states (n + 1)).lastMoment ∧
        (states (n + 1)).lastMoment ≤ n ∧
        (states (states (n + 1)).lastMoment).stateRoot libs ns =
          some (libs.stateMerkleRoot read.tags) := by
      rw [hstep]
      dsimp only
      split_ifs with hle
      · exact ⟨hle, hreadAt, hroot⟩
      · rw [hmoment]
        exact ⟨h.last_le, Nat.le_refl _, horder.resolve_left hle⟩
    obtain ⟨hlast, hle, hnow⟩ := hnext
    have hepochs : (states (n + 1)).epochs = (states n).fieldsOf ns read :: (states n).epochs := by
      rw [hstep]
    refine ⟨by rw [hstep, hmoment], ?_, ?_, ?_, ?_, Nat.le_succ_of_le hle, ?_⟩
    · rw [hepochs, hstep]
      show (((states n).tables.sequences.insert (dbKey ns "_epoch") _)[dbKey ns "_epoch"]?).getD 0 = _
      rw [Table.get_insert, if_pos rfl, Option.getD_some, hnumber, List.length_cons]
    · rw [hepochs, hstep]
      show ((states n).tables.epochCurrent.insert ns _)[ns]? = _
      rw [Table.get_insert, if_pos rfl]
      rfl
    · rw [hepochs]
      exact ⟨hnumber, h.current, h.chain⟩
    · intro j other hj
      rw [hstep] at hj
      dsimp only at hj
      have hne : j ≠ i := by
        intro heq
        simp [heq, update_self] at hj
      rw [update_of_ne hne] at hj
      obtain ⟨hother, hotherRoot⟩ := h.pending j other hj
      exact ⟨Nat.le_succ_of_le hother, hotherRoot⟩
    · obtain ⟨moments, hmono, hconst, hroots⟩ := h.moments
      refine ⟨_, monotone_extend hmono hconst hlast, ?_, ?_⟩
      · intro k hk
        rw [hepochs, List.length_cons] at hk
        rw [if_neg (by omega)]
      · intro epoch hepoch
        rw [hepochs] at hepoch ⊢
        rw [List.length_cons]
        rcases List.mem_cons.mp hepoch with rfl | hold
        · rw [hnumber, if_neg (by omega)]
          exact ⟨Nat.le_refl _, hnow⟩
        · obtain ⟨hnumberLe, hepochRoot⟩ := hroots epoch hold
          rw [if_pos hnumberLe]
          exact ⟨Nat.le_succ_of_le hnumberLe, hepochRoot⟩

theorem inv_stateAt {tables : TableStore} {actions : ℕ → EpochAction}
    (hcounter : tables.sequences[dbKey ns "_epoch"]? = none) (hcurrent : tables.epochCurrent[ns]? = none)
    (n : ℕ) (horderly : ∀ k < n, (stateAt libs prim ns tables actions k).Orderly libs ns (actions k)) :
    Inv libs prim ns (stateAt libs prim ns tables actions) n := by
  induction n with
  | zero =>
    refine ⟨rfl, ?_, hcurrent, trivial, nofun, Nat.le_refl _, fun _ => 0, monotone_const,
      fun _ _ => rfl, nofun⟩
    show (tables.sequences[dbKey ns "_epoch"]?).getD 0 = 0
    rw [hcounter]
    rfl
  | succ n ih =>
    have h := ih fun k hk => horderly k (Nat.lt_succ_of_lt hk)
    have hnow := horderly n (Nat.lt_succ_self n)
    have hstep : stateAt libs prim ns tables actions (n + 1) =
        (stateAt libs prim ns tables actions n).step libs prim ns (actions n) := rfl
    cases haction : actions n with
    | tagSet name kappa | tagDelete name =>
      rw [haction] at hstep
      exact h.tags _ hstep
    | read i mutations nowMs =>
      rw [haction] at hstep
      exact h.read i mutations nowMs hstep
    | commit i =>
      rw [haction] at hstep hnow
      exact h.commit i hnow hstep

/-- **Epochs commit to states in order.** -/
theorem epochs_inOrder (libs : EpochLibs) (prim : Primitives) (ns : String) (tables : TableStore)
    (actions : ℕ → EpochAction) (hcounter : tables.sequences[dbKey ns "_epoch"]? = none)
    (hcurrent : tables.epochCurrent[ns]? = none) (n : ℕ)
    (horderly : ∀ k < n, (stateAt libs prim ns tables actions k).Orderly libs ns (actions k)) :
    Chain libs prim (stateAt libs prim ns tables actions n).epochs ∧
      InOrder libs ns (stateAt libs prim ns tables actions) n := by
  have h := inv_stateAt hcounter hcurrent n horderly
  exact ⟨h.chain, h.inOrder⟩

/-- Two advances, one after the other, with a tag set in between. -/
def sequentialAdvances : ℕ → EpochAction
  | 0 => .read 0 [] 0
  | 1 => .commit 0
  | 2 => .tagSet "t" "k"
  | 3 => .read 1 [] 0
  | 4 => .commit 1
  | _ => .tagDelete "t"

theorem epochs_inOrder_sequential :
    let states := stateAt .sample .sample "n" (.new false) sequentialAdvances
    InOrder .sample "n" states 5 := by
  intro states
  refine (epochs_inOrder .sample .sample "n" (.new false) sequentialAdvances (by decide +kernel)
    (by decide +kernel) 5 ?_).2
  intro k hk
  have hlast : (states 4).lastMoment = 0 ∧ (states 4).epochs.length = 1 := by
    decide +kernel
  rcases k with _ | _ | _ | _ | _ | k
  · exact trivial
  · intro read _
    exact ⟨by decide, .inl (Nat.zero_le _)⟩
  · exact trivial
  · exact trivial
  · intro read _
    refine ⟨by rw [hlast.2]; decide, .inl ?_⟩
    rw [hlast.1]
    exact Nat.zero_le _
  · omega

/-- The first advance reads before a tag is set and commits after the second, which read after it. -/
def overtakingAdvances : ℕ → EpochAction
  | 0 => .read 0 [] 0
  | 1 => .tagSet "t" "k"
  | 2 => .read 1 [] 0
  | 3 => .commit 1
  | 4 => .commit 0
  | _ => .tagDelete "t"

/-- The second epoch commits to the state without the tag, the first to the state with it, and the tag
is never deleted. -/
theorem epochs_out_of_order :
    let states := stateAt .sample .sample "n" (.new false) overtakingAdvances
    ¬ InOrder .sample "n" states 5 := by
  rintro states ⟨moments, hmono, hroots⟩
  have hfirst : ∃ epoch ∈ (states 5).epochs,
      epoch.epochNumber = 1 ∧ EpochLibs.sample.stateMerkleRoot epoch.tags = [116] := by
    decide +kernel
  have hsecond : ∃ epoch ∈ (states 5).epochs,
      epoch.epochNumber = 2 ∧ EpochLibs.sample.stateMerkleRoot epoch.tags = List.replicate 32 0 := by
    decide +kernel
  have hset : ∀ k < 6, (states k).stateRoot .sample "n" = some [116] → 2 ≤ k := by
    decide +kernel
  have hunset : ∀ k < 6,
      (states k).stateRoot .sample "n" = some (List.replicate 32 0) → k ≤ 1 := by
    decide +kernel
  obtain ⟨first, hfirst, hone, hfirstRoot⟩ := hfirst
  obtain ⟨second, hsecond, htwo, hsecondRoot⟩ := hsecond
  obtain ⟨hle, hroot⟩ := hroots first hfirst
  obtain ⟨hle', hroot'⟩ := hroots second hsecond
  rw [hone] at hle hroot
  rw [htwo] at hle' hroot'
  rw [hfirstRoot] at hroot
  rw [hsecondRoot] at hroot'
  have hlate : 2 ≤ moments 1 := hset _ (Nat.lt_succ_of_le hle) hroot
  have hearly : moments 2 ≤ 1 := hunset _ (Nat.lt_succ_of_le hle') hroot'
  have horder : moments 1 ≤ moments 2 := hmono (by decide)
  omega

end EpochSystem

end KappaRegistry
