import KappaRegistry.Lib.Levels
import KappaRegistry.Store.EpochOrder

/-!
# Merkle Trees

`kappa-core/src/merkle.rs`: the root of a list of leaves, proofs for one leaf, and their check. Leaves
and nodes are hashed behind different bytes, and a node without a neighbour is hashed with itself.

A root is the hash of a tree (`treeHash`), whose inputs to SHA-256 are assumed not to collide. Proofs
prove what they should (**`merkleVerify_iff`**). A node that is hashed with itself stands for two
equal ones, so the root of an epoch's mutations is that of longer lists too, but not of others of the
same length (**`mutationsMerkleRoot_eq_iff`**).
-/

namespace KappaRegistry

open Lib List BinTree

abbrev Hash := {digest : Bytes // digest.length = 32}

def zeroHash : Hash := ⟨replicate 32 0, rfl⟩

variable (sha256 : Bytes → Hash)

def hashLeaf (data : Bytes) : Hash := sha256 (0 :: data)

def hashNode (left right : Hash) : Hash := sha256 (1 :: (left.val ++ right.val))

/-- `merkle_root`; the first hash of the last level, if there is one. -/
def merkleRoot (leaves : List Bytes) : Option Hash :=
  (levels (hashNode sha256) leaves.length (leaves.map (hashLeaf sha256))).head?

/-- The loop of `merkle_proof` over the levels. -/
def proofLoop : ℕ → List Hash → ℕ → List (Hash × Bool)
  | 0, _, _ => []
  | n + 1, level, idx =>
    if level.length ≤ 1 then []
    else
      let siblingIdx := if idx % 2 = 0 then idx + 1 else idx - 1
      -- at the end of an odd level the sibling is the node itself
      (level.getD siblingIdx (level.getD idx zeroHash), idx % 2 = 1) ::
        proofLoop n (pairUp (hashNode sha256) level) (idx / 2)

def merkleProof (leaves : List Bytes) (index : ℕ) : Option (List (Hash × Bool)) :=
  if index < leaves.length then
    some (proofLoop sha256 leaves.length (leaves.map (hashLeaf sha256)) index)
  else none

/-- A step of `merkle_verify`. -/
def climb (current : Hash) (step : Hash × Bool) : Hash :=
  if step.2 then hashNode sha256 step.1 current else hashNode sha256 current step.1

def merkleVerify (root : Hash) (leafData : Bytes) (proof : List (Hash × Bool)) : Bool :=
  proof.foldl (climb sha256) (hashLeaf sha256 leafData) = root

/-! ## Trees and the inputs of the hash -/

def treeHash : BinTree Bytes → Hash
  | leaf data => hashLeaf sha256 data
  | node l r => hashNode sha256 (treeHash l) (treeHash r)

def treeInput : BinTree Bytes → Bytes
  | leaf data => 0 :: data
  | node l r => 1 :: ((treeHash sha256 l).val ++ (treeHash sha256 r).val)

/-- The inputs that the root of some leaves is computed from. -/
def rootInputs (leaves : List Bytes) : List Bytes :=
  (shape leaves).toList.flatMap fun t => t.subtrees.map (treeInput sha256)

def climbInput (current : Hash) (step : Hash × Bool) : Bytes :=
  1 :: if step.2 then step.1.val ++ current.val else current.val ++ step.1.val

/-- The inputs of a check after the leaf's. -/
def climbInputs : Hash → List (Hash × Bool) → List Bytes
  | _, [] => []
  | current, step :: proof =>
    climbInput current step :: climbInputs (climb sha256 current step) proof

def verifyInputs (leafData : Bytes) (proof : List (Hash × Bool)) : List Bytes :=
  (0 :: leafData) :: climbInputs sha256 (hashLeaf sha256 leafData) proof

/-- No two of the inputs collide. -/
def NoCollision (inputs : List Bytes) : Prop :=
  ∀ a ∈ inputs, ∀ b ∈ inputs, sha256 a = sha256 b → a = b

variable {sha256} {leaves : List Bytes} {t u : BinTree Bytes}

theorem treeHash_eq (t : BinTree Bytes) : treeHash sha256 t = sha256 (treeInput sha256 t) := by
  cases t <;> rfl

theorem climb_eq (current : Hash) (step : Hash × Bool) :
    climb sha256 current step = sha256 (climbInput current step) := by
  unfold climb climbInput
  split_ifs <;> rfl

theorem merkleRoot_eq (leaves : List Bytes) :
    merkleRoot sha256 leaves = (shape leaves).map (treeHash sha256) := by
  have hmap : (levels node leaves.length (leaves.map leaf)).map (treeHash sha256) =
      levels (hashNode sha256) leaves.length (leaves.map (hashLeaf sha256)) := by
    rw [map_levels fun _ _ => rfl, map_map]
    rfl
  rw [merkleRoot, shape, ← head?_map, hmap]

/-- Two hashes behind each other are told apart. -/
theorem hash_append_inj {a b c d : Hash} (h : a.val ++ b.val = c.val ++ d.val) : a = c ∧ b = d := by
  obtain ⟨hac, hbd⟩ := append_inj h (a.property.trans c.property.symm)
  exact ⟨Subtype.ext hac, Subtype.ext hbd⟩

/-- **A check ends in a tree's hash only if it started from the hash of a subtree.** -/
theorem exists_subtree (proof : List (Hash × Bool)) {current : Hash}
    (hfree : NoCollision sha256
      (climbInputs sha256 current proof ++ t.subtrees.map (treeInput sha256)))
    (h : proof.foldl (climb sha256) current = treeHash sha256 t) :
    ∃ u ∈ t.subtrees, treeHash sha256 u = current := by
  induction proof generalizing current with
  | nil => exact ⟨t, t.self_mem_subtrees, h.symm⟩
  | cons step proof ih =>
    obtain ⟨u, hu, hhash⟩ := ih (fun a ha b hb => hfree a (mem_cons_of_mem _ ha) b
      (mem_cons_of_mem _ hb)) h
    rw [climb_eq, treeHash_eq] at hhash
    have hinput := hfree _ (mem_append_right _ (mem_map_of_mem hu)) _ mem_cons_self hhash
    cases u with
    | leaf data => exact absurd (cons.inj hinput).1 (by decide)
    | node l r =>
      obtain ⟨hl, hr⟩ := mem_subtrees_of_node hu
      have hpair := (cons.inj hinput).2
      cases hstep : step.2 with
      | true =>
        rw [hstep] at hpair
        exact ⟨r, hr, (hash_append_inj hpair).2⟩
      | false =>
        rw [hstep] at hpair
        exact ⟨l, hl, (hash_append_inj hpair).1⟩

theorem merkleVerify_sound {root : Hash} {x : Bytes} {proof : List (Hash × Bool)}
    (hroot : merkleRoot sha256 leaves = some root)
    (hfree : NoCollision sha256 (verifyInputs sha256 x proof ++ rootInputs sha256 leaves))
    (h : merkleVerify sha256 root x proof = true) : x ∈ leaves := by
  rw [merkleRoot_eq] at hroot
  obtain ⟨t, ht, rfl⟩ := Option.map_eq_some_iff.mp hroot
  rw [rootInputs, ht, Option.toList_some, flatMap_singleton] at hfree
  obtain ⟨u, hu, hhash⟩ := exists_subtree proof (fun a ha b hb => hfree a (mem_cons_of_mem _ ha) b
    (mem_cons_of_mem _ hb)) (of_decide_eq_true h)
  rw [treeHash_eq] at hhash
  have hinput := hfree _ (mem_append_right _ (mem_map_of_mem hu)) _ mem_cons_self hhash
  cases u with
  | leaf data =>
    obtain rfl := (cons.inj hinput).2
    exact mem_of_leaf_mem_shape ht hu
  | node l r => exact absurd (cons.inj hinput).1 (by decide)

/-- The proof for an index leads from the hash there to the last level. -/
theorem climb_proofLoop (sha256 : Bytes → Hash) (n : ℕ) {level : List Hash} {idx : ℕ}
    (hidx : idx < level.length) (hn : level.length ≤ n + 1) :
    (proofLoop sha256 n level idx).foldl (climb sha256) (level.getD idx zeroHash) =
      (levels (hashNode sha256) n level).getD 0 zeroHash := by
  induction n generalizing level idx with
  | zero =>
    obtain rfl : idx = 0 := by omega
    rfl
  | succ n ih =>
    rw [proofLoop, levels]
    by_cases hone : level.length ≤ 1
    · obtain rfl : idx = 0 := by omega
      rw [if_pos hone, if_pos hone]
      rfl
    · have hlength := length_pairUp (hashNode sha256) level
      have hup : idx / 2 < (pairUp (hashNode sha256) level).length := by omega
      rw [if_neg hone, if_neg hone, foldl_cons, ← ih hup (by omega), getD_pairUp _ _ _ hidx]
      rcases Nat.mod_two_eq_zero_or_one idx with hmod | hmod <;> simp [climb, hmod]

/-- **Merkle proofs are complete and sound.** -/
theorem merkleVerify_iff (hne : leaves ≠ []) :
    ∃ root, merkleRoot sha256 leaves = some root ∧
      (∀ (i : ℕ) (hi : i < leaves.length), ∃ proof, merkleProof sha256 leaves i = some proof ∧
        merkleVerify sha256 root leaves[i] proof = true) ∧
      ∀ x proof, NoCollision sha256 (verifyInputs sha256 x proof ++ rootInputs sha256 leaves) →
        merkleVerify sha256 root x proof = true → x ∈ leaves := by
  obtain ⟨root, hroot⟩ : ∃ root, merkleRoot sha256 leaves = some root := by
    rw [← Option.isSome_iff_exists, merkleRoot_eq, Option.isSome_map, Option.isSome_iff_ne_none]
    exact fun h => hne (shape_eq_none.mp h)
  refine ⟨root, hroot, ?_, fun x proof => merkleVerify_sound hroot⟩
  intro i hi
  refine ⟨_, if_pos hi, decide_eq_true ?_⟩
  have hindex : i < (leaves.map (hashLeaf sha256)).length := by rwa [length_map]
  have hclimb := climb_proofLoop sha256 leaves.length hindex (by simp)
  rw [getD_eq_getElem?_getD, getD_eq_getElem?_getD, ← head?_eq_getElem?, ← merkleRoot, hroot] at hclimb
  simpa [hi] using hclimb

/-- A hash of the first two bytes. -/
def addHash (bytes : Bytes) : Hash :=
  ⟨replicate 32 (7 * bytes.getD 0 0 + bytes.getD 1 0 + 1), by simp⟩

theorem merkleVerify_three :
    let leaves : List Bytes := [[1], [2], [3]]
    ∃ root proof, merkleRoot addHash leaves = some root ∧ merkleProof addHash leaves 1 = some proof ∧
      merkleVerify addHash root [2] proof = true ∧
      NoCollision addHash (verifyInputs addHash [2] proof ++ rootInputs addHash leaves) ∧
      [2] ∈ leaves := by
  intro leaves
  obtain ⟨root, hroot, hproof, hsound⟩ := @merkleVerify_iff addHash leaves (by decide)
  obtain ⟨proof, hsome, hverify⟩ := hproof 1 (by decide)
  have hfree : NoCollision addHash (verifyInputs addHash [2] proof ++ rootInputs addHash leaves) := by
    cases hsome
    unfold NoCollision
    decide
  exact ⟨root, proof, hroot, hsome, hverify, hfree, hsound [2] proof hfree hverify⟩

/-! ## The mutations of an epoch -/

/-- Trees with the same hash are the same. -/
theorem treeHash_inj {inputs : List Bytes} (hfree : NoCollision sha256 inputs)
    (ht : ∀ v ∈ t.subtrees, treeInput sha256 v ∈ inputs)
    (hu : ∀ v ∈ u.subtrees, treeInput sha256 v ∈ inputs)
    (h : treeHash sha256 t = treeHash sha256 u) : t = u := by
  induction t generalizing u with
  | leaf data =>
    rw [treeHash_eq, treeHash_eq] at h
    have hinput := hfree _ (ht _ (self_mem_subtrees _)) _ (hu _ (self_mem_subtrees _)) h
    cases u with
    | leaf data' => rw [(cons.inj hinput).2]
    | node l r => exact absurd (cons.inj hinput).1 (by decide)
  | node l r ihl ihr =>
    rw [treeHash_eq, treeHash_eq] at h
    have hinput := hfree _ (ht _ (self_mem_subtrees _)) _ (hu _ (self_mem_subtrees _)) h
    cases u with
    | leaf data => exact absurd (cons.inj hinput).1 (by decide)
    | node l' r' =>
      simp only [subtrees, mem_cons, mem_append] at ht hu
      obtain ⟨hl, hr⟩ := hash_append_inj (cons.inj hinput).2
      rw [ihl (fun v hv => ht v (.inr (.inl hv))) (fun v hv => hu v (.inr (.inl hv))) hl,
        ihr (fun v hv => ht v (.inr (.inr hv))) (fun v hv => hu v (.inr (.inr hv))) hr]

/-- The encoders with this Merkle tree. -/
def withMerkle (sha256 : Bytes → Hash) (libs : EpochLibs) : EpochLibs :=
  { libs with merkleRoot := fun leaves => (merkleRoot sha256 leaves).map Subtype.val }

variable {libs : EpochLibs} {m₁ m₂ : List EpochMutation}

theorem mutationsMerkleRoot_eq (ms : List EpochMutation) :
    (withMerkle sha256 libs).mutationsMerkleRoot ms =
      ((shape (ms.map libs.canonicalMutation)).map (treeHash sha256)).getD zeroHash := by
  rw [EpochLibs.mutationsMerkleRoot, ← merkleRoot_eq]
  cases ms with
  | nil => rfl
  | cons m ms => exact Option.getD_map Subtype.val zeroHash (merkleRoot sha256 _)

/-- Only the empty list has the root of 32 zeros, if no input hashes to it. -/
theorem getD_zeroHash_eq_iff (hzero : ∀ a ∈ rootInputs sha256 leaves, sha256 a ≠ zeroHash) :
    ((shape leaves).map (treeHash sha256)).getD zeroHash = zeroHash ↔ shape leaves = none := by
  unfold rootInputs at hzero
  cases hshape : shape leaves with
  | none => simp
  | some t =>
    have ht := hzero (treeInput sha256 t) (by simp [hshape, mem_map_of_mem t.self_mem_subtrees])
    simpa [treeHash_eq] using ht

theorem shape_eq_of_getD_eq {leaves' : List Bytes}
    (hfree : NoCollision sha256 (rootInputs sha256 leaves ++ rootInputs sha256 leaves'))
    (hnone : shape leaves = none ↔ shape leaves' = none)
    (h : ((shape leaves).map (treeHash sha256)).getD zeroHash =
      ((shape leaves').map (treeHash sha256)).getD zeroHash) : shape leaves = shape leaves' := by
  unfold rootInputs at hfree
  cases ht : shape leaves with
  | none => exact (hnone.mp ht).symm
  | some t =>
    cases hu : shape leaves' with
    | none => exact ht.symm.trans (hnone.mpr hu)
    | some u =>
      rw [ht, hu] at h hfree
      refine congrArg some (treeHash_inj hfree ?_ ?_ h)
      · exact fun v hv => mem_append_left _ (by simpa using mem_map_of_mem hv)
      · exact fun v hv => mem_append_right _ (by simpa using mem_map_of_mem hv)

/-- **The root of the mutations commits to their tree**, and to a list of known length. -/
theorem mutationsMerkleRoot_eq_iff
    (hfree : NoCollision sha256 (rootInputs sha256 (m₁.map libs.canonicalMutation) ++
      rootInputs sha256 (m₂.map libs.canonicalMutation))) :
    ((∀ a ∈ m₁, ∀ b ∈ m₂, libs.canonicalMutation a = libs.canonicalMutation b → a = b) →
      m₁.length = m₂.length →
      (withMerkle sha256 libs).mutationsMerkleRoot m₁ =
        (withMerkle sha256 libs).mutationsMerkleRoot m₂ → m₁ = m₂) ∧
    ((∀ a ∈ rootInputs sha256 (m₁.map libs.canonicalMutation) ++
        rootInputs sha256 (m₂.map libs.canonicalMutation), sha256 a ≠ zeroHash) →
      ((withMerkle sha256 libs).mutationsMerkleRoot m₁ =
          (withMerkle sha256 libs).mutationsMerkleRoot m₂ ↔
        shape (m₁.map libs.canonicalMutation) = shape (m₂.map libs.canonicalMutation))) := by
  rw [mutationsMerkleRoot_eq, mutationsMerkleRoot_eq, Subtype.val_inj]
  constructor
  · intro hinj hlength hroot
    have hshape := shape_eq_of_getD_eq hfree
      (by simp only [shape_eq_none, ← length_eq_zero_iff, length_map, hlength]) hroot
    have hmap := shape_inj (by simpa using hlength) hshape
    refine ext_getElem hlength fun i h₁ h₂ => hinj _ (getElem_mem h₁) _ (getElem_mem h₂) ?_
    simpa [h₁, h₂] using congrArg (·[i]?) hmap
  · intro hzero
    refine ⟨fun hroot => shape_eq_of_getD_eq hfree ?_ hroot, fun h => by rw [h]⟩
    rw [← getD_zeroHash_eq_iff fun a ha => hzero a (mem_append_left _ ha), hroot,
      getD_zeroHash_eq_iff fun a ha => hzero a (mem_append_right _ ha)]

def mutation (name : String) : EpochMutation := ⟨.tagSet, "n", name, none, none⟩

/-- Mutations that are encoded by their tags. -/
def tagLibs : EpochLibs := { EpochLibs.sample with canonicalMutation := fun m => textBytes m.tagName }

theorem mutationsMerkleRoot_eq_two :
    let root := (withMerkle addHash tagLibs).mutationsMerkleRoot
    root [mutation "a", mutation "b"] ≠ root [mutation "b", mutation "a"] ∧
      (root [mutation "a", mutation "b"] = root [mutation "b"] ↔
        shape [textBytes "a", textBytes "b"] = shape [textBytes "b"]) := by
  constructor
  · intro h
    have heq := (@mutationsMerkleRoot_eq_iff addHash tagLibs [mutation "a", mutation "b"]
      [mutation "b", mutation "a"] (by unfold NoCollision; decide)).1 (by decide) rfl h
    exact absurd heq (by decide)
  · exact (mutationsMerkleRoot_eq_iff (by unfold NoCollision; decide)).2 (by decide)

/-- Three mutations and the same with the last one twice have one root, whatever the hash. -/
theorem mutationsMerkleRoot_repeats :
    let ms := [mutation "a", mutation "b", mutation "c"]
    ms ≠ ms ++ [mutation "c"] ∧ ∀ sha256 libs, (withMerkle sha256 libs).mutationsMerkleRoot ms =
      (withMerkle sha256 libs).mutationsMerkleRoot (ms ++ [mutation "c"]) :=
  ⟨by decide, fun _ _ => rfl⟩

end KappaRegistry
