import KappaRegistry.Atproto.Mst
import KappaRegistry.Lib.BigEndian
import KappaRegistry.Lib.PrefixFree

/-!
# The Bytes of Commits

`encode_commit_cbor` of `kappa-module-atproto/src/commit.rs`, with and without a signature. The bytes
determine the commit because every field is a prefix-free code (`Lib.PrefixFree`), up to the length
that its head can hold.

**`commit_cbor_inj`**: the bytes that are signed determine what is signed, those that are stored
determine the commit, and neither is ever the other.
-/

namespace KappaRegistry.Atproto

open Lib List

/-! ## Fields -/

theorem ofNat_eq_iff {a b : ℕ} : UInt8.ofNat a = UInt8.ofNat b ↔ a % 256 = b % 256 := by
  rw [← UInt8.toNat_inj, UInt8.toNat_ofNat', UInt8.toNat_ofNat']

theorem prefixFree_cborHead {major : ℕ} (hmajor : major < 8) :
    PrefixFree (· < 65536) (cborHead major) := by
  intro n m hn hm x y h
  -- the first byte tells the class of the length
  unfold cborHead at h
  split_ifs at h <;> simp only [cons_append, nil_append, cons.injEq, ofNat_eq_iff] at h <;> grind

theorem prefixFree_encodeBytes : PrefixFree (fun data : Bytes => data.length < 65536) encodeBytes :=
  (prefixFree_cborHead (by decide)).withLength

theorem prefixFree_encodeText :
    PrefixFree (fun s : String => (textBytes s).length < 65536) encodeText := by
  intro s t hs ht x y h
  obtain ⟨htext, hrest⟩ := (prefixFree_cborHead (show 3 < 8 by decide)).withLength hs ht h
  exact ⟨textBytes_inj htext, hrest⟩

theorem prefixFree_encodeNullableCid :
    PrefixFree (fun cid : Option Cid => ∀ c ∈ cid, c.length = 36) encodeNullableCid := by
  intro a b ha hb x y h
  cases a with
  | none =>
    cases b with
    | none => exact ⟨rfl, (cons.inj h).2⟩
    | some cid => cases h
  | some cid =>
    cases b with
    | none => cases h
    | some cid' =>
      have hlength : cid.length = cid'.length := (ha cid rfl).trans (hb cid' rfl).symm
      simp only [encodeNullableCid, encodeCid, hlength, append_assoc, append_cancel_left_eq,
        cons_append, cons.injEq, true_and] at h
      obtain ⟨rfl, hrest⟩ := append_inj h hlength
      exact ⟨rfl, hrest⟩

/-- The last field. -/
theorem encodeUint_inj {n m : ℕ} (hn : n < 2 ^ 32) (hm : m < 2 ^ 32)
    (h : encodeUint (4, 0x1A) n = encodeUint (4, 0x1A) m) : n = m := by
  have hwide : ∀ k < 2 ^ 32, fromBigEndian (bigEndian 4 k) = k := by
    intro k hk
    rw [fromBigEndian_bigEndian]
    exact Nat.mod_eq_of_lt hk
  have hlength := congrArg length h
  unfold encodeUint at h hlength
  split_ifs at h hlength <;> simp only [length_cons, length_nil, length_bigEndian] at hlength <;>
    first
    | omega
    | simp only [cons.injEq, ofNat_eq_iff, and_true, true_and] at h
      grind

/-! ## Commits -/

/-- A commit with its signature. -/
structure Commit extends UnsignedCommit where
  sig : Bytes
  deriving DecidableEq

/-- The members are sorted by their names. -/
def encodeCommitCbor (commit : UnsignedCommit) (sig : Option Bytes) : Bytes :=
  (if sig.isSome then 0xA6 else 0xA5) ::
    (encodeText "data" ++ encodeCid commit.data ++ encodeText "did" ++ encodeText commit.did ++
      encodeText "prev" ++ encodeNullableCid commit.prev ++ encodeText "rev" ++
      encodeText commit.rev ++ (sig.elim [] fun sig => encodeText "sig" ++ encodeBytes sig) ++
      encodeText "version" ++ encodeUint (4, 0x1A) commit.version)

theorem encodeCommitCbor_none (commit : UnsignedCommit) :
    encodeCommitCbor commit none = commit.toCbor := by
  simp [encodeCommitCbor, UnsignedCommit.toCbor]

namespace Commit

def toCbor (commit : Commit) : Bytes := encodeCommitCbor commit.toUnsignedCommit (some commit.sig)

def unsignedCbor (commit : Commit) : Bytes := encodeCommitCbor commit.toUnsignedCommit none

end Commit

/-- Identifiers of 36 bytes, texts whose length has two bytes, and a version of 32 bits. -/
structure UnsignedCommit.Sized (commit : UnsignedCommit) : Prop where
  did : (textBytes commit.did).length < 65536
  version : commit.version < 2 ^ 32
  data : commit.data.length = 36
  rev : (textBytes commit.rev).length < 65536
  prev : ∀ cid ∈ commit.prev, cid.length = 36

theorem encodeCommitCbor_inj {a b : UnsignedCommit} {sig sig' : Option Bytes} (ha : a.Sized)
    (hb : b.Sized) (hsig : ∀ s ∈ sig, s.length < 65536) (hsig' : ∀ s ∈ sig', s.length < 65536)
    (h : encodeCommitCbor a sig = encodeCommitCbor b sig') : a = b ∧ sig = sig' := by
  obtain ⟨hcount, h⟩ := cons.inj h
  simp only [append_assoc, append_cancel_left_eq] at h
  obtain ⟨hdata, h⟩ := prefixFree_encodeNullableCid (a := some a.data) (b := some b.data)
    (by simpa using ha.data) (by simpa using hb.data) h
  obtain ⟨hdid, h⟩ := prefixFree_encodeText ha.did hb.did (append_cancel_left h)
  obtain ⟨hprev, h⟩ := prefixFree_encodeNullableCid ha.prev hb.prev (append_cancel_left h)
  obtain ⟨hrev, h⟩ := prefixFree_encodeText ha.rev hb.rev (append_cancel_left h)
  -- the number of members says whether there is a signature
  have hlast : sig = sig' ∧ encodeUint (4, 0x1A) a.version = encodeUint (4, 0x1A) b.version := by
    cases sig with
    | none =>
      cases sig' with
      | none => exact ⟨rfl, append_cancel_left h⟩
      | some s => cases hcount
    | some s =>
      cases sig' with
      | none => cases hcount
      | some s' =>
        simp only [Option.elim_some, append_assoc, append_cancel_left_eq] at h
        obtain ⟨rfl, hrest⟩ := prefixFree_encodeBytes (hsig s rfl) (hsig' s' rfl) h
        exact ⟨rfl, append_cancel_left hrest⟩
  have hversion := encodeUint_inj ha.version hb.version hlast.2
  refine ⟨?_, hlast.1⟩
  cases a
  cases b
  simp_all

/-- **The bytes of a commit determine it**, and a signed commit is never taken for one that is to be
signed. -/
theorem commit_cbor_inj {c₁ c₂ : Commit} (h₁ : c₁.Sized) (h₂ : c₂.Sized)
    (hsig₁ : c₁.sig.length < 65536) (hsig₂ : c₂.sig.length < 65536) :
    (c₁.unsignedCbor = c₂.unsignedCbor → c₁.toUnsignedCommit = c₂.toUnsignedCommit) ∧
      (c₁.toCbor = c₂.toCbor → c₁ = c₂) ∧ c₁.toCbor ≠ c₂.unsignedCbor := by
  refine ⟨?_, ?_, ?_⟩
  · intro h
    exact (encodeCommitCbor_inj h₁ h₂ (by simp) (by simp) h).1
  · intro h
    obtain ⟨hcommit, hsig⟩ := encodeCommitCbor_inj h₁ h₂ (by simpa) (by simpa) h
    cases c₁
    cases c₂
    simp_all
  · intro h
    cases (encodeCommitCbor_inj h₁ h₂ (by simpa) (by simp) h).2

/-- A commit with a predecessor, whose DID has a longer head than its revision. -/
def laterCommit (prev : UInt8) : UnsignedCommit :=
  ⟨"did:plc:ewvi7nxzyoun6zhxrhs64oiz", 3, replicate 36 0, "3jzfcijpj2z2a", some (replicate 36 prev)⟩

theorem commit_cbor_inj_later : (⟨laterCommit 1, [7]⟩ : Commit).unsignedCbor ≠
      (⟨laterCommit 2, [7]⟩ : Commit).unsignedCbor ∧
    (⟨laterCommit 1, [7]⟩ : Commit).toCbor ≠ (⟨laterCommit 1, [8]⟩ : Commit).toCbor := by
  have hsized : ∀ prev, (laterCommit prev).Sized := by
    intro prev
    constructor <;> dsimp only [laterCommit]
    case prev => simp
    all_goals decide +kernel
  constructor
  · intro h
    have hprev := congrArg UnsignedCommit.prev
      ((commit_cbor_inj (hsized 1) (hsized 2) (by decide) (by decide)).1 h)
    exact absurd hprev (by decide)
  · intro h
    cases (commit_cbor_inj (hsized 1) (hsized 1) (by decide) (by decide)).2.1 h

end KappaRegistry.Atproto
