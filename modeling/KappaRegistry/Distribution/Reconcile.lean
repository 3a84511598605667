import KappaRegistry.Kappa.Label
import KappaRegistry.Store.Namespaces

/-!
# Reconciling Two Namespaces

`handle_fingerprint` of `kappa-module-distribution/src/reconcile.rs`: a peer sends a fingerprint of
the tags whose names lie in a range. The answer is that both sides agree, the items of a short range,
or the fingerprints of its parts.

The fingerprint is a hash of the labels alone, so sides that bind the same labels to different names
are told that they agree: **`done_sound_iff`**.
-/

namespace KappaRegistry

open Lib PersistentStore List

structure SubRange where
  lower : String
  upper : String
  fingerprint : String
  count : ℕ
  deriving DecidableEq

inductive ReconcileAnswer where
  | done (lower upper : String)
  | items (lower upper : String) (items : List String)
  | subdivide (ranges : List SubRange)
  deriving DecidableEq

inductive ReconcileError where
  | badRequest (message : String)
  | store (error : StoreError)
  deriving DecidableEq

/-- `slice::chunks`, with the length of the slice as fuel. -/
def chunksFrom {α : Type} (n : ℕ) : ℕ → List α → List (List α)
  | 0, _ | _, [] => []
  | fuel + 1, x :: xs => (x :: xs.take (n - 1)) :: chunksFrom n fuel (xs.drop (n - 1))

def chunks {α : Type} (n : ℕ) (xs : List α) : List (List α) := chunksFrom n xs.length xs

variable (blake3 : Bytes → {digest : Bytes // digest.length = 32})

def inRange (lower upper : String) (t : TagEntry) : Bool :=
  !startsWith t.name "_" && decide (lower ≤ t.name) && decide (t.name < upper)

def labels (tags : List TagEntry) : List String := tags.map TagEntry.kappa

def fingerprintOf (labels : List String) : Bytes := blake3 (textBytes (joinText ',' labels))

/-- The bounds of each chunk. The first chunk starts at `lower` and the last one ends at `upper`; the
first label of any other chunk is its own start and the end of the chunk before it. -/
def cuts (upper : String) : String → List (List String) → List ((String × String) × List String)
  | _, [] => []
  | lower, chunk :: rest =>
    let subUpper := (rest.head?.bind head?).getD upper
    ((lower, subUpper), chunk) :: cuts upper subUpper rest

def subRange (cut : (String × String) × List String) : SubRange :=
  ⟨cut.1.1, cut.1.2, hexEncode (fingerprintOf blake3 cut.2), cut.2.length⟩

def textField (v : Json) (field : String) : Except ReconcileError String :=
  need ((v.get field).bind Json.asStr) (.badRequest ("missing " ++ field))

def handleFingerprint (s : PersistentStore) (ns : String) (v : Json) :
    Except ReconcileError ReconcileAnswer := do
  let lower ← textField v "lower"
  let upper ← textField v "upper"
  let peerFpHex ← textField v "fingerprint"
  let tags ← (s.tagList ns).mapError .store
  let items := labels (tags.filter (inRange lower upper))
  let peerFp ← (hexDecode peerFpHex).mapError fun _ => .badRequest "invalid fingerprint hex"
  if peerFp.length = 32 ∧ fingerprintOf blake3 items = peerFp then return .done lower upper
  if items.length ≤ 32 then return .items lower upper items
  return .subdivide ((cuts upper lower (chunks ((items.length + 3) / 4) items)).map (subRange blake3))

/-- A fingerprint message. -/
def fingerprintMessage (lower upper fingerprint : String) : Json :=
  .obj [("type", .str "fingerprint"), ("lower", .str lower), ("upper", .str upper),
    ("fingerprint", .str fingerprint)]

variable {blake3} {s s' : PersistentStore} {ns ns' lower upper : String} {ours theirs : List TagEntry}

theorem handleFingerprint_eq_done {hex : String} {peer : Bytes}
    (hours : (s.tagEntries ns).filter (inRange lower upper) = ours) (hhex : hexDecode hex = .ok peer) :
    handleFingerprint blake3 s ns (fingerprintMessage lower upper hex) = .ok (.done lower upper) ↔
      peer.length = 32 ∧ fingerprintOf blake3 (labels ours) = peer := by
  have hlower : textField (fingerprintMessage lower upper hex) "lower" = .ok lower := rfl
  have hupper : textField (fingerprintMessage lower upper hex) "upper" = .ok upper := rfl
  have hfp : textField (fingerprintMessage lower upper hex) "fingerprint" = .ok hex := rfl
  unfold handleFingerprint
  rw [hlower, hupper, hfp, tagList_eq]
  simp only [Except.mapError, hhex, hours, bind, Except.bind]
  split_ifs with hdone
  · exact iff_of_true rfl hdone
  all_goals exact iff_of_false nofun hdone

def bindings (tags : List TagEntry) : List (String × String) := tags.map fun t => (t.name, t.kappa)

/-- The values of the tags are labels. -/
def Labelled (tags : List TagEntry) : Prop := ∀ t ∈ tags, ∃ k : KappaLabel, k.asStr = t.kappa

def unjoin (text : String) : List String := if text = "" then [] else splitText ',' text

/-- Labels are not empty and hold no comma. -/
theorem unjoin_joinText (h : Labelled ours) : unjoin (joinText ',' (labels ours)) = labels ours := by
  have hlabel : ∀ x ∈ labels ours, ',' ∉ x.toList ∧ x ≠ "" := by
    intro x hx
    obtain ⟨t, ht, rfl⟩ := mem_map.mp hx
    obtain ⟨k, hk⟩ := h t ht
    rw [← hk]
    refine ⟨k.notMem_asStr (by intro axis; cases axis <;> decide) rfl (by decide), ?_⟩
    intro hempty
    simpa [KappaLabel.asStr] using congrArg String.toList hempty
  cases hlabels : labels ours with
  | nil => rfl
  | cons x xs =>
    rw [hlabels] at hlabel
    obtain ⟨⟨hx, hne⟩, hxs⟩ := forall_mem_cons.mp hlabel
    have hsplit := splitText_joinText hx fun y hy => (hxs y hy).1
    unfold unjoin
    split_ifs with hjoin
    · rw [hjoin] at hsplit
      exact absurd (cons.inj hsplit).1.symm hne
    · exact hsplit

theorem pairwise_bindings (hours : (s.tagEntries ns).filter (inRange lower upper) = ours) :
    (bindings ours).Pairwise fun a b => a.1 < b.1 := by
  rw [← hours]
  exact pairwise_map.mpr ((pairwise_tagEntries s ns).filter _)

/-- **`done` means equal bindings iff equal labels come with equal names.** -/
theorem done_sound_iff (hours : (s.tagEntries ns).filter (inRange lower upper) = ours)
    (htheirs : (s'.tagEntries ns').filter (inRange lower upper) = theirs)
    (hlabels : Labelled ours) (hlabels' : Labelled theirs)
    (hcollision : fingerprintOf blake3 (labels ours) = fingerprintOf blake3 (labels theirs) →
      joinText ',' (labels ours) = joinText ',' (labels theirs)) :
    (handleFingerprint blake3 s ns (fingerprintMessage lower upper
        (hexEncode (fingerprintOf blake3 (labels theirs)))) = .ok (.done lower upper) →
      ∀ b, b ∈ bindings ours ↔ b ∈ bindings theirs) ↔
    (labels ours = labels theirs → ours.map TagEntry.name = theirs.map TagEntry.name) := by
  rw [handleFingerprint_eq_done hours (hexDecode_hexEncode _),
    and_iff_right (show (fingerprintOf blake3 _).length = 32 from (blake3 _).property)]
  have hzip : ∀ tags, bindings tags = (tags.map TagEntry.name).zip (labels tags) := by
    intro tags
    exact zip_map'.symm
  constructor
  · intro h heq
    have hbindings := eq_of_pairwise_lt (pairwise_bindings hours) (pairwise_bindings htheirs)
      (h (congrArg _ heq))
    have hnames := congrArg (map Prod.fst) hbindings
    rwa [bindings, bindings, map_map, map_map] at hnames
  · intro h hfp b
    have heq : labels ours = labels theirs := by
      rw [← unjoin_joinText hlabels, hcollision hfp, unjoin_joinText hlabels']
    rw [hzip, hzip, heq, h heq]

def zeroLabel : KappaLabel := ⟨.sha1, String.ofList (replicate 40 '0'), by decide, by decide⟩

def padded (bytes : Bytes) : {digest : Bytes // digest.length = 32} :=
  ⟨(bytes ++ replicate 32 0).take 32, by simp⟩

/-- A store with one label under the given names. -/
def tagged (names : List String) : PersistentStore :=
  names.foldl (fun s name => s.tagSet "n" name zeroLabel.asStr) (.new false)

/-- One of two tags was set twice on the other side, and a third tag is out of range on ours. -/
theorem done_sound_tagged :
    let ours := [⟨"a", zeroLabel.asStr, 1⟩, ⟨"b", zeroLabel.asStr, 1⟩]
    let theirs := [⟨"a", zeroLabel.asStr, 2⟩, ⟨"b", zeroLabel.asStr, 1⟩]
    handleFingerprint padded (tagged ["a", "b", "zz"]) "n" (fingerprintMessage "a" "z"
        (hexEncode (fingerprintOf padded (labels theirs)))) = .ok (.done "a" "z") ∧
      ∀ b, b ∈ bindings ours ↔ b ∈ bindings theirs := by
  intro ours theirs
  have hours : ((tagged ["a", "b", "zz"]).tagEntries "n").filter (inRange "a" "z") = ours := by
    decide +kernel
  have htheirs : ((tagged ["a", "a", "b"]).tagEntries "n").filter (inRange "a" "z") = theirs := by
    decide +kernel
  have hlabelled : ∀ v, Labelled [⟨"a", zeroLabel.asStr, v⟩, ⟨"b", zeroLabel.asStr, 1⟩] :=
    fun _ => forall_mem_cons.mpr ⟨⟨_, rfl⟩, forall_mem_singleton.mpr ⟨_, rfl⟩⟩
  have hdone := (@done_sound_iff padded _ _ _ _ _ _ _ _ hours htheirs (hlabelled 1) (hlabelled 2)
    fun _ => rfl).mpr fun _ => rfl
  exact ⟨by decide +kernel, hdone (by decide +kernel)⟩

/-- The same label under two names. -/
theorem done_unsound :
    let theirs := ((tagged ["b"]).tagEntries "n").filter (inRange "a" "z")
    handleFingerprint padded (tagged ["a"]) "n" (fingerprintMessage "a" "z"
        (hexEncode (fingerprintOf padded (labels theirs)))) = .ok (.done "a" "z") ∧
      bindings (((tagged ["a"]).tagEntries "n").filter (inRange "a" "z")) = [("a", zeroLabel.asStr)] ∧
      bindings theirs = [("b", zeroLabel.asStr)] := by
  decide +kernel

end KappaRegistry
