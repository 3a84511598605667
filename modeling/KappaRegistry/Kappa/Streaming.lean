import KappaRegistry.Store.ContentAddressing

/-!
# Hashing in One Pass

`streaming_compute_multi` of `kappa-core/src/kappa/compute.rs` feeds every read to one hasher for each
axis that was asked for, and picks the primary label out of their results.

**`streamingComputeReads_spec`**: however the reader cuts the content, the labels are those of
`compute_kappa`, one for each axis.
-/

namespace KappaRegistry

open Lib List

namespace Hashes

/-- The hashers of the axes: how they start, take a read and give their label in the end. -/
structure Hashers where
  State : Type
  new : Axis → State
  update : State → Bytes → State
  finalize : Axis → State → Except LabelError KappaLabel

/-- The law of the hashers: feeding bytes in pieces is hashing them at once. -/
def Hashers.Streams (hs : Hashers) (H : Hashes) : Prop :=
  ∀ axis (reads : List Bytes), hs.finalize axis (reads.foldl hs.update (hs.new axis)) =
    H.compute axis reads.flatten

variable (hs : Hashers) (H : Hashes)

/-- The read loop, which ends at a read without bytes, for one of the hashers. -/
def readLoop (state : hs.State) : List Bytes → hs.State
  | [] => state
  | chunk :: reads => if chunk = [] then state else readLoop (hs.update state chunk) reads

theorem readLoop_eq (reads : List Bytes) (state : hs.State) :
    readLoop hs state reads = (reads.takeWhile (· ≠ [])).foldl hs.update state := by
  induction reads generalizing state with
  | nil => rfl
  | cons chunk reads ih =>
    rw [readLoop]
    by_cases hend : chunk = []
    · simp [hend]
    · rw [if_neg hend, ih, takeWhile_cons_of_pos (by simpa using hend), foldl_cons]

/-- `streaming_compute_multi`, of the reads that its reader returns. -/
def streamingComputeReads (axes : List String) (reads : List Bytes) :
    Except LabelError StreamingVerificationProof :=
  streamingComputeWith (fun axis => hs.finalize axis (readLoop hs (hs.new axis) reads)) axes

variable {hs H} {content : Bytes} {axes : List Axis}

theorem mapM_parse : (axes.map Axis.asStr).mapM
    (fun axis => need (Axis.parse axis) LabelError.unknownAxis) = .ok axes := by
  induction axes with
  | nil => rfl
  | cons axis axes ih =>
    simp only [map_cons, mapM_cons, bind_eq_ok, need_eq_ok, pure_eq_ok]
    exact ⟨axis, axis.parse_asStr, axes, ih, rfl⟩

theorem mapM_compute (h : .sha1 ∈ axes → H.sha1Collision content = false) :
    (axes.mapM fun axis => H.compute axis content) = .ok (axes.map (H.label · content)) := by
  induction axes with
  | nil => rfl
  | cons axis axes ih =>
    simp only [mapM_cons, bind_eq_ok, pure_eq_ok]
    refine ⟨_, compute_eq_ok.mpr ⟨?_, rfl⟩, _, ih fun hmem => h (mem_cons_of_mem _ hmem), rfl⟩
    rintro ⟨rfl, hflagged⟩
    simp [h mem_cons_self] at hflagged

/-- **One pass gives the labels of direct hashing.** -/
theorem streamingComputeReads_spec {primary : Axis} {reads : List Bytes} (hlaw : hs.Streams H)
    (hreads : (reads.takeWhile (· ≠ [])).flatten = content)
    (hsafe : .sha1 ∈ primary :: axes → H.sha1Collision content = false) :
    ∃ proof, streamingComputeReads hs ((primary :: axes).map Axis.asStr) reads = .ok proof ∧
      H.computeKappa primary.asStr content = .ok proof.primary ∧ proof.additional.Nodup ∧
      ∀ k, k ∈ proof.additional ↔
        ∃ x ∈ axes, x ≠ primary ∧ H.computeKappa x.asStr content = .ok k := by
  have hcompute : ∀ x ∈ primary :: axes,
      H.computeKappa x.asStr content = .ok (H.label x content) := by
    intro x hx
    refine bind_eq_ok.mpr ⟨x, need_eq_ok.mpr x.parse_asStr, compute_eq_ok.mpr ⟨?_, rfl⟩⟩
    rintro ⟨rfl, hflagged⟩
    simp [hsafe hx] at hflagged
  let results := (hasherOrder.filter (· ∈ primary :: axes)).map (H.label · content)
  have hresults : ∀ k, k ∈ results ↔ ∃ x ∈ primary :: axes, H.label x content = k := by
    intro k
    have hall : ∀ x, x ∈ hasherOrder := by
      intro x
      cases x <;> decide
    simp [results, hall]
  have hnodup : results.Nodup := ((show hasherOrder.Nodup by decide).filter _).map_on
    fun x _ y _ hxy => (digest_eq_of_label_eq hxy).1
  -- the primary stands where its axis does among the hashers
  have hfound : (results.findIdx? fun k => some k.axis == some primary).isSome = true := by
    rw [findIdx?_isSome, any_eq_true]
    exact ⟨_, (hresults _).mpr ⟨primary, mem_cons_self, rfl⟩, beq_self_eq_true _⟩
  obtain ⟨i, hi⟩ := Option.isSome_iff_exists.mp hfound
  obtain ⟨hlt, hat, -⟩ := findIdx?_eq_some_iff_getElem.mp hi
  have hprimary : results[i] = H.label primary content := by
    obtain ⟨x, -, hx⟩ := (hresults _).mp (getElem_mem hlt)
    rw [← hx] at hat ⊢
    have haxis : x = primary := Option.some.inj (beq_iff_eq.mp hat)
    rw [haxis]
  refine ⟨⟨H.label primary content, results.erase (H.label primary content)⟩, ?_,
    hcompute primary mem_cons_self, hnodup.erase _, ?_⟩
  · have hcontent : (fun axis => hs.finalize axis (readLoop hs (hs.new axis) reads)) =
        (H.compute · content) := by
      funext axis
      rw [readLoop_eq, hlaw axis, hreads]
    rw [streamingComputeReads, hcontent]
    refine bind_eq_ok.mpr ⟨_, mapM_parse, bind_eq_ok.mpr ⟨results, mapM_compute ?_, ?_⟩⟩
    · intro hmem
      exact hsafe (by simpa using (mem_filter.mp hmem).2)
    · simp only [head?_cons, hi, Option.getD_some, getElem?_eq_getElem hlt, ← hprimary,
        hnodup.erase_getElem]
  · intro k
    simp only [hnodup.mem_erase_iff, hresults]
    constructor
    · rintro ⟨hne, x, hx, rfl⟩
      have hother : x ≠ primary := fun heq => hne (by rw [heq])
      exact ⟨x, (mem_cons.mp hx).resolve_left hother, hother, hcompute x hx⟩
    · rintro ⟨x, hx, hne, hk⟩
      have hx' := mem_cons_of_mem primary hx
      obtain rfl := Except.ok.inj ((hcompute x hx').symm.trans hk)
      exact ⟨fun heq => hne (digest_eq_of_label_eq heq).1, x, hx', rfl⟩

/-- Hashers that keep what they are fed. -/
def Hashers.keeping (H : Hashes) : Hashers := ⟨Bytes, fun _ => [], (· ++ ·), H.compute⟩

theorem Hashers.keeping_streams (H : Hashes) : (keeping H).Streams H := by
  intro axis reads
  have hfed : ∀ fed : Bytes, reads.foldl (· ++ ·) fed = fed ++ reads.flatten := by
    induction reads with
    | nil => simp
    | cons read reads ih =>
      intro fed
      rw [foldl_cons, ih, flatten_cons, append_assoc]
  exact congrArg (H.compute axis) (hfed [])

theorem streamingComputeReads_repeated : ∃ proof,
    streamingComputeReads (.keeping sample) ["blake3", "sha256", "blake3"] [[1], [2, 3]] = .ok proof ∧
      sample.computeKappa "blake3" [1, 2, 3] = .ok proof.primary := by
  obtain ⟨proof, hproof, hprimary, -⟩ := @streamingComputeReads_spec (.keeping sample) sample [1, 2, 3]
    [.sha256, .blake3] .blake3 [[1], [2, 3]] (Hashers.keeping_streams sample) rfl fun _ => rfl
  exact ⟨proof, hproof, hprimary⟩

end Hashes

end KappaRegistry
