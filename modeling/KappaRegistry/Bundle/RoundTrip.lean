import KappaRegistry.Bundle.Encode
import Mathlib.Algebra.Order.BigOperators.Group.List

/-!
# Bundles Round Trip

What `decode` of `kappa-core/src/bundle.rs` makes of the bytes that `encode` writes. The decoder is run over
a script in which every base comes before its deltas (`HasRead.decodeEntries`): it finds the base of
every delta among the entries it has read, and it returns the objects if every delta gives its
object back, and an error if one does not.

**`decode_encode_iff`**: the round trip holds exactly if the number of objects has 32 bits, and no
chosen delta copies 2^24 bytes or more at once. The header cuts the one, and `emit_copy` the other.
-/

namespace KappaRegistry

open Lib List Outcome WireEntry Hashes

/-! ## Reading fields -/

section

variable {p rest : Bytes} {pos : ℕ} {bytes : Bytes}

theorem length_of_drop (h : p.drop pos = bytes) (hne : bytes ≠ []) :
    p.length = pos + bytes.length := by
  have hlength := congrArg List.length h
  have hpos := length_pos_iff.mpr hne
  rw [length_drop] at hlength
  omega

theorem slice_of_drop (h : p.drop pos = bytes ++ rest) : slice p pos bytes.length = bytes := by
  rw [slice, h, take_left]

theorem drop_add_of_drop {rest : Bytes} (h : p.drop pos = bytes ++ rest) :
    p.drop (pos + bytes.length) = rest := by
  rw [← drop_drop, h, drop_left]

theorem of_drop_counted {len : ℕ} (hlen : bytes.length < 256 ^ len) (hpos : 0 < len)
    (h : p.drop pos = bigEndian len bytes.length ++ bytes ++ rest) :
    pos + len + bytes.length ≤ p.length ∧ fromBigEndian (slice p pos len) = bytes.length ∧
      slice p (pos + len) bytes.length = bytes := by
  rw [append_assoc] at h
  have hne : bigEndian len bytes.length ++ (bytes ++ rest) ≠ [] := by
    refine append_ne_nil_of_left_ne_nil (length_pos_iff.mp ?_) _
    rwa [length_bigEndian]
  have hlength := length_of_drop h hne
  have hslice := slice_of_drop h
  have hbytes := drop_add_of_drop h
  rw [length_append, length_append, length_bigEndian] at hlength
  rw [length_bigEndian] at hslice hbytes
  refine ⟨by omega, ?_, slice_of_drop hbytes⟩
  rw [hslice, fromBigEndian_bigEndian, Nat.mod_eq_of_lt hlen]

theorem parseKappaField_kappaField {kappa : String} (hp : p.length < 2 ^ 63)
    (hkappa : (textBytes kappa).length < 65536) (h : p.drop pos = kappaField kappa ++ rest) :
    parseKappaField p pos = .ok (kappa, pos + (kappaField kappa).length) := by
  obtain ⟨hin, hlen, htext⟩ := of_drop_counted hkappa (by decide) h
  have hstart : usizeAdd pos 2 = .ok (pos + 2) := usizeAdd_eq_ok.mpr ⟨by omega, rfl⟩
  have hstop : usizeAdd (pos + 2) (textBytes kappa).length = .ok (pos + 2 + (textBytes kappa).length) :=
    usizeAdd_eq_ok.mpr ⟨by omega, rfl⟩
  rw [parseKappaField, hstart, ok_bind, if_neg (by omega), hlen]
  dsimp only
  rw [hstop, ok_bind, if_neg (by omega), htext, fromUtf8_textBytes, kappaField, length_append, length_bigEndian, Nat.add_assoc]

theorem parseContentField_contentField {allowance : ℕ} {content : Bytes} (hp : p.length < 2 ^ 63)
    (hallow : p.length ≤ allowance) (hcontent : content.length < 2 ^ 63)
    (h : p.drop pos = contentField content ++ rest) :
    parseContentField allowance p pos = .ok (content, pos + (contentField content).length) := by
  obtain ⟨hin, hlen, hbytes⟩ := of_drop_counted (hcontent.trans (by decide)) (by decide) h
  have hstart : usizeAdd pos 8 = .ok (pos + 8) := usizeAdd_eq_ok.mpr ⟨by omega, rfl⟩
  have hstop : usizeAdd (pos + 8) content.length = .ok (pos + 8 + content.length) :=
    usizeAdd_eq_ok.mpr ⟨by omega, rfl⟩
  rw [parseContentField, hstart, ok_bind, if_neg (by omega), hlen]
  dsimp only
  rw [hstop, ok_bind, if_neg (by omega), reserve_eq_ok ⟨by omega, by omega⟩, ok_bind, hbytes, contentField, length_append, length_bigEndian,
    Nat.add_assoc]

end

/-! ## Running the decoder over a script -/

/-- The objects agree where their labels do. -/
def LabelsAgree (objects : List BundleEntry) : Prop :=
  ∀ o ∈ objects, ∀ o' ∈ objects, o.kappa = o'.kappa → o.content = o'.content

/-- The objects verify under their labels, agree where these do, and are under the limit. -/
structure Sendable (hashes : Hashes) (objects : List BundleEntry) : Prop where
  verified : ∀ o ∈ objects, hashes.verifyKappa o.kappa o.content = .ok true
  agree : LabelsAgree objects
  total : (objects.map fun o => o.content.length).sum ≤ decodeMaxBytes

namespace DecodeInput

variable {d : DecodeInput} {st : DecodeState} {done : List BundleEntry}

/-- The decoder has read these objects. -/
structure HasRead (st : DecodeState) (done : List BundleEntry) : Prop where
  entries : st.entries = done
  index : ∀ o ∈ done, st.index[o.kappa]? = some o.content
  total : st.totalBytes = (done.map fun o => o.content.length).sum
  resolved : st.resolved = 0

theorem hasRead_start : HasRead start [] :=
  ⟨rfl, nofun, rfl, rfl⟩

/-- The state after one more object. -/
def read (st : DecodeState) (pos : ℕ) (o : BundleEntry) : DecodeState :=
  { st with
    pos := pos
    entries := st.entries ++ [o]
    index := st.index.insert o.kappa o.content
    totalBytes := st.totalBytes + o.content.length }

variable {o : BundleEntry}

theorem HasRead.read (h : HasRead st done) (hagree : LabelsAgree (done ++ [o])) (pos : ℕ) :
    HasRead (read st pos o) (done ++ [o]) := by
  refine ⟨?_, ?_, ?_, h.resolved⟩
  · show st.entries ++ [o] = done ++ [o]
    rw [h.entries]
  · intro o' ho'
    show (st.index.insert o.kappa o.content)[o'.kappa]? = some o'.content
    rw [Table.get_insert]
    split
    · rename_i heq
      rw [hagree o (by simp) o' ho' heq]
    · rename_i hne
      rcases mem_append.mp ho' with hold | hnew
      · exact h.index o' hold
      · rw [mem_singleton] at hnew
        rw [hnew] at hne
        exact absurd rfl hne
  · show st.totalBytes + o.content.length = _
    rw [map_append, sum_append, h.total]
    simp

theorem HasRead.accept (h : HasRead st done) (hsend : Sendable d.hashes (done ++ [o])) (pos : ℕ) :
    d.accept st pos o.kappa o.content = .ok (DecodeInput.read st pos o) := by
  have htotal := hsend.total
  rw [map_append, sum_append, ← h.total] at htotal
  simp only [map_cons, map_nil, sum_cons, sum_nil, Nat.add_zero] at htotal
  have hmax : decodeMaxBytes < 2 ^ 63 := by decide
  have hmin : min (st.totalBytes + o.content.length) (2 ^ 64 - 1) = st.totalBytes + o.content.length :=
    Nat.min_eq_left (by omega)
  have hverify : d.verifyEntryKappa o.kappa o.content = .ok () := by
    rw [verifyEntryKappa, hsend.verified o (by simp)]
  have hreserve : reserve (d.allowance st.resolved) o.content.length = .ok () := by
    refine reserve_eq_ok ⟨by omega, ?_⟩
    rw [allowance]
    omega
  rw [DecodeInput.accept, hmin, if_neg (by omega), hverify]
  rw [hreserve]
  rfl

end DecodeInput

open DecodeInput

theorem length_utf8 (s : String) : (textBytes s).length = byteLen s := by
  rw [textBytes, byteLen, length_flatMap]
  refine congrArg sum (map_congr_left fun c _ => ?_)
  exact String.length_utf8EncodeChar c

variable {hashes : Hashes}

theorem length_verified {kappa : String} {content : Bytes}
    (h : hashes.verifyKappa kappa content = .ok true) : (textBytes kappa).length ≤ 135 := by
  obtain ⟨k, hparse, -⟩ := bind_eq_ok.mp h
  rw [← KappaLabel.parse_eq_ok.mp hparse, length_utf8, k.byteLen_asStr]
  exact k.axis.length_bounds.2

variable {objects : List BundleEntry}

theorem Sendable.length_le (h : Sendable hashes objects)
    {o : BundleEntry} (ho : o ∈ objects) : o.content.length ≤ decodeMaxBytes :=
  (single_le_sum (fun _ _ => Nat.zero_le _) _ (mem_map_of_mem ho)).trans h.total

theorem Sendable.left {rest : List BundleEntry}
    (h : Sendable hashes (objects ++ rest)) : Sendable hashes objects := by
  refine ⟨?_, ?_, ?_⟩
  · exact fun o ho => h.verified o (mem_append_left _ ho)
  · exact fun o ho o' ho' => h.agree o (mem_append_left _ ho) o' (mem_append_left _ ho')
  · have htotal := h.total
    rw [map_append, sum_append] at htotal
    omega

theorem applyDeltaIn_computeDelta (allowance : ℕ) {base target delta : Bytes}
    (hdelta : computeDelta base target = some delta) (hbase : base.length ≤ 2 ^ 32)
    (htarget : target.length < 2 ^ 63) (hallow : target.length ≤ allowance) :
    applyDeltaIn allowance base delta = .ofDelta (applyDelta base delta) := by
  obtain ⟨rest, out, hsize, hresult, happly, hout, -, -⟩ := read_computeDelta hdelta hbase htarget
  have hsizes : deltaSizes delta = .ok (base.length, target.length, rest) := by
    rw [deltaSizes, hsize]
    show (decodeVarint (encodeVarint target.length ++ rest) >>= _) = _
    rw [hresult]
    rfl
  have hgrow : emitted base rest.length rest = out.length := by
    have hlength := length_applyInstructions base rest.length rest []
    rw [happly, length_nil, Nat.zero_add] at hlength
    exact hlength.symm
  have hreserve : reserveDelta allowance base delta = .ok () := by
    rw [reserveDelta, hsizes]
    dsimp only
    rw [if_neg (by simp), reserve_eq_ok ⟨htarget, hallow⟩, hgrow]
    exact reserve_eq_ok ⟨by omega, by omega⟩
  rw [applyDeltaIn, hreserve]
  rfl

namespace DecodeInput

variable {d : DecodeInput} {st : DecodeState} {done : List BundleEntry} {rest : Bytes}

theorem drop_entryType {entryType : UInt8} (h : d.payload.drop st.pos = entryType :: rest) :
    d.payload[st.pos]? = some entryType ∧ d.payload.drop (st.pos + 1) = rest := by
  have hsingle : d.payload.drop st.pos = [entryType] ++ rest := h
  refine ⟨?_, drop_add_of_drop hsingle⟩
  have hhead : (d.payload.drop st.pos)[0]? = some entryType := by rw [h, getElem?_cons_zero]
  rwa [getElem?_drop] at hhead

theorem HasRead.decodeFull (h : HasRead st done) {o : BundleEntry}
    (hsend : Sendable d.hashes (done ++ [o])) (hp : d.payload.length < 2 ^ 63)
    (hdrop : d.payload.drop st.pos = fullEntry o.kappa o.content ++ rest) :
    d.decodeEntry st = .ok (DecodeInput.read st (st.pos + (fullEntry o.kappa o.content).length) o) := by
  have hmax : decodeMaxBytes = 2 ^ 28 := by decide
  have hkappa := length_verified (hsend.verified o (by simp))
  have hlength := hsend.length_le (o := o) (by simp)
  rw [fullEntry, cons_append, append_assoc] at hdrop
  obtain ⟨htype, hdrop⟩ := drop_entryType hdrop
  have hcontent := drop_add_of_drop hdrop
  have hpos : st.pos + 1 + (kappaField o.kappa).length + (contentField o.content).length =
      st.pos + (fullEntry o.kappa o.content).length := by
    rw [fullEntry, length_cons, length_append]
    omega
  rw [decodeEntry_eq hp htype, if_pos rfl, DecodeInput.decodeFull, parseKappaField_kappaField hp (by omega) hdrop]
  show (parseContentField _ _ _ >>= _) = _
  rw [parseContentField_contentField hp (payload_le_allowance _) (by omega) hcontent]
  show d.accept st _ o.kappa o.content = _
  rw [h.accept hsend, hpos]

theorem HasRead.decodeDelta (h : HasRead st done) {o base : BundleEntry} {delta : Bytes}
    (hsend : Sendable d.hashes (done ++ [o])) (hp : d.payload.length < 2 ^ 63)
    (hdrop : d.payload.drop st.pos = deltaEntry o.kappa base.kappa delta ++ rest) (hbase : base ∈ done)
    (hdelta : computeDelta base.content o.content = some delta) (hflags : d.flags.toNat % 2 ≠ 0) :
    (ShortCopies base.content o.content →
      d.decodeEntry st = .ok (DecodeInput.read st (st.pos + (deltaEntry o.kappa base.kappa delta).length) o)) ∧
    (¬ ShortCopies base.content o.content → ∃ e, d.decodeEntry st = .err e) := by
  have hmax : decodeMaxBytes = 2 ^ 28 := by decide
  have hkappa := length_verified (hsend.verified o (by simp))
  have hbaseKappa := length_verified (hsend.left.verified base hbase)
  have hbaseLength := hsend.left.length_le hbase
  have hlength := hsend.length_le (o := o) (by simp)
  have hshorter := (computeDelta_eq_some hdelta).2
  rw [deltaEntry, cons_append, append_assoc, append_assoc] at hdrop
  obtain ⟨htype, hdrop⟩ := drop_entryType hdrop
  have hdrop₁ := drop_add_of_drop hdrop
  have hdrop₂ := drop_add_of_drop hdrop₁
  have hpos : st.pos + 1 + (kappaField o.kappa).length + (kappaField base.kappa).length +
      (contentField delta).length = st.pos + (deltaEntry o.kappa base.kappa delta).length := by
    rw [deltaEntry, length_cons, length_append, length_append]
    omega
  have hfound : d.findBase st base.kappa = some (base.content, 0) := by
    rw [findBase, h.index base hbase]
  have hallow : decodeMaxBytes ≤ d.allowance st.resolved := by
    rw [allowance]
    omega
  have hcopy : reserve (d.allowance st.resolved) (base.content.length - 0) = .ok () :=
    reserve_eq_ok ⟨by omega, by omega⟩
  have hrun : d.decodeEntry st = (ofDelta (applyDelta base.content delta) >>=
      d.accept st (st.pos + (deltaEntry o.kappa base.kappa delta).length) o.kappa) := by
    rw [decodeEntry_eq hp htype, if_neg (by decide), if_pos rfl, if_neg hflags, DecodeInput.decodeDelta,
      parseKappaField_kappaField hp (by omega) hdrop, ok_bind]
    dsimp only
    rw [parseKappaField_kappaField hp (by omega) hdrop₁, ok_bind]
    rw [parseContentField_contentField hp (payload_le_allowance _) (by omega) hdrop₂, ok_bind]
    rw [hfound]
    dsimp only
    rw [hcopy, ok_bind, Nat.add_zero,
      applyDeltaIn_computeDelta _ hdelta (by omega) (by omega) (by omega), hpos]
  obtain ⟨hback, herror⟩ := applyDelta_computeDelta hdelta (by omega) (by omega)
  constructor
  · intro hshort
    rw [hrun, hback hshort]
    exact h.accept hsend _
  · intro hlong
    obtain ⟨e, he⟩ := herror hlong
    rw [hrun, he]
    exact ⟨_, rfl⟩

theorem HasRead.decodeEntry (h : HasRead st done) {e : WireEntry}
    (hsend : Sendable d.hashes (done ++ [e.object])) (hp : d.payload.length < 2 ^ 63)
    (hdrop : d.payload.drop st.pos = e.bytes ++ rest) (hready : e.Ready done)
    (hflags : e.isDelta = true → d.flags.toNat % 2 ≠ 0) :
    (e.GivesBack → d.decodeEntry st = .ok (DecodeInput.read st (st.pos + e.bytes.length) e.object)) ∧
      (¬ e.GivesBack → ∃ err, d.decodeEntry st = .err err) := by
  cases e with
  | full o => exact ⟨fun _ => h.decodeFull hsend hp hdrop, fun hnot => absurd trivial hnot⟩
  | delta o base bytes => exact h.decodeDelta hsend hp hdrop hready.1 hready.2 (hflags rfl)

theorem append_map_object (done : List BundleEntry) (e : WireEntry) (script : List WireEntry) :
    done ++ (e :: script).map object = (done ++ [e.object]) ++ script.map object := by
  rw [map_cons, append_assoc, singleton_append]

/-- **The decoder over a script.** -/
theorem HasRead.decodeEntries {script : List WireEntry} (h : HasRead st done)
    (hsend : Sendable d.hashes (done ++ script.map object)) (hp : d.payload.length < 2 ^ 63)
    (hdrop : d.payload.drop st.pos = script.flatMap bytes) (hready : ScriptReady done script)
    (hflags : ∀ e ∈ script, e.isDelta = true → d.flags.toNat % 2 ≠ 0) :
    ((∀ e ∈ script, e.GivesBack) → ∃ st', d.decodeEntries script.length st = .ok st' ∧
        st'.entries = done ++ script.map object) ∧
      ((∃ e ∈ script, ¬ e.GivesBack) → ∃ err, d.decodeEntries script.length st = .err err) := by
  induction script generalizing st done with
  | nil =>
    refine ⟨fun _ => ⟨st, rfl, ?_⟩, ?_⟩
    · rw [map_nil, append_nil, h.entries]
    · rintro ⟨e, he, -⟩
      cases he
  | cons e script ih =>
    rw [append_map_object] at hsend ⊢
    rw [flatMap_cons] at hdrop
    obtain ⟨hgood, hbad⟩ := h.decodeEntry hsend.left hp hdrop hready.1 (hflags e mem_cons_self)
    by_cases hback : e.GivesBack
    · have hnext := drop_add_of_drop hdrop
      obtain ⟨hall, hsome⟩ := ih (h.read hsend.left.agree (st.pos + e.bytes.length)) hsend hnext hready.2
        fun e' he' => hflags e' (mem_cons_of_mem _ he')
      have hstep : d.decodeEntries (e :: script).length st =
          d.decodeEntries script.length (DecodeInput.read st (st.pos + e.bytes.length) e.object) := by
        rw [length_cons, decodeEntries, hgood hback, ok_bind]
      rw [hstep]
      refine ⟨fun h' => hall fun e' he' => h' e' (mem_cons_of_mem _ he'), ?_⟩
      rintro ⟨e', he', hnot⟩
      rcases mem_cons.mp he' with rfl | he'
      · exact absurd hback hnot
      · exact hsome ⟨e', he', hnot⟩
    · obtain ⟨err, herr⟩ := hbad hback
      refine ⟨fun h' => absurd (h' e mem_cons_self) hback, fun _ => ⟨err, ?_⟩⟩
      rw [length_cons, decodeEntries, herr]
      rfl

variable {st st' : DecodeState}

theorem length_accept {pos : ℕ} {kappa : String} {content : Bytes}
    (h : d.accept st pos kappa content = .ok st') : st'.entries.length = st.entries.length + 1 := by
  unfold accept at h
  dsimp only at h
  split at h
  · cases h
  · obtain ⟨_, -, h⟩ := bind_eq_ok.mp h
    obtain ⟨_, -, h⟩ := bind_eq_ok.mp h
    cases h
    rw [length_append, length_singleton]

theorem length_decodeEntry (h : d.decodeEntry st = .ok st') :
    st'.entries.length = st.entries.length + 1 := by
  obtain ⟨resolved, pos, kappa, content, -, haccept⟩ := accept_of_decodeEntry h
  have hlength := length_accept haccept
  exact hlength

theorem length_decodeEntries {n : ℕ} (h : d.decodeEntries n st = .ok st') :
    st'.entries.length = st.entries.length + n := by
  induction n generalizing st with
  | zero =>
    cases h
    rfl
  | succ n ih =>
    obtain ⟨st₁, hstep, hrest⟩ := bind_eq_ok.mp h
    rw [ih hrest, length_decodeEntry hstep]
    omega

/-! ## Reading the header -/

section

variable (hashes : Hashes) (flags : UInt8) (n : ℕ) (body : Bytes) (resolveBase : String → Option Bytes)

/-- The decoder on a header, a body and their hash. -/
def wireInput : DecodeInput :=
  ⟨hashes, withHash hashes (bundleHeader flags n ++ body), resolveBase⟩

theorem length_bundleHeader : (bundleHeader flags n).length = 10 := by
  rw [bundleHeader, length_append, length_bigEndian]
  rfl

theorem length_wireInput : (wireInput hashes flags n body resolveBase).data.length = 10 + body.length + 32 := by
  show (withHash hashes (bundleHeader flags n ++ body)).length = _
  rw [withHash, length_append, length_append, length_bundleHeader, hashes.length_digest]
  rfl

theorem payload_wireInput : (wireInput hashes flags n body resolveBase).payload = bundleHeader flags n ++ body := by
  have hlength : (bundleHeader flags n ++ body).length = 10 + body.length := by
    rw [length_append, length_bundleHeader]
  rw [payload, length_wireInput]
  show (withHash hashes (bundleHeader flags n ++ body)).take _ = _
  rw [withHash, Nat.add_sub_cancel, ← hlength, take_left]

theorem entryCount_wireInput : (wireInput hashes flags n body resolveBase).entryCount = n % 2 ^ 32 := by
  have hdrop : (wireInput hashes flags n body resolveBase).data.drop 6 =
      bigEndian 4 n ++ (body ++ hashes.digest .sha256 (bundleHeader flags n ++ body)) := by
    show ((bundleHeader flags n ++ body) ++ _).drop 6 = _
    rw [bundleHeader, append_assoc, append_assoc]
    rfl
  have hslice := slice_of_drop hdrop
  rw [length_bigEndian] at hslice
  rw [entryCount, hslice, fromBigEndian_bigEndian]
  rfl

theorem checkHeader_wireInput : (wireInput hashes flags n body resolveBase).checkHeader = none := by
  have hlength := length_wireInput hashes flags n body resolveBase
  have htrailer : (wireInput hashes flags n body resolveBase).data.drop (10 + body.length) =
      hashes.digest .sha256 (bundleHeader flags n ++ body) := by
    have hten : (bundleHeader flags n ++ body).length = 10 + body.length := by
      rw [length_append, length_bundleHeader]
    show (withHash hashes (bundleHeader flags n ++ body)).drop _ = _
    rw [withHash, ← hten, drop_left]
  rw [checkHeader, payload_wireInput, hlength, if_neg (by omega), Nat.add_sub_cancel, htrailer, if_neg, if_neg, if_neg]
  · exact fun h => h rfl
  · exact fun h => h rfl
  · exact fun h => h rfl

theorem decode_wireInput :
    decode hashes (withHash hashes (bundleHeader flags n ++ body)) resolveBase =
      ((wireInput hashes flags n body resolveBase).decodeEntries (n % 2 ^ 32) start >>=
        fun st => .ok st.entries) := by
  have hreserve : reserve ((wireInput hashes flags n body resolveBase).allowance 0)
      (48 * min (wireInput hashes flags n body resolveBase).entryCount
        ((wireInput hashes flags n body resolveBase).payload.length / 56)) = .ok () := by
    have hle := payload_le_allowance (d := wireInput hashes flags n body resolveBase) 0
    have hcount := entryCount_wireInput hashes flags n body resolveBase
    exact reserve_eq_ok ⟨by omega, by omega⟩
  have hcheck := checkHeader_wireInput hashes flags n body resolveBase
  unfold decode
  dsimp only
  rw [show (⟨hashes, withHash hashes (bundleHeader flags n ++ body), resolveBase⟩ : DecodeInput) =
    wireInput hashes flags n body resolveBase from rfl, hcheck]
  rw [hreserve, ok_bind, entryCount_wireInput]

end

end DecodeInput

/-! ## Round trip -/

/-- Every object comes back. -/
def RoundTrips (hashes : Hashes) (objects : List BundleEntry) (useDeltas : Bool) : Prop :=
  ∃ entries, decode hashes (encode hashes objects useDeltas) (fun _ => none) = .ok entries ∧ entries.Perm objects

/-- The number of objects has 32 bits, and the deltas fit if there are any. -/
def BundleFits (objects : List BundleEntry) (useDeltas : Bool) : Prop :=
  objects.length < 2 ^ 32 ∧ (useDeltas = true → 2 ≤ objects.length → DeltasFit objects)

theorem length_script {script : List WireEntry} {done : List BundleEntry} (hready : ScriptReady done script)
    (hkappa : ∀ o ∈ done ++ script.map object, (textBytes o.kappa).length ≤ 135) :
    (script.flatMap bytes).length ≤ 283 * script.length +
      ((script.map object).map fun o => o.content.length).sum := by
  induction script generalizing done with
  | nil => exact Nat.zero_le _
  | cons e script ih =>
    rw [append_map_object] at hkappa
    have hrest := ih hready.2 hkappa
    have hobject := hkappa e.object (by simp)
    have hentry : e.bytes.length ≤ 283 + e.object.content.length := by
      cases e with
      | full o =>
        change (textBytes o.kappa).length ≤ 135 at hobject
        simp only [bytes, object, fullEntry, kappaField, contentField, length_cons,
          length_append, length_bigEndian]
        omega
      | delta o base d =>
        have hbase := hkappa base (mem_append_left _ (mem_append_left _ hready.1.1))
        have hshort := (computeDelta_eq_some hready.1.2).2
        change (textBytes o.kappa).length ≤ 135 at hobject
        simp only [bytes, object, deltaEntry, kappaField, contentField, length_cons,
          length_append, length_bigEndian]
        omega
    rw [flatMap_cons, length_append, length_cons, map_cons, map_cons, sum_cons]
    omega

section

variable {hashes : Hashes} {objects : List BundleEntry} {useDeltas : Bool}

theorem sendable_of_collisionFree (hverified : ∀ o ∈ objects, hashes.verifyKappa o.kappa o.content = .ok true)
    (hfree : hashes.CollisionFree (objects.map BundleEntry.content))
    (htotal : (objects.map fun o => o.content.length).sum ≤ decodeMaxBytes) : Sendable hashes objects := by
  refine ⟨hverified, ?_, htotal⟩
  intro o ho o' ho' heq
  have hv := hverified o ho
  have hv' := hverified o' ho'
  obtain ⟨k, hparse, -⟩ := bind_eq_ok.mp hv
  rw [← heq] at hv'
  rw [← KappaLabel.parse_eq_ok.mp hparse] at hv hv'
  exact hfree _ (mem_map_of_mem ho) _ (mem_map_of_mem ho') k (verifyKappa_eq_true.mp hv)
    (verifyKappa_eq_true.mp hv')

theorem Sendable.perm {objects' : List BundleEntry} (h : Sendable hashes objects)
    (hperm : objects'.Perm objects) :
    Sendable hashes objects' := by
  refine ⟨fun o ho => h.verified o (hperm.mem_iff.mp ho), ?_, ?_⟩
  · exact fun o ho o' ho' => h.agree o (hperm.mem_iff.mp ho) o' (hperm.mem_iff.mp ho')
  · rw [(hperm.map fun o => o.content.length).sum_eq]
    exact h.total

theorem decode_encode_of_lt (h : Sendable hashes objects) (hcount : objects.length < 2 ^ 32) :
    ((useDeltas = true → 2 ≤ objects.length → DeltasFit objects) → RoundTrips hashes objects useDeltas) ∧
      (¬ (useDeltas = true → 2 ≤ objects.length → DeltasFit objects) →
        ∃ e, decode hashes (encode hashes objects useDeltas) (fun _ => none) = .err e) := by
  obtain ⟨flags, script, hencode, hperm, hready, hflags, hback⟩ := encode_script hashes objects useDeltas
  have hlength : script.length = objects.length := by
    rw [← hperm.length_eq, length_map]
  have hsend : Sendable hashes ([] ++ script.map object) := h.perm hperm
  have hpayload := payload_wireInput hashes flags objects.length (script.flatMap bytes)
    fun _ => none
  have hp : (wireInput hashes flags objects.length (script.flatMap bytes)
      fun _ => none).payload.length < 2 ^ 63 := by
    have hbody := length_script hready fun o ho => length_verified (hsend.verified o ho)
    have htotal := hsend.total
    have hmax : decodeMaxBytes = 2 ^ 28 := by decide
    rw [nil_append] at htotal
    rw [hpayload, length_append, length_bundleHeader]
    omega
  have hdrop : (wireInput hashes flags objects.length (script.flatMap bytes)
      fun _ => none).payload.drop start.pos = script.flatMap bytes := by
    rw [hpayload]
    exact drop_left' (length_bundleHeader flags objects.length)
  obtain ⟨hgood, hbad⟩ := hasRead_start.decodeEntries hsend hp hdrop hready hflags
  rw [RoundTrips, hencode, decode_wireInput, Nat.mod_eq_of_lt hcount, ← hlength]
  rw [← hlength] at hgood hbad
  constructor
  · intro hfit
    obtain ⟨st, hrun, hentries⟩ := hgood (hback.mpr (hlength ▸ hfit))
    refine ⟨st.entries, ?_, ?_⟩
    · rw [hrun]
      rfl
    · rwa [hentries]
  · intro hnot
    have hsome : ∃ e ∈ script, ¬ e.GivesBack := by
      by_contra hnone
      refine hnot (hlength ▸ hback.mp ?_)
      intro e he
      by_contra hlong
      exact hnone ⟨e, he, hlong⟩
    obtain ⟨e, he⟩ := hbad hsome
    exact ⟨e, by rw [he]; rfl⟩

theorem RoundTrips.length_lt (h : RoundTrips hashes objects useDeltas) : objects.length < 2 ^ 32 := by
  obtain ⟨flags, script, hencode, -⟩ := encode_script hashes objects useDeltas
  obtain ⟨entries, hok, hperm⟩ := h
  rw [hencode, decode_wireInput] at hok
  obtain ⟨st, hrun, hentries⟩ := bind_eq_ok.mp hok
  cases hentries
  have hlength := length_decodeEntries hrun
  rw [hperm.length_eq] at hlength
  change objects.length = 0 + objects.length % 2 ^ 32 at hlength
  omega

end

/-- **Round trip.** -/
theorem decode_encode_iff (hashes : Hashes) (objects : List BundleEntry) (useDeltas : Bool)
    (hverified : ∀ o ∈ objects, hashes.verifyKappa o.kappa o.content = .ok true)
    (hfree : hashes.CollisionFree (objects.map BundleEntry.content))
    (htotal : (objects.map fun o => o.content.length).sum ≤ decodeMaxBytes) :
    RoundTrips hashes objects useDeltas ↔ BundleFits objects useDeltas := by
  have hsend := sendable_of_collisionFree hverified hfree htotal
  refine ⟨?_, fun h => (decode_encode_of_lt hsend h.1).1 h.2⟩
  intro h
  refine ⟨h.length_lt, ?_⟩
  by_contra hnot
  obtain ⟨e, he⟩ := (decode_encode_of_lt hsend h.length_lt).2 hnot
  obtain ⟨entries, hok, -⟩ := h
  simp [he] at hok

theorem deltasFit_of_length (h : ∀ o ∈ objects, o.content.length < 2 ^ 24) : DeltasFit objects := by
  intro idx o _ _ base ho _ _
  have hperm : (bySize objects).Perm objects := mergeSort_perm objects _
  exact shortCopies_of_length (h o (hperm.mem_iff.mp (mem_of_getElem? ho)))

def labelled (content : Bytes) : BundleEntry := ⟨(sample.label .sha256 content).asStr, content⟩

theorem verified_labelled (content : Bytes) :
    sample.verifyKappa (labelled content).kappa (labelled content).content = .ok true :=
  verifyKappa_eq_true.mpr (compute_eq_ok.mpr ⟨by simp [sample], rfl⟩)

theorem verified_pair (content content' : Bytes) : ∀ o ∈ [labelled content, labelled content'],
    sample.verifyKappa o.kappa o.content = .ok true := by
  intro o ho
  simp only [mem_cons, not_mem_nil, or_false] at ho
  rcases ho with rfl | rfl <;> exact verified_labelled _

theorem total_pair (content content' : Bytes) :
    ([labelled content, labelled content'].map fun o => o.content.length).sum = content.length + content'.length := by
  simp [labelled]

theorem collisionFree_pair {b b' : UInt8} (hne : b ≠ b') (content content' : Bytes) :
    sample.CollisionFree [b :: content, b' :: content'] := by
  have hhead : ∀ (axis : Axis) (b : UInt8) (content : Bytes), (sample.digest axis (b :: content)).head? = some b := by
    intro axis b content
    cases axis <;> rfl
  refine collisionFree_of_digest ?_
  intro c hc c' hc' axis heq
  have hheads := congrArg head? heq
  simp only [mem_cons, not_mem_nil, or_false] at hc hc'
  rcases hc with rfl | rfl <;> rcases hc' with rfl | rfl
  · rfl
  · rw [hhead, hhead] at hheads
    exact absurd (Option.some.inj hheads) hne
  · rw [hhead, hhead] at hheads
    exact absurd (Option.some.inj hheads).symm hne
  · rfl

/-- Two objects that differ in their first byte: the second is sent as a delta. -/
def nearObjects : List BundleEntry :=
  [labelled (1 :: List.replicate 32 7), labelled (2 :: List.replicate 32 7)]

theorem decode_encode_small : RoundTrips .sample nearObjects true ∧
    (planEntries (bySize nearObjects)).map (fun p => p.deltaBase.map Prod.fst) = [none, some 0] := by
  constructor
  · refine (decode_encode_iff .sample nearObjects true (verified_pair _ _)
      (collisionFree_pair (by decide) _ _) (by decide)).mpr ⟨by decide, fun _ _ => deltasFit_of_length ?_⟩
    decide
  · have hsorted : bySize nearObjects = nearObjects := mergeSort_of_pairwise (by decide)
    rw [hsorted]
    decide +kernel

section

variable {b b' : UInt8} {rest : Bytes}

theorem not_deltasFit_suffix (hlong : 2 ^ 24 ≤ (b' :: rest).length)
    (hmax : (b :: b' :: rest).length < 128 ^ 5) :
    ¬ DeltasFit [labelled (b :: b' :: rest), labelled (b' :: rest)] := by
  have hsorted : bySize [labelled (b :: b' :: rest), labelled (b' :: rest)] = _ :=
    mergeSort_of_pairwise (pairwise_pair.mpr (decide_eq_true (Nat.le_succ _)))
  obtain ⟨delta, hdelta⟩ := computeDelta_suffix [b] (b' :: rest) (by omega) hmax
  have hbest : bestDelta [labelled (b :: b' :: rest), labelled (b' :: rest)] 1 (b' :: rest) = some (0, delta) := by
    show betterDelta (b' :: rest) none (labelled (b :: b' :: rest), 0) = some (0, delta)
    have hdelta : computeDelta (labelled (b :: b' :: rest)).content (b' :: rest) = some delta := hdelta
    rw [betterDelta, hdelta]
    rfl
  intro hfit
  refine not_shortCopies_suffix [b] (b' :: rest) hlong ?_
  refine hfit 1 (labelled (b' :: rest)) 0 delta (labelled (b :: b' :: rest)) ?_ ?_ ?_
  · rw [hsorted]
    rfl
  · rwa [hsorted]
  · rw [hsorted]
    rfl

theorem not_roundTrips_suffix (hne : b ≠ b') (hlong : 2 ^ 24 ≤ (b' :: rest).length)
    (hlimit : (b :: b' :: rest).length + (b' :: rest).length ≤ decodeMaxBytes) :
    let objects := [labelled (b :: b' :: rest), labelled (b' :: rest)]
    (∀ o ∈ objects, sample.verifyKappa o.kappa o.content = .ok true) ∧
      sample.CollisionFree (objects.map BundleEntry.content) ∧
      (objects.map fun o => o.content.length).sum ≤ decodeMaxBytes ∧ ¬ RoundTrips .sample objects true := by
  intro objects
  have hmax : decodeMaxBytes = 2 ^ 28 := by decide
  have hverified := verified_pair (b :: b' :: rest) (b' :: rest)
  have hfree := collisionFree_pair hne (b' :: rest) rest
  have htotal : (objects.map fun o => o.content.length).sum ≤ decodeMaxBytes := by
    rwa [total_pair]
  refine ⟨hverified, hfree, htotal, ?_⟩
  obtain ⟨e, he⟩ := (decode_encode_of_lt (sendable_of_collisionFree hverified hfree htotal)
    (show 2 < 2 ^ 32 by decide)).2 fun hfit => not_deltasFit_suffix hlong (by omega) (hfit rfl le_rfl)
  rintro ⟨entries, hok, -⟩
  rw [he] at hok
  cases hok

end

/-- 16 MiB of zeros, and the same after one more byte. -/
theorem decode_encode_long :
    let zeros := 0 :: List.replicate (2 ^ 24 - 1) 0
    let objects := [labelled (1 :: zeros), labelled zeros]
    (∀ o ∈ objects, Hashes.sample.verifyKappa o.kappa o.content = .ok true) ∧
      Hashes.sample.CollisionFree (objects.map BundleEntry.content) ∧
      (objects.map fun o => o.content.length).sum ≤ decodeMaxBytes ∧ ¬ RoundTrips .sample objects true := by
  have hmax : decodeMaxBytes = 2 ^ 28 := by decide
  refine not_roundTrips_suffix (by decide) ?_ ?_
  · rw [List.length_cons, List.length_replicate]
    decide
  · rw [List.length_cons, List.length_cons, List.length_replicate, hmax]
    decide

end KappaRegistry
