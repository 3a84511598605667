import KappaRegistry.Crypto.Sample
import KappaRegistry.Store.Persistent

/-!
# Tag Rows as They Are Stored

`kappa-store-redb/src/tag.rs` on the texts the database holds: a row is the label, a NUL and the
version, and with an encryptor the hexadecimal of that text sealed. Every read opens the row
before it takes the text apart; but the writes, and the version check of a batch, look for the
version in the text as it is stored, and a hexadecimal text has none.

A sealed table `Mirrors` the plain one when every row opens to the plain row.
**`runTags_transparent`**: as long as tags are written only where there is no row yet, both stores
answer alike, call by call.
-/

namespace KappaRegistry

open Lib PersistentStore List

/-! ## Rows -/

/-- The rows of the tag table, by `ns`, NUL, name. -/
abbrev TagTable := Table String String

structure TagUpdate where
  name : String
  kappa : String
  expectedVersion : Option ℕ
  deriving DecidableEq

/-- `parse_version`: zero if there is none. -/
def parseVersion (val : String) : ℕ :=
  match rsplitOnce '\x00' val.toList with
  | some (_, version) => (parseRadix 10 u64Max (String.ofList version)).toOption.getD 0
  | none => 0

def parseEntry (name val : String) : Except StoreError TagEntry := do
  let (kappa, version) ← need (rsplitOnce '\x00' val.toList) (.io "corrupted tag value")
  let version ← (parseRadix 10 u64Max (String.ofList version)).mapError
    fun _ => .io "corrupted tag version"
  return { name, kappa := String.ofList kappa, version }

def tagText (kappa : String) (version : ℕ) : String := kappa ++ "\x00" ++ toString version

variable (enc : Option TableEncryptor) (t : TagTable) (ns key : String)

def sealText (text : String) : Except StoreError String :=
  match enc with
  | some enc =>
    ((enc.encryptValue key (textBytes text)).mapError fun e => .io e.display).map hexEncode
  | none => .ok text

/-- The text of a row as it was written. -/
def openText (raw : String) : Except StoreError String :=
  match enc with
  | some enc => do
    let bytes ← (hexDecode raw).mapError fun e => .io e.display
    let plaintext ← (enc.decryptValue key bytes).mapError fun e => .io e.display
    need (fromUtf8 plaintext) (.io "invalid utf-8 sequence")
  | none => .ok raw

/-! ## Operations -/

/-- The version that a write finds in a row: in its text as stored. -/
def rowVersion : ℕ := (t[key]?.map parseVersion).getD 0

/-- The write that `tag_set` and a batch make: the next version of a row. -/
def writeTag (name kappa : String) : Except StoreError (ℕ × TagTable) := do
  let key := dbKey ns name
  let version := (rowVersion t key + 1) % (u64Max + 1)
  let value ← sealText enc key (tagText kappa version)
  return (version, t.insert key value)

def casCheck (update : TagUpdate) : Except StoreError Unit :=
  match update.expectedVersion with
  | none => .ok ()
  | some expected =>
    let current := rowVersion t (dbKey ns update.name)
    ensure (current = expected) (.conflict ("tag " ++ update.name ++ ": expected version " ++
      toString expected ++ " but current is " ++ toString current))

/-- Phase 1 of a batch: every version check. -/
def casCheckAll (t : TagTable) (ns : String) : List TagUpdate → Except StoreError Unit
  | [] => .ok ()
  | update :: updates => do
    casCheck t ns update
    casCheckAll t ns updates

/-- Phase 2 of a batch: every write. -/
def writeAll (ns : String) : TagTable → List TagUpdate → Except StoreError TagTable
  | t, [] => .ok t
  | t, update :: updates => do
    let (_, t) ← writeTag enc t ns update.name update.kappa
    writeAll ns t updates

def tagGet (name : String) : Except StoreError TagEntry := do
  let raw ← need t[dbKey ns name]? (.notFound (ns ++ "/" ++ name))
  let text ← openText enc (dbKey ns name) raw
  parseEntry name text

def readRow (row : String × String) : Except StoreError TagEntry := do
  let name ← need (stripPrefix row.1 (dbKey ns "")) (.io "prefix mismatch")
  let text ← openText enc row.1 row.2
  parseEntry name text

/-- `tag_prefix`. -/
def tagPrefixRows (namePrefix : String) : Except StoreError (List TagEntry) :=
  if successorIsUtf8 (dbKey ns namePrefix) then
    (t.toList.filter fun row => startsWith row.1 (dbKey ns namePrefix)).mapM (readRow enc ns)
  else .error (.io "utf8")

def tagList : Except StoreError (List TagEntry) :=
  tagPrefixRows enc t ns ""

/-! ## Runs -/

/-- A call of a tag operation. -/
inductive TagOp where
  | set (ns name kappa : String)
  | setBatch (ns : String) (updates : List TagUpdate)
  | delete (ns name : String)
  | get (ns name : String)
  | list (ns : String)
  | prefixed (ns namePrefix : String)

inductive TagAnswer where
  | version (version : ℕ)
  | done
  | entry (entry : TagEntry)
  | entries (entries : List TagEntry)
  deriving DecidableEq

/-- A write's answer and the table after it; a write that fails leaves the table as it was. -/
def committed {α : Type} (t : TagTable) (answer : α → TagAnswer) (next : α → TagTable)
    (result : Except StoreError α) : Except StoreError TagAnswer × TagTable :=
  match result with
  | .ok a => (.ok (answer a), next a)
  | .error e => (.error e, t)

def TagOp.step : TagOp → Except StoreError TagAnswer × TagTable
  | set ns name kappa =>
    committed t (fun r => .version r.1) (fun r => r.2) (writeTag enc t ns name kappa)
  | setBatch ns updates =>
    committed t (fun _ => .done) id (do casCheckAll t ns updates; writeAll enc ns t updates)
  | delete ns name => (.ok .done, t.erase (dbKey ns name))
  | get ns name => ((tagGet enc t ns name).map .entry, t)
  | list ns => ((tagList enc t ns).map .entries, t)
  | prefixed ns namePrefix => ((tagPrefixRows enc t ns namePrefix).map .entries, t)

def runTags : TagTable → List TagOp → List (Except StoreError TagAnswer)
  | _, [] => []
  | t, op :: ops => (op.step enc t).1 :: runTags (op.step enc t).2 ops

/-- The call writes no tag that has a row already, and none twice. -/
def TagOp.Fresh (t : TagTable) : TagOp → Prop
  | set ns name _ => t[dbKey ns name]? = none
  | setBatch ns updates =>
    (∀ update ∈ updates, t[dbKey ns update.name]? = none) ∧ (updates.map TagUpdate.name).Nodup
  | _ => True

/-- Every call of a run on the plain store is `Fresh` where it is made. -/
def FreshRun : TagTable → List TagOp → Prop
  | _, [] => True
  | t, op :: ops => op.Fresh t ∧ FreshRun (op.step none t).2 ops

/-! ## The sealed table and the plain one -/

section

variable {enc : TableEncryptor} {plain stored : TagTable}

variable (enc) in
/-- Both tables have the same keys, and every stored row opens to the plain one. -/
def Mirrors (plain stored : TagTable) : Prop := ∀ key : String,
  (plain[key]? = none ∧ stored[key]? = none) ∨
    ∃ text raw, plain[key]? = some text ∧ stored[key]? = some raw ∧
      openText (some enc) key raw = .ok text

theorem mirrors_empty : Mirrors enc ∅ ∅ := by
  intro key
  exact .inl ⟨by simp, by simp⟩

section

variable (h : Mirrors enc plain stored)
include h

theorem Mirrors.insert {key text raw : String}
    (hopen : openText (some enc) key raw = .ok text) :
    Mirrors enc (plain.insert key text) (stored.insert key raw) := by
  intro k
  by_cases hk : key = k
  · subst hk
    exact .inr ⟨text, raw, by simp, by simp, hopen⟩
  · simpa [hk] using h k

theorem Mirrors.erase (key : String) :
    Mirrors enc (plain.erase key) (stored.erase key) := by
  intro k
  by_cases hk : key = k
  · simp [hk]
  · simpa [hk] using h k

theorem Mirrors.absent {key : String} (hkey : plain[key]? = none) :
    stored[key]? = none := by
  rcases h key with ⟨-, hstored⟩ | ⟨text, raw, hplain, -⟩
  · exact hstored
  · simp [hkey] at hplain

end

theorem openText_sealText (hlaw : enc.key.Lawful) (key text : String) :
    ∃ raw, sealText (some enc) key text = .ok raw ∧ openText (some enc) key raw = .ok text := by
  obtain ⟨bytes, hseal, hopen⟩ :=
    TableEncryptor.decryptValue_encryptValue hlaw key (textBytes text)
  refine ⟨hexEncode bytes, ?_, ?_⟩
  · exact map_eq_ok.mpr ⟨bytes, mapError_eq_ok.mpr hseal, rfl⟩
  · simp only [openText, bind_eq_ok, mapError_eq_ok, need_eq_ok]
    exact ⟨bytes, hexDecode_hexEncode bytes, textBytes text, hopen, fromUtf8_textBytes text⟩

/-! ### Reads -/

variable (enc) in
def openedRow (row : String × String) : String × String :=
  (row.1, (openText (some enc) row.1 row.2).toOption.getD "")

theorem openedRow_eq {key raw text : String} (hopen : openText (some enc) key raw = .ok text) :
    openedRow enc (key, raw) = (key, text) := by
  rw [openedRow, hopen]
  rfl

theorem Mirrors.toList (h : Mirrors enc plain stored) :
    plain.toList = stored.toList.map (openedRow enc) := by
  have hmap : plain = stored.map fun key raw => (openedRow enc (key, raw)).2 := by
    apply Std.ExtTreeMap.ext_getElem?
    intro key
    rw [Std.ExtTreeMap.getElem?_map']
    rcases h key with ⟨hplain, hstored⟩ | ⟨text, raw, hplain, hstored, hopen⟩
    · simp [hplain, hstored]
    · simp [hplain, hstored, openedRow_eq hopen]
  rw [hmap, Std.ExtTreeMap.toList_map]
  rfl

theorem Mirrors.opens (h : Mirrors enc plain stored) {row : String × String}
    (hrow : row ∈ stored.toList) : openText (some enc) row.1 row.2 = .ok (openedRow enc row).2 := by
  have hget : stored[row.1]? = some row.2 :=
    Std.ExtTreeMap.mem_toList_iff_getElem?_eq_some.mp hrow
  rcases h row.1 with ⟨-, hstored⟩ | ⟨text, raw, -, hstored, hopen⟩
  · simp [hget] at hstored
  · obtain rfl : row.2 = raw := by simpa [hget] using hstored
    rw [openedRow_eq hopen, hopen]

theorem mapM_congr {α β ε : Type} {f g : α → Except ε β} {xs : List α}
    (h : ∀ x ∈ xs, f x = g x) : xs.mapM f = xs.mapM g := by
  induction xs with
  | nil => rfl
  | cons x xs ih =>
    rw [mapM_cons, mapM_cons, h x (by simp), ih fun y hy => h y (by simp [hy])]

theorem tagPrefixRows_mirrors (h : Mirrors enc plain stored) (ns namePrefix : String) :
    tagPrefixRows (some enc) stored ns namePrefix = tagPrefixRows none plain ns namePrefix := by
  unfold tagPrefixRows
  by_cases hutf8 : successorIsUtf8 (dbKey ns namePrefix) = true
  · rw [if_pos hutf8, if_pos hutf8, h.toList, filter_map, mapM_map]
    apply mapM_congr
    intro row hrow
    have hopen := h.opens (mem_of_mem_filter hrow)
    show (need (stripPrefix row.1 (dbKey ns "")) _ >>= fun name => _) =
      (need (stripPrefix row.1 (dbKey ns "")) _ >>= fun name => _)
    rw [hopen]
    rfl
  · rw [if_neg hutf8, if_neg hutf8]

theorem tagGet_mirrors (h : Mirrors enc plain stored) (ns name : String) :
    tagGet (some enc) stored ns name = tagGet none plain ns name := by
  unfold tagGet
  rcases h (dbKey ns name) with ⟨hplain, hstored⟩ | ⟨text, raw, hplain, hstored, hopen⟩
  · rw [hplain, hstored]
    rfl
  · rw [hplain, hstored]
    show (openText (some enc) _ raw >>= fun text => _) = _
    rw [hopen]
    rfl

/-! ### Writes where there is no row -/

theorem dbKey_cancel {ns a b : String} (h : dbKey ns a = dbKey ns b) : a = b := by
  have := congrArg String.toList h
  simp only [dbKey, joinKey, String.toList_append, append_cancel_left_eq] at this
  exact String.ext this

theorem writeTag_mirrors (hlaw : enc.key.Lawful) (h : Mirrors enc plain stored)
    {ns name : String} (hkey : plain[dbKey ns name]? = none) (kappa : String) :
    ∃ stored', writeTag none plain ns name kappa =
        .ok (1, plain.insert (dbKey ns name) (tagText kappa 1)) ∧
      writeTag (some enc) stored ns name kappa = .ok (1, stored') ∧
      Mirrors enc (plain.insert (dbKey ns name) (tagText kappa 1)) stored' := by
  have hversion : ∀ t : TagTable, t[dbKey ns name]? = none →
      (rowVersion t (dbKey ns name) + 1) % (u64Max + 1) = 1 := by
    intro t ht
    rw [rowVersion, ht]
    rfl
  obtain ⟨raw, hseal, hopen⟩ := openText_sealText hlaw (dbKey ns name) (tagText kappa 1)
  refine ⟨stored.insert (dbKey ns name) raw, ?_, ?_, h.insert hopen⟩
  · simp only [writeTag, hversion plain hkey, bind_eq_ok, pure_eq_ok]
    exact ⟨_, rfl, rfl⟩
  · simp only [writeTag, hversion stored (h.absent hkey), bind_eq_ok, pure_eq_ok]
    exact ⟨raw, hseal, rfl⟩

theorem writeAll_mirrors (hlaw : enc.key.Lawful) {ns : String} {updates : List TagUpdate}
    (h : Mirrors enc plain stored) (hnew : ∀ update ∈ updates, plain[dbKey ns update.name]? = none)
    (hnodup : (updates.map TagUpdate.name).Nodup) :
    ∃ plain' stored', writeAll none ns plain updates = .ok plain' ∧
      writeAll (some enc) ns stored updates = .ok stored' ∧ Mirrors enc plain' stored' := by
  induction updates generalizing plain stored with
  | nil => exact ⟨plain, stored, rfl, rfl, h⟩
  | cons update updates ih =>
    rw [map_cons, nodup_cons] at hnodup
    obtain ⟨stored', hplain, hstored, h'⟩ :=
      writeTag_mirrors hlaw h (hnew update (by simp)) update.kappa
    -- the tags still to be written have other names, so they have no row yet
    have hrest : ∀ u ∈ updates,
        (plain.insert (dbKey ns update.name) (tagText update.kappa 1))[dbKey ns u.name]? = none := by
      intro u hu
      rw [Table.get_insert, if_neg]
      · exact hnew u (by simp [hu])
      · intro hsame
        exact hnodup.1 (by rw [dbKey_cancel hsame]; exact mem_map_of_mem hu)
    obtain ⟨plain'', stored'', hp, hs, h''⟩ := ih h' hrest hnodup.2
    refine ⟨plain'', stored'', ?_, ?_, h''⟩
    · simp only [writeAll, bind_eq_ok]
      exact ⟨_, hplain, hp⟩
    · simp only [writeAll, bind_eq_ok]
      exact ⟨_, hstored, hs⟩

theorem casCheckAll_mirrors (h : Mirrors enc plain stored) {ns : String} {updates : List TagUpdate}
    (hnew : ∀ update ∈ updates, plain[dbKey ns update.name]? = none) :
    casCheckAll stored ns updates = casCheckAll plain ns updates := by
  induction updates with
  | nil => rfl
  | cons update updates ih =>
    have hkey := hnew update (by simp)
    have hcheck : casCheck stored ns update = casCheck plain ns update := by
      unfold casCheck
      cases update.expectedVersion with
      | none => rfl
      | some expected => simp only [rowVersion, hkey, h.absent hkey]
    rw [casCheckAll, casCheckAll, hcheck, ih fun u hu => hnew u (by simp [hu])]

/-! ### Runs -/

/-- **One call**: both stores answer alike, and still mirror each other. -/
theorem TagOp.step_mirrors (hlaw : enc.key.Lawful) (h : Mirrors enc plain stored) (op : TagOp)
    (hfresh : op.Fresh plain) : (op.step (some enc) stored).1 = (op.step none plain).1 ∧
      Mirrors enc (op.step none plain).2 (op.step (some enc) stored).2 := by
  cases op with
  | set ns name kappa =>
    obtain ⟨stored', hplain, hstored, h'⟩ := writeTag_mirrors hlaw h hfresh kappa
    simp only [step, hplain, hstored, committed]
    exact ⟨trivial, h'⟩
  | setBatch ns updates =>
    obtain ⟨plain', stored', hplain, hstored, h'⟩ := writeAll_mirrors hlaw h hfresh.1 hfresh.2
    simp only [step, casCheckAll_mirrors h hfresh.1, hplain, hstored]
    cases casCheckAll plain ns updates with
    | error e => exact ⟨rfl, h⟩
    | ok u => exact ⟨rfl, h'⟩
  | delete ns name => exact ⟨rfl, h.erase _⟩
  | get ns name =>
    simp only [step, tagGet_mirrors h]
    exact ⟨trivial, h⟩
  | list ns =>
    simp only [step, tagList, tagPrefixRows_mirrors h]
    exact ⟨trivial, h⟩
  | prefixed ns namePrefix =>
    simp only [step, tagPrefixRows_mirrors h]
    exact ⟨trivial, h⟩

theorem runTags_mirrors (hlaw : enc.key.Lawful) {ops : List TagOp} (h : Mirrors enc plain stored)
    (hfresh : FreshRun plain ops) : runTags (some enc) stored ops = runTags none plain ops := by
  induction ops generalizing plain stored with
  | nil => rfl
  | cons op ops ih =>
    obtain ⟨hanswer, h'⟩ := op.step_mirrors hlaw h hfresh.1
    rw [runTags, runTags, hanswer, ih h' hfresh.2]

end

/-! ## The rows behind the store's tags

`PersistentStore.tags` holds what the rows encode. The store's own `tagSet` and `tagGet` are the
operations on the rows, read through that encoding. -/

section

variable {enc : Option TableEncryptor} {t : TagTable} {s : PersistentStore}

variable (enc) in
/-- Every tag of the store has its row, and there is no other row. -/
def Represents (t : TagTable) (s : PersistentStore) : Prop :=
  s.encrypted = enc.isSome ∧ ∀ key : String,
    (s.tags[key]? = none ∧ t[key]? = none) ∨
      ∃ value raw, s.tags[key]? = some value ∧ t[key]? = some raw ∧
        sealText enc key (tagText value.kappa value.version) = .ok raw

theorem nul_notMem_toString (n : ℕ) : '\x00' ∉ (toString n).toList := by
  rw [Nat.toString_eq_ofList_toDigits, String.toList_ofList]
  intro hmem
  have := Nat.isDigit_of_mem_toDigits (by decide) (by decide) hmem
  simp [Char.isDigit] at this

theorem rsplitOnce_tagText (kappa : String) (version : ℕ) :
    rsplitOnce '\x00' (tagText kappa version).toList =
      some (kappa.toList, (toString version).toList) :=
  rsplitOnce_eq_some.mpr ⟨by simp [tagText], nul_notMem_toString version⟩

theorem parseVersion_tagText (kappa : String) {version : ℕ} (h : version ≤ u64Max) :
    parseVersion (tagText kappa version) = version := by
  rw [parseVersion, rsplitOnce_tagText]
  show (parseRadix 10 u64Max (String.ofList (toString version).toList)).toOption.getD 0 = version
  rw [String.ofList_toList, parseRadix_decimal h]
  rfl

theorem parseEntry_tagText (name kappa : String) {version : ℕ} (h : version ≤ u64Max) :
    parseEntry name (tagText kappa version) = .ok ⟨name, kappa, version⟩ := by
  simp only [parseEntry, rsplitOnce_tagText, bind_eq_ok, need_eq_ok, mapError_eq_ok, pure_eq_ok]
  refine ⟨_, rfl, version, ?_, by rw [String.ofList_toList]⟩
  rw [String.ofList_toList, parseRadix_decimal h]

/-- **A sealed row has no version to be found.** -/
theorem parseVersion_sealed {enc : TableEncryptor} {key text raw : String}
    (h : sealText (some enc) key text = .ok raw) : parseVersion raw = 0 := by
  obtain ⟨bytes, -, rfl⟩ := map_eq_ok.mp h
  have hnul : '\x00' ∉ (hexEncode bytes).toList := by
    intro hmem
    have := isSome_digitValue_of_mem_hexEncode hmem
    simp [digitValue] at this
  rw [parseVersion, rsplitOnce_eq_none.mpr hnul]

theorem rowVersion_represents (h : Represents enc t s)
    (hbound : ∀ (key : String) (value : TagValue), s.tags[key]? = some value →
      value.version ≤ u64Max) (key : String) :
    rowVersion t key = if s.encrypted then 0 else (s.tags[key]?.map TagValue.version).getD 0 := by
  rcases h.2 key with ⟨hnone, hrow⟩ | ⟨value, raw, hvalue, hrow, hseal⟩
  · simp [rowVersion, hrow, hnone]
  · rw [rowVersion, hrow, hvalue, h.1]
    cases enc with
    | none =>
      cases hseal
      simpa using parseVersion_tagText value.kappa (hbound key value hvalue)
    | some enc => simpa using parseVersion_sealed hseal

section

variable (hlaw : ∀ e, enc = some e → e.key.Lawful)
include hlaw

/-- **`tagSet` of the store is `tag_set` of the rows.** -/
theorem writeTag_represents (h : Represents enc t s)
    (hbound : ∀ (key : String) (value : TagValue), s.tags[key]? = some value →
      value.version < u64Max) (ns name kappa : String) :
    ∃ version t', writeTag enc t ns name kappa = .ok (version, t') ∧
      Represents enc t' (s.tagSet ns name kappa) ∧
      (s.tagSet ns name kappa).tags[dbKey ns name]? = some ⟨kappa, version⟩ := by
  have hversion := rowVersion_represents h (fun key value hv => (hbound key value hv).le)
    (dbKey ns name)
  have hlt : rowVersion t (dbKey ns name) < u64Max := by
    rw [hversion]
    split_ifs
    · decide
    · cases hv : s.tags[dbKey ns name]? with
      | none => exact (by decide : 0 < u64Max)
      | some value => exact hbound _ _ hv
  have hnext : (rowVersion t (dbKey ns name) + 1) % (u64Max + 1) =
      rowVersion t (dbKey ns name) + 1 := Nat.mod_eq_of_lt (by omega)
  obtain ⟨raw, hseal⟩ : ∃ raw, sealText enc (dbKey ns name)
      (tagText kappa (rowVersion t (dbKey ns name) + 1)) = .ok raw := by
    cases enc with
    | none => exact ⟨_, rfl⟩
    | some e =>
      obtain ⟨raw, hraw, -⟩ := openText_sealText (hlaw e rfl) (dbKey ns name)
        (tagText kappa (rowVersion t (dbKey ns name) + 1))
      exact ⟨raw, hraw⟩
  refine ⟨rowVersion t (dbKey ns name) + 1, t.insert (dbKey ns name) raw, ?_, ⟨h.1, ?_⟩, ?_⟩
  · simp only [writeTag, hnext, bind_eq_ok, pure_eq_ok]
    exact ⟨raw, hseal, rfl⟩
  · intro key
    simp only [tagSet, Table.get_insert]
    by_cases hkey : dbKey ns name = key
    · subst hkey
      exact .inr ⟨_, raw, if_pos rfl, if_pos rfl, by rw [← hversion]; exact hseal⟩
    · simpa [hkey] using h.2 key
  · simp [tagSet, hversion]

omit hlaw in
/-- A tag is written to a sealed table, and written again. -/
theorem writeTag_represents_again : ∃ t t', writeTag (some .sample) ∅ "a" "b" "k" = .ok (1, t) ∧
    writeTag (some .sample) t "a" "b" "l" = .ok (1, t') ∧
    Represents (some .sample) t' (((new true).tagSet "a" "b" "k").tagSet "a" "b" "l") := by
  have hlaw : ∀ e, some TableEncryptor.sample = some e → e.key.Lawful := by
    rintro _ ⟨⟩
    exact Aead.lawful_sample
  obtain ⟨v, t, hwrite, h, hv⟩ := writeTag_represents hlaw (t := ∅) (s := new true)
    ⟨rfl, fun _ => .inl ⟨rfl, rfl⟩⟩ nofun "a" "b" "k"
  obtain ⟨v', t', hwrite', h', hv'⟩ := writeTag_represents hlaw h (fun key value hvalue => by
    rcases Table.of_get_insert hvalue with ⟨-, rfl⟩ | ⟨-, hold⟩
    · decide +kernel
    · cases hold) "a" "b" "l"
  have hfirst : ((new true).tagSet "a" "b" "k").tags[dbKey "a" "b"]? = some ⟨"k", 1⟩ := by
    decide +kernel
  have hsecond : (((new true).tagSet "a" "b" "k").tagSet "a" "b" "l").tags[dbKey "a" "b"]? =
      some ⟨"l", 1⟩ := by decide +kernel
  cases hv.symm.trans hfirst
  cases hv'.symm.trans hsecond
  exact ⟨t, t', hwrite, hwrite', h'⟩

theorem openText_represented {key text raw : String}
    (hseal : sealText enc key text = .ok raw) : openText enc key raw = .ok text := by
  cases enc with
  | none =>
    cases hseal
    rfl
  | some e =>
    obtain ⟨raw', hraw, hopen⟩ := openText_sealText (hlaw e rfl) key text
    obtain rfl : raw = raw' := Except.ok.inj (hseal.symm.trans hraw)
    exact hopen

/-- **`tagGet` of the store is `tag_get` of the rows.** -/
theorem tagGet_represents (h : Represents enc t s)
    (hbound : ∀ (key : String) (value : TagValue), s.tags[key]? = some value →
      value.version ≤ u64Max) (ns name : String) :
    KappaRegistry.tagGet enc t ns name = s.tagGet ns name := by
  unfold KappaRegistry.tagGet PersistentStore.tagGet
  rcases h.2 (dbKey ns name) with ⟨hnone, hrow⟩ | ⟨value, raw, hvalue, hrow, hseal⟩
  · rw [hnone, hrow]
    rfl
  · rw [hvalue, hrow]
    show (openText enc (dbKey ns name) raw >>= fun text => _) = _
    rw [openText_represented hlaw hseal]
    exact parseEntry_tagText name value.kappa (hbound _ _ hvalue)

end

end

/-- **Table encryption is transparent for tags that are written once.** -/
theorem runTags_transparent {enc : TableEncryptor} (hlaw : enc.key.Lawful) {ops : List TagOp}
    (hfresh : FreshRun ∅ ops) : runTags (some enc) ∅ ops = runTags none ∅ ops :=
  runTags_mirrors hlaw mirrors_empty hfresh

/-- Two tags, each written once. -/
theorem runTags_transparent_once :
    let ops : List TagOp := [.set "ns" "a" "k", .setBatch "ns" [⟨"b", "k", some 0⟩], .list "ns"]
    FreshRun ∅ ops ∧ runTags (some .sample) ∅ ops = runTags none ∅ ops := by
  intro ops
  have hfresh : FreshRun ∅ ops := by
    refine ⟨by simp [TagOp.Fresh], ⟨?_, by simp⟩, trivial, trivial⟩
    decide +kernel
  exact ⟨hfresh, runTags_transparent Aead.lawful_sample hfresh⟩

/-- The second write of a tag: version 2 in the plain store and version 1 in the sealed one, which
then also turns down a batch that expects the version it would have. -/
theorem runTags_sealed_version_stuck :
    let ops : List TagOp := [.set "ns" "a" "k", .set "ns" "a" "l", .setBatch "ns" [⟨"a", "m", some 2⟩]]
    runTags none ∅ ops = [.ok (.version 1), .ok (.version 2), .ok .done] ∧
      runTags (some .sample) ∅ ops = [.ok (.version 1), .ok (.version 1),
        .error (.conflict "tag a: expected version 2 but current is 0")] := by
  decide +kernel

end KappaRegistry
