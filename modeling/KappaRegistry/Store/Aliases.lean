import KappaRegistry.Store.Namespaces

/-!
# The Alias Table and the Records

An alias is a row of the alias table, under a key that is the name alone or the name scoped by a
protocol, and it is listed in the record of its namespace, by the name alone. `namespace_delete`
reconstructs the keys from the record: for each name the plain key, and the key under the record's
protocol, though an alias can be added under another one.

**`aliases_consistent`**: rows and records agree, and a deletion drops exactly the rows of its
namespace, if every alias is made under the protocol of its record, no alias is added to a namespace
that was deleted, and the plain key of a scoped alias is not a key of another namespace.
-/

namespace KappaRegistry

open Lib PersistentStore List Table

namespace PersistentStore

/-- A request that changes the alias table. -/
inductive AliasRequest where
  | create (uuid : Uuid) (nowMs : ℕ) (name owner : String) (protocol : Option String)
  | addAlias (uuid : Uuid) (name actor : String) (protocol : Option String)
  | rename (oldName newName actor : String) (protocol : Option String)
  | delete (name actor : String) (protocol : Option String)

variable (s : PersistentStore)

/-- The store after a request, or the error. -/
def aliasRequest : AliasRequest → Except StoreError PersistentStore
  | .create uuid nowMs name owner protocol =>
    (s.namespaceCreate uuid nowMs name owner protocol).map Prod.snd
  | .addAlias uuid name actor protocol => s.namespaceAddAlias uuid name actor protocol
  | .rename oldName newName actor protocol => s.namespaceRename oldName newName actor protocol
  | .delete name actor protocol => s.namespaceDelete name actor protocol

/-- The store after a request; one that fails changes nothing. -/
def aliasStep (req : AliasRequest) : PersistentStore :=
  (s.aliasRequest req).toOption.getD s

def aliasRun (reqs : List AliasRequest) : PersistentStore := reqs.foldl aliasStep s

/-- A key under which a record lists one of its names. -/
def Lists (record : NamespaceRecord) (key : String) : Prop :=
  ∃ name ∈ record.aliases, ∃ protocol, key = aliasKey name protocol

/-- Every row of the alias table is listed in the record of a namespace that is not deleted. -/
def AliasesListed : Prop :=
  ∀ (key : String) (uuid : Uuid), s.namespaceAliases[key]? = some uuid →
    ∃ record, s.namespaceRecords[uuid]? = some record ∧ record.tombstoned = false ∧ Lists record key

/-- A deletion of a namespace drops its rows and no others. -/
def DropsOwn : Prop :=
  ∀ name actor protocol s', s.namespaceDelete name actor protocol = .ok s' →
    ∃ uuid, s.namespaceAliases[aliasKey name protocol]? = some uuid ∧ ∀ key : String,
      s'.namespaceAliases[key]? =
        if s.namespaceAliases[key]? = some uuid then none else s.namespaceAliases[key]?

/-! ## The condition -/

/-- An alias may be made for a namespace: under a protocol, its plain key belongs to no other one, and
its own key is not the plain key of a scoped alias of another one. -/
def Free (uuid : Uuid) (name : String) (protocol : Option String) : Prop :=
  (protocol.isSome → ∀ other, s.namespaceAliases[name]? = some other → other = uuid) ∧
  ∀ (other : Uuid) (record : NamespaceRecord), s.namespaceRecords[other]? = some record → other ≠ uuid →
    record.tombstoned = false → record.protocol.isSome → aliasKey name protocol ∉ record.aliases

def AliasOrderly : AliasRequest → Prop
  | .create uuid _ name _ protocol => s.namespaceRecords[uuid]? = none ∧ s.Free uuid name protocol
  | .addAlias uuid name _ protocol => s.Free uuid name protocol ∧
    ∀ record, s.namespaceRecords[uuid]? = some record →
      record.tombstoned = false ∧ record.protocol = protocol
  | .rename oldName newName _ protocol =>
    ∀ uuid, s.namespaceAliases[aliasKey oldName protocol]? = some uuid → s.Free uuid newName protocol ∧
      ∀ record, s.namespaceRecords[uuid]? = some record → record.protocol = protocol
  | .delete _ _ _ => True

/-- Every request meets the condition in the state it finds. -/
def AliasOrderlyRun (s : PersistentStore) : List AliasRequest → Prop
  | [] => True
  | req :: reqs => s.AliasOrderly req ∧ AliasOrderlyRun (s.aliasStep req) reqs

/-- What holds between requests, of the alias table and the records. -/
structure AliasInv (aliases : Table String Uuid) (records : Table Uuid NamespaceRecord) : Prop where
  /-- A row is an alias of a record that is not deleted, under the record's protocol. -/
  rows : ∀ (key : String) (uuid : Uuid), aliases[key]? = some uuid →
    ∃ record, records[uuid]? = some record ∧ record.tombstoned = false ∧
      ∃ name ∈ record.aliases, key = aliasKey name record.protocol
  /-- Every alias of such a record has its row. -/
  listed : ∀ (uuid : Uuid) (record : NamespaceRecord), records[uuid]? = some record →
    record.tombstoned = false → ∀ name ∈ record.aliases,
      aliases[aliasKey name record.protocol]? = some uuid
  /-- The plain key of a scoped alias is not a row of another namespace. -/
  apart : ∀ (uuid : Uuid) (record : NamespaceRecord), records[uuid]? = some record →
    record.tombstoned = false → record.protocol.isSome → ∀ name ∈ record.aliases, ∀ other,
      aliases[name]? = some other → other = uuid

/-! ## Keys -/

theorem aliasKey_inj {name name' : String} {protocol : Option String}
    (h : aliasKey name protocol = aliasKey name' protocol) : name = name' := by
  cases protocol with
  | none => exact h
  | some p =>
    have hlist := congrArg String.toList h
    simp only [aliasKey, String.toList_append, append_cancel_left_eq] at hlist
    exact String.ext hlist

/-! ## Records and their names -/

variable {aliases : Table String Uuid} {records : Table Uuid NamespaceRecord} {uuid : Uuid}
  {record : NamespaceRecord} {name : String}

theorem AliasInv.empty : AliasInv ∅ ∅ := by
  constructor <;> intro _ _ h <;> cases h

section

variable (h : AliasInv aliases records)
include h

theorem AliasInv.newRecord (hfresh : records[uuid]? = none)
    (record : NamespaceRecord) (hnames : record.aliases = []) : AliasInv aliases (records.insert uuid record) := by
  refine ⟨?_, ?_, ?_⟩
  · intro key other hkey
    obtain ⟨r, hr, hrest⟩ := h.rows key other hkey
    refine ⟨r, ?_, hrest⟩
    rw [get_insert, if_neg]
    · exact hr
    · rintro rfl
      simp [hr] at hfresh
  · intro other r hr hlive name hname
    rcases of_get_insert hr with ⟨-, rfl⟩ | ⟨-, hold⟩
    · simp [hnames] at hname
    · exact h.listed other r hold hlive name hname
  · intro other r hr hlive hscoped name hname
    rcases of_get_insert hr with ⟨-, rfl⟩ | ⟨-, hold⟩
    · simp [hnames] at hname
    · exact h.apart other r hold hlive hscoped name hname

theorem AliasInv.addName (name : String) (names : List String)
    (hrecord : records[uuid]? = some record) (hlive : record.tombstoned = false)
    (hnew : aliases[aliasKey name record.protocol]? = none)
    (hplain : record.protocol.isSome → ∀ other, aliases[name]? = some other → other = uuid)
    (hfree : ∀ (other : Uuid) (r : NamespaceRecord), records[other]? = some r → other ≠ uuid →
      r.tombstoned = false → r.protocol.isSome → aliasKey name record.protocol ∉ r.aliases)
    (hnames : ∀ x, x ∈ names ↔ x ∈ record.aliases ∨ x = name) :
    AliasInv (aliases.insert (aliasKey name record.protocol) uuid)
      (records.insert uuid { record with aliases := names }) := by
  refine ⟨?_, ?_, ?_⟩
  · intro key other hkey
    rcases of_get_insert hkey with ⟨rfl, rfl⟩ | ⟨-, hold⟩
    · refine ⟨{ record with aliases := names }, ?_, hlive, name, (hnames name).mpr (.inr rfl), rfl⟩
      rw [get_insert, if_pos rfl]
    · obtain ⟨r, hr, hrlive, name', hname', hkey'⟩ := h.rows key other hold
      by_cases hsame : uuid = other
      · subst hsame
        rw [hrecord] at hr
        cases hr
        refine ⟨{ record with aliases := names }, ?_, hlive, name', (hnames name').mpr (.inl hname'), hkey'⟩
        rw [get_insert, if_pos rfl]
      · refine ⟨r, ?_, hrlive, name', hname', hkey'⟩
        rwa [get_insert, if_neg hsame]
  · intro other r hr hrlive name' hname'
    rw [get_insert]
    rcases of_get_insert hr with ⟨rfl, rfl⟩ | ⟨hsame, hold⟩
    · by_cases hkey : aliasKey name record.protocol = aliasKey name' record.protocol
      · exact if_pos hkey
      · refine (if_neg hkey).trans ?_
        rcases (hnames name').mp hname' with hbefore | rfl
        · exact h.listed uuid record hrecord hlive name' hbefore
        · exact absurd rfl hkey
    · have hrow := h.listed other r hold hrlive name' hname'
      rw [if_neg]
      · exact hrow
      · intro heq
        rw [← heq, hnew] at hrow
        cases hrow
  · intro other r hr hrlive hscoped name' hname' u hu
    rcases of_get_insert hr with ⟨rfl, rfl⟩ | ⟨hsame, hold⟩
    · rcases of_get_insert hu with ⟨-, rfl⟩ | ⟨-, hbefore⟩
      · rfl
      · rcases (hnames name').mp hname' with hmem | rfl
        · exact h.apart uuid record hrecord hlive hscoped name' hmem u hbefore
        · exact hplain hscoped u hbefore
    · rcases of_get_insert hu with ⟨hkey, -⟩ | ⟨-, hbefore⟩
      · exact absurd (hkey ▸ hname') (hfree other r hold (Ne.symm hsame) hrlive hscoped)
      · exact h.apart other r hold hrlive hscoped name' hname' u hbefore

theorem AliasInv.dropName (hrecord : records[uuid]? = some record)
    (hlive : record.tombstoned = false) (hrow : aliases[aliasKey name record.protocol]? = some uuid) :
    AliasInv (aliases.erase (aliasKey name record.protocol))
      (records.insert uuid { record with aliases := record.aliases.filter (fun a => a ≠ name) }) := by
  have hkeep : ∀ name', name' ∈ record.aliases.filter (fun a => a ≠ name) ↔
      name' ∈ record.aliases ∧ name' ≠ name := by
    intro name'
    rw [mem_filter, decide_eq_true_eq]
  refine ⟨?_, ?_, ?_⟩
  · intro key other hkey
    have hne : aliasKey name record.protocol ≠ key := by
      rintro rfl
      rw [get_erase, if_pos rfl] at hkey
      cases hkey
    obtain ⟨r, hr, hrlive, name', hname', hkey'⟩ := h.rows key other (of_get_erase hkey)
    by_cases hsame : uuid = other
    · subst hsame
      rw [hrecord] at hr
      cases hr
      refine ⟨{ record with aliases := record.aliases.filter (fun a => a ≠ name) }, ?_, hlive, name', ?_, hkey'⟩
      · rw [get_insert, if_pos rfl]
      · refine (hkeep name').mpr ⟨hname', ?_⟩
        rintro rfl
        exact hne hkey'.symm
    · refine ⟨r, ?_, hrlive, name', hname', hkey'⟩
      rwa [get_insert, if_neg hsame]
  · intro other r hr hrlive name' hname'
    rw [get_erase]
    rcases of_get_insert hr with ⟨rfl, rfl⟩ | ⟨hsame, hold⟩
    · obtain ⟨hmem, hne⟩ := (hkeep name').mp hname'
      refine (if_neg fun heq => hne (aliasKey_inj heq).symm).trans ?_
      exact h.listed uuid record hrecord hlive name' hmem
    · have hrow' := h.listed other r hold hrlive name' hname'
      rw [if_neg]
      · exact hrow'
      · intro heq
        rw [← heq, hrow] at hrow'
        exact hsame (Option.some.inj hrow')
  · intro other r hr hrlive hscoped name' hname' u hu
    rcases of_get_insert hr with ⟨rfl, rfl⟩ | ⟨hsame, hold⟩
    · exact h.apart uuid record hrecord hlive hscoped name' ((hkeep name').mp hname').1 u
        (of_get_erase hu)
    · exact h.apart other r hold hrlive hscoped name' hname' u (of_get_erase hu)

end

/-! ## Deletions -/

theorem get_dropAlias (record : NamespaceRecord) (aliases : Table String Uuid) (name key : String) :
    (dropAlias record aliases name)[key]? =
      if key = name ∨ key = aliasKey name record.protocol then none else aliases[key]? := by
  unfold dropAlias
  cases record.protocol with
  | none => simp [get_erase, aliasKey, eq_comm]
  | some p =>
    rw [get_erase, get_erase]
    split_ifs <;> grind

theorem get_dropAliases (record : NamespaceRecord) (names : List String) (aliases : Table String Uuid)
    (key : String) : (names.foldl (dropAlias record) aliases)[key]? =
      if ∃ name ∈ names, key = name ∨ key = aliasKey name record.protocol then none else aliases[key]? := by
  induction names generalizing aliases with
  | nil => simp
  | cons name names ih =>
    rw [foldl_cons, ih, get_dropAlias]
    simp only [mem_cons, exists_eq_or_imp]
    split_ifs <;> grind

section

variable (h : AliasInv aliases records) (hrecord : records[uuid]? = some record)
  (hlive : record.tombstoned = false)
include h hrecord hlive

/-- The names of a record are exactly the rows of its namespace, so these go and no others. -/
theorem AliasInv.get_dropped (key : String) :
    (record.aliases.foldl (dropAlias record) aliases)[key]? =
      if aliases[key]? = some uuid then none else aliases[key]? := by
  rw [get_dropAliases]
  by_cases hown : aliases[key]? = some uuid
  · obtain ⟨r, hr, -, name, hname, hkey⟩ := h.rows key uuid hown
    rw [hrecord] at hr
    cases hr
    rw [if_pos ⟨name, hname, .inr hkey⟩, if_pos hown]
  · rw [if_neg hown]
    split_ifs with hdropped
    · obtain ⟨name, hname, hkey⟩ := hdropped
      have hrow := h.listed uuid record hrecord hlive name hname
      cases hprotocol : record.protocol with
      | none =>
        rw [hprotocol] at hrow hkey
        rcases hkey with rfl | rfl <;> exact absurd hrow hown
      | some p =>
        rcases hkey with rfl | rfl
        · cases hplain : aliases[key]? with
          | none => rfl
          | some other =>
            rw [h.apart uuid record hrecord hlive (by rw [hprotocol]; rfl) key hname other hplain] at hplain
            exact absurd hplain hown
        · exact absurd hrow hown
    · rfl

theorem AliasInv.tombstone : AliasInv (record.aliases.foldl (dropAlias record) aliases)
      (records.insert uuid { record with tombstoned := true }) := by
  have hkept : ∀ (key : String) (other : Uuid),
      (record.aliases.foldl (dropAlias record) aliases)[key]? = some other →
        aliases[key]? = some other ∧ uuid ≠ other := by
    intro key other hkey
    rw [h.get_dropped hrecord hlive] at hkey
    by_cases hown : aliases[key]? = some uuid
    · simp [if_pos hown] at hkey
    · rw [if_neg hown] at hkey
      refine ⟨hkey, ?_⟩
      rintro rfl
      exact hown hkey
  have hother : ∀ (other : Uuid) (r : NamespaceRecord),
      (records.insert uuid { record with tombstoned := true })[other]? = some r → r.tombstoned = false →
        uuid ≠ other ∧ records[other]? = some r := by
    intro other r hr hrlive
    rcases of_get_insert hr with ⟨-, rfl⟩ | hold
    · cases hrlive
    · exact hold
  refine ⟨?_, ?_, ?_⟩
  · intro key other hkey
    obtain ⟨hold, hne⟩ := hkept key other hkey
    rw [get_insert, if_neg hne]
    exact h.rows key other hold
  · intro other r hr hrlive name hname
    obtain ⟨hne, hold⟩ := hother other r hr hrlive
    have hrow := h.listed other r hold hrlive name hname
    rw [h.get_dropped hrecord hlive, if_neg]
    · exact hrow
    · intro heq
      rw [hrow] at heq
      exact hne (Option.some.inj heq).symm
  · intro other r hr hrlive hscoped name hname u hu
    obtain ⟨-, hold⟩ := hother other r hr hrlive
    exact h.apart other r hold hrlive hscoped name hname u (hkept name u hu).1

end

/-! ## Requests -/

theorem AliasInv.of_get {aliases' : Table String Uuid} {records' : Table Uuid NamespaceRecord}
    (h : AliasInv aliases records) (haliases : ∀ key : String, aliases'[key]? = aliases[key]?)
    (hrecords : ∀ uuid : Uuid, records'[uuid]? = records[uuid]?) : AliasInv aliases' records' := by
  refine ⟨?_, ?_, ?_⟩
  · intro key uuid hkey
    rw [haliases] at hkey
    rw [hrecords]
    exact h.rows key uuid hkey
  · intro uuid record hrecord hlive name hname
    rw [hrecords] at hrecord
    rw [haliases]
    exact h.listed uuid record hrecord hlive name hname
  · intro uuid record hrecord hlive hscoped name hname other hother
    rw [hrecords] at hrecord
    rw [haliases] at hother
    exact h.apart uuid record hrecord hlive hscoped name hname other hother

variable {s s' : PersistentStore} {protocol : Option String}

theorem key_of_aliasCollision (h : s.aliasCollision name protocol = none) :
    s.namespaceAliases[aliasKey name protocol]? = none := by
  unfold aliasCollision at h
  split at h
  · cases h
  · rename_i hfree
    simpa using hfree

section

variable (h : AliasInv s.namespaceAliases s.namespaceRecords)
include h

theorem AliasInv.create {nowMs : ℕ} {owner : String} {ns : NamespaceRef}
    (hfresh : s.namespaceRecords[uuid]? = none)
    (hfree : s.Free uuid name protocol)
    (hcreate : s.namespaceCreate uuid nowMs name owner protocol = .ok (ns, s')) :
    AliasInv s'.namespaceAliases s'.namespaceRecords := by
  obtain ⟨-, hcollision, rfl⟩ := namespaceCreate_eq_ok hcreate
  -- the record is made without names, and then gets its first one
  have hblank := h.newRecord hfresh ⟨uuid.hex, owner, nowMs, protocol, [], false⟩ rfl
  have hrecord : (s.namespaceRecords.insert uuid ⟨uuid.hex, owner, nowMs, protocol, [], false⟩)[uuid]? =
      some ⟨uuid.hex, owner, nowMs, protocol, [], false⟩ := by
    rw [get_insert, if_pos rfl]
  have hnamed := hblank.addName name [name] hrecord rfl (key_of_aliasCollision hcollision) hfree.1 ?_ (by simp)
  · refine hnamed.of_get (fun _ => rfl) ?_
    intro other
    rw [get_insert, get_insert, get_insert]
    by_cases hsame : uuid = other
    · rw [if_pos hsame, if_pos hsame]
    · rw [if_neg hsame, if_neg hsame, if_neg hsame]
  · intro other r hr hne hrlive hscoped
    rcases of_get_insert hr with ⟨heq, -⟩ | ⟨-, hold⟩
    · exact absurd heq.symm hne
    · exact hfree.2 other r hold hne hrlive hscoped

theorem AliasInv.addAlias {actor : String}
    (hfree : s.Free uuid name protocol) (hsame : ∀ record, s.namespaceRecords[uuid]? = some record →
      record.tombstoned = false ∧ record.protocol = protocol)
    (hadd : s.namespaceAddAlias uuid name actor protocol = .ok s') :
    AliasInv s'.namespaceAliases s'.namespaceRecords := by
  simp only [namespaceAddAlias, bind_eq_ok, recordLookup_eq_ok, ensure_eq_ok, pure_eq_ok] at hadd
  obtain ⟨record, hrecord, _, -, _, hkey, rfl⟩ := hadd
  obtain ⟨hlive, rfl⟩ := hsame record hrecord
  refine h.addName name _ hrecord hlive (by simpa using hkey) hfree.1 hfree.2 ?_
  intro x
  by_cases hmem : name ∈ record.aliases
  · rw [if_pos hmem]
    refine ⟨.inl, ?_⟩
    rintro (hx | rfl)
    · exact hx
    · exact hmem
  · rw [if_neg hmem, mem_append, mem_singleton]

theorem AliasInv.live {key : String}
    (hkey : s.namespaceAliases[key]? = some uuid) (hrecord : s.namespaceRecords[uuid]? = some record) :
    record.tombstoned = false := by
  obtain ⟨r, hr, hrlive, -⟩ := h.rows key uuid hkey
  rw [hrecord] at hr
  rwa [Option.some.inj hr]

theorem AliasInv.rename {oldName newName actor : String}
    (horderly : s.AliasOrderly (.rename oldName newName actor protocol))
    (hrename : s.namespaceRename oldName newName actor protocol = .ok s') :
    AliasInv s'.namespaceAliases s'.namespaceRecords := by
  simp only [namespaceRename, bind_eq_ok, aliasLookup_eq_ok, recordLookup_eq_ok, ensure_eq_ok,
    pure_eq_ok] at hrename
  obtain ⟨uuid, huuid, _, hkey, record, hrecord, _, -, rfl⟩ := hrename
  obtain ⟨hfree, hprotocol⟩ := horderly uuid huuid
  obtain rfl := hprotocol record hrecord
  have hlive := h.live huuid hrecord
  -- the old name goes, and then the new one is added
  have hdropped := h.dropName hrecord hlive huuid
  have hnew : s.namespaceAliases[aliasKey newName record.protocol]? = none := by simpa using hkey
  have hrecord' : (s.namespaceRecords.insert uuid
      { record with aliases := record.aliases.filter (fun a => a ≠ oldName) })[uuid]? =
        some { record with aliases := record.aliases.filter (fun a => a ≠ oldName) } := by
    rw [get_insert, if_pos rfl]
  refine (hdropped.addName newName (record.aliases.filter (fun a => a ≠ oldName) ++ [newName]) hrecord' hlive
    ?_ ?_ ?_ (fun x => by rw [mem_append, mem_singleton])).of_get (fun _ => rfl) ?_
  · rw [get_erase, hnew, ite_self]
  · intro hscoped other hother
    exact hfree.1 hscoped other (of_get_erase hother)
  · intro other r hr hne hrlive hscoped
    rcases of_get_insert hr with ⟨heq, -⟩ | ⟨-, hold⟩
    · exact absurd heq.symm hne
    · exact hfree.2 other r hold hne hrlive hscoped
  · intro other
    rw [get_insert, get_insert, get_insert]
    by_cases hsame : uuid = other
    · rw [if_pos hsame, if_pos hsame]
    · rw [if_neg hsame, if_neg hsame, if_neg hsame]

end

theorem tables_namespaceDelete {actor : String} (hdelete : s.namespaceDelete name actor protocol = .ok s') :
    ∃ uuid record, s.namespaceAliases[aliasKey name protocol]? = some uuid ∧
      s.namespaceRecords[uuid]? = some record ∧
      s'.namespaceAliases = record.aliases.foldl (dropAlias record) s.namespaceAliases ∧
      s'.namespaceRecords = s.namespaceRecords.insert uuid { record with tombstoned := true } := by
  simp only [namespaceDelete, bind_eq_ok, aliasLookup_eq_ok, recordLookup_eq_ok, ensure_eq_ok,
    pure_eq_ok] at hdelete
  obtain ⟨uuid, huuid, record, hrecord, _, -, rfl⟩ := hdelete
  exact ⟨uuid, record, huuid, hrecord, rfl, rfl⟩

theorem AliasInv.step (h : AliasInv s.namespaceAliases s.namespaceRecords) {req : AliasRequest}
    (horderly : s.AliasOrderly req) :
    AliasInv (s.aliasStep req).namespaceAliases (s.aliasStep req).namespaceRecords := by
  unfold aliasStep
  cases hreq : s.aliasRequest req with
  | error e => exact h
  | ok s' =>
    show AliasInv s'.namespaceAliases s'.namespaceRecords
    cases req with
    | create uuid nowMs name owner protocol =>
      obtain ⟨⟨ns, created⟩, hcreate, rfl⟩ := map_eq_ok.mp hreq
      exact h.create horderly.1 horderly.2 hcreate
    | addAlias uuid name actor protocol => exact h.addAlias horderly.1 horderly.2 hreq
    | rename oldName newName actor protocol => exact h.rename horderly hreq
    | delete name actor protocol =>
      obtain ⟨uuid, record, huuid, hrecord, haliases, hrecords⟩ := tables_namespaceDelete hreq
      rw [haliases, hrecords]
      exact h.tombstone hrecord (h.live huuid hrecord)

theorem AliasInv.run (reqs : List AliasRequest) (h : AliasInv s.namespaceAliases s.namespaceRecords)
    (horderly : s.AliasOrderlyRun reqs) :
    AliasInv (s.aliasRun reqs).namespaceAliases (s.aliasRun reqs).namespaceRecords := by
  induction reqs generalizing s with
  | nil => exact h
  | cons req reqs ih => exact ih (h.step horderly.1) horderly.2

/-- **Rows and records agree, and deletions drop their own rows**, after every run of requests that meet
the condition. -/
theorem aliases_consistent (encrypted : Bool) (reqs : List AliasRequest)
    (horderly : (PersistentStore.new encrypted).AliasOrderlyRun reqs) :
    ((PersistentStore.new encrypted).aliasRun reqs).AliasesListed ∧
      ((PersistentStore.new encrypted).aliasRun reqs).DropsOwn := by
  have hinv := AliasInv.run (s := PersistentStore.new encrypted) reqs .empty horderly
  constructor
  · intro key uuid hkey
    obtain ⟨record, hrecord, hlive, name, hname, rfl⟩ := hinv.rows key uuid hkey
    exact ⟨record, hrecord, hlive, name, hname, record.protocol, rfl⟩
  · intro name actor protocol s' hdelete
    obtain ⟨uuid, record, huuid, hrecord, haliases, -⟩ := tables_namespaceDelete hdelete
    refine ⟨uuid, huuid, ?_⟩
    intro key
    rw [haliases]
    exact hinv.get_dropped hrecord (hinv.live huuid hrecord) key

theorem free_of_only {s : PersistentStore} {uuid : Uuid} {name : String} {protocol : Option String}
    (hrecords : ∀ row ∈ s.namespaceRecords.toList, row.1 = uuid)
    (hplain : s.namespaceAliases[name]? = none ∨ s.namespaceAliases[name]? = some uuid) :
    s.Free uuid name protocol := by
  refine ⟨fun _ other hother => by grind, ?_⟩
  intro other record hrecord hne
  have hrow := Std.ExtTreeMap.mem_toList_iff_getElem?_eq_some.mpr hrecord
  exact absurd (hrecords (other, record) hrow) hne

def renameRequests : List AliasRequest :=
  [.create 0 0 "n" "o" (some "oci"), .addAlias 0 "m" "o" (some "oci"), .rename "m" "k" "o" (some "oci")]

theorem aliases_consistent_renamed :
    let s := (PersistentStore.new false).aliasRun renameRequests
    s.namespaceAliases["oci:n"]? = some 0 ∧ s.namespaceAliases["oci:k"]? = some 0 ∧
      s.AliasesListed ∧ s.DropsOwn := by
  refine ⟨by decide +kernel, by decide +kernel, aliases_consistent false renameRequests
    ⟨⟨rfl, ?_⟩, ⟨?_, ?_⟩, ?_, trivial⟩⟩
  · exact free_of_only (by decide +kernel) (by decide +kernel)
  · exact free_of_only (by decide +kernel) (by decide +kernel)
  · decide +kernel
  · intro uuid huuid
    have hm : ((PersistentStore.new false).aliasRun (renameRequests.take 2)).namespaceAliases[
        aliasKey "m" (some "oci")]? = some 0 := by decide +kernel
    obtain rfl := Option.some.inj (hm.symm.trans huuid)
    refine ⟨free_of_only (by decide +kernel) (by decide +kernel), ?_⟩
    decide +kernel

/-- An alias is added under another protocol than that of the record, and the namespace is deleted. The
alias still resolves, to a record that is marked as deleted. -/
theorem alias_of_deleted :
    let s := (PersistentStore.new false).aliasRun
      [.create 0 0 "n" "o" (some "oci"), .addAlias 0 "x" "o" (some "git"), .delete "n" "o" (some "oci")]
    s.namespaceAliases["git:x"]? = some 0 ∧
      (s.namespaceRecords[(0 : Uuid)]?).map NamespaceRecord.tombstoned = some true := by
  decide +kernel

end PersistentStore

end KappaRegistry
