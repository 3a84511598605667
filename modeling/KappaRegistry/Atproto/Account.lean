import KappaRegistry.Atproto.Repo
import KappaRegistry.Atproto.RepoAuth
import KappaRegistry.Store.Namespaces
import KappaRegistry.Store.Sessions

/-!
# Creating an Account

`create_account` of `kappa-module-atproto/src/xrpc.rs`. The request may name a DID, or one is derived
from its handle. The handler starts a repository for the DID, registers the password and opens a session.

It does not look whether the DID has an account. **`createAccount_keeps_iff`**: a request leaves an
existing account as it is (the passwords that log in, the sessions to be had without the old password,
and the head and revision of its repository) exactly if it is refused, is about another DID, or asks for
what is already there.
-/

namespace KappaRegistry.Atproto

open Lib PersistentStore Table Atproto.SessionStore List

structure AtprotoServer where
  store : PersistentStore
  sessions : SessionStore

/-- The answer of `create_account`. -/
structure AccountCreated where
  handle : String
  did : String
  accessJwt : String
  refreshJwt : String
  deriving DecidableEq

section

variable (prim : Primitives) (libs : SessionLibs)

def firstCommit (did : String) (revUs : ℕ) : UnsignedCommit :=
  { did
    version := 3
    data := Mst.root libs ∅
    rev := nextTid revUs
    prev := none }

def askedPassword (req : Json) : String := (textMember req "password").getD ""

def openAccount (sessions : SessionStore) (did handle password : String) (nowMs : ℕ) :
    AccountCreated × SessionStore :=
  let registered := sessions.registerCredentials libs did password
  match registered.createSession libs did password handle "" nowMs with
  | .ok issued => (⟨handle, did, issued.1.accessToken, issued.1.refreshToken⟩, issued.2)
  | .error _ => (⟨handle, did, "", ""⟩, registered)

def createAccount (server : AtprotoServer) (req : Json) (draws : RepoDraws) :
    Except XrpcError AccountCreated × AtprotoServer :=
  if ¬ accountAsked req then
    (.error ⟨400, "InvalidRequest", "missing handle or password"⟩, server)
  else
    let did := accountDid libs req
    let started := initRepo prim libs did draws server.store
    match started.1 with
    | .error e => (.error ⟨500, "InternalServerError", e.display⟩, { server with store := started.2 })
    | .ok _ =>
      let opened := openAccount libs server.sessions did ((textMember req "handle").getD "")
        (askedPassword req) draws.nowMs
      (.ok opened.1, ⟨started.2, opened.2⟩)

/-- The passwords with which `create_session` opens a session. -/
def Accepts (sessions : SessionStore) (did password : String) : Prop :=
  ∀ handle dpopJkt nowMs, (sessions.createSession libs did password handle dpopJkt nowMs).isOk = true

def tagKappa (s : PersistentStore) (ns name : String) : Option String :=
  (s.tags[dbKey ns name]?).map TagValue.kappa

/-- The account of a DID is as it was: the passwords, the sessions that the holder of the old password
did not ask for, and the tags of the last commit. -/
structure AccountKept (did password : String) (before after : AtprotoServer) : Prop where
  passwords : ∀ p, Accepts libs after.sessions did p ↔ Accepts libs before.sessions did p
  sessions : ∀ (token : String) (session : Session), after.sessions.sessions[token]? = some session →
    session.did = did →
      before.sessions.sessions[token]? = some session ∨ Accepts libs before.sessions did password
  head : tagKappa after.store did "commit/head" = tagKappa before.store did "commit/head"
  rev : tagKappa after.store did "commit/rev" = tagKappa before.store did "commit/rev"

end

variable {prim : Primitives} {libs : SessionLibs} {sessions : SessionStore}

theorem accepts_iff {did password : String} : Accepts libs sessions did password ↔
      sessions.credentials[did]? = some (hashPassword libs password) := by
  unfold Accepts createSession ensure
  split_ifs with h
  · exact ⟨fun _ => h, fun _ _ _ _ => rfl⟩
  · exact ⟨fun hall => (nomatch hall "" "" 0), fun hrow => absurd hrow h⟩

section

variable (sessions : SessionStore) (did handle password : String) (nowMs : ℕ)
include handle

theorem openAccount_eq :
    (openAccount libs sessions did handle password nowMs).2 =
      ((sessions.registerCredentials libs did password).issue libs did handle "" nowMs).2 := by
  have hcreate : (sessions.registerCredentials libs did password).createSession libs did password handle
      "" nowMs =
      .ok ((sessions.registerCredentials libs did password).issue libs did handle "" nowMs) := by
    have hrow : (sessions.registerCredentials libs did password).credentials[did]? =
        some (hashPassword libs password) := by
      show (sessions.credentials.insert did _)[did]? = _
      rw [get_insert, if_pos rfl]
    rw [createSession, ensure, if_pos hrow]
    rfl
  rw [openAccount, hcreate]

theorem credentials_openAccount
    (d : String) : (openAccount libs sessions did handle password nowMs).2.credentials[d]? =
      if did = d then some (hashPassword libs password) else sessions.credentials[d]? := by
  rw [openAccount_eq]
  exact get_insert _ _ _ _

end

theorem of_sessions_openAccount {did handle password token : String} {nowMs : ℕ} {session : Session}
    (h : (openAccount libs sessions did handle password nowMs).2.sessions[token]? = some session) :
    session.did = did ∨ sessions.sessions[token]? = some session := by
  rw [openAccount_eq] at h
  have h : (sessions.sessions.insert _ _)[token]? = some session := h
  rw [get_insert] at h
  split at h
  · cases h
    exact .inl rfl
  · exact .inr h

variable {did : String} {draws : RepoDraws} {s : PersistentStore}

theorem initRepo_of_ok {created : NamespaceRef × PersistentStore}
    (h : s.namespaceResolveOrCreate draws.uuid draws.nowMs did did (some "atproto") = .ok created) :
    initRepo prim libs did draws s = (.ok (nextTid draws.revUs),
      storeCommit prim did (firstCommit libs did draws.revUs)
        (storeBlocks prim did (Mst.writeToStore libs ∅).2 created.2)) := by
  have hresolve : resolveOrCreate draws did did (some "atproto") s = (.ok created.1, created.2) := by
    unfold resolveOrCreate
    rw [h]
  rw [initRepo, Action.bind_of_ok hresolve, (namespaceResolveOrCreate_eq_ok h).1]
  rfl

theorem initRepo_of_error {e : StoreError}
    (h : s.namespaceResolveOrCreate draws.uuid draws.nowMs did did (some "atproto") = .error e) :
    initRepo prim libs did draws s = (.error e, s) := by
  have hresolve : resolveOrCreate draws did did (some "atproto") s = (.error e, s) := by
    unfold resolveOrCreate
    rw [h]
  rw [initRepo, Action.bind_of_error hresolve]

/-! ## The tags of other accounts -/

theorem nulFree_append {a b : String} (ha : NulFree a) (hb : NulFree b) : NulFree (a ++ b) := by
  unfold NulFree at ha hb ⊢
  rw [String.toList_append, mem_append]
  exact fun h => h.elim ha hb

theorem nulFree_hexEncode (bytes : Bytes) : NulFree (hexEncode bytes) := by
  intro h
  obtain ⟨n, hn⟩ := of_mem_hexEncode h
  revert hn
  revert n
  decide

theorem s32Char_ne_nul (n : ℕ) : s32Char n ≠ '\x00' := by
  unfold s32Char
  rw [getD_eq_getElem?_getD]
  cases h : "234567abcdefghijklmnopqrstuvwxyz".toList[n]? with
  | none => decide
  | some c =>
    rintro rfl
    exact absurd (mem_of_getElem? h) (by decide)

theorem nulFree_nextTid (nowUs : ℕ) : NulFree (nextTid nowUs) := by
  have hdigits : ∀ fuel n, '\x00' ∉ s32Digits fuel n := by
    intro fuel
    induction fuel with
    | zero => exact fun n h => nomatch h
    | succ fuel ih =>
      intro n h
      rw [s32Digits] at h
      split at h
      · cases h
      · rcases mem_cons.mp h with heq | hrest
        · exact s32Char_ne_nul _ heq.symm
        · exact ih _ hrest
  have hpadded : ∀ width n, '\x00' ∉ s32Padded width n := by
    intro width n h
    rcases mem_append.mp h with hpad | hdigit
    · exact absurd (eq_of_mem_replicate hpad) (by decide)
    · exact hdigits _ _ (mem_reverse.mp hdigit)
  intro h
  rw [nextTid, String.toList_ofList, mem_append] at h
  exact h.elim (hpadded _ _) (hpadded _ _)

theorem nulFree_firstCommit (libs : SessionLibs) (did : String) (revUs : ℕ) :
    NulFree (firstCommit libs did revUs).rev :=
  nulFree_nextTid revUs

section

variable {s : PersistentStore} {ns did name : String} (hne : ns ≠ did) (hname : NulFree name)
include hne hname

theorem tags_tagSet_other {own : String} (hown : NulFree own) (kappa : String) :
    (s.tagSet ns own kappa).tags[dbKey did name]? = s.tags[dbKey did name]? := by
  show (s.tags.insert (dbKey ns own) _)[dbKey did name]? = _
  rw [get_insert, if_neg]
  exact fun heq => hne ((dbKey_inj_right hown hname).mp heq).1

theorem tags_storeBlocks_other (prim : Primitives) (blocks : List MstBlock) :
    (storeBlocks prim ns blocks s).tags[dbKey did name]? = s.tags[dbKey did name]? := by
  induction blocks generalizing s with
  | nil => rfl
  | cons block blocks ih =>
    show (storeBlocks prim ns blocks (putNamed prim ns _ block.2 s)).tags[dbKey did name]? = _
    rw [ih, putNamed, tags_tagSet_other hne hname (nulFree_append (by decide) (nulFree_hexEncode _))]
    rfl

theorem tags_storeCommit_other (prim : Primitives) {commit : UnsignedCommit} (hrev : NulFree commit.rev) :
    (storeCommit prim ns commit s).tags[dbKey did name]? = s.tags[dbKey did name]? := by
  rw [storeCommit, tags_tagSet_other hne hname (nulFree_append (by decide) hrev),
    tags_tagSet_other hne hname (by decide), putNamed, tags_tagSet_other hne hname (by decide)]
  rfl

end

theorem tags_storeCommit_head (prim : Primitives) (ns : String) (s : PersistentStore)
    (commit : UnsignedCommit) :
    ∃ version, (storeCommit prim ns commit s).tags[dbKey ns "commit/head"]? =
      some ⟨prim.kappaFromBytes commit.toCbor, version⟩ := by
  have hrev : dbKey ns "commit/rev" ≠ dbKey ns "commit/head" :=
    fun heq => absurd (dbKey_cancel heq) (by decide)
  have hindex : dbKey ns ("commit/rev/" ++ commit.rev) ≠ dbKey ns "commit/head" := by
    intro heq
    have hchar := congrArg (fun text : String => text.toList[7]?) (dbKey_cancel heq)
    simp at hchar
  apply Exists.intro
  show (((s.tags.insert (dbKey ns "commit/head") _).insert (dbKey ns "commit/rev") _).insert
    (dbKey ns ("commit/rev/" ++ commit.rev)) _)[dbKey ns "commit/head"]? = _
  rw [get_insert, if_neg hindex, get_insert, if_neg hrev, get_insert, if_pos rfl]

theorem tags_storeCommit_rev (prim : Primitives) (ns : String) (s : PersistentStore)
    (commit : UnsignedCommit) :
    ∃ version, (storeCommit prim ns commit s).tags[dbKey ns "commit/rev"]? =
      some ⟨commit.rev, version⟩ := by
  have hindex : dbKey ns ("commit/rev/" ++ commit.rev) ≠ dbKey ns "commit/rev" := by
    intro heq
    have hlength := congrArg (fun text : String => text.toList.length) (dbKey_cancel heq)
    simp at hlength
  apply Exists.intro
  show (((s.tags.insert (dbKey ns "commit/head") _).insert (dbKey ns "commit/rev") _).insert
    (dbKey ns ("commit/rev/" ++ commit.rev)) _)[dbKey ns "commit/rev"]? = _
  rw [get_insert, if_neg hindex, get_insert, if_pos rfl]

/-! ## Existing accounts -/

theorem AccountKept.refl (libs : SessionLibs) (did password : String) (server : AtprotoServer) :
    AccountKept libs did password server server :=
  ⟨fun _ => Iff.rfl, fun _ _ h _ => .inl h, rfl, rfl⟩

/-- **An account is taken over unless the request is refused, is about another DID, or asks for what is
there already.** -/
theorem createAccount_keeps_iff (prim : Primitives) (libs : SessionLibs) (server : AtprotoServer)
    (req : Json) (draws : RepoDraws) (did : String) :
    AccountKept libs did (askedPassword req) server (createAccount prim libs server req draws).2 ↔
      ¬ accountAsked req ∨ accountDid libs req ≠ did ∨
      (∃ e, server.store.namespaceResolveOrCreate draws.uuid draws.nowMs (accountDid libs req)
        (accountDid libs req) (some "atproto") = .error e) ∨
      (Accepts libs server.sessions did (askedPassword req) ∧
        tagKappa server.store did "commit/head" =
          some (prim.kappaFromBytes (firstCommit libs did draws.revUs).toCbor) ∧
        tagKappa server.store did "commit/rev" = some (nextTid draws.revUs)) := by
  by_cases hasked : accountAsked req
  swap
  · rw [createAccount, if_pos hasked]
    exact ⟨fun _ => .inl hasked, fun _ => .refl libs did _ server⟩
  rw [createAccount, if_neg (fun h => h hasked)]
  dsimp only
  cases hcreate : server.store.namespaceResolveOrCreate draws.uuid draws.nowMs (accountDid libs req)
      (accountDid libs req) (some "atproto") with
  | error e =>
    rw [initRepo_of_error hcreate]
    exact ⟨fun _ => .inr (.inr (.inl ⟨e, rfl⟩)), fun _ => .refl libs did _ server⟩
  | ok created =>
    obtain ⟨-, _, _, hstore⟩ := namespaceResolveOrCreate_eq_ok hcreate
    have htags : created.2.tags = server.store.tags := by rw [hstore]
    rw [initRepo_of_ok hcreate]
    dsimp only
    by_cases hdid : accountDid libs req = did
    swap
    · -- another account: its rows, its credentials, its session
      have hrows : ∀ {name : String}, NulFree name →
          (storeCommit prim (accountDid libs req) (firstCommit libs (accountDid libs req) draws.revUs)
            (storeBlocks prim (accountDid libs req) (Mst.writeToStore libs ∅).2 created.2)).tags[dbKey did name]? =
          server.store.tags[dbKey did name]? := by
        intro name hname
        rw [tags_storeCommit_other hdid hname prim (nulFree_firstCommit libs _ draws.revUs),
          tags_storeBlocks_other hdid hname, htags]
      refine ⟨fun _ => .inr (.inl hdid), fun _ => ⟨?_, ?_, ?_, ?_⟩⟩
      · intro p
        rw [accepts_iff, accepts_iff, credentials_openAccount, if_neg hdid]
      · intro token session hrow hsession
        rcases of_sessions_openAccount hrow with hnew | hold
        · exact absurd (hnew.symm.trans hsession) hdid
        · exact .inl hold
      · exact congrArg (Option.map TagValue.kappa) (hrows (by decide))
      · exact congrArg (Option.map TagValue.kappa) (hrows (by decide))
    · rw [hdid]
      generalize storeBlocks prim did (Mst.writeToStore libs ∅).2 created.2 = blocks
      obtain ⟨hversion, hhead⟩ := tags_storeCommit_head prim did blocks (firstCommit libs did draws.revUs)
      obtain ⟨rversion, hrev⟩ := tags_storeCommit_rev prim did blocks (firstCommit libs did draws.revUs)
      constructor
      · intro hkept
        have hpassword : Accepts libs server.sessions did (askedPassword req) := by
          refine (hkept.passwords (askedPassword req)).mp ?_
          rw [accepts_iff, credentials_openAccount, if_pos rfl]
        have hkeptHead := hkept.head
        have hkeptRev := hkept.rev
        rw [tagKappa, hhead] at hkeptHead
        rw [tagKappa, hrev] at hkeptRev
        exact .inr (.inr (.inr ⟨hpassword, hkeptHead.symm, hkeptRev.symm⟩))
      · rintro (hnot | hother | ⟨e, he⟩ | ⟨hpassword, hsameHead, hsameRev⟩)
        · exact absurd hasked hnot
        · exact absurd rfl hother
        · cases he
        · refine ⟨?_, fun _ _ _ _ => .inr hpassword, ?_, ?_⟩
          · intro p
            rw [accepts_iff, accepts_iff, credentials_openAccount, if_pos rfl, accepts_iff.mp hpassword]
          · rw [hsameHead, tagKappa, hhead]
            rfl
          · rw [hsameRev, tagKappa, hrev]
            rfl

def SessionLibs.sum : SessionLibs :=
  ⟨fun data => [data.foldl (· + ·) 0], ⟨fun _ => none, fun _ => [34, 34]⟩, fun _ _ _ => false, id⟩

def RepoDraws.sample : RepoDraws := ⟨1, 0, 1⟩

/-- A request for an account `d`, with a password. -/
def accountRequest (password : String) : Json :=
  .obj [("handle", .str "h"), ("password", .str password), ("did", .str "d")]

/-- The account `d` is created with the password `p`, and by someone else with `q`. -/
theorem createAccount_takes_over :
    let server := (createAccount .sample SessionLibs.sum ⟨.new false, .new⟩ (accountRequest "p") .sample).2
    let taken := (createAccount .sample SessionLibs.sum server (accountRequest "q") .sample).2
    server.sessions.credentials["d"]? = some (SessionStore.hashPassword SessionLibs.sum "p") ∧
      Accepts SessionLibs.sum taken.sessions "d" "q" ∧ ¬ Accepts SessionLibs.sum server.sessions "d" "q" ∧
      ¬ Accepts SessionLibs.sum taken.sessions "d" "p" := by
  simp only [accepts_iff]
  decide +kernel

end KappaRegistry.Atproto
