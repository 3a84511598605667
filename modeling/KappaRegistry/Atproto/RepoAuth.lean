import KappaRegistry.Atproto.Session

/-!
# Who May Write to a Repository

`verify_repo_auth` of `kappa-module-atproto/src/xrpc.rs`. A request names its access token with the
scheme `DPoP` and carries a proof, or with the scheme `Bearer` and carries none.

A session that is bound to a key is meant to be used with proofs of that key. The `Bearer` scheme finds
the session by its token alone, whether it is bound or not. **`bound_sessions_proved_iff`**: for an
authorization header and any history of the session store, all accepted requests with that header prove
the possession of the session's key exactly if the header is not `Bearer` with the live token of a
bound session.
-/

namespace KappaRegistry.Atproto

open Lib SessionStore Option

/-- An XRPC error: the status, the name and the message. -/
structure XrpcError where
  status : ℕ
  error : String
  message : String
  deriving DecidableEq

/-- What is read of a request; a header that is missing or no text is empty. -/
structure AuthParts where
  authorization : String
  dpop : String
  method : String
  uri : String
  deriving DecidableEq

def SessionError.toXrpc (e : SessionError) : XrpcError := ⟨401, e.xrpcError, e.text⟩

def checkRepo (did repo : String) : Except XrpcError String :=
  if did = repo then .ok did
  else .error ⟨403, "Forbidden", "session DID " ++ did ++ " does not match repo " ++ repo⟩

section

variable (libs : SessionLibs) (store : SessionStore)

/-- The `DPoP` path. -/
def verifyDpop (accessToken : String) (parts : AuthParts) (repo : String)
    (nowMs : ℕ) : Except XrpcError String × SessionStore :=
  if parts.dpop = "" then (.error ⟨401, "InvalidToken", "DPoP proof header missing"⟩, store)
  else match parseAndVerifyDpopProof libs parts.dpop with
    | .error e => (.error e.toXrpc, store)
    | .ok claims =>
      let verified := store.verifyDpopRequest libs accessToken claims parts.method parts.uri nowMs
      (match verified.1 with
        | .error e => .error e.toXrpc
        | .ok did => checkRepo did repo, verified.2)

/-- The `Bearer` path. -/
def verifyBearer (accessToken repo : String) (nowMs : ℕ) : Except XrpcError String :=
  match store.validateToken accessToken nowMs with
  | some did => checkRepo did repo
  | none => .error ⟨401, "ExpiredToken", "invalid or expired token"⟩

/-- `verify_repo_auth`. Without a session store nothing but the presence of a header is asked for. -/
def verifyRepoAuth (sessionStore : Option SessionStore) (parts : AuthParts) (repo : String) (nowMs : ℕ) :
    Except XrpcError String × Option SessionStore :=
  if parts.authorization = "" then
    (.error ⟨401, "AuthenticationRequired", "missing access token"⟩, sessionStore)
  else match sessionStore with
    | none => (.ok repo, none)
    | some store =>
      match stripPrefix parts.authorization "DPoP " with
      | some accessToken => (verifyDpop libs store accessToken parts repo nowMs).map id some
      | none =>
        match stripPrefix parts.authorization "Bearer " with
        | some accessToken => (verifyBearer store accessToken repo nowMs, some store)
        | none =>
          (.error ⟨401, "AuthenticationRequired", "unsupported authorization scheme"⟩, some store)

/-! ## Histories of the session store -/

/-- A call that changes the session store, or a request to a repository. -/
inductive SessionOp where
  | register (did password : String)
  | create (identifier password handle dpopJkt : String) (nowMs : ℕ)
  | refresh (refreshToken : String) (nowMs : ℕ)
  | delete (accessToken : String)
  | request (parts : AuthParts) (repo : String) (nowMs : ℕ)

def acceptedJti (parts : AuthParts) (repo : String) (nowMs : ℕ) : Option String :=
  if (verifyRepoAuth libs (some store) parts repo nowMs).1.isOk ∧
      (stripPrefix parts.authorization "DPoP ").isSome then
    (parseAndVerifyDpopProof libs parts.dpop).toOption.map DpopClaims.jti
  else none

/-- The session store and the identifiers of the proofs that it has accepted. -/
structure SessionHistory where
  store : SessionStore
  accepted : List String

namespace SessionHistory

def step (h : SessionHistory) : SessionOp → SessionHistory
  | .register did password => { h with store := h.store.registerCredentials libs did password }
  | .create identifier password handle dpopJkt nowMs =>
    match h.store.createSession libs identifier password handle dpopJkt nowMs with
    | .ok issued => { h with store := issued.2 }
    | .error _ => h
  | .refresh refreshToken nowMs => { h with store := (h.store.refreshSession libs refreshToken nowMs).2 }
  | .delete accessToken => { h with store := (h.store.deleteSession accessToken).2 }
  | .request parts repo nowMs =>
    { store := ((verifyRepoAuth libs (some h.store) parts repo nowMs).2).getD h.store
      accepted := (acceptedJti libs h.store parts repo nowMs).toList ++ h.accepted }

def run (store : SessionStore) (ops : List SessionOp) : SessionHistory :=
  ops.foldl (step libs) ⟨store, []⟩

end SessionHistory

def namedToken (authorization : String) : Option String :=
  (stripPrefix authorization "DPoP ").or (stripPrefix authorization "Bearer ")

/-- The request carries a proof of the session's key, made for this request and not accepted before. -/
def Proved (accepted : List String) (session : Session) (accessToken : String) (parts : AuthParts) : Prop :=
  ∃ claims, parseAndVerifyDpopProof libs parts.dpop = .ok claims ∧ claims.jkt = session.dpopJkt ∧
    claims.jti ∉ accepted ∧ libs.toUppercase claims.htm = libs.toUppercase parts.method ∧
    claims.htu = SessionStore.cleanUri parts.uri ∧
    claims.ath = base64urlSha256 libs (textBytes accessToken)

end

/-- The header is `Bearer` with the live token of a session of the repository that is bound to a key. -/
def BearerBound (store : SessionStore) (authorization repo : String) (nowMs : ℕ) : Prop :=
  ∃ accessToken session, stripPrefix authorization "Bearer " = some accessToken ∧
    store.sessions[accessToken]? = some session ∧ nowMs ≤ session.expiresAtMs ∧ session.did = repo ∧
    session.dpopJkt ≠ ""

variable {libs : SessionLibs} {store : SessionStore} {accessToken repo : String} {parts : AuthParts}
  {nowMs : ℕ}

theorem verifyDpopRequest_eq_ok {claims : DpopClaims} {method uri did : String}
    (h : (store.verifyDpopRequest libs accessToken claims method uri nowMs).1 = .ok did) :
    ∃ session, store.sessions[accessToken]? = some session ∧ claims.jti ∉ store.seenJtis ∧
      libs.toUppercase claims.htm = libs.toUppercase method ∧
      claims.htu = cleanUri uri ∧
      claims.ath = base64urlSha256 libs (textBytes accessToken) ∧ claims.jkt = session.dpopJkt ∧
      (store.verifyDpopRequest libs accessToken claims method uri nowMs).2.seenJtis =
        claims.jti :: store.seenJtis := by
  unfold verifyDpopRequest at h ⊢
  cases hsession : store.getSession accessToken nowMs with
  | error e =>
    simp [hsession] at h
  | ok session =>
    rw [hsession] at h
    dsimp only at h ⊢
    by_cases hseen : claims.jti ∈ store.seenJtis
    · simp [if_pos hseen] at h
    · rw [if_neg hseen] at h ⊢
      simp only [checkClaims, bind_eq_ok, ensure_eq_ok] at h
      obtain ⟨-, hmethod, -, huri, -, hath, -, hjkt, -⟩ := h
      simp only [getSession, bind_eq_ok, need_eq_ok, pure_eq_ok] at hsession
      obtain ⟨session', hrow, -, -, rfl⟩ := hsession
      exact ⟨session', hrow, hseen, hmethod, huri, hath, hjkt, rfl⟩

theorem verifyDpop_isOk (h : (verifyDpop libs store accessToken parts repo nowMs).1.isOk = true) :
    ∃ claims session, parseAndVerifyDpopProof libs parts.dpop = .ok claims ∧
      store.sessions[accessToken]? = some session ∧ claims.jti ∉ store.seenJtis ∧
      libs.toUppercase claims.htm = libs.toUppercase parts.method ∧
      claims.htu = cleanUri parts.uri ∧
      claims.ath = base64urlSha256 libs (textBytes accessToken) ∧ claims.jkt = session.dpopJkt ∧
      (verifyDpop libs store accessToken parts repo nowMs).2.seenJtis =
        claims.jti :: store.seenJtis := by
  unfold verifyDpop at h ⊢
  by_cases hdpop : parts.dpop = ""
  · simp [if_pos hdpop] at h
  · rw [if_neg hdpop] at h ⊢
    cases hparse : parseAndVerifyDpopProof libs parts.dpop with
    | error e =>
      simp [hparse] at h
    | ok claims =>
      rw [hparse] at h
      dsimp only at h ⊢
      cases hverified : (store.verifyDpopRequest libs accessToken claims parts.method parts.uri nowMs).1 with
      | error e =>
        simp [hverified] at h
      | ok did =>
        obtain ⟨session, hrow, hseen, hmethod, huri, hath, hjkt, hstore⟩ :=
          verifyDpopRequest_eq_ok hverified
        exact ⟨claims, session, rfl, hrow, hseen, hmethod, huri, hath, hjkt, hstore⟩

theorem seenJtis_subset_verifyDpop :
    store.seenJtis ⊆ (verifyDpop libs store accessToken parts repo nowMs).2.seenJtis := by
  intro jti hjti
  unfold verifyDpop
  split_ifs
  · exact hjti
  · cases parseAndVerifyDpopProof libs parts.dpop with
    | error e => exact hjti
    | ok claims =>
      unfold verifyDpopRequest
      cases store.getSession accessToken nowMs with
      | error e => exact hjti
      | ok session =>
        dsimp only
        split_ifs
        · exact hjti
        · exact List.mem_cons_of_mem _ hjti

theorem validateToken_eq_some {did : String} : store.validateToken accessToken nowMs = some did ↔
      ∃ session, store.sessions[accessToken]? = some session ∧ nowMs ≤ session.expiresAtMs ∧
        session.did = did := by
  simp only [validateToken, map_eq_some_iff, filter_eq_some_iff,
    decide_eq_true_eq, and_assoc]

theorem verifyBearer_isOk_iff : (verifyBearer store accessToken repo nowMs).isOk = true ↔
      store.validateToken accessToken nowMs = some repo := by
  unfold verifyBearer checkRepo
  cases store.validateToken accessToken nowMs with
  | none => simp
  | some did =>
    by_cases hdid : did = repo <;> simp [hdid]

theorem stripPrefix_dpop_of_bearer {authorization : String}
    (h : stripPrefix authorization "Bearer " = some accessToken) :
    stripPrefix authorization "DPoP " = none := by
  rw [eq_append_of_stripPrefix h]
  exact stripPrefix_append_eq_none (by decide) (by decide) _

theorem verifyRepoAuth_dpop (h : stripPrefix parts.authorization "DPoP " = some accessToken) :
    verifyRepoAuth libs (some store) parts repo nowMs =
      (verifyDpop libs store accessToken parts repo nowMs).map id some := by
  unfold verifyRepoAuth
  rw [if_neg (ne_empty_of_stripPrefix (by decide) h), h]

theorem verifyRepoAuth_bearer (h : stripPrefix parts.authorization "Bearer " = some accessToken) :
    verifyRepoAuth libs (some store) parts repo nowMs =
      (verifyBearer store accessToken repo nowMs, some store) := by
  unfold verifyRepoAuth
  rw [if_neg (ne_empty_of_stripPrefix (by decide) h), stripPrefix_dpop_of_bearer h, h]

theorem seenJtis_subset_verifyRepoAuth :
    store.seenJtis ⊆ (((verifyRepoAuth libs (some store) parts repo nowMs).2).getD store).seenJtis := by
  unfold verifyRepoAuth
  split_ifs
  · exact fun _ h => h
  · cases stripPrefix parts.authorization "DPoP " with
    | some token => exact seenJtis_subset_verifyDpop
    | none =>
      cases stripPrefix parts.authorization "Bearer " with
      | some token | none => exact fun _ h => h

theorem acceptedJti_eq_some {jti : String} (h : acceptedJti libs store parts repo nowMs = some jti) :
    jti ∈ (((verifyRepoAuth libs (some store) parts repo nowMs).2).getD store).seenJtis := by
  unfold acceptedJti at h
  split at h
  · rename_i hcond
    obtain ⟨hok, hscheme⟩ := hcond
    obtain ⟨token, htoken⟩ := isSome_iff_exists.mp hscheme
    rw [verifyRepoAuth_dpop htoken] at hok ⊢
    obtain ⟨claims, session, hparse, -, -, -, -, -, -, hstore⟩ := verifyDpop_isOk hok
    rw [hparse] at h
    cases h
    show claims.jti ∈ (verifyDpop libs store token parts repo nowMs).2.seenJtis
    rw [hstore]
    exact List.mem_cons_self
  · cases h

/-! ### Every accepted proof is recorded -/

namespace SessionHistory

theorem seenJtis_refreshSession (s : SessionStore) (token : String) :
    (s.refreshSession libs token nowMs).2.seenJtis = s.seenJtis := by
  unfold refreshSession
  cases s.refreshIndex[token]? with
  | none => rfl
  | some accessToken =>
    dsimp only
    cases s.sessions[accessToken]? with
    | none | some old => rfl

theorem seenJtis_deleteSession (s : SessionStore) (token : String) :
    (s.deleteSession token).2.seenJtis = s.seenJtis := by
  unfold deleteSession
  cases s.sessions[token]? with
  | none | some session => rfl

theorem step_recorded {h : SessionHistory} (hrec : h.accepted ⊆ h.store.seenJtis) (op : SessionOp) :
    (h.step libs op).accepted ⊆ (h.step libs op).store.seenJtis := by
  cases op with
  | register did password => exact hrec
  | create identifier password handle jkt nowMs =>
    unfold step
    dsimp only
    cases hcreate : h.store.createSession libs identifier password handle jkt nowMs with
    | error e => exact hrec
    | ok issued =>
      simp only [createSession, bind_eq_ok, pure_eq_ok] at hcreate
      obtain ⟨-, -, rfl⟩ := hcreate
      exact hrec
  | refresh token nowMs =>
    show h.accepted ⊆ (h.store.refreshSession libs token nowMs).2.seenJtis
    rwa [seenJtis_refreshSession]
  | delete token =>
    show h.accepted ⊆ (h.store.deleteSession token).2.seenJtis
    rwa [seenJtis_deleteSession]
  | request parts repo nowMs =>
    intro jti hjti
    rcases List.mem_append.mp hjti with hnew | hold
    · exact acceptedJti_eq_some (mem_toList.mp hnew)
    · exact seenJtis_subset_verifyRepoAuth (hrec hold)

theorem run_recorded (libs : SessionLibs) (store : SessionStore) (ops : List SessionOp) :
    (run libs store ops).accepted ⊆ (run libs store ops).store.seenJtis := by
  have hfold : ∀ h : SessionHistory, h.accepted ⊆ h.store.seenJtis →
      (ops.foldl (step libs) h).accepted ⊆ (ops.foldl (step libs) h).store.seenJtis := by
    induction ops with
    | nil => exact fun _ hrec => hrec
    | cons op ops ih => exact fun h hrec => ih _ (step_recorded hrec op)
  exact hfold ⟨store, []⟩ (List.nil_subset _)

end SessionHistory

theorem parseAndVerifyDpopProof_empty :
    parseAndVerifyDpopProof libs "" = .error SessionError.invalidToken := rfl

/-- **Proof of possession.** -/
theorem bound_sessions_proved_iff (libs : SessionLibs) (store : SessionStore) (ops : List SessionOp)
    (authorization repo : String) (nowMs : ℕ) :
    (∀ accessToken session dpop method uri, namedToken authorization = some accessToken →
      (SessionHistory.run libs store ops).store.sessions[accessToken]? = some session →
      session.dpopJkt ≠ "" →
      (verifyRepoAuth libs (some (SessionHistory.run libs store ops).store)
        ⟨authorization, dpop, method, uri⟩ repo nowMs).1.isOk = true →
      Proved libs (SessionHistory.run libs store ops).accepted session accessToken
        ⟨authorization, dpop, method, uri⟩) ↔
    ¬ BearerBound (SessionHistory.run libs store ops).store authorization repo nowMs := by
  have hrecorded := SessionHistory.run_recorded libs store ops
  generalize SessionHistory.run libs store ops = h at hrecorded ⊢
  constructor
  · -- a `Bearer` request without a proof is accepted
    rintro hall ⟨token, session, hscheme, hrow, hlive, hdid, hbound⟩
    have hnamed : namedToken authorization = some token := by
      rw [namedToken, stripPrefix_dpop_of_bearer hscheme, hscheme]
      rfl
    have hok : (verifyRepoAuth libs (some h.store) ⟨authorization, "", "GET", "/"⟩ repo nowMs).1.isOk =
        true := by
      rw [verifyRepoAuth_bearer hscheme]
      exact verifyBearer_isOk_iff.mpr (validateToken_eq_some.mpr ⟨session, hrow, hlive, hdid⟩)
    obtain ⟨claims, hparse, -⟩ := hall token session "" "GET" "/" hnamed hrow hbound hok
    simp [parseAndVerifyDpopProof_empty] at hparse
  · intro hbearer token session dpop method uri hnamed hrow hbound hok
    cases hscheme : stripPrefix authorization "DPoP " with
    | some token' =>
      rw [namedToken, hscheme] at hnamed
      cases hnamed
      rw [verifyRepoAuth_dpop hscheme] at hok
      obtain ⟨claims, session', hparse, hrow', hseen, hmethod, huri, hath, hjkt, -⟩ := verifyDpop_isOk hok
      rw [hrow] at hrow'
      cases hrow'
      exact ⟨claims, hparse, hjkt, fun hmem => hseen (hrecorded hmem), hmethod, huri, hath⟩
    | none =>
      rw [namedToken, hscheme, none_or] at hnamed
      rw [verifyRepoAuth_bearer hnamed] at hok
      obtain ⟨session', hrow', hlive, hdid⟩ := validateToken_eq_some.mp (verifyBearer_isOk_iff.mp hok)
      rw [hrow] at hrow'
      cases hrow'
      exact absurd ⟨token, session, hnamed, hrow, hlive, hdid, hbound⟩ hbearer

/-- Parameters that run: the hash of a text is the text. -/
def SessionLibs.sample : SessionLibs := ⟨id, ⟨fun _ => none, fun _ => []⟩, fun _ _ _ => false, id⟩

/-- An account logs in with a key and its session is used without it. -/
theorem bound_session_unproved :
    ∃ issued, (SessionStore.new.registerCredentials .sample "d" "p").createSession .sample "d" "p" "d"
        "jkt" 0 = .ok issued ∧ issued.1.dpopJkt ≠ "" ∧
      (verifyRepoAuth .sample (some issued.2) ⟨"Bearer " ++ issued.1.accessToken, "", "POST", "/"⟩ "d"
        0).1.isOk = true ∧
      ¬ Proved .sample [] issued.1 issued.1.accessToken
        ⟨"Bearer " ++ issued.1.accessToken, "", "POST", "/"⟩ := by
  refine ⟨(SessionStore.new.registerCredentials .sample "d" "p").issue .sample "d" "d" "jkt" 0, ?_,
    by decide +kernel, by decide +kernel, ?_⟩
  · rw [SessionStore.createSession, ensure, if_pos (by decide +kernel)]
    rfl
  · rintro ⟨claims, hparse, -⟩
    simp [parseAndVerifyDpopProof_empty] at hparse

end KappaRegistry.Atproto
