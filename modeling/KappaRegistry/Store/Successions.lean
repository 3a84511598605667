import KappaRegistry.Lib.Except
import KappaRegistry.Store

/-!
# Succession Chains

`identity_succession_resolve` and `identity_succession_chain` run the same loop in both stores. Its
bound counts the anchors visited, the first included, so it stops after nine hops and not after the
ten that the store interface documents: `agrees_iff`.
-/

namespace KappaRegistry

open Lib

variable {t : Table String String}

/-- The loop of `identity_succession_chain` at `current`, after `chain` and the anchors in
`visited`, with room for `room` more. -/
def successionChainFrom (successions : Table String String) :
    ℕ → List String → List String → String → Except StoreError (List String)
  | room, visited, chain, current =>
    match successions[current]? with
    | none => .ok chain
    | some next =>
      if next ∈ visited then .error (.rejected ("succession cycle detected at " ++ next))
      else
        match room with
        | 0 => .error (.rejected "succession chain exceeds 10 hops")
        | room + 1 => successionChainFrom successions room (next :: visited) (chain ++ [next]) next

/-- `identity_succession_chain`: an anchor and its successors in order. -/
def successionChain (successions : Table String String) (anchor : String) :
    Except StoreError (List String) :=
  successionChainFrom successions 9 [anchor] [anchor] anchor

/-- The anchor `n` hops after another. -/
def hops (t : Table String String) : ℕ → String → Option String
  | 0, a => some a
  | n + 1, a => t[a]?.bind (hops t n)

/-- The path from `a` ends after `n` hops in `b`. -/
def Ends (t : Table String String) (n : ℕ) (a b : String) : Prop :=
  hops t n a = some b ∧ t[b]? = none

/-- What the store interface promises: paths of up to ten hops are followed to their end, others
are refused. -/
def Agrees (t : Table String String) (a : String) : Prop :=
  (∀ n b, n ≤ 10 → Ends t n a b → successionResolve t a = .ok b ∧
    ∃ chain, successionChain t a = .ok chain ∧ chain.getLast? = some b) ∧
  ((¬ ∃ n b, n ≤ 10 ∧ Ends t n a b) → ∃ e, successionResolve t a = .error e)

theorem hops_add (n m : ℕ) (a : String) : hops t (n + m) a = (hops t n a).bind (hops t m) := by
  induction n generalizing a with
  | zero => rw [Nat.zero_add]; rfl
  | succ n ih =>
    rw [Nat.succ_add]
    show t[a]?.bind (hops t (n + m)) = (t[a]?.bind (hops t n)).bind (hops t m)
    rw [Option.bind_assoc]
    congr 1
    funext b
    exact ih b

variable {b : String}

theorem hops_succ_of_none (h : t[b]? = none) (n : ℕ) : hops t (n + 1) b = none := by
  rw [hops, h]
  rfl

variable {a : String}

/-- A path has one end. -/
theorem Ends.length_eq {n m : ℕ} {c : String} (hb : Ends t n a b) (hc : Ends t m a c) : n = m := by
  have hle : ∀ {n m b c}, Ends t n a b → Ends t m a c → m ≤ n := by
    intro n m b c hb hc
    by_contra hlt
    obtain ⟨k, rfl⟩ := Nat.exists_eq_add_of_lt (Nat.not_le.mp hlt)
    have h := hc.1
    rw [Nat.add_assoc, hops_add, hb.1, Option.bind_some, hops_succ_of_none hb.2] at h
    cases h
  exact Nat.le_antisymm (hle hc hb) (hle hb hc)

/-- A path that comes back has no end. -/
theorem not_ends_of_cycle {k n : ℕ} (hk : hops t (k + 1) a = some a) : ¬ Ends t n a b := by
  intro h
  have h' : Ends t (k + 1 + n) a b := ⟨by rw [hops_add, hk]; exact h.1, h.2⟩
  have := h.length_eq h'
  omega

variable {room : ℕ} {visited : List String}

theorem ends_of_successionResolveFrom (h : successionResolveFrom t room visited a = .ok b) : ∃ n, n ≤ room ∧ Ends t n a b := by
  induction room generalizing visited a with
  | zero =>
    unfold successionResolveFrom at h
    split at h
    · rename_i hnone
      cases h
      exact ⟨0, le_refl 0, rfl, hnone⟩
    · split at h <;> cases h
  | succ room ih =>
    unfold successionResolveFrom at h
    split at h
    · rename_i hnone
      cases h
      exact ⟨0, Nat.zero_le _, rfl, hnone⟩
    · rename_i next hnext
      split at h
      · cases h
      · obtain ⟨n, hn, hends⟩ := ih h
        exact ⟨n + 1, Nat.succ_le_succ hn, by rw [hops, hnext]; exact hends.1, hends.2⟩

/-- The anchors visited lie on the way to the current one, so only a cycle leads back to them. -/
theorem successionResolveFrom_of_ends {room n : ℕ}
    (hvisited : ∀ v ∈ visited, ∃ k, hops t k v = some a) (h : Ends t n a b) (hn : n ≤ room) :
    successionResolveFrom t room visited a = .ok b := by
  induction n generalizing room visited a with
  | zero =>
    obtain rfl := Option.some.inj h.1
    unfold successionResolveFrom
    rw [h.2]
  | succ n ih =>
    obtain ⟨room, rfl⟩ := Nat.exists_eq_add_of_le' (Nat.zero_lt_of_lt hn)
    obtain ⟨next, hnext, hrest⟩ := Option.bind_eq_some_iff.mp h.1
    have hback : ∀ v ∈ visited, ∃ k, hops t (k + 1) v = some next := by
      intro v hv
      obtain ⟨k, hk⟩ := hvisited v hv
      exact ⟨k, by rw [hops_add, hk, Option.bind_some, hops, hnext]; rfl⟩
    have hfresh : next ∉ visited := by
      intro hmem
      obtain ⟨k, hk⟩ := hback next hmem
      exact not_ends_of_cycle hk ⟨hrest, h.2⟩
    unfold successionResolveFrom
    rw [hnext]
    simp only [hfresh, if_false]
    refine ih ?_ ⟨hrest, h.2⟩ (Nat.le_of_succ_le_succ hn)
    intro v hv
    rcases List.mem_cons.mp hv with rfl | hv
    · exact ⟨0, rfl⟩
    · obtain ⟨k, hk⟩ := hback v hv
      exact ⟨k + 1, hk⟩

theorem successionResolve_eq_ok : successionResolve t a = .ok b ↔ ∃ n, n ≤ 9 ∧ Ends t n a b := by
  refine ⟨ends_of_successionResolveFrom, fun ⟨n, hn, h⟩ => successionResolveFrom_of_ends ?_ h hn⟩
  intro v hv
  exact ⟨0, congrArg some (List.mem_singleton.mp hv)⟩

/-- The two loops stop together. -/
theorem getLast_successionChainFrom {chain : List String} (h : chain.getLast? = some a) :
    (successionChainFrom t room visited chain a).map List.getLast? =
      (successionResolveFrom t room visited a).map some := by
  induction room generalizing visited chain a with
  | zero =>
    unfold successionChainFrom successionResolveFrom
    cases t[a]? with
    | none => exact congrArg Except.ok h
    | some next =>
      dsimp only
      split_ifs <;> rfl
  | succ room ih =>
    unfold successionChainFrom successionResolveFrom
    cases t[a]? with
    | none => exact congrArg Except.ok h
    | some next =>
      dsimp only
      split_ifs
      · rfl
      · exact ih List.getLast?_concat

theorem exists_successionChain (h : successionResolve t a = .ok b) :
    ∃ chain, successionChain t a = .ok chain ∧ chain.getLast? = some b := by
  have hmap : (successionChain t a).map List.getLast? = (successionResolve t a).map some :=
    getLast_successionChainFrom rfl
  rw [h] at hmap
  exact Lib.map_eq_ok.mp hmap

theorem not_agrees_of_ends (h : Ends t 10 a b) : ¬ Agrees t a := by
  intro hagrees
  obtain ⟨n, hn, hends⟩ := successionResolve_eq_ok.mp (hagrees.1 10 b (le_refl 10) h).1
  have := h.length_eq hends
  omega

/-- **Resolution and chain.** -/
theorem agrees_iff (t : Table String String) (a : String) :
    Agrees t a ↔ ¬ ∃ b, Ends t 10 a b := by
  refine ⟨fun h ⟨b, hb⟩ => not_agrees_of_ends hb h, fun hten => ⟨?_, ?_⟩⟩
  · intro n b hn hends
    have hne : n ≠ 10 := by
      rintro rfl
      exact hten ⟨b, hends⟩
    have hresolve : successionResolve t a = .ok b :=
      successionResolve_eq_ok.mpr ⟨n, by omega, hends⟩
    exact ⟨hresolve, exists_successionChain hresolve⟩
  · intro hno
    cases hresolve : successionResolve t a with
    | error e => exact ⟨e, rfl⟩
    | ok b =>
      obtain ⟨n, hn, hends⟩ := successionResolve_eq_ok.mp hresolve
      exact absurd ⟨n, b, by omega, hends⟩ hno

def tenHops : Table String String :=
  (["0", "1", "2", "3", "4", "5", "6", "7", "8", "9"].zip
    ["1", "2", "3", "4", "5", "6", "7", "8", "9", "10"]).foldl (fun t hop => t.insert hop.1 hop.2) ∅

/-- The path of ten hops is not followed. -/
theorem not_agrees_tenHops : ¬ Agrees tenHops "0" := by
  refine not_agrees_of_ends (b := "10") ⟨?_, by simp [tenHops]⟩
  simp only [hops, tenHops, List.zip, List.zipWith, List.foldl, Table.get_insert, String.reduceEq,
    ↓reduceIte, Option.bind_some]

end KappaRegistry
