import Mathlib.Algebra.Group.Nat.Defs
import Mathlib.Data.Option.Basic

/-!
# Following a Paged Listing

A server hands out a long list in pages: a request is answered by a page, and by the request for
the next one if there is one. `follow step fuel s` are the pages that a client sees who starts with
the request `s`, and `none` if they did not end within the fuel.

The result does not depend on the fuel (`follow_mono`), and two servers that answer related
requests with related pages show the same list (`follow_sim`). Pages of a list by cursors give it
back iff each starts where the client stands (`follow_flatten_iff`).
-/

namespace KappaRegistry.Lib

variable {σ τ α β : Type}

def follow (step : σ → Option (α × Option σ)) : ℕ → σ → Option (List α)
  | 0, _ => none
  | fuel + 1, s =>
    match step s with
    | none => none
    | some (page, none) => some [page]
    | some (page, some next) => (follow step fuel next).map (page :: ·)

variable {step : σ → Option (α × Option σ)} {s : σ} {page : α}

theorem follow_last (h : step s = some (page, none))
    (fuel : ℕ) : follow step (fuel + 1) s = some [page] := by
  rw [follow, h]

theorem follow_next {next : σ} (h : step s = some (page, some next)) (fuel : ℕ) :
    follow step (fuel + 1) s = (follow step fuel next).map (page :: ·) := by
  rw [follow, h]

theorem follow_mono {fuel fuel' : ℕ} {pages : List α}
    (h : follow step fuel s = some pages) (hle : fuel ≤ fuel') : follow step fuel' s = some pages := by
  induction fuel generalizing s pages fuel' with
  | zero => cases h
  | succ fuel ih =>
    obtain ⟨fuel', rfl⟩ : ∃ n, fuel' = n + 1 := ⟨fuel' - 1, by omega⟩
    rw [follow] at h ⊢
    split at h
    · cases h
    · exact h
    · rename_i page next hstep
      obtain ⟨rest, hrest, rfl⟩ := Option.map_eq_some_iff.mp h
      rw [ih hrest (by omega)]
      rfl

/-- **Servers that answer alike show the same pages.** -/
theorem follow_sim {step' : τ → Option (β × Option τ)} {R : σ → τ → Prop} {f : β → α}
    (hstep : ∀ s t, R s t → ∃ page next next', step' t = some (page, next') ∧
      step s = some (f page, next) ∧ Option.Rel R next next')
    {t : τ} (h : R s t) (fuel : ℕ) :
    follow step fuel s = (follow step' fuel t).map (List.map f) := by
  induction fuel generalizing s t with
  | zero => rfl
  | succ fuel ih =>
    obtain ⟨page, next, next', hstep', hstep, hrel⟩ := hstep s t h
    cases hrel with
    | none =>
      rw [follow_last hstep, follow_last hstep']
      rfl
    | some hnext =>
      rw [follow_next hstep, follow_next hstep', ih hnext, Option.map_map, Option.map_map]
      rfl

theorem follow_cons {next : Option σ} (h : step s = some (page, next)) {fuel : ℕ} {pages : List α}
    (hpages : follow step fuel s = some pages) : ∃ later, pages = page :: later ∧
      ∀ t, next = some t → ∃ fuel, follow step fuel t = some later := by
  cases fuel with
  | zero => cases hpages
  | succ fuel =>
    cases next with
    | none =>
      rw [follow_last h] at hpages
      cases hpages
      exact ⟨[], rfl, nofun⟩
    | some t =>
      rw [follow_next h] at hpages
      obtain ⟨later, hlater, rfl⟩ := Option.map_eq_some_iff.mp hpages
      refine ⟨later, rfl, ?_⟩
      rintro _ ⟨⟩
      exact ⟨fuel, hlater⟩

/-! ## Pages of a list, by cursors -/

section

variable {xs : List α} {limit : ℕ} (hnodup : xs.Nodup) (hlimit : 1 ≤ limit)
include hnodup hlimit

/-- A page that begins what is left of a list starts where that begins. -/
theorem start_of_append {m n : ℕ} {later : List α} (hm : m ≤ min n xs.length)
    (h : (xs.drop m).take limit ++ later = xs.drop n) : m = min n xs.length := by
  by_contra hne
  have hlt : m < xs.length := by omega
  have hpos : 0 < ((xs.drop m).take limit).length := by
    rw [List.length_take, List.length_drop]
    omega
  have hzero := congrArg (·[0]?) h
  rw [List.getElem?_append_left hpos, List.getElem?_take_of_lt (by omega), List.getElem?_drop,
    List.getElem?_drop] at hzero
  have := (List.getElem?_inj hlt hnodup).mp hzero
  omega

/-- **The pages of a client who has seen `n` elements** are the other ones, iff each page starts
where the client stands. The client stands at `cursor n`, and a page starts at `start`. -/
theorem follow_flatten_iff {step : σ → Option (List α × Option σ)} {cursor : ℕ → σ} {start : σ → ℕ}
    (hstart : ∀ n, start (cursor n) ≤ min n xs.length)
    (hend : ∀ n, xs.length ≤ n → cursor n = cursor xs.length)
    (hstep : ∀ n, step (cursor n) = some ((xs.drop (start (cursor n))).take limit,
      if xs.length ≤ start (cursor n) then none else some (cursor (start (cursor n) + limit))))
    (n : ℕ) : (∃ fuel pages, follow step fuel (cursor n) = some pages ∧ pages.flatten = xs.drop n) ↔
      ∀ k, start (cursor (n + k * limit)) = min (n + k * limit) xs.length := by
  induction hrest : xs.length - n using Nat.strongRecOn generalizing n with
  | ind rest ih =>
  have hpage := hstep n
  rcases Nat.lt_or_ge n xs.length with hlt | hle
  · have hnext := ih (xs.length - (n + limit)) (by omega) (n + limit) rfl
    have hshift : ∀ k, n + (k + 1) * limit = n + limit + k * limit := by
      intro k
      rw [Nat.succ_mul]
      omega
    have hsplit := List.take_append_drop limit (xs.drop n)
    rw [List.drop_drop] at hsplit
    constructor
    · intro ⟨fuel, pages, hfollow, hflat⟩
      obtain ⟨later, rfl, hlater⟩ := follow_cons hpage hfollow
      have hn := start_of_append hnodup hlimit (hstart n) hflat
      rw [hn, Nat.min_eq_left (Nat.le_of_lt hlt)] at hflat hlater
      obtain ⟨fuel', hfollow'⟩ := hlater _ (if_neg (Nat.not_le.mpr hlt))
      have hrest := hnext.mp ⟨fuel', later, hfollow', List.append_cancel_left (hflat.trans hsplit.symm)⟩
      intro k
      cases k with
      | zero => simpa using hn
      | succ k => simpa only [hshift] using hrest k
    · intro hall
      have hn : start (cursor n) = n := by simpa [Nat.min_eq_left (Nat.le_of_lt hlt)] using hall 0
      obtain ⟨fuel, pages, hfollow, hflat⟩ := hnext.mpr fun k => by simpa only [hshift] using hall (k + 1)
      rw [hn, if_neg (Nat.not_le.mpr hlt)] at hpage
      refine ⟨fuel + 1, (xs.drop n).take limit :: pages, ?_, ?_⟩
      · rw [follow_next hpage, hfollow]
        rfl
      · rw [List.flatten_cons, hflat, hsplit]
  · have hlast : xs.drop n = [] := List.drop_eq_nil_of_le hle
    constructor
    · intro ⟨fuel, pages, hfollow, hflat⟩ k
      obtain ⟨later, rfl, -⟩ := follow_cons hpage hfollow
      have hn := start_of_append hnodup hlimit (hstart n) hflat
      rw [hend n hle, Nat.min_eq_right hle] at hn
      rw [hend _ (by omega), hn]
      omega
    · intro hall
      have hn : start (cursor n) = xs.length := by simpa [Nat.min_eq_right hle] using hall 0
      rw [hn, if_pos (Nat.le_refl _), List.drop_length, List.take_nil] at hpage
      exact ⟨1, [[]], follow_last hpage 0, hlast.symm⟩

end

end KappaRegistry.Lib
