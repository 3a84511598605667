import KappaRegistry.Lib.Pages
import Mathlib.Data.List.Count
import Mathlib.Data.List.Nodup

/-!
# Paged Listings That Roll Items Up

A listing shows each item as a line of its own, or together with others as the line of their
group. `fillPage` fills a page with up to `limit` lines; it passes over items whose group is on the page
already, and stops as soon as the page is full. The next page starts after the item that gave the last
line.

The items of a group stand next to each other, so the items fall into *runs*, one for each line
(`runs`). A page takes the first `limit` runs (`fillPage_runs`), but the next page starts in
the middle of the last one if that run has further items. So the pages show every line once, and there
is a next page exactly while lines are missing, iff the runs are `Aligned` with the limit
(`pageLines_of_aligned`, `aligned_of_pageLines`).
-/

namespace KappaRegistry.Lib

open List

variable {α β : Type} (group : α → Option β)

/-! ## Lines and runs -/

def line (x : α) : α ⊕ β :=
  match group x with
  | some g => .inr g
  | none => .inl x

variable {x : α}

theorem line_of_group {g : β} (h : group x = some g) : line group x = .inr g := by
  rw [line, h]

theorem line_congr {x y : α} (h : group y = group x) (hsome : (group x).isSome) :
    line group y = line group x := by
  obtain ⟨g, hg⟩ := Option.isSome_iff_exists.mp hsome
  rw [line_of_group group hg, line_of_group group (h.trans hg)]

theorem eq_or_group_eq_of_line {x y : α} (h : line group x = line group y) :
    x = y ∨ (group x).isSome ∧ group x = group y := by
  unfold line at h
  cases hx : group x <;> cases hy : group y <;> simp_all

variable {group} in
theorem eq_of_line_eq_inl {x y : α} (h : line group x = .inl y) : x = y := by
  unfold line at h
  split at h
  · cases h
  · exact Sum.inl.inj h

/-- A run of items: the first one, and those that follow in the same line. -/
abbrev Run (α : Type) := α × List α

variable (bs : List (Run α)) (limit : ℕ)

def items : List α := bs.flatMap fun b => b.1 :: b.2

def lines : List (α ⊕ β) := bs.map fun b => line group b.1

@[simp] theorem items_nil : items ([] : List (Run α)) = [] := rfl

@[simp] theorem items_cons (b : Run α) (bs : List (Run α)) :
    items (b :: bs) = b.1 :: (b.2 ++ items bs) := by
  simp [items]

theorem items_append (as bs : List (Run α)) : items (as ++ bs) = items as ++ items bs := by
  simp [items]

theorem length_le_length_items : bs.length ≤ (items bs).length := by
  induction bs with
  | nil => simp
  | cons b bs ih =>
    rw [items_cons, length_cons, length_cons, length_append]
    omega

theorem length_items_eq_iff {bs : List (Run α)} :
    (items bs).length = bs.length ↔ ∀ b ∈ bs, b.2 = [] := by
  induction bs with
  | nil => simp
  | cons b bs ih =>
    have hle := length_le_length_items bs
    rw [items_cons, length_cons, length_cons, length_append, forall_mem_cons,
      ← ih, ← length_eq_zero_iff]
    omega

/-- The items of a run are of one line, and different runs are of different lines. -/
structure IsRuns (bs : List (Run α)) : Prop where
  same : ∀ b ∈ bs, ∀ y ∈ b.2, (group b.1).isSome ∧ group y = group b.1
  distinct : (lines group bs).Nodup

/-- The items of a group stand next to each other. -/
def Contiguous (xs : List α) : Prop :=
  ∀ a b c, [a, b, c].Sublist xs → (group a).isSome → group a = group c → group b = group a

section

variable [DecidableEq β]

def runs : List α → List (Run α)
  | [] => []
  | x :: xs =>
    match runs xs with
    | (y, ys) :: rest =>
      if (group x).isSome ∧ group x = group y then (x, y :: ys) :: rest
      else (x, []) :: (y, ys) :: rest
    | [] => [(x, [])]

theorem items_runs (xs : List α) : items (runs group xs) = xs := by
  induction xs with
  | nil => rfl
  | cons x xs ih =>
    rw [runs]
    cases hruns : runs group xs with
    | nil =>
      rw [hruns] at ih
      rw [← ih]
      rfl
    | cons b rest =>
      obtain ⟨y, ys⟩ := b
      rw [hruns, items_cons] at ih
      by_cases hsame : (group x).isSome ∧ group x = group y
      · simp only [if_pos hsame, items_cons, cons_append, ih]
      · simp only [if_neg hsame, items_cons, nil_append, ih]

variable {group}

theorem isRuns_runs {xs : List α} (hnodup : xs.Nodup) (hcontig : Contiguous group xs) :
    IsRuns group (runs group xs) := by
  induction xs with
  | nil => exact ⟨by simp [runs], nodup_nil⟩
  | cons x xs ih =>
    have ih := ih hnodup.of_cons fun a b c hsub => hcontig a b c (hsub.cons x)
    have hitems := items_runs group xs
    rw [runs]
    cases hruns : runs group xs with
    | nil => exact ⟨by simp, nodup_singleton _⟩
    | cons b rest =>
      obtain ⟨y, ys⟩ := b
      rw [hruns] at ih hitems
      by_cases hsame : (group x).isSome ∧ group x = group y
      · simp only [if_pos hsame]
        constructor
        · intro b hb z hz
          rcases mem_cons.mp hb with rfl | hb
          · rcases mem_cons.mp hz with rfl | hz
            · exact ⟨hsame.1, hsame.2.symm⟩
            · exact ⟨hsame.1, (ih.same _ mem_cons_self z hz).2.trans hsame.2.symm⟩
          · exact ih.same b (mem_cons_of_mem _ hb) z hz
        · have hline := line_congr group hsame.2.symm hsame.1
          have hdistinct := ih.distinct
          rw [lines, map_cons] at hdistinct ⊢
          rwa [← hline]
      · simp only [if_neg hsame]
        constructor
        · intro b hb z hz
          rcases mem_cons.mp hb with rfl | hb
          · cases hz
          · exact ih.same b hb z hz
        · rw [lines, map_cons, nodup_cons]
          refine ⟨?_, ih.distinct⟩
          -- another run of the line of `x` would have its items next to `x`
          intro hmem
          obtain ⟨b, hb, hline⟩ := mem_map.mp hmem
          have hbmem : b.1 ∈ xs := by
            rw [← hitems, items]
            exact mem_flatMap.mpr ⟨b, hb, mem_cons_self⟩
          rcases eq_or_group_eq_of_line group hline.symm with rfl | ⟨hsome, hgroup⟩
          · exact (nodup_cons.mp hnodup).1 hbmem
          · rw [items_cons] at hitems
            rw [← hitems] at hbmem
            rcases mem_cons.mp hbmem with heq | hlater
            · exact hsame ⟨hsome, hgroup.trans (congrArg group heq)⟩
            · have hsub : [x, y, b.1].Sublist (x :: xs) := by
                rw [← hitems]
                exact ((singleton_sublist.mpr hlater).cons_cons y).cons_cons x
              exact hsame ⟨hsome, (hcontig x y b.1 hsub hsome hgroup).symm⟩

end

/-! ## Filling a page -/

/-- A page that is being filled. -/
@[ext] structure RollPage (α β : Type) where
  items : List α
  groups : List β
  last : Option α
  count : ℕ

namespace RollPage

def empty : RollPage α β := ⟨[], [], none, 0⟩

variable (page : RollPage α β)

/-- The page with the line of one more item. -/
def add (x : α) : RollPage α β :=
  match group x with
  | some g => { page with groups := page.groups ++ [g], last := some x, count := page.count + 1 }
  | none => { page with items := page.items ++ [x], last := some x, count := page.count + 1 }

@[simp] theorem count_add (x : α) : (page.add group x).count = page.count + 1 := by
  unfold add
  cases group x <;> rfl

@[simp] theorem last_add (x : α) : (page.add group x).last = some x := by
  unfold add
  cases group x <;> rfl

theorem items_add (x : α) :
    (page.add group x).items = page.items ++ (line group x).getLeft?.toList := by
  unfold add line
  cases group x <;> simp

theorem groups_add (x : α) :
    (page.add group x).groups = page.groups ++ (line group x).getRight?.toList := by
  unfold add line
  cases group x <;> simp

/-- **What a page holds** after the lines of some items were added. -/
theorem foldl_add (xs : List α) (page : RollPage α β) : (xs.foldl (add group) page).items =
        page.items ++ (xs.map (line group)).filterMap Sum.getLeft? ∧
      (xs.foldl (add group) page).groups =
        page.groups ++ (xs.map (line group)).filterMap Sum.getRight? ∧
      (xs.foldl (add group) page).last = xs.getLast?.or page.last ∧
      (xs.foldl (add group) page).count = page.count + xs.length := by
  induction xs generalizing page with
  | nil => simp
  | cons x xs ih =>
    obtain ⟨hitems, hgroups, hlast, hcount⟩ := ih (page.add group x)
    rw [foldl_cons, hitems, hgroups, hlast, hcount, items_add, groups_add, last_add, count_add]
    refine ⟨?_, ?_, ?_, ?_⟩
    · rw [map_cons, filterMap_cons]
      cases line group x <;> simp
    · rw [map_cons, filterMap_cons]
      cases line group x <;> simp
    · cases xs with
      | nil => simp
      | cons y ys =>
        rw [getLast?_cons_cons]
        cases hys : (y :: ys).getLast? with
        | none => simp at hys
        | some z => rfl
    · rw [length_cons]
      omega

end RollPage

section

variable [DecidableEq β]

def fillPage (limit : ℕ) : List α → RollPage α β → RollPage α β
  | [], page => page
  | x :: xs, page =>
    if limit ≤ page.count then page
    else
      match group x with
      | some g => if g ∈ page.groups then fillPage limit xs page
          else fillPage limit xs (page.add group x)
      | none => fillPage limit xs (page.add group x)

variable {group} {limit : ℕ} {page : RollPage α β}

theorem fillPage_full (h : limit ≤ page.count) (xs : List α) :
    fillPage group limit xs page = page := by
  cases xs with
  | nil => rfl
  | cons x xs => rw [fillPage, if_pos h]

theorem fillPage_skip {g : β} (hg : g ∈ page.groups)
    {ys : List α} (hys : ∀ y ∈ ys, group y = some g) (xs : List α) :
    fillPage group limit (ys ++ xs) page = fillPage group limit xs page := by
  induction ys with
  | nil => rfl
  | cons y ys ih =>
    by_cases hfull : limit ≤ page.count
    · rw [fillPage_full hfull, fillPage_full hfull]
    · rw [cons_append, fillPage, if_neg hfull, hys y mem_cons_self]
      show (if g ∈ page.groups then _ else _) = _
      rw [if_pos hg]
      exact ih fun z hz => hys z (mem_cons_of_mem _ hz)

variable {bs : List (Run α)}

/-- **A page takes the first runs**, as many as there is room for. -/
theorem fillPage_runs (hruns : IsRuns group bs)
    (hnew : ∀ g ∈ page.groups, Sum.inr g ∉ lines group bs) : fillPage group limit (items bs) page =
      ((bs.take (limit - page.count)).map Prod.fst).foldl (RollPage.add group) page := by
  induction bs generalizing page with
  | nil => simp [fillPage]
  | cons b bs ih =>
    obtain ⟨x, ys⟩ := b
    by_cases hfull : limit ≤ page.count
    · rw [fillPage_full hfull, Nat.sub_eq_zero_of_le hfull]
      rfl
    have hroom : limit - page.count = (limit - (page.add group x).count) + 1 := by
      rw [RollPage.count_add]
      omega
    have hdistinct := nodup_cons.mp hruns.distinct
    have hrest : IsRuns group bs :=
      ⟨fun b hb => hruns.same b (mem_cons_of_mem _ hb), hdistinct.2⟩
    have hnew' : ∀ g ∈ (page.add group x).groups, Sum.inr g ∉ lines group bs := by
      intro g hg hmem
      rw [RollPage.groups_add, mem_append] at hg
      rcases hg with hg | hg
      · exact hnew g hg (mem_cons_of_mem _ hmem)
      · rw [Option.mem_toList, Sum.getRight?_eq_some_iff] at hg
        apply hdistinct.1
        show line group x ∈ lines group bs
        rwa [hg]
    rw [hroom, take_succ_cons, map_cons, foldl_cons, ← ih hrest hnew', items_cons,
      fillPage, if_neg hfull]
    cases hx : group x with
    | none =>
      -- a run whose items have no group is a single item
      have hys : ys = [] := by
        rw [eq_nil_iff_forall_not_mem]
        intro y hy
        have := (hruns.same _ mem_cons_self y hy).1
        simp [hx] at this
      rw [hys]
      rfl
    | some g =>
      have hnotmem : g ∉ page.groups := by
        intro hg
        apply hnew g hg
        rw [lines, map_cons, line_of_group group hx]
        exact mem_cons_self
      show (if g ∈ page.groups then _ else _) = _
      rw [if_neg hnotmem]
      apply fillPage_skip
      · rw [RollPage.groups_add, line_of_group group hx]
        exact mem_append_right _ mem_cons_self
      · intro y hy
        rwa [(hruns.same _ mem_cons_self y hy).2]

theorem fillPage_empty (hruns : IsRuns group bs) : fillPage group limit (items bs) .empty =
      { items := (lines group (bs.take limit)).filterMap Sum.getLeft?
        groups := (lines group (bs.take limit)).filterMap Sum.getRight?
        last := (bs.take limit).getLast?.map Prod.fst
        count := min limit bs.length } := by
  rw [fillPage_runs hruns fun g hg => absurd hg not_mem_nil]
  obtain ⟨hitems, hgroups, hlast, hcount⟩ := RollPage.foldl_add group
    ((bs.take limit).map Prod.fst) .empty
  rw [map_map] at hitems hgroups
  rw [getLast?_map] at hlast
  rw [length_map, length_take] at hcount
  refine RollPage.ext hitems hgroups (hlast.trans ?_) (hcount.trans (Nat.zero_add _))
  exact Option.or_none

end

/-! ## Pages -/

/-- The runs after a page: what is left of the last run, and those that follow. -/
def restRuns (bs : List (Run α)) : List (Run α) :=
  (match (bs.take limit).getLast? with
    | some (_, y :: ys) => [(y, ys)]
    | _ => []) ++ bs.drop limit

/-- A page: the runs whose lines it shows, and whether it says that there are more. -/
structure RunPage (α : Type) where
  shown : List (Run α)
  more : Bool

def pageLines (pages : List (RunPage α)) : List (α ⊕ β) := pages.flatMap fun page => lines group page.shown

/-- A page, and the runs after it. It says that there are more if it is full and has fewer lines
than there are items. -/
def pageOf (bs : List (Run α)) : Option (RunPage α × Option (List (Run α))) :=
  if limit ≤ bs.length ∧ limit < (items bs).length then
    some (⟨bs.take limit, true⟩, some (restRuns limit bs))
  else some (⟨bs.take limit, false⟩, none)

/-- Every page ends with a run of one item, and if the last page is full, it has no other runs. -/
def Aligned (bs : List (Run α)) : Prop :=
  (∀ i b, bs[i]? = some b → limit ∣ i + 1 → b.2 = []) ∧
    (limit ∣ bs.length → ∀ b ∈ bs.drop (bs.length - limit), b.2 = [])

instance (limit : ℕ) (bs : List (Run α)) : Decidable (Aligned limit bs) :=
  decidable_of_iff ((∀ i : Fin bs.length, limit ∣ i.val + 1 → (bs.get i).2 = []) ∧
      (limit ∣ bs.length → ∀ b ∈ bs.drop (bs.length - limit), b.2 = []))
    (and_congr_left' ⟨fun h _ _ hi hdvd => by
        obtain ⟨hlt, rfl⟩ := List.getElem?_eq_some_iff.mp hi
        exact h ⟨_, hlt⟩ hdvd,
      fun h i hdvd => h i _ (List.getElem?_eq_getElem i.isLt) hdvd⟩)

section

variable {group} {limit : ℕ} {bs : List (Run α)}

section

variable (hlimit : 1 ≤ limit) (h : limit ≤ bs.length)
include hlimit h

theorem exists_last_run :
    ∃ as b, bs.take limit = as ++ [b] ∧ as.length = limit - 1 ∧ bs[limit - 1]? = some b := by
  have hlt : limit - 1 < bs.length := by omega
  refine ⟨bs.take (limit - 1), bs[limit - 1], ?_, by simp; omega, getElem?_eq_getElem hlt⟩
  rw [← take_succ_eq_append_getElem hlt, Nat.sub_add_cancel hlimit]

theorem restRuns_of_single
    (hsingle : ∀ b, bs[limit - 1]? = some b → b.2 = []) : restRuns limit bs = bs.drop limit := by
  obtain ⟨as, ⟨x, ys⟩, htake, -, hget⟩ := exists_last_run hlimit h
  have hys : ys = [] := hsingle _ hget
  rw [restRuns, htake, getLast?_concat, hys]
  rfl

theorem items_eq_append_restRuns :
    ∃ as b, bs.take limit = as ++ [b] ∧ items bs = items as ++ b.1 :: items (restRuns limit bs) := by
  obtain ⟨as, ⟨x, ys⟩, htake, -, -⟩ := exists_last_run hlimit h
  refine ⟨as, (x, ys), htake, ?_⟩
  have hbs : bs = as ++ (x, ys) :: bs.drop limit := by
    conv_lhs => rw [← take_append_drop limit bs, htake]
    simp
  have hrest : items (restRuns limit bs) = ys ++ items (bs.drop limit) := by
    rw [restRuns, htake, getLast?_concat, items_append]
    cases ys with
    | nil => rfl
    | cons y ys => simp
  conv_lhs => rw [hbs]
  rw [items_append, items_cons, hrest]

end

theorem isRuns_drop (hruns : IsRuns group bs) (n : ℕ) : IsRuns group (bs.drop n) := by
  refine ⟨fun b hb => hruns.same b (mem_of_mem_drop hb), ?_⟩
  rw [lines, map_drop]
  exact hruns.distinct.sublist (drop_sublist _ _)

theorem isRuns_restRuns (hlimit : 1 ≤ limit) (h : limit ≤ bs.length) (hruns : IsRuns group bs) :
    IsRuns group (restRuns limit bs) := by
  have hdrop := isRuns_drop hruns limit
  obtain ⟨as, ⟨x, ys⟩, htake, -, hget⟩ := exists_last_run hlimit h
  rw [restRuns, htake, getLast?_concat]
  cases ys with
  | nil => exact hdrop
  | cons y ys =>
    have hsame := hruns.same _ (mem_of_getElem? hget)
    obtain ⟨hsome, hy⟩ := hsame y mem_cons_self
    constructor
    · intro b hb z hz
      rcases mem_cons.mp hb with rfl | hb
      · have hz' := (hsame z (mem_cons_of_mem _ hz)).2
        exact ⟨by rw [hy]; exact hsome, hz'.trans hy.symm⟩
      · exact hdrop.same b hb z hz
    · show (line group y :: lines group (bs.drop limit)).Nodup
      rw [line_congr group hy hsome]
      -- the line of `x` comes before the lines of the runs that follow
      have hdistinct := hruns.distinct
      rw [lines, ← take_append_drop limit bs, htake, append_assoc, map_append] at hdistinct
      exact hdistinct.of_append_right

theorem aligned_of_lt (h : bs.length < limit) : Aligned limit bs := by
  constructor
  · intro i b hi hdvd
    have hlt := (List.getElem?_eq_some_iff.mp hi).1
    have := Nat.le_of_dvd (by omega) hdvd
    omega
  · intro hdvd b hb
    have hzero : bs = [] := by
      rw [← length_eq_zero_iff]
      exact Nat.eq_zero_of_dvd_of_lt hdvd h
    rw [hzero] at hb
    simp at hb

theorem aligned_iff (hlimit : 1 ≤ limit) (h : limit ≤ bs.length) :
    Aligned limit bs ↔ (∀ b, bs[limit - 1]? = some b → b.2 = []) ∧
      (bs.length = limit → ∀ b ∈ bs, b.2 = []) ∧ Aligned limit (bs.drop limit) := by
  have hlength : (bs.drop limit).length = bs.length - limit := length_drop
  constructor
  · intro ⟨hends, hlast⟩
    refine ⟨?_, ?_, ?_, ?_⟩
    · intro b hb
      exact hends _ b hb ⟨1, (Nat.sub_add_cancel hlimit).trans (Nat.mul_one limit).symm⟩
    · intro heq b hb
      apply hlast ⟨1, heq.trans (Nat.mul_one limit).symm⟩
      rwa [heq, Nat.sub_self]
    · intro i b hi hdvd
      rw [getElem?_drop] at hi
      apply hends _ b hi
      rw [Nat.add_assoc]
      exact Nat.dvd_add (Nat.dvd_refl limit) hdvd
    · intro hdvd b hb
      rw [hlength] at hdvd hb
      have hdvd' : limit ∣ bs.length := (Nat.dvd_sub_iff_left h (Nat.dvd_refl limit)).mp hdvd
      rw [drop_drop] at hb
      apply hlast hdvd'
      by_cases hone : bs.length - limit = 0
      · have hnil : bs.drop (limit + (bs.length - limit - limit)) = [] := by
          apply drop_eq_nil_of_le
          omega
        simp [hnil] at hb
      · have hle := Nat.le_of_dvd (by omega) hdvd
        have heq : limit + (bs.length - limit - limit) = bs.length - limit := by omega
        rwa [heq] at hb
  · intro ⟨hend, hsingle, hends, hlast⟩
    constructor
    · intro i b hi hdvd
      by_cases hfirst : i < limit
      · have hle := Nat.le_of_dvd (by omega) hdvd
        have heq : i = limit - 1 := by omega
        rw [heq] at hi
        exact hend b hi
      · obtain ⟨j, rfl⟩ : ∃ j, i = limit + j := ⟨i - limit, by omega⟩
        apply hends j b
        · rwa [getElem?_drop]
        · rw [Nat.add_assoc] at hdvd
          exact (Nat.dvd_add_right (Nat.dvd_refl limit)).mp hdvd
    · intro hdvd b hb
      by_cases hone : bs.length = limit
      · exact hsingle hone b (mem_of_mem_drop hb)
      · have hdvd' : limit ∣ (bs.drop limit).length := by
          rw [hlength]
          exact Nat.dvd_sub hdvd (Nat.dvd_refl limit)
        have hle := Nat.le_of_dvd (by omega) hdvd'
        apply hlast hdvd'
        rw [drop_drop, hlength]
        rw [hlength] at hle
        have heq : limit + (bs.length - limit - limit) = bs.length - limit := by omega
        rwa [heq]

variable (group) in
/-- A page says that there are more iff some line has not been shown. -/
def MoreIffMissing (all : List (α ⊕ β)) (pages : List (RunPage α)) : Prop :=
  ∀ before page after, pages = before ++ page :: after →
    (page.more = true ↔ ∃ l ∈ all, l ∉ pageLines group (before ++ [page]))

@[simp] theorem pageLines_cons (page : RunPage α) (pages : List (RunPage α)) :
    pageLines group (page :: pages) = lines group page.shown ++ pageLines group pages := by
  simp [pageLines]

variable {page : RunPage α} {q : List (α ⊕ β)}

theorem exists_missing_cons (hnodup : (lines group page.shown ++ q).Nodup) (before : List (RunPage α)) :
    (∃ l ∈ lines group page.shown ++ q, l ∉ pageLines group (page :: before)) ↔
      ∃ l ∈ q, l ∉ pageLines group before := by
  rw [pageLines_cons]
  constructor
  · intro ⟨l, hl, hnot⟩
    rw [mem_append, not_or] at hnot
    exact ⟨l, (mem_append.mp hl).resolve_left hnot.1, hnot.2⟩
  · intro ⟨l, hl, hnot⟩
    refine ⟨l, mem_append_right _ hl, ?_⟩
    rw [mem_append, not_or]
    exact ⟨fun hp => (nodup_append.mp hnodup).2.2 l hp l hl rfl, hnot⟩

theorem moreIffMissing_cons (hnodup : (lines group page.shown ++ q).Nodup) (hmore : page.more = true)
    {pages : List (RunPage α)} :
    MoreIffMissing group (lines group page.shown ++ q) (page :: pages) ↔
      q ≠ [] ∧ MoreIffMissing group q pages := by
  constructor
  · intro h
    constructor
    · obtain ⟨l, hl, -⟩ := (exists_missing_cons hnodup []).mp ((h [] page pages rfl).mp hmore)
      exact ne_nil_of_mem hl
    · intro before page' after heq
      rw [h (page :: before) page' after (by rw [heq]; rfl)]
      exact exists_missing_cons hnodup (before ++ [page'])
  · intro ⟨hq, h⟩ before page' after heq
    cases before with
    | nil =>
      obtain ⟨rfl, rfl⟩ := cons.inj heq
      obtain ⟨l, hl⟩ := exists_mem_of_ne_nil q hq
      exact ⟨fun _ => (exists_missing_cons hnodup []).mpr ⟨l, hl, not_mem_nil⟩, fun _ => hmore⟩
    | cons first before =>
      obtain ⟨rfl, hpages⟩ := cons.inj heq
      rw [h before page' after hpages]
      exact (exists_missing_cons hnodup (before ++ [page'])).symm

end

/-! ## When the pages are exact -/

variable {ls : List (α ⊕ β)}

theorem mem_filterMap_getLeft : x ∈ ls.filterMap Sum.getLeft? ↔ Sum.inl x ∈ ls := by
  simp [mem_filterMap]

theorem mem_filterMap_getRight {g : β} : g ∈ ls.filterMap Sum.getRight? ↔ Sum.inr g ∈ ls := by
  simp [mem_filterMap]

section

variable {group} {limit : ℕ} {bs : List (Run α)}

theorem pageOf_more (h : limit ≤ bs.length ∧ limit < (items bs).length) :
    pageOf limit bs = some (⟨bs.take limit, true⟩, some (restRuns limit bs)) :=
  if_pos h

theorem pageOf_last (h : ¬ (limit ≤ bs.length ∧ limit < (items bs).length)) :
    pageOf limit bs = some (⟨bs.take limit, false⟩, none) :=
  if_neg h

theorem exists_follow_pageOf (hlimit : 1 ≤ limit) (bs : List (Run α)) :
    ∃ pages, follow (pageOf limit) ((items bs).length + 1) bs = some pages := by
  generalize hn : (items bs).length = n
  induction n using Nat.strongRecOn generalizing bs with
  | _ n ih =>
    by_cases hmore : limit ≤ bs.length ∧ limit < (items bs).length
    · obtain ⟨as, b, -, hitems⟩ := items_eq_append_restRuns hlimit hmore.1
      have hlt : (items (restRuns limit bs)).length < n := by
        rw [← hn, hitems, length_append, length_cons]
        omega
      obtain ⟨rest, hrest⟩ := ih _ hlt (restRuns limit bs) rfl
      rw [follow_next (pageOf_more hmore), follow_mono hrest hlt]
      exact ⟨_, rfl⟩
    · exact ⟨_, follow_last (pageOf_last hmore) n⟩

variable {fuel : ℕ} {pages : List (RunPage α)}

theorem follow_pageOf_cases (h : follow (pageOf limit) fuel bs = some pages) :
    (¬ (limit ≤ bs.length ∧ limit < (items bs).length) ∧ pages = [⟨bs.take limit, false⟩]) ∨
      (limit ≤ bs.length ∧ limit < (items bs).length ∧ ∃ n rest, n < fuel ∧
        follow (pageOf limit) n (restRuns limit bs) = some rest ∧
        pages = ⟨bs.take limit, true⟩ :: rest) := by
  cases fuel with
  | zero => cases h
  | succ fuel =>
    by_cases hmore : limit ≤ bs.length ∧ limit < (items bs).length
    · rw [follow_next (pageOf_more hmore)] at h
      obtain ⟨rest, hrest, rfl⟩ := Option.map_eq_some_iff.mp h
      exact .inr ⟨hmore.1, hmore.2, fuel, rest, Nat.lt_succ_self _, hrest, rfl⟩
    · rw [follow_last (pageOf_last hmore)] at h
      cases h
      exact .inl ⟨hmore, rfl⟩

theorem last_page (h : ¬ (limit ≤ bs.length ∧ limit < (items bs).length)) :
    bs.take limit = bs ∧ Aligned limit bs := by
  by_cases hfull : limit ≤ bs.length
  · have hle := length_le_length_items bs
    have hsingle : ∀ b ∈ bs, b.2 = [] := length_items_eq_iff.mp (by omega)
    refine ⟨take_of_length_le (by omega), ?_, ?_⟩
    · intro i b hi _
      exact hsingle b (mem_of_getElem? hi)
    · intro _ b hb
      exact hsingle b (mem_of_mem_drop hb)
  · exact ⟨take_of_length_le (by omega), aligned_of_lt (by omega)⟩

theorem mem_items_of_shown (hlimit : 1 ≤ limit) (h : follow (pageOf limit) fuel bs = some pages)
    {page : RunPage α} (hpage : page ∈ pages) {b : Run α} (hb : b ∈ page.shown) :
    b.1 ∈ items bs := by
  have hfirst : ∀ b ∈ bs.take limit, b.1 ∈ items bs := by
    intro b hb
    exact mem_flatMap.mpr ⟨b, mem_of_mem_take hb, mem_cons_self⟩
  induction fuel using Nat.strongRecOn generalizing bs pages with
  | _ fuel ih =>
    rcases follow_pageOf_cases h with ⟨-, rfl⟩ | ⟨hfull, -, n, rest, hn, hrest, rfl⟩
    · rw [mem_singleton] at hpage
      rw [hpage] at hb
      exact hfirst b hb
    rcases mem_cons.mp hpage with rfl | hpage
    · exact hfirst b hb
    · obtain ⟨as, last, -, hitems⟩ := items_eq_append_restRuns hlimit hfull
      have hmem := ih n hn hrest hpage fun b hb =>
        mem_flatMap.mpr ⟨b, mem_of_mem_take hb, mem_cons_self⟩
      rw [hitems]
      exact mem_append_right _ (mem_cons_of_mem _ hmem)

theorem lines_eq_append (limit : ℕ) (bs : List (Run α)) :
    lines group bs = lines group (bs.take limit) ++ lines group (bs.drop limit) := by
  rw [lines, lines, lines, ← map_append, take_append_drop]

/-- **Pages of aligned runs are exact.** -/
theorem pageLines_of_aligned (hlimit : 1 ≤ limit) (hruns : IsRuns group bs)
    (haligned : Aligned limit bs) (h : follow (pageOf limit) fuel bs = some pages) :
    pageLines group pages = lines group bs ∧ MoreIffMissing group (lines group bs) pages := by
  induction fuel using Nat.strongRecOn generalizing bs pages with
  | _ fuel ih =>
    rcases follow_pageOf_cases h with ⟨hlast, rfl⟩ | ⟨hfull, hmore, n, rest, hn, hrest, rfl⟩
    · rw [(last_page hlast).1]
      refine ⟨by simp [pageLines], ?_⟩
      intro before page after heq
      cases before with
      | nil =>
        obtain ⟨rfl, rfl⟩ := cons.inj heq
        simp [pageLines]
      | cons first before =>
        have hnil := (cons.inj heq).2
        simp at hnil
    · obtain ⟨hend, hsingle, hdrop⟩ := (aligned_iff hlimit hfull).mp haligned
      rw [restRuns_of_single hlimit hfull hend] at hrest
      obtain ⟨hshown, hmissing⟩ := ih n hn (isRuns_drop hruns limit) hdrop hrest
      have hq : lines group (bs.drop limit) ≠ [] := by
        intro hnil
        have hzero : (lines group (bs.drop limit)).length = 0 := by rw [hnil]; rfl
        rw [lines, length_map, length_drop] at hzero
        have heq : bs.length = limit := by omega
        have := length_items_eq_iff.mpr (hsingle heq)
        omega
      have hnodup := hruns.distinct
      rw [lines_eq_append limit bs] at hnodup ⊢
      exact ⟨by rw [pageLines_cons, hshown], (moreIffMissing_cons hnodup rfl).mpr ⟨hq, hmissing⟩⟩

variable [DecidableEq β]

/-- **Exact pages are pages of aligned runs.** -/
theorem aligned_of_pageLines (hlimit : 1 ≤ limit) (hruns : IsRuns group bs)
    (h : follow (pageOf limit) fuel bs = some pages)
    (hgroups : ∀ g, Sum.inr g ∈ lines group bs →
      ((pageLines group pages).filterMap Sum.getRight?).count g = 1)
    (hmissing : MoreIffMissing group (lines group bs) pages) : Aligned limit bs := by
  induction fuel using Nat.strongRecOn generalizing bs pages with
  | _ fuel ih =>
    rcases follow_pageOf_cases h with ⟨hlast, rfl⟩ | ⟨hfull, hmore, n, rest, hn, hrest, rfl⟩
    · exact (last_page hlast).2
    rw [lines_eq_append limit bs] at hgroups hmissing
    have hnodup := hruns.distinct
    rw [lines_eq_append limit bs] at hnodup
    have hend : ∀ b, bs[limit - 1]? = some b → b.2 = [] := by
      intro b hb
      by_contra hne
      -- the rest of the run opens the next page, and shows its group again
      obtain ⟨as, b', htake, -, hget⟩ := exists_last_run hlimit hfull
      rw [hb] at hget
      cases hget
      obtain ⟨x, ys⟩ := b
      obtain ⟨y, ys, rfl⟩ := exists_cons_of_ne_nil hne
      obtain ⟨hsome, hy⟩ := hruns.same _ (mem_of_getElem? hb) y mem_cons_self
      obtain ⟨g, hg⟩ := Option.isSome_iff_exists.mp hsome
      have hfirst : Sum.inr g ∈ lines group (bs.take limit) := by
        rw [htake, lines, map_append]
        exact mem_append_right _ (by simp [line_of_group group hg])
      have hagain : Sum.inr g ∈ pageLines group rest := by
        have hopens : Sum.inr g ∈ lines group ((restRuns limit bs).take limit) := by
          obtain ⟨n, rfl⟩ : ∃ n, limit = n + 1 := ⟨limit - 1, by omega⟩
          rw [restRuns, htake, getLast?_concat]
          show Sum.inr g ∈ line group y :: _
          rw [line_of_group group (hy.trans hg)]
          exact mem_cons_self
        rcases follow_pageOf_cases hrest with ⟨-, rfl⟩ | ⟨-, -, n', rest', -, -, rfl⟩ <;>
          exact pageLines_cons _ _ ▸ mem_append_left _ hopens
      have hcount := hgroups g (mem_append_left _ hfirst)
      rw [pageLines_cons, filterMap_append, count_append] at hcount
      dsimp only at hcount
      have hone := count_pos_iff.mpr (mem_filterMap_getRight.mpr hfirst)
      have htwo := count_pos_iff.mpr (mem_filterMap_getRight.mpr hagain)
      omega
    rw [restRuns_of_single hlimit hfull hend] at hrest
    obtain ⟨hq, hmissing⟩ := (moreIffMissing_cons hnodup rfl).mp hmissing
    rw [aligned_iff hlimit hfull]
    refine ⟨hend, ?_, ih n hn (isRuns_drop hruns limit) hrest ?_ hmissing⟩
    · intro heq
      exact absurd (by rw [lines, drop_of_length_le (by omega)]; rfl) hq
    · intro g hg
      have hcount := hgroups g (mem_append_right _ hg)
      have hnot : g ∉ (lines group (bs.take limit)).filterMap Sum.getRight? := fun hp =>
        (nodup_append.mp hnodup).2.2 _ (mem_filterMap_getRight.mp hp) _ hg rfl
      rw [pageLines_cons, filterMap_append, count_append,
        count_eq_zero_of_not_mem hnot, Nat.zero_add] at hcount
      exact hcount

theorem count_groups_lines (hruns : IsRuns group bs) {g : β} (hg : Sum.inr g ∈ lines group bs) :
    ((lines group bs).filterMap Sum.getRight?).count g = 1 := by
  have hnodup : ((lines group bs).filterMap Sum.getRight?).Nodup := by
    apply hruns.distinct.filterMap
    intro a b g hga hgb
    rw [Option.mem_def, Sum.getRight?_eq_some_iff] at hga hgb
    rw [hga, hgb]
  exact count_eq_one_of_mem hnodup (mem_filterMap_getRight.mpr hg)

end

end KappaRegistry.Lib
