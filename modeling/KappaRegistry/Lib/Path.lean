import KappaRegistry.Lib.Split
import KappaRegistry.Lib.Text

/-!
# Paths

Unix paths as texts, joined as `Path::join` joins them: a path is appended after a slash, unless
it is absolute, and then it replaces what was there. A `Location` is what a path stands for when
`.` and `..` are resolved by the names alone, without asking the file system.

`normalise_pathJoin` says that joining a relative path is walking on from where the first path
leads, and `walk_eq` that such a walk is the same from everywhere: it climbs some levels and then
descends through some names. Whether a location is `Inside` a directory is a comparison of names.
-/

namespace KappaRegistry.Lib

open String List

/-! ## Joining -/

variable (p q : String)

def isAbsolute : Bool := startsWith p "/"

/-- `Path::join`. -/
def pathJoin : String :=
  if isAbsolute q then q
  else if p = "" || endsWith p "/" then p ++ q
  else p ++ "/" ++ q

def components : List String := (pieces '/' p.toList).map String.ofList

/-! ## Locations -/

/-- Where a path leads: levels above the starting point, and then names to descend through. -/
structure Location where
  absolute : Bool
  ups : ℕ
  names : List String
  root_top : absolute = true → ups = 0
  deriving DecidableEq

namespace Location

@[ext] theorem ext {l l' : Location} (ha : l.absolute = l'.absolute) (hu : l.ups = l'.ups)
    (hn : l.names = l'.names) : l = l' := by
  cases l
  cases l'
  simp_all

def start (absolute : Bool) : Location := ⟨absolute, 0, [], fun _ => rfl⟩

variable (l : Location) (names : List String) (name : String) (n : ℕ)

/-- Down through some names. -/
def descend : Location :=
  { l with names := l.names ++ names }

/-- One level up; the root is its own parent. -/
def up : Location where
  absolute := l.absolute
  ups := if l.names = [] ∧ l.absolute = false then l.ups + 1 else l.ups
  names := l.names.dropLast
  root_top ha := by
    rw [if_neg (by simp [ha])]
    exact l.root_top ha

def enter : Location :=
  if name = "" ∨ name = "." then l else if name = ".." then l.up else l.descend [name]

/-- The components of a path, one after the other. -/
def walk : Location := names.foldl enter l

def climb (l : Location) : ℕ → Location
  | 0 => l
  | n + 1 => (l.climb n).up

/-- `l` is below `dir`, and not `dir` itself. -/
def Inside (dir l : Location) : Prop :=
  l.absolute = dir.absolute ∧ l.ups = dir.ups ∧ ∃ rest, rest ≠ [] ∧ l.names = dir.names ++ rest

@[simp] theorem walk_append (as bs : List String) :
    l.walk (as ++ bs) = (l.walk as).walk bs := foldl_append

theorem enter_empty : l.enter "" = l := by simp [enter]

theorem enter_name {name : String} (h : name ≠ "" ∧ name ≠ "." ∧ name ≠ "..") :
    l.enter name = l.descend [name] := by
  simp [enter, h.1, h.2.1, h.2.2]

@[simp] theorem up_absolute : l.up.absolute = l.absolute := rfl

@[simp] theorem up_names : l.up.names = l.names.dropLast := rfl

theorem up_ups_of_top {l : Location} (h : l.names = []) (ha : l.absolute = false) :
    l.up.ups = l.ups + 1 := if_pos ⟨h, ha⟩

theorem up_ups_of_names {l : Location} (h : l.names ≠ []) : l.up.ups = l.ups :=
  if_neg fun hn => h hn.1

@[simp] theorem descend_absolute : (l.descend names).absolute = l.absolute := rfl

@[simp] theorem descend_ups : (l.descend names).ups = l.ups := rfl

@[simp] theorem descend_names : (l.descend names).names = l.names ++ names := rfl

@[simp] theorem descend_nil : l.descend [] = l := ext rfl rfl (by simp)

@[simp] theorem descend_descend (as bs : List String) :
    (l.descend as).descend bs = l.descend (as ++ bs) := ext rfl rfl (by simp)

theorem climb_names : (l.climb n).names = l.names.take (l.names.length - n) := by
  induction n with
  | zero => simp [climb]
  | succ n ih =>
    simp only [climb, up, ih, dropLast_eq_take, take_take, length_take]
    congr 1
    omega

@[simp] theorem climb_absolute : (l.climb n).absolute = l.absolute := by
  induction n with
  | zero => rfl
  | succ n ih => exact ih

theorem climb_ups :
    (l.climb n).ups = if l.absolute = true then 0 else l.ups + (n - l.names.length) := by
  by_cases ha : l.absolute = true
  · rw [if_pos ha]
    exact (l.climb n).root_top (by simp [ha])
  rw [if_neg ha]
  induction n with
  | zero => simp [climb]
  | succ n ih =>
    have hlen : (l.climb n).names.length = l.names.length - n := by
      rw [climb_names, length_take]
      omega
    by_cases htop : (l.climb n).names = []
    · rw [climb, up_ups_of_top htop (by simpa using ha), ih]
      rw [htop, length_nil] at hlen
      omega
    · rw [climb, up_ups_of_names htop, ih]
      have := length_pos_of_ne_nil htop
      omega

/-- From `l`, the levels up and the names down that a relative location stands for. -/
def follow (r : Location) : Location := (l.climb r.ups).descend r.names

theorem follow_enter {r : Location} (hr : r.absolute = false) (name : String) :
    l.follow (r.enter name) = (l.follow r).enter name := by
  unfold enter
  by_cases hskip : name = "" ∨ name = "."
  · rw [if_pos hskip, if_pos hskip]
  rw [if_neg hskip, if_neg hskip]
  by_cases hup : name = ".."
  · rw [if_pos hup, if_pos hup]
    by_cases hnames : r.names = []
    · -- the walk is at its highest point, and climbs on
      simp only [follow, up_names, up_ups_of_top hnames hr, hnames, dropLast_nil,
        descend_nil, climb]
    · have hne : (l.follow r).names ≠ [] := by simp [follow, hnames]
      apply ext
      · simp [follow]
      · rw [up_ups_of_names hne]
        simp [follow, up_ups_of_names hnames]
      · simp [follow, up_ups_of_names hnames, dropLast_append_of_ne_nil hnames]
  · rw [if_neg hup, if_neg hup]
    simp [follow]

theorem enter_absolute : (l.enter name).absolute = l.absolute := by
  unfold enter
  split
  · rfl
  · split <;> rfl

theorem walk_absolute : (l.walk names).absolute = l.absolute := by
  induction names generalizing l with
  | nil => rfl
  | cons name names ih => exact (ih (l.enter name)).trans (l.enter_absolute name)

/-- **A walk is the same from everywhere**: it climbs, and then it descends. -/
theorem walk_eq : l.walk names = l.follow ((start false).walk names) := by
  -- over the components walked so far, so the last one is the step
  induction names using reverseRecOn with
  | nil => exact ext rfl rfl (by simp [follow, start, walk, climb])
  | append_singleton names name ih =>
    have hrel : ((start false).walk names).absolute = false := walk_absolute _ _
    rw [walk_append, walk_append, ih]
    exact (follow_enter l hrel name).symm

theorem walk_names {names : List String}
    (h : ∀ name ∈ names, name ≠ "" ∧ name ≠ "." ∧ name ≠ "..") :
    l.walk names = l.descend names := by
  induction names generalizing l with
  | nil => simp [walk]
  | cons name names ih =>
    show (l.enter name).walk names = _
    rw [enter_name l (h name (by simp)), ih _ fun n hn => h n (by simp [hn])]
    simp

/-! ## Leaving a directory and coming back -/

/-- `names` goes through all of `left`, and further. -/
def GoesThrough (left names : List String) : Prop := ∃ rest, rest ≠ [] ∧ names = left ++ rest

/-- The names of `dir` that `rel` climbs out of. -/
def leftBehind (dir rel : Location) : List String := dir.names.drop (dir.names.length - rel.ups)

/-- The levels that `rel` climbs from `dir` are levels of `dir`, or those of the file system. -/
def ClimbsWithin (dir rel : Location) : Prop := dir.absolute = true ∨ rel.ups ≤ dir.names.length

/-- **A relative location stays inside the directory it starts from** iff it goes through the
names it left behind. -/
theorem inside_follow_iff (dir rel : Location) :
    Inside dir (dir.follow rel) ↔ ClimbsWithin dir rel ∧ GoesThrough (leftBehind dir rel) rel.names := by
  have hups : (dir.follow rel).ups = dir.ups ↔ ClimbsWithin dir rel := by
    rw [follow, descend_ups, climb_ups, ClimbsWithin]
    by_cases ha : dir.absolute = true
    · simp [ha, dir.root_top ha]
    · rw [if_neg ha]
      simp only [ha, Bool.false_eq_true, false_or]
      omega
  have hnames : ∀ rest, (dir.follow rel).names = dir.names ++ rest ↔
      rel.names = leftBehind dir rel ++ rest := by
    intro rest
    -- the names that are kept cancel
    rw [follow, descend_names, climb_names, leftBehind]
    conv_lhs => rhs; rw [← List.take_append_drop (dir.names.length - rel.ups) dir.names]
    rw [List.append_assoc, List.append_cancel_left_eq]
  simp only [Inside, hups, hnames, GoesThrough]
  simp [follow]

/-! ## File names -/

def fileName : Option String := l.names.getLast?

/-- `file_stem`: the name up to its last dot, unless that is its first character. -/
def fileStem : String :=
  match splitOnce '.' name.toList.reverse with
  | some (_, stem) => if stem = [] then name else String.ofList stem.reverse
  | none => name

def withExtension (extension : String) : Location :=
  match l.fileName with
  | some name => { l with names := l.names.dropLast ++ [fileStem name ++ "." ++ extension] }
  | none => l

theorem fileName_descend {names : List String} {name : String}
    (h : names.getLast? = some name) : (l.descend names).fileName = some name := by
  show (l.names ++ names).getLast? = some name
  rw [getLast?_append, h]
  rfl

theorem fileName_withExtension {l : Location} {name : String} (h : l.fileName = some name)
    (extension : String) :
    (l.withExtension extension).fileName = some (fileStem name ++ "." ++ extension) := by
  unfold withExtension
  rw [h]
  show (l.names.dropLast ++ [_]).getLast? = _
  rw [getLast?_append]
  rfl

end Location

open Location

/-! ## What a path leads to -/

/-- The location a path leads to, by its names alone. -/
def normalise : Location := (start (isAbsolute p)).walk (components p)

theorem isAbsolute_of_notMem {p : String} (h : '/' ∉ p.toList) : isAbsolute p = false := by
  cases hl : p.toList with
  | nil => simp [isAbsolute, startsWith, hl]
  | cons c cs =>
    have hne : ¬ '/' = c := by
      rintro rfl
      simp [hl] at h
    simp [isAbsolute, startsWith, hl, List.isPrefixOf, hne]

theorem components_of_notMem {p : String} (h : '/' ∉ p.toList) : components p = [p] := by
  simp [components, pieces_of_notMem h]

theorem components_slash : components (p ++ "/" ++ q) = components p ++ components q := by
  have hl : (p ++ "/" ++ q).toList = p.toList ++ '/' :: q.toList := by simp
  simp only [components, hl, pieces_append_cons, map_append]

theorem isAbsolute_append {p : String} (hp : p ≠ "") : isAbsolute (p ++ q) = isAbsolute p := by
  have hne : p.toList ≠ [] := by simpa using hp
  cases hl : p.toList with
  | nil => exact absurd hl hne
  | cons c cs => simp [isAbsolute, startsWith, hl, List.isPrefixOf]

/-- **Joining a relative path is walking on.** -/
theorem normalise_pathJoin {p q : String} (hq : isAbsolute q = false) :
    normalise (pathJoin p q) = (normalise p).walk (components q) := by
  unfold pathJoin
  rw [if_neg (by simp [hq])]
  by_cases hempty : p = ""
  · rw [if_pos (by simp [hempty]), hempty]
    have hstart : normalise "" = start false := by
      simp [normalise, isAbsolute, startsWith, components, pieces, walk, enter_empty]
    rw [hstart, empty_append]
    simp [normalise, hq]
  by_cases hslash : endsWith p "/" = true
  · rw [if_pos (by simp [hslash])]
    -- the slash is there already: `p` walks one empty component more than its part before it
    have hsuffix : ['/'] <:+ p.toList := by
      simpa [endsWith, isSuffixOf_iff_suffix] using hslash
    obtain ⟨cs, hcs⟩ := hsuffix
    obtain rfl : p = ofList cs ++ "/" := ext (by simp [← hcs])
    have hlast : components (ofList cs ++ "/") = components (ofList cs) ++ [""] := by
      have := components_slash (ofList cs) ""
      simpa [components, pieces] using this
    simp only [normalise, isAbsolute_append q hempty, components_slash, hlast, walk_append]
    simp [walk, enter_empty]
  · rw [if_neg (by simp [hempty, hslash])]
    rw [String.append_assoc]
    simp only [normalise, isAbsolute_append _ hempty]
    rw [← String.append_assoc, components_slash, walk_append]

theorem normalise_pathJoin_name {name : String} (hslash : '/' ∉ name.toList)
    (hname : name ≠ "" ∧ name ≠ "." ∧ name ≠ "..") :
    normalise (pathJoin p name) = (normalise p).descend [name] := by
  rw [normalise_pathJoin (isAbsolute_of_notMem hslash), components_of_notMem hslash]
  refine walk_names _ ?_
  intro n hn
  rwa [mem_singleton.mp hn]

/-- **Joining an absolute path forgets the first one.** -/
theorem normalise_pathJoin_absolute {p q : String} (hq : isAbsolute q = true) :
    normalise (pathJoin p q) = normalise q := by
  unfold pathJoin
  rw [if_pos hq]

end KappaRegistry.Lib
