import KappaRegistry.Lib.Table

/-!
# Versioned Maps

A map whose entries count how often they were written, and batches of writes that are made only if
the versions are as expected. The version of an absent entry is zero. `next` is the counter: the
successor, or the successor in a machine word.

A batch looks at all versions before it writes anything, and then writes in order, so an entry
that it names twice is written twice.
-/

namespace KappaRegistry.Lib

open Std

structure Versioned (V : Type) where
  value : V
  version : ℕ
  deriving DecidableEq

/-- Values with versions, by key. -/
abbrev VersionedMap (K V : Type) [Ord K] := Table K (Versioned V)

/-- One write of a batch. -/
structure VersionedUpdate (K V : Type) where
  key : K
  value : V
  expected : Option ℕ
  deriving DecidableEq

namespace VersionedMap

variable {K V : Type} [Ord K] [TransOrd K]

/-- The version of an entry, and zero if there is none. -/
def version (m : VersionedMap K V) (k : K) : ℕ := (m[k]?.map Versioned.version).getD 0

variable (next : ℕ → ℕ) (m : VersionedMap K V) (updates : List (VersionedUpdate K V))

def write (k : K) (v : V) : VersionedMap K V :=
  m.insert k ⟨v, next (m.version k)⟩

/-- Every version that a batch expects is the current one. -/
def admits : Bool :=
  updates.all fun update => update.expected.all fun expected => m.version update.key == expected

def writeAll : VersionedMap K V :=
  updates.foldl (fun m update => m.write next update.key update.value) m

/-- A batch: nothing is written unless every expected version is the current one. -/
def writeBatch : Option (VersionedMap K V) :=
  if m.admits updates then some (m.writeAll next updates) else none

variable [LawfulEqOrd K] [DecidableEq K]

theorem get_write (k k' : K) (v : V) :
    (m.write next k v)[k']? = if k = k' then some ⟨v, next (m.version k)⟩ else m[k']? :=
  Table.get_insert m k k' _

theorem get_writeAll_of_notMem {updates : List (VersionedUpdate K V)} {k : K}
    (h : k ∉ updates.map VersionedUpdate.key) : (m.writeAll next updates)[k]? = m[k]? := by
  unfold writeAll
  induction updates generalizing m with
  | nil => rfl
  | cons update updates ih =>
    rw [List.map_cons, List.mem_cons, not_or] at h
    rw [List.foldl_cons, ih _ h.2, get_write, if_neg (Ne.symm h.1)]

end VersionedMap

end KappaRegistry.Lib
