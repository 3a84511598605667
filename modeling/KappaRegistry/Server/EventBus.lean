import KappaRegistry.Types
import Mathlib.Data.List.Basic
import Mathlib.Order.MinMax

/-!
# Events and Catching Up

`InMemoryEventLog` of `kappa-core/src/events.rs` and `EventBroadcaster` of
`kappa-server/src/broadcast.rs`. Emitting an event is three steps that other emits may come between:
the log's counter gives it a number, it is appended to the log of its namespace under that number, and
the event as the caller passed it, with the caller's number, is sent to the channel.

A client of one namespace reads from the channel, or asks the log for what is above the largest number
it has seen. **`catchUp_complete`**: it misses nothing in any run where it never passes over a number
that an emit has drawn and not yet appended. A run may do otherwise (`catchUp_misses`).
-/

namespace KappaRegistry

open Function List

inductive TagEventOp where
  | set
  | delete
  | setIf
  | batchItem
  | symbolic
  deriving DecidableEq

structure TagEvent where
  ns : String
  name : String
  value : Option String
  prevValue : Option String
  epoch : ℕ
  mtimeMs : ℕ
  operation : TagEventOp
  /-- Assigned by the log, not by the caller. -/
  sequence : ℕ
  deriving DecidableEq

/-- An entry of the log, and the emit that made it. -/
structure Logged where
  origin : ℕ
  event : TagEvent
  deriving DecidableEq

/-- How far an emit has come. -/
inductive EmitPhase where
  | idle
  | drawn (number : ℕ)
  | logged (number : ℕ)
  | sent (number : ℕ)
  deriving DecidableEq

def EmitPhase.number : EmitPhase → Option ℕ
  | idle => none
  | drawn n | logged n | sent n => some n

def EmitPhase.appended : EmitPhase → Option ℕ
  | idle | drawn _ => none
  | logged n | sent n => some n

/-- The log, the emits and one client. -/
structure EventBus where
  /-- The counter of the log. -/
  next : ℕ
  log : String → List Logged
  phase : ℕ → EmitPhase
  /-- The emits whose events the client has. -/
  received : List ℕ
  /-- The largest number that the client has seen. -/
  last : ℕ

/-- The steps of the emits and of the client. -/
inductive BusAction where
  | draw (i : ℕ)
  | append (i : ℕ)
  | send (i : ℕ)
  | live (i : ℕ)
  | catchUp
  deriving DecidableEq

namespace EventBus

def new : EventBus where
  next := 1
  log _ := []
  phase _ := .idle
  received := []
  last := 0

def maxEventsPerNamespace : ℕ := 10000

/-- The queue of a namespace with one more event; a full one loses its oldest. -/
def pushBack (queue : List Logged) (entry : Logged) : List Logged :=
  (if maxEventsPerNamespace ≤ queue.length then queue.drop 1 else queue) ++ [entry]

def sinceSequence (s : EventBus) (ns : String) (after : ℕ) : List Logged :=
  (s.log ns).filter fun entry => after < entry.event.sequence

section

variable (events : ℕ → TagEvent) (ns : String) (s : EventBus) (i : ℕ)

def entryOf (number : ℕ) : Logged := ⟨i, { events i with sequence := number }⟩

/-- `emit` of the log: the number is drawn outside the lock. -/
def draw : EventBus :=
  match s.phase i with
  | .idle => { s with next := (s.next + 1) % (u64Max + 1),
                      phase := Function.update s.phase i (.drawn s.next) }
  | _ => s

/-- `emit` of the log: under the lock the event is appended with its number. -/
def append : EventBus :=
  match s.phase i with
  | .drawn n => { s with log := Function.update s.log (events i).ns
                           (pushBack (s.log (events i).ns) (entryOf events i n)),
                         phase := Function.update s.phase i (.logged n) }
  | _ => s

/-- `emit` of the broadcaster: the event goes to the channel. -/
def send : EventBus :=
  match s.phase i with
  | .logged n => { s with phase := Function.update s.phase i (.sent n) }
  | _ => s

/-- The client reads an event from the channel, which has the number that the caller passed. -/
def live : EventBus :=
  match s.phase i with
  | .sent _ =>
    if (events i).ns = ns then
      { s with received := i :: s.received, last := max s.last (events i).sequence }
    else s
  | _ => s

/-- The client asks the log for what is above the largest number it has seen. -/
def catchUp : EventBus :=
  let found := s.sinceSequence ns s.last
  { s with received := found.map Logged.origin ++ s.received,
           last := (found.map fun entry => entry.event.sequence).foldl max s.last }

/-- One step, for the events that the emits are called with and a client of `ns`; a step that is not
due does nothing. -/
def step : BusAction → EventBus
  | .draw i => s.draw i
  | .append i => s.append events i
  | .send i => s.send i
  | .live i => s.live events ns i
  | .catchUp => s.catchUp ns

def run (actions : List BusAction) : EventBus := actions.foldl (step events ns) s

/-- The client does not pass over a number that is drawn and not in the log: what it reads from the
log is below all of these, and a number in the channel that is new to it is above none that it misses. -/
def Orderly : BusAction → Prop
  | .draw _ => s.next < u64Max
  | .append _ | .send _ => True
  | .live i => (events i).ns = ns → (events i).sequence ≤ s.last ∨ ((events i).sequence < s.next ∧
      ∀ j n, (s.phase j).number = some n → (events j).ns = ns → n ≤ (events i).sequence →
        j = i ∨ j ∈ s.received)
  | .catchUp => ∀ i n, s.phase i = .drawn n → (events i).ns = ns →
      ∀ entry ∈ s.log ns, entry.event.sequence < n

def OrderlyRun : EventBus → List BusAction → Prop
  | _, [] => True
  | s, action :: actions => s.Orderly events ns action ∧ OrderlyRun (step events ns s action) actions

def appends (actions : List BusAction) : ℕ :=
  actions.countP fun
    | .append i => (events i).ns = ns
    | _ => false

def Finished : Prop := ∀ i, s.phase i = .idle ∨ ∃ n, s.phase i = .sent n

/-- What holds all along. -/
structure Inv (s : EventBus) : Prop where
  fresh : ∀ i n, (s.phase i).number = some n → n < s.next
  last_lt : s.last < s.next
  inLog : ∀ i n, (s.phase i).appended = some n → (events i).ns = ns → entryOf events i n ∈ s.log ns
  ofLog : ∀ entry ∈ s.log ns,
    (s.phase entry.origin).appended = some entry.event.sequence ∧ (events entry.origin).ns = ns
  seen : ∀ i n, (s.phase i).number = some n → (events i).ns = ns → n ≤ s.last → i ∈ s.received

end

variable {events : ℕ → TagEvent} {ns : String} {s : EventBus}

theorem number_of_appended {p : EmitPhase} {n : ℕ} (h : p.appended = some n) : p.number = some n := by
  cases p with
  | idle | drawn m => cases h
  | logged m | sent m => exact h

theorem inv_new : Inv events ns new :=
  ⟨nofun, Nat.zero_lt_one, nofun, nofun, nofun⟩

theorem of_update {β : Type} {f : EmitPhase → β} {phase : ℕ → EmitPhase} {i j : ℕ} {p : EmitPhase}
    {x : β} (h : f (update phase i p j) = x) : j = i ∧ f p = x ∨ f (phase j) = x := by
  rw [update_apply] at h
  split_ifs at h with heq
  · exact .inl ⟨heq, h⟩
  · exact .inr h

section

variable (h : s.Inv events ns)
include h

theorem Inv.advance {i n : ℕ} {p : EmitPhase} {log : String → List Logged}
    (hi : (s.phase i).number = some n) (hp : p.number = some n)
    (hin : ∀ m, p.appended = some m → (events i).ns = ns → entryOf events i m ∈ log ns)
    (hold : ∀ entry ∈ s.log ns, entry ∈ log ns) (hof : ∀ entry ∈ log ns, entry ∉ s.log ns →
      entry.origin = i ∧ p.appended = some entry.event.sequence ∧ (events i).ns = ns)
    (hkeep : ∀ m, (s.phase i).appended = some m → p.appended = some m) :
    Inv events ns { s with log := log, phase := update s.phase i p } := by
  refine ⟨?_, h.last_lt, ?_, ?_, ?_⟩
  · intro j m hj
    rcases of_update hj with ⟨rfl, hnew⟩ | hj
    · exact h.fresh j m (hi.trans (hp.symm.trans hnew))
    · exact h.fresh j m hj
  · intro j m hj hns
    rcases of_update hj with ⟨rfl, hnew⟩ | hj
    · exact hin m hnew hns
    · exact hold _ (h.inLog j m hj hns)
  · intro entry hentry
    by_cases hmem : entry ∈ s.log ns
    · obtain ⟨happended, hns⟩ := h.ofLog entry hmem
      refine ⟨?_, hns⟩
      by_cases heq : entry.origin = i
      · subst heq
        show (update s.phase entry.origin p entry.origin).appended = _
        rw [update_self]
        exact hkeep _ happended
      · show (update s.phase i p entry.origin).appended = _
        rwa [update_of_ne heq]
    · obtain ⟨rfl, happended, hns⟩ := hof entry hentry hmem
      refine ⟨?_, hns⟩
      show (update s.phase entry.origin p entry.origin).appended = _
      rwa [update_self]
  · intro j m hj hns hle
    rcases of_update hj with ⟨rfl, hnew⟩ | hj
    · exact h.seen j m (hi.trans (hp.symm.trans hnew)) hns hle
    · exact h.seen j m hj hns hle

theorem Inv.draw (i : ℕ) (hroom : s.next < u64Max) :
    Inv events ns (s.draw i) := by
  unfold EventBus.draw
  cases hphase : s.phase i with
  | drawn m | logged m | sent m => exact h
  | idle =>
    have hnext : (s.next + 1) % (u64Max + 1) = s.next + 1 := Nat.mod_eq_of_lt (by omega)
    rw [hnext]
    refine ⟨?_, Nat.lt_succ_of_lt h.last_lt, ?_, ?_, ?_⟩
    · intro j m hj
      rcases of_update hj with ⟨-, ⟨⟩⟩ | hj
      · exact Nat.lt_succ_self _
      · exact Nat.lt_succ_of_lt (h.fresh j m hj)
    · intro j m hj hns
      rcases of_update hj with ⟨-, ⟨⟩⟩ | hj
      exact h.inLog j m hj hns
    · intro entry hentry
      obtain ⟨happended, hns⟩ := h.ofLog entry hentry
      have heq : entry.origin ≠ i := by
        intro heq
        rw [heq, hphase] at happended
        cases happended
      refine ⟨?_, hns⟩
      show (update s.phase i (.drawn s.next) entry.origin).appended = _
      rwa [update_of_ne heq]
    · intro j m hj hns hle
      rcases of_update hj with ⟨-, ⟨⟩⟩ | hj
      · exact absurd h.last_lt (Nat.not_lt.mpr hle)
      · exact h.seen j m hj hns hle

theorem Inv.append (i : ℕ)
    (hroom : (events i).ns = ns → (s.log ns).length < maxEventsPerNamespace) :
    Inv events ns (s.append events i) := by
  unfold EventBus.append
  cases hphase : s.phase i with
  | idle | logged m | sent m => exact h
  | drawn n =>
    have hlog : ∀ entry, entry ∈ update s.log (events i).ns
        (pushBack (s.log (events i).ns) (entryOf events i n)) ns ↔
        entry ∈ s.log ns ∨ ((events i).ns = ns ∧ entry = entryOf events i n) := by
      intro entry
      by_cases hns : (events i).ns = ns
      · subst hns
        rw [update_self, pushBack, if_neg (Nat.not_le.mpr (hroom rfl))]
        simp
      · rw [update_of_ne (Ne.symm hns)]
        simp [hns]
    refine h.advance (n := n) (by rw [hphase]; rfl) rfl ?_ ?_ ?_ ?_
    · intro m hm hns
      cases hm
      exact (hlog _).mpr (.inr ⟨hns, rfl⟩)
    · intro entry hentry
      exact (hlog entry).mpr (.inl hentry)
    · intro entry hentry hnew
      rcases (hlog entry).mp hentry with hold | ⟨hns, rfl⟩
      · exact absurd hold hnew
      · exact ⟨rfl, rfl, hns⟩
    · intro m hm
      rw [hphase] at hm
      cases hm

theorem Inv.send (i : ℕ) : Inv events ns (s.send i) := by
  unfold EventBus.send
  cases hphase : s.phase i with
  | idle | drawn m | sent m => exact h
  | logged n =>
    refine h.advance (n := n) (p := .sent n) (by rw [hphase]; rfl) rfl ?_ (fun _ hentry => hentry)
      (fun entry hentry hnew => absurd hentry hnew) ?_
    · intro m hm hns
      exact h.inLog i m (by rw [hphase]; exact hm) hns
    · intro m hm
      rwa [hphase] at hm

theorem Inv.live (i : ℕ) (horderly : s.Orderly events ns (.live i)) :
    Inv events ns (s.live events ns i) := by
  unfold EventBus.live
  cases hphase : s.phase i with
  | idle | drawn m | logged m => exact h
  | sent m =>
    split_ifs with hns
    · rcases horderly hns with hold | ⟨hnext, hall⟩
      · refine ⟨h.fresh, ?_, h.inLog, h.ofLog, ?_⟩
        · rw [Nat.max_eq_left hold]
          exact h.last_lt
        · intro j n hj hjns hle
          rw [Nat.max_eq_left hold] at hle
          exact mem_cons_of_mem _ (h.seen j n hj hjns hle)
      · refine ⟨h.fresh, Nat.max_lt.mpr ⟨h.last_lt, hnext⟩, h.inLog, h.ofLog, ?_⟩
        intro j n hj hjns hle
        by_cases hlast : n ≤ s.last
        · exact mem_cons_of_mem _ (h.seen j n hj hjns hlast)
        · have hseq : n ≤ (events i).sequence := (le_max_iff.mp hle).resolve_left hlast
          rcases hall j n hj hjns hseq with rfl | hreceived
          · exact mem_cons_self
          · exact mem_cons_of_mem _ hreceived
    · exact h

end

theorem foldl_max_mem (numbers : List ℕ) (last : ℕ) :
    numbers.foldl max last = last ∨ numbers.foldl max last ∈ numbers := by
  induction numbers generalizing last with
  | nil => exact .inl rfl
  | cons number numbers ih =>
    rw [foldl_cons]
    rcases ih (max last number) with heq | hmem
    · rw [heq]
      rcases max_choice last number with hmax | hmax
      · exact .inl hmax
      · exact .inr (by rw [hmax]; exact mem_cons_self)
    · exact .inr (mem_cons_of_mem _ hmem)

theorem mem_received_catchUp {i n : ℕ} (hlog : entryOf events i n ∈ s.log ns) (hlast : s.last < n) :
    i ∈ (s.catchUp ns).received := by
  refine mem_append_left _ (mem_map.mpr ⟨entryOf events i n, ?_, rfl⟩)
  exact mem_filter.mpr ⟨hlog, decide_eq_true hlast⟩

theorem Inv.catchUp (h : s.Inv events ns) (horderly : s.Orderly events ns .catchUp) :
    Inv events ns (s.catchUp ns) := by
  -- the new number is the old one or that of an entry of the log
  have hlast : (s.catchUp ns).last = s.last ∨
      ∃ entry ∈ s.log ns, (s.catchUp ns).last = entry.event.sequence := by
    rcases foldl_max_mem ((s.sinceSequence ns s.last).map fun entry => entry.event.sequence) s.last
      with heq | hmem
    · exact .inl heq
    · obtain ⟨entry, hentry, heq⟩ := mem_map.mp hmem
      exact .inr ⟨entry, (mem_filter.mp hentry).1, heq.symm⟩
  refine ⟨h.fresh, ?_, h.inLog, h.ofLog, ?_⟩
  · rcases hlast with heq | ⟨entry, hentry, heq⟩
    · rw [heq]
      exact h.last_lt
    · rw [heq]
      exact h.fresh _ _ (number_of_appended (h.ofLog entry hentry).1)
  · intro i n hi hns hle
    by_cases hold : n ≤ s.last
    · exact mem_append_right _ (h.seen i n hi hns hold)
    · have hnew : s.last < n := Nat.lt_of_not_le hold
      have hin : (s.phase i).appended = some n → i ∈ (s.catchUp ns).received :=
        fun happended => mem_received_catchUp (h.inLog i n happended hns) hnew
      have hi : (s.phase i).number = some n := hi
      cases hphase : s.phase i with
      | idle =>
        rw [hphase] at hi
        cases hi
      | logged m | sent m =>
        rw [hphase] at hi hin
        exact hin hi
      | drawn m =>
        rw [hphase] at hi
        obtain rfl := Option.some.inj hi
        -- it is not in the log, so it is above all that was found
        rcases hlast with heq | ⟨entry, hentry, heq⟩
        · rw [heq] at hle
          exact absurd hle hold
        · rw [heq] at hle
          exact absurd (horderly i m hphase hns entry hentry) (Nat.not_lt.mpr hle)

theorem length_log_step (events : ℕ → TagEvent) (ns : String) (s : EventBus) (action : BusAction) :
    ((step events ns s action).log ns).length ≤ (s.log ns).length + appends events ns [action] := by
  cases action with
  | draw i =>
    show ((s.draw i).log ns).length ≤ _
    unfold draw
    cases s.phase i <;> exact Nat.le_add_right _ _
  | send i =>
    show ((s.send i).log ns).length ≤ _
    unfold send
    cases s.phase i <;> exact Nat.le_add_right _ _
  | catchUp => exact Nat.le_add_right _ _
  | live i =>
    show ((s.live events ns i).log ns).length ≤ _
    unfold live
    cases s.phase i with
    | idle | drawn m | logged m => exact Nat.le_add_right _ _
    | sent m =>
      split_ifs <;> exact Nat.le_add_right _ _
  | append i =>
    show ((s.append events i).log ns).length ≤ _
    unfold append
    cases s.phase i with
    | idle | logged m | sent m => exact Nat.le_add_right _ _
    | drawn n =>
      dsimp only
      by_cases hns : (events i).ns = ns
      · subst hns
        rw [update_self, pushBack, length_append]
        have happends : appends events (events i).ns [.append i] = 1 := by simp [appends]
        rw [happends, length_singleton]
        split_ifs
        · exact Nat.add_le_add_right (by rw [length_drop]; exact Nat.sub_le _ _) 1
        · exact Nat.le_refl _
      · rw [update_of_ne (Ne.symm hns)]
        exact Nat.le_add_right _ _

theorem Inv.step (h : s.Inv events ns) (action : BusAction) (horderly : s.Orderly events ns action)
    (hroom : (s.log ns).length + appends events ns [action] ≤ maxEventsPerNamespace) :
    Inv events ns (s.step events ns action) := by
  cases action with
  | draw i => exact h.draw i horderly
  | append i =>
    refine h.append i ?_
    intro hns
    have happends : appends events ns [.append i] = 1 := by simp [appends, hns]
    omega
  | send i => exact h.send i
  | live i => exact h.live i horderly
  | catchUp => exact h.catchUp horderly

theorem Inv.run (h : s.Inv events ns) (actions : List BusAction)
    (horderly : OrderlyRun events ns s actions)
    (hroom : (s.log ns).length + appends events ns actions ≤ maxEventsPerNamespace) :
    Inv events ns (s.run events ns actions) := by
  induction actions generalizing s with
  | nil => exact h
  | cons action actions ih =>
    have happends : appends events ns (action :: actions) =
        appends events ns [action] + appends events ns actions := by
      rw [← singleton_append]
      exact countP_append
    have hlength := length_log_step events ns s action
    exact ih (h.step action horderly.1 (by omega)) horderly.2 (by omega)

/-- **Nothing is missed.** -/
theorem catchUp_complete (events : ℕ → TagEvent) (ns : String) (actions : List BusAction)
    (horderly : OrderlyRun events ns new actions)
    (hroom : appends events ns actions ≤ maxEventsPerNamespace)
    (hfinished : (run events ns new actions).Finished) (i : ℕ) (hns : (events i).ns = ns)
    (hstarted : (run events ns new actions).phase i ≠ .idle) :
    i ∈ (run events ns new (actions ++ [.catchUp])).received := by
  have h : Inv events ns (run events ns new actions) :=
    inv_new.run actions horderly (by rw [show (new.log ns).length = 0 from rfl, Nat.zero_add]; exact hroom)
  have hrun : run events ns new (actions ++ [.catchUp]) =
      (run events ns new actions).catchUp ns := List.foldl_append
  obtain ⟨n, hsent⟩ := (hfinished i).resolve_left hstarted
  rw [hrun]
  by_cases hle : n ≤ (run events ns new actions).last
  · exact List.mem_append_right _ (h.seen i n (by rw [hsent]; rfl) hns hle)
  · exact mem_received_catchUp (h.inLog i n (by rw [hsent]; rfl) hns) (Nat.lt_of_not_le hle)

/-- The events of a namespace, as the store passes them to the log. -/
def sampleEvents (i : ℕ) : TagEvent := ⟨"n", "t", none, none, i, 0, .set, 0⟩

theorem catchUp_complete_two :
    1 ∈ (run sampleEvents "n" new
      [.draw 0, .append 0, .send 0, .catchUp, .draw 1, .append 1, .send 1, .catchUp]).received := by
  refine catchUp_complete sampleEvents "n"
    [.draw 0, .append 0, .send 0, .catchUp, .draw 1, .append 1, .send 1] ?_ (by decide) ?_ 1 rfl
    (by decide)
  · refine ⟨?_, trivial, trivial, ?_, ?_, trivial, trivial, trivial⟩
    · show 1 < u64Max
      decide
    · intro i n hi
      rcases i with _ | i <;> cases hi
    · show 2 < u64Max
      decide
  · rintro (_ | _ | i)
    · exact .inr ⟨1, by decide⟩
    · exact .inr ⟨2, by decide⟩
    · exact .inl rfl

/-- The second emit draws its number after the first and is in the log before it: the client that
catches up in between never hears of the first. -/
theorem catchUp_misses :
    let s := run sampleEvents "n" new
      [.draw 0, .draw 1, .append 1, .send 1, .catchUp, .append 0, .send 0]
    s.Finished ∧ s.phase 0 = .sent 1 ∧
    0 ∉ (run sampleEvents "n" new
      [.draw 0, .draw 1, .append 1, .send 1, .catchUp, .append 0, .send 0, .catchUp]).received := by
  refine ⟨?_, by decide, by decide⟩
  rintro (_ | _ | i)
  · exact .inr ⟨1, by decide⟩
  · exact .inr ⟨2, by decide⟩
  · exact .inl rfl

end EventBus

end KappaRegistry
