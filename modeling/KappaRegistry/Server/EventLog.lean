import KappaRegistry.Lib.Table
import KappaRegistry.Server.EventBus

/-!
# The Retention Floor of the Event Log

`InMemoryEventLog` of `kappa-core/src/events.rs` with calls one after another. `oldest_sequence` is
one number for all namespaces, while a full queue loses its own oldest event; so the floor says that
nothing above it is lost only if whatever is lost is the oldest event of the whole log:
**`soundRun_iff`**.

The events ever emitted are kept beside the log, for the statement only.
-/

namespace KappaRegistry

open Lib List EventBus

/-- The queues by namespace, the counter, and all that was emitted. -/
structure EventLog where
  log : Table String (List TagEvent)
  sequence : ℕ
  emitted : List TagEvent

inductive LogOp where
  | emit (event : TagEvent)
  | compact (retainAfter : ℕ)

namespace EventLog

def new : EventLog := ⟨∅, 1, []⟩

def queue (s : EventLog) (ns : String) : List TagEvent := s.log[ns]?.getD []

/-- The events of a queue that stay when one more comes. -/
def room (queue : List TagEvent) : List TagEvent :=
  if maxEventsPerNamespace ≤ queue.length then queue.drop 1 else queue

variable (s : EventLog)

def emit (event : TagEvent) : EventLog :=
  let event := { event with sequence := s.sequence }
  { log := s.log.insert event.ns (room (s.queue event.ns) ++ [event])
    sequence := (s.sequence + 1) % (u64Max + 1)
    emitted := event :: s.emitted }

def sinceSequence (ns : String) (after : ℕ) : List TagEvent :=
  (s.queue ns).filter fun event => after < event.sequence

def compact (retainAfter : ℕ) : EventLog :=
  { s with log := s.log.map fun _ queue => queue.filter fun event => retainAfter < event.sequence }

def oldestSequence : ℕ :=
  (s.log.toList.filterMap fun row => row.2.head?.map TagEvent.sequence).min?.getD 0

def step : LogOp → EventLog
  | .emit event => s.emit event
  | .compact retainAfter => s.compact retainAfter

/-- A client that has seen all up to the floor can read all that it has not seen. -/
def Sound (s : EventLog) : Prop :=
  ∀ ns after, (∃ ns, s.queue ns ≠ []) → s.oldestSequence ≤ after + 1 →
    ∀ event ∈ s.emitted, event.ns = ns → after < event.sequence → event ∈ s.sinceSequence ns after

/-- Sound before each call and at the end. -/
def SoundRun (s : EventLog) : List LogOp → Prop
  | [] => s.Sound
  | op :: ops => s.Sound ∧ SoundRun (s.step op) ops

/-- What a call drops from a full queue is the oldest event of the log. -/
def DropsOldest : LogOp → Prop
  | .emit event => maxEventsPerNamespace ≤ (s.queue event.ns).length →
      ∀ first ∈ (s.queue event.ns).head?, ∀ ns, ∀ other ∈ s.queue ns, first.sequence ≤ other.sequence
  | .compact _ => True

def DropsOldestRun (s : EventLog) : List LogOp → Prop
  | [] => True
  | op :: ops => s.DropsOldest op ∧ DropsOldestRun (s.step op) ops

/-- What holds all along: numbers are not used twice, and queues hold emitted events in order. -/
structure Inv (s : EventLog) : Prop where
  pos : 0 < s.sequence
  fresh : ∀ event ∈ s.emitted, 0 < event.sequence ∧ event.sequence < s.sequence
  unique : ∀ a ∈ s.emitted, ∀ b ∈ s.emitted, a.sequence = b.sequence → a = b
  emitted : ∀ ns, ∀ event ∈ s.queue ns, event ∈ s.emitted ∧ event.ns = ns
  sorted : ∀ ns, (s.queue ns).Pairwise fun a b => a.sequence < b.sequence

/-- Every emitted event that is not below all of the log is in the log. -/
def Complete : Prop :=
  ∀ event ∈ s.emitted, ∀ ns, ∀ other ∈ s.queue ns, other.sequence ≤ event.sequence →
    event ∈ s.queue event.ns

variable {s : EventLog}

theorem queue_emit (s : EventLog) (event : TagEvent) (ns : String) : (s.emit event).queue ns =
      if event.ns = ns then room (s.queue ns) ++ [{ event with sequence := s.sequence }]
      else s.queue ns := by
  unfold emit queue
  dsimp only
  rw [Table.get_insert]
  split_ifs with h
  · rw [h]
    rfl
  · rfl

theorem queue_compact (s : EventLog) (retainAfter : ℕ) (ns : String) :
    (s.compact retainAfter).queue ns =
      (s.queue ns).filter fun event => retainAfter < event.sequence := by
  unfold compact queue
  cases h : s.log[ns]? <;> simp [h]

theorem room_sublist (queue : List TagEvent) : (room queue).Sublist queue := by
  unfold room
  split_ifs
  · exact drop_sublist 1 queue
  · exact List.Sublist.refl queue

theorem sequence_emit (hroom : s.sequence < u64Max) (event : TagEvent) :
    (s.emit event).sequence = s.sequence + 1 :=
  Nat.mod_eq_of_lt (by omega)

theorem Inv.step (h : s.Inv) (hroom : s.sequence < u64Max) (op : LogOp) : (s.step op).Inv := by
  cases op with
  | compact retainAfter =>
    refine ⟨h.pos, h.fresh, h.unique, fun ns event hevent => ?_, fun ns => ?_⟩
    · rw [EventLog.step, queue_compact] at hevent
      exact h.emitted ns event (mem_of_mem_filter hevent)
    · rw [EventLog.step, queue_compact]
      exact (h.sorted ns).filter _
  | emit event =>
    have hnext : (s.step (.emit event)).sequence = s.sequence + 1 := sequence_emit hroom event
    refine ⟨hnext ▸ Nat.succ_pos _, ?_, ?_, ?_, ?_⟩
    · intro e he
      rw [hnext]
      rcases mem_cons.mp he with rfl | he
      · exact ⟨h.pos, Nat.lt_succ_self _⟩
      · exact ⟨(h.fresh e he).1, Nat.lt_succ_of_lt (h.fresh e he).2⟩
    · intro a ha b hb hab
      rcases mem_cons.mp ha with rfl | ha <;> rcases mem_cons.mp hb with rfl | hb
      · rfl
      · exact absurd hab.symm (h.fresh b hb).2.ne
      · exact absurd hab (h.fresh a ha).2.ne
      · exact h.unique a ha b hb hab
    · intro ns e he
      rw [EventLog.step, queue_emit] at he
      split_ifs at he with hns
      · rcases mem_append.mp he with he | he
        · have hold := h.emitted ns e ((room_sublist _).subset he)
          exact ⟨mem_cons_of_mem _ hold.1, hold.2⟩
        · rw [mem_singleton.mp he]
          exact ⟨mem_cons_self, hns⟩
      · have hold := h.emitted ns e he
        exact ⟨mem_cons_of_mem _ hold.1, hold.2⟩
    · intro ns
      rw [EventLog.step, queue_emit]
      split_ifs
      · refine pairwise_append.mpr ⟨(h.sorted ns).sublist (room_sublist _), by simp, ?_⟩
        intro a ha b hb
        rw [mem_singleton.mp hb]
        exact (h.fresh a (h.emitted ns a ((room_sublist _).subset ha)).1).2
      · exact h.sorted ns

theorem Inv.oldestSequence_le_iff (h : s.Inv) (hne : ∃ ns, s.queue ns ≠ []) (n : ℕ) :
    s.oldestSequence ≤ n ↔ ∃ ns, ∃ event ∈ s.queue ns, event.sequence ≤ n := by
  have hmem : ∀ a, a ∈ (s.log.toList.filterMap fun row => row.2.head?.map TagEvent.sequence) ↔
      ∃ ns first, (s.queue ns).head? = some first ∧ first.sequence = a := by
    intro a
    simp only [mem_filterMap, Prod.exists, Std.ExtTreeMap.mem_toList_iff_getElem?_eq_some,
      Option.map_eq_some_iff]
    constructor
    · rintro ⟨ns, queue, hqueue, first, hfirst, rfl⟩
      exact ⟨ns, first, by rw [EventLog.queue, hqueue]; exact hfirst, rfl⟩
    · rintro ⟨ns, first, hfirst, rfl⟩
      unfold EventLog.queue at hfirst
      cases hqueue : s.log[ns]? with
      | none => simp [hqueue] at hfirst
      | some queue => exact ⟨ns, queue, hqueue, first, by simpa [hqueue] using hfirst, rfl⟩
  unfold oldestSequence
  cases hmin : (s.log.toList.filterMap fun row => row.2.head?.map TagEvent.sequence).min? with
  | none =>
    obtain ⟨ns, hns⟩ := hne
    obtain ⟨first, rest, hqueue⟩ := exists_cons_of_ne_nil hns
    have := (hmem first.sequence).mpr ⟨ns, first, by rw [hqueue]; rfl, rfl⟩
    simp [min?_eq_none_iff.mp hmin] at this
  | some m =>
    obtain ⟨hm, hle⟩ := min?_eq_some_iff.mp hmin
    constructor
    · intro hn
      obtain ⟨ns, first, hfirst, rfl⟩ := (hmem m).mp hm
      exact ⟨ns, first, mem_of_head? hfirst, hn⟩
    · rintro ⟨ns, event, hevent, hn⟩
      obtain ⟨first, rest, hqueue⟩ := exists_cons_of_ne_nil (ne_nil_of_mem hevent)
      have hsorted := h.sorted ns
      rw [hqueue] at hsorted hevent
      have hfirst := hle _ ((hmem first.sequence).mpr ⟨ns, first, by rw [hqueue]; rfl, rfl⟩)
      refine (hfirst.trans ?_).trans hn
      rcases mem_cons.mp hevent with rfl | hevent
      · exact le_refl _
      · exact ((pairwise_cons.mp hsorted).1 event hevent).le

theorem Inv.sound_iff (h : s.Inv) : s.Sound ↔ s.Complete := by
  constructor
  · intro hsound event hevent ns other hother hle
    have hpos := (h.fresh event hevent).1
    have hne : ∃ ns, s.queue ns ≠ [] := ⟨ns, ne_nil_of_mem hother⟩
    refine mem_of_mem_filter (hsound event.ns (event.sequence - 1) hne ?_ event hevent rfl ?_)
    · exact (h.oldestSequence_le_iff hne _).mpr ⟨ns, other, hother, by omega⟩
    · omega
  · intro hcomplete ns after hne hfloor event hevent hns hafter
    obtain ⟨ns', other, hother, hle⟩ := (h.oldestSequence_le_iff hne _).mp hfloor
    have hin := hcomplete event hevent ns' other hother (by omega)
    exact mem_filter.mpr ⟨hns ▸ hin, decide_eq_true hafter⟩

theorem mem_room_or {queue : List TagEvent} {event : TagEvent} (h : event ∈ queue) :
    event ∈ room queue ∨ maxEventsPerNamespace ≤ queue.length ∧ queue.head? = some event := by
  unfold room
  split_ifs with hfull
  · cases queue with
    | nil => cases h
    | cons first rest =>
      rcases mem_cons.mp h with rfl | h
      · exact .inr ⟨hfull, rfl⟩
      · exact .inl h
  · exact .inl h

theorem Inv.head_not_mem (h : s.Inv) {event first : TagEvent}
    (hfull : maxEventsPerNamespace ≤ (s.queue event.ns).length)
    (hfirst : (s.queue event.ns).head? = some first) : first ∉ (s.emit event).queue event.ns := by
  have hsorted := h.sorted event.ns
  have hemitted := (h.emitted event.ns first (mem_of_head? hfirst)).1
  rw [queue_emit, if_pos rfl, room, if_pos hfull, mem_append, mem_singleton]
  rintro (hmem | rfl)
  · obtain ⟨rest, hqueue⟩ := head?_eq_some_iff.mp hfirst
    rw [hqueue] at hsorted hmem
    exact absurd ((pairwise_cons.mp hsorted).1 first hmem) (Nat.lt_irrefl _)
  · exact absurd (h.fresh _ hemitted).2 (Nat.lt_irrefl _)

theorem Inv.complete_step (h : s.Inv) (hcomplete : s.Complete) (op : LogOp) :
    (s.step op).Complete ↔ s.DropsOldest op := by
  cases op with
  | compact retainAfter =>
    refine iff_of_true (fun event hevent ns other hother hle => ?_) trivial
    rw [EventLog.step, queue_compact, mem_filter, decide_eq_true_iff] at hother ⊢
    exact ⟨hcomplete event hevent ns other hother.1 hle, hother.2.trans_le hle⟩
  | emit event =>
    constructor
    · intro hafter hfull first hfirst ns other hother
      by_contra hlt
      have hmem := h.emitted event.ns first (mem_of_head? hfirst)
      by_cases hns : event.ns = ns
      · -- In its own queue the first event is the oldest.
        obtain ⟨rest, hqueue⟩ := head?_eq_some_iff.mp hfirst
        have hsorted := h.sorted event.ns
        rw [← hns, hqueue] at hother
        rw [hqueue] at hsorted
        rcases mem_cons.mp hother with rfl | hother
        · exact hlt (le_refl _)
        · exact hlt ((pairwise_cons.mp hsorted).1 other hother).le
      · have hstays : other ∈ (s.emit event).queue ns := by
          rwa [queue_emit, if_neg hns]
        have := hafter first (mem_cons_of_mem _ hmem.1) ns other hstays (by omega)
        rw [hmem.2] at this
        exact h.head_not_mem hfull hfirst this
    · intro hdrops e he ns other hother hle
      rcases mem_cons.mp he with rfl | he
      · rw [EventLog.step, queue_emit, if_pos rfl]
        exact mem_append_right _ (mem_singleton.mpr rfl)
      have hold : other ∈ s.queue ns := by
        rw [EventLog.step, queue_emit] at hother
        split_ifs at hother
        · rcases mem_append.mp hother with hother | hother
          · exact (room_sublist _).subset hother
          · rw [mem_singleton.mp hother] at hle
            exact absurd (h.fresh e he).2 (Nat.not_lt.mpr hle)
        · exact hother
      have hin := hcomplete e he ns other hold hle
      by_cases hns : event.ns = e.ns
      · rcases mem_room_or hin with hroom | ⟨hfull, hfirst⟩
        · rw [EventLog.step, queue_emit, if_pos hns]
          exact mem_append_left _ hroom
        · -- The event that was dropped is the oldest, so `other` would be that event.
          rw [← hns] at hfull hfirst
          have hge := hdrops hfull e hfirst ns other hold
          have hemitted := h.emitted ns other hold
          obtain rfl := h.unique other hemitted.1 e he (Nat.le_antisymm hle hge)
          rw [← hemitted.2, ← hns] at hother
          exact absurd hother (h.head_not_mem hfull hfirst)
      · rwa [EventLog.step, queue_emit, if_neg hns]

theorem Inv.soundRun (h : s.Inv) (hcomplete : s.Complete) (ops : List LogOp)
    (hroom : s.sequence + ops.length ≤ u64Max) : s.SoundRun ops ↔ s.DropsOldestRun ops := by
  induction ops generalizing s with
  | nil => exact iff_of_true (h.sound_iff.mpr hcomplete) trivial
  | cons op ops ih =>
    have hsound := h.sound_iff.mpr hcomplete
    have hstep := h.complete_step hcomplete op
    rw [length_cons] at hroom
    have hinv : (s.step op).Inv := h.step (by omega) op
    have hnext : (s.step op).sequence ≤ s.sequence + 1 := by
      cases op with
      | emit event => exact (sequence_emit (by omega) event).le
      | compact retainAfter => exact Nat.le_succ _
    constructor
    · rintro ⟨-, hrest⟩
      have hafter : (s.step op).Sound := by
        cases ops with
        | nil => exact hrest
        | cons op' ops => exact hrest.1
      have hcomplete' := hinv.sound_iff.mp hafter
      exact ⟨hstep.mp hcomplete', (ih hinv hcomplete' (by omega)).mp hrest⟩
    · rintro ⟨hdrops, hrest⟩
      exact ⟨hsound, (ih hinv (hstep.mpr hdrops) (by omega)).mpr hrest⟩

theorem inv_new : new.Inv := by
  have hqueue : ∀ ns, new.queue ns = [] := fun ns => by simp [new, queue]
  refine ⟨Nat.zero_lt_one, by simp [new], by simp [new], fun ns => ?_, fun ns => ?_⟩ <;> simp [hqueue]

theorem complete_new : new.Complete := nofun

/-- **The retention floor** is sound all along exactly when every event that a full queue drops is
the oldest of the whole log, in every run that is too short for the counter to wrap. -/
theorem soundRun_iff (ops : List LogOp) (hroom : ops.length < u64Max) :
    new.SoundRun ops ↔ new.DropsOldestRun ops :=
  inv_new.soundRun complete_new ops (by simp only [new]; omega)

theorem not_dropsOldestRun_fill (event : TagEvent) {other : TagEvent} {ns : String}
    (hns : event.ns ≠ ns) (n : ℕ)
    (hother : other ∈ s.queue ns) (hseq : other.sequence < s.sequence)
    (hnew : ∀ e ∈ s.queue event.ns, other.sequence < e.sequence) (hroom : s.sequence + n < u64Max)
    (hlen : (s.queue event.ns).length + n = maxEventsPerNamespace) :
    ¬ s.DropsOldestRun (List.replicate (n + 1) (.emit event)) := by
  induction n generalizing s with
  | zero =>
    rintro ⟨hdrops, -⟩
    cases hqueue : s.queue event.ns with
    | nil => rw [hqueue] at hlen; cases hlen
    | cons first rest =>
      have hle := hdrops hlen.ge first (by rw [hqueue]; rfl) ns other hother
      exact absurd (hnew first (by rw [hqueue]; exact mem_cons_self)) (Nat.not_lt.mpr hle)
  | succ n ih =>
    rintro ⟨-, hrest⟩
    have hroom : (s.emit event).queue event.ns =
        s.queue event.ns ++ [{ event with sequence := s.sequence }] := by
      rw [queue_emit, if_pos rfl, room, if_neg (by omega)]
    have hnext : (s.step (.emit event)).sequence = s.sequence + 1 := sequence_emit (by omega) event
    refine ih ?_ (by omega) ?_ (by omega) ?_ hrest
    · rwa [EventLog.step, queue_emit, if_neg hns]
    · intro e he
      rw [EventLog.step, hroom] at he
      rcases mem_append.mp he with he | he
      · exact hnew e he
      · rwa [mem_singleton.mp he]
    · rw [EventLog.step, hroom, length_append, length_singleton]
      omega

def eventIn (ns : String) : TagEvent := ⟨ns, "t", some "k", none, 1, 0, .set, 0⟩

/-- Events of two namespaces, with a compaction between them. -/
theorem soundRun_two : new.SoundRun
    [.emit (eventIn "a"), .compact 1, .emit (eventIn "b"), .emit (eventIn "a")] := by
  refine (soundRun_iff _ (by decide)).mpr ⟨?_, trivial, ?_, ?_, trivial⟩ <;>
    exact fun hfull => absurd hfull (by decide +kernel)

theorem not_soundRun_busy : ¬ new.SoundRun
    (.emit (eventIn "b") :: List.replicate 10001 (.emit (eventIn "a"))) := by
  rw [inv_new.soundRun complete_new _ (by rw [length_cons, length_replicate]; decide)]
  rintro ⟨-, hrest⟩
  have hqueue : ∀ ns, (new.emit (eventIn "b")).queue ns =
      if "b" = ns then [{ eventIn "b" with sequence := 1 }] else [] := by
    intro ns
    rw [queue_emit]
    simp [new, queue, room, maxEventsPerNamespace, eventIn]
  have hb : { eventIn "b" with sequence := 1 } ∈ (new.step (.emit (eventIn "b"))).queue "b" := by
    rw [EventLog.step, hqueue, if_pos rfl]
    exact List.mem_singleton.mpr rfl
  have ha : (new.step (.emit (eventIn "b"))).queue "a" = [] := by
    rw [EventLog.step, hqueue, if_neg (by decide)]
  exact not_dropsOldestRun_fill (eventIn "a") (by decide) 10000 hb (by decide)
    (by rw [show (eventIn "a").ns = "a" from rfl, ha]; simp) (by decide)
    (by rw [show (eventIn "a").ns = "a" from rfl, ha]; rfl) hrest

end EventLog

end KappaRegistry
