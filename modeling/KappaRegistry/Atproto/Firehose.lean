import Mathlib.Data.List.Basic
import KappaRegistry.Types

/-!
# Sequence Numbers on the Firehose

`subscribe_repos` of `kappa-module-atproto/src/xrpc.rs` in broadcast mode. A connection subscribes to
the channel when it opens, gets the events broadcast from then on, and counts them up from the
cursor of its client. Events are told apart here by their place in the broadcast order. The count of
a connection is that place if it was opened with the number of events broadcast before
(**`exact_run`**), and otherwise is not.
-/

namespace KappaRegistry

structure Subscriber where
  cursor : ℕ
  seq : ℕ
  /-- The place in the channel up to which events were received or overwritten. -/
  place : ℕ
  /-- The events delivered, by their place, with the number in the frame; the newest first. -/
  frames : List (ℕ × ℕ)
  closed : Bool
  deriving DecidableEq

/-- The events broadcast and the connections. -/
structure Firehose where
  sent : ℕ
  subscribers : ℕ → Option Subscriber

inductive FirehoseStep where
  | emit
  | connect (i : ℕ) (cursor : Option ℕ)
  | receive (i : ℕ)

/-- `EVENT_CHANNEL_CAPACITY`. -/
def eventChannelCapacity : ℕ := 4096

/-- One turn of the loop: the next event of the channel, or word of how many were overwritten. -/
def Subscriber.receive (maxLag sent : ℕ) (c : Subscriber) : Subscriber :=
  let lagged := sent - eventChannelCapacity - c.place
  if c.closed then c
  else if 0 < lagged then
    if maxLag < lagged then { c with closed := true }
    else { c with seq := (c.seq + lagged) % (u64Max + 1), place := c.place + lagged }
  else if c.place < sent then
    let seq := (c.seq + 1) % (u64Max + 1)
    { c with seq, place := c.place + 1, frames := (c.place + 1, seq) :: c.frames }
  else c

namespace Firehose

def new : Firehose := ⟨0, fun _ => none⟩

variable (maxLag : ℕ)

def step (s : Firehose) : FirehoseStep → Firehose
  | .emit => { s with sent := s.sent + 1 }
  | .connect i cursor =>
    { s with subscribers := Function.update s.subscribers i
              (some ⟨cursor.getD 0, cursor.getD 0, s.sent, [], false⟩) }
  | .receive i =>
    { s with subscribers := Function.update s.subscribers i
              ((s.subscribers i).map (Subscriber.receive maxLag s.sent)) }

def run (s : Firehose) (steps : List FirehoseStep) : Firehose := steps.foldl (step maxLag) s

/-- A connection is opened with the number of events broadcast before it, and that number fits
into 64 bits. -/
def Current (s : Firehose) : FirehoseStep → Prop
  | .connect _ cursor => cursor.getD 0 = s.sent
  | .emit => s.sent < u64Max
  | .receive _ => True

def CurrentRun (s : Firehose) : List FirehoseStep → Prop
  | [] => True
  | action :: steps => s.Current action ∧ CurrentRun (s.step maxLag action) steps

end Firehose

/-- The connection has delivered, in increasing order and under their places, the events after its
cursor up to where it has come, apart from those that were overwritten. -/
structure Subscriber.Exact (sent : ℕ) (c : Subscriber) : Prop where
  seq_eq : c.seq = c.place
  cursor_le : c.cursor ≤ c.place
  place_le : c.place ≤ sent
  numbered : ∀ frame ∈ c.frames, frame.2 = frame.1 ∧ c.cursor < frame.1 ∧ frame.1 ≤ c.place
  increasing : c.frames.Pairwise fun newer older => older.2 < newer.2
  complete : ∀ k, c.cursor < k → k ≤ c.place →
    (k, k) ∈ c.frames ∨ k + eventChannelCapacity ≤ sent

namespace Firehose

variable {maxLag : ℕ} {c : Subscriber} {sent : ℕ}

theorem exact_receive (hsent : sent ≤ u64Max) (h : c.Exact sent) : (c.receive maxLag sent).Exact sent := by
  unfold Subscriber.receive
  dsimp only
  split_ifs with hclosed hlag hmax hmore
  · exact h
  · exact ⟨h.seq_eq, h.cursor_le, h.place_le, h.numbered, h.increasing, h.complete⟩
  · have hseq : (c.seq + (sent - eventChannelCapacity - c.place)) % (u64Max + 1) =
        c.place + (sent - eventChannelCapacity - c.place) := by
      rw [h.seq_eq]
      exact Nat.mod_eq_of_lt (by omega)
    refine ⟨hseq, Nat.le_add_right_of_le h.cursor_le, by dsimp only; omega, ?_, h.increasing, ?_⟩
    · intro frame hframe
      obtain ⟨heq, hcursor, hle⟩ := h.numbered frame hframe
      exact ⟨heq, hcursor, Nat.le_add_right_of_le hle⟩
    · intro k hcursor hk
      dsimp only at hk
      by_cases hold : k ≤ c.place
      · exact h.complete k hcursor hold
      · exact .inr (by omega)
  · have hseq : (c.seq + 1) % (u64Max + 1) = c.place + 1 := by
      rw [h.seq_eq]
      exact Nat.mod_eq_of_lt (by omega)
    refine ⟨hseq, Nat.le_succ_of_le h.cursor_le, hmore, ?_, ?_, ?_⟩
    · intro frame hframe
      rcases List.mem_cons.mp hframe with rfl | hframe
      · exact ⟨hseq, Nat.lt_succ_of_le h.cursor_le, Nat.le_refl _⟩
      · obtain ⟨heq, hcursor, hle⟩ := h.numbered frame hframe
        exact ⟨heq, hcursor, Nat.le_succ_of_le hle⟩
    · refine List.pairwise_cons.mpr ⟨fun frame hframe => ?_, h.increasing⟩
      obtain ⟨heq, -, hle⟩ := h.numbered frame hframe
      dsimp only
      omega
    · intro k hcursor hk
      rcases Nat.le_succ_iff.mp hk with hold | rfl
      · exact (h.complete k hcursor hold).imp_left (List.mem_cons_of_mem _)
      · exact .inl (by rw [hseq]; exact List.mem_cons_self)
  · exact h

theorem exact_step {s : Firehose} (action : FirehoseStep) (hcurrent : s.Current action)
    (hsent : s.sent ≤ u64Max) (h : ∀ i c, s.subscribers i = some c → c.Exact s.sent) :
    (s.step maxLag action).sent ≤ u64Max ∧
      ∀ i c, (s.step maxLag action).subscribers i = some c → c.Exact (s.step maxLag action).sent := by
  refine ⟨?_, ?_⟩
  · cases action with
    | emit => exact hcurrent
    | connect | receive => exact hsent
  intro i c hc
  cases action with
  | emit =>
    have hold := h i c hc
    exact ⟨hold.seq_eq, hold.cursor_le, Nat.le_succ_of_le hold.place_le, hold.numbered,
      hold.increasing, fun k hk hle => (hold.complete k hk hle).imp_right Nat.le_succ_of_le⟩
  | connect j cursor =>
    dsimp only [step] at hc ⊢
    by_cases hij : i = j
    · rw [hij, Function.update_self, hcurrent] at hc
      cases hc
      exact ⟨rfl, Nat.le_refl _, Nat.le_refl _, by simp, by simp,
        fun k hk hle => absurd hk (Nat.not_lt.mpr hle)⟩
    · rw [Function.update_of_ne hij] at hc
      exact h i c hc
  | receive j =>
    dsimp only [step] at hc ⊢
    by_cases hij : i = j
    · rw [hij, Function.update_self] at hc
      obtain ⟨c, hold, rfl⟩ := Option.map_eq_some_iff.mp hc
      exact exact_receive hsent (h j c hold)
    · rw [Function.update_of_ne hij] at hc
      exact h i c hc

theorem exact_of_currentRun (steps : List FirehoseStep) {s : Firehose}
    (hcurrent : s.CurrentRun maxLag steps) (hsent : s.sent ≤ u64Max)
    (h : ∀ i c, s.subscribers i = some c → c.Exact s.sent) :
    ∀ i c, (s.run maxLag steps).subscribers i = some c → c.Exact (s.run maxLag steps).sent := by
  induction steps generalizing s with
  | nil => exact h
  | cons action steps ih =>
    obtain ⟨hsent', h'⟩ := exact_step action hcurrent.1 hsent h
    exact ih hcurrent.2 hsent' h'

/-- **Numbers identify events** in every run whose connections are opened with the number of events
broadcast before: an event has one number on all connections, and each connection is exact. -/
theorem exact_run (maxLag : ℕ) (steps : List FirehoseStep) (hcurrent : new.CurrentRun maxLag steps)
    (i j : ℕ) (c d : Subscriber) (hc : (new.run maxLag steps).subscribers i = some c)
    (hd : (new.run maxLag steps).subscribers j = some d) :
    c.Exact (new.run maxLag steps).sent ∧
      ∀ event n m, (event, n) ∈ c.frames → (event, m) ∈ d.frames → n = m := by
  have hall := exact_of_currentRun steps hcurrent (Nat.zero_le _) fun _ _ h => nomatch h
  refine ⟨hall i c hc, fun event n m hn hm => ?_⟩
  exact ((hall i c hc).numbered _ hn).1.trans ((hall j d hd).numbered _ hm).1.symm

/-- Two connections, the second opened after one event with the cursor 1. -/
theorem exact_run_two : (⟨1, 2, 2, [(2, 2)], false⟩ : Subscriber).Exact 2 ∧
    ∀ event n m, (event, n) ∈ [(2, 2)] → (event, m) ∈ [(2, 2), (1, 1)] → n = m :=
  exact_run 0 [.connect 0 none, .emit, .receive 0, .connect 1 (some 1), .emit, .receive 0, .receive 1]
    ⟨rfl, show 0 < u64Max by decide, trivial, rfl, show 1 < u64Max by decide, trivial, trivial, trivial⟩ 1 0
    ⟨1, 2, 2, [(2, 2)], false⟩ ⟨0, 2, 2, [(2, 2), (1, 1)], false⟩ (by decide) (by decide)

/-- Two connections without a cursor, the second opened after one event: the second event is 2 on
one and 1 on the other. -/
theorem run_apart :
    let s := new.run 0
      [.connect 0 none, .emit, .receive 0, .connect 1 none, .emit, .receive 0, .receive 1]
    ∃ c d, s.subscribers 0 = some c ∧ s.subscribers 1 = some d ∧ (2, 2) ∈ c.frames ∧ (2, 1) ∈ d.frames :=
  ⟨⟨0, 2, 2, [(2, 2), (1, 1)], false⟩, ⟨0, 1, 2, [(2, 1)], false⟩, by decide⟩

end Firehose

end KappaRegistry
