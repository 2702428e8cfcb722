import Flywheel.Library.History
import Flywheel.Library.Table
import Flywheel.Types

/-!
# The registration of a node

A node writes its row at the start and at every beat. Whether a beat inserts the row or updates it
is decided by a flag in memory, which only an acknowledged insert sets. An insert that takes effect
and is reported to have failed leaves the flag unset and the row stored: every later beat then
inserts again, and fails on the row's key. The prune, which deletes rows of other ids alone, is left
out.
-/

namespace Flywheel

open Relational Transition

/-- The columns of a row of `job_nodes` that the beats write, and the drain request. -/
structure NodeRow where
  id : String
  startedAt : Time
  heartbeatAt : Time
  draining : Bool
  drainRequestedAt : Option Time := none

/-- A node's `registration`, the table, and whether its runners have been stopped. -/
structure Registration where
  id : String
  nodes : Table NodeRow.id := Table.empty
  inserted : Bool := false
  startedAt : Time := 0
  draining : Bool := false
  stopped : Bool := false

/-- What becomes of a statement: it reaches the database and is answered, or it is reported to have
failed, after it took effect or without. -/
inductive Reply where
  | answered
  | lost
  | refused

/-- The replies to the statements of a beat. -/
structure Replies where
  read : Reply := .answered
  update : Reply := .answered
  insert : Reply := .answered

namespace Registration

/-- The node's own row. -/
def row? (g : Registration) : Option NodeRow := g.nodes.get? g.id

/-- `insert` -/
def insert (now : Time) (reply : Reply) (g : Registration) : Registration :=
  let row : NodeRow :=
    { id := g.id, startedAt := g.startedAt, heartbeatAt := now, draining := g.draining }
  -- the key of a stored row refuses the statement, which is answered
  if g.row?.isSome then g
  else match reply with
    | .answered => { g with nodes := g.nodes.put row, inserted := true }
    | .lost => { g with nodes := g.nodes.put row }
    | .refused => g

/-- `start` -/
def start (now : Time) (reply : Reply) (g : Registration) : Registration :=
  { g with startedAt := now }.insert now reply

/-- `answerDrain` -/
def answerDrain (reply : Reply) (g : Registration) : Registration :=
  match reply with
  | .answered =>
    if g.row?.any fun r => r.drainRequestedAt.isSome then
      { g with stopped := true, draining := true }
    else g
  | _ => g

/-- The beat's write to the row. -/
def heartbeat (now : Time) (draining : Bool) : Patch NodeRow.id where
  apply r := { r with heartbeatAt := now, draining }
  key_apply _ := rfl

/-- A write to the node's row. -/
def write (f : Patch NodeRow.id) (g : Registration) : Registration :=
  { g with nodes := g.nodes.update (fun r => decide (r.id = g.id)) f }

/-- The beat's update. -/
def update (now : Time) (g : Registration) : Registration := g.write (heartbeat now g.draining)

/-- The beat's write: an update, and an insert where that finds no row. -/
def renew (now : Time) (replies : Replies) (g : Registration) : Registration :=
  match replies.update with
  | .refused => g
  | .lost => g.update now
  | .answered => if g.row?.isSome then g.update now else g.insert now replies.insert

/-- `beat` -/
def beat (now : Time) (replies : Replies) (g : Registration) : Registration :=
  if g.inserted = false then g.insert now replies.insert
  else (if g.draining then g else g.answerDrain replies.read).renew now replies

/-- What others do to the node's row: it is deleted, or its drain request is made or withdrawn. -/
inductive Outside where
  | delete
  | request (t : Option Time)

/-- The request of a drain. -/
def requestDrain (t : Option Time) : Patch NodeRow.id where
  apply r := { r with drainRequestedAt := t }
  key_apply _ := rfl

/-- The registration after such a change. -/
def outside (g : Registration) : Outside → Registration
  | .delete => { g with nodes := g.nodes.delete fun r => decide (r.id = g.id) }
  | .request t => g.write (requestDrain t)

/-- A step of a node's history. -/
inductive Step where
  | start (now : Time) (reply : Reply)
  | beat (now : Time) (replies : Replies)
  | outside (o : Outside)

/-- The registration after a step. -/
def step (g : Registration) : Step → Registration
  | .start now reply => g.start now reply
  | .beat now replies => g.beat now replies
  | .outside o => g.outside o

/-- The node's row says that it beat at a time. -/
def BeatAt (g : Registration) (now : Time) : Prop := ∃ r, g.row? = some r ∧ r.heartbeatAt = now

/-- The runners have been stopped, and the row says so. -/
def Drains (g : Registration) : Prop := g.stopped = true ∧ ∃ r, g.row? = some r ∧ r.draining = true

/-- Two beats in a row whose statements are answered, whatever others do to the row between them,
leave the row with the second's time; and if a drain request stands on the row throughout, a node
that drains. -/
def Recovers (g : Registration) : Prop :=
  ∀ (first : Time) (between : List Outside) (second : Time),
    (run outside (g.beat first {}) between |>.beat second {}).BeatAt second ∧
    ((∃ r, g.row? = some r ∧ r.drainRequestedAt ≠ none) →
      (∀ o ∈ between, ∃ t, o = .request (some t)) →
        (run outside (g.beat first {}) between |>.beat second {}).Drains)

/-! ## One beat -/

variable {g : Registration} {now : Time}

theorem row?_write (f : Patch NodeRow.id) {r : NodeRow} (hrow : g.row? = some r) :
    (g.write f).row? = some (f.apply r) := by
  show (g.nodes.update _ _).get? g.id = _
  rw [Table.get?_update, show g.nodes.get? g.id = some r from hrow, Option.map_some,
    if_pos (decide_eq_true (Table.key_of_get? hrow))]

theorem insert_answered (hnone : g.row? = none) :
    (g.insert now .answered).BeatAt now ∧ (g.insert now .answered).inserted = true := by
  unfold insert
  rw [hnone]
  have hput : ∀ row : NodeRow, row.id = g.id → (g.nodes.put row).get? g.id = some row := by
    intro row hid
    rw [Table.get?_put, if_pos hid]
  exact ⟨⟨_, hput _ rfl, rfl⟩, rfl⟩

theorem beat_answered (hinserted : g.inserted = true) :
    (g.beat now {}).BeatAt now ∧ (g.beat now {}).inserted = true := by
  unfold beat
  rw [hinserted, if_neg (by decide)]
  -- the answer to a drain request leaves the flag
  have hsame : (if g.draining then g else g.answerDrain .answered).inserted = true := by
    unfold answerDrain
    split_ifs <;> exact hinserted
  generalize (if g.draining then g else g.answerDrain .answered) = g' at hsame ⊢
  unfold renew
  cases hrow : g'.row? with
  | none => exact insert_answered hrow
  | some r => exact ⟨⟨_, row?_write _ hrow, rfl⟩, hsame⟩

/-- A request that stands is answered by the beat, and stays. -/
theorem beat_drains (hinserted : g.inserted = true)
    (hdraining : g.draining = true → g.stopped = true) {r : NodeRow} (hrow : g.row? = some r)
    (hrequest : r.drainRequestedAt ≠ none) :
    (g.beat now {}).Drains ∧ (g.beat now {}).draining = true ∧
      ∃ r', (g.beat now {}).row? = some r' ∧ r'.drainRequestedAt ≠ none := by
  obtain ⟨g', hg', hsame, hdrains⟩ : ∃ g', (if g.draining then g else g.answerDrain .answered) =
    g' ∧
      g'.row? = some r ∧ g'.stopped = true ∧ g'.draining = true := by
    by_cases hd : g.draining = true
    · exact ⟨g, if_pos hd, hrow, hdraining hd, hd⟩
    · have hany : (g.row?.any fun r => r.drainRequestedAt.isSome) = true := by
        rw [hrow]
        exact Option.isSome_iff_ne_none.mpr hrequest
      refine ⟨{ g with stopped := true, draining := true }, ?_, hrow, rfl, rfl⟩
      rw [if_neg hd, answerDrain, if_pos hany]
  have hbeat : g.beat now {} = g'.update now := by
    unfold beat renew
    rw [hinserted, if_neg (by decide), hg', hsame]
    rfl
  rw [hbeat]
  have hwrite := row?_write (heartbeat now g'.draining) hsame
  exact ⟨⟨hdrains.1, _, hwrite, hdrains.2⟩, hdrains.2, _, hwrite, hrequest⟩

/-! ## Histories -/

/-- Only a node that has stopped its runners drains, in every history. -/
theorem draining_stopped (id : String) (history : List Step) : let g := run step { id } history
    g.draining = true → g.stopped = true := by
  refine run_invariant (I := fun g : Registration => g.draining = true → g.stopped = true) ?_
    (fun h => by cases h) history
  have hinsert : ∀ (g : Registration) (now : Time) (reply : Reply),
      (g.draining = true → g.stopped = true) →
        (g.insert now reply).draining = true → (g.insert now reply).stopped = true := by
    intro g now reply hg
    unfold insert
    cases reply <;> dsimp only <;> split_ifs <;> exact hg
  intro g e hg
  cases e with
  | start now reply => exact hinsert _ now reply hg
  | outside o => cases o <;> exact hg
  | beat now replies =>
    have hanswer : (if g.draining then g else g.answerDrain replies.read).draining = true →
        (if g.draining then g else g.answerDrain replies.read).stopped = true := by
      unfold answerDrain
      grind
    show (g.beat now replies).draining = true → (g.beat now replies).stopped = true
    unfold beat
    generalize (if g.draining then g else g.answerDrain replies.read) = g' at hanswer ⊢
    split_ifs
    · exact hinsert g now _ hg
    · unfold renew
      cases replies.update with
      | refused => exact hanswer
      | lost => exact hanswer
      | answered =>
        split_ifs
        · exact hanswer
        · exact hinsert g' now _ hanswer

theorem run_outside (between : List Outside) (g : Registration) :
    (run outside g between).inserted = g.inserted ∧ (run outside g between).draining = g.draining ∧
    (run outside g between).stopped = g.stopped ∧
    ((∃ r, g.row? = some r ∧ r.drainRequestedAt ≠ none) →
      (∀ o ∈ between, ∃ t, o = .request (some t)) →
        ∃ r, (run outside g between).row? = some r ∧ r.drainRequestedAt ≠ none) := by
  induction between generalizing g with
  | nil => exact ⟨rfl, rfl, rfl, fun h _ => h⟩
  | cons o between ih =>
    obtain ⟨hi, hd, hs, hstands⟩ := ih (g.outside o)
    refine ⟨hi.trans ?_, hd.trans ?_, hs.trans ?_, ?_⟩
    iterate 3 cases o <;> rfl
    rintro ⟨r, hr, -⟩ hall
    obtain ⟨t, rfl⟩ := hall o List.mem_cons_self
    exact hstands ⟨_, row?_write _ hr, Option.some_ne_none t⟩ fun o' ho' =>
      hall o' (List.mem_cons_of_mem _ ho')

/-- **A node recovers exactly when its flag tells whether its row is stored.** After every history
of starts and beats, with whatever replies and changes of the row by others: two answered beats
bring the row up to date, and answer a drain request that stands, if and only if an insert has been
acknowledged or no row is stored. -/
theorem node_recovers_iff (id : String) (history : List Step) :
    let g := run step { id } history
    g.Recovers ↔ g.inserted = true ∨ g.row? = none := by
  intro g
  have hstopped : g.draining = true → g.stopped = true := draining_stopped id history
  constructor
  · -- a row that no acknowledged insert has written keeps its time
    intro h
    by_contra hnot
    rw [not_or, Bool.not_eq_true] at hnot
    obtain ⟨hinserted, hsome⟩ := hnot
    obtain ⟨r, hrow⟩ := Option.ne_none_iff_exists'.mp hsome
    have hstuck : ∀ now, g.beat now {} = g := fun now => by
      unfold beat insert
      rw [if_pos hinserted, hrow]
      rfl
    obtain ⟨r', hr', hbeat⟩ := (h 0 [] (r.heartbeatAt + 1)).1
    rw [hstuck, run_nil, hstuck, hrow] at hr'
    cases hr'
    exact absurd hbeat (Int.ne_of_lt (Int.lt_succ r.heartbeatAt))
  · intro hflag first between second
    have hfirst : (g.beat first {}).inserted = true := by
      rcases hflag with hinserted | hnone
      · exact (beat_answered hinserted).2
      · cases hinserted : g.inserted with
        | true => exact (beat_answered hinserted).2
        | false =>
          unfold beat
          rw [if_pos hinserted]
          exact (insert_answered hnone).2
    obtain ⟨hi, hd, hs, hstands⟩ := run_outside between (g.beat first {})
    refine ⟨(beat_answered (hi.trans hfirst)).1, ?_⟩
    rintro ⟨r, hrow, hrequest⟩ hall
    have hinserted : g.inserted = true := hflag.resolve_right (by rw [hrow]; simp)
    obtain ⟨hdrains, hdraining, hstill⟩ := @beat_drains g first hinserted hstopped r hrow hrequest
    obtain ⟨r', hrow', hrequest'⟩ := hstands hstill hall
    exact (beat_drains (hi.trans hfirst) (fun _ => hs.trans hdrains.1) hrow' hrequest').1

/-- The start's insert takes effect and is reported to have failed: no later beat is recorded. -/
theorem lost_insert_stops_heartbeat :
    let g := run step { id := "node" } [.start 0 .lost, .beat 1 {}, .beat 2 {}, .beat 3 {}]
    g.inserted = false ∧ g.row?.map NodeRow.heartbeatAt = some 0 := by
  decide

end Registration

end Flywheel
