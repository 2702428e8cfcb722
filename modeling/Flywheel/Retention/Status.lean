import Flywheel.Control.Replay
import Flywheel.Retention.Model

/-!
# The rule that decides a job

A retention pass and `RetentionStatus` each compile the rules into a CASE over a job's kind and
state: the pass into one that compares the job's end with the rule's cutoff, the status into one
that yields the rule's index, beside which it narrows the states on its own. Both choose the most
specific rule (`chosenRule_eq`), whatever the order of the list (`mostSpecific_perm`), so that what
the status has due is what the pass deletes: the pass walks the due jobs by their ids, and its
batches together delete what one delete of them all would (`deleteBatches_eq`).
-/

namespace Flywheel

open Relational List Option Table

/-! ## The status -/

/-- `retentionRuleOrder`, with the indexes that it yields. -/
def retentionIndexOrder (rules : List RetentionRule) : List (RetentionRule × ℕ) :=
  (rules.zipIdx.filter fun r => decide (r.1.kind ≠ "") && r.1.state.isSome) ++
    (rules.zipIdx.filter fun r => decide (r.1.kind ≠ "") && r.1.state.isNone) ++
    rules.zipIdx.filter fun r => decide (r.1.kind = "") && r.1.state.isSome

/-- The row that a job falls to: the CASE of `RetentionStatus`. -/
def retentionRow (rules : List RetentionRule) (job : JobRow) : ℕ :=
  (((retentionIndexOrder rules).find? fun r => r.1.selects job).map Prod.snd).getD rules.length

/-- `JobCount` -/
structure JobCount where
  n : ℕ
  capped : Bool := false
  estimate : ℕ := 0
deriving DecidableEq, Inhabited, Repr

/-- `DefaultCountCap` -/
def defaultCountCap : ℕ := 10000

/-- `RetentionStatusRow` -/
structure RetentionStatusRow where
  kind : String := ""
  state : Option JobState := none
  maxAge : Duration
  cutoff : Time
  oldest : Option Time
  due : JobCount
deriving DecidableEq, Inhabited

/-- The states that a row reads: its rule's, or all the terminal ones. -/
def statusStates (rule : Option RetentionRule) : List JobState :=
  match rule.bind RetentionRule.state with
  | some s => [s]
  | none => terminalStates

/-- `retentionOldest`: the least of the states' oldest ends. -/
def retentionOldest (states : List JobState) (decides : JobRow → Bool) (db : Db) : Option Time :=
  states.foldl (fun oldest state =>
    let read := ((db.jobs.rows.filter fun r => decide (r.state = state) && decides r).filterMap
      JobRow.finalizedAt).min?
    match oldest, read with
    | some t, some t' => if t' < t then some t' else some t
    | none, read => read
    | oldest, none => oldest) none

/-- What a row counts as due. -/
def statusDue (states : List JobState) (cutoff : Time) (decides : JobRow → Bool)
    (r : JobRow) : Bool :=
  states.contains r.state && r.finalizedAt.any (fun t => decide (t < cutoff)) && decides r

/-- `retentionDue`; `estimate` is the planner's, which PostgreSQL alone gives. -/
def retentionDue (dialect : Dialect) (estimate : (JobRow → Bool) → ℕ) (states : List JobState)
    (cutoff : Time) (decides : JobRow → Bool) (db : Db) : JobCount :=
  let matching := statusDue states cutoff decides
  let n := ((db.jobs.rows.filter matching).take (defaultCountCap + 1)).length
  if n ≤ defaultCountCap then { n }
  else
    { n := defaultCountCap, capped := true
      estimate := if dialect = .postgres then max (estimate matching) (defaultCountCap + 1) else 0 }

/-- The row of the status at an index, for a hold of the stats rollup. -/
def statusRow (dialect : Dialect) (estimate : (JobRow → Bool) → ℕ) (now : Time) (maxAge : Duration)
    (rules : List RetentionRule) (held : Option Time) (db : Db) (i : ℕ) : RetentionStatusRow :=
  let rule := rules[i]?
  let states := statusStates rule
  let age := (rule.map RetentionRule.maxAge).getD maxAge
  let cutoff := match held with
    | some t => if t < now - age then t else now - age
    | none => now - age
  let decides := fun r => decide (retentionRow rules r = i)
  { kind := (rule.map RetentionRule.kind).getD ""
    state := rule.bind RetentionRule.state
    maxAge := age
    cutoff
    oldest := retentionOldest states decides db
    due := retentionDue dialect estimate states cutoff decides db }

/-- `RetentionStatus` -/
def retentionStatus (dialect : Dialect) (estimate : (JobRow → Bool) → ℕ) (now : Time)
    (maxAge : Duration) (rules : List RetentionRule) (db : Db) :
    Except TxError (List RetentionStatusRow) := do
  if maxAge ≤ 0 then throw (.validation "max_age" "must be positive")
  validateRetentionRules rules
  return (List.range (rules.length + 1)).map
    (statusRow dialect estimate now maxAge rules (statsRetentionCap db) db)

/-! ## The rule that a job is decided by -/

/-- The rule that the pass's CASE chooses. -/
def chosenRule (rules : List RetentionRule) (job : JobRow) : Option RetentionRule :=
  (retentionRuleOrder rules).find? fun r => r.selects job

/-- The rule that names these. -/
def ruleNaming (rules : List RetentionRule) (kind : String) (state : Option JobState) :
    Option RetentionRule :=
  rules.find? fun r => decide (r.kind = kind ∧ r.state = state)

/-- **The most specific rule**: the one that names the job's kind and state, else the one that names
its kind, else the one that names its state. -/
def mostSpecific (rules : List RetentionRule) (job : JobRow) : Option RetentionRule :=
  (ruleNaming rules job.kind (some job.state)).or
    ((ruleNaming rules job.kind none).or (ruleNaming rules "" (some job.state)))

variable {i : ℕ}

section Rules

variable {rules rules' : List RetentionRule} {job : JobRow}

/-- What a rule names. -/
def RetentionRule.names (r : RetentionRule) : String × Option JobState := (r.kind, r.state)

/-- Rules that `validateRetentionRules` accepts. -/
structure ValidRules (rules : List RetentionRule) : Prop where
  nodup : (rules.map RetentionRule.names).Nodup
  terminal : ∀ r ∈ rules, ∀ s, r.state = some s → s.isTerminal = true
  positive : ∀ r ∈ rules, 0 < r.maxAge
  named : ∀ r ∈ rules, ¬ (r.kind = "" ∧ r.state = none)

variable {seen : List RetentionRule} {kind : String} {state : Option JobState}
  {group : RetentionRule → Bool} {r : RetentionRule}

theorem RetentionRule.check_eq_ok :
    r.check i seen = .ok () ↔ (∀ s, r.state = some s → s.isTerminal = true) ∧ 0 < r.maxAge ∧
      ¬ (r.kind = "" ∧ r.state = none) ∧ r.names ∉ seen.map RetentionRule.names := by
  have hrepeats : (seen.findIdx? fun s => decide (s.kind = r.kind ∧ s.state = r.state)) = none ↔
      r.names ∉ seen.map RetentionRule.names := by
    simp [findIdx?_eq_none_iff, RetentionRule.names]
  unfold RetentionRule.check
  split_ifs with hstate hage hnames
  · refine iff_of_false nofun fun h => ?_
    cases hs : r.state with
    | none => simp [hs] at hstate
    | some s => simp [hs, h.1 s hs] at hstate
  · exact iff_of_false nofun fun h => absurd h.2.1 (not_lt.mpr hage)
  · exact iff_of_false nofun fun h => h.2.2.1 hnames
  · grind

theorem validateFrom_eq_ok : validateFrom seen rules = .ok () ↔
      (∀ r ∈ rules, (∀ s, r.state = some s → s.isTerminal = true) ∧ 0 < r.maxAge ∧
        ¬ (r.kind = "" ∧ r.state = none)) ∧
      (rules.map RetentionRule.names).Nodup ∧
      ∀ r ∈ rules, r.names ∉ seen.map RetentionRule.names := by
  induction rules generalizing seen with
  | nil => simp [validateFrom]
  | cons r rules ih =>
    have hstep : validateFrom seen (r :: rules) = .ok () ↔
        r.check seen.length seen = .ok () ∧ validateFrom (seen ++ [r]) rules = .ok () := by
      rw [validateFrom]
      cases r.check seen.length seen with
      | error e => simp [bind, Except.bind]
      | ok u => simp [bind, Except.bind]
    rw [hstep, RetentionRule.check_eq_ok, ih]
    grind

theorem validateRetentionRules_eq_ok : validateRetentionRules rules = .ok () ↔
    ValidRules rules := by
  rw [validateRetentionRules, validateFrom_eq_ok]
  constructor
  · rintro ⟨hrules, hnodup, -⟩
    exact ⟨hnodup, fun r hr => (hrules r hr).1, fun r hr => (hrules r hr).2.1,
      fun r hr => (hrules r hr).2.2⟩
  · intro h
    exact ⟨fun r hr => ⟨h.terminal r hr, h.positive r hr, h.named r hr⟩, h.nodup,
      fun _ _ => by simp⟩

section

variable (h : ValidRules rules)

include h

theorem ValidRules.perm (hperm : rules'.Perm rules) : ValidRules rules' :=
  ⟨(hperm.map _).nodup_iff.mpr h.nodup, fun r hr => h.terminal r (hperm.mem_iff.mp hr),
    fun r hr => h.positive r (hperm.mem_iff.mp hr), fun r hr => h.named r (hperm.mem_iff.mp hr)⟩

theorem ruleNaming_eq_some :
    ruleNaming rules kind state = some r ↔ r ∈ rules ∧ r.kind = kind ∧ r.state = state := by
  constructor
  · intro hfind
    exact ⟨mem_of_find?_eq_some hfind, by simpa using find?_some hfind⟩
  · rintro ⟨hr, rfl, rfl⟩
    cases hfind : ruleNaming rules r.kind r.state with
    | none =>
      have hnot := find?_eq_none.mp hfind r hr
      exact absurd (decide_eq_true ⟨rfl, rfl⟩) hnot
    | some r' =>
      have hnames : r'.kind = r.kind ∧ r'.state = r.state := by simpa using find?_some hfind
      rw [inj_on_of_nodup_map h.nodup (mem_of_find?_eq_some hfind) hr (Prod.ext hnames.1 hnames.2)]

theorem ruleNaming_perm (hperm : rules'.Perm rules) (kind : String)
    (state : Option JobState) : ruleNaming rules' kind state = ruleNaming rules kind state := by
  refine Option.ext fun r => ?_
  rw [ruleNaming_eq_some (h.perm hperm), ruleNaming_eq_some h, hperm.mem_iff]

/-- The most specific rule does not depend on the order of the rules. -/
theorem mostSpecific_perm (hperm : rules'.Perm rules) :
    mostSpecific rules' job = mostSpecific rules job := by
  simp only [mostSpecific, ruleNaming_perm h hperm]

end

theorem RetentionRule.selects_iff : r.selects job = true ↔
    (r.kind = "" ∨ r.kind = job.kind) ∧ (r.state = none ∨ r.state = some job.state) := by
  cases hs : r.state with
  | none => simp [RetentionRule.selects, hs, eq_comm (a := job.kind)]
  | some s => simp [RetentionRule.selects, hs, eq_comm (a := job.kind), eq_comm (a := s)]

/-- A branch's search finds the rule that names these, when its condition says that the rule
does. -/
theorem find?_group
    (h : ∀ r, group r = true ∧ r.selects job = true ↔ r.kind = kind ∧ r.state = state) :
    ((rules.filter group).find? fun r => r.selects job) = ruleNaming rules kind state := by
  rw [find?_filter, ruleNaming]
  simp_all

theorem find?_group_none (h : ∀ r, ¬ (group r = true ∧ r.selects job = true)) :
    ((rules.filter group).find? fun r => r.selects job) = none :=
  find?_eq_none.mpr fun r hr hselects => h r ⟨(mem_filter.mp hr).2, hselects⟩

/-- **The CASE chooses the most specific rule.** -/
theorem chosenRule_eq (h : ValidRules rules) (job : JobRow) :
    chosenRule rules job = mostSpecific rules job := by
  have hstate : ((rules.filter fun r => decide (r.kind = "") && r.state.isSome).find? fun r =>
      r.selects job) = ruleNaming rules "" (some job.state) := by
    refine find?_group fun r => ?_
    rw [RetentionRule.selects_iff, Bool.and_eq_true, decide_eq_true_iff]
    cases r.state <;> grind
  rw [chosenRule, retentionRuleOrder, find?_append, find?_append, hstate, mostSpecific]
  by_cases hjob : job.kind = ""
  · -- no rule names the kind of such a job, and none names nothing
    have hnone : ruleNaming rules "" none = none := by
      refine find?_eq_none.mpr fun r hr hnames => h.named r hr ?_
      simpa using hnames
    have hnames : ∀ r : RetentionRule, ∀ b : Bool,
        ¬ ((decide (r.kind ≠ "") && b) = true ∧ r.selects job = true) := by
      simp_all [RetentionRule.selects_iff]
    rw [find?_group_none fun r => hnames r r.state.isSome,
      find?_group_none fun r => hnames r r.state.isNone, hjob, hnone]
    cases ruleNaming rules "" (some job.state) <;> rfl
  · have hboth : ((rules.filter fun r => decide (r.kind ≠ "") && r.state.isSome).find? fun r =>
        r.selects job) = ruleNaming rules job.kind (some job.state) := by
      refine find?_group fun r => ?_
      rw [RetentionRule.selects_iff, Bool.and_eq_true, decide_eq_true_iff]
      cases r.state <;> grind
    have hkind : ((rules.filter fun r => decide (r.kind ≠ "") && r.state.isNone).find? fun r =>
        r.selects job) = ruleNaming rules job.kind none := by
      refine find?_group fun r => ?_
      rw [RetentionRule.selects_iff, Bool.and_eq_true, decide_eq_true_iff]
      cases r.state <;> grind
    rw [hboth, hkind, Option.or_assoc]

end Rules

/-! ## The deletes of several batches -/

section Deletes

variable {ids ids' : List String} {db : Db}

theorem deleteJobRows_congr (h : ∀ id, id ∈ ids ↔ id ∈ ids') (db : Db) :
    deleteJobRows ids db = deleteJobRows ids' db := by
  simp only [deleteJobRows, h]

theorem deleteJobRows_nil (db : Db) : deleteJobRows [] db = db := by
  have hfinishes : (db.finishes.filter fun e => !db.runs.rows.any fun run =>
      decide (run.jobID ∈ ([] : List String) ∧ run.finishedAt = some e.finishedAt ∧
        run.id = e.runID)) = db.finishes :=
    filter_eq_self.mpr fun e _ => by simp
  have hlines : (db.runLogs.filter fun l => !decide (l.jobID ∈ ([] : List String))) = db.runLogs :=
    filter_eq_self.mpr fun l _ => by simp
  rw [deleteJobRows, hfinishes, hlines, delete_of_false fun _ _ => by simp,
    delete_of_false fun _ _ => by simp]

/-- Two deletes are one of both. -/
theorem deleteJobRows_append (ids ids' : List String) (db : Db) :
    deleteJobRows ids' (deleteJobRows ids db) = deleteJobRows (ids ++ ids') db := by
  -- the runs that the first delete took had their entries deleted with them
  have hfinishes : ((deleteJobRows ids db).finishes.filter fun e =>
      !(deleteJobRows ids db).runs.rows.any fun run =>
        decide (run.jobID ∈ ids' ∧ run.finishedAt = some e.finishedAt ∧ run.id = e.runID)) =
      db.finishes.filter fun e => !db.runs.rows.any fun run =>
        decide (run.jobID ∈ ids ++ ids' ∧ run.finishedAt = some e.finishedAt ∧
          run.id = e.runID) := by
    simp only [deleteJobRows, Table.delete, List.filter_filter]
    refine filter_congr fun e _ => ?_
    grind
  have hlines : ((deleteJobRows ids db).runLogs.filter fun l => !decide (l.jobID ∈ ids')) =
      db.runLogs.filter fun l => !decide (l.jobID ∈ ids ++ ids') := by
    simp only [deleteJobRows, List.filter_filter]
    grind
  simp_all [deleteJobRows, delete_delete]

end Deletes

/-! ## The pass -/

/-- The jobs that a pass with this cutoff has due. -/
def dueIDs (cutoff : JobRow → Bool) (db : Db) : List String :=
  (db.jobs.rows.filter (finishedAfter cutoff "")).map JobRow.id

theorem RetentionOpts.size_pos (o : RetentionOpts) : 0 < o.size := by
  unfold RetentionOpts.size orDefault
  split_ifs <;> omega

section Pass

variable {cutoff : JobRow → Bool} {cursor : String} {limit : ℕ} {db : Db} {ids : List String}

theorem mem_dueIDs {id : String} : id ∈ dueIDs cutoff db ↔
    ∃ r ∈ db.jobs.rows, finishedAfter cutoff "" r = true ∧ r.id = id := by
  simp [dueIDs, and_assoc]

theorem finishedAfter_iff {r : JobRow} : finishedAfter cutoff cursor r = true ↔
    finishedAfter cutoff "" r = true ∧ (cursor = "" ∨ cursor < r.id) := by
  simp [finishedAfter]

/-- The ids that the batches past a cursor select, in order. -/
def finishedOrder (cutoff : JobRow → Bool) (cursor : String) (db : Db) : List String :=
  ((db.jobs.rows.filter (finishedAfter cutoff cursor)).map JobRow.id).insertionSort (· ≤ ·)

theorem ascending_finishedOrder (cutoff : JobRow → Bool) (cursor : String) (db : Db) :
    Keyset.Ascending id (finishedOrder cutoff cursor db) := by
  refine Keyset.ascending_insertionSort ?_
  rw [List.map_id]
  exact db.jobs.nodup.sublist (filter_sublist.map _)

/-- Every due job is past the cursor. -/
def PastDue (cutoff : JobRow → Bool) (cursor : String) (db : Db) : Prop :=
  ∀ r ∈ db.jobs.rows, finishedAfter cutoff "" r = true → cursor = "" ∨ cursor < r.id

theorem mem_finishedOrder (hpast : PastDue cutoff cursor db) {id : String} :
    id ∈ finishedOrder cutoff cursor db ↔ id ∈ dueIDs cutoff db := by
  rw [finishedOrder, mem_insertionSort, mem_dueIDs, List.mem_map]
  refine exists_congr fun r => ?_
  rw [mem_filter, and_assoc, finishedAfter_iff]
  constructor
  · simp_all
  · rintro ⟨hr, hdue, hid⟩
    exact ⟨hr, ⟨hdue, hpast r hr hdue⟩, hid⟩

/-- What a batch selects: due jobs, up to the last of them. -/
theorem finishedIDs_spec (hlimit : 0 < limit) (hpast : PastDue cutoff cursor db) :
    (∀ id ∈ finishedIDs cutoff cursor limit db, id ∈ dueIDs cutoff db) ∧
      (finishedIDs cutoff cursor limit db = [] → dueIDs cutoff db = []) ∧
      ∀ last, (finishedIDs cutoff cursor limit db).getLast? = some last →
        ∀ id ∈ dueIDs cutoff db, id ∉ finishedIDs cutoff cursor limit db → last < id := by
  change (∀ id ∈ (finishedOrder cutoff cursor db).take limit, _) ∧
    ((finishedOrder cutoff cursor db).take limit = [] → _) ∧
    ∀ last, ((finishedOrder cutoff cursor db).take limit).getLast? = some last →
      ∀ id ∈ dueIDs cutoff db, id ∉ (finishedOrder cutoff cursor db).take limit → last < id
  refine ⟨fun id hid => (mem_finishedOrder hpast).mp (mem_of_mem_take hid), fun hnil => ?_, ?_⟩
  · rcases take_eq_nil_iff.mp hnil with hzero | hnil
    · exact absurd hzero hlimit.ne'
    · refine eq_nil_iff_forall_not_mem.mpr fun id hid => ?_
      rw [← mem_finishedOrder hpast, hnil] at hid
      cases hid
  · intro last hlast id hid hnot
    rw [← mem_finishedOrder hpast, ← take_append_drop limit (finishedOrder cutoff cursor db),
      mem_append] at hid
    exact ((ascending_finishedOrder cutoff cursor db).page hlast).2 id (hid.resolve_left hnot)

theorem mem_dueIDs_delete {id : String} :
    id ∈ dueIDs cutoff (deleteJobRows ids db) ↔ id ∈ dueIDs cutoff db ∧ id ∉ ids := by
  rw [mem_dueIDs, mem_dueIDs]
  constructor
  · rintro ⟨r, hr, hdue, rfl⟩
    obtain ⟨hr, hnot⟩ := mem_filter.mp hr
    exact ⟨⟨r, hr, hdue, rfl⟩, by simpa using hnot⟩
  · rintro ⟨⟨r, hr, hdue, rfl⟩, hnot⟩
    exact ⟨r, mem_filter.mpr ⟨hr, by simpa using hnot⟩, hdue, rfl⟩

theorem countP_delete (hids : ∀ id ∈ ids, id ∈ dueIDs cutoff db) :
    db.jobs.rows.length - (deleteJobRows ids db).jobs.rows.length +
        (deleteJobRows ids db).jobs.rows.countP (finishedAfter cutoff "") =
      db.jobs.rows.countP (finishedAfter cutoff "") := by
  have hdue : ∀ r ∈ db.jobs.rows, r.id ∈ ids → finishedAfter cutoff "" r = true := by
    intro r hr hid
    obtain ⟨r', hr', hdue, hkey⟩ := mem_dueIDs.mp (hids r.id hid)
    rwa [eq_of_key_eq hr' hr hkey] at hdue
  change db.jobs.rows.length - (db.jobs.rows.filter fun r => !decide (r.id ∈ ids)).length +
    (db.jobs.rows.filter fun r => !decide (r.id ∈ ids)).countP (finishedAfter cutoff "") = _
  generalize db.jobs.rows = rows at hdue
  induction rows with
  | nil => rfl
  | cons r rows ih =>
    by_cases hid : r.id ∈ ids
    · grind
    · grind

/-- **The batches of a pass together delete the due jobs**, whatever their size, once there is one
batch more than due jobs. -/
theorem deleteBatches_eq (hlimit : 0 < limit) {n : ℕ} (hnamed : db.Named)
    (hpast : PastDue cutoff cursor db) (hn : db.jobs.rows.countP (finishedAfter cutoff "") < n) :
    deleteBatches cutoff limit n cursor db =
      (deleteJobRows (dueIDs cutoff db) db, db.jobs.rows.countP (finishedAfter cutoff "")) := by
  induction n generalizing cursor db with
  | zero => exact absurd hn (Nat.not_lt_zero _)
  | succ n ih =>
    obtain ⟨hdue, hnil, hrest⟩ := finishedIDs_spec hlimit hpast
    have hcount := countP_delete hdue
    rw [deleteBatches, deleteFinishedBatch]
    generalize finishedIDs cutoff cursor limit db = ids at hdue hnil hrest hcount
    dsimp only
    cases hlast : ids.getLast? with
    | none =>
      -- nothing is due any more
      obtain rfl := getLast?_eq_none_iff.mp hlast
      have hnone : db.jobs.rows.countP (finishedAfter cutoff "") = 0 := by
        rw [countP_eq_length_filter, map_eq_nil_iff.mp (hnil rfl), length_nil]
      rw [getD_none, if_pos rfl, hnil rfl, deleteJobRows_nil, Nat.sub_self, hnone]
    | some last =>
      obtain ⟨r, hr, hrdue, hid⟩ := mem_dueIDs.mp (hdue last (mem_of_getLast? hlast))
      have hless : (deleteJobRows ids db).jobs.rows.countP (finishedAfter cutoff "") <
          db.jobs.rows.countP (finishedAfter cutoff "") := by
        change (db.jobs.rows.filter _).countP _ < _
        rw [countP_filter]
        refine Keyset.countP_lt_countP (fun r h => (Bool.and_eq_true_iff.mp h).1) hr ?_ hrdue
        simp [hid, mem_of_getLast? hlast]
      have hpast' : PastDue cutoff last (deleteJobRows ids db) := by
        intro r hr hrdue
        obtain ⟨hbefore, hnot⟩ := mem_dueIDs_delete.mp (mem_dueIDs.mpr ⟨r, hr, hrdue, rfl⟩)
        exact .inr (hrest last hlast r.id hbefore hnot)
      have hnamed' : (deleteJobRows ids db).Named := fun r hr => hnamed r (mem_filter.mp hr).1
      rw [getD_some, if_neg (hid ▸ hnamed r hr), ih hnamed' hpast' (by omega), deleteJobRows_append]
      grind [deleteJobRows_congr, mem_dueIDs_delete]

end Pass

/-! ## The status and the pass -/

section Status

variable {rules : List RetentionRule} {job : JobRow}

theorem retentionIndexOrder_fst (rules : List RetentionRule) :
    (retentionIndexOrder rules).map Prod.fst = retentionRuleOrder rules := by
  have hgroup : ∀ group : RetentionRule → Bool,
      (rules.zipIdx.filter fun r => group r.1).map Prod.fst = rules.filter group := by
    intro group
    conv_rhs => rw [← zipIdx_map_fst 0 rules, List.filter_map]
    rfl
  grind [retentionIndexOrder, retentionRuleOrder]

/-- The row that a job falls to is that of the rule which the pass chooses, or the default's. -/
theorem retentionRow_spec (rules : List RetentionRule) (job : JobRow) :
    rules[retentionRow rules job]? = chosenRule rules job ∧
      retentionRow rules job < rules.length + 1 := by
  have hchosen : chosenRule rules job =
      ((retentionIndexOrder rules).find? fun r => r.1.selects job).map Prod.fst := by
    rw [chosenRule, ← retentionIndexOrder_fst, find?_map]
    rfl
  rw [hchosen, retentionRow]
  cases hfind : (retentionIndexOrder rules).find? fun r => r.1.selects job with
  | none => simp
  | some found => grind [retentionIndexOrder]

/-- The job has ended. -/
def JobRow.Finished (r : JobRow) : Prop := r.state.isTerminal = true ∧ r.finalizedAt.isSome = true

/-- The job ended before a time. -/
def JobRow.FinishedBefore (r : JobRow) (t : Time) : Prop :=
  r.state.isTerminal = true ∧ r.finalizedAt.any (fun e => decide (e < t)) = true

/-- The cutoff of a rule, or of the default age, under a hold. -/
def cappedCutoff (held now : Time) (maxAge : Duration) (rule : Option RetentionRule) : Time :=
  min held (now - (rule.map RetentionRule.maxAge).getD maxAge)

/-- **What a holding pass has due**: the jobs that ended before the capped cutoff of the rule that
decides them. -/
theorem finishedAfter_hold (h : ValidRules rules) (held now : Time) (maxAge : Duration)
    (r : JobRow) :
    finishedAfter (retentionCutoff now (min held (now - maxAge)) rules (min held)) "" r = true ↔
      r.FinishedBefore (cappedCutoff held now maxAge (mostSpecific rules r)) := by
  rw [← chosenRule_eq h, JobRow.FinishedBefore]
  unfold finishedAfter retentionCutoff chosenRule cappedCutoff
  cases (retentionRuleOrder rules).find? fun rule => rule.selects r with
  | none | some => cases r.finalizedAt <;> simp [JobState.isTerminal]

/-- What is left when jobs are deleted: neither they, nor their runs, nor the lines, nor the runs'
entries of the finish log; all else stays. -/
structure Deleted (due : JobRow → Prop) (db after : Db) : Prop where
  jobs : ∀ r, r ∈ after.jobs.rows ↔ r ∈ db.jobs.rows ∧ ¬ due r
  runs : ∀ run, run ∈ after.runs.rows ↔
    run ∈ db.runs.rows ∧ ¬ ∃ r ∈ db.jobs.rows, due r ∧ run.jobID = r.id
  lines : ∀ l, l ∈ after.runLogs ↔ l ∈ db.runLogs ∧ ¬ ∃ r ∈ db.jobs.rows, due r ∧ l.jobID = r.id
  finishes : ∀ e, e ∈ after.finishes ↔ e ∈ db.finishes ∧ ¬ ∃ run ∈ db.runs.rows,
    (∃ r ∈ db.jobs.rows, due r ∧ run.jobID = r.id) ∧ run.finishedAt = some e.finishedAt ∧
      run.id = e.runID
  rest : after = { db with
    jobs := after.jobs, runs := after.runs, runLogs := after.runLogs, finishes := after.finishes }

variable {due : JobRow → Prop}

theorem deleted_dueIDs {cutoff : JobRow → Bool} (h : ∀ r, finishedAfter cutoff "" r = true ↔ due r)
    (db : Db) : Deleted due db (deleteJobRows (dueIDs cutoff db) db) := by
  have hdue : ∀ id, id ∈ dueIDs cutoff db ↔ ∃ r ∈ db.jobs.rows, due r ∧ id = r.id := by
    intro id
    simp only [mem_dueIDs, h, eq_comm]
  refine ⟨fun r => ?_, fun run => ?_, fun l => ?_, fun e => ?_, rfl⟩
  · have hself : r ∈ db.jobs.rows → (r.id ∈ dueIDs cutoff db ↔ due r) := by
      intro hr
      grind [eq_of_key_eq]
    simp only [deleteJobRows, Table.delete, mem_filter, Bool.not_eq_true', decide_eq_false_iff_not]
    exact and_congr_right fun hr => not_congr (hself hr)
  · simp_all [deleteJobRows, Table.delete]
  · simp [deleteJobRows, hdue]
  · simp_all [deleteJobRows]

theorem Deleted.get?_isNone {db after : Db} (h : Deleted due db after) {r : JobRow}
    (hr : r ∈ db.jobs.rows) : (after.jobs.get? r.id).isNone = true ↔ due r := by
  rw [isNone_iff_eq_none, get?_eq_none_iff]
  constructor
  · intro hgone
    by_contra hdue
    exact hgone r ((h.jobs r).mpr ⟨hr, hdue⟩) rfl
  · intro hdue r' hr' hid
    obtain ⟨hmem, hnot⟩ := (h.jobs r').mp hr'
    grind [eq_of_key_eq]

/-- The jobs that a row of the status reads. -/
def rowReads (rules : List RetentionRule) (i : ℕ) (r : JobRow) : Bool :=
  (statusStates rules[i]?).contains r.state && r.finalizedAt.isSome &&
    decide (retentionRow rules r = i)

theorem selects_chosenRule {rule : RetentionRule} (h : chosenRule rules job = some rule) :
    rule.selects job = true := by
  have hselects := find?_some h
  exact hselects

theorem contains_statusStates (hrow : retentionRow rules job = i)
    (hterminal : job.state.isTerminal = true) :
    (statusStates rules[i]?).contains job.state = true := by
  have hchosen := (retentionRow_spec rules job).1
  rw [hrow] at hchosen
  cases hrule : rules[i]? with
  | none => exact hterminal
  | some rule =>
    rw [hrule] at hchosen
    rw [statusStates, bind_some]
    rcases (RetentionRule.selects_iff.mp (selects_chosenRule hchosen.symm)).2 with hnone | hstate
    · rw [hnone]
      exact hterminal
    · rw [hstate]
      simp

theorem finished_of_rowReads (h : ValidRules rules) (hreads : rowReads rules i job = true) :
    job.Finished := by
  simp only [rowReads, Bool.and_eq_true] at hreads
  refine ⟨?_, hreads.1.2⟩
  have hstate := hreads.1.1
  cases hrule : rules[i]?.bind RetentionRule.state with
  | none =>
    rw [statusStates, hrule] at hstate
    exact hstate
  | some s =>
    rw [statusStates, hrule] at hstate
    obtain ⟨rule, hget, hs⟩ := bind_eq_some_iff.mp hrule
    have hterminal := h.terminal rule (mem_of_getElem? hget) s hs
    rwa [mem_singleton.mp (contains_iff_mem.mp hstate)]

/-- **The rows of the status partition the jobs that have ended.** -/
theorem existsUnique_rowReads (hjob : job.Finished) :
    ∃! i, i < rules.length + 1 ∧ rowReads rules i job = true := by
  refine ⟨retentionRow rules job, ⟨(retentionRow_spec rules job).2, ?_⟩, ?_⟩
  · simp only [rowReads, Bool.and_eq_true, decide_eq_true_iff, and_true]
    exact ⟨contains_statusStates rfl hjob.1, hjob.2⟩
  · simp_all [rowReads]

/-- **What a row has due** is what the pass has due of the jobs that the row reads. -/
theorem statusDue_iff (h : ValidRules rules) (held now : Time) (maxAge : Duration) (i : ℕ)
    (r : JobRow) :
    statusDue (statusStates rules[i]?) (cappedCutoff held now maxAge rules[i]?)
        (fun r => decide (retentionRow rules r = i)) r = true ↔
      rowReads rules i r = true ∧
        r.FinishedBefore (cappedCutoff held now maxAge (mostSpecific rules r)) := by
  simp only [statusDue, Bool.and_eq_true, decide_eq_true_iff]
  constructor
  · rintro ⟨⟨hstate, hend⟩, hrow⟩
    have hsome : r.finalizedAt.isSome = true := by
      cases hfinal : r.finalizedAt with
      | none => rw [hfinal] at hend; cases hend
      | some e => rfl
    have hreads : rowReads rules i r = true := by
      simp_all [rowReads]
    have hchosen := (retentionRow_spec rules r).1
    rw [hrow, chosenRule_eq h] at hchosen
    rw [hchosen] at hend
    exact ⟨hreads, (finished_of_rowReads h hreads).1, hend⟩
  · rintro ⟨hreads, -, hend⟩
    simp only [rowReads, Bool.and_eq_true, decide_eq_true_iff] at hreads
    grind [retentionRow_spec, chosenRule_eq]

/-- What a row holds under a hold: its cutoff, and what is due by it. -/
theorem statusRow_held (dialect : Dialect) (estimate : (JobRow → Bool) → ℕ) (now : Time)
    (maxAge : Duration) (rules : List RetentionRule) (held : Time) (db : Db) (i : ℕ) :
    let row := statusRow dialect estimate now maxAge rules (some held) db i
    let cutoff := cappedCutoff held now maxAge rules[i]?
    row.cutoff = cutoff ∧ row.due = retentionDue dialect estimate (statusStates rules[i]?) cutoff
      (fun r => decide (retentionRow rules r = i)) db := by
  intro row cutoff
  have hcutoff : (if held < now - (rules[i]?.map RetentionRule.maxAge).getD maxAge then held
      else now - (rules[i]?.map RetentionRule.maxAge).getD maxAge) = cutoff := (min_def_lt ..).symm
  refine ⟨hcutoff, ?_⟩
  rw [← hcutoff]
  rfl

theorem retentionDue_n {dialect : Dialect} {estimate : (JobRow → Bool) → ℕ} {states : List JobState}
    {cutoff : Time} {decides : JobRow → Bool} {db : Db}
    (h : (retentionDue dialect estimate states cutoff decides db).capped = false) :
    (retentionDue dialect estimate states cutoff decides db).n =
      (db.jobs.rows.filter (statusDue states cutoff decides)).length := by
  unfold retentionDue at h ⊢
  grind

end Status

/-- **The most specific rule decides, for the pass and for the status alike.** The rules are
accepted, in any order; the rollup covers an hour, and no job has an empty id. A holding pass
without a limit deletes the jobs that ended before the capped cutoff of the rule that decides them,
with what is theirs, and it ends; each job that has ended is read by one row of the status, whose
count of due jobs is the number that the pass deletes of those that the row reads. -/
theorem most_specific_rule_decides {o : RetentionOpts} {db : Db} {p : ProgressRow}
    (hrules : validateRetentionRules o.rules = .ok ()) (hhold : o.holdForStatsRollup = true)
    (hmax : o.maxBatches ≤ 0) (hp : db.progress = some p) (hcovers : p.coveredFrom < p.coveredTo)
    (hnamed : db.Named) (now : Time) (maxAge : Duration) (dialect : Dialect)
    (estimate : (JobRow → Bool) → ℕ) :
    (∀ rules', rules'.Perm o.rules → ∀ job, chosenRule rules' job = mostSpecific o.rules job) ∧
    ∃ held after n, statsRetentionCap db = some held ∧
      deleteFinishedJobsWithOptions o now (now - maxAge) db = .ok (after, n) ∧
      (∀ batches > db.jobs.rows.length,
        deleteBatches (retentionCutoff now (min held (now - maxAge)) o.rules (min held))
          o.size batches "" db = (after, n)) ∧
      Deleted (fun r => r.FinishedBefore (cappedCutoff held now maxAge (mostSpecific o.rules r))) db
        after ∧
      (0 < maxAge → ∃ rows, retentionStatus dialect estimate now maxAge o.rules db = .ok rows ∧
        rows.length = o.rules.length + 1 ∧
        (∀ i r, rowReads o.rules i r = true → r.Finished) ∧
        (∀ r, r.Finished → ∃! i, i < rows.length ∧ rowReads o.rules i r = true) ∧
        ∀ i row, rows[i]? = some row →
          row.cutoff = cappedCutoff held now maxAge o.rules[i]? ∧
          (row.due.capped = false → row.due.n = (db.jobs.rows.filter fun r =>
            rowReads o.rules i r && (after.jobs.get? r.id).isNone).length)) := by
  have h := validateRetentionRules_eq_ok.mp hrules
  refine ⟨fun rules' hperm job => ?_, ?_⟩
  · rw [chosenRule_eq (h.perm hperm), mostSpecific_perm h hperm]
  obtain ⟨held, hheld⟩ : ∃ held, statsRetentionCap db = some held := by
    simp_all [statsRetentionCap]
  have hpass : ∀ batches > db.jobs.rows.length, deleteBatches
      (retentionCutoff now (min held (now - maxAge)) o.rules (min held)) o.size batches "" db = _ :=
    fun batches hbatches => deleteBatches_eq o.size_pos hnamed (fun _ _ _ => .inl rfl)
      (countP_le_length.trans_lt hbatches)
  have hdeleted := deleted_dueIDs (finishedAfter_hold h held now maxAge) db
  refine ⟨held, _, _, hheld, ?_, hpass, hdeleted, fun hage => ?_⟩
  · have hcutoff : o.cutoff now (now - maxAge) db =
        .ok (some (retentionCutoff now (min held (now - maxAge)) o.rules (min held))) := by
      simp_all [RetentionOpts.cutoff, bind, Except.bind, pure, Except.pure]
    simp_all [deleteFinishedJobsWithOptions, bind, Except.bind, pure, Except.pure]
  · refine ⟨_, by
      rw [retentionStatus, hrules, hheld, if_neg (not_le.mpr hage)]
      rfl, by simp, fun i r hreads => finished_of_rowReads h hreads, ?_, ?_⟩
    · intro r hfinished
      rw [length_map, length_range]
      exact existsUnique_rowReads hfinished
    · intro i row hrow
      rw [getElem?_map] at hrow
      obtain ⟨k, hk, rfl⟩ := map_eq_some_iff.mp hrow
      obtain ⟨hi, hget⟩ := List.getElem?_eq_some_iff.mp hk
      rw [getElem_range] at hget
      subst hget
      obtain ⟨hcutoff, hdue⟩ := statusRow_held dialect estimate now maxAge o.rules held db i
      refine ⟨hcutoff, fun hcapped => ?_⟩
      rw [hdue] at hcapped ⊢
      rw [retentionDue_n hcapped]
      refine congrArg List.length (filter_congr fun r hr => ?_)
      rw [Bool.eq_iff_iff, statusDue_iff h, Bool.and_eq_true, hdeleted.get?_isNone hr]

/-- A job of a kind, ended at time zero. -/
def reportJob (id : String) (state : JobState) : JobRow :=
  { (default : JobRow) with id, kind := "report", state, finalizedAt := some 0 }

/-- One job succeeded and one was discarded, in the first hour, which the rollup covers. -/
def reportDb : Db where
  jobs := Table.empty.insertAll uniqueClash [reportJob "a" .succeeded, reportJob "b" .discarded]
  progress := some
    { coveredFrom := 0, coveredTo := 3600, retainFrom := 0, version := 1, updatedAt := 0 }

/-- A holding pass that keeps the discarded jobs of the kind longer than its others. -/
def ruledPass : RetentionOpts where
  holdForStatsRollup := true
  rules := [{ kind := "report", maxAge := 1 },
    { kind := "report", state := some .discarded, maxAge := 100 }]

/-- The pass deletes the one job and keeps the other. -/
theorem discarded_job_outlives_its_kind :
    ∃ after n, deleteFinishedJobsWithOptions ruledPass 10 5 reportDb = .ok (after, n) ∧
      reportJob "a" .succeeded ∉ after.jobs.rows ∧ reportJob "b" .discarded ∈ after.jobs.rows := by
  have hrows : reportDb.jobs.rows = [reportJob "a" .succeeded, reportJob "b" .discarded] := by rfl
  have hnamed : reportDb.Named := by
    unfold Db.Named
    decide
  obtain ⟨-, held, after, n, hheld, hok, -, hdeleted, -⟩ := most_specific_rule_decides
    (o := ruledPass) (by decide) rfl (by decide) rfl (by decide) hnamed 10 5 .postgres fun _ => 0
  cases hheld
  refine ⟨after, n, hok, fun hmem => ?_, (hdeleted.jobs _).mpr ⟨?_, fun h => ?_⟩⟩
  · exact ((hdeleted.jobs _).mp hmem).2 ⟨by decide, by decide⟩
  · simp_all
  · exact absurd h.2 (by decide)

/-- A job with an empty id before another that is due. -/
def emptyIDDb : Db where
  jobs := Table.empty.insertAll uniqueClash [reportJob "" .succeeded, reportJob "b" .succeeded]
  progress := some
    { coveredFrom := 0, coveredTo := 3600, retainFrom := 0, version := 1, updatedAt := 0 }

/-- **An empty id ends a pass.** The batch of the job with the empty id reports it as the last that
it saw, which the loop reads as an empty batch, and the other job stays although it is due. -/
theorem empty_id_ends_the_pass :
    ∃ after n, deleteFinishedJobsWithOptions
      { batchSize := 1, holdForStatsRollup := true } 10 5 emptyIDDb =
        .ok (after, n) ∧
      reportJob "b" .succeeded ∈ after.jobs.rows ∧
      (reportJob "b" .succeeded).FinishedBefore
        (cappedCutoff (unixHour 3600) 10 5 (mostSpecific [] (reportJob "b" .succeeded))) := by
  refine ⟨deleteJobRows [""] emptyIDDb, 1, by rfl, ?_, by decide, by decide⟩
  have hrows : (deleteJobRows [""] emptyIDDb).jobs.rows = [reportJob "b" .succeeded] := by rfl
  simp_all

end Flywheel
