import Flywheel.Control.Walk

/-!
# Active keys through retries and replays

At most one live job holds an active key, and a retry that puts jobs live keeps it so: of the jobs
that share a free key it takes the first by id, whatever the pages it reads them in. The pick over
all the selected jobs says which (`mem_liveCandidates_first`), for a replay through the invariant of
its batches and for a bulk retry through its plan.
-/

namespace Flywheel

open Relational Transition Keyset List Option Table

/-- No live job holds the key. -/
def Db.KeyFree (db : Db) (key : String) : Prop :=
  ∀ s ∈ db.jobs.rows, s.uniqueActiveKey = some key → s.live = false

/-- Of the targeted terminal jobs that share a key which no live job held, the one with the smallest
id is live, and no other. -/
def FirstGoesLive (targets : JobRow → Bool) (db db' : Db) : Prop :=
  ∀ r ∈ db.jobs.rows, targets r = true → r.state.isTerminal = true →
    ∀ key, r.uniqueActiveKey = some key → db.KeyFree key →
      ((∃ r', db'.jobs.get? r.id = some r' ∧ r'.live = true) ↔
        ∀ s ∈ db.jobs.rows, targets s = true → s.uniqueActiveKey = some key → r.id ≤ s.id)

/-- No terminal job went live. -/
def NoneGoesLive (db db' : Db) : Prop :=
  ∀ r ∈ db.jobs.rows, r.state.isTerminal = true →
    ∃ r', db'.jobs.get? r.id = some r' ∧ r'.live = false

variable {held : JobRow → Bool} {rows : List JobRow} {r : JobRow} {key : String} {db : Db}
  {opts : ReplayOpts} {ctx : Context}

theorem JobRow.live_eq_false : r.live = false ↔ r.state.isTerminal = true := by
  rw [JobRow.live, nonTerminalStates_contains, Bool.not_eq_false']

/-! ## The pick -/

/-- **In the order of the ids, the pick takes the first row with a free key.** -/
theorem mem_liveCandidates_first (hasc : Ascending JobRow.id rows) (hr : r ∈ rows)
    (hkey : r.uniqueActiveKey = some key)
    (hfree : ∀ s ∈ rows, s.uniqueActiveKey = some key → held s = false) :
    r.id ∈ liveCandidates held [] rows ↔
      ∀ s ∈ rows, s.uniqueActiveKey = some key → r.id ≤ s.id := by
  have hnodup := nodup_ids hasc
  obtain ⟨pre, post, rfl⟩ := append_of_mem hr
  obtain ⟨-, hpost, hcross⟩ := pairwise_append.mp hasc
  rw [mem_liveCandidates hnodup]
  constructor
  · intro hpick s hs hskey
    rcases mem_append.mp hs with hpre | hs'
    · -- a row before it would have taken the key
      have htaken := (hpick key hkey).2
      exact absurd (mem_takenAfter.mpr (.inr ⟨s, hpre, hskey, hfree s hs hskey⟩)) htaken
    · rcases mem_cons.mp hs' with rfl | hs'
      · exact le_rfl
      · exact ((pairwise_cons.mp hpost).1 s hs').le
  · intro hfirst key' hkey'
    refine ⟨hfree r hr hkey, fun htaken => ?_⟩
    rcases mem_takenAfter.mp htaken with hnil | ⟨s, hs, hskey, -⟩
    · cases hnil
    · grind

theorem Db.KeyFree.activeKeyHeld (h : db.KeyFree key) (hkey : r.uniqueActiveKey = some key) :
    activeKeyHeld db r = false := by
  rw [← Bool.not_eq_true, activeKeyHeld_iff]
  rintro ⟨key', hkey', s, hs, hskey, hlive, -⟩
  cases hkey'.symm.trans hkey
  rw [h s hs hskey] at hlive
  cases hlive

/-! ## Replays -/

theorem ReplayInv.firstGoesLive {now : Time} {s : ReplayRun}
    (h : ReplayInv opts now db (opts.targets db) s) :
    FirstGoesLive (opts.selects "" db) db s.db := by
  intro r hr htarget hended key hkey hfree
  have hget := get?_key hr
  have hlive : (∃ r', s.db.jobs.get? r.id = some r' ∧ r'.live = true) ↔
      r.id ∈ liveCandidates (Flywheel.activeKeyHeld db) [] (opts.targets db) := by
    by_cases hpick : r.id ∈ liveCandidates (Flywheel.activeKeyHeld db) [] (opts.targets db)
    · obtain ⟨r', hr', due, rfl⟩ := h.picked r.id r hget hpick
      exact iff_of_true ⟨_, hr', rfl⟩ hpick
    · refine iff_of_false ?_ hpick
      rintro ⟨r', hr', hlive⟩
      cases hr'.symm.trans (h.kept r.id r hget hpick)
      rw [JobRow.live_eq_false.mpr hended] at hlive
      cases hlive
  refine hlive.trans ((mem_liveCandidates_first (ascending_rows db.jobs _)
    (opts.mem_targets.mpr ⟨hr, htarget⟩) hkey fun s _ hskey => hfree.activeKeyHeld hskey).trans ?_)
  simp_all

theorem replay_refusal {e : TxError}
    (h : (do opts.refuse; resolveActor ctx) = .error e) : e ≠ .duplicateKey := by
  rintro rfl
  cases hrefuse : opts.refuse with
  | error e =>
    rw [hrefuse] at h
    obtain rfl : e = .duplicateKey := Except.error.inj h
    grind [ReplayOpts.refuse]
  | ok u =>
    rw [hrefuse] at h
    change resolveActor ctx = _ at h
    grind [resolveActor]

variable (call : ℕ → Context)

/-- **A replay keeps the active keys**, whatever its scope and batches. -/
theorem replay_keeps_keys (opts : ReplayOpts) (requested : ℤ)
    (hcall : OneActor call) (hnamed : db.Named) (hindex : activeKeysUnique db.jobs = true) :
    ∃ e, (∀ fuel, db.jobs.rows.length < fuel →
        replay call false (fun _ => false) opts requested fuel db = some e) ∧
      e.error ≠ some (.batch .duplicateKey) ∧ activeKeysUnique e.db.jobs = true ∧
      (e.error = none → FirstGoesLive (opts.selects "" db) db e.db) := by
  cases hrefuse : (do opts.refuse; resolveActor (call 0)) with
  | error e =>
    refine ⟨_, fun fuel _ => by rw [replay, hrefuse], ?_, hindex, fun h => by cases h⟩
    intro heq
    exact replay_refusal hrefuse (ReplayError.batch.inj (some_inj.mp heq))
  | ok actor =>
    obtain ⟨_, hopts, hactor⟩ := bind_eq_ok.mp hrefuse
    obtain ⟨e, hends, hend⟩ := replay_ends call requested hcall hactor hopts hnamed hindex
    refine ⟨e, hends, ?_, ?_, fun hok => ?_⟩
    · grind
    · rcases hend with ⟨-, hinv⟩ | ⟨-, -, _, -, hinv⟩
      · exact hinv.index
      · exact hinv.index
    · rcases hend with ⟨-, hinv⟩ | ⟨herror, -⟩
      · exact hinv.firstGoesLive
      · simp_all

/-! ## Bulk retries -/

variable {ops : Operators} {spec : BulkSpec} {start w : BulkWalk} {pages : List (List JobRow)}
  {db' : Db}

theorem WalkInv.whole (h : WalkInv ops spec db start pages db' w) (haction : spec.action ≠ .cancel)
    (hstart : start.fired = []) :
    (spec.plan db start pages).Whole spec db start.taken pages.flatten := by
  refine Plan.whole_walk (fun r hr => (BulkSpec.mem_rest.mp (h.mem_rest hr)).1)
    (nodup_ids h.ascending) ?_
  intro pre page post _ r _
  have hhidden := Plan.hidden_walk spec db start pre
  rw [hstart, show ((Plan.start start).walk spec db pre).fired = [] from BulkSpec.plan_idle haction]
    at hhidden
  rw [Plan.hides, hhidden]
  cases r.uniqueKey <;> rfl

/-- A job is live after a retry when it was, or when the plan put it live. -/
theorem WalkInv.live_iff (h : WalkInv ops spec db start pages db' w)
    (haction : spec.action = .retry)
    (hdry : spec.dryRun = false) (hr : r ∈ db.jobs.rows) (hended : r.state.isTerminal = true) :
    (∃ r', db'.jobs.get? r.id = some r' ∧ r'.live = true) ↔
      r ∈ (spec.plan db start pages).change := by
  obtain ⟨r', hr', hbecame⟩ := h.reworked.kept r hr fun heq => by rw [haction] at heq; cases heq
  have hget : db'.jobs.get? r.id = some r' := hbecame.id ▸ get?_key hr'
  have hstored : ∀ s ∈ (spec.plan db start pages).change, s ∈ db.jobs.rows := fun s hs =>
    (BulkSpec.mem_rest.mp (h.mem_rest (BulkSpec.mem_pages_of_change hs))).1
  have hwrote : r.id ∈ spec.wrote (spec.plan db start pages) ↔
      r ∈ (spec.plan db start pages).change := by
    rw [BulkSpec.wrote, hdry, if_neg Bool.false_ne_true, List.mem_map]
    grind [eq_of_key_eq]
  have hstate := hbecame.state
  rw [← hwrote]
  by_cases hin : r.id ∈ spec.wrote (spec.plan db start pages)
  · rw [if_pos hin, haction] at hstate
    exact iff_of_true ⟨r', hget, by rw [JobRow.live, hstate]; rfl⟩ hin
  · refine iff_of_false ?_ hin
    rintro ⟨s, hs, hlive⟩
    cases hs.symm.trans hget
    rw [if_neg hin] at hstate
    rw [JobRow.live_eq_false.mpr (hstate ▸ hended)] at hlive
    cases hlive

theorem BulkSpec.keyRuled_of_free (haction : spec.action = .retry)
    (hforce : spec.retry.force = true) (taken : List String) (hr : r ∈ db.jobs.rows)
    (hkey : r.uniqueActiveKey = some key) (hfree : db.KeyFree key) :
    (spec.rule taken).keyRuled db r = !cancelledAttemptStillRuns db r := by
  have hended := JobRow.live_eq_false.mp (hfree r hr hkey)
  have hsource : (spec.rule taken).sources.contains r.state = true := by
    have hterminal : r.state ∈ terminalStates := contains_iff_mem.mp hended
    rw [BulkRun.sources, show (spec.rule taken).action = .retry from haction, contains_iff_mem]
    change r.state ∈ waitingStates ++ (if spec.retry.force then terminalStates else []) ++ []
    simp_all
  have hforced : (spec.rule taken).forced = true := by
    rw [BulkRun.forced, Bool.and_eq_true]
    exact ⟨decide_eq_true haction, hforce⟩
  rw [BulkRun.keyRuled, hkey, hended, BulkRun.skipReason, if_pos hsource, hforced]
  cases cancelledAttemptStillRuns db r <;> rfl

/-- **A forced retry that read its selection put live the first of each free key.** -/
theorem WalkInv.firstGoesLive (h : WalkInv ops spec db start pages db' w)
    (haction : spec.action = .retry) (hdry : spec.dryRun = false) (hforce : spec.retry.force = true)
    (hstart : start.fired = []) (htaken : start.taken = [])
    (hall : pages.flatten = spec.selection ops db) :
    FirstGoesLive (fun r => spec.shows ops db r && !cancelledAttemptStillRuns db r) db db' := by
  intro r hr htarget hended key hkey hfree
  rw [Bool.and_eq_true, Bool.not_eq_true'] at htarget
  have hwhole := h.whole (by rw [haction]; decide) hstart
  rw [hall, htaken] at hwhole
  have hforced : (spec.rule []).forced = true := by
    rw [BulkRun.forced, Bool.and_eq_true]
    exact ⟨decide_eq_true haction, hforce⟩
  have hruled : ∀ s ∈ db.jobs.rows, s.uniqueActiveKey = some key →
      (spec.rule []).keyRuled db s = !cancelledAttemptStillRuns db s := fun s hs hskey =>
    BulkSpec.keyRuled_of_free haction hforce [] hs hskey hfree
  have hrruled : (spec.rule []).keyRuled db r = true := by rw [hruled r hr hkey, htarget.2]; rfl
  have hmem : ∀ s, s ∈ (spec.selection ops db).filter ((spec.rule []).keyRuled db) ↔
      (s ∈ db.jobs.rows ∧ spec.shows ops db s = true) ∧ (spec.rule []).keyRuled db s = true :=
        fun s => by
    rw [mem_filter, BulkSpec.selection, mem_sortedJobs]
  rw [h.live_iff haction hdry hr hended, hwhole.change, BulkRun.mem_classify_iff]
  have hchanged : (r ∈ spec.selection ops db ∧ (spec.rule []).skipReason db r = none ∧
      ((spec.rule []).forced = true → (spec.rule []).keyRuled db r = true →
        r.id ∈ (spec.rule []).liveIDs db (spec.selection ops db))) ↔
      r.id ∈ (spec.rule []).liveIDs db (spec.selection ops db) := by
    refine ⟨fun hin => hin.2.2 hforced hrruled, fun hin => ⟨?_, ?_, fun _ _ => hin⟩⟩
    · exact mem_sortedJobs.mpr ⟨hr, htarget.1⟩
    · exact (BulkRun.keyRuled_iff.mp hrruled).2.2
  rw [hchanged, BulkRun.liveIDs_eq]
  refine (mem_liveCandidates_first ((ascending_sortedJobs (spec.shows ops db) db).filter _)
    ((hmem r).mpr ⟨⟨hr, htarget.1⟩, hrruled⟩) hkey fun s _ hskey => ?_).trans ?_
  · rw [BulkRun.ruledHeld, hfree.activeKeyHeld hskey, Bool.false_or, hskey]
    rfl
  · refine ⟨fun hfirst s hs hshown hskey => ?_, fun hfirst s hs hskey => ?_⟩
    · rw [Bool.and_eq_true] at hshown
      exact hfirst s ((hmem s).mpr ⟨⟨hs, hshown.1⟩, (hruled s hs hskey).trans hshown.2⟩) hskey
    · obtain ⟨⟨hs, hshows⟩, hkeyed⟩ := (hmem s).mp hs
      simp_all

/-- A retry without Force puts no terminal job live. -/
theorem WalkInv.noneGoesLive (h : WalkInv ops spec db start pages db' w)
    (haction : spec.action = .retry) (hdry : spec.dryRun = false)
    (hforce : spec.retry.force = false) (hstart : start.fired = []) : NoneGoesLive db db' := by
  intro r hr hended
  obtain ⟨r', hr', hbecame⟩ := h.reworked.kept r hr fun heq => by rw [haction] at heq; cases heq
  have hget : db'.jobs.get? r.id = some r' := hbecame.id ▸ get?_key hr'
  refine ⟨r', hget, ?_⟩
  rw [← Bool.not_eq_true]
  intro hlive
  have hin := (h.live_iff haction hdry hr hended).mp ⟨r', hget, hlive⟩
  rw [(h.whole (by rw [haction]; decide) hstart).change, BulkRun.mem_classify_iff] at hin
  have hsource : ¬(spec.rule start.taken).sources.contains r.state = true := by
    rw [BulkRun.sources, show (spec.rule start.taken).action = .retry from haction,
      contains_iff_mem]
    change r.state ∉ waitingStates ++ (if spec.retry.force then terminalStates else []) ++ []
    rw [hforce, if_neg Bool.false_ne_true, append_nil, append_nil]
    have hwaiting : ∀ state : JobState, state.isTerminal = true → state ∉ waitingStates := by
      intro state
      cases state <;> decide
    exact hwaiting r.state hended
  have hskip := hin.2.1
  rw [BulkRun.skipReason, if_neg hsource] at hskip
  split_ifs at hskip

/-- A refusal of a bulk call comes before any batch. -/
theorem BulkSpec.refuse_ne_batch {dialect : Dialect} {e : BulkError}
    (h : spec.refuse ctx dialect = .error e) (e' : TxError) : e ≠ .batch e' := by
  have hmap : ∀ {ε α : Type} (x : Except ε α) (f : ε → BulkError), (∀ a, f a ≠ .batch e') →
      x.mapError f ≠ .error (.batch e') := by
    intro ε α x f hf heq
    cases x with
    | error a => exact hf a (Except.error.inj heq)
    | ok a => cases heq
  have hbind : ∀ {α β : Type} (x : Except BulkError α) (f : α → Except BulkError β),
      x ≠ .error (.batch e') → (∀ a, f a ≠ .error (.batch e')) → (x >>= f) ≠ .error
        (.batch e') := by
    intro α β x f hx hf
    cases x with
    | error a =>
      intro heq
      exact hx (congrArg Except.error (Except.error.inj (show (Except.error a : Except _ β) =
        _ from heq)))
    | ok a => exact hf a
  rintro rfl
  refine absurd h (hbind _ _ (hmap _ _ nofun) fun _ => ?_)
  refine hbind _ _ (hmap _ _ nofun) fun _ => ?_
  refine hbind _ _ (hmap _ _ nofun) fun _ => ?_
  refine hbind _ _ (hmap _ _ nofun) fun _ => ?_
  refine hbind _ _ (hmap _ _ nofun) fun _ => ?_
  refine hbind _ _ (hmap _ _ nofun) fun _ => ?_
  split_ifs <;> exact nofun

/-- **A bulk retry keeps the active keys**, whatever its selection and batches. -/
theorem bulkJobs_keeps_keys (ops : Operators) (dialect : Dialect)
    (haction : spec.action = .retry) (hdry : spec.dryRun = false) (hcall : OneActor call)
    (hnamed : db.Named) (hindex : activeKeysUnique db.jobs = true) :
    ∃ e, (∀ fuel, spec.rounds db < fuel →
        bulkJobs call false (fun _ => false) ops dialect spec fuel db = some e) ∧
      e.error ≠ some (.batch .duplicateKey) ∧ activeKeysUnique e.db.jobs = true ∧
      (e.error = none → if spec.retry.force then
          FirstGoesLive (fun r => spec.shows ops db r && !cancelledAttemptStillRuns db r) db e.db
        else NoneGoesLive db e.db) := by
  have hcancel : spec.action ≠ .cancel := by rw [haction]; decide
  cases hrefuse : spec.refuse (call 0) dialect with
  | error e =>
    refine ⟨_, fun fuel _ => by rw [bulkJobs, hrefuse], fun heq => ?_, hindex, fun h => by cases h⟩
    exact BulkSpec.refuse_ne_batch hrefuse _ (some_inj.mp heq)
  | ok u =>
    by_cases hfits : db.jobs.rows.countP (spec.shows ops db) ≤ spec.limit
    · obtain ⟨e, hends, hend⟩ := bulkJobs_ends hrefuse hcall (fun h => absurd h hcancel) hnamed
        (fun _ => hindex) hfits
      refine ⟨e, hends, ?_⟩
      cases hend with
      | done hinv hall _ =>
        refine ⟨fun h => (by cases h), hinv.reworked.index haction, fun _ => ?_⟩
        have hselection := hall.trans (BulkSpec.rest_start hnamed ops spec)
        cases hforce : spec.retry.force with
        | true => exact hinv.firstGoesLive haction hdry hforce rfl rfl hselection
        | false => exact hinv.noneGoesLive haction hdry hforce rfl
      | refused _ hinv _ =>
        exact ⟨fun h => (by cases h), hinv.reworked.index haction, fun h => (by cases h)⟩
      | unbuilt _ _ _ hfires _ => simp_all [Plan.fires, BulkSpec.fires_of_not]
    · -- a selection over the limit is refused before the walk
      have hcapped : (spec.start ops ((call 0).clock 0) db).result.matchedCapped = true := by
        refine decide_eq_true ?_
        rw [BulkSpec.countSelection]
        omega
      refine ⟨(spec.start ops ((call 0).clock 0) db).stop db .tooLarge, fun fuel _ => ?_,
        fun h => (by cases h), hindex, fun h => (by cases h)⟩
      rw [bulkJobs, hrefuse]
      simp_all

/-- **Active keys stay exclusive through retries and replays.** On a jobs table whose index holds,
with no other writer, Replay, ReplayByParent and a bulk retry end without a duplicate key and leave
at most one live job per key. Of the selected terminal jobs that share a key which no live job held,
leaving out the cancelled ones whose attempt still runs, a replay and a forced bulk retry put live
exactly the one with the smallest id, for every batch size; a bulk retry without Force puts none
live. -/
theorem active_keys_stay_exclusive (call : ℕ → Context) (db : Db) (hcall : OneActor call)
    (hnamed : db.Named) (hindex : activeKeysUnique db.jobs = true) :
    (∀ kinds opts requested, ∃ e,
      (∀ fuel, db.jobs.rows.length < fuel →
        replayJobs call false (fun _ => false) kinds opts requested fuel db = some e) ∧
      e.error ≠ some (.batch .duplicateKey) ∧ activeKeysUnique e.db.jobs = true ∧
      (e.error = none → FirstGoesLive
        (({ opts with scope := kindFilter kinds, parentJobID := "" } : ReplayOpts).selects "" db)
        db e.db)) ∧
    (∀ parentJobID kinds opts requested, ∃ e,
      (∀ fuel, db.jobs.rows.length < fuel →
        replayByParent call false (fun _ => false) parentJobID kinds opts requested fuel db =
          some e) ∧
      e.error ≠ some (.batch .duplicateKey) ∧ activeKeysUnique e.db.jobs = true ∧
      (e.error = none → FirstGoesLive
        (({ opts with
            scope := fun r => decide (r.parentJobID = some parentJobID) && kindFilter kinds r
            parentJobID } : ReplayOpts).selects "" db) db e.db)) ∧
    ∀ ops dialect (spec : BulkSpec), spec.action = .retry → spec.dryRun = false → ∃ e,
      (∀ fuel, spec.rounds db < fuel →
        bulkJobs call false (fun _ => false) ops dialect spec fuel db = some e) ∧
      e.error ≠ some (.batch .duplicateKey) ∧ activeKeysUnique e.db.jobs = true ∧
      (e.error = none →
        if spec.retry.force then
          FirstGoesLive (fun r => spec.shows ops db r && !cancelledAttemptStillRuns db r) db e.db
        else NoneGoesLive db e.db) := by
  refine ⟨fun kinds opts requested => ?_, fun parentJobID kinds opts requested => ?_,
    fun ops dialect spec haction hdry => ?_⟩
  · by_cases hbound : kinds = [] ∧ opts.failedSince = none
    · exact ⟨_, fun fuel _ => by rw [replayJobs, if_pos hbound], fun h => (by cases h), hindex,
        fun h => (by cases h)⟩
    · obtain ⟨e, hends, hkeeps⟩ := replay_keeps_keys call
        { opts with scope := kindFilter kinds, parentJobID := "" } requested hcall hnamed hindex
      refine ⟨e, fun fuel hfuel => ?_, hkeeps⟩
      simp_all [replayJobs]
  · exact replay_keeps_keys call _ requested hcall hnamed hindex
  · exact bulkJobs_keeps_keys call ops dialect haction hdry hcall hnamed hindex

/-- The replay and the forced retry of two discarded jobs with one key. -/
theorem active_keys_of_two_stay_exclusive :
    ∃ e, replayJobs (fun _ => {}) false (fun _ => false) ["work"] {} 1 3 twoEnded = some e ∧
      activeKeysUnique e.db.jobs = true := by
  obtain ⟨hreplay, -⟩ := active_keys_stay_exclusive (fun _ => {}) twoEnded (fun _ => rfl)
    (by unfold Db.Named; decide) (by decide)
  obtain ⟨e, hends, -, hunique, -⟩ := hreplay ["work"] {} 1
  exact ⟨e, hends 3 (by decide), hunique⟩

/-- A bulk retry of the discarded jobs of one kind, without Force. -/
def unforcedRetry : BulkSpec := { query := { kinds := ["work"] }, action := .retry }

/-- **A bulk retry without Force puts no job live.** It selects the two discarded jobs, whose key no
live job holds, and leaves both terminal. -/
theorem unforced_retry_leaves_two :
    activeKeysUnique twoEnded.jobs = true ∧ twoEnded.KeyFree "key" ∧
      (∀ r ∈ twoEnded.jobs.rows, unforcedRetry.shows {} twoEnded r = true ∧
        r.state.isTerminal = true ∧ r.uniqueActiveKey = some "key" ∧
        cancelledAttemptStillRuns twoEnded r = false) ∧
      ∃ e, bulkJobs (fun _ => {}) false (fun _ => false) {} .sqlite unforcedRetry 3 twoEnded =
        some e ∧ e.error = none ∧ ∀ r ∈ e.db.jobs.rows, r.live = false :=
  ⟨by decide, by unfold Db.KeyFree; decide, by decide, _, rfl, rfl, by decide⟩

end Flywheel
