import Mathlib.Data.List.Induction
import Flywheel.Library.Decimal
import Flywheel.Library.Table

/-!
# Metric series

The in-memory recorder keeps a counter under the text of its name and tags (`seriesKey`), and the
Prometheus page lists the counters by metric, a line each, with the tags as labels. A label section
is read back by the grammar of the text format, in which label values are UTF-8.
-/

namespace Flywheel

open Relational Encoding List Option Table

/-! ## The recorder -/

/-- A Go string. -/
abbrev Bytes : Type := List UInt8

/-- A tag map: its entries, by key. -/
structure Tags where
  entries : List (Bytes × Bytes)
  sorted : (entries.map Prod.fst).Pairwise (· < ·)

/-- A counter; a call of `Count` is written as the counter that it mints, with its delta. -/
structure CounterSeries where
  name : Bytes
  tags : Tags
  value : Int64

/-- The tags in a key: each key and each value after a NUL byte. -/
def Tags.joined (tags : Tags) : Bytes := tags.entries.flatMap fun t => 0 :: t.1 ++ 0 :: t.2

/-- `seriesKey` -/
def seriesKey (s : CounterSeries) : Bytes := s.name ++ s.tags.joined

/-- `MemRecorder`: the counters, and how many series the other maps hold. -/
structure MemRecorder where
  counters : Table seriesKey
  others : ℕ
  maxSeries : ℕ
  droppedSeries : ℕ

/-- `Count`, with its `upsertCell`. -/
def MemRecorder.count (m : MemRecorder) (c : CounterSeries) : MemRecorder :=
  match m.counters.get? (seriesKey c) with
  | some cell => { m with counters := m.counters.put { cell with value := cell.value + c.value } }
  | none =>
    -- `atSeriesCap`
    if m.maxSeries ≤ m.counters.rows.length + m.others then
      { m with droppedSeries := m.droppedSeries + 1 }
    else { m with counters := m.counters.put c }

/-- The recorder after the calls, beside the series of its other maps. -/
def recorded (others maxSeries : ℕ) (calls : List CounterSeries) : MemRecorder :=
  calls.foldl MemRecorder.count ⟨Table.empty, others, maxSeries, 0⟩

/-- `snapshotSeries` -/
def MemRecorder.snapshot (m : MemRecorder) : List CounterSeries :=
  m.counters.rows.mergeSort fun a b => seriesKey a ≤ seriesKey b

/-! ## The page -/

/-- The bytes of an ASCII text. -/
def ascii (cs : List Char) : Bytes := cs.map fun c => UInt8.ofNat c.toNat

/-- What `escapeLabelValue` makes of a byte. -/
def escapeByte (b : UInt8) : Bytes :=
  if b = 92 then [92, 92] else if b = 34 then [92, 34] else if b = 10 then [92, 110] else [b]

/-- A label of `formatLabels`. -/
def formatLabel (t : Bytes × Bytes) : Bytes := t.1 ++ 61 :: 34 :: t.2.flatMap escapeByte ++ [34]

/-- `formatLabels` -/
def formatLabels (tags : Tags) : Bytes :=
  match tags.entries with
  | [] => []
  | t :: rest => 123 :: formatLabel t ++ (rest.flatMap fun t => 44 :: formatLabel t) ++ [125]

/-- The line of a counter. -/
def seriesLine (s : CounterSeries) : Bytes :=
  s.name ++ formatLabels s.tags ++ 32 :: ascii (formatInt s.value.toInt) ++ [10]

/-- `writeFamilyHeader`, with the table of help texts. -/
def familyHeader (help : Bytes → Bytes) (name : Bytes) : List Bytes :=
  [ascii "# HELP ".toList ++ name ++ 32 :: help name ++ [10],
    ascii "# TYPE ".toList ++ name ++ ascii " counter\n".toList]

/-- `writeCounterFamilies`: the lines, from the current name on. -/
def writeCounterFamilies (help : Bytes → Bytes) (current : Bytes) : List CounterSeries → List Bytes
  | [] => []
  | s :: rest => (if s.name ≠ current then familyHeader help s.name else []) ++
      seriesLine s :: writeCounterFamilies help s.name rest

/-! ## The text format -/

/-- `[a-zA-Z_]` -/
def labelByte (b : UInt8) : Bool := (97 ≤ b && b ≤ 122) || (65 ≤ b && b ≤ 90) || b = 95

/-- `[a-zA-Z_:]` -/
def metricByte (b : UInt8) : Bool := labelByte b || b = 58

/-- A name of the format: one of the bytes, which digits may follow. -/
def isName (start : UInt8 → Bool) : Bytes → Bool
  | [] => false
  | b :: rest => start b && rest.all fun b => start b || (48 ≤ b && b ≤ 57)

/-- Where in a label section its reader is. -/
inductive Reader where
  | start
  | key (k : Bytes)
  | equals (k : Bytes)
  | value (k v : Bytes)
  | escape (k v : Bytes)
  | closed
  | ended

/-- The reader takes a byte, beside the labels before it. -/
def Reader.read : Reader × List (Bytes × Bytes) → UInt8 → Option (Reader × List (Bytes × Bytes))
  | (.start, ls), b => if b = 123 then some (.key [], ls) else none
  | (.key k, ls), b => if b = 61 then some (.equals k, ls) else some (.key (k ++ [b]), ls)
  | (.equals k, ls), b => if b = 34 then some (.value k [], ls) else none
  | (.value k v, ls), b =>
    if b = 34 then some (.closed, ls ++ [(k, v)]) else if b = 92 then some (.escape k v, ls)
    else if b = 10 then none else some (.value k (v ++ [b]), ls)
  | (.escape k v, ls), b =>
    if b = 92 ∨ b = 34 then some (.value k (v ++ [b]), ls)
    else if b = 110 then some (.value k (v ++ [10]), ls) else none
  | (.closed, ls), b =>
    if b = 44 then some (.key [], ls) else if b = 125 then some (.ended, ls) else none
  | (.ended, _), _ => none

/-- The section, to its end, says the labels. -/
def ReadsLabels (text : Bytes) (labels : List (Bytes × Bytes)) : Prop :=
  (∃ r, text.foldlM Reader.read (.start, []) = some (r, labels) ∧ (r = .start ∨ r = .ended)) ∧
    ∀ t ∈ labels, isName labelByte t.1 = true ∧ t.2.toByteArray.IsValidUTF8

/-- Items that the reader collects one after the other. -/
theorem read_collect {α : Type} (items : List α) (text : α → Bytes)
    (state : List α → Reader × List (Bytes × Bytes))
    (h : ∀ a ∈ items, ∀ acc, (text a).foldlM Reader.read (state acc) = some (state (acc ++ [a])))
    (acc : List α) :
    (items.flatMap text).foldlM Reader.read (state acc) = some (state (acc ++ items)) := by
  induction items generalizing acc with
  | nil => simp
  | cons a items ih =>
    obtain ⟨ha, hitems⟩ := forall_mem_cons.mp h
    rw [flatMap_cons, foldlM_append, ha, bind_eq_bind, bind_some, ih hitems,
      append_assoc, singleton_append]

/-- No byte of a name is a NUL byte or ends it. -/
theorem isName_bytes {n : Bytes} (h : isName metricByte n = true ∨ isName labelByte n = true)
    {b : UInt8} (hb : b ∈ n) : 0 < b ∧ b ≠ 61 := by
  have hbyte : metricByte b = true ∨ (48 ≤ b ∧ b ≤ 57) := by
    cases n with
    | nil => cases hb
    | cons c rest =>
      simp only [isName, metricByte] at h ⊢
      simp at h ⊢
      grind
  simp [metricByte, labelByte, UInt8.le_iff_toNat_le, ← UInt8.toNat_inj, UInt8.lt_iff_toNat_lt]
    at hbyte ⊢
  omega

theorem read_formatLabel {t : Bytes × Bytes} (h : isName labelByte t.1 = true)
    (ls : List (Bytes × Bytes)) :
    (formatLabel t).foldlM Reader.read (.key [], ls) = some (.closed, ls ++ [t]) := by
  have hkey := read_collect t.1 (fun b => [b]) (fun k => (.key k, ls)) (fun b hb k => by
    simp [Reader.read, isName_bytes (.inr h) hb]) []
  have hvalue := read_collect t.2 escapeByte (fun v => (.value t.1 v, ls)) (fun b _ v => by
    unfold escapeByte
    split_ifs with h92 h34 h10
    all_goals simp_all [Reader.read]) []
  rw [flatMap_singleton'] at hkey
  simp only [formatLabel, foldlM_append, foldlM_cons, hkey]
  simp [Reader.read, hvalue]

theorem reads_formatLabels {tags : Tags} (h : ∀ t ∈ tags.entries, isName labelByte t.1 = true)
    (hutf8 : ∀ t ∈ tags.entries, t.2.toByteArray.IsValidUTF8) :
    ReadsLabels (formatLabels tags) tags.entries := by
  refine ⟨?_, fun t ht => ⟨h t ht, hutf8 t ht⟩⟩
  unfold formatLabels
  cases hentries : tags.entries with
  | nil => exact ⟨.start, rfl, .inl rfl⟩
  | cons t rest =>
    rw [hentries] at h
    have hrest := read_collect rest (fun t => 44 :: formatLabel t) (fun ls => (.closed, ls))
      (fun t ht ls => by
        simp [Reader.read, read_formatLabel (h t (mem_cons_of_mem _ ht))]) [t]
    exact ⟨.ended, by simp [Reader.read, read_formatLabel (h t mem_cons_self), hrest], .inr rfl⟩

/-! ## The families -/

/-- Keys compare by their names first, for NUL is below each byte of a name. -/
theorem name_le {m n r t : Bytes} (hm : ∀ b ∈ m, 0 < b) (ht : ∀ b ∈ t.head?, b = 0)
    (h : m ++ r ≤ n ++ t) : m ≤ n := by
  induction m generalizing n with
  | nil => exact nil_le _
  | cons x m ih =>
    obtain ⟨hx, hm⟩ := forall_mem_cons.mp hm
    cases n with
    | nil =>
      cases t with
      | nil => simp at h
      | cons z t =>
        obtain rfl := ht z rfl
        simp [cons_le_cons_iff] at h
        exact absurd h.1 (UInt8.ne_of_lt hx).symm
    | cons y n =>
      rw [cons_append, cons_append, cons_le_cons_iff] at h
      rw [cons_le_cons_iff]
      exact h.imp_right fun h => ⟨h.1, ih hm h.2⟩

/-- The names and keys are of the format. -/
def CounterSeries.Valid (c : CounterSeries) : Prop :=
  isName metricByte c.name = true ∧ ∀ t ∈ c.tags.entries, isName labelByte t.1 = true

theorem CounterSeries.Valid.name_le {a b : CounterSeries} (ha : a.Valid)
    (h : seriesKey a ≤ seriesKey b) : a.name ≤ b.name := by
  refine Flywheel.name_le (fun _ hb => (isName_bytes (.inl ha.1) hb).1) ?_ h
  rw [Tags.joined]
  cases b.tags.entries with
  | nil => simp
  | cons t rest => simp

/-- A text of nonzero bytes, and what follows it from a NUL byte on, are determined by the two in a
row. -/
theorem append_inj_nul {m n r t : Bytes} (hm : ∀ b ∈ m, 0 < b) (hn : ∀ b ∈ n, 0 < b)
    (hr : ∀ b ∈ r.head?, b = 0) (ht : ∀ b ∈ t.head?, b = 0) (h : m ++ r = n ++ t) : m = n ∧
      r = t := by
  have hle : m ++ r ≤ n ++ t := h ▸ List.le_refl _
  have hge : n ++ t ≤ m ++ r := h ▸ List.le_refl _
  obtain rfl := List.le_antisymm (name_le hm ht hle) (name_le hn hr hge)
  exact ⟨rfl, append_cancel_left h⟩

/-- The tags in a key are empty or begin with a NUL byte. -/
theorem head?_joined (entries : List (Bytes × Bytes)) :
    ∀ b ∈ (entries.flatMap fun t => 0 :: t.1 ++ 0 :: t.2).head?, b = 0 := by
  cases entries <;> simp

/-- **Without a NUL byte in a key or a value, the joined text says the tags.** -/
theorem Tags.joined_inj {a b : Tags} (ha : ∀ t ∈ a.entries, (∀ x ∈ t.1, 0 < x) ∧ ∀ x ∈ t.2, 0 < x)
    (hb : ∀ t ∈ b.entries, (∀ x ∈ t.1, 0 < x) ∧ ∀ x ∈ t.2, 0 < x) (h : a.joined = b.joined) :
      a = b := by
  obtain ⟨entries, _⟩ := a
  obtain ⟨entries', _⟩ := b
  suffices heq : entries = entries' by
    subst heq
    rfl
  dsimp only [joined] at *
  clear * - ha hb h
  induction entries generalizing entries' with
  | nil =>
    cases entries' with
    | nil => rfl
    | cons t rest => simp at h
  | cons t rest ih =>
    cases entries' with
    | nil => simp at h
    | cons t' rest' =>
      rw [forall_mem_cons] at ha hb
      simp only [flatMap_cons, cons_append, append_assoc, cons.injEq, true_and] at h
      -- the key ends at the value's NUL byte, and the value at that of the next key
      obtain ⟨hkey, h⟩ := append_inj_nul ha.1.1 hb.1.1 (by simp) (by simp) h
      obtain ⟨hvalue, h⟩ := append_inj_nul ha.1.2 hb.1.2 (head?_joined rest) (head?_joined rest')
        (cons.inj h).2
      rw [Prod.ext hkey hvalue, ih ha.2 rest' hb.2 h]

/-- Keys agree exactly when the names and the joined tags do. -/
theorem seriesKey_inj {a b : CounterSeries} (ha : a.Valid) (hb : b.Valid) :
    seriesKey a = seriesKey b ↔ a.name = b.name ∧ a.tags.joined = b.tags.joined := by
  refine ⟨fun h => ?_, fun h => by rw [seriesKey, seriesKey, h.1, h.2]⟩
  exact append_inj_nul (fun _ hb => (isName_bytes (.inl ha.1) hb).1)
    (fun _ h => (isName_bytes (.inl hb.1) h).1) (head?_joined _) (head?_joined _) h

/-- A family: its header, and a line for each of its series. -/
def family (help : Bytes → Bytes) (series : List CounterSeries) (n : Bytes) : List Bytes :=
  familyHeader help n ++ (series.filter fun s => s.name = n).map seriesLine

theorem writeCounterFamilies_eq (help : Bytes → Bytes) {series : List CounterSeries}
    {current : Bytes} (hsorted : series.Pairwise fun a b => a.name ≤ b.name)
    (hcurrent : ∀ s ∈ series, current ≤ s.name) :
    ∃ names : List Bytes, names.Nodup ∧ (∀ n, n ∈ names ↔ n ≠ current ∧ ∃ s ∈ series, s.name = n) ∧
      writeCounterFamilies help current series =
        (series.filter fun s => s.name = current).map seriesLine ++
          names.flatMap (family help series) := by
  induction series generalizing current with
  | nil => exact ⟨[], by simp [writeCounterFamilies]⟩
  | cons s rest ih =>
    obtain ⟨hs, hrest⟩ := pairwise_cons.mp hsorted
    obtain ⟨names, hnodup, hmem, heq⟩ := ih hrest hs
    have hfamilies :
        names.flatMap (family help rest) = names.flatMap (family help (s :: rest)) := by
      refine flatMap_congr fun n hn => ?_
      rw [family, family, filter_cons_of_neg (by simpa using ((hmem n).mp hn).1.symm)]
    rw [writeCounterFamilies, heq, hfamilies]
    by_cases hsame : s.name = current
    · subst hsame
      exact ⟨names, hnodup, by grind, by simp⟩
    · -- no later series is of the current name
      have hnone : (s :: rest).filter (fun t => t.name = current) = [] := by
        refine filter_eq_nil_iff.mpr fun t ht heq => hsame ?_
        obtain rfl := of_decide_eq_true heq
        rcases mem_cons.mp ht with rfl | ht
        · rfl
        · exact List.le_antisymm (hs t ht) (hcurrent s mem_cons_self)
      refine ⟨s.name :: names, by grind, by grind, ?_⟩
      rw [hnone, if_pos hsame]
      simp [family]

/-! ## The calls -/

variable {others maxSeries : ℕ} {calls : List CounterSeries}

/-- Unless a call was dropped, each has its counter, and each counter is that of a call. -/
theorem recorded_spec (h : (recorded others maxSeries calls).droppedSeries = 0) :
    (∀ c ∈ calls, ((recorded others maxSeries calls).counters.get? (seriesKey c)).isSome = true) ∧
      ∀ k s, (recorded others maxSeries calls).counters.get? k = some s →
        ∃ c ∈ calls, s.name = c.name ∧ s.tags = c.tags := by
  induction calls using reverseRecOn with
  | nil => exact ⟨nofun, nofun⟩
  | append_singleton calls c ih =>
    rw [recorded, foldl_append, ← recorded, foldl_cons, foldl_nil] at h ⊢
    generalize recorded others maxSeries calls = m at h ih ⊢
    -- the call stores a counter under its key, with the name and the tags of a call
    obtain ⟨r, hput, hkey, hdropped, hr⟩ : ∃ r, (m.count c).counters = m.counters.put r ∧
        seriesKey r = seriesKey c ∧ m.droppedSeries = 0 ∧
        ∃ a ∈ calls ++ [c], r.name = a.name ∧ r.tags = a.tags := by
      unfold MemRecorder.count at h ⊢
      cases hget : m.counters.get? (seriesKey c) with
      | some cell =>
        rw [hget] at h
        obtain ⟨a, ha, heq⟩ := (ih h).2 _ _ hget
        have hkey : seriesKey cell = seriesKey c := key_of_get? hget
        exact ⟨_, rfl, hkey, h, a, mem_append_left _ ha, heq⟩
      | none =>
        rw [hget] at h
        dsimp only at h ⊢
        split_ifs at h ⊢
        exact ⟨c, rfl, rfl, h, c, by simp⟩
    obtain ⟨hcell, hcall⟩ := ih hdropped
    simp only [hput, get?_put]
    grind

/-- Calls share a counter exactly when their names and tags agree. -/
def KeptApart (m : MemRecorder) (calls : List CounterSeries) : Prop :=
  ∀ a ∈ calls, ∀ b ∈ calls, (m.counters.get? (seriesKey a) = m.counters.get? (seriesKey b) ↔
      a.name = b.name ∧ a.tags = b.tags)

/-- The page has one family for each metric, with a line for each of its counters, whose label
section says the counter's tags. -/
structure Exposed (help : Bytes → Bytes) (m : MemRecorder) : Prop where
  families : ∃ names : List Bytes, names.Nodup ∧ (∀ n, n ∈ names ↔ ∃ s ∈ m.snapshot, s.name = n) ∧
    writeCounterFamilies help [] m.snapshot = names.flatMap (family help m.snapshot)
  each : m.snapshot.Perm m.counters.rows
  labels : ∀ s ∈ m.snapshot, ReadsLabels (formatLabels s.tags) s.tags.entries

theorem exposed {m : MemRecorder} (hvalid : ∀ s ∈ m.counters.rows, s.Valid)
    (hutf8 : ∀ s ∈ m.counters.rows, ∀ t ∈ s.tags.entries, t.2.toByteArray.IsValidUTF8)
    (help : Bytes → Bytes) : Exposed help m := by
  have hperm : m.snapshot.Perm m.counters.rows := mergeSort_perm _ _
  have hrows : ∀ s ∈ m.snapshot, s.Valid := fun s hs => hvalid s (hperm.mem_iff.mp hs)
  have hsorted : m.snapshot.Pairwise fun a b => decide (seriesKey a ≤ seriesKey b) = true := by
    refine pairwise_mergeSort (fun a b c hab hbc => ?_) (fun a b => ?_) m.counters.rows
    · exact decide_eq_true (List.le_trans (of_decide_eq_true hab) (of_decide_eq_true hbc))
    · simpa using List.le_total (seriesKey a) (seriesKey b)
  have hnames : m.snapshot.Pairwise fun a b => a.name ≤ b.name :=
    hsorted.imp_of_mem fun ha _ h => (hrows _ ha).name_le (of_decide_eq_true h)
  have hne : ∀ s ∈ m.snapshot, s.name ≠ [] := by
    intro s hs hnil
    have hname := (hrows s hs).1
    rw [hnil] at hname
    cases hname
  obtain ⟨names, hnodup, hmem, heq⟩ := writeCounterFamilies_eq help hnames fun s _ => nil_le _
  refine ⟨⟨names, hnodup, by grind, ?_⟩, hperm, fun s hs => ?_⟩
  · rw [heq, filter_eq_nil_iff.mpr (by simpa using hne)]
    rfl
  · exact reads_formatLabels (hrows s hs).2 (hutf8 s (hperm.mem_iff.mp hs))

/-- **Metric series without NUL bytes in their tag values are kept apart, and are exposed cleanly
exactly when the values are UTF-8.** -/
theorem series_exposed_iff (help : Bytes → Bytes) (others maxSeries : ℕ)
    (calls : List CounterSeries) (hvalid : ∀ c ∈ calls, c.Valid)
    (hcap : (recorded others maxSeries calls).droppedSeries = 0)
    (hnul : ∀ c ∈ calls, ∀ t ∈ c.tags.entries, 0 ∉ t.2) :
    KeptApart (recorded others maxSeries calls) calls ∧
      (Exposed help (recorded others maxSeries calls) ↔
        ∀ c ∈ calls, ∀ t ∈ c.tags.entries, t.2.toByteArray.IsValidUTF8) := by
  obtain ⟨hcell, hcall⟩ := recorded_spec hcap
  generalize recorded others maxSeries calls = m at hcell hcall
  have hbytes : ∀ c ∈ calls, ∀ t ∈ c.tags.entries, (∀ x ∈ t.1, 0 < x) ∧ ∀ x ∈ t.2, 0 < x := by
    refine fun c hc t ht => ⟨fun x hx => ?_, fun x hx => ?_⟩
    · exact (isName_bytes (.inr ((hvalid c hc).2 t ht)) hx).1
    · exact UInt8.pos_iff_ne_zero.mpr fun h => hnul c hc t ht (h ▸ hx)
  have hapart : KeptApart m calls := by
    intro a ha b hb
    refine ⟨fun h => ?_, fun h => by rw [seriesKey, seriesKey, h.1, h.2]⟩
    obtain ⟨s, hs⟩ := isSome_iff_exists.mp (hcell a ha)
    obtain ⟨hname, hjoined⟩ := (seriesKey_inj (hvalid a ha) (hvalid b hb)).mp
      ((key_of_get? hs).symm.trans (key_of_get? (h.symm.trans hs)))
    exact ⟨hname, Tags.joined_inj (hbytes a ha) (hbytes b hb) hjoined⟩
  refine ⟨hapart, fun hexposed c hc t ht => ?_, fun hutf8 => exposed (fun s hs => ?_)
    (fun s hs => ?_) help⟩
  · -- the call's counter has the tags of a call of the same key, so the call's own
    obtain ⟨s, hs⟩ := isSome_iff_exists.mp (hcell c hc)
    obtain ⟨a, ha, hname, htags⟩ := hcall _ s hs
    have hkey : seriesKey a = seriesKey c := by
      rw [← key_of_get? hs, seriesKey, seriesKey, hname, htags]
    obtain ⟨-, hsame⟩ := (hapart a ha c hc).mp (congrArg _ hkey)
    have hlabels := hexposed.labels s (hexposed.each.mem_iff.mpr (mem_of_get? hs))
    rw [htags, hsame] at hlabels
    exact (hlabels.2 t ht).2
  · obtain ⟨a, ha, hname, htags⟩ := hcall _ s (get?_key hs)
    rw [CounterSeries.Valid, hname, htags]
    exact hvalid a ha
  · obtain ⟨a, ha, -, htags⟩ := hcall _ s (get?_key hs)
    rw [htags]
    exact hutf8 a ha

/-- Calls of two metrics, the first and the third with one set of tags, and a value with a quote. -/
def taggedCalls : List CounterSeries :=
  [⟨ascii ['m'], ⟨[(ascii ['a'], ascii ['x']), (ascii ['b'], ascii ['"'])], by decide⟩, 1⟩,
    ⟨ascii ['n'], ⟨[], .nil⟩, 1⟩,
    ⟨ascii ['m'], ⟨[(ascii ['a'], ascii ['x']), (ascii ['b'], ascii ['"'])], by decide⟩, 2⟩,
    ⟨ascii ['m'], ⟨[(ascii ['a'], ascii ['y'])], by decide⟩, 1⟩]

/-- The first and the third call are one counter of three. -/
theorem tagged_series_exposed : KeptApart (recorded 0 3 taggedCalls) taggedCalls ∧
    Exposed id (recorded 0 3 taggedCalls) ∧
    (recorded 0 3 taggedCalls).counters.rows.map CounterSeries.value = [3, 1, 1] := by
  obtain ⟨hapart, hexposed⟩ := series_exposed_iff id 0 3 taggedCalls
    (by unfold CounterSeries.Valid; decide) rfl (by decide)
  exact ⟨hapart, hexposed.mpr (by decide), by decide⟩

/-- A call with the tag `a` of the value `x NUL b NUL y`, and one with the tags `a` and `b`. -/
def nulCalls : List CounterSeries :=
  [⟨ascii ['m'], ⟨[(ascii ['a'], ascii ['x', '\x00', 'b', '\x00', 'y'])], by decide⟩, 1⟩,
    ⟨ascii ['m'], ⟨[(ascii ['a'], ascii ['x']), (ascii ['b'], ascii ['y'])], by decide⟩, 1⟩]

theorem nul_series_merge : (∀ c ∈ nulCalls, c.Valid) ∧
    (recorded 0 2 nulCalls).droppedSeries = 0 ∧ ¬KeptApart (recorded 0 2 nulCalls) nulCalls := by
  refine ⟨by unfold CounterSeries.Valid; decide, rfl, fun h => ?_⟩
  have hsame := (h _ mem_cons_self _ (mem_cons_of_mem _ mem_cons_self)).mp rfl
  exact absurd (congrArg (length ∘ Tags.entries) hsame.2) (by decide)

end Flywheel
