import Mathlib.Data.Int.ConditionallyCompleteOrder
import Mathlib.Data.List.DropRight
import Flywheel.Library.Decimal
import Flywheel.Library.Lists
import Flywheel.Retention.Model

/-!
# Retention rules as text

The command reads a rule as comma-separated `key=value` pairs and writes one back in that form.
Texts are lists of characters; Go's own `time.ParseDuration` and `Duration.String` are parameters,
with what is assumed of them. An age in days or weeks is multiplied out in 64 bits, and a kind
stands in the text as it is: both are exact only for the texts that `WritesAge` and `PlainKind`
describe.
-/

namespace Flywheel

open Encoding Transition List Option

/-- `Duration.String` and `time.ParseDuration`. The text of a duration ends in the unit `s`, and a
text that ends in `d` or `w` has no unit that `ParseDuration` knows. -/
structure GoDuration where
  string : ℤ → List Char
  parse : List Char → Option ℤ
  parse_string : ∀ d, Fits64 d → parse (string d) = some d
  string_end : ∀ d, (string d).getLast? = some 's'
  string_comma : ∀ d, ',' ∉ string d
  parse_unit : ∀ s, s.getLast? = some 'd' ∨ s.getLast? = some 'w' → parse s = none

theorem comma_formatInt (n : ℤ) : ',' ∉ formatInt n := by
  have hdigits : ∀ c ∈ formatInt n, c = '-' ∨ c.isDigit = true := by
    grind [formatInt, isDigit_of_mem]
  exact fun h => absurd (hdigits _ h) (by decide)

/-- Durations as whole nanoseconds, written with the unit `s`. -/
def plainDuration : GoDuration where
  string d := formatInt d ++ ['s']
  parse s := if s.getLast? = some 's' then parseInt64 s.dropLast else none
  parse_string d hd := by
    rw [getLast?_concat, if_pos rfl, dropLast_concat, parseInt64_formatInt hd]
  string_end d := getLast?_concat
  string_comma d := by simp [comma_formatInt]
  parse_unit s h := by
    rcases h with h | h <;> rw [h] <;> rfl

/-! ## Ages -/

/-- `day` -/
def day : ℤ := 24 * 60 * 60 * 1000000000

/-- The units that `parseHumanDuration` adds. -/
def ageUnit (c : Char) : Option ℤ :=
  if c = 'd' then some day else if c = 'w' then some (7 * day) else none

/-- `parseHumanDuration`: `strconv.Atoi` of all but the unit, times the unit in 64 bits. -/
def parseHumanDuration (go : GoDuration) (s : List Char) : Option ℤ :=
  match s.getLast?.bind ageUnit, parseInt64 s.dropLast with
  | some per, some n => some ((n * per).bmod (2 ^ 64))
  | _, _ => go.parse s

/-- `ageCell` -/
def ageCell (go : GoDuration) (age : ℤ) : List Char :=
  if 0 < age ∧ age.tmod day = 0 then formatInt (age.tdiv day) ++ ['d'] else go.string age

/-- The amount that the text of an integer and a unit writes. -/
def WritesAge (s : List Char) (unit : Char) (n per : ℤ) : Prop :=
  ∃ number, s = number ++ [unit] ∧ parseSigned number = some n ∧ ageUnit unit = some per

variable {go : GoDuration} {s s' : List Char} {unit : Char} {n n' per : ℤ}

/-- A written age: the product in 64 bits, if the number is one of 64 bits, and else refused. -/
theorem parseHumanDuration_written (h : WritesAge s unit n per) :
    parseHumanDuration go s = if Fits64 n then some ((n * per).bmod (2 ^ 64)) else none := by
  obtain ⟨number, rfl, hn, hunit⟩ := h
  unfold parseHumanDuration parseInt64
  rw [getLast?_concat, dropLast_concat, hn, bind_some, hunit, filter_some]
  by_cases hfits : Fits64 n
  · rw [if_pos hfits, if_pos (decide_eq_true hfits)]
  · rw [if_neg hfits, if_neg (mt of_decide_eq_true hfits)]
    refine go.parse_unit _ ?_
    rw [getLast?_concat]
    unfold ageUnit at hunit
    split_ifs at hunit with hd hw
    · exact .inl (congrArg some hd)
    · exact .inr (congrArg some hw)

theorem ageUnit_pos {c : Char} (h : ageUnit c = some per) : 0 < per := by
  unfold ageUnit day at h
  split_ifs at h <;> cases h <;> decide

theorem bmod_eq_iff (x : ℤ) : x.bmod (2 ^ 64) = x ↔ Fits64 x := by
  rw [Int.bmod_def]
  unfold Fits64
  split_ifs <;> omega

/-- The written age is the amount over the integers, or refused where that does not fit. -/
def AgeExact (go : GoDuration) (s : List Char) (n per : ℤ) : Prop :=
  parseHumanDuration go s = if Fits64 (n * per) then some (n * per) else none

/-- An age is exact unless the number fits and the product does not. -/
theorem exact_iff (h : WritesAge s unit n per) : AgeExact go s n per ↔
    (Fits64 n → Fits64 (n * per)) := by
  unfold AgeExact
  rw [parseHumanDuration_written h]
  obtain ⟨-, -, -, hunit⟩ := h
  have hpos := ageUnit_pos hunit
  by_cases hfits : Fits64 (n * per)
  · -- a product that fits has a factor that does
    have hn : Fits64 n := by
      unfold Fits64 at *
      constructor <;> nlinarith
    rw [if_pos hfits, if_pos hn, (bmod_eq_iff _).mpr hfits]
    exact ⟨fun _ _ => hfits, fun _ => rfl⟩
  · rw [if_neg hfits]
    by_cases hn : Fits64 n
    · simp [hn, hfits]
    · simp [hn]

/-- The rule `r'` names what `r` names, and keeps it as long at least. -/
structure RetentionRule.Within (r r' : RetentionRule) : Prop where
  kind : r.kind = r'.kind
  state : r.state = r'.state
  maxAge : r.maxAge ≤ r'.maxAge

/-- Rules with longer ages delete no more. -/
theorem retentionCutoff_mono {rules rules' : List RetentionRule}
    (h : List.Forall₂ RetentionRule.Within rules rules') {capAt : Time → Time}
    (hcap : Monotone capAt) (now olderThan : Time) (job : JobRow)
    (hdue : retentionCutoff now olderThan rules' capAt job = true) :
    retentionCutoff now olderThan rules capAt job = true := by
  -- the order and the choice read what a rule names, which the two lists share
  have hfilter : ∀ {l l' : List RetentionRule} (p : String → Option JobState → Bool),
      List.Forall₂ RetentionRule.Within l l' → List.Forall₂ RetentionRule.Within
        (l.filter fun r => p r.kind r.state) (l'.filter fun r => p r.kind r.state) :=
    fun p hl => rel_filter (fun r r' hr => by
      show p _ _ = true ↔ p _ _ = true
      rw [hr.kind, hr.state]) hl
  have horder := rel_append (rel_append
    (hfilter (fun kind state => decide (kind ≠ "") && state.isSome) h)
    (hfilter (fun kind state => decide (kind ≠ "") && state.isNone) h))
    (hfilter (fun kind state => decide (kind = "") && state.isSome) h)
  have hchosen := hfilter (fun kind state => (decide (kind = "") || decide (job.kind = kind)) &&
    state.all fun s => decide (job.state = s)) horder
  change List.Forall₂ _ ((retentionRuleOrder rules).filter fun r => r.selects job)
    ((retentionRuleOrder rules').filter fun r => r.selects job) at hchosen
  unfold retentionCutoff at hdue ⊢
  rw [← head?_filter] at hdue ⊢
  generalize (retentionRuleOrder rules).filter _ = chosen at hchosen ⊢
  generalize (retentionRuleOrder rules').filter _ = chosen' at hchosen hdue
  cases hchosen with
  | nil => exact hdue
  | cons hr _ =>
    simp only [head?_cons, Option.any_eq_true] at hdue ⊢
    obtain ⟨t, ht, hlt⟩ := hdue
    have hle := hcap (Int.sub_le_sub_left hr.maxAge now)
    exact ⟨t, ht, decide_eq_true ((of_decide_eq_true hlt).trans_le hle)⟩

/-- An age in days or weeks is the amount that it writes exactly unless its number fits 64 bits and
the product does not; where two ages in one unit are, the larger number is the longer age, and a
rule with it keeps jobs as long at least. -/
theorem written_age_exact_iff (go : GoDuration) :
    (∀ s unit n per, WritesAge s unit n per →
      (AgeExact go s n per ↔ (Fits64 n → Fits64 (n * per)))) ∧
    ∀ s s' unit n n' per d d', WritesAge s unit n per → WritesAge s' unit n' per →
      (Fits64 n → Fits64 (n * per)) → (Fits64 n' → Fits64 (n' * per)) →
      parseHumanDuration go s = some d → parseHumanDuration go s' = some d' → n < n' →
        d < d' ∧ ∀ kind state pre post now olderThan job, ∀ capAt : Time → Time, Monotone capAt →
          retentionCutoff now olderThan (pre ++ { kind, state, maxAge := d' } :: post) capAt job
            = true →
          retentionCutoff now olderThan (pre ++ { kind, state, maxAge := d } :: post) capAt job
            = true := by
  refine ⟨fun s unit n per h => exact_iff h, ?_⟩
  intro s s' unit n n' per d d' h h' hok hok' hd hd' hlt
  have hamount : ∀ {s n d}, WritesAge s unit n per → (Fits64 n → Fits64 (n * per)) →
      parseHumanDuration go s = some d → d = n * per := by
    intro s n d h hok hd
    rw [(exact_iff h).mpr hok] at hd
    split_ifs at hd
    exact (some_inj.mp hd).symm
  have hpos : 0 < per := ageUnit_pos h.choose_spec.2.2
  have hlt' : d < d' := by
    rw [hamount h hok hd, hamount h' hok' hd']
    exact Int.mul_lt_mul_of_pos_right hlt hpos
  refine ⟨hlt', fun kind state pre post now olderThan job capAt hcap => ?_⟩
  have hrefl : ∀ l : List RetentionRule, List.Forall₂ RetentionRule.Within l l := fun l =>
    forall₂_same.mpr fun r _ => ⟨rfl, rfl, le_rfl⟩
  have hwithin : RetentionRule.Within { kind, state, maxAge := d } { kind, state, maxAge := d' } :=
    ⟨rfl, rfl, hlt'.le⟩
  exact retentionCutoff_mono (rel_append (hrefl pre) (.cons hwithin (hrefl post))) hcap now
    olderThan job

/-- Two weeks are read as such, and are shorter than three. -/
theorem two_weeks_shorter_than_three :
    AgeExact plainDuration "2w".toList 2 (7 * day) ∧
      ∃ d d', parseHumanDuration plainDuration "2w".toList = some d ∧
        parseHumanDuration plainDuration "3w".toList = some d' ∧ d < d' := by
  have htwo : WritesAge "2w".toList 'w' 2 (7 * day) := ⟨"2".toList, rfl, rfl, rfl⟩
  have hthree : WritesAge "3w".toList 'w' 3 (7 * day) := ⟨"3".toList, rfl, rfl, rfl⟩
  obtain ⟨hexact, hcompare⟩ := written_age_exact_iff plainDuration
  have hparsed : parseHumanDuration plainDuration "2w".toList = _ := parseHumanDuration_written htwo
  have hparsed' : parseHumanDuration plainDuration "3w".toList = _ :=
    parseHumanDuration_written hthree
  refine ⟨(hexact _ _ _ _ htwo).mpr (by decide), _, _, hparsed, hparsed', ?_⟩
  exact (hcompare _ _ _ _ _ _ _ _ htwo hthree (by decide) (by decide) hparsed hparsed'
    (by decide)).1

/-- An age of 584 years is read as one of less than half an hour, and passes for a positive one. -/
theorem long_age_wraps :
    WritesAge "213504d".toList 'd' 213504 day ∧
      ¬ AgeExact plainDuration "213504d".toList 213504 day ∧
      parseHumanDuration plainDuration "213504d".toList = some 1526290448384 ∧
      parseHumanDuration plainDuration "1d".toList = some 86400000000000 := by
  have hlong : WritesAge "213504d".toList 'd' 213504 day := ⟨"213504".toList, rfl, rfl, rfl⟩
  have hshort : WritesAge "1d".toList 'd' 1 day := ⟨"1".toList, rfl, rfl, rfl⟩
  rw [exact_iff hlong, parseHumanDuration_written hlong, parseHumanDuration_written hshort]
  exact ⟨hlong, by decide, by decide, by decide⟩

/-! ## Rules -/

/-- `unicode.IsSpace` -/
def isGoSpace (c : Char) : Bool :=
  let n := c.toNat
  decide (9 ≤ n ∧ n ≤ 13) ||
    decide (n ∈ [0x20, 0x85, 0xa0, 0x1680, 0x2028, 0x2029, 0x202f, 0x205f, 0x3000]) ||
    decide (0x2000 ≤ n ∧ n ≤ 0x200a)

/-- `strings.TrimSpace` -/
def trimSpace (cs : List Char) : List Char := (cs.dropWhile isGoSpace).rdropWhile isGoSpace

/-- `strings.Cut` at the first `=`. -/
def cutPair (cs : List Char) : Option (List Char × List Char) :=
  match cs.dropWhile (· ≠ '=') with
  | [] => none
  | _ :: value => some (cs.takeWhile (· ≠ '='), value)

/-- Why a rule's text is refused. -/
inductive RuleError where
  | notPairs
  | givenTwice (key : List Char)
  | keep
  | unknownKey (key : List Char)
  | keepRequired
  | namesNothing
deriving DecidableEq

/-- What `parseRetentionRule` has read: the rule, whose state is any text yet, and the keys seen. -/
structure RuleText where
  kind : List Char := []
  state : List Char := []
  maxAge : ℤ := 0
  seen : List (List Char) := []
deriving DecidableEq

/-- The switch over a pair's key. -/
def RuleText.set (go : GoDuration) (rule : RuleText) (key value : List Char) :
    Except RuleError RuleText :=
  if key = "kind".toList then .ok { rule with kind := value }
  else if key = "state".toList then .ok { rule with state := value }
  else if key = "keep".toList then
    (parseHumanDuration go value).elim (.error .keep) fun age => .ok { rule with maxAge := age }
  else .error (.unknownKey key)

/-- One pair of the loop. -/
def RuleText.read (go : GoDuration) (rule : RuleText) (pair : List Char) :
    Except RuleError RuleText :=
  match cutPair (trimSpace pair) with
  | none => .error .notPairs
  | some (key, value) =>
    if key = [] ∨ value = [] then .error .notPairs
    else if key ∈ rule.seen then .error (.givenTwice key)
    else { rule with seen := key :: rule.seen }.set go key value

/-- `parseRetentionRule` -/
def parseRetentionRule (go : GoDuration) (spec : List Char) : Except RuleError RuleText := do
  let rule ← (spec.splitOn ',').foldlM (RuleText.read go) {}
  if "keep".toList ∉ rule.seen then .error .keepRequired
  else if rule.kind = [] ∧ rule.state = [] then .error .namesNothing
  else return rule

/-- The text of a rule's state. -/
def RetentionRule.stateText (r : RetentionRule) : List Char :=
    (r.state.elim "" JobState.name).toList

/-- One pair of a rule's text. -/
def pairText (key : String) (value : List Char) : List Char := key.toList ++ '=' :: value

/-- `formatRetentionRule` -/
def formatRetentionRule (go : GoDuration) (r : RetentionRule) : List Char :=
  [','].intercalate ((if r.kind ≠ "" then [pairText "kind" r.kind.toList] else []) ++
      (if r.state.isSome then [pairText "state" r.stateText] else []) ++
      [pairText "keep" (ageCell go r.maxAge)])

/-- The text stands for the rule. -/
def RuleText.Reads (t : RuleText) (r : RetentionRule) : Prop :=
  t.kind = r.kind.toList ∧ t.state = r.stateText ∧ t.maxAge = r.maxAge

/-- A kind that the text of a rule can carry: no comma in it, and no space at its end. -/
def PlainKind (kind : List Char) : Prop :=
  ',' ∉ kind ∧ ∀ init c, kind = init ++ [c] → isGoSpace c = false

variable {rule rule' : RuleText} {pair key value : List Char} {r : RetentionRule}

theorem cutPair_eq_some {cs : List Char} (h : cutPair cs = some (key, value)) :
    cs = key ++ '=' :: value := by
  have hsplit := takeWhile_append_dropWhile (p := fun c => decide (c ≠ '=')) (l := cs)
  have hhead := head?_dropWhile_not (fun c => decide (c ≠ '=')) cs
  unfold cutPair at h
  split at h
  · cases h
  · next c rest hdrop =>
    cases h
    rw [hdrop] at hsplit hhead
    have hc : c = '=' := by simpa using hhead
    rw [hc] at hsplit
    exact hsplit.symm

theorem plain_value (hcut : cutPair (trimSpace pair) = some (key, value)) (hcomma : ',' ∉ pair) :
    PlainKind value := by
  have htrim := cutPair_eq_some hcut
  constructor
  · intro hmem
    have hin : ',' ∈ trimSpace pair := htrim ▸ mem_append_right _ (mem_cons_of_mem _ hmem)
    have hleft := IsPrefix.subset ( rdropWhile_prefix _ _) hin
    exact hcomma ((dropWhile_suffix _).subset hleft)
  · rintro init c rfl
    have hne : trimSpace pair ≠ [] := by simp [htrim]
    have hlast := rdropWhile_last_not isGoSpace (pair.dropWhile isGoSpace) hne
    change ¬isGoSpace ((trimSpace pair).getLast hne) = true at hlast
    simpa [htrim] using hlast

theorem RuleText.read_plain (h : rule.read go pair = .ok rule') (hcomma : ',' ∉ pair)
    (hplain : PlainKind rule.kind) : PlainKind rule'.kind := by
  unfold RuleText.read at h
  cases hcut : cutPair (trimSpace pair) with
  | none => simp [hcut] at h
  | some cut =>
    obtain ⟨key, value⟩ := cut
    simp only [hcut] at h
    have hvalue := plain_value hcut hcomma
    unfold RuleText.set at h
    split_ifs at h with hkind hstate hkeep
    · cases h
      exact hvalue
    · cases h
      exact hplain
    · cases hage : parseHumanDuration go value with
      | none => simp [hage] at h
      | some age =>
        simp only [hage, elim_some, Except.ok.injEq] at h
        exact h ▸ hplain

theorem parseRetentionRule_plain (h : parseRetentionRule go s = .ok rule) :
    PlainKind rule.kind := by
  have hfold : ∀ (pairs : List (List Char)) (t : RuleText), (∀ p ∈ pairs, ',' ∉ p) →
    PlainKind t.kind →
      pairs.foldlM (RuleText.read go) t = .ok rule → PlainKind rule.kind := by
    intro pairs
    induction pairs with
    | nil =>
      intro t _ ht hok
      cases hok
      exact ht
    | cons p pairs ih =>
      intro t hp ht hok
      obtain ⟨t', ht', hok⟩ := bind_eq_ok.mp hok
      exact ih t' (fun q hq => hp q (mem_cons_of_mem _ hq))
        (t.read_plain ht' (hp p mem_cons_self) ht) hok
  obtain ⟨t, ht, h⟩ := bind_eq_ok.mp h
  have hrule : t = rule := by
    split_ifs at h
    exact Except.ok.inj h
  subst hrule
  exact hfold _ {} (fun p hp => not_mem_of_mem_splitOn hp) ⟨by simp, by simp⟩ ht

/-- A text that the reader finds as it was written: not empty, and with no space at its end. -/
def EndsUnspaced (value : List Char) : Prop := ∃ init d, value = init ++ [d] ∧ isGoSpace d = false

theorem EndsUnspaced.ne_nil (h : EndsUnspaced value) : value ≠ [] := by
  obtain ⟨init, d, rfl, -⟩ := h
  exact append_ne_nil_of_right_ne_nil _ (cons_ne_nil _ _)

/-- A pair is read as it was written. -/
theorem RuleText.read_pairText {key : String} (rule : RuleText)
    (hkey : key ∈ ["kind", "state", "keep"])
    (hvalue : EndsUnspaced value) (hseen : key.toList ∉ rule.seen) :
    rule.read go (pairText key value) =
      { rule with seen := key.toList :: rule.seen }.set go key.toList value := by
  obtain ⟨init, d, rfl, hd⟩ := hvalue
  have hplain : ∀ key ∈ ["kind", "state", "keep"], key.toList ≠ [] ∧
      ∀ c ∈ key.toList, decide (c ≠ '=') = true ∧ isGoSpace c = false := by
    simp [isGoSpace]
  obtain ⟨hne, hplain⟩ := hplain key hkey
  have htrim : trimSpace (pairText key (init ++ [d])) = pairText key (init ++ [d]) := by
    obtain ⟨c, cs, hcs⟩ := exists_cons_of_ne_nil hne
    have hc := (hplain c (hcs ▸ mem_cons_self)).2
    unfold trimSpace pairText
    rw [hcs, cons_append, dropWhile_cons_of_neg (by simp [hc]), ← cons_append,
      ← cons_append, ← append_assoc, rdropWhile_concat_neg _ _ _ (by simp [hd])]
  have hcut : cutPair (pairText key (init ++ [d])) = some (key.toList, init ++ [d]) := by
    unfold cutPair pairText
    rw [dropWhile_append_of_pos fun c hc => (hplain c hc).1,
      takeWhile_append_of_pos fun c hc => (hplain c hc).1]
    simp
  unfold RuleText.read
  rw [htrim, hcut]
  dsimp only
  rw [if_neg (by simp [hne]), if_neg hseen]

theorem parseHumanDuration_of_last (h : s.getLast? = some 's') :
    parseHumanDuration go s = go.parse s := by
  unfold parseHumanDuration
  rw [h]
  rfl

/-- An age is read back from its cell, which holds no comma and ends in its unit. -/
theorem ageCell_spec (go : GoDuration) {age : ℤ} (hfits : Fits64 age) :
    parseHumanDuration go (ageCell go age) = some age ∧ ',' ∉ ageCell go age ∧
      EndsUnspaced (ageCell go age) := by
  unfold ageCell
  split_ifs with hdays
  · obtain ⟨hpos, hwhole⟩ := hdays
    have hmul : age.tdiv day * day = age := Int.tdiv_mul_cancel (Int.dvd_of_tmod_eq_zero hwhole)
    have hn : Fits64 (age.tdiv day) := by
      unfold Fits64 day at *
      omega
    have hdigits := parseInt64_formatInt hn
    have hwritten : WritesAge (formatInt (age.tdiv day) ++ ['d']) 'd' (age.tdiv day) day :=
      ⟨_, rfl, (filter_eq_some_iff.mp hdigits).1, rfl⟩
    have hexact : AgeExact go _ _ _ := (exact_iff hwritten).mpr fun _ => by rwa [hmul]
    unfold AgeExact at hexact
    rw [hmul, if_pos hfits] at hexact
    exact ⟨hexact, by simp [comma_formatInt], _, _, rfl, by decide⟩
  · obtain ⟨init, hinit⟩ := getLast?_eq_some_iff.mp (go.string_end age)
    refine ⟨?_, go.string_comma age, init, 's', hinit, by decide⟩
    rw [parseHumanDuration_of_last (go.string_end age), go.parse_string age hfits]

theorem stateText_whole
    (h : ∀ state, r.state = some state → state.isTerminal = true) (hsome : r.state.isSome = true) :
    ',' ∉ r.stateText ∧ EndsUnspaced r.stateText := by
  obtain ⟨state, hstate⟩ := isSome_iff_exists.mp hsome
  have hlast : state.name.toList = state.name.toList.dropLast ++ ['d'] ∧
    ',' ∉ state.name.toList := by
    have hterminal := h state hstate
    cases state <;> revert hterminal <;> decide
  unfold RetentionRule.stateText
  rw [hstate]
  exact ⟨hlast.2, _, 'd', hlast.1, by decide⟩

theorem PlainKind.whole {kind : List Char} (h : PlainKind kind) (hne : kind ≠ []) :
    EndsUnspaced kind := by
  obtain hnil | ⟨init, c, hlast⟩ := kind.eq_nil_or_concat
  · exact absurd hnil hne
  · rw [concat_eq_append] at hlast
    exact ⟨init, c, hlast, h.2 init c hlast⟩

/-- What the validation of one rule asks of it. -/
theorem valid_rule (h : validateRetentionRules [r] = .ok ()) :
    (∀ state, r.state = some state → state.isTerminal = true) ∧ (r.kind = "" → r.state ≠ none) := by
  obtain ⟨_, hcheck, -⟩ := bind_eq_ok.mp h
  unfold RetentionRule.check at hcheck
  exact ⟨by grind, by grind⟩

/-- A valid rule is read back from its own text exactly when the text can carry its kind. -/
theorem rule_survives_iff {r : RetentionRule} (go : GoDuration)
    (hvalid : validateRetentionRules [r] = .ok ()) (hfits : Fits64 r.maxAge) :
    (∃ t, parseRetentionRule go (formatRetentionRule go r) = .ok t ∧ t.Reads r) ↔
      PlainKind r.kind.toList := by
  constructor
  · rintro ⟨t, ht, hkind, -⟩
    exact hkind ▸ parseRetentionRule_plain ht
  · intro hplain
    obtain ⟨hage, hcomma, hwhole⟩ := ageCell_spec go hfits
    obtain ⟨hterminal, hnames⟩ := valid_rule hvalid
    have hstate := stateText_whole hterminal
    unfold parseRetentionRule formatRetentionRule
    rw [splitOn_intercalate]
    · -- the pairs are read in turn, each under a key of its own
      by_cases hkind : r.kind = ""
      · have hsome : r.state.isSome = true := isSome_iff_ne_none.mpr (hnames hkind)
        have hs := (hstate hsome).2
        simp [hkind, hsome, hs, hs.ne_nil, hwhole, hage, RuleText.read_pairText, RuleText.set,
          RuleText.Reads, bind, Except.bind, pure, Except.pure]
      · have hk := hplain.whole (mt String.toList_eq_nil_iff.mp hkind)
        cases hsome : r.state.isSome with
        | true =>
          have hs := (hstate hsome).2
          simp [hkind, hs, hk, hwhole, hage, RuleText.read_pairText, RuleText.set,
            RuleText.Reads, bind, Except.bind, pure, Except.pure]
        | false =>
          have hnone : r.stateText = [] := by
            unfold RetentionRule.stateText
            rw [isSome_eq_false_iff.mp hsome |> isNone_iff_eq_none.mp]
            rfl
          simp [hkind, hk, hnone, hwhole, hage, RuleText.read_pairText, RuleText.set,
            RuleText.Reads, bind, Except.bind, pure, Except.pure]
    · have hpair : ∀ key ∈ ["kind", "state", "keep"], ∀ value, ',' ∉ value →
          ',' ∉ pairText key value := by simp [pairText]
      intro part hpart
      rw [mem_append, mem_append, mem_singleton] at hpart
      rcases hpart with (hpart | hpart) | rfl
      · split_ifs at hpart
        · rw [mem_singleton.mp hpart]
          exact hpair "kind" (by decide) _ hplain.1
        · cases hpart
      · split_ifs at hpart with hsome
        · rw [mem_singleton.mp hpart]
          exact hpair "state" (by decide) _ (hstate hsome).1
        · cases hpart
      · exact hpair "keep" (by decide) _ hcomma
    · simp

/-- A rule for the kind `report` and the failed jobs is read back. -/
theorem report_rule_survives : ∃ t, parseRetentionRule plainDuration
    (formatRetentionRule plainDuration
    { kind := "report", state := some .discarded, maxAge := 14 * day }) = .ok t ∧
      t.Reads { kind := "report", state := some .discarded, maxAge := 14 * day } :=
  (rule_survives_iff plainDuration rfl (by decide)).mpr ⟨by decide, fun init c h => by
    have hlast := congrArg List.getLast? h
    rw [getLast?_concat] at hlast
    cases hlast
    rfl⟩

/-- The rule of a kind with a comma in it is written as a text that is refused. -/
theorem comma_kind_refused :
    validateRetentionRules [{ kind := "a,b", state := none, maxAge := day }] = .ok () ∧
      parseRetentionRule plainDuration (formatRetentionRule plainDuration
        { kind := "a,b", state := none, maxAge := day }) = .error .notPairs := by
  exact ⟨rfl, by decide⟩

end Flywheel
