import Flywheel.Types

/-!
# Instants, as the dialects keep and compare them

A `timestamptz` of PostgreSQL is an instant in microseconds, and so is a parameter that is compared
with one. SQLite keeps a `time.Time` as text, the wall clock's reading with the offset of the zone
that it was written in, and compares texts: within one offset that is the order of the instants, and
across a change of the offset it is not.
-/

namespace Flywheel

/-- One microsecond. -/
def microsecond : Duration := 1000

/-- An instant as PostgreSQL keeps it. -/
def micro (t : Time) : Time := t / microsecond * microsecond

/-- A `time.Location`: the offset from UTC in force at an instant, in seconds. -/
abbrev Zone := Time → ℤ

/-- The wall clock's reading, which an instant's text begins with. -/
def Zone.wall (zone : Zone) (t : Time) : ℤ := t + zone t * second

/-- Where an offset's text sorts: `+` before `-`, and then by its digits. -/
def offsetRank (offset : ℤ) : ℤ := if 0 ≤ offset then offset else 100000 - offset

/-- The order of the texts: by the wall clock's readings, whose fields have one width up to a
fraction that drops its last zeros, and then by the offsets. -/
def Zone.textBefore (zone : Zone) (s t : Time) : Bool :=
  decide (zone.wall s < zone.wall t) ||
    (decide (zone.wall s = zone.wall t) && decide (offsetRank (zone s) < offsetRank (zone t)))

/-- `column < ?`, for the value that the column holds. -/
def Dialect.before (zone : Zone) (now : Time) : Dialect → Time → Bool
  | .postgres, stored => decide (stored < micro now)
  | .sqlite, stored => zone.textBefore stored now

/-- `column <= ?` -/
def Dialect.reached (zone : Zone) (now : Time) : Dialect → Time → Bool
  | .postgres, stored => decide (stored ≤ micro now)
  | .sqlite, stored => !zone.textBefore now stored

/-- The strict order of `ORDER BY column`. -/
def Dialect.sorts (zone : Zone) : Dialect → Time → Time → Bool
  | .postgres, s, t => decide (s < t)
  | .sqlite, s, t => zone.textBefore s t

/-- One offset is in force at all times. -/
def Zone.Fixed (zone : Zone) : Prop := ∀ t, zone t = zone 0

/-- The dialect compares a stored instant with `now` as the clock would: a parameter of PostgreSQL
loses nothing below the microsecond, and SQLite's texts have one offset. -/
def Dialect.Exact (zone : Zone) (now : Time) : Dialect → Prop
  | .postgres => microsecond ∣ now
  | .sqlite => zone.Fixed

variable {zone : Zone} {now : Time}

/-- Within one offset, texts are ordered as the instants are. -/
theorem Zone.Fixed.textBefore (h : zone.Fixed) (s t : Time) :
    zone.textBefore s t = decide (s < t) := by
  unfold Zone.textBefore Zone.wall
  rw [h s, h t, Bool.eq_iff_iff]
  simp

/-- A whole number of microseconds is kept as it is. -/
theorem micro_eq (h : microsecond ∣ now) : micro now = now := Int.ediv_mul_cancel h

/-- An exact comparison by `<` is that of the instants. -/
theorem Dialect.Exact.before {d : Dialect} (h : d.Exact zone now) (t : Time) :
    d.before zone now t = decide (t < now) := by
  cases d with
  | postgres => rw [Dialect.before, micro_eq h]
  | sqlite => exact Zone.Fixed.textBefore h t now

/-- An instant that a column of the dialect can hold. -/
def Dialect.Holds (t : Time) : Dialect → Prop
  | .postgres => microsecond ∣ t
  | .sqlite => True

/-- Within one offset, what a comparison by `<=` finds reached is so, and it finds every held
instant that is. -/
theorem Dialect.reached_iff {d : Dialect} (hzone : d = .sqlite → zone.Fixed) (t : Time) :
    (d.reached zone now t = true → t ≤ now) ∧
      (d.Holds t → t ≤ now → d.reached zone now t = true) := by
  cases d with
  | postgres =>
    simp only [Dialect.reached, decide_eq_true_eq]
    refine ⟨fun h => Int.le_trans h (Int.ediv_mul_le now (by decide)), ?_⟩
    rintro ⟨k, rfl⟩ h
    rw [Int.mul_comm] at h ⊢
    exact Int.mul_le_mul_of_nonneg_right (Int.le_ediv_of_mul_le (by decide) h) (by decide)
  | sqlite => simp [Dialect.reached, (hzone rfl).textBefore]

/-- A zone that sets its clocks back an hour at the instant `change`, from four to five hours behind
UTC. -/
def autumn (change : Time) : Zone := fun t => if t < change then -14400 else -18000

-- the text of a lease that runs for some minutes yet sorts before that of the present
example : Dialect.sqlite.before (autumn 0) (-20000000000) 270000000000 = true := by decide

end Flywheel
