import Mathlib.Order.Interval.Set.Monotone
import Mathlib.Order.SuccPred.Archimedean
import Mathlib.Tactic.IntervalCases
import RecordStore.Proofs.Digits
import RecordStore.Store.Comparison

/-!
# The texts of the clock

A stamp is the text of the time that the clock shows, and it goes into a column that takes texts of
dates. The text is read again as the time that it was written from, as long as the year has four
digits and the clock is not within a leap second.

* **`Date.isValid_ofDayNumber`** — every number of days is a day of the calendar.
* **`Timestamp.read_textChars`** — the text of a timestamp in UTC is read as the timestamp.
* **`Instant.accepts_text`** — so columns of dates take the texts of regular instants.
-/

namespace RecordStore.Time

/-! ## Days of the calendar -/

namespace Date

/-- The days before a year of an era. -/
def daysBefore (yearOfEra : Int) : Int := 365 * yearOfEra + yearOfEra / 4 - yearOfEra / 100

/-- The days of an era up to one of them, less the leap days among them. -/
def daysLessLeap (dayOfEra : Int) : Int :=
  dayOfEra - dayOfEra / 1460 + dayOfEra / 36524 - dayOfEra / 146096

theorem daysLessLeap_mono {m n : Int} (h : m ≤ n) : daysLessLeap m ≤ daysLessLeap n := by
  have hmono : Monotone daysLessLeap := by
    refine monotone_int_of_le_succ fun n => ?_
    unfold daysLessLeap
    omega
  exact hmono h

/-- Between the end of one year and the beginning of the next the days without the leap days reach a
multiple of 365. -/
theorem daysLessLeap_daysBefore :
    ∀ year < (400 : Nat), 0 < year → daysLessLeap (daysBefore year - 1) < 365 * year
      ∧ 365 * year ≤ daysLessLeap (daysBefore year) := by
  decide +kernel

/-- The year of an era in which a day of the era lies. -/
theorem yearOfEra_spec {day : Int} (hday : 0 ≤ day) (hera : day < daysPerEra) :
    ∃ year : Nat, daysLessLeap day / 365 = year ∧ year < 400 ∧ daysBefore year ≤ day
      ∧ (day < daysBefore (year + 1) ∨ year = 399) := by
  have hlow : 0 ≤ daysLessLeap day := daysLessLeap_mono hday
  have hhigh : daysLessLeap day ≤ daysLessLeap 146096 :=
    daysLessLeap_mono (Int.le_of_lt_add_one hera)
  have hlast : daysLessLeap 146096 = 145999 := rfl
  -- the days without leap days lie between 0 and 400 years of 365
  obtain ⟨year, hyear⟩ :=
    Int.eq_ofNat_of_zero_le (Int.ediv_nonneg hlow (by decide : (0 : Int) ≤ 365))
  have hlt : year < 400 := by omega
  refine ⟨year, hyear, hlt, ?_, ?_⟩
  -- the day would come before the year, and count for less than 365 times the year
  · by_contra hbefore
    have hmono := daysLessLeap_mono (Int.le_sub_one_of_lt (Int.not_le.1 hbefore))
    rcases Nat.eq_zero_or_pos year with rfl | hpos
    · exact hbefore hday
    · have htable := (daysLessLeap_daysBefore year hlt hpos).1
      omega
  -- the day would come in a later year, and count for 365 more
  · by_contra hafter
    obtain ⟨hend, hnot⟩ := not_or.1 hafter
    have hmono := daysLessLeap_mono (Int.not_lt.1 hend)
    have htable := (daysLessLeap_daysBefore (year + 1) (by omega) (Nat.succ_pos year)).2
    push_cast at htable
    omega

/-- The months from March on have the days that are given to them. -/
theorem isValid_of_dayOfYear {day month year : Int} (hday : 0 ≤ day)
    (hlast : day < 365 ∨ day = 365 ∧ isLeapYear (year + 1) = true)
    (hmonth : (5 * day + 2) / 153 = month) :
    (Date.mk (if (if month < 10 then month + 3 else month - 9) ≤ 2 then year + 1 else year)
      (if month < 10 then month + 3 else month - 9).toNat
      (day - (153 * month + 2) / 5 + 1).toNat).isValid = true := by
  have hlow : 0 ≤ month := by omega
  have hhigh : month < 12 := by omega
  interval_cases month <;> simp [isValid, daysInMonth] <;> try omega
  -- February is the last month, and as long as the year lets it
  rcases hlast with hlast | ⟨hlast, hleap⟩
  · split <;> omega
  · rw [if_pos hleap]
    omega

/-- A year of an era with a day more than 365 ends with the leap day. -/
theorem isLeapYear_of_daysBefore {year era : Int}
    (hlong : daysBefore year + 365 < daysBefore (year + 1) ∨ year = 399) :
    isLeapYear (era * 400 + year + 1) = true := by
  -- an era is a whole number of cycles, so it drops out of every remainder
  have hfour : (era * 400 + year + 1) % 4 = (year + 1) % 4 := by omega
  have hcentury : (era * 400 + year + 1) % 100 = (year + 1) % 100 := by omega
  have hcycle : (era * 400 + year + 1) % 400 = (year + 1) % 400 := by omega
  unfold daysBefore at hlong
  simp only [isLeapYear, hfour, hcentury, hcycle, Bool.and_eq_true, Bool.or_eq_true, beq_iff_eq,
    bne_iff_ne]
  omega

/-- Every number of days is a day of the calendar. -/
theorem isValid_ofDayNumber (n : Int) : (ofDayNumber n).isValid = true := by
  have hday := Int.emod_nonneg (n + daysToEpoch) (by decide : daysPerEra ≠ 0)
  have hera := Int.emod_lt_of_pos (n + daysToEpoch) (by decide : 0 < daysPerEra)
  obtain ⟨year, hyear, hlt, hbegin, hend⟩ := yearOfEra_spec hday hera
  have hyearOfEra : ((n + daysToEpoch) % daysPerEra - (n + daysToEpoch) % daysPerEra / 1460
      + (n + daysToEpoch) % daysPerEra / 36524 - (n + daysToEpoch) % daysPerEra / 146096) / 365
      = year := hyear
  unfold ofDayNumber
  dsimp only
  rw [hyearOfEra]
  refine isValid_of_dayOfYear (Int.sub_nonneg_of_le hbegin) ?_ rfl
  have hnext : daysBefore (year + 1) ≤ daysBefore year + 366 := by
    unfold daysBefore
    omega
  rcases hend with hend | rfl
  · -- before the next year begins
    rw [or_iff_not_imp_left]
    intro hlast
    change ¬ (_ - daysBefore year < 365) at hlast
    refine ⟨?_, isLeapYear_of_daysBefore (.inl ?_)⟩
    · show _ - daysBefore year = 365
      omega
    · omega
  · -- the last year of the era
    by_cases hlast : (n + daysToEpoch) % daysPerEra - daysBefore (399 : Nat) < 365
    · exact .inl hlast
    · refine .inr ⟨?_, isLeapYear_of_daysBefore (.inr rfl)⟩
      show _ - daysBefore (399 : Nat) = 365
      have hyears : daysBefore (399 : Nat) = 145731 := rfl
      have hdays : daysPerEra = 146097 := rfl
      omega

end Date

end RecordStore.Time

/-! ## Timestamps -/

namespace RecordStore.Time.Timestamp

open Text

/-- A padded number is read as itself. -/
theorem digits?_padded {width n : Nat} (hwidth : 0 < width) (hn : n < 10 ^ width)
    (rest : List Char) :
    digits? width (padded width n ++ rest) = some (n, rest) := by
  have htake : (padded width n ++ rest).take width = padded width n := by
    rw [List.take_left' (length_padded hwidth hn)]
  have hdrop : (padded width n ++ rest).drop width = rest := by
    rw [List.drop_left' (length_padded hwidth hn)]
  rw [digits?]
  simp only [htake, hdrop]
  rw [if_pos ⟨length_padded hwidth hn, List.all_eq_true.2 fun _ => isDigit_of_mem_padded⟩,
    digitsValue_padded]

/-- Digits after a point are read up to the next character. -/
theorem decimals?_padded {width n : Nat} (hwidth : 0 < width) (hlimit : width ≤ 9)
    (hn : n < 10 ^ width) {next : Char} (hnext : isDigit next = false) (rest : List Char) :
    decimals? ('.' :: padded width n ++ next :: rest)
      = some (n * 10 ^ (9 - width), next :: rest) := by
  have hlength := length_padded hwidth hn
  have hdigits : ∀ c ∈ padded width n, isDigit c = true := fun _ => isDigit_of_mem_padded
  have hstop : ∀ c ∈ (next :: rest).head?, isDigit c = false := by simp [hnext]
  obtain ⟨htake, hdrop⟩ := span_append hdigits hstop
  -- a point without digits would be an error
  have hsome : (padded width n).isEmpty = false := by
    rw [List.isEmpty_eq_false_iff, ← List.length_pos_iff, hlength]
    exact hwidth
  rw [List.cons_append, decimals?]
  simp only [htake, hdrop, hsome, List.take_of_length_le (hlength.trans_le hlimit), hlength,
    digitsValue_padded]
  rfl

/-- The decimals of a second are read as the nanoseconds that they were written from. -/
theorem decimals?_decimalsText {nanos : Nat} (hnanos : nanos < nanosPerSecond) {next : Char}
    (hnext : isDigit next = false) (hpoint : next ≠ '.') (rest : List Char) :
    decimals? (decimalsText nanos ++ next :: rest) = some (nanos, next :: rest) := by
  unfold nanosPerSecond at hnanos
  unfold decimalsText
  split
  · rename_i hzero
    rw [hzero, List.nil_append, decimals?]
    simp [hpoint]
  · split
    -- written to the thousandth, the millionth or the billionth, as far as needed
    · rw [decimals?_padded (by decide) (by decide) (by omega) hnext]
      congr 2
      omega
    · split
      · rw [decimals?_padded (by decide) (by decide) (by omega) hnext]
        congr 2
        omega
      · rw [decimals?_padded (by decide) (by decide) hnanos hnext]
        congr 2
        omega

theorem oneOf?_cons {expected : List Char} {c : Char} (h : expected.contains c = true)
    (rest : List Char) : oneOf? expected (c :: rest) = some rest := if_pos h

/-- The text of a timestamp in UTC, in a year of four digits and outside leap seconds, is read as
the timestamp. -/
theorem read_textChars {t : Timestamp} (hdate : t.date.isValid = true)
    (hyear : 0 ≤ t.date.year ∧ t.date.year ≤ 9999) (hhour : t.hour < 24) (hminute : t.minute < 60)
    (hsecond : t.second < 60) (hnanos : t.nanos < nanosPerSecond) (hoffset : t.offset = 0) :
    read t.textChars = some t := by
  obtain ⟨⟨year, month, day⟩, hour, minute, second, nanos, offset⟩ := t
  dsimp only at hyear hhour hminute hsecond hnanos hoffset
  subst hoffset
  have hmonth : month < 10 ^ 2 := by
    simp only [Date.isValid, Bool.and_eq_true, decide_eq_true_eq] at hdate
    omega
  have hday : day < 10 ^ 2 := by
    have hmonths : daysInMonth year month ≤ 31 := by
      unfold daysInMonth
      split <;> [split; split] <;> decide
    simp only [Date.isValid, Bool.and_eq_true, decide_eq_true_eq] at hdate
    omega
  -- outside a leap second nothing is carried to the seconds
  have hwritten : writtenSecond ⟨⟨year, month, day⟩, hour, minute, second, nanos, 0⟩ = second := by
    rw [writtenSecond, Nat.div_eq_of_lt hnanos, Nat.add_zero]
  have hrest : writtenNanos ⟨⟨year, month, day⟩, hour, minute, second, nanos, 0⟩ = nanos :=
    Nat.mod_eq_of_lt hnanos
  have hzone : offsetText [':'] 0 = '+' :: "00:00".toList := rfl
  have hplus : isDigit '+' = false := by decide
  unfold textChars yearText
  rw [if_pos hyear, hwritten, hrest, hzone]
  simp only [List.append_assoc, List.cons_append]
  unfold read
  -- every piece is read as it was written, from left to right
  refine Option.bind_eq_some_iff.2 ⟨_, digits?_padded (by decide) (by omega) _, ?_⟩
  refine Option.bind_eq_some_iff.2 ⟨_, oneOf?_cons (by decide) _, ?_⟩
  refine Option.bind_eq_some_iff.2 ⟨_, digits?_padded (by decide) hmonth _, ?_⟩
  refine Option.bind_eq_some_iff.2 ⟨_, oneOf?_cons (by decide) _, ?_⟩
  refine Option.bind_eq_some_iff.2 ⟨_, digits?_padded (by decide) hday _, ?_⟩
  refine Option.bind_eq_some_iff.2 ⟨_, oneOf?_cons (by decide) _, ?_⟩
  refine Option.bind_eq_some_iff.2 ⟨_, digits?_padded (by decide) (by omega) _, ?_⟩
  refine Option.bind_eq_some_iff.2 ⟨_, oneOf?_cons (by decide) _, ?_⟩
  refine Option.bind_eq_some_iff.2 ⟨_, digits?_padded (by decide) (by omega) _, ?_⟩
  refine Option.bind_eq_some_iff.2 ⟨_, oneOf?_cons (by decide) _, ?_⟩
  refine Option.bind_eq_some_iff.2 ⟨_, digits?_padded (by decide) (by omega) _, ?_⟩
  refine Option.bind_eq_some_iff.2 ⟨_, decimals?_decimalsText hnanos hplus (by decide) _, ?_⟩
  refine Option.bind_eq_some_iff.2 ⟨(0, []), rfl, ?_⟩
  dsimp only
  rw [Int.natAbs_of_nonneg hyear.1, hdate, if_neg (by simp; omega), if_neg (by omega)]
  rfl

end RecordStore.Time.Timestamp

/-! ## Instants -/

namespace RecordStore

namespace Time.Instant

/-- An instant in a year of four digits and outside leap seconds. -/
def IsRegular (i : Instant) : Prop :=
  (0 ≤ i.toUtc.date.year ∧ i.toUtc.date.year ≤ 9999) ∧ i.nanos < nanosPerSecond

instance (i : Instant) : Decidable i.IsRegular := inferInstanceAs (Decidable (_ ∧ _))

/-- The text of a regular instant is read as the instant's timestamp. -/
theorem ofText?_text {i : Instant} (h : i.IsRegular) : Timestamp.ofText? i.text = some i.toUtc := by
  have hlow := Int.emod_nonneg i.seconds (by decide : secondsPerDay ≠ 0)
  have hhigh := Int.emod_lt_of_pos i.seconds (by decide : 0 < secondsPerDay)
  have hday : secondsPerDay = 86400 := rfl
  rw [Timestamp.ofText?, Instant.text, Timestamp.text, String.toList_ofList]
  refine Timestamp.read_textChars (Date.isValid_ofDayNumber _) h.1 ?_ ?_ ?_ h.2 rfl
  all_goals
    rw [toUtc]
    dsimp only
    omega

end Time.Instant

/-- Columns of dates take the texts of regular instants. -/
theorem ColumnType.accepts_clock {i : Time.Instant} (h : i.IsRegular) :
    ColumnType.datetime.accepts (.string i.text) = true := by
  have hread : (Value.string i.text).instant? = some i.toUtc.instant := by
    rw [Value.instant?, Value.text?, Option.bind_some, Time.Instant.ofText?_text h]
    rfl
  rw [accepts, hread]
  · rfl
  · exact Value.noConfusion

end RecordStore
