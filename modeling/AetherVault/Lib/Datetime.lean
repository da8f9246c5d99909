import AetherVault.Lib.Encoding

/-! Points in time by their calendar fields, their ISO 8601 text as `isoformat()` writes
it, and that the text reads back. -/
namespace AetherVault.Lib

def leap_year (year : Nat) : Bool := year % 4 == 0 && (year % 100 != 0 || year % 400 == 0)

def days_in_month (year month : Nat) : Nat :=
  if month = 2 then (if leap_year year then 29 else 28) else if month ∈ [4,6,9,11] then 30 else 31

def datetime_valid (year month day hour minute second microsecond : Nat) : Bool :=
  decide (1 ≤ year ∧ year ≤ 9999 ∧ 1 ≤ month ∧ month ≤ 12 ∧ 1 ≤ day ∧ day ≤ days_in_month year month ∧
    hour < 24 ∧ minute < 60 ∧ second < 60 ∧ microsecond < 10^6)

structure Datetime where
  year : Nat
  month : Nat
  day : Nat
  hour : Nat
  minute : Nat
  second : Nat
  microsecond : Nat
  valid : datetime_valid year month day hour minute second microsecond = true
  deriving DecidableEq

namespace Datetime

/-- `none` for a `ValueError`. -/
def make (year month day hour minute second microsecond : Nat) : Option Datetime :=
  if valid : datetime_valid year month day hour minute second microsecond = true then
    some ⟨year,month,day,hour,minute,second,microsecond,valid⟩
  else none

@[simp] theorem make_fields (d : Datetime) :
    make d.year d.month d.day d.hour d.minute d.second d.microsecond = some d := dif_pos d.valid

/-- A number in the order of time. -/
def instant (d : Datetime) : Nat :=
  (((((d.year * 13 + d.month) * 32 + d.day) * 24 + d.hour) * 60 + d.minute) * 60 + d.second) * 10^6 + d.microsecond

def padded : Nat → Nat → List Char
  | 0,_ => []
  | width+1,n => (n / 10^width % 10).digitChar::padded width n

def fraction (microsecond : Nat) : List Char := if microsecond = 0 then [] else '.'::padded 6 microsecond

/-- Without a time zone. -/
def isoformat (d : Datetime) : List Char :=
  padded 4 d.year ++ '-'::padded 2 d.month ++ '-'::padded 2 d.day ++ 'T'::padded 2 d.hour ++ ':'::padded 2 d.minute ++
    ':'::padded 2 d.second ++ fraction d.microsecond

def utc_suffix : List Char := ['+','0','0',':','0','0']

/-- With the time zone UTC. -/
def isoformat_utc (d : Datetime) : List Char := d.isoformat ++ utc_suffix

def read_digits : Nat → Nat → List Char → Option (Nat × List Char)
  | 0,n,cs => some (n,cs)
  | _+1,_,[] => none
  | width+1,n,c::cs => if '0' ≤ c ∧ c ≤ '9' then read_digits width (n * 10 + (c.toNat - '0'.toNat)) cs else none

def expect (c : Char) (cs : List Char) : Option (List Char) := if cs.head? = some c then some cs.tail else none

def read_fraction (cs : List Char) : Option (Nat × List Char) :=
  if cs.head? = some '.' then read_digits 6 0 cs.tail else some (0,cs)

/-- The minutes of an offset east of UTC, which ends the text. -/
def read_offset : List Char → Option (Option Int)
  | [] => some none
  | c::cs => do
    let sign ← if c = '+' then some 1 else if c = '-' then some (-1) else none
    let hours ← read_digits 2 0 cs
    let cs ← expect ':' hours.2
    let minutes ← read_digits 2 0 cs
    if minutes.2 = [] ∧ hours.1 < 24 ∧ minutes.1 < 60 then some (some (sign * (60 * hours.1 + minutes.1))) else none

/-- The forms that `isoformat()` writes. -/
def fromisoformat (cs : List Char) : Option (Datetime × Option Int) := do
  let year ← read_digits 4 0 cs
  let cs ← expect '-' year.2
  let month ← read_digits 2 0 cs
  let cs ← expect '-' month.2
  let day ← read_digits 2 0 cs
  let hour ← read_digits 2 0 day.2.tail
  let cs ← expect ':' hour.2
  let minute ← read_digits 2 0 cs
  let cs ← expect ':' minute.2
  let second ← read_digits 2 0 cs
  let microsecond ← read_fraction second.2
  let offset ← read_offset microsecond.2
  let naive ← make year.1 month.1 day.1 hour.1 minute.1 second.1 microsecond.1
  some (naive,offset)

def day_before (year month day : Nat) : Nat × Nat × Nat :=
  if 1 < day then (year,month,day - 1)
  else if 1 < month then (year,month - 1,days_in_month year (month - 1))
  else (year - 1,12,31)

def day_after (year month day : Nat) : Nat × Nat × Nat :=
  if day < days_in_month year month then (year,month,day + 1)
  else if month < 12 then (year,month + 1,1)
  else (year + 1,1,1)

/-- The same instant in UTC; `none` for an `OverflowError`. -/
def to_utc (d : Datetime) (offset : Int) : Option Datetime :=
  let minutes : Int := 60 * d.hour + d.minute - offset
  let date := if minutes < 0 then day_before d.year d.month d.day
    else if 1440 ≤ minutes then day_after d.year d.month d.day
    else (d.year,d.month,d.day)
  let time := (minutes % 1440).toNat
  make date.1 date.2.1 date.2.2 (time / 60) (time % 60) d.second d.microsecond

def replace_date (d : Datetime) (date : Nat × Nat × Nat) : Option Datetime :=
  make date.1 date.2.1 date.2.2 d.hour d.minute d.second d.microsecond

/-- So many days earlier; `none` for an `OverflowError`. -/
def minus_days (d : Datetime) : Int → Option Datetime
  | .ofNat days => (fun (at_day : Option Datetime) => at_day.bind fun e => e.replace_date (day_before e.year e.month e.day))^[days] (some d)
  | .negSucc days => (fun (at_day : Option Datetime) => at_day.bind fun e => e.replace_date (day_after e.year e.month e.day))^[days + 1] (some d)

theorem fields (d : Datetime) : 1 ≤ d.year ∧ d.year ≤ 9999 ∧ 1 ≤ d.month ∧ d.month ≤ 12 ∧ 1 ≤ d.day ∧
    d.day ≤ days_in_month d.year d.month ∧ d.hour < 24 ∧ d.minute < 60 ∧ d.second < 60 ∧ d.microsecond < 10^6 :=
  of_decide_eq_true d.valid

theorem to_utc_zero (d : Datetime) : d.to_utc 0 = some d := by
  obtain ⟨-,-,-,-,-,-,hour,minute,-,-⟩ := d.fields
  have early : ¬(60 * (d.hour : Int) + d.minute - 0 < 0) := by omega
  have late : ¬((1440 : Int) ≤ 60 * d.hour + d.minute - 0) := by omega
  have time : ((60 * (d.hour : Int) + d.minute - 0) % 1440).toNat = 60 * d.hour + d.minute := by omega
  have hours : (60 * d.hour + d.minute) / 60 = d.hour := by omega
  have minutes : (60 * d.hour + d.minute) % 60 = d.minute := by omega
  unfold to_utc
  simp only [if_neg early,if_neg late,time,hours,minutes]
  exact d.make_fields

theorem digit_value {n : Nat} (small : n < 10) :
    ('0' ≤ n.digitChar ∧ n.digitChar ≤ '9') ∧ n.digitChar.toNat - '0'.toNat = n := by
  interval_cases n <;> decide

theorem read_digits_padded (width n acc : Nat) (rest : List Char) :
    read_digits width acc (padded width n ++ rest) = some (acc * 10^width + n % 10^width,rest) := by
  induction width generalizing acc with
  | zero => simp [read_digits,padded,Nat.mod_one]
  | succ width ih =>
    obtain ⟨digit,value⟩ := digit_value (Nat.mod_lt (n / 10^width) (by decide : 0 < 10))
    rw [padded,List.cons_append,read_digits,if_pos digit,value,ih,Nat.mod_pow_succ,Nat.pow_succ]
    congr 2
    ring

theorem read_padded {width n : Nat} (small : n < 10^width) (rest : List Char) :
    read_digits width 0 (padded width n ++ rest) = some (n,rest) := by
  rw [read_digits_padded,Nat.mod_eq_of_lt small,Nat.zero_mul,Nat.zero_add]

theorem expect_cons (c : Char) (rest : List Char) : expect c (c::rest) = some rest := by simp [expect]

theorem days_in_month_le (year month : Nat) : days_in_month year month ≤ 31 := by
  unfold days_in_month
  split_ifs <;> omega

/-- What comes after the seconds does not look like a fraction. -/
theorem read_fraction_written {microsecond : Nat} (small : microsecond < 10^6) {rest : List Char}
    (apart : rest.head? ≠ some '.') : read_fraction (fraction microsecond ++ rest) = some (microsecond,rest) := by
  unfold fraction
  split
  · rename_i zero
    simp [read_fraction,apart,zero]
  · simp [read_fraction,read_padded small]

theorem fromisoformat_written (d : Datetime) {suffix : List Char} {offset : Option Int} (apart : suffix.head? ≠ some '.')
    (reads : read_offset suffix = some offset) : fromisoformat (d.isoformat ++ suffix) = some (d,offset) := by
  obtain ⟨-,year,-,month,-,day,hour,minute,second,microsecond⟩ := d.fields
  have short := days_in_month_le d.year d.month
  have unfolded : d.isoformat ++ suffix = padded 4 d.year ++ '-'::(padded 2 d.month ++ '-'::(padded 2 d.day ++
      'T'::(padded 2 d.hour ++ ':'::(padded 2 d.minute ++ ':'::(padded 2 d.second ++
        (fraction d.microsecond ++ suffix)))))) := by simp [isoformat]
  have read {width n : Nat} (small : n < 10^width) (rest : List Char) {α : Type} (next : Nat × List Char → Option α) :
      (read_digits width 0 (padded width n ++ rest) >>= next) = next (n,rest) := by
    rw [read_padded small]
    rfl
  have past (c : Char) (rest : List Char) {α : Type} (next : List Char → Option α) : (expect c (c::rest) >>= next) = next rest := by
    rw [expect_cons]
    rfl
  rw [unfolded,fromisoformat,read (by omega),past,read (by omega),past,read (by omega),List.tail_cons,read (by omega),past,
    read (by omega),past,read (by omega),read_fraction_written microsecond apart,Option.bind_eq_bind,Option.bind_some,reads,
    Option.bind_eq_bind,Option.bind_some,make_fields]
  rfl

theorem fromisoformat_isoformat (d : Datetime) : fromisoformat d.isoformat = some (d,none) := by
  have read : fromisoformat (d.isoformat ++ []) = some (d,none) := fromisoformat_written d (by simp) rfl
  rwa [List.append_nil] at read

theorem fromisoformat_utc (d : Datetime) : fromisoformat d.isoformat_utc = some (d,some 0) :=
  fromisoformat_written d (by decide) (by decide)

end Datetime

end AetherVault.Lib
