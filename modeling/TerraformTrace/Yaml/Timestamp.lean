import TerraformTrace.Text.Digit
import TerraformTrace.Text.Quoted

/-!
# TerraformTrace.Yaml.Timestamp

Dates and times as plain scalars. A date alone has two digits for month and day; with a
time after it one is enough. The time has seconds, perhaps a fraction, and perhaps an
offset from universal time. A scalar of this form that names no day or time is an
error.
-/

namespace TerraformTrace.Yaml

/-! ### Days -/

/-- A day as it is written. -/
structure Date where
  year : Nat
  month : Nat
  day : Nat
deriving DecidableEq, Repr

namespace Date

/-- Whether a year has a 29th of February. -/
def isLeap (year : Nat) : Bool := year % 4 = 0 && (year % 100 ≠ 0 || year % 400 = 0)

/-- The lengths of the months of a year. -/
def monthLengths (year : Nat) : List Nat :=
  [31, if isLeap year then 29 else 28, 31, 30, 31, 30, 31, 31, 30, 31, 30, 31]

/-- The length of a month. -/
def monthLength (year month : Nat) : Nat := ((monthLengths year)[month - 1]?).getD 0

/-- Whether there is such a day. -/
def isValid (date : Date) : Bool :=
  1 ≤ date.year && date.year ≤ 9999 && 1 ≤ date.month && date.month ≤ 12 &&
    1 ≤ date.day && date.day ≤ monthLength date.year date.month

/-- Number of days up to a day since the calendar starts. -/
def number (date : Date) : Nat :=
  let years := date.year - 1
  years * 365 + years / 4 - years / 100 + years / 400 +
    ((monthLengths date.year).take (date.month - 1)).foldl (· + ·) 0 + date.day

/-- The day after. -/
def next (date : Date) : Date :=
  if date.day < monthLength date.year date.month then { date with day := date.day + 1 }
  else if date.month < 12 then { date with month := date.month + 1, day := 1 }
  else { year := date.year + 1, month := 1, day := 1 }

end Date

/-! ### Times -/

/-- An offset from universal time, in minutes, as it is written. -/
structure Zone where
  minutes : Int
  written : Text
deriving DecidableEq, Repr

/-- A time as it is written. -/
structure Moment where
  date : Date
  hour : Nat
  minute : Nat
  second : Nat
  microsecond : Nat
  zone : Option Zone
deriving DecidableEq, Repr

namespace Moment

/-- Whether there is such a time. -/
def isValid (moment : Moment) : Bool :=
  moment.date.isValid && moment.hour ≤ 23 && moment.minute ≤ 59 && moment.second ≤ 59 &&
    moment.zone.all (·.minutes.natAbs < 24 * 60)

/-- Number of seconds since the calendar starts. -/
def seconds (moment : Moment) : Nat :=
  ((moment.date.number * 24 + moment.hour) * 60 + moment.minute) * 60 + moment.second

/-- Whether two times are the same. A time with an offset is never one without. -/
def same (a b : Moment) : Bool :=
  let universal (m : Moment) (zone : Zone) : Int := (m.seconds : Int) - zone.minutes * 60
  a.microsecond = b.microsecond &&
    match a.zone, b.zone with
    | none, none => a.seconds = b.seconds
    | some p, some q => universal a p = universal b q
    | _, _ => false

/-- The time one second later. -/
def next (moment : Moment) : Moment :=
  if moment.second < 59 then { moment with second := moment.second + 1 }
  else if moment.minute < 59 then { moment with minute := moment.minute + 1, second := 0 }
  else if moment.hour < 23 then
    { moment with hour := moment.hour + 1, minute := 0, second := 0 }
  else { moment with date := moment.date.next, hour := 0, minute := 0, second := 0 }

end Moment

/-! ### Reading -/

/-- A number of at least `least` and at most `most` digits, and the text after it. -/
def digitsOf? (least most : Nat) (text : Text) : Option (Nat × Text) :=
  let digits := (text.take most).takeWhile Char.isDigit
  if digits.length < least then none
  else some (Text.digitsValue digits, text.drop digits.length)

/-- What follows a leading character. -/
def after? (c : Char) : Text → Option Text
  | [] => none
  | d :: rest => if d = c then some rest else none

/-- A date with months and days of at least so many digits, and the text after it. -/
def date? (least : Nat) (text : Text) : Option (Date × Text) := do
  let (year, text) ← digitsOf? 4 4 text
  let (month, text) ← digitsOf? least 2 (← after? '-' text)
  let (day, text) ← digitsOf? least 2 (← after? '-' text)
  return ({ year, month, day }, text)

/-- The offset from universal time that ends a time, if there is one. -/
def zone? (text : Text) : Option (Option Zone) :=
  match text.dropWhile (· = ' ') with
  | [] => if text.isEmpty then some none else none
  | ['Z'] => some (some ⟨0, ['Z']⟩)
  | sign :: rest => do
    if sign ≠ '+' && sign ≠ '-' then none
    else
      let (hours, rest) ← digitsOf? 1 2 rest
      let minutes ←
        match rest with
        | [] => some 0
        | ':' :: rest => do
          let (minutes, rest) ← digitsOf? 2 2 rest
          if rest.isEmpty then some minutes else none
        | _ => none
      let offset : Int := (hours * 60 + minutes : Nat)
      return some ⟨if sign = '-' then -offset else offset, text.dropWhile (· = ' ')⟩

/-- The digits of a fraction, and the text after it. -/
def fraction : Text → Text × Text
  | '.' :: rest => rest.span Char.isDigit
  | text => ([], text)

/-- Microseconds from the digits of a fraction; the seventh digit rounds. -/
def microseconds (digits : Text) : Nat :=
  let six := digits.take 6
  let value := Text.digitsValue (six ++ List.replicate (6 - six.length) '0')
  if digits[6]?.any ('5' ≤ ·) then value + 1 else value

/-- A time after its date. -/
def moment? (text : Text) : Option Moment := do
  let (date, text) ← date? 1 text
  let text ←
    match text with
    | ' ' :: rest => some (rest.dropWhile (· = ' '))
    | c :: rest => if c = 'T' || c = 't' then some rest else none
    | [] => none
  let (hour, text) ← digitsOf? 1 2 text
  let (minute, text) ← digitsOf? 2 2 (← after? ':' text)
  let (second, text) ← digitsOf? 2 2 (← after? ':' text)
  let (digits, text) := fraction text
  let zone ← zone? text
  return { date, hour, minute, second, microsecond := microseconds digits, zone }

/-- A day, or a time of one. -/
inductive Timestamp
  | date (date : Date)
  | moment (moment : Moment)
deriving DecidableEq, Repr

namespace Timestamp

/-- Reads a timestamp: none if a text is not of the form of one. -/
def ofText? (text : Text) : Option Timestamp :=
  match date? 2 text with
  | some (day, []) => some (.date day)
  | _ => (moment? text).map .moment

/-- The timestamp with its fraction carried over to the seconds, if there is such a day
and time. -/
def checked? : Timestamp → Option Timestamp
  | .date day => if day.isValid then some (.date day) else none
  | .moment time =>
    if !time.isValid then none
    else if time.microsecond < 1000000 then some (.moment time)
    else
      let later := { time.next with microsecond := 0 }
      if later.isValid then some (.moment later) else none

/-- Whether two timestamps are equal. -/
def same : Timestamp → Timestamp → Bool
  | .date a, .date b => a = b
  | .moment a, .moment b => a.same b
  | _, _ => false

/-- Numbers with commas between them. -/
def listed (numbers : List Nat) : Text := Text.join ", ".toList (numbers.map Text.ofNat)

/-- An offset as it is shown. Days and seconds are told apart, and a negative offset has
a negative number of days. -/
def shownOffset (minutes : Int) : Text :=
  let seconds := (minutes * 60) % 86400
  let days := (minutes * 60) / 86400
  let parts :=
    (if days = 0 then [] else ["days=".toList ++ Text.ofInt days]) ++
      (if seconds = 0 then [] else ["seconds=".toList ++ Text.ofInt seconds])
  "datetime.timedelta(".toList ++
    (if parts.isEmpty then ['0'] else Text.join ", ".toList parts) ++ [')']

/-- An offset from universal time as it is shown. -/
def shownZone (zone : Zone) : Text :=
  ", tzinfo=datetime.timezone(".toList ++ shownOffset zone.minutes ++ ", ".toList ++
    Text.quoted zone.written ++ [')']

/-- A timestamp as it is shown. Seconds and their fraction are left out if they are
zero. -/
def shown : Timestamp → Text
  | .date day => "datetime.date(".toList ++ listed [day.year, day.month, day.day] ++ [')']
  | .moment time =>
    let day := time.date
    let fine :=
      if time.microsecond ≠ 0 then [time.second, time.microsecond]
      else if time.second ≠ 0 then [time.second]
      else []
    "datetime.datetime(".toList ++
      listed ([day.year, day.month, day.day, time.hour, time.minute] ++ fine) ++
      ((time.zone.map shownZone).getD []) ++ [')']

end Timestamp

end TerraformTrace.Yaml
