/-!
Calendar days and clock times of the proleptic Gregorian calendar, years 1 to 9999, and their texts.
-/

namespace TaskBoard

structure Date where
  year : Nat
  month : Nat
  day : Nat
  deriving DecidableEq, Repr

/-- A day and a time of day; `offset` counts minutes east of the reference meridian. -/
structure Moment where
  date : Date
  hour : Nat
  minute : Nat
  second : Nat
  microsecond : Nat
  offset : Option Int
  deriving DecidableEq, Repr

namespace Date

def isLeapYear (year : Nat) : Bool :=
  year % 4 == 0 && (year % 100 != 0 || year % 400 == 0)

def daysInMonth (year month : Nat) : Nat :=
  match month with
  | 2 => if isLeapYear year then 29 else 28
  | 4 | 6 | 9 | 11 => 30
  | _ => 31

def valid (d : Date) : Bool :=
  1 ≤ d.year && d.year ≤ 9999 && 1 ≤ d.month && d.month ≤ 12 &&
    1 ≤ d.day && d.day ≤ daysInMonth d.year d.month

/-- The number of the day, counted from the first day of the calendar. -/
def number (d : Date) : Nat :=
  let before := d.year - 1
  365 * before + before / 4 - before / 100 + before / 400 +
    (List.range (d.month - 1)).foldl (fun days m => days + daysInMonth d.year (m + 1)) 0 + d.day

end Date

def decimalText (width n : Nat) : String :=
  let digits := Nat.toDigits 10 n
  String.ofList (List.replicate (width - digits.length) '0' ++ digits)

def Date.shown (d : Date) : String :=
  decimalText 4 d.year ++ "-" ++ decimalText 2 d.month ++ "-" ++ decimalText 2 d.day

namespace Moment

/-- An offset stays within one day of the reference meridian. -/
def valid (m : Moment) : Bool :=
  m.date.valid && m.hour < 24 && m.minute < 60 && m.second < 60 && m.microsecond < 1000000 &&
    (match m.offset with
      | none => true
      | some minutes => minutes.natAbs < 24 * 60)

/-- The millionths of a second since the start of the calendar at the reference meridian, for a moment
with an offset. -/
def instant? (m : Moment) : Option Int :=
  m.offset.map fun minutes =>
    ((((m.date.number * 24 + m.hour) * 60 + m.minute : Nat) - minutes) * 60 + m.second) * 1000000 +
      m.microsecond

def offsetShown (minutes : Int) : String :=
  (if minutes < 0 then "-" else "+") ++ decimalText 2 (minutes.natAbs / 60) ++ ":" ++
    decimalText 2 (minutes.natAbs % 60)

/-- The text of a moment, with `between` standing between the day and the time. -/
def shownWith (between : String) (m : Moment) : String :=
  m.date.shown ++ between ++ decimalText 2 m.hour ++ ":" ++ decimalText 2 m.minute ++ ":" ++
    decimalText 2 m.second ++
    (if m.microsecond = 0 then "" else "." ++ decimalText 6 m.microsecond) ++
    (match m.offset with
      | none => ""
      | some minutes => offsetShown minutes)

end Moment

end TaskBoard
