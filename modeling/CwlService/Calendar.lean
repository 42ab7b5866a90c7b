/-! # Calendar dates and moments

Dates of the proleptic Gregorian calendar from year 1 to 9999, and moments on them to the
microsecond. -/
namespace CwlService

structure Date where
  year : Nat
  month : Nat
  day : Nat
deriving DecidableEq, Repr

structure Moment where
  date : Date
  hour : Nat
  minute : Nat
  second : Nat
  micro : Nat
deriving DecidableEq, Repr

namespace Date

def isLeap (y : Nat) : Bool := (y % 4 == 0 && y % 100 != 0) || y % 400 == 0

def daysInMonth (y m : Nat) : Nat :=
  if m == 2 then (if isLeap y then 29 else 28)
  else if m == 4 || m == 6 || m == 9 || m == 11 then 30
  else 31

def make? (year month day : Nat) : Option Date :=
  if 1 ≤ year && year ≤ 9999 && 1 ≤ month && month ≤ 12 && 1 ≤ day && day ≤ daysInMonth year month
  then some ⟨year, month, day⟩ else none

def next (d : Date) : Date :=
  if d.day < daysInMonth d.year d.month then { d with day := d.day + 1 }
  else if d.month < 12 then ⟨d.year, d.month + 1, 1⟩
  else ⟨d.year + 1, 1, 1⟩

def previous (d : Date) : Date :=
  if 1 < d.day then { d with day := d.day - 1 }
  else if 1 < d.month then ⟨d.year, d.month - 1, daysInMonth d.year (d.month - 1)⟩
  else ⟨d.year - 1, 12, 31⟩

def shift (d : Date) : Nat → Int → Date
  | 0, _ => d
  | fuel + 1, n =>
    if n > 0 then shift d.next fuel (n - 1)
    else if n < 0 then shift d.previous fuel (n + 1)
    else d

def twoDigits (n : Nat) : String := if n < 10 then "0" ++ toString n else toString n

def fourDigits (n : Nat) : String :=
  String.ofList (List.replicate (4 - (toString n).length) '0') ++ toString n

def iso (d : Date) : String :=
  fourDigits d.year ++ "-" ++ twoDigits d.month ++ "-" ++ twoDigits d.day

end Date

namespace Moment

def make? (date : Date) (hour minute second micro : Nat) : Option Moment :=
  if hour < 24 && minute < 60 && second < 60 && micro < 1000000
  then some ⟨date, hour, minute, second, micro⟩ else none

/-- Moves a moment on by seconds; none if it leaves the calendar. -/
def addSeconds? (m : Moment) (s : Int) : Option Moment :=
  let total : Int := (m.hour * 3600 + m.minute * 60 + m.second : Nat) + s
  let days := total.fdiv 86400
  let rest := (total.fmod 86400).toNat
  let date := m.date.shift days.natAbs days
  if 1 ≤ date.year && date.year ≤ 9999 then
    some ⟨date, rest / 3600, rest % 3600 / 60, rest % 60, m.micro⟩
  else none

def sixDigits (n : Nat) : String :=
  String.ofList (List.replicate (6 - (toString n).length) '0') ++ toString n

def iso (gap : String) (m : Moment) : String :=
  m.date.iso ++ gap ++ Date.twoDigits m.hour ++ ":" ++ Date.twoDigits m.minute ++ ":" ++
    Date.twoDigits m.second ++ (if m.micro = 0 then "" else "." ++ sixDigits m.micro)

end Moment
end CwlService
