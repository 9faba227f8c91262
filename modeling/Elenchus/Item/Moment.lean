/-! Days and times of day. -/

namespace Elenchus

/-- A time of day, to the microsecond, with the minutes that it is ahead of universal time if they
are known. -/
structure Clock where
  hour : Nat
  minute : Nat
  second : Nat
  micro : Nat
  ahead : Option Int
  deriving DecidableEq, Inhabited

/-- Whether there is such a time. It is less than a day ahead of universal time or behind it. -/
def Clock.isValid (c : Clock) : Bool :=
  c.hour < 24 && c.minute < 60 && c.second < 60 && (c.ahead.map Int.natAbs).getD 0 < 1440

/-- A day, or a time on it. -/
structure Moment where
  year : Nat
  month : Nat
  day : Nat
  clock : Option Clock
  deriving DecidableEq, Inhabited

namespace Moment

def isLeap (year : Nat) : Bool := year % 4 == 0 && (year % 100 != 0 || year % 400 == 0)

def daysIn (year month : Nat) : Nat :=
  if month = 2 then if isLeap year then 29 else 28
  else if [4, 6, 9, 11].contains month then 30
  else 31

/-- Whether there is such a day and such a time on it. -/
def isValid (m : Moment) : Bool :=
  1 ≤ m.year && 1 ≤ m.month && m.month ≤ 12 && 1 ≤ m.day && m.day ≤ daysIn m.year m.month &&
    m.clock.all Clock.isValid

/-- A number with at least so many digits. -/
def padded (width n : Nat) : String :=
  String.ofList (List.replicate (width - n.repr.length) '0') ++ n.repr

def text (m : Moment) : String :=
  let day := padded 4 m.year ++ "-" ++ padded 2 m.month ++ "-" ++ padded 2 m.day
  match m.clock with
  | none => day
  | some c => day ++ " " ++ padded 2 c.hour ++ ":" ++ padded 2 c.minute ++ ":" ++ padded 2 c.second

end Moment

end Elenchus
