-- Dates and times of day, and how they are written: plainly, or as they are listed
-- among other values.
import Sourcebook.Decimal.Shortest
import Sourcebook.Text.Quoted

namespace Sourcebook.Data

structure Day where
  year : Nat
  month : Nat
  day : Nat
  deriving Repr, DecidableEq

/-- A time of day. -/
structure Clock where
  hour : Nat
  minute : Nat
  second : Nat
  micro : Nat
  deriving Repr, DecidableEq

/-- How far the clocks of a place are ahead of the common time, and how that was
written. -/
structure Zone where
  minutes : Int
  name : String
  deriving Repr, DecidableEq

/-- A time on a date, in a zone where one is written. -/
structure Moment where
  day : Day
  time : Clock
  zone : Option Zone
  deriving Repr, DecidableEq

/-! ## The calendar -/

def isLeap (year : Nat) : Bool := year % 4 == 0 && (year % 100 != 0 || year % 400 == 0)

def monthDays (year month : Nat) : Nat :=
  if month = 2 then (if isLeap year then 29 else 28)
  else if month = 4 || month = 6 || month = 9 || month = 11 then 30
  else 31

/-- The day after, with the months and years around it. -/
def Day.next (d : Day) : Day :=
  if d.day < monthDays d.year d.month then { d with day := d.day + 1 }
  else if d.month < 12 then ⟨d.year, d.month + 1, 1⟩
  else ⟨d.year + 1, 1, 1⟩

/-- How many days lie before a day. -/
def Day.number (d : Day) : Nat :=
  let y := d.year - 1
  y * 365 + y / 4 - y / 100 + y / 400
    + ((List.range d.month).drop 1).foldl (fun n m => n + monthDays d.year m) 0 + d.day

def Clock.seconds (t : Clock) : Nat := (t.hour * 60 + t.minute) * 60 + t.second

/-- The common time of a moment, in millionths of a second. -/
def Moment.instant (m : Moment) : Int :=
  let zone := (m.zone.map (·.minutes)).getD 0
  ((m.day.number * 86400 + m.time.seconds : Nat) - zone * 60) * 1000000 + m.time.micro

/-- Moments with a zone are the same when they fall together. One without a zone is never
the same as one with a zone. -/
def Moment.same (m n : Moment) : Bool :=
  m.zone.isSome == n.zone.isSome && m.instant == n.instant

/-- One second later. -/
def Moment.nextSecond (m : Moment) : Moment :=
  let n := m.time.seconds + 1
  let time : Clock := ⟨n / 3600 % 24, n / 60 % 60, n % 60, m.time.micro⟩
  { m with time, day := if n = 86400 then m.day.next else m.day }

/-! ## Text -/

def twoDigits (n : Nat) : String := String.ofList (Decimal.padLeft 2 (Decimal.digitsText n))

def Day.text (d : Day) : String :=
  String.ofList (Decimal.padLeft 4 (Decimal.digitsText d.year)) ++ "-" ++ twoDigits d.month ++ "-"
    ++ twoDigits d.day

def Clock.text (t : Clock) : String :=
  twoDigits t.hour ++ ":" ++ twoDigits t.minute ++ ":" ++ twoDigits t.second ++
    (if t.micro == 0 then ""
     else "." ++ String.ofList (Decimal.padLeft 6 (Decimal.digitsText t.micro)))

def Zone.text (z : Zone) : String :=
  (if z.minutes < 0 then "-" else "+") ++ twoDigits (z.minutes.natAbs / 60) ++ ":"
    ++ twoDigits (z.minutes.natAbs % 60)

def Moment.text (m : Moment) : String :=
  m.day.text ++ " " ++ m.time.text ++ ((m.zone.map Zone.text).getD "")

def commaJoined (parts : List String) : String := ", ".intercalate parts

/-- A span of minutes as it is listed: whole days, which may be negative, and the seconds
after them. -/
def spanShown (minutes : Int) : String :=
  let days := (minutes * 60).fdiv 86400
  let seconds := (minutes * 60).fmod 86400
  let parts := (if days = 0 then [] else ["days=" ++ toString days])
    ++ (if seconds = 0 then [] else ["seconds=" ++ toString seconds])
  "datetime.timedelta(" ++ (if parts.isEmpty then "0" else commaJoined parts) ++ ")"

def Zone.shown (z : Zone) : String :=
  "datetime.timezone(" ++ spanShown z.minutes ++ ", " ++ Text.quotedText z.name ++ ")"

def Day.parts (d : Day) : List String := [d.year, d.month, d.day].map toString

def Day.shown (d : Day) : String := "datetime.date(" ++ commaJoined d.parts ++ ")"

/-- The parts of a time that are listed: seconds and their fractions only as needed. -/
def Clock.parts (t : Clock) : List String :=
  ([t.hour, t.minute] ++
    (if t.micro != 0 then [t.second, t.micro] else if t.second != 0 then [t.second] else [])).map
    toString

def Moment.shown (m : Moment) : String :=
  "datetime.datetime(" ++ commaJoined (m.day.parts ++ m.time.parts
    ++ (m.zone.map fun z => "tzinfo=" ++ z.shown).toList) ++ ")"

end Sourcebook.Data
