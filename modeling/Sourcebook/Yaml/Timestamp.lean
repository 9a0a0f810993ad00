-- Dates and times as texts write them: four, two and two digits for a date, and a time
-- behind it with a fraction and a zone at will.
import Sourcebook.Yaml.Characters
import Sourcebook.Yaml.Error

namespace Sourcebook.Yaml

open Data (Day Clock Zone Moment)

/-! ## Form -/

/-- Digits of a number from the front, between two counts. -/
def takeDigits (least most : Nat) (s : List Char) : Option (Nat × List Char) :=
  let ds := (s.take most).takeWhile isDigit
  if ds.length < least then none
  else some (Text.ofDigits 10 (ds.map hexDigit), s.drop ds.length)

def takeChar (c : Char) : List Char → Option (List Char)
  | d :: s => if c = d then some s else none
  | [] => none

/-- A time of day as it is written. -/
structure WrittenTime where
  hour : Nat
  minute : Nat
  second : Nat
  fraction : List Char
  zone : Option Zone
  deriving Repr, DecidableEq

/-- A date as it is written, and a time where one is written. -/
structure Stamp where
  day : Day
  time : Option WrittenTime
  deriving Repr, DecidableEq

/-- A zone behind a time: the letter for none, or a sign with hours and minutes. -/
def zone? (s : List Char) : Option (Option Zone) :=
  match s with
  | [] => some none
  | ['Z'] => some (some ⟨0, "Z"⟩)
  | c :: rest =>
    if c = '+' || c = '-' then do
      let (h, rest) ← takeDigits 1 2 rest
      let minutes ← match rest with
        | [] => some 0
        | ':' :: rest => do
          let (m, rest) ← takeDigits 2 2 rest
          if rest.isEmpty then some m else none
        | _ => none
      let total : Int := h * 60 + minutes
      return some ⟨if c = '-' then -total else total, String.ofList s⟩
    else none

def isSpaceOrTab (c : Char) : Bool := c = ' ' || c = '\t'

def time? (s : List Char) : Option WrittenTime := do
  let (hour, s) ← takeDigits 1 2 s
  let (minute, s) ← takeDigits 2 2 (← takeChar ':' s)
  let (second, s) ← takeDigits 2 2 (← takeChar ':' s)
  let (fraction, s) : List Char × List Char := match s with
    | '.' :: r => (r.takeWhile isDigit, r.dropWhile isDigit)
    | r => ([], r)
  let zone ← zone? (s.dropWhile isSpaceOrTab)
  return ⟨hour, minute, second, fraction, zone⟩

/-- A date with a time behind it at will. -/
def stamp? (s : List Char) : Option Stamp := do
  let (year, r) ← takeDigits 4 4 s
  let (month, r) ← takeDigits 1 2 (← takeChar '-' r)
  let (day, r) ← takeDigits 1 2 (← takeChar '-' r)
  let date : Day := ⟨year, month, day⟩
  match r with
  | [] => some ⟨date, none⟩
  | c :: after =>
    let time :=
      if c = 'T' || c = 't' then time? after
      else if isSpaceOrTab c then time? (after.dropWhile isSpaceOrTab)
      else none
    time.map fun t => ⟨date, some t⟩

/-- A text is taken for a time of its own accord when its date is written in full, or
when a time follows it. -/
def isStamp (s : List Char) : Bool :=
  match stamp? s with
  | some st => st.time.isSome || s.length = 10
  | none => false

/-! ## Value -/

/-- The fraction of a second in millionths; the digit after them rounds. -/
def micros (ds : List Char) : Nat :=
  let n := Text.ofDigits 10 (((ds ++ List.replicate 6 '0').take 6).map hexDigit)
  match ds.drop 6 with
  | d :: _ => if 4 < hexDigit d then n + 1 else n
  | [] => n

def dateFault? (d : Day) : Option DateFault :=
  if d.year = 0 then some .year
  else if d.month = 0 || 12 < d.month then some .month
  else if d.day = 0 || Data.monthDays d.year d.month < d.day then some .day
  else none

def clockFault? (t : WrittenTime) : Option DateFault :=
  if 23 < t.hour then some .hour
  else if 59 < t.minute then some .minute
  else if 59 < t.second then some .second
  else none

/-- A zone is less than a day away. -/
def isFar (z : Zone) : Bool := 24 * 60 ≤ z.minutes.natAbs

/-- The moment of a date and a time. A fraction that was rounded up to a whole second is
carried, unless the last day ends with it. -/
def momentOf (d : Day) (t : WrittenTime) : Reading Moment :=
  match t.zone.filter isFar, (dateFault? d).or (clockFault? t) with
  | some z, _ => .error (.farZone z.minutes)
  | none, some fault => .error (.date fault)
  | none, none =>
    let n := micros t.fraction
    let m : Moment := ⟨d, ⟨t.hour, t.minute, t.second, n % 1000000⟩, t.zone⟩
    if n < 1000000 then .ok m
    else if m.nextSecond.day.year < 10000 then .ok m.nextSecond
    else .error .lastDay

end Sourcebook.Yaml
