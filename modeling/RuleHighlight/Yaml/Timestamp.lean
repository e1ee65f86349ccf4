import RuleHighlight.Text.DecimalDigit

namespace RuleHighlight.Yaml

structure Date where
  year : Nat
  month : Nat
  day : Nat
  deriving DecidableEq, Repr

structure Timestamp where
  date : Date
  hour : Nat
  minute : Nat
  second : Nat
  microsecond : Nat
  offset : Option Int
  deriving DecidableEq, Repr

inductive CalendarFault
  | year (year : Nat)
  | month
  | day
  | hour
  | minute
  | second
  | offset (seconds : Int)
  deriving DecidableEq, Repr

namespace Date

def isLeapYear (year : Nat) : Bool := year % 4 == 0 && (year % 100 != 0 || year % 400 == 0)

def daysInMonth (year month : Nat) : Nat :=
  if month = 2 then (if isLeapYear year then 29 else 28)
  else if month = 4 ∨ month = 6 ∨ month = 9 ∨ month = 11 then 30
  else 31

def check (d : Date) : Except CalendarFault Date :=
  if d.year = 0 then .error (.year d.year)
  else if d.month = 0 ∨ 12 < d.month then .error .month
  else if d.day = 0 ∨ daysInMonth d.year d.month < d.day then .error .day
  else .ok d

def dayNumber (d : Date) : Nat :=
  let y := d.year - 1
  let months := (List.range (d.month - 1)).foldl (fun n m => n + daysInMonth d.year (m + 1)) 0
  y * 365 + y / 4 - y / 100 + y / 400 + months + d.day

def fields (d : Date) : List Nat := [d.year, d.month, d.day]

def print (d : Date) : String :=
  "datetime.date(" ++ ", ".intercalate (d.fields.map toString) ++ ")"

end Date

def printDuration (seconds : Int) : String :=
  let days := seconds / 86400
  let rest := seconds % 86400
  let parts :=
    (if days = 0 then [] else ["days=" ++ toString days]) ++
    (if rest = 0 then [] else ["seconds=" ++ toString rest])
  "datetime.timedelta(" ++ (if parts.isEmpty then "0" else ", ".intercalate parts) ++ ")"

namespace CalendarFault

def message : CalendarFault → String
  | year y => "year " ++ toString y ++ " is out of range"
  | month => "month must be in 1..12"
  | day => "day is out of range for month"
  | hour => "hour must be in 0..23"
  | minute => "minute must be in 0..59"
  | second => "second must be in 0..59"
  | offset seconds =>
    "offset must be a timedelta strictly between -timedelta(hours=24) and timedelta(hours=24), " ++
      "not " ++ printDuration seconds ++ "."

end CalendarFault

namespace Timestamp

def checkOffset : Option Int → Except CalendarFault Unit
  | none => .ok ()
  | some s => if -86400 < s ∧ s < 86400 then .ok () else .error (.offset s)

def check (t : Timestamp) : Except CalendarFault Timestamp := do
  checkOffset t.offset
  let _ ← t.date.check
  if 23 < t.hour then .error .hour
  else if 59 < t.minute then .error .minute
  else if 59 < t.second then .error .second
  else .ok t

def print (t : Timestamp) : String :=
  let seconds :=
    if t.microsecond ≠ 0 then [t.second, t.microsecond]
    else if t.second ≠ 0 then [t.second]
    else []
  let zone := match t.offset with
    | none => []
    | some 0 => ["tzinfo=datetime.timezone.utc"]
    | some s => ["tzinfo=datetime.timezone(" ++ printDuration s ++ ")"]
  let fields := (t.date.fields ++ [t.hour, t.minute] ++ seconds).map toString ++ zone
  "datetime.datetime(" ++ ", ".intercalate fields ++ ")"

def instant (t : Timestamp) : Int :=
  let seconds : Int := t.date.dayNumber * 86400 + t.hour * 3600 + t.minute * 60 + t.second
  (seconds - t.offset.getD 0) * 1000000 + t.microsecond

def sameMoment (a b : Timestamp) : Bool :=
  a.offset.isSome == b.offset.isSome && a.instant == b.instant

end Timestamp

namespace Written

def number (ds : List Char) : Nat := ds.foldl (fun n c => n * 10 + (c.toNat - 48)) 0

def digits? (least most : Nat) (s : List Char) : Option (List Char × List Char) :=
  let ds := (s.take most).takeWhile Char.isDigit
  if ds.length < least then none else some (ds, s.drop ds.length)

def char? (c : Char) : List Char → Option (List Char)
  | d :: rest => if c = d then some rest else none
  | [] => none

def isBlank (c : Char) : Bool := c == ' ' || c == '\t'

def offset? (s : List Char) : Option (Option Int) := do
  match s with
  | [] => return none
  | _ =>
    match s.dropWhile isBlank with
    | ['Z'] => return some 0
    | c :: rest =>
      if c = '+' ∨ c = '-' then
        let (hours, rest) ← digits? 1 2 rest
        let (minutes, rest) ←
          match rest with
          | ':' :: rest => digits? 2 2 rest
          | _ => some ([], rest)
        if rest.isEmpty then
          let seconds : Int := number hours * 3600 + number minutes * 60
          return some (if c = '-' then -seconds else seconds)
        else none
      else none
    | [] => none

def date? (s : List Char) : Option (Date × Bool × List Char) := do
  let (year, s) ← digits? 4 4 s
  let s ← char? '-' s
  let (month, s) ← digits? 1 2 s
  let s ← char? '-' s
  let (day, s) ← digits? 1 2 s
  return (⟨number year, number month, number day⟩, month.length == 2 && day.length == 2, s)

def timeStart? : List Char → Option (List Char)
  | c :: rest =>
    if c = 'T' ∨ c = 't' then some rest
    else if isBlank c then some (rest.dropWhile isBlank)
    else none
  | [] => none

def timestamp? (date : Date) (s : List Char) : Option Timestamp := do
  let s ← timeStart? s
  let (hour, s) ← digits? 1 2 s
  let s ← char? ':' s
  let (minute, s) ← digits? 2 2 s
  let s ← char? ':' s
  let (second, s) ← digits? 2 2 s
  let (fraction, s) := match s with
    | '.' :: rest => (rest.takeWhile Char.isDigit, rest.dropWhile Char.isDigit)
    | _ => ([], s)
  let offset ← offset? s
  let micro := (fraction ++ List.replicate 6 '0').take 6
  return ⟨date, number hour, number minute, number second, number micro, offset⟩

inductive Moment
  | date (d : Date) (padded : Bool)
  | timestamp (t : Timestamp)

def moment? (s : List Char) : Option Moment := do
  let (date, padded, rest) ← date? s
  if rest.isEmpty then return .date date padded
  else return .timestamp (← timestamp? date rest)

end Written

end RuleHighlight.Yaml
