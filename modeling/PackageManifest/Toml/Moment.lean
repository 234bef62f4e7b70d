import PackageManifest.Text.Basic

/-!
# Dates and times of TOML

A moment is a date, a time of day, or both with an offset behind them. Seconds may be left out.
-/

namespace PackageManifest.Toml

def valueOf (base : Nat) (digits : List Char) : Nat :=
  digits.foldl (fun n c => base * n + (Text.hexDigit? c).getD 0) 0

def isLeapYear (year : Nat) : Bool := year % 4 == 0 && (year % 100 != 0 || year % 400 == 0)

def daysIn (year month : Nat) : Nat :=
  if month == 2 then (if isLeapYear year then 29 else 28)
  else if month == 4 || month == 6 || month == 9 || month == 11 then 30
  else 31

def twoDigits? (low high : Nat) : List Char → Option (Nat × List Char)
  | a :: b :: rest =>
    let n := valueOf 10 [a, b]
    if a.isDigit && b.isDigit && low ≤ n && n ≤ high then some (n, rest) else none
  | _ => none

def hourAndMinute? (cs : List Char) : Option (List Char) :=
  match twoDigits? 0 23 cs with
  | some (_, ':' :: rest) => (twoDigits? 0 59 rest).map Prod.snd
  | _ => none

/-- What follows a time of day. A minute may have a 61st second. -/
def time? (cs : List Char) : Option (List Char) :=
  match hourAndMinute? cs with
  | some (':' :: rest) =>
    match twoDigits? 0 60 rest with
    | none => none
    | some (_, '.' :: rest) =>
      if rest.head?.any Char.isDigit then some (rest.dropWhile Char.isDigit) else none
    | some (_, rest) => some rest
  | after => after

def date? (cs : List Char) : Option (List Char) :=
  let year := cs.take 4
  if year.length == 4 && year.all Char.isDigit then
    match cs.drop 4 with
    | '-' :: rest =>
      match twoDigits? 1 12 rest with
      | some (month, '-' :: rest) =>
        (twoDigits? 1 (daysIn (valueOf 10 year) month) rest).map Prod.snd
      | _ => none
    | _ => none
  else none

def isDate (cs : List Char) : Bool := date? cs == some []

def isOffset : List Char → Bool
  | [] => true
  | [c] => c == 'Z' || c == 'z'
  | c :: rest => (c == '+' || c == '-') && hourAndMinute? rest == some []

def isMoment (cs : List Char) : Bool :=
  match date? cs with
  | some [] => true
  | some (c :: rest) => (c == 'T' || c == 't' || c == ' ') && (time? rest).any isOffset
  | none => time? cs == some []

end PackageManifest.Toml
