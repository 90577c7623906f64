/-!
# Points in time

A word may name a day, or a day and a time of day. A letter `T` between the two asks for a zone
behind them, and spaces for none.
-/

set_option autoImplicit false

namespace ShaderIR.Yaml.Timestamp

def digitValue (c : Char) : Nat := c.toNat - '0'.toNat

def number? : List Char → Option (Nat × List Char)
  | a :: cs =>
    if a.isDigit then
      match cs with
      | b :: ds => some (if b.isDigit then (10 * digitValue a + digitValue b, ds)
          else (digitValue a, cs))
      | [] => some (digitValue a, [])
    else none
  | [] => none

def twoDigits? : List Char → Option (Nat × List Char)
  | a :: b :: cs =>
    if a.isDigit && b.isDigit then some (10 * digitValue a + digitValue b, cs) else none
  | _ => none

def expect? (c : Char) : List Char → Option (List Char)
  | d :: cs => if d = c then some cs else none
  | [] => none

def isLeap (year : Nat) : Bool := year % 4 == 0 && (year % 100 != 0 || year % 400 == 0)

def daysIn (year month : Nat) : Nat :=
  if month = 2 then (if isLeap year then 29 else 28)
  else if month = 4 ∨ month = 6 ∨ month = 9 ∨ month = 11 then 30
  else 31

def date? (cs : List Char) : Option (List Char) := do
  let year := cs.takeWhile Char.isDigit
  if year.length ≠ 4 then none
  let (month, cs) ← number? (← expect? '-' (cs.drop 4))
  let (day, cs) ← number? (← expect? '-' cs)
  let y := year.foldl (fun n c => 10 * n + digitValue c) 0
  if 1 ≤ month ∧ month ≤ 12 ∧ 1 ≤ day ∧ day ≤ daysIn y month then some cs else none

def skipFraction : List Char → List Char
  | c :: d :: cs =>
    if (c = '.' ∨ c = ',') ∧ d.isDigit then cs.dropWhile Char.isDigit else c :: d :: cs
  | cs => cs

def clock? (cs : List Char) : Option (List Char) := do
  let (hour, cs) ← number? cs
  let (minute, cs) ← number? (← expect? ':' cs)
  let (second, cs) ← number? (← expect? ':' cs)
  if hour < 24 ∧ minute < 60 ∧ second < 60 then some (skipFraction cs) else none

/-- A distance from universal time, or `Z` for none. A whole day and a whole hour may be written
out. -/
def zone? : List Char → Option (List Char)
  | 'Z' :: cs => some cs
  | c :: cs => do
    if c ≠ '+' ∧ c ≠ '-' then none
    let (hours, cs) ← twoDigits? cs
    let (minutes, cs) ← twoDigits? (← expect? ':' cs)
    if hours ≤ 24 ∧ minutes ≤ 60 then some cs else none
  | [] => none

def isTimestamp (cs : List Char) : Bool :=
  match date? cs with
  | none => false
  | some [] => true
  | some (c :: cs) =>
    if c = 'T' ∨ c = 't' then ((clock? cs).bind zone?) == some []
    else if c = ' ' then clock? (cs.dropWhile (· == ' ')) == some []
    else false

end ShaderIR.Yaml.Timestamp
