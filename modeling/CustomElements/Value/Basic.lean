import CustomElements.Json.Basic

/-!
# Configuration values

What a configuration file, written as JSON or as YAML, holds. A mapping keeps the order of its keys
and never repeats one; a mapping written with repeated keys becomes the list of its pairs instead,
so that no entry is lost.
-/

namespace CustomElements

structure Date where
  year : Nat
  month : Nat
  day : Nat
deriving DecidableEq

/-- A point in time, with its distance from universal time in minutes if it is known. -/
structure Timestamp where
  date : Date
  hour : Nat
  minute : Nat
  second : Nat
  microsecond : Nat
  offset : Option Int
deriving DecidableEq

inductive Value where
  | null
  | bool (b : Bool)
  | int (n : Int)
  | float (x : Binary64)
  | text (t : Text)
  | bytes (b : List UInt8)
  | date (d : Date)
  | timestamp (t : Timestamp)
  | list (items : List Value)
  /-- A key and its value, out of a mapping with repeated keys. -/
  | pair (key value : Value)
  | map (entries : List (Value × Value))
  | set (items : List Value)
deriving Inhabited

/-- The number of days before the first day of a year. -/
def daysBeforeYear (year : Nat) : Nat :=
  let y := year - 1
  y * 365 + y / 4 - y / 100 + y / 400

def isLeapYear (year : Nat) : Bool := year % 4 == 0 && (year % 100 != 0 || year % 400 == 0)

/-- The number of days of a month. -/
def daysInMonth (year month : Nat) : Nat :=
  match month with
  | 2 => if isLeapYear year then 29 else 28
  | 4 | 6 | 9 | 11 => 30
  | _ => 31

/-- Whether a day exists in the calendar of the years 1 to 9999. -/
def Date.isValid (d : Date) : Bool :=
  1 ≤ d.year && d.year ≤ 9999 && 1 ≤ d.month && d.month ≤ 12 && 1 ≤ d.day
    && d.day ≤ daysInMonth d.year d.month

/-- The number of a day, the first day of the first year being day one. -/
def Date.ordinal (d : Date) : Nat :=
  let months := List.range (d.month - 1)
  months.foldl (fun n m => n + daysInMonth d.year (m + 1)) (daysBeforeYear d.year) + d.day

/-- The microseconds from the first day to a point in time, on its own clock. -/
def Timestamp.clock (t : Timestamp) : Nat :=
  (((t.date.ordinal * 24 + t.hour) * 60 + t.minute) * 60 + t.second) * 1000000 + t.microsecond

/-- Whether two points in time are the same; one without an offset never equals one
with an offset. -/
def Timestamp.same (s t : Timestamp) : Bool :=
  match s.offset, t.offset with
  | none, none => s.clock == t.clock
  | some a, some b => (s.clock : Int) - a * 60000000 == (t.clock : Int) - b * 60000000
  | _, _ => false

namespace Value

/-- The exact integer that a number is; truth counts as one and falsehood as zero. -/
def integer? : Value → Option Int
  | bool b => some (if b then 1 else 0)
  | int n => some n
  | float x => x.integer?
  | _ => none

/-- Whether a value may be the key of a mapping. -/
def isKey : Value → Bool
  | list _ | map _ | set _ => false
  | pair k v => k.isKey && v.isKey
  | _ => true

/-- Whether two values are one key. Numbers are compared by value, whatever their type. -/
def sameKey : Value → Value → Bool
  | null, null => true
  | text s, text t => decide (s = t)
  | bytes a, bytes b => decide (a = b)
  | date d, date e => decide (d = e)
  | timestamp s, timestamp t => s.same t
  | pair k v, pair l w => k.sameKey l && v.sameKey w
  | float x, float y => x.sameNumber y || (x == .nan && y == .nan)
  | a, b =>
    match a.integer?, b.integer? with
    | some m, some n => m == n
    | _, _ => false

/-- The value under a text key of a mapping. -/
def get? (key : Text) : Value → Option Value
  | map es => (es.find? fun e => e.1.sameKey (text key)).map Prod.snd
  | _ => none

/-- The value under a text key of a mapping; null if there is none. -/
def get (v : Value) (key : Text) : Value := (v.get? key).getD null

def repeatsKey : List (Value × Value) → Bool
  | [] => false
  | e :: es => es.any (fun f => e.1.sameKey f.1) || repeatsKey es

/-- The mapping with these pairs, or the list of the pairs if a key is repeated. -/
def ofPairs (pairs : List (Value × Value)) : Value :=
  if repeatsKey pairs then list (pairs.map fun p => pair p.1 p.2) else map pairs

mutual

/-- The configuration value that a JSON text stands for. -/
def ofJson : Json → Value
  | .null => null
  | .bool b => bool b
  | .int n => int n
  | .float x => float x
  | .string t => text t
  | .array vs => list (ofJsonItems vs)
  | .object ms => ofPairs (ofJsonMembers ms)

def ofJsonItems : List Json → List Value
  | [] => []
  | v :: vs => ofJson v :: ofJsonItems vs

def ofJsonMembers : List (Text × Json) → List (Value × Value)
  | [] => []
  | (k, v) :: ms => (text k, ofJson v) :: ofJsonMembers ms

end

/-- Gives a key of a mapping a value: in its place if it is there, at the end otherwise. -/
def assign (key value : Value) : List (Value × Value) → List (Value × Value)
  | [] => [(key, value)]
  | e :: es => if e.1.sameKey key then (e.1, value) :: es else e :: assign key value es

mutual

/-- The value that a JSON text stands for if the last of repeated keys counts. -/
def ofJsonLast : Json → Value
  | .null => null
  | .bool b => bool b
  | .int n => int n
  | .float x => float x
  | .string t => text t
  | .array vs => list (ofJsonLastItems vs)
  | .object ms => map (ofJsonLastMembers [] ms)

def ofJsonLastItems : List Json → List Value
  | [] => []
  | v :: vs => ofJsonLast v :: ofJsonLastItems vs

/-- The entries of an object, added to those read before. -/
def ofJsonLastMembers (entries : List (Value × Value)) : List (Text × Json) → List (Value × Value)
  | [] => entries
  | (k, v) :: ms => ofJsonLastMembers (assign (text k) (ofJsonLast v) entries) ms

end

end Value

end CustomElements
