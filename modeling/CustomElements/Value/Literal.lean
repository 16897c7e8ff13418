import CustomElements.Value.Basic
import CustomElements.Text.Numeral
import CustomElements.Text.Quoted

/-!
# Values in messages

How a value is shown inside a message: texts in quotes, lists in brackets, mappings in
braces. As a text of its own, a value is shown the same way, but a text without quotes and a
date in its standard form. An integer with too many digits cannot be shown.
-/

namespace CustomElements

/-- A number in decimal with at least `width` digits. -/
def paddedNat (width n : Nat) : Text :=
  let digits := Nat.toDigits 10 n
  .ofChars (List.replicate (width - digits.length) '0' ++ digits)

/-- A date as year, month and day. -/
def Date.text (d : Date) : Text :=
  paddedNat 4 d.year ++ "-" ++ paddedNat 2 d.month ++ "-" ++ paddedNat 2 d.day

/-- A distance from universal time. -/
def offsetText (minutes : Int) : Text :=
  let sign : Text := if minutes < 0 then "-" else "+"
  sign ++ paddedNat 2 (minutes.natAbs / 60) ++ ":" ++ paddedNat 2 (minutes.natAbs % 60)

/-- A point in time, with `separator` between the date and the clock. -/
def Timestamp.text (separator : Text) (t : Timestamp) : Text :=
  let fraction : Text := if t.microsecond == 0 then [] else "." ++ paddedNat 6 t.microsecond
  let offset : Text := match t.offset with
    | some m => offsetText m
    | none => []
  t.date.text ++ separator ++ paddedNat 2 t.hour ++ ":" ++ paddedNat 2 t.minute ++ ":"
    ++ paddedNat 2 t.second ++ fraction ++ offset

/-- The arguments of a call in a message. -/
def callText (name : Text) (arguments : List Text) : Text :=
  name ++ "(" ++ Text.join ", " arguments ++ ")"

/-- A distance from universal time in a message. -/
def offsetLiteral (minutes : Int) : Text :=
  if minutes == 0 then "datetime.timezone.utc"
  else
    let seconds := minutes * 60
    let days := seconds.fdiv 86400
    let rest := seconds.fmod 86400
    let parts : List Text :=
      (if days == 0 then [] else [("days=" : Text) ++ Text.ofInt days])
        ++ (if rest == 0 then [] else [("seconds=" : Text) ++ Text.ofInt rest])
    callText "datetime.timezone" [callText "datetime.timedelta" parts]

/-- A point in time in a message; a clock that stands at zero seconds leaves them out. -/
def Timestamp.literal (t : Timestamp) : Text :=
  let fields := [t.date.year, t.date.month, t.date.day, t.hour, t.minute]
    ++ (if t.second == 0 && t.microsecond == 0 then [] else [t.second])
    ++ (if t.microsecond == 0 then [] else [t.microsecond])
  let zone : List Text := match t.offset with
    | some m => [("tzinfo=" : Text) ++ offsetLiteral m]
    | none => []
  callText "datetime.datetime" (fields.map Text.ofNat ++ zone)

/-- Bytes in quotes, those that are no printable ASCII characters by their numbers. -/
def bytesLiteral (bytes : List UInt8) : Text :=
  let chars := bytes.map fun b => Char.ofNat b.toNat
  let q : Char := if chars.contains '\'' && !chars.contains '"' then '"' else '\''
  let shown (c : Char) : Text :=
    if c == '\\' then "\\\\"
    else if c == '\n' then "\\n"
    else if c == '\r' then "\\r"
    else if c == '\t' then "\\t"
    else if c == q then Text.ofChars ['\\', q]
    else if 0x20 ≤ c.toNat && c.toNat < 0x7F then Text.ofChars [c]
    else "\\x" ++ Text.hexadecimal 2 c.toNat
  "b" ++ Text.ofChars [q] ++ chars.flatMap shown ++ Text.ofChars [q]

namespace Value

mutual

/-- The value inside a message. -/
def literal : Value → Text
  | null => "None"
  | bool true => "True"
  | bool false => "False"
  | int n => .ofInt n
  | float x => x.toText
  | text t => t.quoted
  | bytes b => bytesLiteral b
  | date d => callText "datetime.date" ([d.year, d.month, d.day].map Text.ofNat)
  | timestamp t => t.literal
  | list vs => "[" ++ literalItems vs ++ "]"
  | pair k v => "(" ++ literal k ++ ", " ++ literal v ++ ")"
  | map es => "\x7b" ++ literalEntries es ++ "\x7d"
  | set [] => "set()"
  | set (v :: vs) => "\x7b" ++ literalItems (v :: vs) ++ "\x7d"

def literalItems : List Value → Text
  | [] => []
  | [v] => literal v
  | v :: vs => literal v ++ ", " ++ literalItems vs

def literalEntries : List (Value × Value) → Text
  | [] => []
  | [(k, v)] => literal k ++ ": " ++ literal v
  | (k, v) :: es => literal k ++ ": " ++ literal v ++ ", " ++ literalEntries es

end

mutual

/-- Whether the value can be shown: no integer in it has too many digits. -/
def isShowable : Value → Bool
  | int n => decide (n.natAbs < tenTo Numeral.digitLimit)
  | list vs => itemsShowable vs
  | pair k v => isShowable k && isShowable v
  | map es => entriesShowable es
  | set vs => itemsShowable vs
  | _ => true

def itemsShowable : List Value → Bool
  | [] => true
  | v :: vs => isShowable v && itemsShowable vs

def entriesShowable : List (Value × Value) → Bool
  | [] => true
  | (k, v) :: es => isShowable k && isShowable v && entriesShowable es

end

/-- The value as a text of its own. -/
def shown : Value → Text
  | text t => t
  | date d => d.text
  | timestamp t => t.text " "
  | v => v.literal

end Value

end CustomElements
