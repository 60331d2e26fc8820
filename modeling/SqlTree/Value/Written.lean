import SqlTree.Value.Basic
import SqlTree.Text.Visible
import SqlTree.Text.Split

/-!
Values as messages write them. A text is put in quotes and its hidden characters are written by
number; containers show their parts in the same way.
-/

namespace SqlTree

namespace Text

/-- Lower-case hexadecimal digits, filled up with zeros to `width`. -/
def hexDigits (width n : Nat) : List Char :=
  let ds := Nat.toDigits 16 n
  List.replicate (width - ds.length) '0' ++ ds

def hexText (bs : List UInt8) : String := String.ofList (bs.flatMap fun b => hexDigits 2 b.toNat)

def escapeHidden (c : Char) : List Char :=
  let n := c.toNat
  if n < 0x100 then '\\' :: 'x' :: hexDigits 2 n
  else if n < 0x10000 then '\\' :: 'u' :: hexDigits 4 n
  else '\\' :: 'U' :: hexDigits 8 n

def escapeChar (quote c : Char) : List Char :=
  if c = quote ∨ c = '\\' then ['\\', c]
  else if c = '\n' then ['\\', 'n']
  else if c = '\r' then ['\\', 'r']
  else if c = '\t' then ['\\', 't']
  else if isHidden c then escapeHidden c
  else [c]

/-- Apostrophes quote a text, unless it holds apostrophes and no double quote. -/
def quoteFor (cs : List Char) : Char :=
  if cs.contains '\'' && !cs.contains '"' then '"' else '\''

def written (s : String) : String :=
  let q := quoteFor s.toList
  String.ofList (q :: s.toList.flatMap (escapeChar q) ++ [q])

def escapeByte (quote : Char) (b : UInt8) : List Char :=
  if b < 0x20 ∨ b ≥ 0x7f then
    if b = 10 then ['\\', 'n'] else if b = 13 then ['\\', 'r'] else if b = 9 then ['\\', 't']
    else '\\' :: 'x' :: hexDigits 2 b.toNat
  else escapeChar quote (Char.ofNat b.toNat)

def quoteForBytes (bs : List UInt8) : Char := quoteFor (bs.map fun b => Char.ofNat b.toNat)

def writtenBytes (bs : List UInt8) : String :=
  let q := quoteForBytes bs
  String.ofList ('b' :: q :: bs.flatMap (escapeByte q) ++ [q])

/-- In a buffer apostrophes are escaped whatever the quote is. -/
def writtenBuffer (bs : List UInt8) : String :=
  let q := quoteForBytes bs
  "bytearray(" ++ String.ofList ('b' :: q :: bs.flatMap (escapeByte '\'') ++ [q]) ++ ")"

end Text

namespace Calendar

/-- The fields of a time of day: `03:04:05.120000`, seconds and fraction as far as they are given,
an offset from universal time after a sign. -/
structure TimeFields where
  clock : List Nat
  micros : Nat
  offset : Option (Bool × List Nat)

def readTime (cs : List Char) : TimeFields :=
  let isSign := fun c => c = '+' || c = '-'
  let body := cs.takeWhile fun c => !isSign c
  let offset := match cs.dropWhile fun c => !isSign c with
    | [] => none
    | sign :: rest => some (sign = '-', (Text.splitAt (· = ':') rest).map Text.digitsValue)
  let micros := match body.dropWhile (· != '.') with
    | [] => 0
    | _ :: ds => Text.digitsValue (ds.take 6 ++ List.replicate (6 - ds.length) '0')
  ⟨(Text.splitAt (· = ':') (body.takeWhile (· != '.'))).map Text.digitsValue, micros, offset⟩

def offsetSeconds (fields : List Nat) : Nat :=
  match fields with
  | h :: m :: s :: _ => h * 3600 + m * 60 + s
  | [h, m] => h * 3600 + m * 60
  | [h] => h * 3600
  | [] => 0

def zoneText : Bool × List Nat → String
  | (negative, fields) =>
    let n := offsetSeconds fields
    if n = 0 then "datetime.timezone.utc"
    else if negative then
      "datetime.timezone(datetime.timedelta(days=-1, seconds=" ++ toString (86400 - n) ++ "))"
    else "datetime.timezone(datetime.timedelta(seconds=" ++ toString n ++ "))"

/-- Hours and minutes are always shown, the seconds and the fraction only as far as they count. -/
def timeArguments (t : TimeFields) : List String :=
  let second := t.clock.getD 2 0
  let shown := [t.clock.getD 0 0, t.clock.getD 1 0] ++
    (if t.micros ≠ 0 then [second, t.micros] else if second ≠ 0 then [second] else [])
  shown.map toString ++ (t.offset.map fun o => "tzinfo=" ++ zoneText o).toList

def dateArguments (cs : List Char) : List String :=
  (Text.splitAt (· = '-') cs).map fun ds => toString (Text.digitsValue ds)

def constructorText (name : String) (arguments : List String) : String :=
  "datetime." ++ name ++ "(" ++ ", ".intercalate arguments ++ ")"

def writtenDate (iso : String) : String := constructorText "date" (dateArguments iso.toList)

def writtenTime (iso : String) : String :=
  constructorText "time" (timeArguments (readTime iso.toList))

def writtenDatetime (iso : String) : String :=
  constructorText "datetime"
    (dateArguments (iso.toList.take 10) ++ timeArguments (readTime (iso.toList.drop 11)))

/-- Date and time with a space between them. -/
def spaced (iso : String) : String := iso.replace "T" " "

end Calendar

namespace Value

mutual

def written : Value → String
  | null => "None"
  | bool b => if b then "True" else "False"
  | int n => toString n
  | real x => x.text
  | decimal d => "Decimal('" ++ d.text ++ "')"
  | text s => Text.written s
  | bytes bs => Text.writtenBytes bs
  | buffer bs => Text.writtenBuffer bs
  | date s => Calendar.writtenDate s
  | time s => Calendar.writtenTime s
  | datetime s => Calendar.writtenDatetime s
  | uuid s => "UUID('" ++ s ++ "')"
  | list xs => "[" ++ ", ".intercalate (writtenItems xs) ++ "]"
  | tuple [x] => "(" ++ written x ++ ",)"
  | tuple xs => "(" ++ ", ".intercalate (writtenItems xs) ++ ")"
  | set [] => "set()"
  | set xs => "\x7b" ++ ", ".intercalate (writtenItems xs) ++ "\x7d"
  | map es => "\x7b" ++ ", ".intercalate (writtenEntries es) ++ "\x7d"

def writtenItems : List Value → List String
  | [] => []
  | x :: xs => written x :: writtenItems xs

def writtenEntries : List (Value × Value) → List String
  | [] => []
  | (k, v) :: es => (written k ++ ": " ++ written v) :: writtenEntries es

end

/-- A value on its own: as `written`, but texts, decimals, moments and identifiers are bare. -/
def shown : Value → String
  | text s => s
  | decimal d => d.text
  | date s => s
  | time s => s
  | datetime s => Calendar.spaced s
  | uuid s => s
  | v => written v

end Value

end SqlTree
