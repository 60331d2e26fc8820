import SqlTree.Number.Text

/-!
The values that a statement tree is made of: scalars, arrays and maps whose entries keep their
order. A list and a tuple differ where only one of the two is an array of rows or items.
-/

namespace SqlTree

/-- A decimal number as it is written, which is never as nothing. -/
structure DecimalText where
  text : String
  nonempty : text ≠ ""

inductive Value where
  | null
  | bool (b : Bool)
  | int (n : Int)
  | real (x : Number.Binary64)
  | decimal (d : DecimalText)
  | text (s : String)
  | bytes (data : List UInt8)
  | buffer (data : List UInt8)
  | date (iso : String)
  | time (iso : String)
  | datetime (iso : String)
  | uuid (digits : String)
  | list (items : List Value)
  | tuple (items : List Value)
  | set (items : List Value)
  | map (entries : List (Value × Value))
deriving Inhabited

abbrev Entries := List (Value × Value)

namespace Value

/-- The items of a list or tuple. -/
def items? : Value → Option (List Value)
  | list xs => some xs
  | tuple xs => some xs
  | _ => none

def text? : Value → Option String
  | text s => some s
  | _ => none

def entries? : Value → Option Entries
  | map es => some es
  | _ => none

def isText (v : Value) : Bool := v.text?.isSome

def isMap (v : Value) : Bool := v.entries?.isSome

def isArray (v : Value) : Bool := v.items?.isSome

/-- A lone value stands for the array that holds it. -/
def asItems (v : Value) : List Value := v.items?.getD [v]

/-- What a value yields item by item: a text its characters, bytes their numbers, a map its keys.
Scalars yield nothing at all. -/
def elements? : Value → Option (List Value)
  | list xs => some xs
  | tuple xs => some xs
  | set xs => some xs
  | map es => some (es.map (·.1))
  | text s => some (s.toList.map fun c => .text (String.singleton c))
  | bytes bs => some (bs.map fun b => .int b.toNat)
  | buffer bs => some (bs.map fun b => .int b.toNat)
  | _ => none

/-- The name of a value's type, as messages give it. -/
def typeName : Value → String
  | null => "NoneType"
  | bool _ => "bool"
  | int _ => "int"
  | real _ => "float"
  | decimal _ => "Decimal"
  | text _ => "str"
  | bytes _ => "bytes"
  | buffer _ => "bytearray"
  | date _ => "date"
  | time _ => "time"
  | datetime _ => "datetime"
  | uuid _ => "UUID"
  | list _ => "list"
  | tuple _ => "tuple"
  | set _ => "set"
  | map _ => "dict"

/-- A decimal number of value zero: all digits of its coefficient are zeros. -/
def decimalIsZero (digits : String) : Bool :=
  let coefficient := digits.toList.takeWhile fun c => c != 'E' && c != 'e'
  coefficient.any Text.isDigit && coefficient.all fun c => !Text.isDigit c || c = '0'

/-- Empty texts and containers and zeros count as missing where a clause asks whether it was
given anything. -/
def given : Value → Bool
  | null => false
  | bool b => b
  | int n => n != 0
  | real x => !x.isZero
  | decimal d => !decimalIsZero d.text
  | text s => !s.isEmpty
  | bytes bs => !bs.isEmpty
  | buffer bs => !bs.isEmpty
  | list xs => !xs.isEmpty
  | tuple xs => !xs.isEmpty
  | set xs => !xs.isEmpty
  | map es => !es.isEmpty
  | _ => true

mutual

/-- Nesting depth, the measure under which a value's parts are smaller than the value. -/
def height : Value → Nat
  | list xs => heightAll xs + 1
  | tuple xs => heightAll xs + 1
  | set xs => heightAll xs + 1
  | map es => heightEntries es + 1
  | _ => 0

def heightAll : List Value → Nat
  | [] => 0
  | x :: xs => max (height x) (heightAll xs)

def heightEntries : List (Value × Value) → Nat
  | [] => 0
  | (k, v) :: es => max (max (height k) (height v)) (heightEntries es)

end

/-- Whether a value may be a key: lists, sets, maps and buffers may not, nor tuples of them. -/
def isKey : Value → Bool
  | list _ | set _ | map _ | buffer _ => false
  | tuple xs => go xs
  | _ => true
where
  go : List Value → Bool
    | [] => true
    | x :: xs => isKey x && go xs

end Value

end SqlTree
