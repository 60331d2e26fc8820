import SqlTree.Value.Written
import SqlTree.Value.Same

/-!
JSON text without blanks, in ASCII. Values that JSON lacks are written as texts.
-/

namespace SqlTree.Json

/-- The 16-bit units of a character: one, or a pair of surrogates. -/
def units (c : Char) : List Nat :=
  let n := c.toNat
  if n < 0x10000 then [n]
  else [0xD800 + (n - 0x10000) / 0x400, 0xDC00 + (n - 0x10000) % 0x400]

def escapeChar (c : Char) : List Char :=
  if c = '"' then ['\\', '"']
  else if c = '\\' then ['\\', '\\']
  else if c = '\n' then ['\\', 'n']
  else if c = '\r' then ['\\', 'r']
  else if c = '\t' then ['\\', 't']
  else if c = '\x08' then ['\\', 'b']
  else if c = '\x0c' then ['\\', 'f']
  else if ' ' ≤ c ∧ c ≤ '~' then [c]
  else (units c).flatMap fun u => '\\' :: 'u' :: Text.hexDigits 4 u

def quoted (s : String) : String :=
  String.ofList ('"' :: s.toList.flatMap escapeChar ++ ['"'])

def realText : Number.Binary64 → String
  | .nan => "NaN"
  | .infinite negative => if negative then "-Infinity" else "Infinity"
  | x => x.text

/-- Keys are texts; numbers, truth values and null are keys by their JSON text. -/
def key? : Value → Option String
  | .text s => some s
  | .null => some "null"
  | .bool b => some (if b then "true" else "false")
  | .int n => some (toString n)
  | .real x => some (realText x)
  | _ => none

mutual

/-- Fails on a map with a key that is neither text nor scalar. -/
def encode? : Value → Option String
  | .null => some "null"
  | .bool b => some (if b then "true" else "false")
  | .int n => some (toString n)
  | .real x => some (realText x)
  | .text s => some (quoted s)
  | .list xs => (encodeItems? xs).map fun ts => "[" ++ ",".intercalate ts ++ "]"
  | .tuple xs => (encodeItems? xs).map fun ts => "[" ++ ",".intercalate ts ++ "]"
  | .map es => (encodeEntries? es).map fun ts => "\x7b" ++ ",".intercalate ts ++ "\x7d"
  | v => some (quoted v.shown)

def encodeItems? : List Value → Option (List String)
  | [] => some []
  | x :: xs =>
    match encode? x, encodeItems? xs with
    | some t, some ts => some (t :: ts)
    | _, _ => none

def encodeEntries? : List (Value × Value) → Option (List String)
  | [] => some []
  | (k, v) :: es =>
    match key? k, encode? v, encodeEntries? es with
    | some t, some u, some ts => some ((quoted t ++ ":" ++ u) :: ts)
    | _, _, _ => none

end

end SqlTree.Json
