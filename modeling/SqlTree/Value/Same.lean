import SqlTree.Value.Basic

/-!
When two values are the same key. Numbers are compared by what they count, so that `1`, `1.0` and
true are one key.
-/

namespace SqlTree

/-- A number as `numerator * 2 ^ twos * 10 ^ tens`. -/
structure ScaledNumber where
  numerator : Int
  twos : Int
  tens : Int

namespace ScaledNumber

def ofInt (n : Int) : ScaledNumber := ⟨n, 0, 0⟩

/-- The numerator after both numbers are brought to the exponents `twos` and `tens`. -/
def numeratorAt (x : ScaledNumber) (twos tens : Int) : Int :=
  x.numerator * (Number.twoTo (x.twos - twos) * Number.tenTo (x.tens - tens) : Nat)

def same (x y : ScaledNumber) : Bool :=
  let twos := min x.twos y.twos
  let tens := min x.tens y.tens
  x.numeratorAt twos tens == y.numeratorAt twos tens

end ScaledNumber

namespace Value

/-- The number that a value counts as; not-a-number and the infinities count as none. -/
def number? : Value → Option ScaledNumber
  | bool b => some (.ofInt (if b then 1 else 0))
  | int n => some (.ofInt n)
  | real (.finite negative m q) => some ⟨if negative then -(m : Int) else m, q, 0⟩
  | decimal d =>
    let (negative, cs) := match d.text.toList with
      | '-' :: cs => (true, cs)
      | cs => (false, cs)
    (Number.readNumeral? cs).map fun n =>
      ⟨if negative then -(n.decimal.digits : Int) else n.decimal.digits, 0, n.decimal.exponent⟩
  | _ => none

def sameScalar (x y : Value) : Bool :=
  match x.number?, y.number? with
  | some a, some b => a.same b
  | some _, none => false
  | none, some _ => false
  | none, none =>
    match x, y with
    | null, null => true
    | real (.infinite a), real (.infinite b) => a == b
    | text a, text b => a == b
    | bytes a, bytes b => a == b
    | bytes a, buffer b => a == b
    | buffer a, bytes b => a == b
    | buffer a, buffer b => a == b
    | date a, date b => a == b
    | time a, time b => a == b
    | datetime a, datetime b => a == b
    | uuid a, uuid b => a == b
    | _, _ => false

mutual

def same : Value → Value → Bool
  | list xs, y => match y with
    | list ys => sameItems xs ys
    | _ => false
  | tuple xs, y => match y with
    | tuple ys => sameItems xs ys
    | _ => false
  | set xs, y => match y with
    | set ys => xs.length == ys.length && sameMembers xs ys
    | _ => false
  | map es, y => match y with
    | map fs => es.length == fs.length && sameEntries es fs
    | _ => false
  | x, y => sameScalar x y
termination_by structural x => x

def sameItems : List Value → List Value → Bool
  | [], ys => ys.isEmpty
  | x :: xs, ys => match ys with
    | [] => false
    | y :: ys => same x y && sameItems xs ys

def sameMembers : List Value → List Value → Bool
  | [], _ => true
  | x :: xs, ys => ys.any (fun y => same x y) && sameMembers xs ys

def sameEntries : List (Value × Value) → List (Value × Value) → Bool
  | [], _ => true
  | (k, v) :: es, fs => fs.any (fun f => same k f.1 && same v f.2) && sameEntries es fs

end

end Value

namespace Entries

def valueAt? (es : Entries) (key : Value) : Option Value :=
  (es.find? fun e => e.1.same key).map (·.2)

def field? (es : Entries) (key : String) : Option Value := valueAt? es (.text key)

def hasField (es : Entries) (key : String) : Bool := (field? es key).isSome

/-- A present key keeps its place and its spelling; a new one goes to the end. -/
def put : Entries → Value → Value → Entries
  | [], key, v => [(key, v)]
  | (k, w) :: es, key, v => if k.same key then (k, v) :: es else (k, w) :: put es key v

def putField (es : Entries) (key : String) (v : Value) : Entries := put es (.text key) v

/-- The entries of `es` updated by those of `fs`. -/
def updated (es fs : Entries) : Entries := fs.foldl (fun acc e => put acc e.1 e.2) es

end Entries

/-- A map with text keys. -/
def Value.record (fields : List (String × Value)) : Value :=
  .map (fields.map fun f => (.text f.1, f.2))

end SqlTree
