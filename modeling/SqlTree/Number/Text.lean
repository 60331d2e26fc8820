import SqlTree.Number.Binary64
import SqlTree.Text.Digit

/-!
Numbers as text: reading decimals, and writing floating-point numbers with the fewest digits that
read back.
-/

namespace SqlTree.Number

/-- What stands after a sign: `12`, `1.5`, `.5`, `1.`, each with an optional exponent. -/
structure Numeral where
  whole : List Char
  fraction : List Char
  exponent : Int

def Numeral.decimal (n : Numeral) : Decimal :=
  ⟨Text.digitsValue (n.whole ++ n.fraction), n.exponent - n.fraction.length⟩

def readExponent? : List Char → Option Int
  | [] => some 0
  | c :: rest =>
    if c = 'e' ∨ c = 'E' then
      let (negative, digits) := match rest with
        | '-' :: ds => (true, ds)
        | '+' :: ds => (false, ds)
        | ds => (false, ds)
      if digits.isEmpty ∨ !digits.all Text.isDigit then none
      else
        let n : Int := Text.digitsValue digits
        some (if negative then -n else n)
    else none

def readNumeral? (cs : List Char) : Option Numeral :=
  let whole := cs.takeWhile Text.isDigit
  let (fraction, rest) := match cs.dropWhile Text.isDigit with
    | '.' :: rest => (rest.takeWhile Text.isDigit, rest.dropWhile Text.isDigit)
    | rest => ([], rest)
  if whole.isEmpty ∧ fraction.isEmpty then none
  else (readExponent? rest).map fun e => ⟨whole, fraction, e⟩

def Binary64.ofText? (s : String) : Option Binary64 :=
  match s with
  | "nan" => some .nan
  | "inf" => some (.infinite false)
  | "-inf" => some (.infinite true)
  | _ =>
    let (negative, cs) := match s.toList with
      | '-' :: cs => (true, cs)
      | cs => (false, cs)
    (readNumeral? cs).map fun n => Binary64.ofDecimal negative n.decimal

/-- An exponent is written with its sign and at least two digits. -/
def exponentText (e : Int) : List Char :=
  let digits := Nat.toDigits 10 e.natAbs
  (if e < 0 then '-' else '+') :: (if digits.length < 2 then '0' :: digits else digits)

/-- The digits of a decimal, laid out positionally while the leading digit stands between the
fourth place after the point and the sixteenth before it. -/
def layout (d : Decimal) : List Char :=
  let digits := Nat.toDigits 10 d.digits
  let point : Int := digits.length + d.exponent
  if -4 < point ∧ point ≤ 16 then
    if point ≤ 0 then '0' :: '.' :: List.replicate (-point).toNat '0' ++ digits
    else
      let before := digits.take point.toNat ++ List.replicate (point.toNat - digits.length) '0'
      let after := digits.drop point.toNat
      before ++ '.' :: (if after.isEmpty then ['0'] else after)
  else
    let tail := match digits.tail with
      | [] => []
      | ds => '.' :: ds
    digits.take 1 ++ tail ++ 'e' :: exponentText (point - 1)

/-- `nan`, `inf`, `1.5`, `1e+16`, `-0.0`. -/
def Binary64.text : Binary64 → String
  | .nan => "nan"
  | .infinite negative => if negative then "-inf" else "inf"
  | .finite negative m q =>
    let digits := if m = 0 then ['0', '.', '0'] else layout (shortest m q)
    String.ofList (if negative then '-' :: digits else digits)

end SqlTree.Number
