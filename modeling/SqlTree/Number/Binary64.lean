/-!
Floating-point numbers of 64 bits in exact arithmetic: rounding a decimal to the nearest value,
and the fewest decimal digits that round back to it.
-/

namespace SqlTree.Number

/-- `digits * 10 ^ exponent`. -/
structure Decimal where
  digits : Nat
  exponent : Int
deriving DecidableEq, Repr

/-- A 64-bit floating-point number. A finite one is `mantissa * 2 ^ exponent`, with the sign kept
apart so that both zeros exist. -/
inductive Binary64 where
  | nan
  | infinite (negative : Bool)
  | finite (negative : Bool) (mantissa : Nat) (exponent : Int)
deriving DecidableEq, Repr, Inhabited

/-- The quotient rounded to nearest; of two equally near the even one. -/
def roundDiv (num den : Nat) : Nat :=
  let q := num / den
  let r := num % den
  if 2 * r < den then q
  else if den < 2 * r then q + 1
  else if q % 2 = 0 then q else q + 1

/-- Powers. A negative exponent counts as zero. -/
def twoTo (e : Int) : Nat := Nat.pow 2 e.toNat

def fiveTo (e : Int) : Nat := Nat.pow 5 e.toNat

def tenTo (e : Int) : Nat := Nat.pow 10 e.toNat

/-- How many decimal digits a number has. -/
def digitCount (n : Nat) : Nat := (Nat.toDigits 10 n).length

namespace Binary64

def smallestExponent : Int := -1074

def largestExponent : Int := 971

def fraction (d : Decimal) : Nat × Nat :=
  (d.digits * tenTo d.exponent, tenTo (-d.exponent))

/-- The quotient `num / (den * 2 ^ q)` as a fraction. -/
def scaled (num den : Nat) (q : Int) : Nat × Nat :=
  (num * twoTo (-q), den * twoTo q)

/-- The exponent at which `num / den` has 53 binary digits, or the smallest one. -/
def fittingExponent (num den : Nat) : Int :=
  let q := max ((Nat.log2 num : Int) - Nat.log2 den - 53) smallestExponent
  let (n, d) := scaled num den q
  if twoTo 53 ≤ n / d then q + 1 else q

/-- The nearest floating-point number. Magnitudes beyond reach are told by their decimal exponent
alone, so that no huge power is computed. -/
def ofDecimal (negative : Bool) (d : Decimal) : Binary64 :=
  let magnitude := (digitCount d.digits : Int) + d.exponent
  if d.digits = 0 ∨ magnitude < -400 then .finite negative 0 smallestExponent
  else if 400 < magnitude then .infinite negative
  else
    let (num, den) := fraction d
    let q := fittingExponent num den
    let (n, k) := scaled num den q
    let m := roundDiv n k
    let (m, q) := if m = twoTo 53 then (twoTo 52, q + 1) else (m, q)
    if largestExponent < q then .infinite negative else .finite negative m q

/-- The least `k` with `mantissa * 2 ^ exponent < 10 ^ k`, for a mantissa that is not zero. -/
def decimalScale (mantissa : Nat) (exponent : Int) : Int :=
  let num := mantissa * twoTo exponent
  let den := twoTo (-exponent)
  if den ≤ num then digitCount (num / den)
  else 1 - (digitCount ((den - 1) / num) : Int)

/-- The two decimals with `n` digits around the number, the nearer one first. -/
def neighbours (mantissa : Nat) (exponent scale : Int) (n : Nat) : List Decimal :=
  let e := scale - n
  let num := mantissa * twoTo exponent * tenTo (-e)
  let den := twoTo (-exponent) * tenTo e
  let low := num / den
  if roundDiv num den = low then [⟨low, e⟩, ⟨low + 1, e⟩] else [⟨low + 1, e⟩, ⟨low, e⟩]

/-- Moves the zeros at the end of the digits into the exponent. -/
def stripZeros : Nat → Decimal → Decimal
  | 0, d => d
  | fuel + 1, d =>
    if d.digits ≠ 0 ∧ d.digits % 10 = 0 then stripZeros fuel ⟨d.digits / 10, d.exponent + 1⟩ else d

/-- The exact decimal value. -/
def exact (mantissa : Nat) (exponent : Int) : Decimal :=
  ⟨mantissa * twoTo exponent * fiveTo (-exponent), min exponent 0⟩

/-- The fewest digits that round back to the number, the nearest such decimal if there are two. -/
def shortest (mantissa : Nat) (exponent : Int) : Decimal :=
  if mantissa = 0 then ⟨0, 0⟩
  else
    let scale := decimalScale mantissa exponent
    let tried := (List.range 17).findSome? fun n =>
      (neighbours mantissa exponent scale (n + 1)).find? fun d =>
        ofDecimal false d = .finite false mantissa exponent
    let d := tried.getD (exact mantissa exponent)
    stripZeros (digitCount d.digits) d

def negate : Binary64 → Binary64
  | .nan => .nan
  | .infinite s => .infinite !s
  | .finite s m q => .finite (!s) m q

def isZero : Binary64 → Bool
  | .finite _ 0 _ => true
  | _ => false

end Binary64

end SqlTree.Number
