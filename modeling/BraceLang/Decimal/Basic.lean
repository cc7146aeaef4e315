/-!
Decimal numerals. A numeral stands for `± digits · 10 ^ exponent`; reading one keeps that value
exactly, and `toFloat` rounds it to the nearest binary64 number. Numerals are written
positionally, with a point, and with no more zeros after it than needed.
-/

namespace BraceLang

/-- The number `± digits · 10 ^ exponent`. -/
structure Decimal where
  negative : Bool
  digits : Nat
  exponent : Int
deriving DecidableEq, Repr

namespace Decimal

/-- Ten to a power. -/
def tenTo (n : Nat) : Nat := Nat.pow 10 n

/-- The number that some decimal digits are written for. -/
def ofDigits (cs : List Char) : Nat := cs.foldl (fun n c => 10 * n + (c.toNat - '0'.toNat)) 0

/-- Reads one or more decimal digits and nothing else. -/
def readDigits? (cs : List Char) : Option Nat :=
  if !cs.isEmpty && cs.all Char.isDigit then some (ofDigits cs) else none

/-- A sign, if there is one, and what follows it; true for a minus. -/
def splitSign : List Char → Bool × List Char
  | '-' :: rest => (true, rest)
  | '+' :: rest => (false, rest)
  | rest => (false, rest)

/-- Reads a whole number with an optional sign. -/
def readInt? (cs : List Char) : Option Int :=
  let (negative, rest) := splitSign cs
  (readDigits? rest).map fun n => if negative then -n else n

/-- Reads the exponent that ends a numeral; nothing stands for zero. -/
def readExponent? : List Char → Option Int
  | [] => some 0
  | c :: rest => if c == 'e' || c == 'E' then readInt? rest else none

/-- Reads a numeral with a point: digits on at least one side of it, an optional sign before
them and an optional exponent after them. -/
def read? (cs : List Char) : Option Decimal :=
  let (negative, rest) := splitSign cs
  let whole := rest.takeWhile Char.isDigit
  match rest.dropWhile Char.isDigit with
  | '.' :: rest =>
      let fraction := rest.takeWhile Char.isDigit
      if whole.isEmpty && fraction.isEmpty then none
      else (readExponent? (rest.dropWhile Char.isDigit)).map fun e =>
        { negative, digits := ofDigits (whole ++ fraction), exponent := e - fraction.length }
  | _ => none

/-- The nearest binary64 number, even digits winning a tie; too large a number is infinite. -/
def toFloat (d : Decimal) : Float :=
  let magnitude := Float.ofScientific d.digits (d.exponent < 0) d.exponent.natAbs
  if d.negative then -magnitude else magnitude

/-- Drops the zeros at the end. -/
def dropZeros (cs : List Char) : List Char := (cs.reverse.dropWhile (· == '0')).reverse

/-- Exactly `places` digits of a number below `10 ^ places`. -/
def padded (places n : Nat) : List Char :=
  let cs := (toString n).toList
  List.replicate (places - cs.length) '0' ++ cs

/-- The positional form: the whole part, a point, and the fraction without zeros at its end, of
which at least one digit is written. -/
def write (d : Decimal) : List Char :=
  let places := (-d.exponent).toNat
  let whole := if 0 ≤ d.exponent then d.digits * tenTo d.exponent.toNat else d.digits / tenTo places
  let fraction := if 0 ≤ d.exponent then [] else dropZeros (padded places (d.digits % tenTo places))
  (if d.negative then ['-'] else []) ++ (toString whole).toList ++ '.' ::
    (if fraction.isEmpty then ['0'] else fraction)

/-- The written form reads back as `x`, bit for bit. -/
def writesBack (d : Decimal) (x : Float) : Bool := decide ((read? d.write).map toFloat = some x)

end Decimal

end BraceLang
