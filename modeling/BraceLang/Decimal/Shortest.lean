import BraceLang.Decimal.Basic

/-!
The shortest decimal of a binary64 number: of the decimals that read back as the number, one
with the fewest digits, and of those the nearest; when two are equally near, the larger.

The search goes from the coarsest decimal grid that can hold the number to finer ones, and on
each grid looks at the number's two neighbours, the nearer one first. A candidate is taken only
if its written form reads back, so that writing and reading agree by construction.
-/

namespace BraceLang.Decimal

/-- The leading bit of a normal significand, which is not stored. -/
def hiddenBit : Nat := 0x10000000000000

/-- The magnitude of a finite number, as the quotient of two naturals: 52 bits of fraction
below 11 bits of exponent, which is zero for subnormal numbers. -/
def ratio (x : Float) : Nat × Nat :=
  let bits := x.toBits.toNat
  let fraction := bits % hiddenBit
  let exponent := bits / hiddenBit % 0x800
  if exponent = 0 then (fraction, 1 <<< 1074)
  else if 1075 ≤ exponent then ((hiddenBit + fraction) <<< (exponent - 1075), 1)
  else (hiddenBit + fraction, 1 <<< (1075 - exponent))

/-- The sign bit is set. -/
def isNegative (x : Float) : Bool := 0x8000000000000000 ≤ x.toBits.toNat

/-- The exponent of the coarsest grid on which a positive quotient may have a digit. -/
def leading (num den : Nat) : Int :=
  if den ≤ num then (toString (num / den)).length - 1 else -(toString (den / num)).length

/-- The two neighbours of a quotient on the grid `10 ^ g`, in units of the grid, the nearer one
first. -/
def neighbours (num den : Nat) (g : Int) : List Nat :=
  let (n, d) := if 0 ≤ g then (num, den * tenTo g.toNat) else (num * tenTo (-g).toNat, den)
  let below := n / d
  if d ≤ 2 * (n % d) then [below + 1, below] else [below, below + 1]

/-- The decimals to be tried for a finite number, best first. Seventeen digits are enough to
tell any two binary64 numbers apart. -/
def candidates (x : Float) : List Decimal :=
  let (num, den) := ratio x
  if num = 0 then [⟨isNegative x, 0, 0⟩]
  else (List.range 17).flatMap fun (k : Nat) =>
    let g := leading num den - k
    (neighbours num den g).map fun digits => ⟨isNegative x, digits, g⟩

/-- The shortest decimal of a finite number; infinities and NaN have none. -/
def shortest? (x : Float) : Option Decimal :=
  if x.isFinite then (candidates x).find? (·.writesBack x) else none

/-- What is found reads back. -/
theorem writesBack_of_shortest? {x : Float} {d : Decimal} (h : shortest? x = some d) :
    d.writesBack x = true := by
  unfold shortest? at h
  split at h
  · simpa using List.find?_some h
  · contradiction

end BraceLang.Decimal
