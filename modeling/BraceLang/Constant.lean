import BraceLang.Decimal.Shortest
import BraceLang.Syntax

/-!
The constants of three-address code as numbers. A text with a point is a binary64 number, a
text without one a 32-bit integer; any other text is no number, and nothing is computed with it.

Computing with constants gives no result wherever running the operation could fail or give
something that has no text: division by zero, integer overflow, infinities, remainders of
floating-point numbers.
-/

namespace BraceLang

inductive Constant where
  /-- A signed integer of 32 bits. -/
  | int (n : Int)
  | float (x : Float)
deriving DecidableEq

namespace Constant

/-- The integer, if it fits into 32 bits. -/
def ofInt? (n : Int) : Option Constant :=
  if -0x80000000 ≤ n ∧ n < 0x80000000 then some (.int n) else none

/-- Truth as a number. -/
def truth (b : Bool) : Constant := .int (if b then 1 else 0)

/-- The number that a text stands for. -/
def parse? (text : String) : Option Constant :=
  if hasPoint text then (Decimal.read? text.toList).map fun d => .float d.toFloat
  else (Decimal.readInt? text.toList).bind ofInt?

/-- The text that stands for a number. -/
def render? : Constant → Option String
  | int n => some (toString n)
  | float x => (Decimal.shortest? x).map fun d => String.ofList d.write

def toFloat : Constant → Float
  | int n => Float.ofInt n
  | float x => x

/-- Everything but zero is true. -/
def isTrue : Constant → Bool
  | int n => n != 0
  | float x => x != 0

/-- An operator applied to a number. -/
def unary? : UnOp → Constant → Option Constant
  | .neg, int n => ofInt? (-n)
  | .neg, float x => some (.float (-x))
  | .not, c => some (truth (!c.isTrue))

/-- An operator applied to two integers; division is toward zero. -/
def binaryInt? (op : BinOp) (a b : Int) : Option Constant :=
  match op with
  | .add => ofInt? (a + b)
  | .sub => ofInt? (a - b)
  | .mul => ofInt? (a * b)
  | .div => if b = 0 then none else ofInt? (a.tdiv b)
  | .mod => if b = 0 then none else (ofInt? (a.tdiv b)).map fun _ => .int (a.tmod b)
  | .equal => some (truth (a == b))
  | .notEqual => some (truth (a != b))
  | .less => some (truth (a < b))
  | .lessOrEqual => some (truth (a ≤ b))
  | .greater => some (truth (b < a))
  | .greaterOrEqual => some (truth (b ≤ a))
  | .and => some (truth (a != 0 && b != 0))
  | .or => some (truth (a != 0 || b != 0))

/-- An operator applied to two floating-point numbers. -/
def binaryFloat? (op : BinOp) (a b : Float) : Option Constant :=
  match op with
  | .add => some (.float (a + b))
  | .sub => some (.float (a - b))
  | .mul => some (.float (a * b))
  | .div => if b == 0 then none else some (.float (a / b))
  | .mod => none
  | .equal => some (truth (a == b))
  | .notEqual => some (truth (a != b))
  | .less => some (truth (a < b))
  | .lessOrEqual => some (truth (a ≤ b))
  | .greater => some (truth (b < a))
  | .greaterOrEqual => some (truth (b ≤ a))
  | .and => some (truth (a != 0 && b != 0))
  | .or => some (truth (a != 0 || b != 0))

/-- An operator applied to two numbers; one floating-point operand makes the other one too. -/
def binary? (op : BinOp) : Constant → Constant → Option Constant
  | int a, int b => binaryInt? op a b
  | a, b => binaryFloat? op a.toFloat b.toFloat

/-- An operator applied to a text. -/
def foldUnary? (op : UnOp) (operand : String) : Option String := do
  (← unary? op (← parse? operand)).render?

/-- An operator applied to two texts. -/
def foldBinary? (op : BinOp) (left right : String) : Option String := do
  (← binary? op (← parse? left) (← parse? right)).render?

/-- A floating-point number is read back from its text. -/
theorem parse?_of_render? {x : Float} {text : String} (h : (float x).render? = some text) :
    parse? text = some (.float x) := by
  obtain ⟨d, hd, rfl⟩ := Option.map_eq_some_iff.mp h
  have back : (Decimal.read? d.write).map Decimal.toFloat = some x := by
    simpa [Decimal.writesBack] using Decimal.writesBack_of_shortest? hd
  obtain ⟨e, he, hx⟩ := Option.map_eq_some_iff.mp back
  have point : hasPoint (String.ofList d.write) = true := by
    simp [hasPoint, Decimal.write]
  simp [parse?, point, he, hx]

@[simp] theorem toFloat_float (x : Float) : (float x).toFloat = x := rfl

@[simp] theorem isTrue_truth (b : Bool) : (truth b).isTrue = b := by cases b <;> rfl

/-- Truth is written `0` or `1` and read back. -/
theorem exists_render?_truth (b : Bool) :
    ∃ text, (truth b).render? = some text ∧ parse? text = some (truth b) := by
  cases b
  · exact ⟨"0", by decide, by decide⟩
  · exact ⟨"1", by decide, by decide⟩

end Constant

end BraceLang
