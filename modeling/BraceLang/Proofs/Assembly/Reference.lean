import BraceLang.Constant
import BraceLang.Proofs.Assembly.Machine

/-!
What an expression means, apart from any code for it. The meaning is given for a state of the
machine, because variables are read from its memory: operands are evaluated from left to right,
both operands of a connective included; integers are words with wrap-around; a division is
toward zero, and traps if there is no quotient; one floating-point operand makes the other one
floating too.

Numbers without an order count as equal, and as the first below the second. This is a convention,
see `Floats.equal`.
-/

namespace BraceLang.Assembly

variable {F : Type}

inductive Value (F : Type) where
  | int (n : BitVec 32)
  | float (x : F)
deriving DecidableEq

/-! ### Operators -/

namespace Floats

/-- The numbers are equal or have no order. To count numbers without an order as equal, and as below
each other, is a convention of this model, taken from the flags that a comparison sets; folding of
constants compares otherwise, and has them neither equal nor below. -/
def equal (fl : Floats F) (x y : F) : Bool :=
  match fl.compare x y with
  | some .eq | none => true
  | some .lt | some .gt => false

/-- The first number is less than the second, or they have no order, by the same convention. -/
def below (fl : Floats F) (x y : F) : Bool :=
  match fl.compare x y with
  | some .lt | none => true
  | some .eq | some .gt => false

end Floats

namespace Value

def domain : Value F → Domain
  | int _ => .int
  | float _ => .float

def toFloat (fl : Floats F) : Value F → F
  | int n => fl.ofInt n
  | float x => x

def toInt (fl : Floats F) : Value F → BitVec 32
  | int n => n
  | float x => fl.toInt x

/-- Everything but zero is true. -/
def isTrue (fl : Floats F) : Value F → Bool
  | int n => n != 0
  | float x => !fl.equal fl.zero x

def unary (fl : Floats F) : UnOp → Value F → Value F
  | .neg, int n => int (-n)
  | .neg, float x => float (fl.neg x)
  | .not, v => int (ofTruth (!v.isTrue fl))

/-- There is no quotient: a divisor of zero, or the one quotient that is too large. -/
def NoQuotient (a b : BitVec 32) : Prop := b = 0 ∨ a = BitVec.intMin 32 ∧ b = -1

instance (a b : BitVec 32) : Decidable (NoQuotient a b) :=
  inferInstanceAs (Decidable (_ ∨ _))

/-- An operator applied to integers. -/
def integers (op : BinOp) (a b : BitVec 32) : Except Trap (BitVec 32) :=
  match op with
  | .add => .ok (a + b)
  | .sub => .ok (a - b)
  | .mul => .ok (a * b)
  | .div => if NoQuotient a b then .error .divide else .ok (a.sdiv b)
  | .mod => if NoQuotient a b then .error .divide else .ok (a.srem b)
  | .equal => .ok (ofTruth (a == b))
  | .notEqual => .ok (ofTruth (a != b))
  | .less => .ok (ofTruth (a.slt b))
  | .lessOrEqual => .ok (ofTruth (a.sle b))
  | .greater => .ok (ofTruth (b.slt a))
  | .greaterOrEqual => .ok (ofTruth (b.sle a))
  | .and | .or => .error .unknown

/-- An operator applied to floating-point numbers, which have no remainder here. -/
def floats (fl : Floats F) (op : BinOp) (x y : F) : Except Trap (Value F) :=
  match op with
  | .add => .ok (float (fl.add x y))
  | .sub => .ok (float (fl.sub x y))
  | .mul => .ok (float (fl.mul x y))
  | .div => .ok (float (fl.div x y))
  | .equal => .ok (int (ofTruth (fl.equal x y)))
  | .notEqual => .ok (int (ofTruth (!fl.equal x y)))
  | .less => .ok (int (ofTruth (fl.below x y)))
  | .lessOrEqual => .ok (int (ofTruth (fl.below x y || fl.equal x y)))
  | .greater => .ok (int (ofTruth (!fl.below x y && !fl.equal x y)))
  | .greaterOrEqual => .ok (int (ofTruth (!fl.below x y)))
  | .mod | .and | .or => .error .unknown

def binary (fl : Floats F) (op : BinOp) (left right : Value F) : Except Trap (Value F) :=
  match op with
  | .and => .ok (int (ofTruth (left.isTrue fl && right.isTrue fl)))
  | .or => .ok (int (ofTruth (left.isTrue fl || right.isTrue fl)))
  | op =>
      match left, right with
      | int a, int b => (integers op a b).map int
      | left, right => floats fl op (left.toFloat fl) (right.toFloat fl)

end Value

/-! ### Expressions -/

/-- The value of a literal, if its text is one: a 32-bit integer or a text with a point, and one
letter or digit between quotes. -/
def literalValue? (fl : Floats F) : Literal → Option (Value F)
  | .number text =>
      if hasPoint text then some (.float (fl.ofText text))
      else match Constant.parse? text with
        | some (.int n) => some (.int (BitVec.ofInt 32 n))
        | _ => none
  | .char text => match text.toList with
    | ['\'', c, '\''] => if c.isAlphanum then some (.int (BitVec.ofNat 32 c.toNat)) else none
    | _ => none
  | .bool value => some (.int (ofTruth value))

namespace Slot

/-- Where a variable is. -/
def address (p : Platform F) (m : Machine F) (slot : Slot) : Address :=
  match slot.place with
  | .global label => p.address label
  | .frame offset => m.ebp + BitVec.ofInt 32 offset

/-- Where the element of an array with a certain index is. -/
def elementAddress (p : Platform F) (m : Machine F) (slot : Slot) (index : BitVec 32) : Address :=
  slot.address p m + index * BitVec.ofNat 32 (max slot.type.size 1)

/-- The value that memory holds for the type of the variable. -/
def valueAt (fl : Floats F) (m : Machine F) (slot : Slot) (a : Address) : Value F :=
  match slot.type with
  | .double => .float (m.number fl a)
  | .char => .int ((m.mem a).signExtend 32)
  | .void | .int | .bool => .int (m.word a)

end Slot

variable (p : Platform F) (slots : String → Option Slot) (m : Machine F)

/-- The value of an expression without calls. -/
def evaluate : Expr → Except Trap (Value F)
  | .literal _ value => match literalValue? p.toFloats value with
    | some v => .ok v
    | none => .error .unknown
  | .var _ name => match slots name with
    | some slot => .ok (slot.valueAt p.toFloats m (slot.address p m))
    | none => .error .unknown
  | .element _ array index => do
      let i ← evaluate index
      match slots array with
      | some slot => .ok (slot.valueAt p.toFloats m (slot.elementAddress p m (i.toInt p.toFloats)))
      | none => .error .unknown
  | .unary _ op operand => do
      let v ← evaluate operand
      return v.unary p.toFloats op
  | .binary _ op left right => do
      let a ← evaluate left
      let b ← evaluate right
      a.binary p.toFloats op b
  | .call .. => .error .unknown

/-- Every byte that the evaluation reads from a variable or an element is a certain kind of
byte. -/
def ReadsOnly (Kind : Address → Prop) : Expr → Prop
  | .literal .. => True
  | .var _ name => ∀ slot, slots name = some slot → ∀ k, k < (widthOf slot.type).bytes →
      Kind (slot.address p m + BitVec.ofNat 32 k)
  | .element _ array index => ReadsOnly Kind index ∧
      ∀ slot i, slots array = some slot → evaluate p slots m index = .ok i →
        ∀ k, k < (widthOf slot.type).bytes →
          Kind (slot.elementAddress p m (i.toInt p.toFloats) + BitVec.ofNat 32 k)
  | .unary _ _ operand => ReadsOnly Kind operand
  | .binary _ _ left right => ReadsOnly Kind left ∧ ReadsOnly Kind right
  | .call .. => True

end BraceLang.Assembly
