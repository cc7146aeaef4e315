import BraceLang.Constant
import BraceLang.Tac.Basic

/-!
What is known inside a basic block: which names hold a constant, and which name holds the
value of a computation that has been made already. A fact is dropped as soon as something it
depends on may have changed.
-/

namespace BraceLang.Tac

/-- A computation without side effects. -/
inductive Computation where
  | unary (op : UnOp) (operand : Operand)
  | binary (op : BinOp) (left right : Operand)
deriving DecidableEq, Repr

namespace Computation

/-- The operands of a computation. -/
def operands : Computation → List Operand
  | unary _ operand => [operand]
  | binary _ left right => [left, right]

/-- The name takes part in the value. -/
def reads (c : Computation) (n : Name) : Bool := c.operands.any (·.reads n)

/-- An element whose address or array involves the variable takes part in the value. -/
def readsElement (c : Computation) (array : String) : Bool :=
  c.operands.any fun
    | o@(.element ..) => o.reads (.var array)
    | .const _ | .name _ => false

/-- The computation as an instruction. -/
def into (c : Computation) (result : Operand) : Instr :=
  match c with
  | unary op operand => .unary op operand result
  | binary op left right => .binary op left right result

/-- The constant that the computation comes to, if its operands are constants. -/
def value? : Computation → Option String
  | unary op (.const a) => Constant.foldUnary? op a
  | binary op (.const a) (.const b) => Constant.foldBinary? op a b
  | _ => none

end Computation

/-- What is known at a place in a basic block. -/
structure Facts where
  /-- The constants that names hold. -/
  constants : Assoc Name String := {}
  /-- The names that hold the values of computations. -/
  holders : Assoc Computation Name := {}

namespace Facts

/-- Puts known constants in the place of names. -/
def substitute (f : Facts) : Operand → Operand
  | .const text => .const text
  | .name n => ((f.constants.get? n).map Operand.const).getD (.name n)
  | .element array index => .element array (f.substitute index)

/-- A destination that is a name is not read; the index of an element is. -/
def substituteTarget (f : Facts) : Operand → Operand
  | .element array index => .element array (f.substitute index)
  | result => result

/-- Forgets what depends on the value of a name. -/
def forget (f : Facts) (n : Name) : Facts :=
  { constants := f.constants.erase n
    holders := f.holders.filter fun c holder => holder != n && !c.reads n }

/-- Forgets the computations that read elements of an array. -/
def forgetElements (f : Facts) (array : String) : Facts :=
  { f with holders := f.holders.filter fun c _ => !c.readsElement array }

/-- Forgets what a call may have changed. -/
def forgetGlobals (f : Facts) (globals : List String) : Facts :=
  globals.foldl (fun f g => (f.forget (.var g)).forgetElements g) f

/-- Forgets what depends on a destination that is about to be written. -/
def forgetTarget (f : Facts) : Operand → Facts
  | .const _ => f
  | .name n => f.forget n
  | .element array _ => f.forgetElements array

/-- The facts after `result` has received the value of `source`. -/
def assigned (f : Facts) (source result : Operand) : Facts :=
  let f := f.forgetTarget result
  match source, result with
  | .const text, .name n => { f with constants := f.constants.set n text }
  | _, _ => f

/-- The facts after `result` has received the value of a computation made now. -/
def computed (f : Facts) (c : Computation) (result : Operand) : Facts :=
  let f := f.forgetTarget result
  match result with
  | .name n => if c.reads n then f else { f with holders := f.holders.set c n }
  | .const _ | .element .. => f

end Facts

/-- A constant as a variable of the type keeps it: a `double` has a point, a `bool` is 0 or 1,
and a constant that has no such form stays as it is. -/
def convert (text : String) : Option Ty → String
  | some .double =>
      ((Constant.parse? text).bind fun c => (Constant.float c.toFloat).render?).getD text
  | some .bool => ((Constant.parse? text).bind fun c => (Constant.truth c.isTrue).render?).getD text
  | _ => text

/-- The source of a copy, converted to the type of the variable that receives it. -/
def convertSource (types : Assoc String Ty) (source result : Operand) : Operand :=
  match source, result with
  | .const text, .var x => .const (convert text (types.get? x))
  | _, _ => source

/-- A converted constant stays as it is. -/
theorem convert_convert (text : String) (t : Option Ty) :
    convert (convert text t) t = convert text t := by
  match t with
  | some .double =>
      simp only [convert]
      cases hp : Constant.parse? text with
      | none => simp [hp]
      | some c =>
          cases hr : (Constant.float c.toFloat).render? with
          | none => simp [hp, hr]
          | some written => simp [hr, Constant.parse?_of_render? hr]
  | some .bool =>
      simp only [convert]
      cases hp : Constant.parse? text with
      | none => simp [hp]
      | some c =>
          obtain ⟨written, hr, hw⟩ := Constant.exists_render?_truth c.isTrue
          simp [hr, hw]
  | none | some .void | some .int | some .char => rfl

end BraceLang.Tac
