import BraceLang.Text.Blank

/-!
The primitive types and every decision that depends on them alone: which text names which
type, the promotion order of arithmetic, which values a destination accepts, and storage sizes.
-/

namespace BraceLang

/-- The closed set of primitive types. -/
inductive Ty where
  | void
  | int
  | double
  | char
  | bool
deriving DecidableEq, Repr

/-- The two register classes a value can be computed in. -/
inductive Domain where
  | int
  | float
deriving DecidableEq, Repr

namespace Ty

def name : Ty → String
  | void => "void"
  | int => "int"
  | double => "double"
  | char => "char"
  | bool => "bool"

def all : List Ty := [int, double, char, bool, void]

/-- The type a text names: blanks around it and the case of its ASCII letters do not matter. -/
def parse? (text : String) : Option Ty :=
  all.find? fun t => Text.sameFolded (Text.trim text.toList) t.name.toList

/-- A name is read back as its type. -/
theorem parse?_name (t : Ty) : parse? t.name = some t := by cases t <;> decide

/-- Every type but `void` takes part in arithmetic. -/
def isNumeric (t : Ty) : Bool := t != void

/-- The types an array index may have. -/
def isIntegral : Ty → Bool
  | int | char | bool => true
  | void | double => false

/-- The promotion order, `char < bool < int < double`; `void` has no place in it. -/
def rank : Ty → Option Nat
  | void => none
  | char => some 0
  | bool => some 1
  | int => some 2
  | double => some 3

/-- The type of an arithmetic operation on two operands: the one of higher rank. -/
def promote (s t : Ty) : Option Ty := do
  let left ← s.rank
  let right ← t.rank
  return if left ≥ right then s else t

/-- A destination of type `dest` may hold a value of type `value`. -/
def accepts (dest value : Ty) : Bool :=
  match dest, value with
  | void, _ | _, void => false
  | double, int | double, char | int, char | int, bool | bool, char | bool, int => true
  | dest, value => dest == value

/-- Storage size in bytes. -/
def size : Ty → Nat
  | void => 0
  | char => 1
  | int | bool => 4
  | double => 8

/-- Only `double` is computed in the floating-point registers. -/
def domain : Ty → Domain
  | double => .float
  | void | int | char | bool => .int

@[simp] theorem accepts_self {t : Ty} (h : t ≠ void) : accepts t t = true := by
  cases t <;> first | contradiction | rfl

theorem domain_eq_float_iff {t : Ty} : t.domain = .float ↔ t = double := by
  cases t <;> decide

end Ty

end BraceLang
