import BraceLang.Assembly.Instr
import BraceLang.Ty

/-!
Where variables are kept. A variable of the top-level code has a reservation in the `.bss`
section; declaring it again with the same type and length uses the same reservation. A variable
of a function has a place in the frame of the function, below `ebp`.

Frame sizes are 32-bit words. A frame that does not fit is a fault, and so is one of exactly
`0x80000000` bytes, whose distance from `ebp` has no negative; a larger one wraps around to a
distance above `ebp`.
-/

namespace BraceLang.Assembly

inductive Place where
  /-- A label of the `.bss` section. -/
  | global (label : String)
  /-- A distance from `ebp`. -/
  | frame (offset : Int)
deriving DecidableEq, Repr

/-- The storage of a variable. -/
structure Slot where
  type : Ty
  place : Place
deriving DecidableEq, Repr

/-- The width of a value of the type in memory. -/
def widthOf : Ty → Width
  | .char => .byte
  | .double => .qword
  | .void | .int | .bool => .dword

/-- The memory of a variable, or of the element that `ecx` is the index of. -/
def Slot.mem (s : Slot) (indexed : Bool) : Mem :=
  { width := widthOf s.type
    base := match s.place with
      | .global label => .label label
      | .frame offset => .frame offset
    scale := if indexed then some (max s.type.size 1) else none }

/-! ### Frames -/

/-- Frame arithmetic that leaves the 32-bit words. -/
inductive Fault where
  | multiply
  | add
  | negate
deriving DecidableEq, Repr

def Fault.message : Fault → String
  | multiply => "attempt to multiply with overflow"
  | add => "attempt to add with overflow"
  | negate => "attempt to negate with overflow"

/-- The number as a word; the fault if it is none. -/
def word (fault : Fault) (n : Nat) : Except Fault Nat :=
  if n < 0x100000000 then .ok n else .error fault

/-- A `double` starts at a multiple of eight, everything else at a multiple of four. -/
def alignment (t : Ty) : Nat := if t = .double then 8 else 4

/-- The least multiple of `a` from `n` on. -/
def alignUp (n a : Nat) : Nat := (n + a - 1) / a * a

/-- The distance from `ebp` of what a frame of `size` bytes ends with. -/
def distance (size : Nat) : Except Fault Int :=
  if size = 0x80000000 then .error .negate
  else .ok (if size < 0x80000000 then -(size : Int) else 0x100000000 - size)

/-- Adds `count` values of a type to a frame of `size` bytes: the new size and the distance of
the new variable from `ebp`. -/
def growFrame (size : Nat) (t : Ty) (count : Nat) : Except Fault (Nat × Int) := do
  let bytes ← word .multiply (t.size * count)
  let used ← word .add (size + bytes)
  let _ ← word .add (used + alignment t)
  let size := alignUp used (alignment t)
  return (size, ← distance size)

/-! ### Reservations -/

/-- Space of a top-level variable. -/
structure Reservation where
  name : String
  type : Ty
  count : Nat
  label : String
deriving DecidableEq, Repr

/-- The line of the `.bss` section. -/
def Reservation.render (r : Reservation) : String :=
  let directive := match widthOf r.type with
    | .byte => "resb"
    | .dword => "resd"
    | .qword => "resq"
  r.label ++ ":\t" ++ directive ++ " " ++ toString r.count ++ "\n"

/-- The label of a variable: later reservations of one name are numbered. -/
def reservationLabel (rs : List Reservation) (name : String) : String :=
  match rs.countP (·.name == name) with
  | 0 => "v_" ++ name
  | n => "v_" ++ name ++ "_" ++ toString n

/-- The label of the space for a variable, and the reservations with it. -/
def reserveSpace (rs : List Reservation) (name : String) (t : Ty) (count : Nat) :
    String × List Reservation :=
  match rs.find? fun r => r.name == name && r.type == t && r.count == count with
  | some r => (r.label, rs)
  | none =>
      let label := reservationLabel rs name
      (label, rs ++ [⟨name, t, count, label⟩])

end BraceLang.Assembly
