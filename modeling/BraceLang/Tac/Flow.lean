import BraceLang.Tac.Basic

/-!
The flow of control between instructions. A `goto` goes on at its label, a branch at its label
or at the next instruction, a `return` nowhere, everything else at the next instruction. A
function marker is not entered from above, so the end of the top-level code and of each
function leaves the program.
-/

namespace BraceLang.Tac

/-- The place of a label; of several, the last one. -/
def findLabel? (l : Label) : List Instr → Option Nat
  | [] => none
  | i :: rest =>
      match findLabel? l rest with
      | some k => some (k + 1)
      | none => if i = .label l then some 0 else none

/-- The instruction after place `i`, unless the unit ends there. -/
def fallsInto? (code : Array Instr) (i : Nat) : Option Nat :=
  match code[i + 1]? with
  | none | some (.function ..) => none
  | some _ => some (i + 1)

/-- An instruction, where control may go on after it, and whether control may leave the
program after it. -/
structure Node where
  instr : Instr
  next : List Nat
  leaves : Bool

/-- The node of an instruction, given the place after it and the places of labels. -/
def Node.of (instr : Instr) (fall : Option Nat) (place : Label → Option Nat) : Node :=
  match instr with
  | .ret _ => ⟨instr, [], true⟩
  | .goto target => ⟨instr, (place target).toList, (place target).isNone⟩
  | .branch _ target =>
      ⟨instr, (place target).toList ++ fall.toList, fall.isNone || (place target).isNone⟩
  | .function .. | .label _ | .copy .. | .unary .. | .binary .. | .call .. =>
      ⟨instr, fall.toList, fall.isNone⟩

/-- The nodes of the code, in its order. -/
def flow (code : List Instr) : Array Node :=
  let instrs := code.toArray
  instrs.mapIdx fun i instr => Node.of instr (fallsInto? instrs i) (findLabel? · code)

@[simp] theorem size_flow (code : List Instr) : (flow code).size = code.length := by simp [flow]

end BraceLang.Tac
