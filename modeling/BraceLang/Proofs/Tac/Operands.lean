import BraceLang.Tac.Liveness

/-!
What the operands of an instruction are for: some are read for their value, and the index of a
destination is read to find it.
-/

namespace BraceLang.Tac

namespace Operand

/-- The names that are read to find a destination. -/
def addressNames : Operand → List Name
  | element _ index => index.names
  | const _ | name _ => []

@[simp] theorem addressNames_name (n : Name) : (name n).addressNames = [] := rfl

@[simp] theorem addressNames_element (array : String) (index : Operand) :
    (element array index).addressNames = index.names := rfl

end Operand

namespace Instr

/-- The operands that are read for their value. -/
def sources : Instr → List Operand
  | function .. | label _ | goto _ => []
  | branch cond _ => [cond]
  | copy source _ => [source]
  | unary _ operand _ => [operand]
  | binary _ left right _ => [left, right]
  | call _ args _ => args
  | ret value => value.toList

/-- The names that are read to find the destination. -/
def addressNames (i : Instr) : List Name := i.result?.elim [] Operand.addressNames

/-- The names that an instruction reads, as often as it reads them. -/
def reads (i : Instr) : List Name := i.sources.flatMap Operand.names ++ i.addressNames

@[simp] theorem reads_function (name : String) (params : List String) :
    (function name params).reads = [] := rfl

@[simp] theorem reads_label (l : Label) : (label l).reads = [] := rfl

@[simp] theorem reads_goto (target : Label) : (goto target).reads = [] := rfl

@[simp] theorem reads_branch (cond : Operand) (target : Label) :
    (branch cond target).reads = cond.names := by
  simp [reads, sources, addressNames, result?]

@[simp] theorem reads_copy (source result : Operand) :
    (copy source result).reads = source.names ++ result.addressNames := by
  simp [reads, sources, addressNames, result?]

@[simp] theorem reads_unary (op : UnOp) (operand result : Operand) :
    (unary op operand result).reads = operand.names ++ result.addressNames := by
  simp [reads, sources, addressNames, result?]

@[simp] theorem reads_binary (op : BinOp) (left right result : Operand) :
    (binary op left right result).reads = left.names ++ right.names ++ result.addressNames := by
  simp [reads, sources, addressNames, result?]

@[simp] theorem reads_call (callee : String) (args : List Operand) (result : Temp) :
    (call callee args result).reads = args.flatMap Operand.names := by
  simp [reads, sources, addressNames, result?]

@[simp] theorem reads_ret_none : (ret none).reads = [] := rfl

@[simp] theorem reads_ret_some (value : Operand) : (ret (some value)).reads = value.names := by
  simp [reads, sources, addressNames, result?]

/-- Liveness takes into account what is read for a value. -/
theorem mem_uses_of_sources {i : Instr} {n : Name} (read : n ∈ i.sources.flatMap Operand.names) :
    n ∈ i.uses := by
  cases i with
  | copy source result => cases result <;> simp_all [sources, uses]
  | ret value => cases value <;> simp_all [sources, uses]
  | _ => simp_all [sources, uses]

end Instr

end BraceLang.Tac
