import BraceLang.Proofs.Tac.Machine
import BraceLang.Proofs.Tac.Operands

/-!
What a step does besides computing: it stores a value in an element of an array, or it calls a
function. These acts are what a pass over the code has to keep, in their order and with the
values that take part in them.
-/

namespace BraceLang.Tac

/-- What code does to the elements of arrays and to other functions. -/
inductive Act (V : Type) where
  | store (array : String) (index value : V)
  /-- A call, with the globals that its function finds. -/
  | call (callee : String) (args : List V) (shared : Store V)

variable {V : Type}

section

variable (I : Interpretation V) (globals : List String) (types : Assoc String Ty)

/-- Storing a value is an act if it goes into an element. -/
def Operand.storeActs (m : Memory V) (v : V) : Operand → List (Act V)
  | .element array index =>
      [.store array (index.eval I globals m) (I.keepElement (types.get? array) v)]
  | .const _ | .name _ => []

/-- What an instruction does. -/
def Instr.acts (m : Memory V) : Instr → List (Act V)
  | .copy source result => result.storeActs I globals types m (source.eval I globals m)
  | .unary op operand result =>
      result.storeActs I globals types m (I.unary op (operand.eval I globals m))
  | .binary op left right result =>
      result.storeActs I globals types m
        (I.binary op (left.eval I globals m) (right.eval I globals m))
  | .call callee args _ => [.call callee (args.map (·.eval I globals m)) m.shared]
  | .function .. | .label _ | .goto _ | .branch .. | .ret _ => []

/-- What the machine does with its next step. -/
def Code.acts (c : Code) (s : Config V) : List (Act V) :=
  (c.instrs[s.pc]?.map (·.acts I c.globals c.types s.memory)).getD []

end

variable {I : Interpretation V} {globals : List String} {types : Assoc String Ty} {i : Instr}

theorem acts_eq {c : Code} {s : Config V} (at_pc : c.instrs[s.pc]? = some i) :
    c.acts I s = i.acts I c.globals c.types s.memory := by
  simp [Code.acts, at_pc]

/-- Giving a value to a name is no act. -/
theorem Instr.acts_of_writes_name {n : Name} (writes : i.result? = some (.name n)) (m : Memory V) :
    i.acts I globals types m = [] := by
  cases i <;> simp_all [Instr.result?, Instr.acts, Operand.storeActs]

/-- An instruction does the same in memories that agree on the values of its operands, on the
index of its destination and, for a call, on the globals. -/
theorem Instr.acts_congr {m m' : Memory V}
    (sources : ∀ o ∈ i.sources, o.eval I globals m' = o.eval I globals m)
    (address : ∀ array j, i.result? = some (.element array j) →
      j.eval I globals m' = j.eval I globals m)
    (shared : i.isCall = true → m'.shared = m.shared) :
    i.acts I globals types m' = i.acts I globals types m := by
  have stored : ∀ {v v' : V} {result : Operand}, i.result? = some result → v' = v →
      result.storeActs I globals types m' v' = result.storeActs I globals types m v := by
    rintro v _ result writes rfl
    cases result with
    | element array j => simp only [Operand.storeActs, address array j writes]
    | _ => rfl
  cases i with
  | copy source result => exact stored rfl (sources source (by simp [Instr.sources]))
  | unary op operand result =>
      exact stored rfl (by rw [sources operand (by simp [Instr.sources])])
  | binary op left right result =>
      exact stored rfl (by
        rw [sources left (by simp [Instr.sources]), sources right (by simp [Instr.sources])])
  | call callee args result =>
      have values : args.map (·.eval I globals m') = args.map (·.eval I globals m) :=
        List.map_congr_left sources
      simp only [Instr.acts, values, shared rfl]
  | _ => rfl

end BraceLang.Tac
