import BraceLang.Proofs.Stops
import BraceLang.Tac.Flow

/-!
A machine that runs three-address code.

* Every activation of a function has a store of its own for its variables and temporaries. The
  names in `globals` are in one store that all activations share.
* The cells of an array are found by the name of the array and the value of the index, and are
  kept apart from the scalar of that name.
* Labels are resolved as in `flow`: the last one of a number is meant, and a jump to a label
  that is nowhere leaves the unit, as does running into a function marker or the end of the code.
* A call runs the function of that name. If there is none, the outside world answers, which sees
  the arguments and the shared store and may change the latter.

What constants, operators and conversions mean is left to an `Interpretation`.
-/

namespace BraceLang.Tac

variable {V : Type}

/-- The values of names and of the cells of arrays. -/
structure Store (V : Type) where
  scalar : Name → V
  cell : String → V → V

/-- The meaning of what the code leaves open. -/
structure Interpretation (V : Type) where
  const : String → V
  unary : UnOp → V → V
  binary : BinOp → V → V → V
  /-- A branch on the value is taken. -/
  isTrue : V → Bool
  /-- What a variable of the type keeps of a value that is stored in it. -/
  keep : Option Ty → V → V
  /-- What an element of an array of the type keeps of a value. -/
  keepElement : Option Ty → V → V
  /-- What a parameter of the type keeps of an argument. -/
  receive : Option Ty → V → V
  /-- What an activation finds in its own store. -/
  blank : Store V
  /-- What a call yields that returns no value. -/
  nothing : V
  /-- What a function yields that the code does not define, and what it leaves in the shared
  store. -/
  outside : String → List V → Store V → V × Store V

/-! ### Memory -/

namespace Store

def set (s : Store V) (n : Name) (v : V) : Store V :=
  { s with scalar := fun k => if k = n then v else s.scalar k }

def setCell [DecidableEq V] (s : Store V) (array : String) (index v : V) : Store V :=
  { s with cell := fun a i => if a = array ∧ i = index then v else s.cell a i }

@[simp] theorem cell_set (s : Store V) (n : Name) (v : V) : (s.set n v).cell = s.cell := rfl

@[simp] theorem scalar_setCell [DecidableEq V] (s : Store V) (array : String) (index v : V) :
    (s.setCell array index v).scalar = s.scalar := rfl

@[simp] theorem scalar_set_self (s : Store V) (n : Name) (v : V) : (s.set n v).scalar n = v := by
  simp [set]

theorem scalar_set_of_ne (s : Store V) {n k : Name} (v : V) (h : k ≠ n) :
    (s.set n v).scalar k = s.scalar k := by
  simp [set, h]

theorem cell_setCell_of_ne [DecidableEq V] (s : Store V) {array a : String} (index v : V)
    (h : a ≠ array) : (s.setCell array index v).cell a = s.cell a := by
  funext i
  simp [setCell, h]

end Store

/-- What one activation can reach. -/
structure Memory (V : Type) where
  own : Store V
  shared : Store V

/-- The name is kept in the shared store. -/
def isShared (globals : List String) : Name → Bool
  | .var x => globals.contains x
  | .temp _ => false

namespace Memory

variable (globals : List String)

/-- The store that a name is kept in. -/
def side (m : Memory V) (n : Name) : Store V := if isShared globals n then m.shared else m.own

/-- Changes the store that a name is kept in. -/
def onSide (m : Memory V) (n : Name) (f : Store V → Store V) : Memory V :=
  if isShared globals n then { m with shared := f m.shared } else { m with own := f m.own }

def get (m : Memory V) (n : Name) : V := (m.side globals n).scalar n

def set (m : Memory V) (n : Name) (v : V) : Memory V := m.onSide globals n (·.set n v)

/-- The cells of an array. -/
def cell (m : Memory V) (array : String) : V → V := (m.side globals (.var array)).cell array

def setCell [DecidableEq V] (m : Memory V) (array : String) (index v : V) : Memory V :=
  m.onSide globals (.var array) (·.setCell array index v)

@[simp] theorem get_set_self (m : Memory V) (n : Name) (v : V) :
    (m.set globals n v).get globals n = v := by
  cases h : isShared globals n <;> simp [get, set, side, onSide, h]

theorem get_set_of_ne (m : Memory V) {n k : Name} (v : V) (h : k ≠ n) :
    (m.set globals n v).get globals k = m.get globals k := by
  cases hn : isShared globals n <;> cases hk : isShared globals k <;>
    simp [get, set, side, onSide, hn, hk, Store.scalar_set_of_ne _ _ h]

@[simp] theorem cell_set (m : Memory V) (n : Name) (v : V) (array : String) :
    (m.set globals n v).cell globals array = m.cell globals array := by
  cases hn : isShared globals n <;> cases ha : isShared globals (.var array) <;>
    simp [cell, set, side, onSide, hn, ha]

@[simp] theorem get_setCell [DecidableEq V] (m : Memory V) (array : String) (index v : V)
    (n : Name) : (m.setCell globals array index v).get globals n = m.get globals n := by
  cases hn : isShared globals n <;> cases ha : isShared globals (.var array) <;>
    simp [get, setCell, side, onSide, hn, ha]

theorem cell_setCell_of_ne [DecidableEq V] (m : Memory V) {array a : String} (index v : V)
    (h : a ≠ array) : (m.setCell globals array index v).cell globals a = m.cell globals a := by
  cases hn : isShared globals (.var a) <;> cases ha : isShared globals (.var array) <;>
    simp [cell, setCell, side, onSide, hn, ha, Store.cell_setCell_of_ne _ _ _ h]

end Memory

/-! ### Values -/

section Values

variable (I : Interpretation V) (globals : List String)

def Operand.eval (m : Memory V) : Operand → V
  | .const text => I.const text
  | .name n => m.get globals n
  | .element array index => m.cell globals array (index.eval m)

/-- An operand has the same value in memories that agree on what it reads. -/
theorem Operand.eval_congr {m m' : Memory V} (o : Operand)
    (names : ∀ n ∈ o.names, m.get globals n = m'.get globals n)
    (cells : ∀ array, .var array ∈ o.names → m.cell globals array = m'.cell globals array) :
    o.eval I globals m = o.eval I globals m' := by
  induction o with
  | const text => rfl
  | name n => exact names n (by simp [Operand.names])
  | element array index ih =>
      have inside : index.eval I globals m = index.eval I globals m' :=
        ih (fun n mem => names n (by simp [Operand.names, mem]))
          (fun a mem => cells a (by simp [Operand.names, mem]))
      simp only [Operand.eval, inside, cells array (by simp [Operand.names])]

variable [DecidableEq V] (types : Assoc String Ty)

/-- The memory after a value has been stored in a destination. -/
def Memory.assign (m : Memory V) (v : V) : Operand → Memory V
  | .const _ => m
  | .name (.var x) => m.set globals (.var x) (I.keep (types.get? x) v)
  | .name (.temp t) => m.set globals (.temp t) v
  | .element array index =>
      m.setCell globals array (index.eval I globals m) (I.keepElement (types.get? array) v)

/-- The memory after parameters have received their arguments. -/
def Memory.bind (m : Memory V) (params : List String) (args : List V) : Memory V :=
  (params.zip args).foldl
    (fun m arg => m.set globals (.var arg.1) (I.receive (types.get? arg.1) arg.2)) m

end Values

/-! ### Steps -/

/-- An activation that waits for a call to return. -/
structure Caller (V : Type) where
  pc : Nat
  own : Store V
  /-- Where the result of the call goes. -/
  result : Temp

/-- A call that the outside world answers, with what it sees. -/
structure OutsideCall (V : Type) where
  callee : String
  args : List V
  shared : Store V

structure Config (V : Type) where
  pc : Nat
  memory : Memory V
  /-- The waiting activations, the innermost first. -/
  callers : List (Caller V) := []
  /-- The calls of the outside world so far, oldest first. -/
  calls : List (OutsideCall V) := []

/-- How a unit of code ends. -/
inductive Ending (V : Type) where
  | returned (value : Option V)
  /-- It runs off its end. -/
  | fell
deriving DecidableEq

def Ending.value? : Ending V → Option V
  | returned value => value
  | fell => none

/-- What a run leaves behind. -/
structure Outcome (V : Type) where
  ending : Ending V
  shared : Store V
  calls : List (OutsideCall V)

/-- The parameters of a function, if this is its marker. -/
def Instr.paramsOf? (name : String) : Instr → Option (List String)
  | .function other params => if other = name then some params else none
  | _ => none

/-- Where the body of a function starts, and its parameters; of several, the first one. -/
def findFunction? (name : String) : List Instr → Option (Nat × List String)
  | [] => none
  | i :: rest =>
      match i.paramsOf? name with
      | some params => some (1, params)
      | none => (findFunction? name rest).map fun f => (f.1 + 1, f.2)

/-- A label is found where it stands. -/
theorem getElem?_of_findLabel? {l : Label} {code : List Instr} {k : Nat}
    (h : findLabel? l code = some k) : code[k]? = some (.label l) := by
  induction code generalizing k with
  | nil => contradiction
  | cons i rest ih =>
      unfold findLabel? at h
      split at h
      · rename_i j found
        obtain rfl := Option.some.inj h
        simpa using ih found
      · split at h
        · rename_i here
          obtain rfl := Option.some.inj h
          simp [here]
        · contradiction

/-- The body of a function starts after its marker. -/
theorem getElem?_of_findFunction? {name : String} {code : List Instr} {k : Nat}
    {params : List String} (h : findFunction? name code = some (k, params)) :
    ∃ j, k = j + 1 ∧ code[j]? = some (.function name params) := by
  induction code generalizing k with
  | nil => contradiction
  | cons i rest ih =>
      unfold findFunction? at h
      split at h
      · rename_i params' marker
        obtain ⟨rfl, rfl⟩ := Prod.mk.inj (Option.some.inj h)
        cases i <;> simp_all [Instr.paramsOf?]
      · obtain ⟨⟨k', params'⟩, found, same⟩ := Option.map_eq_some_iff.mp h
        obtain ⟨rfl, rfl⟩ := Prod.mk.inj same
        obtain ⟨j, rfl, at_j⟩ := ih found
        exact ⟨j + 1, rfl, by simpa using at_j⟩

/-- Where a jump to a label goes on. -/
def Code.place (c : Code) (l : Label) : Nat := (findLabel? l c.instrs).getD c.instrs.length

/-- A jump goes to its label or to the end of the code. -/
theorem getElem?_place (c : Code) (l : Label) :
    c.instrs[c.place l]? = some (.label l) ∨ c.instrs[c.place l]? = none := by
  cases found : findLabel? l c.instrs with
  | none => exact .inr (by simp [Code.place, found])
  | some k => exact .inl (by simpa [Code.place, found] using getElem?_of_findLabel? found)

namespace Config

def jump (s : Config V) (pc : Nat) : Config V := { s with pc }

def next (s : Config V) : Config V := s.jump (s.pc + 1)

/-- Ends the running activation: its caller goes on, or the run is over. -/
def leave (I : Interpretation V) (s : Config V) (ending : Ending V) : Config V ⊕ Outcome V :=
  match s.callers with
  | [] => .inr ⟨ending, s.memory.shared, s.calls⟩
  | caller :: rest =>
      let value := ending.value?.getD I.nothing
      .inl { s with
        pc := caller.pc
        memory := ⟨caller.own.set (.temp caller.result) value, s.memory.shared⟩
        callers := rest }

end Config

variable [DecidableEq V] (c : Code) (I : Interpretation V)

/-- Stores a value and goes on. -/
def Config.store (s : Config V) (result : Operand) (v : V) : Config V :=
  { s with pc := s.pc + 1, memory := s.memory.assign I c.globals c.types v result }

/-- Calls a function with the values of its arguments. -/
def Config.call (s : Config V) (callee : String) (args : List V) (result : Temp) : Config V :=
  match findFunction? callee c.instrs with
  | some (start, params) =>
      { s with
        pc := start
        memory := (Memory.mk I.blank s.memory.shared).bind I c.globals c.types params args
        callers := ⟨s.pc + 1, s.memory.own, result⟩ :: s.callers }
  | none =>
      let answer := I.outside callee args s.memory.shared
      { s with
        pc := s.pc + 1
        memory := ⟨s.memory.own.set (.temp result) answer.1, answer.2⟩
        calls := s.calls ++ [⟨callee, args, s.memory.shared⟩] }

/-- Executes an instruction. -/
def Code.exec (s : Config V) : Instr → Config V ⊕ Outcome V
  | .function .. => s.leave I .fell
  | .label _ => .inl s.next
  | .goto target => .inl (s.jump (c.place target))
  | .branch cond target =>
      .inl (if I.isTrue (cond.eval I c.globals s.memory) then s.jump (c.place target) else s.next)
  | .copy source result => .inl (s.store c I result (source.eval I c.globals s.memory))
  | .unary op operand result =>
      .inl (s.store c I result (I.unary op (operand.eval I c.globals s.memory)))
  | .binary op left right result =>
      .inl (s.store c I result
        (I.binary op (left.eval I c.globals s.memory) (right.eval I c.globals s.memory)))
  | .call callee args result =>
      .inl (s.call c I callee (args.map (·.eval I c.globals s.memory)) result)
  | .ret value => s.leave I (.returned (value.map (·.eval I c.globals s.memory)))

/-- One step of the machine. -/
def Code.step (s : Config V) : Config V ⊕ Outcome V :=
  match c.instrs[s.pc]? with
  | none => s.leave I .fell
  | some i => c.exec I s i

variable {c I} in
theorem step_eq_exec {s : Config V} {i : Instr} (at_pc : c.instrs[s.pc]? = some i) :
    c.step I s = c.exec I s i := by
  simp only [Code.step, at_pc]

/-- What a run starts with: the top-level code, or a function with arguments. -/
inductive Entry (V : Type) where
  | top
  | function (name : String) (args : List V)

/-- The configuration that a run starts from. There is nothing to run in a function that is not
defined. -/
def Code.load (shared : Store V) : Entry V → Config V
  | .top => { pc := 0, memory := ⟨I.blank, shared⟩ }
  | .function name args =>
      match findFunction? name c.instrs with
      | some (start, params) =>
          { pc := start
            memory := (Memory.mk I.blank shared).bind I c.globals c.types params args }
      | none => { pc := c.instrs.length, memory := ⟨I.blank, shared⟩ }

/-! ### Computations into temporaries -/

/-- If the instruction computes something, it computes it into a temporary. -/
def Instr.computesTemp : Instr → Prop
  | .unary _ _ result | .binary _ _ _ result => ∃ t, result = .temp t
  | .function .. | .label _ | .goto _ | .branch .. | .copy .. | .call .. | .ret _ => True

/-- All computations go into temporaries. -/
def ComputesTemps (instrs : List Instr) : Prop := ∀ i ∈ instrs, i.computesTemp

end BraceLang.Tac
