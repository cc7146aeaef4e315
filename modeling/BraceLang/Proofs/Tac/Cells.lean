import BraceLang.Proofs.Tac.LockStep
import Mathlib.Logic.Relation

/-!
A memory in which the bare name of an array and its first element are one piece of storage, as they
are once variables have addresses.

A step is described by its `Effect`: the value that is stored and where, the value that decides a
branch, the arguments of a call, the returned value. Two instructions with one effect go on alike
(`Code.Follows`), however they come to their values.

* **`HoldIn.forget`**: what is known without the name of a destination goes on to hold when the
  destination receives a value, be it a variable, a temporary or any element;
* **`effect_step`**: where the facts hold, an instruction and its folded form have one effect.
-/

namespace BraceLang.Tac

variable {V : Type}

/-! ### Cells -/

/-- The values of temporaries and of the cells of variables. The bare name of a variable stands
for its first cell, whether it is an array or not. -/
structure Cells (V : Type) where
  temp : Temp → V
  cell : String → V → V

/-- Where a value can be stored. -/
inductive Destination (V : Type) where
  | temp (t : Temp)
  | cell (array : String) (index : V)
deriving DecidableEq

/-- The name that a destination belongs to. -/
def Destination.name : Destination V → Name
  | temp t => .temp t
  | cell array _ => .var array

/-- The memories agree on all that belongs to a name. -/
def Cells.SameAt (m m' : Cells V) : Name → Prop
  | .temp t => m'.temp t = m.temp t
  | .var array => m'.cell array = m.cell array

def Cells.write [DecidableEq V] (m : Cells V) (v : V) : Destination V → Cells V
  | .temp t => { m with temp := fun k => if k = t then v else m.temp k }
  | .cell array index =>
      { m with cell := fun a i => if a = array ∧ i = index then v else m.cell a i }

theorem Cells.sameAt_write [DecidableEq V] (m : Cells V) (v : V) {dest : Destination V} {n : Name}
    (other : n ≠ dest.name) : m.SameAt (m.write v dest) n := by
  cases n <;> cases dest <;> simp_all [SameAt, write, Destination.name]

section Values

variable (I : Interpretation V) (types : Assoc String Ty) (m : Cells V)

def Operand.valueIn : Operand → V
  | .const text => I.const text
  | .var x => m.cell x (I.const "0")
  | .temp t => m.temp t
  | .element array index => m.cell array (index.valueIn)

def Computation.valueIn : Computation → V
  | .unary op operand => I.unary op (operand.valueIn I m)
  | .binary op left right => I.binary op (left.valueIn I m) (right.valueIn I m)

/-- The cells as a memory that keeps scalars apart from cells: each has the value that its name
stands for. -/
def Cells.toMemory : Memory V :=
  let store : Store V := ⟨fun n => (Operand.name n).valueIn I m, m.cell⟩
  ⟨store, store⟩

@[simp] theorem get_toMemory (globals : List String) (n : Name) :
    (m.toMemory I).get globals n = (Operand.name n).valueIn I m := by
  simp [Memory.get, Memory.side, Cells.toMemory]

@[simp] theorem cell_toMemory (globals : List String) (array : String) :
    (m.toMemory I).cell globals array = m.cell array := by
  simp [Memory.cell, Memory.side, Cells.toMemory]

@[simp] theorem Operand.eval_toMemory (globals : List String) (o : Operand) :
    o.eval I globals (m.toMemory I) = o.valueIn I m := by
  induction o with
  | const text => rfl
  | name n => exact get_toMemory I m globals n
  | element array index ih => simp only [Operand.eval, Operand.valueIn, ih, cell_toMemory]

@[simp] theorem Computation.eval_toMemory (globals : List String) (k : Computation) :
    k.eval I globals (m.toMemory I) = k.valueIn I m := by
  cases k <;> simp [eval, valueIn]

/-- The destination that a name stands for. -/
def Name.destination : Name → Destination V
  | .var x => .cell x (I.const "0")
  | .temp t => .temp t

/-- The destination that an operand stands for. -/
def Operand.destination? : Operand → Option (Destination V)
  | .const _ => none
  | .name n => some (n.destination I)
  | .element array index => some (.cell array (index.valueIn I m))

/-- What a destination keeps of a value. -/
def Operand.keeps (v : V) : Operand → V
  | .const _ | .temp _ => v
  | .var x => I.keep (types.get? x) v
  | .element array _ => I.keepElement (types.get? array) v

@[simp] theorem Name.name_destination (n : Name) : (n.destination I).name = n := by
  cases n <;> rfl

@[simp] theorem valueIn_write_destination [DecidableEq V] (n : Name) (v : V) :
    (Operand.name n).valueIn I (m.write v (n.destination I)) = v := by
  cases n <;> simp [Operand.valueIn, Cells.write, Name.destination]

end Values

/-! ### Effects -/

/-- What an instruction comes to. -/
inductive Effect (V : Type) where
  | nothing
  | store (dest : Destination V) (value : V)
  | goto (target : Label)
  | branch (value : V) (target : Label)
  | call (callee : String) (args : List V) (result : Temp)
  | ret (value : Option V)
deriving DecidableEq

section Effects

variable (I : Interpretation V) (types : Assoc String Ty) (m : Cells V)

/-- The effect of storing a value in a destination. -/
def Operand.receives (v : V) (result : Operand) : Effect V :=
  match result.destination? I m with
  | some dest => .store dest (result.keeps I types v)
  | none => .nothing

def Instr.effect : Instr → Effect V
  | .function .. | .label _ => .nothing
  | .goto target => .goto target
  | .branch cond target => .branch (cond.valueIn I m) target
  | .copy source result => result.receives I types m (source.valueIn I m)
  | .unary op operand result => result.receives I types m (I.unary op (operand.valueIn I m))
  | .binary op left right result =>
      result.receives I types m (I.binary op (left.valueIn I m) (right.valueIn I m))
  | .call callee args result => .call callee (args.map (·.valueIn I m)) result
  | .ret value => .ret (value.map (·.valueIn I m))

end Effects

section

variable {I : Interpretation V} {types : Assoc String Ty} {m : Cells V} {i : Instr}

theorem branch_of_effect {v : V} {l : Label} (branches : i.effect I types m = .branch v l) :
    ∃ cond, i = .branch cond l := by
  cases i with
  | branch cond target =>
      obtain ⟨-, rfl⟩ := Effect.branch.inj branches
      exact ⟨cond, rfl⟩
  | copy _ result => cases result <;> contradiction
  | unary _ _ result => cases result <;> contradiction
  | binary _ _ _ result => cases result <;> contradiction
  | _ => contradiction

theorem call_of_effect {callee : String} {args : List V} {result : Temp}
    (calls : i.effect I types m = .call callee args result) :
    ∃ operands, i = .call callee operands result := by
  cases i with
  | call name operands t =>
      obtain ⟨rfl, -, rfl⟩ := Effect.call.inj calls
      exact ⟨operands, rfl⟩
  | copy _ result => cases result <;> contradiction
  | unary _ _ result => cases result <;> contradiction
  | binary _ _ _ result => cases result <;> contradiction
  | _ => contradiction

/-- A label has no effect, and neither has a copy to a constant. -/
theorem label_or_copy_of_nothing (temps : i.computesTemp)
    (notMarker : ∀ name params, i ≠ .function name params)
    (nothing : i.effect I types m = .nothing) :
    (∃ l, i = .label l) ∨ ∃ source text, i = .copy source (.const text) := by
  cases i with
  | function name params => exact absurd rfl (notMarker name params)
  | label l => exact .inl ⟨l, rfl⟩
  | copy source result =>
      cases result with
      | const text => exact .inr ⟨source, text, rfl⟩
      | _ => contradiction
  | unary op operand result =>
      obtain ⟨t, rfl⟩ := temps
      contradiction
  | binary op left right result =>
      obtain ⟨t, rfl⟩ := temps
      contradiction
  | _ => contradiction

end

/-- Where an activation stands, and what is in memory then. -/
structure Standing (V : Type) where
  pc : Nat
  memory : Cells V

/-- An activation takes a step. A call gives a value to its result and may leave anything in the
globals. -/
inductive Code.Follows [DecidableEq V] (c : Code) (I : Interpretation V) :
    Standing V → Standing V → Prop where
  | falls {s : Standing V} {i : Instr} : c.instrs[s.pc]? = some i →
      (∀ name params, i ≠ .function name params) → i.effect I c.types s.memory = .nothing →
      Follows c I s ⟨s.pc + 1, s.memory⟩
  | stores {s : Standing V} {i : Instr} {dest : Destination V} {v : V} : c.instrs[s.pc]? = some i →
      i.effect I c.types s.memory = .store dest v →
      Follows c I s ⟨s.pc + 1, s.memory.write v dest⟩
  | jumps {s : Standing V} {i : Instr} {l : Label} : c.instrs[s.pc]? = some i →
      i.effect I c.types s.memory = .goto l → Follows c I s ⟨c.place l, s.memory⟩
  | taken {s : Standing V} {i : Instr} {v : V} {l : Label} : c.instrs[s.pc]? = some i →
      i.effect I c.types s.memory = .branch v l → I.isTrue v = true →
      Follows c I s ⟨c.place l, s.memory⟩
  | passed {s : Standing V} {i : Instr} {v : V} {l : Label} : c.instrs[s.pc]? = some i →
      i.effect I c.types s.memory = .branch v l → I.isTrue v = false →
      Follows c I s ⟨s.pc + 1, s.memory⟩
  | returns {s : Standing V} {i : Instr} {callee : String} {args : List V} {result : Temp}
      {m : Cells V} : c.instrs[s.pc]? = some i →
      i.effect I c.types s.memory = .call callee args result →
      (∀ n, n ≠ .temp result → isShared c.globals n = false → s.memory.SameAt m n) →
      Follows c I s ⟨s.pc + 1, m⟩

/-- An activation comes from one place to another. -/
def Code.ComesTo [DecidableEq V] (c : Code) (I : Interpretation V) :
    Standing V → Standing V → Prop :=
  Relation.ReflTransGen (c.Follows I)

/-! ### Facts that hold -/

section Holding

variable {I : Interpretation V} {m m' : Cells V}

/-- What belongs to the names that an operand reads decides its value. -/
theorem Operand.valueIn_congr {o : Operand} (same : ∀ n ∈ o.names, m.SameAt m' n) :
    o.valueIn I m' = o.valueIn I m := by
  induction o with
  | const text => rfl
  | name n =>
      have same := same n (by simp [Operand.names])
      cases n with
      | var x => exact congrFun same _
      | temp t => exact same
  | element array index ih =>
      have cells : m'.cell array = m.cell array := same (.var array) (by simp [Operand.names])
      have inside := ih fun n read => same n (by simp [Operand.names, read])
      simp only [Operand.valueIn, cells, inside]

theorem Computation.valueIn_congr {k : Computation}
    (same : ∀ o ∈ k.operands, ∀ n ∈ o.names, m.SameAt m' n) :
    k.valueIn I m' = k.valueIn I m := by
  rw [← eval_toMemory I m [], ← eval_toMemory I m' []]
  refine k.eval_congr fun o member => ?_
  simpa using Operand.valueIn_congr (same o member)

/-- What is computed from constants is the value. -/
theorem Computation.valueIn_of_value? (agrees : I.AgreesWithFolding) {k : Computation}
    {text : String} (folded : k.value? = some text) (m : Cells V) :
    k.valueIn I m = I.const text := by
  rw [← eval_toMemory I m [], k.eval_of_value? agrees folded]

/-- The names that are read for a computation differ from one that takes no part in it. -/
theorem Computation.ne_of_unread {k : Computation} {n : Name} (unread : k.reads n = false) :
    ∀ o ∈ k.operands, ∀ j ∈ o.names, j ≠ n := by
  rintro o member j read rfl
  simp only [reads, List.any_eq_false] at unread
  exact unread o member (by simpa [Operand.reads] using read)

/-- What a pass knows is true of the cells. -/
abbrev Facts.HoldIn (I : Interpretation V) (f : Facts) (m : Cells V) : Prop :=
  f.Hold I [] (m.toMemory I)

namespace Facts.HoldIn

variable {f f' : Facts}

/-- Facts go on to hold as long as nothing has changed that they speak of. -/
theorem unchanged (hold : f.HoldIn I m)
    (constants : ∀ n text, (n, text) ∈ f'.constants.entries →
      (n, text) ∈ f.constants.entries ∧ m.SameAt m' n)
    (holders : ∀ k n, (k, n) ∈ f'.holders.entries → (k, n) ∈ f.holders.entries ∧
      m.SameAt m' n ∧ ∀ o ∈ k.operands, ∀ n ∈ o.names, m.SameAt m' n) :
    f'.HoldIn I m' := by
  have name : ∀ n, m.SameAt m' n →
      (m'.toMemory I).get [] n = (m.toMemory I).get [] n := by
    intro n same
    simpa using Operand.valueIn_congr (o := .name n) (by simpa [Operand.names] using same)
  constructor
  · intro n text known
    obtain ⟨known, same⟩ := constants n text known
    rw [name n same]
    exact hold.constants known
  · intro k n known
    obtain ⟨known, same, unread⟩ := holders k n known
    rw [name n same, Computation.eval_toMemory, Computation.valueIn_congr unread,
      ← Computation.eval_toMemory I m []]
    exact hold.holders known

/-- A name that holds the value of a computation. -/
theorem holder (hold : f.HoldIn I m) {k : Computation} {n : Name}
    (known : f.holders.get? k = some n) : k.valueIn I m = (Operand.name n).valueIn I m := by
  simpa using hold.holders (Assoc.mem_of_get? known)

theorem substitute (hold : f.HoldIn I m) (o : Operand) :
    (f.substitute o).valueIn I m = o.valueIn I m := by
  simpa only [Operand.eval_toMemory] using Hold.substitute hold o

/-- A destination receives a value, and what is known about its name is dropped. -/
theorem forget [DecidableEq V] (hold : f.HoldIn I m) (dest : Destination V) (v : V) :
    (f.forget dest.name).HoldIn I (m.write v dest) := by
  refine hold.unchanged (fun n text known => ?_) fun k n known => ?_
  · obtain ⟨known, other⟩ := Assoc.mem_erase.mp known
    exact ⟨known, m.sameAt_write v other⟩
  · obtain ⟨known, keeps⟩ := Assoc.mem_filter.mp known
    simp only [Bool.and_eq_true, bne_iff_ne, Bool.not_eq_true'] at keeps
    obtain ⟨other, unread⟩ := keeps
    exact ⟨known, m.sameAt_write v other, fun o member name read =>
      m.sameAt_write v (Computation.ne_of_unread unread o member name read)⟩

/-- A store into an element, if what is known about the bare name is dropped too. -/
theorem forgetElements [DecidableEq V] (hold : f.HoldIn I m) (array : String) (index v : V) :
    ((f.forgetElements array).forget (.var array)).HoldIn I (m.write v (.cell array index)) := by
  have less : (f.forgetElements array).HoldIn I m :=
    ⟨hold.constants, fun known => hold.holders (Assoc.mem_filter.mp known).1⟩
  exact less.forget (.cell array index) v

/-- A call returns. -/
theorem forgetGlobals {globals : List String} {result : Temp} (hold : f.HoldIn I m)
    (same : ∀ n, n ≠ .temp result → isShared globals n = false → m.SameAt m' n) :
    ((f.forget (.temp result)).forgetGlobals globals).HoldIn I m' := by
  refine hold.unchanged (fun n text known => ?_) fun k n known => ?_
  · obtain ⟨known, others⟩ := Facts.mem_constants_forgetGlobals known
    obtain ⟨known, other⟩ := Assoc.mem_erase.mp known
    exact ⟨known, same n other (isShared_eq_false others)⟩
  · obtain ⟨known, others⟩ := Facts.mem_holders_forgetGlobals known
    obtain ⟨known, keeps⟩ := Assoc.mem_filter.mp known
    simp only [Bool.and_eq_true, bne_iff_ne, Bool.not_eq_true'] at keeps
    obtain ⟨other, unread⟩ := keeps
    refine ⟨known, same n other (isShared_eq_false fun g global => (others g global).1), ?_⟩
    exact fun o member name read => same name (Computation.ne_of_unread unread o member name read)
      (isShared_eq_false fun g global =>
        Computation.ne_of_unread (others g global).2 o member name read)

/-- A name receives a value. If it comes from a constant, that is the constant as the name keeps
it. -/
theorem assigned [DecidableEq V] (hold : f.HoldIn I m) (n : Name) (source : Operand) (v : V)
    (settled : ∀ text, source = .const text → v = I.const text) :
    (f.assigned source (.name n)).HoldIn I (m.write v (n.destination I)) := by
  have forgot := hold.forget (n.destination I) v
  rw [Name.name_destination] at forgot
  cases source with
  | const text =>
      refine forgot.setConstant ?_
      rw [get_toMemory, valueIn_write_destination, settled text rfl]
  | name _ => exact forgot
  | element _ _ => exact forgot

/-- A temporary that receives the value of a computation holds it, unless the computation read
the temporary. -/
theorem computed [DecidableEq V] (hold : f.HoldIn I m) (k : Computation) (t : Temp) :
    (f.computed k (.temp t)).HoldIn I (m.write (k.valueIn I m) (.temp t)) := by
  have forgot : (f.forget (.temp t)).HoldIn I (m.write (k.valueIn I m) (.temp t)) :=
    hold.forget (.temp t) _
  simp only [Facts.computed, Facts.forgetTarget]
  split
  · exact forgot
  · rename_i unread
    refine forgot.setHolder ?_
    have unread : k.reads (.temp t) = false := by simpa using unread
    have same : ∀ n, n ≠ .temp t → m.SameAt (m.write (k.valueIn I m) (.temp t)) n :=
      fun n other => m.sameAt_write _ other
    rw [Computation.eval_toMemory, get_toMemory, Computation.valueIn_congr fun o member n read =>
      same n (Computation.ne_of_unread unread o member n read)]
    exact (valueIn_write_destination I m (.temp t) _).symm

theorem compute [DecidableEq V] (hold : f.HoldIn I m) (agrees : I.AgreesWithFolding)
    (k : Computation) (t : Temp) :
    (f.compute k (.temp t)).2.HoldIn I (m.write (k.valueIn I m) (.temp t)) := by
  unfold Facts.compute
  split
  · rename_i text folded
    refine hold.assigned (.temp t) (.const text) _ fun other same => ?_
    rw [k.valueIn_of_value? agrees folded, Operand.const.inj same]
  · split
    · rename_i holder _
      exact hold.assigned (.temp t) (.name holder) _ (by simp)
    · exact hold.computed k t

end Facts.HoldIn

end Holding

/-! ### What folding keeps -/

section Keeping

variable {I : Interpretation V} {f : Facts} {m : Cells V} {globals : List String}
  {types : Assoc String Ty}

theorem receives_substituteTarget (hold : f.HoldIn I m) (v : V) (result : Operand) :
    (f.substituteTarget result).receives I types m v = result.receives I types m v := by
  match result with
  | .const _ | .temp _ | .var _ => rfl
  | .element array index =>
      simp only [Facts.substituteTarget, Operand.receives, Operand.destination?, Operand.keeps,
        hold.substitute index]

/-- A constant may be converted before it is stored. -/
theorem receives_convertSource (agrees : I.AgreesWithFolding) (source result : Operand) :
    result.receives I types m ((convertSource types source result).valueIn I m) =
      result.receives I types m (source.valueIn I m) := by
  unfold convertSource
  split
  · simp only [Operand.receives, Operand.destination?, Operand.keeps, Operand.valueIn, agrees.keep,
      convert_convert]
  · rfl

/-- A computation that is made, looked up or replaced by its constant gives one value. -/
theorem effect_compute (agrees : I.AgreesWithFolding) (hold : f.HoldIn I m) (k : Computation)
    (result : Operand) :
    (f.compute k result).1.effect I types m = result.receives I types m (k.valueIn I m) := by
  unfold Facts.compute
  split
  · rename_i text folded
    rw [k.valueIn_of_value? agrees folded]
    rfl
  · split
    · rename_i holder known
      rw [hold.holder known]
      rfl
    · cases k <;> rfl

/-- **Where the facts hold, folding keeps the effect of an instruction.** -/
theorem effect_step (agrees : I.AgreesWithFolding) (hold : f.HoldIn I m) (i : Instr) :
    (f.step globals types i).1.effect I types m = i.effect I types m := by
  cases i with
  | function _ _ => rfl
  | label _ => rfl
  | goto _ => rfl
  | branch cond target => simp only [Facts.step, Instr.effect, hold.substitute]
  | copy source result =>
      simp only [Facts.step, Facts.copied, Instr.effect]
      rw [receives_substituteTarget hold, receives_convertSource agrees, hold.substitute]
  | unary op operand result =>
      rw [Facts.step, effect_compute agrees hold]
      simp only [Instr.effect, Computation.valueIn, hold.substitute]
  | binary op left right result =>
      rw [Facts.step, effect_compute agrees hold]
      simp only [Instr.effect, Computation.valueIn, hold.substitute]
  | call callee args result => simp [Facts.step, Instr.effect, hold.substitute]
  | ret value => cases value <;> simp [Facts.step, Instr.effect, hold.substitute]

end Keeping

end BraceLang.Tac
