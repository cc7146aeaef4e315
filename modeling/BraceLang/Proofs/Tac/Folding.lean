import BraceLang.Proofs.Tac.Machine
import BraceLang.Tac.Fold

/-!
Folding does not change what code does. A pass goes in lock step with the code it folds: both
are always at the same place with the same memory.

What carries the argument is that the facts of a pass are true of the memory (`Facts.Hold`)
wherever the pass uses them: everywhere but at a label or a function marker, where control may
have come from elsewhere and where the facts are dropped.

* **`exec_step`**: where the facts hold, an instruction and its folded form do the same;
* **`Hold.step`**: and the facts that folding goes on with hold after it;
* **`fold_stops_iff`**: so folded code stops with the same outcomes.
-/

namespace BraceLang

namespace Assoc

variable {κ α : Type} [DecidableEq κ]

omit [DecidableEq κ] in
theorem mem_filter {m : Assoc κ α} {keep : κ → α → Bool} {e : κ × α} :
    e ∈ (m.filter keep).entries ↔ e ∈ m.entries ∧ keep e.1 e.2 = true :=
  List.mem_filter

theorem mem_erase {m : Assoc κ α} {k : κ} {e : κ × α} :
    e ∈ (m.erase k).entries ↔ e ∈ m.entries ∧ e.1 ≠ k := by
  simp [erase, mem_filter]

theorem mem_set {m : Assoc κ α} {k : κ} {a : α} {e : κ × α} (h : e ∈ (m.set k a).entries) :
    e ∈ m.entries ∨ e = (k, a) := by
  rcases List.mem_append.mp h with old | new
  · exact .inl (mem_erase.mp old).1
  · exact .inr (List.mem_singleton.mp new)

end Assoc

namespace Tac

variable {V : Type} {I : Interpretation V} {globals : List String}

/-- The interpretation agrees with what folding computes. -/
structure Interpretation.AgreesWithFolding (I : Interpretation V) : Prop where
  unary : ∀ {op a text}, Constant.foldUnary? op a = some text →
    I.unary op (I.const a) = I.const text
  binary : ∀ {op a b text}, Constant.foldBinary? op a b = some text →
    I.binary op (I.const a) (I.const b) = I.const text
  keep : ∀ type text, I.keep type (I.const text) = I.const (convert text type)

/-- The interpretation in which a value is the text it is written with. Nothing is computed that
folding does not compute. -/
def Interpretation.textual : Interpretation String where
  const text := text
  unary op a := (Constant.foldUnary? op a).getD a
  binary op a b := (Constant.foldBinary? op a b).getD a
  isTrue text := text != "0"
  keep type text := convert text type
  keepElement _ text := text
  receive _ text := text
  blank := ⟨fun _ => "", fun _ _ => ""⟩
  nothing := ""
  outside _ _ shared := ("", shared)

theorem Interpretation.agreesWithFolding_textual : textual.AgreesWithFolding where
  unary folded := by simp [textual, folded]
  binary folded := by simp [textual, folded]
  keep _ _ := rfl

/-! ### Computations -/

namespace Computation

/-- The value of a computation. -/
def eval (I : Interpretation V) (globals : List String) (m : Memory V) : Computation → V
  | unary op operand => I.unary op (operand.eval I globals m)
  | binary op left right => I.binary op (left.eval I globals m) (right.eval I globals m)

/-- A computation has the same value if its operands have. -/
theorem eval_congr {m m' : Memory V} (k : Computation)
    (same : ∀ o ∈ k.operands, o.eval I globals m = o.eval I globals m') :
    k.eval I globals m = k.eval I globals m' := by
  cases k with
  | unary op operand => simp only [eval, same operand (by simp [operands])]
  | binary op left right =>
      simp only [eval, same left (by simp [operands]), same right (by simp [operands])]

/-- What is computed from constants is the value. -/
theorem eval_of_value? (agrees : I.AgreesWithFolding) {k : Computation} {text : String}
    (h : k.value? = some text) (m : Memory V) : k.eval I globals m = I.const text := by
  unfold value? at h
  split at h
  · exact agrees.unary h
  · exact agrees.binary h
  · contradiction

end Computation

theorem Operand.eval_set {m : Memory V} {o : Operand} {n : Name} (v : V) (h : o.reads n = false) :
    o.eval I globals (m.set globals n v) = o.eval I globals m := by
  refine o.eval_congr I globals (fun k mem => ?_) (fun a _ => by simp)
  refine Memory.get_set_of_ne globals m v fun same => ?_
  subst same
  simp [Operand.reads, mem] at h

theorem isShared_eq_false {n : Name} (h : ∀ g ∈ globals, n ≠ .var g) :
    isShared globals n = false := by
  cases n with
  | temp t => rfl
  | var x =>
      have absent : x ∉ globals := fun global => h x global rfl
      simpa [isShared] using absent

/-- What the outside world changes does not matter to an operand that reads no globals. -/
theorem Operand.eval_shared {own shared shared' : Store V} {o : Operand}
    (h : ∀ g ∈ globals, o.reads (.var g) = false) :
    o.eval I globals ⟨own, shared⟩ = o.eval I globals ⟨own, shared'⟩ := by
  have notShared : ∀ n ∈ o.names, isShared globals n = false := by
    intro n read
    refine isShared_eq_false fun g global same => ?_
    subst same
    simpa [Operand.reads, read] using h g global
  refine o.eval_congr I globals (fun n mem => ?_) (fun a mem => ?_)
  · simp [Memory.get, Memory.side, notShared n mem]
  · simp [Memory.cell, Memory.side, notShared _ mem]

/-! ### Facts that hold -/

/-- What a pass knows is true of a memory. -/
structure Facts.Hold (I : Interpretation V) (globals : List String) (f : Facts) (m : Memory V) :
    Prop where
  constants : ∀ {n text}, (n, text) ∈ f.constants.entries → m.get globals n = I.const text
  holders : ∀ {k n}, (k, n) ∈ f.holders.entries → k.eval I globals m = m.get globals n

namespace Facts.Hold

variable {f : Facts} {m : Memory V}

theorem empty (m : Memory V) : Hold I globals {} m :=
  ⟨fun h => by simp at h, fun h => by simp at h⟩

theorem substitute (hold : f.Hold I globals m) (o : Operand) :
    (f.substitute o).eval I globals m = o.eval I globals m := by
  induction o with
  | const text => rfl
  | name n =>
      cases known : f.constants.get? n with
      | none => simp [Facts.substitute, known]
      | some text =>
          simpa [Facts.substitute, known, Operand.eval] using
            (hold.constants (Assoc.mem_of_get? known)).symm
  | element array index ih => simp only [Facts.substitute, Operand.eval, ih]

theorem forget (hold : f.Hold I globals m) (n : Name) (v : V) :
    (f.forget n).Hold I globals (m.set globals n v) where
  constants mem := by
    obtain ⟨mem, other⟩ := Assoc.mem_erase.mp mem
    rw [Memory.get_set_of_ne globals m v other]
    exact hold.constants mem
  holders {k h} mem := by
    obtain ⟨mem, keeps⟩ := Assoc.mem_filter.mp mem
    simp only [Bool.and_eq_true, bne_iff_ne, Bool.not_eq_true'] at keeps
    obtain ⟨other, unread⟩ := keeps
    have unread : ∀ o ∈ k.operands, o.reads n = false := by
      simpa [Computation.reads] using unread
    rw [Memory.get_set_of_ne globals m v other,
      k.eval_congr fun o mem => Operand.eval_set v (unread o mem)]
    exact hold.holders mem

theorem forgetElements [DecidableEq V] (hold : f.Hold I globals m) (array : String) (i v : V) :
    (f.forgetElements array).Hold I globals (m.setCell globals array i v) where
  constants mem := by simpa using hold.constants mem
  holders {k h} mem := by
    obtain ⟨mem, keeps⟩ := Assoc.mem_filter.mp mem
    have same : ∀ o ∈ k.operands, o.eval I globals (m.setCell globals array i v) =
        o.eval I globals m := by
      intro o member
      cases o with
      | const text => rfl
      | name n => simp [Operand.eval]
      | element a index =>
          simp only [Computation.readsElement, Bool.not_eq_true', List.any_eq_false] at keeps
          have unread := keeps _ member
          refine Operand.eval_congr I globals _ (fun n _ => by simp) (fun b read => ?_)
          refine Memory.cell_setCell_of_ne globals m i v fun same => ?_
          exact unread (by simpa [Operand.reads, same] using read)
    rw [Memory.get_setCell, k.eval_congr same]
    exact hold.holders mem

end Facts.Hold

/-- What is known after a call says nothing about globals. -/
theorem Facts.mem_constants_forgetGlobals {gs : List String} {f : Facts} {n : Name}
    {text : String} (h : (n, text) ∈ (f.forgetGlobals gs).constants.entries) :
    (n, text) ∈ f.constants.entries ∧ ∀ g ∈ gs, n ≠ .var g := by
  induction gs generalizing f with
  | nil => exact ⟨h, by simp⟩
  | cons g gs ih =>
      obtain ⟨mem, others⟩ := ih h
      obtain ⟨mem, other⟩ := Assoc.mem_erase.mp mem
      exact ⟨mem, by simpa using ⟨other, others⟩⟩

theorem Facts.mem_holders_forgetGlobals {gs : List String} {f : Facts} {k : Computation}
    {n : Name} (h : (k, n) ∈ (f.forgetGlobals gs).holders.entries) :
    (k, n) ∈ f.holders.entries ∧ ∀ g ∈ gs, n ≠ .var g ∧ k.reads (.var g) = false := by
  induction gs generalizing f with
  | nil => exact ⟨h, by simp⟩
  | cons g gs ih =>
      obtain ⟨mem, others⟩ := ih h
      obtain ⟨mem, keeps⟩ := Assoc.mem_filter.mp (Assoc.mem_filter.mp mem).1
      simp only [Bool.and_eq_true, bne_iff_ne, Bool.not_eq_true'] at keeps
      exact ⟨mem, by simpa using ⟨keeps, others⟩⟩

theorem Memory.get_shared {n : Name} (h : ∀ g ∈ globals, n ≠ .var g)
    (own shared shared' : Store V) :
    (Memory.mk own shared).get globals n = (Memory.mk own shared').get globals n := by
  simp [Memory.get, Memory.side, isShared_eq_false h]

namespace Facts.Hold

variable {f : Facts} {m : Memory V}

/-- Facts about globals are forgotten, so the rest holds whatever a call does to them. -/
theorem forgetGlobals {own shared : Store V} (hold : f.Hold I globals ⟨own, shared⟩)
    (shared' : Store V) : (f.forgetGlobals globals).Hold I globals ⟨own, shared'⟩ where
  constants mem := by
    obtain ⟨mem, others⟩ := mem_constants_forgetGlobals mem
    rw [← Memory.get_shared others own shared]
    exact hold.constants mem
  holders {k n} mem := by
    obtain ⟨mem, others⟩ := mem_holders_forgetGlobals mem
    have unread : ∀ o ∈ k.operands, ∀ g ∈ globals, o.reads (.var g) = false := by
      intro o member g global
      have := (others g global).2
      simp only [Computation.reads, List.any_eq_false] at this
      simpa using this o member
    rw [← Memory.get_shared (fun g global => (others g global).1) own shared,
      ← k.eval_congr fun o member => Operand.eval_shared (unread o member)]
    exact hold.holders mem
theorem setConstant (hold : f.Hold I globals m) {n : Name} {text : String}
    (holds : m.get globals n = I.const text) :
    Hold I globals { f with constants := f.constants.set n text } m where
  constants mem := by
    rcases Assoc.mem_set mem with old | new
    · exact hold.constants old
    · obtain ⟨rfl, rfl⟩ := Prod.mk.inj new
      exact holds
  holders mem := hold.holders mem

theorem setHolder (hold : f.Hold I globals m) {k : Computation} {n : Name}
    (holds : k.eval I globals m = m.get globals n) :
    Hold I globals { f with holders := f.holders.set k n } m where
  constants mem := hold.constants mem
  holders mem := by
    rcases Assoc.mem_set mem with old | new
    · exact hold.holders old
    · obtain ⟨rfl, rfl⟩ := Prod.mk.inj new
      exact holds

/-- A temporary that receives the value of a computation holds it, unless the computation read
the temporary. -/
theorem computed (hold : f.Hold I globals m) (k : Computation) (t : Temp) :
    (f.computed k (.temp t)).Hold I globals
      (m.set globals (.temp t) (k.eval I globals m)) := by
  simp only [Facts.computed, Facts.forgetTarget]
  split
  · exact hold.forget _ _
  · rename_i unread
    refine (hold.forget _ _).setHolder ?_
    have unread : ∀ o ∈ k.operands, o.reads (.temp t) = false := by
      simpa [Computation.reads] using unread
    rw [Memory.get_set_self, k.eval_congr fun o mem => Operand.eval_set _ (unread o mem)]

variable [DecidableEq V] {types : Assoc String Ty}

/-- Storing a value that its destination keeps as it is. -/
theorem assigned (hold : f.Hold I globals m) (types : Assoc String Ty) (source result : Operand)
    (settled : ∀ {text x}, source = .const text → result = .var x →
      I.keep (types.get? x) (I.const text) = I.const text) :
    (f.assigned source result).Hold I globals
      (m.assign I globals types (source.eval I globals m) result) := by
  match result with
  | .const _ => cases source <;> exact hold
  | .element array index => cases source <;> exact hold.forgetElements array _ _
  | .temp t =>
      cases source with
      | const text => exact (hold.forget _ _).setConstant (Memory.get_set_self ..)
      | name _ => exact hold.forget _ _
      | element _ _ => exact hold.forget _ _
  | .var x =>
      cases source with
      | const text =>
          refine (hold.forget _ _).setConstant ?_
          rw [Memory.get_set_self]
          exact settled rfl rfl
      | name _ => exact hold.forget _ _
      | element _ _ => exact hold.forget _ _

/-- The index of a destination may be looked up before the store. -/
theorem assign_substituteTarget (hold : f.Hold I globals m) (v : V) (result : Operand) :
    m.assign I globals types v (f.substituteTarget result) =
      m.assign I globals types v result := by
  match result with
  | .const _ | .temp _ | .var _ => rfl
  | .element array index =>
      simp only [Facts.substituteTarget, Memory.assign, hold.substitute index]

end Facts.Hold

/-- A constant may be converted before the store. -/
theorem assign_convertSource [DecidableEq V] (agrees : I.AgreesWithFolding) (m : Memory V)
    (types : Assoc String Ty) (source result : Operand) :
    m.assign I globals types ((convertSource types source result).eval I globals m) result =
      m.assign I globals types (source.eval I globals m) result := by
  unfold convertSource
  split
  · simp only [Memory.assign, Operand.eval, agrees.keep, convert_convert]
  · rfl

namespace Facts.Hold

variable [DecidableEq V] {f : Facts} {m : Memory V} {types : Assoc String Ty}

/-- A copy may be folded before the store. -/
theorem assign_copied (hold : f.Hold I globals m) (agrees : I.AgreesWithFolding)
    (source result : Operand) :
    m.assign I globals types
        ((convertSource types (f.substitute source) result).eval I globals m)
        (f.substituteTarget result) =
      m.assign I globals types (source.eval I globals m) result := by
  rw [hold.assign_substituteTarget, assign_convertSource agrees, hold.substitute]

/-- What folding knows after a copy. -/
theorem copied (hold : f.Hold I globals m) (agrees : I.AgreesWithFolding)
    (source result : Operand) :
    (f.assigned (convertSource types (f.substitute source) result)
        (f.substituteTarget result)).Hold I globals
      (m.assign I globals types (source.eval I globals m) result) := by
  rw [← hold.assign_copied agrees]
  refine hold.assigned _ _ _ fun {text x} constant isVar => ?_
  have target : result = .var x := by
    cases result <;> simp_all [Facts.substituteTarget]
  subst target
  -- The constant has been converted to the type of the variable already.
  cases known : f.substitute source <;> simp only [known, convertSource] at constant
  · obtain rfl := Operand.const.inj constant
    rw [agrees.keep, convert_convert]
  · contradiction
  · contradiction

end Facts.Hold

/-! ### Lock step -/

section LockStep

variable (c : Code)

/-- The code after one folding pass. -/
def Code.folded (c : Code) : Code := { c with instrs := fold c.globals c.types c.instrs }

@[simp] theorem globals_folded : c.folded.globals = c.globals := rfl

@[simp] theorem types_folded : c.folded.types = c.types := rfl

/-- What a pass knows before the instruction at a place. -/
def Code.factsBefore (c : Code) (pc : Nat) : Facts :=
  (c.instrs.take pc).foldl (fun f i => (f.step c.globals c.types i).2) {}

theorem length_foldFrom (globals : List String) (types : Assoc String Ty) (f : Facts)
    (code : List Instr) : (foldFrom globals types f code).length = code.length := by
  induction code generalizing f with
  | nil => rfl
  | cons i rest ih => simp [foldFrom, ih]

theorem getElem?_foldFrom (globals : List String) (types : Assoc String Ty) (f : Facts)
    (code : List Instr) (pc : Nat) :
    (foldFrom globals types f code)[pc]? = code[pc]?.map fun i =>
      (((code.take pc).foldl (fun f i => (f.step globals types i).2) f).step
        globals types i).1 := by
  induction code generalizing f pc with
  | nil => simp [foldFrom]
  | cons i rest ih =>
      cases pc with
      | zero => simp [foldFrom]
      | succ pc => simp [foldFrom, ih]

/-- A computation is made, or a constant or a name is copied instead. -/
theorem Facts.compute_cases (f : Facts) (k : Computation) (result : Operand) :
    (∃ source, (source.isConst = true ∨ source.isName = true) ∧
        (f.compute k result).1 = .copy source result) ∨
      (f.compute k result).1 = k.into result := by
  unfold Facts.compute
  split
  · rename_i text _
    exact .inl ⟨.const text, .inl rfl, rfl⟩
  · split
    · rename_i holder _
      exact .inl ⟨.name holder, .inr rfl, rfl⟩
    · exact .inr rfl

/-- Computing gives neither a label nor a function marker. -/
theorem Facts.compute_fst (f : Facts) (k : Computation) (result : Operand) :
    (∃ source, (f.compute k result).1 = .copy source result) ∨
      (f.compute k result).1 = k.into result := by
  rcases f.compute_cases k result with ⟨source, _, made⟩ | made
  · exact .inl ⟨source, made⟩
  · exact .inr made

theorem Facts.step_eq_label_iff (f : Facts) (globals : List String) (types : Assoc String Ty)
    (i : Instr) (l : Label) : (f.step globals types i).1 = .label l ↔ i = .label l := by
  cases i with
  | unary op operand result =>
      rcases f.compute_fst (.unary op (f.substitute operand)) result with ⟨_, h⟩ | h <;>
        simp [Facts.step, h, Computation.into]
  | binary op left right result =>
      rcases f.compute_fst (.binary op (f.substitute left) (f.substitute right)) result with
        ⟨_, h⟩ | h <;> simp [Facts.step, h, Computation.into]
  | _ => simp [Facts.step, Facts.copied]

theorem findLabel?_foldFrom (globals : List String) (types : Assoc String Ty) (f : Facts)
    (l : Label) (code : List Instr) :
    findLabel? l (foldFrom globals types f code) = findLabel? l code := by
  induction code generalizing f with
  | nil => rfl
  | cons i rest ih => simp only [foldFrom, findLabel?, ih, f.step_eq_label_iff]

theorem Facts.paramsOf?_step (f : Facts) (globals : List String) (types : Assoc String Ty)
    (name : String) (i : Instr) :
    (f.step globals types i).1.paramsOf? name = i.paramsOf? name := by
  cases i with
  | unary op operand result =>
      rcases f.compute_fst (.unary op (f.substitute operand)) result with ⟨_, h⟩ | h <;>
        simp [Facts.step, h, Computation.into, Instr.paramsOf?]
  | binary op left right result =>
      rcases f.compute_fst (.binary op (f.substitute left) (f.substitute right)) result with
        ⟨_, h⟩ | h <;> simp [Facts.step, h, Computation.into, Instr.paramsOf?]
  | _ => rfl

theorem findFunction?_foldFrom (globals : List String) (types : Assoc String Ty) (f : Facts)
    (name : String) (code : List Instr) :
    findFunction? name (foldFrom globals types f code) = findFunction? name code := by
  induction code generalizing f with
  | nil => rfl
  | cons i rest ih => simp only [foldFrom, findFunction?, ih, f.paramsOf?_step]

@[simp] theorem place_folded (l : Label) : c.folded.place l = c.place l := by
  simp [Code.place, Code.folded, fold, findLabel?_foldFrom, length_foldFrom]

@[simp] theorem call_folded (I : Interpretation V) (s : Config V) (callee : String)
    (args : List V) (result : Temp) :
    s.call c.folded I callee args result = s.call c I callee args result := by
  simp only [Config.call, Code.folded, fold, findFunction?_foldFrom]

theorem factsBefore_succ {c : Code} {pc : Nat} {i : Instr} (at_pc : c.instrs[pc]? = some i) :
    c.factsBefore (pc + 1) = ((c.factsBefore pc).step c.globals c.types i).2 := by
  simp [Code.factsBefore, List.take_add_one, at_pc]

variable {c}

/-- Control may come to the instruction from elsewhere. -/
def Instr.isEntry : Instr → Bool
  | .function .. | .label _ => true
  | .goto _ | .branch .. | .copy .. | .unary .. | .binary .. | .call .. | .ret _ => false

/-- The facts that the pass uses at a place are true of the memory. -/
def Code.Trusts (c : Code) (I : Interpretation V) (pc : Nat) (m : Memory V) : Prop :=
  ∀ i, c.instrs[pc]? = some i → i.isEntry = false → (c.factsBefore pc).Hold I c.globals m

/-- The pass may trust its facts where the machine is, and wherever a call returns to. -/
structure Code.Sound (c : Code) (I : Interpretation V) (s : Config V) : Prop where
  here : c.Trusts I s.pc s.memory
  callers : ∀ caller ∈ s.callers, ∀ v shared,
    c.Trusts I caller.pc ⟨caller.own.set (.temp caller.result) v, shared⟩

theorem trusts_succ {pc : Nat} {i : Instr} {m : Memory V} (at_pc : c.instrs[pc]? = some i)
    (hold : ((c.factsBefore pc).step c.globals c.types i).2.Hold I c.globals m) :
    c.Trusts I (pc + 1) m := by
  intro j _ _
  rw [factsBefore_succ at_pc]
  exact hold

theorem trusts_start {name : String} {start : Nat} {params : List String}
    (found : findFunction? name c.instrs = some (start, params)) (m : Memory V) :
    c.Trusts I start m := by
  obtain ⟨marker, rfl, at_marker⟩ := getElem?_of_findFunction? found
  exact trusts_succ at_marker (Facts.Hold.empty m)

theorem trusts_place (l : Label) (m : Memory V) : c.Trusts I (c.place l) m := by
  intro i at_place inside
  rcases getElem?_place c l with label | outside
  · obtain rfl := Option.some.inj (at_place.symm.trans label)
    contradiction
  · simp [outside] at at_place

theorem trusts_length (m : Memory V) : c.Trusts I c.instrs.length m := by
  intro i at_end
  simp at at_end

theorem Code.Sound.leave {s s' : Config V} {ending : Ending V} (sound : c.Sound I s)
    (left : s.leave I ending = .inl s') : c.Sound I s' := by
  unfold Config.leave at left
  split at left
  · contradiction
  · rename_i caller rest waiting
    obtain rfl := Sum.inl.inj left
    exact ⟨sound.callers caller (by simp [waiting]) _ _,
      fun other mem => sound.callers other (by simp [waiting, mem])⟩

theorem Code.Sound.load (shared : Store V) (entry : Entry V) :
    c.Sound I (c.load I shared entry) := by
  cases entry with
  | top => exact ⟨fun _ _ _ => Facts.Hold.empty _, by simp [Code.load]⟩
  | function name args =>
      simp only [Code.load]
      split
      · rename_i start params found
        exact ⟨trusts_start found _, by simp⟩
      · exact ⟨trusts_length _, by simp⟩

theorem load_folded (shared : Store V) (entry : Entry V) :
    c.folded.load I shared entry = c.load I shared entry := by
  cases entry with
  | top => rfl
  | function name args =>
      simp only [Code.load, Code.folded, fold, findFunction?_foldFrom, length_foldFrom]

variable [DecidableEq V] {s : Config V}

/-- Folding a computation into a temporary. -/
theorem exec_compute (agrees : I.AgreesWithFolding) {f : Facts}
    (hold : f.Hold I c.globals s.memory) (k : Computation) (t : Temp) :
    c.folded.exec I s (f.compute k (.temp t)).1 =
        .inl (s.store c I (.temp t) (k.eval I c.globals s.memory)) ∧
      (f.compute k (.temp t)).2.Hold I c.globals
        (s.memory.set c.globals (.temp t) (k.eval I c.globals s.memory)) := by
  unfold Facts.compute
  split
  · rename_i text folded
    rw [k.eval_of_value? agrees folded]
    exact ⟨rfl, hold.assigned c.types (.const text) (.temp t) (by simp)⟩
  · split
    · rename_i holder known
      rw [hold.holders (Assoc.mem_of_get? known)]
      exact ⟨rfl, hold.assigned c.types (.name holder) (.temp t) (by simp)⟩
    · exact ⟨by cases k <;> rfl, hold.computed k t⟩

/-- Folding a copy. -/
theorem exec_copied (agrees : I.AgreesWithFolding) {f : Facts}
    (hold : f.Hold I c.globals s.memory) (source result : Operand) :
    c.folded.exec I s
        (.copy (convertSource c.types (f.substitute source) result) (f.substituteTarget result)) =
      .inl (s.store c I result (source.eval I c.globals s.memory)) := by
  simp only [Code.exec, Config.store, globals_folded, types_folded, hold.assign_copied agrees]

/-- **Lock step.** Where the facts hold, an instruction and its folded form do the same. -/
theorem exec_step (agrees : I.AgreesWithFolding) {f : Facts}
    (hold : f.Hold I c.globals s.memory) {i : Instr} (temps : i.computesTemp) :
    c.folded.exec I s (f.step c.globals c.types i).1 = c.exec I s i := by
  cases i with
  | function _ _ => rfl
  | label _ => rfl
  | goto target => simp [Facts.step, Code.exec]
  | branch cond target => simp [Facts.step, Code.exec, hold.substitute]
  | copy source result => exact exec_copied agrees hold source result
  | unary op operand result =>
      obtain ⟨t, rfl⟩ := temps
      rw [Facts.step, (exec_compute agrees hold _ t).1]
      simp only [Computation.eval, hold.substitute, Code.exec]
  | binary op left right result =>
      obtain ⟨t, rfl⟩ := temps
      rw [Facts.step, (exec_compute agrees hold _ t).1]
      simp only [Computation.eval, hold.substitute, Code.exec]
  | call callee args result =>
      have values : (args.map f.substitute).map (·.eval I c.globals s.memory) =
          args.map (·.eval I c.globals s.memory) := by
        simp [hold.substitute]
      simp only [Facts.step, Code.exec, globals_folded, call_folded, values]
  | ret value => cases value <;> simp [Facts.step, Code.exec, hold.substitute]

/-- A pass and its code take the same step. -/
theorem step_folded (agrees : I.AgreesWithFolding) (temps : ComputesTemps c.instrs)
    (sound : c.Sound I s) : c.folded.step I s = c.step I s := by
  simp only [Code.step, Code.folded, fold, getElem?_foldFrom]
  cases at_pc : c.instrs[s.pc]? with
  | none => rfl
  | some i =>
      cases entry : i.isEntry with
      | true => cases i <;> simp [Instr.isEntry] at entry <;> rfl
      | false =>
          exact exec_step agrees (sound.here i at_pc entry) (temps i (List.mem_of_getElem? at_pc))

/-- What a pass trusts stays true from step to step. -/
theorem Code.Sound.step (agrees : I.AgreesWithFolding) (temps : ComputesTemps c.instrs)
    (sound : c.Sound I s) {s' : Config V} (stepped : c.step I s = .inl s') : c.Sound I s' := by
  unfold Code.step at stepped
  split at stepped
  · exact sound.leave stepped
  · rename_i i at_pc
    have hold := sound.here i at_pc
    have temps := temps i (List.mem_of_getElem? at_pc)
    cases i with
    | function _ _ => exact sound.leave stepped
    | ret value => exact sound.leave stepped
    | label _ =>
        obtain rfl := Sum.inl.inj stepped
        exact ⟨trusts_succ at_pc (Facts.Hold.empty _), sound.callers⟩
    | goto target =>
        obtain rfl := Sum.inl.inj stepped
        exact ⟨trusts_place target _, sound.callers⟩
    | branch cond target =>
        obtain rfl := Sum.inl.inj stepped
        split
        · exact ⟨trusts_place target _, sound.callers⟩
        · exact ⟨trusts_succ at_pc (Facts.Hold.empty _), sound.callers⟩
    | copy source result =>
        obtain rfl := Sum.inl.inj stepped
        exact ⟨trusts_succ at_pc ((hold rfl).copied agrees source result), sound.callers⟩
    | unary op operand result =>
        obtain ⟨t, rfl⟩ := temps
        obtain rfl := Sum.inl.inj stepped
        have known := (exec_compute agrees (hold rfl)
          (.unary op ((c.factsBefore s.pc).substitute operand)) t).2
        simp only [Computation.eval, (hold rfl).substitute] at known
        exact ⟨trusts_succ at_pc known, sound.callers⟩
    | binary op left right result =>
        obtain ⟨t, rfl⟩ := temps
        obtain rfl := Sum.inl.inj stepped
        have known := (exec_compute agrees (hold rfl)
          (.binary op ((c.factsBefore s.pc).substitute left)
            ((c.factsBefore s.pc).substitute right)) t).2
        simp only [Computation.eval, (hold rfl).substitute] at known
        exact ⟨trusts_succ at_pc known, sound.callers⟩
    | call callee args result =>
        obtain rfl := Sum.inl.inj stepped
        have returns : ∀ v shared,
            c.Trusts I (s.pc + 1) ⟨s.memory.own.set (.temp result) v, shared⟩ := fun v shared =>
          trusts_succ at_pc (((hold rfl).forget (.temp result) v).forgetGlobals shared)
        unfold Config.call
        split
        · rename_i start params found
          refine ⟨trusts_start found _, fun caller waiting => ?_⟩
          rcases List.mem_cons.mp waiting with rfl | waiting
          · exact returns
          · exact sound.callers caller waiting
        · exact ⟨returns _ _, sound.callers⟩

/-- The code and a pass over it stay at one configuration. -/
theorem folding_simulation (agrees : I.AgreesWithFolding) (temps : ComputesTemps c.instrs) :
    Simulation (c.step I) (c.folded.step I) (fun s t => s = t ∧ c.Sound I s) (fun _ => 0) where
  progress := by
    rintro s _ ⟨rfl, sound⟩
    rw [step_folded agrees temps sound]
    cases stepped : c.step I s with
    | inl s' => exact .inr (.inl ⟨s', s', rfl, rfl, rfl, sound.step agrees temps stepped⟩)
    | inr o => exact .inr (.inr ⟨o, rfl, rfl⟩)

/-- **Folding keeps what code does.** -/
theorem fold_stops_iff (agrees : I.AgreesWithFolding) (temps : ComputesTemps c.instrs)
    (shared : Store V) (entry : Entry V) (o : Outcome V) :
    Stops (c.step I) (c.load I shared entry) o ↔
      Stops (c.folded.step I) (c.folded.load I shared entry) o := by
  rw [load_folded]
  exact (folding_simulation agrees temps).stops_iff ⟨rfl, .load shared entry⟩ o

/-- Folded computations still go into temporaries. -/
theorem computesTemps_foldFrom {globals : List String} {types : Assoc String Ty} {f : Facts}
    {code : List Instr} (temps : ComputesTemps code) :
    ComputesTemps (foldFrom globals types f code) := by
  induction code generalizing f with
  | nil => exact temps
  | cons i rest ih =>
      have first := temps i (by simp)
      have others : ComputesTemps rest := fun j mem => temps j (by simp [mem])
      intro j mem
      rcases List.mem_cons.mp mem with rfl | mem
      · cases i with
        | unary op operand result =>
            obtain ⟨t, rfl⟩ := first
            rcases f.compute_fst (.unary op (f.substitute operand)) (.temp t) with ⟨_, h⟩ | h <;>
              simp [h, Computation.into, Instr.computesTemp]
        | binary op left right result =>
            obtain ⟨t, rfl⟩ := first
            rcases f.compute_fst (.binary op (f.substitute left) (f.substitute right)) (.temp t)
              with ⟨_, h⟩ | h <;> simp [h, Computation.into, Instr.computesTemp]
        | _ => simp [Facts.copied, Instr.computesTemp]
      · exact ih others j mem

end LockStep

end Tac

end BraceLang
