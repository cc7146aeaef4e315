import BraceLang.Proofs.Check.Walk
import BraceLang.Proofs.Tac.Globals
import Mathlib.Data.List.Infix

/-!
Where variables are used. Checking and lowering go through a program in the same order but keep
scopes of their own: one has symbols in them, the other has the names of the code. Here both go
through a program at once, with a record of the declarations that are in force: a declaration
enters the innermost scope of the record, with the name that lowering gives to it there, and what
is entered in a block is gone behind the block.

Each use of a variable in the tree is noted with the stage that it is come to in, and with the
instruction that its operand goes into.

**Main results.** `occurrences_uses`: no use in the tree is left out. `lowered_uses`: the
instruction of each of them, with its operand in it, is in the code of the program.
-/

namespace BraceLang

/-! ### The uses of a tree -/

/-- A use of a variable, as it stands in a tree. -/
inductive Occurrence where
  /-- A variable is read. -/
  | reference (pos : Position) (name : String)
  /-- An element of an array is read. -/
  | element (pos : Position) (array : String) (index : Expr)
  /-- A variable or an element is assigned to. -/
  | target (target : Located String) (index : Option Expr) (value : Expr)

def Occurrence.name : Occurrence → String
  | .reference _ name => name
  | .element _ array _ => array
  | .target assigned _ _ => assigned.val

mutual

/-- The variables and elements that an expression reads. -/
def Expr.occurrences : Expr → List Occurrence
  | .literal .. => []
  | .var pos name => [.reference pos name]
  | .element pos array index => index.occurrences ++ [.element pos array index]
  | .unary _ _ operand => operand.occurrences
  | .binary _ _ left right => left.occurrences ++ right.occurrences
  | .call _ _ args => Expr.occurrencesIn args

def Expr.occurrencesIn : List Expr → List Occurrence
  | [] => []
  | arg :: args => arg.occurrences ++ Expr.occurrencesIn args

end

namespace Stmt

mutual

/-- The uses of variables in a statement, those in bodies of functions included. -/
def occurrences : Stmt → List Occurrence
  | .declare _ d => d.init.elim [] Expr.occurrences
  | .assign _ target index value =>
      index.elim [] Expr.occurrences ++ value.occurrences ++ [.target target index value]
  | .call _ _ args => Expr.occurrencesIn args
  | .define _ _ body | .block _ body => occurrencesIn body
  | .ifThen cond _ body | .whileLoop cond _ body => cond.occurrences ++ occurrencesIn body
  | .ifElse cond _ body _ elseBody =>
      cond.occurrences ++ occurrencesIn body ++ occurrencesIn elseBody
  | .forLoop init cond update _ body =>
      occurrencesOf init ++ (cond.occurrences ++ occurrencesIn body ++ occurrencesOf update)
  | .returnValue _ value => value.elim [] Expr.occurrences
  | .prototype .. | .breakLoop _ | .continueLoop _ => []

/-- The uses of variables in a part of a `for` header. -/
def occurrencesOf : Option Stmt → List Occurrence
  | none => []
  | some x => x.occurrences

def occurrencesIn : List Stmt → List Occurrence
  | [] => []
  | x :: rest => x.occurrences ++ occurrencesIn rest

end

end Stmt

/-! ### Stages -/

/-- A declaration that is in force, with the name that it got in the code. -/
structure Binding where
  declared : VarInfo
  unique : String

def Declaration.info (d : Declaration) : VarInfo :=
  ⟨Ty.parse? d.type.val, d.name.pos, d.length, false⟩

def Param.info (p : Param) (name : Located String) : VarInfo :=
  ⟨Ty.parse? p.type.val, name.pos, none, true⟩

/-- How far checking and lowering have come. -/
structure Stage where
  checking : Check.State
  lowering : Tac.Lower.State
  /-- The declarations in force, scope by scope, innermost first. -/
  bindings : List (View Binding)

namespace Stage

/-- A step that only checking takes. -/
def check {α : Type} (action : Check α) (g : Stage) : Stage :=
  { g with checking := (action g.checking).2 }

/-- Labels are taken, which only lowering does. -/
def skip (count : Nat) (g : Stage) : Stage := { g with lowering := g.lowering.skip count }

def expr (e : Expr) (g : Stage) : Stage :=
  { g with
    checking := (Check.inferExpr e g.checking).2
    lowering := (Tac.Lower.expr e g.lowering).2 }

/-- Behind an expression that is an index. -/
def index (e : Expr) (g : Stage) : Stage :=
  (g.expr e).check (Check.checkIndex e.pos (Check.inferExpr e g.checking).1)

/-- The declarations in force behind parameters. -/
def bindParams : List Param → Tac.Lower.State → List (View Binding) → List (View Binding)
  | [], _, bindings => bindings
  | p :: rest, s, bindings =>
      match p.name with
      | none => bindParams rest s bindings
      | some name =>
          let declared := Tac.Lower.declare name.val p.type.val s
          bindParams rest declared.2
            (View.declare bindings name.val ⟨p.info name, declared.1⟩)

/-- The declarations in force behind a move. -/
def bindingsAfter (m : Move) (g : Stage) : List (View Binding) :=
  match m with
  | .single ⟨.declare _ d, _⟩ =>
      let declared := Tac.Lower.declare d.name.val d.type.val (g.lowering.afterInit d)
      View.declare g.bindings d.name.val ⟨d.info, declared.1⟩
  | .enterBody h _ =>
      bindParams h.params (Tac.Lower.openScope g.lowering).2 ((fun _ => none) :: g.bindings)
  | .enter _ | .forStart => (fun _ => none) :: g.bindings
  | .leaveBody .. | .leave _ | .forEnd => g.bindings.tail
  | _ => g.bindings

end Stage

/-- The walk of checking and that of lowering at once, with the declarations in force. -/
abbrev Tour := (Check.Walk × Tac.Lower.Walk) × List (View Binding)

namespace Tour

abbrev checking (t : Tour) : Check.Walk := t.1.1

abbrev lowering (t : Tour) : Tac.Lower.Walk := t.1.2

abbrev bindings (t : Tour) : List (View Binding) := t.2

def stage (t : Tour) : Stage := ⟨t.checking.state, t.lowering.state, t.bindings⟩

def pass : Pass Tour :=
  (Check.pass.both Tac.Lower.pass).along fun m w l =>
    Stage.bindingsAfter m ⟨w.1.state, w.2.state, l⟩

variable {m : Move} {ms : List Move} {t t' : Tour}

theorem step_parts (step : pass m t = some t') :
    Check.pass m t.checking = some t'.checking ∧ Tac.Lower.pass m t.lowering = some t'.lowering ∧
      t'.bindings = t.stage.bindingsAfter m := by
  obtain ⟨walked, kept⟩ := Pass.along_eq_some.mp step
  obtain ⟨checked, lowered⟩ := Pass.both_eq_some.mp walked
  exact ⟨checked, lowered, kept⟩

theorem stage_eq {checking : Check.State} {lowering : Tac.Lower.State}
    (step : pass m t = some t') (checked : t'.checking.state = checking)
    (lowered : t'.lowering.state = lowering) :
    t'.stage = ⟨checking, lowering, t.stage.bindingsAfter m⟩ := by
  rw [stage, checked, lowered, (step_parts step).2.2]

theorem covers_checking : Pass.Covers pass checking Check.pass :=
  fun _ _ _ step => (step_parts step).1

theorem covers_lowering : Pass.Covers pass lowering Tac.Lower.pass :=
  fun _ _ _ step => (step_parts step).2.1

/-- Where neither of the two stops, they go on together. -/
theorem run_of_parts {checking : Check.Walk} {lowering : Tac.Lower.Walk}
    (checked : Check.pass.run ms t.checking = some checking)
    (lowered : Tac.Lower.pass.run ms t.lowering = some lowering) :
    ∃ bindings, pass.run ms t = some ((checking, lowering), bindings) :=
  Pass.run_along (Pass.run_both_eq_some.mpr ⟨checked, lowered⟩) t.bindings

/-- Before the first statement of a program. -/
def start : Tour :=
  ((⟨(Check.openScope (Check.visit 0 {}).2).2, []⟩, .start), [fun _ => none])

end Tour

/-- The way of checking and lowering through a program. -/
def Program.tour (p : Program) : List (Spot Tour) :=
  Tour.pass.trace (Stmt.movesIn true p.stmts) .start

/-! ### Uses -/

structure Use where
  occurrence : Occurrence
  /-- The state of checking when it looks the name up, and that of lowering when it starts with
  the occurrence. -/
  stage : Stage
  /-- The instruction that the operand of the occurrence goes into: the copy to it, or the one that
  reads it. -/
  around : Tac.Operand → Tac.Instr

/-- The operand that an occurrence is lowered to, when its variable has this name in the code. -/
def Occurrence.operand (unique : String) (s : Tac.Lower.State) : Occurrence → Tac.Operand
  | .reference .. | .target _ none _ => .var unique
  | .element _ _ index | .target _ (some index) _ =>
      .element unique (Tac.Lower.expr index s).1.2

/-- The instruction of a use, when its variable has this name in the code. -/
def Use.instr (unique : String) (u : Use) : Tac.Instr :=
  u.around (u.occurrence.operand unique u.stage.lowering)

namespace Stage

/-- The operand that holds the value of an expression that starts here. -/
def value (e : Expr) (g : Stage) : Tac.Operand := (Tac.Lower.expr e g.lowering).1.2

/-- The operands that hold the values of arguments, the first of which starts here. -/
def values (args : List Expr) (g : Stage) : List Tac.Operand :=
  (Tac.lowerArgs g.lowering.resolve g.lowering.supply.temps args).values

/-- The temporary that is taken next. -/
def temp (g : Stage) : Tac.Temp := ⟨g.lowering.supply.temps⟩

/-- Behind arguments. -/
def args (args : List Expr) (g : Stage) : Stage :=
  let next := (Tac.lowerArgs g.lowering.resolve g.lowering.supply.temps args).next
  { g with
    checking := (Check.inferArgs args g.checking).2
    lowering := { g.lowering with supply := { g.lowering.supply with temps := next } } }

end Stage

namespace Use

open Check (callTokens enterLoop visit visitAssign visitDeclaration)

mutual

/-- The uses in an expression whose value goes into an instruction. -/
def ofExpr : Expr → (Tac.Operand → Tac.Instr) → Stage → List Use
  | .literal .., _, _ => []
  | .var pos name, around, g => [⟨.reference pos name, g.check (visit 1), around⟩]
  | .element pos array index, around, g =>
      let g := g.check (visit 3)
      ofExpr index (fun i => around (.element (g.lowering.resolve array) i)) g ++
        [⟨.element pos array index, { g.index index with lowering := g.lowering }, around⟩]
  | .unary _ op operand, _, g =>
      let g := g.check (visit 1)
      ofExpr operand (fun a => .unary op a (.temp (g.expr operand).temp)) g
  | .binary _ op left right, _, g =>
      let g := g.check (visit 1)
      let behind := g.expr left
      let result := .temp (behind.expr right).temp
      ofExpr left (fun a => .binary op a (behind.value right) result) g ++
        ofExpr right (fun b => .binary op (g.value left) b result) behind
  | .call _ callee args, _, g =>
      let g := g.check (visit (callTokens args))
      ofArgs args (fun values => .call callee.val values (g.args args).temp) g

/-- The uses in arguments whose values go into an instruction. -/
def ofArgs : List Expr → (List Tac.Operand → Tac.Instr) → Stage → List Use
  | [], _, _ => []
  | arg :: args, around, g =>
      let behind := g.expr arg
      ofExpr arg (fun value => around (value :: behind.values args)) g ++
        ofArgs args (fun values => around (g.value arg :: values)) behind

end

/-- The uses in an assignment. Checking looks the target up when it is done with the rest. -/
def ofAssign (target : Located String) (index : Option Expr) (value : Expr) (g : Stage) :
    List Use :=
  let g := { g with checking := visitAssign target index g.checking }
  let name := g.lowering.resolve target.val
  let assigned (behind : Stage) : Use :=
    let checked := (Check.inferExpr value behind.checking).2
    ⟨.target target index value, { g with checking := { checked with assigning := none } },
      fun result => .copy (behind.value value) result⟩
  match index with
  | none => ofExpr value (fun source => .copy source (.var name)) g ++ [assigned g]
  | some index =>
      let behind := g.index index
      ofExpr index (fun i => .copy (behind.value value) (.element name i)) g ++
        ofExpr value (fun source => .copy source (.element name (g.value index))) behind ++
        [assigned behind]

/-- The uses in an initial value. -/
def ofInit (d : Declaration) (g : Stage) : List Use :=
  let g := g.check (visitDeclaration d)
  let name := (Tac.Lower.declare d.name.val d.type.val (g.lowering.afterInit d)).1
  d.init.elim [] fun init => ofExpr init (fun source => .copy source (.var name)) g

/-- The uses in a call whose result is not used. -/
def ofCall (callee : Located String) (args : List Expr) (g : Stage) : List Use :=
  let g := (g.check (visit 0)).check (visit (callTokens args))
  ofArgs args (fun values => .call callee.val values (g.args args).temp) g

/-- The uses in a condition; the code goes on at the label if it holds. -/
def ofTest (cond : Expr) (holds : Tac.Label) (g : Stage) : List Use :=
  ofExpr cond (fun value => .branch value holds) g

/-- The uses at a move. -/
def ofMove : Move → Stage → List Use
  | .single ⟨.declare _ d, _⟩, g => ofInit d g
  | .single ⟨.assign _ target index value, _⟩, g => ofAssign target index value g
  | .single ⟨.call _ callee args, _⟩, g => ofCall callee args g
  | .single ⟨.returnValue _ (some value), _⟩, g =>
      ofExpr value (fun value => .ret (some value)) (g.check (visit 1))
  | .branch cond hasElse, g =>
      let g := g.check (visit (if hasElse then 4 else 3))
      ofTest cond ((g.expr cond).lowering.label 0) g
  | .whileTest _ cond, g =>
      ofTest cond (g.lowering.label 1) (((g.check (visit 3)).check enterLoop).skip 3)
  | .forTest _ cond, g => ofTest cond (g.lowering.label 1) ((g.check enterLoop).skip 4)
  | _, _ => []

end Use

/-- The uses of variables in a whole program. -/
def Program.uses (p : Program) : List Use :=
  p.tour.flatMap fun t => Use.ofMove t.move t.state.stage

/-! ### No use is left out -/

mutual

theorem occurrences_ofExpr : ∀ (e : Expr) (around : Tac.Operand → Tac.Instr) (g : Stage),
    (Use.ofExpr e around g).map Use.occurrence = e.occurrences
  | .literal .., _, _ => rfl
  | .var .., _, _ => rfl
  | .element _ _ index, _, g => by
      rw [Use.ofExpr, List.map_append, occurrences_ofExpr index, Expr.occurrences]
      rfl
  | .unary _ _ operand, _, g => by
      rw [Use.ofExpr, occurrences_ofExpr operand, Expr.occurrences]
  | .binary _ _ left right, _, g => by
      rw [Use.ofExpr, List.map_append, occurrences_ofExpr left, occurrences_ofExpr right,
        Expr.occurrences]
  | .call _ _ args, _, g => by
      rw [Use.ofExpr, occurrences_ofArgs args, Expr.occurrences]

theorem occurrences_ofArgs : ∀ (args : List Expr) (around : List Tac.Operand → Tac.Instr)
    (g : Stage), (Use.ofArgs args around g).map Use.occurrence = Expr.occurrencesIn args
  | [], _, _ => rfl
  | arg :: args, _, g => by
      rw [Use.ofArgs, List.map_append, occurrences_ofExpr arg, occurrences_ofArgs args,
        Expr.occurrencesIn]

end

theorem occurrences_ofAssign (target : Located String) (index : Option Expr) (value : Expr)
    (g : Stage) : (Use.ofAssign target index value g).map Use.occurrence =
      index.elim [] Expr.occurrences ++ value.occurrences ++ [.target target index value] := by
  cases index with
  | none =>
      rw [Use.ofAssign, List.map_append, occurrences_ofExpr value]
      rfl
  | some index =>
      rw [Use.ofAssign, List.map_append, List.map_append, occurrences_ofExpr index,
        occurrences_ofExpr value]
      rfl

/-- The uses of variables that a move comes to. -/
def Move.occurrences : Move → List Occurrence
  | .single x => x.val.occurrences
  | .branch cond _ | .whileTest _ cond | .forTest _ cond => cond.occurrences
  | _ => []

theorem occurrences_ofMove (m : Move) (g : Stage) :
    (Use.ofMove m g).map Use.occurrence = m.occurrences := by
  cases m with
  | single x =>
      obtain ⟨x, single⟩ := x
      cases x with
      | declare _ d =>
          obtain ⟨type, name, length, init⟩ := d
          cases init with
          | none => rfl
          | some init => exact occurrences_ofExpr init _ _
      | assign _ target index value => exact occurrences_ofAssign target index value g
      | call _ _ args => exact occurrences_ofArgs args _ _
      | returnValue _ value =>
          cases value with
          | none => rfl
          | some value => exact occurrences_ofExpr value _ _
      | prototype | breakLoop | continueLoop => rfl
      | _ => contradiction
  | branch cond | whileTest _ cond | forTest _ cond => exact occurrences_ofExpr cond _ _
  | _ => rfl

namespace Stmt

mutual

theorem occurrences_moves : (x : Stmt) →
    (x.moves true).flatMap Move.occurrences = x.occurrences
  | .define _ _ body | .block _ body | .ifThen _ _ body | .whileLoop _ _ body => by
      simp [moves, movesBetween, Move.occurrences, occurrences, occurrences_movesIn body]
  | .ifElse _ _ body _ elseBody => by
      simp [moves, movesBetween, Move.occurrences, occurrences, occurrences_movesIn body,
        occurrences_movesIn elseBody]
  | .forLoop init _ update _ body => by
      simp [moves, movesBetween, Move.occurrences, occurrences, occurrences_movesBy init,
        occurrences_movesIn body, occurrences_movesBy update]
  | .declare .. | .prototype .. | .assign .. | .call .. | .breakLoop _ | .continueLoop _
  | .returnValue .. => by simp [moves, Move.occurrences]

theorem occurrences_movesBy : (part : Option Stmt) →
    (movesBy true part).flatMap Move.occurrences = occurrencesOf part
  | none => rfl
  | some x => occurrences_moves x

theorem occurrences_movesIn : (body : List Stmt) →
    (movesIn true body).flatMap Move.occurrences = occurrencesIn body
  | [] => rfl
  | x :: rest => by
      simp [movesIn, Move.occurrences, occurrencesIn, occurrences_moves x,
        occurrences_movesIn rest]

end

end Stmt

/-- A program is gone through by both. -/
theorem run_tour (p : Program) : ∃ t : Tour, Tour.pass.run (Stmt.movesIn true p.stmts) .start =
    some t ∧ t.checking = Tour.start.checking.behind (Check.checkStmts p.stmts) ∧
      t.lowering = .last p := by
  obtain ⟨bindings, ran⟩ := Tour.run_of_parts (t := .start)
    (Check.run_movesIn p.stmts _) (Tac.run_lowering p)
  exact ⟨_, ran, rfl, rfl⟩

/-- Every use of a variable in a program is noted, in the order of the tree. -/
theorem occurrences_uses (p : Program) :
    p.uses.map Use.occurrence = Stmt.occurrencesIn p.stmts := by
  obtain ⟨_, ran, -⟩ := run_tour p
  exact (Pass.map_noted ran fun m t => occurrences_ofMove m t.stage).trans
    (Stmt.occurrences_movesIn p.stmts)

/-! ### The instruction of each use -/

/-- The instruction of a use, with the name in it that lowering resolves the use to. -/
def Use.lowered (u : Use) : Tac.Instr :=
  u.instr (u.stage.lowering.resolve u.occurrence.name)

mutual

/-- Each use in an expression goes into an instruction of its code, or into the one that the value
of the expression goes into. -/
theorem lowered_ofExpr : ∀ (e : Expr) (around : Tac.Operand → Tac.Instr) (g : Stage),
    ∀ u ∈ Use.ofExpr e around g,
      u.lowered ∈ (Tac.Lower.expr e g.lowering).1.1 ++ [around (g.value e)]
  | .literal .., _, _ => by
      rw [Use.ofExpr]
      exact List.forall_mem_nil _
  | .var .., _, _ => by
      rw [Use.ofExpr]
      exact List.forall_mem_singleton.mpr List.mem_cons_self
  | .element _ array index, around, g => by
      rw [Use.ofExpr, List.forall_mem_append]
      have inside := lowered_ofExpr index (fun i => around (.element (g.lowering.resolve array) i))
        (g.check (Check.visit 3))
      exact ⟨inside, List.forall_mem_singleton.mpr (List.mem_append_right _ List.mem_cons_self)⟩
  | .unary _ _ operand, _, _ => by
      rw [Use.ofExpr]
      exact fun u mem => List.mem_append_left _ (lowered_ofExpr operand _ _ u mem)
  | .binary _ _ left right, _, _ => by
      rw [Use.ofExpr, List.forall_mem_append]
      refine ⟨fun u mem => List.mem_append_left _ ?_, fun u mem => List.mem_append_left _ ?_⟩
      · rcases List.mem_append.mp (lowered_ofExpr left _ _ u mem) with here | here
        · exact List.mem_append_left _ (List.mem_append_left _ here)
        · exact List.mem_append_right _ here
      · rcases List.mem_append.mp (lowered_ofExpr right _ _ u mem) with here | here
        · exact List.mem_append_left _ (List.mem_append_right _ here)
        · exact List.mem_append_right _ here
  | .call _ _ args, _, _ => by
      rw [Use.ofExpr]
      exact fun u mem => List.mem_append_left _ (lowered_ofArgs args _ _ u mem)

theorem lowered_ofArgs : ∀ (args : List Expr) (around : List Tac.Operand → Tac.Instr) (g : Stage),
    ∀ u ∈ Use.ofArgs args around g, u.lowered ∈
      (Tac.lowerArgs g.lowering.resolve g.lowering.supply.temps args).instrs ++
        [around (g.values args)]
  | [], _, _ => by
      rw [Use.ofArgs]
      exact List.forall_mem_nil _
  | arg :: args, _, _ => by
      rw [Use.ofArgs, List.forall_mem_append]
      refine ⟨fun u mem => ?_, fun u mem => ?_⟩
      · rcases List.mem_append.mp (lowered_ofExpr arg _ _ u mem) with here | here
        · exact List.mem_append_left _ (List.mem_append_left _ here)
        · exact List.mem_append_right _ here
      · rcases List.mem_append.mp (lowered_ofArgs args _ _ u mem) with here | here
        · exact List.mem_append_left _ (List.mem_append_right _ here)
        · exact List.mem_append_right _ here

end

open Tac.Lower (branching stmt)

theorem lowered_ofInit (d : Declaration) (g : Stage) :
    ∀ u ∈ Use.ofInit d g, u.lowered ∈ (Tac.Lower.declaration d g.lowering).1 := by
  obtain ⟨type, name, length, init⟩ := d
  cases init with
  | none => exact List.forall_mem_nil _
  | some init => exact lowered_ofExpr init _ _

theorem lowered_ofAssign (target : Located String) (index : Option Expr) (value : Expr)
    (g : Stage) : ∀ u ∈ Use.ofAssign target index value g,
      u.lowered ∈ (Tac.Lower.assignment target.val index value g.lowering).1 := by
  cases index with
  | none =>
      refine List.forall_mem_append.mpr ⟨lowered_ofExpr value _ _, ?_⟩
      exact List.forall_mem_singleton.mpr (List.mem_append_right _ List.mem_cons_self)
  | some index =>
      refine List.forall_mem_append.mpr ⟨List.forall_mem_append.mpr ⟨?_, ?_⟩, ?_⟩
      -- The code of the value comes between that of the index and the copy.
      · intro u mem
        rcases List.mem_append.mp (lowered_ofExpr index _ _ u mem) with here | here
        · exact List.mem_append_left _ (List.mem_append_left _ here)
        · exact List.mem_append_right _ here
      · intro u mem
        rcases List.mem_append.mp (lowered_ofExpr value _ _ u mem) with here | here
        · exact List.mem_append_left _ (List.mem_append_right _ here)
        · exact List.mem_append_right _ here
      · exact List.forall_mem_singleton.mpr (List.mem_append_right _ List.mem_cons_self)

theorem lowered_ofTest (cond : Expr) (holds fails : Tac.Label) (g : Stage) :
    ∀ u ∈ Use.ofTest cond holds g,
      u.lowered ∈ branching (Tac.Lower.expr cond g.lowering).1 holds fails := by
  intro u mem
  have front : (Tac.Lower.expr cond g.lowering).1.1 ++ [Tac.Instr.branch (g.value cond) holds] <+:
      branching (Tac.Lower.expr cond g.lowering).1 holds fails :=
    (List.prefix_append_right_inj _).mpr (List.prefix_append [_] _)
  exact front.subset (lowered_ofExpr cond _ _ u mem)

/-- The instructions of the uses in a single statement are in its code. -/
theorem lowered_single (targets : Option Tac.Lower.Targets)
    (x : { x : Stmt // x.isSingle = true }) (g : Stage) :
    ∀ u ∈ Use.ofMove (.single x) g, u.lowered ∈ (stmt targets x g.lowering).1 := by
  obtain ⟨x, single⟩ := x
  cases x with
  | declare _ d => exact lowered_ofInit d g
  | assign _ target index value => exact lowered_ofAssign target index value g
  | call _ _ args => exact lowered_ofArgs args _ _
  | returnValue _ value =>
      cases value with
      | none => exact List.forall_mem_nil _
      | some value => exact lowered_ofExpr value _ _
  | prototype | breakLoop | continueLoop => exact List.forall_mem_nil _
  | _ => contradiction

/-- The instructions of the uses at a move are in the code behind it. -/
theorem lowered_ofMove {m : Move} {t : Tour} {w : Tac.Lower.Walk}
    (step : Tac.Lower.pass m t.lowering = some w) :
    ∀ u ∈ Use.ofMove m t.stage, u.lowered ∈ w.code := by
  intro u mem
  cases m with
  | single x =>
      cases step
      exact List.mem_append_right _ (lowered_single _ x t.stage u mem)
  | branch cond hasElse =>
      cases step
      let behind := (t.stage.expr cond).lowering
      have here := lowered_ofTest cond (behind.label 0) (behind.label 1)
        (t.stage.check (Check.visit (if hasElse then 4 else 3))) u mem
      exact List.mem_append_right _ here
  | whileTest _ cond =>
      cases step
      have here := lowered_ofTest cond (t.stage.lowering.label 1) (t.stage.lowering.label 2)
        (((t.stage.check (Check.visit 3)).check Check.enterLoop).skip 3) u mem
      exact List.mem_append_right _ (List.mem_cons_of_mem _ here)
  | forTest _ cond =>
      rw [Tac.Lower.code_forTest step]
      have here := lowered_ofTest cond (t.stage.lowering.label 1) (t.stage.lowering.label 3)
        ((t.stage.check Check.enterLoop).skip 4) u mem
      exact List.mem_append_right _ (List.mem_cons_of_mem _ here)
  | _ => contradiction

/-- The instruction of each use is in the code of the program. -/
theorem lowered_uses (p : Program) : ∀ u ∈ p.uses, u.lowered ∈ p.lower.1.instrs := by
  intro u mem
  obtain ⟨t, at_t, mem⟩ := List.mem_flatMap.mp mem
  have along : (⟨t.move, t.state.lowering⟩ : Spot Tac.Lower.Walk) ∈ p.lowering :=
    Tour.covers_lowering.trace at_t
  refine (List.singleton_infix_iff ..).mp (Tac.infix_lower along fun w step => .inl ?_)
  exact (List.singleton_infix_iff ..).mpr (lowered_ofMove step u mem)

end BraceLang
