import BraceLang.Proofs.Check.Accepted
import BraceLang.Proofs.Occurrences
import BraceLang.Proofs.Tac.Lowering

/-!
Checking and lowering in step. Both look names up in scopes of their own. They are in step when
the scopes of either have what has been declared, each name in the scope that it was declared in;
a name that checking finds a variable for is then found by lowering too, by way of the
declaration.

**Main results.** `Stage.InStep.resolves`: what a name stands for to checking and to lowering goes
back to one declaration. `follows_expr`: both resolve the uses in an accepted expression to the same
declarations, and what its code mentions has a type.
-/

namespace BraceLang

namespace Tac

/-- The variables and arrays that an operand names. -/
def Operand.vars : Operand → List String
  | .const _ | .temp _ => []
  | .var x => [x]
  | .element array index => array :: index.vars

/-- The variables and arrays that an instruction names. -/
def Instr.vars : Instr → List String
  | .function _ params => params
  | .label _ | .goto _ | .ret none => []
  | .branch value _ | .ret (some value) => value.vars
  | .copy source result | .unary _ source result => source.vars ++ result.vars
  | .binary _ left right result => left.vars ++ right.vars ++ result.vars
  | .call _ args _ => args.flatMap Operand.vars

/-- The variables and arrays that code names. -/
def varsOf (code : List Instr) : List String := code.flatMap Instr.vars

@[simp] theorem varsOf_nil : varsOf [] = [] := rfl

@[simp] theorem varsOf_cons (i : Instr) (code : List Instr) :
    varsOf (i :: code) = i.vars ++ varsOf code := List.flatMap_cons

@[simp] theorem varsOf_append (first second : List Instr) :
    varsOf (first ++ second) = varsOf first ++ varsOf second := List.flatMap_append

theorem varsOf_branching (cond : List Instr × Operand) (holds fails : Label) :
    varsOf (Lower.branching cond holds fails) = varsOf cond.1 ++ cond.2.vars := by
  simp [Lower.branching, Instr.vars]

namespace Lower

/-- All of these names have a type. -/
def State.Types (s : State) (xs : List String) : Prop := ∀ x ∈ xs, (s.types.get? x).isSome = true

theorem types_nil (s : State) : s.Types [] := fun _ mem => absurd mem List.not_mem_nil

theorem types_append {s : State} {xs ys : List String} :
    s.Types (xs ++ ys) ↔ s.Types xs ∧ s.Types ys := List.forall_mem_append

/-- The later state has the same scopes and types. -/
structure State.Alike (s s' : State) : Prop where
  stack : s'.env.stack = s.env.stack
  types : s'.types = s.types
  renames : s'.renames = s.renames

theorem State.Alike.symm {s s' : State} (alike : s.Alike s') : s'.Alike s :=
  ⟨alike.stack.symm, alike.types.symm, alike.renames.symm⟩

theorem State.Alike.expr {s s' : State} (alike : s.Alike s') (e : Expr) :
    (Lower.expr e s).2.Alike s' := ⟨alike.stack, alike.types, alike.renames⟩

theorem alike_declared (s : State) (name type : String) :
    (declare name type s).2.Alike (s.declared name type) := by
  obtain ⟨globals, same⟩ := declared_eq s name type
  rw [same]
  exact ⟨rfl, rfl, rfl⟩

end Lower

end Tac

/-! ### What it means to agree -/

/-- The scopes of checking and those of lowering have what has been declared, each name in the
scope that it was declared in. -/
structure Stage.Mirrors (g : Stage) : Prop where
  checked : g.checking.vars = g.bindings.map (View.map Binding.declared)
  lowered : g.lowering.env.stack.views id = g.bindings.map (View.map Binding.unique)

/-- Checking and lowering resolve the name of the use to one declaration that is in force. The name
that this has in the code has its type. -/
structure Use.Resolves (types : Assoc String Ty) (u : Use) : Prop where
  mirrors : u.stage.Mirrors
  resolved : ∃ symbol binding,
    u.stage.checking.env.stack.lookup u.occurrence.name = some symbol ∧
    View.look u.stage.bindings u.occurrence.name = some binding ∧
    symbol.var? = some binding.declared ∧
    u.stage.lowering.resolve u.occurrence.name = binding.unique ∧
    types.get? binding.unique = some symbol.type

theorem Use.Resolves.mono {types types' : Assoc String Ty} {u : Use} (resolves : u.Resolves types)
    (more : ∀ {x t}, types.get? x = some t → types'.get? x = some t) : u.Resolves types' := by
  obtain ⟨mirrors, symbol, binding, found, inForce, same, named, typed⟩ := resolves
  exact ⟨mirrors, symbol, binding, found, inForce, same, named, more typed⟩

/-- The instruction of the use is in the code. It names the variable as the declaration that
checking finds for it is named there, and that name has the type of the declaration. -/
structure Use.Agrees (c : Tac.Code) (u : Use) : Prop where
  mirrors : u.stage.Mirrors
  resolved : ∃ symbol binding,
    u.stage.checking.env.stack.lookup u.occurrence.name = some symbol ∧
    View.look u.stage.bindings u.occurrence.name = some binding ∧
    symbol.var? = some binding.declared ∧
    u.instr binding.unique ∈ c.instrs ∧
    c.types.get? binding.unique = some symbol.type

theorem Use.Resolves.agrees {c : Tac.Code} {u : Use} (resolves : u.Resolves c.types)
    (lowered : u.lowered ∈ c.instrs) : u.Agrees c := by
  obtain ⟨mirrors, symbol, binding, found, inForce, same, named, typed⟩ := resolves
  rw [Use.lowered, named] at lowered
  exact ⟨mirrors, symbol, binding, found, inForce, same, lowered, typed⟩

/-! ### Stages in step -/

/-- A scope is opened by both. -/
def Stage.opened (g : Stage) : Stage :=
  ⟨(Check.openScope g.checking).2, (Tac.Lower.openScope g.lowering).2,
    (fun _ => none) :: g.bindings⟩

/-- A scope is closed by both. -/
def Stage.closed (g : Stage) : Stage :=
  ⟨(Check.closeScope g.checking).2, (Tac.Lower.closeScope g.lowering).2, g.bindings.tail⟩

open Check (inferExpr inferArgs)
open Tac (varsOf)
open Tac.Lower (WellNamed)

variable {names : List String} {g g₁ g' : Stage}

/-- The scopes of both have what has been declared, and nothing is known to be wrong. -/
structure Stage.InStep (names : List String) (g : Stage) : Prop where
  mirrors : g.Mirrors
  typed : ∀ l ∈ g.bindings, ∀ {name b}, l name = some b →
    ∃ t, b.declared.type = some t ∧ g.lowering.types.get? b.unique = some t
  named : WellNamed names g.lowering
  unpoisoned : g.checking.poisoned = []

theorem inStep_start (names : List String) : Tour.start.stage.InStep names := by
  refine ⟨⟨rfl, rfl⟩, ?_, Tac.wellNamed_start names, rfl⟩
  intro l mem name b found
  obtain rfl := List.mem_singleton.mp mem
  contradiction

namespace Stage.InStep

theorem settle (inStep : g.InStep names) (steady : g.checking.Steady g'.checking)
    (alike : g.lowering.Alike g'.lowering) (same : g'.bindings = g.bindings) :
    g'.InStep names := by
  constructor
  · constructor
    · rw [same]
      exact steady.vars.trans inStep.mirrors.checked
    · rw [same]
      exact (congrArg (·.views id) alike.stack).trans inStep.mirrors.lowered
  · rw [same, alike.types]
    exact inStep.typed
  · exact inStep.named.of_same alike.stack alike.types alike.renames
  · exact steady.poisoned.trans inStep.unpoisoned

theorem opened (inStep : g.InStep names) : g.opened.InStep names := by
  constructor
  · constructor
    · exact congrArg (_ :: ·) inStep.mirrors.checked
    · exact congrArg (_ :: ·) inStep.mirrors.lowered
  · intro l mem name b found
    rcases List.mem_cons.mp mem with rfl | mem
    · contradiction
    · exact inStep.typed l mem found
  · exact inStep.named.openScope
  · exact inStep.unpoisoned

/-- What is visible to checking as a variable is so to lowering, by way of its declaration. -/
theorem resolves (inStep : g.InStep names) {name : String} {symbol : Symbol}
    (found : g.checking.env.stack.lookup name = some symbol)
    (noFunction : symbol.isFunction = false) :
    ∃ binding, View.look g.bindings name = some binding ∧ symbol.var? = some binding.declared ∧
      g.lowering.resolve name = binding.unique ∧
      g.lowering.types.get? binding.unique = some symbol.type := by
  obtain ⟨v, settled, type⟩ : ∃ v, symbol.var? = some v ∧ v.type = some symbol.type := by
    unfold Symbol.var?
    unfold Symbol.isFunction Symbol.signature? at noFunction
    cases kind : symbol.kind with
    | var length isParam => exact ⟨_, rfl, rfl⟩
    | fn signature =>
        rw [kind] at noFunction
        contradiction
  have seen : View.look g.checking.vars name = some v := by
    refine View.look_present ?_
    rw [← ScopeStack.lookup_views, found, Option.map_some, settled]
  rw [inStep.mirrors.checked, View.look_map] at seen
  obtain ⟨binding, inForce, rfl⟩ := Option.map_eq_some_iff.mp seen
  have named : g.lowering.env.stack.lookup name = some binding.unique := by
    have looked := ScopeStack.lookup_views id g.lowering.env.stack name
    rwa [Option.map_id, inStep.mirrors.lowered, View.look_map, inForce] at looked
  refine ⟨binding, inForce, settled, ?_, ?_⟩
  · rw [Tac.Lower.State.resolve, named]
    rfl
  · obtain ⟨l, mem, entered⟩ := List.exists_of_findSome?_eq_some inForce
    obtain ⟨t, declared, known⟩ := inStep.typed l mem entered
    rw [known, ← type, declared]

end Stage.InStep

/-- From one stage to the next, the scopes stay in step, the uses agree, and what the code
mentions has a type. -/
structure Stage.Follows (names : List String) (g : Stage) (uses : List Use)
    (mentioned : List String) (g' : Stage) : Prop where
  inStep : g'.InStep names
  types : ∀ {x t}, g.lowering.types.get? x = some t → g'.lowering.types.get? x = some t
  resolves : ∀ u ∈ uses, u.Resolves g'.lowering.types
  known : g'.lowering.Types mentioned

namespace Stage.Follows

variable {uses uses' : List Use} {xs xs' : List String}

theorem of_inStep (inStep : g.InStep names) (resolves : ∀ u ∈ uses, u.Resolves g.lowering.types)
    (known : g.lowering.Types xs) : g.Follows names uses xs g :=
  ⟨inStep, id, resolves, known⟩

theorem refl (inStep : g.InStep names) : g.Follows names [] [] g :=
  of_inStep inStep (fun _ mem => absurd mem List.not_mem_nil) (Tac.Lower.types_nil _)

/-- Steps after which both have the scopes that they had. -/
theorem settle (follows : g.Follows names uses xs g₁) (steady : g₁.checking.Steady g'.checking)
    (alike : g₁.lowering.Alike g'.lowering) (same : g'.bindings = g₁.bindings) :
    g.Follows names uses xs g' := by
  have inStep := follows.inStep.settle steady alike same
  obtain ⟨-, types, resolves, known⟩ := follows
  unfold Tac.Lower.State.Types at known
  rw [← alike.types] at types resolves known
  exact ⟨inStep, types, resolves, known⟩

theorem check (follows : g.Follows names uses xs g') {α : Type} {action : Check α}
    (calm : Check.Calm action) : g.Follows names uses xs (g'.check action) :=
  follows.settle (calm _) ⟨rfl, rfl, rfl⟩ rfl

theorem skip (follows : g.Follows names uses xs g') (count : Nat) :
    g.Follows names uses xs (g'.skip count) := follows.settle (.refl _) ⟨rfl, rfl, rfl⟩ rfl

theorem opened (follows : g.Follows names uses xs g') : g.Follows names uses xs g'.opened :=
  { follows with inStep := follows.inStep.opened }

theorem sub (follows : g.Follows names uses xs g') (fewer : xs' ⊆ xs) :
    g.Follows names uses xs' g' :=
  { follows with known := fun x mem => follows.known x (fewer mem) }

theorem append (first : g.Follows names uses xs g₁) (second : g₁.Follows names uses' xs' g') :
    g.Follows names (uses ++ uses') (xs ++ xs') g' := by
  refine ⟨second.inStep, fun typed => second.types (first.types typed), ?_, ?_⟩
  · intro u mem
    rcases List.mem_append.mp mem with mem | mem
    · exact (first.resolves u mem).mono second.types
    · exact second.resolves u mem
  · refine Tac.Lower.types_append.mpr ⟨fun x mem => ?_, second.known⟩
    obtain ⟨t, typed⟩ := Option.isSome_iff_exists.mp (first.known x mem)
    exact Option.isSome_iff_exists.mpr ⟨t, second.types typed⟩

/-- A part without uses in it. -/
theorem extend (first : g.Follows names uses xs g₁) (second : g₁.Follows names [] xs' g') :
    g.Follows names uses (xs ++ xs') g' := by
  have both := first.append second
  rwa [List.append_nil] at both

end Stage.Follows

/-! ### Expressions -/

/-- A use of a visible variable is resolved by both. -/
theorem Stage.InStep.follows_use (inStep : g.InStep names) (occurrence : Occurrence)
    (around : Tac.Operand → Tac.Instr) {symbol : Symbol}
    (found : g.checking.env.stack.lookup occurrence.name = some symbol)
    (noFunction : symbol.isFunction = false) :
    g.Follows names [⟨occurrence, g, around⟩] [g.lowering.resolve occurrence.name] g := by
  obtain ⟨binding, inForce, same, resolved, typed⟩ := inStep.resolves found noFunction
  refine .of_inStep inStep ?_ ?_
  · intro u mem
    obtain rfl := List.mem_singleton.mp mem
    exact ⟨inStep.mirrors, symbol, binding, found, inForce, same, resolved, typed⟩
  · intro x mem
    obtain rfl := List.mem_singleton.mp mem
    rw [resolved, typed]
    rfl

/-- What is read is a variable that both know. -/
theorem follows_read (inStep : g.InStep names) (occurrence : Occurrence)
    (around : Tac.Operand → Tac.Instr) {pos : Position} {isElement : Bool}
    (clean : (Check.readVariable occurrence.name pos isElement g.checking).2.Clean) :
    g.Follows names [⟨occurrence, g, around⟩] [g.lowering.resolve occurrence.name]
      (g.check (Check.readVariable occurrence.name pos isElement)) := by
  obtain ⟨symbol, found, noFunction, -⟩ := Check.readVariable_accepted inStep.unpoisoned clean
  exact (inStep.follows_use occurrence around found noFunction).check
    (Check.calm_readVariable _ pos isElement)

/-- What the code of an expression mentions, its value included. -/
def exprVars (e : Expr) (s : Tac.Lower.State) : List String :=
  varsOf (Tac.Lower.expr e s).1.1 ++ (Tac.Lower.expr e s).1.2.vars

def argsVars (args : List Expr) (s : Tac.Lower.State) : List String :=
  let code := Tac.lowerArgs s.resolve s.supply.temps args
  varsOf code.instrs ++ code.values.flatMap Tac.Operand.vars

section Mentioned

variable {s : Tac.Lower.State}

theorem exprVars_eq (e : Expr) (s : Tac.Lower.State) :
    exprVars e s = varsOf (Tac.lowerExpr s.resolve s.supply.temps e).instrs ++
      (Tac.lowerExpr s.resolve s.supply.temps e).value.vars := rfl

theorem exprVars_element (pos : Position) (array : String) (index : Expr) :
    exprVars (.element pos array index) s ⊆ exprVars index s ++ [s.resolve array] := by
  intro x mem
  simp only [exprVars_eq, Tac.lowerExpr, Tac.Operand.vars, List.mem_append, List.mem_cons,
    List.not_mem_nil, or_false] at mem ⊢
  tauto

theorem exprVars_unary (pos : Position) (op : UnOp) (operand : Expr) :
    exprVars (.unary pos op operand) s = exprVars operand s := by
  simp [exprVars_eq, Tac.lowerExpr, Tac.Instr.vars, Tac.Operand.vars]

theorem exprVars_binary (pos : Position) (op : BinOp) (left right : Expr) :
    exprVars (.binary pos op left right) s ⊆
      exprVars left s ++ exprVars right (Tac.Lower.expr left s).2 := by
  intro x mem
  have code : (Tac.Lower.expr left s).2.supply.temps =
      (Tac.lowerExpr s.resolve s.supply.temps left).next := rfl
  have names : (Tac.Lower.expr left s).2.resolve = s.resolve := rfl
  simp only [exprVars_eq, Tac.lowerExpr, code, names, Tac.varsOf_append, Tac.varsOf_cons,
    Tac.varsOf_nil, Tac.Instr.vars, Tac.Operand.vars, List.mem_append, List.append_nil] at mem ⊢
  tauto

theorem argsVars_cons (arg : Expr) (args : List Expr) :
    argsVars (arg :: args) s ⊆ exprVars arg s ++ argsVars args (Tac.Lower.expr arg s).2 := by
  intro x mem
  have code : (Tac.Lower.expr arg s).2.supply.temps =
      (Tac.lowerExpr s.resolve s.supply.temps arg).next := rfl
  have names : (Tac.Lower.expr arg s).2.resolve = s.resolve := rfl
  simp only [exprVars_eq, argsVars, Tac.lowerArgs, code, names, Tac.varsOf_append,
    List.flatMap_cons, List.mem_append] at mem ⊢
  tauto

/-- A call mentions what its arguments do. -/
theorem varsOf_call (callee : String) (args : List Expr) :
    varsOf ((Tac.lowerArgs s.resolve s.supply.temps args).call callee).instrs =
      argsVars args s := by
  simp [Tac.ArgsCode.call, argsVars, Tac.Instr.vars]

end Mentioned

mutual

/-- The uses in an accepted expression are resolved by both. -/
theorem follows_expr : (e : Expr) → ∀ {g : Stage}, g.InStep names →
    (inferExpr e g.checking).2.Clean → ∀ around : Tac.Operand → Tac.Instr,
    g.Follows names (Use.ofExpr e around g) (exprVars e g.lowering) (g.expr e)
  | .literal _ value, g, inStep, _, _ => (Stage.Follows.refl inStep).check (Check.calm_visit 1)
  | .var pos name, g, inStep, clean, around => by
      have visited := (Stage.Follows.refl inStep).check (Check.calm_visit 1)
      exact visited.append (follows_read visited.inStep (.reference pos name) around clean)
  | .element pos array index, g, inStep, clean, around => by
      rw [Check.inferExpr_element] at clean
      have visited := (Stage.Follows.refl inStep).check (Check.calm_visit 3)
      have calm := Check.calm_checkIndex index.pos
        (inferExpr index (g.check (Check.visit 3)).checking).1
      have cleanIndex := clean.before (Check.calm_readVariable array pos true _).log
      have first := follows_expr index visited.inStep (cleanIndex.before (calm _).log)
        fun i => around (.element (g.lowering.resolve array) i)
      -- The array is resolved with the names from before the index, which are the same.
      let atRead : Stage := { (g.check (Check.visit 3)).index index with lowering := g.lowering }
      have upToRead : g.Follows names _ _ atRead :=
        (visited.append first).settle (calm _) ⟨rfl, rfl, rfl⟩ rfl
      have read := follows_read upToRead.inStep (.element pos array index) around clean
      have all : g.Follows names _ _ (g.expr (.element pos array index)) :=
        (upToRead.append read).settle (.refl _) ⟨rfl, rfl, rfl⟩ rfl
      exact all.sub (exprVars_element pos array index)
  | .unary pos op operand, g, inStep, clean, _ => by
      rw [Check.inferExpr_unary] at clean
      have visited := (Stage.Follows.refl inStep).check (Check.calm_visit 1)
      have calm := Check.calm_checkUnary op pos
        (inferExpr operand (g.check (Check.visit 1)).checking).1
      have first := follows_expr operand visited.inStep (clean.before (calm _).log)
      rw [exprVars_unary]
      exact (visited.append (first _)).settle (calm _) ⟨rfl, rfl, rfl⟩ rfl
  | .binary pos op left right, g, inStep, clean, around => by
      rw [Check.inferExpr_binary] at clean
      have visited := (Stage.Follows.refl inStep).check (Check.calm_visit 1)
      have calm := Check.calm_checkBinary op pos
        (inferExpr left (g.check (Check.visit 1)).checking).1
        (inferExpr right ((g.check (Check.visit 1)).expr left).checking).1
      have cleanRight := clean.before (calm _).log
      have first := follows_expr left visited.inStep
        (cleanRight.before (Check.calm_inferExpr right _).log)
      have second := follows_expr right (first around).inStep cleanRight
      refine Stage.Follows.sub ?_ (exprVars_binary pos op left right)
      exact (visited.append ((first _).append (second _))).settle (calm _)
        ⟨rfl, rfl, rfl⟩ rfl
  | .call pos callee args, g, inStep, clean, _ => by
      rw [Check.inferExpr_call] at clean
      have visited := (Stage.Follows.refl inStep).check (Check.calm_visit (Check.callTokens args))
      have calm := Check.calm_checkCall callee
        (inferArgs args (g.check (Check.visit (Check.callTokens args))).checking).1 true
      have all := follows_args args visited.inStep (clean.before (calm _).log)
      have mentioned : exprVars (.call pos callee args) g.lowering = argsVars args g.lowering :=
        (List.append_nil _).trans (varsOf_call callee.val args)
      rw [mentioned]
      exact (visited.append (all _)).settle (calm _) ⟨rfl, rfl, rfl⟩ rfl

theorem follows_args : (args : List Expr) → ∀ {g : Stage}, g.InStep names →
    (inferArgs args g.checking).2.Clean → ∀ around : List Tac.Operand → Tac.Instr,
    g.Follows names (Use.ofArgs args around g) (argsVars args g.lowering) (g.args args)
  | [], g, inStep, _, _ => .refl inStep
  | arg :: args, g, inStep, clean, around => by
      rw [Check.inferArgs_cons] at clean
      have first := follows_expr arg inStep (clean.before (Check.calm_inferArgs args _).log)
        fun value => around (value :: (g.expr arg).values args)
      have rest := follows_args args first.inStep clean fun values => around (g.value arg :: values)
      have all : g.Follows names _ _ (g.args (arg :: args)) :=
        (first.append rest).settle (.refl _) ⟨rfl, rfl, rfl⟩ rfl
      exact all.sub (argsVars_cons arg args)

end

end BraceLang
