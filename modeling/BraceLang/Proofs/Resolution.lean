import BraceLang.Proofs.Bindings
import BraceLang.Proofs.Check.Exactness

/-!
Names are resolved alike. Checking and lowering open, fill and close their scopes at moments of
their own: for the parameters of functions, for the headers of loops, for blocks, and around
initial values. As long as no error is found, they come out of every move in step, so a use of a
variable means the same declaration to both.

**Main results.** `follows_step`: one move keeps the scopes in step, and both resolve its uses to
the same declarations; `follows_run` has this of many. `resolved_alike`: in an accepted program each
use of a variable is in the code, with the name that was given to the declaration that checking
resolves the use to, and every name in the code has a type.
-/

namespace BraceLang

open Check (inferExpr checkStmt checkMove)
open Tac (NoneMadeUp varsOf)
open Tac.Lower (Targets Frame Walk)

variable {names : List String} {g g₁ g' : Stage}

/-! ### Declarations -/

/-- A name that is new to the current scope of checking is so to that of lowering. -/
theorem Stage.InStep.declaredHere (inStep : g.InStep names) {name : String}
    (absent : g.checking.env.stack.declaredHere name = false) :
    g.lowering.env.stack.declaredHere name = false := by
  have unchecked : View.here g.checking.vars name = none :=
    View.here_present ((ScopeStack.here_views Symbol.var? _ name).mpr absent)
  rw [inStep.mirrors.checked, View.here_map, Option.map_eq_none_iff] at unchecked
  refine (ScopeStack.here_views id _ name).mp ?_
  rw [inStep.mirrors.lowered, View.here_map, unchecked]
  rfl

/-- Behind the declaration of a variable that checking has entered as this symbol. -/
def Stage.bind (symbol : Symbol) (v : VarInfo) (type : String) (g : Stage) : Stage :=
  let declared := Tac.Lower.declare symbol.name type g.lowering
  { checking := (Check.declare symbol g.checking).2
    lowering := declared.2
    bindings := View.declare g.bindings symbol.name ⟨v, declared.1⟩ }

/-- A declaration enters the current scope of both, with a name that has its type. -/
theorem follows_bind (none_made : NoneMadeUp names) (inStep : g.InStep names) (symbol : Symbol)
    {v : VarInfo} {type : String} {t : Ty} (mem : symbol.name ∈ names)
    (settled : symbol.var? = some v) (typed : v.type = some t) (parsed : Ty.parse? type = some t)
    (absent : g.checking.env.stack.declaredHere symbol.name = false) :
    g.Follows names [] [(Tac.Lower.declare symbol.name type g.lowering).1]
      (g.bind symbol v type) := by
  have kept {x : String} {t : Ty} (known : g.lowering.types.get? x = some t) :
      (g.bind symbol v type).lowering.types.get? x = some t :=
    Tac.Lower.types_declare_of_known none_made inStep.named mem known
  have here : (g.bind symbol v type).lowering.types.get?
      (Tac.Lower.declare symbol.name type g.lowering).1 = some t := by
    change (Tac.Lower.declare symbol.name type g.lowering).2.types.get? _ = _
    rw [Tac.Lower.types_declare, parsed]
    exact Assoc.get?_set_self ..
  have noUses : ∀ u ∈ ([] : List Use), u.Resolves (g.bind symbol v type).lowering.types :=
    fun _ mem => absurd mem List.not_mem_nil
  refine ⟨⟨⟨?_, ?_⟩, ?_, ?_, inStep.unpoisoned⟩, kept, noUses, ?_⟩
  · refine (Check.vars_declare settled absent).trans ?_
    rw [inStep.mirrors.checked, Stage.bind, View.declare_map]
  · change (Tac.Lower.declare symbol.name type g.lowering).2.env.stack.views id = _
    rw [Tac.Lower.stack_declare, ScopeStack.views_declare_getD id (inStep.declaredHere absent),
      inStep.mirrors.lowered, Stage.bind, View.declare_map]
    rfl
  · intro l open_ name b found
    change l ∈ View.declare g.bindings _ _ at open_
    cases bindings : g.bindings with
    | nil =>
        rw [bindings] at open_
        contradiction
    | cons l₀ rest =>
        have before (l : View Binding) (open_ : l ∈ l₀ :: rest) (found : l name = some b) :
            ∃ t, b.declared.type = some t ∧
              (g.bind symbol v type).lowering.types.get? b.unique = some t := by
          obtain ⟨t, typed, known⟩ := inStep.typed l (bindings ▸ open_) found
          exact ⟨t, typed, kept known⟩
        rw [bindings] at open_
        rcases List.mem_cons.mp open_ with rfl | open_
        · by_cases same : name = symbol.name
          · rw [View.add, if_pos same] at found
            obtain rfl := Option.some.inj found
            exact ⟨t, typed, here⟩
          · rw [View.add, if_neg same] at found
            exact before l₀ List.mem_cons_self found
        · exact before l (List.mem_cons_of_mem _ open_) found
  · exact (Tac.Lower.keeps_declare none_made type mem g.lowering inStep.named).1
  · intro x mem
    obtain rfl := List.mem_singleton.mp mem
    exact Option.isSome_iff_exists.mpr ⟨t, here⟩

/-- A declaration whose initial value has been checked and lowered. -/
theorem follows_declareFound (none_made : NoneMadeUp names) (inStep : g.InStep names)
    {d : Declaration} {found : Option Ty} (mem : d.name.val ∈ names)
    (clean : (Check.declareFound d found g.checking).2.Clean) :
    g.Follows names [] [(Tac.Lower.declare d.name.val d.type.val g.lowering).1]
      { checking := (Check.declareFound d found g.checking).2
        lowering := g.lowering.declared d.name.val d.type.val
        bindings := View.declare g.bindings d.name.val
          ⟨d.info, (Tac.Lower.declare d.name.val d.type.val g.lowering).1⟩ } := by
  obtain ⟨t, initialized, parsed, -, absent, entered⟩ := Check.declareFound_enters clean
  have settled : (Symbol.ofVariable d.name.val t d.name.pos d.length false initialized).var? =
      some d.info := by
    rw [Declaration.info, parsed]
    rfl
  have typed : d.info.type = some t := by rw [Declaration.info, parsed]
  have bound := follows_bind none_made inStep _ mem settled typed parsed absent
  rw [entered]
  exact bound.settle (.refl _) (Tac.Lower.alike_declared g.lowering d.name.val d.type.val) rfl

/-! ### Functions and blocks -/

/-- A heading declares no variable. -/
theorem follows_heading (inStep : g.InStep names) {h : Heading} {defining : Bool}
    (clean : (Check.checkHeading h defining g.checking).2.Clean) :
    g.Follows names [] [] { g with checking := (Check.checkHeading h defining g.checking).2 } := by
  have vars := Check.vars_checkHeading h defining g.checking
  have poisoned := (Check.runs_checkHeading h defining g.checking).poisoned clean
  generalize (Check.checkHeading h defining g.checking).2 = c at *
  refine { Stage.Follows.refl inStep with inStep := ⟨⟨?_, ?_⟩, inStep.typed, inStep.named, ?_⟩ }
  · exact vars.trans inStep.mirrors.checked
  · exact inStep.mirrors.lowered
  · exact poisoned.trans inStep.unpoisoned

/-- Parameters enter the scope of the body of both. -/
theorem follows_params (none_made : NoneMadeUp names) {ps : List Param} {types : List Ty}
    (has : List.Forall₂ Param.Has ps types) (inStep : g.InStep names)
    (mem : ∀ x ∈ ps.filterMap fun p => p.name.map (·.val), x ∈ names)
    (clean : (Check.declareParams ps (types.map some) g.checking).2.Clean) :
    g.Follows names [] (Tac.Lower.params ps g.lowering).1
      { checking := (Check.declareParams ps (types.map some) g.checking).2
        lowering := (Tac.Lower.params ps g.lowering).2
        bindings := Stage.bindParams ps g.lowering g.bindings } := by
  induction has generalizing g with
  | nil => exact .refl inStep
  | @cons p t ps types has _ ih =>
      obtain ⟨parsed, -⟩ := has
      obtain ⟨type, name⟩ := p
      rw [List.map_cons] at clean ⊢
      cases name with
      | none =>
          rw [Check.declareParams_anonymous rfl] at clean ⊢
          exact ih inStep mem clean
      | some name =>
          obtain ⟨absent, entered⟩ := Check.declareParams_enters rfl clean
          rw [entered] at clean ⊢
          have settled : (Symbol.ofVariable name.val t name.pos none true true).var? =
              some (Param.info ⟨type, some name⟩ name) := by
            rw [Param.info, parsed]
            rfl
          have typed : (Param.info ⟨type, some name⟩ name).type = some t := by
            rw [Param.info, parsed]
          have first := follows_bind none_made inStep _ (mem _ List.mem_cons_self) settled typed
            parsed absent
          have rest := ih first.inStep (fun x here => mem x (List.mem_cons_of_mem _ here)) clean
          exact first.append rest

theorem follows_heldParams (none_made : NoneMadeUp names) {h : Heading} {types : List Ty}
    (takes : h.Takes types) (inStep : g.InStep names) (mem : ∀ x ∈ h.declared, x ∈ names)
    (clean : (Check.declareParams h.params (types.map some) g.checking).2.Clean) :
    g.Follows names [] (Tac.Lower.params h.params g.lowering).1
      { checking := (Check.declareParams h.params (types.map some) g.checking).2
        lowering := (Tac.Lower.params h.params g.lowering).2
        bindings := Stage.bindParams h.params g.lowering g.bindings } := by
  unfold Heading.Takes at takes
  cases void : h.takesVoid with
  | true =>
      obtain ⟨⟨type, name⟩, params, anonymous, -⟩ := params_of_takesVoid void
      obtain rfl : types = [] := by simpa [void] using takes
      obtain rfl : name = none := anonymous
      rw [params]
      exact .refl inStep
  | false =>
      rw [void] at takes
      exact follows_params none_made takes inStep mem clean

/-- The scope of a body, when the heading has been checked. -/
theorem follows_openBody (none_made : NoneMadeUp names) {h : Heading} {braces : Braces}
    {result : Option Ty} {types : List Ty} (takes : h.Takes types) (inStep : g.InStep names)
    (mem : ∀ x ∈ h.declared, x ∈ names)
    (clean : (Check.enterBody h braces (result, types.map some) g.checking).2.Clean) :
    g.Follows names [] (Tac.Lower.params h.params (Tac.Lower.openScope g.lowering).2).1
      { checking := (Check.enterBody h braces (result, types.map some) g.checking).2
        lowering := g.lowering.inside h
        bindings := Stage.bindParams h.params (Tac.Lower.openScope g.lowering).2
          ((fun _ => none) :: g.bindings) } := by
  have opened := ((Stage.Follows.refl inStep).check
    (Check.calm_setFunction (some ⟨h.name.val, result, false⟩))).opened
  have calm := Check.calm_openBraces braces
  have params := follows_heldParams none_made takes opened.inStep mem (clean.before (calm _).log)
  exact ((opened.append params).check calm).settle (.refl _) ⟨rfl, rfl, rfl⟩ rfl

/-- At the first statement in the body of a function. -/
def Stage.enterBody (h : Heading) (braces : Braces) (g : Stage) : Stage :=
  let heading := Check.checkHeading h true g.checking
  ⟨(Check.enterBody h braces heading.1 heading.2).2, g.lowering.inside h,
    g.bindingsAfter (.enterBody h braces)⟩

/-- At the first statement of an accepted body, the parameters are in force. -/
theorem follows_enterBody (none_made : NoneMadeUp names) (inStep : g.InStep names) {h : Heading}
    {braces : Braces} (mem : ∀ x ∈ h.declared, x ∈ names)
    (clean : (g.enterBody h braces).checking.Clean) :
    g.Follows names [] (Tac.Lower.params h.params (Tac.Lower.openScope g.lowering).2).1
      (g.enterBody h braces) := by
  unfold Stage.enterBody at clean ⊢
  obtain ⟨c', steady, after⟩ := Check.after_enterBody h braces
    (Check.checkHeading h true g.checking).1 _ Check.checkHeading_reports
  have cleanHeading := (clean.before after.log : c'.Clean).before steady.log
  obtain ⟨result, types, -, -, takes, -, found, -⟩ := Check.checkHeading_accepted cleanHeading
  have headed := follows_heading inStep cleanHeading
  dsimp only at clean ⊢
  rw [found] at clean ⊢
  -- From here on, it does not matter how the heading was checked.
  generalize (Check.checkHeading h true g.checking).2 = c at *
  exact headed.append (follows_openBody none_made takes headed.inStep mem clean)

theorem Stage.InStep.closed (inStep : g.InStep names) : g.closed.InStep names := by
  refine ⟨⟨?_, ?_⟩, ?_, inStep.named.closeScope, ?_⟩
  · refine (Check.vars_closeScope _).trans ?_
    rw [inStep.mirrors.checked, ← List.map_tail]
    rfl
  · have scopes := congrArg (List.map (Scope.view id)) (Tac.Lower.scopes_closeScope g.lowering)
    refine scopes.trans ?_
    rw [List.map_tail]
    exact (congrArg List.tail inStep.mirrors.lowered).trans List.map_tail.symm
  · intro l mem name b found
    exact inStep.typed l (List.mem_of_mem_tail mem) found
  · exact (Check.poisoned_closeScope _).trans inStep.unpoisoned

theorem Stage.Follows.closed {uses : List Use} {xs : List String}
    (follows : g.Follows names uses xs g') : g.Follows names uses xs g'.closed :=
  { follows with inStep := follows.inStep.closed }

/-! ### Single statements -/

/-- Behind a statement without other statements in it. -/
def Stage.behind (targets : Option Targets) (x : { x : Stmt // x.isSingle = true }) (g : Stage) :
    Stage :=
  ⟨(checkStmt x g.checking).2, (Tac.Lower.stmt targets x g.lowering).2,
    g.bindingsAfter (.single x)⟩

theorem follows_declaration (none_made : NoneMadeUp names) (inStep : g.InStep names)
    (targets : Option Targets) {site : Site} {d : Declaration} (mem : d.name.val ∈ names)
    (clean : (checkStmt (.declare site d) g.checking).2.Clean) :
    g.Follows names (Use.ofInit d g)
      (varsOf (Tac.Lower.stmt targets (.declare site d) g.lowering).1)
      (g.behind targets ⟨.declare site d, rfl⟩) := by
  have calm : Check.Calm (Check.visitDeclaration d) := Check.calm_visit _
  have visited := (Stage.Follows.refl inStep).check calm
  have checked : (checkStmt (.declare site d) g.checking).2 = _ :=
    congrArg Prod.snd (Check.checkDeclaration_eq d g.checking)
  rw [checked] at clean
  unfold Stage.behind
  rw [checked]
  obtain ⟨type, name, length, init⟩ := d
  cases init with
  | none =>
      have declared := follows_declareFound none_made visited.inStep mem clean
      have lowered : Tac.Lower.stmt targets (.declare site ⟨type, name, length, none⟩) g.lowering =
          ([], g.lowering.declared name.val type.val) := by
        rw [Tac.Lower.stmt, Tac.Lower.declaration_none]
      rw [lowered]
      exact (visited.append declared).sub (List.nil_subset _)
  | some init =>
      have first := follows_expr init visited.inStep
        (clean.before (Check.after_declareFound _ _ _).log)
        fun source => .copy source
          (.var (Tac.Lower.declare name.val type.val (Tac.Lower.expr init g.lowering).2).1)
      have declared := follows_declareFound none_made first.inStep mem clean
      have lowered : Tac.Lower.stmt targets (.declare site ⟨type, name, length, some init⟩)
          g.lowering = _ := Tac.Lower.declaration_some type name length init
      have mentioned : varsOf ((Tac.Lower.expr init g.lowering).1.1 ++
          [.copy (Tac.Lower.expr init g.lowering).1.2
            (.var (Tac.Lower.declare name.val type.val (Tac.Lower.expr init g.lowering).2).1)]) =
            exprVars init g.lowering ++
              [(Tac.Lower.declare name.val type.val (Tac.Lower.expr init g.lowering).2).1] := by
        simp [exprVars, Tac.Instr.vars, Tac.Operand.vars]
      rw [lowered]
      dsimp only
      rw [mentioned]
      exact visited.append (first.extend declared)

/-- What is assigned to is a variable that both know. -/
theorem follows_target (inStep : g.InStep names) {target : Located String} (index : Option Expr)
    (value : Expr) (around : Tac.Operand → Tac.Instr) {isElement : Bool} {found : Option Ty}
    (clean : (Check.checkTarget target isElement value.pos found g.checking).2.Clean) :
    g.Follows names [⟨.target target index value, g, around⟩] [g.lowering.resolve target.val]
      (g.check (Check.checkTarget target isElement value.pos found)) := by
  obtain ⟨symbol, known, noFunction⟩ := Check.checkTarget_accepted inStep.unpoisoned clean
  exact (inStep.follows_use (.target target index value) around known noFunction).check
    (Check.calm_checkTarget target isElement value.pos found)

/-- The value of an assignment, and then its target, which lowering has resolved before. -/
theorem follows_store {uses : List Use} {xs : List String} (before : g.Follows names uses xs g₁)
    (alike : g₁.lowering.Alike g.lowering) (same : g.bindings = g₁.bindings)
    (index : Option Expr) {target : Located String} {value : Expr} {isElement : Bool}
    (around result : Tac.Operand → Tac.Instr)
    (clean : (Check.checkTarget target isElement value.pos (inferExpr value g₁.checking).1
      { (inferExpr value g₁.checking).2 with assigning := none }).2.Clean) :
    g.Follows names
      (uses ++ Use.ofExpr value around g₁ ++ [⟨.target target index value, { g with
        checking := { (inferExpr value g₁.checking).2 with assigning := none } }, result⟩])
      (xs ++ exprVars value g₁.lowering ++ [g.lowering.resolve target.val])
      { g₁ with
        checking := (Check.checkTarget target isElement value.pos (inferExpr value g₁.checking).1
          { (inferExpr value g₁.checking).2 with assigning := none }).2
        lowering := (Tac.Lower.expr value g₁.lowering).2 } := by
  have cleanValue := clean.before (Check.calm_checkTarget target isElement value.pos _ _).log
  have first := follows_expr value before.inStep cleanValue around
  let atTarget : Stage := { g with
    checking := { (inferExpr value g₁.checking).2 with assigning := none } }
  have upToTarget : g.Follows names _ _ atTarget :=
    (before.append first).settle (Check.calm_setAssigning none _) (alike.expr value) same
  have stored := follows_target upToTarget.inStep index value result clean
  exact (upToTarget.append stored).settle (.refl _) (alike.expr value).symm same.symm

theorem follows_assign (inStep : g.InStep names) (targets : Option Targets) {site : Site}
    {target : Located String} {index : Option Expr} {value : Expr}
    (clean : (Check.checkAssign target index value g.checking).2.Clean) :
    g.Follows names (Use.ofAssign target index value g)
      (varsOf (Tac.Lower.assignment target.val index value g.lowering).1)
      (g.behind targets ⟨.assign site target index value, rfl⟩) := by
  let g₁ : Stage := { g with checking := Check.visitAssign target index g.checking }
  have visited : g.Follows names [] [] g₁ := (Stage.Follows.refl inStep).settle
    (Check.steady_visitAssign target index g.checking) ⟨rfl, rfl, rfl⟩ rfl
  cases index with
  | none =>
      rw [Check.checkAssign_none] at clean
      have stored (around result) := follows_store (.refl visited.inStep) ⟨rfl, rfl, rfl⟩ rfl
        none around result clean
      have mentioned : varsOf (Tac.Lower.assignment target.val none value g.lowering).1 =
          exprVars value g.lowering ++ [g.lowering.resolve target.val] := by
        rw [Tac.Lower.assignment_none]
        simp [exprVars, Tac.Instr.vars, Tac.Operand.vars]
      rw [mentioned]
      exact visited.append (stored _ _)
  | some index =>
      rw [Check.checkAssign_some] at clean
      have calm := Check.calm_checkIndex index.pos (inferExpr index g₁.checking).1
      have cleanTarget := clean.before (Check.calm_checkTarget target true value.pos _ _).log
      have cleanIndex := Check.State.Clean.before cleanTarget (Check.calm_inferExpr value _).log
      have first := follows_expr index visited.inStep (cleanIndex.before (calm _).log)
        fun i => .copy ((g₁.index index).value value) (.element (g.lowering.resolve target.val) i)
      have stored (around result) := follows_store (first.check calm) ⟨rfl, rfl, rfl⟩ rfl
        (some index) around result clean
      refine Stage.Follows.sub (visited.append (stored _ _)) ?_
      change varsOf (Tac.Lower.assignment target.val (some index) value g.lowering).1 ⊆
        exprVars index g.lowering ++ exprVars value (Tac.Lower.expr index g.lowering).2 ++
          [g.lowering.resolve target.val]
      rw [Tac.Lower.assignment_some]
      intro x mem
      simp only [exprVars, Tac.varsOf_append, Tac.varsOf_cons, Tac.varsOf_nil, Tac.Instr.vars,
        Tac.Operand.vars, List.mem_append, List.mem_cons, List.not_mem_nil, or_false] at mem ⊢
      tauto

/-- Both go through a single statement in step. -/
theorem follows_single (none_made : NoneMadeUp names) (inStep : g.InStep names)
    (targets : Option Targets) (x : { x : Stmt // x.isSingle = true })
    (mem : ∀ y ∈ x.val.declared, y ∈ names) (clean : (checkStmt x g.checking).2.Clean) :
    g.Follows names (Use.ofMove (.single x) g) (varsOf (Tac.Lower.stmt targets x g.lowering).1)
      (g.behind targets x) := by
  obtain ⟨x, single⟩ := x
  cases x with
  | declare site d =>
      exact follows_declaration none_made inStep targets (mem _ List.mem_cons_self) clean
  | prototype site h =>
      rw [Check.checkStmt_prototype] at clean
      refine (follows_heading inStep clean).settle ?_ ⟨rfl, rfl, rfl⟩ rfl
      unfold Stage.behind
      rw [Check.checkStmt_prototype]
      exact .refl _
  | assign => exact follows_assign inStep targets clean
  | call site callee args =>
      rw [Check.checkStmt_call] at clean
      have visited := ((Stage.Follows.refl inStep).check (Check.calm_visit 0)).check
        (Check.calm_visit (Check.callTokens args))
      have calm (found) := Check.calm_checkCall callee found false
      have all := follows_args args visited.inStep (clean.before (calm _ _).log)
        fun values => .call callee.val values (g.args args).temp
      rw [show varsOf (Tac.Lower.stmt targets (.call site callee args) g.lowering).1 = _ from
        varsOf_call callee.val args]
      exact (visited.append all).settle (calm _ _) ⟨rfl, rfl, rfl⟩ rfl
  | breakLoop site =>
      have checked := (Stage.Follows.refl inStep).check
        (Check.calm_checkInLoop .breakOutsideLoop site.pos)
      cases targets <;> exact checked
  | continueLoop site =>
      have checked := (Stage.Follows.refl inStep).check
        (Check.calm_checkInLoop .continueOutsideLoop site.pos)
      cases targets <;> exact checked
  | returnValue site value =>
      cases value with
      | none => exact (Stage.Follows.refl inStep).check (Check.calm_checkReturn site.pos none)
      | some e =>
          have visited := (Stage.Follows.refl inStep).check (Check.calm_visit 1)
          have calm (found) := Check.calm_checkResult site.pos found
          have first := follows_expr e visited.inStep (clean.before (calm _ _).log)
            fun value => .ret (some value)
          have mentioned :
              varsOf (Tac.Lower.stmt targets (.returnValue site (some e)) g.lowering).1 =
                exprVars e g.lowering := by
            rw [Tac.Lower.stmt_return]
            simp [exprVars, Tac.Instr.vars]
          rw [mentioned]
          exact (visited.append first).settle (calm _ _) ⟨rfl, rfl, rfl⟩ rfl
  | _ => contradiction

/-! ### Moves between statements -/

/-- Behind a move between statements. -/
def Stage.between (m : Move) (g : Stage) : Stage :=
  ⟨(checkMove m g.checking).2, g.lowering.between m, g.bindingsAfter m⟩

/-- What the code of a condition mentions, if the move has one. -/
def Move.vars (s : Tac.Lower.State) : Move → List String
  | .branch cond _ | .whileTest _ cond | .forTest _ cond => exprVars cond s
  | _ => []

/-- The uses in an accepted condition are resolved by both. -/
theorem follows_test (inStep : g.InStep names) {cond : Expr} (holds : Tac.Label)
    (clean : (inferExpr cond g.checking).2.Clean) :
    g.Follows names (Use.ofTest cond holds g) (exprVars cond g.lowering) (g.expr cond) :=
  follows_expr cond inStep clean _

/-- Both go on between statements in step. -/
theorem follows_between (inStep : g.InStep names) {m : Move} (between : m.isBetween = true)
    (clean : (checkMove m g.checking).2.Clean) :
    g.Follows names (Use.ofMove m g) (m.vars g.lowering) (g.between m) := by
  have start := Stage.Follows.refl inStep
  cases m with
  | next x => exact start.check (Check.calm_checkTerminator x)
  | enter braces => exact start.opened.check (Check.calm_openBraces braces)
  | leave braces => exact (start.check (Check.calm_closeBraces braces)).closed
  | branch cond hasElse =>
      have visited := start.check (Check.calm_visit (if hasElse then 4 else 3))
      have tested := follows_test visited.inStep ((Tac.Lower.expr cond g.lowering).2.label 0) clean
      exact (visited.append tested).skip 2
  | whileTest _ cond =>
      have entered := ((start.check (Check.calm_visit 3)).check Check.calm_enterLoop).skip 3
      exact entered.append (follows_test entered.inStep (g.lowering.label 1) clean)
  | forTest _ cond =>
      have entered := (start.check Check.calm_enterLoop).skip 4
      exact entered.append (follows_test entered.inStep (g.lowering.label 1) clean)
  | whileEnd => exact start.check Check.calm_leaveLoop
  | forStart => exact (start.check (Check.calm_visit 5)).opened
  | forEnd => exact (start.check Check.calm_leaveLoop).closed
  | otherwise => exact start.skip 1
  | join | forUpdate => exact start
  | _ => contradiction

/-! ### Names in code -/

/-- The names in what is set aside for the function around. -/
def Tac.Lower.Frame.vars : Frame → List String
  | .body params outside => params ++ varsOf outside
  | _ => []

/-- The names in all code that there is. -/
def Tac.Lower.Walk.vars (w : Walk) : List String :=
  varsOf w.code ++ varsOf w.state.functions ++ w.frames.flatMap Frame.vars

section Vars

variable {m : Move} {w w' : Walk}

theorem vars_single (x : { x : Stmt // x.isSingle = true }) (targets : Option Targets) (w : Walk) :
    (w.behind (Tac.Lower.stmt targets x w.state)).vars ⊆
      w.vars ++ varsOf (Tac.Lower.stmt targets x w.state).1 := by
  have functions := Tac.Lower.functions_stmt targets x
    (Walk.isDefinitionFree_of_isSingle x.2) w.state
  intro y
  simp only [Walk.vars, Walk.behind, functions, Tac.varsOf_append, List.mem_append]
  tauto

theorem vars_enterBody (h : Heading) (w : Walk) :
    (w.enterBody h).vars ⊆
      w.vars ++ (Tac.Lower.params h.params (Tac.Lower.openScope w.state).2).1 := by
  have functions : (w.enterBody h).state.functions = w.state.functions :=
    (Tac.Lower.params_unchanged h.params (Tac.Lower.openScope w.state).2).2
  intro y
  rw [Walk.vars, functions]
  simp only [Walk.vars, Walk.enterBody, Frame.vars, Tac.varsOf_nil, List.flatMap_cons,
    List.mem_append, List.not_mem_nil, false_or]
  tauto

/-- At its end, the code of a function is set aside. -/
theorem vars_leaveBody {h : Heading} {params : List String} {outside : List Tac.Instr}
    (around : w.frames = .body params outside :: w'.frames) (code : w'.code = outside)
    (state : w'.state = w.state.behindBody h params w.code) : w'.vars ⊆ w.vars := by
  intro y
  simp only [Walk.vars, around, code, state, Tac.Lower.State.behindBody, Frame.vars,
    Tac.Instr.vars, Tac.varsOf_append, Tac.varsOf_cons, List.flatMap_cons, List.mem_append]
  tauto

theorem varsOf_test (cond : Expr) (s : Tac.Lower.State) (holds fails : Tac.Label) :
    varsOf (Tac.Lower.branching (Tac.Lower.expr cond s).1 holds fails) = exprVars cond s :=
  Tac.varsOf_branching _ _ _

theorem exprVars_skip (e : Expr) (s : Tac.Lower.State) (count : Nat) :
    exprVars e (s.skip count) = exprVars e s := rfl

/-- Between statements the code of conditions is made, and nothing is set aside. -/
theorem code_between (between : m.isBetween = true) (step : Tac.Lower.pass m w = some w') :
    varsOf w'.code = varsOf w.code ++ m.vars w.state ∧
      w'.frames.flatMap Frame.vars = w.frames.flatMap Frame.vars := by
  unfold Tac.Lower.pass at step
  split at step <;> cases step
  case h_2 | h_3 | h_4 => contradiction
  all_goals
    refine ⟨?_, rfl⟩
    simp [Move.vars, Walk.branch, Walk.whileTest, Walk.forStart, varsOf_test, exprVars_skip,
      Tac.Instr.vars]

theorem functions_between (m : Move) (s : Tac.Lower.State) :
    (s.between m).functions = s.functions := by
  cases m <;> rfl

theorem vars_between (between : m.isBetween = true) (step : Tac.Lower.pass m w = some w') :
    w'.vars ⊆ w.vars ++ m.vars w.state := by
  obtain ⟨code, frames⟩ := code_between between step
  intro y
  rw [Walk.vars, Tac.Lower.state_between between step, functions_between, code, frames]
  simp only [Walk.vars, List.mem_append]
  tauto

end Vars

/-! ### Programs -/

/-- At the end of a function its scope is closed by both. -/
theorem follows_leaveBody (inStep : g.InStep names) (h : Heading) (braces : Braces)
    (outer : Option Check.Context) (params : List String) (code : List Tac.Instr) :
    g.Follows names [] [] ⟨g.checking.behindBody h braces outer,
      g.lowering.behindBody h params code, g.bindings.tail⟩ := by
  have closed := ((Stage.Follows.refl inStep).check (Check.calm_closeBraces braces)).closed
  refine closed.settle ?_ ⟨rfl, rfl, rfl⟩ rfl
  exact (Check.calm_setFunction _ _).trans (Check.calm_checkReturned h.name _ _)

/-- One move keeps both in step. -/
theorem follows_step (none_made : NoneMadeUp names) {m : Move} {t t' : Tour}
    (step : Tour.pass m t = some t') (mem : ∀ n ∈ m.declared, n ∈ names)
    (inStep : t.stage.InStep names) (clean : t'.checking.state.Clean) :
    ∃ xs, t.stage.Follows names (Use.ofMove m t.stage) xs t'.stage ∧
      t'.lowering.vars ⊆ t.lowering.vars ++ xs := by
  obtain ⟨checked, lowered, -⟩ := Tour.step_parts step
  have stage {c s} (found : t'.checking.state = c) (same : t'.lowering.state = s) :=
    Tour.stage_eq step found same
  rcases Tac.Lower.step_cases lowered with ⟨x, rfl, same⟩ | ⟨h, braces, rfl, same⟩ |
    ⟨h, braces, params, outside, rfl, around, code, state⟩ | ⟨between, -⟩
  · have found : t'.checking.state = _ := congrArg _ (Option.some_inj.mp checked).symm
    rw [found] at clean
    rw [stage found (congrArg _ same), same]
    exact ⟨_, follows_single none_made inStep t.lowering.targets x mem clean,
      vars_single x t.lowering.targets t.lowering⟩
  · have found : t'.checking.state = (t.stage.enterBody h braces).checking :=
      congrArg _ (Option.some_inj.mp checked).symm
    rw [found] at clean
    rw [stage found (congrArg _ same), same]
    exact ⟨_, follows_enterBody none_made inStep mem clean, vars_enterBody h t.lowering⟩
  · obtain ⟨outer, found⟩ := Check.step_leaveBody checked
    rw [stage found state]
    exact ⟨[], follows_leaveBody inStep h braces outer params t.lowering.code,
      List.Subset.trans (vars_leaveBody around code state) (List.subset_append_left _ _)⟩
  · have found : t'.checking.state = _ := congrArg _ (Check.step_between between checked)
    rw [found] at clean
    rw [stage found (Tac.Lower.state_between between lowered)]
    exact ⟨_, follows_between inStep between clean, vars_between between lowered⟩

/-- Both go on in step as long as nothing is found to be wrong. -/
theorem follows_run (none_made : NoneMadeUp names) {ms : List Move} {t t' : Tour}
    (ran : Tour.pass.run ms t = some t') (mem : ∀ n ∈ ms.flatMap Move.declared, n ∈ names)
    (inStep : t.stage.InStep names) (clean : t'.checking.state.Clean) :
    ∃ xs, t.stage.Follows names (Tour.pass.noted (fun m t => Use.ofMove m t.stage) ms t) xs
        t'.stage ∧ t'.lowering.vars ⊆ t.lowering.vars ++ xs := by
  induction ms generalizing t with
  | nil =>
      cases ran
      exact ⟨[], .refl inStep, List.subset_append_left _ _⟩
  | cons m ms ih =>
      obtain ⟨t₁, step, later⟩ := Option.bind_eq_some_iff.mp ran
      rw [List.flatMap_cons, List.forall_mem_append] at mem
      have clean₁ : t₁.checking.state.Clean :=
        clean.before (Check.log_run (Tour.covers_checking.run later))
      obtain ⟨xs, first, more⟩ := follows_step none_made step mem.1 inStep clean₁
      obtain ⟨ys, others, further⟩ := ih later mem.2 first.inStep
      rw [Pass.noted_cons step]
      refine ⟨xs ++ ys, first.append others, List.Subset.trans further ?_⟩
      rw [← List.append_assoc]
      exact List.append_subset.mpr
        ⟨List.subset_append_of_subset_left _ more, List.subset_append_right _ _⟩

/-- In an accepted program whose names have no point in them, every variable and array that the
code names has a type, and each use of a variable in the tree is in the code, with the name of the
declaration that checking resolves the use to. -/
theorem resolved_alike {p : Program} (accepted : p.check.diagnostics.hasErrors = false)
    (dotless : ∀ x ∈ Stmt.declaredIn p.stmts, '.' ∉ x.toList) :
    (∀ i ∈ p.lower.1.instrs, ∀ x ∈ i.vars, (p.lower.1.types.get? x).isSome = true) ∧
      p.uses.map Use.occurrence = Stmt.occurrencesIn p.stmts ∧
      ∀ u ∈ p.uses, u.Agrees p.lower.1 := by
  have none_made := Tac.noneMadeUp_of_dotless dotless
  obtain ⟨t, ran, checked, lowered⟩ := run_tour p
  have clean : t.checking.state.Clean := checked ▸ p.accepted_iff_clean.mp accepted
  obtain ⟨xs, follows, mentioned⟩ := follows_run none_made ran
    (fun _ mem => (Stmt.declared_movesIn p.stmts).subset mem) (inStep_start _) clean
  have types : t.stage.lowering.types = p.lower.1.types := by
    rw [Tour.stage, lowered]
    rfl
  have all : varsOf p.lower.1.instrs ⊆ t.lowering.vars := by
    have parts : varsOf p.lower.1.instrs = _ := Tac.varsOf_append _ _
    rw [lowered, parts]
    exact List.subset_append_left _ _
  refine ⟨fun i mem x here => ?_, occurrences_uses p, fun u mem => ?_⟩
  · exact types ▸ follows.known x (mentioned (all (List.mem_flatMap.mpr ⟨i, mem, here⟩)))
  · exact (types ▸ follows.resolves u mem).agrees (lowered_uses p u mem)

/-- A name that stands for a global variable, a parameter and two more variables. -/
def shadowed : Program where
  stmts :=
    [.declare {} ⟨⟨"int", {}⟩, ⟨"x", {}⟩, some 2, none⟩,
      .define ⟨⟨"int", {}⟩, ⟨"f", {}⟩, [⟨⟨"char", {}⟩, some ⟨"x", {}⟩⟩]⟩ {}
        [.declare {} ⟨⟨"int", {}⟩, ⟨"y", {}⟩, none, some (.var {} "x")⟩,
          .block {}
            [.declare {} ⟨⟨"double", {}⟩, ⟨"x", {}⟩, none, some (.var {} "x")⟩,
              .assign {} ⟨"x", {}⟩ none (.var {} "y")],
          .forLoop (some (.declare {} ⟨⟨"int", {}⟩, ⟨"x", {}⟩, none, some (.var {} "y")⟩))
            (.var {} "x") (some (.assign {} ⟨"x", {}⟩ none (.literal {} (.number "0")))) {} [],
          .returnValue {} (some (.var {} "x"))],
      .assign {} ⟨"x", {}⟩ (some (.literal {} (.number "0")))
        (.element {} "x" (.literal {} (.number "1")))]

theorem shadowed_alike :
    shadowed.check.diagnostics.hasErrors = false ∧
      (∀ x ∈ Stmt.declaredIn shadowed.stmts, '.' ∉ x.toList) ∧
      (shadowed.uses.map fun u => u.stage.lowering.resolve u.occurrence.name) =
        ["x.1", "x.1", "y", "x.2", "y", "x.3", "x.3", "x.1", "x", "x"] ∧
      ∀ u ∈ shadowed.uses, u.Agrees shadowed.lower.1 := by
  have accepted : shadowed.check.diagnostics.hasErrors = false := by decide +kernel
  have dotless : ∀ x ∈ Stmt.declaredIn shadowed.stmts, '.' ∉ x.toList := by decide
  refine ⟨accepted, dotless, by decide +kernel, ?_⟩
  exact (resolved_alike accepted dotless).2.2

end BraceLang
