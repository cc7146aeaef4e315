import BraceLang.Proofs.Check.Meanings
import BraceLang.Proofs.Check.Steps
import BraceLang.Proofs.Trees

/-!
How the open scopes and the log grow while statements are checked, whatever is found.

**Main results.** `runs_checkStmt`: checking a statement only appends to the log, keeps the scopes
open, and takes no meaning from any name; without headings in it, a statement leaves all scopes
alone, apart from a declaration, which adds to the current one. Names are poisoned only after an
error.
-/

namespace BraceLang

/-- The parameter names a type that variables can have. -/
def Param.Has (p : Param) (t : Ty) : Prop := Ty.parse? p.type.val = some t ∧ t ≠ .void

/-- The types of the arguments that a heading asks for. -/
def Heading.Takes (h : Heading) (types : List Ty) : Prop :=
  if h.takesVoid then types = [] else List.Forall₂ Param.Has h.params types

namespace Check

variable {α β : Type}

/-- The later state has all that was logged before, and no name has lost its meaning. If the code
in between is `free` of headings, all scopes but the innermost `n` are unchanged. Nothing is
poisoned without an error. -/
structure State.After (n : Nat) (free : Bool) (c c' : State) : Prop where
  log : c.diagnostics.entries <+: c'.diagnostics.entries
  layers : List.Forall₂ View.Le c.layers c'.layers
  outer : free = true → c'.layers.drop n = c.layers.drop n
  poisoned : c'.Clean → c'.poisoned = c.poisoned

section After

variable {n : Nat} {free : Bool} {c c' c'' : State}

theorem State.Steady.after (steady : c.Steady c') : c.After n free c' where
  log := steady.log
  layers := steady.layers ▸ View.forall₂_refl _
  outer _ := by rw [steady.layers]
  poisoned _ := steady.poisoned

theorem State.After.trans (first : c.After n free c') (second : c'.After n free c'') :
    c.After n free c'' where
  log := first.log.trans second.log
  layers := View.forall₂_trans first.layers second.layers
  outer isFree := (second.outer isFree).trans (first.outer isFree)
  poisoned clean := (second.poisoned clean).trans (first.poisoned (clean.before second.log))

theorem State.After.weaken {n' : Nat} {free' : Bool} (after : c.After n free c') (more : n ≤ n')
    (implies : free' = true → free = true) : c.After n' free' c' := by
  refine ⟨after.log, after.layers, ?_, after.poisoned⟩
  intro isFree
  obtain ⟨k, rfl⟩ := Nat.exists_eq_add_of_le more
  rw [← List.drop_drop, after.outer (implies isFree), List.drop_drop]

/-- An action after which the scopes have grown. -/
def Runs (n : Nat) (free : Bool) (action : Check α) : Prop :=
  ∀ c : State, c.After n free (action c).2

theorem Calm.runs {action : Check α} (calm : Calm action) : Runs n free action :=
  fun c => (calm c).after

theorem Runs.bind {action : Check α} {next : α → Check β} (first : Runs n free action)
    (second : ∀ a, Runs n free (next a)) : Runs n free (action >>= next) := fun c =>
  (first c).trans (second (action c).1 (action c).2)

theorem Runs.weaken {n' : Nat} {free' : Bool} {action : Check α} (runs : Runs n free action)
    (more : n ≤ n') (implies : free' = true → free = true) : Runs n' free' action :=
  fun c => (runs c).weaken more implies

theorem layers_openScope (c : State) :
    (openScope c).2.layers = (fun _ => none) :: c.layers := rfl

theorem layers_closeScope (c : State) : (closeScope c).2.layers = c.layers.tail := by
  rw [closeScope_eq]
  obtain ⟨⟨⟨scopes⟩, journal⟩, _⟩ := c
  cases scopes with
  | nil => rfl
  | cons s rest => exact (calm_sweep s.values _).layers

theorem vars_closeScope (c : State) : (closeScope c).2.vars = c.vars.tail := by
  rw [closeScope_eq]
  obtain ⟨⟨⟨scopes⟩, journal⟩, _⟩ := c
  cases scopes with
  | nil => rfl
  | cons s rest => exact (calm_sweep s.values _).vars

theorem log_closeScope (c : State) :
    c.diagnostics.entries <+: (closeScope c).2.diagnostics.entries := by
  rw [closeScope_eq]
  split
  · exact List.prefix_rfl
  · exact (calm_sweep _ { c with env := c.env.leave.2 }).log

theorem poisoned_closeScope (c : State) : (closeScope c).2.poisoned = c.poisoned := by
  rw [closeScope_eq]
  split
  · rfl
  · exact (calm_sweep _ { c with env := c.env.leave.2 }).poisoned

/-- What is reported inside of a block is in the log after it. -/
theorem log_inBlock (braces : Braces) (inside : Check Unit) (c : State) :
    (inside (openBraces braces (openScope c).2).2).2.diagnostics.entries <+:
      (inBlock braces inside c).2.diagnostics.entries := by
  rw [inBlock_eq]
  exact (calm_closeBraces braces _).log.trans (log_closeScope _)

/-- What happens in a scope of its own leaves the scopes around it alone. -/
theorem State.After.bracket (inside : (openScope c).2.After 1 free c') :
    c.After 0 free (closeScope c').2 := by
  have log := log_closeScope c'
  refine ⟨inside.log.trans log, ?_, ?_, ?_⟩
  · rw [layers_closeScope]
    have layers := inside.layers
    rw [layers_openScope] at layers
    generalize c'.layers = inner at layers ⊢
    cases layers with
    | cons _ rest => exact rest
  · intro isFree
    rw [layers_closeScope]
    simpa [layers_openScope] using inside.outer isFree
  · intro clean
    rw [poisoned_closeScope]
    exact inside.poisoned (clean.before log)

theorem Runs.bracket {inside : Check α} (runs : Runs 1 free inside) :
    Runs 0 free (do openScope; let _ ← inside; closeScope) :=
  fun c => (runs (openScope c).2).bracket

theorem runs_declare (symbol : Symbol) : Runs 1 true (declare symbol) := by
  intro c
  change c.After 1 true { c with env := (c.env.declare symbol.name symbol).2 }
  unfold Env.declare
  cases declared : c.env.stack.declare? symbol.name symbol with
  | none => exact (State.Steady.refl c).after
  | some stack =>
      obtain ⟨layers, outer⟩ := ScopeStack.le_declare? Symbol.meaning declared
      refine ⟨List.prefix_rfl, layers, fun _ => ?_, fun _ => rfl⟩
      rw [List.drop_one, List.drop_one]
      exact outer

/-- Complaining leaves an error behind. -/
theorem not_clean_complain (finding : Finding) (pos : Position) (c : State) :
    ¬(complain finding pos c).2.Clean := by
  intro clean
  change (c.diagnostics.entries ++ [(⟨.error, finding, pos⟩ : Diagnostic)]).any _ = false at clean
  simp [Diagnostic.isError] at clean

/-- A variable whose type is unknown has been reported before. -/
theorem after_declareVariable {name : Located String} {type? : Option Ty} {length : Option UInt32}
    {isParam initialized : Bool} (reported : type? = none → ¬c.Clean) :
    c.After 1 true (declareVariable name type? length isParam initialized c).2 := by
  cases type? with
  | none =>
      have bad := reported rfl
      exact ⟨List.prefix_rfl, View.forall₂_refl _, fun _ => rfl, fun clean => absurd clean bad⟩
  | some t => exact runs_declare _ c

theorem resolveType_reports {text : Located String} (unknown : (resolveType text c).1 = none) :
    ¬(resolveType text c).2.Clean := by
  rw [resolveType_eq] at unknown ⊢
  cases parsed : Ty.parse? text.val with
  | some t =>
      rw [parsed] at unknown
      exact (Option.some_ne_none t unknown).elim
  | none => exact not_clean_complain _ _ c

/-- The type of a variable is known, or an error says that it is not. -/
theorem resolveVariableType_cases (text : Located String) (name : String) (pos : Position)
    (c : State) :
    (∃ t, Ty.parse? text.val = some t ∧ t ≠ .void ∧
      resolveVariableType text name pos c = (some t, c)) ∨
    (resolveVariableType text name pos c).1 = none ∧
      ¬(resolveVariableType text name pos c).2.Clean := by
  rw [resolveVariableType_eq, resolveType_eq]
  cases parsed : Ty.parse? text.val with
  | none => exact .inr ⟨rfl, not_clean_complain _ _ c⟩
  | some t =>
      cases t with
      | void => exact .inr ⟨rfl, not_clean_complain _ _ c⟩
      | _ => exact .inl ⟨_, rfl, by decide, rfl⟩

/-! ### Declarations -/

theorem calm_initType (d : Declaration) : Calm (initType d) := by
  unfold initType
  split
  · exact .pure _
  · exact calm_inferExpr _

theorem after_declareFound (d : Declaration) (found : Option Ty) (c : State) :
    c.After 1 true (declareFound d found c).2 := by
  rw [declareFound_eq]
  split
  · exact (calm_complain _ _ c).after
  · have resolved := calm_resolveVariableType d.type d.name.val d.name.pos c
    have stored := calm_complainOf
      (initFault? d found (resolveVariableType d.type d.name.val d.name.pos c).1)
      (resolveVariableType d.type d.name.val d.name.pos c).2
    refine (resolved.trans stored).after.trans (after_declareVariable ?_)
    intro unknown clean
    rcases resolveVariableType_cases d.type d.name.val d.name.pos c with ⟨t, _, _, known⟩ | ⟨_, bad⟩
    · rw [known] at unknown
      exact (Option.some_ne_none t unknown).elim
    · exact bad (clean.before stored.log)

theorem runs_checkDeclaration (d : Declaration) : Runs 1 true (checkDeclaration d) := by
  intro c
  rw [checkDeclaration_eq]
  have visited : c.Steady (visitDeclaration d c).2 := calm_visit _ c
  exact (visited.trans (calm_initType d _)).after.trans (after_declareFound d _ _)

/-! ### Headings -/

/-- The type of a parameter is resolved as that of a variable. -/
def resolveParam (p : Param) : Check (Option Ty) :=
  resolveVariableType p.type ((p.name.map (·.val)).getD Ty.void.name) p.type.pos

theorem calm_resolveParam (p : Param) : Calm (resolveParam p) := calm_resolveVariableType _ _ _

theorem meaning_completed (names : List (Option String)) (symbol : Symbol) :
    (completed names symbol).meaning = symbol.meaning := by
  unfold completed
  split
  · rename_i signature kind
    simp [Symbol.meaning, Symbol.signature?, kind]
  · rfl

theorem var?_completed (names : List (Option String)) (symbol : Symbol) :
    (completed names symbol).var? = symbol.var? := by
  unfold completed
  split
  · rename_i signature kind
    simp [Symbol.var?, kind]
  · rfl

theorem steady_completed (c : State) (name : String) (names : List (Option String)) :
    c.Steady { c with env := c.env.updateGlobal name (completed names) } := by
  refine ⟨List.prefix_rfl, ?_, ?_, rfl⟩
  · exact c.env.stack.views_updateGlobal Symbol.meaning name (meaning_completed names)
  · exact congrArg (List.map View.present)
      (c.env.stack.views_updateGlobal Symbol.var? name (var?_completed names))

theorem runs_declareFunction (h : Heading) (result : Ty) (types : List Ty) (defining : Bool) :
    Runs 0 false (declareFunction h result types defining) := by
  intro c
  rw [declareFunction_eq]
  cases standing h.name.val result types defining (c.env.stack.lookupGlobal h.name.val) with
  | fresh =>
      dsimp only
      unfold Env.declareGlobal
      cases declared : c.env.stack.declareGlobal? h.name.val _ with
      | none => exact (State.Steady.refl c).after
      | some stack =>
          exact ⟨List.prefix_rfl, ScopeStack.le_declareGlobal? Symbol.meaning declared,
            fun isFree => by contradiction, fun _ => rfl⟩
  | fits =>
      cases defining with
      | false => exact (State.Steady.refl c).after
      | true => exact (steady_completed c _ _).after
  | conflict finding => exact (calm_complain _ _ c).after

theorem runs_enterFunction (h : Heading) (result? : Option Ty) (types? : List (Option Ty))
    (defining : Bool) : Runs 0 false (enterFunction h result? types? defining) := by
  unfold enterFunction
  split
  · exact runs_declareFunction h _ _ defining
  · exact (Calm.pure _).runs

theorem runs_checkHeading (h : Heading) (defining : Bool) :
    Runs 0 false (checkHeading h defining) := by
  intro c
  rw [checkHeading_eq]
  have types := ((calm_visit h.tokens c).trans (calm_resolveType h.result _)).trans
    (calm_paramTypes h _)
  exact types.after.trans (runs_enterFunction h _ _ defining _)

theorem vars_declareFunction (h : Heading) (result : Ty) (types : List Ty) (defining : Bool)
    (c : State) : (declareFunction h result types defining c).2.vars = c.vars := by
  rw [declareFunction_eq]
  cases standing h.name.val result types defining (c.env.stack.lookupGlobal h.name.val) with
  | fresh =>
      dsimp only
      unfold Env.declareGlobal
      cases declared : c.env.stack.declareGlobal? h.name.val _ with
      | none => rfl
      | some stack => exact ScopeStack.present_declareGlobal? declared rfl
  | fits =>
      cases defining with
      | false => rfl
      | true => exact (steady_completed c _ _).vars
  | conflict finding => exact (calm_complain _ _ c).vars

theorem vars_enterFunction (h : Heading) (result? : Option Ty) (types? : List (Option Ty))
    (defining : Bool) (c : State) :
    (enterFunction h result? types? defining c).2.vars = c.vars := by
  unfold enterFunction
  cases result? with
  | none => rfl
  | some result =>
      cases types?.mapM id with
      | none => rfl
      | some types => exact vars_declareFunction h result types defining c

/-- A heading declares no variable. -/
theorem vars_checkHeading (h : Heading) (defining : Bool) (c : State) :
    (checkHeading h defining c).2.vars = c.vars := by
  rw [checkHeading_eq]
  have types := ((calm_visit h.tokens c).trans (calm_resolveType h.result _)).trans
    (calm_paramTypes h _)
  exact (vars_enterFunction h _ _ defining _).trans types.vars

theorem resolveParams_accepted (params : List Param) (c : State)
    (clean : (params.mapM resolveParam c).2.Clean) :
    ∃ types : List Ty, (params.mapM resolveParam c).1 = types.map some ∧
      List.Forall₂ Param.Has params types := by
  induction params generalizing c with
  | nil => exact ⟨[], rfl, .nil⟩
  | cons p rest ih =>
      rw [mapM_cons_eq] at clean ⊢
      dsimp only at clean ⊢
      obtain ⟨types, known, has⟩ := ih _ clean
      rcases resolveVariableType_cases p.type ((p.name.map (·.val)).getD Ty.void.name) p.type.pos c
        with ⟨t, parsed, notVoid, resolved⟩ | ⟨_, bad⟩
      · refine ⟨t :: types, ?_, .cons ⟨parsed, notVoid⟩ has⟩
        rw [known, resolveParam, resolved]
        rfl
      · exact absurd (clean.before (Calm.mapM calm_resolveParam rest _).log) bad

/-- If no error is logged, all parameters have types. -/
theorem paramTypes_accepted {h : Heading} (clean : (paramTypes h c).2.Clean) :
    ∃ types : List Ty, (paramTypes h c).1 = types.map some ∧ h.Takes types := by
  unfold paramTypes at clean ⊢
  unfold Heading.Takes
  cases void : h.takesVoid with
  | true => exact ⟨[], rfl, rfl⟩
  | false =>
      rw [void] at clean
      exact resolveParams_accepted h.params c clean

/-- A parameter whose type is unknown has been reported. -/
theorem checkHeading_reports {h : Heading} {defining : Bool}
    (unknown : none ∈ (checkHeading h defining c).1.2) : ¬(checkHeading h defining c).2.Clean := by
  rw [checkHeading_eq] at unknown ⊢
  intro clean
  obtain ⟨types, known, _⟩ :=
    paramTypes_accepted (clean.before (runs_enterFunction h _ _ defining _).log)
  simp [known] at unknown

theorem after_declareParams : (params : List Param) → (types : List (Option Ty)) → (c : State) →
    (none ∈ types → ¬c.Clean) → c.After 1 true (declareParams params types c).2
  | [], _, c, _ => by
      unfold declareParams
      exact (State.Steady.refl c).after
  | _ :: _, [], c, _ => by
      unfold declareParams
      exact (State.Steady.refl c).after
  | p :: params, type? :: types, c, reported => by
      unfold declareParams
      have others {c' : State} (first : c.After 1 true c') :
          c.After 1 true (declareParams params types c').2 :=
        first.trans (after_declareParams params types c' fun unknown clean =>
          reported (List.mem_cons_of_mem _ unknown) (clean.before first.log))
      cases p.name with
      | none => exact others (State.Steady.refl c).after
      | some name =>
          have here : type? = none → ¬c.Clean := fun unknown =>
            reported (unknown ▸ List.mem_cons_self)
          change c.After 1 true ((if c.env.stack.declaredHere name.val = true then _ else _ :
            Check Unit) c).2
          split
          · exact others (calm_complain _ _ c).after
          · exact others (after_declareVariable here)

/-- A body starts in a new scope, to which its parameters are added. -/
theorem after_enterBody (h : Heading) (braces : Braces) (found : Option Ty × List (Option Ty))
    (c : State) (reported : none ∈ found.2 → ¬c.Clean) :
    ∃ c', c.Steady c' ∧ (openScope c').2.After 1 true (enterBody h braces found c).2 := by
  let named : State := { c with function := some { name := h.name.val, result := found.1 } }
  refine ⟨named, ⟨List.prefix_rfl, rfl, rfl, rfl⟩, ?_⟩
  have params := after_declareParams h.params found.2 (openScope named).2 reported
  exact params.trans (calm_visit _ _).after

theorem after_checkBody {h : Heading} {braces : Braces} {body : List Stmt}
    {found : Option Ty × List (Option Ty)} (runs : Runs 1 free (checkStmts body)) (c : State)
    (reported : none ∈ found.2 → ¬c.Clean) :
    c.After 0 free (checkBody h braces body found c).2 := by
  rw [checkBody_eq]
  obtain ⟨c', named, params⟩ := after_enterBody h braces found c reported
  have inside := (params.weaken (Nat.le_refl 1) fun _ => rfl).trans (runs _) |>.trans
    (calm_closeBraces braces _).after
  have outside := named.after.trans inside.bracket
  exact outside.trans ((calm_setFunction _).bind (fun _ => calm_checkReturned h.name _) _).after

/-- What is reported inside of a function is in the log after it. -/
theorem log_inBody (h : Heading) (braces : Braces) (body : List Stmt)
    (found : Option Ty × List (Option Ty)) (c : State) :
    (checkStmts body (enterBody h braces found c).2).2.diagnostics.entries <+:
      (checkBody h braces body found c).2.diagnostics.entries := by
  rw [checkBody_eq]
  have closed := (calm_closeBraces braces (checkStmts body (enterBody h braces found c).2).2).log
  exact (closed.trans (log_closeScope _)).trans
    ((calm_setFunction _).bind (fun _ => calm_checkReturned h.name _) _).log

/-- A function leaves the scopes around it alone, apart from its heading. -/
theorem runs_define {h : Heading} {braces : Braces} {body : List Stmt}
    (runs : Runs 1 false (checkStmts body)) :
    Runs 0 false (checkStmt (.define h braces body)) := by
  intro c
  rw [checkStmt_define]
  -- Parameters of unknown type have been reported with the heading.
  exact (runs_checkHeading h true c).trans (after_checkBody runs _ checkHeading_reports)

theorem runs_inBlock {inside : Check Unit} (braces : Braces) (runs : Runs 1 free inside) :
    Runs 0 free (inBlock braces inside) :=
  Runs.bracket ((calm_visit _).runs.bind fun _ => runs.bind fun _ => (calm_closeBraces braces).runs)

mutual

/-- Checking a statement keeps all scopes and what stands in them. Without headings it changes
none of them, apart from a declaration, which adds to the current scope. -/
theorem runs_checkStmt : (x : Stmt) → Runs x.reach x.isHeadingFree (checkStmt x)
  | .declare _ d => by
      rw [checkStmt]
      exact runs_checkDeclaration d
  | .prototype _ heading => by
      rw [checkStmt]
      exact (runs_checkHeading heading false).bind fun _ => (Calm.pure _).runs
  | .define heading braces body =>
      runs_define ((runs_checkStmts body).weaken (Nat.le_refl 1) fun isFree => by contradiction)
  | .assign _ target index value => by
      rw [checkStmt]
      exact (calm_checkAssign target index value).runs
  | .call _ callee args => by
      rw [checkStmt]
      exact ((calm_visit 0).bind fun _ => (calm_visit _).bind fun _ =>
        (calm_inferArgs args).bind fun found =>
          (calm_checkCall callee found false).bind fun _ => .pure _).runs
  | .block braces body => by
      rw [checkStmt]
      exact runs_inBlock braces (runs_checkStmts body)
  | .ifThen cond braces body => by
      rw [checkStmt]
      exact (calm_visit 3).runs.bind fun _ => (calm_inferExpr cond).runs.bind fun _ =>
        runs_inBlock braces (runs_checkStmts body)
  | .ifElse cond braces body elseBraces elseBody => by
      rw [checkStmt]
      have first : Runs 0 (Stmt.allHeadingFree body && Stmt.allHeadingFree elseBody)
          (inBlock braces (checkStmts body)) :=
        (runs_inBlock braces (runs_checkStmts body)).weaken (Nat.le_refl 0)
          fun both => (Bool.and_eq_true_iff.mp both).1
      have second : Runs 0 (Stmt.allHeadingFree body && Stmt.allHeadingFree elseBody)
          (inBlock elseBraces (checkStmts elseBody)) :=
        (runs_inBlock elseBraces (runs_checkStmts elseBody)).weaken (Nat.le_refl 0)
          fun both => (Bool.and_eq_true_iff.mp both).2
      exact (calm_visit 4).runs.bind fun _ => (calm_inferExpr cond).runs.bind fun _ =>
        first.bind fun _ => second
  | .whileLoop cond braces body => by
      rw [checkStmt]
      exact (calm_visit 3).runs.bind fun _ => calm_enterLoop.runs.bind fun _ =>
        (calm_inferExpr cond).runs.bind fun _ =>
          (runs_inBlock braces (runs_checkStmts body)).bind fun _ => calm_leaveLoop.runs
  | .forLoop init cond update braces body => by
      intro c
      obtain ⟨free, isFree⟩ : ∃ free,
          free = (Stmt.forLoop init cond update braces body).isHeadingFree := ⟨_, rfl⟩
      rw [checkStmt_forLoop, ← isFree]
      have parts (all : free = true) : Stmt.headerHeadingFree init = true ∧
          Stmt.headerHeadingFree update = true ∧ Stmt.allHeadingFree body = true := by
        simpa [isFree, Stmt.isHeadingFree, and_assoc] using all
      have first := (runs_checkHeader init).weaken (Nat.le_refl 1) fun all => (parts all).1
      have last := (runs_checkHeader update).weaken (Nat.le_refl 1) fun all => (parts all).2.1
      have rounds := (runs_inBlock braces (runs_checkStmts body)).weaken (Nat.zero_le 1)
        fun all => (parts all).2.2
      refine (calm_visit 5 c).after.trans (State.After.bracket ?_)
      exact (first _).trans ((calm_enterLoop _).after.trans ((calm_inferExpr cond _).after.trans
        ((rounds _).trans ((last _).trans (calm_leaveLoop _).after))))
  | .breakLoop site => by
      rw [checkStmt]
      exact (calm_checkInLoop _ _).runs
  | .continueLoop site => by
      rw [checkStmt]
      exact (calm_checkInLoop _ _).runs
  | .returnValue site value => by
      rw [checkStmt]
      exact (calm_checkReturn _ _).runs

theorem runs_checkHeader : (header : Option Stmt) →
    Runs 1 (Stmt.headerHeadingFree header) (checkHeader header)
  | none => by
      rw [checkHeader]
      exact (Calm.pure _).runs
  | some x => by
      rw [checkHeader]
      exact (runs_checkStmt x).weaken x.reach_le id

theorem runs_checkStmts : (body : List Stmt) → Runs 1 (Stmt.allHeadingFree body) (checkStmts body)
  | [] => by
      rw [checkStmts]
      exact (Calm.pure _).runs
  | x :: rest => by
      rw [checkStmts]
      have first : Runs 1 (x.isHeadingFree && Stmt.allHeadingFree rest) (checkStmt x) :=
        (runs_checkStmt x).weaken x.reach_le fun both => (Bool.and_eq_true_iff.mp both).1
      have others : Runs 1 (x.isHeadingFree && Stmt.allHeadingFree rest) (checkStmts rest) :=
        (runs_checkStmts rest).weaken (Nat.le_refl 1) fun both => (Bool.and_eq_true_iff.mp both).2
      exact (calm_checkTerminator x).runs.bind fun _ => first.bind fun _ => others

end

/-! ### What the parts of a statement report -/

section Parts

variable (cond : Expr) (braces elseBraces : Braces) (body elseBody : List Stmt) (c : State)

theorem log_ifElse :
    let whole := (checkStmt (.ifElse cond braces body elseBraces elseBody) c).2
    let tested := (inferExpr cond (visit 4 c).2).2
    let bodied := (inBlock braces (checkStmts body) tested).2
    tested.diagnostics.entries <+: whole.diagnostics.entries ∧
      bodied.diagnostics.entries <+: whole.diagnostics.entries := by
  have first := runs_inBlock braces (runs_checkStmts body) (inferExpr cond (visit 4 c).2).2
  have second := runs_inBlock elseBraces (runs_checkStmts elseBody)
    (inBlock braces (checkStmts body) (inferExpr cond (visit 4 c).2).2).2
  rw [checkStmt_ifElse]
  exact ⟨first.log.trans second.log, second.log⟩

theorem log_whileLoop :
    let whole := (checkStmt (.whileLoop cond braces body) c).2
    let tested := (inferExpr cond (enterLoop (visit 3 c).2).2).2
    let bodied := (inBlock braces (checkStmts body) tested).2
    tested.diagnostics.entries <+: whole.diagnostics.entries ∧
      bodied.diagnostics.entries <+: whole.diagnostics.entries := by
  have inside := runs_inBlock braces (runs_checkStmts body)
    (inferExpr cond (enterLoop (visit 3 c).2).2).2
  rw [checkStmt_whileLoop]
  exact ⟨inside.log.trans (calm_leaveLoop _).log, (calm_leaveLoop _).log⟩

theorem log_forLoop (init update : Option Stmt) :
    let whole := (checkStmt (.forLoop init cond update braces body) c).2
    let begun := (checkHeader init (openScope (visit 5 c).2).2).2
    let tested := (inferExpr cond (enterLoop begun).2).2
    let bodied := (inBlock braces (checkStmts body) tested).2
    let updated := (checkHeader update bodied).2
    begun.diagnostics.entries <+: whole.diagnostics.entries ∧
      tested.diagnostics.entries <+: whole.diagnostics.entries ∧
      bodied.diagnostics.entries <+: whole.diagnostics.entries ∧
      updated.diagnostics.entries <+: whole.diagnostics.entries := by
  intro whole begun tested bodied updated
  have ended : updated.diagnostics.entries <+: whole.diagnostics.entries :=
    (calm_leaveLoop updated).log.trans (log_closeScope _)
  have last := (runs_checkHeader update bodied).log.trans ended
  have inside := (runs_inBlock braces (runs_checkStmts body) tested).log.trans last
  have entered := ((calm_enterLoop begun).trans (calm_inferExpr cond _)).log
  exact ⟨entered.trans inside, inside, last, ended⟩

end Parts

/-- The body of a function without headings in it leaves all scopes as they are after the heading
of the function. -/
theorem after_heading (h : Heading) (braces : Braces) (body : List Stmt) (c : State) :
    (checkHeading h true c).2.After 0 (Stmt.allHeadingFree body)
      (checkStmt (.define h braces body) c).2 := by
  rw [checkStmt_define]
  exact after_checkBody (runs_checkStmts body) _ checkHeading_reports

end After

end Check

end BraceLang
