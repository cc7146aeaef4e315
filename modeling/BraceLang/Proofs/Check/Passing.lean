import BraceLang.Proofs.Check.Deeds

/-!
Checking carries out the deeds of a tree, one after the other, whatever is found wrong with it.

**Main results.** `does_inferExpr` and `does_checkStmt`, for expressions and statements in any
state; `passes_checkProgram`, for whole programs.
-/

namespace BraceLang.Check

/-! ### Actions -/

section Actions

variable {α β : Type} {strict : Bool} {ds ds' : List Deed}

/-- An action that carries out the deeds, in whatever state it starts. -/
def Does (strict : Bool) (ds : List Deed) (action : Check α) : Prop :=
  ∀ c : State, Passes strict c ds (action c).2

/-- An action that leaves the scopes alone. -/
def Minds (strict : Bool) (action : Check α) : Prop := ∀ c : State, c.Aside strict (action c).2

theorem Minds.does {action : Check α} (minds : Minds strict action) : Does strict [] action :=
  fun c => .of_aside (minds c)

theorem Minds.pure (a : α) : Minds strict (pure a) := State.Aside.refl

theorem Minds.bind {action : Check α} {next : α → Check β} (first : Minds strict action)
    (second : ∀ a, Minds strict (next a)) : Minds strict (action >>= next) :=
  fun c => (first c).trans (second (action c).1 (action c).2)

theorem Minds.forM {f : α → Check PUnit} {list : List α}
    (each : ∀ a ∈ list, Minds strict (f a)) : Minds strict (list.forM f) := by
  induction list with
  | nil => exact .pure _
  | cons a rest ih =>
      obtain ⟨here, others⟩ := List.forall_mem_cons.mp each
      exact here.bind fun _ => ih others

theorem Does.bind {action : Check α} {next : α → Check β} (first : Does strict ds action)
    (second : ∀ a, Does strict ds' (next a)) : Does strict (ds ++ ds') (action >>= next) :=
  fun c => (first c).append (second (action c).1 (action c).2)

theorem Does.loosen {action : Check α} (does : Does true ds action) : Does false ds action :=
  fun c => (does c).loosen

theorem minds_visit (tokens : Nat) : Minds strict (visit tokens) :=
  fun _ => .of_same rfl rfl fun _ => rfl

theorem minds_complain {finding : Finding} (plain : finding.isOfSignature = false)
    (pos : Position) : Minds strict (complain finding pos) := by
  refine fun c => ⟨rfl, ⟨_, rfl, List.forall_mem_singleton.mpr ?_⟩, fun _ => rfl⟩
  rw [Diagnostic.isPlain, plain]
  rfl

theorem minds_complainOf {fault : Option (Finding × Position)}
    (plain : ∀ f ∈ fault, f.1.isOfSignature = false) : Minds strict (complainOf fault) := by
  cases fault with
  | none => exact .pure _
  | some f => exact minds_complain (plain f rfl) f.2

theorem minds_undeclared (name : String) (pos : Position) :
    Minds strict (do complainOf (← undeclared? name pos)) := by
  intro c
  change c.Aside strict (complainOf (if c.poisoned.contains name then none else _) c).2
  split
  · exact .refl c
  · exact minds_complain rfl pos c

/-! ### Expressions -/

theorem plain_readFault? (symbol : Symbol) (isElement exempt : Bool) (pos : Position) :
    ∀ f ∈ (readFault? symbol isElement exempt).map (·, pos), f.1.isOfSignature = false := by
  unfold readFault?
  split
  · rintro f ⟨⟩
    rfl
  · split
    · rintro f ⟨⟩
      rfl
    · rintro f ⟨⟩

theorem does_readVariable (name : String) (pos : Position) (isElement : Bool) :
    Does strict [.reads name] (readVariable name pos isElement) := by
  intro c
  refine .one ?_
  rw [Deed.run, run_mark, readVariable, lookup_bind]
  cases c.env.stack.lookup name with
  | none => exact ((minds_undeclared name pos).bind fun _ => .pure _) c
  | some symbol =>
      dsimp only
      cases symbol.isFunction with
      | true => exact ((minds_complain rfl pos).bind fun _ => .pure _) c
      | false =>
          exact (minds_complainOf (plain_readFault? symbol isElement _ pos)).bind
            (fun _ => .pure (some symbol.type)) (update name ({ · with used := true }) c).2

theorem minds_checkIndex (pos : Position) (found : Option Ty) :
    Minds strict (checkIndex pos found) := by
  cases found with
  | none => exact .pure _
  | some t =>
      unfold checkIndex
      dsimp only
      split
      · exact .pure _
      · exact minds_complain rfl pos

theorem minds_checkUnary (op : UnOp) (pos : Position) (found : Option Ty) :
    Minds strict (checkUnary op pos found) := by
  cases found with
  | none => exact .pure _
  | some t =>
      unfold checkUnary
      dsimp only
      split
      · exact .pure _
      · exact (minds_complain rfl pos).bind fun _ => .pure _

theorem minds_checkBinary (op : BinOp) (pos : Position) (left right : Option Ty) :
    Minds strict (checkBinary op pos left right) := by
  unfold checkBinary
  split
  · split
    · exact .pure _
    · exact (minds_complain rfl pos).bind fun _ => .pure _
  · exact .pure _

theorem plain_argumentFaults (name : String) (position : Nat)
    (args : List (Position × Option Ty)) (params : List Ty) :
    ∀ f ∈ argumentFaults name position args params, f.1.isOfSignature = false := by
  induction args generalizing position params with
  | nil => exact List.forall_mem_nil _
  | cons arg args ih =>
      obtain ⟨pos, found?⟩ := arg
      cases params with
      | nil => exact List.forall_mem_nil _
      | cons expected params =>
          unfold argumentFaults
          cases found? with
          | none => exact ih (position + 1) params
          | some found =>
              dsimp only
              split
              · exact ih (position + 1) params
              · exact List.forall_mem_cons.mpr ⟨rfl, ih (position + 1) params⟩

theorem plain_callFaults (callee : Located String) (args : List (Position × Option Ty))
    (params : List Ty) : ∀ f ∈ callFaults callee args params, f.1.isOfSignature = false := by
  unfold callFaults
  split
  · exact plain_argumentFaults callee.val 1 args params
  · exact List.forall_mem_singleton.mpr rfl

theorem does_checkCall (callee : Located String) (args : List (Position × Option Ty))
    (isValue : Bool) : Does strict [.calls callee.val] (checkCall callee args isValue) := by
  intro c
  refine .one ?_
  rw [Deed.run, run_mark, checkCall, lookup_bind]
  cases c.env.stack.lookup callee.val with
  | none => exact ((minds_undeclared callee.val callee.pos).bind fun _ => .pure _) c
  | some symbol =>
      dsimp only
      cases known : symbol.signature? with
      | none =>
          have noFunction : symbol.isFunction = false := by rw [Symbol.isFunction, known]; rfl
          rw [noFunction]
          exact ((minds_complain rfl callee.pos).bind fun _ => .pure _) c
      | some signature =>
          have isFunction : symbol.isFunction = true := by rw [Symbol.isFunction, known]; rfl
          rw [isFunction, if_pos rfl]
          have faults : Minds strict ((callFaults callee args signature.params).forM
              fun f => complain f.1 f.2) :=
            .forM fun f mem => minds_complain (plain_callFaults callee args _ f mem) f.2
          have result : Minds strict (if isValue && symbol.type == .void then do
              complain (.voidValueUsed callee.val) callee.pos
              return none
            else return some symbol.type : Check (Option Ty)) := by
            split
            · exact (minds_complain rfl callee.pos).bind fun _ => .pure _
            · exact .pure _
          exact faults.bind (fun _ => result) (update callee.val ({ · with used := true }) c).2

mutual

/-- Finding the type of an expression reads and calls its names. -/
theorem does_inferExpr : (e : Expr) → Does strict e.deeds (inferExpr e)
  | .literal _ value => (minds_visit 1).does
  | .var pos name => by
      rw [inferExpr]
      exact (minds_visit 1).does.bind fun _ => does_readVariable name pos false
  | .element pos array index => by
      rw [inferExpr]
      exact (minds_visit 3).does.bind fun _ => (does_inferExpr index).bind fun found =>
        (minds_checkIndex index.pos found).does.bind fun _ => does_readVariable array pos true
  | .unary pos op operand => fun c => by
      rw [inferExpr_unary]
      exact .aside (minds_visit 1 c) ((does_inferExpr operand _).append_aside
        (minds_checkUnary op pos _ _))
  | .binary pos op left right => fun c => by
      rw [inferExpr_binary]
      exact .aside (minds_visit 1 c) (((does_inferExpr left _).append
        (does_inferExpr right _)).append_aside (minds_checkBinary op pos _ _ _))
  | .call _ callee args => by
      rw [inferExpr]
      exact (minds_visit _).does.bind fun _ => (does_inferArgs args).bind fun found =>
        does_checkCall callee found true

theorem does_inferArgs : (args : List Expr) → Does strict (Expr.deedsIn args) (inferArgs args)
  | [] => (Minds.pure _).does
  | arg :: args => fun c => by
      rw [inferArgs_cons]
      exact (does_inferExpr arg c).append (does_inferArgs args _)

end

/-! ### Declarations -/

theorem minds_resolveType (text : Located String) : Minds strict (resolveType text) := by
  unfold resolveType
  split
  · exact .pure _
  · exact (minds_complain rfl text.pos).bind fun _ => .pure _

theorem minds_resolveVariableType (text : Located String) (name : String) (pos : Position) :
    Minds strict (resolveVariableType text name pos) := by
  refine (minds_resolveType text).bind fun found => ?_
  split
  · exact (minds_complain rfl pos).bind fun _ => .pure _
  · exact .pure _

theorem resolveType_fst (text : Located String) (c : State) :
    (resolveType text c).1 = Ty.parse? text.val := by
  rw [resolveType_eq]
  cases Ty.parse? text.val <;> rfl

theorem resolveVariableType_fst (text : Located String) (name : String) (pos : Position)
    (c : State) : (resolveVariableType text name pos c).1 = Ty.ofVariable? text.val := by
  rw [resolveVariableType_eq, resolveType_fst, Ty.ofVariable?]
  cases Ty.parse? text.val with
  | none => rfl
  | some t => cases t <;> rfl

theorem declare?_taken {t : ScopeStack Symbol} {name : String}
    (taken : t.declaredHere name = true) (symbol : Symbol) : t.declare? name symbol = none := by
  obtain ⟨scopes⟩ := t
  cases scopes with
  | nil => rfl
  | cons s rest => exact congrArg (Option.map _) (if_pos taken)

/-- A variable is declared if its type is known. -/
theorem passes_declareVariable (name : Located String) (type? : Option Ty)
    (length : Option UInt32) (isParam hasValue : Bool) (c : State) :
    Passes strict c (type?.map fun t => Deed.declares name t length isParam hasValue).toList
      (declareVariable name type? length isParam (c.env.stack.isGlobal || hasValue) c).2 := by
  cases type? with
  | none => exact .of_aside (.of_same rfl rfl fun _ => rfl)
  | some t => exact .one (.refl _)

/-- The declaration of a name that is taken changes nothing. -/
theorem passes_taken {name : Located String} {c : State}
    (taken : c.env.stack.declaredHere name.val = true) (type? : Option Ty)
    (length : Option UInt32) (isParam hasValue : Bool) {c' : State} (behind : c.Aside strict c') :
    Passes strict c (type?.map fun t => Deed.declares name t length isParam hasValue).toList
      c' := by
  cases type? with
  | none => exact .of_aside behind
  | some t =>
      refine .one ?_
      have same : (Deed.run (.declares name t length isParam hasValue) c).2 = c := by
        change { c with env := (c.env.declared name.val (c.env.stack.declare? name.val _)).2 } = c
        rw [declare?_taken taken]
        rfl
      rw [same]
      exact behind

theorem plain_storeFault? (expected : Ty) (pos : Position) (found : Option Ty) :
    ∀ f ∈ storeFault? expected pos found, f.1.isOfSignature = false := by
  unfold storeFault?
  split
  · rintro f ⟨⟩
  · split
    · rintro f ⟨⟩
    · rintro f ⟨⟩
      rfl

theorem minds_initFault (d : Declaration) (found type? : Option Ty) :
    Minds strict (complainOf (initFault? d found type?)) := by
  refine minds_complainOf fun f mem => ?_
  obtain ⟨expected, -, mem⟩ := Option.bind_eq_some_iff.mp mem
  obtain ⟨init, -, mem⟩ := Option.bind_eq_some_iff.mp mem
  exact plain_storeFault? expected init.pos found f mem

theorem does_declareFound (d : Declaration) (found : Option Ty) :
    Does strict ((Ty.ofVariable? d.type.val).map fun t =>
      Deed.declares d.name t d.length false (d.init.isSome || d.length.isSome)).toList
      (declareFound d found) := by
  intro c
  rw [declareFound_eq]
  split
  · rename_i taken
    exact passes_taken taken _ _ _ _ (minds_complain rfl d.name.pos c)
  · have resolved : c.Aside strict (resolveVariableType d.type d.name.val d.name.pos c).2 :=
      minds_resolveVariableType d.type d.name.val d.name.pos c
    dsimp only
    rw [resolveVariableType_fst]
    have stored := resolved.trans (minds_initFault d found (Ty.ofVariable? d.type.val) _)
    rw [Bool.or_assoc]
    exact .aside stored (passes_declareVariable d.name _ d.length false _ _)

theorem does_initType (d : Declaration) : Does strict (d.init.elim [] Expr.deeds) (initType d) := by
  unfold initType
  cases d.init with
  | none => exact (Minds.pure _).does
  | some init => exact does_inferExpr init

theorem does_checkDeclaration (d : Declaration) : Does strict d.deeds (checkDeclaration d) := by
  intro c
  rw [checkDeclaration_eq]
  have visited : c.Aside strict (visitDeclaration d c).2 := minds_visit _ c
  exact .aside visited ((does_initType d _).append (does_declareFound d _ _))

/-! ### Headings -/

theorem paramTypes_minds (h : Heading) (c : State) :
    c.Aside strict (paramTypes h c).2 ∧ (paramTypes h c).1 = h.types? := by
  have all (params : List Param) (c : State) :
      c.Aside strict (params.mapM resolveParam c).2 ∧
        (params.mapM resolveParam c).1 = params.map fun p => Ty.ofVariable? p.type.val := by
    induction params generalizing c with
    | nil => exact ⟨.refl c, rfl⟩
    | cons p rest ih =>
        rw [mapM_cons_eq]
        obtain ⟨others, types⟩ := ih (resolveParam p c).2
        have here : c.Aside strict (resolveParam p c).2 := minds_resolveVariableType _ _ _ c
        refine ⟨here.trans others, ?_⟩
        rw [types, List.map_cons, ← resolveVariableType_fst p.type _ p.type.pos c]
        rfl
  unfold paramTypes Heading.types?
  split
  · exact ⟨.refl c, rfl⟩
  · exact all h.params c

theorem does_enterFunction (h : Heading) (result? : Option Ty) (types? : List (Option Ty))
    (defining : Bool) : Does strict (result?.elim [] fun result =>
      ((types?.mapM id).map fun types => Deed.enters h result types defining).toList)
      (enterFunction h result? types? defining) := by
  unfold enterFunction
  cases result? with
  | none => exact (Minds.pure _).does
  | some result =>
      cases types?.mapM id with
      | none => exact (Minds.pure _).does
      | some types => exact fun c => .one (.refl _)

theorem checkHeading_fst (h : Heading) (defining : Bool) (c : State) :
    (checkHeading h defining c).1 = (Ty.parse? h.result.val, h.types?) := by
  rw [checkHeading_eq]
  exact Prod.ext (resolveType_fst _ _) (@paramTypes_minds true h _).2

theorem does_checkHeading (h : Heading) (defining : Bool) :
    Does strict (h.deeds defining) (checkHeading h defining) := by
  intro c
  have known := congrArg Prod.fst (checkHeading_fst h defining c)
  have types := congrArg Prod.snd (checkHeading_fst h defining c)
  rw [checkHeading_eq] at known types ⊢
  dsimp only at known types ⊢
  rw [known, types, Heading.deeds]
  have resolved (c : State) : c.Aside strict (resolveType h.result c).2 :=
    minds_resolveType h.result c
  exact .aside (((minds_visit h.tokens c).trans (resolved _)).trans (paramTypes_minds h _).1)
    (does_enterFunction h _ _ defining _)

theorem passes_declareParams : (params : List Param) → (types : List (Option Ty)) → (c : State) →
    Passes strict c (Param.deeds params types) (declareParams params types c).2
  | [], types, c => by
      unfold declareParams Param.deeds
      exact .done c
  | _ :: _, [], c => by
      unfold declareParams Param.deeds
      exact .done c
  | p :: params, type? :: types, c => by
      unfold declareParams Param.deeds
      cases p.name with
      | none => exact passes_declareParams params types c
      | some name =>
          change Passes strict c _ ((if c.env.stack.declaredHere name.val = true then _ else _ :
            Check Unit) c).2
          split
          · rename_i taken
            exact (passes_taken taken type? none true true (minds_complain rfl name.pos c)).append
              (passes_declareParams params types _)
          · have here : Passes strict c _ _ := passes_declareVariable name type? none true true c
            rw [Bool.or_true] at here
            exact here.append (passes_declareParams params types _)

/-! ### Statements -/

theorem plain_assignFault? (symbol : Symbol) (target : Located String) (isElement : Bool)
    (valuePos : Position) (found : Option Ty) :
    ∀ f ∈ assignFault? symbol target isElement valuePos found, f.1.isOfSignature = false := by
  unfold assignFault?
  split
  · rintro f ⟨⟩
    rfl
  · exact plain_storeFault? _ _ _

theorem does_checkTarget (target : Located String) (isElement : Bool) (valuePos : Position)
    (found : Option Ty) :
    Does strict [.assigns target.val] (checkTarget target isElement valuePos found) := by
  intro c
  refine .one ?_
  rw [Deed.run, run_mark, checkTarget, lookup_bind]
  cases c.env.stack.lookup target.val with
  | none => exact minds_undeclared target.val target.pos c
  | some symbol =>
      dsimp only
      cases symbol.isFunction with
      | true => exact minds_complain rfl target.pos c
      | false =>
          exact minds_complainOf (plain_assignFault? symbol target isElement valuePos found)
            (update target.val ({ · with initialized := true }) c).2

/-- The target of an assignment is pending while its index and its value are checked. -/
theorem does_checkAssign (target : Located String) (index : Option Expr) (value : Expr) :
    Does false (index.elim [] Expr.deeds ++ value.deeds ++ [.assigns target.val])
      (checkAssign target index value) := by
  intro c
  have visited : c.Aside false (visitAssign target index c) := .of_unchanged rfl rfl
  have settled (c : State) : c.Aside false { c with assigning := none } := .of_unchanged rfl rfl
  cases index with
  | none =>
      rw [checkAssign_none]
      exact .aside visited (((does_inferExpr value _).append_aside (settled _)).append
        (does_checkTarget target false value.pos _ _))
  | some index =>
      rw [checkAssign_some]
      have first (c : State) : Passes false c index.deeds
          (checkIndex index.pos (inferExpr index c).1 (inferExpr index c).2).2 :=
        (does_inferExpr index c).append_aside (minds_checkIndex index.pos _ _)
      exact .aside visited ((((first _).append (does_inferExpr value _)).append_aside
        (settled _)).append (does_checkTarget target true value.pos _ _))

theorem plain_returnFault? (context : Context) (pos : Position)
    (found : Option (Position × Option Ty)) :
    ∀ f ∈ returnFault? context pos found, f.1.isOfSignature = false := by
  unfold returnFault?
  split
  · split
    · rintro f ⟨⟩
    · rintro f ⟨⟩
    · rintro f ⟨⟩
      rfl
  · split
    · rintro f ⟨⟩
    · rintro f ⟨⟩
      rfl
    · exact plain_storeFault? _ _ _

theorem minds_checkResult (pos : Position) (found : Option (Position × Option Ty)) :
    Minds false (checkResult pos found) := by
  intro c
  unfold checkResult
  rw [get_bind]
  cases c.function with
  | none => exact minds_complain rfl pos c
  | some context =>
      have returned : c.Aside false
          { c with function := some { context with returned := true } } := .of_unchanged rfl rfl
      exact returned.trans (minds_complainOf (plain_returnFault? context pos found) _)

theorem does_checkReturn (pos : Position) (value : Option Expr) :
    Does false (value.elim [] Expr.deeds) (checkReturn pos value) := by
  intro c
  cases value with
  | none =>
      rw [checkReturn_none]
      exact .aside (minds_visit 1 c) (.of_aside (minds_checkResult pos none _))
  | some e =>
      rw [checkReturn_some]
      exact .aside (minds_visit 1 c) ((does_inferExpr e _).append_aside (minds_checkResult pos _ _))

theorem minds_checkInLoop {finding : Finding} (plain : finding.isOfSignature = false)
    (pos : Position) : Minds strict (checkInLoop finding pos) := by
  intro c
  refine (minds_visit 1 c).trans ?_
  change State.Aside strict _ ((if c.loops = 0 then complain finding pos else pure () :
    Check Unit) (visit 1 c).2).2
  split
  · exact minds_complain plain pos _
  · exact .refl _

theorem minds_enterLoop : Minds false enterLoop := fun _ => .of_unchanged rfl rfl

theorem minds_leaveLoop : Minds false leaveLoop := fun _ => .of_unchanged rfl rfl

theorem minds_closeBraces (braces : Braces) : Minds strict (closeBraces braces) := by
  unfold closeBraces
  split
  · exact minds_complain rfl _
  · exact .pure _

theorem minds_checkTerminator (x : Stmt) : Minds strict (checkTerminator x) := by
  unfold checkTerminator
  split
  · exact .pure _
  · split
    · exact fun _ => .of_same rfl rfl fun _ => rfl
    · exact minds_complain rfl _

theorem minds_checkReturned (name : Located String) (context : Option Context) :
    Minds strict (checkReturned name context) := by
  unfold checkReturned
  split
  · split
    · exact .pure _
    · exact minds_complain rfl _
  · exact .pure _

/-- A scope is opened in front of a block and closed behind it. -/
theorem does_inBlock {inside : Check Unit} (braces : Braces) (does : Does false ds inside) :
    Does false (.opens :: (ds ++ [.closes])) (inBlock braces inside) := by
  intro c
  rw [inBlock_eq]
  have inner (c : State) : Passes false c ds (closeBraces braces (inside c).2).2 :=
    (does c).append_aside (minds_closeBraces braces _)
  exact .deed (.aside (minds_visit _ _) ((inner _).append (.one (.refl _))))

/-- A condition, and the block behind it. -/
theorem passes_guarded {inside : Check Unit} (cond : Expr) (braces : Braces)
    (does : Does false ds inside) (c : State) :
    Passes false c (cond.deeds ++ .opens :: (ds ++ [.closes]))
      (inBlock braces inside (inferExpr cond c).2).2 :=
  (does_inferExpr cond c).append (does_inBlock braces does _)

theorem passes_checkBody {h : Heading} {braces : Braces} {body : List Stmt}
    (does : Does false ds (checkStmts body)) (c : State) :
    Passes false c (.opens :: (Param.deeds h.params h.types? ++ ds ++ [.closes]))
      (checkBody h braces body (Ty.parse? h.result.val, h.types?) c).2 := by
  rw [checkBody_eq]
  let named : State :=
    { c with function := some { name := h.name.val, result := Ty.parse? h.result.val } }
  have named_aside : c.Aside false named := .of_unchanged rfl rfl
  have params : Passes false (openScope named).2 _ _ := passes_declareParams h.params h.types? _
  have entered := params.append_aside (minds_visit (1 + if braces.closed.isSome then 1 else 0) _)
  have inner := (entered.append (does _)).append_aside (minds_closeBraces braces _)
  have restored (c' : State) (outer : Option Context) :
      c'.Aside false { c' with function := outer } := .of_unchanged rfl rfl
  exact .aside named_aside (.deed (inner.append
    (.one ((restored _ _).trans (minds_checkReturned h.name _ _)))))

mutual

/-- Checking a statement carries out its deeds. -/
theorem does_checkStmt : (x : Stmt) → Does false x.deeds (checkStmt x)
  | .declare _ d => by
      rw [checkStmt]
      exact does_checkDeclaration d
  | .prototype site h => fun c => by
      rw [checkStmt_prototype]
      exact does_checkHeading h false c
  | .define h braces body => fun c => by
      rw [checkStmt_define, checkHeading_fst]
      exact (does_checkHeading h true c).append (passes_checkBody (does_checkStmts body) _)
  | .assign _ target index value => by
      rw [checkStmt]
      exact does_checkAssign target index value
  | .call site callee args => fun c => by
      rw [checkStmt_call]
      exact .aside ((minds_visit 0 c).trans (minds_visit _ _))
        ((does_inferArgs args _).append (does_checkCall callee _ false _))
  | .block braces body => by
      rw [checkStmt]
      exact does_inBlock braces (does_checkStmts body)
  | .ifThen cond braces body => fun c => by
      rw [checkStmt_ifThen]
      exact .aside (minds_visit 3 c) (passes_guarded cond braces (does_checkStmts body) _)
  | .ifElse cond braces body elseBraces elseBody => fun c => by
      rw [checkStmt_ifElse]
      exact .aside (minds_visit 4 c) ((passes_guarded cond braces (does_checkStmts body) _).append
        (does_inBlock elseBraces (does_checkStmts elseBody) _))
  | .whileLoop cond braces body => fun c => by
      rw [checkStmt_whileLoop]
      exact .aside ((minds_visit 3 c).trans (minds_enterLoop _))
        ((passes_guarded cond braces (does_checkStmts body) _).append_aside (minds_leaveLoop _))
  | .forLoop init cond update braces body => fun c => by
      rw [checkStmt_forLoop]
      have started := (does_checkHeader init (openScope (visit 5 c).2).2).append_aside
        (minds_enterLoop _)
      have rounds := started.append (passes_guarded cond braces (does_checkStmts body) _)
      have updated := (rounds.append (does_checkHeader update _)).append_aside (minds_leaveLoop _)
      exact .aside (minds_visit 5 c) (.deed (updated.append (.one (.refl _))))
  | .breakLoop site => by
      rw [checkStmt]
      exact (minds_checkInLoop rfl site.pos).does
  | .continueLoop site => by
      rw [checkStmt]
      exact (minds_checkInLoop rfl site.pos).does
  | .returnValue site value => by
      rw [checkStmt]
      exact does_checkReturn site.pos value

theorem does_checkHeader : (part : Option Stmt) →
    Does false (Stmt.deedsBy part) (checkHeader part)
  | none => by
      rw [checkHeader]
      exact (Minds.pure _).does
  | some x => by
      rw [checkHeader]
      exact does_checkStmt x

theorem does_checkStmts : (body : List Stmt) → Does false (Stmt.deedsIn body) (checkStmts body)
  | [] => by
      rw [checkStmts]
      exact (Minds.pure _).does
  | x :: rest => fun c => by
      rw [checkStmts_cons]
      exact .aside (minds_checkTerminator x c)
        ((does_checkStmt x _).append (does_checkStmts rest _))

end

/-! ### Programs -/

/-- The global scope is swept before it is closed, other scopes afterwards; but for the journal,
this makes no difference. -/
theorem passes_checkProgram (p : Program) (log : Diagnostics) :
    Passes false { diagnostics := log } p.deeds (checkProgram p { diagnostics := log }).2 := by
  let start : State := { diagnostics := log }
  let body := (checkStmts p.stmts (openScope (visit 0 start).2).2).2
  obtain ⟨s, one⟩ : ∃ s, body.env.stack.scopes = [s] := by
    have lengths := (runs_checkStmts p.stmts (openScope (visit 0 start).2).2).layers.length_eq
    rw [State.layers, State.layers, ScopeStack.views, ScopeStack.views, List.length_map,
      List.length_map] at lengths
    exact List.length_eq_one_iff.mp lengths.symm
  have values : body.env.stack.values = s.values := by
    rw [ScopeStack.values, one]
    exact List.append_nil _
  obtain ⟨stack, swept, place⟩ := sweep_spec s.values body
  obtain ⟨stack', swept', place'⟩ := sweep_spec s.values { body with env := body.env.leave.2 }
  refine .aside (minds_visit 0 _) (.deed ((does_checkStmts p.stmts _).append (.one ?_)))
  change State.Aside false (closeScope body).2 { (sweep body.env.stack.values body).2 with
    env := (sweep body.env.stack.values body).2.env.leave.2 }
  rw [closeScope_eq, one, values]
  refine ⟨?_, ⟨[], ?_, List.forall_mem_nil _⟩,
    fun strict => absurd strict Bool.false_ne_true⟩
  · rw [stack', Env.stack_leave, Env.stack_leave, stack]
  · rw [swept', List.append_nil]
    exact swept

end Actions

end BraceLang.Check
