import BraceLang.Proofs.Check.Entering

/-!
The checker accepts exactly the programs that follow the rules.

**Main results.** `follows_stmt`: a legal statement is checked without an error, and it leaves the
scopes behind that the rules give. `legal_stmt`: a statement that is checked without an error is
legal. `accepted_iff_wellFormed` puts the two together for programs.
-/

namespace BraceLang

namespace Check

/-- The checker stands in these scopes, in no assignment, and in a loop and a function as told. -/
structure State.At (c : State) (around : Setting) (Γ : Scopes) : Prop extends c.Sees Γ none where
  loops : 0 < c.loops ↔ around.inLoop = true
  result : c.function.map (·.result) = around.result.map some

variable {c c' : State} {around : Setting} {Γ Γ' : Scopes} {returns : Bool}

namespace State.At

theorem follows (place : c.At around Γ) (follows : c.Follows c' Γ' returns) :
    c'.At around Γ' := by
  refine ⟨place.toSees.follows follows, ?_, ?_⟩
  · rw [follows.loops]
    exact place.loops
  · rw [follows.function, Option.map_map]
    exact place.result

theorem openScope (place : c.At around Γ) :
    c.Follows (Check.openScope c).2 ((fun _ => none) :: Γ) false :=
  place.scopes ▸ follows_openScope c

theorem enterLoop (place : c.At around Γ) : (Check.enterLoop c).2.At around.loop Γ :=
  ⟨⟨place.scopes, place.assigning⟩, ⟨fun _ => rfl, fun _ => Nat.succ_pos c.loops⟩, place.result⟩

end State.At

theorem State.Follows.leaveLoop (inside : (enterLoop c).2.Follows c' Γ returns) :
    c.Follows (leaveLoop c').2 Γ returns where
  scopes := inside.scopes
  errors := inside.errors
  poisoned := inside.poisoned
  assigning := inside.assigning
  loops := by
    change c'.loops - 1 = c.loops
    rw [inside.loops]
    rfl
  function := inside.function

/-! ### Legal statements are accepted -/

theorem follows_initType {d : Declaration} {t : Ty} (place : c.At around Γ)
    (init : ∀ e, d.init = some e → ∃ found, HasType Γ none e found ∧ t.accepts found = true) :
    initFault? d (initType d c).1 (some t) = none ∧ c.Follows (initType d c).2 Γ false := by
  unfold initType initFault?
  cases given : d.init with
  | none => exact ⟨rfl, place.refl⟩
  | some e =>
      obtain ⟨found, typed, accepts⟩ := init e given
      obtain ⟨known, follows⟩ := infers_expr e place.toSees typed
      dsimp only
      rw [known]
      exact ⟨storeFault?_eq_none.mpr accepts, follows⟩

theorem follows_declaration {d : Declaration} {l : View Entity} {rest : Scopes} {t : Ty}
    (place : c.At around (l :: rest)) (parsed : Ty.parse? d.type.val = some t)
    (notVoid : t ≠ .void) (absent : l d.name.val = none)
    (init : ∀ e, d.init = some e → ∃ found, HasType (l :: rest) none e found ∧
      t.accepts found = true) :
    c.Follows (checkDeclaration d c).2 (l.add d.name.val (.variable t d.length.isSome
      (rest.isEmpty || d.init.isSome || d.length.isSome)) :: rest) false := by
  rw [checkDeclaration_eq]
  have visited : c.Follows (visitDeclaration d c).2 (l :: rest) false := place.visit _
  obtain ⟨noFault, checked⟩ := follows_initType (place.follows visited) init
  have declared := follows_declareFound checked.scopes parsed notVoid absent noFault
  exact visited.trans (checked.trans declared)

theorem follows_assign {target : Located String} {index : Option Expr} {value : Expr}
    {t found : Ty} {isArray hasValue : Bool} (place : c.At around Γ)
    (look : View.look Γ target.val = some (.variable t isArray hasValue))
    (indexed : ∀ e, index = some e → isArray = true ∧
      ∃ i, HasType Γ (some target.val) e i ∧ i.isIntegral = true)
    (typed : HasType Γ (some target.val) value found) (accepts : t.accepts found = true) :
    c.Follows (checkAssign target index value c).2 (Γ.give target.val) false := by
  have stores {c₁ : State} {isElement : Bool} (array : isElement = true → isArray = true)
      (first : (visitAssign target index c).Follows c₁ Γ false) :
      c.Follows (checkTarget target isElement value.pos (inferExpr value c₁).1
        { (inferExpr value c₁).2 with assigning := none }).2 (Γ.give target.val) false := by
    obtain ⟨known, valued⟩ := infers_expr value ⟨first.scopes, first.assigning⟩ typed
    have before := first.trans valued
    have ended : c.Follows { (inferExpr value c₁).2 with assigning := none } Γ false :=
      ⟨before.scopes, before.errors, before.poisoned, place.assigning.symm, before.loops,
        before.function⟩
    rw [known]
    exact ended.trans (follows_checkTarget ended.scopes look array accepts value.pos)
  have visited : (visitAssign target index c).Sees Γ (some target.val) := ⟨place.scopes, rfl⟩
  cases index with
  | none =>
      rw [checkAssign_none]
      exact stores nofun visited.refl
  | some e =>
      obtain ⟨isArray, i, typed', integral⟩ := indexed e rfl
      obtain ⟨known, checked⟩ := infers_expr e visited typed'
      rw [checkAssign_some]
      dsimp only
      rw [known, checkIndex_integral integral]
      exact stores (fun _ => isArray) checked

theorem follows_call {callee : Located String} {args : List Expr} {types : List Ty} {result : Ty}
    (site : Site) (place : c.At around Γ) (typed : HaveTypes Γ none args types)
    (calls : Γ.Calls callee.val types result) :
    c.Follows (checkStmt (.call site callee args) c).2 Γ false := by
  rw [checkStmt_call]
  have visited := (place.visit 0).trans ((place.follows (place.visit 0)).visit (callTokens args))
  obtain ⟨known, checked⟩ := infers_args args (place.toSees.follows visited) typed
  have before := visited.trans checked
  have unused : false = true → result ≠ .void := nofun
  exact before.trans (calls_function (place.toSees.follows before) calls known unused).2

/-- A block is checked without an error if its statements are. -/
theorem follows_inBlock {braces : Braces} {body : List Stmt} (place : c.At around Γ)
    (inside : ∀ {c : State} {Γ' : Scopes}, c.At around ((fun _ => none) :: Γ) →
      LegalAll around ((fun _ => none) :: Γ) body Γ' →
      c.Follows (checkStmts body c).2 Γ' (Stmt.anyReturns body))
    (legal : Legal around Γ (.block braces body) Γ') :
    c.Follows (inBlock braces (checkStmts body) c).2 Γ' (Stmt.anyReturns body) := by
  cases legal with
  | block all closed =>
      have opened := place.openScope
      have visited := opened.trans
        ((place.follows opened).visit (1 + if braces.closed.isSome then 1 else 0))
      have checked := visited.trans (inside (place.follows visited) all)
      rw [inBlock_eq, closeBraces_closed closed]
      exact checked.closeScope

theorem checkResult_found {context : Context} (function : c.function = some context)
    (pos : Position) (found : Option (Position × Option Ty)) :
    (checkResult pos found c).2 = (complainOf (returnFault? context pos found)
      { c with function := some { context with returned := true } }).2 := by
  rw [checkResult, get_bind, function]
  rfl

theorem returnFault?_none_iff {context : Context} {result : Ty}
    (known : context.result = some result) (pos : Position) :
    returnFault? context pos none = none ↔ result = .void := by
  rw [returnFault?, known]
  cases result <;> simp

theorem returnFault?_some_iff {context : Context} {result found : Ty}
    (known : context.result = some result) (pos valuePos : Position) :
    returnFault? context pos (some (valuePos, some found)) = none ↔
      result.accepts found = true := by
  rw [returnFault?, known]
  cases result <;> simp [storeFault?_eq_none, Ty.accepts]

/-- The function around the checker is the one that the rules tell. -/
theorem State.At.context {result : Ty} (place : c.At around Γ)
    (inside : around.result = some result) :
    ∃ context, c.function = some context ∧ context.result = some result := by
  have known := place.result
  rw [inside, Option.map_some, Option.map_eq_some_iff] at known
  exact known

theorem follows_result {context : Context} {pos : Position}
    {found : Option (Position × Option Ty)} (place : c.At around Γ)
    (function : c.function = some context) (noFault : returnFault? context pos found = none) :
    c.Follows (checkResult pos found c).2 Γ true := by
  rw [checkResult_found function, noFault]
  refine ⟨place.scopes, rfl, rfl, rfl, rfl, ?_⟩
  change some { context with returned := true } = c.function.map _
  rw [function, Option.map_some, Context.noting, Bool.or_true]

theorem follows_terminator {x : Stmt} (place : c.At around Γ) (terminated : x.IsTerminated) :
    c.Follows (checkTerminator x c).2 Γ false := by
  unfold checkTerminator
  cases site : x.site? with
  | none => exact place.refl
  | some s =>
      dsimp only
      rw [if_pos (terminated s site)]
      exact ⟨place.scopes, rfl, rfl, rfl, rfl, (map_noting_false c.function).symm⟩

theorem checkInLoop_eq (finding : Finding) (pos : Position) (c : State) :
    (checkInLoop finding pos c).2 =
      if c.loops = 0 then (complain finding pos (visit 1 c).2).2 else (visit 1 c).2 := by
  change ((if c.loops = 0 then complain finding pos else pure () : Check Unit) (visit 1 c).2).2 = _
  split <;> rfl

theorem follows_inLoop (place : c.At around Γ) (inLoop : around.inLoop = true)
    (finding : Finding) (pos : Position) : c.Follows (checkInLoop finding pos c).2 Γ false := by
  have notZero : c.loops ≠ 0 := Nat.pos_iff_ne_zero.mp (place.loops.mpr inLoop)
  rw [checkInLoop_eq, if_neg notZero]
  exact place.visit 1

/-- The function whose body is checked, before its first statement. -/
def bodyContext (h : Heading) (result : Ty) : Context :=
  { name := h.name.val, result := some result }

theorem follows_enterBody {h : Heading} {types : List Ty} (braces : Braces) (result : Ty)
    (scopes : c.scopes = Γ) (distinct : ((namedParams h.params types).map Prod.fst).Nodup) :
    State.Follows { c with function := some (bodyContext h result) }
      (enterBody h braces (some result, types.map some) c).2
      (paramScope (namedParams h.params types) :: Γ) false := by
  subst scopes
  have opened := follows_openScope { c with function := some (bodyContext h result) }
  have declared := follows_declareParams h.params types opened.scopes ⟨fun _ _ => rfl, distinct⟩
  have visited :=
    State.Sees.visit ⟨declared.scopes, rfl⟩ (1 + if braces.closed.isSome then 1 else 0)
  exact (opened.trans declared).trans visited

theorem checkReturned_fine {context : Context} {result : Ty}
    (known : context.result = some result) (returned : result = .void ∨ context.returned = true)
    (name : Located String) (c : State) : checkReturned name (some context) c = ((), c) := by
  obtain ⟨_, _, isReturned⟩ := context
  subst known
  cases isReturned with
  | true => rfl
  | false =>
      obtain rfl : result = .void := by simpa using returned
      rfl

/-- A body is checked without an error if its statements are. -/
theorem follows_body {h : Heading} {braces : Braces} {body : List Stmt} {result : Ty}
    {types : List Ty} {l : View Entity} (place : c.At around Γ)
    (inside : ∀ {c : State} {around : Setting} {Γ Γ' : Scopes}, c.At around Γ →
      LegalAll around Γ body Γ' → c.Follows (checkStmts body c).2 Γ' (Stmt.anyReturns body))
    (distinct : ((namedParams h.params types).map Prod.fst).Nodup)
    (all : LegalAll { around with result := some result }
      (paramScope (namedParams h.params types) :: Γ) body (l :: Γ'))
    (closed : braces.closed.isSome = true)
    (returned : result = .void ∨ Stmt.anyReturns body = true) :
    c.Follows (checkBody h braces body (some result, types.map some) c).2 Γ' false := by
  -- A body inside of a loop is in that loop: only the function around it changes.
  have named : State.At { c with function := some (bodyContext h result) }
      { around with result := some result } Γ :=
    ⟨⟨place.scopes, place.assigning⟩, place.loops, rfl⟩
  have entered := follows_enterBody braces result place.scopes distinct
  have checked := (entered.trans (inside (named.follows entered) all)).closeScope
  have seen : result = .void ∨ ((bodyContext h result).noting (Stmt.anyReturns body)).returned =
      true := returned
  rw [checkBody_eq]
  dsimp only
  rw [closeBraces_closed closed, checked.function, Option.map_some, Bool.false_or,
    checkReturned_fine rfl seen]
  exact ⟨checked.scopes, checked.errors, checked.poisoned, checked.assigning, checked.loops,
    (map_noting_false c.function).symm⟩

-- The recursion is on the statement; the derivation only comes along.
mutual

/-- A legal statement is checked without an error. -/
theorem follows_stmt : (x : Stmt) → {c : State} → {around : Setting} → {Γ Γ' : Scopes} →
    c.At around Γ → Legal around Γ x Γ' → c.Follows (checkStmt x c).2 Γ' x.returns
  | .declare _ d, _, _, _, _, place, .declare parsed notVoid absent init => by
      rw [checkStmt]
      exact follows_declaration place parsed notVoid absent init
  | .prototype site h, _, _, _, _, place, .prototype legal => by
      rw [checkStmt_prototype]
      exact (follows_checkHeading place.scopes legal).2
  | .define h braces body, c, _, _, _, place, .define legal distinct all closed returned => by
      obtain ⟨known, entered⟩ := follows_checkHeading place.scopes legal
      rw [checkStmt_define, known]
      exact entered.trans (follows_body (place.follows entered) (follows_stmts body) distinct all
        closed returned)
  | .assign _ target index value, _, _, _, _, place, .assign look indexed typed accepts => by
      rw [checkStmt]
      exact follows_assign place look indexed typed accepts
  | .call site callee args, _, _, _, _, place, .call typed calls =>
      follows_call site place typed calls
  | .block braces body, _, _, _, _, place, legal => by
      rw [checkStmt]
      exact follows_inBlock place (follows_stmts body) legal
  | .ifThen cond braces body, _, _, _, _, place, .ifThen typed legal => by
      rw [checkStmt_ifThen]
      have visited := place.visit 3
      have tested := visited.trans (infers_expr cond (place.toSees.follows visited) typed).2
      exact tested.trans (follows_inBlock (place.follows tested) (follows_stmts body) legal)
  | .ifElse cond braces body elseBraces elseBody, _, _, _, _, place, .ifElse typed legal other => by
      rw [checkStmt_ifElse]
      have visited := place.visit 4
      have tested := visited.trans (infers_expr cond (place.toSees.follows visited) typed).2
      have first := tested.trans
        (follows_inBlock (place.follows tested) (follows_stmts body) legal)
      exact first.trans (follows_inBlock (place.follows first) (follows_stmts elseBody) other)
  | .whileLoop cond braces body, _, _, _, _, place, .whileLoop typed legal => by
      rw [checkStmt_whileLoop]
      have visited := place.visit 3
      have entered := (place.follows visited).enterLoop
      have tested := (infers_expr cond entered.toSees typed).2
      have bodied := follows_inBlock (entered.follows tested) (follows_stmts body) legal
      exact visited.trans (tested.trans bodied).leaveLoop
  | .forLoop init cond update braces body, _, _, _, _, place, .forLoop first typed legal last => by
      rw [checkStmt_forLoop]
      have visited := place.visit 5
      have opened := visited.trans (place.follows visited).openScope
      have started := opened.trans (follows_header init (place.follows opened) first)
      have entered := (place.follows started).enterLoop
      have tested := (infers_expr cond entered.toSees typed).2
      have bodied := tested.trans
        (follows_inBlock (entered.follows tested) (follows_stmts body) legal)
      have ended := bodied.trans (follows_header update (entered.follows bodied) last)
      rw [Stmt.returns, Bool.or_assoc]
      exact (started.trans ended.leaveLoop).closeScope
  | .breakLoop site, _, _, _, _, place, .breakLoop inLoop => by
      rw [checkStmt]
      exact follows_inLoop place inLoop _ _
  | .continueLoop site, _, _, _, _, place, .continueLoop inLoop => by
      rw [checkStmt]
      exact follows_inLoop place inLoop _ _
  | .returnValue site none, _, _, _, _, place, .returnNothing inside => by
      rw [checkStmt, checkReturn_none]
      have visited := place.visit 1
      obtain ⟨context, function, known⟩ := (place.follows visited).context inside
      exact visited.trans (follows_result (place.follows visited) function
        ((returnFault?_none_iff known _).mpr rfl))
  | .returnValue site (some value), _, _, _, _, place, .returnValue inside typed accepts => by
      rw [checkStmt, checkReturn_some]
      have visited := place.visit 1
      obtain ⟨found, checked⟩ := infers_expr value (place.toSees.follows visited) typed
      have before := visited.trans checked
      obtain ⟨context, function, known⟩ := (place.follows before).context inside
      dsimp only
      rw [found]
      exact before.trans (follows_result (place.follows before) function
        ((returnFault?_some_iff known _ _).mpr accepts))
termination_by structural x => x

theorem follows_header : (header : Option Stmt) → {c : State} → {around : Setting} →
    {Γ Γ' : Scopes} → c.At around Γ → LegalHeader around Γ header Γ' →
    c.Follows (checkHeader header c).2 Γ' (Stmt.headerReturns header)
  | none, _, _, _, _, place, .none => by
      rw [checkHeader]
      exact place.refl
  | some x, _, _, _, _, place, .some legal => by
      rw [checkHeader]
      exact follows_stmt x place legal
termination_by structural header => header

theorem follows_stmts : (body : List Stmt) → {c : State} → {around : Setting} →
    {Γ Γ' : Scopes} → c.At around Γ → LegalAll around Γ body Γ' →
    c.Follows (checkStmts body c).2 Γ' (Stmt.anyReturns body)
  | [], _, _, _, _, place, .nil => by
      rw [checkStmts]
      exact place.refl
  | x :: rest, _, _, _, _, place, .cons terminated legal all => by
      rw [checkStmts_cons]
      have ended := follows_terminator place terminated
      have first := ended.trans (follows_stmt x (place.follows ended) legal)
      exact first.trans (follows_stmts rest (place.follows first) all)
termination_by structural body => body

end

/-! ### Accepted statements are legal

Every part of a statement that logs no error is legal by the induction. Then it leaves the scopes
that the rules give, by the results above, and the next part is checked in these. -/

theorem length_scopes (c : State) : c.scopes.length = c.layers.length := by
  simp [State.scopes, State.layers, ScopeStack.views]

/-- The checker stands as told, some scope is open, and no name has been poisoned. -/
structure State.Ready (c : State) (around : Setting) (Γ : Scopes) : Prop extends c.At around Γ where
  unpoisoned : c.poisoned = []
  isOpen : Γ ≠ []

namespace State.Ready

theorem follows (ready : c.Ready around Γ) (follows : c.Follows c' Γ' returns)
    (isOpen : Γ' ≠ []) : c'.Ready around Γ' :=
  ⟨ready.toAt.follows follows, follows.poisoned.trans ready.unpoisoned, isOpen⟩

/-- Checking leaves as many scopes open as there were. -/
theorem after {n : Nat} {free : Bool} (ready : c.Ready around Γ)
    (follows : c.Follows c' Γ' returns) (after : c.After n free c') : c'.Ready around Γ' := by
  have sameLength : Γ'.length = Γ.length := by
    rw [← follows.scopes, ← ready.scopes, length_scopes, length_scopes, after.layers.length_eq]
  refine ready.follows follows ?_
  rintro rfl
  exact ready.isOpen (List.length_eq_zero_iff.mp sameLength.symm)

theorem enterLoop (ready : c.Ready around Γ) : (Check.enterLoop c).2.Ready around.loop Γ :=
  ⟨ready.toAt.enterLoop, ready.unpoisoned, ready.isOpen⟩

/-- An expression that is checked without an error has a type, and nothing changes. -/
theorem expr {e : Expr} (ready : c.Ready around Γ) (clean : (inferExpr e c).2.Clean) :
    ∃ t, HasType Γ none e t ∧ (inferExpr e c).1 = some t ∧
      c.Follows (inferExpr e c).2 Γ false := by
  obtain ⟨t, typed⟩ := typed_expr e ready.toSees ready.unpoisoned clean
  exact ⟨t, typed, infers_expr e ready.toSees typed⟩

end State.Ready

theorem initType_of_clean {d : Declaration} (ready : c.Ready around Γ)
    (clean : (initType d c).2.Clean) :
    (∀ e, d.init = some e → ∃ found, HasType Γ none e found ∧ (initType d c).1 = some found) ∧
      c.Follows (initType d c).2 Γ false := by
  unfold initType at clean ⊢
  cases given : d.init with
  | none => exact ⟨nofun, ready.refl⟩
  | some e =>
      rw [given] at clean
      obtain ⟨found, typed, known, checked⟩ := ready.expr clean
      refine ⟨?_, checked⟩
      rintro _ ⟨⟩
      exact ⟨found, typed, known⟩

theorem legal_declaration {site : Site} {d : Declaration} (ready : c.Ready around Γ)
    (clean : (checkDeclaration d c).2.Clean) : ∃ Γ', Legal around Γ (.declare site d) Γ' := by
  obtain ⟨l, rest, rfl⟩ := List.exists_cons_of_ne_nil ready.isOpen
  rw [checkDeclaration_eq] at clean
  have visited : c.Follows (visitDeclaration d c).2 (l :: rest) false := ready.visit _
  obtain ⟨init, checked⟩ := initType_of_clean (ready.follows visited ready.isOpen)
    (clean.before (after_declareFound d _ _).log)
  obtain ⟨t, parsed, notVoid, absent, noFault⟩ := declarable_of_clean checked.scopes clean
  refine ⟨_, .declare parsed notVoid absent ?_⟩
  intro e given
  obtain ⟨found, typed, known⟩ := init e given
  rw [known, initFault?, given] at noFault
  exact ⟨found, typed, storeFault?_eq_none.mp noFault⟩

theorem legal_assign {site : Site} {target : Located String} {index : Option Expr} {value : Expr}
    (ready : c.Ready around Γ) (clean : (checkAssign target index value c).2.Clean) :
    ∃ Γ', Legal around Γ (.assign site target index value) Γ' := by
  have stored {c₁ : State} {isElement : Bool} (sees : c₁.Sees Γ (some target.val))
      (unpoisoned : c₁.poisoned = [])
      (clean : (checkTarget target isElement value.pos (inferExpr value c₁).1
        { (inferExpr value c₁).2 with assigning := none }).2.Clean) :
      ∃ t isArray hasValue found, View.look Γ target.val = some (.variable t isArray hasValue) ∧
        (isElement = true → isArray = true) ∧ HasType Γ (some target.val) value found ∧
        t.accepts found = true := by
    have cleanValue := clean.before (calm_checkTarget target isElement value.pos _ _).log
    obtain ⟨found, typed⟩ := typed_expr value sees unpoisoned cleanValue
    obtain ⟨known, valued⟩ := infers_expr value sees typed
    rw [known] at clean
    have ended : State.Sees { (inferExpr value c₁).2 with assigning := none } Γ none :=
      ⟨valued.scopes, rfl⟩
    obtain ⟨t, isArray, hasValue, look, array, accepts⟩ :=
      assignable_of_clean ended.scopes (valued.poisoned.trans unpoisoned) clean
    exact ⟨t, isArray, hasValue, found, look, array, typed, accepts⟩
  have visited : (visitAssign target index c).Sees Γ (some target.val) := ⟨ready.scopes, rfl⟩
  cases index with
  | none =>
      rw [checkAssign_none] at clean
      obtain ⟨t, isArray, hasValue, found, look, -, typed, accepts⟩ :=
        stored visited ready.unpoisoned clean
      exact ⟨_, .assign look nofun typed accepts⟩
  | some e =>
      rw [checkAssign_some] at clean
      have cleanValue := clean.before (calm_checkTarget target true value.pos _ _).log
      have cleanIndex := cleanValue.before (calm_inferExpr value _).log
      obtain ⟨i, indexed⟩ := typed_expr e visited ready.unpoisoned
        (cleanIndex.before (calm_checkIndex e.pos _ _).log)
      obtain ⟨known, checked⟩ := infers_expr e visited indexed
      rw [known] at cleanIndex
      have integral := integral_of_clean cleanIndex
      dsimp only at clean
      rw [known, checkIndex_integral integral] at clean
      obtain ⟨t, isArray, hasValue, found, look, array, typed, accepts⟩ :=
        stored (visited.follows checked) (checked.poisoned.trans ready.unpoisoned) clean
      refine ⟨_, .assign look ?_ typed accepts⟩
      rintro _ ⟨⟩
      exact ⟨array rfl, i, indexed, integral⟩

theorem legal_call {site : Site} {callee : Located String} {args : List Expr}
    (ready : c.Ready around Γ) (clean : (checkStmt (.call site callee args) c).2.Clean) :
    ∃ Γ', Legal around Γ (.call site callee args) Γ' := by
  rw [checkStmt_call] at clean
  have visited := (ready.visit 0).trans
    ((ready.toAt.follows (ready.visit 0)).visit (callTokens args))
  have sees := ready.toSees.follows visited
  obtain ⟨types, typed⟩ := typed_args args sees ready.unpoisoned
    (clean.before (calm_checkCall callee _ false _).log)
  obtain ⟨known, checked⟩ := infers_args args sees typed
  obtain ⟨result, calls, -⟩ := callable_of_clean (sees.follows checked)
    (checked.poisoned.trans ready.unpoisoned) known clean
  exact ⟨_, .call typed calls⟩

theorem legal_inBlock {braces : Braces} {body : List Stmt} (ready : c.Ready around Γ)
    (inside : ∀ {c : State}, c.Ready around ((fun _ => none) :: Γ) →
      (checkStmts body c).2.Clean → ∃ Γ', LegalAll around ((fun _ => none) :: Γ) body Γ')
    (clean : (inBlock braces (checkStmts body) c).2.Clean) :
    ∃ Γ', Legal around Γ (.block braces body) Γ' := by
  rw [inBlock_eq] at clean
  have cleanBraces := clean.before (log_closeScope _)
  have opened := ready.openScope
  have visited := opened.trans
    ((ready.toAt.follows opened).visit (1 + if braces.closed.isSome then 1 else 0))
  have entered := ready.follows visited (List.cons_ne_nil _ _)
  obtain ⟨Γ₁, all⟩ := inside entered (cleanBraces.before (calm_closeBraces braces _).log)
  have checked := follows_stmts body entered.toAt all
  obtain ⟨l, Γ', rfl⟩ :=
    List.exists_cons_of_ne_nil (entered.after checked (runs_checkStmts body _)).isOpen
  exact ⟨Γ', .block all (closed_of_clean cleanBraces)⟩

theorem terminated_of_clean {x : Stmt} (clean : (checkTerminator x c).2.Clean) :
    x.IsTerminated := by
  intro site given
  unfold checkTerminator at clean
  rw [given] at clean
  dsimp only at clean
  cases terminated : site.terminated with
  | true => rfl
  | false =>
      rw [terminated] at clean
      exact absurd clean (not_clean_complain _ _ c)

theorem inLoop_of_clean {finding : Finding} {pos : Position} (place : c.At around Γ)
    (clean : (checkInLoop finding pos c).2.Clean) : around.inLoop = true := by
  rw [checkInLoop_eq] at clean
  by_cases outside : c.loops = 0
  · rw [if_pos outside] at clean
    exact absurd clean (not_clean_complain _ _ _)
  · exact place.loops.mp (Nat.pos_of_ne_zero outside)

theorem context_of_clean {pos : Position} {found : Option (Position × Option Ty)}
    (place : c.At around Γ) (clean : (checkResult pos found c).2.Clean) :
    ∃ context result, context.result = some result ∧ around.result = some result ∧
      returnFault? context pos found = none := by
  have known := place.result
  cases function : c.function with
  | none =>
      rw [checkResult, get_bind, function] at clean
      exact absurd clean (not_clean_complain _ _ c)
  | some context =>
      rw [checkResult_found function] at clean
      rw [function, Option.map_some] at known
      obtain ⟨result, inside, same⟩ := Option.map_eq_some_iff.mp known.symm
      exact ⟨context, result, same.symm, inside, fault_of_clean clean⟩

theorem returned_of_clean {context : Context} {result : Ty} {name : Located String}
    (known : context.result = some result)
    (clean : (checkReturned name (some context) c).2.Clean) :
    result = .void ∨ context.returned = true := by
  obtain ⟨_, _, isReturned⟩ := context
  subst known
  cases isReturned with
  | true => exact .inr rfl
  | false =>
      unfold checkReturned at clean
      dsimp only at clean
      cases isVoid : result == .void with
      | true => exact .inl (by simpa using isVoid)
      | false =>
          rw [isVoid] at clean
          exact absurd clean (not_clean_complain _ _ c)

theorem legal_body {h : Heading} {braces : Braces} {body : List Stmt} {result : Ty}
    {types : List Ty} (ready : c.Ready around Γ)
    (inside : ∀ {c : State} {around : Setting} {Γ : Scopes}, c.Ready around Γ →
      (checkStmts body c).2.Clean → ∃ Γ', LegalAll around Γ body Γ')
    (clean : (checkBody h braces body (some result, types.map some) c).2.Clean) :
    ∃ l Γ', ((namedParams h.params types).map Prod.fst).Nodup ∧
      LegalAll { around with result := some result }
        (paramScope (namedParams h.params types) :: Γ) body (l :: Γ') ∧
      braces.closed.isSome = true ∧ (result = .void ∨ Stmt.anyReturns body = true) := by
  have cleanBody := clean.before (log_inBody h braces body _ _)
  -- What follows the parameters only appends to the log.
  have cleanParams : (declareParams h.params (types.map some)
      (openScope { c with function := some (bodyContext h result) }).2).2.Clean :=
    cleanBody.before
      (runs_checkStmts body (enterBody h braces (some result, types.map some) c).2).log
  have distinct := (new_of_clean h.params types (layers_openScope _) cleanParams).2
  have named : State.Ready { c with function := some (bodyContext h result) }
      { around with result := some result } Γ :=
    ⟨⟨⟨ready.scopes, ready.assigning⟩, ready.loops, rfl⟩, ready.unpoisoned, ready.isOpen⟩
  have entered := follows_enterBody braces result ready.scopes distinct
  have ready₁ := named.follows entered (List.cons_ne_nil _ _)
  obtain ⟨Γ₁, all⟩ := inside ready₁ cleanBody
  have checked := follows_stmts body ready₁.toAt all
  obtain ⟨l, Γ', rfl⟩ :=
    List.exists_cons_of_ne_nil (ready₁.after checked (runs_checkStmts body _)).isOpen
  rw [checkBody_eq] at clean
  dsimp only at clean
  have cleanBraces := (clean.before (calm_checkReturned h.name _ _).log).before (log_closeScope _)
  have closed := closed_of_clean cleanBraces
  have ended := (entered.trans checked).closeScope
  rw [closeBraces_closed closed, ended.function, Option.map_some, Bool.false_or] at clean
  exact ⟨l, Γ', distinct, all, closed, returned_of_clean rfl clean⟩

mutual

/-- A statement that is checked without an error is legal. -/
theorem legal_stmt : (x : Stmt) → {c : State} → {around : Setting} → {Γ : Scopes} →
    c.Ready around Γ → (checkStmt x c).2.Clean → ∃ Γ', Legal around Γ x Γ'
  | .declare _ d => by
      intro ready clean
      rw [checkStmt] at clean
      exact legal_declaration ready clean
  | .prototype site h => by
      intro ready clean
      rw [checkStmt_prototype] at clean
      obtain ⟨result, types, Γ', legal⟩ := heading_of_clean ready.scopes clean
      exact ⟨Γ', .prototype legal⟩
  | .define h braces body => by
      intro ready clean
      rw [checkStmt_define] at clean
      have cleanHeading := clean.before
        (after_checkBody (runs_checkStmts body) _ checkHeading_reports).log
      obtain ⟨result, types, Γ₁, legal⟩ := heading_of_clean ready.scopes cleanHeading
      obtain ⟨known, entered⟩ := follows_checkHeading ready.scopes legal
      rw [known] at clean
      obtain ⟨l, Γ', distinct, all, closed, returned⟩ :=
        legal_body (ready.after entered (runs_checkHeading h true _)) (legal_stmts body) clean
      exact ⟨Γ', .define legal distinct all closed returned⟩
  | .assign _ target index value => by
      intro ready clean
      rw [checkStmt] at clean
      exact legal_assign ready clean
  | .call site callee args => legal_call
  | .block braces body => by
      intro ready clean
      rw [checkStmt] at clean
      exact legal_inBlock ready (legal_stmts body) clean
  | .ifThen cond braces body => by
      intro ready clean
      rw [checkStmt_ifThen] at clean
      have visited := ready.follows (ready.visit 3) ready.isOpen
      obtain ⟨t, typed, -, tested⟩ :=
        visited.expr (clean.before (runs_inBlock braces (runs_checkStmts body) _).log)
      obtain ⟨Γ', legal⟩ := legal_inBlock (visited.follows tested visited.isOpen)
        (legal_stmts body) clean
      exact ⟨Γ', .ifThen typed legal⟩
  | .ifElse cond braces body elseBraces elseBody => by
      intro ready clean
      obtain ⟨test, bodied⟩ := log_ifElse cond braces elseBraces body elseBody _
      have visited := ready.follows (ready.visit 4) ready.isOpen
      obtain ⟨t, typed, -, tested⟩ := visited.expr (clean.before test)
      have ready₁ := visited.follows tested visited.isOpen
      obtain ⟨Γ₁, legal⟩ := legal_inBlock ready₁ (legal_stmts body) (clean.before bodied)
      have first := follows_inBlock ready₁.toAt (follows_stmts body) legal
      obtain ⟨Γ', other⟩ := legal_inBlock
        (ready₁.after first (runs_inBlock braces (runs_checkStmts body) _)) (legal_stmts elseBody)
        clean
      exact ⟨Γ', .ifElse typed legal other⟩
  | .whileLoop cond braces body => by
      intro ready clean
      obtain ⟨test, bodied⟩ := log_whileLoop cond braces body _
      have entered := (ready.follows (ready.visit 3) ready.isOpen).enterLoop
      obtain ⟨t, typed, -, tested⟩ := entered.expr (clean.before test)
      obtain ⟨Γ', legal⟩ := legal_inBlock (entered.follows tested entered.isOpen)
        (legal_stmts body) (clean.before bodied)
      exact ⟨Γ', .whileLoop typed legal⟩
  | .forLoop init cond update braces body => by
      intro ready clean
      obtain ⟨begun, test, bodied, updated⟩ := log_forLoop cond braces body _ init update
      have visited := ready.follows (ready.visit 5) ready.isOpen
      have opened := visited.follows visited.openScope (List.cons_ne_nil _ _)
      obtain ⟨Γ₁, first⟩ := legal_header init opened (clean.before begun)
      have started := follows_header init opened.toAt first
      have entered := (opened.after started (runs_checkHeader init _)).enterLoop
      obtain ⟨t, typed, -, tested⟩ := entered.expr (clean.before test)
      have ready₁ := entered.follows tested entered.isOpen
      obtain ⟨Γ₂, legal⟩ := legal_inBlock ready₁ (legal_stmts body) (clean.before bodied)
      have checked := follows_inBlock ready₁.toAt (follows_stmts body) legal
      have ready₂ := ready₁.after checked (runs_inBlock braces (runs_checkStmts body) _)
      obtain ⟨Γ₃, last⟩ := legal_header update ready₂ (clean.before updated)
      have ended := follows_header update ready₂.toAt last
      obtain ⟨l, Γ', rfl⟩ :=
        List.exists_cons_of_ne_nil (ready₂.after ended (runs_checkHeader update _)).isOpen
      exact ⟨Γ', .forLoop first typed legal last⟩
  | .breakLoop site => by
      intro ready clean
      rw [checkStmt] at clean
      exact ⟨_, .breakLoop (inLoop_of_clean ready.toAt clean)⟩
  | .continueLoop site => by
      intro ready clean
      rw [checkStmt] at clean
      exact ⟨_, .continueLoop (inLoop_of_clean ready.toAt clean)⟩
  | .returnValue site none => by
      intro ready clean
      rw [checkStmt, checkReturn_none] at clean
      obtain ⟨context, result, known, inside, noFault⟩ :=
        context_of_clean (ready.toAt.follows (ready.visit 1)) clean
      rw [(returnFault?_none_iff known _).mp noFault] at inside
      exact ⟨_, .returnNothing inside⟩
  | .returnValue site (some value) => by
      intro ready clean
      rw [checkStmt, checkReturn_some] at clean
      have visited := ready.follows (ready.visit 1) ready.isOpen
      obtain ⟨found, typed, known, checked⟩ :=
        visited.expr (clean.before (calm_checkResult _ _ _).log)
      dsimp only at clean
      rw [known] at clean
      obtain ⟨context, result, same, inside, noFault⟩ :=
        context_of_clean (visited.toAt.follows checked) clean
      exact ⟨_, .returnValue inside typed ((returnFault?_some_iff same _ _).mp noFault)⟩

theorem legal_header : (header : Option Stmt) → {c : State} → {around : Setting} →
    {Γ : Scopes} → c.Ready around Γ → (checkHeader header c).2.Clean →
    ∃ Γ', LegalHeader around Γ header Γ'
  | none => fun _ _ => ⟨_, .none⟩
  | some x => by
      intro ready clean
      rw [checkHeader] at clean
      obtain ⟨Γ', legal⟩ := legal_stmt x ready clean
      exact ⟨Γ', .some legal⟩

theorem legal_stmts : (body : List Stmt) → {c : State} → {around : Setting} → {Γ : Scopes} →
    c.Ready around Γ → (checkStmts body c).2.Clean → ∃ Γ', LegalAll around Γ body Γ'
  | [] => fun _ _ => ⟨_, .nil⟩
  | x :: rest => by
      intro ready clean
      rw [checkStmts_cons] at clean
      have cleanFirst := clean.before (runs_checkStmts rest _).log
      have terminated := terminated_of_clean (cleanFirst.before (runs_checkStmt x _).log)
      have ended := ready.follows (follows_terminator ready.toAt terminated) ready.isOpen
      obtain ⟨Γ₁, legal⟩ := legal_stmt x ended cleanFirst
      have first := follows_stmt x ended.toAt legal
      obtain ⟨Γ', all⟩ := legal_stmts rest (ended.after first (runs_checkStmt x _)) clean
      exact ⟨Γ', .cons terminated legal all⟩

end

end Check

/-! ### Programs -/

/-- The state in which the first statement of a program is checked. -/
def Check.State.start : Check.State := (Check.openScope (Check.visit 0 {}).2).2

theorem Check.State.ready_start : Check.State.start.Ready {} [fun _ => none] := by
  refine ⟨⟨⟨rfl, rfl⟩, ?_, rfl⟩, rfl, List.cons_ne_nil _ _⟩
  decide

theorem Program.diagnostics_check (p : Program) : p.check.diagnostics =
    (Check.sweep (Check.checkStmts p.stmts Check.State.start).2.env.stack.values
      (Check.checkStmts p.stmts Check.State.start).2).2.diagnostics := rfl

/-- What is said when the global scope closes is no error. -/
theorem Program.accepted_iff_clean (p : Program) : p.check.diagnostics.hasErrors = false ↔
    (Check.checkStmts p.stmts Check.State.start).2.Clean := by
  rw [p.diagnostics_check, (Check.follows_sweep _ _).errors]
  rfl

/-- No error is found in exactly the programs that follow the rules. -/
theorem accepted_iff_wellFormed (p : Program) :
    p.check.diagnostics.hasErrors = false ↔ p.WellFormed := by
  rw [p.accepted_iff_clean]
  have ready := Check.State.ready_start
  constructor
  · intro clean
    exact Check.legal_stmts p.stmts ready clean
  · rintro ⟨Γ, all⟩
    exact (Check.follows_stmts p.stmts ready.toAt all).clean rfl

end BraceLang
