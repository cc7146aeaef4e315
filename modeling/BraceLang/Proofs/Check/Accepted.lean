import BraceLang.Proofs.Check.Growth

/-!
What checking has found out when it has found no error. Each result here says of one action that,
if no error is logged after it, then its tests have passed: names stand for what they are used as,
types are known, and declarations have entered the scopes they belong to.

**Main results.** `readVariable_accepted`, `checkCall_accepted`, `checkUnary_accepted` and
`checkBinary_accepted` for expressions, `checkTarget_accepted` for assignments,
`declareFound_accepted`, `declareParams_accepted`, `declareFunction_accepted` and
`checkHeading_accepted` for declarations.
-/

namespace BraceLang.Check

variable {c : State}

/-! ### Expressions -/

/-- A name that stands for nothing is reported, unless names have been poisoned. -/
theorem not_clean_undeclared {name : String} {pos : Position} (unpoisoned : c.poisoned = [])
    (clean : (complainOf (undeclared? name pos c).1 c).2.Clean) : False := by
  have fault : (undeclared? name pos c).1 = some (.undeclaredIdentifier name, pos) := by
    change (if c.poisoned.contains name = true then none else _) = _
    rw [unpoisoned]
    rfl
  rw [fault] at clean
  exact not_clean_complain _ _ c clean

theorem meaning_of_variable {symbol : Symbol} (noFunction : symbol.isFunction = false) :
    symbol.meaning = ⟨symbol.type, none⟩ := by
  rw [Symbol.isFunction, Option.isSome_eq_false_iff, Option.isNone_iff_eq_none] at noFunction
  rw [Symbol.meaning, noFunction]
  rfl

/-- What is read is a variable, and its type is handed back. -/
theorem readVariable_accepted {name : String} {pos : Position} {isElement : Bool}
    (unpoisoned : c.poisoned = []) (clean : (readVariable name pos isElement c).2.Clean) :
    ∃ symbol, c.env.stack.lookup name = some symbol ∧ symbol.isFunction = false ∧
      (readVariable name pos isElement c).1 = some symbol.type := by
  rw [readVariable, lookup_bind] at clean ⊢
  cases found : c.env.stack.lookup name with
  | none =>
      rw [found] at clean
      exact (not_clean_undeclared unpoisoned clean).elim
  | some symbol =>
      rw [found] at clean
      dsimp only at clean ⊢
      cases isFunction : symbol.isFunction with
      | true =>
          simp only [isFunction, if_true] at clean
          exact absurd clean (not_clean_complain _ _ c)
      | false =>
          refine ⟨symbol, rfl, isFunction, ?_⟩
          simp only [Bool.false_eq_true, if_false]
          rfl

/-- The operand of a unary operator has a type that takes part in arithmetic. -/
theorem checkUnary_accepted {op : UnOp} {pos : Position} {t : Ty}
    (clean : (checkUnary op pos (some t) c).2.Clean) :
    t ≠ .void ∧ (checkUnary op pos (some t) c).1 = some (op.resultType t) := by
  unfold checkUnary at clean ⊢
  dsimp only at clean ⊢
  cases numeric : t.isNumeric with
  | true => exact ⟨by simpa [Ty.isNumeric] using numeric, by simp only [if_true]; rfl⟩
  | false =>
      rw [numeric] at clean
      exact absurd clean (not_clean_complain _ _ c)

/-- Both operands of a binary operator are of types it admits. -/
theorem checkBinary_accepted {op : BinOp} {pos : Position} {left right : Ty}
    (clean : (checkBinary op pos (some left) (some right) c).2.Clean) :
    op.admits left = true ∧ op.admits right = true ∧
      (checkBinary op pos (some left) (some right) c).1 = op.resultType left right := by
  unfold checkBinary at clean ⊢
  dsimp only at clean ⊢
  cases found : [left, right].find? (!op.admits ·) with
  | some t =>
      rw [found] at clean
      exact absurd clean (not_clean_complain _ _ c)
  | none =>
      have admitted := List.find?_eq_none.mp found
      refine ⟨by simpa using admitted left (by simp), by simpa using admitted right (by simp), rfl⟩

/-- What is called is a function; if its result is used, it has one. -/
theorem checkCall_accepted {callee : Located String} {args : List (Position × Option Ty)}
    {isValue : Bool} (unpoisoned : c.poisoned = [])
    (clean : (checkCall callee args isValue c).2.Clean) :
    ∃ symbol signature, c.env.stack.lookup callee.val = some symbol ∧
      symbol.signature? = some signature ∧
      (isValue = true → symbol.type ≠ .void ∧
        (checkCall callee args isValue c).1 = some symbol.type) := by
  rw [checkCall, lookup_bind] at clean ⊢
  cases found : c.env.stack.lookup callee.val with
  | none =>
      rw [found] at clean
      exact (not_clean_undeclared unpoisoned clean).elim
  | some symbol =>
      rw [found] at clean
      dsimp only at clean ⊢
      cases known : symbol.signature? with
      | none =>
          rw [known] at clean
          exact absurd clean (not_clean_complain _ _ c)
      | some signature =>
          refine ⟨symbol, signature, rfl, known, ?_⟩
          intro used
          rw [known, used] at clean
          subst used
          cases isVoid : symbol.type == .void with
          | true =>
              rw [isVoid] at clean
              exact absurd clean (not_clean_complain _ _ _)
          | false => exact ⟨by simpa using isVoid, rfl⟩

/-- What is assigned to is a variable. -/
theorem checkTarget_accepted {target : Located String} {isElement : Bool} {valuePos : Position}
    {found : Option Ty} (unpoisoned : c.poisoned = [])
    (clean : (checkTarget target isElement valuePos found c).2.Clean) :
    ∃ symbol, c.env.stack.lookup target.val = some symbol ∧ symbol.isFunction = false := by
  rw [checkTarget, lookup_bind] at clean
  cases known : c.env.stack.lookup target.val with
  | none =>
      rw [known] at clean
      exact (not_clean_undeclared unpoisoned clean).elim
  | some symbol =>
      rw [known] at clean
      dsimp only at clean
      cases isFunction : symbol.isFunction with
      | true =>
          simp only [isFunction, if_true] at clean
          exact absurd clean (not_clean_complain _ _ c)
      | false => exact ⟨symbol, rfl, isFunction⟩

/-! ### Declarations -/

section Declaring

variable {β : Type} {f : Symbol → β} {l : View β} {rest : List (View β)}

/-- A scope that a name can be declared in has that name afterwards. -/
theorem views_declareSymbol (symbol : Symbol) (views : c.env.stack.views f = l :: rest)
    (absent : l symbol.name = none) :
    (declare symbol c).2.env.stack.views f = l.add symbol.name (f symbol) :: rest := by
  obtain ⟨stack, declared, views⟩ := ScopeStack.views_declare f views absent symbol
  rw [← views]
  change (c.env.declare symbol.name symbol).2.stack.views _ = _
  rw [Env.declare, declared]
  rfl

theorem declaredHere_eq (views : c.env.stack.views f = l :: rest) (name : String) :
    c.env.stack.declaredHere name = (l name).isSome := by
  obtain ⟨⟨⟨scopes⟩, journal⟩, _⟩ := c
  cases scopes with
  | nil => contradiction
  | cons scope others =>
      obtain ⟨rfl, -⟩ := List.cons.inj views
      exact (Option.isSome_map ..).symm

end Declaring

/-- A variable that is new to the current scope is among those of it. -/
theorem vars_declare {symbol : Symbol} {v : VarInfo} (settled : symbol.var? = some v)
    (absent : c.env.stack.declaredHere symbol.name = false) :
    (declare symbol c).2.vars = View.declare c.vars symbol.name v := by
  have stack : (declare symbol c).2.env.stack =
      (c.env.stack.declare? symbol.name symbol).getD c.env.stack := by
    change (c.env.declare symbol.name symbol).2.stack = _
    unfold Env.declare
    cases c.env.stack.declare? symbol.name symbol <;> rfl
  rw [State.vars, stack, ScopeStack.views_declare_getD _ absent, settled, View.declare_present]
  rfl

/-- A declared variable has a type, it is new to the current scope, and it enters it. -/
theorem declareFound_enters {d : Declaration} {found : Option Ty}
    (clean : (declareFound d found c).2.Clean) :
    ∃ t initialized, Ty.parse? d.type.val = some t ∧ t ≠ .void ∧
      c.env.stack.declaredHere d.name.val = false ∧ (declareFound d found c).2 =
        (declare (.ofVariable d.name.val t d.name.pos d.length false initialized) c).2 := by
  rw [declareFound_eq] at clean ⊢
  cases absent : c.env.stack.declaredHere d.name.val with
  | true =>
      rw [absent] at clean
      exact absurd clean (not_clean_complain _ _ c)
  | false =>
      rw [absent] at clean
      simp only [Bool.false_eq_true, if_false] at clean ⊢
      rcases resolveVariableType_cases d.type d.name.val d.name.pos c with
        ⟨t, parsed, notVoid, known⟩ | ⟨unknown, bad⟩
      · rw [known] at clean ⊢
        cases fault : initFault? d found (some t) with
        | none => exact ⟨t, _, parsed, notVoid, trivial, rfl⟩
        | some fault' =>
            rw [fault] at clean
            exact absurd clean (not_clean_complain _ _ c)
      · generalize resolveVariableType d.type d.name.val d.name.pos c = resolved at *
        rw [unknown] at clean
        exact absurd (clean.before (calm_complainOf _ resolved.2).log) bad

theorem declareFound_accepted {d : Declaration} {found : Option Ty} {l : View Meaning}
    {rest : List (View Meaning)} (layers : c.layers = l :: rest)
    (clean : (declareFound d found c).2.Clean) :
    ∃ t, Ty.parse? d.type.val = some t ∧ t ≠ .void ∧ l d.name.val = none ∧
      (declareFound d found c).2.layers = l.add d.name.val ⟨t, none⟩ :: rest := by
  obtain ⟨t, initialized, parsed, notVoid, absent, entered⟩ := declareFound_enters clean
  rw [declaredHere_eq layers, Option.isSome_eq_false_iff, Option.isNone_iff_eq_none] at absent
  rw [entered]
  exact ⟨t, parsed, notVoid, absent, views_declareSymbol _ layers absent⟩

/-! ### Headings -/

/-- A parameter without a name enters no scope. -/
theorem declareParams_anonymous {p : Param} (anonymous : p.name = none) (params : List Param)
    (type? : Option Ty) (types : List (Option Ty)) (c : State) :
    declareParams (p :: params) (type? :: types) c = declareParams params types c := by
  rw [declareParams, anonymous]

theorem declareParams_named {p : Param} {name : Located String} (named : p.name = some name)
    (params : List Param) (type? : Option Ty) (types : List (Option Ty)) (c : State) :
    declareParams (p :: params) (type? :: types) c = declareParams params types
      (if c.env.stack.declaredHere name.val then
        (complain (.doubleDeclaration name.val) name.pos c).2
      else (declareVariable name type? none true true c).2) := by
  rw [declareParams, named]
  change (if c.env.stack.declaredHere name.val = true then _ else _ : Check Unit) c = _
  split <;> rfl

/-- A parameter with a name is new to the scope of the body, and enters it. -/
theorem declareParams_enters {p : Param} {name : Located String} {t : Ty} {params : List Param}
    {types : List (Option Ty)} (named : p.name = some name)
    (clean : (declareParams (p :: params) (some t :: types) c).2.Clean) :
    c.env.stack.declaredHere name.val = false ∧
      declareParams (p :: params) (some t :: types) c =
        declareParams params types
          (declare (.ofVariable name.val t name.pos none true true) c).2 := by
  rw [declareParams_named named] at clean ⊢
  cases absent : c.env.stack.declaredHere name.val with
  | true =>
      rw [absent] at clean
      have bad := not_clean_complain (.doubleDeclaration name.val) name.pos c
      have later := after_declareParams params types _ fun _ => bad
      exact absurd (clean.before later.log) bad
  | false => exact ⟨rfl, rfl⟩

theorem declareParams_accepted {p : Param} {name : Located String} {t : Ty} {params : List Param}
    {types : List (Option Ty)} {l : View Meaning} {rest : List (View Meaning)}
    (named : p.name = some name) (layers : c.layers = l :: rest)
    (clean : (declareParams (p :: params) (some t :: types) c).2.Clean) :
    l name.val = none ∧ ∃ c', c'.layers = l.add name.val ⟨t, none⟩ :: rest ∧
      c'.poisoned = c.poisoned ∧
      declareParams (p :: params) (some t :: types) c = declareParams params types c' := by
  obtain ⟨absent, entered⟩ := declareParams_enters named clean
  rw [declaredHere_eq layers, Option.isSome_eq_false_iff, Option.isNone_iff_eq_none] at absent
  refine ⟨absent, (declare (.ofVariable name.val t name.pos none true true) c).2, ?_, rfl, entered⟩
  exact views_declareSymbol _ layers absent

theorem lookupGlobal_eq {g : View Meaning} (layers : c.layers = [g]) (name : String) :
    (c.env.stack.lookupGlobal name).map Symbol.meaning = g name := by
  obtain ⟨⟨⟨scopes⟩, journal⟩, _⟩ := c
  obtain ⟨scope, rfl, rfl⟩ := List.map_eq_singleton_iff.mp layers
  rfl

theorem standing_fresh {name : String} {result : Ty} {types : List Ty} {defining : Bool}
    {known : Option Symbol} (fresh : standing name result types defining known = .fresh) :
    known = none := by
  unfold standing at fresh
  split at fresh
  · rfl
  · split at fresh
    · contradiction
    · split at fresh
      · contradiction
      · split at fresh <;> contradiction

theorem standing_fits {name : String} {result : Ty} {types : List Ty} {defining : Bool}
    {known : Option Symbol} (fits : standing name result types defining known = .fits) :
    known.map Symbol.meaning = some ⟨result, some types⟩ := by
  unfold standing at fits
  split at fits
  · contradiction
  · rename_i symbol
    split at fits
    · contradiction
    · rename_i signature kind
      split at fits
      · contradiction
      · rename_i same
        obtain ⟨rfl, rfl⟩ := not_or.mp same |>.imp Decidable.not_not.mp Decidable.not_not.mp
        simp [Symbol.meaning, Symbol.signature?, kind]

/-- An accepted function is new, or it has been declared with the same types before. -/
theorem declareFunction_accepted {h : Heading} {result : Ty} {types : List Ty} {defining : Bool}
    {g : View Meaning} (layers : c.layers = [g])
    (clean : (declareFunction h result types defining c).2.Clean) :
    (g h.name.val = none ∧ (declareFunction h result types defining c).2.layers =
      [g.add h.name.val ⟨result, some types⟩]) ∨
    (g h.name.val = some ⟨result, some types⟩ ∧
      (declareFunction h result types defining c).2.layers = [g]) := by
  rw [declareFunction_eq] at clean ⊢
  cases known : standing h.name.val result types defining
      (c.env.stack.lookupGlobal h.name.val) with
  | fresh =>
      have absent : g h.name.val = none := by
        rw [← lookupGlobal_eq layers, standing_fresh known]
        rfl
      refine .inl ⟨absent, ?_⟩
      obtain ⟨stack, declared, views⟩ := ScopeStack.views_declareGlobal Symbol.meaning layers absent
        (headingSymbol h result types defining)
      refine Eq.trans ?_ views
      change (c.env.declareGlobal h.name.val _).2.stack.views _ = _
      rw [Env.declareGlobal, declared]
      rfl
  | fits =>
      refine .inr ⟨by rw [← lookupGlobal_eq layers, standing_fits known], ?_⟩
      cases defining with
      | false => exact layers
      | true => exact (steady_completed c _ _).layers.trans layers
  | conflict finding =>
      rw [known] at clean
      exact absurd clean (not_clean_complain _ _ c)

theorem parse?_of_resolveType {text : Located String} {t : Ty}
    (found : (resolveType text c).1 = some t) : Ty.parse? text.val = some t := by
  rw [resolveType_eq] at found
  cases parsed : Ty.parse? text.val with
  | none =>
      rw [parsed] at found
      contradiction
  | some t' =>
      rw [parsed] at found
      exact found

theorem enterFunction_known (h : Heading) (result : Ty) (types : List Ty) (defining : Bool) :
    enterFunction h (some result) (types.map some) defining =
      declareFunction h result types defining := by
  have all : (types.map some).mapM id = some types := by
    rw [List.mapM_map]
    exact List.mapM_pure.trans (congrArg some (List.map_id types))
  unfold enterFunction
  rw [all]

/-- All types of an accepted heading are known, and its function is entered with them. -/
theorem checkHeading_accepted {h : Heading} {defining : Bool}
    (clean : (checkHeading h defining c).2.Clean) :
    ∃ result types c', Ty.parse? h.result.val = some result ∧ h.Takes types ∧ c.Steady c' ∧
      (checkHeading h defining c).1 = (some result, types.map some) ∧
      (checkHeading h defining c).2 = (declareFunction h result types defining c').2 := by
  rw [checkHeading_eq] at clean ⊢
  dsimp only at clean ⊢
  have visited := calm_visit h.tokens c
  have resolved := calm_resolveType h.result (visit h.tokens c).2
  have typed := calm_paramTypes h (resolveType h.result (visit h.tokens c).2).2
  have entered := clean.before (runs_enterFunction h _ _ defining _).log
  obtain ⟨types, known, takes⟩ := paramTypes_accepted entered
  cases found : (resolveType h.result (visit h.tokens c).2).1 with
  | none => exact absurd (entered.before typed.log) (resolveType_reports found)
  | some result =>
      refine ⟨result, types, _, ?_, takes, (visited.trans resolved).trans typed, ?_, ?_⟩
      · exact parse?_of_resolveType found
      · rw [known]
      · rw [known, enterFunction_known]

end BraceLang.Check
