import BraceLang.Proofs.Check.Typing
import BraceLang.Proofs.Stacks

/-!
How names enter the scopes. Each part of the checker that changes a scope changes what the rules
see of it as the rules say, and reports nothing where they are followed.

**Main results.** `follows_declareFound` and `declarable_of_clean` for variables,
`follows_checkTarget` and `assignable_of_clean` for what is assigned to, `follows_checkHeading` and
`heading_of_clean` for functions, `follows_declareParams` and `new_of_clean` for parameters, and
`follows_closeScope` for the end of a scope.
-/

namespace BraceLang

/-! ### Views of changed scopes -/

theorem Symbol.entity_initialized (s : Symbol) :
    ({ s with initialized := true } : Symbol).entity = s.entity.given := by
  unfold entity
  cases s.kind <;> rfl

namespace Scopes

theorem views_give (stack : ScopeStack Symbol) (name : String) :
    (stack.update name ({ · with initialized := true })).views Symbol.entity =
      give name (stack.views Symbol.entity) := by
  obtain ⟨scopes⟩ := stack
  simp only [ScopeStack.views, ScopeStack.update]
  induction scopes with
  | nil => rfl
  | cons s rest ih =>
      rw [ScopeStack.updateIn, List.map_cons, give]
      cases found : s.get? name with
      | none =>
          have absent : s.contains name = false := by simp [Assoc.contains, found]
          have unseen : Scope.view Symbol.entity s name = none := by simp [Scope.view, found]
          rw [absent, unseen]
          simp only [Bool.false_eq_true, if_false, List.map_cons, ih]
      | some symbol =>
          have present : s.contains name = true := by simp [Assoc.contains, found]
          have seen : Scope.view Symbol.entity s name = some symbol.entity := by
            simp [Scope.view, found]
          rw [if_pos present, List.map_cons, Scope.view_update_found Symbol.entity found, seen,
            Symbol.entity_initialized]

/-- A change of the global scope that makes the name stand for the entity. -/
theorem views_onLast {change : Scope Symbol → Option (Scope Symbol)} {name : String} {e : Entity} :
    (scopes : List (Scope Symbol)) → {scopes' : List (Scope Symbol)} →
    (∀ s s', scopes.getLast? = some s → change s = some s' →
      Scope.view Symbol.entity s' = (Scope.view Symbol.entity s).add name e) →
    ScopeStack.onLast change scopes = some scopes' →
    scopes'.map (Scope.view Symbol.entity) =
      setGlobal name e (scopes.map (Scope.view Symbol.entity))
  | [], _, _, changed => by contradiction
  | [s], _, changes, changed => by
      obtain ⟨s', changed', rfl⟩ := Option.map_eq_some_iff.mp changed
      rw [List.map_singleton, changes s s' rfl changed']
      rfl
  | s :: s₁ :: rest, _, changes, changed => by
      obtain ⟨inner, changed', rfl⟩ := Option.map_eq_some_iff.mp changed
      have others := views_onLast (s₁ :: rest) (fun s s' last => changes s s' (by simpa using last))
        changed'
      rw [List.map_cons, others]
      rfl

theorem findGlobal_views (stack : ScopeStack Symbol) (name : String) :
    findGlobal (stack.views Symbol.entity) name =
      (stack.lookupGlobal name).map Symbol.entity := by
  unfold findGlobal ScopeStack.lookupGlobal ScopeStack.global? ScopeStack.views
  rw [List.getLast?_map]
  cases stack.scopes.getLast? <;> rfl

theorem setGlobal_self {name : String} {e : Entity} : (Γ : Scopes) → findGlobal Γ name = some e →
    setGlobal name e Γ = Γ
  | [], _ => rfl
  | [g], found => congrArg ([·]) (View.add_self found)
  | l :: l₁ :: rest, found => by
      have others := setGlobal_self (l₁ :: rest) (by simpa [findGlobal] using found)
      rw [setGlobal, others]
      nofun

end Scopes

namespace Check

variable {c : State} {Γ : Scopes}

/-- A change of the scopes alone. -/
theorem follows_env (c : State) (env : Env Symbol) :
    c.Follows { c with env } (env.stack.views Symbol.entity) false :=
  ⟨rfl, rfl, rfl, rfl, rfl, (map_noting_false c.function).symm⟩

/-! ### The beginning and the end of a scope -/

theorem follows_openScope (c : State) :
    c.Follows (openScope c).2 ((fun _ => none) :: c.scopes) false := follows_env c c.env.enter

theorem follows_report {d : Diagnostic} (noError : d.isError = false) (c : State) :
    c.Follows (report d c).2 c.scopes false where
  scopes := rfl
  errors := by
    change (c.diagnostics.push d).hasErrors = _
    simp [Diagnostics.hasErrors, noError]
  poisoned := rfl
  assigning := rfl
  loops := rfl
  function := (map_noting_false c.function).symm

theorem follows_reports : (ds : List Diagnostic) → (∀ d ∈ ds, d.isError = false) → (c : State) →
    c.Follows (ds.forM report c).2 c.scopes false
  | [], _, c => .refl c
  | d :: rest, noErrors, c => by
      have first := follows_report (noErrors d List.mem_cons_self) c
      have others := follows_reports rest (fun d mem => noErrors d (List.mem_cons_of_mem _ mem))
        (report d c).2
      exact first.trans others

/-- What is left to say about a symbol is no error. -/
theorem isError_leftover? {symbol : Symbol} {d : Diagnostic} (left : leftover? symbol = some d) :
    d.isError = false := by
  rw [Diagnostic.isError, severity_leftover? left]
  rfl

theorem follows_sweep (symbols : List Symbol) (c : State) :
    c.Follows (sweep symbols c).2 c.scopes false := by
  refine follows_reports _ ?_ c
  intro d mem
  rw [leftovers, List.mem_mergeSort, List.mem_filterMap] at mem
  obtain ⟨symbol, -, left⟩ := mem
  exact isError_leftover? left

theorem follows_closeScope (c : State) : c.Follows (closeScope c).2 c.scopes.tail false := by
  rw [closeScope_eq]
  obtain ⟨⟨⟨scopes⟩, journal⟩, _⟩ := c
  cases scopes with
  | nil => exact .refl _
  | cons s rest => exact (follows_env _ _).trans (follows_sweep s.values _)

theorem State.Follows.closeScope {c' : State} {l : View Entity} {returns : Bool}
    (inside : c.Follows c' (l :: Γ) returns) : c.Follows (closeScope c').2 Γ returns := by
  have closed := follows_closeScope c'
  rw [inside.scopes] at closed
  simpa using inside.trans closed

theorem closeBraces_closed {b : Braces} (closed : b.closed.isSome = true) (c : State) :
    closeBraces b c = ((), c) := by
  have notNone : b.closed.isNone = false := by simp [closed]
  rw [closeBraces, notNone]
  rfl

theorem closed_of_clean {b : Braces} (clean : (closeBraces b c).2.Clean) :
    b.closed.isSome = true := by
  unfold closeBraces at clean
  cases closed : b.closed with
  | some _ => rfl
  | none =>
      rw [closed] at clean
      exact absurd clean (not_clean_complain _ _ c)

/-! ### Variables -/

theorem resolveVariableType_known {text : Located String} {t : Ty}
    (parsed : Ty.parse? text.val = some t) (notVoid : t ≠ .void) (name : String) (pos : Position)
    (c : State) : resolveVariableType text name pos c = (some t, c) := by
  rw [resolveVariableType_eq, resolveType_eq, parsed]
  cases t <;> first | contradiction | rfl

theorem isGlobal_eq {l : View Entity} {rest : Scopes} (scopes : c.scopes = l :: rest) :
    c.env.stack.isGlobal = rest.isEmpty := by
  have length := congrArg List.length scopes
  rw [State.scopes, ScopeStack.views, List.length_map, List.length_cons] at length
  rw [ScopeStack.isGlobal, ScopeStack.depth, length]
  cases rest <;> rfl

theorem follows_declareVariable {l : View Entity} {rest : Scopes} (scopes : c.scopes = l :: rest)
    {name : Located String} (absent : l name.val = none) (t : Ty) (length : Option UInt32)
    (isParam initialized : Bool) :
    c.Follows (declareVariable name (some t) length isParam initialized c).2
      (l.add name.val (.variable t length.isSome initialized) :: rest) false := by
  have declared := views_declareSymbol
    (Symbol.ofVariable name.val t name.pos length isParam initialized) scopes absent
  rw [← show _ = l.add name.val (.variable t length.isSome initialized) :: rest from declared]
  exact follows_env c _

theorem follows_declareFound {d : Declaration} {l : View Entity} {rest : Scopes} {t : Ty}
    {found : Option Ty} (scopes : c.scopes = l :: rest) (parsed : Ty.parse? d.type.val = some t)
    (notVoid : t ≠ .void) (absent : l d.name.val = none)
    (noFault : initFault? d found (some t) = none) :
    c.Follows (declareFound d found c).2 (l.add d.name.val (.variable t d.length.isSome
      (rest.isEmpty || d.init.isSome || d.length.isSome)) :: rest) false := by
  have new : c.env.stack.declaredHere d.name.val = false := by
    rw [declaredHere_eq scopes, absent]
    rfl
  rw [declareFound_eq, new, resolveVariableType_known parsed notVoid]
  dsimp only
  rw [noFault]
  change c.Follows (declareVariable d.name (some t) d.length false
    (c.env.stack.isGlobal || d.init.isSome || d.length.isSome) c).2 _ false
  rw [isGlobal_eq scopes]
  exact follows_declareVariable scopes absent t d.length false _

theorem declarable_of_clean {d : Declaration} {found : Option Ty} {l : View Entity}
    {rest : Scopes} (scopes : c.scopes = l :: rest) (clean : (declareFound d found c).2.Clean) :
    ∃ t, Ty.parse? d.type.val = some t ∧ t ≠ .void ∧ l d.name.val = none ∧
      initFault? d found (some t) = none := by
  obtain ⟨l', rest', layers⟩ := ScopeStack.exists_views_cons _ Symbol.meaning scopes
  obtain ⟨t, parsed, notVoid, absent, -⟩ := declareFound_accepted layers clean
  have new : c.env.stack.declaredHere d.name.val = false := by
    rw [declaredHere_eq layers, absent]
    rfl
  refine ⟨t, parsed, notVoid, ?_, ?_⟩
  · rw [declaredHere_eq scopes] at new
    simpa using new
  · rw [declareFound_eq, new, resolveVariableType_known parsed notVoid] at clean
    exact fault_of_clean (clean.before (runs_declare _ _).log)

/-! ### Assignments -/

theorem storeFault?_eq_none {expected found : Ty} {pos : Position} :
    storeFault? expected pos (some found) = none ↔ expected.accepts found = true := by
  simp [storeFault?]

theorem assignFault?_eq_none {symbol : Symbol} {target : Located String} {isElement : Bool}
    {valuePos : Position} {found : Ty} :
    assignFault? symbol target isElement valuePos (some found) = none ↔
      (isElement = true → symbol.length?.isSome = true) ∧ symbol.type.accepts found = true := by
  unfold assignFault?
  cases isElement <;> cases symbol.length? <;> simp [storeFault?_eq_none]

theorem checkTarget_found {target : Located String} {symbol : Symbol}
    (found : c.env.stack.lookup target.val = some symbol) (isVariable : symbol.isFunction = false)
    (isElement : Bool) (valuePos : Position) (type? : Option Ty) :
    (checkTarget target isElement valuePos type? c).2 =
      (complainOf (assignFault? symbol target isElement valuePos type?)
        (update target.val ({ · with initialized := true }) c).2).2 := by
  rw [checkTarget, lookup_bind, found]
  simp only [isVariable, Bool.false_eq_true, if_false]
  rfl

theorem follows_checkTarget {target : Located String} {isElement isArray hasValue : Bool}
    {t found : Ty} (scopes : c.scopes = Γ)
    (look : View.look Γ target.val = some (.variable t isArray hasValue))
    (array : isElement = true → isArray = true) (accepts : t.accepts found = true)
    (valuePos : Position) :
    c.Follows (checkTarget target isElement valuePos (some found) c).2 (Γ.give target.val)
      false := by
  subst scopes
  rw [look_scopes, Option.map_eq_some_iff] at look
  obtain ⟨symbol, known, seen⟩ := look
  obtain ⟨isVariable, rfl, rfl, rfl⟩ := Symbol.entity_eq_variable.mp seen
  rw [checkTarget_found known isVariable, assignFault?_eq_none.mpr ⟨array, accepts⟩, State.scopes,
    ← Scopes.views_give]
  exact follows_env c _

theorem assignable_of_clean {target : Located String} {isElement : Bool} {valuePos : Position}
    {found : Ty} (scopes : c.scopes = Γ) (unpoisoned : c.poisoned = [])
    (clean : (checkTarget target isElement valuePos (some found) c).2.Clean) :
    ∃ t isArray hasValue, View.look Γ target.val = some (.variable t isArray hasValue) ∧
      (isElement = true → isArray = true) ∧ t.accepts found = true := by
  subst scopes
  obtain ⟨symbol, known, isVariable⟩ := checkTarget_accepted unpoisoned clean
  rw [checkTarget_found known isVariable] at clean
  obtain ⟨array, accepts⟩ := assignFault?_eq_none.mp (fault_of_clean clean)
  refine ⟨symbol.type, symbol.length?.isSome, symbol.initialized, ?_, array, accepts⟩
  rw [look_scopes, known, Option.map_some]
  exact congrArg some (Symbol.entity_eq_variable.mpr ⟨isVariable, rfl, rfl, rfl⟩)

/-! ### Headings -/

theorem resolveParams_known {params : List Param} {types : List Ty}
    (has : List.Forall₂ Param.Has params types) (c : State) :
    params.mapM resolveParam c = (types.map some, c) := by
  induction has with
  | nil => rfl
  | cons known _ ih =>
      rw [mapM_cons_eq, resolveParam, resolveVariableType_known known.1 known.2, ih]
      rfl

theorem paramTypes_known {h : Heading} {types : List Ty} (takes : h.Takes types) (c : State) :
    paramTypes h c = (types.map some, c) := by
  unfold Heading.Takes at takes
  unfold paramTypes
  split at takes
  · rename_i isVoid
    rw [if_pos isVoid, takes]
    rfl
  · rename_i notVoid
    rw [if_neg notVoid]
    exact resolveParams_known takes c

theorem standing_none (name : String) (result : Ty) (types : List Ty) (defining : Bool) :
    standing name result types defining none = .fresh := rfl

theorem standing_eq_fits {name : String} {result : Ty} {types : List Ty} {defining : Bool}
    {symbol : Symbol} : standing name result types defining (some symbol) = .fits ↔
      ∃ isDefined, symbol.entity = .function result types isDefined ∧
        (defining && isDefined) = false := by
  unfold standing Symbol.entity
  dsimp only
  cases symbol.kind with
  | var length isParam => simp
  | fn signature =>
      dsimp only
      by_cases same : symbol.type ≠ result ∨ signature.params ≠ types
      · rw [if_pos same]
        constructor
        · nofun
        · rintro ⟨isDefined, seen, -⟩
          injection seen with sameType sameParams
          exact absurd sameParams (same.resolve_left (not_not.mpr sameType))
      · rw [if_neg same]
        obtain ⟨sameType, sameParams⟩ := not_or.mp same
        cases defining <;> cases signature.defined <;> simp_all

theorem views_declareGlobal {name : String} (symbol : Symbol)
    (absent : c.env.stack.lookupGlobal name = none) :
    (c.env.declareGlobal name symbol).2.stack.views Symbol.entity =
      c.scopes.setGlobal name symbol.entity := by
  rw [Env.declareGlobal, ScopeStack.declareGlobal?]
  cases changed : ScopeStack.onLast (Scope.declare? · name symbol) c.env.stack.scopes with
  | some scopes =>
      exact Scopes.views_onLast _ (fun _ _ _ declared => Scope.view_declare? _ declared) changed
  | none =>
      -- Without any scope nothing is declared, and no scope is seen either.
      rcases ScopeStack.onLast_eq_none _ changed with empty | ⟨s, last, taken⟩
      · change c.env.stack.views _ = Scopes.setGlobal name _ (c.env.stack.views _)
        rw [ScopeStack.views, empty]
        rfl
      · have unseen : Scope.view Symbol.entity s name = none := by
          rw [ScopeStack.lookupGlobal, ScopeStack.global?, last] at absent
          exact congrArg (Option.map _) absent
        obtain ⟨s', declared⟩ := Scope.exists_declare? Symbol.entity symbol unseen
        rw [declared] at taken
        contradiction

theorem entity_completed {symbol : Symbol} {names : List (Option String)} {result : Ty}
    {types : List Ty} {isDefined : Bool} (seen : symbol.entity = .function result types isDefined) :
    (completed names symbol).entity = .function result types true := by
  unfold completed
  unfold Symbol.entity at seen
  cases kind : symbol.kind with
  | var length isParam =>
      rw [kind] at seen
      contradiction
  | fn signature =>
      rw [kind] at seen
      injection seen with sameType sameParams
      simp [Symbol.entity, sameType, sameParams]

theorem views_completed {name : String} {result : Ty} {types : List Ty} {isDefined : Bool}
    (known : c.scopes.findGlobal name = some (.function result types isDefined))
    (names : List (Option String)) :
    (c.env.updateGlobal name (completed names)).stack.views Symbol.entity =
      c.scopes.setGlobal name (.function result types true) := by
  rw [State.scopes, Scopes.findGlobal_views, ScopeStack.lookupGlobal, ScopeStack.global?] at known
  rw [Env.updateGlobal, ScopeStack.updateGlobal]
  cases changed : ScopeStack.onLast (fun s => some (s.update name (completed names)))
      c.env.stack.scopes with
  | some scopes =>
      refine Scopes.views_onLast _ ?_ changed
      rintro s s' last ⟨⟩
      rw [last, Option.bind_some, Option.map_eq_some_iff] at known
      obtain ⟨symbol, found, seen⟩ := known
      rw [Scope.view_update_found Symbol.entity found, entity_completed seen]
  | none =>
      rcases ScopeStack.onLast_eq_none _ changed with empty | ⟨s, _, taken⟩
      · rw [empty] at known
        contradiction
      · contradiction

/-- A function that may be entered is entered. -/
theorem follows_declareFunction {h : Heading} {result : Ty} {types : List Ty} {defining : Bool}
    {Γ' : Scopes} (enters : Enters h defining result types c.scopes Γ') :
    c.Follows (declareFunction h result types defining c).2 Γ' false := by
  rw [declareFunction_eq]
  cases enters with
  | new absent =>
      have unknown : c.env.stack.lookupGlobal h.name.val = none := by
        rw [State.scopes, Scopes.findGlobal_views] at absent
        exact Option.map_eq_none_iff.mp absent
      rw [unknown, standing_none]
      have declared := views_declareGlobal (headingSymbol h result types defining) unknown
      exact declared ▸ follows_env c _
  | known found once =>
      have seen := found
      rw [State.scopes, Scopes.findGlobal_views, Option.map_eq_some_iff] at seen
      obtain ⟨symbol, known, isFunction⟩ := seen
      rw [known, standing_eq_fits.mpr ⟨_, isFunction, once⟩]
      cases defining with
      | false =>
          rw [Bool.or_false, Scopes.setGlobal_self _ found]
          exact .refl c
      | true =>
          rw [Bool.or_true, ← views_completed found (paramNames h)]
          exact follows_env c _

/-- A function that is entered without an error may be entered. -/
theorem enters_of_clean {h : Heading} {result : Ty} {types : List Ty} {defining : Bool}
    (clean : (declareFunction h result types defining c).2.Clean) :
    ∃ Γ', Enters h defining result types c.scopes Γ' := by
  rw [declareFunction_eq] at clean
  cases known : c.env.stack.lookupGlobal h.name.val with
  | none =>
      refine ⟨_, .new ?_⟩
      rw [State.scopes, Scopes.findGlobal_views, known]
      rfl
  | some symbol =>
      rw [known] at clean
      cases stands : standing h.name.val result types defining (some symbol) with
      | fresh => exact absurd (standing_fresh stands) (Option.some_ne_none symbol)
      | conflict finding =>
          rw [stands] at clean
          exact absurd clean (not_clean_complain _ _ c)
      | fits =>
          obtain ⟨isDefined, seen, once⟩ := standing_eq_fits.mp stands
          refine ⟨_, .known ?_ once⟩
          rw [State.scopes, Scopes.findGlobal_views, known, Option.map_some, seen]

theorem checkHeading_known {h : Heading} {result : Ty} {types : List Ty}
    (parsed : Ty.parse? h.result.val = some result) (takes : h.Takes types) (defining : Bool)
    (c : State) : checkHeading h defining c = ((some result, types.map some),
      (declareFunction h result types defining (visit h.tokens c).2).2) := by
  rw [checkHeading_eq, resolveType_eq, parsed]
  dsimp only
  rw [paramTypes_known takes]
  dsimp only
  rw [enterFunction_known]

/-- A legal heading is checked without an error, and its function is entered. -/
theorem follows_checkHeading {h : Heading} {defining : Bool} {result : Ty} {types : List Ty}
    {Γ' : Scopes} (scopes : c.scopes = Γ) (legal : h.Legal defining result types Γ Γ') :
    (checkHeading h defining c).1 = (some result, types.map some) ∧
      c.Follows (checkHeading h defining c).2 Γ' false := by
  subst scopes
  obtain ⟨parsed, takes, enters⟩ := legal
  rw [checkHeading_known parsed takes]
  have entered := follows_declareFunction (c := (visit h.tokens c).2) enters
  exact ⟨rfl, (follows_visit h.tokens c).trans entered⟩

/-- A heading that is checked without an error is legal. -/
theorem heading_of_clean {h : Heading} {defining : Bool} (scopes : c.scopes = Γ)
    (clean : (checkHeading h defining c).2.Clean) :
    ∃ result types Γ', h.Legal defining result types Γ Γ' := by
  subst scopes
  obtain ⟨result, types, _, parsed, takes, -⟩ := checkHeading_accepted clean
  rw [checkHeading_known parsed takes] at clean
  obtain ⟨Γ', enters⟩ := enters_of_clean clean
  exact ⟨result, types, Γ', parsed, takes, enters⟩

/-! ### Parameters -/

theorem namedParams_anonymous {p : Param} (anonymous : p.name = none) (params : List Param) (t : Ty)
    (types : List Ty) : namedParams (p :: params) (t :: types) = namedParams params types := by
  simp [namedParams, anonymous]

theorem namedParams_named {p : Param} {name : Located String} (named : p.name = some name)
    (params : List Param) (t : Ty) (types : List Ty) :
    namedParams (p :: params) (t :: types) = (name.val, t) :: namedParams params types := by
  simp [namedParams, named]

/-- The names can be declared one after the other in the scope. -/
def New {β : Type} (l : View β) (names : List String) : Prop :=
  (∀ name ∈ names, l name = none) ∧ names.Nodup

theorem new_cons {β : Type} {l : View β} {name : String} {names : List String} (b : β) :
    New l (name :: names) ↔ l name = none ∧ New (l.add name b) names := by
  have others : (∀ other ∈ names, l.add name b other = none) ↔
      name ∉ names ∧ ∀ other ∈ names, l other = none := by
    constructor
    · intro absent
      refine ⟨fun mem => by simpa [View.add] using absent name mem, fun other mem => ?_⟩
      have notTaken := absent other mem
      by_cases same : other = name
      · simp [View.add, same] at notTaken
      · simpa [View.add, same] using notTaken
    · rintro ⟨notMem, absent⟩ other mem
      have differs : other ≠ name := fun same => notMem (same ▸ mem)
      rw [View.add, if_neg differs, absent other mem]
  unfold New
  rw [others, List.forall_mem_cons, List.nodup_cons]
  tauto

/-- Parameters with names of their own enter the scope of the body one after the other. -/
theorem follows_declareParams : (params : List Param) → (types : List Ty) → {c : State} →
    {l : View Entity} → {rest : Scopes} → c.scopes = l :: rest →
    New l ((namedParams params types).map Prod.fst) →
    c.Follows (declareParams params (types.map some) c).2
      ((namedParams params types).foldl (fun l p => l.add p.1 (.variable p.2 false true)) l :: rest)
      false
  | [], types, c, l, rest, scopes, _ => by
      have unchanged := State.Follows.refl c
      rw [scopes] at unchanged
      unfold declareParams
      exact unchanged
  | _ :: _, [], c, l, rest, scopes, _ => by
      have unchanged := State.Follows.refl c
      rw [scopes] at unchanged
      unfold declareParams
      exact unchanged
  | p :: params, t :: types, c, l, rest, scopes, new => by
      rw [List.map_cons]
      cases named : p.name with
      | none =>
          rw [namedParams_anonymous named] at new ⊢
          rw [declareParams_anonymous named]
          exact follows_declareParams params types scopes new
      | some name =>
          rw [namedParams_named named] at new ⊢
          obtain ⟨absent, others⟩ := (new_cons _).mp new
          have first := follows_declareVariable scopes absent t none true true
          rw [declareParams_named named, declaredHere_eq scopes, absent]
          exact first.trans (follows_declareParams params types first.scopes others)

/-- Parameters that are declared without an error have names of their own. -/
theorem new_of_clean : (params : List Param) → (types : List Ty) → {c : State} →
    {l : View Meaning} → {rest : List (View Meaning)} → c.layers = l :: rest →
    (declareParams params (types.map some) c).2.Clean →
    New l ((namedParams params types).map Prod.fst)
  | [], _, _, _, _, _, _ => by simp [namedParams, New]
  | _ :: _, [], _, _, _, _, _ => by simp [namedParams, New]
  | p :: params, t :: types, c, l, rest, layers, clean => by
      rw [List.map_cons] at clean
      cases named : p.name with
      | none =>
          rw [declareParams_anonymous named] at clean
          rw [namedParams_anonymous named]
          exact new_of_clean params types layers clean
      | some name =>
          obtain ⟨absent, c', layers', -, same⟩ := declareParams_accepted named layers clean
          rw [same] at clean
          rw [namedParams_named named]
          exact (new_cons _).mpr ⟨absent, new_of_clean params types layers' clean⟩

end Check

end BraceLang
