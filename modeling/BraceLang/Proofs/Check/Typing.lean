import BraceLang.Proofs.Check.Accepted
import BraceLang.Proofs.Check.Rules

/-!
Expressions are checked as the rules say. The rules see less of a state than the checker keeps:
not the statistics, not the journal, and not which names have been read.

**Main results.** `infers_expr`: an expression with a type is found to have it, and no error is
reported. `typed_expr`: an expression that is checked without an error has a type.
`calls_function` and `callable_of_clean` say the same of calls whose arguments have types.
-/

namespace BraceLang

/-- What the rules see of a symbol. -/
def Symbol.entity (s : Symbol) : Entity :=
  match s.kind with
  | .var length _ => .variable s.type length.isSome s.initialized
  | .fn signature => .function s.type signature.params signature.defined

theorem Symbol.entity_eq_variable {s : Symbol} {t : Ty} {isArray hasValue : Bool} :
    s.entity = .variable t isArray hasValue ↔ s.isFunction = false ∧ s.type = t ∧
      s.length?.isSome = isArray ∧ s.initialized = hasValue := by
  unfold entity isFunction signature? length?
  cases s.kind <;> simp

theorem Symbol.entity_eq_function {s : Symbol} {result : Ty} {params : List Ty}
    {isDefined : Bool} : s.entity = .function result params isDefined ↔
      ∃ signature, s.signature? = some signature ∧ s.type = result ∧ signature.params = params ∧
        signature.defined = isDefined := by
  unfold entity signature?
  cases s.kind <;> simp

namespace Check

/-! ### What the rules see of a state -/

def State.scopes (c : State) : Scopes := c.env.stack.views Symbol.entity

theorem look_scopes (c : State) (name : String) :
    View.look c.scopes name = (c.env.stack.lookup name).map Symbol.entity :=
  (c.env.stack.lookup_views Symbol.entity name).symm

/-- A `return` has been seen, if there is one in what has just been checked. -/
def Context.noting (k : Context) (returns : Bool) : Context :=
  { k with returned := k.returned || returns }

theorem map_noting_false (function : Option Context) :
    function.map (·.noting false) = function := by
  cases function <;> simp [Context.noting]

/-- The second state has the scopes `Γ`. Of all else that the rules are about it has what the
first one has, apart from a `return` that has been seen. -/
structure State.Follows (c c' : State) (Γ : Scopes) (returns : Bool) : Prop where
  scopes : c'.scopes = Γ
  errors : c'.diagnostics.hasErrors = c.diagnostics.hasErrors
  poisoned : c'.poisoned = c.poisoned
  assigning : c'.assigning = c.assigning
  loops : c'.loops = c.loops
  function : c'.function = c.function.map (·.noting returns)

section Follows

variable {c c' c'' : State} {Γ Γ' : Scopes} {returns returns' : Bool}

theorem State.Follows.refl (c : State) : c.Follows c c.scopes false :=
  ⟨rfl, rfl, rfl, rfl, rfl, (map_noting_false c.function).symm⟩

theorem State.Follows.trans (first : c.Follows c' Γ returns)
    (second : c'.Follows c'' Γ' returns') : c.Follows c'' Γ' (returns || returns') where
  scopes := second.scopes
  errors := second.errors.trans first.errors
  poisoned := second.poisoned.trans first.poisoned
  assigning := second.assigning.trans first.assigning
  loops := second.loops.trans first.loops
  function := by
    rw [second.function, first.function, Option.map_map]
    simp only [Function.comp_def, Context.noting, Bool.or_assoc]

theorem State.Follows.clean (follows : c.Follows c' Γ returns) (clean : c.Clean) : c'.Clean :=
  follows.errors.trans clean

/-- The rules for expressions see these scopes, and what is assigned to. -/
structure State.Sees (c : State) (Γ : Scopes) (target : Option String) : Prop where
  scopes : c.scopes = Γ
  assigning : c.assigning = target

theorem State.Sees.follows {target : Option String} (sees : c.Sees Γ target)
    (follows : c.Follows c' Γ' returns) : c'.Sees Γ' target :=
  ⟨follows.scopes, follows.assigning.trans sees.assigning⟩

end Follows

theorem follows_visit (tokens : Nat) (c : State) : c.Follows (visit tokens c).2 c.scopes false :=
  ⟨rfl, rfl, rfl, rfl, rfl, (map_noting_false c.function).symm⟩

/-- The rules do not see which names have been read. -/
theorem follows_markUsed (name : String) (c : State) :
    c.Follows (update name ({ · with used := true }) c).2 c.scopes false where
  scopes := c.env.stack.views_update Symbol.entity name fun _ => rfl
  errors := rfl
  poisoned := rfl
  assigning := rfl
  loops := rfl
  function := (map_noting_false c.function).symm

variable {c : State} {Γ : Scopes} {target : Option String}

theorem State.Sees.refl (sees : c.Sees Γ target) : c.Follows c Γ false := sees.scopes ▸ .refl c

theorem State.Sees.visit (sees : c.Sees Γ target) (tokens : Nat) :
    c.Follows (visit tokens c).2 Γ false := sees.scopes ▸ follows_visit tokens c

theorem fault_of_clean {fault : Option (Finding × Position)}
    (clean : (complainOf fault c).2.Clean) : fault = none := by
  cases fault with
  | none => rfl
  | some fault => exact absurd clean (not_clean_complain _ _ c)

/-! ### Variables -/

theorem readVariable_found {name : String} {symbol : Symbol}
    (found : c.env.stack.lookup name = some symbol) (isVariable : symbol.isFunction = false)
    (pos : Position) (isElement : Bool) :
    readVariable name pos isElement c = (some symbol.type,
      (complainOf ((readFault? symbol isElement (c.assigning == some name)).map (·, pos))
        (update name ({ · with used := true }) c).2).2) := by
  rw [readVariable, lookup_bind, found]
  simp only [isVariable, Bool.false_eq_true, if_false]
  rfl

theorem readFault?_eq_none {symbol : Symbol} {isElement exempt : Bool} :
    readFault? symbol isElement exempt = none ↔
      (isElement = true → symbol.length?.isSome = true) ∧
        (symbol.initialized = true ∨ exempt = true) := by
  unfold readFault?
  cases isElement <;> cases symbol.length? <;> cases symbol.initialized <;> cases exempt <;> simp

theorem reads_variable {name : String} {isElement : Bool} {t : Ty} (sees : c.Sees Γ target)
    (reads : Γ.Reads target name isElement t) (pos : Position) :
    (readVariable name pos isElement c).1 = some t ∧
      c.Follows (readVariable name pos isElement c).2 Γ false := by
  obtain ⟨rfl, rfl⟩ := sees
  obtain ⟨isArray, hasValue, look, array, valued⟩ := reads
  rw [look_scopes, Option.map_eq_some_iff] at look
  obtain ⟨symbol, found, seen⟩ := look
  obtain ⟨isVariable, rfl, rfl, rfl⟩ := Symbol.entity_eq_variable.mp seen
  have noFault : readFault? symbol isElement (c.assigning == some name) = none :=
    readFault?_eq_none.mpr ⟨array, by simpa using valued⟩
  rw [readVariable_found found isVariable, noFault]
  exact ⟨rfl, follows_markUsed name c⟩

theorem readable_of_clean {name : String} {pos : Position} {isElement : Bool}
    (sees : c.Sees Γ target) (unpoisoned : c.poisoned = [])
    (clean : (readVariable name pos isElement c).2.Clean) :
    ∃ t, Γ.Reads target name isElement t := by
  obtain ⟨rfl, rfl⟩ := sees
  obtain ⟨symbol, found, isVariable, -⟩ := readVariable_accepted unpoisoned clean
  rw [readVariable_found found isVariable] at clean
  have noFault := Option.map_eq_none_iff.mp (fault_of_clean clean)
  obtain ⟨array, valued⟩ := readFault?_eq_none.mp noFault
  refine ⟨symbol.type, symbol.length?.isSome, symbol.initialized, ?_, array, by simpa using valued⟩
  rw [look_scopes, found, Option.map_some]
  exact congrArg some (Symbol.entity_eq_variable.mpr ⟨isVariable, rfl, rfl, rfl⟩)

theorem integral_of_clean {pos : Position} {t : Ty}
    (clean : (checkIndex pos (some t) c).2.Clean) : t.isIntegral = true := by
  unfold checkIndex at clean
  dsimp only at clean
  cases integral : t.isIntegral with
  | true => rfl
  | false =>
      rw [integral] at clean
      exact absurd clean (not_clean_complain _ _ c)

theorem checkIndex_integral {t : Ty} (integral : t.isIntegral = true) (pos : Position)
    (c : State) : checkIndex pos (some t) c = ((), c) := by
  unfold checkIndex
  dsimp only
  rw [integral]
  rfl

/-! ### Operators -/

theorem checkUnary_numeric {t : Ty} (numeric : t ≠ .void) (op : UnOp) (pos : Position)
    (c : State) : checkUnary op pos (some t) c = (some (op.resultType t), c) := by
  have isNumeric : t.isNumeric = true := by simpa [Ty.isNumeric] using numeric
  unfold checkUnary
  dsimp only
  rw [isNumeric]
  rfl

theorem checkBinary_admitted {op : BinOp} {left right : Ty} (first : op.admits left = true)
    (second : op.admits right = true) (pos : Position) (c : State) :
    checkBinary op pos (some left) (some right) c = (op.resultType left right, c) := by
  have none' : [left, right].find? (!op.admits ·) = none := by simp [first, second]
  unfold checkBinary
  dsimp only
  rw [none']
  rfl

section Rules

variable {pos : Position} {t : Ty}

theorem resultType_int {op : UnOp} {operand : Ty} (notNegated : op = .neg → operand ≠ .double) :
    op.resultType operand = .int := by
  unfold UnOp.resultType
  split
  · exact absurd rfl (notNegated rfl)
  · rfl

theorem hasType_unary_iff {op : UnOp} {operand : Expr} :
    HasType Γ target (.unary pos op operand) t ↔
      ∃ a, HasType Γ target operand a ∧ a ≠ .void ∧ op.resultType a = t := by
  constructor
  · rintro (_ | _ | _ | typed | ⟨typed, numeric, notNegated⟩)
    · exact ⟨.double, typed, by decide, rfl⟩
    · exact ⟨_, typed, numeric, resultType_int notNegated⟩
  · rintro ⟨a, typed, numeric, rfl⟩
    by_cases negated : op = .neg ∧ a = .double
    · obtain ⟨rfl, rfl⟩ := negated
      exact .negate typed
    · have notNegated : op = .neg → a ≠ .double := fun isNeg isDouble => negated ⟨isNeg, isDouble⟩
      rw [resultType_int notNegated]
      exact .unary typed numeric notNegated

theorem admits_iff {op : BinOp} {operand : Ty} :
    op.admits operand = true ↔ operand ≠ .void ∧ (op = .mod → operand ≠ .double) := by
  simp [BinOp.admits, Ty.isNumeric, imp_iff_not_or]

theorem ne_mod_of_compares {op : BinOp} (compares : (op.isRelational || op.isLogical) = true) :
    op ≠ .mod := by
  rintro rfl
  contradiction

theorem promote_isSome_iff {a b : Ty} : (a.promote b).isSome = true ↔ a ≠ .void ∧ b ≠ .void := by
  cases a <;> cases b <;> decide

theorem hasType_binary_iff {op : BinOp} {left right : Expr} :
    HasType Γ target (.binary pos op left right) t ↔
      ∃ a b, HasType Γ target left a ∧ HasType Γ target right b ∧ op.admits a = true ∧
        op.admits b = true ∧ op.resultType a b = some t := by
  constructor
  · rintro (_ | _ | _ | _ | _ | ⟨first, second, numeric, numeric', compares⟩ |
      ⟨first, second, promoted, noDouble, arithmetic⟩)
    · have notMod := ne_mod_of_compares compares
      refine ⟨_, _, first, second, ?_, ?_, ?_⟩
      · exact admits_iff.mpr ⟨numeric, fun isMod => absurd isMod notMod⟩
      · exact admits_iff.mpr ⟨numeric', fun isMod => absurd isMod notMod⟩
      · rw [BinOp.resultType, if_pos compares]
    · obtain ⟨numeric, numeric'⟩ := promote_isSome_iff.mp (Option.isSome_of_eq_some promoted)
      refine ⟨_, _, first, second, ?_, ?_, ?_⟩
      · exact admits_iff.mpr ⟨numeric, fun isMod => (noDouble isMod).1⟩
      · exact admits_iff.mpr ⟨numeric', fun isMod => (noDouble isMod).2⟩
      · rw [BinOp.resultType, arithmetic]
        exact promoted
  · rintro ⟨a, b, first, second, admitted, admitted', result⟩
    obtain ⟨numeric, noDouble⟩ := admits_iff.mp admitted
    obtain ⟨numeric', noDouble'⟩ := admits_iff.mp admitted'
    unfold BinOp.resultType at result
    split at result
    · rename_i compares
      obtain rfl := Option.some.inj result
      exact .compare first second numeric numeric' compares
    · rename_i arithmetic
      exact .arithmetic first second result (fun isMod => ⟨noDouble isMod, noDouble' isMod⟩)
        (Bool.eq_false_iff.mpr arithmetic)

/-- Operands that an operator admits have a result. -/
theorem exists_resultType {op : BinOp} {a b : Ty} (admitted : op.admits a = true)
    (admitted' : op.admits b = true) : ∃ t, op.resultType a b = some t := by
  unfold BinOp.resultType
  split
  · exact ⟨.int, rfl⟩
  · exact Option.isSome_iff_exists.mp
      (promote_isSome_iff.mpr ⟨(admits_iff.mp admitted).1, (admits_iff.mp admitted').1⟩)

end Rules

/-! ### Calls -/

theorem argumentFaults_eq_nil {args : List (Position × Option Ty)} {types params : List Ty}
    (known : args.map Prod.snd = types.map some) (sameLength : args.length = params.length)
    (name : String) (n : Nat) : argumentFaults name n args params = [] ↔
      List.Forall₂ (fun param arg => param.accepts arg = true) params types := by
  induction args generalizing types params n with
  | nil =>
      obtain rfl : types = [] := by simpa using known.symm
      obtain rfl : params = [] := by simpa using sameLength.symm
      simp [argumentFaults]
  | cons arg args ih =>
      obtain ⟨pos, found⟩ := arg
      obtain ⟨t, types, rfl⟩ : ∃ t rest, types = t :: rest := by
        cases types with
        | nil => simp at known
        | cons t rest => exact ⟨t, rest, rfl⟩
      obtain ⟨p, params, rfl⟩ : ∃ p rest, params = p :: rest := by
        cases params with
        | nil => simp at sameLength
        | cons p rest => exact ⟨p, rest, rfl⟩
      obtain ⟨rfl, others⟩ : found = some t ∧ args.map Prod.snd = types.map some := by
        simpa using known
      have rest := ih others (by simpa using sameLength) (n + 1)
      rw [List.forall₂_cons, ← rest, argumentFaults]
      cases p.accepts t <;> simp

theorem callFaults_eq_nil {args : List (Position × Option Ty)} {types : List Ty}
    (known : args.map Prod.snd = types.map some) (callee : Located String) (params : List Ty) :
    callFaults callee args params = [] ↔
      List.Forall₂ (fun param arg => param.accepts arg = true) params types := by
  unfold callFaults
  by_cases sameLength : args.length = params.length
  · rw [if_pos sameLength, argumentFaults_eq_nil known sameLength]
  · rw [if_neg sameLength]
    have types' : args.length = types.length := by simpa using congrArg List.length known
    constructor
    · simp
    · intro accepted
      exact absurd (types'.trans accepted.length_eq.symm) sameLength

/-- What is left of a call whose arguments fit. -/
def checkUse (callee : Located String) (symbol : Symbol) (isValue : Bool) : Check (Option Ty) :=
  if isValue && symbol.type == .void then do
    complain (.voidValueUsed callee.val) callee.pos
    return none
  else return some symbol.type

theorem calm_checkUse (callee : Located String) (symbol : Symbol) (isValue : Bool) :
    Calm (checkUse callee symbol isValue) := by
  unfold checkUse
  split
  · exact (calm_complain _ _).bind fun _ => .pure _
  · exact .pure _

theorem checkCall_found {callee : Located String} {symbol : Symbol} {signature : Signature}
    (found : c.env.stack.lookup callee.val = some symbol)
    (known : symbol.signature? = some signature) (args : List (Position × Option Ty))
    (isValue : Bool) : checkCall callee args isValue c =
      checkUse callee symbol isValue ((callFaults callee args signature.params).forM
        (fun (finding, pos) => complain finding pos)
        (update callee.val ({ · with used := true }) c).2).2 := by
  rw [checkCall, lookup_bind, found]
  dsimp only
  rw [known]
  rfl

theorem faults_of_clean {faults : List (Finding × Position)}
    (clean : (faults.forM (fun (finding, pos) => complain finding pos) c).2.Clean) :
    faults = [] := by
  cases faults with
  | nil => rfl
  | cons fault rest =>
      have others : Calm (rest.forM fun (finding, pos) => complain finding pos) :=
        .forM (fun _ => calm_complain _ _) rest
      exact absurd (clean.before (others _).log) (not_clean_complain fault.1 fault.2 c)

theorem calls_function {callee : Located String} {args : List (Position × Option Ty)}
    {types : List Ty} {result : Ty} {isValue : Bool} (sees : c.Sees Γ target)
    (calls : Γ.Calls callee.val types result) (known : args.map Prod.snd = types.map some)
    (hasValue : isValue = true → result ≠ .void) :
    (checkCall callee args isValue c).1 = some result ∧
      c.Follows (checkCall callee args isValue c).2 Γ false := by
  obtain ⟨rfl, rfl⟩ := sees
  obtain ⟨params, isDefined, look, accepted⟩ := calls
  rw [look_scopes, Option.map_eq_some_iff] at look
  obtain ⟨symbol, found, seen⟩ := look
  obtain ⟨signature, isFunction, rfl, rfl, -⟩ := Symbol.entity_eq_function.mp seen
  have used : (isValue && symbol.type == .void) = false := by
    cases isValue with
    | false => rfl
    | true => simpa using hasValue rfl
  rw [checkCall_found found isFunction, (callFaults_eq_nil known callee _).mpr accepted, checkUse,
    used]
  exact ⟨rfl, follows_markUsed callee.val c⟩

theorem callable_of_clean {callee : Located String} {args : List (Position × Option Ty)}
    {types : List Ty} {isValue : Bool} (sees : c.Sees Γ target) (unpoisoned : c.poisoned = [])
    (known : args.map Prod.snd = types.map some)
    (clean : (checkCall callee args isValue c).2.Clean) :
    ∃ result, Γ.Calls callee.val types result ∧ (isValue = true → result ≠ .void) := by
  obtain ⟨rfl, rfl⟩ := sees
  obtain ⟨symbol, signature, found, isFunction, hasValue⟩ := checkCall_accepted unpoisoned clean
  refine ⟨symbol.type, ⟨signature.params, signature.defined, ?_, ?_⟩,
    fun used => (hasValue used).1⟩
  · rw [look_scopes, found, Option.map_some]
    exact congrArg some (Symbol.entity_eq_function.mpr ⟨signature, isFunction, rfl, rfl, rfl⟩)
  · rw [← callFaults_eq_nil known callee]
    rw [checkCall_found found isFunction] at clean
    exact faults_of_clean (clean.before (calm_checkUse callee symbol isValue _).log)

/-! ### All expressions -/

mutual

/-- An expression with a type is found to have it, and nothing is reported. -/
theorem infers_expr : (e : Expr) → {c : State} → {t : Ty} → c.Sees Γ target →
    HasType Γ target e t → (inferExpr e c).1 = some t ∧ c.Follows (inferExpr e c).2 Γ false
  | .literal _ value, c, _, sees, .literal => by
      rw [inferExpr_literal]
      exact ⟨rfl, sees.visit 1⟩
  | .var pos name, c, t, sees, .var reads => by
      rw [inferExpr_var]
      have visited := sees.visit 1
      obtain ⟨found, read⟩ := reads_variable (sees.follows visited) reads pos
      exact ⟨found, visited.trans read⟩
  | .element pos array index, c, t, sees, .element indexed integral reads => by
      rw [inferExpr_element]
      have visited := sees.visit 3
      obtain ⟨found, checked⟩ := infers_expr index (sees.follows visited) indexed
      have before := visited.trans checked
      dsimp only
      rw [found, checkIndex_integral integral]
      obtain ⟨found', read⟩ := reads_variable (sees.follows before) reads pos
      exact ⟨found', before.trans read⟩
  | .unary pos op operand, c, t, sees, typed => by
      rw [inferExpr_unary]
      have visited := sees.visit 1
      obtain ⟨a, typed', numeric, rfl⟩ := hasType_unary_iff.mp typed
      obtain ⟨found, checked⟩ := infers_expr operand (sees.follows visited) typed'
      dsimp only
      rw [found, checkUnary_numeric numeric]
      exact ⟨rfl, visited.trans checked⟩
  | .binary pos op left right, c, t, sees, typed => by
      rw [inferExpr_binary]
      have visited := sees.visit 1
      obtain ⟨a, b, first, second, admitted, admitted', result⟩ := hasType_binary_iff.mp typed
      obtain ⟨found, checked⟩ := infers_expr left (sees.follows visited) first
      have before := visited.trans checked
      obtain ⟨found', checked'⟩ := infers_expr right (sees.follows before) second
      dsimp only
      rw [found, found', checkBinary_admitted admitted admitted']
      exact ⟨result, before.trans checked'⟩
  | .call pos callee args, c, t, sees, .call typed calls notVoid => by
      rw [inferExpr_call]
      have visited := sees.visit (callTokens args)
      obtain ⟨known, checked⟩ := infers_args args (sees.follows visited) typed
      have before := visited.trans checked
      obtain ⟨found, called⟩ := calls_function (sees.follows before) calls known fun _ => notVoid
      exact ⟨found, before.trans called⟩

theorem infers_args : (args : List Expr) → {c : State} → {types : List Ty} → c.Sees Γ target →
    HaveTypes Γ target args types →
    (inferArgs args c).1.map Prod.snd = types.map some ∧ c.Follows (inferArgs args c).2 Γ false
  | [], c, _, sees, .nil => by
      rw [inferArgs]
      exact ⟨rfl, sees.refl⟩
  | e :: rest, c, _, sees, .cons typed others => by
      rw [inferArgs_cons]
      obtain ⟨found, checked⟩ := infers_expr e sees typed
      obtain ⟨known, checked'⟩ := infers_args rest (sees.follows checked) others
      dsimp only
      rw [found, List.map_cons, known]
      exact ⟨rfl, checked.trans checked'⟩

end

-- An operand that logs no error has a type by the induction; `infers_expr` then says what is found
-- for it, and that the next operand is checked in a state that the rules cannot tell from the
-- first.
mutual

/-- An expression that is checked without an error has a type. -/
theorem typed_expr : (e : Expr) → {c : State} → c.Sees Γ target → c.poisoned = [] →
    (inferExpr e c).2.Clean → ∃ t, HasType Γ target e t
  | .literal _ value, c, _, _, _ => ⟨value.type, .literal⟩
  | .var pos name, c, sees, unpoisoned, clean => by
      rw [inferExpr_var] at clean
      obtain ⟨t, reads⟩ := readable_of_clean (sees.follows (sees.visit 1)) unpoisoned clean
      exact ⟨t, .var reads⟩
  | .element pos array index, c, sees, unpoisoned, clean => by
      rw [inferExpr_element] at clean
      have visited := sees.follows (sees.visit 3)
      have cleanIndex := clean.before (calm_readVariable array pos true _).log
      obtain ⟨i, indexed⟩ := typed_expr index visited unpoisoned
        (cleanIndex.before (calm_checkIndex index.pos _ _).log)
      obtain ⟨found, checked⟩ := infers_expr index visited indexed
      rw [found] at cleanIndex
      have integral := integral_of_clean cleanIndex
      dsimp only at clean
      rw [found, checkIndex_integral integral] at clean
      obtain ⟨t, reads⟩ := readable_of_clean (visited.follows checked)
        (checked.poisoned.trans unpoisoned) clean
      exact ⟨t, .element indexed integral reads⟩
  | .unary pos op operand, c, sees, unpoisoned, clean => by
      rw [inferExpr_unary] at clean
      have visited := sees.follows (sees.visit 1)
      obtain ⟨a, typed⟩ := typed_expr operand visited unpoisoned
        (clean.before (calm_checkUnary op pos _ _).log)
      obtain ⟨found, -⟩ := infers_expr operand visited typed
      dsimp only at clean
      rw [found] at clean
      obtain ⟨numeric, -⟩ := checkUnary_accepted clean
      exact ⟨_, hasType_unary_iff.mpr ⟨a, typed, numeric, rfl⟩⟩
  | .binary pos op left right, c, sees, unpoisoned, clean => by
      rw [inferExpr_binary] at clean
      have visited := sees.follows (sees.visit 1)
      have cleanRight := clean.before (calm_checkBinary op pos _ _ _).log
      obtain ⟨a, first⟩ := typed_expr left visited unpoisoned
        (cleanRight.before (calm_inferExpr right _).log)
      obtain ⟨found, checked⟩ := infers_expr left visited first
      have middle := visited.follows checked
      obtain ⟨b, second⟩ :=
        typed_expr right middle (checked.poisoned.trans unpoisoned) cleanRight
      obtain ⟨found', -⟩ := infers_expr right middle second
      dsimp only at clean
      rw [found, found'] at clean
      obtain ⟨admitted, admitted', -⟩ := checkBinary_accepted clean
      obtain ⟨t, result⟩ := exists_resultType admitted admitted'
      exact ⟨t, hasType_binary_iff.mpr ⟨a, b, first, second, admitted, admitted', result⟩⟩
  | .call pos callee args, c, sees, unpoisoned, clean => by
      rw [inferExpr_call] at clean
      have visited := sees.follows (sees.visit (callTokens args))
      obtain ⟨types, typed⟩ := typed_args args visited unpoisoned
        (clean.before (calm_checkCall callee _ true _).log)
      obtain ⟨known, checked⟩ := infers_args args visited typed
      obtain ⟨result, calls, notVoid⟩ := callable_of_clean (visited.follows checked)
        (checked.poisoned.trans unpoisoned) known clean
      exact ⟨result, .call typed calls (notVoid rfl)⟩

theorem typed_args : (args : List Expr) → {c : State} → c.Sees Γ target → c.poisoned = [] →
    (inferArgs args c).2.Clean → ∃ types, HaveTypes Γ target args types
  | [], c, _, _, _ => ⟨[], .nil⟩
  | e :: rest, c, sees, unpoisoned, clean => by
      rw [inferArgs_cons] at clean
      obtain ⟨t, typed⟩ :=
        typed_expr e sees unpoisoned (clean.before (calm_inferArgs rest _).log)
      obtain ⟨-, checked⟩ := infers_expr e sees typed
      obtain ⟨types, others⟩ := typed_args rest (sees.follows checked)
        (checked.poisoned.trans unpoisoned) clean
      exact ⟨t :: types, .cons typed others⟩

end

end Check

end BraceLang
