import BraceLang.Proofs.Alignment
import BraceLang.Proofs.Visits

/-!
Checking and making code come to the same answers. From aligned scopes on, and as long as no error
is found, both sides agree at every place that they visit: an expression is computed in
floating-point registers if and only if its type is `double`, a variable has a slot of its declared
type, and a call follows the types of the function that is called.

**Main results.** `type_agrees` for the types of expressions. `visits_expr` and `visits_moves`: both
sides agree all over an expression, and all over statements without headings in them.
-/

namespace BraceLang

open Assembly (Interface Done EmitStmt)

open Check (inferExpr inferArgs checkStmt)

/-- Both sides come to the same answer. -/
def Visit.Agrees (iface : Interface) (v : Visit) : Prop :=
  match v.point with
  | .value e => ∃ t, (inferExpr e v.checking).1 = some t ∧
      ((Assembly.expr iface e v.making).1.2 = .float ↔ t = .double)
  | .storage name => ∃ symbol slot, v.checking.env.stack.lookup name = some symbol ∧
      symbol.isFunction = false ∧ v.making.env.stack.lookup name = some slot ∧
      slot.type = symbol.type
  | .call name => ∃ symbol signature, v.checking.env.stack.lookup name = some symbol ∧
      symbol.signature? = some signature ∧
      iface.conventions.get? name = some ⟨symbol.type, signature.params⟩

/-- Both sides agree at all of some visits. -/
def AllAgree (iface : Interface) (visits : List Visit) : Prop := ∀ v ∈ visits, v.Agrees iface

namespace AllAgree

variable {iface : Interface} {v : Visit} {first second : List Visit}

theorem nil : AllAgree iface [] := List.forall_mem_nil _

theorem cons (here : v.Agrees iface) (rest : AllAgree iface first) : AllAgree iface (v :: first) :=
  List.forall_mem_cons.mpr ⟨here, rest⟩

theorem single (here : v.Agrees iface) : AllAgree iface [v] := cons here nil

theorem append (left : AllAgree iface first) (right : AllAgree iface second) :
    AllAgree iface (first ++ second) := List.forall_mem_append.mpr ⟨left, right⟩

theorem onDone {α : Type} {action : EmitStmt α} {s : Assembly.State}
    {next : Assembly.State → List Visit}
    (later : ∀ a s', Done action s a s' → AllAgree iface (next s')) :
    AllAgree iface (Assembly.onDone action s next) := by
  intro v mem
  obtain ⟨a, s', done, mem⟩ := Assembly.mem_onDone mem
  exact later a s' done v mem

end AllAgree

section Visits

variable {iface : Interface} {around : Surroundings} {n n' : Nat} {c c' : Check.State}
  {s s' : Assembly.State}

/-! ### Expressions -/

theorem resultType_agrees {op : BinOp} {left right : Ty} {a b : Domain}
    (admitted : op.admits left = true) (admitted' : op.admits right = true)
    (agrees : a = .float ↔ left = .double) (agrees' : b = .float ↔ right = .double) :
    ∃ t, op.resultType left right = some t ∧
      (Assembly.binaryDomain op a b = .float ↔ t = .double) := by
  obtain rfl : a = left.domain := by cases a <;> cases left <;> simp_all [Ty.domain]
  obtain rfl : b = right.domain := by cases b <;> cases right <;> simp_all [Ty.domain]
  revert admitted admitted'
  cases op <;> cases left <;> cases right <;> decide

/-- A variable that is read has a slot of its type. -/
theorem readVariable_agrees {name : String} {pos : Position} {isElement : Bool}
    (aligned : Aligned iface around n c s)
    (clean : (Check.readVariable name pos isElement c).2.Clean) :
    ∃ symbol slot, c.env.stack.lookup name = some symbol ∧ symbol.isFunction = false ∧
      s.env.stack.lookup name = some slot ∧ slot.type = symbol.type ∧
      (Check.readVariable name pos isElement c).1 = some symbol.type := by
  obtain ⟨symbol, found, noFunction, type⟩ := Check.readVariable_accepted aligned.poisoned clean
  obtain ⟨slot, kept, same⟩ := aligned.slot_of found noFunction
  exact ⟨symbol, slot, found, noFunction, kept, same, type⟩

/-- The type that is inferred for an expression tells where it is computed. -/
theorem type_agrees : (e : Expr) → ∀ {c}, Aligned iface around n c s → (inferExpr e c).2.Clean →
    ∃ t, (inferExpr e c).1 = some t ∧
      (Assembly.domainOf iface s.env.stack.lookup e = .float ↔ t = .double)
  | .literal pos value, c, aligned, clean => by
      rw [Check.inferExpr_literal]
      refine ⟨value.type, rfl, ?_⟩
      cases value with
      | number text =>
          simp only [Assembly.domainOf, Literal.type]
          cases hasPoint text <;> decide
      | char text => constructor <;> rintro ⟨⟩
      | bool value => constructor <;> rintro ⟨⟩
  | .var pos name, c, aligned, clean => by
      rw [Check.inferExpr_var] at clean ⊢
      have visited := aligned.steady (Check.calm_visit 1 c) rfl
      obtain ⟨symbol, slot, _, _, kept, same, type⟩ := readVariable_agrees visited clean
      refine ⟨symbol.type, type, ?_⟩
      rw [Assembly.domainOf, kept, ← same]
      exact Ty.domain_eq_float_iff
  | .element pos array index, c, aligned, clean => by
      rw [Check.inferExpr_element] at clean ⊢
      have visited := aligned.steady (Check.calm_visit 3 c) rfl
      have found := visited.steady (Check.calm_inferExpr index _) rfl
      have indexed := found.steady
        (Check.calm_checkIndex index.pos (inferExpr index (Check.visit 3 c).2).1 _) rfl
      obtain ⟨symbol, slot, _, _, kept, same, type⟩ := readVariable_agrees indexed clean
      refine ⟨symbol.type, type, ?_⟩
      rw [Assembly.domainOf, kept, ← same]
      exact Ty.domain_eq_float_iff
  | .unary pos op operand, c, aligned, clean => by
      rw [Check.inferExpr_unary] at clean ⊢
      dsimp only at clean ⊢
      have visited := aligned.steady (Check.calm_visit 1 c) rfl
      obtain ⟨t, type, agrees⟩ :=
        type_agrees operand visited (clean.before (Check.calm_checkUnary op pos _ _).log)
      rw [type] at clean ⊢
      obtain ⟨_, result⟩ := Check.checkUnary_accepted clean
      refine ⟨op.resultType t, result, ?_⟩
      cases op with
      | neg =>
          rw [Assembly.domainOf, agrees]
          cases t <;> decide
      | not => constructor <;> rintro ⟨⟩
  | .binary pos op left right, c, aligned, clean => by
      rw [Check.inferExpr_binary] at clean ⊢
      dsimp only at clean ⊢
      have visited := aligned.steady (Check.calm_visit 1 c) rfl
      have middle := visited.steady (Check.calm_inferExpr left _) rfl
      have cleanRight := clean.before (Check.calm_checkBinary op pos _ _ _).log
      have cleanLeft := cleanRight.before (Check.calm_inferExpr right _).log
      obtain ⟨t, type, agrees⟩ := type_agrees left visited cleanLeft
      obtain ⟨t', type', agrees'⟩ := type_agrees right middle cleanRight
      rw [type, type'] at clean ⊢
      obtain ⟨admitted, admitted', result⟩ := Check.checkBinary_accepted clean
      rw [result, Assembly.domainOf]
      exact resultType_agrees admitted admitted' agrees agrees'
  | .call pos name args, c, aligned, clean => by
      rw [Check.inferExpr_call] at clean ⊢
      have visited := aligned.steady (Check.calm_visit (Check.callTokens args) c) rfl
      have found := visited.steady (Check.calm_inferArgs args _) rfl
      obtain ⟨symbol, signature, known, isFunction, used⟩ :=
        Check.checkCall_accepted found.poisoned clean
      obtain ⟨notVoid, type⟩ := used rfl
      refine ⟨symbol.type, type, ?_⟩
      rw [Assembly.domainOf, found.convention_of known isFunction, Assembly.Convention.domain?,
        if_neg notVoid]
      exact Ty.domain_eq_float_iff

theorem value_agrees {e : Expr} (aligned : Aligned iface around n c s)
    (clean : (inferExpr e c).2.Clean) : Visit.Agrees iface ⟨.value e, c, s⟩ := by
  obtain ⟨t, type, agrees⟩ := type_agrees e aligned clean
  refine ⟨t, type, ?_⟩
  rw [Assembly.expr_domain]
  exact agrees

theorem storage_agrees {name : String} {pos : Position} {isElement : Bool}
    (aligned : Aligned iface around n c s)
    (clean : (Check.readVariable name pos isElement c).2.Clean) :
    Visit.Agrees iface ⟨.storage name, c, s⟩ := by
  obtain ⟨symbol, slot, found, noFunction, kept, same, _⟩ := readVariable_agrees aligned clean
  exact ⟨symbol, slot, found, noFunction, kept, same⟩

theorem call_agrees {callee : Located String} {args : List (Position × Option Ty)}
    {isValue : Bool} (aligned : Aligned iface around n c s)
    (clean : (Check.checkCall callee args isValue c).2.Clean) :
    Visit.Agrees iface ⟨.call callee.val, c, s⟩ := by
  obtain ⟨symbol, signature, known, isFunction, _⟩ :=
    Check.checkCall_accepted aligned.poisoned clean
  exact ⟨symbol, signature, known, isFunction, aligned.convention_of known isFunction⟩

mutual

theorem visits_expr : (e : Expr) → ∀ {c s}, Aligned iface around n c s → (inferExpr e c).2.Clean →
    AllAgree iface (Visit.ofExpr iface e c s)
  | .literal pos value, c, s, aligned, clean => by
      rw [Visit.ofExpr]
      exact .single (value_agrees aligned clean)
  | .var pos name, c, s, aligned, clean => by
      have value := value_agrees aligned clean
      rw [Check.inferExpr_var] at clean
      have visited := aligned.steady (Check.calm_visit 1 c) rfl
      rw [Visit.ofExpr]
      exact .cons value (.single (storage_agrees visited clean))
  | .element pos array index, c, s, aligned, clean => by
      have value := value_agrees aligned clean
      rw [Check.inferExpr_element] at clean
      have visited := aligned.steady (Check.calm_visit 3 c) rfl
      have checked := Check.calm_checkIndex index.pos (inferExpr index (Check.visit 3 c).2).1
        (inferExpr index (Check.visit 3 c).2).2
      have indexed := visited.steady ((Check.calm_inferExpr index _).trans checked)
        (Assembly.growing_expr iface index s).layers
      have cleanIndex := (clean.before (Check.calm_readVariable array pos true _).log).before
        checked.log
      rw [Visit.ofExpr]
      apply AllAgree.append
      · exact .cons value (visits_expr index visited cleanIndex)
      · exact .single (storage_agrees indexed clean)
  | .unary pos op operand, c, s, aligned, clean => by
      have value := value_agrees aligned clean
      rw [Check.inferExpr_unary] at clean
      have visited := aligned.steady (Check.calm_visit 1 c) rfl
      have cleanOperand := clean.before (Check.calm_checkUnary op pos _ _).log
      rw [Visit.ofExpr]
      exact .cons value (visits_expr operand visited cleanOperand)
  | .binary pos op left right, c, s, aligned, clean => by
      have value := value_agrees aligned clean
      rw [Check.inferExpr_binary] at clean
      have visited := aligned.steady (Check.calm_visit 1 c) rfl
      have middle := visited.steady (Check.calm_inferExpr left _)
        (Assembly.growing_expr iface left s).layers
      have cleanRight := clean.before (Check.calm_checkBinary op pos _ _ _).log
      have cleanLeft := cleanRight.before (Check.calm_inferExpr right _).log
      rw [Visit.ofExpr]
      apply AllAgree.append
      · exact .cons value (visits_expr left visited cleanLeft)
      · exact visits_expr right middle cleanRight
  | .call pos name args, c, s, aligned, clean => by
      have value := value_agrees aligned clean
      rw [Check.inferExpr_call] at clean
      have visited := aligned.steady (Check.calm_visit (Check.callTokens args) c)
        (Assembly.growing_callee iface name.val s).layers
      have found := visited.steady (Check.calm_inferArgs args _) rfl
      have cleanArgs := clean.before (Check.calm_checkCall name _ true _).log
      rw [Visit.ofExpr]
      apply AllAgree.append
      · exact .cons value (visits_args args visited cleanArgs)
      · exact .single (call_agrees found clean)

theorem visits_args : (args : List Expr) → ∀ {params c s}, Aligned iface around n c s →
    (inferArgs args c).2.Clean → AllAgree iface (Visit.ofArgs iface params args c s)
  | [], params, c, s, aligned, clean => by
      rw [Visit.ofArgs]
      exact .nil
  | arg :: args, params, c, s, aligned, clean => by
      rw [Check.inferArgs_cons] at clean
      -- Checking has come to the first argument, making code has been through the others.
      have first := aligned.steady (Check.State.Steady.refl c)
        (Assembly.growing_exprArgs iface params.tail args s).layers
      have others := aligned.steady (Check.calm_inferExpr arg c) rfl
      have cleanFirst := clean.before (Check.calm_inferArgs args _).log
      rw [Visit.ofArgs]
      exact .append (visits_expr arg first cleanFirst) (visits_args args others clean)

end

/-! ### Statements -/

theorem target_agrees {target : Located String} {isElement : Bool} {valuePos : Position}
    {found : Option Ty} (aligned : Aligned iface around n c s)
    (clean : (Check.checkTarget target isElement valuePos found c).2.Clean) :
    Visit.Agrees iface ⟨.storage target.val, c, s⟩ := by
  obtain ⟨symbol, known, noFunction⟩ := Check.checkTarget_accepted aligned.poisoned clean
  obtain ⟨slot, kept, same⟩ := aligned.slot_of known noFunction
  exact ⟨symbol, slot, known, noFunction, kept, same⟩

theorem visits_assign {target : Located String} {index : Option Expr} {value : Expr}
    (aligned : Aligned iface around n c s)
    (clean : (Check.checkAssign target index value c).2.Clean) :
    AllAgree iface (Visit.ofAssign iface target index value c s) := by
  have visited := aligned.steady (Check.steady_visitAssign target index c) rfl
  -- The target is compared with the state that code for the whole assignment starts from.
  have stored {c₁ : Check.State} {isElement : Bool} (before : Aligned iface around n c₁ s)
      (clean : (Check.checkTarget target isElement value.pos (inferExpr value c₁).1
        { (inferExpr value c₁).2 with assigning := none }).2.Clean) :
      Visit.Agrees iface
        ⟨.storage target.val, { (inferExpr value c₁).2 with assigning := none }, s⟩ :=
    target_agrees (before.steady ((Check.calm_inferExpr value c₁).trans
      (Check.calm_setAssigning none _)) rfl) clean
  cases index with
  | none =>
      rw [Check.checkAssign_none] at clean
      have cleanValue := clean.before (Check.calm_checkTarget target false value.pos _ _).log
      exact .append (visits_expr value visited cleanValue) (.single (stored visited clean))
  | some index =>
      rw [Check.checkAssign_some] at clean
      have cleanValue := clean.before (Check.calm_checkTarget target true value.pos _ _).log
      have checked := Check.calm_checkIndex index.pos
        (inferExpr index (Check.visitAssign target (some index) c)).1
        (inferExpr index (Check.visitAssign target (some index) c)).2
      have cleanIndex := (cleanValue.before (Check.calm_inferExpr value _).log).before checked.log
      have indexed := (Check.calm_inferExpr index _).trans checked
      have made := visited.steady indexed (Assembly.growing_expr iface index s).layers
      refine .append (.append ?_ ?_) (.single (stored (visited.steady indexed rfl) clean))
      · exact visits_expr index visited cleanIndex
      · exact visits_expr value made cleanValue

theorem visits_call {site : Site} {callee : Located String} {args : List Expr}
    (aligned : Aligned iface around n c s)
    (clean : (checkStmt (.call site callee args) c).2.Clean) :
    AllAgree iface (Visit.ofCall iface callee args c s) := by
  rw [Check.checkStmt_call] at clean
  have visited := aligned.steady
    ((Check.calm_visit 0 c).trans (Check.calm_visit (Check.callTokens args) _))
    (Assembly.growing_callee iface callee.val s).layers
  have found := visited.steady (Check.calm_inferArgs args _) rfl
  have cleanArgs := clean.before (Check.calm_checkCall callee _ false _).log
  exact .append (visits_args args visited cleanArgs) (.single (call_agrees found clean))

/-- Both sides agree all over what a move has, if it is checked without an error. -/
theorem visits_move {m : Move} {v v' : Check.Walk} (checked : Check.pass m v = some v')
    (aligned : Aligned iface around n v.state s) (clean : v'.state.Clean) :
    AllAgree iface (Visit.ofMove iface m v.state s) := by
  cases m with
  | single x =>
      obtain ⟨x, single⟩ := x
      cases checked
      cases x with
      | declare site d =>
          have declared : (Check.checkDeclaration d v.state).2.Clean := clean
          rw [Check.checkDeclaration_eq] at declared
          have cleanInit := declared.before (Check.after_declareFound d _ _).log
          have visited : v.state.Steady (Check.visitDeclaration d v.state).2 :=
            Check.calm_visit _ _
          rw [Visit.ofMove]
          unfold Check.initType at cleanInit
          cases init : d.init with
          | none => exact .nil
          | some e =>
              rw [init] at cleanInit
              exact visits_expr e (aligned.steady visited rfl) cleanInit
      | assign site target index value => exact visits_assign aligned clean
      | call site callee args =>
          have called : (checkStmt (.call site callee args) v.state).2.Clean := clean
          exact visits_call aligned called
      | returnValue site value =>
          have returned : (checkStmt (.returnValue site value) v.state).2.Clean := clean
          rw [checkStmt] at returned
          rw [Visit.ofMove]
          cases value with
          | none => exact .nil
          | some e =>
              exact visits_expr e (aligned.steady (Check.calm_visit 1 v.state) rfl)
                (returned.before (Check.calm_checkResult site.pos _ _).log)
      | prototype | breakLoop | continueLoop => exact .nil
      | _ => contradiction
  | branch cond hasElse =>
      cases checked
      exact visits_expr cond
        (aligned.steady (Check.calm_visit _ _) (Assembly.growing_freshTarget s).layers) clean
  | whileTest loop cond =>
      cases checked
      have taken := (Assembly.growing_freshTarget s).trans (Assembly.growing_freshTarget _)
      exact visits_expr cond (aligned.steady
        ((Check.calm_visit 3 v.state).trans (Check.calm_enterLoop _)) taken.layers) clean
  | forTest loop cond =>
      cases checked
      have taken := ((Assembly.growing_freshTarget s).trans (Assembly.growing_freshTarget _)).trans
        (Assembly.growing_freshTarget _)
      exact visits_expr cond (aligned.steady (Check.calm_enterLoop v.state) taken.layers) clean
  | _ => exact .nil

/-! ### Runs -/

/-- Moves without headings keep the scopes aligned, as long as no error is found. -/
theorem Aligned.step_clean {m : Move} {u u' : Check.Walk × Assembly.Walk}
    (free : m.isHeadingFree = true) (counted : Pass.depth m n = some n')
    (step : Visit.pass iface m u = some u')
    (aligned : u.1.state.Clean → Aligned iface around n u.1.state u.2.state)
    (clean : u'.1.state.Clean) : Aligned iface around n' u'.1.state u'.2.state := by
  obtain ⟨checked, made⟩ := Pass.both_eq_some.mp step
  exact (aligned (clean.before (Check.log_step checked))).step free counted checked made clean

theorem Aligned.run {ms : List Move} {u u' : Check.Walk × Assembly.Walk}
    (aligned : Aligned iface around n u.1.state u.2.state)
    (free : ∀ m ∈ ms, m.isHeadingFree = true) (counts : Pass.depth.run ms n = some n')
    (ran : (Visit.pass iface).run ms u = some u') (clean : u'.1.state.Clean) :
    Aligned iface around n' u'.1.state u'.2.state :=
  Pass.run_keeps_deep
    (P := fun n u => u.1.state.Clean → Aligned iface around n u.1.state u.2.state)
    (fun m mem _ _ _ _ counted step => Aligned.step_clean (free m mem) counted step)
    (fun _ => aligned) counts ran clean

/-- Both sides agree all over moves without headings, up to where making code stops. -/
theorem visits_moves {ms : List Move} {v : Check.Walk} {u : Check.Walk × Assembly.Walk}
    (aligned : Aligned iface around n u.1.state u.2.state)
    (free : ∀ m ∈ ms, m.isHeadingFree = true) (counts : Pass.depth.run ms n = some n')
    (checked : Check.pass.run ms u.1 = some v) (clean : v.state.Clean) :
    AllAgree iface (Visit.ofMoves iface ms u) := by
  intro visit mem
  obtain ⟨t, here, at_t⟩ := List.mem_flatMap.mp mem
  obtain ⟨v₁, rest, step, later⟩ := Pass.goes_on (Pass.covers_first.trace here) checked
  have clean₁ := clean.before (Check.log_run later)
  obtain ⟨k, keeps⟩ := Pass.trace_keeps_deep
    (P := fun n u => u.1.state.Clean → Aligned iface around n u.1.state u.2.state)
    (fun m mem _ _ _ _ counted step => Aligned.step_clean (free m mem) counted step)
    (fun _ => aligned) counts t here
  exact visits_move step (keeps (clean₁.before (Check.log_step step))) clean₁ visit at_t

end Visits

end BraceLang
