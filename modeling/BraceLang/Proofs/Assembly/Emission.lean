import BraceLang.Assembly.Expr

/-!
What making code for an expression does to the state, and the domain it reports, without looking
at the code itself.

**Main results.** `grows_expr`: making code for an expression only adds constants, jump targets
and external functions; the open scopes, the frame and the reservations stay. `expr_domain`: the
domain is a function of the expression and of the slots of its names.
-/

namespace BraceLang.Assembly

/-! ### The state -/

/-- The later state has the same storage, and at least the constants of the earlier one. -/
structure State.Grows (s s' : State) : Prop where
  stack : s'.env.stack = s.env.stack
  frame : s'.frame = s.frame
  reservations : s'.reservations = s.reservations
  constants : s.constants <+: s'.constants

theorem State.Grows.refl (s : State) : s.Grows s := ⟨rfl, rfl, rfl, List.prefix_rfl⟩

theorem State.Grows.trans {s s' s'' : State} (first : s.Grows s') (second : s'.Grows s'') :
    s.Grows s'' where
  stack := second.stack.trans first.stack
  frame := second.frame.trans first.frame
  reservations := second.reservations.trans first.reservations
  constants := first.constants.trans second.constants

variable {α β : Type} (iface : Interface) (s : State)

/-- An action after which the state is grown. -/
def Growing (action : Emit α) : Prop := ∀ s : State, s.Grows (action s).2

theorem Growing.pure (a : α) : Growing (pure a) := State.Grows.refl

theorem Growing.bind {action : Emit α} {next : α → Emit β} (first : Growing action)
    (second : ∀ a, Growing (next a)) : Growing (action >>= next) := fun s =>
  (first s).trans (second (action s).1 (action s).2)

theorem constant_eq (text : String) :
    constant text s = match s.constants.idxOf? text with
      | some i => (constantLabel i, s)
      | none =>
          (constantLabel s.constants.length, { s with constants := s.constants ++ [text] }) := by
  change (match s.constants.idxOf? text with
    | some i => (pure (constantLabel i) : Emit String)
    | none => do
        set { s with constants := s.constants ++ [text] }
        return constantLabel s.constants.length) s = _
  cases s.constants.idxOf? text <;> rfl

/-- A constant is in the table, at the place that its label is numbered for. -/
theorem constant_placed (text : String) (s : State) :
    ∃ i, (constant text s).1 = constantLabel i ∧
      (constant text s).2.constants[i]? = some text := by
  rw [constant_eq]
  cases found : s.constants.idxOf? text with
  | none => exact ⟨s.constants.length, rfl, by simp⟩
  | some i =>
      obtain ⟨inside, same, _⟩ := List.idxOf?_eq_some_iff.mp found
      exact ⟨i, rfl, List.getElem?_eq_some_iff.mpr ⟨inside, same⟩⟩

/-- The table only grows, so a constant stays in its place. -/
theorem getElem?_of_grown {first all : List String} (grown : first <+: all) {i : Nat}
    {text : String} (found : first[i]? = some text) : all[i]? = some text := by
  obtain ⟨rest, rfl⟩ := grown
  obtain ⟨inside, _⟩ := List.getElem?_eq_some_iff.mp found
  rw [List.getElem?_append_left inside, found]

theorem growing_constant (text : String) : Growing (constant text) := by
  intro s
  rw [constant_eq]
  cases s.constants.idxOf? text with
  | some i => exact .refl s
  | none => exact ⟨rfl, rfl, rfl, List.prefix_append _ _⟩

theorem growing_literal (value : Literal) : Growing (literal value) := by
  cases value with
  | number text =>
      by_cases point : hasPoint text = true
      · simp only [literal, point, if_true]
        exact (growing_constant text).bind fun _ => .pure _
      · simp only [literal, point]
        exact .pure _
  | char text => exact .pure _
  | bool value => exact .pure _

theorem readSlot_eq (name : String) (indexed : Bool) :
    readSlot name indexed s = match s.env.stack.lookup name with
      | some slot => ((loadSlot slot indexed, slot.type.domain), s)
      | none => (([.movNat .eax 0], .int), (noStorage name s).2) := by
  change (match s.env.stack.lookup name with
    | some slot => (pure (loadSlot slot indexed, slot.type.domain) : Emit (List Instr × Domain))
    | none => do
        noStorage name
        return ([.movNat .eax 0], .int)) s = _
  cases s.env.stack.lookup name <;> rfl

theorem growing_readSlot (name : String) (indexed : Bool) : Growing (readSlot name indexed) := by
  intro s
  rw [readSlot_eq]
  cases s.env.stack.lookup name with
  | some slot => exact .refl s
  | none => exact ⟨rfl, rfl, rfl, List.prefix_rfl⟩

theorem growing_freshTarget : Growing freshTarget := fun _ => ⟨rfl, rfl, rfl, List.prefix_rfl⟩

theorem growing_floatOp (op : BinOp) : Growing (floatOp op) := by
  cases op with
  | mod => exact growing_freshTarget.bind fun _ => .pure _
  | _ => exact .pure _

theorem growing_binaryOp (op : BinOp) (left right : Domain) :
    Growing (binaryOp op left right) := by
  unfold binaryOp
  split
  · exact .pure _
  · exact .pure _
  · split
    · exact .pure _
    · exact (growing_floatOp op).bind fun _ => .pure _

theorem growing_callee (name : String) : Growing (callee iface name) := by
  intro s
  change s.Grows (if _ then s else _)
  split
  · exact .refl s
  · exact ⟨rfl, rfl, rfl, List.prefix_rfl⟩

mutual

/-- Making code for an expression leaves all storage alone. -/
theorem growing_expr : (e : Expr) → Growing (expr iface e)
  | .literal _ value => by
      rw [expr]
      exact (growing_literal value).bind fun _ => .pure _
  | .var _ name => by
      rw [expr]
      exact (growing_readSlot name false).bind fun _ => .pure _
  | .element _ array index => by
      rw [expr]
      exact (growing_expr index).bind fun _ => (growing_readSlot array true).bind fun _ => .pure _
  | .unary _ op operand => by
      rw [expr]
      exact (growing_expr operand).bind fun _ => .pure _
  | .binary _ op left right => by
      rw [expr]
      exact (growing_expr left).bind fun a => (growing_expr right).bind fun b =>
        (growing_binaryOp op a.2 b.2).bind fun _ => .pure _
  | .call _ name args => by
      -- Both results, that of a function and that of a `void` one, are made without the state.
      rw [expr]
      refine (growing_callee iface name.val).bind fun _ =>
        (growing_exprArgs (iface.params name.val) args).bind fun _ => ?_
      dsimp only
      split <;> exact .pure _

theorem growing_exprArgs : (params : List Ty) → (args : List Expr) →
    Growing (exprArgs iface params args)
  | _, [] => by
      rw [exprArgs]
      exact .pure _
  | params, arg :: args => by
      rw [exprArgs]
      exact (growing_exprArgs params.tail args).bind fun _ =>
        (growing_expr arg).bind fun _ => .pure _

end

/-! ### Equations -/

theorem expr_literal (pos : Position) (value : Literal) :
    expr iface (.literal pos value) s =
      ((code (literal value s).1.1, (literal value s).1.2), (literal value s).2) := by
  rw [expr]
  rfl

theorem expr_var (pos : Position) (name : String) :
    expr iface (.var pos name) s =
      ((code (readSlot name false s).1.1, (readSlot name false s).1.2),
        (readSlot name false s).2) := by
  rw [expr]
  rfl

theorem expr_element (pos : Position) (array : String) (index : Expr) :
    expr iface (.element pos array index) s =
      let i := expr iface index s
      let r := readSlot array true i.2
      ((i.1.1 ++ code (convert i.1.2 .int ++ [.movReg .ecx .eax] ++ r.1.1), r.1.2), r.2) := by
  rw [expr]
  rfl

theorem expr_unary (pos : Position) (op : UnOp) (operand : Expr) :
    expr iface (.unary pos op operand) s =
      let a := expr iface operand s
      ((a.1.1 ++ code (unaryOp op a.1.2).1, (unaryOp op a.1.2).2), a.2) := by
  rw [expr]
  rfl

theorem expr_binary (pos : Position) (op : BinOp) (left right : Expr) :
    expr iface (.binary pos op left right) s =
      let a := expr iface left s
      let b := expr iface right a.2
      let o := binaryOp op a.1.2 b.1.2 b.2
      ((a.1.1 ++ code (pushValue a.1.2) ++ b.1.1 ++ o.1.1, o.1.2), o.2) := by
  rw [expr]
  rfl

theorem exprArgs_nil (params : List Ty) : exprArgs iface params [] s = (([], 0), s) := by
  rw [exprArgs]
  rfl

theorem exprArgs_cons (params : List Ty) (arg : Expr) (args : List Expr) :
    exprArgs iface params (arg :: args) s =
      let rest := exprArgs iface params.tail args s
      let a := expr iface arg rest.2
      let push := pushArg a.1.2 params.head?
      ((rest.1.1 ++ a.1.1 ++ code push.1, rest.1.2 + push.2), a.2) := by
  rw [exprArgs]
  rfl

theorem expr_call (pos : Position) (name : Located String) (args : List Expr) :
    expr iface (.call pos name args) s =
      let a := exprArgs iface (iface.params name.val) args (callee iface name.val s).2
      match Convention.domain? (iface.conventions.get? name.val) with
      | some d => ((a.1.1 ++ code (callCode name.val a.1.2), d), a.2)
      | none =>
          ((a.1.1 ++ code (callCode name.val a.1.2) ++ code [.movNat .eax 0], .int), a.2) := by
  rw [expr]
  cases Convention.domain? (iface.conventions.get? name.val) <;> rfl

theorem expr_call_domain (pos : Position) (name : Located String) (args : List Expr) :
    (expr iface (.call pos name args) s).1.2 =
      (Convention.domain? (iface.conventions.get? name.val)).getD .int := by
  rw [expr]
  cases Convention.domain? (iface.conventions.get? name.val) <;> rfl

/-! ### Domains -/

/-- An operator computes in floating-point registers: an arithmetic one with a floating-point
operand. -/
def binaryDomain (op : BinOp) (left right : Domain) : Domain :=
  if op.isRelational || op.isLogical then .int
  else match left, right with
    | .int, .int => .int
    | _, _ => .float

variable (slots : String → Option Slot)

/-- The domain of the value of an expression. -/
def domainOf : Expr → Domain
  | .literal _ (.number text) => if hasPoint text then .float else .int
  | .literal _ (.char _) | .literal _ (.bool _) => .int
  | .var _ name | .element _ name _ => (slots name).elim .int (·.type.domain)
  | .unary _ .neg operand => domainOf operand
  | .unary _ .not _ => .int
  | .binary _ op left right => binaryDomain op (domainOf left) (domainOf right)
  | .call _ name _ => (Convention.domain? (iface.conventions.get? name.val)).getD .int

theorem binaryOp_domain (op : BinOp) (left right : Domain) :
    (binaryOp op left right s).1.2 = binaryDomain op left right := by
  cases op <;> cases left <;> cases right <;> rfl

theorem literal_domain (pos : Position) (value : Literal) :
    (literal value s).1.2 = domainOf iface slots (.literal pos value) := by
  cases value with
  | number text =>
      by_cases point : hasPoint text = true
      · simp only [literal, domainOf, point]
        rfl
      · simp only [literal, domainOf, point]
        rfl
  | char text => rfl
  | bool value => rfl

theorem readSlot_domain (name : String) (indexed : Bool) :
    (readSlot name indexed s).1.2 = (s.env.stack.lookup name).elim .int (·.type.domain) := by
  rw [readSlot_eq]
  cases s.env.stack.lookup name <;> rfl

/-- The domain that making code reports. -/
theorem expr_domain (s : State) : (e : Expr) →
    (expr iface e s).1.2 = domainOf iface s.env.stack.lookup e
  | .literal pos value => by
      rw [expr_literal]
      exact literal_domain iface s s.env.stack.lookup pos value
  | .var pos name => by
      rw [expr_var]
      exact readSlot_domain s name false
  | .element pos array index => by
      rw [expr_element]
      refine (readSlot_domain _ array true).trans ?_
      rw [(growing_expr iface index s).stack]
      rfl
  | .unary pos .neg operand => by
      rw [expr_unary]
      dsimp only
      rw [expr_domain s operand, domainOf]
      cases domainOf iface s.env.stack.lookup operand <;> rfl
  | .unary pos .not operand => by
      rw [expr_unary]
      rfl
  | .binary pos op left right => by
      rw [expr_binary]
      dsimp only
      rw [binaryOp_domain, expr_domain s left, expr_domain _ right,
        (growing_expr iface left s).stack]
      rfl
  | .call pos name args => by
      rw [expr_call_domain]
      rfl

end BraceLang.Assembly
