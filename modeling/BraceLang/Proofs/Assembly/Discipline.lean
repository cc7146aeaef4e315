import BraceLang.Proofs.Assembly.Paths

/-!
The discipline of the two stacks. The code of an expression leaves the processor's stack as it
was and one more value on the x87 stack, if that is where its own value is. Between two
statements of a unit, the processor's stack is as it was behind the prologue and the x87 stack is
empty.

**Main results.** `shifts_expr`: the effect of an expression. `Outline.steady`: the statements of
a unit begin, and their labels stand, at one height. `stacks_disciplined`: what that means for the
paths of a whole program.
-/

namespace BraceLang.Assembly

variable {iface : Interface} {s s' : State}

/-- How many values of the x87 stack a value of the domain takes. -/
def depthOf : Domain → Int
  | .int => 0
  | .float => 1

/-! ### Fixed sequences -/

theorem shifts_convert (d : Domain) (t : Ty) :
    Shifts iface 0 (depthOf t.domain - depthOf d) (code (convert d t)) := by
  cases t <;> cases d <;> exact shifts_of rfl rfl

theorem shifts_pushValue (d : Domain) :
    Shifts iface (-pushedBytes d) (-depthOf d) (code (pushValue d)) := by
  cases d <;> exact shifts_of rfl rfl

theorem shifts_dropValue (d : Domain) : Shifts iface 0 (-depthOf d) (code (dropValue d)) := by
  cases d <;> exact shifts_of rfl rfl

theorem shifts_loadSlot (slot : Slot) (indexed : Bool) :
    Shifts iface 0 (depthOf slot.type.domain) (code (loadSlot slot indexed)) := by
  unfold loadSlot
  cases slot.type <;> exact shifts_of rfl rfl

theorem shifts_storeSlot (d : Domain) (slot : Slot) (indexed : Bool) :
    Shifts iface 0 (-depthOf d) (code (storeSlot d slot indexed)) := by
  unfold storeSlot
  cases slot.type <;> cases d <;> exact shifts_of rfl rfl

theorem shifts_defaultValue (t : Ty) :
    Shifts iface 0 (depthOf t.domain) (code (defaultValue t)) := by
  cases t <;> exact shifts_of rfl rfl

theorem shifts_unaryOp (op : UnOp) (d : Domain) :
    Shifts iface 0 (depthOf (unaryOp op d).2 - depthOf d) (code (unaryOp op d).1) := by
  cases op <;> cases d <;> exact shifts_of rfl rfl

theorem shifts_pushArg (d : Domain) (param : Option Ty) :
    Shifts iface (-(pushArg d param).2) (-depthOf d) (code (pushArg d param).1) := by
  cases param with
  | none => exact shifts_pushValue d
  | some t => cases t <;> cases d <;> exact shifts_of rfl rfl

/-- The label of a remainder is met where its jump goes. -/
theorem shifts_remainder (again : Target) : Shifts iface 0 (-1) (remainder again) where
  falls x mem := by
    simp only [remainder, code, List.map_cons, List.map_nil, List.mem_cons, List.not_mem_nil,
      or_false] at mem
    rcases mem with rfl | rfl | rfl | rfl | rfl | rfl <;> rfl
  height base k := by
    simp [remainder, code, heightAfter, readLine, Line.falls, Instr.leaves, Stacks.afterLine,
      Stacks.after, Stacks.shift, Instr.effect]
  jumps base k j mem := by
    simp [remainder, code, jumpsAt, labelsAt, gather, readLine, Line.falls, Instr.leaves,
      Line.target?, Instr.target?, Stacks.afterLine, Stacks.after, Instr.effect] at mem ⊢
    exact mem

theorem shifts_binaryOp (op : BinOp) (left right : Domain) (s : State) :
    Shifts iface (pushedBytes left) (depthOf (binaryOp op left right s).1.2 - depthOf right)
      (binaryOp op left right s).1.1 := by
  cases op with
  | mod =>
      cases left <;> cases right <;>
        first
        | exact shifts_of rfl rfl
        | exact ((shifts_of rfl rfl).append (shifts_remainder _)).cast rfl rfl
  | _ =>
      cases left <;> cases right <;>
        first
        | exact shifts_of rfl rfl
        | exact ((shifts_of rfl rfl).append (shifts_of rfl rfl)).cast rfl rfl

/-! ### Expressions -/

theorem shifts_literal (value : Literal) (s : State) :
    Shifts iface 0 (depthOf (literal value s).1.2) (code (literal value s).1.1) := by
  cases value with
  | number text =>
      by_cases point : hasPoint text = true
      · simp only [literal, point, if_true]
        exact shifts_of rfl rfl
      · simp only [literal, point]
        exact shifts_of rfl rfl
  | char text => exact shifts_of rfl rfl
  | bool value => exact shifts_of rfl rfl

theorem shifts_readSlot (name : String) (indexed : Bool) (s : State) :
    Shifts iface 0 (depthOf (readSlot name indexed s).1.2)
      (code (readSlot name indexed s).1.1) := by
  rw [readSlot_eq]
  cases s.env.stack.lookup name with
  | some slot => exact shifts_loadSlot slot indexed
  | none => exact shifts_of rfl rfl

/-- A call leaves a value on the x87 stack if that is where its value is. -/
theorem returnsDouble_eq (name : String) :
    (if returnsDouble iface name then 1 else 0 : Int) =
      (Convention.domain? (iface.conventions.get? name)).elim 0 depthOf := by
  unfold returnsDouble
  rcases iface.conventions.get? name with - | ⟨result, params⟩
  · rfl
  · cases result <;> rfl

theorem shifts_callCode (name : String) (bytes : Nat) :
    Shifts iface bytes ((Convention.domain? (iface.conventions.get? name)).elim 0 depthOf)
      (code (callCode name bytes)) := by
  rw [← returnsDouble_eq]
  rcases Nat.eq_zero_or_pos bytes with rfl | positive
  · exact (shifts_instr rfl : Shifts iface _ _ [.instr (.call name)])
  · rw [callCode, if_pos positive]
    exact (shifts_code _ rfl).cast (by simp [effectOf, Instr.effect]) (Int.add_zero _)

/-- A call removes its arguments. -/
theorem Shifts.call {bytes : Nat} {lines : List Line} (pushed : Shifts iface (-bytes) 0 lines)
    (name : String) :
    Shifts iface 0 ((Convention.domain? (iface.conventions.get? name)).elim 0 depthOf)
      (lines ++ code (callCode name bytes)) :=
  (pushed.append (shifts_callCode name bytes)).cast (Int.add_left_neg _) (Int.zero_add _)

variable (iface)

mutual

/-- The code of an expression leaves `esp` as it was, and one more value on the x87 stack if its
value is there. -/
theorem shifts_expr : (e : Expr) → ∀ s : State,
    Shifts iface 0 (depthOf (expr iface e s).1.2) (expr iface e s).1.1
  | .literal pos value, s => by
      rw [expr_literal]
      exact shifts_literal value s
  | .var pos name, s => by
      rw [expr_var]
      exact shifts_readSlot name false s
  | .element pos array index, s => by
      rw [expr_element]
      dsimp only
      rw [code_append, code_append]
      have moved : Shifts iface 0 0 (code [.movReg .ecx .eax]) := shifts_of rfl rfl
      refine ((shifts_expr index s).append (((shifts_convert _ .int).append moved).append
        (shifts_readSlot array true _))).cast rfl ?_
      simp only [Ty.domain, depthOf]
      omega
  | .unary pos op operand, s => by
      rw [expr_unary]
      dsimp only
      exact ((shifts_expr operand s).append (shifts_unaryOp op _)).cast rfl (by omega)
  | .binary pos op left right, s => by
      rw [expr_binary]
      dsimp only
      have waits := (shifts_expr left s).append (shifts_pushValue (expr iface left s).1.2)
      have operands := waits.append (shifts_expr right (expr iface left s).2)
      exact (operands.append (shifts_binaryOp op _ _ _)).cast (by omega) (by omega)
  | .call pos name args, s => by
      have called := (shifts_exprArgs (iface.params name.val) args
        (callee iface name.val s).2).call name.val
      rw [expr_call]
      dsimp only
      split
      · rename_i d is
        rwa [is] at called
      · rename_i is
        rw [is] at called
        have zero : Shifts iface 0 0 (code [.movNat .eax 0]) := shifts_of rfl rfl
        exact called.append zero

/-- The code of arguments takes the bytes that it says. -/
theorem shifts_exprArgs : (params : List Ty) → (args : List Expr) → ∀ s : State,
    Shifts iface (-(exprArgs iface params args s).1.2) 0 (exprArgs iface params args s).1.1
  | params, [], s => by
      rw [exprArgs_nil]
      exact .nil
  | params, arg :: args, s => by
      rw [exprArgs_cons]
      refine (((shifts_exprArgs params.tail args s).append (shifts_expr arg _)).append
        (shifts_pushArg _ _)).cast ?_ (by omega)
      simp only [Int.natCast_add]
      omega

end

variable {iface}

/-! ### Statements -/

/-- What an action leaves on the x87 stack: a result, if it is there. -/
def Action.depth (s : State) : Action → Int
  | finish _ => depthOf s.result.domain
  | test _ | declare _ | assign .. | call .. => 0

/-- Every action leaves the stacks as they were, apart from a result that is in `st0`. -/
theorem shifts_emit {action : Action} {lines : List Line}
    (made : Done (action.emit iface) s lines s') : Shifts iface 0 (action.depth s) lines := by
  cases action with
  | test cond =>
      obtain ⟨rfl, rfl⟩ := done_action made
      refine ((shifts_expr iface cond s).append (?_ : Shifts iface 0 (-depthOf _) _)).cast rfl
        (Int.add_right_neg _)
      cases (expr iface cond s).1.2 <;> exact shifts_of rfl rfl
  | declare d =>
      rcases done_declaration_lines made with ⟨-, rfl⟩ | ⟨init, slot, -, rfl⟩
      · exact .nil
      · exact ((shifts_expr iface init s).append (shifts_storeSlot _ slot false)).cast rfl
          (Int.add_right_neg _)
  | assign target index value =>
      obtain ⟨rfl, rfl⟩ := done_action made
      rw [assignment_eq]
      split
      · rename_i slot _
        exact ((shifts_expr iface value s).append (shifts_storeSlot _ slot false)).cast rfl
          (Int.add_right_neg _)
      · rename_i slot index _
        -- The index waits on the stack while the value is computed.
        have pushed : Shifts iface (-4) 0 (code [.push .eax]) := shifts_of rfl rfl
        have popped : Shifts iface 4 0 (code [.pop .ecx]) := shifts_of rfl rfl
        dsimp only
        rw [code_append, List.append_assoc]
        refine (((shifts_expr iface index s).append ((shifts_convert _ .int).append pushed)).append
          ((shifts_expr iface value _).append (popped.append (shifts_storeSlot _ slot true)))).cast
          rfl ?_
        simp only [Ty.domain, depthOf, Action.depth]
        omega
      · exact ((shifts_expr iface value _).append (shifts_dropValue _)).cast rfl
          (Int.add_right_neg _)
  | call name args =>
      obtain ⟨rfl, rfl⟩ := done_action made
      rw [callStmt_eq, call_eq]
      dsimp only
      have called := (shifts_exprArgs iface (iface.params name.val) args
        (callee iface name.val s).2).call name.val
      cases is : Convention.domain? (iface.conventions.get? name.val) with
      | none =>
          rw [is] at called
          exact called.append .nil
      | some d =>
          rw [is] at called
          exact (called.append (shifts_dropValue d)).cast rfl (Int.add_right_neg _)
  | finish value =>
      obtain ⟨rfl, rfl⟩ := done_action made
      rw [resultLines_eq]
      change Shifts iface 0 (depthOf s.result.domain) _
      by_cases isVoid : s.result = .void
      · simp only [isVoid, if_true]
        cases value with
        | none => exact .nil
        | some e =>
            exact ((shifts_expr iface e s).append (shifts_dropValue _)).cast rfl
              (Int.add_right_neg _)
      · simp only [isVoid, if_false]
        cases value with
        | none => exact shifts_defaultValue s.result
        | some e =>
            exact ((shifts_expr iface e s).append (shifts_convert _ s.result)).cast rfl (by omega)

/-- How deep the x87 stack has to be where the piece stands, if that is laid down. The unit
leaves `result` values there. -/
def Piece.expects (result : Int) : Piece → Option Int
  | begins _ | line (.label (.numbered _)) => some 0
  | line (.label .exit) => some result
  | act .. | line (.instr _) => none

variable {base : Stacks} {result : Int} {targets targets' : List Target} {k : Stacks}
  {pieces first second : List Piece}

/-- The pieces stand where they are expected to, relative to the height `base`. -/
def Rests (iface : Interface) (base : Stacks) (result : Int) : Stacks → List Piece → Prop
  | _, [] => True
  | k, piece :: rest => (∀ d ∈ piece.expects result, k = base.shift 0 d) ∧
      Rests iface base result (heightAfter iface base k piece.lines) rest

theorem rests_append : Rests iface base result k (first ++ second) ↔
    Rests iface base result k first ∧
      Rests iface base result (heightAfter iface base k (linesOf first)) second := by
  induction first generalizing k with
  | nil => exact (true_and _).symm.to_iff
  | cons piece rest ih =>
      rw [List.cons_append, Rests, Rests, ih, linesOf_cons, heightAfter_append, and_assoc]

/-- The pieces are code that starts and ends at the height `base`. It may jump to the end of the
unit, with the result in its place, and to the given targets at the height `base`. -/
structure Steady (iface : Interface) (base : Stacks) (result : Int) (targets : List Target)
    (pieces : List Piece) : Prop where
  height : heightAfter iface base base (linesOf pieces) = base
  rests : Rests iface base result base pieces
  jumps : ∀ j ∈ jumpsAt iface base base (linesOf pieces),
    j ∈ labelsAt iface base base (linesOf pieces) ∨ j = (.exit, base.shift 0 result) ∨
      ∃ t ∈ targets, j = (t, base)

namespace Steady

theorem nil : Steady iface base result targets [] := ⟨rfl, trivial, nofun⟩

theorem append (one : Steady iface base result targets first)
    (other : Steady iface base result targets second) :
    Steady iface base result targets (first ++ second) where
  height := by rw [linesOf_append, heightAfter_append, one.height, other.height]
  rests := rests_append.mpr ⟨one.rests, one.height.symm ▸ other.rests⟩
  jumps j mem := by
    rw [linesOf_append, jumpsAt_append, one.height] at mem
    rw [linesOf_append, labelsAt_append, one.height]
    rcases List.mem_append.mp mem with mem | mem
    · exact (one.jumps j mem).imp_left (List.mem_append_left _)
    · exact (other.jumps j mem).imp_left (List.mem_append_right _)

theorem mono (steady : Steady iface base result targets pieces) (more : targets ⊆ targets') :
    Steady iface base result targets' pieces where
  height := steady.height
  rests := steady.rests
  jumps j mem := (steady.jumps j mem).imp_right
    (.imp_right fun ⟨t, known, is⟩ => ⟨t, more known, is⟩)

/-- Jumps to a label of the code itself are no jumps out of it. -/
theorem close {t : Target} (steady : Steady iface base result (t :: targets) pieces)
    (there : (t, base) ∈ labelsAt iface base base (linesOf pieces)) :
    Steady iface base result targets pieces where
  height := steady.height
  rests := steady.rests
  jumps j mem := by
    rcases steady.jumps j mem with here | exits | ⟨t', known, rfl⟩
    · exact .inl here
    · exact .inr (.inl exits)
    · rcases List.mem_cons.mp known with rfl | known
      · exact .inl there
      · exact .inr (.inr ⟨t', known, rfl⟩)

theorem begins (x : Stmt) : Steady iface base result targets [.begins x] where
  height := rfl
  rests := ⟨fun d is => by obtain rfl := Option.some.inj is; simp, trivial⟩
  jumps := nofun

theorem label (n : Nat) : Steady iface base result targets [.line (.label (.numbered n))] where
  height := rfl
  rests := ⟨fun d is => by obtain rfl := Option.some.inj is; simp, trivial⟩
  jumps := nofun

theorem act {action : Action} {lines : List Line} (shifts : Shifts iface 0 0 lines) :
    Steady iface base result targets [.act action lines] where
  height := by
    rw [linesOf_cons, linesOf_nil, List.append_nil, Piece.lines, shifts.height, Stacks.shift_zero]
  rests := ⟨nofun, trivial⟩
  jumps j mem := by
    rw [linesOf_cons, linesOf_nil, List.append_nil] at mem ⊢
    exact .inl (shifts.jumps base base j mem)

theorem jumpIf {t : Target} (known : t ∈ targets) :
    Steady iface base result targets [.line (.instr (.je t))] where
  height := base.shift_zero
  rests := ⟨nofun, trivial⟩
  jumps j mem := by
    obtain rfl := List.mem_singleton.mp mem
    exact .inr (.inr ⟨t, known, congrArg (t, ·) base.shift_zero⟩)

theorem jump {t : Target} (known : t ∈ targets) :
    Steady iface base result targets [.line (.instr (.jmp t))] where
  height := rfl
  rests := ⟨nofun, trivial⟩
  jumps j mem := by
    obtain rfl := List.mem_singleton.mp mem
    exact .inr (.inr ⟨t, known, congrArg (t, ·) base.shift_zero⟩)

theorem condition (cond : Expr) {lines : List Line} {t : Target} (shifts : Shifts iface 0 0 lines)
    (known : t ∈ targets) :
    Steady iface base result targets (Assembly.condition cond lines t) :=
  (act shifts).append (jumpIf known)

/-- A result is left in its place before the jump to the end. -/
theorem finish {action : Action} {lines : List Line} (shifts : Shifts iface 0 result lines) :
    Steady iface base result targets [.act action lines, .line (.instr (.jmp .exit))] where
  height := by
    simp [heightAfter_append, Piece.lines]
    rfl
  rests := ⟨nofun, nofun, trivial⟩
  jumps j mem := by
    simp only [linesOf_cons, linesOf_nil, List.append_nil, Piece.lines, jumpsAt_append,
      labelsAt_append, shifts.height] at mem ⊢
    rcases List.mem_append.mp mem with mem | mem
    · exact .inl (List.mem_append_left _ (shifts.jumps base base j mem))
    · obtain rfl := List.mem_singleton.mp mem
      exact .inr (.inl (congrArg (Target.exit, ·) (Stacks.shift_zero _)))

/-- A label behind steady code stands at its height. -/
theorem mem_labelsAt {t : Target} (steady : Steady iface base result targets first) :
    (t, base) ∈ labelsAt iface base base (linesOf (first ++ [.line (.label t)])) := by
  rw [linesOf_append, labelsAt_append, steady.height]
  exact List.mem_append_right _ List.mem_cons_self

end Steady

theorem mem_labelsAt_append {x : Target × Stacks} (mem : x ∈ labelsAt iface base k (linesOf first))
    (second : List Piece) : x ∈ labelsAt iface base k (linesOf (first ++ second)) := by
  rw [linesOf_append, labelsAt_append]
  exact List.mem_append_left _ mem

/-- The targets of the innermost loop. -/
def targetsOf (targets : Option Targets) : List Target := targets.elim [] fun t => [t.next, t.stop]

theorem shifts_testLines {cond : Expr} {lines : List Line}
    (made : testLines iface cond s = (lines, s')) : Shifts iface 0 0 lines :=
  shifts_emit (show Done (Action.emit iface (.test cond)) s lines s' from done_of_eq made)

theorem Stmt.depth_action? {x : Stmt} {action : Action} (is : Stmt.action? x = some action) :
    action.depth s = 0 := by
  cases x <;> first | contradiction | (cases is; rfl)

/-- Code that is made for statements is steady. -/
theorem Outline.steady {targets : Option Targets} {part : Part}
    (outline : Outline iface targets part s pieces s') (base : Stacks) {result : Int}
    (is : depthOf s.result.domain = result) :
    Steady iface base result (targetsOf targets) pieces := by
  induction outline with
  | nil | function _ => exact .nil
  | cons one _ first rest =>
      exact ((Steady.begins _).append (first is)).append (rest (one.result ▸ is))
  | act isAction made => exact .act (Stmt.depth_action? isAction ▸ shifts_emit made)
  | block _ inside => exact inside is
  -- A label that is placed behind code is reached from it by falling through as well.
  | @ifThen _ cond _ _ s _ _ _ _ tested _ inside =>
      have inner := (inside (result_testLines tested ▸ is)).mono
        (List.subset_cons_self (.numbered s.labels) _)
      have before := (Steady.condition cond (shifts_testLines tested) List.mem_cons_self).append
        inner
      exact (before.append (.label s.labels)).close before.mem_labelsAt
  | @ifElse targets cond _ _ _ _ s _ _ _ s₂ _ _ tested body _ inside otherwise =>
      have tests : depthOf _ = result := result_testLines tested ▸ is
      have after : depthOf s₂.result.domain = result := body.result ▸ tests
      have more : targetsOf targets ⊆
          .numbered s₂.labels :: .numbered s.labels :: targetsOf targets :=
        fun t known => .tail _ (.tail _ known)
      have inner := (inside tests).mono more
      have other := (otherwise after).mono more
      have upToJump := ((Steady.condition cond (shifts_testLines tested) (.tail _ (.head _))).append
        inner).append (.jump (.head _))
      have upToElse := upToJump.append (.label s.labels)
      have whole := (upToElse.append other).append (.label s₂.labels)
      have closed := (whole.close (upToElse.append other).mem_labelsAt).close
        (mem_labelsAt_append (mem_labelsAt_append upToJump.mem_labelsAt _) _)
      simpa using closed
  | @whileLoop targets cond _ _ s _ _ _ _ tested _ inside =>
      have inner := (inside (result_testLines tested ▸ is)).mono
        (fun t known => List.mem_append_left (targetsOf targets) known)
      have upToJump := (((Steady.label s.labels).append (.condition cond (shifts_testLines tested)
        (.tail _ (.head _)))).append inner).append (.jump (.head _))
      have whole := upToJump.append (.label (s.labels + 1))
      have closed := (whole.close List.mem_cons_self).close
        upToJump.mem_labelsAt
      simpa using closed
  | @forLoop targets _ cond _ _ _ _ _ s₁ _ _ _ s₃ _ _ init tested body _ starts inside updates =>
      have atInit : depthOf s₁.result.domain = result := init.result ▸ is
      have tests : depthOf _ = result := result_testLines tested ▸ atInit
      have after : depthOf s₃.result.domain = result := body.result ▸ tests
      let all := Target.numbered s₁.labels :: .numbered (s₁.labels + 1) ::
        .numbered (s₁.labels + 2) :: targetsOf targets
      have more : targetsOf targets ⊆ all := fun t known => .tail _ (.tail _ (.tail _ known))
      have inner : Steady iface base result all _ := (inside tests).mono fun t known =>
        .tail _ (List.mem_append_left (targetsOf targets) known)
      have upToBody := (((starts is).mono more).append (.label s₁.labels)).append
        ((Steady.condition cond (shifts_testLines tested) (.tail _ (.tail _ (.head _)))).append
          inner)
      have again := ((updates after).mono more).append (.jump (.head _))
      have whole := ((upToBody.append (.label (s₁.labels + 1))).append again).append
        (.label (s₁.labels + 2))
      have closed := ((whole.close (mem_labelsAt_append (mem_labelsAt_append (mem_labelsAt_append
          (mem_labelsAt_append (starts is).mem_labelsAt _) _) _) _)).close
        (mem_labelsAt_append (mem_labelsAt_append upToBody.mem_labelsAt _) _)).close
        ((upToBody.append (.label (s₁.labels + 1))).append again).mem_labelsAt
      simpa using closed
  | @breakLoop targets =>
      cases targets with
      | none => exact .nil
      | some t => exact .jump (List.mem_cons_of_mem _ List.mem_cons_self)
  | @continueLoop targets =>
      cases targets with
      | none => exact .nil
      | some t => exact .jump List.mem_cons_self
  | returnValue made =>
      obtain rfl := is
      exact .finish (shifts_emit made)

/-! ### Units -/

/-- On all paths of a unit, the statements begin and their labels are reached with `esp` where it
is given and an empty x87 stack, and the end of the unit with `result` values on it. -/
def Disciplined (iface : Interface) (esp result : Int) (pieces : List Piece) : Prop :=
  ∀ before piece after k, pieces = before ++ piece :: after →
    Reaches iface (linesOf pieces) (0, .entry) ((linesOf before).length, k) →
      ∀ depth ∈ piece.expects result, k.esp = esp ∧ k.fpu = depth

/-- The code of a unit: its jumps agree with their labels, and its pieces stand where they are
expected to, relative to a height with an empty x87 stack. -/
structure Balanced (iface : Interface) (base : Stacks) (result : Int) (pieces : List Piece) :
    Prop where
  closed : Closed iface base .entry (linesOf pieces)
  rests : Rests iface base result .entry pieces
  empty : base.fpu = 0

theorem Balanced.disciplined (balanced : Balanced iface base result pieces) :
    Disciplined iface base.esp result pieces := by
  rintro before piece after k rfl reaches depth expected
  have height := balanced.closed.height reaches
  rw [linesOf_append, List.take_left] at height
  have stands := (rests_append.mp balanced.rests).2.1 depth expected
  rw [height, stands]
  exact ⟨Int.add_zero _, by rw [Stacks.shift, balanced.empty, Int.zero_add]⟩

theorem rests_plain {lines : List Line} (unlabelled : placed lines = []) :
    Rests iface base result k (plain lines) := by
  induction lines generalizing k with
  | nil => trivial
  | cons x rest ih =>
      cases x with
      | label t => contradiction
      | instr i => exact ⟨nofun, ih unlabelled⟩

theorem jumpsAt_code {instrs : List Instr} (stays : ∀ i ∈ instrs, i.target? = none) :
    jumpsAt iface base k (code instrs) = [] := by
  induction instrs generalizing k with
  | nil => rfl
  | cons i rest ih =>
      change (Option.map _ i.target?).toList ++ jumpsAt iface base _ (code rest) = []
      rw [stays i List.mem_cons_self, ih fun j mem => stays j (List.mem_cons_of_mem i mem)]
      rfl

/-- A unit is balanced if its statements are steady, its code before them ends at their height, and
its code behind them leaves the result in its place. -/
theorem Steady.balanced {a b : Nat} {before after : List Instr} {last : List Line}
    (steady : Steady iface base result [] pieces) (places : Places a (linesOf pieces) b)
    (enters : heightAfter iface base .entry (code before) = base)
    (stays : ∀ i ∈ before, i.target? = none) (shifts : Shifts iface 0 result last)
    (unlabelled : placed last = []) (stays' : ∀ i ∈ after, i.target? = none)
    (empty : base.fpu = 0) :
    Balanced iface base result
      (plain (code before) ++ pieces ++ plain (last ++ .label .exit :: code after)) := by
  have lines : linesOf (plain (code before) ++ pieces ++
        plain (last ++ .label .exit :: code after)) =
      code before ++ (linesOf pieces ++ (last ++ .label .exit :: code after)) := by
    simp only [linesOf_append, linesOf_plain, List.append_assoc]
  have exits : (.exit, base.shift 0 result) ∈
      labelsAt iface base (base.shift 0 result) (.label .exit :: code after) := List.mem_cons_self
  refine ⟨⟨?_, ?_⟩, ?_, empty⟩
  · intro j mem
    rw [lines] at mem ⊢
    simp only [jumpsAt_append, labelsAt_append, jumpsAt_code stays, enters, steady.height,
      shifts.height, List.nil_append] at mem ⊢
    refine List.mem_append_right _ ?_
    rcases List.mem_append.mp mem with mem | mem
    · rcases steady.jumps j mem with here | rfl | ⟨t, known, -⟩
      · exact List.mem_append_left _ here
      · exact List.mem_append_right _ (List.mem_append_right _ exits)
      · contradiction
    · refine List.mem_append_right _ ?_
      rcases List.mem_append.mp mem with mem | mem
      · exact List.mem_append_left _ (shifts.jumps base base j mem)
      · have none : jumpsAt iface base (base.shift 0 result) (.label .exit :: code after) = [] :=
          jumpsAt_code stays'
        rw [none] at mem
        contradiction
  · rw [lines]
    simp only [placed_append, placed_code, placed_label, unlabelled, List.nil_append]
    exact places.nodup_exit
  · rw [rests_append, rests_append, linesOf_append, linesOf_plain, heightAfter_append, enters,
      steady.height, plain_append]
    refine ⟨⟨rests_plain (placed_code before), steady.rests⟩, rests_append.mpr ⟨?_, ?_, ?_⟩⟩
    · exact rests_plain unlabelled
    · rintro d ⟨⟩
      rw [linesOf_plain, shifts.height]
    · exact rests_plain (placed_code after)

/-- The stacks behind the prologue of a function. -/
def Stacks.behindPrologue (iface : Interface) (size : Nat) : Stacks :=
  (prologue size).foldl (Stacks.after iface) .entry

theorem behindPrologue_eq (size : Nat) :
    Stacks.behindPrologue iface size = ⟨-4 - size, some (-4), 0⟩ := by
  unfold Stacks.behindPrologue prologue
  rcases Nat.eq_zero_or_pos size with rfl | positive
  · rfl
  · rw [if_pos positive]
    rfl

theorem RoutineOutline.balanced {h : Heading} {body : List Stmt} {size : Nat}
    (outline : RoutineOutline iface h body size pieces) :
    Balanced iface (.behindPrologue iface size) (depthOf (typeOf h.result.val).domain) pieces := by
  obtain ⟨s, inner, s', inside, rfl⟩ := outline
  have steady := inside.steady (.behindPrologue iface size)
    (congrArg (depthOf ∘ Ty.domain) (result_enterRoutine h s))
  refine steady.balanced inside.places ?_ (prologue_stays size) (shifts_defaultValue _)
    (placed_code _) (by decide) (by rw [behindPrologue_eq])
  rw [behindPrologue_eq, prologue]
  rcases Nat.eq_zero_or_pos size with rfl | positive
  · rfl
  · rw [if_pos positive]
    rfl

theorem RoutineOutline.disciplined {h : Heading} {body : List Stmt} {size : Nat}
    (outline : RoutineOutline iface h body size pieces) :
    Disciplined iface (Stacks.behindPrologue iface size).esp
      (depthOf (typeOf h.result.val).domain) pieces :=
  outline.balanced.disciplined

/-- What follows the top-level code leaves the stacks as they were up to the end of the unit. -/
theorem finish_eq (s : State) : ∃ last, Shifts iface 0 0 last ∧ placed last = [] ∧
    (finish iface s).1 =
      last ++ .label .exit :: code [.movReg .ebx .eax, .movNat .eax 1, .trap] := by
  unfold finish
  split
  · have called : (call iface "main" [] s).1.1 = code (callCode "main" 0) := by
      rw [call_eq, exprArgs_nil]
      rfl
    refine ⟨code (callCode "main" 0) ++
      code (if (call iface "main" [] s).1.2 = some .float then toInt else []), ?_, ?_, ?_⟩
    · rw [call_eq]
      dsimp only
      have returned : Shifts iface 0 _ _ := shifts_callCode "main" 0
      generalize Convention.domain? (iface.conventions.get? "main") = d? at returned ⊢
      rcases d? with - | (- | -)
      · exact returned.append .nil
      · exact returned.append .nil
      · have converted : Shifts iface 0 (-1) (code toInt) := shifts_of rfl rfl
        exact returned.append converted
    · rw [placed_append, placed_code, placed_code]
      rfl
    · rw [← called]
      rfl
  · exact ⟨code [.movNat .eax 0], shifts_of rfl rfl, placed_code _, rfl⟩

theorem StartOutline.balanced {body : List Stmt} (outline : StartOutline iface body pieces) :
    Balanced iface .entry 0 pieces := by
  obtain ⟨inner, s', inside, rfl⟩ := outline
  obtain ⟨last, shifts, unlabelled, ends⟩ : ∃ last, Shifts iface 0 0 last ∧ _ := finish_eq s'
  have enters : heightAfter iface .entry .entry (code []) = .entry := rfl
  rw [ends]
  exact (inside.steady .entry rfl).balanced inside.places enters nofun shifts unlabelled
    (by decide) rfl

theorem StartOutline.disciplined {body : List Stmt} (outline : StartOutline iface body pieces) :
    Disciplined iface 0 0 pieces :=
  outline.balanced.disciplined

/-- The discipline of the stacks in a program that code is made for. The paths through the code of
an expression leave `esp` as it was and one more value on the x87 stack if its value is there. In
every unit, the statements begin and their labels are reached at the height behind the prologue
with an empty x87 stack, and the end of the unit with the result of a `double` function on it. -/
theorem stacks_disciplined (p : Program) (l : Listing) (assembled : p.assemble.1 = .ok l) :
    let iface := Interface.ofProgram p
    (∀ e s k k', Reaches iface (expr iface e s).1.1 (0, k) ((expr iface e s).1.1.length, k') ↔
      k' = k.shift 0 (if (expr iface e s).1.2 = .float then 1 else 0)) ∧
    (∃ pieces, StartOutline iface p.stmts pieces ∧ linesOf pieces = l.start ∧
      Disciplined iface Stacks.entry.esp 0 pieces) ∧
    List.Forall₂ (fun d r => ∃ size pieces, RoutineOutline iface d.1 d.2 size pieces ∧
        linesOf pieces = r.lines ∧
        Disciplined iface (Stacks.behindPrologue iface size).esp
          (if typeOf d.1.result.val = .double then 1 else 0) pieces)
      (definitions p.stmts) l.routines := by
  have depth (d : Domain) : depthOf d = if d = .float then 1 else 0 := by cases d <;> rfl
  intro iface
  obtain ⟨⟨pieces, start, lines⟩, routines⟩ := outline_listing assembled
  refine ⟨?_, ⟨pieces, start, lines, start.disciplined⟩, routines.imp ?_⟩
  · intro e s k k'
    rw [← depth]
    exact (shifts_expr iface e s).reaches_iff (places_expr iface e s).nodup
  · rintro d r ⟨-, size, pieces, outline, lines⟩
    have disciplined := outline.disciplined
    simp only [depth, Ty.domain_eq_float_iff] at disciplined
    exact ⟨size, pieces, outline, lines, disciplined⟩

/-- A function that leaves a loop with remainders in it, and a call whose result nobody uses. -/
def remainders : Program where
  stmts :=
    [.define ⟨⟨"double", {}⟩, ⟨"f", {}⟩,
        [⟨⟨"double", {}⟩, some ⟨"x", {}⟩⟩, ⟨⟨"int", {}⟩, some ⟨"n", {}⟩⟩]⟩ {}
      [.forLoop
          (some (.declare {} ⟨⟨"int", {}⟩, ⟨"i", {}⟩, none, some (.literal {} (.number "0"))⟩))
          (.binary {} .less (.var {} "i") (.var {} "n"))
          (some (.assign {} ⟨"i", {}⟩ none
            (.binary {} .add (.var {} "i") (.literal {} (.number "1"))))) {}
          [.assign {} ⟨"x", {}⟩ none (.binary {} .mod (.var {} "x") (.literal {} (.number "2.5"))),
            .ifThen (.binary {} .less (.var {} "x") (.literal {} (.number "1.0"))) {}
              [.breakLoop {}]],
        .returnValue {} (some (.var {} "x"))],
      .call {} ⟨"f", {}⟩ [.literal {} (.number "7.0"), .literal {} (.number "3")]]

theorem remainders_disciplined : ∃ l, remainders.assemble.1 = .ok l ∧ l.routines.length = 1 ∧
    ∃ pieces, linesOf pieces = l.start ∧ Disciplined (.ofProgram remainders) 0 0 pieces := by
  have made : remainders.assemble.1.toOption.isSome = true := by decide +kernel
  cases assembled : remainders.assemble.1 with
  | error fault =>
      rw [assembled] at made
      contradiction
  | ok l =>
      obtain ⟨-, ⟨pieces, -, lines, disciplined⟩, routines⟩ :=
        stacks_disciplined remainders l assembled
      exact ⟨l, rfl, routines.length_eq.symm, pieces, lines, disciplined⟩

end BraceLang.Assembly
