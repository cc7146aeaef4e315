import BraceLang.Proofs.Assembly.Slots

/-!
The outline of the code of statements: which lines are the code of an action, where each
statement begins, and which labels and jumps stand between the actions.

`Outline` is a relation with one rule for each form of a statement. It says once what making code
for statements writes and how the state goes on; what holds of all code is shown by induction
over it.

**Main results.** `outline_stmts`: code that is made without a fault has an outline.
`Outline.places`: it places exactly the jump targets that were taken for it, each of them once.
`outline_listing`: the outlines of all units of a program.
-/

namespace BraceLang.Assembly

variable {iface : Interface}

/-! ### Actions and pieces -/

/-- What a program does between its jumps. -/
inductive Action where
  | test (cond : Expr)
  | declare (decl : Declaration)
  | assign (target : Located String) (index : Option Expr) (value : Expr)
  | call (callee : Located String) (args : List Expr)
  | finish (value : Option Expr)

/-- A condition, up to the comparison that its jump depends on. -/
def testLines (iface : Interface) (cond : Expr) : Emit (List Line) := do
  let (lines, d) ← expr iface cond
  let test := match d with
    | .int => []
    | .float => truth .float
  return lines ++ code (test ++ [.cmpZero])

/-- A result, up to the jump to the end of the unit. -/
def resultLines (iface : Interface) (value : Option Expr) : Emit (List Line) := do
  let result := ((← get).frame.map (·.result)).getD .int
  match value with
  | some e => do
      let (lines, d) ← expr iface e
      return lines ++ code (if result = .void then dropValue d else convert d result)
  | none => return code (if result = .void then [] else defaultValue result)

/-- The code of an action. -/
def Action.emit (iface : Interface) : Action → EmitStmt (List Line)
  | test cond => testLines iface cond
  | declare decl => declaration iface decl
  | assign target index value => assignment iface target.val index value
  | call callee args => callStmt iface callee.val args
  | finish value => resultLines iface value

/-- A part of the code of a unit. -/
inductive Piece where
  /-- The code of a statement begins here. -/
  | begins (x : Stmt)
  /-- The code of an action. -/
  | act (action : Action) (lines : List Line)
  /-- A line between the actions. -/
  | line (l : Line)

def Piece.lines : Piece → List Line
  | begins _ => []
  | act _ lines => lines
  | line l => [l]

/-- The code that pieces are parts of. -/
def linesOf (pieces : List Piece) : List Line := pieces.flatMap Piece.lines

/-- Lines that belong to no statement. -/
def plain (lines : List Line) : List Piece := lines.map .line

@[simp] theorem linesOf_nil : linesOf [] = [] := rfl

@[simp] theorem linesOf_cons (piece : Piece) (rest : List Piece) :
    linesOf (piece :: rest) = piece.lines ++ linesOf rest := List.flatMap_cons

@[simp] theorem linesOf_append (first second : List Piece) :
    linesOf (first ++ second) = linesOf first ++ linesOf second := List.flatMap_append

@[simp] theorem linesOf_plain (lines : List Line) : linesOf (plain lines) = lines := by
  induction lines with
  | nil => rfl
  | cons l rest ih => exact congrArg (l :: ·) ih

theorem plain_append (first second : List Line) :
    plain (first ++ second) = plain first ++ plain second := List.map_append

@[simp] theorem length_plain (lines : List Line) : (plain lines).length = lines.length :=
  List.length_map _

theorem jumpUnless_eq (cond : Expr) (target : Target) (s : State) :
    jumpUnless iface cond target s =
      ((testLines iface cond s).1 ++ [.instr (.je target)], (testLines iface cond s).2) := by
  change ((expr iface cond s).1.1 ++ code (_ ++ [.cmpZero, .je target]), (expr iface cond s).2) =
    ((expr iface cond s).1.1 ++ code (_ ++ [.cmpZero]) ++ [.instr (.je target)],
      (expr iface cond s).2)
  simp only [code, List.map_append, List.append_assoc]
  rfl

theorem returnStmt_eq (value : Option Expr) (s : State) :
    returnStmt iface value s =
      ((resultLines iface value s).1 ++ [.instr (.jmp .exit)], (resultLines iface value s).2) := by
  cases value with
  | none => rfl
  | some e => rfl

/-! ### Outlines -/

/-- The state after a jump target has been taken, which is `.numbered s.labels`. -/
def State.fresh (s : State) : State := { s with labels := s.labels + 1 }

@[simp] theorem labels_fresh (s : State) : s.fresh.labels = s.labels + 1 := rfl

@[simp] theorem labels_openScope (s : State) : (openScope s).2.labels = s.labels := rfl

@[simp] theorem labels_closeScope (s : State) : (closeScope s).2.labels = s.labels := rfl

/-- A condition and the jump that is taken where it does not hold. -/
def condition (cond : Expr) (lines : List Line) (target : Target) : List Piece :=
  [.act (.test cond) lines, .line (.instr (.je target))]

/-- What an outline is an outline of. -/
inductive Part where
  | one (x : Stmt)
  | all (body : List Stmt)

/-- The action that a statement consists of. -/
def Stmt.action? : Stmt → Option Action
  | .declare _ decl => some (.declare decl)
  | .assign _ target index value => some (.assign target index value)
  | .call _ callee args => some (.call callee args)
  | _ => none

/-- The statement is a function, which has no code where it stands. -/
def Stmt.isFunction : Stmt → Bool
  | .prototype .. | .define .. => true
  | _ => false

/-- The pieces are the code of a part, made from the first state to the second. -/
inductive Outline (iface : Interface) :
    Option Targets → Part → State → List Piece → State → Prop
  | nil {targets s} : Outline iface targets (.all []) s [] s
  | cons {targets x rest s first s₁ others s'} (one : Outline iface targets (.one x) s first s₁)
      (all : Outline iface targets (.all rest) s₁ others s') :
      Outline iface targets (.all (x :: rest)) s (.begins x :: first ++ others) s'
  | act {targets x action s lines s'} (is : Stmt.action? x = some action)
      (made : Done (action.emit iface) s lines s') :
      Outline iface targets (.one x) s [.act action lines] s'
  | function {targets x s} (is : Stmt.isFunction x = true) : Outline iface targets (.one x) s [] s
  | block {targets braces body s inner s'}
      (inside : Outline iface targets (.all body) (openScope s).2 inner s') :
      Outline iface targets (.one (.block braces body)) s inner (closeScope s').2
  | ifThen {targets cond braces body s lines s₁ inner s₂}
      (tested : testLines iface cond s.fresh = (lines, s₁))
      (inside : Outline iface targets (.all body) (openScope s₁).2 inner s₂) :
      Outline iface targets (.one (.ifThen cond braces body)) s
        (condition cond lines (.numbered s.labels) ++ inner ++
          [.line (.label (.numbered s.labels))]) (closeScope s₂).2
  | ifElse {targets cond braces body elseBraces elseBody s lines s₁ inner s₂ other s₃}
      (tested : testLines iface cond s.fresh = (lines, s₁))
      (inside : Outline iface targets (.all body) (openScope s₁).2 inner s₂)
      (otherwise : Outline iface targets (.all elseBody) (openScope (closeScope s₂).2.fresh).2
        other s₃) :
      Outline iface targets (.one (.ifElse cond braces body elseBraces elseBody)) s
        (condition cond lines (.numbered s.labels) ++ inner ++
          [.line (.instr (.jmp (.numbered s₂.labels))), .line (.label (.numbered s.labels))] ++
          other ++ [.line (.label (.numbered s₂.labels))]) (closeScope s₃).2
  | whileLoop {targets cond braces body s lines s₁ inner s₂}
      (tested : testLines iface cond s.fresh.fresh = (lines, s₁))
      (inside : Outline iface (some ⟨.numbered s.labels, .numbered (s.labels + 1)⟩) (.all body)
        (openScope s₁).2 inner s₂) :
      Outline iface targets (.one (.whileLoop cond braces body)) s
        (.line (.label (.numbered s.labels)) ::
          condition cond lines (.numbered (s.labels + 1)) ++ inner ++
          [.line (.instr (.jmp (.numbered s.labels))),
            .line (.label (.numbered (s.labels + 1)))]) (closeScope s₂).2
  | forLoop {targets init cond update braces body s before s₁ lines s₂ inner s₃ again s₄}
      (starts : Outline iface targets (.all init.toList) (openScope s).2 before s₁)
      (tested : testLines iface cond s₁.fresh.fresh.fresh = (lines, s₂))
      (inside : Outline iface (some ⟨.numbered (s₁.labels + 1), .numbered (s₁.labels + 2)⟩)
        (.all body) (openScope s₂).2 inner s₃)
      (updates : Outline iface targets (.all update.toList) (closeScope s₃).2 again s₄) :
      Outline iface targets (.one (.forLoop init cond update braces body)) s
        (before ++ .line (.label (.numbered s₁.labels)) ::
          condition cond lines (.numbered (s₁.labels + 2)) ++ inner ++
          .line (.label (.numbered (s₁.labels + 1))) :: again ++
          [.line (.instr (.jmp (.numbered s₁.labels))),
            .line (.label (.numbered (s₁.labels + 2)))]) (closeScope s₄).2
  | breakLoop {targets site s} : Outline iface targets (.one (.breakLoop site)) s
      (targets.map fun t => Piece.line (.instr (.jmp t.stop))).toList s
  | continueLoop {targets site s} : Outline iface targets (.one (.continueLoop site)) s
      (targets.map fun t => Piece.line (.instr (.jmp t.next))).toList s
  | returnValue {targets site value s lines s'}
      (made : Done (Action.emit iface (.finish value)) s lines s') :
      Outline iface targets (.one (.returnValue site value)) s
        [.act (.finish value) lines, .line (.instr (.jmp .exit))] s'

/-- There is an outline, and the lines are its lines. -/
def Outlined (iface : Interface) (targets : Option Targets) (part : Part) (s : State)
    (lines : List Line) (s' : State) : Prop :=
  ∃ pieces, Outline iface targets part s pieces s' ∧ linesOf pieces = lines

variable {s s' : State} {targets : Option Targets}

theorem outlined_action {x : Stmt} {action : Action} {lines : List Line}
    (is : Stmt.action? x = some action) (made : Done (action.emit iface) s lines s') :
    Outlined iface targets (.one x) s lines s' :=
  ⟨_, .act is made, List.append_nil _⟩

theorem done_of_eq {α : Type} {action : Emit α} {a : α} (ends : action s = (a, s')) :
    Done (liftM action) s a s' :=
  congrArg (Prod.map Except.ok id) ends

theorem freshTarget_eq (s : State) : freshTarget s = (.numbered s.labels, s.fresh) := rfl

/-- A condition and its jump. -/
theorem jumpUnless_cases (iface : Interface) (cond : Expr) (target : Target) (s : State) :
    ∃ tests tested, testLines iface cond s = (tests, tested) ∧
      jumpUnless iface cond target s = (tests ++ [.instr (.je target)], tested) :=
  ⟨_, _, (Prod.eta _).symm, jumpUnless_eq cond target s⟩

mutual

/-- The code of a statement has an outline. -/
theorem outline_stmt : (x : Stmt) → ∀ {targets s lines s'},
    Done (stmt iface targets x) s lines s' → Outlined iface targets (.one x) s lines s'
  | .declare site d, targets, s, lines, s', done => by
      rw [stmt] at done
      exact outlined_action rfl done
  | .prototype .., targets, s, lines, s', done => by
      rw [stmt] at done
      obtain ⟨rfl, rfl⟩ := done_pure done
      exact ⟨[], .function rfl, rfl⟩
  | .define .., targets, s, lines, s', done => by
      rw [stmt] at done
      obtain ⟨rfl, rfl⟩ := done_pure done
      exact ⟨[], .function rfl, rfl⟩
  | .assign site target index value, targets, s, lines, s', done => by
      rw [stmt] at done
      exact outlined_action rfl done
  | .call site callee args, targets, s, lines, s', done => by
      rw [stmt] at done
      exact outlined_action rfl done
  | .block braces body, targets, s, lines, s', done => by
      rw [stmt] at done
      obtain ⟨filled, fills, rfl⟩ := done_inScope done
      obtain ⟨inner, inside, rfl⟩ := outline_stmts body fills
      exact ⟨inner, .block inside, rfl⟩
  | .ifThen cond braces body, targets, s, lines, s', done => by
      obtain ⟨_, bodied, rfl⟩ := done_ifThen done
      obtain ⟨tests, s₁, compared, jumps⟩ := jumpUnless_cases iface cond _ _
      rw [jumps] at bodied ⊢
      obtain ⟨s₂, fills, rfl⟩ := done_inScope bodied
      obtain ⟨inner, inside, rfl⟩ := outline_stmts body fills
      exact ⟨_, .ifThen compared inside, by simp [freshTarget_eq, condition, Piece.lines]⟩
  | .ifElse cond braces body elseBraces elseBody, targets, s, lines, s', done => by
      obtain ⟨_, _, _, bodied, bodied', rfl⟩ := done_ifElse done
      obtain ⟨tests, s₁, compared, jumps⟩ := jumpUnless_cases iface cond _ _
      rw [jumps] at bodied ⊢
      obtain ⟨s₂, fills, rfl⟩ := done_inScope bodied
      obtain ⟨s₃, fills', rfl⟩ := done_inScope bodied'
      obtain ⟨inner, inside, rfl⟩ := outline_stmts body fills
      obtain ⟨other, otherwise, rfl⟩ := outline_stmts elseBody fills'
      exact ⟨_, .ifElse compared inside otherwise, by simp [freshTarget_eq, condition, Piece.lines]⟩
  | .whileLoop cond braces body, targets, s, lines, s', done => by
      obtain ⟨_, bodied, rfl⟩ := done_whileLoop done
      obtain ⟨tests, s₁, compared, jumps⟩ := jumpUnless_cases iface cond _ _
      rw [jumps] at bodied ⊢
      obtain ⟨s₂, fills, rfl⟩ := done_inScope bodied
      obtain ⟨inner, inside, rfl⟩ := outline_stmts body fills
      exact ⟨_, .whileLoop compared inside, by simp [freshTarget_eq, condition, Piece.lines]⟩
  | .forLoop init cond update braces body, targets, s, lines, s', done => by
      obtain ⟨_, s₁, started, _, _, _, s₄, bodied, updated, rfl, rfl⟩ := done_forLoop done
      obtain ⟨tests, s₂, compared, jumps⟩ := jumpUnless_cases iface cond _ _
      rw [jumps] at bodied ⊢
      obtain ⟨s₃, fills, rfl⟩ := done_inScope bodied
      obtain ⟨before, starts, rfl⟩ := outline_header init started
      obtain ⟨inner, inside, rfl⟩ := outline_stmts body fills
      obtain ⟨again, updates, rfl⟩ := outline_header update updated
      exact ⟨_, .forLoop starts compared inside updates,
        by simp [freshTarget_eq, condition, Piece.lines]⟩
  | .breakLoop site, targets, s, lines, s', done => by
      rw [stmt] at done
      obtain ⟨rfl, rfl⟩ := done_pure done
      exact ⟨_, .breakLoop, by cases targets <;> rfl⟩
  | .continueLoop site, targets, s, lines, s', done => by
      rw [stmt] at done
      obtain ⟨rfl, rfl⟩ := done_pure done
      exact ⟨_, .continueLoop, by cases targets <;> rfl⟩
  | .returnValue site value, targets, s, lines, s', done => by
      rw [stmt] at done
      have made := done_lift done
      rw [returnStmt_eq] at made
      obtain ⟨rfl, rfl⟩ := Prod.mk.inj made
      exact ⟨_, .returnValue rfl, rfl⟩

theorem outline_header : (part : Option Stmt) → ∀ {targets s lines s'},
    Done (header iface targets part) s lines s' →
      Outlined iface targets (.all part.toList) s lines s'
  | none, targets, s, lines, s', done => by
      rw [header] at done
      obtain ⟨rfl, rfl⟩ := done_pure done
      exact ⟨[], .nil, rfl⟩
  | some x, targets, s, lines, s', done => by
      rw [header] at done
      obtain ⟨pieces, one, rfl⟩ := outline_stmt x done
      exact ⟨_, .cons one .nil, by simp [Piece.lines]⟩

/-- The code of statements has an outline. -/
theorem outline_stmts : (body : List Stmt) → ∀ {targets s lines s'},
    Done (stmts iface targets body) s lines s' → Outlined iface targets (.all body) s lines s'
  | [], targets, s, lines, s', done => by
      rw [stmts] at done
      obtain ⟨rfl, rfl⟩ := done_pure done
      exact ⟨[], .nil, rfl⟩
  | x :: rest, targets, s, lines, s', done => by
      obtain ⟨_, _, _, made, made', rfl⟩ := done_stmts_cons done
      obtain ⟨first, one, rfl⟩ := outline_stmt x made
      obtain ⟨others, all, rfl⟩ := outline_stmts rest made'
      exact ⟨_, .cons one all, by simp [Piece.lines]⟩

end

/-! ### The code of actions -/

theorem call_eq (name : String) (args : List Expr) (s : State) :
    call iface name args s =
      let a := exprArgs iface (iface.params name) args (callee iface name s).2
      ((a.1.1 ++ code (callCode name a.1.2),
        Convention.domain? (iface.conventions.get? name)), a.2) := rfl

theorem callStmt_eq (name : String) (args : List Expr) (s : State) :
    callStmt iface name args s =
      let c := call iface name args s
      (c.1.1 ++ code (c.1.2.elim [] dropValue), c.2) := rfl

theorem assignment_eq (target : String) (index : Option Expr) (value : Expr) (s : State) :
    assignment iface target index value s = match s.env.stack.lookup target, index with
      | some slot, none =>
          let v := expr iface value s
          (v.1.1 ++ code (storeSlot v.1.2 slot false), v.2)
      | some slot, some index =>
          let i := expr iface index s
          let v := expr iface value i.2
          (i.1.1 ++ code (convert i.1.2 .int ++ [.push .eax]) ++ v.1.1 ++
            code (.pop .ecx :: storeSlot v.1.2 slot true), v.2)
      | none, _ =>
          let v := expr iface value (noStorage target s).2
          (v.1.1 ++ code (dropValue v.1.2), v.2) := by
  change (match s.env.stack.lookup target, index with
    | some slot, none => do
        let (lines, d) ← expr iface value
        return lines ++ code (storeSlot d slot false)
    | some slot, some index => do
        let (indexLines, i) ← expr iface index
        let (lines, d) ← expr iface value
        return indexLines ++ code (convert i .int ++ [.push .eax]) ++ lines ++
          code (.pop .ecx :: storeSlot d slot true)
    | none, _ => do
        noStorage target
        let (lines, d) ← expr iface value
        return lines ++ code (dropValue d) : Emit (List Line)) s = _
  cases s.env.stack.lookup target with
  | none => rfl
  | some slot => cases index <;> rfl

/-- The code of a declaration stores the initial value. -/
theorem done_declaration_lines {d : Declaration} {lines : List Line}
    (done : Done (declaration iface d) s lines s') :
    d.init = none ∧ lines = [] ∨ ∃ init slot, d.init = some init ∧
      lines = (expr iface init s).1.1 ++ code (storeSlot (expr iface init s).1.2 slot false) := by
  obtain ⟨slot, middle, -, -, rfl⟩ := done_declaration_made done
  cases init : d.init with
  | none => exact .inl ⟨rfl, rfl⟩
  | some e => exact .inr ⟨e, slot, rfl, rfl⟩

/-- The type that a unit returns; the top-level code returns an `int`. -/
def State.result (s : State) : Ty := (s.frame.map (·.result)).getD .int

theorem State.Grows.result (grows : s.Grows s') : s'.result = s.result := by
  rw [State.result, grows.frame, State.result]

/-- Storage takes no jump targets. -/
theorem done_declaration_state {d : Declaration} {lines : List Line}
    (done : Done (declaration iface d) s lines s') :
    s'.labels = (s.afterInit iface d).labels ∧ s'.result = s.result := by
  obtain ⟨slot, middle, allocated, rfl⟩ := done_declaration_allocates done
  have same : (s.afterInit iface d).result = s.result := (grows_afterInit s d).result
  rcases done_allocate_cases allocated with ⟨f, size, offset, framed, -, -, rfl⟩ | ⟨-, -, rfl⟩
  · refine ⟨rfl, Eq.trans ?_ same⟩
    rw [State.result, State.result, framed]
    rfl
  · exact ⟨rfl, same⟩

theorem resultLines_eq (value : Option Expr) (s : State) :
    resultLines iface value s = match value with
      | some e =>
          let v := expr iface e s
          (v.1.1 ++ code (if s.result = .void then dropValue v.1.2 else convert v.1.2 s.result),
            v.2)
      | none => (code (if s.result = .void then [] else defaultValue s.result), s) := by
  cases value <;> rfl

/-! ### Jump targets -/

/-- The jump targets that lines place. -/
def placed (lines : List Line) : List Target := lines.filterMap fun
  | .label t => some t
  | .instr _ => none

@[simp] theorem placed_nil : placed [] = [] := rfl

@[simp] theorem placed_label (t : Target) (rest : List Line) :
    placed (.label t :: rest) = t :: placed rest := rfl

@[simp] theorem placed_instr (i : Instr) (rest : List Line) :
    placed (.instr i :: rest) = placed rest := rfl

@[simp] theorem placed_append (first second : List Line) :
    placed (first ++ second) = placed first ++ placed second := List.filterMap_append

@[simp] theorem placed_code (instrs : List Instr) : placed (code instrs) = [] := by
  induction instrs with
  | nil => rfl
  | cons i rest ih => exact ih

/-- How often the target is among those from `a` up to `b`. -/
def Target.within (a b : Nat) : Target → Nat
  | numbered n => if a ≤ n ∧ n < b then 1 else 0
  | exit => 0

theorem Target.within_self (a : Nat) (t : Target) : t.within a a = 0 := by
  cases t with
  | numbered n => exact if_neg (by omega)
  | exit => rfl

theorem Target.within_add {a b c : Nat} (first : a ≤ b) (second : b ≤ c) (t : Target) :
    t.within a b + t.within b c = t.within a c := by
  cases t with
  | numbered n =>
      simp only [within]
      split_ifs <;> omega
  | exit => rfl

theorem count_numbered (a : Nat) (t : Target) :
    [Target.numbered a].count t = t.within a (a + 1) := by
  cases t with
  | numbered n =>
      simp only [List.count_singleton, beq_iff_eq, Target.numbered.injEq, Target.within]
      split_ifs <;> omega
  | exit => rfl

/-- The lines place the jump targets from `a` up to `b`, each of them once, and no others. -/
structure Places (a : Nat) (lines : List Line) (b : Nat) : Prop where
  le : a ≤ b
  count : ∀ t, (placed lines).count t = t.within a b

namespace Places

variable {a b c : Nat} {lines : List Line}

/-- Lines without labels. -/
theorem of_none (a : Nat) (none : placed lines = []) : Places a lines a where
  le := Nat.le_refl a
  count t := by
    rw [none, Target.within_self]
    rfl

theorem code (a : Nat) (instrs : List Instr) : Places a (code instrs) a :=
  of_none a (placed_code instrs)

theorem label (a : Nat) : Places a [.label (.numbered a)] (a + 1) where
  le := Nat.le_succ a
  count := count_numbered a

theorem append {first second : List Line} (one : Places a first b) (other : Places b second c) :
    Places a (first ++ second) c where
  le := Nat.le_trans one.le other.le
  count t := by
    rw [placed_append, List.count_append, one.count, other.count, Target.within_add one.le other.le]

theorem append_code (one : Places a lines b) (instrs : List Instr) :
    Places a (lines ++ Assembly.code instrs) b :=
  one.append (code b instrs)

/-- The order of the lines does not count. -/
theorem reorder {lines' : List Line} (places : Places a lines b)
    (same : ∀ t, (placed lines').count t = (placed lines).count t) : Places a lines' b where
  le := places.le
  count t := (same t).trans (places.count t)

theorem nodup (places : Places a lines b) : (placed lines).Nodup := by
  refine List.nodup_iff_count.mpr fun t => ?_
  rw [places.count]
  cases t with
  | numbered n =>
      simp only [Target.within]
      split <;> decide
  | exit => exact Nat.zero_le 1

/-- The end of a unit is not among the targets that are taken. -/
theorem nodup_exit (places : Places a lines b) : (placed lines ++ [Target.exit]).Nodup := by
  refine List.nodup_append.mpr ⟨places.nodup, List.pairwise_singleton _ _, ?_⟩
  rintro t mem _ is rfl
  obtain rfl := List.mem_singleton.mp is
  exact List.count_eq_zero.mp (places.count .exit) mem

end Places

theorem labels_literal (value : Literal) (s : State) : (literal value s).2.labels = s.labels := by
  cases value with
  | number text =>
      by_cases point : hasPoint text = true
      · simp only [literal, point, if_true]
        change (constant text s).2.labels = s.labels
        rw [constant_eq]
        cases s.constants.idxOf? text <;> rfl
      · simp only [literal, point]
        rfl
  | char text => rfl
  | bool value => rfl

theorem labels_readSlot (name : String) (indexed : Bool) (s : State) :
    (readSlot name indexed s).2.labels = s.labels := by
  rw [readSlot_eq]
  cases s.env.stack.lookup name <;> rfl

theorem labels_callee (name : String) (s : State) :
    (callee iface name s).2.labels = s.labels := by
  change (if _ then s else _ : State).labels = _
  split <;> rfl

/-- The only operator that takes a jump target is the remainder. -/
theorem places_binaryOp (op : BinOp) (left right : Domain) (s : State) :
    Places s.labels (binaryOp op left right s).1.1 (binaryOp op left right s).2.labels := by
  have remainder (instrs : List Instr) :
      Places s.labels (code instrs ++ remainder (.numbered s.labels)) (s.labels + 1) :=
    (Places.code _ instrs).append ((Places.label _).append_code _)
  cases op with
  | mod => cases left <;> cases right <;> first | exact .code _ _ | exact remainder _
  | _ =>
      cases left <;> cases right <;>
        first | exact .code _ _ | exact (Places.code _ _).append_code _

variable (iface)

mutual

/-- The code of an expression places the jump targets that were taken for it. -/
theorem places_expr : (e : Expr) → ∀ s : State,
    Places s.labels (expr iface e s).1.1 (expr iface e s).2.labels
  | .literal pos value, s => by
      rw [expr_literal, labels_literal]
      exact .code _ _
  | .var pos name, s => by
      rw [expr_var, labels_readSlot]
      exact .code _ _
  | .element pos array index, s => by
      rw [expr_element, labels_readSlot]
      exact (places_expr index s).append_code _
  | .unary pos op operand, s => by
      rw [expr_unary]
      exact (places_expr operand s).append_code _
  | .binary pos op left right, s => by
      rw [expr_binary]
      exact (((places_expr left s).append_code _).append (places_expr right _)).append
        (places_binaryOp op _ _ _)
  | .call pos name args, s => by
      have pushed := places_exprArgs (iface.params name.val) args (callee iface name.val s).2
      rw [labels_callee] at pushed
      rw [expr_call]
      dsimp only
      split
      · exact pushed.append_code _
      · exact (pushed.append_code _).append_code _

theorem places_exprArgs : (params : List Ty) → (args : List Expr) → ∀ s : State,
    Places s.labels (exprArgs iface params args s).1.1 (exprArgs iface params args s).2.labels
  | params, [], s => by
      rw [exprArgs_nil]
      exact .of_none _ rfl
  | params, arg :: args, s => by
      rw [exprArgs_cons]
      exact ((places_exprArgs params.tail args s).append (places_expr arg _)).append_code _

end

variable {iface}

/-- The code of an action places the jump targets that were taken for it. -/
theorem places_emit {action : Action} {lines : List Line}
    (made : Done (action.emit iface) s lines s') : Places s.labels lines s'.labels := by
  cases action with
  | test cond =>
      obtain ⟨rfl, rfl⟩ := done_action made
      exact (places_expr iface cond s).append_code _
  | declare d =>
      rw [(done_declaration_state made).1, State.afterInit]
      rcases done_declaration_lines made with ⟨init, rfl⟩ | ⟨init, slot, is, rfl⟩
      · rw [init]
        exact .of_none _ rfl
      · rw [is]
        exact (places_expr iface init s).append_code _
  | assign target index value =>
      obtain ⟨rfl, rfl⟩ := done_action made
      rw [assignment_eq]
      split
      · exact (places_expr iface value s).append_code _
      · exact (((places_expr iface _ s).append_code _).append
          (places_expr iface value _)).append_code _
      · exact (places_expr iface value (noStorage target.val s).2).append_code _
  | call name args =>
      obtain ⟨rfl, rfl⟩ := done_action made
      have pushed := places_exprArgs iface (iface.params name.val) args (callee iface name.val s).2
      rw [labels_callee] at pushed
      rw [callStmt_eq, call_eq]
      exact (pushed.append_code _).append_code _
  | finish value =>
      obtain ⟨rfl, rfl⟩ := done_action made
      rw [resultLines_eq]
      cases value with
      | some e => exact (places_expr iface e s).append_code _
      | none => exact .code _ _

theorem result_emit {action : Action} {lines : List Line}
    (made : Done (action.emit iface) s lines s') : s'.result = s.result := by
  cases action with
  | declare d => exact (done_declaration_state made).2
  | test cond =>
      obtain ⟨-, rfl⟩ := done_action made
      exact (growing_expr iface cond s).result
  | assign target index value =>
      obtain ⟨-, rfl⟩ := done_action made
      exact (growing_assignment target.val index value s).result
  | call callee args =>
      obtain ⟨-, rfl⟩ := done_action made
      exact (growing_callStmt callee.val args s).result
  | finish value =>
      obtain ⟨-, rfl⟩ := done_action made
      rw [resultLines_eq]
      cases value with
      | some e => exact (growing_expr iface e s).result
      | none => rfl

variable {part : Part} {pieces : List Piece}

theorem result_testLines {cond : Expr} {lines : List Line}
    (made : testLines iface cond s = (lines, s')) : s'.result = s.result :=
  result_emit (show Done (Action.emit iface (.test cond)) s lines s' from done_of_eq made)

theorem places_testLines {cond : Expr} {lines : List Line}
    (made : testLines iface cond s = (lines, s')) : Places s.labels lines s'.labels :=
  places_emit (show Done (Action.emit iface (.test cond)) s lines s' from done_of_eq made)

/-- The type that a unit returns does not change on the way. -/
theorem Outline.result (outline : Outline iface targets part s pieces s') :
    s'.result = s.result := by
  induction outline with
  | nil | function _ | breakLoop | continueLoop => rfl
  | cons _ _ one all => exact all.trans one
  | act _ made => exact result_emit made
  | block _ inside => exact inside
  | ifThen made _ inside =>
      have same := result_testLines made
      exact inside.trans same
  | ifElse made _ _ inside otherwise =>
      have same := result_testLines made
      exact otherwise.trans (inside.trans same)
  | whileLoop made _ inside =>
      have same := result_testLines made
      exact inside.trans same
  | forLoop _ made _ _ starts inside updates =>
      have same := result_testLines made
      exact updates.trans (inside.trans (same.trans starts))
  | returnValue made => exact result_emit made

/-- The code of a part places the jump targets that were taken for it. -/
theorem Outline.places (outline : Outline iface targets part s pieces s') :
    Places s.labels (linesOf pieces) s'.labels := by
  induction outline with
  | nil | function _ => exact .of_none _ rfl
  | @breakLoop targets | @continueLoop targets =>
      refine .of_none _ ?_
      cases targets <;> rfl
  | cons _ _ one all =>
      rw [List.cons_append, linesOf_cons, linesOf_append]
      exact one.append all
  | act _ made =>
      rw [linesOf_cons, linesOf_nil, List.append_nil]
      exact places_emit made
  | block _ inside => exact inside
  -- A label is taken before the condition or the body that it is placed after.
  | @ifThen _ _ _ _ s _ _ _ _ made _ inside =>
      refine ((Places.label s.labels).append
        ((places_testLines made).append inside)).reorder fun t => ?_
      simp only [condition, linesOf_append, linesOf_cons, linesOf_nil, Piece.lines, placed_append,
        placed_label, placed_instr, placed_nil, List.count_append, List.count_nil]
      omega
  | @ifElse _ _ _ _ _ _ s _ _ _ s₂ _ _ made _ _ inside otherwise =>
      refine ((Places.label s.labels).append ((places_testLines made).append (inside.append
        ((Places.label s₂.labels).append otherwise)))).reorder fun t => ?_
      simp only [condition, linesOf_append, linesOf_cons, linesOf_nil, Piece.lines, placed_append,
        placed_label, placed_instr, placed_nil, List.count_append, List.count_nil]
      omega
  | @whileLoop _ _ _ _ s _ _ _ _ made _ inside =>
      refine ((Places.label s.labels).append ((Places.label (s.labels + 1)).append
        ((places_testLines made).append inside))).reorder fun t => ?_
      simp only [condition, linesOf_append, linesOf_cons, linesOf_nil, Piece.lines, placed_append,
        placed_label, placed_instr, placed_nil, List.count_append, List.count_nil]
      omega
  | @forLoop _ _ _ _ _ _ _ _ s₁ _ _ _ _ _ _ _ made _ _ starts inside updates =>
      refine (starts.append ((Places.label s₁.labels).append ((Places.label (s₁.labels + 1)).append
        ((Places.label (s₁.labels + 2)).append ((places_testLines made).append
          (inside.append updates)))))).reorder fun t => ?_
      simp only [condition, linesOf_append, linesOf_cons, linesOf_nil, Piece.lines, placed_append,
        placed_label, placed_instr, placed_nil, List.count_append, List.count_nil]
      omega
  | returnValue made => exact (places_emit made).reorder fun t => by simp [Piece.lines]

/-! ### Units -/

/-- The functions that are defined at top level, in their order. -/
def definitions : List Stmt → List (Heading × List Stmt)
  | [] => []
  | .define heading _ body :: rest => (heading, body) :: definitions rest
  | _ :: rest => definitions rest

theorem definitions_cons (x : Stmt) (rest : List Stmt) :
    definitions (x :: rest) = definitions [x] ++ definitions rest := by
  cases x <;> rfl

/-- The outline of a function with `size` bytes of local variables. -/
def RoutineOutline (iface : Interface) (h : Heading) (body : List Stmt) (size : Nat)
    (pieces : List Piece) : Prop :=
  ∃ s inner s', Outline iface none (.all body) (enterRoutine h s).2 inner s' ∧
    pieces = plain (code (prologue size)) ++ inner ++
      plain (code (defaultValue (typeOf h.result.val)) ++ epilogue)

theorem result_declareParams (params : List Param) (offset : Nat) (s : State) :
    (declareParams offset params s).2.result = s.result := by
  induction params generalizing offset s with
  | nil => rfl
  | cons p rest ih =>
      rw [declareParams_cons, ih]
      cases p.name <;> rfl

/-- A function returns the type in its heading. -/
theorem result_enterRoutine (h : Heading) (s : State) :
    (enterRoutine h s).2.result = typeOf h.result.val :=
  result_declareParams h.params firstArgument _

/-- The outline of the top-level code. -/
def StartOutline (iface : Interface) (body : List Stmt) (pieces : List Piece) : Prop :=
  ∃ inner s', Outline iface none (.all body) (openScope {}).2 inner s' ∧
    pieces = inner ++ plain (finish iface s').1

/-- The code of a function is that of its body, between what every function starts and ends with. -/
theorem done_routine_made {h : Heading} {body : List Stmt} {r : Routine}
    (done : Done (routine iface h body) s r s') :
    ∃ size inner filled event, Outline iface none (.all body) (enterRoutine h s).2 inner filled ∧
      r = ⟨h.name.val, code (prologue size) ++ linesOf inner ++
        code (defaultValue (typeOf h.result.val)) ++ epilogue⟩ ∧
      s' = (note event { (closeScope filled).2 with frame := none }).2 := by
  obtain ⟨lines, filled, event, made, rfl, rfl⟩ := done_routine_ends done
  obtain ⟨inner, inside, rfl⟩ := outline_stmts body made
  exact ⟨_, inner, filled, event, inside, rfl, rfl⟩

theorem outline_routine {h : Heading} {body : List Stmt} {r : Routine}
    (done : Done (routine iface h body) s r s') :
    r.name = h.name.val ∧
      ∃ size pieces, RoutineOutline iface h body size pieces ∧ linesOf pieces = r.lines := by
  obtain ⟨size, inner, filled, event, inside, rfl, -⟩ := done_routine_made done
  refine ⟨rfl, size, _, ⟨s, inner, filled, inside, rfl⟩, ?_⟩
  simp only [linesOf_append, linesOf_plain, List.append_assoc]

theorem outline_routines (body : List Stmt) {rs : List Routine} {s : State}
    (done : Done (routines iface body) s rs s') :
    List.Forall₂ (fun d r => r.name = d.1.name.val ∧
      ∃ size pieces, RoutineOutline iface d.1 d.2 size pieces ∧ linesOf pieces = r.lines)
      (definitions body) rs := by
  induction body generalizing s rs with
  | nil =>
      rw [routines] at done
      obtain ⟨rfl, -⟩ := done_pure done
      exact .nil
  | cons x rest ih =>
      obtain ⟨h, braces, body, r, _, others, rfl, made, made', rfl⟩ | ⟨other, skips⟩ :=
        done_routines_cons done
      · exact .cons (outline_routine made) (ih made')
      · rw [definitions]
        · exact ih skips
        · exact other

/-- The top-level code of a program has an outline, and its functions are made after that. -/
theorem done_listing_made {p : Program} {l : Listing} (assembled : p.assemble.1 = .ok l) :
    let iface := Interface.ofProgram p
    ∃ inner s s', Outline iface none (.all p.stmts) (openScope {}).2 inner s ∧
      Done (routines iface p.stmts) (finish iface s).2 l.routines s' ∧
      l.start = linesOf inner ++ (finish iface s).1 ∧
      l.externals = s'.externals.mergeSort (· ≤ ·) ∧ l.constants = s'.constants ∧
      l.reservations = s'.reservations := by
  obtain ⟨_, s, s', made, others⟩ := done_listing assembled
  obtain ⟨inner, inside, rfl⟩ := outline_stmts p.stmts made
  exact ⟨inner, s, s', inside, others⟩

/-- The units of a program that code is made for have outlines. -/
theorem outline_listing {p : Program} {l : Listing} (assembled : p.assemble.1 = .ok l) :
    let iface := Interface.ofProgram p
    (∃ pieces, StartOutline iface p.stmts pieces ∧ linesOf pieces = l.start) ∧
      List.Forall₂ (fun d r => r.name = d.1.name.val ∧
        ∃ size pieces, RoutineOutline iface d.1 d.2 size pieces ∧ linesOf pieces = r.lines)
        (definitions p.stmts) l.routines := by
  obtain ⟨inner, s, s', inside, routed, start, -⟩ := done_listing_made assembled
  refine ⟨⟨_, ⟨inner, s, inside, rfl⟩, ?_⟩, outline_routines p.stmts routed⟩
  rw [linesOf_append, linesOf_plain, start]

end BraceLang.Assembly
