import BraceLang.Proofs.Check.Passing

/-!
The loops around `break` and `continue`. Checking counts the loops that are open. The count goes
up and down with the loops of the tree, whatever else is found, and does not stop at functions:
where it is zero, there is no loop around.

* **`loops_checkStmt`**: a statement leaves the count as it was;
* **`inLoop_of_quiet`**: if neither a `break` nor a `continue` is reported, each of them is in a
  loop.
-/

namespace BraceLang

/-! ### Ways out of loops -/

/-- A `break` or `continue`, with the loops around it, innermost first, and the part of each that
it is in. -/
structure Exit where
  statement : Stmt
  around : List (LoopPart × Stmt)

namespace Stmt

mutual

/-- Each `break` and `continue` in a statement, those in bodies of functions included. -/
def exits (around : List (LoopPart × Stmt)) : Stmt → List Exit
  | .breakLoop site => [⟨.breakLoop site, around⟩]
  | .continueLoop site => [⟨.continueLoop site, around⟩]
  | .define _ _ body | .block _ body | .ifThen _ _ body => exitsIn around body
  | .ifElse _ _ body _ elseBody => exitsIn around body ++ exitsIn around elseBody
  | .whileLoop cond braces body => exitsIn ((.body, .whileLoop cond braces body) :: around) body
  | .forLoop init cond update braces body =>
      exitsBy around init ++
        (exitsIn ((.body, .forLoop init cond update braces body) :: around) body ++
          exitsBy ((.update, .forLoop init cond update braces body) :: around) update)
  | .declare .. | .prototype .. | .assign .. | .call .. | .returnValue .. => []

/-- Each `break` and `continue` in a part of a `for` header. -/
def exitsBy (around : List (LoopPart × Stmt)) : Option Stmt → List Exit
  | none => []
  | some x => x.exits around

def exitsIn (around : List (LoopPart × Stmt)) : List Stmt → List Exit
  | [] => []
  | x :: rest => x.exits around ++ exitsIn around rest

end

mutual

/-- What is around a statement is around all that is in it. -/
theorem around_exits {around : List (LoopPart × Stmt)} : (x : Stmt) →
    ∀ e ∈ x.exits around, around <:+ e.around
  | .breakLoop _ | .continueLoop _ => List.forall_mem_singleton.mpr List.suffix_rfl
  | .define _ _ body | .block _ body | .ifThen _ _ body => around_exitsIn body
  | .ifElse _ _ body _ elseBody =>
      List.forall_mem_append.mpr ⟨around_exitsIn body, around_exitsIn elseBody⟩
  | .whileLoop _ _ body => fun e mem => (List.suffix_cons _ _).trans (around_exitsIn body e mem)
  | .forLoop init _ update _ body => by
      rw [exits, List.forall_mem_append, List.forall_mem_append]
      refine ⟨around_exitsBy init, fun e mem => ?_, fun e mem => ?_⟩
      · exact (List.suffix_cons _ _).trans (around_exitsIn body e mem)
      · exact (List.suffix_cons _ _).trans (around_exitsBy update e mem)
  | .declare .. | .prototype .. | .assign .. | .call .. | .returnValue .. => nofun

theorem around_exitsBy {around : List (LoopPart × Stmt)} : (part : Option Stmt) →
    ∀ e ∈ exitsBy around part, around <:+ e.around
  | none => nofun
  | some x => around_exits x

theorem around_exitsIn {around : List (LoopPart × Stmt)} : (body : List Stmt) →
    ∀ e ∈ exitsIn around body, around <:+ e.around
  | [] => nofun
  | x :: rest => List.forall_mem_append.mpr ⟨around_exits x, around_exitsIn rest⟩

end

end Stmt

namespace Check

/-! ### The loop count -/

theorem State.Aside.loops {c c' : State} (aside : c.Aside true c') : c'.loops = c.loops :=
  congrArg Prod.fst (aside.place rfl)

theorem Passes.loops {c c' : State} {ds : List Deed} (passes : Passes true c ds c') :
    c'.loops = c.loops := congrArg Prod.fst passes.place

@[simp] theorem loops_visit (tokens : Nat) (c : State) : (visit tokens c).2.loops = c.loops := rfl

@[simp] theorem loops_visited (tokens : Nat) (c : State) : (c.visited tokens).loops = c.loops :=
  rfl

@[simp] theorem loops_openScope (c : State) : (openScope c).2.loops = c.loops := rfl

@[simp] theorem loops_closeScope (c : State) : (closeScope c).2.loops = c.loops :=
  congrArg Prod.fst (Deed.closes.run_spec c).2.2

@[simp] theorem loops_inferExpr (e : Expr) (c : State) : (inferExpr e c).2.loops = c.loops :=
  Passes.loops (does_inferExpr e c)

@[simp] theorem loops_inferArgs (args : List Expr) (c : State) :
    (inferArgs args c).2.loops = c.loops := Passes.loops (does_inferArgs args c)

@[simp] theorem loops_checkIndex (pos : Position) (found : Option Ty) (c : State) :
    (checkIndex pos found c).2.loops = c.loops := State.Aside.loops (minds_checkIndex pos found c)

@[simp] theorem loops_checkCall (callee : Located String) (args : List (Position × Option Ty))
    (isValue : Bool) (c : State) : (checkCall callee args isValue c).2.loops = c.loops :=
  Passes.loops (does_checkCall callee args isValue c)

@[simp] theorem loops_checkTarget (target : Located String) (isElement : Bool)
    (valuePos : Position) (found : Option Ty) (c : State) :
    (checkTarget target isElement valuePos found c).2.loops = c.loops :=
  Passes.loops (does_checkTarget target isElement valuePos found c)

@[simp] theorem loops_checkHeading (h : Heading) (defining : Bool) (c : State) :
    (checkHeading h defining c).2.loops = c.loops := Passes.loops (does_checkHeading h defining c)

@[simp] theorem loops_enterBody (h : Heading) (braces : Braces)
    (found : Option Ty × List (Option Ty)) (c : State) :
    (enterBody h braces found c).2.loops = c.loops :=
  (passes_declareParams h.params found.2 _).loops

@[simp] theorem loops_checkReturned (name : Located String) (context : Option Context)
    (c : State) : (checkReturned name context c).2.loops = c.loops :=
  State.Aside.loops (minds_checkReturned name context c)

@[simp] theorem loops_openBraces (braces : Braces) (c : State) :
    (openBraces braces c).2.loops = c.loops := rfl

@[simp] theorem loops_closeBraces (braces : Braces) (c : State) :
    (closeBraces braces c).2.loops = c.loops := State.Aside.loops (minds_closeBraces braces c)

@[simp] theorem loops_checkTerminator (x : Stmt) (c : State) :
    (checkTerminator x c).2.loops = c.loops := State.Aside.loops (minds_checkTerminator x c)

/-- An assignment and a `return` change where the checker stands, but not the loops. -/
theorem loops_checkAssign (target : Located String) (index : Option Expr) (value : Expr)
    (c : State) : (checkAssign target index value c).2.loops = c.loops := by
  cases index with
  | none => simp [checkAssign_none, visitAssign]
  | some index => simp [checkAssign_some, visitAssign]

theorem loops_checkReturn (pos : Position) (value : Option Expr) (c : State) :
    (checkReturn pos value c).2.loops = c.loops := by
  have results (found : Option (Position × Option Ty)) (c : State) :
      (checkResult pos found c).2.loops = c.loops := by
    unfold checkResult
    rw [get_bind]
    cases c.function with
    | none => rfl
    | some context =>
        let marked : State := { c with function := some { context with returned := true } }
        have said : (complainOf (returnFault? context pos found) marked).2.loops = marked.loops :=
          State.Aside.loops (minds_complainOf (plain_returnFault? context pos found) marked)
        exact said
  cases value with
  | none => simp [checkReturn_none, results]
  | some e => simp [checkReturn_some, results]

@[simp] theorem loops_enterLoop (c : State) : (enterLoop c).2.loops = c.loops + 1 := rfl

@[simp] theorem loops_leaveLoop (c : State) : (leaveLoop c).2.loops = c.loops - 1 := rfl

mutual

/-- A statement leaves the loop count as it was. -/
theorem loops_checkStmt : (x : Stmt) → (c : State) → (checkStmt x c).2.loops = c.loops
  | .declare _ d, c => Passes.loops (does_checkDeclaration d c)
  | .prototype _ h, c => by rw [checkStmt_prototype, loops_checkHeading]
  | .define h braces body, c => by
      simp [checkStmt_define, checkBody_eq, loops_checkStmts body]
  | .assign _ target index value, c => loops_checkAssign target index value c
  | .call _ callee args, c => by simp [checkStmt_call]
  | .block braces body, c => by
      rw [checkStmt]
      simp [inBlock_eq, loops_checkStmts body]
  | .ifThen cond braces body, c => by simp [checkStmt_ifThen, inBlock_eq, loops_checkStmts body]
  | .ifElse cond braces body elseBraces elseBody, c => by
      simp [checkStmt_ifElse, inBlock_eq, loops_checkStmts body, loops_checkStmts elseBody]
  | .whileLoop cond braces body, c => by
      simp [checkStmt_whileLoop, inBlock_eq, loops_checkStmts body]
  | .forLoop init cond update braces body, c => by
      simp [checkStmt_forLoop, inBlock_eq, loops_checkStmts body, loops_checkHeader init,
        loops_checkHeader update]
  | .breakLoop site, c => State.Aside.loops (minds_checkInLoop rfl site.pos c)
  | .continueLoop site, c => State.Aside.loops (minds_checkInLoop rfl site.pos c)
  | .returnValue _ value, c => loops_checkReturn _ value c

theorem loops_checkHeader : (part : Option Stmt) → (c : State) →
    (checkHeader part c).2.loops = c.loops
  | none, _ => by
      rw [checkHeader]
      rfl
  | some x, c => by
      rw [checkHeader]
      exact loops_checkStmt x c

theorem loops_checkStmts : (body : List Stmt) → (c : State) →
    (checkStmts body c).2.loops = c.loops
  | [], _ => by
      rw [checkStmts]
      rfl
  | x :: rest, c => by simp [checkStmts_cons, loops_checkStmts rest, loops_checkStmt x]

end

/-! ### What is not reported -/

/-- No `break` and no `continue` has been reported as outside of loops. -/
def State.Quiet (c : State) : Prop := ∀ d ∈ c.diagnostics.entries,
  d.finding ≠ .breakOutsideLoop ∧ d.finding ≠ .continueOutsideLoop

theorem State.Quiet.before {c c' : State} (quiet : c'.Quiet)
    (log : c.diagnostics.entries <+: c'.diagnostics.entries) : c.Quiet :=
  fun d mem => quiet d (log.subset mem)

/-- Outside of loops, it is reported. -/
theorem not_quiet_checkInLoop {finding : Finding} {pos : Position} {c : State}
    (outside : c.loops = 0)
    (exit : finding = .breakOutsideLoop ∨ finding = .continueOutsideLoop) :
    ¬(checkInLoop finding pos c).2.Quiet := by
  change ¬((if c.loops = 0 then complain finding pos else pure () : Check Unit)
    (visit 1 c).2).2.Quiet
  rw [if_pos outside]
  intro quiet
  obtain ⟨notBreak, notContinue⟩ := quiet ⟨.error, finding, pos⟩
    (List.mem_append_right _ (List.mem_singleton_self _))
  exact exit.elim notBreak notContinue

theorem inLoop_of_suffix {loop : LoopPart × Stmt} {around : List (LoopPart × Stmt)} {e : Exit}
    (inside : loop :: around <:+ e.around) : e.around ≠ [] := by
  intro outside
  rw [outside] at inside
  exact List.cons_ne_nil _ _ (List.suffix_nil.mp inside)

mutual

/-- Outside of loops, what a statement has in it is in loops of the statement, or is reported. -/
theorem inLoop_checkStmt : (x : Stmt) → ∀ c : State, c.loops = 0 → (checkStmt x c).2.Quiet →
    ∀ e ∈ x.exits [], e.around ≠ []
  | .breakLoop _ => fun _ outside quiet => absurd quiet (not_quiet_checkInLoop outside (.inl rfl))
  | .continueLoop _ => fun _ outside quiet =>
      absurd quiet (not_quiet_checkInLoop outside (.inr rfl))
  | .define h braces body => by
      intro c outside quiet
      rw [checkStmt_define] at quiet
      exact inLoop_checkStmts body _ (by simp [outside]) (quiet.before (log_inBody ..))
  | .block braces body => fun c outside quiet =>
      inLoop_checkStmts body _ (by simp [outside]) (quiet.before (log_inBlock ..))
  | .ifThen cond braces body => fun c outside quiet =>
      inLoop_checkStmts body _ (by simp [outside]) (quiet.before (log_inBlock ..))
  | .ifElse cond braces body elseBraces elseBody => by
      intro c outside quiet
      obtain ⟨-, bodied⟩ := log_ifElse cond braces elseBraces body elseBody c
      rw [checkStmt_ifElse] at quiet bodied
      rw [Stmt.exits, List.forall_mem_append]
      constructor
      · exact inLoop_checkStmts body _ (by simp [outside])
          ((quiet.before bodied).before (log_inBlock ..))
      · exact inLoop_checkStmts elseBody _ (by simp [outside, inBlock_eq, loops_checkStmts body])
          (quiet.before (log_inBlock ..))
  | .whileLoop cond braces body => fun _ _ _ e mem =>
      inLoop_of_suffix (Stmt.around_exitsIn body e mem)
  | .forLoop init cond update braces body => by
      intro c outside quiet
      obtain ⟨begun, -⟩ := log_forLoop cond braces body c init update
      rw [Stmt.exits, List.forall_mem_append, List.forall_mem_append]
      refine ⟨inLoop_checkHeader init _ (by simp [outside]) (quiet.before begun), fun e mem => ?_,
        fun e mem => ?_⟩
      · exact inLoop_of_suffix (Stmt.around_exitsIn body e mem)
      · exact inLoop_of_suffix (Stmt.around_exitsBy update e mem)
  | .declare .. | .prototype .. | .assign .. | .call .. | .returnValue .. => fun _ _ _ => nofun

theorem inLoop_checkHeader : (part : Option Stmt) → ∀ c : State, c.loops = 0 →
    (checkHeader part c).2.Quiet → ∀ e ∈ Stmt.exitsBy [] part, e.around ≠ []
  | none => fun _ _ _ => nofun
  | some x => by
      intro c outside quiet
      rw [checkHeader] at quiet
      exact inLoop_checkStmt x c outside quiet

theorem inLoop_checkStmts : (body : List Stmt) → ∀ c : State, c.loops = 0 →
    (checkStmts body c).2.Quiet → ∀ e ∈ Stmt.exitsIn [] body, e.around ≠ []
  | [] => fun _ _ _ => nofun
  | x :: rest => by
      intro c outside quiet
      rw [checkStmts_cons] at quiet
      have first := quiet.before (runs_checkStmts rest _).log
      rw [Stmt.exitsIn, List.forall_mem_append]
      constructor
      · exact inLoop_checkStmt x _ (by simp [outside]) first
      · exact inLoop_checkStmts rest _ (by simp [outside, loops_checkStmt]) quiet

end

end Check

/-- If checking reports no `break` and no `continue` as outside of loops, each is in a loop. -/
theorem inLoop_of_quiet {p : Program} (quiet : ∀ d ∈ p.check.diagnostics.entries,
    d.finding ≠ .breakOutsideLoop ∧ d.finding ≠ .continueOutsideLoop) :
    ∀ e ∈ Stmt.exitsIn [] p.stmts, e.around ≠ [] := by
  let checked := (Check.checkStmts p.stmts (Check.openScope (Check.visit 0 {}).2).2).2
  have swept : (Check.sweep checked.env.stack.values checked).2.Quiet := quiet
  exact Check.inLoop_checkStmts p.stmts _ rfl (swept.before (Check.calm_sweep _ checked).log)

end BraceLang
