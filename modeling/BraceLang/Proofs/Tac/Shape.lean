import BraceLang.Proofs.Trees
import BraceLang.Tac.Flow
import BraceLang.Tac.Lower

/-!
The shape of lowered code: the code of each statement, with the state that each of its parts is
lowered in, and where its labels stand.

* **`places_stmt`**: every label that lowering takes from its supply is placed exactly once, and
  no other label is placed;
* **`findLabel?_of_count`**: so a jump goes to the one place of its label.
-/

namespace BraceLang.Tac.Lower

variable {targets : Option Targets} {s : State}

/-! ### The code of each statement -/

/-- The state after some labels have been taken. -/
def State.skip (s : State) (count : Nat) : State :=
  { s with supply := { s.supply with labels := s.supply.labels + count } }

/-- A label that is taken next, or some labels later. -/
def State.label (s : State) (k : Nat) : Label := ⟨s.supply.labels + k⟩

@[simp] theorem labels_skip (s : State) (count : Nat) :
    (s.skip count).supply.labels = s.supply.labels + count := rfl

@[simp] theorem functions_skip (s : State) (count : Nat) :
    (s.skip count).functions = s.functions := rfl

@[simp] theorem labels_expr (e : Expr) (s : State) :
    (expr e s).2.supply.labels = s.supply.labels := rfl

@[simp] theorem functions_expr (e : Expr) (s : State) :
    (expr e s).2.functions = s.functions := rfl

@[simp] theorem label_eq_iff (s : State) (k : Nat) (l : Label) :
    s.label k = l ↔ s.supply.labels + k = l.id := by
  obtain ⟨id⟩ := l
  simp [State.label]

/-- The code that goes on behind a label if the condition holds, and elsewhere if not. -/
def branching (cond : List Instr × Operand) (holds fails : Label) : List Instr :=
  cond.1 ++ [.branch cond.2 holds, .goto fails, .label holds]

theorem inScope_fst (inside : Lower (List Instr)) (s : State) :
    (inScope inside s).1 = (inside (openScope s).2).1 := rfl

/-- The state after a variable has been declared. -/
def State.declared (s : State) (name type : String) : State :=
  (declareGlobal (declare name type s).1 (declare name type s).2).2

theorem declaration_none (type name : Located String) (length : Option UInt32) :
    declaration ⟨type, name, length, none⟩ s = ([], s.declared name.val type.val) := rfl

theorem declaration_some (type name : Located String) (length : Option UInt32) (init : Expr) :
    declaration ⟨type, name, length, some init⟩ s =
      let value := expr init s
      (value.1.1 ++ [.copy value.1.2 (.var (declare name.val type.val value.2).1)],
        value.2.declared name.val type.val) := rfl

theorem assignment_none (target : String) (value : Expr) :
    assignment target none value s =
      let code := expr value s
      (code.1.1 ++ [.copy code.1.2 (.var (s.resolve target))], code.2) := rfl

theorem assignment_some (target : String) (index value : Expr) :
    assignment target (some index) value s =
      let i := expr index s
      let code := expr value i.2
      (i.1.1 ++ code.1.1 ++ [.copy code.1.2 (.element (s.resolve target) i.1.2)], code.2) := rfl

theorem stmt_ifThen (cond : Expr) (braces : Braces) (body : List Stmt) :
    stmt targets (.ifThen cond braces body) s =
      let test := expr cond s
      let code := inScope (stmts targets body) (test.2.skip 2)
      (branching test.1 (test.2.label 0) (test.2.label 1) ++ code.1 ++ [.label (test.2.label 1)],
        code.2) := rfl

theorem stmt_ifElse (cond : Expr) (braces elseBraces : Braces) (body elseBody : List Stmt) :
    stmt targets (.ifElse cond braces body elseBraces elseBody) s =
      let test := expr cond s
      let code := inScope (stmts targets body) (test.2.skip 2)
      let elseCode := inScope (stmts targets elseBody) (code.2.skip 1)
      (branching test.1 (test.2.label 0) (test.2.label 1) ++ code.1 ++
        [.goto (code.2.label 0), .label (test.2.label 1)] ++ elseCode.1 ++
        [.label (code.2.label 0)], elseCode.2) := rfl

theorem stmt_whileLoop (cond : Expr) (braces : Braces) (body : List Stmt) :
    stmt targets (.whileLoop cond braces body) s =
      let test := expr cond (s.skip 3)
      let code := inScope (stmts (some ⟨s.label 0, s.label 2⟩) body) test.2
      (.label (s.label 0) :: branching test.1 (s.label 1) (s.label 2) ++ code.1 ++
        [.goto (s.label 0), .label (s.label 2)], code.2) := rfl

/-- A `for` loop from the test on. -/
def forRounds (targets : Option Targets) (cond : Expr) (update : Option Stmt)
    (body : List Stmt) : Lower (List Instr) := fun s =>
  let test := expr cond (s.skip 4)
  let code := inScope (stmts (some ⟨s.label 2, s.label 3⟩) body) test.2
  let updateCode := header targets update code.2
  (.label (s.label 0) :: branching test.1 (s.label 1) (s.label 3) ++ code.1 ++
    .label (s.label 2) :: updateCode.1 ++ [.goto (s.label 0), .label (s.label 3)], updateCode.2)

/-- The inside of a `for` loop, which is in a scope of its own. -/
def forInside (targets : Option Targets) (init : Option Stmt) (cond : Expr)
    (update : Option Stmt) (body : List Stmt) : Lower (List Instr) := fun s =>
  let initCode := header targets init s
  let rounds := forRounds targets cond update body initCode.2
  (initCode.1 ++ rounds.1, rounds.2)

theorem stmt_forLoop (init : Option Stmt) (cond : Expr) (update : Option Stmt) (braces : Braces)
    (body : List Stmt) :
    stmt targets (.forLoop init cond update braces body) s =
      inScope (forInside targets init cond update body) s := by
  refine congrArg (fun inside => inScope inside s) (funext fun s => Prod.ext ?_ rfl)
  simp only [forInside, forRounds, List.append_assoc, List.cons_append]
  rfl

theorem stmt_return (site : Site) (e : Expr) :
    stmt targets (.returnValue site (some e)) s =
      let code := expr e s
      (code.1.1 ++ [.ret (some code.1.2)], code.2) := rfl

theorem stmts_cons (first : Stmt) (rest : List Stmt) :
    stmts targets (first :: rest) s =
      let code := stmt targets first s
      let restCode := stmts targets rest code.2
      (code.1 ++ restCode.1, restCode.2) := rfl

/-- The state after the parameters of a function have been declared. -/
def State.inside (s : State) (heading : Heading) : State :=
  { (params heading.params (openScope s).2).2 with inFunction := true }

theorem stmt_define (heading : Heading) (braces : Braces) (body : List Stmt) :
    stmt targets (.define heading braces body) s =
      let code := stmts targets body (s.inside heading)
      ([], { (closeScope code.2).2 with
        inFunction := false
        functions := code.2.functions ++
          .function heading.name.val (params heading.params (openScope s).2).1 :: code.1 }) := rfl

/-! ### Labels -/

/-- How often a number lies between two bounds: once or never. -/
def within (a b n : Nat) : Nat := if a ≤ n ∧ n < b then 1 else 0

theorem within_le (a b n : Nat) : within a b n ≤ 1 := by
  unfold within
  split <;> omega

@[simp] theorem within_self (a n : Nat) : within a a n = 0 := if_neg (by omega)

theorem within_append {a b c : Nat} (first : a ≤ b) (second : b ≤ c) (n : Nat) :
    within a b n + within b c n = within a c n := by
  unfold within
  split <;> split <;> split <;> omega

theorem within_succ (a k n : Nat) :
    within a (a + (k + 1)) n = within a (a + k) n + if a + k = n then 1 else 0 := by
  unfold within
  split <;> split <;> split <;> omega

/-- The labels taken between two states stand once each in the code or in that of functions set
aside, and no other label was added. -/
structure Places (code : List Instr) (s s' : State) : Prop where
  le : s.supply.labels ≤ s'.supply.labels
  count : ∀ l, code.count (.label l) + s'.functions.count (.label l) =
    s.functions.count (.label l) + within s.supply.labels s'.supply.labels l.id

mutual

theorem count_lowerExpr (resolve : String → String) (l : Label) :
    ∀ (next : Nat) (e : Expr), (lowerExpr resolve next e).instrs.count (.label l) = 0
  | _, .literal .. | _, .var .. => rfl
  | next, .element _ _ index => count_lowerExpr resolve l next index
  | next, .unary _ _ operand => by
      simp [lowerExpr, List.count_append, count_lowerExpr resolve l next operand]
  | next, .binary _ _ left right => by
      simp [lowerExpr, List.count_append, count_lowerExpr resolve l next left,
        count_lowerExpr resolve l _ right]
  | next, .call _ _ args => by
      simp [lowerExpr, ArgsCode.call, List.count_append, count_lowerArgs resolve l next args]

theorem count_lowerArgs (resolve : String → String) (l : Label) :
    ∀ (next : Nat) (args : List Expr), (lowerArgs resolve next args).instrs.count (.label l) = 0
  | _, [] => rfl
  | next, arg :: args => by
      simp [lowerArgs, List.count_append, count_lowerExpr resolve l next arg,
        count_lowerArgs resolve l _ args]

end

@[simp] theorem count_expr (e : Expr) (s : State) (l : Label) :
    (expr e s).1.1.count (.label l) = 0 := count_lowerExpr ..

/-- Code without labels, lowered without taking any. -/
theorem Places.of_none {code : List Instr} {s s' : State}
    (labels : s'.supply.labels = s.supply.labels) (functions : s'.functions = s.functions)
    (none : ∀ l, code.count (.label l) = 0) : Places code s s' := by
  constructor
  · exact Nat.le_of_eq labels.symm
  · intro l
    simp only [none, functions, labels, within_self, Nat.zero_add, Nat.add_zero]

namespace Places

variable {code code' : List Instr} {s s₁ s' : State}

theorem append (one : Places code s s₁) (other : Places code' s₁ s') :
    Places (code ++ code') s s' where
  le := Nat.le_trans one.le other.le
  count l := by
    have first := one.count l
    have second := other.count l
    have all := within_append one.le other.le l.id
    rw [List.count_append]
    omega

/-- Only the number of times that a label is placed matters. -/
theorem reorder (places : Places code s s')
    (same : ∀ l, code'.count (.label l) = code.count (.label l)) : Places code' s s' where
  le := places.le
  count l := by rw [same]; exact places.count l

/-- Some labels, placed as soon as they are taken. -/
theorem take (s : State) (k : Nat) :
    Places ((List.range k).map fun i => .label (s.label i)) s (s.skip k) where
  le := Nat.le_add_right _ _
  count l := by
    rw [functions_skip, labels_skip, Nat.add_comm]
    congr 1
    induction k with
    | zero => exact (within_self _ _).symm
    | succ k ih =>
        rw [List.range_succ, List.map_append, List.count_append, ih, within_succ]
        simp only [List.map_cons, List.map_nil, List.count_singleton, beq_iff_eq,
          Instr.label.injEq, label_eq_iff]

theorem test (cond : Expr) (s : State) : Places (expr cond s).1.1 s (expr cond s).2 :=
  .of_none (labels_expr cond s) (functions_expr cond s) fun _ => count_expr ..

end Places

/-- Noting that a variable is global changes nothing else. -/
theorem declared_eq (s : State) (name type : String) :
    ∃ globals, s.declared name type = { (declare name type s).2 with globals } := by
  unfold State.declared
  generalize declare name type s = declared
  have noted : (declareGlobal declared.1 declared.2).2 =
      if declared.2.inFunction || declared.2.globals.contains declared.1 then declared.2
      else { declared.2 with globals := declared.2.globals ++ [declared.1] } := rfl
  rw [noted]
  split
  · exact ⟨declared.2.globals, rfl⟩
  · exact ⟨_, rfl⟩

theorem supply_declared (s : State) (name type : String) :
    (s.declared name type).supply = s.supply := by
  obtain ⟨globals, same⟩ := declared_eq s name type
  rw [same]
  rfl

theorem functions_declared (s : State) (name type : String) :
    (s.declared name type).functions = s.functions := by
  obtain ⟨globals, same⟩ := declared_eq s name type
  rw [same]
  rfl

theorem places_declaration (d : Declaration) (s : State) :
    Places (declaration d s).1 s (declaration d s).2 := by
  obtain ⟨type, name, length, init⟩ := d
  cases init with
  | none =>
      rw [declaration_none]
      exact .of_none (congrArg Supply.labels (supply_declared ..)) (functions_declared ..)
        fun _ => rfl
  | some init =>
      have labels := congrArg Supply.labels (supply_declared (expr init s).2 name.val type.val)
      rw [labels_expr] at labels
      rw [declaration_some]
      refine .of_none labels (functions_declared ..) fun l => ?_
      simp [List.count_append]

theorem places_assignment (target : String) (index : Option Expr) (value : Expr) (s : State) :
    Places (assignment target index value s).1 s (assignment target index value s).2 := by
  cases index with
  | none =>
      rw [assignment_none]
      refine .of_none rfl rfl fun l => ?_
      simp [List.count_append]
  | some index =>
      rw [assignment_some]
      refine .of_none rfl rfl fun l => ?_
      simp [List.count_append]

theorem params_unchanged (ps : List Param) (s : State) :
    (params ps s).2.supply = s.supply ∧ (params ps s).2.functions = s.functions := by
  induction ps generalizing s with
  | nil => exact ⟨rfl, rfl⟩
  | cons p rest ih =>
      obtain ⟨type, name⟩ := p
      rw [params]
      cases name with
      | none => exact ih s
      | some name => exact ih (declare name.val type.val s).2

@[simp] theorem count_branching (cond : List Instr × Operand) (holds fails l : Label) :
    (branching cond holds fails).count (.label l) =
      cond.1.count (.label l) + if holds = l then 1 else 0 := by
  simp [branching, List.count_append, List.count_cons]

theorem places_inScope {inside : Lower (List Instr)}
    (places : ∀ s, Places (inside s).1 s (inside s).2) (s : State) :
    Places (inScope inside s).1 s (inScope inside s).2 :=
  ⟨(places (openScope s).2).le, (places (openScope s).2).count⟩

mutual

/-- Every label that the lowering of a statement takes is placed once. -/
theorem places_stmt (targets : Option Targets) :
    ∀ (st : Stmt) (s : State), Places (stmt targets st s).1 s (stmt targets st s).2
  | .declare _ d, s => places_declaration d s
  | .prototype .., _ => .of_none rfl rfl fun _ => rfl
  | .define heading _ body, s => by
      obtain ⟨le, count⟩ := places_stmts targets body (s.inside heading)
      obtain ⟨supply, functions⟩ := params_unchanged heading.params (openScope s).2
      have taken : (s.inside heading).supply = s.supply := supply
      have aside : (s.inside heading).functions = s.functions := functions
      rw [taken] at le count
      rw [aside] at count
      refine ⟨le, fun l => ?_⟩
      refine Eq.trans ?_ (count l)
      rw [stmt_define]
      simp only [List.count_append, List.count_cons, List.count_nil, reduceCtorEq, beq_iff_eq,
        if_false]
      omega
  | .assign _ _ index value, s => places_assignment _ index value s
  | .call _ callee args, s => .of_none rfl rfl fun l => count_lowerExpr s.resolve l s.supply.temps
      (.call {} callee args)
  | .block _ body, s => places_inScope (places_stmts targets body) s
  | .ifThen cond _ body, s => by
      have inside := places_inScope (places_stmts targets body) ((expr cond s).2.skip 2)
      rw [stmt_ifThen]
      refine (((Places.test cond s).append (.take _ 2)).append inside).reorder fun l => ?_
      simp [List.count_append, List.count_cons, List.range_succ]
      omega
  | .ifElse cond _ body _ elseBody, s => by
      have inside := places_inScope (places_stmts targets body) ((expr cond s).2.skip 2)
      have other := places_inScope (places_stmts targets elseBody)
        ((inScope (stmts targets body) ((expr cond s).2.skip 2)).2.skip 1)
      rw [stmt_ifElse]
      refine (((((Places.test cond s).append (.take _ 2)).append inside).append
        (.take _ 1)).append other).reorder fun l => ?_
      simp [List.count_append, List.count_cons, List.range_succ]
      omega
  | .whileLoop cond _ body, s => by
      have inside := places_inScope (places_stmts (some ⟨s.label 0, s.label 2⟩) body)
        (expr cond (s.skip 3)).2
      rw [stmt_whileLoop]
      refine (((Places.take s 3).append (.test cond _)).append inside).reorder fun l => ?_
      simp [List.count_append, List.count_cons, List.range_succ]
      omega
  | .forLoop init cond update _ body, s => by
      rw [stmt_forLoop]
      refine places_inScope (fun s => ?_) s
      let begun := (header targets init s).2
      let bodied := inScope (stmts (some ⟨begun.label 2, begun.label 3⟩) body)
        (expr cond (begun.skip 4)).2
      have inside : Places bodied.1 _ bodied.2 := places_inScope (places_stmts _ body) _
      refine (((((places_header targets init s).append (.take begun 4)).append
        (.test cond _)).append inside).append (places_header targets update bodied.2)).reorder
          fun l => ?_
      simp [forInside, forRounds, begun, bodied, List.count_append, List.count_cons,
        List.range_succ]
      omega
  | .breakLoop _, s => by
      cases targets <;> exact .of_none rfl rfl fun _ => rfl
  | .continueLoop _, s => by
      cases targets <;> exact .of_none rfl rfl fun _ => rfl
  | .returnValue _ none, _ => .of_none rfl rfl fun _ => rfl
  | .returnValue _ (some e), s => .of_none rfl rfl fun l => by
      rw [stmt_return]
      simp [List.count_append]

theorem places_header (targets : Option Targets) :
    ∀ (st : Option Stmt) (s : State), Places (header targets st s).1 s (header targets st s).2
  | none, _ => .of_none rfl rfl fun _ => rfl
  | some st, s => places_stmt targets st s

theorem places_stmts (targets : Option Targets) :
    ∀ (body : List Stmt) (s : State), Places (stmts targets body s).1 s (stmts targets body s).2
  | [], _ => .of_none rfl rfl fun _ => rfl
  | st :: rest, s => by
      rw [stmts_cons]
      exact (places_stmt targets st s).append (places_stmts targets rest (stmt targets st s).2)

end

/-! ### Functions -/

mutual

/-- Without definitions in it, a statement sets no code aside. -/
theorem functions_stmt (targets : Option Targets) :
    ∀ (st : Stmt), st.isDefinitionFree = true → ∀ s,
      (stmt targets st s).2.functions = s.functions
  | .declare _ ⟨_, _, _, none⟩, _, _ | .declare _ ⟨_, _, _, some _⟩, _, _ =>
      functions_declared ..
  | .define .., free, _ => by simp [Stmt.isDefinitionFree] at free
  | .assign _ _ none _, _, _ | .assign _ _ (some _) _, _, _ | .prototype .., _, _
  | .call .., _, _ | .breakLoop _, _, _ | .continueLoop _, _, _ | .returnValue _ none, _, _
  | .returnValue _ (some _), _, _ => rfl
  | .block _ body, free, s => functions_stmts targets body free (openScope s).2
  | .ifThen cond _ body, free, s => by
      rw [stmt_ifThen]
      exact functions_stmts targets body free (openScope ((expr cond s).2.skip 2)).2
  | .ifElse cond _ body _ elseBody, free, s => by
      obtain ⟨freeThen, freeElse⟩ := Bool.and_eq_true_iff.mp free
      rw [stmt_ifElse]
      exact (functions_stmts targets elseBody freeElse _).trans
        (functions_stmts targets body freeThen (openScope ((expr cond s).2.skip 2)).2)
  | .whileLoop cond _ body, free, s => by
      rw [stmt_whileLoop]
      exact functions_stmts _ body free (openScope (expr cond (s.skip 3)).2).2
  | .forLoop init cond update _ body, free, s => by
      obtain ⟨freeHeader, freeBody⟩ := Bool.and_eq_true_iff.mp free
      obtain ⟨freeInit, freeUpdate⟩ := Bool.and_eq_true_iff.mp freeHeader
      rw [stmt_forLoop]
      refine (functions_header targets update freeUpdate _).trans ?_
      refine (functions_stmts _ body freeBody _).trans ?_
      exact functions_header targets init freeInit (openScope s).2

theorem functions_header (targets : Option Targets) :
    ∀ (st : Option Stmt), Stmt.headerDefinitionFree st = true → ∀ s,
      (header targets st s).2.functions = s.functions
  | none, _, _ => rfl
  | some st, free, s => functions_stmt targets st free s

theorem functions_stmts (targets : Option Targets) :
    ∀ (body : List Stmt), Stmt.allDefinitionFree body = true → ∀ s,
      (stmts targets body s).2.functions = s.functions
  | [], _, _ => rfl
  | st :: rest, free, s => by
      obtain ⟨freeFirst, freeRest⟩ := Bool.and_eq_true_iff.mp free
      rw [stmts_cons]
      exact (functions_stmts targets rest freeRest _).trans
        (functions_stmt targets st freeFirst s)

end

end BraceLang.Tac.Lower

namespace BraceLang.Tac

/-- The state of a program that has been lowered. -/
def lastStage (p : Program) : Lower.State := (Lower.stmts none p.stmts (Lower.openScope {}).2).2

/-! ### Places of labels -/

/-- Each of the labels that have been taken stands in the code of a program in one place, and no
other label stands there. -/
theorem count_label_lower (p : Program) (l : Label) :
    p.lower.1.instrs.count (.label l) = Lower.within 0 (lastStage p).supply.labels l.id := by
  have counted := (Lower.places_stmts none p.stmts (Lower.openScope {}).2).count l
  exact List.count_append.trans (counted.trans (Nat.zero_add _))

theorem findLabel?_eq_none {l : Label} {code : List Instr} (absent : Instr.label l ∉ code) :
    findLabel? l code = none := by
  induction code with
  | nil => rfl
  | cons i rest ih =>
      obtain ⟨other, absent⟩ := not_or.mp (mt List.mem_cons.mpr absent)
      simp only [findLabel?, ih absent, if_neg (Ne.symm other)]

/-- A label that stands in the code once is found where it stands. -/
theorem findLabel?_of_count {l : Label} {code : List Instr} (once : code.count (.label l) ≤ 1)
    {k : Nat} (at_k : code[k]? = some (.label l)) : findLabel? l code = some k := by
  induction code generalizing k with
  | nil => simp at at_k
  | cons i rest ih =>
      rw [List.count_cons] at once
      cases k with
      | zero =>
          obtain rfl : i = .label l := by simpa using at_k
          have absent : Instr.label l ∉ rest := by
            rw [← List.count_eq_zero]
            simpa using once
          simp [findLabel?, findLabel?_eq_none absent]
      | succ k =>
          have found := ih (by omega) (by simpa using at_k : rest[k]? = _)
          simp [findLabel?, found]

end BraceLang.Tac
