import BraceLang.Proofs.Tac.Machine
import BraceLang.Proofs.Tac.Shape

/-!
Where the constants of lowered code come from. Lowering makes up no constant: each of them is the
text of a literal of the tree. And it computes into temporaries only.

* **`draws_lower`**: the constants in the code of a program have whatever the texts of its
  literals have in common.
-/

namespace BraceLang

/-! ### Literals of trees -/

namespace Expr

mutual

/-- The literals of an expression, from the left. -/
def literals : Expr → List Literal
  | literal _ value => [value]
  | var .. => []
  | element _ _ index => index.literals
  | unary _ _ operand => operand.literals
  | binary _ _ left right => left.literals ++ right.literals
  | call _ _ args => literalsIn args

def literalsIn : List Expr → List Literal
  | [] => []
  | e :: rest => e.literals ++ literalsIn rest

end

end Expr

namespace Stmt

mutual

/-- The literals of a statement, with those of the functions in it. -/
def literals : Stmt → List Literal
  | declare _ d => d.init.elim [] Expr.literals
  | prototype .. | breakLoop _ | continueLoop _ => []
  | assign _ _ index value => index.elim [] Expr.literals ++ value.literals
  | call _ _ args => Expr.literalsIn args
  | define _ _ body | block _ body => literalsIn body
  | ifThen cond _ body | whileLoop cond _ body => cond.literals ++ literalsIn body
  | ifElse cond _ body _ elseBody => cond.literals ++ literalsIn body ++ literalsIn elseBody
  | forLoop init cond update _ body =>
      literalsBy init ++ cond.literals ++ literalsBy update ++ literalsIn body
  | returnValue _ value => value.elim [] Expr.literals

def literalsBy : Option Stmt → List Literal
  | none => []
  | some s => s.literals

def literalsIn : List Stmt → List Literal
  | [] => []
  | s :: rest => s.literals ++ literalsIn rest

end

end Stmt

def Program.literals (p : Program) : List Literal := Stmt.literalsIn p.stmts

namespace Tac

/-! ### Constants of code -/

/-- The constants that an operand is made of: itself, or the index of an element. -/
def Operand.constants : Operand → List String
  | const text => [text]
  | name _ => []
  | element _ index => index.constants

/-- All operands of an instruction, its destination among them. -/
def Instr.operands : Instr → List Operand
  | function .. | label _ | goto _ => []
  | branch cond _ => [cond]
  | copy source result => [source, result]
  | unary _ operand result => [operand, result]
  | binary _ left right result => [left, right, result]
  | call _ args _ => args
  | ret value => value.toList

variable {K : String → Prop}

/-- The constants of the operand have a property. -/
def Operand.Draws (K : String → Prop) (o : Operand) : Prop := ∀ text ∈ o.constants, K text

/-- The constants of the instruction have a property, and it computes into a temporary. -/
structure Instr.Draws (K : String → Prop) (i : Instr) : Prop where
  operands : ∀ o ∈ i.operands, o.Draws K
  temps : i.computesTemp

/-- All instructions draw their constants from a source. -/
def AllDraw (K : String → Prop) (code : List Instr) : Prop := ∀ i ∈ code, i.Draws K

theorem Operand.draws_name (n : Name) : (Operand.name n).Draws K := nofun

theorem allDraw_append {first second : List Instr} :
    AllDraw K (first ++ second) ↔ AllDraw K first ∧ AllDraw K second := List.forall_mem_append

theorem allDraw_cons {i : Instr} {rest : List Instr} :
    AllDraw K (i :: rest) ↔ i.Draws K ∧ AllDraw K rest := List.forall_mem_cons

theorem allDraw_nil : AllDraw K [] := nofun

namespace Instr

theorem draws_label (l : Label) : (Instr.label l).Draws K := ⟨nofun, trivial⟩

theorem draws_goto (l : Label) : (Instr.goto l).Draws K := ⟨nofun, trivial⟩

theorem draws_branch {cond : Operand} (draws : cond.Draws K) (target : Label) :
    (Instr.branch cond target).Draws K := ⟨by simpa [operands] using draws, trivial⟩

theorem draws_copy {source result : Operand} (first : source.Draws K) (second : result.Draws K) :
    (Instr.copy source result).Draws K :=
  ⟨by simpa [operands] using ⟨first, second⟩, trivial⟩

theorem draws_unary {operand : Operand} (op : UnOp) (draws : operand.Draws K) (t : Temp) :
    (Instr.unary op operand (.temp t)).Draws K :=
  ⟨by simpa [operands] using ⟨draws, Operand.draws_name _⟩, t, rfl⟩

theorem draws_binary {left right : Operand} (op : BinOp) (first : left.Draws K)
    (second : right.Draws K) (t : Temp) : (Instr.binary op left right (.temp t)).Draws K :=
  ⟨by simpa [operands] using ⟨first, second, Operand.draws_name _⟩, t, rfl⟩

theorem draws_call (callee : String) {args : List Operand} (draws : ∀ o ∈ args, o.Draws K)
    (t : Temp) : (Instr.call callee args t).Draws K := ⟨draws, trivial⟩

theorem draws_ret {value : Option Operand} (draws : ∀ o ∈ value, o.Draws K) :
    (Instr.ret value).Draws K := ⟨fun o mem => draws o (Option.mem_toList.mp mem), trivial⟩

end Instr

namespace Lower

/-! ### Lowered code -/

/-- The code of an expression and the operand of its value. -/
structure ExprDraws (K : String → Prop) (instrs : List Instr) (value : Operand) : Prop where
  instrs : AllDraw K instrs
  value : value.Draws K

mutual

theorem draws_lowerExpr (resolve : String → String) : (e : Expr) → ∀ next,
    (∀ l ∈ e.literals, K l.text) →
    ExprDraws K (lowerExpr resolve next e).instrs (lowerExpr resolve next e).value
  | .literal _ value, _, known => by
      refine ⟨allDraw_nil, fun text mem => ?_⟩
      obtain rfl := List.mem_singleton.mp mem
      exact known value (by simp [Expr.literals])
  | .var .., _, _ => ⟨allDraw_nil, Operand.draws_name _⟩
  | .element _ _ index, next, known => by
      obtain ⟨instrs, value⟩ := draws_lowerExpr resolve index next known
      exact ⟨instrs, value⟩
  | .unary _ op operand, next, known => by
      obtain ⟨instrs, value⟩ := draws_lowerExpr resolve operand next known
      have last := Instr.draws_unary op value ⟨(lowerExpr resolve next operand).next⟩
      exact ⟨allDraw_append.mpr ⟨instrs, allDraw_cons.mpr ⟨last, allDraw_nil⟩⟩,
        Operand.draws_name _⟩
  | .binary _ op left right, next, known => by
      obtain ⟨known, known'⟩ := List.forall_mem_append.mp known
      obtain ⟨instrs, value⟩ := draws_lowerExpr resolve left next known
      obtain ⟨instrs', value'⟩ := draws_lowerExpr resolve right _ known'
      exact ⟨allDraw_append.mpr ⟨allDraw_append.mpr ⟨instrs, instrs'⟩,
        allDraw_cons.mpr ⟨Instr.draws_binary op value value' _, allDraw_nil⟩⟩, Operand.draws_name _⟩
  | .call _ callee args, next, known => by
      obtain ⟨instrs, values⟩ := draws_lowerArgs resolve args next known
      exact ⟨allDraw_append.mpr ⟨instrs,
        allDraw_cons.mpr ⟨Instr.draws_call callee.val values _, allDraw_nil⟩⟩, Operand.draws_name _⟩

theorem draws_lowerArgs (resolve : String → String) : (args : List Expr) → ∀ next,
    (∀ l ∈ Expr.literalsIn args, K l.text) →
    AllDraw K (lowerArgs resolve next args).instrs ∧
      ∀ o ∈ (lowerArgs resolve next args).values, o.Draws K
  | [], _, _ => ⟨allDraw_nil, nofun⟩
  | arg :: args, next, known => by
      obtain ⟨known, known'⟩ := List.forall_mem_append.mp known
      obtain ⟨instrs, value⟩ := draws_lowerExpr resolve arg next known
      obtain ⟨instrs', values⟩ := draws_lowerArgs resolve args _ known'
      exact ⟨allDraw_append.mpr ⟨instrs, instrs'⟩, List.forall_mem_cons.mpr ⟨value, values⟩⟩

end

theorem draws_expr {e : Expr} (known : ∀ l ∈ e.literals, K l.text) (s : State) :
    ExprDraws K (expr e s).1.1 (expr e s).1.2 :=
  draws_lowerExpr s.resolve e s.supply.temps known

theorem draws_branching {cond : List Instr × Operand} (draws : ExprDraws K cond.1 cond.2)
    (holds fails : Label) : AllDraw K (branching cond holds fails) := by
  simp only [branching, allDraw_append, allDraw_cons, Instr.draws_goto, Instr.draws_label,
    allDraw_nil, and_true]
  exact ⟨draws.instrs, Instr.draws_branch draws.value _⟩

/-- The code of an action draws its constants from a source, and so does what it sets aside. -/
structure Makes (K : String → Prop) (action : Lower (List Instr)) : Prop where
  code : ∀ s, AllDraw K (action s).1
  aside : ∀ s : State, AllDraw K s.functions → AllDraw K (action s).2.functions

theorem Makes.inScope {inside : Lower (List Instr)} (makes : Makes K inside) :
    Makes K (inScope inside) :=
  ⟨fun s => makes.code (openScope s).2, fun s => makes.aside (openScope s).2⟩

theorem makes_declaration {d : Declaration} (known : ∀ l ∈ d.init.elim [] Expr.literals, K l.text) :
    Makes K (declaration d) := by
  obtain ⟨type, name, length, init⟩ := d
  cases init with
  | none =>
      refine ⟨fun _ => allDraw_nil, fun s aside => ?_⟩
      rw [declaration_none, functions_declared]
      exact aside
  | some init =>
      refine ⟨fun s => ?_, fun s aside => ?_⟩
      · obtain ⟨instrs, value⟩ := draws_expr known s
        rw [declaration_some]
        exact allDraw_append.mpr ⟨instrs,
          allDraw_cons.mpr ⟨Instr.draws_copy value (Operand.draws_name _), allDraw_nil⟩⟩
      · rw [declaration_some, functions_declared]
        exact aside

theorem makes_assignment {index : Option Expr} {value : Expr} (target : String)
    (known : ∀ l ∈ index.elim [] Expr.literals, K l.text)
    (known' : ∀ l ∈ value.literals, K l.text) :
    Makes K (assignment target index value) := by
  cases index with
  | none =>
      refine ⟨fun s => ?_, fun _ aside => aside⟩
      obtain ⟨instrs, value⟩ := draws_expr known' s
      exact allDraw_append.mpr ⟨instrs,
        allDraw_cons.mpr ⟨Instr.draws_copy value (Operand.draws_name _), allDraw_nil⟩⟩
  | some index =>
      refine ⟨fun s => ?_, fun _ aside => aside⟩
      obtain ⟨instrs, i⟩ := draws_expr known s
      obtain ⟨instrs', value⟩ := draws_expr known' (expr index s).2
      exact allDraw_append.mpr ⟨allDraw_append.mpr ⟨instrs, instrs'⟩,
        allDraw_cons.mpr ⟨Instr.draws_copy value i, allDraw_nil⟩⟩

mutual

/-- **Statements make up no constant.** -/
theorem makes_stmt : (x : Stmt) → (∀ l ∈ x.literals, K l.text) → ∀ targets,
    Makes K (stmt targets x)
  | .declare _ d, known, _ => makes_declaration known
  | .prototype .., _, _ => ⟨fun _ => allDraw_nil, fun _ aside => aside⟩
  | .define heading _ body, known, targets => by
      have inside := makes_stmts body known targets
      refine ⟨fun _ => allDraw_nil, fun s aside => ?_⟩
      have same : (s.inside heading).functions = s.functions :=
        (params_unchanged heading.params (openScope s).2).2
      rw [stmt_define]
      exact allDraw_append.mpr ⟨inside.aside _ (same ▸ aside),
        allDraw_cons.mpr ⟨⟨nofun, trivial⟩, inside.code _⟩⟩
  | .assign _ target index value, known, _ => by
      obtain ⟨known, known'⟩ := List.forall_mem_append.mp known
      exact makes_assignment target.val known known'
  | .call _ callee args, known, _ =>
      ⟨fun s => (draws_lowerExpr s.resolve (.call {} callee args) s.supply.temps known).instrs,
        fun _ aside => aside⟩
  | .block _ body, known, targets => (makes_stmts body known targets).inScope
  | .ifThen cond _ body, known, targets => by
      obtain ⟨known, known'⟩ := List.forall_mem_append.mp known
      have inside := (makes_stmts body known' targets).inScope
      refine ⟨fun s => ?_, fun s aside => inside.aside _ aside⟩
      rw [stmt_ifThen]
      simp only [allDraw_append, allDraw_cons, Instr.draws_label, allDraw_nil, and_true]
      exact ⟨draws_branching (draws_expr known s) _ _, inside.code _⟩
  | .ifElse cond _ body _ elseBody, known, targets => by
      obtain ⟨known, known''⟩ := List.forall_mem_append.mp known
      obtain ⟨known, known'⟩ := List.forall_mem_append.mp known
      have inside := (makes_stmts body known' targets).inScope
      have inside' := (makes_stmts elseBody known'' targets).inScope
      refine ⟨fun s => ?_, fun s aside => inside'.aside _ (inside.aside _ aside)⟩
      rw [stmt_ifElse]
      simp only [allDraw_append, allDraw_cons, Instr.draws_label, Instr.draws_goto, allDraw_nil,
        and_true]
      exact ⟨⟨draws_branching (draws_expr known s) _ _, inside.code _⟩, inside'.code _⟩
  | .whileLoop cond _ body, known, _ => by
      obtain ⟨known, known'⟩ := List.forall_mem_append.mp known
      refine ⟨fun s => ?_, fun s aside => (makes_stmts body known' _).inScope.aside _ aside⟩
      rw [stmt_whileLoop]
      simp only [List.cons_append, allDraw_append, allDraw_cons, Instr.draws_label,
        Instr.draws_goto, allDraw_nil, and_true, true_and]
      exact ⟨draws_branching (draws_expr known _) _ _, (makes_stmts body known' _).inScope.code _⟩
  | .forLoop init cond update _ body, known, targets => by
      obtain ⟨known, inBody⟩ := List.forall_mem_append.mp known
      obtain ⟨known, inUpdate⟩ := List.forall_mem_append.mp known
      obtain ⟨inInit, inCond⟩ := List.forall_mem_append.mp known
      have first := makes_header init inInit targets
      have last := makes_header update inUpdate targets
      have inside (s : State) :=
        (makes_stmts body inBody (some ⟨s.label 2, s.label 3⟩)).inScope
      have rounds : Makes K (forInside targets init cond update body) := by
        refine ⟨fun s => ?_, fun s aside => ?_⟩
        · simp only [forInside, forRounds, List.cons_append, allDraw_append, allDraw_cons,
            Instr.draws_label, Instr.draws_goto, allDraw_nil, and_true, true_and]
          exact ⟨first.code s, ⟨draws_branching (draws_expr inCond _) _ _, (inside _).code _⟩,
            last.code _⟩
        · exact last.aside _ ((inside _).aside _ (first.aside s aside))
      exact ⟨fun s => stmt_forLoop .. ▸ rounds.inScope.code s,
        fun s aside => stmt_forLoop .. ▸ rounds.inScope.aside s aside⟩
  | .breakLoop _, _, targets => by
      refine ⟨fun _ => ?_, fun _ aside => aside⟩
      cases targets with
      | none => exact allDraw_nil
      | some t => exact allDraw_cons.mpr ⟨Instr.draws_goto _, allDraw_nil⟩
  | .continueLoop _, _, targets => by
      refine ⟨fun _ => ?_, fun _ aside => aside⟩
      cases targets with
      | none => exact allDraw_nil
      | some t => exact allDraw_cons.mpr ⟨Instr.draws_goto _, allDraw_nil⟩
  | .returnValue _ none, _, _ =>
      ⟨fun _ => allDraw_cons.mpr ⟨Instr.draws_ret nofun, allDraw_nil⟩, fun _ aside => aside⟩
  | .returnValue _ (some e), known, _ => by
      refine ⟨fun s => ?_, fun _ aside => aside⟩
      obtain ⟨instrs, value⟩ := draws_lowerExpr s.resolve e s.supply.temps known
      refine allDraw_append.mpr ⟨instrs, allDraw_cons.mpr ⟨Instr.draws_ret ?_, allDraw_nil⟩⟩
      simpa using value

theorem makes_header : (part : Option Stmt) → (∀ l ∈ Stmt.literalsBy part, K l.text) → ∀ targets,
    Makes K (header targets part)
  | none, _, _ => ⟨fun _ => allDraw_nil, fun _ aside => aside⟩
  | some x, known, targets => makes_stmt x known targets

theorem makes_stmts : (body : List Stmt) → (∀ l ∈ Stmt.literalsIn body, K l.text) → ∀ targets,
    Makes K (stmts targets body)
  | [], _, _ => ⟨fun _ => allDraw_nil, fun _ aside => aside⟩
  | x :: rest, known, targets => by
      obtain ⟨known, known'⟩ := List.forall_mem_append.mp known
      have first := makes_stmt x known targets
      have others := makes_stmts rest known' targets
      refine ⟨fun s => ?_, fun s aside => others.aside _ (first.aside s aside)⟩
      rw [stmts_cons]
      exact allDraw_append.mpr ⟨first.code s, others.code _⟩

end

end Lower

/-- **Lowering makes up no constant**, and it computes into temporaries only. -/
theorem draws_lower {p : Program} (known : ∀ l ∈ p.literals, K l.text) :
    AllDraw K p.lower.1.instrs := by
  have makes := Lower.makes_stmts p.stmts known none
  exact allDraw_append.mpr ⟨makes.code _, makes.aside _ allDraw_nil⟩

theorem AllDraw.computesTemps {code : List Instr} (draws : AllDraw K code) : ComputesTemps code :=
  fun i mem => (draws i mem).temps

end Tac

end BraceLang
