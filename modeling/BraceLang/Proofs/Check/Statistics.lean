import BraceLang.Proofs.Check.Steps

/-!
What checking counts. Every node of a tree is visited once, whatever is found wrong with it or
with its neighbours, and adds what a node of its kind is written with apart from the nodes in it.
So the statistics can be read off the tree.

* **`Program.constructs`**: the nodes of a program, and `Construct.own`, what each of them adds;
* **`Program.words`**: the tokens that a program is written with, one after the other;
* **`Program.outline`**: what is left of a program without its names, types and places.

**Main result.** `check_counts`: the statistics are the sum over the nodes, and count the tokens of
the written form; programs of one outline have the same statistics.
-/

namespace BraceLang

/-! ### Nodes -/

namespace Statistics

instance : Add Statistics := ⟨fun s t => ⟨s.nodes + t.nodes, s.tokens + t.tokens⟩⟩

theorem tokens_add (s t : Statistics) : (s + t).tokens = s.tokens + t.tokens := rfl

theorem add_assoc (s t u : Statistics) : s + t + u = s + (t + u) := by
  change mk (s.nodes + t.nodes + u.nodes) (s.tokens + t.tokens + u.tokens) = _
  rw [Nat.add_assoc, Nat.add_assoc]
  rfl

theorem zero_add (s : Statistics) : ({} : Statistics) + s = s := by
  change mk (0 + s.nodes) (0 + s.tokens) = _
  rw [Nat.zero_add, Nat.zero_add]

end Statistics

/-- A node of a tree. -/
inductive Construct where
  | program
  | block (braces : Braces)
  | statement (x : Stmt)
  /-- A statement in the header of a `for` loop, which has no `;` of its own. -/
  | part (x : Stmt)
  | call (args : List Expr)
  | expr (e : Expr)

/-- What an expression adds; that of a call is added by the call. -/
def Expr.own : Expr → Statistics
  | .literal .. | .var .. | .unary .. | .binary .. => ⟨1, 1⟩
  | .element .. => ⟨1, 3⟩
  | .call .. => {}

namespace Stmt

/-- What a statement adds, apart from its `;`; that of a block is added by the block. -/
def own : Stmt → Statistics
  | .declare _ d => ⟨1, 2 + (if d.length.isSome then 3 else 0) + (if d.init.isSome then 1 else 0)⟩
  | .prototype _ h | .define h _ _ => ⟨1, h.tokens⟩
  | .assign _ _ index _ => ⟨1, 2 + if index.isSome then 2 else 0⟩
  | .call .. => ⟨1, 0⟩
  | .block .. => {}
  | .ifThen .. | .whileLoop .. => ⟨1, 3⟩
  | .ifElse .. => ⟨1, 4⟩
  | .forLoop .. => ⟨1, 5⟩
  | .breakLoop _ | .continueLoop _ | .returnValue .. => ⟨1, 1⟩

/-- The `;` behind a statement is there. -/
def isTerminated (x : Stmt) : Bool := x.site?.any (·.terminated)

end Stmt

namespace Construct

/-- What a node adds to the statistics, apart from the nodes in it. -/
def own : Construct → Statistics
  | program => ⟨1, 0⟩
  | block braces => ⟨1, 1 + if braces.closed.isSome then 1 else 0⟩
  | statement x => ⟨0, if x.isTerminated then 1 else 0⟩ + x.own
  | part x => x.own
  | call args => ⟨1, 3 + (args.length - 1)⟩
  | expr e => e.own

/-- What some nodes add together. -/
def total : List Construct → Statistics
  | [] => {}
  | c :: rest => c.own + total rest

theorem total_cons (c : Construct) (rest : List Construct) :
    total (c :: rest) = c.own + total rest := rfl

theorem total_append (first second : List Construct) :
    total (first ++ second) = total first + total second := by
  induction first with
  | nil => exact (Statistics.zero_add _).symm
  | cons c rest ih =>
      rw [List.cons_append, total_cons, total_cons, ih, Statistics.add_assoc]

end Construct

mutual

/-- The nodes of an expression. -/
def Expr.constructs : Expr → List Construct
  | .literal pos value => [.expr (.literal pos value)]
  | .var pos name => [.expr (.var pos name)]
  | .element pos array index => .expr (.element pos array index) :: index.constructs
  | .unary pos op operand => .expr (.unary pos op operand) :: operand.constructs
  | .binary pos op left right =>
      .expr (.binary pos op left right) :: (left.constructs ++ right.constructs)
  | .call pos callee args => .expr (.call pos callee args) :: .call args :: Expr.constructsIn args

def Expr.constructsIn : List Expr → List Construct
  | [] => []
  | arg :: args => arg.constructs ++ Expr.constructsIn args

end

namespace Stmt

mutual

/-- The nodes in a statement. -/
def inner : Stmt → List Construct
  | .declare _ d => d.init.elim [] Expr.constructs
  | .define _ braces body | .block braces body => .block braces :: constructsIn body
  | .assign _ _ index value => index.elim [] Expr.constructs ++ value.constructs
  | .call _ _ args => .call args :: Expr.constructsIn args
  | .ifThen cond braces body | .whileLoop cond braces body =>
      cond.constructs ++ .block braces :: constructsIn body
  | .ifElse cond braces body elseBraces elseBody =>
      cond.constructs ++ (.block braces :: constructsIn body) ++
        .block elseBraces :: constructsIn elseBody
  | .forLoop init cond update braces body =>
      constructsBy init ++ (cond.constructs ++ (.block braces :: constructsIn body) ++
        constructsBy update)
  | .returnValue _ value => value.elim [] Expr.constructs
  | .prototype .. | .breakLoop _ | .continueLoop _ => []

/-- The nodes of a part of a `for` header. -/
def constructsBy : Option Stmt → List Construct
  | none => []
  | some x => .part x :: x.inner

def constructsIn : List Stmt → List Construct
  | [] => []
  | x :: rest => .statement x :: x.inner ++ constructsIn rest

end

end Stmt

/-- The nodes of a program. -/
def Program.constructs (p : Program) : List Construct := .program :: Stmt.constructsIn p.stmts

/-! ### The written form -/

/-- Lists with commas between them. -/
def separated : List (List String) → List String
  | [] => []
  | words :: rest => words ++ rest.flatMap ("," :: ·)

theorem length_separated (lists : List (List String)) :
    (separated lists).length = lists.flatten.length + (lists.length - 1) := by
  have commas (rest : List (List String)) :
      (rest.flatMap ("," :: ·)).length = rest.flatten.length + rest.length := by
    induction rest with
    | nil => rfl
    | cons words rest ih =>
        rw [List.flatMap_cons, List.length_append, ih, List.flatten_cons, List.length_append,
          List.length_cons, List.length_cons]
        omega
  cases lists with
  | nil => rfl
  | cons words rest =>
      rw [separated, List.length_append, commas, List.flatten_cons, List.length_append,
        List.length_cons]
      omega

mutual

/-- The tokens of an expression. Parentheses that only group are no part of a tree. -/
def Expr.words : Expr → List String
  | .literal _ value => [value.text]
  | .var _ name => [name]
  | .element _ array index => array :: "[" :: (index.words ++ ["]"])
  | .unary _ op operand => op.symbol :: operand.words
  | .binary _ op left right => left.words ++ op.symbol :: right.words
  | .call _ callee args => callee.val :: "(" :: (separated (Expr.wordsIn args) ++ [")"])

/-- The tokens of each argument. -/
def Expr.wordsIn : List Expr → List (List String)
  | [] => []
  | arg :: args => arg.words :: Expr.wordsIn args

end

/-- The tokens of a parameter. -/
def Param.words (p : Param) : List String := p.type.val :: (p.name.map (·.val)).toList

/-- The tokens of a heading. -/
def Heading.words (h : Heading) : List String :=
  h.result.val :: h.name.val :: "(" :: (separated (h.params.map Param.words) ++ [")"])

/-- The tokens of a declaration, apart from its `;`. -/
def Declaration.words (d : Declaration) : List String :=
  d.type.val :: d.name.val :: (d.length.elim [] fun n => ["[", toString n, "]"]) ++
    d.init.elim [] fun init => "=" :: init.words

/-- The tokens of a block around those of its statements. -/
def Braces.words (b : Braces) (inside : List String) : List String :=
  "\x7b" :: (inside ++ if b.closed.isSome then ["\x7d"] else [])

/-- A condition between parentheses. -/
def Expr.guardWords (e : Expr) : List String := "(" :: (e.words ++ [")"])

namespace Stmt

/-- The `;` of a statement, if it is there. -/
def terminator (x : Stmt) : List String := if x.isTerminated then [";"] else []

mutual

/-- The tokens of a statement, apart from its `;`. -/
def words : Stmt → List String
  | .declare _ d => d.words
  | .prototype _ h => h.words
  | .define h braces body => h.words ++ braces.words (wordsIn body)
  | .assign _ target index value =>
      target.val :: (index.elim [] fun index => "[" :: (index.words ++ ["]"])) ++
        "=" :: value.words
  | .call _ callee args => callee.val :: "(" :: (separated (Expr.wordsIn args) ++ [")"])
  | .block braces body => braces.words (wordsIn body)
  | .ifThen cond braces body => "if" :: cond.guardWords ++ braces.words (wordsIn body)
  | .ifElse cond braces body elseBraces elseBody =>
      "if" :: cond.guardWords ++ braces.words (wordsIn body) ++
        "else" :: elseBraces.words (wordsIn elseBody)
  | .whileLoop cond braces body => "while" :: cond.guardWords ++ braces.words (wordsIn body)
  | .forLoop init cond update braces body =>
      "for" :: "(" :: (wordsBy init ++ ";" :: (cond.words ++ ";" :: (wordsBy update ++ [")"]))) ++
        braces.words (wordsIn body)
  | .breakLoop _ => ["break"]
  | .continueLoop _ => ["continue"]
  | .returnValue _ value => "return" :: value.elim [] Expr.words

/-- The tokens of a part of a `for` header. -/
def wordsBy : Option Stmt → List String
  | none => []
  | some x => x.words

def wordsIn : List Stmt → List String
  | [] => []
  | x :: rest => x.words ++ x.terminator ++ wordsIn rest

end

end Stmt

/-- The tokens of a program. -/
def Program.words (p : Program) : List String := Stmt.wordsIn p.stmts

section Words

open Construct Statistics

theorem Expr.length_wordsIn (args : List Expr) : (Expr.wordsIn args).length = args.length := by
  induction args with
  | nil => rfl
  | cons arg args ih => rw [Expr.wordsIn, List.length_cons, ih, List.length_cons]

mutual

/-- The nodes of an expression add the tokens that it is written with. -/
theorem tokens_expr : (e : Expr) → (total e.constructs).tokens = e.words.length
  | .literal .. | .var .. => rfl
  | .element _ _ index => by
      rw [Expr.constructs, total_cons, tokens_add, tokens_expr index]
      simp [Construct.own, Expr.own, Expr.words]
      omega
  | .unary _ _ operand => by
      rw [Expr.constructs, total_cons, tokens_add, tokens_expr operand]
      simp [Construct.own, Expr.own, Expr.words]
      omega
  | .binary _ _ left right => by
      rw [Expr.constructs, total_cons, total_append, tokens_add, tokens_add, tokens_expr left,
        tokens_expr right]
      simp [Construct.own, Expr.own, Expr.words]
      omega
  | .call _ _ args => by
      rw [Expr.constructs, total_cons, total_cons, tokens_add, tokens_add, tokens_args args]
      simp [Construct.own, Expr.own, Expr.words, length_separated, Expr.length_wordsIn]
      omega

theorem tokens_args : (args : List Expr) →
    (total (Expr.constructsIn args)).tokens = (Expr.wordsIn args).flatten.length
  | [] => rfl
  | arg :: args => by
      rw [Expr.constructsIn, total_append, tokens_add, tokens_expr arg, tokens_args args,
        Expr.wordsIn, List.flatten_cons, List.length_append]

end

/-- The tokens of an expression that may be left out. -/
theorem tokens_elim (e : Option Expr) :
    (total (e.elim [] Expr.constructs)).tokens = (e.elim [] Expr.words).length := by
  cases e with
  | none => rfl
  | some e => exact tokens_expr e

theorem Heading.length_words (h : Heading) : h.words.length = h.tokens := by
  have params (list : List Param) : (list.map Param.words).flatten.length =
      list.length + list.countP (·.name.isSome) := by
    induction list with
    | nil => rfl
    | cons p rest ih =>
        rw [List.map_cons, List.flatten_cons, List.length_append, ih, List.countP_cons,
          List.length_cons, Param.words, List.length_cons]
        cases p.name <;> simp <;> omega
  simp [Heading.words, Heading.tokens, length_separated, params]
  omega

theorem Braces.length_words (b : Braces) (inside : List String) :
    (b.words inside).length = (Construct.block b).own.tokens + inside.length := by
  rw [Braces.words, Construct.own, List.length_cons, List.length_append]
  split <;> simp <;> omega

theorem Expr.length_guardWords (e : Expr) : e.guardWords.length = 2 + e.words.length := by
  simp [Expr.guardWords]
  omega

theorem Stmt.length_terminator (x : Stmt) :
    x.terminator.length = if x.isTerminated then 1 else 0 := by
  rw [Stmt.terminator]
  split <;> rfl

theorem Declaration.length_words (site : Site) (d : Declaration) :
    d.words.length =
      (Stmt.declare site d).own.tokens + (total (Stmt.declare site d).inner).tokens := by
  rw [Stmt.inner, tokens_elim, Stmt.own, Declaration.words]
  cases d.length <;> cases d.init <;> simp <;> omega

mutual

/-- A statement and the nodes in it add the tokens that it is written with. -/
theorem tokens_stmt : (x : Stmt) → x.own.tokens + (total x.inner).tokens = x.words.length
  | .declare site d => (d.length_words site).symm
  | .prototype _ h => by
      rw [Stmt.words, h.length_words]
      rfl
  | .define h braces body => by
      rw [Stmt.inner, total_cons, tokens_add, tokens_stmts body, Stmt.words, List.length_append,
        h.length_words, braces.length_words]
      rfl
  | .assign _ _ index value => by
      rw [Stmt.inner, total_append, tokens_add, tokens_elim, tokens_expr value, Stmt.words,
        Stmt.own]
      cases index <;> simp <;> omega
  | .call _ _ args => by
      rw [Stmt.inner, total_cons, tokens_add, tokens_args args, Stmt.words]
      simp [Construct.own, Stmt.own, length_separated, Expr.length_wordsIn]
      omega
  | .block braces body => by
      rw [Stmt.inner, total_cons, tokens_add, tokens_stmts body, Stmt.words, braces.length_words]
      exact Nat.zero_add _
  | .ifThen cond braces body => by
      rw [Stmt.inner, total_append, total_cons, tokens_add, tokens_add, tokens_expr cond,
        tokens_stmts body, Stmt.words, List.length_append, List.length_cons,
        cond.length_guardWords, braces.length_words, Stmt.own]
      dsimp only
      omega
  | .ifElse cond braces body elseBraces elseBody => by
      rw [Stmt.inner, total_append, total_append, total_cons, total_cons, tokens_add, tokens_add,
        tokens_add, tokens_add, tokens_expr cond, tokens_stmts body, tokens_stmts elseBody,
        Stmt.words, List.length_append, List.length_append, List.length_cons, List.length_cons,
        cond.length_guardWords, braces.length_words, elseBraces.length_words, Stmt.own]
      dsimp only
      omega
  | .whileLoop cond braces body => by
      rw [Stmt.inner, total_append, total_cons, tokens_add, tokens_add, tokens_expr cond,
        tokens_stmts body, Stmt.words, List.length_append, List.length_cons,
        cond.length_guardWords, braces.length_words, Stmt.own]
      dsimp only
      omega
  | .forLoop init cond update braces body => by
      rw [Stmt.inner, total_append, total_append, total_append, total_cons, tokens_add, tokens_add,
        tokens_add, tokens_add, tokens_part init, tokens_expr cond, tokens_stmts body,
        tokens_part update, Stmt.words, List.length_append, braces.length_words, Stmt.own]
      simp
      omega
  | .breakLoop _ | .continueLoop _ => rfl
  | .returnValue _ value => by
      rw [Stmt.inner, tokens_elim, Stmt.words, List.length_cons, Stmt.own]
      exact Nat.add_comm _ _

theorem tokens_part : (part : Option Stmt) →
    (total (Stmt.constructsBy part)).tokens = (Stmt.wordsBy part).length
  | none => rfl
  | some x => by
      rw [Stmt.constructsBy, Stmt.wordsBy, ← tokens_stmt x]
      rfl

theorem tokens_stmts : (body : List Stmt) →
    (total (Stmt.constructsIn body)).tokens = (Stmt.wordsIn body).length
  | [] => rfl
  | x :: rest => by
      rw [Stmt.constructsIn, List.cons_append, total_cons, total_append, tokens_add, tokens_add,
        tokens_stmts rest, Stmt.wordsIn, List.length_append, List.length_append, ← tokens_stmt x,
        x.length_terminator, Construct.own, tokens_add]
      dsimp only
      omega

end

end Words

/-! ### Outlines -/

/-- A text in the place of all others. -/
def Located.blank : Located String := ⟨"", {}⟩

mutual

/-- The expression without its names, literals, operators and places. -/
def Expr.outline : Expr → Expr
  | .literal .. => .literal {} (.bool true)
  | .var .. => .var {} ""
  | .element _ _ index => .element {} "" index.outline
  | .unary _ _ operand => .unary {} .neg operand.outline
  | .binary _ _ left right => .binary {} .add left.outline right.outline
  | .call _ _ args => .call {} .blank (Expr.outlines args)

def Expr.outlines : List Expr → List Expr
  | [] => []
  | arg :: args => arg.outline :: Expr.outlines args

end

/-- A declaration without its name, its type and the number of its elements. -/
def Declaration.outline (d : Declaration) : Declaration :=
  ⟨.blank, .blank, d.length.map fun _ => 0, d.init.map Expr.outline⟩

def Param.outline (p : Param) : Param := ⟨.blank, p.name.map fun _ => .blank⟩

def Heading.outline (h : Heading) : Heading := ⟨.blank, .blank, h.params.map Param.outline⟩

def Site.outline (site : Site) : Site := ⟨{}, site.terminated⟩

def Braces.outline (b : Braces) : Braces := ⟨{}, b.closed.map fun _ => {}⟩

namespace Stmt

mutual

/-- The statement without its names, types, literals, operators and places. What is missing in
it is still missing. -/
def outline : Stmt → Stmt
  | .declare site d => .declare site.outline d.outline
  | .prototype site h => .prototype site.outline h.outline
  | .define h braces body => .define h.outline braces.outline (outlines body)
  | .assign site _ index value =>
      .assign site.outline .blank (index.map Expr.outline) value.outline
  | .call site _ args => .call site.outline .blank (Expr.outlines args)
  | .block braces body => .block braces.outline (outlines body)
  | .ifThen cond braces body => .ifThen cond.outline braces.outline (outlines body)
  | .ifElse cond braces body elseBraces elseBody =>
      .ifElse cond.outline braces.outline (outlines body) elseBraces.outline (outlines elseBody)
  | .whileLoop cond braces body => .whileLoop cond.outline braces.outline (outlines body)
  | .forLoop init cond update braces body =>
      .forLoop (outlineOf init) cond.outline (outlineOf update) braces.outline (outlines body)
  | .breakLoop site => .breakLoop site.outline
  | .continueLoop site => .continueLoop site.outline
  | .returnValue site value => .returnValue site.outline (value.map Expr.outline)

/-- The outline of a part of a `for` header. -/
def outlineOf : Option Stmt → Option Stmt
  | none => none
  | some x => some x.outline

def outlines : List Stmt → List Stmt
  | [] => []
  | x :: rest => x.outline :: outlines rest

end

end Stmt

/-- The program without its names, types, literals, operators and places. -/
def Program.outline (p : Program) : Program := ⟨Stmt.outlines p.stmts⟩

section Outlines

open Construct

theorem Expr.length_outlines (args : List Expr) : (Expr.outlines args).length = args.length := by
  induction args with
  | nil => rfl
  | cons arg args ih => rw [Expr.outlines, List.length_cons, ih, List.length_cons]

mutual

/-- The nodes of an outline add what the nodes of the expression add. -/
theorem total_expr_outline : (e : Expr) → total e.outline.constructs = total e.constructs
  | .literal .. | .var .. => rfl
  | .element _ _ index => by
      rw [Expr.outline, Expr.constructs, Expr.constructs, total_cons, total_cons,
        total_expr_outline index]
      rfl
  | .unary _ _ operand => by
      rw [Expr.outline, Expr.constructs, Expr.constructs, total_cons, total_cons,
        total_expr_outline operand]
      rfl
  | .binary _ _ left right => by
      rw [Expr.outline, Expr.constructs, Expr.constructs, total_cons, total_cons, total_append,
        total_append, total_expr_outline left, total_expr_outline right]
      rfl
  | .call _ _ args => by
      rw [Expr.outline, Expr.constructs, Expr.constructs, total_cons, total_cons, total_cons,
        total_cons, total_args_outline args, Construct.own, Construct.own, Construct.own,
        Construct.own, Expr.length_outlines]
      rfl

theorem total_args_outline : (args : List Expr) →
    total (Expr.constructsIn (Expr.outlines args)) = total (Expr.constructsIn args)
  | [] => rfl
  | arg :: args => by
      rw [Expr.outlines, Expr.constructsIn, Expr.constructsIn, total_append, total_append,
        total_expr_outline arg, total_args_outline args]

end

theorem total_elim_outline (e : Option Expr) :
    total ((e.map Expr.outline).elim [] Expr.constructs) = total (e.elim [] Expr.constructs) := by
  cases e with
  | none => rfl
  | some e => exact total_expr_outline e

theorem Heading.tokens_outline (h : Heading) : h.outline.tokens = h.tokens := by
  have named (list : List Param) : (list.map Param.outline).countP (·.name.isSome) =
      list.countP (·.name.isSome) := by
    rw [List.countP_map]
    refine List.countP_congr fun p _ => ?_
    rw [Function.comp_apply, Param.outline, Option.isSome_map]
  rw [Heading.tokens, Heading.tokens, Heading.outline]
  dsimp only
  rw [List.length_map, named]

theorem Braces.own_outline (b : Braces) : (Construct.block b.outline).own = (block b).own := by
  rw [Construct.own, Construct.own, Braces.outline, Option.isSome_map]

/-- What a statement adds itself does not hang on what an outline leaves out. -/
theorem Stmt.own_outline (x : Stmt) : x.outline.own = x.own := by
  cases x with
  | declare _ d =>
      rw [Stmt.outline, Stmt.own, Stmt.own, Declaration.outline, Option.isSome_map,
        Option.isSome_map]
  | prototype _ h => exact congrArg (Statistics.mk 1) h.tokens_outline
  | define h _ _ =>
      rw [Stmt.outline]
      exact congrArg (Statistics.mk 1) h.tokens_outline
  | assign _ _ index _ => rw [Stmt.outline, Stmt.own, Stmt.own, Option.isSome_map]
  | _ => rw [Stmt.outline, Stmt.own, Stmt.own]

theorem Stmt.isTerminated_outline (x : Stmt) : x.outline.isTerminated = x.isTerminated := by
  cases x <;> rw [Stmt.outline] <;> rfl

mutual

theorem total_inner_outline : (x : Stmt) → total x.outline.inner = total x.inner
  | .declare _ d => total_elim_outline d.init
  | .prototype .. | .breakLoop _ | .continueLoop _ => rfl
  | .define _ braces body | .block braces body => by
      rw [Stmt.outline, Stmt.inner, Stmt.inner, total_cons, total_cons, braces.own_outline,
        total_stmts_outline body]
  | .assign _ _ index value => by
      rw [Stmt.outline, Stmt.inner, Stmt.inner, total_append, total_append, total_elim_outline,
        total_expr_outline value]
  | .call _ _ args => by
      rw [Stmt.outline, Stmt.inner, Stmt.inner, total_cons, total_cons, total_args_outline args,
        Construct.own, Construct.own, Expr.length_outlines]
  | .ifThen cond braces body | .whileLoop cond braces body => by
      rw [Stmt.outline, Stmt.inner, Stmt.inner, total_append, total_append, total_cons, total_cons,
        total_expr_outline cond, braces.own_outline, total_stmts_outline body]
  | .ifElse cond braces body elseBraces elseBody => by
      rw [Stmt.outline, Stmt.inner, Stmt.inner]
      simp only [total_append, total_cons, total_expr_outline cond, Braces.own_outline,
        total_stmts_outline body, total_stmts_outline elseBody]
  | .forLoop init cond update braces body => by
      rw [Stmt.outline, Stmt.inner, Stmt.inner]
      simp only [total_append, total_cons, total_expr_outline cond, Braces.own_outline,
        total_part_outline init, total_stmts_outline body, total_part_outline update]
  | .returnValue _ value => total_elim_outline value

theorem total_part_outline : (part : Option Stmt) →
    total (Stmt.constructsBy (Stmt.outlineOf part)) = total (Stmt.constructsBy part)
  | none => rfl
  | some x => by
      rw [Stmt.outlineOf, Stmt.constructsBy, Stmt.constructsBy, total_cons, total_cons,
        total_inner_outline x, Construct.own, Construct.own, x.own_outline]

theorem total_stmts_outline : (body : List Stmt) →
    total (Stmt.constructsIn (Stmt.outlines body)) = total (Stmt.constructsIn body)
  | [] => rfl
  | x :: rest => by
      rw [Stmt.outlines, Stmt.constructsIn, Stmt.constructsIn, List.cons_append, List.cons_append,
        total_cons, total_cons, total_append, total_append, total_inner_outline x,
        total_stmts_outline rest, Construct.own, Construct.own, x.own_outline,
        x.isTerminated_outline]

end

end Outlines

/-! ### Counting -/

namespace Check

open Construct

variable {α β : Type} {n n' : Statistics}

/-- An action that adds so much to the statistics, in whatever state it starts. -/
def Counts (n : Statistics) (action : Check α) : Prop :=
  ∀ c : State, (action c).2.stats = c.stats + n

/-- An action that leaves the statistics alone. -/
def Silent (action : Check α) : Prop := ∀ c : State, (action c).2.stats = c.stats

theorem Counts.bind {action : Check α} {next : α → Check β} (first : Counts n action)
    (second : ∀ a, Counts n' (next a)) : Counts (n + n') (action >>= next) := by
  intro c
  have last := second (action c).1 (action c).2
  rw [first c, Statistics.add_assoc] at last
  exact last

/-- Behind an action that counts, nothing more is counted. -/
theorem Counts.still {action : Check α} {next : α → Check β} (first : Counts n action)
    (second : ∀ a, Silent (next a)) : Counts n (action >>= next) :=
  fun c => (second (action c).1 (action c).2).trans (first c)

namespace Silent

theorem pure (a : α) : Silent (Pure.pure a : Check α) := fun _ => rfl

theorem bind {action : Check α} {next : α → Check β} (first : Silent action)
    (second : ∀ a, Silent (next a)) : Silent (action >>= next) :=
  fun c => (second (action c).1 (action c).2).trans (first c)

/-- Only what follows is counted. -/
theorem before {action : Check α} {next : α → Check β} (first : Silent action)
    (second : ∀ a, Counts n (next a)) : Counts n (action >>= next) := by
  intro c
  have last := second (action c).1 (action c).2
  rw [first c] at last
  exact last

theorem counts {action : Check α} (silent : Silent action) : Counts {} action := silent

theorem forM {f : α → Check PUnit} (each : ∀ a, Silent (f a)) (list : List α) :
    Silent (list.forM f) := by
  induction list with
  | nil => exact .pure _
  | cons a rest ih => exact (each a).bind fun _ => ih

theorem mapM {f : α → Check β} (each : ∀ a, Silent (f a)) (list : List α) :
    Silent (list.mapM f) := by
  induction list with
  | nil => exact .pure _
  | cons a rest ih =>
      intro c
      rw [mapM_cons_eq]
      exact (ih (f a c).2).trans (each a c)

end Silent

theorem counts_visit (tokens : Nat) : Counts ⟨1, tokens⟩ (visit tokens) := fun _ => rfl

/-! ### Actions that only look and report -/

theorem silent_complain (finding : Finding) (pos : Position) : Silent (complain finding pos) :=
  fun _ => rfl

theorem silent_complainOf (fault : Option (Finding × Position)) : Silent (complainOf fault) := by
  cases fault with
  | none => exact .pure _
  | some f => exact silent_complain f.1 f.2

theorem silent_sweep (symbols : List Symbol) : Silent (sweep symbols) :=
  .forM (fun _ _ => rfl) _

theorem silent_openScope : Silent openScope := fun _ => rfl

theorem silent_closeScope : Silent closeScope := by
  intro c
  rw [closeScope_eq]
  split
  · rfl
  · exact silent_sweep _ _

theorem silent_readVariable (name : String) (pos : Position) (isElement : Bool) :
    Silent (readVariable name pos isElement) := by
  intro c
  rw [readVariable, lookup_bind]
  cases c.env.stack.lookup name with
  | none => exact silent_complainOf _ c
  | some symbol =>
      dsimp only
      split
      · rfl
      · exact silent_complainOf _ _

theorem silent_checkIndex (pos : Position) (found : Option Ty) :
    Silent (checkIndex pos found) := by
  intro c
  cases found with
  | none => rfl
  | some t => cases t <;> rfl

theorem silent_checkUnary (op : UnOp) (pos : Position) (found : Option Ty) :
    Silent (checkUnary op pos found) := by
  intro c
  cases found with
  | none => rfl
  | some t => cases t <;> rfl

theorem silent_checkBinary (op : BinOp) (pos : Position) (left right : Option Ty) :
    Silent (checkBinary op pos left right) := by
  unfold checkBinary
  split
  · split
    · exact .pure _
    · exact (silent_complain _ pos).bind fun _ => .pure _
  · exact .pure _

theorem silent_checkCall (callee : Located String) (args : List (Position × Option Ty))
    (isValue : Bool) : Silent (checkCall callee args isValue) := by
  intro c
  rw [checkCall, lookup_bind]
  cases c.env.stack.lookup callee.val with
  | none => exact silent_complainOf _ c
  | some symbol =>
      dsimp only
      cases symbol.signature? with
      | none => rfl
      | some signature =>
          have faults := Silent.forM (f := fun fault : Finding × Position =>
            complain fault.1 fault.2) (fun _ _ => rfl) (callFaults callee args signature.params)
          cases isValue && symbol.type == .void <;>
            exact faults (update callee.val ({ · with used := true }) c).2

mutual

/-- Whatever type is found, every node of an expression is counted. -/
theorem counts_inferExpr : (e : Expr) → Counts (total e.constructs) (inferExpr e)
  | .literal _ value => (counts_visit 1).still fun _ => .pure (some value.type)
  | .var pos name => by
      rw [inferExpr]
      exact (counts_visit 1).still fun _ => silent_readVariable name pos false
  | .element pos array index => by
      rw [inferExpr]
      exact (counts_visit 3).bind fun _ => (counts_inferExpr index).still fun found =>
        (silent_checkIndex index.pos found).bind fun _ => silent_readVariable array pos true
  | .unary pos op operand => by
      rw [inferExpr]
      exact (counts_visit 1).bind fun _ => (counts_inferExpr operand).still fun found =>
        silent_checkUnary op pos found
  | .binary pos op left right => by
      rw [inferExpr, Expr.constructs, total_cons, total_append]
      exact (counts_visit 1).bind fun _ => (counts_inferExpr left).bind fun found =>
        (counts_inferExpr right).still fun found' => silent_checkBinary op pos found found'
  | .call pos callee args => by
      have added : (Construct.expr (.call pos callee args)).own = {} := rfl
      rw [inferExpr, Expr.constructs, total_cons, added, Statistics.zero_add, total_cons]
      exact (counts_visit _).bind fun _ => (counts_inferArgs args).still fun found =>
        silent_checkCall callee found true

theorem counts_inferArgs : (args : List Expr) →
    Counts (total (Expr.constructsIn args)) (inferArgs args)
  | [] => (Silent.pure _).counts
  | arg :: args => by
      rw [inferArgs, Expr.constructsIn, total_append]
      exact (counts_inferExpr arg).bind fun _ => (counts_inferArgs args).still fun _ => .pure _

end

theorem silent_resolveType (text : Located String) : Silent (resolveType text) := by
  unfold resolveType
  split
  · exact .pure _
  · exact (silent_complain _ text.pos).bind fun _ => .pure _

theorem silent_resolveVariableType (text : Located String) (name : String) (pos : Position) :
    Silent (resolveVariableType text name pos) := by
  refine (silent_resolveType text).bind fun found => ?_
  split
  · exact (silent_complain _ pos).bind fun _ => .pure _
  · exact .pure _

theorem silent_declareVariable (name : Located String) (type? : Option Ty)
    (length : Option UInt32) (isParam initialized : Bool) :
    Silent (declareVariable name type? length isParam initialized) := by
  intro c
  cases type? <;> rfl

theorem silent_declareFound (d : Declaration) (found : Option Ty) :
    Silent (declareFound d found) := by
  intro c
  rw [declareFound_eq]
  split
  · rfl
  · have resolved := silent_resolveVariableType d.type d.name.val d.name.pos c
    have stored (type? : Option Ty) (c : State) :=
      silent_complainOf (initFault? d found type?) c
    exact ((silent_declareVariable _ _ _ _ _ _).trans (stored _ _)).trans resolved

theorem counts_checkDeclaration (site : Site) (d : Declaration) :
    Counts ((Stmt.declare site d).own + total (Stmt.declare site d).inner)
      (checkDeclaration d) := by
  intro c
  rw [checkDeclaration_eq]
  have visited : (visitDeclaration d c).2.stats = c.stats + (Stmt.declare site d).own := rfl
  have valued : Counts (total (d.init.elim [] Expr.constructs)) (initType d) := by
    unfold initType
    cases d.init with
    | none => exact (Silent.pure _).counts
    | some init => exact counts_inferExpr init
  dsimp only
  rw [silent_declareFound, valued, visited, Statistics.add_assoc]
  rfl

theorem silent_paramTypes (h : Heading) : Silent (paramTypes h) := by
  unfold paramTypes
  split
  · exact .pure _
  · exact .mapM (fun p => silent_resolveVariableType _ _ _) _

theorem silent_enterFunction (h : Heading) (result? : Option Ty) (types? : List (Option Ty))
    (defining : Bool) : Silent (enterFunction h result? types? defining) := by
  unfold enterFunction
  split
  · intro c
    rw [declareFunction_eq]
    split
    · rfl
    · split <;> rfl
    · rfl
  · exact .pure _

theorem counts_checkHeading (h : Heading) (defining : Bool) :
    Counts ⟨1, h.tokens⟩ (checkHeading h defining) := by
  intro c
  rw [checkHeading_eq]
  dsimp only
  rw [silent_enterFunction, silent_paramTypes, silent_resolveType]
  rfl

theorem silent_declareParams : (params : List Param) → (types : List (Option Ty)) →
    Silent (declareParams params types)
  | [], _ => by
      unfold declareParams
      exact .pure _
  | _ :: _, [] => by
      unfold declareParams
      exact .pure _
  | p :: params, type? :: types => by
      unfold declareParams
      cases p.name with
      | none => exact silent_declareParams params types
      | some name =>
          refine Silent.bind (fun _ => rfl) fun taken => ?_
          dsimp only
          split
          · exact (silent_complain _ name.pos).bind fun _ => silent_declareParams params types
          · exact (silent_declareVariable name type? none true true).bind fun _ =>
              silent_declareParams params types

theorem silent_checkReturned (name : Located String) (context : Option Context) :
    Silent (checkReturned name context) := by
  unfold checkReturned
  split
  · split
    · exact .pure _
    · exact silent_complain _ _
  · exact .pure _

theorem silent_checkTarget (target : Located String) (isElement : Bool) (valuePos : Position)
    (found : Option Ty) : Silent (checkTarget target isElement valuePos found) := by
  intro c
  rw [checkTarget, lookup_bind]
  cases c.env.stack.lookup target.val with
  | none => exact silent_complainOf _ c
  | some symbol =>
      dsimp only
      split
      · rfl
      · exact silent_complainOf _ _

theorem counts_checkAssign (site : Site) (target : Located String) (index : Option Expr)
    (value : Expr) : Counts ((Stmt.assign site target index value).own +
      total (Stmt.assign site target index value).inner) (checkAssign target index value) := by
  intro c
  have visited : (visitAssign target index c).stats =
      c.stats + (Stmt.assign site target index value).own := rfl
  rw [Stmt.inner, total_append, ← Statistics.add_assoc, ← Statistics.add_assoc, ← visited]
  cases index with
  | none =>
      rw [checkAssign_none]
      dsimp only
      rw [silent_checkTarget]
      exact counts_inferExpr value _
  | some index =>
      rw [checkAssign_some]
      dsimp only
      rw [silent_checkTarget]
      dsimp only
      rw [counts_inferExpr value, silent_checkIndex, counts_inferExpr index]
      rfl

theorem silent_checkResult (pos : Position) (found : Option (Position × Option Ty)) :
    Silent (checkResult pos found) := by
  intro c
  unfold checkResult
  rw [get_bind]
  cases c.function with
  | none => rfl
  | some context => exact silent_complainOf _ _

theorem counts_checkReturn (pos : Position) (value : Option Expr) :
    Counts (⟨1, 1⟩ + total (value.elim [] Expr.constructs)) (checkReturn pos value) := by
  intro c
  cases value with
  | none =>
      rw [checkReturn_none]
      exact silent_checkResult pos none _
  | some e =>
      rw [checkReturn_some]
      dsimp only
      rw [silent_checkResult, counts_inferExpr, ← Statistics.add_assoc]
      rfl

theorem counts_checkInLoop (finding : Finding) (pos : Position) :
    Counts ⟨1, 1⟩ (checkInLoop finding pos) := by
  refine (counts_visit 1).still fun _ => Silent.bind (fun _ => rfl) fun c => ?_
  split
  · exact silent_complain finding pos
  · exact .pure _

theorem silent_enterLoop : Silent enterLoop := fun _ => rfl

theorem silent_leaveLoop : Silent leaveLoop := fun _ => rfl

theorem counts_openBraces (braces : Braces) : Counts (block braces).own (openBraces braces) :=
  counts_visit _

theorem silent_closeBraces (braces : Braces) : Silent (closeBraces braces) := by
  unfold closeBraces
  split
  · exact silent_complain _ _
  · exact .pure _

theorem counts_checkTerminator (x : Stmt) :
    Counts ⟨0, if x.isTerminated then 1 else 0⟩ (checkTerminator x) := by
  intro c
  rw [checkTerminator, Stmt.isTerminated]
  cases x.site? with
  | none => rfl
  | some site =>
      obtain ⟨pos, terminated⟩ := site
      cases terminated <;> rfl

theorem counts_inBlock {inside : Check Unit} (braces : Braces) (counts : Counts n inside) :
    Counts ((block braces).own + n) (inBlock braces inside) :=
  silent_openScope.before fun _ => (counts_openBraces braces).bind fun _ => counts.still fun _ =>
    (silent_closeBraces braces).bind fun _ => silent_closeScope

theorem counts_checkBody {h : Heading} {braces : Braces} {body : List Stmt}
    {found : Option Ty × List (Option Ty)} (counts : Counts n (checkStmts body)) :
    Counts ((block braces).own + n) (checkBody h braces body found) := by
  intro c
  have entered : (enterBody h braces found c).2.stats = c.stats + (block braces).own := by
    have params := silent_declareParams h.params found.2
    exact (Silent.before (fun _ => rfl) fun _ => silent_openScope.before fun _ =>
      params.before fun _ => counts_openBraces braces) c
  rw [checkBody_eq]
  dsimp only
  rw [silent_checkReturned]
  dsimp only
  rw [silent_closeScope, silent_closeBraces, counts, entered, Statistics.add_assoc]

mutual

/-- Whatever is found wrong with a statement, it is counted, and so is every node in it. -/
theorem counts_checkStmt : (x : Stmt) → Counts (x.own + total x.inner) (checkStmt x)
  | .declare site d => by
      rw [checkStmt]
      exact counts_checkDeclaration site d
  | .prototype site h => fun c => by
      rw [checkStmt_prototype]
      exact counts_checkHeading h false c
  | .define h braces body => fun c => by
      rw [checkStmt_define, counts_checkBody (counts_checkStmts body), counts_checkHeading,
        Statistics.add_assoc]
      rfl
  | .assign site target index value => by
      rw [checkStmt]
      exact counts_checkAssign site target index value
  | .call site callee args => by
      rw [checkStmt]
      exact (counts_visit 0).bind fun _ => (counts_visit _).bind fun _ =>
        (counts_inferArgs args).still fun found =>
          (silent_checkCall callee found false).bind fun _ => .pure _
  | .block braces body => by
      rw [checkStmt, Stmt.own, Statistics.zero_add]
      exact counts_inBlock braces (counts_checkStmts body)
  | .ifThen cond braces body => by
      rw [checkStmt, Stmt.inner, total_append]
      exact (counts_visit 3).bind fun _ => (counts_inferExpr cond).bind fun _ =>
        counts_inBlock braces (counts_checkStmts body)
  | .ifElse cond braces body elseBraces elseBody => by
      rw [checkStmt, Stmt.inner, total_append, total_append, Statistics.add_assoc]
      exact (counts_visit 4).bind fun _ => (counts_inferExpr cond).bind fun _ =>
        (counts_inBlock braces (counts_checkStmts body)).bind fun _ =>
          counts_inBlock elseBraces (counts_checkStmts elseBody)
  | .whileLoop cond braces body => by
      rw [checkStmt, Stmt.inner, total_append]
      exact (counts_visit 3).bind fun _ => silent_enterLoop.before fun _ =>
        (counts_inferExpr cond).bind fun _ =>
          (counts_inBlock braces (counts_checkStmts body)).still fun _ => silent_leaveLoop
  | .forLoop init cond update braces body => by
      rw [checkStmt, Stmt.inner, total_append, total_append, total_append, Statistics.add_assoc]
      exact (counts_visit 5).bind fun _ => silent_openScope.before fun _ =>
        (counts_checkHeader init).bind fun _ => silent_enterLoop.before fun _ =>
          (counts_inferExpr cond).bind fun _ =>
            (counts_inBlock braces (counts_checkStmts body)).bind fun _ =>
              (counts_checkHeader update).still fun _ =>
                silent_leaveLoop.bind fun _ => silent_closeScope
  | .breakLoop site => by
      rw [checkStmt]
      exact counts_checkInLoop .breakOutsideLoop site.pos
  | .continueLoop site => by
      rw [checkStmt]
      exact counts_checkInLoop .continueOutsideLoop site.pos
  | .returnValue site value => by
      rw [checkStmt]
      exact counts_checkReturn site.pos value

theorem counts_checkHeader : (part : Option Stmt) →
    Counts (total (Stmt.constructsBy part)) (checkHeader part)
  | none => by
      rw [checkHeader]
      exact (Silent.pure _).counts
  | some x => by
      rw [checkHeader]
      exact counts_checkStmt x

theorem counts_checkStmts : (body : List Stmt) →
    Counts (total (Stmt.constructsIn body)) (checkStmts body)
  | [] => by
      rw [checkStmts]
      exact (Silent.pure _).counts
  | x :: rest => by
      rw [checkStmts, Stmt.constructsIn, List.cons_append, total_cons, total_append,
        Construct.own, Statistics.add_assoc, ← Statistics.add_assoc x.own]
      exact (counts_checkTerminator x).bind fun _ => (counts_checkStmt x).bind fun _ =>
        counts_checkStmts rest

end

theorem stats_check (p : Program) (log : Diagnostics) :
    (p.check log).stats = total p.constructs := by
  have counts : Counts (total p.constructs) (checkProgram p) := by
    unfold checkProgram
    exact (counts_visit 0).bind fun _ => silent_openScope.before fun _ =>
      (counts_checkStmts p.stmts).still fun _ => Silent.bind (fun _ => rfl) fun c =>
        (silent_sweep c.env.stack.values).bind fun _ _ => rfl
  exact (counts { diagnostics := log }).trans (Statistics.zero_add _)

/-- The statistics of a program are the sum of what its nodes add, each taken once, whatever is
found wrong with it. They count the tokens that the program is written with, and are the same for
all programs of one outline. -/
theorem check_counts (p : Program) (log : Diagnostics) :
    (p.check log).stats = total p.constructs ∧ (p.check log).stats.tokens = p.words.length ∧
      ∀ (q : Program) (log' : Diagnostics), q.outline = p.outline →
        (q.check log').stats = (p.check log).stats := by
  refine ⟨stats_check p log, ?_, ?_⟩
  · rw [stats_check, Program.constructs, total_cons, Statistics.tokens_add, tokens_stmts,
      Program.words]
    exact Nat.zero_add _
  · intro q log' alike
    have outlined (p : Program) : total p.outline.constructs = total p.constructs := by
      rw [Program.constructs, total_cons, Program.outline, total_stmts_outline]
      rfl
    rw [stats_check, stats_check, ← outlined q, alike, outlined p]

/-- A function that returns one more than a variable. -/
def successor (type result operand : String) : Program :=
  ⟨[.define ⟨⟨result, {}⟩, ⟨"f", {}⟩, [⟨⟨type, {}⟩, some ⟨"a", {}⟩⟩]⟩ {}
    [.returnValue {} (some (.binary {} .add (.var {} operand) (.literal {} (.number "1"))))]]⟩

/-- Thirteen tokens each, one program with errors and one without. -/
theorem successor_counts :
    ((successor "int" "int" "a").check {}).diagnostics.hasErrors = false ∧
      ((successor "void" "string" "b").check {}).diagnostics.hasErrors = true ∧
      ((successor "int" "int" "a").check {}).stats.tokens = 13 ∧
      ((successor "void" "string" "b").check {}).stats =
        ((successor "int" "int" "a").check {}).stats := by
  obtain ⟨-, words, alike⟩ := check_counts (successor "int" "int" "a") {}
  refine ⟨by decide +kernel, by decide +kernel, words, ?_⟩
  apply alike
  rfl

end Check

end BraceLang
