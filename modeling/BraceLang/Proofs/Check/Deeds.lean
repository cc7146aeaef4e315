import BraceLang.Proofs.Check.Growth
import BraceLang.Proofs.Stacks

/-!
What checking does to the scopes. The deeds of a statement are the scopes that it opens and
closes, the variables and functions that it declares, and the names that it uses, in the order of
the checking. They can be read off the tree, whatever is found wrong with it; what a deed comes to
depends on the scopes alone.

A checker passes through some deeds if it carries them out one after the other. In between the
scopes stay as they are, and errors may be logged, but no warning and no finding about the
signature of a function.

**Main results.** `Deed.run_spec`: what one deed does to the scopes and to the log. `Passes.stack`
and `Passes.log`: what passing through deeds comes to.
-/

namespace BraceLang

/-! ### Deeds -/

namespace Check

/-- A step of the checking that the scopes take part in. -/
inductive Deed where
  | opens
  | closes
  /-- Declares a variable whose type is known. -/
  | declares (name : Located String) (type : Ty) (length : Option UInt32)
      (isParam hasValue : Bool)
  /-- Compares a heading whose types are known with what its name stands for, or enters it. -/
  | enters (h : Heading) (result : Ty) (types : List Ty) (defining : Bool)
  | reads (name : String)
  | calls (name : String)
  | assigns (name : String)

/-- Changes the symbol that a name stands for here, if it passes a test. -/
def mark (name : String) (test : Symbol → Bool) (f : Symbol → Symbol) : Check Unit := do
  match ← lookup name with
  | none => pure ()
  | some symbol => if test symbol then update name f

/-- What is done; a scope that closes is swept. -/
def Deed.run : Deed → Check Unit
  | opens => openScope
  | closes => closeScope
  | declares name type length isParam hasValue => do
      let isGlobal := (← get).env.stack.isGlobal
      declare (Symbol.ofVariable name.val type name.pos length isParam (isGlobal || hasValue))
  | enters h result types defining => declareFunction h result types defining
  | reads name => mark name (!·.isFunction) ({ · with used := true })
  | calls name => mark name Symbol.isFunction ({ · with used := true })
  | assigns name => mark name (!·.isFunction) ({ · with initialized := true })

end Check

open Check

/-- The type of a variable, if the text names one that variables can have. -/
def Ty.ofVariable? (text : String) : Option Ty :=
  match Ty.parse? text with
  | some .void => none
  | t => t

mutual

/-- The names that an expression reads and calls, in the order of the checking. -/
def Expr.deeds : Expr → List Deed
  | .literal .. => []
  | .var _ name => [.reads name]
  | .element _ array index => index.deeds ++ [.reads array]
  | .unary _ _ operand => operand.deeds
  | .binary _ _ left right => left.deeds ++ right.deeds
  | .call _ callee args => Expr.deedsIn args ++ [.calls callee.val]

def Expr.deedsIn : List Expr → List Deed
  | [] => []
  | arg :: args => arg.deeds ++ Expr.deedsIn args

end

/-- A variable is declared after its initial value has been checked. -/
def Declaration.deeds (d : Declaration) : List Deed :=
  d.init.elim [] Expr.deeds ++ ((Ty.ofVariable? d.type.val).map fun t =>
    .declares d.name t d.length false (d.init.isSome || d.length.isSome)).toList

namespace Heading

/-- The types of the arguments, as far as they are known. -/
def types? (h : Heading) : List (Option Ty) :=
  if h.takesVoid then [] else h.params.map fun p => Ty.ofVariable? p.type.val

def deeds (h : Heading) (defining : Bool) : List Deed :=
  (Ty.parse? h.result.val).elim [] fun result =>
    ((h.types?.mapM id).map fun types => .enters h result types defining).toList

end Heading

/-- The parameters that have a name and a type. -/
def Param.deeds : List Param → List (Option Ty) → List Deed
  | p :: params, type? :: types =>
      (p.name.elim [] fun name => (type?.map fun t => .declares name t none true true).toList) ++
        Param.deeds params types
  | _, _ => []

namespace Stmt

mutual

/-- What checking a statement does to the scopes. -/
def deeds : Stmt → List Deed
  | .declare _ d => d.deeds
  | .prototype _ h => h.deeds false
  | .define h _ body =>
      h.deeds true ++ .opens :: (Param.deeds h.params h.types? ++ deedsIn body ++ [.closes])
  | .assign _ target index value =>
      index.elim [] Expr.deeds ++ value.deeds ++ [.assigns target.val]
  | .call _ callee args => Expr.deedsIn args ++ [.calls callee.val]
  | .block _ body => .opens :: (deedsIn body ++ [.closes])
  | .ifThen cond _ body | .whileLoop cond _ body =>
      cond.deeds ++ .opens :: (deedsIn body ++ [.closes])
  | .ifElse cond _ body _ elseBody =>
      cond.deeds ++ .opens :: (deedsIn body ++ [.closes]) ++
        .opens :: (deedsIn elseBody ++ [.closes])
  | .forLoop init cond update _ body =>
      .opens :: (deedsBy init ++ (cond.deeds ++ .opens :: (deedsIn body ++ [.closes])) ++
        deedsBy update ++ [.closes])
  | .breakLoop _ | .continueLoop _ => []
  | .returnValue _ value => value.elim [] Expr.deeds

/-- The deeds of a part of a `for` header. -/
def deedsBy : Option Stmt → List Deed
  | none => []
  | some x => x.deeds

def deedsIn : List Stmt → List Deed
  | [] => []
  | x :: rest => x.deeds ++ deedsIn rest

end

end Stmt

/-- The deeds of a whole program, from opening the global scope to closing it. -/
def Program.deeds (p : Program) : List Deed := .opens :: (Stmt.deedsIn p.stmts ++ [.closes])

/-! ### What happens in between -/

/-- The finding compares a heading with the function that its name stands for already. -/
def Finding.isOfSignature : Finding → Bool
  | .incompatibleSignature _ | .functionRedefinition _ => true
  | _ => false

/-- An error that is not about the signature of a function. -/
def Diagnostic.isPlain (d : Diagnostic) : Bool := d.isError && !d.finding.isOfSignature

namespace Check

/-- Where the checker stands: the open loops, the enclosing function, the target of the
assignment. -/
def State.place (c : State) : Nat × Option Context × Option String :=
  (c.loops, c.function, c.assigning)

/-- From the first state to the second the scopes are left alone, and only plain errors are
logged. If the way is `strict`, the checker stands where it stood. -/
structure State.Aside (strict : Bool) (c c' : State) : Prop where
  stack : c'.env.stack = c.env.stack
  log : ∃ errors, c'.diagnostics.entries = c.diagnostics.entries ++ errors ∧
    ∀ d ∈ errors, d.isPlain = true
  place : strict = true → c'.place = c.place

namespace State.Aside

variable {strict : Bool} {c c' c'' : State}

theorem of_same (stack : c'.env.stack = c.env.stack) (log : c'.diagnostics = c.diagnostics)
    (place : strict = true → c'.place = c.place) : c.Aside strict c' where
  stack := stack
  log := ⟨[], by rw [log, List.append_nil], List.forall_mem_nil _⟩
  place := place

theorem refl (c : State) : c.Aside strict c := of_same rfl rfl fun _ => rfl

theorem trans (first : c.Aside strict c') (second : c'.Aside strict c'') :
    c.Aside strict c'' where
  stack := second.stack.trans first.stack
  log := by
    obtain ⟨errors, log, plain⟩ := first.log
    obtain ⟨errors', log', plain'⟩ := second.log
    refine ⟨errors ++ errors', ?_, List.forall_mem_append.mpr ⟨plain, plain'⟩⟩
    rw [log', log, List.append_assoc]
  place isStrict := (second.place isStrict).trans (first.place isStrict)

theorem loosen (aside : c.Aside true c') : c.Aside false c' :=
  ⟨aside.stack, aside.log, fun strict => absurd strict Bool.false_ne_true⟩

/-- Where the checker stands may change on a way that is not strict. -/
theorem of_unchanged (stack : c'.env.stack = c.env.stack) (log : c'.diagnostics = c.diagnostics) :
    c.Aside false c' :=
  of_same stack log fun strict => absurd strict Bool.false_ne_true

end State.Aside

/-- The checker gets from the first state to the second by carrying out the deeds. -/
inductive Passes (strict : Bool) : State → List Deed → State → Prop
  | done (c : State) : Passes strict c [] c
  | aside {c c₁ c' ds} (between : c.Aside strict c₁) (rest : Passes strict c₁ ds c') :
      Passes strict c ds c'
  | deed {c c' d ds} (rest : Passes strict (Deed.run d c).2 ds c') :
      Passes strict c (d :: ds) c'

namespace Passes

variable {strict : Bool} {c c' c'' : State} {d : Deed} {ds ds' : List Deed}

theorem of_aside (between : c.Aside strict c') : Passes strict c [] c' := .aside between (.done c')

/-- One deed, and what follows it. -/
theorem one (behind : (d.run c).2.Aside strict c') : Passes strict c [d] c' :=
  .deed (.of_aside behind)

theorem append (first : Passes strict c ds c') (second : Passes strict c' ds' c'') :
    Passes strict c (ds ++ ds') c'' := by
  induction first with
  | done => exact second
  | aside between _ ih => exact .aside between (ih second)
  | deed _ ih => exact .deed (ih second)

theorem append_aside (first : Passes strict c ds c') (between : c'.Aside strict c'') :
    Passes strict c ds c'' := by
  have all := first.append (.of_aside between)
  rwa [List.append_nil] at all

theorem loosen (passes : Passes true c ds c') : Passes false c ds c' := by
  induction passes with
  | done c => exact .done c
  | aside between _ ih => exact .aside between.loosen ih
  | deed _ ih => exact .deed ih

/-- A deed is carried out in a state that is reached without one. -/
theorem head (passes : Passes strict c (d :: ds) c') :
    ∃ c₁, c.Aside strict c₁ ∧ Passes strict (d.run c₁).2 ds c' := by
  generalize is : d :: ds = all at passes
  induction passes with
  | done => contradiction
  | aside between _ ih =>
      obtain ⟨c₁, first, rest⟩ := ih is
      exact ⟨c₁, between.trans first, rest⟩
  | deed rest =>
      obtain ⟨rfl, rfl⟩ := List.cons.inj is
      exact ⟨_, .refl _, rest⟩

/-- There is a state between any two deeds. -/
theorem split (passes : Passes strict c (ds ++ ds') c'') :
    ∃ c', Passes strict c ds c' ∧ Passes strict c' ds' c'' := by
  induction ds generalizing c with
  | nil => exact ⟨c, .done c, passes⟩
  | cons d ds ih =>
      obtain ⟨c₁, between, rest⟩ := passes.head
      obtain ⟨c', first, second⟩ := ih rest
      exact ⟨c', .aside between (.deed first), second⟩

end Passes

/-! ### Deeds step by step -/

theorem run_mark (name : String) (test : Symbol → Bool) (f : Symbol → Symbol) (c : State) :
    (mark name test f c).2 = match c.env.stack.lookup name with
      | none => c
      | some symbol => if test symbol then (update name f c).2 else c := by
  unfold mark
  rw [lookup_bind]
  cases c.env.stack.lookup name with
  | none => rfl
  | some symbol =>
      dsimp only
      split <;> rfl

theorem sweep_spec (symbols : List Symbol) (c : State) :
    (sweep symbols c).2.env.stack = c.env.stack ∧
      (sweep symbols c).2.diagnostics.entries = c.diagnostics.entries ++ leftovers symbols ∧
      (sweep symbols c).2.place = c.place := by
  unfold sweep
  generalize leftovers symbols = ds
  induction ds generalizing c with
  | nil => exact ⟨rfl, (List.append_nil _).symm, rfl⟩
  | cons d ds ih =>
      obtain ⟨stack, log, place⟩ := ih (report d c).2
      refine ⟨stack, log.trans ?_, place⟩
      change c.diagnostics.entries ++ [d] ++ ds = _
      rw [List.append_assoc]
      rfl

namespace Deed

/-- Changes the symbol that a name stands for in the innermost scope, if it passes a test. -/
def marked (t : ScopeStack Symbol) (name : String) (test : Symbol → Bool) (f : Symbol → Symbol) :
    ScopeStack Symbol :=
  if (t.lookup name).any test then t.update name f else t

/-- The symbol that a declaration makes. -/
def symbol (t : ScopeStack Symbol) (name : Located String) (type : Ty) (length : Option UInt32)
    (isParam hasValue : Bool) : Symbol :=
  Symbol.ofVariable name.val type name.pos length isParam (t.isGlobal || hasValue)

/-- The open scopes after a deed. -/
def on (t : ScopeStack Symbol) : Deed → ScopeStack Symbol
  | opens => t.push
  | closes => ⟨t.scopes.tail⟩
  | declares name type length isParam hasValue =>
      (t.declare? name.val (symbol t name type length isParam hasValue)).getD t
  | enters h result types defining =>
      match standing h.name.val result types defining (t.lookupGlobal h.name.val) with
      | .fresh => (t.declareGlobal? h.name.val (headingSymbol h result types defining)).getD t
      | .fits => if defining then t.updateGlobal h.name.val (completed (paramNames h)) else t
      | .conflict _ => t
  | reads name => marked t name (!·.isFunction) ({ · with used := true })
  | calls name => marked t name Symbol.isFunction ({ · with used := true })
  | assigns name => marked t name (!·.isFunction) ({ · with initialized := true })

/-- What is logged about a deed. -/
def entries (t : ScopeStack Symbol) : Deed → List Diagnostic
  | closes => leftovers (t.scopes.head?.elim [] Assoc.values)
  | enters h result types defining =>
      match standing h.name.val result types defining (t.lookupGlobal h.name.val) with
      | .fresh | .fits => []
      | .conflict finding => [⟨.error, finding, h.name.pos⟩]
  | opens | declares .. | reads _ | calls _ | assigns _ => []

theorem mark_spec (name : String) (test : Symbol → Bool) (f : Symbol → Symbol) (c : State) :
    (mark name test f c).2.env.stack = marked c.env.stack name test f ∧
      (mark name test f c).2.diagnostics = c.diagnostics ∧
      (mark name test f c).2.place = c.place := by
  rw [run_mark, marked]
  cases c.env.stack.lookup name with
  | none => exact ⟨rfl, rfl, rfl⟩
  | some symbol =>
      rw [Option.any_some]
      dsimp only
      split <;> exact ⟨rfl, rfl, rfl⟩

/-- What a deed does to the scopes, what it logs, and that the checker stays where it is. -/
theorem run_spec (d : Deed) (c : State) :
    (d.run c).2.env.stack = d.on c.env.stack ∧
      (d.run c).2.diagnostics.entries = c.diagnostics.entries ++ d.entries c.env.stack ∧
      (d.run c).2.place = c.place := by
  cases d with
  | opens => exact ⟨rfl, (List.append_nil _).symm, rfl⟩
  | closes =>
      change (closeScope c).2.env.stack = _ ∧ (closeScope c).2.diagnostics.entries = _ ∧
        (closeScope c).2.place = _
      rw [closeScope_eq, on, entries]
      cases scopes : c.env.stack.scopes with
      | nil =>
          have none : leftovers [] = [] := List.mergeSort_nil
          refine ⟨?_, ?_, rfl⟩
          · exact congrArg ScopeStack.mk scopes
          · exact none ▸ (List.append_nil _).symm
      | cons s rest =>
          obtain ⟨stack, log, place⟩ := sweep_spec s.values { c with env := c.env.leave.2 }
          refine ⟨?_, log, place⟩
          rw [stack, Env.stack_leave, scopes]
  | declares name type length isParam hasValue =>
      exact ⟨Env.stack_declared c.env name.val _, (List.append_nil _).symm, rfl⟩
  | enters h result types defining =>
      rw [run, declareFunction_eq, on, entries]
      cases standing h.name.val result types defining (c.env.stack.lookupGlobal h.name.val) with
      | fresh => exact ⟨Env.stack_declared c.env h.name.val _, (List.append_nil _).symm, rfl⟩
      | fits => cases defining <;> exact ⟨rfl, (List.append_nil _).symm, rfl⟩
      | conflict finding => exact ⟨rfl, rfl, rfl⟩
  | reads name | calls name | assigns name =>
      obtain ⟨stack, log, place⟩ := mark_spec name _ _ c
      exact ⟨stack, by rw [run, log]; exact (List.append_nil _).symm, place⟩

/-- What is logged about deeds, one after the other. -/
def logged : ScopeStack Symbol → List Deed → List Diagnostic
  | _, [] => []
  | t, d :: ds => d.entries t ++ logged (d.on t) ds

theorem logged_append (t : ScopeStack Symbol) (ds ds' : List Deed) :
    logged t (ds ++ ds') = logged t ds ++ logged (ds.foldl on t) ds' := by
  induction ds generalizing t with
  | nil => rfl
  | cons d ds ih => rw [List.cons_append, logged, logged, ih, List.foldl_cons,
      List.append_assoc]

end Deed

namespace Passes

variable {strict : Bool} {c c' : State} {ds : List Deed}

theorem stack (passes : Passes strict c ds c') :
    c'.env.stack = ds.foldl Deed.on c.env.stack := by
  induction passes with
  | done => rfl
  | aside between _ ih => rw [ih, between.stack]
  | @deed c _ d _ _ ih => rw [ih, (d.run_spec c).1, List.foldl_cons]

/-- The log gets what is logged about the deeds, with plain errors in between. -/
theorem log (passes : Passes strict c ds c') :
    ∃ new, c'.diagnostics.entries = c.diagnostics.entries ++ new ∧
      ∀ keep : Diagnostic → Bool, (∀ d, d.isPlain = true → keep d = false) →
        new.filter keep = (Deed.logged c.env.stack ds).filter keep := by
  induction passes with
  | done => exact ⟨[], (List.append_nil _).symm, fun _ _ => rfl⟩
  | aside between _ ih =>
      obtain ⟨new, log, kept⟩ := ih
      obtain ⟨errors, first, plain⟩ := between.log
      refine ⟨errors ++ new, by rw [log, first, List.append_assoc], fun keep drops => ?_⟩
      have none : errors.filter keep = [] :=
        List.filter_eq_nil_iff.mpr fun d mem => by simp [drops d (plain d mem)]
      rw [List.filter_append, none, kept keep drops, between.stack]
      rfl
  | @deed c _ d _ _ ih =>
      obtain ⟨new, log, kept⟩ := ih
      obtain ⟨stack, first, -⟩ := d.run_spec c
      refine ⟨d.entries c.env.stack ++ new, by rw [log, first, List.append_assoc],
        fun keep drops => ?_⟩
      rw [List.filter_append, kept keep drops, stack, Deed.logged, List.filter_append]

theorem place (passes : Passes true c ds c') : c'.place = c.place := by
  induction passes with
  | done => rfl
  | aside between _ ih => exact ih.trans (between.place rfl)
  | @deed c _ d _ _ ih => exact ih.trans (d.run_spec c).2.2

end Passes

end Check

end BraceLang
