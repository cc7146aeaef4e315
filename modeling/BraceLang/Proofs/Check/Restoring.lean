import BraceLang.Proofs.Check.Loops
import BraceLang.Proofs.Stacks

/-!
Checking puts back what it has changed, whatever it finds on the way. A statement closes the
scopes that it opens; what it leaves behind in the scopes around it are the variable that it
declares in the current scope, if it is a declaration, and functions in the global scope. The
loops, the enclosing function and the pending target of an assignment are put back too.

**Main result.** `checking_restores`: for a statement in any state, and for whole programs.
-/

namespace BraceLang

/-! ### What a statement may leave behind -/

namespace Stmt

/-- The name of the variable that the statement itself declares. -/
def ownName? : Stmt → Option String
  | .declare _ d => some d.name.val
  | _ => none

mutual

/-- The names of the prototypes and definitions in a statement, those inside of functions
included. -/
def functionNames : Stmt → List String
  | .prototype _ h => [h.name.val]
  | .define h _ body => h.name.val :: functionNamesIn body
  | .block _ body | .ifThen _ _ body | .whileLoop _ _ body => functionNamesIn body
  | .ifElse _ _ body _ elseBody => functionNamesIn body ++ functionNamesIn elseBody
  | .forLoop init _ update _ body =>
      functionNamesBy init ++ (functionNamesIn body ++ functionNamesBy update)
  | .declare .. | .assign .. | .call .. | .breakLoop _ | .continueLoop _ | .returnValue .. => []

/-- The names of the prototypes and definitions in a part of a `for` header. -/
def functionNamesBy : Option Stmt → List String
  | none => []
  | some x => x.functionNames

def functionNamesIn : List Stmt → List String
  | [] => []
  | x :: rest => x.functionNames ++ functionNamesIn rest

end

end Stmt

namespace Check

/-! ### Nested deeds -/

/-- The deed uses a name. -/
def Deed.isUse : Deed → Bool
  | reads _ | calls _ | assigns _ => true
  | opens | closes | declares .. | enters .. => false

/-- The deed stays within the scopes that are open. -/
def Deed.isWithin : Deed → Bool
  | opens | closes => false
  | declares .. | enters .. | reads _ | calls _ | assigns _ => true

theorem Deed.isWithin_of_isUse {d : Deed} (use : d.isUse = true) : d.isWithin = true := by
  cases d with
  | reads | calls | assigns => rfl
  | opens | closes | declares | enters => contradiction

/-- A deed, with the numbers of the scopes that are open before and after it, not counting those
that were open at first. Where there is none, only the variables in `own` are declared; functions
have their names in `functions`. -/
inductive Deed.Nests (own functions : List String) : Nat → Deed → Nat → Prop
  | opens {k} : Nests own functions k .opens (k + 1)
  | closes {k} : Nests own functions (k + 1) .closes k
  | declares {k name type length isParam hasValue} (here : k = 0 → name.val ∈ own) :
      Nests own functions k (.declares name type length isParam hasValue) k
  | enters {k h result types defining} (mem : h.name.val ∈ functions) :
      Nests own functions k (.enters h result types defining) k
  | uses {k d} (use : d.isUse = true) : Nests own functions k d k

/-- Deeds that close only scopes that they have opened. -/
inductive Nested (own functions : List String) : Nat → List Deed → Nat → Prop
  | nil {k} : Nested own functions k [] k
  | cons {k l m d ds} (first : d.Nests own functions k l) (rest : Nested own functions l ds m) :
      Nested own functions k (d :: ds) m

section Nesting

variable {own own' functions functions' : List String} {k l m n : Nat} {d : Deed}
  {ds ds' : List Deed}

namespace Deed.Nests

theorem mono (nests : d.Nests own functions k m) (moreOwn : own ⊆ own')
    (more : functions ⊆ functions') : d.Nests own' functions' k m := by
  cases nests with
  | opens => exact .opens
  | closes => exact .closes
  | declares here => exact .declares fun outside => moreOwn (here outside)
  | enters mem => exact .enters (more mem)
  | uses use => exact .uses use

/-- Inside of a scope all variables may be declared. -/
theorem lift (nests : d.Nests own functions k m) : d.Nests own' functions (k + 1) (m + 1) := by
  cases nests with
  | opens => exact .opens
  | closes => exact .closes
  | declares => exact .declares fun outside => absurd outside (Nat.succ_ne_zero _)
  | enters mem => exact .enters mem
  | uses use => exact .uses use

end Deed.Nests

namespace Nested

theorem one (nests : d.Nests own functions k m) : Nested own functions k [d] m := .cons nests .nil

theorem append (first : Nested own functions k ds m) (second : Nested own functions m ds' n) :
    Nested own functions k (ds ++ ds') n := by
  induction first with
  | nil => exact second
  | cons nests _ ih => exact .cons nests (ih second)

theorem split (nested : Nested own functions k (ds ++ ds') n) :
    ∃ m, Nested own functions k ds m ∧ Nested own functions m ds' n := by
  induction ds generalizing k with
  | nil => exact ⟨k, .nil, nested⟩
  | cons d ds ih =>
      cases nested with
      | cons nests rest =>
          obtain ⟨m, first, second⟩ := ih rest
          exact ⟨m, .cons nests first, second⟩

theorem mono (nested : Nested own functions k ds m) (moreOwn : own ⊆ own')
    (more : functions ⊆ functions') : Nested own' functions' k ds m := by
  induction nested with
  | nil => exact .nil
  | cons nests _ ih => exact .cons (nests.mono moreOwn more) ih

theorem left (nested : Nested own functions k ds m) :
    Nested own (functions ++ functions') k ds m :=
  nested.mono (List.Subset.refl own) (List.subset_append_left ..)

theorem right (nested : Nested own functions k ds m) :
    Nested own (functions' ++ functions) k ds m :=
  nested.mono (List.Subset.refl own) (List.subset_append_right ..)

theorem lift (nested : Nested own functions k ds m) :
    Nested own' functions (k + 1) ds (m + 1) := by
  induction nested with
  | nil => exact .nil
  | cons nests _ ih => exact .cons nests.lift ih

theorem lifts (nested : Nested own functions 0 ds 0) :
    Nested own' functions (k + 1) ds (k + 1) := by
  induction k with
  | zero => exact nested.lift
  | succ k ih => exact ih.lift

theorem of_uses (uses : ∀ d ∈ ds, d.isUse = true) : Nested own functions k ds k := by
  induction ds with
  | nil => exact .nil
  | cons d ds ih =>
      obtain ⟨use, others⟩ := List.forall_mem_cons.mp uses
      exact .cons (.uses use) (ih others)

/-- A scope with something in it. -/
theorem scope (inside : Nested own functions (k + 1) ds (k + 1)) :
    Nested own functions k (.opens :: (ds ++ [.closes])) k :=
  .cons .opens (inside.append (.one .closes))

end Nested

end Nesting

mutual

/-- Expressions only use names. -/
theorem uses_expr : (e : Expr) → ∀ d ∈ e.deeds, d.isUse = true
  | .literal .. => List.forall_mem_nil _
  | .var .. => List.forall_mem_singleton.mpr rfl
  | .element _ _ index =>
      List.forall_mem_append.mpr ⟨uses_expr index, List.forall_mem_singleton.mpr rfl⟩
  | .unary _ _ operand => uses_expr operand
  | .binary _ _ left right => List.forall_mem_append.mpr ⟨uses_expr left, uses_expr right⟩
  | .call _ _ args =>
      List.forall_mem_append.mpr ⟨uses_args args, List.forall_mem_singleton.mpr rfl⟩

theorem uses_args : (args : List Expr) → ∀ d ∈ Expr.deedsIn args, d.isUse = true
  | [] => List.forall_mem_nil _
  | arg :: args => List.forall_mem_append.mpr ⟨uses_expr arg, uses_args args⟩

end

section Statements

variable {own functions : List String} {k : Nat}

theorem nested_expr (e : Expr) : Nested own functions k e.deeds k := .of_uses (uses_expr e)

theorem nested_optional (e? : Option Expr) :
    Nested own functions k (e?.elim [] Expr.deeds) k := by
  cases e? with
  | none => exact .nil
  | some e => exact nested_expr e

/-- A variable is declared, if it is. -/
theorem nested_declares (name : Located String) (type? : Option Ty) (length : Option UInt32)
    (isParam hasValue : Bool) :
    Nested [name.val] functions k
      (type?.map fun t => Deed.declares name t length isParam hasValue).toList k := by
  cases type? with
  | none => exact .nil
  | some t => exact .one (.declares fun _ => List.mem_singleton.mpr rfl)

theorem nested_heading (h : Heading) (defining : Bool) :
    Nested own [h.name.val] k (h.deeds defining) k := by
  unfold Heading.deeds
  cases Ty.parse? h.result.val with
  | none => exact .nil
  | some result =>
      rw [Option.elim_some]
      cases h.types?.mapM id with
      | none => exact .nil
      | some types => exact .one (.enters (List.mem_singleton.mpr rfl))

theorem nested_params : (params : List Param) → (types : List (Option Ty)) →
    Nested own functions (k + 1) (Param.deeds params types) (k + 1)
  | [], _ => by
      unfold Param.deeds
      exact .nil
  | _ :: _, [] => by
      unfold Param.deeds
      exact .nil
  | p :: params, type? :: types => by
      unfold Param.deeds
      refine .append ?_ (nested_params params types)
      cases p.name with
      | none => exact .nil
      | some name =>
          cases type? with
          | none => exact .nil
          | some t => exact .one (.declares fun outside => absurd outside (Nat.succ_ne_zero _))

mutual

/-- A statement closes the scopes that it opens. -/
theorem nested_stmt : (x : Stmt) → Nested x.ownName?.toList x.functionNames 0 x.deeds 0
  | .declare _ d => (nested_optional d.init).append (nested_declares d.name _ _ _ _)
  | .prototype _ h => nested_heading h false
  | .define h _ body => by
      change Nested [] ([h.name.val] ++ Stmt.functionNamesIn body) 0 _ 0
      exact (nested_heading h true).left.append
        ((nested_params h.params h.types?).append (nested_stmts body)).scope.right
  | .assign _ _ index value =>
      ((nested_optional index).append (nested_expr value)).append (.one (.uses rfl))
  | .call _ _ args => (Nested.of_uses (uses_args args)).append (.one (.uses rfl))
  | .block _ body => (nested_stmts body).scope
  | .ifThen cond _ body | .whileLoop cond _ body =>
      (nested_expr cond).append (nested_stmts body).scope
  | .ifElse cond _ body _ elseBody =>
      ((nested_expr cond).append (nested_stmts body).scope.left).append
        (nested_stmts elseBody).scope.right
  | .forLoop init cond update _ body =>
      (((nested_header init).left.append
        ((nested_expr cond).append (nested_stmts body).scope).left.right).append
          (nested_header update).right.right).scope
  | .breakLoop _ | .continueLoop _ => .nil
  | .returnValue _ value => nested_optional value

theorem nested_header {own : List String} {k : Nat} : (part : Option Stmt) →
    Nested own (Stmt.functionNamesBy part) (k + 1) (Stmt.deedsBy part) (k + 1)
  | none => .nil
  | some x => (nested_stmt x).lifts

theorem nested_stmts {own : List String} {k : Nat} : (body : List Stmt) →
    Nested own (Stmt.functionNamesIn body) (k + 1) (Stmt.deedsIn body) (k + 1)
  | [] => .nil
  | x :: rest => (nested_stmt x).lifts.left.append (nested_stmts rest).right

end

/-- Statements close no scope but those that they open. -/
theorem nested_together : (body : List Stmt) →
    Nested (body.flatMap fun x => x.ownName?.toList) (Stmt.functionNamesIn body) 0
      (Stmt.deedsIn body) 0
  | [] => .nil
  | x :: rest => by
      rw [List.flatMap_cons]
      apply Nested.append
      · exact (nested_stmt x).mono (List.subset_append_left ..) (List.subset_append_left ..)
      · exact (nested_together rest).mono (List.subset_append_right ..)
          (List.subset_append_right ..)

/-- The global scope is the first to be opened and the last to be closed. -/
theorem nested_program (p : Program) :
    Nested [] (Stmt.functionNamesIn p.stmts) 0 p.deeds 0 := (nested_stmts p.stmts).scope

end Statements

/-! ### Names of the open scopes -/

/-- The names of a scope in the order of their declaration, and which of them are functions. -/
def names (s : Scope Symbol) : List (String × Bool) :=
  s.entries.map fun e => (e.1, e.2.isFunction)

/-- The names of the open scopes, the innermost scope first. -/
def shape (t : ScopeStack Symbol) : List (List (String × Bool)) := t.scopes.map names

/-- The second lists have the first ones in front; `allowed` says what may stand behind the
list at an index. -/
structure Adds (allowed : Nat → String × Bool → Prop) (sh sh' : List (List (String × Bool))) :
    Prop where
  length : sh'.length = sh.length
  behind : ∀ i l, sh[i]? = some l → ∃ new, sh'[i]? = some (l ++ new) ∧ ∀ e ∈ new, allowed i e

theorem Adds.of_eq {allowed : Nat → String × Bool → Prop} {sh sh' : List (List (String × Bool))}
    (same : sh' = sh) : Adds allowed sh sh' where
  length := congrArg List.length same
  behind i l found := ⟨[], by rw [same, found, List.append_nil], List.forall_mem_nil _⟩

/-- What a deed may add to the open scopes. -/
def Deed.MayAdd (depth i : Nat) (e : String × Bool) : Deed → Prop
  | declares name .. => i = 0 ∧ e = (name.val, false)
  | enters h .. => i + 1 = depth ∧ e = (h.name.val, true)
  | opens | closes | reads _ | calls _ | assigns _ => False

theorem names_update (s : Scope Symbol) (name : String) {f : Symbol → Symbol}
    (keeps : ∀ symbol, (f symbol).isFunction = symbol.isFunction) :
    names (s.update name f) = names s :=
  congrArg Assoc.entries (Scope.map_update_of_keeps keeps s name)

theorem shape_eq (t : ScopeStack Symbol) :
    shape t = (t.map Symbol.isFunction).scopes.map Assoc.entries := by
  rw [ScopeStack.map, List.map_map]
  rfl

theorem shape_update (t : ScopeStack Symbol) (name : String) {f : Symbol → Symbol}
    (keeps : ∀ symbol, (f symbol).isFunction = symbol.isFunction) :
    shape (t.update name f) = shape t := by
  rw [shape_eq, shape_eq, ScopeStack.map_update_of_keeps keeps]

theorem shape_marked (t : ScopeStack Symbol) (name : String) (test : Symbol → Bool)
    {f : Symbol → Symbol} (keeps : ∀ symbol, (f symbol).isFunction = symbol.isFunction) :
    shape (Deed.marked t name test f) = shape t := by
  unfold Deed.marked
  split
  · exact shape_update t name keeps
  · rfl

theorem names_declare? {s s' : Scope Symbol} {name : String} {symbol : Symbol}
    (declared : Scope.declare? s name symbol = some s') :
    names s' = names s ++ [(name, symbol.isFunction)] := by
  rw [names, (Scope.extended_of_declare? declared).entries, List.map_append]
  rfl

theorem adds_onLast {t : ScopeStack Symbol} {change : Scope Symbol → Option (Scope Symbol)}
    {allowed : Nat → String × Bool → Prop} {scopes : List (Scope Symbol)}
    (changed : ScopeStack.onLast change t.scopes = some scopes)
    (changes : ∀ s s', change s = some s' → ∃ new, names s' = names s ++ new ∧
      ∀ e ∈ new, ∀ i, i + 1 = t.depth → allowed i e) : Adds allowed (shape t) (shape ⟨scopes⟩) := by
  obtain ⟨length, each⟩ := ScopeStack.getElem?_onLast changed
  refine ⟨by simp [shape, length], fun i l found => ?_⟩
  rw [shape, List.getElem?_map] at found
  obtain ⟨s, there, rfl⟩ := Option.map_eq_some_iff.mp found
  have here := each i s there
  rw [shape, List.getElem?_map]
  split at here
  · rename_i last
    obtain ⟨s', change, there'⟩ := here
    obtain ⟨new, is, allows⟩ := changes s s' change
    exact ⟨new, by rw [there', Option.map_some, is], fun e mem => allows e mem i last⟩
  · exact ⟨[], by rw [here, Option.map_some, List.append_nil], List.forall_mem_nil _⟩

theorem isFunction_completed (names : List (Option String)) (symbol : Symbol) :
    (completed names symbol).isFunction = symbol.isFunction := by
  unfold completed
  split
  · rename_i signature kind
    rw [Symbol.isFunction, Symbol.isFunction, Symbol.signature?, Symbol.signature?, kind]
    rfl
  · rfl

/-- A deed within the open scopes adds one name at most. -/
theorem adds_on {d : Deed} (within : d.isWithin = true) (t : ScopeStack Symbol) :
    Adds (fun i e => d.MayAdd t.depth i e) (shape t) (shape (d.on t)) := by
  cases d with
  | opens | closes => contradiction
  | declares name type length isParam hasValue =>
      have isVariable : (Deed.symbol t name type length isParam hasValue).isFunction = false := rfl
      rw [Deed.on]
      generalize Deed.symbol t name type length isParam hasValue = symbol at isVariable
      obtain ⟨scopes⟩ := t
      cases scopes with
      | nil => exact .of_eq rfl
      | cons s rest =>
          dsimp only [ScopeStack.declare?]
          cases declared : Scope.declare? s name.val symbol with
          | none => exact .of_eq rfl
          | some s' =>
              refine ⟨rfl, fun i l found => ?_⟩
              cases i with
              | zero =>
                  obtain rfl := Option.some.inj found
                  refine ⟨[(name.val, false)], ?_, List.forall_mem_singleton.mpr ⟨rfl, rfl⟩⟩
                  rw [← isVariable]
                  exact congrArg some (names_declare? declared)
              | succ i => exact ⟨[], by rw [List.append_nil]; exact found, List.forall_mem_nil _⟩
  | enters h result types defining =>
      rw [Deed.on]
      cases standing h.name.val result types defining (t.lookupGlobal h.name.val) with
      | fresh =>
          dsimp only
          rw [ScopeStack.declareGlobal?]
          cases changed : ScopeStack.onLast (Scope.declare? · h.name.val
              (headingSymbol h result types defining)) t.scopes with
          | none => exact .of_eq rfl
          | some scopes =>
              exact adds_onLast changed fun s s' declared =>
                ⟨_, names_declare? declared,
                  List.forall_mem_singleton.mpr fun i last => ⟨last, rfl⟩⟩
      | fits =>
          cases defining with
          | false => exact .of_eq rfl
          | true =>
              dsimp only
              rw [if_pos rfl, ScopeStack.updateGlobal]
              cases changed : ScopeStack.onLast (fun s => some (s.update h.name.val
                  (completed (paramNames h)))) t.scopes with
              | none => exact .of_eq rfl
              | some scopes =>
                  refine adds_onLast changed fun s s' updated => ⟨[], ?_, List.forall_mem_nil _⟩
                  obtain rfl := Option.some.inj updated
                  rw [names_update s h.name.val (isFunction_completed _), List.append_nil]
      | conflict finding => exact .of_eq rfl
  | reads name | calls name | assigns name =>
      exact .of_eq (shape_marked t name _ fun _ => rfl)

/-- What nested deeds leave behind in the scopes that were open before them, of which there are
`k` less than now. -/
structure Grown (own functions : List String) (k : Nat) (sh sh' : List (List (String × Bool))) :
    Prop where
  length : sh'.length = sh.length + k
  behind : ∀ i l, sh[i]? = some l → ∃ new, sh'[i + k]? = some (l ++ new) ∧ ∀ e ∈ new,
    e.2 = false ∧ i = 0 ∧ e.1 ∈ own ∨ e.2 = true ∧ i + 1 = sh.length ∧ e.1 ∈ functions

section Growing

variable {own functions : List String} {k m : Nat} {sh : List (List (String × Bool))}
  {t : ScopeStack Symbol} {d : Deed} {ds : List Deed}

theorem Grown.opened (grown : Grown own functions k sh (shape t)) :
    Grown own functions (k + 1) sh (shape t.push) where
  length := congrArg (· + 1) grown.length
  behind := grown.behind

theorem Grown.closed (grown : Grown own functions (k + 1) sh (shape t)) :
    Grown own functions k sh (shape ⟨t.scopes.tail⟩) := by
  obtain ⟨_ | ⟨s, rest⟩⟩ := t
  · have length := grown.length
    simp [shape] at length
  · exact ⟨Nat.succ_inj.mp grown.length, grown.behind⟩

/-- What a deed adds is of the kind that may be added. -/
theorem Grown.within (grown : Grown own functions k sh (shape t)) (within : d.isWithin = true)
    (adds : ∀ i e, d.MayAdd (sh.length + k) (i + k) e →
      e.2 = false ∧ i = 0 ∧ e.1 ∈ own ∨ e.2 = true ∧ i + 1 = sh.length ∧ e.1 ∈ functions) :
    Grown own functions k sh (shape (d.on t)) := by
  have depth : t.depth = sh.length + k := by
    rw [← grown.length, shape, List.length_map]
    rfl
  obtain ⟨length, behind⟩ := adds_on within t
  refine ⟨length.trans grown.length, fun i l found => ?_⟩
  obtain ⟨new, there, known⟩ := grown.behind i l found
  obtain ⟨new', there', allowed⟩ := behind (i + k) _ there
  refine ⟨new ++ new', by rw [there', List.append_assoc], List.forall_mem_append.mpr ⟨known, ?_⟩⟩
  exact fun e mem => adds i e (depth ▸ allowed e mem)

theorem Grown.step (nests : d.Nests own functions k m)
    (grown : Grown own functions k sh (shape t)) :
    Grown own functions m sh (shape (d.on t)) := by
  cases nests with
  | opens => exact grown.opened
  | closes => exact grown.closed
  | declares here =>
      refine grown.within rfl ?_
      rintro i e ⟨first, rfl⟩
      obtain ⟨rfl, rfl⟩ := Nat.add_eq_zero_iff.mp first
      exact .inl ⟨rfl, rfl, here rfl⟩
  | enters mem =>
      refine grown.within rfl ?_
      rintro i e ⟨last, rfl⟩
      exact .inr ⟨rfl, by omega, mem⟩
  | uses use =>
      refine grown.within (Deed.isWithin_of_isUse use) fun i e adds => ?_
      cases d with
      | reads | calls | assigns => exact adds.elim
      | opens | closes | declares | enters => contradiction

/-- Nested deeds, one after the other. -/
theorem Grown.run (nested : Nested own functions k ds m)
    (grown : Grown own functions k sh (shape t)) :
    Grown own functions m sh (shape (ds.foldl Deed.on t)) := by
  induction nested generalizing t with
  | nil => exact grown
  | cons nests _ ih => exact ih (grown.step nests)

theorem depth_on (within : d.isWithin = true) (t : ScopeStack Symbol) :
    (d.on t).depth = t.depth := by
  have length := (adds_on within t).length
  rwa [shape, shape, List.length_map, List.length_map] at length

theorem Deed.Nests.depth {b : Nat} (nests : d.Nests own functions k m) (deep : t.depth = k + b) :
    (d.on t).depth = m + b := by
  cases nests with
  | opens =>
      change t.depth + 1 = _
      omega
  | closes =>
      change t.scopes.tail.length = _
      rw [List.length_tail, show t.scopes.length = _ from deep]
      omega
  | declares | enters => exact (depth_on rfl t).trans deep
  | uses use => exact (depth_on (Deed.isWithin_of_isUse use) t).trans deep

/-- The scopes below those that the deeds know of stay open. -/
theorem Nested.depth {b : Nat} (nested : Nested own functions k ds m) (deep : t.depth = k + b) :
    (ds.foldl Deed.on t).depth = m + b := by
  induction nested generalizing t with
  | nil => exact deep
  | cons nests _ ih => exact ih (nests.depth deep)

end Growing

/-! ### Where the checker stands -/

/-- The enclosing function, apart from whether a `return` has been seen. -/
def State.enclosing (c : State) : Option (String × Option Ty) :=
  c.function.map fun f => (f.name, f.result)

/-- The enclosing function is the same again, and no assignment is pending that was not. -/
structure State.Resumes (c c' : State) : Prop where
  enclosing : c'.enclosing = c.enclosing
  assigning : c.assigning = none → c'.assigning = none

section Resuming

variable {α β : Type} {c c' c'' : State} {ds : List Deed}

namespace State.Resumes

theorem of_place (same : c'.place = c.place) : c.Resumes c' := by
  obtain ⟨-, same⟩ := Prod.mk.inj same
  obtain ⟨function, assigning⟩ := Prod.mk.inj same
  exact ⟨congrArg (Option.map _) function, fun none => assigning.trans none⟩

theorem trans (first : c.Resumes c') (second : c'.Resumes c'') : c.Resumes c'' where
  enclosing := second.enclosing.trans first.enclosing
  assigning none := second.assigning (first.assigning none)

theorem of_passes (passes : Passes true c ds c') : c.Resumes c' := .of_place passes.place

end State.Resumes

/-- An action after which the checker stands where it stood. -/
def Resuming (action : Check α) : Prop := ∀ c : State, c.Resumes (action c).2

theorem Does.resuming {action : Check α} (does : Does true ds action) : Resuming action :=
  fun c => .of_passes (does c)

theorem Minds.resuming {action : Check α} (minds : Minds true action) : Resuming action :=
  minds.does.resuming

theorem Resuming.bind {action : Check α} {next : α → Check β} (first : Resuming action)
    (second : ∀ a, Resuming (next a)) : Resuming (action >>= next) :=
  fun c => (first c).trans (second (action c).1 (action c).2)

theorem resuming_openScope : Resuming openScope := fun _ => .of_place rfl

theorem resuming_closeScope : Resuming closeScope :=
  fun c => .of_place (Deed.run_spec .closes c).2.2

theorem resuming_enterLoop : Resuming enterLoop := fun _ => ⟨rfl, id⟩

theorem resuming_leaveLoop : Resuming leaveLoop := fun _ => ⟨rfl, id⟩

theorem resuming_checkAssign (target : Located String) (index : Option Expr) (value : Expr) :
    Resuming (checkAssign target index value) := by
  intro c
  -- The target is pending in between, so only the two ends are compared.
  have ends {c₁ : State} (enclosing : c₁.enclosing = c.enclosing) (isElement : Bool) :
      c.Resumes (checkTarget target isElement value.pos (inferExpr value c₁).1
        { (inferExpr value c₁).2 with assigning := none }).2 := by
    have valued : c₁.Resumes (inferExpr value c₁).2 := (does_inferExpr value).resuming c₁
    have stored (c : State) : c.Resumes _ :=
      (does_checkTarget target isElement value.pos (inferExpr value c₁).1).resuming c
    exact ⟨(stored _).enclosing.trans (valued.enclosing.trans enclosing),
      fun _ => (stored _).assigning rfl⟩
  cases index with
  | none => exact ends (show (visitAssign target none c).enclosing = c.enclosing from rfl) false
  | some index =>
      have first (c : State) : c.Resumes (inferExpr index c).2 := (does_inferExpr index).resuming c
      have checked (found : Option Ty) (c : State) : c.Resumes (checkIndex index.pos found c).2 :=
        (minds_checkIndex index.pos found).resuming c
      exact ends ((first (visitAssign target (some index) c)).trans (checked _ _)).enclosing true

theorem resuming_checkResult (pos : Position) (found : Option (Position × Option Ty)) :
    Resuming (checkResult pos found) := by
  intro c
  unfold checkResult
  rw [get_bind]
  cases known : c.function with
  | none => exact (minds_complain rfl pos).resuming c
  | some context =>
      have returned : c.Resumes { c with function := some { context with returned := true } } := by
        refine ⟨?_, id⟩
        rw [State.enclosing, State.enclosing, known]
        rfl
      exact returned.trans
        ((minds_complainOf (plain_returnFault? context pos found)).resuming _)

theorem resuming_checkReturn (pos : Position) (value : Option Expr) :
    Resuming (checkReturn pos value) := by
  intro c
  have visited : c.Resumes (visit 1 c).2 := (minds_visit 1).resuming c
  cases value with
  | none => exact visited.trans (resuming_checkResult pos none _)
  | some e =>
      exact (visited.trans ((does_inferExpr e).resuming _)).trans (resuming_checkResult pos _ _)

theorem resuming_inBlock {inside : Check Unit} (braces : Braces) (resuming : Resuming inside) :
    Resuming (inBlock braces inside) :=
  resuming_openScope.bind fun _ => (minds_visit _).resuming.bind fun _ => resuming.bind fun _ =>
    (minds_closeBraces braces).resuming.bind fun _ => resuming_closeScope

/-- The function around a definition is kept aside while the body is checked. -/
theorem resuming_checkBody {h : Heading} {braces : Braces} {body : List Stmt}
    {found : Option Ty × List (Option Ty)} (resuming : Resuming (checkStmts body)) :
    Resuming (checkBody h braces body found) := by
  intro c
  rw [checkBody_eq]
  have params (c : State) : c.Resumes (declareParams h.params found.2 c).2 :=
    .of_passes (passes_declareParams h.params found.2 c)
  have entered : c.assigning = none → (enterBody h braces found c).2.assigning = none := by
    let opened := openScope { c with function := some { name := h.name.val, result := found.1 } }
    exact (params opened.2).assigning
  have inside := (resuming (enterBody h braces found c).2).trans
    ((minds_closeBraces braces).resuming _)
  have closed := inside.trans (resuming_closeScope _)
  have returned (context : Option Context) (c : State) : c.Resumes _ :=
    (minds_checkReturned h.name context).resuming c
  have restored : c.Resumes { (closeScope (closeBraces braces (checkStmts body
      (enterBody h braces found c).2).2).2).2 with function := c.function } :=
    ⟨rfl, fun none => closed.assigning (entered none)⟩
  exact restored.trans (returned _ _)

mutual

/-- After a statement the checker stands where it stood. -/
theorem resuming_checkStmt : (x : Stmt) → Resuming (checkStmt x)
  | .declare _ d => (does_checkDeclaration d).resuming
  | .prototype site h => fun c => by
      rw [checkStmt_prototype]
      exact (does_checkHeading h false).resuming c
  | .define h braces body => fun c => by
      rw [checkStmt_define]
      exact ((does_checkHeading h true).resuming c).trans
        (resuming_checkBody (resuming_checkStmts body) _)
  | .assign _ target index value => by
      rw [checkStmt]
      exact resuming_checkAssign target index value
  | .call site callee args => fun c => by
      rw [checkStmt_call]
      have visited : c.Resumes (visit (callTokens args) (visit 0 c).2).2 := .of_place rfl
      exact (visited.trans ((does_inferArgs args).resuming _)).trans
        ((does_checkCall callee _ false).resuming _)
  | .block braces body => by
      rw [checkStmt]
      exact resuming_inBlock braces (resuming_checkStmts body)
  | .ifThen cond braces body => by
      rw [checkStmt]
      exact (minds_visit 3).resuming.bind fun _ => (does_inferExpr cond).resuming.bind fun _ =>
        resuming_inBlock braces (resuming_checkStmts body)
  | .ifElse cond braces body elseBraces elseBody => by
      rw [checkStmt]
      exact (minds_visit 4).resuming.bind fun _ => (does_inferExpr cond).resuming.bind fun _ =>
        (resuming_inBlock braces (resuming_checkStmts body)).bind fun _ =>
          resuming_inBlock elseBraces (resuming_checkStmts elseBody)
  | .whileLoop cond braces body => by
      rw [checkStmt]
      exact (minds_visit 3).resuming.bind fun _ => resuming_enterLoop.bind fun _ =>
        (does_inferExpr cond).resuming.bind fun _ =>
          (resuming_inBlock braces (resuming_checkStmts body)).bind fun _ => resuming_leaveLoop
  | .forLoop init cond update braces body => by
      rw [checkStmt]
      exact (minds_visit 5).resuming.bind fun _ => resuming_openScope.bind fun _ =>
        (resuming_checkHeader init).bind fun _ => resuming_enterLoop.bind fun _ =>
          (does_inferExpr cond).resuming.bind fun _ =>
            (resuming_inBlock braces (resuming_checkStmts body)).bind fun _ =>
              (resuming_checkHeader update).bind fun _ => resuming_leaveLoop.bind fun _ =>
                resuming_closeScope
  | .breakLoop site => by
      rw [checkStmt]
      exact (minds_checkInLoop rfl site.pos).resuming
  | .continueLoop site => by
      rw [checkStmt]
      exact (minds_checkInLoop rfl site.pos).resuming
  | .returnValue site value => by
      rw [checkStmt]
      exact resuming_checkReturn site.pos value

theorem resuming_checkHeader : (part : Option Stmt) → Resuming (checkHeader part)
  | none => by
      rw [checkHeader]
      exact (Minds.pure _).resuming
  | some x => by
      rw [checkHeader]
      exact resuming_checkStmt x

theorem resuming_checkStmts : (body : List Stmt) → Resuming (checkStmts body)
  | [] => by
      rw [checkStmts]
      exact (Minds.pure _).resuming
  | x :: rest => by
      rw [checkStmts]
      exact (minds_checkTerminator x).resuming.bind fun _ => (resuming_checkStmt x).bind fun _ =>
        resuming_checkStmts rest

end

end Resuming

/-! ### The state afterwards -/

/-- What has been put back when the statement has been checked, and what has been added. -/
structure State.Restored (x : Stmt) (c c' : State) : Prop where
  depth : c'.env.stack.depth = c.env.stack.depth
  /-- In each scope stand the names that stood there. Behind them, there may be the variable that
  the statement declares in the current scope, and functions in the global one. -/
  scopes : ∀ i s, c.env.stack.scopes[i]? = some s →
    ∃ s' new, c'.env.stack.scopes[i]? = some s' ∧ names s' = names s ++ new ∧ ∀ e ∈ new,
      e.2 = false ∧ i = 0 ∧ e.1 ∈ x.ownName? ∨
      e.2 = true ∧ i + 1 = c.env.stack.depth ∧ e.1 ∈ x.functionNames
  loops : c'.loops = c.loops
  enclosing : c'.enclosing = c.enclosing
  assigning : c'.assigning = none
  log : ∃ new, c'.diagnostics.entries = c.diagnostics.entries ++ new

theorem restored_checkStmt (x : Stmt) {c : State} (idle : c.assigning = none) :
    c.Restored x (checkStmt x c).2 := by
  have passes := does_checkStmt x c
  have start : Grown x.ownName?.toList x.functionNames 0 (shape c.env.stack) (shape c.env.stack) :=
    ⟨rfl, fun i l found => ⟨[], by rw [List.append_nil]; exact found, List.forall_mem_nil _⟩⟩
  have grown := start.run (nested_stmt x)
  rw [← passes.stack] at grown
  have resumes := resuming_checkStmt x c
  obtain ⟨new, log, -⟩ := passes.log
  refine ⟨by simpa [shape, ScopeStack.depth] using grown.length, fun i s found => ?_,
    loops_checkStmt x c, resumes.enclosing, resumes.assigning idle, new, log⟩
  obtain ⟨new, there, allowed⟩ := grown.behind i (names s) (by simp [shape, found])
  rw [shape, List.getElem?_map] at there
  obtain ⟨s', there, is⟩ := Option.map_eq_some_iff.mp there
  exact ⟨s', new, there, is, by simpa [shape, ScopeStack.depth] using allowed⟩

/-- A `;` that is missing changes nothing but the log. -/
theorem State.Aside.restored {x : Stmt} {c c₁ c' : State} (between : c.Aside true c₁)
    (restored : c₁.Restored x c') : c.Restored x c' := by
  obtain ⟨loops, place⟩ := Prod.mk.inj (between.place rfl)
  obtain ⟨errors, first, -⟩ := between.log
  obtain ⟨new, second⟩ := restored.log
  refine ⟨?_, ?_, restored.loops.trans loops, ?_, restored.assigning, errors ++ new, ?_⟩
  · rw [restored.depth, between.stack]
  · rw [← between.stack]
    exact restored.scopes
  · exact restored.enclosing.trans (State.Resumes.of_place (between.place rfl)).enclosing
  · rw [second, first, List.append_assoc]

/-- After a whole program no scope is left. -/
theorem scopes_checkProgram (p : Program) (log : Diagnostics) :
    (checkProgram p { diagnostics := log }).2.env.stack.scopes = [] := by
  rw [(passes_checkProgram p log).stack]
  exact List.length_eq_zero_iff.mp ((nested_program p).depth (b := 0) rfl)

/-- A checked statement, with its `;` or without, restores what it has found. When a whole program
has been checked, no scope is left, and the findings stand behind those that were there. -/
theorem checking_restores {c : State} (idle : c.assigning = none) (x : Stmt) (p : Program)
    (log : Diagnostics) :
    c.Restored x (checkStmt x c).2 ∧ c.Restored x (checkStmts [x] c).2 ∧
      (checkProgram p { diagnostics := log }).2.env.stack.scopes = [] ∧
      ∃ new, (p.check log).diagnostics.entries = log.entries ++ new := by
  refine ⟨restored_checkStmt x idle, ?_, ?_, ?_⟩
  · have between : c.Aside true (checkTerminator x c).2 := minds_checkTerminator x c
    have still := (State.Resumes.of_place (between.place rfl)).assigning idle
    exact between.restored (restored_checkStmt x still)
  · exact scopes_checkProgram p log
  · obtain ⟨new, appended, -⟩ := (passes_checkProgram p log).log
    exact ⟨new, appended⟩

/-- A function inside of a function: a parameter is declared again, a type is unknown, a function
is declared in two ways, and the block is not closed. -/
def tangled : Stmt :=
  .define ⟨⟨"int", {}⟩, ⟨"f", {}⟩, [⟨⟨"int", {}⟩, some ⟨"a", {}⟩⟩]⟩ ⟨{}, none⟩
    [.declare {} ⟨⟨"double", {}⟩, ⟨"a", {}⟩, none, none⟩,
      .declare {} ⟨⟨"text", {}⟩, ⟨"b", {}⟩, none, some (.var {} "c")⟩,
      .prototype {} ⟨⟨"void", {}⟩, ⟨"g", {}⟩, []⟩,
      .whileLoop (.call {} ⟨"g", {}⟩ []) {}
        [.prototype ⟨{}, false⟩ ⟨⟨"int", {}⟩, ⟨"g", {}⟩, []⟩,
          .declare {} ⟨⟨"int", {}⟩, ⟨"d", {}⟩, none, none⟩]]

/-- In a block of a loop in the function `main`. -/
def midway : State where
  env := { stack := ⟨[{}, {}, {}]⟩ }
  loops := 1
  function := some { name := "main", result := some .int }

theorem tangled_restored : midway.assigning = none ∧
    midway.Restored tangled (checkStmt tangled midway).2 ∧
    shape (checkStmt tangled midway).2.env.stack = [[], [], [("f", true), ("g", true)]] ∧
    (checkStmt tangled midway).2.diagnostics.errorCount = 8 ∧
    ∃ new, ((⟨[tangled]⟩ : Program).check {}).diagnostics.entries = [] ++ new := by
  have idle : midway.assigning = none := rfl
  obtain ⟨restored, -, -, appended⟩ := checking_restores idle tangled ⟨[tangled]⟩ {}
  exact ⟨idle, restored, by decide +kernel, by decide +kernel, appended⟩

end Check

end BraceLang
