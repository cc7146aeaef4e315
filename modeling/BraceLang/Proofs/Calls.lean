import BraceLang.Proofs.Assembly.Outline
import BraceLang.Proofs.Check.Exactness
import BraceLang.Proofs.WholePrograms

/-!
The calls of an accepted program and the headings of its functions. Functions stand in the global
scope only, and once a function is there its types do not change. So what a call was checked
against, what the definition says, and what the interface of the whole program holds is the same,
wherever in the program they stand.

**Main results.** `uses_stmt`: a statement without headings leaves the functions of all scopes
alone, and its calls have an argument for every parameter. `offers_stmts`: the top level of a
program makes its functions known for good. `Program.calls_match`, `Program.definitions_match`:
what follows for the calls and the definitions of an accepted program.
-/

namespace BraceLang

open Assembly (Convention Interface definitions definitions_cons)

/-! ### The calls in a tree -/

/-- A call: the name of the function and the arguments. -/
abbrev Call := String × List Expr

namespace Expr

mutual

/-- The calls in an expression, those in arguments of others included. -/
def calls : Expr → List Call
  | .literal .. | .var .. => []
  | .element _ _ index => index.calls
  | .unary _ _ operand => operand.calls
  | .binary _ _ left right => left.calls ++ right.calls
  | .call _ callee args => (callee.val, args) :: callsIn args

def callsIn : List Expr → List Call
  | [] => []
  | e :: rest => e.calls ++ callsIn rest

end

/-- The calls in an expression that may be missing. -/
def callsOf (e : Option Expr) : List Call := (e.map calls).getD []

end Expr

namespace Stmt

mutual

/-- The calls in a statement, wherever in it. -/
def calls : Stmt → List Call
  | .declare _ d => Expr.callsOf d.init
  | .define _ _ body | .block _ body => callsIn body
  | .assign _ _ index value => Expr.callsOf index ++ value.calls
  | .call _ callee args => (callee.val, args) :: Expr.callsIn args
  | .ifThen cond _ body | .whileLoop cond _ body => cond.calls ++ callsIn body
  | .ifElse cond _ body _ elseBody => cond.calls ++ callsIn body ++ callsIn elseBody
  | .forLoop init cond update _ body =>
      headerCalls init ++ cond.calls ++ callsIn body ++ headerCalls update
  | .returnValue _ value => Expr.callsOf value
  | .prototype .. | .breakLoop _ | .continueLoop _ => []

def headerCalls : Option Stmt → List Call
  | none => []
  | some x => x.calls

/-- The calls in statements. -/
def callsIn : List Stmt → List Call
  | [] => []
  | x :: rest => x.calls ++ callsIn rest

end

end Stmt

/-! ### Functions in scopes -/

/-- How the entity is called, if it is a function. -/
def Entity.convention? : Entity → Option Convention
  | .variable .. => none
  | .function result params _ => some ⟨result, params⟩

namespace View

/-- The functions among the names. -/
def functions (l : View Entity) : View Convention := fun name => (l name).bind Entity.convention?

variable {l l' : View Entity} {name : String}

theorem functions_add (l : View Entity) (name : String) {e : Entity} {c : Convention}
    (is : e.convention? = some c) : (l.add name e).functions = l.functions.add name c := by
  funext other
  by_cases same : other = name
  · simp [functions, add, same, is]
  · simp [functions, add, same]

/-- A variable in the place of nothing or of a variable. -/
theorem functions_add_variable (free : l.functions name = none) (t : Ty) (isArray hasValue : Bool) :
    (l.add name (.variable t isArray hasValue)).functions = l.functions := by
  funext other
  by_cases same : other = name
  · subst same
    rw [free]
    simp [functions, add, Entity.convention?]
  · simp [functions, add, same]

theorem functions_of_absent (absent : l name = none) : l.functions name = none := by
  rw [functions, absent]
  rfl

theorem Le.add {β : Type} {l l' : View β} (le : l.Le l') (name : String) (b : β) :
    (l.add name b).Le (l'.add name b) := by
  intro other b' found
  by_cases same : other = name
  · simpa [View.add, same] using found
  · simp only [View.add, if_neg same] at found ⊢
    exact le other b' found

end View

/-- Assigning to a variable changes no function. -/
theorem functions_give (name : String) (Γ : Scopes) :
    (Γ.give name).map View.functions = Γ.map View.functions := by
  induction Γ with
  | nil => rfl
  | cons l rest ih =>
      unfold Scopes.give
      cases found : l name with
      | none => exact congrArg (l.functions :: ·) ih
      | some e =>
          refine congrArg (· :: rest.map View.functions) ?_
          cases e with
          | function result params isDefined =>
              rw [View.functions_add l name rfl, View.add_self]
              rw [View.functions, found]
              rfl
          | «variable» t isArray hasValue =>
              refine View.functions_add_variable ?_ t isArray true
              rw [View.functions, found]
              rfl

/-- Parameters are no functions. -/
theorem functions_paramScope (params : List (String × Ty)) :
    (paramScope params).functions = fun _ => none := by
  suffices onto : ∀ l : View Entity, (l.functions = fun _ => none) →
      (params.foldl (fun l p => l.add p.1 (.variable p.2 false true)) l).functions =
        fun _ => none from onto _ rfl
  induction params with
  | nil => exact fun _ none' => none'
  | cons p rest ih =>
      intro l none'
      refine ih _ ?_
      rw [View.functions_add_variable (congrFun none' p.1), none']

/-! ### What calls are checked against -/

/-- The interface has the function of the call, with a parameter for every argument. -/
def Matches (i : Interface) (c : Call) : Prop :=
  ∃ convention, i.conventions.get? c.1 = some convention ∧ c.2.length = convention.params.length

/-- The interface has all functions of the scopes. -/
def Covers (i : Interface) (Γ : Scopes) : Prop :=
  ∀ l ∈ Γ.map View.functions, l.Le i.conventions.get?

variable {i : Interface} {Γ Γ₁ Γ' : Scopes} {target : Option String} {around : Setting}
  {calls calls' : List Call} {g g' : View Entity}

theorem Scopes.Calls.covered {name : String} {args : List Ty} {result : Ty}
    (called : Γ.Calls name args result) (covers : Covers i Γ) :
    ∃ convention, i.conventions.get? name = some convention ∧
      args.length = convention.params.length := by
  obtain ⟨params, isDefined, found, accepted⟩ := called
  obtain ⟨l, inside, here⟩ := List.exists_of_findSome?_eq_some found
  refine ⟨⟨result, params⟩, ?_, accepted.length_eq.symm⟩
  refine covers l.functions (List.mem_map_of_mem inside) name _ ?_
  rw [View.functions, here]
  rfl

theorem HaveTypes.length_eq {args : List Expr} {types : List Ty}
    (typed : HaveTypes Γ target args types) : args.length = types.length := by
  induction args generalizing types with
  | nil =>
      cases typed
      rfl
  | cons e rest ih =>
      cases typed with
      | cons _ others => exact congrArg Nat.succ (ih others)

mutual

/-- The calls in an expression with a type match the functions in scope. -/
theorem HasType.calls_match (covers : Covers i Γ) : (e : Expr) → {t : Ty} →
    HasType Γ target e t → ∀ c ∈ e.calls, Matches i c
  | .literal .., _, _ => nofun
  | .var .., _, _ => nofun
  | .element _ _ index, _, .element typed _ _ => HasType.calls_match covers index typed
  | .unary _ _ operand, _, .negate typed => HasType.calls_match covers operand typed
  | .unary _ _ operand, _, .unary typed _ _ => HasType.calls_match covers operand typed
  | .binary _ _ left right, _, .compare first second _ _ _ => by
      intro c mem
      rcases List.mem_append.mp mem with mem | mem
      · exact HasType.calls_match covers left first c mem
      · exact HasType.calls_match covers right second c mem
  | .binary _ _ left right, _, .arithmetic first second _ _ _ => by
      intro c mem
      rcases List.mem_append.mp mem with mem | mem
      · exact HasType.calls_match covers left first c mem
      · exact HasType.calls_match covers right second c mem
  | .call _ callee args, _, .call typed called _ => by
      intro c mem
      rcases List.mem_cons.mp mem with rfl | mem
      · rw [Matches, typed.length_eq]
        exact called.covered covers
      · exact HaveTypes.calls_match covers args typed c mem

theorem HaveTypes.calls_match (covers : Covers i Γ) : (args : List Expr) → {types : List Ty} →
    HaveTypes Γ target args types → ∀ c ∈ Expr.callsIn args, Matches i c
  | [], _, _ => nofun
  | e :: rest, _, .cons typed others => by
      intro c mem
      rcases List.mem_append.mp mem with mem | mem
      · exact HasType.calls_match covers e typed c mem
      · exact HaveTypes.calls_match covers rest others c mem

end

/-- Between the scopes no function has come or gone, and the calls match those that are there. -/
structure Uses (i : Interface) (calls : List Call) (Γ Γ' : Scopes) : Prop where
  same : Γ'.map View.functions = Γ.map View.functions
  known : Covers i Γ → ∀ c ∈ calls, Matches i c

namespace Uses

theorem nil (same : Γ'.map View.functions = Γ.map View.functions) : Uses i [] Γ Γ' :=
  ⟨same, fun _ => nofun⟩

theorem append (first : Uses i calls Γ Γ₁) (second : Uses i calls' Γ₁ Γ') :
    Uses i (calls ++ calls') Γ Γ' where
  same := second.same.trans first.same
  known covers c mem := by
    rcases List.mem_append.mp mem with mem | mem
    · exact first.known covers c mem
    · refine second.known ?_ c mem
      rw [Covers, first.same]
      exact covers

/-- A scope without functions is opened before and closed after. -/
theorem inside {l l' : View Entity} (uses : Uses i calls (l :: Γ) (l' :: Γ'))
    (none' : l.functions = fun _ => none) : Uses i calls Γ Γ' where
  same := (List.cons.inj uses.same).2
  known covers := by
    refine uses.known fun f mem => ?_
    rcases List.mem_cons.mp mem with rfl | mem
    · rw [none']
      exact nofun
    · exact covers f mem

theorem expr {e : Expr} {t : Ty} (typed : HasType Γ target e t) : Uses i e.calls Γ Γ :=
  ⟨rfl, fun covers => HasType.calls_match covers e typed⟩

theorem args {args : List Expr} {types : List Ty} (typed : HaveTypes Γ target args types) :
    Uses i (Expr.callsIn args) Γ Γ :=
  ⟨rfl, fun covers => HaveTypes.calls_match covers args typed⟩

theorem optional {e : Option Expr} (typed : ∀ e', e = some e' → ∃ t, HasType Γ target e' t) :
    Uses i (Expr.callsOf e) Γ Γ := by
  cases e with
  | none => exact .nil rfl
  | some e =>
      obtain ⟨t, typed⟩ := typed e rfl
      exact .expr typed

end Uses

-- The recursion is on the statement; the derivation only comes along.
mutual

/-- A statement without headings leaves the functions alone, and its calls match them. -/
theorem uses_stmt : (x : Stmt) → {around : Setting} → {Γ Γ' : Scopes} → x.isHeadingFree = true →
    Legal around Γ x Γ' → Uses i x.calls Γ Γ'
  | .declare _ d, _, _, _, _, @Legal.declare _ _ _ l rest t _ _ absent init => by
      have typed : Uses i (Expr.callsOf d.init) (l :: rest) (l :: rest) :=
        .optional fun e given => (init e given).imp fun _ => And.left
      refine ⟨congrArg (· :: rest.map View.functions) ?_, typed.known⟩
      exact View.functions_add_variable (View.functions_of_absent absent) t _ _
  | .assign _ target index value, _, Γ, _, _, .assign _ indexed typed _ => by
      have given : Uses i [] Γ (Γ.give target.val) := .nil (functions_give target.val Γ)
      have first : Uses i (Expr.callsOf index) Γ Γ := .optional fun e is =>
        (indexed e is).2.imp fun _ => And.left
      have whole := (first.append (.expr typed)).append given
      rwa [List.append_nil] at whole
  | .call _ callee args, _, _, _, _, .call typed called => by
      refine ⟨rfl, fun covers c mem => ?_⟩
      rcases List.mem_cons.mp mem with rfl | mem
      · rw [Matches, typed.length_eq]
        exact called.covered covers
      · exact (Uses.args typed).known covers c mem
  | .block _ body, _, _, _, free, .block all _ => (uses_stmts body free all).inside rfl
  | .ifThen _ _ body, _, _, _, free, .ifThen typed (.block all _) =>
      (Uses.expr typed).append ((uses_stmts body free all).inside rfl)
  | .ifElse _ _ body _ elseBody, _, _, _, free, .ifElse typed (.block all _) (.block others _) => by
      obtain ⟨freeBody, freeElse⟩ := Bool.and_eq_true_iff.mp free
      exact ((Uses.expr typed).append ((uses_stmts body freeBody all).inside rfl)).append
        ((uses_stmts elseBody freeElse others).inside rfl)
  | .whileLoop _ _ body, _, _, _, free, .whileLoop typed (.block all _) =>
      (Uses.expr typed).append ((uses_stmts body free all).inside rfl)
  | .forLoop init _ update _ body, _, _, _, free, .forLoop starts typed (.block all _) ends => by
      obtain ⟨freeHeaders, freeBody⟩ := Bool.and_eq_true_iff.mp free
      obtain ⟨freeInit, freeUpdate⟩ := Bool.and_eq_true_iff.mp freeHeaders
      have upToBody := ((uses_header init freeInit starts).append (.expr typed)).append
        ((uses_stmts body freeBody all).inside rfl)
      exact (upToBody.append (uses_header update freeUpdate ends)).inside rfl
  | .breakLoop _, _, _, _, _, .breakLoop _ => .nil rfl
  | .continueLoop _, _, _, _, _, .continueLoop _ => .nil rfl
  | .returnValue _ none, _, _, _, _, .returnNothing _ => .nil rfl
  | .returnValue _ (some _), _, _, _, _, .returnValue _ typed _ => Uses.expr typed
termination_by structural x => x

theorem uses_header : (x : Option Stmt) → {around : Setting} → {Γ Γ' : Scopes} →
    Stmt.headerHeadingFree x = true → LegalHeader around Γ x Γ' →
    Uses i (Stmt.headerCalls x) Γ Γ'
  | none, _, _, _, _, .none => .nil rfl
  | some x, _, _, _, free, .some legal => uses_stmt x free legal
termination_by structural x => x

theorem uses_stmts : (body : List Stmt) → {around : Setting} → {Γ Γ' : Scopes} →
    Stmt.allHeadingFree body = true → LegalAll around Γ body Γ' → Uses i (Stmt.callsIn body) Γ Γ'
  | [], _, _, _, _, .nil => .nil rfl
  | x :: rest, _, _, _, free, .cons _ legal all => by
      obtain ⟨freeFirst, freeRest⟩ := Bool.and_eq_true_iff.mp free
      exact (uses_stmt x freeFirst legal).append (uses_stmts rest freeRest all)
termination_by structural body => body

end

/-! ### The top level -/

/-- The heading names its types, no two of its parameters have one name, and the function is known
with these types. -/
def Heading.Offered (h : Heading) (conventions : View Convention) : Prop :=
  ∃ result types, Ty.parse? h.result.val = some result ∧ h.Takes types ∧
    ((namedParams h.params types).map Prod.fst).Nodup ∧
    conventions h.name.val = some ⟨result, types⟩

/-- What the top level makes known, from one global scope to the next. -/
structure Offers (stmts : List Stmt) (g g' : View Entity) : Prop where
  le : g.functions.Le g'.functions
  adds : ∀ i : Interface, g.functions.Le i.conventions.get? →
    g'.functions.Le (stmts.foldl Interface.addStmt i).conventions.get?
  calls : ∀ i : Interface, g'.functions.Le i.conventions.get? →
    ∀ c ∈ Stmt.callsIn stmts, Matches i c
  headings : ∀ d ∈ definitions stmts, d.1.Offered g'.functions

theorem Heading.Offered.mono {h : Heading} {l l' : View Convention} (offered : h.Offered l)
    (le : l.Le l') : h.Offered l' := by
  obtain ⟨result, types, parsed, takes, distinct, known⟩ := offered
  exact ⟨result, types, parsed, takes, distinct, le _ _ known⟩

/-- A heading adds its function, which may be there already. -/
theorem functions_of_enters {h : Heading} {defining : Bool} {result : Ty} {types : List Ty}
    (enters : Enters h defining result types [g] Γ') :
    ∃ g', Γ' = [g'] ∧ g'.functions = g.functions.add h.name.val ⟨result, types⟩ ∧
      g.functions.Le g'.functions := by
  cases enters with
  | new absent =>
      refine ⟨_, rfl, View.functions_add g h.name.val rfl, ?_⟩
      rw [View.functions_add g h.name.val rfl]
      exact View.le_add (View.functions_of_absent absent) _
  | @known isDefined present _ =>
      have here : g.functions h.name.val = some ⟨result, types⟩ := by
        rw [View.functions, show g h.name.val = _ from present]
        rfl
      refine ⟨_, rfl, View.functions_add g h.name.val rfl, ?_⟩
      rw [View.functions_add g h.name.val rfl, View.add_self here]
      exact View.Le.refl _

theorem le_addHeading {h : Heading} {result : Ty} {types : List Ty}
    (parsed : Ty.parse? h.result.val = some result) (takes : h.Takes types)
    (added : g'.functions = g.functions.add h.name.val ⟨result, types⟩) (i : Interface)
    (le : g.functions.Le i.conventions.get?) :
    g'.functions.Le (i.addHeading h).conventions.get? := by
  have known : (i.addHeading h).conventions.get? =
      View.add i.conventions.get? h.name.val ⟨result, types⟩ := by
    funext name
    exact get?_addHeading i parsed takes name
  rw [known, added]
  exact le.add _ _

/-- What a statement at top level makes known. -/
theorem offers_stmt {x : Stmt} (top : x.hasHeadingsAtTop = true) (legal : Legal around [g] x Γ') :
    ∃ g', Γ' = [g'] ∧ Offers [x] g g' := by
  rcases Stmt.hasHeadingsAtTop_cases top with ⟨site, h, rfl⟩ | ⟨h, braces, body, rfl, free⟩ | free
  · cases legal with
    | prototype entered =>
        obtain ⟨parsed, takes, enters⟩ := entered
        obtain ⟨g', rfl, added, le⟩ := functions_of_enters enters
        exact ⟨g', rfl, le, le_addHeading parsed takes added, fun _ _ => nofun, nofun⟩
  · cases legal with
    | @define _ _ _ _ result types _ _ _ _ entered distinct all =>
        obtain ⟨parsed, takes, enters⟩ := entered
        obtain ⟨g₁, rfl, added, le⟩ := functions_of_enters enters
        have uses (i : Interface) : Uses i (Stmt.callsIn body) [g₁] Γ' :=
          (uses_stmts body free all).inside (functions_paramScope _)
        obtain ⟨g', rfl, same⟩ := List.map_eq_singleton_iff.mp (uses {}).same
        have here : g'.functions h.name.val = some ⟨result, types⟩ := by
          rw [same, added]
          exact if_pos rfl
        refine ⟨g', rfl, same ▸ le, ?_, ?_, ?_⟩
        · intro i known
          exact le_addHeading parsed takes (same.trans added) i known
        · intro i known c mem
          refine (uses i).known ?_ c (by simpa [Stmt.callsIn, Stmt.calls] using mem)
          intro f inside
          obtain rfl := List.mem_singleton.mp inside
          exact same ▸ known
        · intro d mem
          obtain rfl := List.mem_singleton.mp mem
          exact ⟨result, types, parsed, takes, distinct, here⟩
  · have uses (i : Interface) : Uses i x.calls [g] Γ' := uses_stmt x free legal
    obtain ⟨g', rfl, same⟩ := List.map_eq_singleton_iff.mp (uses {}).same
    refine ⟨g', rfl, same ▸ View.Le.refl _, ?_, ?_, ?_⟩
    · intro i known
      rw [List.foldl_cons, List.foldl_nil, addStmt_of_free free]
      exact same ▸ known
    · intro i known c mem
      refine (uses i).known ?_ c (by simpa [Stmt.callsIn] using mem)
      intro f inside
      obtain rfl := List.mem_singleton.mp inside
      exact same ▸ known
    · cases x with
      | define => contradiction
      | _ => exact nofun

/-- What the top level of a program makes known stays known. -/
theorem offers_stmts {stmts : List Stmt} (top : stmts.all Stmt.hasHeadingsAtTop = true)
    (legal : LegalAll around [g] stmts Γ') : ∃ g', Γ' = [g'] ∧ Offers stmts g g' := by
  induction stmts generalizing g with
  | nil =>
      cases legal
      exact ⟨g, rfl, View.Le.refl _, fun _ known => known, fun _ _ => nofun, nofun⟩
  | cons x rest ih =>
      obtain ⟨topFirst, topRest⟩ := Bool.and_eq_true_iff.mp top
      cases legal with
      | cons _ first others =>
          obtain ⟨g₁, rfl, one⟩ := offers_stmt topFirst first
          obtain ⟨g', rfl, all⟩ := ih topRest others
          refine ⟨g', rfl, one.le.trans all.le, ?_, ?_, ?_⟩
          · intro i known
            exact all.adds _ (one.adds i known)
          · intro i known c mem
            rcases List.mem_append.mp mem with mem | mem
            · exact one.calls i (all.le.trans known) c (by simpa [Stmt.callsIn] using mem)
            · exact all.calls i known c mem
          · intro d mem
            rw [definitions_cons] at mem
            rcases List.mem_append.mp mem with mem | mem
            · exact (one.headings d mem).mono all.le
            · exact all.headings d mem

namespace Program

variable {p : Program}

/-- What an accepted program with its functions at top level makes known. -/
theorem offers (accepted : p.check.diagnostics.hasErrors = false)
    (top : p.hasHeadingsAtTop = true) :
    ∃ g, Offers p.stmts (fun _ => none) g ∧
      g.functions.Le (Interface.ofProgram p).conventions.get? := by
  obtain ⟨Γ, legal⟩ :=
    Check.legal_stmts p.stmts Check.State.ready_start (p.accepted_iff_clean.mp accepted)
  obtain ⟨g, -, offers⟩ := offers_stmts top legal
  exact ⟨g, offers, offers.adds {} nofun⟩

/-- Every call in an accepted program has an argument for every parameter. -/
theorem calls_match (accepted : p.check.diagnostics.hasErrors = false)
    (top : p.hasHeadingsAtTop = true) :
    ∀ c ∈ Stmt.callsIn p.stmts, Matches (Interface.ofProgram p) c := by
  obtain ⟨g, offers, known⟩ := offers accepted top
  exact offers.calls _ known

/-- Every function that an accepted program defines is called as its definition says. -/
theorem definitions_match (accepted : p.check.diagnostics.hasErrors = false)
    (top : p.hasHeadingsAtTop = true) :
    ∀ d ∈ definitions p.stmts, d.1.Offered (Interface.ofProgram p).conventions.get? := by
  obtain ⟨g, offers, known⟩ := offers accepted top
  exact fun d mem => (offers.headings d mem).mono known

end Program

end BraceLang
