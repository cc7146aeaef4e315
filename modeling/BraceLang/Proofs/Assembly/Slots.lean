import BraceLang.Assembly.Listing
import BraceLang.Proofs.Assembly.Emission
import BraceLang.Proofs.Trees
import BraceLang.Proofs.Views

/-!
What making code for statements does, step by step, and the scopes of slots meanwhile. Of a slot
only its type counts here. What other modules show about code that is made without a fault starts
from the steps of its statement: `done_ifThen` to `done_forLoop`, `done_stmts_cons`,
`done_routines_cons` and, for a program, `done_listing`.

**Main result.** `done_declaration`: a declaration adds a slot of its type to the current scope.
-/

namespace BraceLang.Assembly

variable {α β : Type} {iface : Interface} {s s' : State} {targets : Option Targets}

/-- The types of the slots in the open scopes. -/
def State.layers (s : State) : List (View Ty) := s.env.stack.views Slot.type

theorem State.Grows.layers (grows : s.Grows s') : s'.layers = s.layers :=
  congrArg (ScopeStack.views Slot.type) grows.stack

/-! ### Making code without a fault -/

/-- The action ends without a fault. -/
def Done (action : EmitStmt α) (s : State) (a : α) (s' : State) : Prop :=
  action.run s = (.ok a, s')

theorem done_pure {a b : α} (done : Done (pure a) s b s') : a = b ∧ s = s' := by
  obtain ⟨same, rfl⟩ := Prod.mk.inj done
  exact ⟨Except.ok.inj same, rfl⟩

theorem run_bind (action : EmitStmt α) (next : α → EmitStmt β) (s : State) :
    (action >>= next).run s = ExceptT.bindCont (m := Emit) next (action.run s).1 (action.run s).2 :=
  rfl

theorem done_bind {action : EmitStmt α} {next : α → EmitStmt β} {b : β}
    (done : Done (action >>= next) s b s') :
    ∃ a middle, Done action s a middle ∧ Done (next a) middle b s' := by
  unfold Done at done ⊢
  rw [run_bind] at done
  rcases ends : action.run s with ⟨_ | a, middle⟩ <;> rw [ends] at done
  · have := (Prod.mk.inj done).1
    contradiction
  · exact ⟨a, middle, rfl, done⟩

/-- An action that cannot fail. -/
theorem done_lift {action : Emit α} {a : α} (done : Done (liftM action) s a s') :
    action s = (a, s') := by
  obtain ⟨same, last⟩ := Prod.mk.inj done
  exact Prod.ext (Except.ok.inj same) last

theorem done_action {action : Emit α} {a : α} (done : Done (liftM action) s a s') :
    a = (action s).1 ∧ s' = (action s).2 := by
  rw [done_lift done]
  exact ⟨rfl, rfl⟩

/-- What is found behind an action, if it ends without a fault. -/
def onDone (action : EmitStmt α) (s : State) (next : State → List β) : List β :=
  match action.run s with
  | (.ok _, s') => next s'
  | (.error _, _) => []

theorem onDone_of_done {action : EmitStmt α} {a : α} (done : Done action s a s')
    (next : State → List β) : onDone action s next = next s' := by
  unfold onDone
  rw [done]

theorem mem_onDone {action : EmitStmt α} {next : State → List β} {b : β}
    (mem : b ∈ onDone action s next) : ∃ a s', Done action s a s' ∧ b ∈ next s' := by
  unfold onDone at mem
  split at mem
  · rename_i a s' ends
    exact ⟨a, s', ends, mem⟩
  · contradiction

/-! ### Scopes -/

theorem layers_openScope (s : State) : (openScope s).2.layers = (fun _ => none) :: s.layers := rfl

theorem layers_closeScope (s : State) : (closeScope s).2.layers = s.layers.tail := by
  change (s.env.leave.2.stack).views _ = _
  obtain ⟨⟨⟨scopes⟩, journal⟩, _⟩ := s
  cases scopes <;> rfl

theorem layers_declareSlot {name : String} {l : View Ty} {rest : List (View Ty)}
    (layers : s.layers = l :: rest) (absent : l name = none) (slot : Slot) :
    (declareSlot name slot s).2.layers = l.add name slot.type :: rest := by
  obtain ⟨stack, declared, views⟩ := ScopeStack.views_declare Slot.type layers absent slot
  rw [← views]
  change (s.env.declare name slot).2.stack.views _ = _
  rw [Env.declare, declared]
  rfl

theorem tail_declareSlot (name : String) (slot : Slot) (s : State) :
    (declareSlot name slot s).2.layers.tail = s.layers.tail := by
  change ((s.env.declare name slot).2.stack.views Slot.type).tail = _
  unfold Env.declare
  cases declared : s.env.stack.declare? name slot with
  | none => rfl
  | some stack => exact (ScopeStack.le_declare? Slot.type declared).2

/-! ### Statements -/

theorem typeOf_eq {text : String} {t : Ty} (parsed : Ty.parse? text = some t) :
    typeOf text = t := by
  rw [typeOf, parsed]
  rfl

theorem variableType_eq {text : String} {t : Ty} (parsed : Ty.parse? text = some t)
    (notVoid : t ≠ .void) : variableType text = t := by
  rw [variableType, typeOf_eq parsed]
  cases t with
  | void => contradiction
  | _ => rfl

/-- How many values a declaration makes room for. -/
def valueCount (length : Option UInt32) : Nat := max ((length.map UInt32.toNat).getD 1) 1

/-- Storage is a part of the frame, or a reservation where there is none. -/
theorem done_allocate_cases {name : String} {t : Ty} {length : Option UInt32} {slot : Slot}
    (done : Done (allocate name t length) s slot s') :
    (∃ f size offset, s.frame = some f ∧
      growFrame f.size t (valueCount length) = .ok (size, offset) ∧
      slot = ⟨t, .frame offset⟩ ∧ s' = { s with frame := some { f with size } }) ∨
    (s.frame = none ∧
      slot = ⟨t, .global (reserveSpace s.reservations name t (valueCount length)).1⟩ ∧
      s' = { s with
        reservations := (reserveSpace s.reservations name t (valueCount length)).2 }) := by
  unfold allocate at done
  obtain ⟨s₁, middle, got, done⟩ := done_bind done
  obtain ⟨rfl, rfl⟩ : s = s₁ ∧ s = middle := Prod.mk.inj (done_lift got)
  cases framed : s.frame with
  | none =>
      simp only [framed] at done
      obtain ⟨_, middle, put, done⟩ := done_bind done
      obtain ⟨rfl, rfl⟩ := done_pure done
      obtain ⟨-, rfl⟩ := Prod.mk.inj (done_lift put)
      exact .inr ⟨rfl, rfl, rfl⟩
  | some frame =>
      simp only [framed] at done
      obtain ⟨⟨size, offset⟩, middle, grown, done⟩ := done_bind done
      obtain ⟨fits, rfl⟩ := Prod.mk.inj grown
      obtain ⟨_, middle, put, done⟩ := done_bind done
      obtain ⟨rfl, rfl⟩ := done_pure done
      obtain ⟨-, rfl⟩ := Prod.mk.inj (done_lift put)
      exact .inl ⟨frame, size, offset, rfl, fits, rfl, rfl⟩

theorem done_allocate {name : String} {t : Ty} {length : Option UInt32} {slot : Slot}
    (done : Done (allocate name t length) s slot s') : slot.type = t ∧ s'.env = s.env := by
  rcases done_allocate_cases done with ⟨f, size, offset, -, -, rfl, rfl⟩ | ⟨-, rfl, rfl⟩
  · exact ⟨rfl, rfl⟩
  · exact ⟨rfl, rfl⟩

/-- The state that a variable gets its storage in: its initial value comes first. -/
def State.afterInit (iface : Interface) (s : State) (d : Declaration) : State :=
  match d.init with
  | none => s
  | some init => (expr iface init s).2

/-- A declaration gives its name the storage that was found for it, and stores the initial value
there. -/
theorem done_declaration_made {d : Declaration} {lines : List Line}
    (done : Done (declaration iface d) s lines s') :
    ∃ slot middle, Done (allocate d.name.val (variableType d.type.val) d.length)
        (s.afterInit iface d) slot middle ∧ s' = (declareSlot d.name.val slot middle).2 ∧
      lines = d.init.elim [] fun init =>
        (expr iface init s).1.1 ++ code (storeSlot (expr iface init s).1.2 slot false) := by
  unfold declaration at done
  unfold State.afterInit
  cases init : d.init with
  | none =>
      simp only [init] at done
      obtain ⟨slot, middle, allocated, done⟩ := done_bind done
      obtain ⟨_, last, declared, done⟩ := done_bind done
      obtain ⟨rfl, rfl⟩ := done_pure done
      exact ⟨slot, middle, allocated, (done_action declared).2, rfl⟩
  | some e =>
      simp only [init] at done
      obtain ⟨_, first, made, done⟩ := done_bind done
      obtain ⟨slot, middle, allocated, done⟩ := done_bind done
      obtain ⟨_, last, declared, done⟩ := done_bind done
      obtain ⟨rfl, rfl⟩ := done_pure done
      obtain ⟨rfl, rfl⟩ := done_action made
      exact ⟨slot, middle, allocated, (done_action declared).2, rfl⟩

theorem done_declaration_allocates {d : Declaration} {lines : List Line}
    (done : Done (declaration iface d) s lines s') :
    ∃ slot middle, Done (allocate d.name.val (variableType d.type.val) d.length)
        (s.afterInit iface d) slot middle ∧ s' = (declareSlot d.name.val slot middle).2 := by
  obtain ⟨slot, middle, allocated, declared, -⟩ := done_declaration_made done
  exact ⟨slot, middle, allocated, declared⟩

theorem grows_afterInit (s : State) (d : Declaration) : s.Grows (s.afterInit iface d) := by
  unfold State.afterInit
  split
  · exact .refl s
  · exact growing_expr iface _ s

/-- A declaration ends by giving its name a slot of its type. -/
theorem done_declaration {d : Declaration} {lines : List Line}
    (done : Done (declaration iface d) s lines s') :
    ∃ slot middle, slot.type = variableType d.type.val ∧ middle.layers = s.layers ∧
      s' = (declareSlot d.name.val slot middle).2 := by
  obtain ⟨slot, middle, allocated, rfl⟩ := done_declaration_allocates done
  obtain ⟨type, env⟩ := done_allocate allocated
  refine ⟨slot, middle, type, ?_, rfl⟩
  rw [State.layers, env]
  exact (grows_afterInit s d).layers

/-- A scope is opened, filled and closed. -/
theorem done_inScope {inside : EmitStmt (List Line)} {lines : List Line}
    (done : Done (inScope inside) s lines s') :
    ∃ filled, Done inside (openScope s).2 lines filled ∧ s' = (closeScope filled).2 := by
  unfold inScope at done
  obtain ⟨_, opened, opens, done⟩ := done_bind done
  obtain ⟨_, filled, fills, done⟩ := done_bind done
  obtain ⟨_, closed, closes, done⟩ := done_bind done
  obtain ⟨rfl, rfl⟩ := done_pure done
  obtain ⟨-, rfl⟩ := done_action opens
  exact ⟨filled, fills, (done_action closes).2⟩

theorem growing_slotOf (name : String) : Growing (slotOf name) := State.Grows.refl

theorem growing_assignment (target : String) (index : Option Expr) (value : Expr) :
    Growing (assignment iface target index value) := by
  refine (growing_slotOf target).bind fun slot? => ?_
  cases slot? with
  | none =>
      have unknown : Growing (noStorage target) := fun _ => ⟨rfl, rfl, rfl, List.prefix_rfl⟩
      exact unknown.bind fun _ => (growing_expr iface value).bind fun _ => .pure _
  | some slot =>
      cases index with
      | none => exact (growing_expr iface value).bind fun _ => .pure _
      | some index =>
          exact (growing_expr iface index).bind fun _ =>
            (growing_expr iface value).bind fun _ => .pure _

theorem growing_call (name : String) (args : List Expr) : Growing (call iface name args) :=
  (growing_callee iface name).bind fun _ => (growing_exprArgs iface _ args).bind fun _ => .pure _

theorem growing_callStmt (name : String) (args : List Expr) :
    Growing (callStmt iface name args) :=
  (growing_call name args).bind fun _ => .pure _

theorem growing_returnStmt (value : Option Expr) : Growing (returnStmt iface value) := by
  intro s
  cases value with
  | none => exact .refl s
  | some e => exact ((growing_expr iface e).bind fun _ => .pure _) s

theorem growing_jumpUnless (cond : Expr) (target : Target) :
    Growing (jumpUnless iface cond target) :=
  (growing_expr iface cond).bind fun _ => .pure _

/-! ### The steps of a compound statement -/

section Steps

variable {cond : Expr} {braces elseBraces : Braces} {body elseBody : List Stmt} {lines : List Line}

theorem done_ifThen (done : Done (stmt iface targets (.ifThen cond braces body)) s lines s') :
    let fails := freshTarget s
    let test := jumpUnless iface cond fails.1 fails.2
    ∃ inner, Done (inScope (stmts iface targets body)) test.2 inner s' ∧
      lines = test.1 ++ inner ++ [.label fails.1] := by
  rw [stmt] at done
  obtain ⟨_, _, fresh, done⟩ := done_bind done
  obtain ⟨_, _, tested, done⟩ := done_bind done
  obtain ⟨inner, _, bodied, done⟩ := done_bind done
  obtain ⟨rfl, rfl⟩ := done_pure done
  obtain ⟨rfl, rfl⟩ := done_action fresh
  obtain ⟨rfl, rfl⟩ := done_action tested
  exact ⟨inner, bodied, rfl⟩

theorem done_ifElse
    (done : Done (stmt iface targets (.ifElse cond braces body elseBraces elseBody)) s lines s') :
    let fails := freshTarget s
    let test := jumpUnless iface cond fails.1 fails.2
    ∃ inner middle other, Done (inScope (stmts iface targets body)) test.2 inner middle ∧
      let stop := freshTarget middle
      Done (inScope (stmts iface targets elseBody)) stop.2 other s' ∧
        lines = test.1 ++ inner ++ [.instr (.jmp stop.1), .label fails.1] ++ other ++
          [.label stop.1] := by
  rw [stmt] at done
  obtain ⟨_, _, fresh, done⟩ := done_bind done
  obtain ⟨_, _, tested, done⟩ := done_bind done
  obtain ⟨inner, middle, bodied, done⟩ := done_bind done
  obtain ⟨_, _, fresh', done⟩ := done_bind done
  obtain ⟨other, _, bodied', done⟩ := done_bind done
  obtain ⟨rfl, rfl⟩ := done_pure done
  obtain ⟨rfl, rfl⟩ := done_action fresh
  obtain ⟨rfl, rfl⟩ := done_action tested
  obtain ⟨rfl, rfl⟩ := done_action fresh'
  exact ⟨inner, middle, other, bodied, bodied', rfl⟩

theorem done_whileLoop
    (done : Done (stmt iface targets (.whileLoop cond braces body)) s lines s') :
    let start := freshTarget s
    let stop := freshTarget start.2
    let test := jumpUnless iface cond stop.1 stop.2
    ∃ inner, Done (inScope (stmts iface (some ⟨start.1, stop.1⟩) body)) test.2 inner s' ∧
      lines = .label start.1 :: test.1 ++ inner ++ [.instr (.jmp start.1), .label stop.1] := by
  rw [stmt] at done
  obtain ⟨_, _, fresh, done⟩ := done_bind done
  obtain ⟨_, _, fresh', done⟩ := done_bind done
  obtain ⟨_, _, tested, done⟩ := done_bind done
  obtain ⟨inner, _, bodied, done⟩ := done_bind done
  obtain ⟨rfl, rfl⟩ := done_pure done
  obtain ⟨rfl, rfl⟩ := done_action fresh
  obtain ⟨rfl, rfl⟩ := done_action fresh'
  obtain ⟨rfl, rfl⟩ := done_action tested
  exact ⟨inner, bodied, rfl⟩

/-- The header of a `for` loop is in a scope around the loop. -/
theorem done_forLoop {init update : Option Stmt}
    (done : Done (stmt iface targets (.forLoop init cond update braces body)) s lines s') :
    ∃ first begun, Done (header iface targets init) (openScope s).2 first begun ∧
      let start := freshTarget begun
      let next := freshTarget start.2
      let stop := freshTarget next.2
      let test := jumpUnless iface cond stop.1 stop.2
      ∃ inner middle last filled,
        Done (inScope (stmts iface (some ⟨next.1, stop.1⟩) body)) test.2 inner middle ∧
        Done (header iface targets update) middle last filled ∧
        lines = first ++ .label start.1 :: test.1 ++ inner ++ .label next.1 :: last ++
          [.instr (.jmp start.1), .label stop.1] ∧
        s' = (closeScope filled).2 := by
  rw [stmt] at done
  obtain ⟨filled, fills, rfl⟩ := done_inScope done
  obtain ⟨first, begun, started, fills⟩ := done_bind fills
  obtain ⟨_, _, fresh, fills⟩ := done_bind fills
  obtain ⟨_, _, fresh', fills⟩ := done_bind fills
  obtain ⟨_, _, fresh'', fills⟩ := done_bind fills
  obtain ⟨_, _, tested, fills⟩ := done_bind fills
  obtain ⟨inner, middle, bodied, fills⟩ := done_bind fills
  obtain ⟨last, _, updated, fills⟩ := done_bind fills
  obtain ⟨rfl, rfl⟩ := done_pure fills
  obtain ⟨rfl, rfl⟩ := done_action fresh
  obtain ⟨rfl, rfl⟩ := done_action fresh'
  obtain ⟨rfl, rfl⟩ := done_action fresh''
  obtain ⟨rfl, rfl⟩ := done_action tested
  exact ⟨first, begun, started, inner, middle, last, _, bodied, updated, rfl, rfl⟩

theorem done_stmts_cons {x : Stmt} {rest : List Stmt}
    (done : Done (stmts iface targets (x :: rest)) s lines s') :
    ∃ first middle others, Done (stmt iface targets x) s first middle ∧
      Done (stmts iface targets rest) middle others s' ∧ lines = first ++ others := by
  rw [stmts] at done
  obtain ⟨first, middle, made, done⟩ := done_bind done
  obtain ⟨others, _, made', done⟩ := done_bind done
  obtain ⟨rfl, rfl⟩ := done_pure done
  exact ⟨first, middle, others, made, made', rfl⟩

/-- Code is made for a function where it is defined, and for no other statement. -/
theorem done_routines_cons {x : Stmt} {rest : List Stmt} {rs : List Routine}
    (done : Done (routines iface (x :: rest)) s rs s') :
    (∃ h braces body r middle others, x = .define h braces body ∧
      Done (routine iface h body) s r middle ∧ Done (routines iface rest) middle others s' ∧
      rs = r :: others) ∨
    (∀ h braces body, x ≠ .define h braces body) ∧ Done (routines iface rest) s rs s' := by
  cases x with
  | define h braces body =>
      rw [routines] at done
      obtain ⟨r, middle, made, done⟩ := done_bind done
      obtain ⟨others, _, made', done⟩ := done_bind done
      obtain ⟨rfl, rfl⟩ := done_pure done
      exact .inl ⟨h, braces, body, r, middle, others, rfl, made, made', rfl⟩
  | _ =>
      rw [routines] at done
      · exact .inr ⟨nofun, done⟩
      · rintro _ _ _ ⟨⟩

/-- The units of a program are made one after the other: the top-level code, what `_start` does
after that, and the functions. -/
theorem done_listing {p : Program} {l : Listing} (assembled : p.assemble.1 = .ok l) :
    let iface := Interface.ofProgram p
    ∃ top filled s', Done (stmts iface none p.stmts) (openScope {}).2 top filled ∧
      Done (routines iface p.stmts) (finish iface filled).2 l.routines s' ∧
      l.start = top ++ (finish iface filled).1 ∧
      l.externals = s'.externals.mergeSort (· ≤ ·) ∧ l.constants = s'.constants ∧
      l.reservations = s'.reservations := by
  have done : Done (listing p) {} l ((listing p).run {}).2 := Prod.ext assembled rfl
  unfold listing at done
  obtain ⟨_, _, opened, done⟩ := done_bind done
  obtain ⟨top, filled, made, done⟩ := done_bind done
  obtain ⟨_, _, finished, done⟩ := done_bind done
  obtain ⟨_, s', routed, done⟩ := done_bind done
  obtain ⟨_, _, read, done⟩ := done_bind done
  obtain ⟨rfl, -⟩ := done_pure done
  obtain ⟨-, rfl⟩ := done_action opened
  obtain ⟨rfl, rfl⟩ := done_action finished
  obtain ⟨rfl, -⟩ := Prod.mk.inj (done_lift read)
  exact ⟨top, filled, s', made, routed, rfl, rfl, rfl, rfl⟩

/-- Neither taking jump targets nor testing a condition changes storage. -/
theorem grows_test (iface : Interface) (cond : Expr) (grows : s.Grows s') :
    s.Grows (jumpUnless iface cond (freshTarget s').1 (freshTarget s').2).2 :=
  grows.trans (growing_freshTarget.bind (growing_jumpUnless cond) s')

end Steps

/-! ### Functions -/

theorem declareParams_cons (offset : Nat) (p : Param) (rest : List Param) (s : State) :
    declareParams offset (p :: rest) s =
      declareParams (offset + argumentBytes (typeOf p.type.val)) rest (match p.name with
        | none => s
        | some name => (declareSlot name.val ⟨typeOf p.type.val, .frame offset⟩ s).2) := by
  rw [declareParams]
  cases p.name <;> rfl

theorem tail_declareParams (params : List Param) (offset : Nat) (s : State) :
    (declareParams offset params s).2.layers.tail = s.layers.tail := by
  induction params generalizing offset s with
  | nil => rfl
  | cons p rest ih =>
      rw [declareParams_cons, ih]
      cases p.name with
      | none => rfl
      | some name => exact tail_declareSlot name.val _ s

/-- What precedes the code of a body: a scope with the parameters. -/
def enterRoutine (h : Heading) : Emit Unit := do
  modify ({ · with frame := some { result := typeOf h.result.val } })
  openScope
  declareParams firstArgument h.params

theorem growing_finish : Growing (finish iface) := by
  unfold finish
  split
  · exact (growing_call "main" []).bind fun _ => .pure _
  · exact .pure _

/-- Making code for a function fails just where it fails for the body. -/
theorem run_routine (h : Heading) (body : List Stmt) (s : State) :
    (routine iface h body).run s = match (stmts iface none body).run (enterRoutine h s).2 with
      | (.error fault, s') => (.error fault, s')
      | (.ok lines, filled) =>
          let bytes := (filled.frame.map (·.size)).getD 0
          (.ok ⟨h.name.val, code (prologue bytes) ++ lines ++
              code (defaultValue (typeOf h.result.val)) ++ epilogue⟩,
            (note ⟨.debug, s!"emitting function `{h.name.val}`, {bytes} bytes of locals"⟩
              { (closeScope filled).2 with frame := none }).2) := by
  have step : (routine iface h body).run s = ExceptT.bindCont (m := Emit) (fun lines => (do
        closeScope
        let bytes := ((← get).frame.map (·.size)).getD 0
        modify ({ · with frame := none })
        note ⟨.debug, s!"emitting function `{h.name.val}`, {bytes} bytes of locals"⟩
        return ⟨h.name.val, code (prologue bytes) ++ lines ++
          code (defaultValue (typeOf h.result.val)) ++ epilogue⟩ : EmitStmt Routine))
      ((stmts iface none body).run (enterRoutine h s).2).1
      ((stmts iface none body).run (enterRoutine h s).2).2 := rfl
  rw [step]
  rcases (stmts iface none body).run (enterRoutine h s).2 with ⟨_ | lines, filled⟩ <;> rfl

/-- The code of a function is that of its body, between what every function starts and ends with;
its scope and its frame are closed. -/
theorem done_routine_ends {h : Heading} {body : List Stmt} {r : Routine}
    (done : Done (routine iface h body) s r s') :
    ∃ lines filled event, Done (stmts iface none body) (enterRoutine h s).2 lines filled ∧
      r = ⟨h.name.val, code (prologue ((filled.frame.map (·.size)).getD 0)) ++ lines ++
        code (defaultValue (typeOf h.result.val)) ++ epilogue⟩ ∧
      s' = (note event { (closeScope filled).2 with frame := none }).2 := by
  unfold Done at done
  rw [run_routine] at done
  split at done
  · have := (Prod.mk.inj done).1
    contradiction
  · rename_i lines filled made
    obtain ⟨same, rfl⟩ := Prod.mk.inj done
    obtain rfl := Except.ok.inj same
    exact ⟨lines, filled, _, made, rfl, rfl⟩

theorem done_routine {h : Heading} {body : List Stmt} {r : Routine}
    (done : Done (routine iface h body) s r s') :
    ∃ lines filled, Done (stmts iface none body) (enterRoutine h s).2 lines filled ∧
      s'.layers = filled.layers.tail := by
  obtain ⟨lines, filled, event, made, -, rfl⟩ := done_routine_ends done
  exact ⟨lines, filled, made, layers_closeScope filled⟩

end BraceLang.Assembly
