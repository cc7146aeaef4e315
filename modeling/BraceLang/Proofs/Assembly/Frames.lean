import BraceLang.Proofs.Assembly.Moments
import BraceLang.Proofs.Assembly.Outline

/-!
The frames of functions.

The local variables of a function are all declarations in its body, also those of blocks that
stand side by side and those in headers of loops. What making code does to the frame depends on
their types and lengths in the order of the code, and on nothing else: `lays_stmts` says so for
every tree, for bodies that do not fit as well, and `holdings_of_done` for the storage that each
of them gets.

**Main results.** `frame_disjoint`: in a frame of less than half of the address space all local
variables of the function have ranges of their own, aligned and below the frame pointer, in the
room that the function makes for them. `frame_fault_iff`: making code fails exactly if a frame
leaves the 32-bit words or has `0x80000000` bytes; all other frames from there on are let
through, with variables that are not below the frame pointer.
-/

namespace BraceLang

open Assembly

namespace Declaration

/-- The type that the variable is stored with. -/
def stored (d : Declaration) : Ty := variableType d.type.val

/-- The bytes of the variable. -/
def room (d : Declaration) : Nat := d.stored.size * valueCount d.length

/-- The variable in the frame of a function. -/
def holding (d : Declaration) (offset : Int) : Holding :=
  ⟨d.name.val, ⟨d.stored, .frame offset⟩, valueCount d.length, false⟩

@[simp] theorem bytes_holding (d : Declaration) (offset : Int) :
    (d.holding offset).bytes = d.room := rfl

@[simp] theorem slot_holding (d : Declaration) (offset : Int) :
    (d.holding offset).slot = ⟨d.stored, .frame offset⟩ := rfl

end Declaration

namespace Stmt

mutual

/-- The variables that the code of a statement declares, in the order of the code. -/
def locals : Stmt → List Declaration
  | .declare _ d => [d]
  | .block _ body | .ifThen _ _ body | .whileLoop _ _ body => localsIn body
  | .ifElse _ _ body _ elseBody => localsIn body ++ localsIn elseBody
  | .forLoop init _ update _ body => localsBy init ++ (localsIn body ++ localsBy update)
  | .prototype .. | .define .. | .assign .. | .call .. | .breakLoop _ | .continueLoop _
  | .returnValue .. => []

/-- The variables of a part of a `for` header. -/
def localsBy : Option Stmt → List Declaration
  | none => []
  | some x => x.locals

def localsIn : List Stmt → List Declaration
  | [] => []
  | x :: rest => x.locals ++ localsIn rest

end

end Stmt

/-- The variable that is declared at a move. -/
def Move.locals : Move → List Declaration
  | .single ⟨.declare _ d, _⟩ => [d]
  | _ => []

namespace Stmt

mutual

/-- The code comes to the variables on the way through the tree. -/
theorem locals_moves : (x : Stmt) → (x.moves false).flatMap Move.locals = x.locals
  | .block _ body | .ifThen _ _ body | .whileLoop _ _ body => by
      simp [moves, movesBetween, Move.locals, locals, locals_movesIn body]
  | .ifElse _ _ body _ elseBody => by
      simp [moves, movesBetween, Move.locals, locals, locals_movesIn body,
        locals_movesIn elseBody]
  | .forLoop init _ update _ body => by
      simp [moves, movesBetween, Move.locals, locals, locals_movesBy init, locals_movesIn body,
        locals_movesBy update]
  | .declare .. | .prototype .. | .define .. | .assign .. | .call .. | .breakLoop _
  | .continueLoop _ | .returnValue .. => rfl

theorem locals_movesBy : (part : Option Stmt) →
    (movesBy false part).flatMap Move.locals = localsBy part
  | none => rfl
  | some x => locals_moves x

theorem locals_movesIn : (body : List Stmt) →
    (movesIn false body).flatMap Move.locals = localsIn body
  | [] => rfl
  | x :: rest => by
      simp [movesIn, Move.locals, localsIn, locals_moves x, locals_movesIn rest]

end

end Stmt

namespace Assembly

/-! ### Frames in unbounded arithmetic -/

/-- The size of a frame with one more variable. -/
def above (size : Nat) (d : Declaration) : Nat := alignUp (size + d.room) (alignment d.stored)

/-- The size of the frame of some variables. -/
def frameSize (ds : List Declaration) : Nat := ds.foldl above 0

/-- Where a variable starts that a frame of the size ends with. -/
def offsetOf (size : Nat) : Int :=
  if size < 0x80000000 then -(size : Int) else 0x100000000 - size

theorem offsetOf_of_small {size : Nat} (small : size < 0x80000000) :
    offsetOf size = -(size : Int) := if_pos small

/-- There is no frame with the variable: rounding its size up leaves the words, or the distance
has no negative. -/
def Overruns (size : Nat) (d : Declaration) : Prop :=
  0x100000000 ≤ size + d.room + alignment d.stored ∨ above size d = 0x80000000

/-- The frame holds the variables, one after the other. -/
def HasRoom : Nat → List Declaration → Prop
  | _, [] => True
  | size, d :: ds => ¬ Overruns size d ∧ HasRoom (above size d) ds

/-- The variables with their places. -/
def placements : Nat → List Declaration → List Holding
  | _, [] => []
  | size, d :: ds => d.holding (offsetOf (above size d)) :: placements (above size d) ds

variable {size : Nat} {d : Declaration} {ds ds' : List Declaration}

theorem hasRoom_append (size : Nat) (ds ds' : List Declaration) :
    HasRoom size (ds ++ ds') ↔ HasRoom size ds ∧ HasRoom (ds.foldl above size) ds' := by
  induction ds generalizing size with
  | nil => simp only [List.nil_append, HasRoom, List.foldl_nil, true_and]
  | cons d ds ih =>
      simp only [List.cons_append, HasRoom, List.foldl_cons, ih, and_assoc]

theorem placements_append (size : Nat) (ds ds' : List Declaration) :
    placements size (ds ++ ds') = placements size ds ++ placements (ds.foldl above size) ds' := by
  induction ds generalizing size with
  | nil => rfl
  | cons d ds ih => simp only [List.cons_append, placements, List.foldl_cons, ih]

theorem length_placements (size : Nat) (ds : List Declaration) :
    (placements size ds).length = ds.length := by
  induction ds generalizing size with
  | nil => rfl
  | cons d ds ih => simp only [placements, List.length_cons, ih]

/-- Variables do not fit because of one of them, which comes behind some that do. -/
theorem not_hasRoom_iff (size : Nat) (ds : List Declaration) :
    ¬ HasRoom size ds ↔ ∃ front d, front ++ [d] <+: ds ∧ Overruns (front.foldl above size) d := by
  induction ds generalizing size with
  | nil =>
      refine iff_of_false (fun none => none trivial) ?_
      rintro ⟨front, d, short, -⟩
      simp at short
  | cons x ds ih =>
      rw [HasRoom, not_and_or, not_not, ih]
      constructor
      · rintro (overruns | ⟨front, d, short, overruns⟩)
        · exact ⟨[], x, by simp, overruns⟩
        · refine ⟨x :: front, d, List.cons_prefix_cons.mpr ⟨rfl, short⟩, ?_⟩
          rwa [List.foldl_cons]
      · rintro ⟨front, d, short, overruns⟩
        cases front with
        | nil =>
            obtain ⟨rfl, -⟩ := List.cons_prefix_cons.mp short
            exact .inl overruns
        | cons y front =>
            obtain ⟨rfl, rest⟩ := List.cons_prefix_cons.mp short
            rw [List.foldl_cons] at overruns
            exact .inr ⟨front, d, rest, overruns⟩

/-- A variable has at least one byte: there are none of type `void`. -/
theorem room_pos (d : Declaration) : 0 < d.room := by
  have size : 0 < d.stored.size := by
    unfold Declaration.stored variableType
    cases typeOf d.type.val <;> decide
  have count : 0 < valueCount d.length := Nat.lt_of_lt_of_le Nat.one_pos (Nat.le_max_right _ _)
  exact Nat.mul_pos size count

theorem add_room_le_above (size : Nat) (d : Declaration) : size + d.room ≤ above size d :=
  le_alignUp _ (alignment_pos d.stored)

theorem alignment_dvd_above (size : Nat) (d : Declaration) :
    alignment d.stored ∣ above size d := Nat.dvd_mul_left _ _

theorem frameSize_concat (front : List Declaration) (d : Declaration) :
    frameSize (front ++ [d]) = above (frameSize front) d := List.foldl_append

/-- A frame with a variable that does not overrun it is a word. -/
theorem above_lt (fits : ¬ Overruns size d) : above size d < 0x100000000 := by
  obtain ⟨word, -⟩ := not_or.mp fits
  have most : above size d < _ := alignUp_lt (size + d.room) (alignment_pos d.stored)
  omega

/-- The arithmetic of a frame stays in the words exactly if the variable does not overrun it. -/
theorem growFrame_ok_of_not_overruns (fits : ¬ Overruns size d) :
    growFrame size d.stored (valueCount d.length) =
      .ok (above size d, offsetOf (above size d)) := by
  obtain ⟨rounds, other⟩ := not_or.mp fits
  have bytes : word .multiply (d.stored.size * valueCount d.length) = .ok d.room :=
    if_pos (show d.room < _ by omega)
  have used : word .add (size + d.room) = .ok (size + d.room) := if_pos (by omega)
  have rounded : word .add (size + d.room + alignment d.stored) =
      .ok (size + d.room + alignment d.stored) := if_pos (by omega)
  have placed : distance (above size d) = .ok (offsetOf (above size d)) := if_neg other
  unfold growFrame
  rw [bytes]
  simp only [bind, Except.bind, used, rounded]
  rw [← above, placed]
  rfl

theorem growFrame_error_of_overruns (overruns : Overruns size d) :
    ∃ fault, growFrame size d.stored (valueCount d.length) = .error fault := by
  cases grown : growFrame size d.stored (valueCount d.length) with
  | error fault => exact ⟨fault, rfl⟩
  | ok result =>
      obtain ⟨fits, rounded, placed⟩ := growFrame_rounds grown
      have same : result.1 = above size d := rounded
      have bytes : d.stored.size * valueCount d.length = d.room := rfl
      rcases distance_ok placed with ⟨below, -⟩ | ⟨behind, -⟩ <;>
        rcases overruns with wide | half <;> omega

/-! ### What making code does to a frame -/

/-- From a state, an action lays out the variables in the frame as they come, and it fails just
if the frame does not hold them. -/
def Lays {α : Type} (action : EmitStmt α) (s : State) (ds : List Declaration) : Prop :=
  ∀ f, s.frame = some f →
    (HasRoom f.size ds ∧
      ∃ a s', Done action s a s' ∧ s'.frame = some { f with size := ds.foldl above f.size }) ∨
    (¬ HasRoom f.size ds ∧ ∃ fault s', action.run s = (.error fault, s'))

namespace Lays

variable {α β : Type} {s : State}

/-- An action that cannot fail and leaves the frame alone. -/
theorem lift {action : Emit α} (frame : (action s).2.frame = s.frame) :
    Lays (liftM action) s [] := by
  intro f framed
  exact .inl ⟨trivial, _, _, rfl, frame.trans framed⟩

theorem pure (a : α) : Lays (Pure.pure a) s [] :=
  fun _ framed => .inl ⟨trivial, a, s, rfl, framed⟩

theorem bind {action : EmitStmt α} {next : α → EmitStmt β} (first : Lays action s ds)
    (second : ∀ a, Lays (next a) (action.run s).2 ds') : Lays (action >>= next) s (ds ++ ds') := by
  intro f framed
  rw [hasRoom_append, List.foldl_append]
  rcases first f framed with ⟨fits, a, s', done, framed'⟩ | ⟨full, fault, s', failed⟩
  · have goesOn : (action >>= next).run s = (next a).run s' := by
      rw [run_bind, done]
      rfl
    have after : (action.run s).2 = s' := congrArg Prod.snd done
    have rest : Lays (next a) s' ds' := after ▸ second a
    unfold Done
    rw [goesOn]
    rcases rest _ framed' with ⟨fits', ends⟩ | ⟨full, failed⟩
    · exact .inl ⟨⟨fits, fits'⟩, ends⟩
    · exact .inr ⟨fun both => full both.2, failed⟩
  · refine .inr ⟨fun both => full both.1, fault, s', ?_⟩
    rw [run_bind, failed]
    rfl

/-- What follows lays out nothing. -/
theorem bind_nil {action : EmitStmt α} {next : α → EmitStmt β} (first : Lays action s ds)
    (second : ∀ a s, Lays (next a) s []) : Lays (action >>= next) s ds := by
  have all : Lays (action >>= next) s (ds ++ []) := first.bind fun a => second a _
  rwa [List.append_nil] at all

theorem lift_bind {action : Emit α} {next : α → EmitStmt β}
    (frame : (action s).2.frame = s.frame) (rest : Lays (next (action s).1) (action s).2 ds) :
    Lays (liftM action >>= next) s ds := by
  intro f framed
  exact rest f (frame.trans framed)

/-- What an action leaves behind that lays out variables and does not fail. -/
theorem of_done {action : EmitStmt α} (lays : Lays action s ds) {a : α} {s' : State}
    (done : Done action s a s') {f : Frame} (framed : s.frame = some f) :
    HasRoom f.size ds ∧ s'.frame = some { f with size := ds.foldl above f.size } := by
  rcases lays f framed with ⟨fits, a', s'', done', framed'⟩ | ⟨-, fault, s'', failed⟩
  · obtain ⟨-, rfl⟩ := Prod.mk.inj (done.symm.trans done')
    exact ⟨fits, framed'⟩
  · have := (Prod.mk.inj (done.symm.trans failed)).1
    contradiction

end Lays

theorem lays_inScope {inside : EmitStmt (List Line)} {s : State}
    (lays : Lays inside (openScope s).2 ds) : Lays (inScope inside) s ds :=
  .lift_bind rfl (lays.bind_nil fun lines _ => .lift_bind rfl (.pure lines))

section Locals

variable (iface : Interface)

/-- A variable with the storage that is found for it where its declaration stands. -/
def allocated (d : Declaration) (s : State) : List Holding :=
  match ((allocate d.name.val d.stored d.length).run (s.afterInit iface d)).1 with
  | .ok slot => [⟨d.name.val, slot, valueCount d.length, false⟩]
  | .error _ => []

/-- The variable that is declared at a move, with its storage. -/
def holdingsAt (m : Move) (s : State) : List Holding :=
  m.locals.flatMap fun d => allocated iface d s

/-- The variables of statements with the storage that is found for them, in the order of the
code. -/
def holdingsIn (targets : Option Targets) (body : List Stmt) (s : State) : List Holding :=
  (pass iface).noted (fun m w => holdingsAt iface m w.state) (Stmt.movesIn false body)
    ⟨s, [], targets, []⟩

end Locals

variable {iface : Interface} {s : State}

/-- In a frame, a variable only asks for room. -/
theorem run_allocate {f : Frame} (framed : s.frame = some f) (name : String) (t : Ty)
    (length : Option UInt32) :
    (allocate name t length).run s = ExceptT.bindCont (m := Emit)
      (fun grown => do
        set { s with frame := some { f with size := grown.1 } }
        return ⟨t, .frame grown.2⟩)
      (growFrame f.size t (valueCount length)) s := by
  unfold allocate
  rw [run_bind]
  simp only [show (get : EmitStmt State).run s = (.ok s, s) from rfl, ExceptT.bindCont, framed]
  rfl

theorem run_allocate_of_grown {f : Frame} (framed : s.frame = some f) {t : Ty}
    {length : Option UInt32} {size : Nat} {offset : Int}
    (grown : growFrame f.size t (valueCount length) = .ok (size, offset)) (name : String) :
    (allocate name t length).run s =
      (.ok ⟨t, .frame offset⟩, { s with frame := some { f with size } }) := by
  rw [run_allocate framed, grown]
  rfl

/-- A variable gets the end of a frame that holds it. -/
theorem run_allocate_of_fits {f : Frame} (framed : s.frame = some f)
    (fits : ¬ Overruns f.size d) :
    (allocate d.name.val d.stored d.length).run s =
      (.ok ⟨d.stored, .frame (offsetOf (above f.size d))⟩,
        { s with frame := some { f with size := above f.size d } }) :=
  run_allocate_of_grown framed (growFrame_ok_of_not_overruns fits) _

theorem lays_allocate (d : Declaration) (s : State) :
    Lays (allocate d.name.val d.stored d.length) s [d] := by
  intro f framed
  by_cases overruns : Overruns f.size d
  · obtain ⟨fault, grown⟩ := growFrame_error_of_overruns overruns
    have run : (allocate d.name.val d.stored d.length).run s = (.error fault, s) := by
      rw [run_allocate framed, grown]
      rfl
    exact .inr ⟨fun room => room.1 overruns, fault, s, run⟩
  · exact .inl ⟨⟨overruns, trivial⟩, _, _, run_allocate_of_fits framed overruns, rfl⟩

theorem lays_declaration (d : Declaration) (s : State) : Lays (declaration iface d) s [d] := by
  have found := lays_allocate d (s.afterInit iface d)
  unfold State.afterInit at found
  unfold declaration
  cases init : d.init with
  | none =>
      simp only [init] at found
      exact found.bind_nil fun slot _ => .lift_bind rfl (.pure _)
  | some e =>
      simp only [init] at found
      refine .lift_bind (growing_expr iface e s).frame ?_
      exact found.bind_nil fun slot _ => .lift_bind rfl (.pure _)

mutual

theorem lays_stmt : (x : Stmt) → ∀ (targets : Option Targets) (s : State),
    Lays (stmt iface targets x) s x.locals
  | .declare _ d, targets, s => by
      rw [stmt]
      exact lays_declaration d s
  | .prototype .., _, _ | .define .., _, _ => by
      rw [stmt]
      exact .pure _
  | .assign _ target index value, _, s => by
      rw [stmt]
      exact .lift (growing_assignment target.val index value s).frame
  | .call _ callee args, _, s => by
      rw [stmt]
      exact .lift (growing_callStmt callee.val args s).frame
  | .block _ body, targets, s => by
      rw [stmt]
      exact lays_inScope (lays_stmts body targets _)
  | .ifThen cond _ body, targets, s => by
      rw [stmt]
      refine .lift_bind (growing_freshTarget s).frame ?_
      refine .lift_bind (growing_jumpUnless cond _ _).frame ?_
      exact .bind_nil (lays_inScope (lays_stmts body targets _)) fun _ _ => .pure _
  | .ifElse cond _ body _ elseBody, targets, s => by
      rw [stmt]
      refine .lift_bind (growing_freshTarget s).frame ?_
      refine .lift_bind (growing_jumpUnless cond _ _).frame ?_
      refine .bind (lays_inScope (lays_stmts body targets _)) fun lines => ?_
      refine .lift_bind (growing_freshTarget _).frame ?_
      exact .bind_nil (lays_inScope (lays_stmts elseBody targets _)) fun _ _ => .pure _
  | .whileLoop cond _ body, targets, s => by
      rw [stmt]
      refine .lift_bind (growing_freshTarget s).frame ?_
      refine .lift_bind (growing_freshTarget _).frame ?_
      refine .lift_bind (growing_jumpUnless cond _ _).frame ?_
      exact .bind_nil (lays_inScope (lays_stmts body _ _)) fun _ _ => .pure _
  | .forLoop init cond update _ body, targets, s => by
      rw [stmt]
      refine lays_inScope (.bind (lays_header init targets _) fun initLines => ?_)
      refine .lift_bind (growing_freshTarget _).frame ?_
      refine .lift_bind (growing_freshTarget _).frame ?_
      refine .lift_bind (growing_freshTarget _).frame ?_
      refine .lift_bind (growing_jumpUnless cond _ _).frame ?_
      refine .bind (lays_inScope (lays_stmts body _ _)) fun lines => ?_
      exact .bind_nil (lays_header update targets _) fun _ _ => .pure _
  | .breakLoop _, _, _ | .continueLoop _, _, _ => by
      rw [stmt]
      exact .pure _
  | .returnValue _ value, _, s => by
      rw [stmt]
      exact .lift (growing_returnStmt value s).frame

theorem lays_header : (part : Option Stmt) → ∀ (targets : Option Targets) (s : State),
    Lays (header iface targets part) s (Stmt.localsBy part)
  | none, _, _ => by
      rw [header]
      exact .pure _
  | some x, targets, s => by
      rw [header]
      exact lays_stmt x targets s

/-- Making code for statements lays out all their variables, in the order of the code. -/
theorem lays_stmts : (body : List Stmt) → ∀ (targets : Option Targets) (s : State),
    Lays (stmts iface targets body) s (Stmt.localsIn body)
  | [], _, _ => by
      rw [stmts]
      exact .pure _
  | x :: rest, targets, s => by
      rw [stmts]
      exact .bind (lays_stmt x targets s) fun lines =>
        .bind_nil (lays_stmts rest targets _) fun _ _ => .pure _

end

/-! ### Their places -/

theorem allocated_of_fits {f : Frame} (framed : s.frame = some f) (fits : ¬ Overruns f.size d) :
    allocated iface d s = [d.holding (offsetOf (above f.size d))] := by
  rw [allocated, run_allocate_of_fits ((grows_afterInit s d).frame.trans framed) fits]
  rfl

theorem State.Passes.frame {m : Move} {s' : State} (passes : s.Passes m s') :
    s'.frame = s.frame := by
  unfold State.Passes at passes
  cases scoping : m.scoping <;> rw [scoping] at passes
  · rw [show s' = (openScope s).2 from passes]
    rfl
  · rw [show s' = (closeScope s).2 from passes]
    rfl
  · exact State.Grows.frame passes

theorem locals_between {m : Move} (between : m.isBetween = true) : m.locals = [] := by
  cases m <;> first | rfl | contradiction

/-- The variable of a move gets its place in the frame. -/
theorem placed_step {m : Move} {w w' : Walk} (step : pass iface m w = some w') {f : Frame}
    (framed : w.state.frame = some f) :
    holdingsAt iface m w.state = placements f.size m.locals ∧
      w'.state.frame = some { f with size := m.locals.foldl above f.size } := by
  obtain ⟨⟨x, single⟩, lines, rfl, done⟩ | ⟨h, braces, body, rfl, rfl⟩ | ⟨between, passes⟩ :=
    step_cases step
  · obtain ⟨fits, framed'⟩ := (lays_stmt x w.targets w.state).of_done done framed
    cases x with
    | declare site d =>
        refine ⟨?_, framed'⟩
        rw [holdingsAt, Move.locals, List.flatMap_singleton]
        exact allocated_of_fits framed fits.1
    | prototype | assign | call | breakLoop | continueLoop | returnValue => exact ⟨rfl, framed'⟩
    | _ => contradiction
  · exact ⟨rfl, framed⟩
  · rw [holdingsAt, locals_between between]
    exact ⟨rfl, passes.frame.trans framed⟩

theorem noted_placed {ms : List Move} {w w' : Walk} (ran : (pass iface).run ms w = some w')
    {f : Frame} (framed : w.state.frame = some f) :
    (pass iface).noted (fun m w => holdingsAt iface m w.state) ms w =
      placements f.size (ms.flatMap Move.locals) := by
  induction ms generalizing w f with
  | nil => rfl
  | cons m ms ih =>
      obtain ⟨w₁, step, later⟩ := Option.bind_eq_some_iff.mp ran
      obtain ⟨here, framed₁⟩ := placed_step step framed
      rw [Pass.noted_cons step, here, ih later framed₁, List.flatMap_cons, placements_append]

/-- Where code is made for statements, their variables are placed as they come. -/
theorem holdings_of_done {body : List Stmt} {targets : Option Targets} {lines : List Line}
    {s' : State} (done : Done (stmts iface targets body) s lines s') {f : Frame}
    (framed : s.frame = some f) :
    holdingsIn iface targets body s = placements f.size (Stmt.localsIn body) := by
  have ran := run_of_done (w := ⟨s, [], targets, []⟩) done
  rw [← Stmt.locals_movesIn]
  exact noted_placed ran framed

/-! ### Frames of functions -/

theorem frame_declareParams (params : List Param) (offset : Nat) (s : State) :
    (declareParams offset params s).2.frame = s.frame := by
  induction params generalizing offset s with
  | nil => rfl
  | cons p rest ih =>
      rw [declareParams_cons, ih]
      cases p.name <;> rfl

/-- A function starts with an empty frame. -/
theorem frame_enterRoutine (h : Heading) (s : State) :
    (enterRoutine h s).2.frame = some { result := typeOf h.result.val } :=
  frame_declareParams h.params firstArgument _

/-- A function that code is made for has the frame of its variables. -/
theorem done_routine_lays {h : Heading} {body : List Stmt} {r : Routine} {s' : State}
    (done : Done (routine iface h body) s r s') :
    HasRoom 0 (Stmt.localsIn body) ∧
      holdingsIn iface none body (enterRoutine h s).2 = placements 0 (Stmt.localsIn body) ∧
      ∃ lines filled, Done (stmts iface none body) (enterRoutine h s).2 lines filled ∧
        r.lines = code (prologue (frameSize (Stmt.localsIn body))) ++ lines ++
          code (defaultValue (typeOf h.result.val)) ++ epilogue := by
  obtain ⟨lines, filled, event, made, rfl, -⟩ := done_routine_ends done
  have framed := frame_enterRoutine h s
  obtain ⟨fits, framed'⟩ := (lays_stmts body none _).of_done made framed
  refine ⟨fits, holdings_of_done made framed, lines, filled, made, ?_⟩
  rw [framed']
  rfl

/-- Making code for a function fails exactly if its frame does not hold its variables. -/
theorem routine_fails_iff (h : Heading) (body : List Stmt) (s : State) :
    (∃ fault s', (routine iface h body).run s = (.error fault, s')) ↔
      ¬ HasRoom 0 (Stmt.localsIn body) := by
  rw [run_routine]
  rcases lays_stmts body none _ _ (frame_enterRoutine h s) with
    ⟨fits, lines, filled, made, -⟩ | ⟨full, fault, s', failed⟩
  · refine iff_of_false ?_ (not_not_intro fits)
    rintro ⟨fault, s', failed⟩
    rw [made] at failed
    have := (Prod.mk.inj failed).1
    contradiction
  · rw [failed]
    exact iff_of_true ⟨fault, s', rfl⟩ full

/-! ### Places -/

theorem le_foldl_above (size : Nat) (ds : List Declaration) : size ≤ ds.foldl above size := by
  induction ds generalizing size with
  | nil => exact Nat.le_refl _
  | cons d ds ih =>
      rw [List.foldl_cons]
      calc size ≤ size + d.room := Nat.le_add_right _ _
        _ ≤ above size d := add_room_le_above size d
        _ ≤ ds.foldl above (above size d) := ih (above size d)

/-- The variable lies in the frame, between two distances below the frame pointer. -/
def Between (low high : Nat) (v : Holding) : Prop :=
  ∃ e : Nat, v.slot.place = .frame (-(e : Int)) ∧ low + v.bytes ≤ e ∧ e ≤ high ∧
    alignment v.slot.type ∣ e

theorem between_holding {high : Nat} (small : high < 0x80000000) (most : above size d ≤ high) :
    Between size high (d.holding (offsetOf (above size d))) := by
  refine ⟨above size d, ?_, ?_, most, ?_⟩
  · rw [offsetOf_of_small (Nat.lt_of_le_of_lt most small), Declaration.slot_holding]
  · rw [Declaration.bytes_holding]
    exact add_room_le_above size d
  · rw [Declaration.slot_holding]
    exact alignment_dvd_above size d

/-- Variables are placed behind what the frame has before, and within what it has then. -/
theorem placements_between (size : Nat) (ds : List Declaration)
    (small : ds.foldl above size < 0x80000000) :
    ∀ v ∈ placements size ds, Between size (ds.foldl above size) v := by
  induction ds generalizing size with
  | nil => nofun
  | cons d ds ih =>
      rw [List.foldl_cons] at small ⊢
      intro v mem
      rcases List.mem_cons.mp mem with rfl | mem
      · exact between_holding small (le_foldl_above (above size d) ds)
      · obtain ⟨e, place, low, high, aligned⟩ := ih (above size d) small v mem
        have room := add_room_le_above size d
        exact ⟨e, place, by omega, high, aligned⟩

/-- Variables are placed apart. -/
theorem placements_apart (size : Nat) (ds : List Declaration)
    (small : ds.foldl above size < 0x80000000) :
    (placements size ds).Pairwise fun a b => a.isApart b = true := by
  induction ds generalizing size with
  | nil => exact .nil
  | cons d ds ih =>
      rw [List.foldl_cons] at small
      refine List.pairwise_cons.mpr ⟨fun v mem => ?_, ih (above size d) small⟩
      -- A later variable lies behind the frame that the first one ends.
      obtain ⟨e, place, low, -⟩ := placements_between (above size d) ds small v mem
      have below := offsetOf_of_small (Nat.lt_of_le_of_lt (le_foldl_above (above size d) ds) small)
      simp only [Holding.isApart, Declaration.slot_holding, place, below, decide_eq_true_eq]
      omega

/-- Each variable is placed by the size of the frame up to it. -/
theorem getElem?_placements {front : List Declaration} (short : front ++ [d] <+: ds) :
    (placements 0 ds)[front.length]? = some (d.holding (offsetOf (frameSize (front ++ [d])))) := by
  obtain ⟨rest, rfl⟩ := short
  rw [List.append_assoc, placements_append, frameSize_concat,
    List.getElem?_append_right (Nat.le_of_eq (length_placements 0 front)), length_placements,
    Nat.sub_self]
  rfl

theorem forall₂_placements (size : Nat) (ds : List Declaration) :
    List.Forall₂ (fun d v => ∃ offset, v = d.holding offset) ds (placements size ds) := by
  induction ds generalizing size with
  | nil => exact .nil
  | cons d ds ih => exact .cons ⟨_, rfl⟩ (ih _)

/-- A place is below the frame pointer just if the frame up to it has less than half of the
address space. -/
theorem offsetOf_neg_iff {size : Nat} (positive : 0 < size) (word : size < 0x100000000) :
    offsetOf size < 0 ↔ size < 0x80000000 := by
  unfold offsetOf
  split <;> omega

/-! ### All functions -/

/-- The local variables of a function that code is made for are those of its tree, and the
function makes room for them. If that is less than half of the address space, they have ranges of
their own below the frame pointer, within the room, at multiples of their alignment. -/
theorem frame_disjoint {h : Heading} {body : List Stmt} {r : Routine} {s' : State}
    (done : Done (routine iface h body) s r s') :
    let size := frameSize (Stmt.localsIn body)
    let vars := holdingsIn iface none body (enterRoutine h s).2
    (∃ lines filled, Done (stmts iface none body) (enterRoutine h s).2 lines filled ∧
      r.lines = code (prologue size) ++ lines ++ code (defaultValue (typeOf h.result.val)) ++
        epilogue) ∧
      List.Forall₂ (fun d v => ∃ offset, v = d.holding offset) (Stmt.localsIn body) vars ∧
      (size < 0x80000000 →
        (vars.Pairwise fun a b => a.isApart b = true) ∧
          ∀ v ∈ vars, ∃ offset : Int, v.slot.place = .frame offset ∧ -(size : Int) ≤ offset ∧
            offset + v.bytes ≤ 0 ∧ (alignment v.slot.type : Int) ∣ offset) := by
  obtain ⟨-, held, made⟩ := done_routine_lays done
  dsimp only
  rw [held]
  refine ⟨made, forall₂_placements 0 _, fun small => ⟨placements_apart 0 _ small, ?_⟩⟩
  intro v mem
  obtain ⟨e, place, low, high, aligned⟩ := placements_between 0 _ small v mem
  refine ⟨_, place, ?_, by omega, Int.dvd_neg.mpr (Int.natCast_dvd_natCast.mpr aligned)⟩
  exact Int.neg_le_neg (Int.ofNat_le.mpr high)

/-- The heading `int f(int a)`. -/
def oneArgument : Heading := ⟨⟨"int", {}⟩, ⟨"f", {}⟩, [⟨⟨"int", {}⟩, some ⟨"a", {}⟩⟩]⟩

/-- Variables of all sizes: in blocks side by side, and in the header of a loop. -/
def scatteredLocals : List Stmt :=
  [.declare {} ⟨⟨"char", {}⟩, ⟨"c", {}⟩, some 3, none⟩,
    .declare {} ⟨⟨"double", {}⟩, ⟨"d", {}⟩, none, some (.literal {} (.number "0.5"))⟩,
    .block {}
      [.declare {} ⟨⟨"int", {}⟩, ⟨"i", {}⟩, none, some (.var {} "a")⟩,
        .declare {} ⟨⟨"double", {}⟩, ⟨"d", {}⟩, some 2, none⟩],
    .block {} [.declare {} ⟨⟨"bool", {}⟩, ⟨"b", {}⟩, some 0, none⟩],
    .forLoop (some (.declare {} ⟨⟨"int", {}⟩, ⟨"k", {}⟩, none, some (.var {} "a")⟩))
      (.binary {} .less (.var {} "k") (.literal {} (.number "3"))) none {}
      [.declare {} ⟨⟨"char", {}⟩, ⟨"t", {}⟩, none, none⟩]]

theorem done_of_isSome {α : Type} {action : EmitStmt α} {s : State}
    (ends : (action.run s).1.toOption.isSome = true) : ∃ a s', Done action s a s' := by
  rcases run : action.run s with ⟨_ | a, s'⟩
  · rw [run] at ends
    contradiction
  · exact ⟨a, s', run⟩

theorem scatteredLocals_disjoint :
    ∃ r s', Done (routine {} oneArgument scatteredLocals) {} r s' ∧
      code (prologue 52) <+: r.lines ∧
      let vars := holdingsIn {} none scatteredLocals (enterRoutine oneArgument {}).2
      vars.map (·.slot.place) = [-4, -16, -20, -40, -44, -48, -52].map Place.frame ∧
        vars.Pairwise fun a b => a.isApart b = true := by
  have makes : ((routine {} oneArgument scatteredLocals).run {}).1.toOption.isSome = true := by
    decide +kernel
  obtain ⟨r, s', done⟩ := done_of_isSome makes
  obtain ⟨⟨lines, filled, -, made⟩, -, below⟩ := frame_disjoint done
  have size : frameSize (Stmt.localsIn scatteredLocals) = 52 := by decide +kernel
  rw [size] at made below
  refine ⟨r, s', done, ?_, by decide +kernel, (below (by decide)).1⟩
  rw [made, List.append_assoc, List.append_assoc]
  exact List.prefix_append _ _

/-- Making code for a function fails exactly if the frame of its first variables leaves the words
when the next one is added, or has `0x80000000` bytes then. If it does not fail, a variable is
below the frame pointer exactly if the frame up to it has less than that. -/
theorem frame_fault_iff (iface : Interface) (h : Heading) (body : List Stmt) (s : State) :
    ((∃ fault s', (routine iface h body).run s = (.error fault, s')) ↔
      ∃ front d, front ++ [d] <+: Stmt.localsIn body ∧
        (0x100000000 ≤ frameSize front + d.room + alignment d.stored ∨
          frameSize (front ++ [d]) = 0x80000000)) ∧
    ∀ r s', Done (routine iface h body) s r s' →
      ∀ front d, front ++ [d] <+: Stmt.localsIn body →
        (holdingsIn iface none body (enterRoutine h s).2)[front.length]? =
            some (d.holding (offsetOf (frameSize (front ++ [d])))) ∧
          (offsetOf (frameSize (front ++ [d])) < 0 ↔ frameSize (front ++ [d]) < 0x80000000) := by
  constructor
  · simp only [frameSize_concat]
    exact (routine_fails_iff h body s).trans (not_hasRoom_iff 0 _)
  · intro r s' done front d short
    obtain ⟨fits, held, -⟩ := done_routine_lays done
    have room : ¬ Overruns (frameSize front) d := fun overruns =>
      (not_hasRoom_iff 0 _).mpr ⟨front, d, short, overruns⟩ fits
    rw [held, frameSize_concat]
    refine ⟨?_, offsetOf_neg_iff ?_ (above_lt room)⟩
    · rw [← frameSize_concat]
      exact getElem?_placements short
    · calc 0 < d.room := room_pos d
        _ ≤ frameSize front + d.room := Nat.le_add_left _ _
        _ ≤ above (frameSize front) d := add_room_le_above _ d

/-- A body with one array. -/
def charArray (length : UInt32) : List Stmt :=
  [.declare {} ⟨⟨"char", {}⟩, ⟨"big", {}⟩, some length, none⟩]

theorem charArray_fault_iff :
    (∃ fault s', (routine {} oneArgument (charArray 0x80000000)).run {} = (.error fault, s')) ∧
      ∃ r s', Done (routine {} oneArgument (charArray 0xfffffff8)) {} r s' ∧
        ∃ v ∈ holdingsIn {} none (charArray 0xfffffff8) (enterRoutine oneArgument {}).2,
          v.slot.place = .frame 8 := by
  constructor
  · refine (frame_fault_iff {} oneArgument (charArray 0x80000000) {}).1.mpr ?_
    exact ⟨[], _, List.prefix_rfl, .inr (by decide +kernel)⟩
  · have makes : ((routine {} oneArgument (charArray 0xfffffff8)).run {}).1.toOption.isSome =
        true := by decide +kernel
    obtain ⟨r, s', done⟩ := done_of_isSome makes
    have placed := ((frame_fault_iff {} oneArgument (charArray 0xfffffff8) {}).2 r s' done []
      _ List.prefix_rfl).1
    exact ⟨r, s', done, _, List.mem_of_getElem? placed, by decide +kernel⟩

end Assembly

/-- Code for a program is refused exactly if the frame of one of its functions has half of the
address space or more behind some declaration. -/
def Program.RefusesTallFrames (p : Program) : Prop :=
  (∃ fault, p.assemble.1 = .error fault) ↔
    ∃ f ∈ definitions p.stmts, ∃ front, front <+: Stmt.localsIn f.2 ∧ 0x80000000 ≤ frameSize front

/-- A frame of more than half of the address space may be let through, with a local variable
that is not below the frame pointer. -/
theorem tallFrame_accepted : ¬ tallFrame.RefusesTallFrames ∧
    ∃ m ∈ tallFrame.moments, ∃ v ∈ m.ledger.flatten, v.ReachesUp := by
  constructor
  · intro refuses
    have tall : ∃ f ∈ definitions tallFrame.stmts, ∃ front,
        front <+: Stmt.localsIn f.2 ∧ 0x80000000 ≤ frameSize front :=
      ⟨_, List.mem_cons_self, _, List.prefix_rfl, by decide +kernel⟩
    obtain ⟨fault, failed⟩ := refuses.mpr tall
    have made : tallFrame.assemble.1.toOption.isSome = true := by decide +kernel
    rw [failed] at made
    contradiction
  · have found : tallFrame.moments.any (fun m => m.ledger.flatten.any fun v =>
        !v.isParam && v.slot.place == .frame 8) = true := by decide +kernel
    obtain ⟨m, mem, found⟩ := List.any_eq_true.mp found
    obtain ⟨v, alive, found⟩ := List.any_eq_true.mp found
    obtain ⟨isLocal, place⟩ := Bool.and_eq_true_iff.mp found
    exact ⟨m, mem, v, alive, by simpa using isLocal, 8, beq_iff_eq.mp place, by decide⟩

end BraceLang
