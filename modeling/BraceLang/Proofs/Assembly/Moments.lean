import BraceLang.Check.Stmt
import BraceLang.Proofs.Assembly.Layout
import BraceLang.Proofs.Assembly.Walk

/-!
Storage of the variables that are alive at the same time, throughout a program.

A moment is a state of making code with its ledger. The ledger is kept on the way through the code
of a unit, so there is a moment wherever the pass of making code comes to.

**Main result.** `storage_apart`: at every moment of every program the variables of the open
scopes are kept apart, with two exceptions. At top level a declaration takes over the reservation
of a variable with its name, type and length, also while that variable is only hidden; inside of
functions this does not happen. And in a frame of more than half of the address space a local
variable may reach above the frame pointer, where the parameters are.
-/

namespace BraceLang.Assembly

variable {iface : Interface} {s s' : State} {targets : Option Targets} {l : Ledger}
  {inRoutine : Bool}

/-- A state of making code, with the variables of the open scopes. -/
structure Moment where
  state : State
  ledger : Ledger

section Moments

variable (iface : Interface)

/-- The ledger after a statement; only declarations add to the scope they stand in. -/
def Ledger.after (x : Stmt) (s : State) (l : Ledger) : Ledger :=
  match x with
  | .declare _ d =>
      match ((allocate d.name.val (variableType d.type.val) d.length).run
          (s.afterInit iface d)).1 with
      | .ok slot => l.add ⟨d.name.val, slot, valueCount d.length, false⟩
      | .error _ => l
  | _ => l

/-- The ledger behind a move. -/
def Ledger.behind (m : Move) (s : State) (l : Ledger) : Ledger :=
  match m with
  | .single x => l.after iface x s
  | _ => m.scopes [] l

/-- The pass of making code, with the ledger kept. -/
def ledgers : Pass (Walk × Ledger) :=
  (pass iface).along fun m w l => l.behind iface m w.state

/-- The moments of the statements of a unit. -/
def momentsIn (body : List Stmt) (s : State) (l : Ledger) : List Moment :=
  ((ledgers iface).states (Stmt.movesIn false body) (.start s, l)).map fun t =>
    ⟨t.1.state, t.2⟩

/-- The moments of the functions that are defined by some statements. -/
def momentsOfRoutines : List Stmt → State → Ledger → List Moment
  | [], _, _ => []
  | .define h _ body :: rest, s, l =>
      momentsIn iface body (enterRoutine h s).2 (l.enter.addParams firstArgument h.params) ++
        onDone (routine iface h body) s fun s' => momentsOfRoutines rest s' l
  | _ :: rest, s, l => momentsOfRoutines rest s l

end Moments

/-! ### Declarations -/

theorem Sound.declaration {site : Site} {d : Declaration} {lines : List Line}
    (sound : Sound inRoutine s l) (done : Done (Assembly.declaration iface d) s lines s') :
    Sound inRoutine s' (l.after iface (.declare site d) s) := by
  obtain ⟨slot, middle, allocated, rfl⟩ := done_declaration_allocates done
  have found : ((Assembly.allocate d.name.val (variableType d.type.val) d.length).run
      (s.afterInit iface d)).1 = .ok slot := congrArg Prod.fst allocated
  rw [Ledger.after, found]
  exact (sound.grow (grows_afterInit s d)).allocate allocated

/-! ### Moves -/

theorem after_cons (iface : Interface) (x : Stmt) (s : State) (scope : List Holding)
    (rest : Ledger) : ∃ scope', Ledger.after iface x s (scope :: rest) = scope' :: rest := by
  unfold Ledger.after
  split
  · split
    · exact ⟨_, rfl⟩
    · exact ⟨scope, rfl⟩
  · exact ⟨scope, rfl⟩

/-- A statement without other statements in it keeps the ledger sound. -/
theorem Sound.after {lines : List Line} (x : { x : Stmt // x.isSingle = true })
    (sound : Sound inRoutine s l) (done : Done (stmt iface targets x) s lines s') :
    Sound inRoutine s' (l.after iface x s) := by
  cases declared : x.val with
  | declare site d =>
      rw [declared, stmt] at done
      exact sound.declaration done
  | _ =>
      rcases grows_single x done with ⟨site, d, same⟩ | grows
      · rw [declared] at same
        contradiction
      · exact sound.grow grows

theorem behind_between {m : Move} (between : m.isBetween = true) :
    l.behind iface m s = m.scopes [] l := by
  cases m <;> first | rfl | contradiction

/-- What a move does keeps the ledger sound. -/
theorem Sound.step {m : Move} {t t' : Walk × Ledger} (step : ledgers iface m t = some t')
    (sound : Sound inRoutine t.1.state t.2) : Sound inRoutine t'.1.state t'.2 := by
  obtain ⟨step, kept⟩ := Pass.along_eq_some.mp step
  rw [kept]
  obtain ⟨x, lines, rfl, done⟩ | ⟨h, braces, body, rfl, same⟩ | ⟨between, passes⟩ :=
    step_cases step
  · exact sound.after x done
  · rw [same]
    exact sound
  · rw [behind_between between]
    unfold State.Passes at passes
    unfold Move.scopes
    cases scoping : m.scoping <;> rw [scoping] at passes
    · exact passes ▸ sound.enter
    · exact passes ▸ sound.leave
    · exact sound.grow passes

theorem sound_momentsIn {body : List Stmt} (sound : Sound inRoutine s l) :
    ∀ m ∈ momentsIn iface body s l, Sound inRoutine m.state m.ledger := by
  refine List.forall_mem_map.mpr (Pass.states_keep ?_ ?_)
  · exact fun m t t' step sound => Sound.step step sound
  · exact sound

theorem Sound.run {ms : List Move} {t t' : Walk × Ledger}
    (ran : (ledgers iface).run ms t = some t') (sound : Sound inRoutine t.1.state t.2) :
    Sound inRoutine t'.1.state t'.2 :=
  Pass.run_keeps (P := fun t => Sound inRoutine t.1.state t.2)
    (fun _ _ _ step sound => Sound.step step sound) sound ran

/-- A move leaves the scopes around as they are. -/
theorem drop_behind {m : Move} {n n' : Nat} (counted : Pass.depth m n = some n') (s : State)
    {l base : Ledger} {scope : List Holding} (same : l.drop n = scope :: base) :
    ∃ scope', (l.behind iface m s).drop n' = scope' :: base := by
  have moved := Pass.drop_scopes counted [] 0 l
  rw [Nat.zero_add, Nat.zero_add] at moved
  cases m with
  | single x =>
      obtain rfl : n = n' := Option.some_inj.mp counted
      cases l with
      | nil => simp at same
      | cons inner outer =>
          obtain ⟨inner', added⟩ := after_cons iface x s inner outer
          rw [Ledger.behind, added]
          cases n with
          | zero => exact ⟨inner', congrArg (inner' :: ·) (List.cons.inj same).2⟩
          | succ n => exact ⟨scope, same⟩
  | _ => exact ⟨scope, moved.trans same⟩

/-- Statements leave the scopes around as they are. -/
theorem ledger_cons {body : List Stmt} {w : Walk} {t : Walk × Ledger} {scope : List Holding}
    {base : Ledger}
    (ran : (ledgers iface).run (Stmt.movesIn false body) (w, scope :: base) = some t) :
    ∃ scope', t.2 = scope' :: base := by
  refine Pass.run_keeps_deep (P := fun n u => ∃ scope, u.2.drop n = scope :: base) ?_ ⟨scope, rfl⟩
    (Pass.depth_movesIn body 0) ran
  rintro m - n n' u u' counted step ⟨scope, same⟩
  rw [(Pass.along_eq_some.mp step).2]
  exact drop_behind counted u.1.state same

/-! ### Functions -/

/-- A function leaves the variables of the top level as they were. -/
theorem Sound.routine {scope : List Holding} {h : Heading} {body : List Stmt} {r : Routine}
    (sound : Sound false s [scope]) (done : Done (Assembly.routine iface h body) s r s') :
    Sound false s' [scope] := by
  have unframed : s.frame = none := Option.not_isSome_iff_eq_none.mp (by simp [sound.frame])
  obtain ⟨lines, filled, event, made, -, rfl⟩ := done_routine_ends done
  obtain ⟨scope₁, params⟩ := addParams_cons firstArgument h.params [] [scope]
  have entered : Sound true (Assembly.enterRoutine h s).2 [scope₁, scope] :=
    params ▸ sound.enterRoutine h
  obtain ⟨l, ran⟩ := Pass.run_along (run_of_done (w := .start _) made) [scope₁, scope]
  obtain ⟨scope₂, rfl : l = [scope₂, scope]⟩ := ledger_cons ran
  have full : Sound true filled [scope₂, scope] := entered.run ran
  have left_ := full.leave
  refine ⟨left_.faithful, sound.names, ?_, sound.coexist, nofun, full.oneEach, rfl⟩
  intro a mem
  exact (left_.kept a mem).of_isGlobal ((sound.kept a mem).isGlobal unframed) rfl

theorem moments_routines {scope : List Holding} (body : List Stmt) {s : State}
    (sound : Sound false s [scope]) {m : Moment}
    (mem : m ∈ momentsOfRoutines iface body s [scope]) : Sound true m.state m.ledger := by
  induction body generalizing s with
  | nil => contradiction
  | cons x rest ih =>
      cases x with
      | define h braces body =>
          rw [momentsOfRoutines] at mem
          rcases List.mem_append.mp mem with mem | mem
          · exact sound_momentsIn (sound.enterRoutine h) m mem
          · obtain ⟨_, s', made, mem⟩ := mem_onDone mem
            exact ih (sound.routine made) mem
      | _ =>
          rw [momentsOfRoutines] at mem
          · exact ih sound mem
          · rintro _ _ _ ⟨⟩

end BraceLang.Assembly

namespace BraceLang

open Assembly

/-- The moments of a whole program: of its top level, and of its functions after that. -/
def Program.moments (p : Program) : List Moment :=
  let iface := Interface.ofProgram p
  let s := (openScope {}).2
  momentsIn iface p.stmts s [[]] ++
    ((ledgers iface).run (Stmt.movesIn false p.stmts) (.start s, [[]])).elim [] fun t =>
      momentsOfRoutines iface p.stmts (finish iface t.1.state).2 t.2

theorem sound_start : Sound false (openScope {}).2 [[]] := by
  refine ⟨rfl, ?_, nofun, .nil, nofun, nofun, rfl⟩
  intro scope mem
  obtain rfl := List.mem_singleton.mp mem
  exact .nil

theorem sound_moments (p : Program) :
    ∀ m ∈ p.moments, Sound m.state.frame.isSome m.state m.ledger := by
  intro m mem
  suffices sound : ∃ inRoutine, Sound inRoutine m.state m.ledger by
    obtain ⟨inRoutine, sound⟩ := sound
    rwa [sound.frame]
  rcases List.mem_append.mp mem with mem | mem
  · exact ⟨false, sound_momentsIn sound_start m mem⟩
  · cases ran : (ledgers (Interface.ofProgram p)).run (Stmt.movesIn false p.stmts)
      (.start (openScope {}).2, [[]]) with
    | none =>
        rw [ran] at mem
        contradiction
    | some t =>
        rw [ran] at mem
        have ends : Sound false t.1.state t.2 := Sound.run ran sound_start
        obtain ⟨scope, bottom⟩ := ledger_cons ran
        rw [bottom] at ends
        rw [Option.elim_some, bottom] at mem
        exact ⟨true, moments_routines p.stmts (ends.grow (growing_finish t.1.state)) mem⟩

/-- At every moment, the ledger has the variables of the table, and their storage is there. Any
two of them are apart, except for a redeclaration, which has the storage of the variable that it
hides, and for a parameter and a local variable that is not below the frame pointer; and no
function redeclares. -/
theorem storage_apart (p : Program) : ∀ m ∈ p.moments,
    m.state.env.stack.scopes.map Assoc.entries = m.ledger.map (·.map Holding.entry) ∧
      (∀ h ∈ m.ledger.flatten, h.Kept m.state) ∧
      (m.ledger.flatten.Pairwise fun a b => a.isApart b = true ∨ a.Redeclares b ∨ a.Collides b) ∧
      (∀ a ∈ m.ledger.flatten, ∀ b ∈ m.ledger.flatten, a.Redeclares b → a.isApart b = false) ∧
      (m.state.frame.isSome = true → m.ledger.flatten.Pairwise fun a b => ¬ a.Redeclares b) := by
  intro m mem
  have sound := sound_moments p m mem
  refine ⟨sound.faithful, sound.kept, sound.coexist, ?_, sound.single⟩
  intro a alive b alive'
  exact isApart_of_redeclares sound.oneEach (sound.kept a alive) (sound.kept b alive')

/-- A top-level variable, and a function with variables of all sizes that hide one another. -/
def hidingLocals : Program where
  stmts :=
    [.declare {} ⟨⟨"double", {}⟩, ⟨"x", {}⟩, none, some (.literal {} (.number "0.5"))⟩,
      .define ⟨⟨"int", {}⟩, ⟨"f", {}⟩,
          [⟨⟨"char", {}⟩, some ⟨"c", {}⟩⟩, ⟨⟨"double", {}⟩, some ⟨"d", {}⟩⟩]⟩ {}
        [.declare {} ⟨⟨"double", {}⟩, ⟨"x", {}⟩, none, some (.var {} "d")⟩,
          .block {}
            [.declare {} ⟨⟨"char", {}⟩, ⟨"x", {}⟩, some 3, none⟩,
              .declare {} ⟨⟨"double", {}⟩, ⟨"d", {}⟩, some 2, none⟩],
          .returnValue {} (some (.literal {} (.number "0")))]]

theorem hidingLocals_apart :
    ∃ m ∈ hidingLocals.moments,
      (m.ledger.map (·.map (·.name)) = [["x", "d"], ["c", "d", "x"], ["x"]] ∧
        m.ledger.flatten.map (·.slot.place) =
          [.frame (-12), .frame (-32), .frame 8, .frame 12, .frame (-8), .global "v_x"]) ∧
      (∀ h ∈ m.ledger.flatten, h.Kept m.state) ∧
      m.ledger.flatten.Pairwise fun a b => ¬ a.Redeclares b := by
  have found : hidingLocals.moments.any (fun m =>
      m.ledger.map (·.map (·.name)) = [["x", "d"], ["c", "d", "x"], ["x"]] ∧
        m.ledger.flatten.map (·.slot.place) =
          [.frame (-12), .frame (-32), .frame 8, .frame 12, .frame (-8), .global "v_x"] ∧
        m.state.frame.isSome = true) = true := by decide +kernel
  obtain ⟨m, mem, holds⟩ := List.any_eq_true.mp found
  obtain ⟨names, places, framed⟩ := of_decide_eq_true holds
  obtain ⟨-, kept, -, -, single⟩ := storage_apart hidingLocals m mem
  exact ⟨m, mem, ⟨names, places⟩, kept, single framed⟩

/-- A top-level variable that is hidden by one of its name and type. -/
def hiddenTwin : Program where
  stmts :=
    [.declare {} ⟨⟨"int", {}⟩, ⟨"x", {}⟩, none, some (.literal {} (.number "1"))⟩,
      .block {} [.declare {} ⟨⟨"int", {}⟩, ⟨"x", {}⟩, none, some (.literal {} (.number "2"))⟩]]

/-- A function with a local variable of almost the whole address space. -/
def tallFrame : Program where
  stmts :=
    [.define ⟨⟨"int", {}⟩, ⟨"f", {}⟩, [⟨⟨"int", {}⟩, some ⟨"a", {}⟩⟩]⟩ {}
        [.declare {} ⟨⟨"char", {}⟩, ⟨"big", {}⟩, some 4294967288, none⟩,
          .returnValue {} (some (.var {} "a"))]]

/-- The program is accepted, code is made for it, and at some moment two variables that are alive
have storage in common. -/
def Program.Overlaps (p : Program) : Prop :=
  p.check.diagnostics.hasErrors = false ∧ p.assemble.1.toOption.isSome = true ∧
    ∃ m ∈ p.moments, ¬ m.ledger.flatten.Pairwise fun a b => a.isApart b = true

/-- Variables that are alive at the same time may share their storage. -/
theorem storage_shared : hiddenTwin.Overlaps ∧ tallFrame.Overlaps := by
  unfold Program.Overlaps
  decide +kernel

end BraceLang
