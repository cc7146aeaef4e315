import Mathlib.Logic.Relation
import BraceLang.Proofs.Assembly.Paths

/-!
Jumps and structured control flow. Conditions, declarations, assignments, calls and returns are
atomic actions, and the outcomes of the conditions are given beforehand as an infinite sequence.

`execAll` is the structured meaning of statements: the actions that they do and how they end. A
run has a bound on the rounds of each loop. `Follows` is the meaning of the outline of a unit:
labels are passed, `jmp` goes to its label, and `je` goes to its label if the last condition did
not hold.

**Main results.** `Outline.simulates`: from where the code of statements begins, following the
jumps leads through the actions of their structured run and to the place that fits its end.
`unfinished_length`: a run that was cut off has as many actions as rounds were allowed.
`jumps_structured`: the two meanings of every function of a program have the same actions.
-/

namespace BraceLang.Assembly

/-! ### The structured meaning -/

/-- The outcomes of the conditions to come. -/
abbrev Outcomes := Nat → Bool

def Outcomes.tail (ω : Outcomes) : Outcomes := fun n => ω (n + 1)

/-- How statements end. -/
inductive Flow where
  | next
  | broke
  | continued
  | returned
  /-- A loop was cut off. -/
  | unfinished
deriving DecidableEq, Repr

/-- What a run of statements does. -/
structure Trace where
  actions : List Action
  /-- The outcomes that it leaves to what follows. -/
  rest : Outcomes
  flow : Flow

namespace Trace

def pre (actions : List Action) (t : Trace) : Trace := { t with actions := actions ++ t.actions }

/-- What follows is run only if control gets there. -/
def andThen (t : Trace) (following : Outcomes → Trace) : Trace :=
  match t.flow with
  | .next => (following t.rest).pre t.actions
  | .broke | .continued | .returned | .unfinished => t

/-- A round of a loop: `continue` goes on with the next one, `break` with what follows. -/
def round (t : Trace) (again : Outcomes → Trace) : Trace :=
  match t.flow with
  | .next | .continued => (again t.rest).pre t.actions
  | .broke => { t with flow := .next }
  | .returned | .unfinished => t

theorem andThen_next {t : Trace} (flow : t.flow = .next) (following : Outcomes → Trace) :
    t.andThen following = (following t.rest).pre t.actions := by
  rw [andThen, flow]

theorem andThen_of_ne {t : Trace} (flow : t.flow ≠ .next) (following : Outcomes → Trace) :
    t.andThen following = t := by
  unfold andThen
  split
  · contradiction
  all_goals rfl

end Trace

def skip (ω : Outcomes) : Trace := ⟨[], ω, .next⟩

def perform (action : Action) (ω : Outcomes) : Trace := ⟨[action], ω, .next⟩

def branch (cond : Expr) (yes no : Outcomes → Trace) (ω : Outcomes) : Trace :=
  (if ω 0 then yes ω.tail else no ω.tail).pre [.test cond]

/-- A loop of at most so many rounds. -/
def rounds (cond : Expr) (body update : Outcomes → Trace) : Nat → Outcomes → Trace
  | 0, ω => ⟨[], ω, .unfinished⟩
  | n + 1, ω => branch cond
      (fun ω => (body ω).round fun ω => (update ω).andThen (rounds cond body update n)) skip ω

section

variable (n : Nat)

mutual

/-- The structured meaning of a statement, with at most `n` rounds for each loop. -/
def exec : Stmt → Outcomes → Trace
  | .declare _ decl => perform (.declare decl)
  | .prototype .. | .define .. => skip
  | .assign _ target index value => perform (.assign target index value)
  | .call _ callee args => perform (.call callee args)
  | .block _ body => execAll body
  | .ifThen cond _ body => branch cond (execAll body) skip
  | .ifElse cond _ body _ elseBody => branch cond (execAll body) (execAll elseBody)
  | .whileLoop cond _ body => rounds cond (execAll body) skip n
  | .forLoop init cond update _ body => fun ω =>
      (execHeader init ω).andThen (rounds cond (execAll body) (execHeader update) n)
  | .breakLoop _ => fun ω => ⟨[], ω, .broke⟩
  | .continueLoop _ => fun ω => ⟨[], ω, .continued⟩
  | .returnValue _ value => fun ω => ⟨[.finish value], ω, .returned⟩

def execHeader : Option Stmt → Outcomes → Trace
  | none => skip
  | some x => exec x

def execAll : List Stmt → Outcomes → Trace
  | [] => skip
  | x :: rest => fun ω => (exec x ω).andThen (execAll rest)

end

end

mutual

/-- `break` and `continue` are inside of loops, and the parts of `for` headers are declarations,
assignments and calls. -/
def isStructured (inLoop : Bool) : Stmt → Bool
  | .block _ body | .ifThen _ _ body => allStructured inLoop body
  | .ifElse _ _ body _ elseBody => allStructured inLoop body && allStructured inLoop elseBody
  | .whileLoop _ _ body => allStructured true body
  | .forLoop init _ update _ body =>
      init.all (fun x => (Stmt.action? x).isSome) &&
        update.all (fun x => (Stmt.action? x).isSome) && allStructured true body
  | .breakLoop _ | .continueLoop _ => inLoop
  | .declare .. | .prototype .. | .define .. | .assign .. | .call .. | .returnValue .. => true

def allStructured (inLoop : Bool) : List Stmt → Bool
  | [] => true
  | x :: rest => isStructured inLoop x && allStructured inLoop rest

end

/-- The structured meaning of what an outline is an outline of. -/
def Part.exec (n : Nat) : Part → Outcomes → Trace
  | one x => Assembly.exec n x
  | all body => execAll n body

def Part.isStructured (inLoop : Bool) : Part → Bool
  | one x => Assembly.isStructured inLoop x
  | all body => allStructured inLoop body

/-! ### Following jumps -/

/-- The piece is the label of a target. -/
def Piece.isLabel (t : Target) : Piece → Bool
  | line (.label t') => t' == t
  | begins _ | act .. | line (.instr _) => false

/-- Where control is, and what has been done so far. -/
structure Cursor where
  place : Nat
  /-- The outcome of the last condition. -/
  holds : Bool
  rest : Outcomes
  actions : List Action

namespace Cursor

def start (ω : Outcomes) : Cursor := ⟨0, false, ω, []⟩

def next (c : Cursor) : Cursor := { c with place := c.place + 1 }

def jump (c : Cursor) (u : List Piece) (t : Target) : Option Cursor :=
  (u.findIdx? (Piece.isLabel t)).map fun i => { c with place := i }

/-- Goes on by one piece, up to the end of the unit. -/
def follow (u : List Piece) (c : Cursor) : Option Cursor :=
  match u[c.place]? with
  | none | some (.line (.label .exit)) => none
  | some (.act (.test cond) _) =>
      some ⟨c.place + 1, c.rest 0, c.rest.tail, c.actions ++ [.test cond]⟩
  | some (.act action _) => some { c.next with actions := c.actions ++ [action] }
  | some (.line (.instr (.jmp t))) => c.jump u t
  | some (.line (.instr (.je t))) => if c.holds then some c.next else c.jump u t
  | some (.begins _) | some (.line _) => some c.next

end Cursor

/-- The second cursor is reached from the first one. -/
abbrev Follows (u : List Piece) : Cursor → Cursor → Prop :=
  Relation.ReflTransGen fun c c' => c.follow u = some c'

/-- The label of the target is at the place. -/
def LabelAt (u : List Piece) (i : Nat) (t : Target) : Prop := u[i]? = some (.line (.label t))

/-- No label is there twice. -/
def Once (u : List Piece) : Prop := ∀ t i j, LabelAt u i t → LabelAt u j t → i = j

variable {u : List Piece} {c c' : Cursor}

theorem isLabel_iff {t : Target} {piece : Piece} :
    piece.isLabel t = true ↔ piece = .line (.label t) := by
  constructor
  · intro isLabel
    rcases piece with _ | _ | (t' | _) <;> first | contradiction | skip
    exact congrArg (Piece.line ∘ Line.label) (beq_iff_eq.mp isLabel)
  · rintro rfl
    exact beq_self_eq_true t

/-- A jump goes to the place of its label. -/
theorem jump_eq {t : Target} {i : Nat} (once : Once u) (there : LabelAt u i t) (c : Cursor) :
    c.jump u t = some { c with place := i } := by
  have found : u.findIdx? (Piece.isLabel t) = some i := by
    cases found : u.findIdx? (Piece.isLabel t) with
    | none =>
        have missing := List.findIdx?_eq_none_iff.mp found _ (List.mem_of_getElem? there)
        rw [isLabel_iff.mpr rfl] at missing
        contradiction
    | some j =>
        obtain ⟨inside, isLabel, -⟩ := List.findIdx?_eq_some_iff_getElem.mp found
        have here : LabelAt u j t := by
          rw [LabelAt, List.getElem?_eq_getElem inside, isLabel_iff.mp isLabel]
        rw [once t j i here there]
  rw [Cursor.jump, found]
  rfl

/-- The pieces stand in the unit from the place on. -/
def Laid (u : List Piece) (a : Nat) (pieces : List Piece) : Prop := pieces <+: u.drop a

theorem Laid.append {a : Nat} {first second : List Piece} (laid : Laid u a (first ++ second)) :
    Laid u a first ∧ Laid u (a + first.length) second := by
  obtain ⟨rest, is⟩ := laid
  constructor
  · exact ⟨second ++ rest, by rw [← is, List.append_assoc]⟩
  · refine ⟨rest, ?_⟩
    rw [← List.drop_drop, ← is, List.append_assoc, List.drop_left]

theorem Laid.cons {a : Nat} {piece : Piece} {rest : List Piece} (laid : Laid u a (piece :: rest)) :
    u[a]? = some piece ∧ Laid u (a + 1) rest := by
  obtain ⟨more, is⟩ := laid
  constructor
  · simpa [List.head?_drop] using (congrArg List.head? is).symm
  · refine ⟨more, ?_⟩
    rw [← List.drop_drop, ← is]
    rfl

/-! ### Simulation -/

/-- The cursor is where a run of statements whose code ends before `stop` gets control. -/
def Arrives (u : List Piece) (targets : Option Targets) (stop : Nat) (done : List Action)
    (t : Trace) (c : Cursor) : Prop :=
  c.actions = done ++ t.actions ∧ c.rest = t.rest ∧ match t.flow with
    | .next => c.place = stop
    | .broke => ∃ loop ∈ targets, LabelAt u c.place loop.stop
    | .continued => ∃ loop ∈ targets, LabelAt u c.place loop.next
    | .returned => LabelAt u c.place .exit
    | .unfinished => True

/-- Following the jumps from `a` leads through a run. -/
def Runs (u : List Piece) (targets : Option Targets) (a stop : Nat) (run : Outcomes → Trace) :
    Prop :=
  ∀ holds ω done, ∃ c, Follows u ⟨a, holds, ω, done⟩ c ∧ Arrives u targets stop done (run ω) c

variable {targets : Option Targets} {a b m stop : Nat} {run run' : Outcomes → Trace}

theorem runs_skip : Runs u targets a a skip := fun holds ω done =>
  ⟨⟨a, holds, ω, done⟩, .refl, (List.append_nil done).symm, rfl, rfl⟩

/-- Where a run ends that does not get to the end of the code does not depend on it. -/
theorem Arrives.elsewhere {done : List Action} {t : Trace} (arrives : Arrives u targets b done t c)
    (flow : t.flow ≠ .next) (stop : Nat) : Arrives u targets stop done t c := by
  obtain ⟨actions, rest, place⟩ := arrives
  refine ⟨actions, rest, ?_⟩
  split at place
  · contradiction
  all_goals exact place

/-- From a cursor on, a run adds to what has been done so far. -/
theorem Runs.from {start : Cursor} {done actions : List Action} {ω : Outcomes}
    (runs : Runs u targets a stop run) (follows : Follows u start c) (place : c.place = a)
    (rest : c.rest = ω) (sofar : c.actions = done ++ actions) :
    ∃ c', Follows u start c' ∧ Arrives u targets stop done ((run ω).pre actions) c' := by
  obtain rfl := place
  obtain rfl := rest
  obtain ⟨c', follows', actions', rest', place'⟩ := runs c.holds c.rest c.actions
  refine ⟨c', follows.trans follows', ?_, rest', place'⟩
  rw [actions', sofar, List.append_assoc]
  rfl

theorem Runs.andThen (runs : Runs u targets a b run) (runs' : Runs u targets b stop run') :
    Runs u targets a stop fun ω => (run ω).andThen run' := by
  intro holds ω done
  obtain ⟨c, follows, arrives⟩ := runs holds ω done
  dsimp only
  by_cases flow : (run ω).flow = .next
  · obtain ⟨actions, rest, place⟩ := arrives
    rw [flow] at place
    rw [Trace.andThen_next flow]
    exact runs'.from follows place rest actions
  · rw [Trace.andThen_of_ne flow]
    exact ⟨c, follows, arrives.elsewhere flow stop⟩

theorem andThen_skip (t : Trace) : t.andThen skip = t := by
  by_cases flow : t.flow = .next
  · rw [Trace.andThen_next flow]
    obtain ⟨actions, rest, _⟩ := t
    obtain rfl := flow
    exact congrArg (Trace.mk · rest .next) (List.append_nil actions)
  · exact Trace.andThen_of_ne flow skip

theorem Runs.to (runs : Runs u targets a b run) (same : b = stop) : Runs u targets a stop run :=
  same ▸ runs

/-- Code without actions before a run. -/
theorem Runs.after (runs : Runs u targets b stop run) (passes : Runs u targets a b skip) :
    Runs u targets a stop run :=
  passes.andThen runs

/-- Code without actions behind a run. -/
theorem Runs.before (runs : Runs u targets a b run) (passes : Runs u targets b stop skip) :
    Runs u targets a stop run := by
  have both := runs.andThen passes
  simpa only [andThen_skip] using both

/-! #### Pieces -/

theorem runs_of_follow {action : List Action} {run : Outcomes → Trace}
    (is : ∀ ω, run ω = ⟨action, ω, .next⟩)
    (goesOn : ∀ c : Cursor, c.place = a →
      c.follow u = some { c.next with actions := c.actions ++ action }) :
    Runs u targets a (a + 1) run := by
  intro holds ω done
  refine ⟨_, .single (goesOn ⟨a, holds, ω, done⟩ rfl), ?_⟩
  rw [is ω]
  exact ⟨rfl, rfl, rfl⟩

theorem runs_begins {x : Stmt} (here : u[a]? = some (.begins x)) :
    Runs u targets a (a + 1) skip := by
  refine runs_of_follow (fun _ => rfl) ?_
  rintro c rfl
  rw [Cursor.follow, here, List.append_nil]
  rfl

theorem runs_label {n : Nat} (here : LabelAt u a (.numbered n)) :
    Runs u targets a (a + 1) skip := by
  refine runs_of_follow (fun _ => rfl) ?_
  rintro c rfl
  rw [Cursor.follow, here, List.append_nil]
  rfl

theorem runs_instr {i : Instr} (here : u[a]? = some (.line (.instr i))) (stays : i.target? = none) :
    Runs u targets a (a + 1) skip := by
  refine runs_of_follow (fun _ => rfl) ?_
  rintro c rfl
  rw [Cursor.follow, here, List.append_nil]
  cases i <;> first | rfl | contradiction

theorem runs_code {instrs : List Instr} (laid : Laid u a (plain (code instrs)))
    (stays : ∀ i ∈ instrs, i.target? = none) :
    Runs u targets a (a + (plain (code instrs)).length) skip := by
  induction instrs generalizing a with
  | nil => exact runs_skip
  | cons i rest ih =>
      obtain ⟨here, laid⟩ := laid.cons
      have follows := ih laid fun j mem => stays j (List.mem_cons_of_mem i mem)
      refine (follows.after (runs_instr here (stays i List.mem_cons_self))).to ?_
      simp only [length_plain, code, List.length_map, List.length_cons]
      omega

theorem runs_perform {action : Action} {lines : List Line}
    (here : u[a]? = some (.act action lines)) (noTest : ∀ cond, action ≠ .test cond) :
    Runs u targets a (a + 1) (perform action) := by
  refine runs_of_follow (fun _ => rfl) ?_
  rintro c rfl
  rw [Cursor.follow, here]
  cases action with
  | test cond => exact (noTest cond rfl).elim
  | _ => rfl

theorem runs_jump {t : Target} (once : Once u) (here : u[a]? = some (.line (.instr (.jmp t))))
    (there : LabelAt u b t) : Runs u targets a b skip := by
  intro holds ω done
  refine ⟨⟨b, holds, ω, done⟩, .single ?_, (List.append_nil done).symm, rfl, rfl⟩
  rw [Cursor.follow, here]
  exact jump_eq once there _

/-- A condition leads on where it holds, and to its label where it does not. -/
theorem runs_branch {cond : Expr} {lines : List Line} {t : Target} (once : Once u)
    (tests : u[a]? = some (.act (.test cond) lines))
    (leaves : u[a + 1]? = some (.line (.instr (.je t)))) (there : LabelAt u b t)
    (yes : Runs u targets (a + 2) stop run) (no : Runs u targets b stop run') :
    Runs u targets a stop (branch cond run run') := by
  intro holds ω done
  have tested : Follows u ⟨a, holds, ω, done⟩ ⟨a + 1, ω 0, ω.tail, done ++ [.test cond]⟩ := by
    refine .single ?_
    rw [Cursor.follow, tests]
  unfold branch
  cases outcome : ω 0 with
  | true =>
      have goesOn : Cursor.follow u ⟨a + 1, ω 0, ω.tail, done ++ [.test cond]⟩ =
          some ⟨a + 2, ω 0, ω.tail, done ++ [.test cond]⟩ := by
        rw [Cursor.follow, leaves]
        exact if_pos outcome
      exact yes.from (tested.tail goesOn) rfl rfl rfl
  | false =>
      have jumps : Cursor.follow u ⟨a + 1, ω 0, ω.tail, done ++ [.test cond]⟩ =
          some ⟨b, ω 0, ω.tail, done ++ [.test cond]⟩ := by
        rw [Cursor.follow, leaves]
        exact (if_neg (by rw [outcome]; exact Bool.false_ne_true)).trans (jump_eq once there _)
      exact no.from (tested.tail jumps) rfl rfl rfl

theorem skip_pre (actions : List Action) (ω : Outcomes) :
    (skip ω).pre actions = ⟨actions, ω, .next⟩ :=
  congrArg (Trace.mk · ω .next) (List.append_nil actions)

/-- A round of a loop. The next one follows where the body ends and where `continue` goes; where
`break` goes, the loop is over. -/
theorem Runs.round {loop : Targets} (once : Once u) (body : Runs u (some loop) a m run)
    (ends : Runs u targets m stop run') (continues : ∀ i, LabelAt u i loop.next →
      Runs u targets i stop run') (there : LabelAt u b loop.stop)
    (leaves : Runs u targets b stop skip) :
    Runs u targets a stop fun ω => (run ω).round run' := by
  intro holds ω done
  obtain ⟨c, follows, actions, rest, place⟩ := body holds ω done
  cases flow : (run ω).flow with
  | next =>
      simp only [Trace.round, flow] at place ⊢
      exact ends.from follows place rest actions
  | continued =>
      simp only [Trace.round, flow] at place ⊢
      obtain ⟨_, ⟨⟩, place⟩ := place
      exact (continues _ place).from follows rfl rest actions
  | broke =>
      simp only [Trace.round, flow] at place ⊢
      obtain ⟨_, ⟨⟩, place⟩ := place
      have finished := leaves.from follows (once _ _ _ place there) rest actions
      rwa [skip_pre] at finished
  | returned =>
      simp only [Trace.round, flow] at place ⊢
      exact ⟨c, follows, actions, rest, by rwa [flow]⟩
  | unfinished =>
      simp only [Trace.round, flow]
      exact ⟨c, follows, actions, rest, by rw [flow]; trivial⟩

/-- A loop. Where its body ends, and where `continue` goes, the update is run, and after it
control is back at the condition. -/
theorem runs_rounds (loop : Targets) {cond : Expr} {lines : List Line}
    {update : Outcomes → Trace} (once : Once u) (tests : u[a]? = some (.act (.test cond) lines))
    (leaves : u[a + 1]? = some (.line (.instr (.je loop.stop)))) (there : LabelAt u b loop.stop)
    (finished : Runs u targets b stop skip)
    (body : Runs u (some loop) (a + 2) m run) (ends : Runs u targets m a update)
    (continues : ∀ i, LabelAt u i loop.next → Runs u targets i a update) (n : Nat) :
    Runs u targets a stop (rounds cond run update n) := by
  induction n with
  | zero =>
      intro holds ω done
      exact ⟨_, .refl, (List.append_nil done).symm, rfl, trivial⟩
  | succ n ih =>
      refine runs_branch once tests leaves there ?_ finished
      exact body.round once (ends.andThen ih) (fun i at_ => (continues i at_).andThen ih) there
        finished

/-! #### Statements -/

theorem execHeader_eq (n : Nat) (part : Option Stmt) :
    execHeader n part = execAll n part.toList := by
  cases part with
  | none => rw [execHeader, Option.toList_none, execAll]
  | some x =>
      rw [execHeader, Option.toList_some, execAll, execAll]
      exact (funext fun ω => andThen_skip _).symm

theorem exec_action {x : Stmt} {action : Action} (is : Stmt.action? x = some action) (n : Nat) :
    exec n x = perform action ∧ ∀ cond, action ≠ .test cond := by
  cases x <;> first | contradiction | (cases is; exact ⟨by rw [exec], nofun⟩)

theorem exec_function {x : Stmt} (is : Stmt.isFunction x = true) (n : Nat) : exec n x = skip := by
  cases x <;> first | contradiction | rw [exec]

theorem structured_header {part : Option Stmt} (inLoop : Bool)
    (actions : part.all (fun x => (Stmt.action? x).isSome) = true) :
    allStructured inLoop part.toList = true := by
  cases part with
  | none => rw [Option.toList_none, allStructured]
  | some x =>
      rw [Option.toList_some, allStructured, allStructured, Bool.and_true]
      cases x <;> first | contradiction | rw [isStructured]

/-- Following the jumps from where the code of statements begins leads through their structured
run. -/
theorem Outline.simulates {iface : Interface} {part : Part} {s s' : State} {pieces : List Piece}
    (outline : Outline iface targets part s pieces s') (n : Nat) (once : Once u)
    (exit : ∃ i, LabelAt u i .exit)
    (loops : ∀ loop ∈ targets, (∃ i, LabelAt u i loop.next) ∧ ∃ i, LabelAt u i loop.stop)
    (structured : part.isStructured targets.isSome = true) (laid : Laid u a pieces) :
    Runs u targets a (a + pieces.length) (part.exec n) := by
  induction outline generalizing a with
  | nil =>
      rw [Part.exec, execAll]
      exact runs_skip
  | cons _ _ first rest =>
      simp only [Part.isStructured, allStructured, Bool.and_eq_true] at structured
      obtain ⟨laid, laid'⟩ := laid.append
      obtain ⟨here, laid⟩ := laid.cons
      have runs := (first loops structured.1 laid).after (runs_begins here)
      rw [Part.exec, execAll]
      refine ((runs.to ?_).andThen (rest loops structured.2 laid')).to ?_
      all_goals simp only [List.length_append, List.length_cons]; omega
  | act is made =>
      obtain ⟨here, -⟩ := laid.cons
      obtain ⟨same, noTest⟩ := exec_action is n
      rw [Part.exec, same]
      exact runs_perform here noTest
  | function is =>
      rw [Part.exec, exec_function is]
      exact runs_skip
  | block _ inside =>
      rw [Part.isStructured, isStructured] at structured
      rw [Part.exec, exec]
      exact inside loops structured laid
  | ifThen tested _ inside =>
      rw [Part.isStructured, isStructured] at structured
      simp only [condition, List.cons_append, List.nil_append] at laid
      obtain ⟨tests, laid⟩ := laid.cons
      obtain ⟨leaves, laid⟩ := laid.cons
      obtain ⟨laid, laid'⟩ := laid.append
      obtain ⟨fails, -⟩ := laid'.cons
      have yes := (inside loops structured laid).before (runs_label fails)
      rw [Part.exec, exec]
      refine (runs_branch once tests leaves fails yes (runs_label fails)).to ?_
      simp only [condition, List.length_append, List.length_cons, List.length_nil]
      omega
  | ifElse tested _ _ inside otherwise =>
      simp only [Part.isStructured, isStructured, Bool.and_eq_true] at structured
      simp only [condition, List.cons_append, List.nil_append, List.append_assoc] at laid
      obtain ⟨tests, laid⟩ := laid.cons
      obtain ⟨leaves, laid⟩ := laid.cons
      obtain ⟨laid, laid'⟩ := laid.append
      obtain ⟨jumps, laid'⟩ := laid'.cons
      obtain ⟨fails, laid'⟩ := laid'.cons
      obtain ⟨laid', laid''⟩ := laid'.append
      obtain ⟨stops, -⟩ := laid''.cons
      have yes := (inside loops structured.1 laid).before
        ((runs_label stops).after (runs_jump once jumps stops))
      have no := ((otherwise loops structured.2 laid').before (runs_label stops)).after
        (runs_label fails)
      rw [Part.exec, exec]
      refine (runs_branch once tests leaves fails yes no).to ?_
      simp only [condition, List.length_append, List.length_cons, List.length_nil]
      omega
  | @whileLoop _ _ _ _ s _ _ _ _ _ _ inside =>
      rw [Part.isStructured, isStructured] at structured
      simp only [condition, List.cons_append, List.nil_append] at laid
      obtain ⟨starts, laid⟩ := laid.cons
      obtain ⟨tests, laid⟩ := laid.cons
      obtain ⟨leaves, laid⟩ := laid.cons
      obtain ⟨laid, laid'⟩ := laid.append
      obtain ⟨jumps, laid'⟩ := laid'.cons
      obtain ⟨stops, -⟩ := laid'.cons
      have body := inside (by rintro _ ⟨⟩; exact ⟨⟨_, starts⟩, _, stops⟩) structured laid
      rw [Part.exec, exec]
      refine ((runs_rounds ⟨.numbered s.labels, .numbered (s.labels + 1)⟩ once tests leaves stops
        (runs_label stops) body ((runs_label starts).after (runs_jump once jumps starts))
        ?_ n).after (runs_label starts)).to ?_
      · rintro i at_
        rw [once _ _ _ at_ starts]
        exact runs_label starts
      · simp only [condition, List.length_append, List.length_cons, List.length_nil]
        omega
  | @forLoop _ _ _ _ _ _ _ _ s₁ _ _ _ _ _ _ _ _ _ _ begins inside updates =>
      simp only [Part.isStructured, isStructured, Bool.and_eq_true] at structured
      simp only [condition, List.cons_append, List.nil_append, List.append_assoc] at laid
      obtain ⟨laid₁, laid⟩ := laid.append
      obtain ⟨starts, laid⟩ := laid.cons
      obtain ⟨tests, laid⟩ := laid.cons
      obtain ⟨leaves, laid⟩ := laid.cons
      obtain ⟨laid₂, laid⟩ := laid.append
      obtain ⟨continues, laid⟩ := laid.cons
      obtain ⟨laid₃, laid⟩ := laid.append
      obtain ⟨jumps, laid⟩ := laid.cons
      obtain ⟨stops, -⟩ := laid.cons
      have init := begins loops (structured_header _ structured.1.1) laid₁
      have body := inside (by rintro _ ⟨⟩; exact ⟨⟨_, continues⟩, _, stops⟩) structured.2 laid₂
      have again := ((updates loops (structured_header _ structured.1.2) laid₃).before
        ((runs_label starts).after (runs_jump once jumps starts))).after (runs_label continues)
      rw [Part.exec, exec, execHeader_eq, execHeader_eq]
      refine (init.andThen ((runs_rounds ⟨.numbered (s₁.labels + 1), .numbered (s₁.labels + 2)⟩ once
        tests leaves stops (runs_label stops) body again ?_ n).after (runs_label starts))).to ?_
      · rintro i at_
        rw [once _ _ _ at_ continues]
        exact again
      · simp only [condition, List.length_append, List.length_cons, List.length_nil]
        omega
  | @breakLoop targets =>
      rw [Part.isStructured, isStructured] at structured
      obtain ⟨loop, rfl⟩ := Option.isSome_iff_exists.mp structured
      obtain ⟨-, i, stops⟩ := loops loop rfl
      obtain ⟨jumps, -⟩ := laid.cons
      rw [Part.exec, exec]
      intro holds ω done
      have runs : Runs u none a i skip := runs_jump once jumps stops
      obtain ⟨c, follows, actions, rest, rfl⟩ := runs holds ω done
      exact ⟨c, follows, actions, rest, loop, rfl, stops⟩
  | @continueLoop targets =>
      rw [Part.isStructured, isStructured] at structured
      obtain ⟨loop, rfl⟩ := Option.isSome_iff_exists.mp structured
      obtain ⟨⟨i, continues⟩, -⟩ := loops loop rfl
      obtain ⟨jumps, -⟩ := laid.cons
      rw [Part.exec, exec]
      intro holds ω done
      have runs : Runs u none a i skip := runs_jump once jumps continues
      obtain ⟨c, follows, actions, rest, rfl⟩ := runs holds ω done
      exact ⟨c, follows, actions, rest, loop, rfl, continues⟩
  | returnValue made =>
      obtain ⟨here, laid⟩ := laid.cons
      obtain ⟨jumps, -⟩ := laid.cons
      obtain ⟨i, exits⟩ := exit
      rw [Part.exec, exec]
      intro holds ω done
      have runs : Runs u none a i _ := (runs_perform here nofun).before (runs_jump once jumps exits)
      obtain ⟨c, follows, actions, rest, rfl⟩ := runs holds ω done
      exact ⟨c, follows, actions, rest, exits⟩

/-! ### Runs that are cut off -/

/-- A run that is cut off has done at least `n` actions. -/
def Long (n : Nat) (run : Outcomes → Trace) : Prop :=
  ∀ ω, (run ω).flow = .unfinished → n ≤ (run ω).actions.length

section

variable {n : Nat}

theorem long_skip : Long n skip := nofun

theorem Long.andThen (long : Long n run) (long' : Long n run') :
    Long n fun ω => (run ω).andThen run' := by
  intro ω
  dsimp only
  by_cases flow : (run ω).flow = .next
  · rw [Trace.andThen_next flow]
    intro cut
    have enough := long' _ cut
    simp only [Trace.pre, List.length_append]
    omega
  · rw [Trace.andThen_of_ne flow]
    exact long ω

theorem Long.mono {m : Nat} (long : Long n run) (less : m ≤ n) : Long m run :=
  fun ω cut => Nat.le_trans less (long ω cut)

/-- The condition is an action as well. -/
theorem Long.branch (cond : Expr) (long : Long n run) (long' : Long n run') :
    Long (n + 1) (branch cond run run') := by
  intro ω cut
  refine Nat.succ_le_succ ?_
  cases outcome : ω 0 with
  | true =>
      simp only [Assembly.branch, outcome] at cut
      simpa using long _ cut
  | false =>
      simp only [Assembly.branch, outcome] at cut
      simpa using long' _ cut

theorem Long.round (long : Long n run) (long' : Long n run') :
    Long n fun ω => (run ω).round run' := by
  intro ω cut
  have again (cut : (run' (run ω).rest).flow = .unfinished) :
      n ≤ ((run ω).actions ++ (run' (run ω).rest).actions).length := by
    have enough := long' _ cut
    rw [List.length_append]
    omega
  cases flow : (run ω).flow with
  | next | continued =>
      simp only [Trace.round, flow] at cut ⊢
      exact again cut
  | broke | returned => simp only [Trace.round, flow, reduceCtorEq] at cut
  | unfinished =>
      simp only [Trace.round, flow]
      exact long ω flow

theorem long_rounds (cond : Expr) (long : Long n run) (long' : Long n run') :
    Long n (rounds cond run run' n) := by
  suffices upTo : ∀ m ≤ n, Long m (rounds cond run run' m) from upTo n (Nat.le_refl n)
  intro m
  induction m with
  | zero => exact fun _ _ _ => Nat.zero_le _
  | succ m ih =>
      intro below
      have less := Nat.le_of_succ_le below
      exact Long.branch cond ((long.mono less).round ((long'.mono less).andThen (ih less)))
        long_skip

mutual

theorem long_exec : (x : Stmt) → Long n (exec n x)
  | .declare .. => by rw [exec]; exact nofun
  | .prototype .. => by rw [exec]; exact nofun
  | .define .. => by rw [exec]; exact nofun
  | .assign .. => by rw [exec]; exact nofun
  | .call .. => by rw [exec]; exact nofun
  | .block _ body => by
      rw [exec]
      exact long_execAll body
  | .ifThen cond _ body => by
      rw [exec]
      exact ((long_execAll body).branch cond long_skip).mono (Nat.le_succ n)
  | .ifElse cond _ body _ elseBody => by
      rw [exec]
      exact ((long_execAll body).branch cond (long_execAll elseBody)).mono (Nat.le_succ n)
  | .whileLoop cond _ body => by
      rw [exec]
      exact long_rounds cond (long_execAll body) long_skip
  | .forLoop init cond update _ body => by
      rw [exec]
      exact (long_execHeader init).andThen
        (long_rounds cond (long_execAll body) (long_execHeader update))
  | .breakLoop _ => by rw [exec]; exact nofun
  | .continueLoop _ => by rw [exec]; exact nofun
  | .returnValue .. => by rw [exec]; exact nofun

theorem long_execHeader : (part : Option Stmt) → Long n (execHeader n part)
  | none => by rw [execHeader]; exact nofun
  | some x => by
      rw [execHeader]
      exact long_exec x

/-- A run of statements that is cut off has done at least as many actions as rounds are
allowed. -/
theorem long_execAll : (body : List Stmt) → Long n (execAll n body)
  | [] => by rw [execAll]; exact nofun
  | x :: rest => by
      rw [execAll]
      exact (long_exec x).andThen (long_execAll rest)

end

end

/-! ### Units -/

theorem mem_placed {t : Target} {pieces : List Piece} (mem : Piece.line (.label t) ∈ pieces) :
    t ∈ placed (linesOf pieces) :=
  List.mem_filterMap.mpr ⟨.label t, List.mem_flatMap.mpr ⟨_, mem, List.mem_singleton.mpr rfl⟩, rfl⟩

theorem once_of_nodup (nodup : (placed (linesOf u)).Nodup) : Once u := by
  have below {t : Target} {i j : Nat} (first : LabelAt u i t) (second : LabelAt u j t) :
      ¬ i < j := by
    intro less
    obtain ⟨inside, is⟩ := List.getElem?_eq_some_iff.mp first
    have later : .line (.label t) ∈ u.drop (i + 1) := by
      refine List.mem_of_getElem? (i := j - (i + 1)) ?_
      rw [List.getElem?_drop, Nat.add_sub_cancel' less]
      exact second
    rw [← List.take_append_drop i u, ← List.getElem_cons_drop inside, is, linesOf_append,
      placed_append, linesOf_cons, Piece.lines, List.singleton_append, placed_label] at nodup
    have apart := (List.nodup_append.mp nodup).2.1
    exact (List.nodup_cons.mp apart).1 (mem_placed later)
  intro t i j first second
  exact Nat.le_antisymm (Nat.not_lt.mp (below second first)) (Nat.not_lt.mp (below first second))

/-- Where the end of a unit is reached, nothing follows. -/
theorem follow_exit (exits : LabelAt u c.place .exit) : c.follow u = none := by
  rw [Cursor.follow, exits]

theorem eq_of_follows_exit (exits : LabelAt u c.place .exit) (follows : Follows u c c') :
    c' = c := by
  cases follows.cases_head with
  | inl same => exact same.symm
  | inr more =>
      obtain ⟨c'', step, -⟩ := more
      rw [follow_exit exits] at step
      contradiction

theorem actions_follow (step : c.follow u = some c') : c.actions <+: c'.actions := by
  have jumped {t : Target} (step : c.jump u t = some c') : c.actions <+: c'.actions := by
    obtain ⟨i, -, rfl⟩ := Option.map_eq_some_iff.mp step
    exact List.prefix_rfl
  unfold Cursor.follow at step
  split at step
  · contradiction
  · contradiction
  · obtain rfl := Option.some.inj step
    exact List.prefix_append _ _
  · obtain rfl := Option.some.inj step
    exact List.prefix_append _ _
  · exact jumped step
  · split at step
    · obtain rfl := Option.some.inj step
      exact List.prefix_rfl
    · exact jumped step
  · obtain rfl := Option.some.inj step
    exact List.prefix_rfl
  · obtain rfl := Option.some.inj step
    exact List.prefix_rfl

theorem actions_follows (follows : Follows u c c') : c.actions <+: c'.actions := by
  induction follows with
  | refl => exact List.prefix_rfl
  | tail _ step ih => exact ih.trans (actions_follow step)

/-- Of two cursors that are reached, one is reached from the other. -/
theorem follows_total {start : Cursor} (follows : Follows u start c)
    (follows' : Follows u start c') : Follows u c c' ∨ Follows u c' c :=
  Relation.ReflTransGen.total_of_right_unique
    (fun _ _ _ first second => Option.some.inj (first.symm.trans second)) follows follows'

/-- Following the jumps of a unit does the actions of the structured run of its statements, and
ends where they end. -/
def Implements (u : List Piece) (body : List Stmt) : Prop := ∀ ω : Outcomes,
  (∀ actions, (∃ c, Follows u (.start ω) c ∧ actions <+: c.actions) ↔
    ∃ n, actions <+: (execAll n body ω).actions) ∧
  ∀ actions, (∃ c, Follows u (.start ω) c ∧ LabelAt u c.place .exit ∧ c.actions = actions) ↔
    ∃ n, (execAll n body ω).flow ≠ .unfinished ∧ (execAll n body ω).actions = actions

theorem implements_of_runs {body : List Stmt} (exits : LabelAt u stop .exit)
    (runs : ∀ n, Runs u none 0 stop (execAll n body)) : Implements u body := by
  intro ω
  -- What a structured run leads to: its end, or at least as many actions as it has rounds.
  have reached (n : Nat) : ∃ c, Follows u (.start ω) c ∧ c.actions = (execAll n body ω).actions ∧
      (LabelAt u c.place .exit ∧ (execAll n body ω).flow ≠ .unfinished ∨
        (execAll n body ω).flow = .unfinished ∧ n ≤ c.actions.length) := by
    obtain ⟨c, follows, actions, rest, place⟩ := runs n false ω []
    rw [List.nil_append] at actions
    refine ⟨c, follows, actions, ?_⟩
    cases flow : (execAll n body ω).flow with
    | next =>
        rw [flow] at place
        exact .inl ⟨(place : c.place = stop) ▸ exits, nofun⟩
    | returned =>
        rw [flow] at place
        exact .inl ⟨place, nofun⟩
    | unfinished => exact .inr ⟨rfl, actions ▸ long_execAll body ω flow⟩
    | broke | continued =>
        rw [flow] at place
        obtain ⟨_, ⟨⟩, -⟩ := place
  -- With more rounds than actions have been done, a structured run gets further.
  have further {c : Cursor} (follows : Follows u (.start ω) c) :
      ∃ n c', Follows u c c' ∧ c'.actions = (execAll n body ω).actions ∧
        (LabelAt u c.place .exit → (execAll n body ω).flow ≠ .unfinished) := by
    obtain ⟨c', follows', actions, ends⟩ := reached (c.actions.length + 1)
    refine ⟨c.actions.length + 1, c', ?_⟩
    rcases follows_total follows follows' with onward | back
    · refine ⟨onward, actions, fun exits cut => ?_⟩
      obtain rfl := eq_of_follows_exit exits onward
      rcases ends with ⟨-, whole⟩ | ⟨-, long⟩
      · exact whole cut
      · omega
    · have shorter := (actions_follows back).length_le
      rcases ends with ⟨exits', whole⟩ | ⟨-, long⟩
      · obtain rfl := eq_of_follows_exit exits' back
        exact ⟨.refl, actions, fun _ => whole⟩
      · omega
  constructor
  · intro actions
    constructor
    · rintro ⟨c, follows, initial⟩
      obtain ⟨n, c', onward, same, -⟩ := further follows
      exact ⟨n, same ▸ initial.trans (actions_follows onward)⟩
    · rintro ⟨n, initial⟩
      obtain ⟨c, follows, same, -⟩ := reached n
      exact ⟨c, follows, same ▸ initial⟩
  · intro actions
    constructor
    · rintro ⟨c, follows, exits, rfl⟩
      obtain ⟨n, c', onward, same, whole⟩ := further follows
      obtain rfl := eq_of_follows_exit exits onward
      exact ⟨n, whole exits, same.symm⟩
    · rintro ⟨n, whole, rfl⟩
      obtain ⟨c, follows, same, ends⟩ := reached n
      rcases ends with ⟨exits, -⟩ | ⟨cut, -⟩
      · exact ⟨c, follows, exits, same⟩
      · contradiction

theorem RoutineOutline.implements {iface : Interface} {h : Heading} {body : List Stmt} {size : Nat}
    (outline : RoutineOutline iface h body size u) (structured : allStructured false body = true) :
    Implements u body := by
  obtain ⟨s, inner, s', inside, rfl⟩ := outline
  have nodup := inside.places.nodup_exit
  generalize unit : plain (code (prologue size)) ++ inner ++
    plain (code (defaultValue (typeOf h.result.val)) ++ epilogue) = u
  have once : Once u := by
    refine once_of_nodup ?_
    rw [← unit]
    simpa [epilogue] using nodup
  have laid : Laid u 0 (plain (code (prologue size)) ++ inner ++
      (plain (code (defaultValue (typeOf h.result.val))) ++ plain epilogue)) := by
    rw [← plain_append, unit]
    exact List.prefix_rfl
  obtain ⟨laid, laid'⟩ := laid.append
  obtain ⟨enters, laid⟩ := laid.append
  obtain ⟨leaves, laid'⟩ := laid'.append
  obtain ⟨exits, -⟩ := laid'.cons
  refine implements_of_runs exits fun n => ?_
  have runs := inside.simulates n once ⟨_, exits⟩ nofun structured laid
  refine ((runs.to ?_).before (runs_code leaves (defaultValue_stays _))).after
    (runs_code enters (prologue_stays size))
  rw [List.length_append, Nat.add_assoc]

/-- The jumps of every function of a program that code is made for implement its structured
control flow. -/
theorem jumps_structured (p : Program) (l : Listing) (assembled : p.assemble.1 = .ok l) :
    List.Forall₂ (fun d r => allStructured false d.2 = true →
        ∃ size pieces, RoutineOutline (.ofProgram p) d.1 d.2 size pieces ∧
          linesOf pieces = r.lines ∧ Implements pieces d.2)
      (definitions p.stmts) l.routines := by
  refine (outline_listing assembled).2.imp ?_
  rintro d r ⟨-, size, pieces, outline, lines⟩ structured
  exact ⟨size, pieces, outline, lines, outline.implements structured⟩

/-- Loops that are left, and gone on with, from the inside. -/
def searchBody : List Stmt :=
  [.forLoop (some (.declare {} ⟨⟨"int", {}⟩, ⟨"i", {}⟩, none, some (.literal {} (.number "0"))⟩))
      (.binary {} .less (.var {} "i") (.var {} "n"))
      (some (.assign {} ⟨"i", {}⟩ none
        (.binary {} .add (.var {} "i") (.literal {} (.number "1"))))) {}
      [.ifElse (.binary {} .equal (.var {} "i") (.literal {} (.number "3"))) {}
          [.continueLoop {}] {}
          [.whileLoop (.var {} "n") {}
            [.ifThen (.var {} "i") {} [.returnValue {} (some (.var {} "n"))], .breakLoop {}]],
        .call {} ⟨"g", {}⟩ []]]

def search : Program where
  stmts :=
    [.define ⟨⟨"int", {}⟩, ⟨"f", {}⟩, [⟨⟨"int", {}⟩, some ⟨"n", {}⟩⟩]⟩ {} searchBody]

theorem search_structured : ∃ l r pieces, search.assemble.1 = .ok l ∧ l.routines = [r] ∧
    linesOf pieces = r.lines ∧ Implements pieces searchBody := by
  have made : search.assemble.1.toOption.isSome = true := by decide +kernel
  have isStructured : allStructured false searchBody = true := by decide
  cases assembled : search.assemble.1 with
  | error fault =>
      rw [assembled] at made
      contradiction
  | ok l =>
      have all := jumps_structured search l assembled
      generalize is : l.routines = routines at all
      rcases all with _ | ⟨first, _ | _⟩
      obtain ⟨size, pieces, -, lines, implements⟩ := first isStructured
      exact ⟨l, _, pieces, rfl, is, lines, implements⟩

end BraceLang.Assembly
