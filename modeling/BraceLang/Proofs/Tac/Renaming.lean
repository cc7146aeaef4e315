import BraceLang.Proofs.Tac.Names
import BraceLang.Proofs.Tac.Walk
import Mathlib.Data.List.Pairwise

/-!
Renaming at every moment of lowering.

Lowering goes through states. Between two of them it opens a scope, closes one or makes a
declaration, and its other work leaves the scopes and the types alone. The states are noted on the
way through the program (`Program.stages`), and that none is missing is `passage_run`: each comes
from the one in front of it by one change.

**Main result.** `stages_apart`: as long as no declared name has a point in it, in each of these
states all names in open scopes, hidden ones included, stand for different names in the code,
and the type of a name in the code is that of all later states.
-/

namespace BraceLang.Tac.Lower

/-! ### Single changes -/

/-- What the names given to variables depend on, and the types of these names. -/
structure Tables where
  stack : ScopeStack String
  types : Assoc String Ty
  renames : Assoc String Nat

def State.tables (s : State) : Tables := ⟨s.env.stack, s.types, s.renames⟩

/-- At most one change of the tables; declarations are of the names. Each change writes a table
once, so in the middle of it no table has a content that it has neither before nor after. -/
inductive Step (names : List String) (s s' : State) : Prop where
  | unchanged (same : s'.tables = s.tables)
  | opened (same : s'.tables = (openScope s).2.tables)
  | closed (same : s'.tables = (closeScope s).2.tables)
  | declared {name : String} (type : String) (mem : name ∈ names)
      (same : s'.tables = (declare name type s).2.tables)

/-- From a state to another one by single changes, and the states after each of them. -/
inductive Passage (names : List String) : State → List State → State → Prop where
  | nil (s : State) : Passage names s [] s
  | cons {s s' s'' : State} {rest : List State} :
      Step names s s' → Passage names s' rest s'' → Passage names s (s' :: rest) s''

variable {names : List String} {s s' s'' : State} {l l' : List State}

namespace Passage

theorem single (step : Step names s s') : Passage names s [s'] s' := .cons step (.nil s')

theorem append (first : Passage names s l s') (second : Passage names s' l' s'') :
    Passage names s (l ++ l') s'' := by
  induction first with
  | nil => exact second
  | cons step _ ih => exact .cons step (ih second)

end Passage

/-! ### What a change keeps -/

/-- The types that are known stay as they are. -/
def KeepsTypes (s s' : State) : Prop :=
  ∀ unique t, s.types.get? unique = some t → s'.types.get? unique = some t

theorem WellNamed.of_tables {r : State} (named : WellNamed names r) (same : s.tables = r.tables) :
    WellNamed names s :=
  named.of_same (congrArg Tables.stack same) (congrArg Tables.types same)
    (congrArg Tables.renames same)

theorem KeepsTypes.of_tables {r : State} (keeps : KeepsTypes s r) (same : s'.tables = r.tables) :
    KeepsTypes s s' := by
  have types : s'.types = r.types := congrArg Tables.types same
  intro unique t known
  rw [types]
  exact keeps unique t known

theorem KeepsTypes.refl (s : State) : KeepsTypes s s := fun _ _ known => known

theorem KeepsTypes.trans (first : KeepsTypes s s') (second : KeepsTypes s' s'') :
    KeepsTypes s s'' := fun unique t known => second unique t (first unique t known)

/-- One change keeps names in order, and every type that is known. -/
theorem Step.keeps (none_made : NoneMadeUp names) (step : Step names s s')
    (named : WellNamed names s) : WellNamed names s' ∧ KeepsTypes s s' := by
  cases step with
  | unchanged same => exact ⟨named.of_tables same, (KeepsTypes.refl s).of_tables same⟩
  | opened same =>
      -- Scopes are opened and closed without a look at the types.
      have kept : KeepsTypes s (openScope s).2 := .refl s
      exact ⟨named.openScope.of_tables same, kept.of_tables same⟩
  | closed same =>
      have kept : KeepsTypes s (closeScope s).2 := .refl s
      exact ⟨named.closeScope.of_tables same, kept.of_tables same⟩
  | declared type mem same =>
      obtain ⟨named', extends'⟩ := keeps_declare none_made type mem s named
      have kept : KeepsTypes s _ := fun _ _ known => extends'.types known
      exact ⟨named'.of_tables same, kept.of_tables same⟩

/-- A passage keeps names in order throughout, and a type from when it is known on. -/
theorem Passage.keeps (none_made : NoneMadeUp names) (passage : Passage names s l s')
    (named : WellNamed names s) :
    (∀ m ∈ s :: l, WellNamed names m ∧ KeepsTypes m s') ∧ (s :: l).Pairwise KeepsTypes := by
  induction passage with
  | nil s =>
      refine ⟨fun m mem => ?_, List.pairwise_singleton _ _⟩
      rw [List.mem_singleton.mp mem]
      exact ⟨named, .refl s⟩
  | cons step _ ih =>
      obtain ⟨named', types⟩ := step.keeps none_made named
      obtain ⟨all, later⟩ := ih named'
      constructor
      · refine List.forall_mem_cons.mpr ⟨⟨named, ?_⟩, all⟩
        exact types.trans (all _ List.mem_cons_self).2
      · refine List.pairwise_cons.mpr ⟨fun m mem => ?_, later⟩
        rcases List.mem_cons.mp mem with rfl | mem
        · exact types
        · exact types.trans ((List.pairwise_cons.mp later).1 m mem)

/-- Different visible names stand for different names in the code. -/
theorem Apart.lookup_inj {stack : ScopeStack String} (apart : Apart stack.scopes) {a b u : String}
    (at_a : stack.lookup a = some u) (at_b : stack.lookup b = some u) : a = b := by
  obtain ⟨L, mem, found⟩ := List.exists_of_findSome?_eq_some at_a
  obtain ⟨M, mem', found'⟩ := List.exists_of_findSome?_eq_some at_b
  -- Entries of different scopes differ, whichever of the two scopes is the inner one.
  let Differ (L M : Scope String) : Prop :=
    ∀ a b u v, L.get? a = some u → M.get? b = some v → u ≠ v
  have : Std.Symm Differ := ⟨fun L M differ a b u v at_a at_b => (differ b a v u at_b at_a).symm⟩
  have between : stack.scopes.Pairwise Differ := by
    refine apart.between.imp fun differ => ?_
    intro a b u v at_a at_b
    exact differ at_a at_b
  by_cases same : L = M
  · subst same
    exact apart.within L mem found found'
  · exact absurd rfl (between.forall mem mem' same a b u u found found')

/-! ### The states that lowering goes through -/

/-- The states after each parameter. -/
def paramStages : List Param → State → List State
  | [], _ => []
  | p :: rest, s =>
      match p.name with
      | none => paramStages rest s
      | some name =>
          (declare name.val p.type.val s).2 :: paramStages rest (declare name.val p.type.val s).2

/-- The states that lowering goes through at a move. -/
def stagesOf : Move → Walk → List State
  | .enterBody h _, w =>
      (openScope w.state).2 :: paramStages h.params (openScope w.state).2 ++ [w.state.inside h]
  | m, w => ((pass m w).map Walk.state).toList

theorem step_declaration (d : Declaration) (mem : d.name.val ∈ names) (s : State) :
    Step names s (declaration d s).2 := by
  obtain ⟨type, name, length, init⟩ := d
  refine .declared type.val mem ?_
  cases init with
  | none =>
      obtain ⟨globals, same⟩ := declared_eq s name.val type.val
      rw [declaration_none, same]
      rfl
  | some init =>
      -- The code of the initial value takes temporaries and nothing else.
      obtain ⟨globals, same⟩ := declared_eq (expr init s).2 name.val type.val
      rw [declaration_some]
      dsimp only
      rw [same]
      rfl

theorem passage_params (ps : List Param)
    (mem : ∀ x ∈ ps.filterMap fun p => p.name.map (·.val), x ∈ names) (s : State) :
    Passage names s (paramStages ps s) (params ps s).2 := by
  induction ps generalizing s with
  | nil => exact .nil s
  | cons p rest ih =>
      obtain ⟨type, name⟩ := p
      cases name with
      | none => exact ih mem s
      | some name =>
          obtain ⟨mem, memRest⟩ := List.forall_mem_cons.mp mem
          exact .cons (.declared type.val mem rfl) (ih memRest _)

theorem step_single (targets : Option Targets) {x : Stmt} (single : x.isSingle = true)
    (mem : ∀ n ∈ x.declared, n ∈ names) (s : State) : Step names s (stmt targets x s).2 := by
  cases x with
  | declare _ d => exact step_declaration d (mem _ List.mem_cons_self) s
  | assign _ _ index => cases index <;> exact .unchanged rfl
  | returnValue _ value => cases value <;> exact .unchanged rfl
  | prototype | call | breakLoop | continueLoop => exact .unchanged rfl
  | _ => contradiction

theorem step_passes {w w' : Walk} (passes : w.Passes w') : Step names w.state w'.state := by
  have tables : w'.state.tables = ⟨w'.state.env.stack, w.state.types, w.state.renames⟩ := by
    rw [passes.state]
    rfl
  rcases passes.env with same | opened | closed
  · exact .unchanged (by rw [tables, same]; rfl)
  · exact .opened (by rw [tables, opened]; rfl)
  · exact .closed (by rw [tables, closed]; rfl)

theorem passage_move {m : Move} {w w' : Walk} (step : pass m w = some w')
    (mem : ∀ n ∈ m.declared, n ∈ names) : Passage names w.state (stagesOf m w) w'.state := by
  have ends (notBody : ∀ h braces, m ≠ .enterBody h braces) : stagesOf m w = [w'.state] := by
    rw [stagesOf, step]
    · rfl
    · exact notBody
  rcases step_cases step with ⟨x, rfl, rfl⟩ | ⟨h, braces, rfl, rfl⟩ |
    ⟨h, braces, params, outside, rfl, -, -, state⟩ | ⟨between, passes⟩
  · rw [ends nofun]
    exact .single (step_single _ x.2 mem w.state)
  · have declared := passage_params h.params mem (openScope w.state).2
    exact .cons (.opened rfl) (declared.append (.single (.unchanged rfl)))
  · rw [ends nofun, state]
    exact .single (.closed rfl)
  · rw [ends fun h braces same => by rw [same] at between; contradiction]
    exact .single (step_passes passes)

/-- The states that are noted are all that lowering goes through. -/
theorem passage_run {ms : List Move} {w w' : Walk} (ran : pass.run ms w = some w')
    (mem : ∀ n ∈ ms.flatMap Move.declared, n ∈ names) :
    Passage names w.state (pass.noted stagesOf ms w) w'.state := by
  induction ms generalizing w with
  | nil =>
      cases ran
      exact .nil _
  | cons m ms ih =>
      obtain ⟨w₁, step, later⟩ := Option.bind_eq_some_iff.mp ran
      rw [List.flatMap_cons, List.forall_mem_append] at mem
      rw [Pass.noted_cons step]
      exact (passage_move step mem.1).append (ih later mem.2)

end BraceLang.Tac.Lower

namespace BraceLang

/-- The states that the lowering of a program goes through. -/
def Program.stages (p : Program) : List Tac.Lower.State :=
  {} :: (Tac.Lower.openScope {}).2 ::
    p.lowering.flatMap fun t => Tac.Lower.stagesOf t.move t.state

namespace Tac

open Lower (Passage KeepsTypes Apart)

/-- In a program whose declared names have no point in them, at every moment of lowering the
names in open scopes stand for different names in the code, and no type changes later on. -/
theorem stages_apart (p : Program) (dotless : ∀ x ∈ Stmt.declaredIn p.stmts, '.' ∉ x.toList) :
    Passage (Stmt.declaredIn p.stmts) {} p.stages.tail (lastStage p) ∧
      (lastStage p).types = p.lower.1.types ∧
      (∀ s ∈ p.stages, Apart s.env.stack.scopes ∧ KeepsTypes s (lastStage p) ∧
        ∀ a b u, s.env.stack.lookup a = some u → s.env.stack.lookup b = some u → a = b) ∧
      p.stages.Pairwise KeepsTypes := by
  have passage : Passage (Stmt.declaredIn p.stmts) {} p.stages.tail (lastStage p) :=
    .cons (.opened rfl) (Lower.passage_run (run_lowering p)
      fun _ mem => (Stmt.declared_movesIn p.stmts).subset mem)
  obtain ⟨all, types⟩ := passage.keeps (noneMadeUp_of_dotless dotless) (Lower.wellNamed_empty _)
  refine ⟨passage, rfl, fun s mem => ?_, types⟩
  obtain ⟨named, kept⟩ := all s mem
  exact ⟨named.apart, kept, fun _ _ _ => named.apart.lookup_inj⟩

/-- A variable `x` in each of three scopes, declared twice in the outermost one, and two
variables `y` of different types. -/
def shadowing : Program where
  stmts :=
    [.declare {} ⟨⟨"int", {}⟩, ⟨"x", {}⟩, none, some (.literal {} (.number "1"))⟩,
      .declare {} ⟨⟨"real", {}⟩, ⟨"x", {}⟩, none, none⟩,
      .define ⟨⟨"double", {}⟩, ⟨"f", {}⟩, [⟨⟨"double", {}⟩, some ⟨"x", {}⟩⟩]⟩ {}
        [.block {} [.declare {} ⟨⟨"int", {}⟩, ⟨"x", {}⟩, none, some (.var {} "x")⟩],
          .returnValue {} (some (.var {} "x"))],
      .block {} [.declare {} ⟨⟨"int", {}⟩, ⟨"y", {}⟩, none, some (.var {} "x")⟩],
      .block {} [.declare {} ⟨⟨"double", {}⟩, ⟨"y", {}⟩, none, some (.literal {} (.number "3"))⟩]]

theorem shadowing_apart :
    (∀ x ∈ Stmt.declaredIn shadowing.stmts, '.' ∉ x.toList) ∧
      (∃ s ∈ shadowing.stages, Apart s.env.stack.scopes ∧
        s.env.stack.scopes.map (·.get? "x") = [some "x.3", some "x.2", some "x"]) ∧
      (lastStage shadowing).types.get? "y" = some .int ∧
      (lastStage shadowing).types.get? "y.1" = some .double := by
  have dotless : ∀ x ∈ Stmt.declaredIn shadowing.stmts, '.' ∉ x.toList := by decide
  obtain ⟨-, -, all, -⟩ := stages_apart shadowing dotless
  have deepest : ∃ s ∈ shadowing.stages,
      s.env.stack.scopes.map (·.get? "x") = [some "x.3", some "x.2", some "x"] := by
    decide +kernel
  obtain ⟨s, mem, names⟩ := deepest
  exact ⟨dotless, ⟨s, mem, (all s mem).1, names⟩, by decide +kernel, by decide +kernel⟩

end Tac

end BraceLang
