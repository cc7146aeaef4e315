import BraceLang.Proofs.Tac.Names
import BraceLang.Proofs.Tac.Walk
import Mathlib.Data.List.Pairwise

/-!
Which names of the code are listed as global.

Lowering lists a declaration as global when it takes itself to be outside of functions. It takes
itself to be inside from the parameters of a function on to the end of its body, and outside from
there on, also when the function stands in the body of another one. A variable that is not
listed may still have the name of one that is: a name is replaced only when it hides a visible
one, or when the types differ.

**Main result.** `globals_exact`: every variable outside of functions is listed; and, as long as
no declared name has a point in it, the name of a local variable is listed exactly when the
variable was declared after the end of a function inside of its own, or kept its name and so did
a listed variable of that name.
-/

namespace BraceLang.Tac.Lower

/-! ### The names given to variables -/

/-- A variable of the program with the name that it got in the code. -/
structure Naming where
  name : String
  unique : String
  /-- It is a parameter, or declared in the body of a function. -/
  isLocal : Bool
  /-- It was declared at a time that lowering took itself to be outside of functions. -/
  isListed : Bool
deriving DecidableEq

/-- The state that a variable is declared in: its initial value is lowered first. -/
def State.afterInit (s : State) (d : Declaration) : State :=
  match d.init with
  | none => s
  | some init => (expr init s).2

def paramNamings : List Param → State → List Naming
  | [], _ => []
  | p :: rest, s =>
      match p.name with
      | none => paramNamings rest s
      | some name =>
          let declared := declare name.val p.type.val s
          ⟨name.val, declared.1, true, false⟩ :: paramNamings rest declared.2

theorem names_paramNamings (ps : List Param) (s : State) :
    (paramNamings ps s).map Naming.name = ps.filterMap fun p => p.name.map (·.val) := by
  induction ps generalizing s with
  | nil => rfl
  | cons p rest ih =>
      obtain ⟨type, name⟩ := p
      cases name with
      | none => exact ih s
      | some name => exact congrArg (name.val :: ·) (ih _)

/-- The variables that are declared at a move, in the order they are lowered in. -/
def Naming.ofMove : Move → Walk → List Naming
  | .single ⟨.declare _ d, _⟩, w =>
      let s := w.state.afterInit d
      [⟨d.name.val, (declare d.name.val d.type.val s).1, w.inside, !s.inFunction⟩]
  | .enterBody h _, w => paramNamings h.params (openScope w.state).2
  | _, _ => []

theorem names_ofMove (m : Move) (w : Walk) :
    (Naming.ofMove m w).map Naming.name = m.declared := by
  cases m with
  | single x =>
      obtain ⟨x, single⟩ := x
      cases x <;> first | rfl | contradiction
  | enterBody h => exact names_paramNamings h.params _
  | _ => rfl

/-! ### What lowering keeps books of -/

/-- The part of the state that decides which names are listed. -/
structure Books where
  replaced : String → Nat
  globals : List String
  inFunction : Bool

def State.books (s : State) : Books := ⟨s.replaced, s.globals, s.inFunction⟩

/-- The variable has a name that was made up between two states of the books. -/
def Naming.MadeUp (n : Naming) (b b' : Books) : Prop :=
  ∃ k, b.replaced n.name ≤ k ∧ k < b'.replaced n.name ∧ n.unique = madeUp n.name (k + 1)

/-- Two names in the code are the same only if one of them is not made up. -/
def Naming.Apart (n m : Naming) : Prop :=
  n.unique = m.unique → n.unique = n.name ∨ m.unique = m.name

instance : Std.Symm Naming.Apart := ⟨fun _ _ apart same => (apart same.symm).symm⟩

/-- Between two states of the books, these variables were named. -/
structure Records (l : List Naming) (b b' : Books) : Prop where
  counted : ∀ name, b.replaced name ≤ b'.replaced name
  kept_or : ∀ n ∈ l, n.unique = n.name ∨ n.MadeUp b b'
  /-- A name is made up once. -/
  apart : l.Pairwise Naming.Apart
  globals : ∀ u, u ∈ b'.globals ↔ u ∈ b.globals ∨ ∃ n ∈ l, n.isListed = true ∧ n.unique = u

theorem Naming.MadeUp.mono {n : Naming} {a b b' c : Books} (made : n.MadeUp b b')
    (before : ∀ name, a.replaced name ≤ b.replaced name)
    (after : ∀ name, b'.replaced name ≤ c.replaced name) : n.MadeUp a c := by
  obtain ⟨k, least, most, same⟩ := made
  exact ⟨k, Nat.le_trans (before _) least, Nat.lt_of_lt_of_le most (after _), same⟩

/-- Names made up one after the other differ. -/
theorem Naming.MadeUp.ne {n m : Naming} {a b c : Books} (made : n.MadeUp a b)
    (made' : m.MadeUp b c) : n.unique ≠ m.unique := by
  obtain ⟨k, -, most, same⟩ := made
  obtain ⟨j, least, -, same'⟩ := made'
  intro equal
  obtain ⟨names, counts⟩ := madeUp_inj (same.symm.trans (equal.trans same'))
  rw [names] at most
  omega

namespace Records

variable {l l' : List Naming} {a b c : Books}

theorem nil (replaced : b.replaced = a.replaced) (globals : b.globals = a.globals) :
    Records [] a b := by
  constructor
  · intro name
    exact Nat.le_of_eq (congrFun replaced.symm name)
  · nofun
  · exact .nil
  · intro u
    rw [globals]
    simp

theorem append (first : Records l a b) (second : Records l' b c) : Records (l ++ l') a c := by
  constructor
  · intro name
    exact Nat.le_trans (first.counted name) (second.counted name)
  · intro n mem
    rcases List.mem_append.mp mem with mem | mem
    · exact (first.kept_or n mem).imp_right (·.mono (fun _ => Nat.le_refl _) second.counted)
    · exact (second.kept_or n mem).imp_right (·.mono first.counted fun _ => Nat.le_refl _)
  · refine List.pairwise_append.mpr ⟨first.apart, second.apart, ?_⟩
    intro n mem m mem' equal
    rcases first.kept_or n mem with kept | made
    · exact .inl kept
    · rcases second.kept_or m mem' with kept | made'
      · exact .inr kept
      · exact absurd equal (made.ne made')
  · intro u
    rw [second.globals, first.globals, or_assoc]
    refine or_congr_right ?_
    simp only [List.mem_append, or_and_right, exists_or]

end Records

/-- One declaration, listed or not. -/
theorem records_declare (s : State) (name type : String) (isLocal isListed : Bool) {b : Books}
    (replaced : b.replaced = (declare name type s).2.replaced)
    (globals : ∀ u, u ∈ b.globals ↔
      u ∈ s.globals ∨ isListed = true ∧ (declare name type s).1 = u) :
    Records [⟨name, (declare name type s).1, isLocal, isListed⟩] s.books b := by
  constructor
  · intro other
    rw [replaced]
    exact replaced_le_declare s name type other
  · intro n mem
    obtain rfl := List.mem_singleton.mp mem
    unfold Naming.MadeUp
    rw [replaced]
    dsimp only
    rw [declare_fst, replaced_declare]
    by_cases clash : s.clashes name (Ty.parse? type) = true
    · right
      exact ⟨s.replaced name, Nat.le_refl _, by simp [clash], by simp [clash]⟩
    · left
      exact if_neg clash
  · exact List.pairwise_singleton _ _
  · intro u
    rw [globals]
    simp [State.books]

theorem globals_declared (s : State) (name type : String) :
    (s.declared name type).globals =
      if s.inFunction || s.globals.contains (declare name type s).1 then s.globals
      else s.globals ++ [(declare name type s).1] := by
  refine Eq.trans (apply_ite State.globals _ _ _ : _ = ite _ _ _) ?_
  rfl

/-- Lowering lists a declaration unless it takes itself to be in a function. -/
theorem mem_globals_declared (s : State) (name type u : String) :
    u ∈ (s.declared name type).globals ↔
      u ∈ s.globals ∨ (!s.inFunction) = true ∧ (declare name type s).1 = u := by
  rw [globals_declared]
  generalize (declare name type s).1 = unique
  by_cases inside : s.inFunction = true
  · simp [inside]
  · by_cases present : unique ∈ s.globals
    · rw [if_pos (by simp [present])]
      constructor
      · exact .inl
      · rintro (mem | ⟨-, rfl⟩)
        · exact mem
        · exact present
    · simp [inside, present, eq_comm]

theorem replaced_declared (s : State) (name type : String) :
    (s.declared name type).replaced = (declare name type s).2.replaced := by
  obtain ⟨globals, same⟩ := declared_eq s name type
  rw [same]
  rfl

theorem inFunction_declared (s : State) (name type : String) :
    (s.declared name type).inFunction = s.inFunction := by
  obtain ⟨globals, same⟩ := declared_eq s name type
  rw [same]
  rfl

theorem records_paramNamings (ps : List Param) (s : State) :
    Records (paramNamings ps s) s.books (params ps s).2.books := by
  induction ps generalizing s with
  | nil => exact .nil rfl rfl
  | cons p rest ih =>
      obtain ⟨type, name⟩ := p
      cases name with
      | none => exact ih s
      | some name =>
          refine (records_declare s name.val type.val true false rfl ?_).append (ih _)
          intro u
          simp [State.books, declare]
          rfl

theorem records_declaration (isLocal : Bool) (d : Declaration) (s : State) :
    Records [⟨d.name.val, (declare d.name.val d.type.val (s.afterInit d)).1, isLocal,
      !(s.afterInit d).inFunction⟩] s.books (declaration d s).2.books := by
  have after : (declaration d s).2 = (s.afterInit d).declared d.name.val d.type.val := by
    obtain ⟨type, name, length, init⟩ := d
    cases init <;> rfl
  have before : s.books = (s.afterInit d).books := by
    obtain ⟨type, name, length, init⟩ := d
    cases init <;> rfl
  rw [after, before]
  generalize s.afterInit d = s
  exact records_declare s _ _ isLocal _ (replaced_declared s _ _) (mem_globals_declared s _ _)

/-- What is declared at a move is what it adds to the books. -/
theorem records_move {m : Move} {w w' : Walk} (step : pass m w = some w') :
    Records (Naming.ofMove m w) w.state.books w'.state.books := by
  rcases step_cases step with ⟨⟨x, single⟩, rfl, rfl⟩ | ⟨h, braces, rfl, rfl⟩ |
    ⟨h, braces, names, outside, rfl, -, -, state⟩ | ⟨between, passes⟩
  · cases x with
    | declare _ d => exact records_declaration w.inside d w.state
    | assign _ _ index => cases index <;> exact .nil rfl rfl
    | returnValue _ value => cases value <;> exact .nil rfl rfl
    | prototype | call | breakLoop | continueLoop => exact .nil rfl rfl
    | _ => contradiction
  · have records := records_paramNamings h.params (openScope w.state).2
    -- No record depends on the switch.
    exact ⟨records.counted, records.kept_or, records.apart, records.globals⟩
  · rw [state]
    exact .nil rfl rfl
  · rw [passes.state]
    cases m <;> first | exact .nil rfl rfl | contradiction

theorem records_run {ms : List Move} {w w' : Walk} (ran : pass.run ms w = some w') :
    Records (pass.noted Naming.ofMove ms w) w.state.books w'.state.books := by
  induction ms generalizing w with
  | nil =>
      cases ran
      exact .nil rfl rfl
  | cons m ms ih =>
      obtain ⟨w₁, step, later⟩ := Option.bind_eq_some_iff.mp ran
      rw [Pass.noted_cons step]
      exact (records_move step).append (ih later)

/-! ### Inside and outside of functions -/

theorem mem_paramNamings {ps : List Param} {s : State} :
    ∀ n ∈ paramNamings ps s, n.isLocal = true ∧ n.isListed = false := by
  induction ps generalizing s with
  | nil => nofun
  | cons p rest ih =>
      obtain ⟨type, name⟩ := p
      cases name with
      | none => exact ih
      | some name =>
          intro n mem
          rcases List.mem_cons.mp mem with rfl | mem
          · exact ⟨rfl, rfl⟩
          · exact ih n mem

/-- Outside of functions, lowering takes itself to be outside. -/
def Walk.Outside (w : Walk) : Prop := w.inside = false → w.state.inFunction = false

theorem inFunction_single (targets : Option Targets) {x : Stmt} (single : x.isSingle = true)
    (s : State) : (stmt targets x s).2.inFunction = s.inFunction := by
  cases x with
  | declare _ d =>
      obtain ⟨type, name, length, init⟩ := d
      cases init <;> exact inFunction_declared ..
  | assign _ _ index => cases index <;> rfl
  | returnValue _ value => cases value <;> rfl
  | prototype | call | breakLoop | continueLoop => rfl
  | _ => contradiction

theorem Walk.Outside.step {m : Move} {w w' : Walk} (step : pass m w = some w')
    (outside : w.Outside) : w'.Outside := by
  rcases step_cases step with ⟨x, rfl, rfl⟩ | ⟨h, braces, rfl, rfl⟩ |
    ⟨h, braces, names, code, rfl, -, -, state⟩ | ⟨-, passes⟩
  · exact fun isOutside => (inFunction_single _ x.2 w.state).trans (outside isOutside)
  · exact nofun
  · exact fun _ => congrArg State.inFunction state
  · unfold Walk.Outside Walk.inside at outside ⊢
    rw [passes.outsides, passes.state]
    exact outside

end BraceLang.Tac.Lower

namespace BraceLang.Stmt

mutual

/-- No function stands in the body of another one; `inside` says whether the statement is in the
body of a function. -/
def isFlat (inside : Bool) : Stmt → Bool
  | .define _ _ body => !inside && allFlat true body
  | .block _ body | .ifThen _ _ body | .whileLoop _ _ body => allFlat inside body
  | .ifElse _ _ body _ elseBody => allFlat inside body && allFlat inside elseBody
  | .forLoop init _ update _ body =>
      headerFlat inside init && allFlat inside body && headerFlat inside update
  | .declare .. | .prototype .. | .assign .. | .call .. | .breakLoop _ | .continueLoop _
  | .returnValue .. => true

def headerFlat (inside : Bool) : Option Stmt → Bool
  | none => true
  | some x => x.isFlat inside

def allFlat (inside : Bool) : List Stmt → Bool
  | [] => true
  | x :: rest => x.isFlat inside && allFlat inside rest

end

end BraceLang.Stmt

namespace BraceLang.Tac.Lower

/-! ### Functions that do not stand in one another -/

/-- Goes into functions that are outside of functions only; the state is whether it is inside of
one. -/
def flat : Pass Bool
  | .enterBody .., inside => if inside then none else some true
  | .leaveBody .., _ => some false
  | _, inside => some inside

theorem flat_movesBetween (braces : Braces) {body : List Stmt} {inside : Bool}
    (filled : flat.run (Stmt.movesIn true body) inside = some inside) :
    flat.run (Stmt.movesBetween braces (Stmt.movesIn true body)) inside = some inside :=
  Pass.run_trans ((Pass.run_cons rfl).trans filled) rfl

mutual

theorem flat_moves : (x : Stmt) → ∀ {inside : Bool}, x.isFlat inside = true →
    flat.run (x.moves true) inside = some inside
  | .define _ _ body, inside, isFlat => by
      obtain ⟨outside, isFlat⟩ := Bool.and_eq_true_iff.mp isFlat
      obtain rfl : inside = false := by simpa using outside
      exact Pass.run_trans ((Pass.run_cons rfl).trans (flat_movesIn body isFlat)) rfl
  | .block braces body, _, isFlat => flat_movesBetween braces (flat_movesIn body isFlat)
  | .ifThen _ braces body, _, isFlat | .whileLoop _ braces body, _, isFlat => by
      have filled := flat_movesBetween braces (flat_movesIn body isFlat)
      exact Pass.run_trans ((Pass.run_cons rfl).trans filled) rfl
  | .ifElse _ braces body elseBraces elseBody, _, isFlat => by
      obtain ⟨isFlat, isFlat'⟩ := Bool.and_eq_true_iff.mp isFlat
      have held := flat_movesBetween braces (flat_movesIn body isFlat)
      have failed := flat_movesBetween elseBraces (flat_movesIn elseBody isFlat')
      exact Pass.run_trans (Pass.run_trans ((Pass.run_cons rfl).trans held)
        ((Pass.run_cons rfl).trans failed)) rfl
  | .forLoop init _ update braces body, _, isFlat => by
      obtain ⟨isFlat, isFlat''⟩ := Bool.and_eq_true_iff.mp isFlat
      obtain ⟨isFlat, isFlat'⟩ := Bool.and_eq_true_iff.mp isFlat
      have started := flat_movesBy init isFlat
      have filled := flat_movesBetween braces (flat_movesIn body isFlat')
      have updated := flat_movesBy update isFlat''
      exact Pass.run_trans (Pass.run_trans (Pass.run_trans ((Pass.run_cons rfl).trans started)
        ((Pass.run_cons rfl).trans filled)) ((Pass.run_cons rfl).trans updated)) rfl
  | .declare .., _, _ | .prototype .., _, _ | .assign .., _, _ | .call .., _, _
  | .breakLoop _, _, _ | .continueLoop _, _, _ | .returnValue .., _, _ => rfl

theorem flat_movesBy : (part : Option Stmt) → ∀ {inside : Bool},
    Stmt.headerFlat inside part = true → flat.run (Stmt.movesBy true part) inside = some inside
  | none, _, _ => rfl
  | some x, _, isFlat => flat_moves x isFlat

theorem flat_movesIn : (body : List Stmt) → ∀ {inside : Bool},
    Stmt.allFlat inside body = true → flat.run (Stmt.movesIn true body) inside = some inside
  | [], _, _ => rfl
  | x :: rest, _, isFlat => by
      obtain ⟨isFlat, isFlat'⟩ := Bool.and_eq_true_iff.mp isFlat
      exact Pass.run_trans ((Pass.run_cons rfl).trans (flat_moves x isFlat))
        (flat_movesIn rest isFlat')

end

/-- Lowering takes itself to be where it is, and is in one function at most. -/
structure Walk.Settled (w : Walk) (inside : Bool) : Prop where
  switch : w.state.inFunction = inside
  depth : w.outsides.length = inside.toNat

theorem Walk.Settled.step {m : Move} {w w' : Walk} {inside inside' : Bool}
    (settled : w.Settled inside) (goes : flat m inside = some inside')
    (step : pass m w = some w') : w'.Settled inside' := by
  rcases step_cases step with ⟨x, rfl, rfl⟩ | ⟨h, braces, rfl, rfl⟩ |
    ⟨h, braces, names, code, rfl, around, -, state⟩ | ⟨between, passes⟩
  · cases goes
    exact ⟨(inFunction_single _ x.2 w.state).trans settled.switch, settled.depth⟩
  · cases inside with
    | true => contradiction
    | false =>
        cases goes
        exact ⟨rfl, congrArg (· + 1) settled.depth⟩
  · cases goes
    refine ⟨congrArg State.inFunction state, ?_⟩
    have depth := settled.depth
    have more : w.outsides.length = w'.outsides.length + 1 := by
      rw [Walk.outsides, around]
      rfl
    have most := Bool.toNat_le inside
    simp only [Bool.toNat_false]
    omega
  · have same : inside' = inside := by
      cases m <;> first | exact (Option.some_inj.mp goes).symm | contradiction
    subst same
    refine ⟨?_, passes.outsides ▸ settled.depth⟩
    rw [passes.state]
    exact settled.switch

/-- Throughout a program without functions in functions, lowering takes itself to be where it is. -/
theorem settled_trace {ms : List Move} {w : Walk} {inside last : Bool}
    (goes : flat.run ms inside = some last) (settled : w.Settled inside) :
    ∀ t ∈ pass.trace ms w, ∃ inside, t.state.Settled inside := by
  induction ms generalizing w inside with
  | nil => exact List.forall_mem_nil _
  | cons m ms ih =>
      obtain ⟨inside', goes, later⟩ := Option.bind_eq_some_iff.mp goes
      rw [Pass.trace]
      refine List.forall_mem_cons.mpr ⟨⟨inside, settled⟩, ?_⟩
      cases step : pass m w with
      | none => exact List.forall_mem_nil _
      | some w' => exact ih later (settled.step goes step)

/-- A parameter is local and not listed, and with any other variable it depends on the place. -/
theorem of_mem_ofMove {m : Move} {w : Walk} {n : Naming} (mem : n ∈ Naming.ofMove m w) :
    n.isLocal = true ∧ n.isListed = false ∨
      n.isLocal = w.inside ∧ n.isListed = !w.state.inFunction := by
  unfold Naming.ofMove at mem
  split at mem
  · rename_i d _
    obtain rfl := List.mem_singleton.mp mem
    have same : (w.state.afterInit d).inFunction = w.state.inFunction := by
      obtain ⟨type, name, length, init⟩ := d
      cases init <;> rfl
    exact .inr ⟨rfl, congrArg (!·) same⟩
  · exact .inl (mem_paramNamings n mem)
  · contradiction

/-- What is not local is listed. -/
theorem Walk.Outside.listed {m : Move} {w : Walk} (outside : w.Outside) :
    ∀ n ∈ Naming.ofMove m w, n.isLocal = false → n.isListed = true := by
  intro n mem notLocal
  rcases of_mem_ofMove mem with ⟨isLocal, -⟩ | ⟨isLocal, isListed⟩
  · rw [isLocal] at notLocal
    contradiction
  · rw [isListed, outside (isLocal.symm.trans notLocal)]
    rfl

/-- What is listed is not local. -/
theorem Walk.Settled.global {m : Move} {w : Walk} {inside : Bool} (settled : w.Settled inside) :
    ∀ n ∈ Naming.ofMove m w, n.isListed = true → n.isLocal = false := by
  intro n mem listed
  rcases of_mem_ofMove mem with ⟨-, isListed⟩ | ⟨isLocal, isListed⟩
  · rw [isListed] at listed
    contradiction
  · rw [isListed, settled.switch] at listed
    obtain rfl : inside = false := by simpa using listed
    have none : w.outsides = [] := List.length_eq_zero_iff.mp settled.depth
    rw [isLocal, Walk.inside, none]
    rfl

end BraceLang.Tac.Lower

namespace BraceLang

open Tac.Lower (Naming)

/-- All variables of a program with their names in the code. -/
def Program.namings (p : Program) : List Naming :=
  p.lowering.flatMap fun t => Naming.ofMove t.move t.state

/-- No function of the program stands in the body of another one. -/
def Program.isFlat (p : Program) : Bool := Stmt.allFlat false p.stmts

namespace Tac

open Lower (Naming Walk)

/-- Every variable of the tree has its naming. -/
theorem names_namings (p : Program) :
    (p.namings.map Naming.name).Perm (Stmt.declaredIn p.stmts) := by
  have read := Pass.map_noted (run_lowering p) Lower.names_ofMove
  exact read ▸ Stmt.declared_movesIn p.stmts

theorem records_program (p : Program) :
    Lower.Records p.namings ⟨fun _ => 0, [], false⟩ (Walk.last p).state.books :=
  Lower.records_run (run_lowering p)

theorem mem_globals_iff (p : Program) (u : String) :
    u ∈ p.lower.1.globals ↔ ∃ n ∈ p.namings, n.isListed = true ∧ n.unique = u := by
  refine ((records_program p).globals u).trans ?_
  simp

/-- Two variables share a name in the code only if both kept theirs. -/
theorem kept_of_shared {p : Program} (dotless : ∀ x ∈ Stmt.declaredIn p.stmts, '.' ∉ x.toList)
    {n m : Naming} (mem : n ∈ p.namings) (mem' : m ∈ p.namings) (differ : n ≠ m)
    (shared : n.unique = m.unique) : n.unique = n.name ∧ m.unique = m.name := by
  have records := records_program p
  -- A name without a point is not a made-up one.
  have kept_of : ∀ a ∈ p.namings, ∀ b ∈ p.namings, a.unique = b.unique → a.unique = a.name →
      b.unique = b.name := by
    intro a mem b mem' same kept
    rcases records.kept_or b mem' with kept' | ⟨k, -, -, made⟩
    · exact kept'
    · have declared : a.name ∈ Stmt.declaredIn p.stmts :=
        (names_namings p).subset (List.mem_map_of_mem mem)
      refine absurd ?_ (dotless _ declared)
      rw [← kept, same, made, toList_madeUp]
      simp
  rcases records.apart.forall mem mem' differ shared with kept | kept
  · exact ⟨kept, kept_of n mem m mem' shared kept⟩
  · exact ⟨kept_of m mem' n mem shared.symm kept, kept⟩

/-- Which variables have their names in the list of globals, in a program whose declared names
have no point in them. -/
theorem globals_exact (p : Program) (dotless : ∀ x ∈ Stmt.declaredIn p.stmts, '.' ∉ x.toList) :
    (p.namings.map Naming.name).Perm (Stmt.declaredIn p.stmts) ∧
      (∀ n ∈ p.namings, n.isLocal = false → n.unique ∈ p.lower.1.globals) ∧
      (∀ n ∈ p.namings, n.isLocal = true →
        (n.unique ∈ p.lower.1.globals ↔ n.isListed = true ∨
          n.unique = n.name ∧ ∃ m ∈ p.namings, m.isListed = true ∧ m.name = n.name ∧
            m.unique = m.name)) ∧
      (p.isFlat = true → ∀ n ∈ p.namings, n.isListed = true ↔ n.isLocal = false) := by
  have listed : ∀ n ∈ p.namings, n.isLocal = false → n.isListed = true := by
    intro n mem
    obtain ⟨t, at_t, mem⟩ := List.mem_flatMap.mp mem
    have start : Walk.start.Outside := fun _ => rfl
    exact (Pass.trace_keeps (fun _ _ _ => Walk.Outside.step) start t at_t).listed n mem
  refine ⟨names_namings p, ?_, ?_, ?_⟩
  · intro n mem notLocal
    exact (mem_globals_iff p n.unique).mpr ⟨n, mem, listed n mem notLocal, rfl⟩
  · intro n mem _
    rw [mem_globals_iff]
    constructor
    · rintro ⟨m, mem', listed, same⟩
      by_cases equal : n = m
      · exact .inl (equal ▸ listed)
      · obtain ⟨kept, kept'⟩ := kept_of_shared dotless mem mem' equal same.symm
        exact .inr ⟨kept, m, mem', listed, kept'.symm.trans (same.trans kept), kept'⟩
    · rintro (listed | ⟨kept, m, mem', listed, name, kept'⟩)
      · exact ⟨n, mem, listed, rfl⟩
      · exact ⟨m, mem', listed, kept'.trans (name.trans kept.symm)⟩
  · intro isFlat n mem
    refine ⟨?_, listed n mem⟩
    obtain ⟨t, at_t, mem⟩ := List.mem_flatMap.mp mem
    obtain ⟨inside, settled⟩ :=
      Lower.settled_trace (Lower.flat_movesIn p.stmts isFlat) ⟨rfl, rfl⟩ t at_t
    exact settled.global n mem

/-- A function with a parameter and two variables `x`, and behind it a variable `x` outside of
functions. -/
def lateGlobal : Program where
  stmts :=
    [.define ⟨⟨"int", {}⟩, ⟨"f", {}⟩, [⟨⟨"int", {}⟩, some ⟨"n", {}⟩⟩]⟩ {}
        [.declare {} ⟨⟨"int", {}⟩, ⟨"x", {}⟩, none, some (.var {} "n")⟩,
          .block {} [.declare {} ⟨⟨"int", {}⟩, ⟨"x", {}⟩, none, some (.var {} "x")⟩],
          .returnValue {} (some (.var {} "x"))],
      .declare {} ⟨⟨"int", {}⟩, ⟨"x", {}⟩, none, some (.literal {} (.number "5"))⟩]

theorem lateGlobal_exact :
    (∀ x ∈ Stmt.declaredIn lateGlobal.stmts, '.' ∉ x.toList) ∧ lateGlobal.isFlat = true ∧
      (⟨"x", "x", true, false⟩ ∈ lateGlobal.namings ∧ "x" ∈ lateGlobal.lower.1.globals) ∧
      (⟨"x", "x.1", true, false⟩ ∈ lateGlobal.namings ∧ "x.1" ∉ lateGlobal.lower.1.globals) := by
  have dotless : ∀ x ∈ Stmt.declaredIn lateGlobal.stmts, '.' ∉ x.toList := by decide
  have isFlat : lateGlobal.isFlat = true := by decide
  have kept : ⟨"x", "x", true, false⟩ ∈ lateGlobal.namings := by decide +kernel
  have replaced : ⟨"x", "x.1", true, false⟩ ∈ lateGlobal.namings := by decide +kernel
  have outside : ⟨"x", "x", false, true⟩ ∈ lateGlobal.namings := by decide +kernel
  obtain ⟨-, -, inside, -⟩ := globals_exact lateGlobal dotless
  refine ⟨dotless, isFlat, ⟨kept, ?_⟩, replaced, ?_⟩
  · exact (inside _ kept rfl).mpr (.inr ⟨rfl, _, outside, rfl, rfl, rfl⟩)
  · rw [inside _ replaced rfl]
    rintro (listed | ⟨same, -⟩)
    · exact absurd listed (by decide)
    · exact absurd same (by decide)

/-- A function with another one in its body, and behind that a local variable. -/
def nestedFunction : Program where
  stmts :=
    [.define ⟨⟨"int", {}⟩, ⟨"f", {}⟩, []⟩ {}
        [.define ⟨⟨"int", {}⟩, ⟨"g", {}⟩, []⟩ {}
            [.returnValue {} (some (.literal {} (.number "1")))],
          .declare {} ⟨⟨"int", {}⟩, ⟨"y", {}⟩, none, some (.literal {} (.number "2"))⟩,
          .returnValue {} (some (.var {} "y"))]]

/-- The program is accepted and declares no name with a point in it, and yet the name of a local
variable is listed. -/
def ListsLocal (p : Program) : Prop :=
  p.check.diagnostics.hasErrors = false ∧ (∀ x ∈ Stmt.declaredIn p.stmts, '.' ∉ x.toList) ∧
    ∃ n ∈ p.namings, n.isLocal = true ∧ n.unique ∈ p.lower.1.globals

/-- A local variable may have the name of a global one, or be listed itself. -/
theorem local_listed : ListsLocal lateGlobal ∧ ListsLocal nestedFunction := by
  unfold ListsLocal
  decide +kernel

end Tac

end BraceLang
