import BraceLang.Proofs.Assembly.Discipline
import BraceLang.Proofs.Assembly.References

/-!
The units of a program, one after the other. Jump targets, constants, reservations and external
functions are shared by all units, and are taken and recorded while the units are made.

**Main result.** `made_listing`: the jumps of each unit stay in it, the numbered labels of all
units differ, and what the units refer to has been recorded when the last of them is made.
-/

namespace BraceLang.Assembly

variable {iface : Interface} {s s' s₁ : State} {lines : List Line} {ls : List Lexeme}

/-! ### Jumps -/

/-- The lines have no labels in them and do not jump. -/
def Straight (lines : List Line) : Prop :=
  lines.all (fun x => x.instr?.any (·.target?.isNone)) = true

theorem Straight.append {first second : List Line} (one : Straight first)
    (other : Straight second) : Straight (first ++ second) := by
  rw [Straight, List.all_append, one, other]
  rfl

theorem Straight.placed (straight : Straight lines) : placed lines = [] := by
  rw [Assembly.placed, List.filterMap_eq_nil_iff]
  intro x mem
  have here := List.all_eq_true.mp straight x mem
  cases x with
  | label t => contradiction
  | instr i => rfl

theorem Straight.stays (straight : Straight lines) : ∀ x ∈ lines, x.target? = none := by
  intro x mem
  have here := List.all_eq_true.mp straight x mem
  cases x with
  | label t => contradiction
  | instr i => exact Option.isNone_iff_eq_none.mp here

theorem map_fst_jumpsAt (base k : Stacks) (lines : List Line) :
    (jumpsAt iface base k lines).map Prod.fst = lines.filterMap Line.target? := by
  induction lines generalizing k with
  | nil => rfl
  | cons x rest ih =>
      change ((x.target?.map (·, k.afterLine iface x)).toList ++ jumpsAt iface base _ rest).map
        Prod.fst = _
      rw [List.map_append, ih, List.filterMap_cons]
      cases x.target? <;> rfl

/-- The statements of a unit jump to their own labels, or to the end of the unit. -/
theorem Outline.jumps {part : Part} {pieces : List Piece}
    (outline : Outline iface none part s pieces s') : ∀ x ∈ linesOf pieces, ∀ t,
      x.target? = some t → t ∈ placed (linesOf pieces) ∨ t = .exit := by
  intro x mem t target
  have met : t ∈ (jumpsAt iface .entry .entry (linesOf pieces)).map Prod.fst := by
    rw [map_fst_jumpsAt]
    exact List.mem_filterMap.mpr ⟨x, mem, target⟩
  obtain ⟨⟨_, k⟩, mem', rfl⟩ := List.mem_map.mp met
  rcases (outline.steady .entry rfl).jumps _ mem' with here | exits | ⟨_, known, -⟩
  · have labels : (labelsAt iface .entry .entry (linesOf pieces)).map Prod.fst =
      placed (linesOf pieces) := map_fst_labelsAt .entry _
    exact .inl (labels ▸ List.mem_map_of_mem here)
  · exact .inr (congrArg Prod.fst exits)
  · contradiction

/-! ### A unit -/

/-- The lines are a whole unit, with one end. Its jumps stay in it, and it has the numbered labels
that were taken for it. -/
structure MakesUnit (iface : Interface) (s : State) (lines : List Line) (ls : List Lexeme)
    (s' : State) : Prop where
  makes : Makes iface s lines ls s'
  le : s.labels ≤ s'.labels
  numbered : ∀ n, (placed lines).count (.numbered n) =
    (Target.numbered n).within s.labels s'.labels
  exit : (placed lines).count .exit = 1
  jumps : ∀ x ∈ lines, ∀ t, x.target? = some t → t ∈ placed lines

/-- Statements make a unit with one end behind them. -/
theorem Outline.makesUnit {part : Part} {pieces : List Piece} {t t' : State}
    {before last after : List Line} (outline : Outline iface none part s pieces s')
    (makes : Makes iface t (before ++ linesOf pieces ++ (last ++ .label .exit :: after)) ls t')
    (first : t.labels = s.labels) (labels : t'.labels = s'.labels) (enters : Straight before)
    (finishes : Straight last) (ends : Straight after) :
    MakesUnit iface t (before ++ linesOf pieces ++ (last ++ .label .exit :: after)) ls t' := by
  have places := outline.places
  have all : placed (before ++ linesOf pieces ++ (last ++ .label .exit :: after)) =
      placed (linesOf pieces) ++ [.exit] := by
    simp [enters.placed, finishes.placed, ends.placed]
  refine ⟨makes, first ▸ labels ▸ places.le, ?_, ?_, ?_⟩
  · intro n
    rw [all, List.count_append, places.count, first, labels]
    rfl
  · rw [all, List.count_append, places.count]
    rfl
  · intro x mem t target
    rw [all, List.mem_append, List.mem_singleton]
    simp only [List.mem_append, List.mem_cons] at mem
    rcases mem with (mem | mem) | mem | rfl | mem
    · rw [enters.stays x mem] at target
      contradiction
    · exact outline.jumps x mem t target
    · rw [finishes.stays x mem] at target
      contradiction
    · contradiction
    · rw [ends.stays x mem] at target
      contradiction

theorem straight_prologue (size : Nat) : Straight (code (prologue size)) := by
  unfold prologue
  split <;> rfl

theorem straight_defaultValue (t : Ty) : Straight (code (defaultValue t)) := by cases t <;> rfl

theorem Grounded.declareParams (params : List Param) {offset : Nat} (grounded : Grounded s) :
    Grounded (declareParams offset params s).2 := by
  induction params generalizing offset s with
  | nil => exact grounded
  | cons p rest ih =>
      rw [declareParams_cons]
      refine ih ?_
      cases p.name with
      | none => exact grounded
      | some name => exact grounded.declareSlot name.val nofun

theorem declareParams_records (params : List Param) (offset : Nat) (s : State) :
    (declareParams offset params s).2.SameRecords s ∧
      (declareParams offset params s).2.labels = s.labels := by
  induction params generalizing offset s with
  | nil => exact ⟨⟨rfl, rfl, rfl⟩, rfl⟩
  | cons p rest ih =>
      rw [declareParams_cons]
      cases p.name with
      | none => exact ih _ s
      | some name =>
          obtain ⟨⟨constants, reservations, externals⟩, labels⟩ :=
            ih (offset + argumentBytes (typeOf p.type.val))
              (declareSlot name.val ⟨typeOf p.type.val, .frame offset⟩ s).2
          exact ⟨⟨constants, reservations, externals⟩, labels⟩

/-- Nothing is recorded, and no jump target is taken, in front of the body of a function. -/
theorem enterRoutine_records (h : Heading) (s : State) :
    (enterRoutine h s).2.SameRecords s ∧ (enterRoutine h s).2.labels = s.labels := by
  obtain ⟨⟨constants, reservations, externals⟩, labels⟩ := declareParams_records h.params
    firstArgument (openScope { s with frame := some { result := typeOf h.result.val } }).2
  exact ⟨⟨constants, reservations, externals⟩, labels⟩

/-- A function makes a unit with the lexemes of its body. -/
theorem makes_routine {h : Heading} {body : List Stmt} {r : Routine} (grounded : Grounded s)
    (done : Done (routine iface h body) s r s') :
    ∃ ls, Emits (.all body) ls ∧ MakesUnit iface s r.lines ls s' ∧ Grounded s' := by
  obtain ⟨size, inner, filled, event, inside, rfl, rfl⟩ := done_routine_made done
  have opened : Grounded (enterRoutine h s).2 :=
    Grounded.declareParams h.params (Grounded.openScope ⟨grounded.slots, grounded.labels⟩)
  have records := enterRoutine_records h s
  obtain ⟨ls, emits, makes, grounded'⟩ := inside.makes opened
  have closed := grounded'.closeScope
  refine ⟨ls, emits, ?_, closed.slots, closed.labels⟩
  have within : Makes iface s (linesOf inner) ls filled := makes.congr records.1 ⟨rfl, rfl, rfl⟩
  have whole := ((Makes.silent (silent_prologue size)).append within).append_silent
    ((silent_defaultValue (typeOf h.result.val)).append silent_epilogue)
  dsimp only
  rw [List.append_assoc _ _ epilogue]
  exact inside.makesUnit (whole.congr ⟨rfl, rfl, rfl⟩ ⟨rfl, rfl, rfl⟩) records.2.symm rfl
    (straight_prologue size) (straight_defaultValue _) rfl

/-- The lexemes that the top-level code is made with after its statements. -/
def finishLexemes (iface : Interface) : List Lexeme :=
  if iface.defined.contains "main" then [.called "main"] else []

/-- What follows the statements of the top-level code. -/
theorem finish_makes (iface : Interface) (s : State) :
    ∃ last, Straight last ∧ (finish iface s).1 =
        last ++ .label .exit :: code [.movReg .ebx .eax, .movNat .eax 1, .trap] ∧
      Makes iface s (finish iface s).1 (finishLexemes iface) (finish iface s).2 ∧
      (finish iface s).2.labels = s.labels := by
  unfold finish finishLexemes
  have ends : Silent (.label .exit :: code [.movReg .ebx .eax, .movNat .eax 1, .trap]) := rfl
  split
  · have args : Makes iface (callee iface "main" s).2 [] [] _ := .silent rfl
    have called : Makes iface s (code (callCode "main" 0)) [.called "main"]
        (callee iface "main" s).2 := makes_called args 0
    have is : call iface "main" [] s = ((code (callCode "main" 0),
        Convention.domain? (iface.conventions.get? "main")), (callee iface "main" s).2) := by
      rw [call_eq, exprArgs_nil]
      rfl
    generalize Convention.domain? (iface.conventions.get? "main") = d? at is
    have converted : Silent (code (if d? = some .float then toInt else [])) := by split <;> rfl
    change ∃ last, Straight last ∧
      (call iface "main" [] s).1.1 ++ code (if (call iface "main" [] s).1.2 = some .float then
        toInt else []) ++ _ = _ ∧
      Makes iface s ((call iface "main" [] s).1.1 ++ code (if (call iface "main" [] s).1.2 =
        some .float then toInt else []) ++ _) _ (call iface "main" [] s).2 ∧
      (call iface "main" [] s).2.labels = _
    rw [is]
    refine ⟨code (callCode "main" 0) ++ code (if d? = some .float then toInt else []), ?_, rfl,
      (called.append_silent converted).append_silent ends, labels_callee "main" s⟩
    split <;> rfl
  · have returned : Silent (code [.movNat .eax 0]) := rfl
    exact ⟨code [.movNat .eax 0], rfl, rfl, .silent (returned.append ends), rfl⟩

/-! ### All units -/

/-- The units are made one after the other. -/
inductive MakesUnits (iface : Interface) :
    State → List (List Line) → List (List Lexeme) → State → Prop
  | nil {a} : MakesUnits iface a [] [] a
  | cons {a b c u us x xs} (one : MakesUnit iface a u x b) (others : MakesUnits iface b us xs c) :
      MakesUnits iface a (u :: us) (x :: xs) c

namespace MakesUnits

variable {units : List (List Line)} {lss : List (List Lexeme)}

theorem makes (made : MakesUnits iface s units lss s') :
    Makes iface s units.flatten lss.flatten s' := by
  induction made with
  | nil => exact .silent rfl
  | cons one _ ih => exact one.makes.append ih

theorem numbered (made : MakesUnits iface s units lss s') : s.labels ≤ s'.labels ∧
    ∀ n, (placed units.flatten).count (.numbered n) =
      (Target.numbered n).within s.labels s'.labels := by
  induction made with
  | nil => exact ⟨Nat.le_refl _, fun n => (Target.within_self _ _).symm⟩
  | cons one _ ih =>
      refine ⟨Nat.le_trans one.le ih.1, fun n => ?_⟩
      rw [List.flatten_cons, placed_append, List.count_append, one.numbered, ih.2,
        Target.within_add one.le ih.1]

theorem inside (made : MakesUnits iface s units lss s') : ∀ u ∈ units,
    (placed u).count .exit = 1 ∧ ∀ x ∈ u, ∀ t, x.target? = some t → t ∈ placed u := by
  induction made with
  | nil => exact nofun
  | cons one _ ih => exact List.forall_mem_cons.mpr ⟨⟨one.exit, one.jumps⟩, ih⟩

theorem loads (made : MakesUnits iface s units lss s') : List.Forall₂
    (fun u ls => List.Forall₂ (Holds s'.constants) ((addresses u).filter isConstant)
      (ls.filterMap Lexeme.float?)) units lss := by
  induction made with
  | nil => exact .nil
  | cons one others ih =>
      exact .cons (one.makes.loads.imp fun _ _ holds => holds.mono others.makes.constants) ih

end MakesUnits

/-- Code of functions is made in their order. -/
theorem makes_routines (body : List Stmt) {rs : List Routine} (grounded : Grounded s)
    (done : Done (routines iface body) s rs s') :
    ∃ lss, List.Forall₂ (fun d ls => Emits (.all d.2) ls) (definitions body) lss ∧
      MakesUnits iface s (rs.map Routine.lines) lss s' ∧ Grounded s' := by
  induction body generalizing s rs with
  | nil =>
      rw [routines] at done
      obtain ⟨rfl, rfl⟩ := done_pure done
      exact ⟨[], .nil, .nil, grounded⟩
  | cons x rest ih =>
      obtain ⟨h, _, body, r, _, _, rfl, made, made', rfl⟩ | ⟨other, skips⟩ :=
        done_routines_cons done
      · obtain ⟨ls, emits, unit, grounded'⟩ := makes_routine grounded made
        obtain ⟨lss, emits', units, grounded''⟩ := ih grounded' made'
        exact ⟨ls :: lss, .cons emits emits', .cons unit units, grounded''⟩
      · rw [definitions]
        · exact ih grounded skips
        · exact other

/-- The functions that an interface knows to be defined are those defined at top level. -/
theorem defined_ofProgram (p : Program) :
    (Interface.ofProgram p).defined = (definitions p.stmts).map (·.1.name.val) := by
  have added (body : List Stmt) (i : Interface) : (body.foldl Interface.addStmt i).defined =
      i.defined ++ (definitions body).map (·.1.name.val) := by
    induction body generalizing i with
    | nil => exact (List.append_nil _).symm
    | cons x rest ih =>
        rw [List.foldl_cons, ih]
        cases x with
        | define h braces body => exact List.append_assoc ..
        | _ => rfl
  exact added p.stmts {}

namespace Listing

/-- The code of all units, `_start` first. -/
def units (l : Listing) : List (List Line) := l.start :: l.routines.map Routine.lines

end Listing

/-- The statements of all units, those at top level first. -/
def bodies (p : Program) : List (List Stmt) := p.stmts :: (definitions p.stmts).map (·.2)

/-- The unit is made with the lexemes of its statements. The top-level code may call `main`. -/
def EmitsUnit (body : List Stmt) (ls : List Lexeme) : Prop :=
  ∃ inner, Emits (.all body) inner ∧ (ls = inner ∨ ls = inner ++ [.called "main"])

/-- How the units of a program are made, and what of it is in the assembly. -/
theorem made_listing {p : Program} {l : Listing} (assembled : p.assemble.1 = .ok l) :
    ∃ s lss, MakesUnits (.ofProgram p) (openScope {}).2 l.units lss s ∧ Grounded s ∧
      List.Forall₂ EmitsUnit (bodies p) lss ∧ l.externals = s.externals.mergeSort (· ≤ ·) ∧
      l.constants = s.constants ∧ l.reservations = s.reservations := by
  obtain ⟨inner, s, s', inside, routed, start, externals, constants, reservations⟩ :=
    done_listing_made assembled
  have opened : Grounded (openScope {}).2 := Grounded.openScope ⟨nofun, nofun⟩
  obtain ⟨ls, emits, makes, grounded⟩ := inside.makes opened
  obtain ⟨last, straight, is, finishes, labels⟩ := finish_makes (.ofProgram p) s
  have grows : s.Grows (finish (.ofProgram p) s).2 := growing_finish s
  have grounded' := grounded.grow grows
  obtain ⟨lss, emits', units, grounded''⟩ := makes_routines p.stmts grounded' routed
  have unit : MakesUnit (.ofProgram p) (openScope {}).2 l.start
      (ls ++ finishLexemes (.ofProgram p)) (finish (.ofProgram p) s).2 := by
    have whole := makes.append finishes
    rw [start]
    rw [is] at whole ⊢
    have enters : Straight [] := rfl
    exact inside.makesUnit whole rfl labels enters straight rfl
  refine ⟨s', (ls ++ finishLexemes (.ofProgram p)) :: lss, .cons unit units, grounded'', ?_,
    externals, constants, reservations⟩
  refine .cons ⟨ls, emits, ?_⟩ ?_
  · unfold finishLexemes
    split
    · exact .inr rfl
    · exact .inl (List.append_nil ls)
  · rw [List.forall₂_map_left_iff]
    exact emits'.imp fun d ls emits => ⟨ls, emits, .inl rfl⟩

/-- Code is made for the functions that are defined at top level, in their order. -/
theorem names_routines {p : Program} {l : Listing} (assembled : p.assemble.1 = .ok l) :
    l.routines.map Routine.name = (definitions p.stmts).map (·.1.name.val) := by
  have routed := (outline_listing assembled).2
  rw [← List.forall₂_eq_eq_eq, List.forall₂_map_left_iff, List.forall₂_map_right_iff]
  exact (routed.imp fun _ _ made => made.1).flip

/-- A called function is external exactly if it is not defined at top level. -/
theorem mem_externals_iff {p : Program} {l : Listing} (assembled : p.assemble.1 = .ok l)
    (f : String) : f ∈ l.externals ↔
      f ∈ callees l.units.flatten ∧ ∀ d ∈ definitions p.stmts, d.1.name.val ≠ f := by
  obtain ⟨s, lss, made, -, -, externals, -⟩ := made_listing assembled
  have nothing : (openScope {}).2.externals = [] := rfl
  rw [externals, List.mem_mergeSort, made.makes.externals, defined_ofProgram, nothing]
  simp

end BraceLang.Assembly
