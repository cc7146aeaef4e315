import BraceLang.Proofs.Assembly.Closure
import BraceLang.Proofs.Tac.Units
import BraceLang.Proofs.Trees

/-!
Which functions get code. A function may be defined wherever a statement may stand, also in the
body of another function. Three-address code has a marker for each of them. Assembly code is made
for the functions that are defined at top level only, and a function that is defined deeper and
called is external.

**Main result.** `functions_emitted_iff`: both kinds of code have the same functions exactly if no
function is defined inside of a statement.
-/

namespace BraceLang

open Assembly (definitions definitions_cons Listing Routine)

namespace Stmt

/-- A function that is defined by the statement is so at the top of it. -/
def definesAtTop : Stmt → Bool
  | .define _ _ body => allDefinitionFree body
  | x => x.isDefinitionFree

mutual

theorem functions_eq_nil_iff : (x : Stmt) → (x.functions = [] ↔ x.isDefinitionFree = true)
  | .define .. => by simp [functions, isDefinitionFree]
  | .block _ body | .ifThen _ _ body | .whileLoop _ _ body => functionsIn_eq_nil_iff body
  | .ifElse _ _ body _ elseBody => by
      rw [functions, List.append_eq_nil_iff, functionsIn_eq_nil_iff body,
        functionsIn_eq_nil_iff elseBody, isDefinitionFree, Bool.and_eq_true]
  | .forLoop init _ update _ body => by
      rw [functions, List.append_eq_nil_iff, List.append_eq_nil_iff, functionsBy_eq_nil_iff init,
        functionsBy_eq_nil_iff update, functionsIn_eq_nil_iff body, isDefinitionFree,
        Bool.and_eq_true, Bool.and_eq_true, and_assoc,
        and_comm (a := allDefinitionFree body = true)]
  | .declare .. | .prototype .. | .assign .. | .call .. | .breakLoop _ | .continueLoop _
  | .returnValue .. => ⟨fun _ => rfl, fun _ => rfl⟩

theorem functionsBy_eq_nil_iff :
    (part : Option Stmt) → (functionsBy part = [] ↔ headerDefinitionFree part = true)
  | none => ⟨fun _ => rfl, fun _ => rfl⟩
  | some x => functions_eq_nil_iff x

theorem functionsIn_eq_nil_iff :
    (body : List Stmt) → (functionsIn body = [] ↔ allDefinitionFree body = true)
  | [] => ⟨fun _ => rfl, fun _ => rfl⟩
  | x :: rest => by
      rw [functionsIn, List.append_eq_nil_iff, functions_eq_nil_iff x,
        functionsIn_eq_nil_iff rest, allDefinitionFree, Bool.and_eq_true]

end

/-- What is defined at the top of a statement is among all that it defines, and it is all of it
exactly if nothing is defined deeper. -/
theorem definitions_sublist (x : Stmt) : (definitions [x]).Sublist x.functions ∧
    (x.functions.length = (definitions [x]).length ↔ x.definesAtTop = true) := by
  have deeper (free : definitions [x] = []) : (definitions [x]).Sublist x.functions ∧
      (x.functions.length = (definitions [x]).length ↔ x.isDefinitionFree = true) := by
    rw [free, ← functions_eq_nil_iff, List.length_nil, List.length_eq_zero_iff]
    exact ⟨List.nil_sublist _, Iff.rfl⟩
  cases x with
  | define h braces body =>
      refine ⟨List.sublist_append_right (functionsIn body) [(h, body)], ?_⟩
      rw [definesAtTop, ← functionsIn_eq_nil_iff, ← List.length_eq_zero_iff]
      simp [functions, definitions]
  | _ => exact deeper rfl

end Stmt

/-- Functions are defined at top level only. -/
def Program.definesAtTop (p : Program) : Bool := p.stmts.all Stmt.definesAtTop

/-- The same for statements one after the other. -/
theorem definitions_sublist_functionsIn (body : List Stmt) :
    (definitions body).Sublist (Stmt.functionsIn body) ∧
      ((Stmt.functionsIn body).length = (definitions body).length ↔
        body.all Stmt.definesAtTop = true) := by
  induction body with
  | nil => exact ⟨List.Sublist.refl [], by simp [Stmt.functionsIn, definitions]⟩
  | cons x rest ih =>
      obtain ⟨first, alone⟩ := x.definitions_sublist
      obtain ⟨others, all⟩ := ih
      rw [definitions_cons, Stmt.functionsIn, List.all_cons, Bool.and_eq_true, ← alone, ← all,
        List.length_append, List.length_append]
      have le := first.length_le
      have le' := others.length_le
      exact ⟨first.append others, by omega⟩

namespace Tac

/-- The name of the function that starts here. -/
def Instr.marker? : Instr → Option String
  | function name _ => some name
  | _ => none

theorem marker?_of_unmarked {code : List Instr} (unmarked : ∀ i ∈ code, i.isMarker = false) :
    code.filterMap Instr.marker? = [] := by
  rw [List.filterMap_eq_nil_iff]
  intro i mem
  have here := unmarked i mem
  cases i <;> first | rfl | contradiction

theorem markers_functions {fs : List (Heading × List Stmt)} {us : List (List Instr)}
    (functions : List.Forall₂ IsCodeOf fs us) :
    us.flatten.filterMap Instr.marker? = fs.map (·.1.name.val) := by
  induction functions with
  | nil => rfl
  | cons is _ ih =>
      obtain ⟨params, targets, s, rfl, unmarked⟩ := is
      rw [List.flatten_cons, List.filterMap_append, ih, List.filterMap_cons,
        marker?_of_unmarked unmarked]
      rfl

/-- Every function definition of a program has a marker in its code, and there are no others. -/
theorem markers_lowered (p : Program) : p.lower.1.instrs.filterMap Instr.marker? =
    (Stmt.functionsIn p.stmts).map (·.1.name.val) := by
  obtain ⟨top, us, instrs, lowered⟩ := lowered_program p
  rw [instrs, List.filterMap_append, marker?_of_unmarked lowered.unmarked,
    markers_functions lowered.bodies, List.nil_append]

end Tac

/-- Three-address code has a marker for every function definition, and assembly code has a routine
for those at top level. These are the same functions, as many times each, exactly if no function is
defined inside of a statement; no function that the program defines is external then. In general a
function is external if it is called and not defined at top level. -/
theorem functions_emitted_iff {p : Program} {l : Listing} (assembled : p.assemble.1 = .ok l) :
    let marked := p.lower.1.instrs.filterMap Tac.Instr.marker?
    let routed := l.routines.map Routine.name
    marked = (Stmt.functionsIn p.stmts).map (·.1.name.val) ∧
      routed = (definitions p.stmts).map (·.1.name.val) ∧
      (routed.Perm marked ↔ p.definesAtTop = true) ∧
      (p.definesAtTop = true → ∀ f ∈ marked, f ∉ l.externals) ∧
      ∀ f, f ∈ l.externals ↔ f ∈ Assembly.callees l.units.flatten ∧ f ∉ routed := by
  obtain ⟨sublist, all⟩ := definitions_sublist_functionsIn p.stmts
  have external (f : String) : f ∈ l.externals ↔ f ∈ Assembly.callees l.units.flatten ∧
      f ∉ l.routines.map Routine.name := by
    rw [Assembly.mem_externals_iff assembled, Assembly.names_routines assembled]
    simp
  have same (top : p.definesAtTop = true) : Stmt.functionsIn p.stmts = definitions p.stmts :=
    (sublist.eq_of_length (all.mpr top).symm).symm
  refine ⟨Tac.markers_lowered p, Assembly.names_routines assembled, ⟨fun perm => ?_, fun top => ?_⟩,
    fun top f mem => ?_, external⟩
  · have lengths := perm.length_eq
    rw [Tac.markers_lowered, Assembly.names_routines assembled, List.length_map,
      List.length_map] at lengths
    exact all.mp lengths.symm
  · rw [Tac.markers_lowered, Assembly.names_routines assembled, same top]
  · rw [Tac.markers_lowered, same top, ← Assembly.names_routines assembled] at mem
    exact fun here => ((external f).mp here).2 mem

/-- A function that calls one that is defined before it, and one that is not defined. -/
def callers : Program where
  stmts :=
    [.prototype {} ⟨⟨"int", {}⟩, ⟨"h", {}⟩, []⟩,
      .define ⟨⟨"int", {}⟩, ⟨"g", {}⟩, []⟩ {}
        [.returnValue {} (some (.literal {} (.number "1")))],
      .define ⟨⟨"int", {}⟩, ⟨"f", {}⟩, []⟩ {}
        [.returnValue {} (some (.binary {} .add (.call {} ⟨"g", {}⟩ []) (.call {} ⟨"h", {}⟩ [])))]]

theorem callers_emitted : ∃ l, callers.assemble.1 = .ok l ∧
    (l.routines.map Routine.name).Perm (callers.lower.1.instrs.filterMap Tac.Instr.marker?) ∧
    "g" ∉ l.externals ∧ "h" ∈ l.externals := by
  have made : (callers.assemble.1.toOption.map fun l =>
      (Assembly.callees l.units.flatten).contains "h") = some true := by decide +kernel
  cases assembled : callers.assemble.1 with
  | error fault =>
      rw [assembled] at made
      contradiction
  | ok l =>
      rw [assembled] at made
      obtain ⟨marked, routed, perm, inside, external⟩ := functions_emitted_iff assembled
      refine ⟨l, rfl, perm.mpr rfl, inside rfl "g" (by rw [marked]; decide), ?_⟩
      refine (external "h").mpr ⟨List.contains_iff_mem.mp (Option.some.inj made), ?_⟩
      rw [routed]
      decide

/-- A function that is defined in another one. -/
def innerFunction : Program where
  stmts :=
    [.define ⟨⟨"int", {}⟩, ⟨"f", {}⟩, []⟩ {}
      [.define ⟨⟨"int", {}⟩, ⟨"g", {}⟩, []⟩ {}
          [.returnValue {} (some (.literal {} (.number "1")))],
        .returnValue {} (some (.call {} ⟨"g", {}⟩ []))]]

/-- The program is accepted. Its two functions are in the three-address code; the assembly has code
for one of them and declares the other one external. -/
theorem innerFunction_external : innerFunction.check.diagnostics.hasErrors = false ∧
    innerFunction.lower.1.instrs.filterMap Tac.Instr.marker? = ["g", "f"] ∧
    (innerFunction.assemble.1.toOption.map fun l => (l.routines.map Routine.name, l.externals)) =
      some (["f"], ["g"]) := by decide +kernel

end BraceLang
