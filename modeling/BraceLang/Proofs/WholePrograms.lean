import BraceLang.Proofs.Agreement

/-!
Agreement on whole programs. Code is made for the whole top level before it is made for the first
function, while checking takes the functions where they stand; and every call in the program
follows the last heading of its function, also a call that stands before it.

**Main result.** `visits_agree`: for every program that is accepted and has its functions at top
level, checking and making code agree at every place that both visit.
-/

namespace BraceLang

open Assembly (Interface)

open Check (checkStmt checkStmts checkHeading)

variable {iface i : Interface} {c c' : Check.State} {s s' : Assembly.State}
  {g g' : View Meaning}

/-! ### The interface of a program -/

theorem params_of_takes {h : Heading} {types : List Ty} (takes : h.Takes types) :
    (h.params.map fun p => Assembly.typeOf p.type.val).filter (· != .void) = types := by
  unfold Heading.Takes at takes
  split at takes
  · rename_i void
    obtain ⟨p, params, -, parsed⟩ := params_of_takesVoid void
    rw [takes, params, List.map_singleton, Assembly.typeOf_eq parsed]
    rfl
  · generalize h.params = params at takes
    induction takes with
    | nil => rfl
    | @cons p t params types has _ ih =>
        have kept : (t != .void) = true := bne_iff_ne.mpr has.2
        rw [List.map_cons, Assembly.typeOf_eq has.1, List.filter_cons, if_pos kept, ih]

/-- A heading makes its function known with its types. -/
theorem get?_addHeading {h : Heading} {result : Ty} {types : List Ty} (i : Interface)
    (parsed : Ty.parse? h.result.val = some result) (takes : h.Takes types) (name : String) :
    (i.addHeading h).conventions.get? name =
      if name = h.name.val then some ⟨result, types⟩ else i.conventions.get? name := by
  change (i.conventions.set h.name.val ⟨Assembly.typeOf h.result.val, _⟩).get? name = _
  rw [params_of_takes takes, Assembly.typeOf_eq parsed]
  split
  · rename_i same
    rw [same, Assoc.get?_set_self]
  · rename_i differ
    rw [Assoc.get?_set_of_ne _ _ differ]

theorem Knows.addHeading {h : Heading} {result : Ty} {types : List Ty} (knows : Knows i g)
    (parsed : Ty.parse? h.result.val = some result) (takes : h.Takes types)
    (here : g' h.name.val = some ⟨result, some types⟩)
    (others : ∀ name, name ≠ h.name.val → g' name = g name) : Knows (i.addHeading h) g' := by
  intro name t params found
  rw [get?_addHeading i parsed takes]
  by_cases same : name = h.name.val
  · rw [same, here] at found
    cases found
    rw [if_pos same]
  · rw [if_neg same]
    exact knows name t params ((others name same).symm.trans found)

/-- A heading at top level enters a function, and leaves the variables alone. -/
theorem heading_at_top {h : Heading} {defining : Bool} (layers : c.layers = [g])
    (clean : (checkHeading h defining c).2.Clean) :
    ∃ g', (checkHeading h defining c).2.layers = [g'] ∧ g'.stored = g.stored ∧
      ∀ i, Knows i g → Knows (i.addHeading h) g' := by
  obtain ⟨result, types, c', parsed, takes, steady, -, same⟩ := Check.checkHeading_accepted clean
  rw [same] at clean ⊢
  rcases Check.declareFunction_accepted (steady.layers.trans layers) clean with
    ⟨absent, entered⟩ | ⟨present, kept⟩
  · refine ⟨_, entered, View.stored_add_function absent result types, ?_⟩
    intro i knows
    refine knows.addHeading parsed takes (if_pos rfl) ?_
    intro name differ
    exact if_neg differ
  · refine ⟨g, kept, rfl, ?_⟩
    intro i knows
    exact knows.addHeading parsed takes present fun _ _ => rfl

theorem addStmt_of_free {x : Stmt} (free : x.isHeadingFree = true) (i : Interface) :
    i.addStmt x = i := by
  cases x with
  | prototype => contradiction
  | define => contradiction
  | _ => rfl

/-- A statement at top level makes known what its headings say, and changes no variables if it has
one. -/
theorem stmt_at_top {x : Stmt} (top : x.hasHeadingsAtTop = true) (layers : c.layers = [g])
    (clean : (checkStmt x c).2.Clean) :
    ∃ g', (checkStmt x c).2.layers = [g'] ∧ (x.isHeadingFree = true ∨ g'.stored = g.stored) ∧
      ∀ i, Knows i g → Knows (i.addStmt x) g' := by
  rcases Stmt.hasHeadingsAtTop_cases top with ⟨site, h, rfl⟩ | ⟨h, braces, body, rfl, free⟩ | free
  · rw [Check.checkStmt_prototype] at clean ⊢
    obtain ⟨g', entered, stored, knows⟩ := heading_at_top layers clean
    exact ⟨g', entered, .inr stored, knows⟩
  · have body := Check.after_heading h braces body c
    obtain ⟨g', entered, stored, knows⟩ := heading_at_top layers (clean.before body.log)
    exact ⟨g', (body.outer free).trans entered, .inr stored, knows⟩
  · simp only [addStmt_of_free free]
    rcases x.reach_eq_zero_or with still | ⟨site, d, rfl⟩
    · have after := Check.runs_checkStmt x c
      rw [still] at after
      exact ⟨g, (after.outer free).trans layers, .inl free, fun _ knows => knows⟩
    · rw [checkStmt, Check.checkDeclaration_eq] at clean ⊢
      have visited : c.Steady (Check.visitDeclaration d c).2 := Check.calm_visit _ c
      have checked := visited.trans (Check.calm_initType d _)
      obtain ⟨t, -, -, -, entered⟩ :=
        Check.declareFound_accepted (checked.layers.trans layers) clean
      exact ⟨_, entered, .inl free, fun _ knows => knows.add_variable _ t⟩

/-- All that a program declares at top level is known in the end. -/
theorem stmts_at_top {stmts : List Stmt} (top : stmts.all Stmt.hasHeadingsAtTop = true)
    (layers : c.layers = [g]) (clean : (checkStmts stmts c).2.Clean) :
    ∃ g', (checkStmts stmts c).2.layers = [g'] ∧
      ∀ i, Knows i g → Knows (stmts.foldl Interface.addStmt i) g' := by
  induction stmts generalizing c g with
  | nil => exact ⟨g, by rw [checkStmts]; exact layers, fun _ knows => knows⟩
  | cons x rest ih =>
      obtain ⟨topFirst, topRest⟩ := Bool.and_eq_true_iff.mp top
      rw [Check.checkStmts_cons] at clean ⊢
      have ended := (Check.calm_checkTerminator x c).layers.trans layers
      have cleanFirst := clean.before (Check.runs_checkStmts rest _).log
      obtain ⟨g₁, layers₁, -, knows₁⟩ := stmt_at_top topFirst ended cleanFirst
      obtain ⟨g₂, layers₂, knows₂⟩ := ih topRest layers₁ clean
      exact ⟨g₂, layers₂, fun i knows => knows₂ _ (knows₁ i knows)⟩

/-! ### The top level -/

/-- At top level there are the global variables only. -/
theorem Aligned.globals (aligned : Aligned iface .none 0 c s) :
    ∃ g, c.layers = [g] ∧ s.layers = [g.stored] := by
  obtain ⟨l, inner, layers, slots, deep⟩ := aligned.layers
  obtain rfl := List.eq_nil_of_length_eq_zero deep
  exact ⟨l, layers, slots⟩

theorem aligned_globals (layers : c.layers = [g]) (slots : s.layers = [g.stored])
    (known : ∀ l ∈ c.layers, Knows iface l) (poisoned : c.poisoned = []) :
    Aligned iface .none 0 c s :=
  ⟨⟨g, [], layers, slots, rfl⟩, known, poisoned⟩

/-- What is known in the end has been known before. -/
theorem known_before {n : Nat} {free : Bool} (after : c.After n free c')
    (known : ∀ l ∈ c'.layers, Knows iface l) : ∀ l ∈ c.layers, Knows iface l := by
  have le := after.layers
  generalize c.layers = layers at le
  generalize c'.layers = layers' at le known
  induction le with
  | nil => exact List.forall_mem_nil _
  | cons here _ ih =>
      obtain ⟨knownHere, knownRest⟩ := List.forall_mem_cons.mp known
      exact List.forall_mem_cons.mpr ⟨knownHere.of_le here, ih knownRest⟩

/-- Both sides pass a heading at top level by without a visit. -/
theorem passes_heading (iface : Interface) {x : Stmt} (top : x.hasHeadingsAtTop = true)
    (heading : ¬ x.isHeadingFree = true) (v : Check.Walk) (w : Assembly.Walk) :
    Visit.ofMoves iface (x.moves false) (v, w) = [] ∧
      (Assembly.pass iface).run (x.moves false) w = some w := by
  rcases Stmt.hasHeadingsAtTop_cases top with ⟨site, h, rfl⟩ | ⟨h, braces, body, rfl, -⟩ | free
  · refine ⟨rfl, (Assembly.run_moves _ w).trans ?_⟩
    rw [Assembly.stmt]
    exact Assembly.Walk.behind?_nil w
  · exact ⟨rfl, rfl⟩
  · contradiction

/-- Both sides agree all over a statement at top level, and have the same global variables behind
it. -/
theorem visits_top_stmt {x : Stmt} {v : Check.Walk} {w : Assembly.Walk}
    (aligned : Aligned iface .none 0 v.state w.state) (top : x.hasHeadingsAtTop = true)
    (clean : (checkStmt x v.state).2.Clean)
    (known : ∀ l ∈ (checkStmt x v.state).2.layers, Knows iface l) :
    AllAgree iface (Visit.ofMoves iface (x.moves false) (v, w)) ∧
      ∀ u, (Visit.pass iface).run (x.moves false) (v, w) = some u →
        u.1.state = (checkStmt x v.state).2 ∧ Aligned iface .none 0 u.1.state u.2.state := by
  have checked : Check.pass.run (x.moves false) v = some (v.behind (checkStmt x)) :=
    Check.run_moves x v
  have behind {u : Check.Walk × Assembly.Walk}
      (ran : (Visit.pass iface).run (x.moves false) (v, w) = some u) :
      u.1.state = (checkStmt x v.state).2 :=
    congrArg _ (Option.some_inj.mp ((Pass.run_both_eq_some.mp ran).1.symm.trans checked))
  by_cases free : x.isHeadingFree = true
  · have frees := List.all_eq_true.mp ((Stmt.all_moves x).trans free)
    refine ⟨visits_moves aligned frees (Pass.depth_moves x 0) checked clean, fun u ran => ?_⟩
    exact ⟨behind ran, aligned.run frees (Pass.depth_moves x 0) ran (behind ran ▸ clean)⟩
  · obtain ⟨silent, passes⟩ := passes_heading iface top free v w
    refine ⟨silent ▸ .nil, fun u ran => ⟨behind ran, ?_⟩⟩
    obtain rfl : w = u.2 :=
      Option.some_inj.mp (passes.symm.trans (Pass.run_both_eq_some.mp ran).2)
    obtain ⟨g, layers, slots⟩ := aligned.globals
    obtain ⟨g', entered, stored, -⟩ := stmt_at_top top layers clean
    rw [behind ran]
    exact aligned_globals entered (stored.resolve_left free ▸ slots) known
      (((Check.runs_checkStmt x v.state).poisoned clean).trans aligned.poisoned)

/-- Both sides agree all over the top level, and end with the same global variables. -/
theorem visits_top {stmts : List Stmt} {v : Check.Walk} {w : Assembly.Walk}
    (aligned : Aligned iface .none 0 v.state w.state)
    (top : stmts.all Stmt.hasHeadingsAtTop = true) (clean : (checkStmts stmts v.state).2.Clean)
    (known : ∀ l ∈ (checkStmts stmts v.state).2.layers, Knows iface l) :
    AllAgree iface (Visit.ofMoves iface (Stmt.movesIn false stmts) (v, w)) ∧
      ∀ u, (Visit.pass iface).run (Stmt.movesIn false stmts) (v, w) = some u →
        Aligned iface .none 0 u.1.state u.2.state := by
  induction stmts generalizing v w with
  | nil =>
      refine ⟨.nil, fun u ran => ?_⟩
      cases ran
      exact aligned
  | cons x rest ih =>
      obtain ⟨topFirst, topRest⟩ := Bool.and_eq_true_iff.mp top
      rw [Check.checkStmts_cons] at clean known
      let v₁ : Check.Walk := v.behind (Check.checkTerminator x)
      have ended : Aligned iface .none 0 v₁.state w.state :=
        aligned.steady (Check.calm_checkTerminator x v.state) rfl
      have later := Check.runs_checkStmts rest (checkStmt x v₁.state).2
      obtain ⟨agree, behind⟩ := visits_top_stmt ended topFirst (clean.before later.log)
        (known_before later known)
      have start : (Visit.pass iface) (.next x) (v, w) = some (v₁, w) := rfl
      rw [Stmt.movesIn, List.cons_append, Pass.run_cons start, Pass.run_append, Visit.ofMoves,
        Pass.noted_cons start, Pass.noted_append]
      cases ran : (Visit.pass iface).run (x.moves false) (v₁, w) with
      | none =>
          refine ⟨.append .nil (.append agree .nil), fun u ran => ?_⟩
          contradiction
      | some u =>
          obtain ⟨state, aligned⟩ := behind u ran
          obtain ⟨others, ends⟩ := ih aligned topRest (state ▸ clean) (state ▸ known)
          exact ⟨.append .nil (.append agree others), ends⟩

/-! ### Functions -/

/-- Both sides agree all over the body of a function. When code is made for it, all global
variables have been declared. -/
theorem visits_body {h : Heading} {braces : Braces} {body : List Stmt} {last : View Meaning}
    (free : Stmt.allHeadingFree body = true) (layers : c.layers = [g]) (poisoned : c.poisoned = [])
    (clean : (checkStmt (.define h braces body) c).2.Clean)
    (later : List.Forall₂ View.Le (checkStmt (.define h braces body) c).2.layers [last])
    (knows : Knows iface last) (slots : s.layers = [last.stored]) :
    AllAgree iface (Visit.ofStmts iface body
      (Check.enterBody h braces (checkHeading h true c).1 (checkHeading h true c).2).2
      (Assembly.enterRoutine h s).2) := by
  have after := Check.after_heading h braces body c
  have cleanHeading := clean.before after.log
  obtain ⟨g', entered, -, -⟩ := heading_at_top layers cleanHeading
  have kept : (checkStmt (.define h braces body) c).2.layers = [g'] :=
    (after.outer free).trans entered
  rw [kept] at later
  obtain ⟨le, -⟩ := List.forall₂_cons.mp later
  obtain ⟨result, types, -, -, takes, -, found, -⟩ := Check.checkHeading_accepted cleanHeading
  have unpoisoned := ((Check.runs_checkHeading h true c).poisoned cleanHeading).trans poisoned
  have known : ∀ l ∈ (checkHeading h true c).2.layers, Knows iface l := by
    rw [entered]
    exact List.forall_mem_singleton.mpr (knows.of_le le)
  rw [Check.checkStmt_define] at clean
  rw [found] at clean ⊢
  have cleanBody := clean.before (Check.log_inBody h braces body _ _)
  have cleanEntered := cleanBody.before (Check.runs_checkStmts body _).log
  have aligned : Aligned iface (.global le) 0 _ _ :=
    aligned_enterBody takes entered slots known unpoisoned cleanEntered
  have frees := List.all_eq_true.mp ((Stmt.all_movesIn body).trans free)
  exact visits_moves aligned frees (Pass.depth_movesIn body 0) (Check.run_movesIn body _) cleanBody

/-- Both sides agree all over the functions of a program. -/
theorem visits_routines {stmts : List Stmt} {last : View Meaning}
    (top : stmts.all Stmt.hasHeadingsAtTop = true) (layers : c.layers = [g])
    (poisoned : c.poisoned = []) (clean : (checkStmts stmts c).2.Clean)
    (ends : (checkStmts stmts c).2.layers = [last]) (knows : Knows iface last)
    (slots : s.layers = [last.stored]) : AllAgree iface (Visit.ofRoutines iface stmts c s) := by
  induction stmts generalizing c s g with
  | nil =>
      rw [Visit.ofRoutines]
      exact .nil
  | cons x rest ih =>
      obtain ⟨topFirst, topRest⟩ := Bool.and_eq_true_iff.mp top
      rw [Check.checkStmts_cons] at clean ends
      have later := Check.runs_checkStmts rest (checkStmt x (Check.checkTerminator x c).2).2
      have cleanFirst := clean.before later.log
      have steady := Check.calm_checkTerminator x c
      obtain ⟨g₁, layers₁, -⟩ := stmt_at_top topFirst (steady.layers.trans layers) cleanFirst
      have poisoned₁ := ((Check.runs_checkStmt x _).poisoned cleanFirst).trans
        (steady.poisoned.trans poisoned)
      have others {s' : Assembly.State} (slots' : s'.layers = [last.stored]) :=
        ih topRest layers₁ poisoned₁ clean ends slots'
      cases x with
      | define h braces body =>
          rw [Visit.ofRoutines]
          apply AllAgree.append
          · exact visits_body topFirst layers poisoned cleanFirst (ends ▸ later.layers) knows slots
          · apply AllAgree.onDone
            intro r s' done
            exact others ((Assembly.layers_routine done).trans slots)
      | _ =>
          rw [Visit.ofRoutines]
          · exact others slots
          · rintro _ _ _ ⟨⟩

/-! ### The program -/

/-- What is logged while the statements of a program are checked stays in the log. -/
theorem Program.clean_of_accepted {p : Program} (accepted : p.check.diagnostics.hasErrors = false) :
    (checkStmts p.stmts (Check.openScope (Check.visit 0 {}).2).2).2.Clean := by
  have swept := Check.calm_sweep
    (checkStmts p.stmts (Check.openScope (Check.visit 0 {}).2).2).2.env.stack.values
    (checkStmts p.stmts (Check.openScope (Check.visit 0 {}).2).2).2
  exact Check.State.Clean.before accepted swept.log

theorem visits_agree {p : Program} (accepted : p.check.diagnostics.hasErrors = false)
    (top : p.hasHeadingsAtTop = true) : AllAgree (Interface.ofProgram p) p.visits := by
  have clean := Program.clean_of_accepted accepted
  let start : Check.State := (Check.openScope (Check.visit 0 {}).2).2
  have layers : start.layers = [fun _ => none] := rfl
  obtain ⟨last, ends, knows⟩ := stmts_at_top top layers clean
  have known : Knows (Interface.ofProgram p) last := knows {} fun _ _ _ found => by contradiction
  have knownEnd : ∀ l ∈ (checkStmts p.stmts start).2.layers, Knows (Interface.ofProgram p) l := by
    rw [ends]
    exact List.forall_mem_singleton.mpr known
  have aligned : Aligned (Interface.ofProgram p) .none 0 start (Assembly.openScope {}).2 :=
    aligned_globals layers rfl (known_before (Check.runs_checkStmts p.stmts start) knownEnd) rfl
  obtain ⟨agree, behind⟩ :=
    visits_top (v := ⟨start, []⟩) (w := .start (Assembly.openScope {}).2) aligned top clean knownEnd
  apply AllAgree.append agree
  apply AllAgree.onDone
  intro lines s' done
  have ran : (Visit.pass (Interface.ofProgram p)).run (Stmt.movesIn false p.stmts)
      (⟨start, []⟩, .start (Assembly.openScope {}).2) = some (_, _) :=
    Pass.run_both_eq_some.mpr ⟨Check.run_movesIn p.stmts _, Assembly.run_of_done done⟩
  obtain ⟨g, layers', slots⟩ := (behind _ ran).globals
  obtain rfl : g = last := by simpa using layers'.symm.trans ends
  exact visits_routines top layers rfl clean ends known
    ((Assembly.growing_finish s').layers.trans slots)

/-- In a program that is accepted, and whose functions are at top level, checking and making code
agree at every place that both of them visit: on the registers of every value, on the storage of
every variable and on the types of every call. No place of the program is left out, unless making
code stops with a fault. -/
theorem accepted_agrees (p : Program) (accepted : p.check.diagnostics.hasErrors = false)
    (top : p.hasHeadingsAtTop = true) :
    (∀ v ∈ p.visits, v.Agrees (Interface.ofProgram p)) ∧
      ∀ listing, p.assemble.1 = .ok listing → p.visits.map Visit.point = p.points := by
  constructor
  · exact visits_agree accepted top
  · intro listing assembled
    exact points_visits assembled

/-- A function that is called before it is defined, hides a global variable by one of another
type, and stands before a global variable that it does not see. -/
def weighted : Program where
  stmts :=
    [.prototype {} ⟨⟨"double", {}⟩, ⟨"scale", {}⟩, [⟨⟨"int", {}⟩, none⟩, ⟨⟨"double", {}⟩, none⟩]⟩,
      .declare {} ⟨⟨"int", {}⟩, ⟨"count", {}⟩, none, some (.literal {} (.number "3"))⟩,
      .declare {} ⟨⟨"double", {}⟩, ⟨"total", {}⟩, none,
        some (.call {} ⟨"scale", {}⟩ [.var {} "count", .literal {} (.number "0.5")])⟩,
      .define ⟨⟨"double", {}⟩, ⟨"scale", {}⟩,
          [⟨⟨"int", {}⟩, some ⟨"n", {}⟩⟩, ⟨⟨"double", {}⟩, some ⟨"by", {}⟩⟩]⟩ {}
        [.declare {} ⟨⟨"double", {}⟩, ⟨"count", {}⟩, some 4, none⟩,
          .forLoop (some (.declare {} ⟨⟨"int", {}⟩, ⟨"i", {}⟩, none,
              some (.literal {} (.number "0"))⟩))
            (.binary {} .less (.var {} "i") (.var {} "n"))
            (some (.assign {} ⟨"i", {}⟩ none
              (.binary {} .add (.var {} "i") (.literal {} (.number "1"))))) {}
            [.assign {} ⟨"count", {}⟩ (some (.var {} "i"))
              (.binary {} .mul (.var {} "i") (.var {} "by"))],
          .returnValue {} (some (.element {} "count" (.literal {} (.number "2"))))],
      .declare {} ⟨⟨"int", {}⟩, ⟨"n", {}⟩, none,
        some (.binary {} .less (.var {} "total") (.var {} "count"))⟩]

theorem weighted_agrees :
    (∀ v ∈ weighted.visits, v.Agrees (Interface.ofProgram weighted)) ∧
      weighted.visits.map Visit.point = weighted.points := by
  obtain ⟨agree, covers⟩ := accepted_agrees weighted (by decide +kernel) (by decide)
  have assembled : weighted.assemble.1.toOption.isSome = true := by decide +kernel
  refine ⟨agree, ?_⟩
  cases ends : weighted.assemble.1 with
  | ok listing => exact covers listing ends
  | error fault =>
      rw [ends] at assembled
      contradiction

end BraceLang
