import BraceLang.Proofs.Check.Loops
import BraceLang.Proofs.Tac.Walk

/-!
What lowering makes of `break` and `continue`. Checking takes the update of a `for` loop to be in
the loop, as its body is. Lowering has left the loop by then: there, a `break` or `continue` goes
to a loop further out that has it in its body, and is dropped if there is none.

**Main result.** `exits_lowered`: if checking reports no `break` and no `continue`, each of them is
in a loop, and is lowered to a jump to the labels of the innermost loop that it is in the body of.
So it leaves the innermost loop around it, unless it is in the update of that loop.
-/

namespace BraceLang.Tac

namespace LoopAround

def code (l : LoopAround) : List Instr := (Lower.stmt l.outer l.loop l.start).1

/-- The end label is at the end of the loop. The next round begins at the start of a `while` loop,
and with the update of a `for` loop. -/
def Labelled (l : LoopAround) : Prop :=
  match l.loop with
  | .whileLoop .. => ∃ round,
      l.code = .label l.own.next :: round ++ [.goto l.own.next, .label l.own.stop]
  | .forLoop _ _ update _ _ => ∃ front start s, .label start ∈ front ∧
      l.code = front ++ .label l.own.next :: (Lower.header l.outer update s).1 ++
        [.goto start, .label l.own.stop]
  | _ => False

end LoopAround

/-- A `break` or `continue`, with the loops around it, innermost first, and its code. -/
structure LoweredExit where
  statement : Stmt
  loops : List LoopAround
  code : List Instr

namespace LoweredExit

def exit (x : LoweredExit) : Exit := ⟨x.statement, x.loops.map fun l => (l.part, l.loop)⟩

/-- Where it goes, of the labels of a loop. -/
def goal (x : LoweredExit) (t : Lower.Targets) : Label :=
  match x.statement with
  | .continueLoop _ => t.next
  | _ => t.stop

/-- The innermost loop that has it in its body. -/
def target? (x : LoweredExit) : Option LoopAround := x.loops.find? (·.part = .body)

end LoweredExit

namespace LoweredExit

open Lower (Walk stmt)

/-- The `break` or `continue` that is lowered at a move. -/
def ofMove : Move → Walk → List LoweredExit
  | .single ⟨.breakLoop site, _⟩, w =>
      [⟨.breakLoop site, w.loops, (stmt w.targets (.breakLoop site) w.state).1⟩]
  | .single ⟨.continueLoop site, _⟩, w =>
      [⟨.continueLoop site, w.loops, (stmt w.targets (.continueLoop site) w.state).1⟩]
  | _, _ => []

end LoweredExit

end Tac

open Tac (LoopAround LoweredExit)

/-- Each `break` and `continue` of a program, with what lowering makes of it. -/
def Program.exits (p : Program) : List LoweredExit :=
  p.lowering.flatMap fun t => LoweredExit.ofMove t.move t.state

namespace Tac.Lower

/-! ### None is left out -/

/-- The loops around, with the part of each that the place is in. -/
def Walk.around (w : Walk) : List (LoopPart × Stmt) := w.loops.map fun l => (l.part, l.loop)

/-- Each `break` and `continue` of some moves, in the order of the code. -/
def exits (ms : List Move) (w : Walk) : List Exit :=
  pass.noted (fun m w => (LoweredExit.ofMove m w).map LoweredExit.exit) ms w

/-- The `break` and `continue` that lowering comes to from one state to another. -/
abbrev Leaves (ms : List Move) (w : Walk) (found : List Exit) (w' : Walk) : Prop :=
  pass.Notes (fun m w => (LoweredExit.ofMove m w).map LoweredExit.exit) ms w found w'

theorem leaves_movesBetween (braces : Braces) {body : List Stmt}
    (inside : ∀ w, exits (Stmt.movesIn true body) w = Stmt.exitsIn w.around body) (w : Walk) :
    Leaves (Stmt.movesBetween braces (Stmt.movesIn true body)) w (Stmt.exitsIn w.around body)
      (w.behind (inScope (stmts w.targets body) w.state)) := by
  have filled : Leaves _ { w with state := (openScope w.state).2 } _ _ :=
    ⟨run_movesIn body _, inside _⟩
  have all := Pass.Notes.cons (.enter braces) rfl filled
  exact all.concat (.leave braces) rfl rfl

mutual

theorem exits_moves : (x : Stmt) → (w : Walk) → exits (x.moves true) w = x.exits w.around
  | .breakLoop _, _ | .continueLoop _, _ => rfl
  | .define h braces body, w => by
      rw [Stmt.moves, if_pos rfl]
      have inside : Leaves _ (w.enterBody h) _ _ := ⟨run_movesIn body _, exits_movesIn body _⟩
      have all := Pass.Notes.cons (.enterBody h braces) rfl inside
      exact (all.concat (.leaveBody h braces) rfl rfl).noted
  | .block braces body, w => (leaves_movesBetween braces (exits_movesIn body) w).noted
  | .ifThen cond braces body, w => by
      have inside := leaves_movesBetween braces (exits_movesIn body) (w.branch cond)
      have all := Pass.Notes.cons (.branch cond false) rfl inside
      exact (all.concat .join rfl rfl).noted
  | .ifElse cond braces body elseBraces elseBody, w => by
      have inside := leaves_movesBetween braces (exits_movesIn body) (w.branch cond)
      have other := leaves_movesBetween elseBraces (exits_movesIn elseBody)
      have all := (Pass.Notes.cons (.branch cond true) rfl inside).append
        (.cons .otherwise rfl (other _))
      exact (all.concat .join rfl rfl).noted
  | .whileLoop cond braces body, w => by
      let loop := Stmt.whileLoop cond braces body
      have inside := leaves_movesBetween braces (exits_movesIn body) (w.whileTest loop cond)
      have all := Pass.Notes.cons (.whileTest loop cond) rfl inside
      exact (all.concat .whileEnd rfl rfl).noted
  | .forLoop init cond update braces body, w => by
      let loop := Stmt.forLoop init cond update braces body
      have starts : Leaves _ w.forStart _ _ := ⟨run_movesBy init _, exits_movesBy init _⟩
      have inside := leaves_movesBetween braces (exits_movesIn body)
      have steps (w : Walk) : Leaves _ w _ _ := ⟨run_movesBy update w, exits_movesBy update w⟩
      have all := ((Pass.Notes.cons .forStart rfl starts).append
        (.cons (.forTest loop cond) rfl (inside _))).append (.cons .forUpdate rfl (steps _))
      rw [Stmt.exits, ← List.append_assoc]
      exact (all.concat .forEnd rfl rfl).noted
  | .declare .., _ | .prototype .., _ | .assign .., _ | .call .., _ | .returnValue .., _ => rfl

theorem exits_movesBy : (part : Option Stmt) → (w : Walk) →
    exits (Stmt.movesBy true part) w = Stmt.exitsBy w.around part
  | none, _ => rfl
  | some x, w => exits_moves x w

theorem exits_movesIn : (body : List Stmt) → (w : Walk) →
    exits (Stmt.movesIn true body) w = Stmt.exitsIn w.around body
  | [], _ => rfl
  | x :: rest, w => by
      have first : Leaves _ w _ _ := ⟨run_moves x w, exits_moves x w⟩
      have others : Leaves _ (w.behind (stmt w.targets x w.state)) _ _ :=
        ⟨run_movesIn rest _, exits_movesIn rest _⟩
      exact ((Pass.Notes.cons (.next x) rfl first).append others).noted

end

/-! ### The loops around each -/

theorem labelled_whileLoop (targets : Option Targets) (cond : Expr) (braces : Braces)
    (body : List Stmt) (s : State) :
    LoopAround.Labelled ⟨.body, .whileLoop cond braces body, ⟨s.label 0, s.label 2⟩, targets, s⟩ :=
  ⟨_, rfl⟩

/-- The labels of a `for` loop are taken behind its first part. -/
theorem labelled_forLoop (part : LoopPart) (targets : Option Targets) (init : Option Stmt)
    (cond : Expr) (update : Option Stmt) (braces : Braces) (body : List Stmt) (s : State) :
    let s₁ := (header targets init (openScope s).2).2
    LoopAround.Labelled ⟨part, .forLoop init cond update braces body, ⟨s₁.label 2, s₁.label 3⟩,
      targets, s⟩ := by
  intro s₁
  let s₂ := (expr cond (s₁.skip 4)).2
  let bodyCode := inScope (stmts (some ⟨s₁.label 2, s₁.label 3⟩) body) s₂
  let front := (header targets init (openScope s).2).1 ++
    .label (s₁.label 0) :: branching (expr cond (s₁.skip 4)).1 (s₁.label 1) (s₁.label 3)
  refine ⟨front ++ bodyCode.1, s₁.label 0, bodyCode.2, by simp [front], ?_⟩
  rw [LoopAround.code, stmt_forLoop]
  simp only [inScope_fst, forInside, forRounds, front, List.append_assoc, List.cons_append]
  rfl

/-- Wherever some moves come to, the loops around are some that are around all of the moves, or they
are labelled and have their code in what there is in the end. -/
structure Sees (around : List LoopAround) (ms : List Move) (w w' : Walk) : Prop where
  run : pass.run ms w = some w'
  seen : ∀ t ∈ pass.trace ms w, ∀ l ∈ t.state.loops, l ∈ around ∨ l.Labelled ∧ w'.Has l.code

namespace Sees

variable {around : List LoopAround} {ms ms' : List Move} {w w₁ w' : Walk}

theorem nil (around : List LoopAround) (w : Walk) : Sees around [] w w := ⟨rfl, nofun⟩

theorem cons (m : Move) (step : pass m w = some w₁) (known : w.loops ⊆ around)
    (later : Sees around ms w₁ w') : Sees around (m :: ms) w w' := by
  refine ⟨(Pass.run_cons step).trans later.run, ?_⟩
  rw [Pass.trace, step]
  exact List.forall_mem_cons.mpr ⟨fun l mem => .inl (known mem), later.seen⟩

theorem append (first : Sees around ms w w₁) (second : Sees around ms' w₁ w') :
    Sees around (ms ++ ms') w w' := by
  refine ⟨Pass.run_trans first.run second.run, ?_⟩
  rw [Pass.trace_append, first.run]
  refine List.forall_mem_append.mpr ⟨fun t mem l mem' => ?_, second.seen⟩
  refine (first.seen t mem l mem').imp_right fun ⟨labelled, has⟩ => ⟨labelled, ?_⟩
  exact has.run second.run

theorem concat (first : Sees around ms w w₁) (m : Move) (step : pass m w₁ = some w')
    (known : w₁.loops ⊆ around) : Sees around (ms ++ [m]) w w' :=
  first.append (.cons m step known (.nil around w'))

/-- Behind a loop. -/
theorem loop {l : LoopAround} (sees : Sees (l :: around) ms w w') (labelled : l.Labelled)
    (has : w'.Has l.code) : Sees around ms w w' := by
  refine ⟨sees.run, fun t mem l' mem' => ?_⟩
  rcases sees.seen t mem l' mem' with known | later
  · rcases List.mem_cons.mp known with rfl | outer
    · exact .inr ⟨labelled, has⟩
    · exact .inl outer
  · exact .inr later

theorem ends (sees : Sees around ms w w₁) (ran : pass.run ms w = some w') :
    Sees around ms w w' := by
  obtain rfl := Option.some_inj.mp (sees.run.symm.trans ran)
  exact sees

end Sees

/-- The code of a statement is there behind it. -/
theorem has_behind (w : Walk) (lowered : List Instr × State) : (w.behind lowered).Has lowered.1 :=
  .inl (List.suffix_append _ _).isInfix

/-- What is to be shown of statements, wherever they stand. -/
abbrev SeesIn (body : List Stmt) : Prop := ∀ {around : List LoopAround} {w : Walk},
  w.loops ⊆ around →
    Sees around (Stmt.movesIn true body) w (w.behind (stmts w.targets body w.state))

theorem sees_movesBetween (braces : Braces) {body : List Stmt} (inside : SeesIn body)
    {around : List LoopAround} {w : Walk} (known : w.loops ⊆ around) :
    Sees around (Stmt.movesBetween braces (Stmt.movesIn true body)) w
      (w.behind (inScope (stmts w.targets body) w.state)) := by
  have filled := inside (w := { w with state := (openScope w.state).2 }) known
  exact (Sees.cons (.enter braces) rfl known filled).concat (.leave braces) rfl known

mutual

theorem sees_moves : (x : Stmt) → ∀ {around : List LoopAround} {w : Walk}, w.loops ⊆ around →
    Sees around (x.moves true) w (w.behind (stmt w.targets x w.state))
  | .define h braces body, around, w, known => by
      have inside := sees_movesIn body (w := w.enterBody h) known
      have all := (Sees.cons (.enterBody h braces) rfl known inside).concat (.leaveBody h braces)
        rfl known
      exact all.ends (run_moves (.define h braces body) w)
  | .block braces body, around, w, known => sees_movesBetween braces (sees_movesIn body) known
  | .ifThen cond braces body, around, w, known => by
      have inside := sees_movesBetween braces (sees_movesIn body) (w := w.branch cond) known
      have all := (Sees.cons (.branch cond false) rfl known inside).concat .join rfl known
      exact all.ends (run_moves (.ifThen cond braces body) w)
  | .ifElse cond braces body elseBraces elseBody, around, w, known => by
      have inside := sees_movesBetween braces (sees_movesIn body) (w := w.branch cond) known
      have both := (Sees.cons (.branch cond true) rfl known inside).append
        (.cons .otherwise rfl known (sees_movesBetween elseBraces (sees_movesIn elseBody) known))
      exact (both.concat .join rfl known).ends
        (run_moves (.ifElse cond braces body elseBraces elseBody) w)
  | .whileLoop cond braces body, around, w, known => by
      let loop := Stmt.whileLoop cond braces body
      let l : LoopAround :=
        ⟨.body, loop, ⟨w.state.label 0, w.state.label 2⟩, w.targets, w.state⟩
      have known' : l :: w.loops ⊆ l :: around := List.cons_subset_cons l known
      have inside := sees_movesBetween braces (sees_movesIn body) (w := w.whileTest loop cond)
        known'
      have rounds := Sees.cons (.whileTest loop cond) rfl (List.subset_cons_of_subset l known)
        inside
      have all := (rounds.concat .whileEnd rfl known').ends (run_moves loop w)
      exact all.loop (labelled_whileLoop ..) (has_behind w _)
  | .forLoop init cond update braces body, around, w, known => by
      let loop := Stmt.forLoop init cond update braces body
      let s₁ := (header w.targets init (openScope w.state).2).2
      let l (part : LoopPart) : LoopAround :=
        ⟨part, loop, ⟨s₁.label 2, s₁.label 3⟩, w.targets, w.state⟩
      let loops := l .update :: l .body :: around
      have outer : w.loops ⊆ loops :=
        List.subset_cons_of_subset _ (List.subset_cons_of_subset _ known)
      have inBody : l .body :: w.loops ⊆ loops :=
        List.cons_subset.mpr ⟨List.mem_cons_of_mem _ List.mem_cons_self, outer⟩
      have inUpdate : l .update :: w.loops ⊆ loops :=
        List.cons_subset.mpr ⟨List.mem_cons_self, outer⟩
      have starts := Sees.cons .forStart rfl outer (sees_movesBy init (w := w.forStart) outer)
      have rounds := starts.append (.cons (.forTest loop cond) rfl outer
        (sees_movesBetween braces (sees_movesIn body) inBody))
      have steps := rounds.append (.cons .forUpdate rfl inBody (sees_movesBy update inUpdate))
      have all := (steps.concat .forEnd rfl inUpdate).ends (run_moves loop w)
      have labelled (part : LoopPart) : (l part).Labelled := labelled_forLoop part ..
      exact (all.loop (labelled .update) (has_behind w _)).loop (labelled .body) (has_behind w _)
  | .declare .., _, _, known | .prototype .., _, _, known | .assign .., _, _, known
  | .call .., _, _, known | .breakLoop _, _, _, known | .continueLoop _, _, _, known
  | .returnValue .., _, _, known => .cons _ rfl known (.nil _ _)

theorem sees_movesBy : (part : Option Stmt) → ∀ {around : List LoopAround} {w : Walk},
    w.loops ⊆ around →
      Sees around (Stmt.movesBy true part) w (w.behind (header w.targets part w.state))
  | none, around, w, _ => (Sees.nil around w).ends (run_movesBy none w)
  | some x, _, _, known => sees_moves x known

theorem sees_movesIn : (body : List Stmt) → SeesIn body
  | [], around, w, _ => (Sees.nil around w).ends (run_movesIn [] w)
  | x :: rest, around, w, known => by
      have first := Sees.cons (.next x) rfl known (sees_moves x known)
      exact (first.append (sees_movesIn rest known)).ends (run_movesIn (x :: rest) w)

end

/-- A `break` or `continue` is a jump to the innermost loop that has it in its body. -/
theorem exit_ofMove {m : Move} {w : Walk} {x : LoweredExit} (mem : x ∈ LoweredExit.ofMove m w) :
    x.loops = w.loops ∧ x.code = (x.target?.map fun l => .goto (x.goal l.own)).toList ∧
      ∀ w', pass m w = some w' → w'.Has x.code := by
  unfold LoweredExit.ofMove at mem
  split at mem
  · obtain rfl := List.mem_singleton.mp mem
    refine ⟨rfl, ?_, fun w' step => Option.some_inj.mp step ▸ has_behind w _⟩
    rw [stmt, Walk.targets, Frame.targets, LoweredExit.target?, Walk.loops]
    cases (Frame.loops w.frames).find? (·.part = .body) <;> rfl
  · obtain rfl := List.mem_singleton.mp mem
    refine ⟨rfl, ?_, fun w' step => Option.some_inj.mp step ▸ has_behind w _⟩
    rw [stmt, Walk.targets, Frame.targets, LoweredExit.target?, Walk.loops]
    cases (Frame.loops w.frames).find? (·.part = .body) <;> rfl
  · contradiction

end Tac.Lower

namespace Tac

/-- If checking reports no `break` and no `continue`, each of them is in a loop. It is lowered to a
jump to the labels of the innermost loop that has it in its body, if there is such a loop, and to
nothing otherwise. Its code is in the code of the program, as is that of all loops around it, with
their labels. -/
theorem exits_lowered {p : Program} (quiet : ∀ d ∈ p.check.diagnostics.entries,
    d.finding ≠ .breakOutsideLoop ∧ d.finding ≠ .continueOutsideLoop) :
    p.exits.map LoweredExit.exit = Stmt.exitsIn [] p.stmts ∧
      ∀ x ∈ p.exits, x.loops ≠ [] ∧
        x.code = (x.target?.map fun l => .goto (x.goal l.own)).toList ∧
        x.code <:+: p.lower.1.instrs ∧
        ∀ l ∈ x.loops, l.Labelled ∧ l.code <:+: p.lower.1.instrs := by
  have all : p.exits.map LoweredExit.exit = Stmt.exitsIn [] p.stmts :=
    List.map_flatMap.trans (Lower.exits_movesIn p.stmts .start)
  refine ⟨all, fun x mem => ?_⟩
  have inLoop : x.loops ≠ [] := fun outside =>
    inLoop_of_quiet quiet x.exit (all ▸ List.mem_map_of_mem mem) (congrArg (List.map _) outside)
  obtain ⟨t, at_t, mem⟩ := List.mem_flatMap.mp mem
  obtain ⟨loops, jump, adds⟩ := Lower.exit_ofMove mem
  refine ⟨inLoop, jump, infix_lower at_t adds, fun l within => ?_⟩
  rw [loops] at within
  have seen := (Lower.sees_movesIn p.stmts (List.Subset.refl _)).seen t at_t l within
  obtain ⟨labelled, has⟩ := seen.resolve_left List.not_mem_nil
  exact ⟨labelled, infix_of_has has⟩

/-- A loop in a loop: the inner one is left in its body, and there is a `continue` in its update. -/
def nestedExits : Program where
  stmts :=
    [.whileLoop (.literal {} (.bool true)) {}
      [.forLoop none (.literal {} (.bool true)) (some (.continueLoop {})) {} [.breakLoop {}]]]

/-- The `continue` goes to the next round of the outer loop. -/
theorem nestedExits_lowered : (∀ d ∈ nestedExits.check.diagnostics.entries,
      d.finding ≠ .breakOutsideLoop ∧ d.finding ≠ .continueOutsideLoop) ∧
    nestedExits.exits.map (·.code) = [[.goto ⟨6⟩], [.goto ⟨0⟩]] ∧
    ∀ x ∈ nestedExits.exits, x.loops ≠ [] ∧
      x.code = (x.target?.map fun l => .goto (x.goal l.own)).toList := by
  have quiet : ∀ d ∈ nestedExits.check.diagnostics.entries,
      d.finding ≠ .breakOutsideLoop ∧ d.finding ≠ .continueOutsideLoop := by decide +kernel
  refine ⟨quiet, by decide +kernel, fun x mem => ?_⟩
  obtain ⟨inLoop, code, -⟩ := (exits_lowered quiet).2 x mem
  exact ⟨inLoop, code⟩

/-- A loop that is left in its update. -/
def updateBreak : Program where
  stmts := [.forLoop none (.literal {} (.bool true)) (some (.breakLoop {})) {} []]

/-- Nothing is reported, and the `break` does not go to the end of the loop that it is in: it has
no code. -/
theorem updateBreak_dropped : updateBreak.check.diagnostics.entries = [] ∧
    updateBreak.exits.map (·.code) = [[]] ∧
    ¬ ∀ x ∈ updateBreak.exits,
      x.code = (x.loops.head?.map fun l => .goto (x.goal l.own)).toList := by decide +kernel

end Tac

end BraceLang
