import BraceLang.Check.Stmt
import BraceLang.Proofs.Blocks
import BraceLang.Proofs.Tac.Shape

/-!
The units of lowered code: the top-level code, and every function from its marker up to the next
one.

A function is lowered in the middle of whatever is around it, and its code is set aside. It does
not forget the loop that it stands in: a `break` or `continue` in it that has no loop of its own
goes to that loop, in the code of another function or of the top level.

* **`functions_lowered`**: every function definition of a tree, nested ones included, has a unit of
  its own, with its marker and the code of its body;
* **`jumps_inside_iff`**: all jumps go to labels of their own unit exactly if no `break` or
  `continue` leads out of its function.
-/

namespace BraceLang

/-! ### Functions of a tree -/

namespace Stmt

mutual

/-- The functions that a statement defines, wherever in it, in the order they end. -/
def functions : Stmt → List (Heading × List Stmt)
  | .define heading _ body => functionsIn body ++ [(heading, body)]
  | .block _ body | .ifThen _ _ body | .whileLoop _ _ body => functionsIn body
  | .ifElse _ _ body _ elseBody => functionsIn body ++ functionsIn elseBody
  | .forLoop init _ update _ body => functionsBy init ++ (functionsIn body ++ functionsBy update)
  | .declare .. | .prototype .. | .assign .. | .call .. | .breakLoop _ | .continueLoop _
  | .returnValue .. => []

/-- The functions that a part of a `for` header defines. -/
def functionsBy : Option Stmt → List (Heading × List Stmt)
  | none => []
  | some x => x.functions

def functionsIn : List Stmt → List (Heading × List Stmt)
  | [] => []
  | x :: rest => x.functions ++ functionsIn rest

end

end Stmt

/-- The innermost loop with a statement in its body, as seen from the function around it. -/
inductive Around where
  /-- There is no such loop. -/
  | nothing
  /-- The loop is in the same function. -/
  | own
  /-- The loop is around the function. -/
  | foreign
deriving DecidableEq, Repr

/-- At the start of the body of a function. -/
def Around.enter : Around → Around
  | nothing => nothing
  | own | foreign => foreign

namespace Stmt

mutual

/-- Every `break` and `continue` in the statement that leads anywhere stays in its function. -/
def staysInside (around : Around) : Stmt → Bool
  | .breakLoop _ | .continueLoop _ => around != .foreign
  | .define _ _ body => allStayInside around.enter body
  | .block _ body | .ifThen _ _ body => allStayInside around body
  | .ifElse _ _ body _ elseBody => allStayInside around body && allStayInside around elseBody
  | .whileLoop _ _ body => allStayInside .own body
  -- The header of a `for` loop is not in its body.
  | .forLoop init _ update _ body =>
      headerStaysInside around init && (allStayInside .own body && headerStaysInside around update)
  | .declare .. | .prototype .. | .assign .. | .call .. | .returnValue .. => true

def headerStaysInside (around : Around) : Option Stmt → Bool
  | none => true
  | some x => x.staysInside around

def allStayInside (around : Around) : List Stmt → Bool
  | [] => true
  | x :: rest => x.staysInside around && allStayInside around rest

end

end Stmt

namespace Tac

/-! ### Units -/

/-- The instruction starts a function. -/
def Instr.isMarker : Instr → Bool
  | function .. => true
  | _ => false

/-- Where the instruction may jump to. -/
def Instr.jump? : Instr → Option Label
  | goto target | branch _ target => some target
  | _ => none

/-- Code is divided in front of every function marker. -/
def units (code : List Instr) : List (List Instr) := blocksAt Instr.isMarker code

/-- Every jump goes to a label that is there. -/
def IsClosed (u : List Instr) : Prop := ∀ i ∈ u, ∀ l, i.jump? = some l → .label l ∈ u

instance (u : List Instr) : Decidable (IsClosed u) :=
  decidable_of_iff (∀ i ∈ u, ∀ l ∈ i.jump?, .label l ∈ u) Iff.rfl

/-- The code of a function: a marker with its name, and the code of its body. -/
def IsCodeOf (d : Heading × List Stmt) (u : List Instr) : Prop :=
  ∃ params targets s, u = .function d.1.name.val params :: (Lower.stmts targets d.2 s).1 ∧
    ∀ i ∈ (Lower.stmts targets d.2 s).1, i.isMarker = false

theorem blocks_functions {fs : List (Heading × List Stmt)} {us : List (List Instr)}
    (functions : List.Forall₂ IsCodeOf fs us) : ∀ u ∈ us, IsBlock Instr.isMarker u := by
  induction functions with
  | nil => exact nofun
  | cons is _ ih =>
      obtain ⟨params, targets, s, rfl, unmarked⟩ := is
      exact List.forall_mem_cons.mpr ⟨⟨_, _, rfl, rfl, unmarked⟩, ih⟩

/-- The units of code that functions follow. -/
theorem units_lowered {top : List Instr} {fs : List (Heading × List Stmt)}
    {us : List (List Instr)} (unmarked : ∀ i ∈ top, i.isMarker = false)
    (functions : List.Forall₂ IsCodeOf fs us) :
    units (top ++ us.flatten) = units top ++ us ∧ ∀ u ∈ units top, u = top :=
  blocksAt_behind unmarked (blocks_functions functions)

/-! ### Jumps of lowered code -/

/-- No jump goes to one of the labels. -/
def Avoids (labels : List Label) (code : List Instr) : Prop :=
  ∀ i ∈ code, ∀ l, i.jump? = some l → l ∉ labels

theorem avoids_append {labels : List Label} {first second : List Instr} :
    Avoids labels (first ++ second) ↔ Avoids labels first ∧ Avoids labels second :=
  List.forall_mem_append

theorem jump?_of_not_boundary {i : Instr} (straight : i.isBoundary = false) : i.jump? = none := by
  cases i <;> first | rfl | contradiction

theorem isMarker_of_not_boundary {i : Instr} (straight : i.isBoundary = false) :
    i.isMarker = false := by
  cases i <;> first | rfl | contradiction

namespace Lower

mutual

/-- Expressions are lowered to straight code. -/
theorem straight_lowerExpr (resolve : String → String) : (e : Expr) → ∀ next,
    ∀ i ∈ (lowerExpr resolve next e).instrs, i.isBoundary = false
  | .literal .., _ | .var .., _ => nofun
  | .element _ _ index, next => straight_lowerExpr resolve index next
  | .unary _ op operand, next => by
      rw [lowerExpr, List.forall_mem_append, List.forall_mem_singleton]
      exact ⟨straight_lowerExpr resolve operand next, rfl⟩
  | .binary _ op left right, next => by
      rw [lowerExpr, List.forall_mem_append, List.forall_mem_append, List.forall_mem_singleton]
      exact ⟨⟨straight_lowerExpr resolve left next, straight_lowerExpr resolve right _⟩, rfl⟩
  | .call _ callee args, next => by
      rw [lowerExpr, ArgsCode.call, List.forall_mem_append, List.forall_mem_singleton]
      exact ⟨straight_lowerArgs resolve args next, rfl⟩

theorem straight_lowerArgs (resolve : String → String) : (args : List Expr) → ∀ next,
    ∀ i ∈ (lowerArgs resolve next args).instrs, i.isBoundary = false
  | [], _ => nofun
  | arg :: args, next => by
      rw [lowerArgs, List.forall_mem_append]
      exact ⟨straight_lowerExpr resolve arg next, straight_lowerArgs resolve args _⟩

end

theorem straight_expr (e : Expr) (s : State) : ∀ i ∈ (expr e s).1.1, i.isBoundary = false :=
  straight_lowerExpr s.resolve e s.supply.temps

/-- The labels of the innermost loop. -/
def labelsOf (targets : Option Targets) : List Label := targets.elim [] fun t => [t.next, t.stop]

/-- Code that is lowered in a loop with the labels `outer`, after the functions `before`. It jumps
to its own labels and to known ones. The units of the functions that it defines are set aside, and
none of its jumps goes out of its function if the tree says so. -/
structure Lowered (around : Around) (outer known : List Label)
    (functions : List (Heading × List Stmt)) (stays : Bool) (before code after : List Instr)
    (us : List (List Instr)) : Prop where
  aside : after = before ++ us.flatten
  bodies : List.Forall₂ IsCodeOf functions us
  unmarked : ∀ i ∈ code, i.isMarker = false
  jumps : ∀ i ∈ code, ∀ l, i.jump? = some l → .label l ∈ code ∨ l ∈ known
  stays : stays = true ↔ (∀ u ∈ us, IsClosed u) ∧ (around = .foreign → Avoids outer code)

namespace Lowered

variable {around : Around} {outer known : List Label} {fs fs' : List (Heading × List Stmt)}
  {b b' : Bool} {before middle after code code' : List Instr} {us us' : List (List Instr)}

theorem append (first : Lowered around outer known fs b before code middle us)
    (second : Lowered around outer known fs' b' middle code' after us') :
    Lowered around outer known (fs ++ fs') (b && b') before (code ++ code') after (us ++ us') where
  aside := by rw [second.aside, first.aside, List.flatten_append, List.append_assoc]
  bodies := List.rel_append first.bodies second.bodies
  unmarked := List.forall_mem_append.mpr ⟨first.unmarked, second.unmarked⟩
  jumps := by
    refine List.forall_mem_append.mpr ⟨fun i mem l jump => ?_, fun i mem l jump => ?_⟩
    · exact (first.jumps i mem l jump).imp_left (List.mem_append_left _)
    · exact (second.jumps i mem l jump).imp_left (List.mem_append_right _)
  stays := by
    rw [Bool.and_eq_true, first.stays, second.stays, List.forall_mem_append, avoids_append]
    tauto

/-- Code that defines nothing and does not leave a function. -/
theorem plain (unmarked : ∀ i ∈ code, i.isMarker = false)
    (jumps : ∀ i ∈ code, ∀ l, i.jump? = some l → l ∈ known) (avoids : Avoids outer code) :
    Lowered around outer known [] true before code before [] where
  aside := (List.append_nil before).symm
  bodies := .nil
  unmarked := unmarked
  jumps i mem l jump := .inr (jumps i mem l jump)
  stays := ⟨fun _ => ⟨nofun, fun _ => avoids⟩, fun _ => rfl⟩

theorem straight (straight : ∀ i ∈ code, i.isBoundary = false) :
    Lowered around outer known [] true before code before [] := by
  have stays (i) (mem : i ∈ code) (l) : i.jump? ≠ some l := by
    rw [jump?_of_not_boundary (straight i mem)]
    exact nofun
  exact plain (fun i mem => isMarker_of_not_boundary (straight i mem))
    (fun i mem l jump => (stays i mem l jump).elim) (fun i mem l jump => (stays i mem l jump).elim)

theorem label (l : Label) : Lowered around outer known [] true before [.label l] before [] :=
  plain (by simp [Instr.isMarker]) (by simp [Instr.jump?]) (by simp [Avoids, Instr.jump?])

/-- The way out of one part of a statement, and the start of the next one. -/
theorem goto {l : Label} (mem : l ∈ known) (new : l ∉ outer) (next : Label) :
    Lowered around outer known [] true before [.goto l, .label next] before [] :=
  plain (by simp [Instr.isMarker]) (by simpa [Instr.jump?] using mem)
    (by simpa [Avoids, Instr.jump?] using new)

theorem branching (cond : Expr) (s : State) {holds fails : Label} (mem : holds ∈ known)
    (mem' : fails ∈ known) (new : holds ∉ outer) (new' : fails ∉ outer) :
    Lowered around outer known [] true before (Lower.branching (expr cond s).1 holds fails) before
      [] := by
  change Lowered around outer known ([] ++ []) (true && true) before _ before ([] ++ [])
  refine append (straight (straight_expr cond s)) (plain ?_ ?_ ?_)
  · simp [Instr.isMarker]
  · simp [Instr.jump?, mem, mem']
  · simp [Avoids, Instr.jump?, new, new']

theorem mono (lowered : Lowered around outer known fs b before code after us)
    {known' : List Label} (more : known ⊆ known') :
    Lowered around outer known' fs b before code after us :=
  { lowered with jumps := fun i mem l jump => (lowered.jumps i mem l jump).imp_right (@more l) }

/-- A label that is there need not be known. -/
theorem close {l : Label} (lowered : Lowered around outer (l :: known) fs b before code after us)
    (there : .label l ∈ code) : Lowered around outer known fs b before code after us :=
  { lowered with
    jumps := by
      intro i mem l' jump
      rcases lowered.jumps i mem l' jump with here | here
      · exact .inl here
      · rcases List.mem_cons.mp here with rfl | here
        · exact .inl there
        · exact .inr here }

/-- The body of a loop has labels of its own to go to, and does not go to those of another. -/
theorem body {own : List Label} (lowered : Lowered .own own own fs b before code after us)
    (more : own ⊆ known) (new : ∀ l, .label l ∈ code ∨ l ∈ own → l ∉ outer) :
    Lowered around outer known fs b before code after us :=
  { lowered.mono more with
    stays := by
      rw [lowered.stays]
      refine and_congr_right fun _ => ⟨fun _ _ i mem l jump => ?_, fun _ => nofun⟩
      exact new l (lowered.jumps i mem l jump) }

/-- A function does not stand in a loop of its own. Its jumps stay in it unless they go to the loop
around it. -/
theorem isClosed_iff (lowered : Lowered around outer outer fs b before code after us)
    (notOwn : around ≠ .own) (nothing : around = .nothing → outer = [])
    (new : ∀ l, .label l ∈ code → l ∉ outer) (name : String) (params : List String) :
    IsClosed (.function name params :: code) ↔ (around = .foreign → Avoids outer code) := by
  constructor
  · intro closed _ i mem l jump
    have there := closed i (List.mem_cons_of_mem _ mem) l jump
    exact new l ((List.mem_cons.mp there).resolve_left nofun)
  · intro avoids i mem l jump
    rcases List.mem_cons.mp mem with rfl | mem
    · contradiction
    · refine List.mem_cons_of_mem _ ((lowered.jumps i mem l jump).resolve_right fun known => ?_)
      cases around with
      | nothing => rw [nothing rfl] at known; contradiction
      | own => contradiction
      | foreign => exact avoids rfl i mem l jump known

end Lowered

/-! ### Statements -/

/-- Where lowering stands: it is in a loop or not, and the labels of the loop are old. -/
structure Stands (around : Around) (targets : Option Targets) (s : State) : Prop where
  nothing : around = .nothing ↔ targets = none
  older : ∀ l ∈ labelsOf targets, l.id < s.supply.labels

theorem Stands.later {around : Around} {targets : Option Targets} {s s' : State}
    (stands : Stands around targets s) (later : s.supply.labels ≤ s'.supply.labels) :
    Stands around targets s' :=
  ⟨stands.nothing, fun l mem => Nat.lt_of_lt_of_le (stands.older l mem) later⟩

theorem Stands.new {around : Around} {targets : Option Targets} {s : State} {l : Label}
    (stands : Stands around targets s) (new : s.supply.labels ≤ l.id) : l ∉ labelsOf targets :=
  fun mem => Nat.not_lt_of_le new (stands.older l mem)

theorem Stands.label {around : Around} {targets : Option Targets} {s : State}
    (stands : Stands around targets s) (k : Nat) : s.label k ∉ labelsOf targets :=
  stands.new (Nat.le_add_right _ k)

/-- In the body of a loop. -/
theorem Stands.inLoop {next stop : Label} {s : State} (next_lt : next.id < s.supply.labels)
    (stop_lt : stop.id < s.supply.labels) : Stands .own (some ⟨next, stop⟩) s where
  nothing := ⟨nofun, nofun⟩
  older := by simpa [labelsOf] using ⟨next_lt, stop_lt⟩

/-- Labels that code places are taken for it. -/
theorem Places.new {code : List Instr} {s s' : State} (places : Places code s s')
    {us : List (List Instr)} (aside : s'.functions = s.functions ++ us.flatten) {l : Label}
    (mem : .label l ∈ code) : s.supply.labels ≤ l.id := by
  have counted := places.count l
  have one : 0 < code.count (.label l) := List.count_pos_iff.mpr mem
  rw [aside, List.count_append, within] at counted
  split at counted <;> omega

/-- A jump out of the innermost loop, or to its next round. -/
theorem Lowered.exit {around : Around} {targets : Option Targets} {s : State}
    {before : List Instr} (stands : Stands around targets s) {goal : Targets → Label}
    (mem : ∀ t, goal t ∈ labelsOf (some t)) :
    Lowered around (labelsOf targets) (labelsOf targets) [] (around != .foreign) before
      (targets.map fun t => Instr.goto (goal t)).toList before [] := by
  cases targets with
  | none =>
      obtain rfl := stands.nothing.mpr rfl
      exact .straight nofun
  | some t =>
      refine ⟨(List.append_nil _).symm, .nil, by simp [Instr.isMarker], ?_, ?_⟩
      · simpa [Instr.jump?] using mem t
      · have known := mem t
        simp [Avoids, Instr.jump?, known]

/-- What is to be shown of a statement. -/
def Lowers (x : Stmt) : Prop := ∀ {around targets s}, Stands around targets s →
  ∃ us, Lowered around (labelsOf targets) (labelsOf targets) x.functions (x.staysInside around)
    s.functions (stmt targets x s).1 (stmt targets x s).2.functions us

def LowersHeader (part : Option Stmt) : Prop := ∀ {around targets s}, Stands around targets s →
  ∃ us, Lowered around (labelsOf targets) (labelsOf targets) (Stmt.functionsBy part)
    (Stmt.headerStaysInside around part) s.functions (header targets part s).1
    (header targets part s).2.functions us

def LowersAll (body : List Stmt) : Prop := ∀ {around targets s}, Stands around targets s →
  ∃ us, Lowered around (labelsOf targets) (labelsOf targets) (Stmt.functionsIn body)
    (Stmt.allStayInside around body) s.functions (stmts targets body s).1
    (stmts targets body s).2.functions us

/-- The body of a loop, as a part of code around it. -/
theorem LowersAll.body {body : List Stmt} (lowers : LowersAll body) (around' : Around)
    (known : List Label) {around : Around} {outer : Option Targets} {own : Targets} {s s' : State}
    (stands : Stands around outer s) (later : s.supply.labels ≤ s'.supply.labels)
    (inside : Stands .own (some own) s') (new : ∀ l ∈ labelsOf (some own), s.supply.labels ≤ l.id)
    (more : labelsOf (some own) ⊆ known) :
    ∃ us, Lowered around' (labelsOf outer) known (Stmt.functionsIn body)
      (Stmt.allStayInside .own body) s'.functions (stmts (some own) body s').1
      (stmts (some own) body s').2.functions us := by
  obtain ⟨us, lowered⟩ := lowers inside
  refine ⟨us, lowered.body more fun l here => stands.new ?_⟩
  rcases here with placed | known
  · exact later.trans ((places_stmts (some own) body s').new lowered.aside placed)
  · exact new l known

/-- A function body is set aside with its marker, behind the functions that it defines. -/
theorem lowers_define (heading : Heading) (braces : Braces) {body : List Stmt}
    (inside : LowersAll body) : Lowers (.define heading braces body) := by
  intro around targets s stands
  have unchanged := params_unchanged heading.params (openScope s).2
  have taken : s.supply.labels = (s.inside heading).supply.labels :=
    (congrArg Supply.labels unchanged.1).symm
  have entered : Stands around.enter targets (s.inside heading) := by
    refine ⟨?_, (stands.later (Nat.le_of_eq taken)).older⟩
    rw [← stands.nothing]
    cases around <;> simp [Around.enter]
  obtain ⟨us, lowered⟩ := inside entered
  have aside := lowered.aside
  have same : (s.inside heading).functions = s.functions := unchanged.2
  have closed := lowered.isClosed_iff (by cases around <;> simp [Around.enter])
    (fun nothing => by rw [entered.nothing.mp nothing]; rfl)
    (fun l placed => entered.new ((places_stmts targets body _).new aside placed))
    heading.name.val (params heading.params (openScope s).2).1
  refine ⟨us ++ [.function heading.name.val (params heading.params (openScope s).2).1 ::
    (stmts targets body (s.inside heading)).1], ?_⟩
  rw [stmt_define]
  exact
    { aside := by simp [aside, same]
      bodies := List.rel_append lowered.bodies (.cons ⟨_, targets, _, rfl, lowered.unmarked⟩ .nil)
      unmarked := nofun
      jumps := nofun
      stays := by
        rw [Stmt.staysInside, lowered.stays, ← closed, List.forall_mem_append,
          List.forall_mem_singleton]
        exact ⟨fun h => ⟨h, fun _ => nofun⟩, fun h => h.1⟩ }

theorem lowers_ifThen (cond : Expr) (braces : Braces) {body : List Stmt}
    (inside : LowersAll body) : Lowers (.ifThen cond braces body) := by
  intro around targets s stands
  obtain ⟨us, inner⟩ := inside (s := (openScope ((expr cond s).2.skip 2)).2)
    (stands.later (Nat.le_add_right _ 2))
  have more : labelsOf targets ⊆ s.label 0 :: s.label 1 :: labelsOf targets :=
    fun l mem => .tail _ (.tail _ mem)
  have whole := ((Lowered.branching cond s (.head _) (.tail _ (.head _)) (stands.label 0)
    (stands.label 1)).append (inner.mono more)).append (.label (s.label 1))
  have closed := (whole.close (by simp [branching])).close (by simp)
  simp only [List.append_nil, Bool.and_true] at closed
  exact ⟨us, closed⟩

theorem lowers_ifElse (cond : Expr) (braces elseBraces : Braces) {body elseBody : List Stmt}
    (inside : LowersAll body) (otherwise : LowersAll elseBody) :
    Lowers (.ifElse cond braces body elseBraces elseBody) := by
  intro around targets s stands
  let code := inScope (stmts targets body) ((expr cond s).2.skip 2)
  have le : s.supply.labels ≤ code.2.supply.labels :=
    Nat.le_trans (Nat.le_add_right _ 2)
      (places_inScope (places_stmts targets body) ((expr cond s).2.skip 2)).le
  obtain ⟨us, inner⟩ := inside (s := (openScope ((expr cond s).2.skip 2)).2)
    (stands.later (Nat.le_add_right _ 2))
  obtain ⟨us', other⟩ := otherwise (s := (openScope (code.2.skip 1)).2)
    (stands.later (Nat.le_trans le (Nat.le_add_right _ 1)))
  have more : labelsOf targets ⊆ s.label 0 :: code.2.label 0 :: s.label 1 :: labelsOf targets :=
    fun l mem => .tail _ (.tail _ (.tail _ mem))
  have whole := ((((Lowered.branching cond s (.head _) (.tail _ (.tail _ (.head _)))
    (stands.label 0) (stands.label 1)).append (inner.mono more)).append
      (.goto (.tail _ (.head _)) (stands.new (Nat.le_trans le (Nat.le_add_right _ 0)))
        (s.label 1))).append (other.mono more)).append (.label (code.2.label 0))
  have closed := ((whole.close (by simp [branching])).close (by simp)).close (by simp)
  simp only [List.append_nil, Bool.and_true] at closed
  exact ⟨us ++ us', closed⟩

theorem lowers_whileLoop (cond : Expr) (braces : Braces) {body : List Stmt}
    (lowers : LowersAll body) : Lowers (.whileLoop cond braces body) := by
  intro around targets s stands
  have inside : Stands .own (some ⟨s.label 0, s.label 2⟩)
      (openScope (expr cond (s.skip 3)).2).2 :=
    .inLoop (Nat.add_lt_add_left (by decide) _) (Nat.add_lt_add_left (by decide) _)
  obtain ⟨us, inner⟩ := lowers.body around
    (s.label 0 :: s.label 1 :: s.label 2 :: labelsOf targets) stands
    (Nat.le_add_right _ 3) inside (by simp [labelsOf, State.label]) (by simp [labelsOf])
  have whole := ((Lowered.label (s.label 0)).append (.branching cond (s.skip 3)
    (.tail _ (.head _)) (.tail _ (.tail _ (.head _))) (stands.label 1)
      (stands.label 2))).append inner |>.append (.goto (.head _) (stands.label 0) (s.label 2))
  have closed := ((whole.close (by simp)).close (by simp [branching])).close (by simp)
  simp only [List.append_nil, Bool.and_true] at closed
  exact ⟨us, closed⟩

/-- The parts of a `for` header stand in the loop around it. -/
theorem lowers_forLoop {init : Option Stmt} (cond : Expr) {update : Option Stmt} (braces : Braces)
    {body : List Stmt} (begins : LowersHeader init) (lowers : LowersAll body)
    (steps : LowersHeader update) : Lowers (.forLoop init cond update braces body) := by
  intro around targets s stands
  obtain ⟨us, starts⟩ := begins (s := (openScope s).2) ⟨stands.nothing, stands.older⟩
  let s₁ := (header targets init (openScope s).2).2
  have stands₁ : Stands around targets s₁ :=
    stands.later (places_header targets init (openScope s).2).le
  let code := inScope (stmts (some ⟨s₁.label 2, s₁.label 3⟩) body) (expr cond (s₁.skip 4)).2
  have le : s₁.supply.labels ≤ code.2.supply.labels :=
    Nat.le_trans (Nat.le_add_right _ 4) (places_inScope
      (places_stmts (some ⟨s₁.label 2, s₁.label 3⟩) body) (expr cond (s₁.skip 4)).2).le
  have inside : Stands .own (some ⟨s₁.label 2, s₁.label 3⟩)
      (openScope (expr cond (s₁.skip 4)).2).2 :=
    .inLoop (Nat.add_lt_add_left (by decide) _) (Nat.add_lt_add_left (by decide) _)
  let known := s₁.label 0 :: s₁.label 1 :: s₁.label 2 :: s₁.label 3 :: labelsOf targets
  obtain ⟨us', inner⟩ := lowers.body around known stands₁ (Nat.le_add_right _ 4) inside
    (by simp [labelsOf, State.label]) (by simp [labelsOf, known])
  obtain ⟨us'', updates⟩ := steps (stands₁.later le)
  have more : labelsOf targets ⊆ known :=
    fun l mem => .tail _ (.tail _ (.tail _ (.tail _ mem)))
  have tests : Lowered around (labelsOf targets) known [] true s₁.functions _ s₁.functions [] :=
    .branching cond (s₁.skip 4) (.tail _ (.head _)) (.tail _ (.tail _ (.tail _ (.head _))))
      (stands₁.label 1) (stands₁.label 3)
  have whole := (starts.mono more).append (((((Lowered.label (s₁.label 0)).append tests).append
    inner).append ((Lowered.label (s₁.label 2)).append (updates.mono more))).append
      (.goto (.head _) (stands₁.label 0) (s₁.label 3)))
  have closed := (((whole.close (by simp)).close (by simp [branching])).close
    (by simp)).close (by simp)
  simp only [List.append_nil, Bool.and_true] at closed
  refine ⟨us ++ (us' ++ us''), ?_⟩
  rw [stmt_forLoop]
  exact closed

mutual

theorem lowers_stmt : (x : Stmt) → Lowers x
  | .declare _ ⟨type, name, length, none⟩, around, targets, s, _ => by
      refine ⟨[], ?_⟩
      rw [stmt, declaration_none, functions_declared]
      exact .straight nofun
  | .declare _ ⟨type, name, length, some init⟩, around, targets, s, _ => by
      refine ⟨[], ?_⟩
      rw [stmt, declaration_some, functions_declared]
      exact (Lowered.straight (straight_expr init s)).append
        (.straight (by simp [Instr.isBoundary]))
  | .prototype .., _, _, _, _ => ⟨[], .straight nofun⟩
  | .define heading braces body, _, _, _, stands =>
      lowers_define heading braces (lowers_stmts body) stands
  | .assign _ target none value, around, targets, s, _ => by
      refine ⟨[], ?_⟩
      rw [stmt, assignment_none]
      exact (Lowered.straight (straight_expr value s)).append
        (.straight (by simp [Instr.isBoundary]))
  | .assign _ target (some index) value, around, targets, s, _ => by
      refine ⟨[], ?_⟩
      rw [stmt, assignment_some]
      exact ((Lowered.straight (straight_expr index s)).append
        (.straight (straight_expr value _))).append (.straight (by simp [Instr.isBoundary]))
  | .call _ callee args, around, targets, s, _ =>
      ⟨[], .straight (straight_lowerExpr s.resolve (.call {} callee args) s.supply.temps)⟩
  | .block _ body, around, targets, s, stands =>
      lowers_stmts body (s := (openScope s).2) ⟨stands.nothing, stands.older⟩
  | .ifThen cond braces body, _, _, _, stands =>
      lowers_ifThen cond braces (lowers_stmts body) stands
  | .ifElse cond braces body elseBraces elseBody, _, _, _, stands =>
      lowers_ifElse cond braces elseBraces (lowers_stmts body) (lowers_stmts elseBody) stands
  | .whileLoop cond braces body, _, _, _, stands =>
      lowers_whileLoop cond braces (lowers_stmts body) stands
  | .forLoop init cond update braces body, _, _, _, stands =>
      lowers_forLoop cond braces (lowers_header init) (lowers_stmts body) (lowers_header update)
        stands
  | .breakLoop _, _, _, _, stands | .continueLoop _, _, _, _, stands =>
      ⟨[], .exit stands fun t => by simp [labelsOf]⟩
  | .returnValue _ none, _, _, _, _ => ⟨[], .straight (List.forall_mem_singleton.mpr rfl)⟩
  | .returnValue _ (some e), around, targets, s, _ =>
      ⟨[], (Lowered.straight (straight_expr e s)).append (.straight (by simp [Instr.isBoundary]))⟩

theorem lowers_header : (part : Option Stmt) → LowersHeader part
  | none, _, _, _, _ => ⟨[], .straight nofun⟩
  | some x, _, _, _, stands => lowers_stmt x stands

theorem lowers_stmts : (body : List Stmt) → LowersAll body
  | [], _, _, _, _ => ⟨[], .straight nofun⟩
  | x :: rest, around, targets, s, stands => by
      obtain ⟨us, first⟩ := lowers_stmt x stands
      obtain ⟨us', others⟩ := lowers_stmts rest (stands.later (places_stmt targets x s).le)
      rw [stmts_cons]
      exact ⟨us ++ us', first.append others⟩

end

end Lower

/-! ### Programs -/

open Lower (Lowered Stands)

/-- The code of a program is its top-level code and then the functions that were set aside. -/
theorem lowered_program (p : Program) : ∃ top us, p.lower.1.instrs = top ++ us.flatten ∧
    Lowered .nothing [] [] (Stmt.functionsIn p.stmts) (Stmt.allStayInside .nothing p.stmts) []
      top us.flatten us := by
  have stands : Stands .nothing none (Lower.openScope {}).2 := ⟨by simp, nofun⟩
  obtain ⟨us, lowered⟩ := Lower.lowers_stmts p.stmts stands
  have aside : _ = us.flatten := lowered.aside
  refine ⟨(Lower.stmts none p.stmts (Lower.openScope {}).2).1, us, ?_, aside ▸ lowered⟩
  rw [← aside]
  rfl

/-- Each function that is defined anywhere in a program has a unit in its code: a marker with its
name, and the code of its body. What is in front of them is the only other unit. -/
theorem functions_lowered (p : Program) : ∃ top us, units p.lower.1.instrs = units top ++ us ∧
    (∀ u ∈ units top, ∀ i ∈ u, i.isMarker = false) ∧
    List.Forall₂ IsCodeOf (Stmt.functionsIn p.stmts) us := by
  obtain ⟨top, us, instrs, lowered⟩ := lowered_program p
  obtain ⟨divided, alone⟩ := units_lowered lowered.unmarked lowered.bodies
  refine ⟨top, us, instrs ▸ divided, fun u mem => ?_, lowered.bodies⟩
  rw [alone u mem]
  exact lowered.unmarked

/-- All jumps of a program stay in their unit exactly if no `break` or `continue` in the body of a
function leads to a loop around the function. -/
theorem jumps_inside_iff (p : Program) : (∀ u ∈ units p.lower.1.instrs, IsClosed u) ↔
    Stmt.allStayInside .nothing p.stmts = true := by
  obtain ⟨top, us, instrs, lowered⟩ := lowered_program p
  obtain ⟨divided, alone⟩ := units_lowered lowered.unmarked lowered.bodies
  rw [lowered.stays, instrs, divided, List.forall_mem_append]
  constructor
  · exact fun closed => ⟨closed.2, nofun⟩
  · refine fun closed => ⟨fun u mem => ?_, closed.1⟩
    obtain rfl := alone u mem
    exact fun i mem l jump => (lowered.jumps i mem l jump).resolve_right List.not_mem_nil

/-- A function that is defined in a loop and leaves that loop. -/
def strayBreak : Program where
  stmts :=
    [.whileLoop (.literal {} (.bool true)) {}
      [.define ⟨⟨"int", {}⟩, ⟨"f", {}⟩, []⟩ {}
        [.breakLoop {}, .returnValue {} (some (.literal {} (.number "1")))]]]

/-- The program is accepted, and `f` has a jump to the end of a loop that is not in it. -/
theorem strayBreak_leaves : strayBreak.check.diagnostics.hasErrors = false ∧
    [.function "f" [], .goto ⟨2⟩, .ret (some (.const "1"))] ∈ units strayBreak.lower.1.instrs ∧
    ¬ ∀ u ∈ units strayBreak.lower.1.instrs, IsClosed u := by decide +kernel

end Tac

end BraceLang
