import BraceLang.Proofs.Assembly.Discipline
import BraceLang.Proofs.Assembly.Machine

/-!
How many registers of the x87 stack a unit needs. Expressions and arguments nest without a bound,
and the stack has eight registers. But an operand waits on the processor's stack while the next one
is evaluated, so two registers are enough, and a call finds all of them free.

A reading of some lines from the first to the last keeps count of the values on the x87 stack and
ends early at a line that the count does not suit. Behind a line that does not go on, the count is
taken up at zero.

**Main results.** `fits_expr`: the code of an expression, from an empty stack on, suits the count
throughout and leaves its value there, or nothing. `Outline.fitting`: so does that of statements.
`fpu_suffices`: what that means for the paths of a whole program.
-/

namespace BraceLang.Assembly

variable {iface : Interface} {s s' : State}

/-! ### What lines ask of the x87 stack -/

/-- How many values on the x87 stack an instruction reads, with those that it pops. -/
def Instr.fpuReads : Instr → Int
  | fcomip | fpu _ | fprem | fnip => 2
  | fstp _ | fdrop | fisttp _ | fchs => 1
  | movText .. | movNat .. | movReg .. | load _ | loadSigned _ | store _ | storeByte _ | set _
  | widen | cmpZero | cmp | alu _ | neg | flip | cdq | idiv | push _ | pop _ | release _
  | reserve _ | fld _ | fldz | fild _ | fnstsw | sahf | jmp _ | je _ | jp _ | call _ | ret
  | trap => 0

theorem fpu_set {F : Type} (m : Machine F) (r : Reg) (v : BitVec 32) : (m.set r v).fpu = m.fpu := by
  cases r <;> rfl

/-- The machine runs an instruction only if its operands are there, and the number of values on the
x87 stack changes by the effect of the instruction. -/
theorem fpuReads_of_exec {F : Type} {p : Platform F} {m m' : Machine F} {i : Instr}
    (runs : m.exec p i = .ok m') :
    i.fpuReads ≤ m.fpu.length ∧ (m'.fpu.length : Int) = m.fpu.length + (i.effect iface).2 := by
  cases i with
  | idiv =>
      simp only [Machine.exec, Machine.divide] at runs
      split at runs
      · contradiction
      · obtain rfl := Except.ok.inj runs
        simp [Instr.fpuReads, Instr.effect]
  | _ =>
      simp only [Machine.exec] at runs
      -- What is left of an instruction that reads is the case in which its operands are there.
      try split at runs
      all_goals first
        | contradiction
        | (obtain rfl := Except.ok.inj runs
           simp [Instr.fpuReads, Instr.effect, fpu_set, *] <;> omega)

def Line.fpuReads : Line → Int
  | label _ => 0
  | instr i => i.fpuReads

/-- What a line adds to the number of values on the x87 stack. -/
def Line.gain (iface : Interface) : Line → Int
  | label _ => 0
  | instr i => (i.effect iface).2

def Line.isCall : Line → Bool
  | instr (.call _) => true
  | label _ | instr _ => false

/-- The line finds on the x87 stack what it reads, there are at most two values before and behind
it, and none if it is a call. -/
def Line.Suits (iface : Interface) (x : Line) (depth : Int) : Prop :=
  x.fpuReads ≤ depth ∧ depth ≤ 2 ∧ depth + x.gain iface ≤ 2 ∧ (x.isCall = true → depth = 0)

instance (x : Line) (depth : Int) : Decidable (x.Suits iface depth) :=
  inferInstanceAs (Decidable (_ ∧ _))

theorem Line.Suits.nonneg {x : Line} {depth : Int} (suits : x.Suits iface depth) : 0 ≤ depth := by
  refine Int.le_trans ?_ suits.1
  cases x with
  | label t => exact Int.le_refl 0
  | instr i => cases i <;> exact Int.natCast_nonneg _

theorem fpu_afterLine (k : Stacks) (x : Line) :
    (k.afterLine iface x).fpu = k.fpu + x.gain iface := by
  cases x with
  | label t => exact (Int.add_zero _).symm
  | instr i =>
      change (k.after iface i).fpu = k.fpu + (i.effect iface).2
      unfold Stacks.after
      split
      · exact (Int.add_zero _).symm
      · exact (Int.add_zero _).symm
      · exact (Int.add_zero _).symm
      · rfl

/-! ### Readings -/

/-- The number of values on the x87 stack at the next line of a reading. -/
def Line.depthAfter (iface : Interface) (x : Line) (depth : Int) : Int :=
  if x.falls then depth + x.gain iface else 0

/-- The number of values on the x87 stack behind some lines, provided that it suits all of them. -/
def depthThrough (iface : Interface) : Int → List Line → Option Int
  | depth, [] => some depth
  | depth, x :: rest =>
      if x.Suits iface depth then depthThrough iface (x.depthAfter iface depth) rest else none

/-- A reading of the lines that starts with `a` values on the x87 stack suits them and ends with
`b` values. -/
def Fits (iface : Interface) (a : Int) (lines : List Line) (b : Int) : Prop :=
  depthThrough iface a lines = some b

variable {a b c : Int} {lines first second : List Line}

theorem depthThrough_append (depth : Int) (first second : List Line) :
    depthThrough iface depth (first ++ second) =
      (depthThrough iface depth first).bind (depthThrough iface · second) := by
  induction first generalizing depth with
  | nil => rfl
  | cons x rest ih =>
      rw [List.cons_append, depthThrough, depthThrough]
      split
      · exact ih _
      · rfl

namespace Fits

theorem nil : Fits iface a [] a := rfl

theorem append (one : Fits iface a first b) (other : Fits iface b second c) :
    Fits iface a (first ++ second) c := by
  unfold Fits at one other ⊢
  rw [depthThrough_append, one]
  exact other

theorem cons_iff {x : Line} {rest : List Line} :
    Fits iface a (x :: rest) b ↔
      x.Suits iface a ∧ Fits iface (x.depthAfter iface a) rest b := by
  unfold Fits
  rw [depthThrough]
  split
  · rename_i suits
    exact (and_iff_right suits).symm
  · rename_i unsuited
    exact iff_of_false nofun fun both => unsuited both.1

/-- Each of the lines suits the height that the reading has there. -/
theorem suits_at {base k : Stacks} {i : Nat} {x : Line} (fits : Fits iface k.fpu lines b)
    (empty : base.fpu = 0) (here : lines[i]? = some x) :
    x.Suits iface (heightAfter iface base k (lines.take i)).fpu := by
  induction lines generalizing k i with
  | nil => contradiction
  | cons y rest ih =>
      obtain ⟨suits, fits⟩ := cons_iff.mp fits
      cases i with
      | zero =>
          obtain rfl := Option.some.inj here
          exact suits
      | succ i =>
          have next : (readLine iface base k y).fpu = y.depthAfter iface k.fpu := by
            unfold readLine Line.depthAfter
            split
            · exact fpu_afterLine k y
            · exact empty
          exact ih (next.symm ▸ fits) here

end Fits

/-! ### Fixed sequences -/

theorem fits_convert (d : Domain) (t : Ty) :
    Fits iface (depthOf d) (code (convert d t)) (depthOf t.domain) := by
  cases t <;> cases d <;> rfl

theorem fits_pushValue (d : Domain) : Fits iface (depthOf d) (code (pushValue d)) 0 := by
  cases d <;> rfl

theorem fits_dropValue (d : Domain) : Fits iface (depthOf d) (code (dropValue d)) 0 := by
  cases d <;> rfl

theorem fits_loadSlot (slot : Slot) (indexed : Bool) :
    Fits iface 0 (code (loadSlot slot indexed)) (depthOf slot.type.domain) := by
  unfold loadSlot
  cases slot.type <;> rfl

theorem fits_storeSlot (d : Domain) (slot : Slot) (indexed : Bool) :
    Fits iface (depthOf d) (code (storeSlot d slot indexed)) 0 := by
  unfold storeSlot
  cases slot.type <;> cases d <;> rfl

theorem fits_defaultValue (t : Ty) :
    Fits iface 0 (code (defaultValue t)) (depthOf t.domain) := by
  cases t <;> rfl

theorem fits_unaryOp (op : UnOp) (d : Domain) :
    Fits iface (depthOf d) (code (unaryOp op d).1) (depthOf (unaryOp op d).2) := by
  cases op <;> cases d <;> rfl

theorem fits_pushArg (d : Domain) (param : Option Ty) :
    Fits iface (depthOf d) (code (pushArg d param).1) 0 := by
  cases param with
  | none => exact fits_pushValue d
  | some t => cases t <;> cases d <;> rfl

/-- The right operand is on the x87 stack, or in `eax`; the left one comes back from the
processor's stack. -/
theorem fits_binaryOp (op : BinOp) (left right : Domain) (s : State) :
    Fits iface (depthOf right) (binaryOp op left right s).1.1
      (depthOf (binaryOp op left right s).1.2) := by
  cases op <;> cases left <;> cases right <;> rfl

theorem fits_literal (value : Literal) (s : State) :
    Fits iface 0 (code (literal value s).1.1) (depthOf (literal value s).1.2) := by
  cases value with
  | number text =>
      by_cases point : hasPoint text = true
      · simp only [literal, point, if_true]
        rfl
      · simp only [literal, point]
        rfl
  | char text => rfl
  | bool value => rfl

theorem fits_readSlot (name : String) (indexed : Bool) (s : State) :
    Fits iface 0 (code (readSlot name indexed s).1.1) (depthOf (readSlot name indexed s).1.2) := by
  rw [readSlot_eq]
  cases s.env.stack.lookup name with
  | some slot => exact fits_loadSlot slot indexed
  | none => rfl

/-- A call finds the x87 stack empty, and leaves a value there if that is where its value is. -/
theorem fits_callCode (name : String) (bytes : Nat) :
    Fits iface 0 (code (callCode name bytes))
      ((Convention.domain? (iface.conventions.get? name)).elim 0 depthOf) := by
  rw [← returnsDouble_eq]
  unfold callCode
  have gain : (Line.instr (.call name)).gain iface =
      if returnsDouble iface name then 1 else 0 := rfl
  have after : (Line.instr (.call name)).depthAfter iface 0 =
      if returnsDouble iface name then 1 else 0 := (Int.zero_add _).trans gain
  refine Fits.cons_iff.mpr ⟨⟨Int.le_refl 0, by decide, ?_, fun _ => rfl⟩, ?_⟩
  · rw [gain]
    split <;> decide
  · rw [after]
    by_cases pushed : 0 < bytes
    · rw [if_pos pushed]
      split <;> rfl
    · rw [if_neg pushed]
      exact .nil

/-! ### Expressions -/

variable (iface)

mutual

/-- The code of an expression finds the x87 stack empty, and leaves its value there if that is
where it is. -/
theorem fits_expr : (e : Expr) → ∀ s : State,
    Fits iface 0 (expr iface e s).1.1 (depthOf (expr iface e s).1.2)
  | .literal pos value, s => by
      rw [expr_literal]
      exact fits_literal value s
  | .var pos name, s => by
      rw [expr_var]
      exact fits_readSlot name false s
  | .element pos array index, s => by
      rw [expr_element]
      dsimp only
      rw [code_append, code_append]
      have moved : Fits iface 0 (code [.movReg .ecx .eax]) 0 := rfl
      exact (fits_expr index s).append (((fits_convert _ .int).append moved).append
        (fits_readSlot array true _))
  | .unary pos op operand, s => by
      rw [expr_unary]
      exact (fits_expr operand s).append (fits_unaryOp op _)
  | .binary pos op left right, s => by
      rw [expr_binary]
      have waits := (fits_expr left s).append (fits_pushValue (expr iface left s).1.2)
      exact (waits.append (fits_expr right (expr iface left s).2)).append (fits_binaryOp op _ _ _)
  | .call pos name args, s => by
      rw [expr_call]
      dsimp only
      have called := (fits_exprArgs (iface.params name.val) args (callee iface name.val s).2).append
        (fits_callCode name.val
          (exprArgs iface (iface.params name.val) args (callee iface name.val s).2).1.2)
      split
      · rename_i d is
        rwa [is] at called
      · rename_i is
        rw [is] at called
        have zero : Fits iface 0 (code [.movNat .eax 0]) 0 := rfl
        exact called.append zero

/-- Arguments wait on the processor's stack. -/
theorem fits_exprArgs : (params : List Ty) → (args : List Expr) → ∀ s : State,
    Fits iface 0 (exprArgs iface params args s).1.1 0
  | params, [], s => by
      rw [exprArgs_nil]
      exact .nil
  | params, arg :: args, s => by
      rw [exprArgs_cons]
      exact ((fits_exprArgs params.tail args s).append (fits_expr arg _)).append (fits_pushArg _ _)

end

variable {iface}

/-! ### Statements -/

/-- An action finds the x87 stack empty, and leaves a result there if that is where it is. -/
theorem fits_emit {action : Action} {lines : List Line}
    (made : Done (action.emit iface) s lines s') : Fits iface 0 lines (action.depth s) := by
  cases action with
  | test cond =>
      obtain ⟨rfl, rfl⟩ := done_action made
      refine (fits_expr iface cond s).append (?_ : Fits iface (depthOf _) _ 0)
      cases (expr iface cond s).1.2 <;> rfl
  | declare d =>
      rcases done_declaration_lines made with ⟨-, rfl⟩ | ⟨init, slot, -, rfl⟩
      · exact .nil
      · exact (fits_expr iface init s).append (fits_storeSlot _ slot false)
  | assign target index value =>
      obtain ⟨rfl, rfl⟩ := done_action made
      rw [assignment_eq]
      split
      · rename_i slot _
        exact (fits_expr iface value s).append (fits_storeSlot _ slot false)
      · rename_i slot index _
        have pushed : Fits iface 0 (code [.push .eax]) 0 := rfl
        have popped : Fits iface (depthOf (expr iface value (expr iface index s).2).1.2)
            (code [.pop .ecx]) (depthOf (expr iface value (expr iface index s).2).1.2) := by
          cases (expr iface value (expr iface index s).2).1.2 <;> rfl
        dsimp only
        rw [code_append, List.append_assoc]
        exact ((fits_expr iface index s).append ((fits_convert _ .int).append pushed)).append
          ((fits_expr iface value _).append (popped.append (fits_storeSlot _ slot true)))
      · exact (fits_expr iface value _).append (fits_dropValue _)
  | call name args =>
      obtain ⟨rfl, rfl⟩ := done_action made
      rw [callStmt_eq, call_eq]
      dsimp only
      have called := (fits_exprArgs iface (iface.params name.val) args
        (callee iface name.val s).2).append (fits_callCode name.val
          (exprArgs iface (iface.params name.val) args (callee iface name.val s).2).1.2)
      cases is : Convention.domain? (iface.conventions.get? name.val) with
      | none =>
          rw [is] at called
          exact called.append .nil
      | some d =>
          rw [is] at called
          exact called.append (fits_dropValue d)
  | finish value =>
      obtain ⟨rfl, rfl⟩ := done_action made
      rw [resultLines_eq]
      change Fits iface 0 _ (depthOf s.result.domain)
      by_cases isVoid : s.result = .void
      · simp only [isVoid, if_true]
        cases value with
        | none => exact .nil
        | some e => exact (fits_expr iface e s).append (fits_dropValue _)
      · simp only [isVoid, if_false]
        cases value with
        | none => exact fits_defaultValue s.result
        | some e => exact (fits_expr iface e s).append (fits_convert _ s.result)

theorem fits_testLines {cond : Expr} {lines : List Line}
    (made : testLines iface cond s = (lines, s')) : Fits iface 0 lines 0 :=
  fits_emit (show Done (Action.emit iface (.test cond)) s lines s' from done_of_eq made)

/-- The code of the pieces finds the x87 stack empty and leaves it empty. -/
def Fitting (iface : Interface) (pieces : List Piece) : Prop := Fits iface 0 (linesOf pieces) 0

namespace Fitting

variable {before after pieces : List Piece}

theorem nil : Fitting iface [] := Fits.nil

theorem append (one : Fitting iface before) (other : Fitting iface after) :
    Fitting iface (before ++ after) := by
  unfold Fitting at one other ⊢
  rw [linesOf_append]
  exact Fits.append one other

theorem act {action : Action} {lines : List Line} (fits : Fits iface 0 lines 0) :
    Fitting iface [.act action lines] := by
  unfold Fitting
  rw [linesOf_cons, linesOf_nil, List.append_nil]
  exact fits

theorem label (t : Target) : Fitting iface [.line (.label t)] := rfl

theorem jump (t : Target) : Fitting iface [.line (.instr (.jmp t))] := rfl

theorem jumpIf (t : Target) : Fitting iface [.line (.instr (.je t))] := rfl

theorem condition (cond : Expr) {lines : List Line} (t : Target) (fits : Fits iface 0 lines 0) :
    Fitting iface (Assembly.condition cond lines t) :=
  (act fits).append (jumpIf t)

/-- Behind the jump to the end of the unit, the count is taken up at zero. -/
theorem finish {action : Action} {lines : List Line} (d : Domain)
    (fits : Fits iface 0 lines (depthOf d)) :
    Fitting iface [.act action lines, .line (.instr (.jmp .exit))] := by
  have leaves : Fits iface (depthOf d) [.instr (.jmp .exit)] 0 := by cases d <;> rfl
  exact fits.append leaves

end Fitting

variable {targets : Option Targets} {part : Part} {pieces : List Piece}

/-- The code of statements suits the x87 stack throughout. -/
theorem Outline.fitting (outline : Outline iface targets part s pieces s') :
    Fitting iface pieces := by
  induction outline with
  | nil | function _ => exact .nil
  | cons _ _ first rest => exact first.append rest
  | act isAction made =>
      have fits := fits_emit made
      rw [Stmt.depth_action? isAction] at fits
      exact .act fits
  | block _ inside => exact inside
  | @ifThen _ cond _ _ _ _ _ _ _ tested _ inside =>
      exact ((Fitting.condition cond _ (fits_testLines tested)).append inside).append (.label _)
  | @ifElse _ cond _ _ _ _ _ _ _ _ _ _ _ tested _ _ inside otherwise =>
      have first (t : Target) := (Fitting.condition cond t (fits_testLines tested)).append inside
      exact (((first _).append ((Fitting.jump _).append (.label _))).append otherwise).append
        (.label _)
  | @whileLoop _ cond _ _ _ _ _ _ _ tested _ inside =>
      have round (t : Target) := (Fitting.condition cond t (fits_testLines tested)).append inside
      exact ((Fitting.label _).append (round _)).append ((Fitting.jump _).append (.label _))
  | @forLoop _ _ cond _ _ _ _ _ s₁ _ _ _ _ _ _ _ tested _ _ starts inside updates =>
      have round (t : Target) := (Fitting.condition cond t (fits_testLines tested)).append inside
      have again (start next stop : Target) :=
        ((Fitting.label next).append updates).append ((Fitting.jump start).append (.label stop))
      have whole := (starts.append ((Fitting.label (.numbered s₁.labels)).append
        (round (.numbered (s₁.labels + 2))))).append (again (.numbered s₁.labels)
          (.numbered (s₁.labels + 1)) (.numbered (s₁.labels + 2)))
      simpa using whole
  | @breakLoop targets | @continueLoop targets =>
      cases targets with
      | none => exact .nil
      | some t => exact .jump _
  | @returnValue _ _ _ s _ _ made => exact .finish s.result.domain (fits_emit made)

/-! ### Units -/

theorem RoutineOutline.fits {h : Heading} {body : List Stmt} {size : Nat}
    (outline : RoutineOutline iface h body size pieces) : Fits iface 0 (linesOf pieces) 0 := by
  obtain ⟨s, inner, s', inside, rfl⟩ := outline
  have enters : Fits iface 0 (code (prologue size)) 0 := by
    unfold prologue
    split <;> rfl
  have leaves : Fits iface (depthOf (typeOf h.result.val).domain) epilogue 0 := by
    cases (typeOf h.result.val).domain <;> rfl
  simp only [linesOf_append, linesOf_plain]
  exact (enters.append inside.fitting).append ((fits_defaultValue _).append leaves)

/-- The result of `main` does not stay on the x87 stack. -/
theorem fits_finish (s : State) : Fits iface 0 (finish iface s).1 0 := by
  unfold finish
  split
  · have called : (call iface "main" [] s).1.1 = code (callCode "main" 0) := by
      rw [call_eq, exprArgs_nil]
      rfl
    have converts : Fits iface ((call iface "main" [] s).1.2.elim 0 depthOf)
        (code (if (call iface "main" [] s).1.2 = some .float then toInt else [])) 0 := by
      rcases (call iface "main" [] s).1.2 with - | (- | -) <;> rfl
    have exits : Fits iface 0 (.label .exit :: code [.movReg .ebx .eax, .movNat .eax 1, .trap]) 0 :=
      rfl
    have calls : Fits iface 0 (call iface "main" [] s).1.1 _ := called ▸ fits_callCode "main" 0
    exact (calls.append converts).append exits
  · rfl

theorem StartOutline.fits {body : List Stmt} (outline : StartOutline iface body pieces) :
    Fits iface 0 (linesOf pieces) 0 := by
  obtain ⟨inner, s', inside, rfl⟩ := outline
  rw [linesOf_append, linesOf_plain]
  exact Fits.append inside.fitting (fits_finish s')

/-- What holds of a line with the values that are on the x87 stack where control reaches it. -/
theorem Balanced.suits {base : Stacks} {result : Int} (balanced : Balanced iface base result pieces)
    (fits : Fits iface 0 (linesOf pieces) b) {i : Nat} {k : Stacks} {x : Line}
    (reaches : Reaches iface (linesOf pieces) (0, .entry) (i, k))
    (here : (linesOf pieces)[i]? = some x) : x.Suits iface k.fpu := by
  rw [balanced.closed.height reaches]
  have atEntry : Fits iface Stacks.entry.fpu (linesOf pieces) b := fits
  exact atEntry.suits_at balanced.empty here

/-- The use of the x87 stack in a program that code is made for. Wherever control comes to in a
unit, there are at most two values on the stack, before and behind the line that stands there; the
values that the line reads or pops are among them; and none is there if the line is a call. -/
theorem fpu_suffices (p : Program) (l : Listing) (assembled : p.assemble.1 = .ok l) :
    let iface := Interface.ofProgram p
    ∀ lines ∈ l.start :: l.routines.map Routine.lines, ∀ i k x,
      Reaches iface lines (0, .entry) (i, k) → lines[i]? = some x →
        0 ≤ k.fpu ∧ k.fpu ≤ 2 ∧ (k.afterLine iface x).fpu ≤ 2 ∧ x.fpuReads ≤ k.fpu ∧
          (x.isCall = true → k.fpu = 0) := by
  intro iface lines unit i k x reaches here
  obtain ⟨⟨pieces, start, starts⟩, routines⟩ := outline_listing assembled
  suffices suits : x.Suits iface k.fpu by
    obtain ⟨loaded, low, after, empty⟩ := id suits
    rw [fpu_afterLine]
    exact ⟨suits.nonneg, low, after, loaded, empty⟩
  rcases List.mem_cons.mp unit with rfl | unit
  · rw [← starts] at reaches here
    exact start.balanced.suits start.fits reaches here
  · obtain ⟨r, member, rfl⟩ := List.mem_map.mp unit
    obtain ⟨⟨j, inside⟩, rfl⟩ := List.mem_iff_get.mp member
    obtain ⟨-, size, pieces, outline, lines⟩ := routines.get (routines.length_eq ▸ inside) inside
    rw [← lines] at reaches here
    exact outline.balanced.suits outline.fits reaches here

/-- Sums of `double` values with calls of a `double` function in them, one as the argument of
another. -/
def nestedCalls : Program where
  stmts :=
    [.define ⟨⟨"double", {}⟩, ⟨"f", {}⟩, [⟨⟨"double", {}⟩, some ⟨"x", {}⟩⟩]⟩ {}
        [.returnValue {} (some (.binary {} .mod (.var {} "x") (.literal {} (.number "2.5"))))],
      .declare {} ⟨⟨"double", {}⟩, ⟨"d", {}⟩, none,
        some (.binary {} .add (.literal {} (.number "1.5"))
          (.call {} ⟨"f", {}⟩ [.binary {} .add (.literal {} (.number "0.5"))
            (.call {} ⟨"f", {}⟩ [.literal {} (.number "7")])]))⟩]

theorem nestedCalls_suffice : ∃ l, nestedCalls.assemble.1 = .ok l ∧
    (∃ i k, l.start[i]? = some (.instr (.call "f")) ∧
      Reaches (.ofProgram nestedCalls) l.start (0, .entry) (i, k) ∧ k.fpu = 0) ∧
    ∃ i k, l.start[i]? = some (.instr (.fpu .add)) ∧
      Reaches (.ofProgram nestedCalls) l.start (0, .entry) (i, k) ∧ k.fpu = 2 := by
  have made : nestedCalls.assemble.1.toOption.any (fun l =>
      l.start[19]? == some (.instr (.call "f")) && l.start[23]? == some (.instr (.fpu .add)) &&
        (l.start.take 23).all Line.falls) = true := by decide +kernel
  cases assembled : nestedCalls.assemble.1 with
  | error fault =>
      rw [assembled] at made
      contradiction
  | ok l =>
      rw [assembled] at made
      obtain ⟨both, falls⟩ := Bool.and_eq_true_iff.mp made
      obtain ⟨called, added⟩ := Bool.and_eq_true_iff.mp both
      have atCall := beq_iff_eq.mp called
      have atSum := beq_iff_eq.mp added
      obtain ⟨inside, -⟩ := List.getElem?_eq_some_iff.mp atSum
      have path (i : Nat) (before : i ≤ 23) :
          Reaches (.ofProgram nestedCalls) l.start (0, .entry)
            (i, heightAfter (.ofProgram nestedCalls) .entry .entry (l.start.take i)) :=
        reaches_take (by omega) fun x mem =>
          List.all_eq_true.mp falls x (List.take_subset_take_left l.start before mem)
      have suits := fpu_suffices nestedCalls l assembled l.start List.mem_cons_self
      refine ⟨l, rfl, ⟨19, _, atCall, path 19 (by decide), ?_⟩,
        23, _, atSum, path 23 (by decide), ?_⟩
      · exact (suits 19 _ _ (path 19 (by decide)) atCall).2.2.2.2 rfl
      · obtain ⟨-, low, -, loaded, -⟩ := suits 23 _ _ (path 23 (by decide)) atSum
        exact Int.le_antisymm low loaded

end BraceLang.Assembly
