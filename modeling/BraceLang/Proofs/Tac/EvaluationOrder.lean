import BraceLang.Proofs.Tac.Activations
import BraceLang.Proofs.Tac.Expressions
import BraceLang.Proofs.Tac.Folding
import BraceLang.Proofs.Tac.Represent
import BraceLang.Proofs.Tac.Units

/-!
The order in which lowered code reads operands, where callees may change shared variables.

Strict evaluation goes from the left: an operand has its value before anything to its right is
evaluated (`inOrder?`). The code does the calls in that order too, but a variable or an element is
an operand that is read only by the instruction that uses it (`deferred?`). So a call to the right
of a shared variable comes before the variable is read.

* **`runs_deferred`**: the code of every expression computes its deferred value;
* **`deferred_of_inOrder`**: where no shared variable waits for a call, the deferred value is the
  strict one;
* **`differ_expr`**: and nowhere else, since in terms that record when a variable was read the two
  differ;
* **`lowered_evaluatesInOrder`**: so the code of each expression of a program evaluates its operands
  from the left, whatever its callees do, exactly if no shared variable waits for a call.
-/

namespace BraceLang

namespace Expr

/-- The expression makes a call. -/
def hasCall : Expr → Bool
  | literal .. | var .. => false
  | element _ _ index => index.hasCall
  | unary _ _ operand => operand.hasCall
  | binary _ _ left right => left.hasCall || right.hasCall
  | call .. => true

/-- The operand of the expression is read in the shared store when it is used: it is a shared
variable, an element of a shared array, or an element whose index is such an operand. -/
def isDeferred (isGlobal : String → Bool) : Expr → Bool
  | var _ x => isGlobal x
  | element _ array index => isGlobal array || index.isDeferred isGlobal
  | literal .. | unary .. | binary .. | call .. => false

mutual

/-- No operand that is read in the shared store waits for a call to its right. -/
def isInOrder (isGlobal : String → Bool) : Expr → Bool
  | literal .. | var .. => true
  | element _ _ index => index.isInOrder isGlobal
  | unary _ _ operand => operand.isInOrder isGlobal
  | binary _ _ left right =>
      left.isInOrder isGlobal && right.isInOrder isGlobal &&
        !(left.isDeferred isGlobal && right.hasCall)
  | call _ _ args => allInOrder isGlobal args

/-- No argument that is read in the shared store waits for a call in a later one. -/
def allInOrder (isGlobal : String → Bool) : List Expr → Bool
  | [] => true
  | arg :: args =>
      arg.isInOrder isGlobal && allInOrder isGlobal args &&
        !(arg.isDeferred isGlobal && args.any hasCall)

end

end Expr

namespace Tac

variable {V : Type}

/-! ### Two orders of evaluation -/

section Orders

variable (I : Interpretation V) (globals : List String) (resolve : String → String)
  (behaviour : Behaviour V) (own : Store V)

mutual

/-- Strict evaluation from the left: the value of an expression and the shared store after it. -/
def inOrder? : Expr → Store V → Option (V × Store V)
  | .literal _ value, shared => some (I.const value.text, shared)
  | .var _ x, shared => some ((Memory.mk own shared).get globals (.var (resolve x)), shared)
  | .element _ array index, shared => do
      let (i, shared) ← inOrder? index shared
      return ((Memory.mk own shared).cell globals (resolve array) i, shared)
  | .unary _ op operand, shared => do
      let (a, shared) ← inOrder? operand shared
      return (I.unary op a, shared)
  | .binary _ op left right, shared => do
      let (a, shared) ← inOrder? left shared
      let (b, shared) ← inOrder? right shared
      return (I.binary op a b, shared)
  | .call _ callee args, shared => do
      let (values, shared) ← allInOrder? args shared
      behaviour callee.val values shared

/-- Strict evaluation of arguments from the left. -/
def allInOrder? : List Expr → Store V → Option (List V × Store V)
  | [], shared => some ([], shared)
  | arg :: args, shared => do
      let (a, shared) ← inOrder? arg shared
      let (values, shared) ← allInOrder? args shared
      return (a :: values, shared)

end

mutual

/-- Evaluation as the code does it: the shared store after the calls, and the value as far as it
depends on the shared store at the time when the operand is read. -/
def deferred? : Expr → Store V → Option ((Store V → V) × Store V)
  | .literal _ value, shared => some (fun _ => I.const value.text, shared)
  | .var _ x, shared => some (fun now => (Memory.mk own now).get globals (.var (resolve x)), shared)
  | .element _ array index, shared => do
      let (i, shared) ← deferred? index shared
      return (fun now => (Memory.mk own now).cell globals (resolve array) (i now), shared)
  | .unary _ op operand, shared => do
      let (a, shared) ← deferred? operand shared
      return (fun _ => I.unary op (a shared), shared)
  | .binary _ op left right, shared => do
      let (a, shared) ← deferred? left shared
      let (b, shared) ← deferred? right shared
      return (fun _ => I.binary op (a shared) (b shared), shared)
  | .call _ callee args, shared => do
      let (values, shared) ← allDeferred? args shared
      let (v, shared) ← behaviour callee.val (values.map (· shared)) shared
      return (fun _ => v, shared)

/-- Evaluation of arguments, of which all are read at the end. -/
def allDeferred? : List Expr → Store V → Option (List (Store V → V) × Store V)
  | [], shared => some ([], shared)
  | arg :: args, shared => do
      let (a, shared) ← deferred? arg shared
      let (values, shared) ← allDeferred? args shared
      return (a :: values, shared)

end

end Orders

/-! ### What the code does -/

/-- What an activation has for itself differs in temporaries from a number on only. -/
structure Store.KeptBelow (next : Nat) (s s' : Store V) : Prop where
  var : ∀ x, s'.scalar (.var x) = s.scalar (.var x)
  temp : ∀ t : Temp, t.id < next → s'.scalar (.temp t) = s.scalar (.temp t)
  cell : s'.cell = s.cell

namespace Store.KeptBelow

variable {next next' : Nat} {s s' s'' : Store V}

theorem refl (s : Store V) : KeptBelow next s s := ⟨fun _ => rfl, fun _ _ => rfl, rfl⟩

theorem trans (first : KeptBelow next s s') (second : KeptBelow next' s' s'')
    (le : next ≤ next') : KeptBelow next s s'' where
  var x := (second.var x).trans (first.var x)
  temp t below := (second.temp t (Nat.lt_of_lt_of_le below le)).trans (first.temp t below)
  cell := second.cell.trans first.cell

theorem set (s : Store V) (v : V) : KeptBelow next s (s.set (.temp ⟨next⟩) v) where
  var x := s.scalar_set_of_ne v (by simp)
  temp t below := by
    refine s.scalar_set_of_ne v ?_
    intro same
    obtain rfl := Name.temp.inj same
    exact Nat.lt_irrefl _ below
  cell := rfl

/-- Variables have the same values. -/
theorem get_var (kept : KeptBelow next s s') (globals : List String) (shared : Store V)
    (x : String) :
    (Memory.mk s' shared).get globals (.var x) = (Memory.mk s shared).get globals (.var x) := by
  unfold Memory.get Memory.side
  split
  · rfl
  · exact kept.var x

theorem cell_eq (kept : KeptBelow next s s') (globals : List String) (shared : Store V)
    (array : String) :
    (Memory.mk s' shared).cell globals array = (Memory.mk s shared).cell globals array := by
  unfold Memory.cell Memory.side
  split
  · rfl
  · exact congrFun kept.cell array

end Store.KeptBelow

/-- The operand has the value, at whatever time it is read, as long as the temporaries below a
number are kept. -/
def Operand.Reads (I : Interpretation V) (globals : List String) (next : Nat) (own : Store V)
    (o : Operand) (read : Store V → V) : Prop :=
  ∀ ⦃own'⦄, own.KeptBelow next own' → ∀ now, o.eval I globals ⟨own', now⟩ = read now

/-- A temporary that has just been set keeps its value. -/
theorem reads_set (I : Interpretation V) (globals : List String) (next : Nat) (own : Store V)
    (v : V) : (Operand.temp ⟨next⟩).Reads I globals (next + 1) (own.set (.temp ⟨next⟩) v)
      fun _ => v := by
  intro own' kept now
  refine (kept.temp ⟨next⟩ (Nat.lt_succ_self next)).trans ?_
  exact own.scalar_set_self _ v

section Machine

variable [DecidableEq V] {c : Code} {I : Interpretation V} {resolve : String → String}
  {behaviour : Behaviour V} {vars : Store V}

/-- From the start of a part of the code, with the shared store, the machine comes to its end,
with another shared store and the temporaries below a number kept. -/
def Code.Passes (c : Code) (I : Interpretation V) (part : List Instr) (next p : Nat)
    (own shared own' shared' : Store V) : Prop :=
  own.KeptBelow next own' ∧ ∀ callers calls, ∃ calls',
    Reaches (c.step I) ⟨p, ⟨own, shared⟩, callers, calls⟩
      ⟨p + part.length, ⟨own', shared'⟩, callers, calls'⟩

namespace Code.Passes

variable {part : List Instr} {next next' p : Nat} {own own' own'' shared shared' shared'' : Store V}

theorem nil : c.Passes I [] next p own shared own shared :=
  ⟨.refl own, fun _ calls => ⟨calls, .refl _⟩⟩

theorem append {rest : List Instr} (first : c.Passes I part next p own shared own' shared')
    (second : c.Passes I rest next' (p + part.length) own' shared' own'' shared'')
    (le : next ≤ next') : c.Passes I (part ++ rest) next p own shared own'' shared'' := by
  refine ⟨first.1.trans second.1 le, fun callers calls => ?_⟩
  obtain ⟨calls', reached⟩ := first.2 callers calls
  obtain ⟨calls'', reached'⟩ := second.2 callers calls'
  rw [List.length_append, ← Nat.add_assoc]
  exact ⟨calls'', reached.trans reached'⟩

/-- A computation into the next temporary. -/
theorem compute {i : Instr} {v : V} (at_p : c.instrs[p]? = some i)
    (computes : ∀ callers calls, c.exec I ⟨p, ⟨own, shared⟩, callers, calls⟩ i =
      .inl (Config.store c I ⟨p, ⟨own, shared⟩, callers, calls⟩ (.temp ⟨next⟩) v)) :
    c.Passes I [i] next p own shared (own.set (.temp ⟨next⟩) v) shared := by
  refine ⟨.set own v, fun callers calls => ⟨calls, .of_step ?_⟩⟩
  exact (step_eq_exec at_p).trans (computes callers calls)

theorem call (behaves : c.Behaves I behaviour) {callee : String} {args : List Operand} {v : V}
    (at_p : c.instrs[p]? = some (.call callee args ⟨next⟩))
    (answered : behaviour callee (args.map (·.eval I c.globals ⟨own, shared⟩)) shared =
      some (v, shared')) :
    c.Passes I [.call callee args ⟨next⟩] next p own shared (own.set (.temp ⟨next⟩) v) shared' :=
  ⟨.set own v, fun _ _ => behaves.call at_p answered⟩

end Code.Passes

mutual

/-- **The code of an expression computes its deferred value.** It takes the machine from its start
to its end with the calls done and leaves the deferred value in its operand. -/
theorem runs_deferred (behaves : c.Behaves I behaviour) :
    ∀ (e : Expr) {next p : Nat} {own shared shared' : Store V} {read : Store V → V},
      c.Has p (lowerExpr resolve next e).instrs → vars.KeptBelow 0 own →
      deferred? I c.globals resolve behaviour vars e shared = some (read, shared') →
      ∃ own', c.Passes I (lowerExpr resolve next e).instrs next p own shared own' shared' ∧
        (lowerExpr resolve next e).value.Reads I c.globals (lowerExpr resolve next e).next own' read
  | .literal _ value, next, p, own, shared, shared', read, _, _, evaluates => by
      obtain ⟨rfl, rfl⟩ := Prod.mk.inj (Option.some.inj evaluates)
      exact ⟨own, .nil, fun _ _ _ => rfl⟩
  | .var _ x, next, p, own, shared, shared', read, _, kept, evaluates => by
      obtain ⟨rfl, rfl⟩ := Prod.mk.inj (Option.some.inj evaluates)
      refine ⟨own, .nil, fun own' kept' now => ?_⟩
      exact (kept.trans kept' (Nat.zero_le _)).get_var c.globals now (resolve x)
  | .element _ array index, next, p, own, shared, shared', read, has, kept, evaluates => by
      obtain ⟨⟨i, shared₁⟩, indexed, result⟩ := Option.bind_eq_some_iff.mp evaluates
      obtain ⟨rfl, rfl⟩ := Prod.mk.inj (Option.some.inj result)
      obtain ⟨own', passes, reads⟩ := runs_deferred behaves index has kept indexed
      refine ⟨own', passes, fun own'' kept' now => ?_⟩
      have same := ((kept.trans passes.1 (Nat.zero_le _)).trans kept' (Nat.zero_le _)).cell_eq
        c.globals now (resolve array)
      simp only [lowerExpr, Operand.eval, reads kept' now, same]
  | .unary _ op operand, next, p, own, shared, shared', read, has, kept, evaluates => by
      obtain ⟨⟨a, shared₁⟩, evaluated, result⟩ := Option.bind_eq_some_iff.mp evaluates
      obtain ⟨rfl, rfl⟩ := Prod.mk.inj (Option.some.inj result)
      obtain ⟨own₁, passes, reads⟩ := runs_deferred behaves operand has.left kept evaluated
      have value := reads (.refl own₁) shared₁
      refine ⟨_, passes.append (.compute has.right.head fun _ _ => ?_) (le_lowerExpr ..),
        reads_set I c.globals _ own₁ _⟩
      simp only [Code.exec, value]
  | .binary _ op left right, next, p, own, shared, shared', read, has, kept, evaluates => by
      obtain ⟨⟨a, shared₁⟩, evaluated, rest⟩ := Option.bind_eq_some_iff.mp evaluates
      obtain ⟨⟨b, shared₂⟩, evaluated', result⟩ := Option.bind_eq_some_iff.mp rest
      obtain ⟨rfl, rfl⟩ := Prod.mk.inj (Option.some.inj result)
      obtain ⟨own₁, passes, reads⟩ := runs_deferred behaves left has.left.left kept evaluated
      obtain ⟨own₂, passes', reads'⟩ := runs_deferred behaves right has.left.right
        (kept.trans passes.1 (Nat.zero_le _)) evaluated'
      -- Both operands are read now, after the calls of the right one.
      have value := reads passes'.1 shared₂
      have value' := reads' (.refl own₂) shared₂
      have both := passes.append passes' (le_lowerExpr resolve next left)
      refine ⟨_, both.append (.compute has.right.head fun _ _ => ?_)
        (Nat.le_trans (le_lowerExpr ..) (le_lowerExpr ..)), reads_set I c.globals _ own₂ _⟩
      simp only [Code.exec, value, value']
  | .call _ callee args, next, p, own, shared, shared', read, has, kept, evaluates => by
      obtain ⟨⟨values, shared₁⟩, evaluated, rest⟩ := Option.bind_eq_some_iff.mp evaluates
      obtain ⟨⟨v, shared₂⟩, answered, result⟩ := Option.bind_eq_some_iff.mp rest
      obtain ⟨rfl, rfl⟩ := Prod.mk.inj (Option.some.inj result)
      obtain ⟨own₁, passes, reads⟩ := runs_allDeferred behaves args has.left kept evaluated
      rw [← reads (.refl own₁) shared₁] at answered
      exact ⟨_, passes.append (.call behaves has.right.head answered) (le_lowerArgs ..),
        reads_set I c.globals _ own₁ v⟩

theorem runs_allDeferred (behaves : c.Behaves I behaviour) :
    ∀ (args : List Expr) {next p : Nat} {own shared shared' : Store V}
      {reads : List (Store V → V)},
      c.Has p (lowerArgs resolve next args).instrs → vars.KeptBelow 0 own →
      allDeferred? I c.globals resolve behaviour vars args shared = some (reads, shared') →
      ∃ own', c.Passes I (lowerArgs resolve next args).instrs next p own shared own' shared' ∧
        ∀ ⦃own''⦄, own'.KeptBelow (lowerArgs resolve next args).next own'' → ∀ now,
          (lowerArgs resolve next args).values.map (·.eval I c.globals ⟨own'', now⟩) =
            reads.map (· now)
  | [], next, p, own, shared, shared', reads, _, _, evaluates => by
      obtain ⟨rfl, rfl⟩ := Prod.mk.inj (Option.some.inj evaluates)
      exact ⟨own, .nil, fun _ _ _ => rfl⟩
  | arg :: args, next, p, own, shared, shared', reads, has, kept, evaluates => by
      obtain ⟨⟨a, shared₁⟩, evaluated, rest⟩ := Option.bind_eq_some_iff.mp evaluates
      obtain ⟨⟨values, shared₂⟩, evaluated', result⟩ := Option.bind_eq_some_iff.mp rest
      obtain ⟨rfl, rfl⟩ := Prod.mk.inj (Option.some.inj result)
      obtain ⟨own₁, passes, first⟩ := runs_deferred behaves arg has.left kept evaluated
      obtain ⟨own₂, passes', others⟩ := runs_allDeferred behaves args has.right
        (kept.trans passes.1 (Nat.zero_le _)) evaluated'
      refine ⟨own₂, passes.append passes' (le_lowerExpr ..), fun own₃ kept' now => ?_⟩
      have value := first (passes'.1.trans kept' (le_lowerArgs ..)) now
      simp only [lowerArgs, List.map_cons, value, others kept' now]

end

end Machine

/-! ### Where the orders agree -/

section Agreement

variable {I : Interpretation V} {globals : List String} {resolve : String → String}
  {behaviour : Behaviour V} {own : Store V}

/-- Without calls, the shared store stays as it is. -/
theorem inOrder?_of_callFree : ∀ (e : Expr) {shared shared' : Store V} {v : V},
    e.hasCall = false → inOrder? I globals resolve behaviour own e shared = some (v, shared') →
    shared' = shared
  | .literal .., _, _, _, _, evaluates | .var .., _, _, _, _, evaluates =>
      (Prod.mk.inj (Option.some.inj evaluates)).2.symm
  | .element _ _ index, _, _, _, free, evaluates => by
      obtain ⟨⟨i, shared₁⟩, indexed, result⟩ := Option.bind_eq_some_iff.mp evaluates
      obtain ⟨-, rfl⟩ := Prod.mk.inj (Option.some.inj result)
      exact inOrder?_of_callFree index free indexed
  | .unary _ _ operand, _, _, _, free, evaluates => by
      obtain ⟨⟨a, shared₁⟩, evaluated, result⟩ := Option.bind_eq_some_iff.mp evaluates
      obtain ⟨-, rfl⟩ := Prod.mk.inj (Option.some.inj result)
      exact inOrder?_of_callFree operand free evaluated
  | .binary _ _ left right, _, _, _, free, evaluates => by
      obtain ⟨free, free'⟩ := Bool.or_eq_false_iff.mp free
      obtain ⟨⟨a, shared₁⟩, evaluated, rest⟩ := Option.bind_eq_some_iff.mp evaluates
      obtain ⟨⟨b, shared₂⟩, evaluated', result⟩ := Option.bind_eq_some_iff.mp rest
      obtain ⟨-, rfl⟩ := Prod.mk.inj (Option.some.inj result)
      exact (inOrder?_of_callFree right free' evaluated').trans
        (inOrder?_of_callFree left free evaluated)
  | .call .., _, _, _, free, _ => by contradiction

theorem allInOrder?_of_callFree {args : List Expr} {shared shared' : Store V} {values : List V}
    (free : args.any Expr.hasCall = false)
    (evaluates : allInOrder? I globals resolve behaviour own args shared = some (values, shared')) :
    shared' = shared := by
  induction args generalizing shared values with
  | nil => exact (Prod.mk.inj (Option.some.inj evaluates)).2.symm
  | cons arg args ih =>
      obtain ⟨free, free'⟩ := Bool.or_eq_false_iff.mp free
      obtain ⟨⟨a, shared₁⟩, evaluated, rest⟩ := Option.bind_eq_some_iff.mp evaluates
      obtain ⟨⟨others, shared₂⟩, evaluated', result⟩ := Option.bind_eq_some_iff.mp rest
      obtain ⟨-, rfl⟩ := Prod.mk.inj (Option.some.inj result)
      exact (ih free' evaluated').trans (inOrder?_of_callFree arg free evaluated)

variable (globals resolve) in
/-- The variable is shared under the name that it has in the code. -/
def isGlobalName (x : String) : Bool := globals.contains (resolve x)

/-- The value is read as `v` in the shared store, and in all others unless it is deferred. -/
def ReadsAs (isDeferred : Bool) (read : Store V → V) (shared : Store V) (v : V) : Prop :=
  ∀ now, (isDeferred = true → now = shared) → read now = v

/-- An operand is read in time, as it does not wait for calls. -/
theorem ReadsAs.later {isDeferred hasCall : Bool} {read : Store V → V} {shared shared' : Store V}
    {v : V} (reads : ReadsAs isDeferred read shared v)
    (inTime : (isDeferred && hasCall) = false) (quiet : hasCall = false → shared' = shared) :
    read shared' = v := by
  refine reads shared' fun deferred => quiet ?_
  rwa [deferred, Bool.true_and] at inTime

mutual

/-- **Where no shared variable waits for a call, the deferred value is the strict one.** -/
theorem deferred_of_inOrder : ∀ (e : Expr) {shared shared' : Store V} {v : V},
    e.isInOrder (isGlobalName globals resolve) = true →
    inOrder? I globals resolve behaviour own e shared = some (v, shared') →
    ∃ read, deferred? I globals resolve behaviour own e shared = some (read, shared') ∧
      ReadsAs (e.isDeferred (isGlobalName globals resolve)) read shared' v
  | .literal .., _, _, _, _, evaluates => by
      obtain ⟨rfl, rfl⟩ := Prod.mk.inj (Option.some.inj evaluates)
      exact ⟨_, rfl, fun _ _ => rfl⟩
  | .var _ x, _, _, _, _, evaluates => by
      obtain ⟨rfl, rfl⟩ := Prod.mk.inj (Option.some.inj evaluates)
      refine ⟨_, rfl, fun now inTime => ?_⟩
      cases shared : isGlobalName globals resolve x with
      | true => rw [inTime shared]
      | false =>
          have own : isShared globals (.var (resolve x)) = false := shared
          simp [Memory.get, Memory.side, own]
  | .element _ array index, _, _, _, ordered, evaluates => by
      obtain ⟨⟨i, shared₁⟩, indexed, result⟩ := Option.bind_eq_some_iff.mp evaluates
      obtain ⟨rfl, rfl⟩ := Prod.mk.inj (Option.some.inj result)
      obtain ⟨read, deferred, reads⟩ := deferred_of_inOrder index ordered indexed
      refine ⟨_, Option.bind_eq_some_iff.mpr ⟨_, deferred, rfl⟩, fun now inTime => ?_⟩
      cases shared : isGlobalName globals resolve array with
      | true =>
          obtain rfl := inTime (by simp [Expr.isDeferred, shared])
          simp only [reads now fun _ => rfl]
      | false =>
          have own : isShared globals (.var (resolve array)) = false := shared
          have value := reads now fun deferred => inTime (by simp [Expr.isDeferred, deferred])
          simp [Memory.cell, Memory.side, own, value]
  | .unary _ op operand, _, _, _, ordered, evaluates => by
      obtain ⟨⟨a, shared₁⟩, evaluated, result⟩ := Option.bind_eq_some_iff.mp evaluates
      obtain ⟨rfl, rfl⟩ := Prod.mk.inj (Option.some.inj result)
      obtain ⟨read, deferred, reads⟩ := deferred_of_inOrder operand ordered evaluated
      refine ⟨_, Option.bind_eq_some_iff.mpr ⟨_, deferred, rfl⟩, fun now _ => ?_⟩
      simp only [reads _ fun _ => rfl]
  | .binary _ op left right, _, _, _, ordered, evaluates => by
      simp only [Expr.isInOrder, Bool.and_eq_true, Bool.not_eq_true'] at ordered
      obtain ⟨⟨ordered, ordered'⟩, inTime⟩ := ordered
      obtain ⟨⟨a, shared₁⟩, evaluated, rest⟩ := Option.bind_eq_some_iff.mp evaluates
      obtain ⟨⟨b, shared₂⟩, evaluated', result⟩ := Option.bind_eq_some_iff.mp rest
      obtain ⟨rfl, rfl⟩ := Prod.mk.inj (Option.some.inj result)
      obtain ⟨read, deferred, reads⟩ := deferred_of_inOrder left ordered evaluated
      obtain ⟨read', deferred', reads'⟩ := deferred_of_inOrder right ordered' evaluated'
      have value := reads.later inTime fun free => inOrder?_of_callFree right free evaluated'
      refine ⟨_, Option.bind_eq_some_iff.mpr ⟨_, deferred,
        Option.bind_eq_some_iff.mpr ⟨_, deferred', rfl⟩⟩, fun now _ => ?_⟩
      simp only [value, reads' _ fun _ => rfl]
  | .call _ callee args, _, _, _, ordered, evaluates => by
      obtain ⟨⟨values, shared₁⟩, evaluated, answered⟩ := Option.bind_eq_some_iff.mp evaluates
      obtain ⟨reads, deferred, same⟩ := allDeferred_of_inOrder args ordered evaluated
      rw [← same] at answered
      exact ⟨_, Option.bind_eq_some_iff.mpr ⟨_, deferred,
        Option.bind_eq_some_iff.mpr ⟨_, answered, rfl⟩⟩, fun _ _ => rfl⟩

theorem allDeferred_of_inOrder : ∀ (args : List Expr) {shared shared' : Store V} {values : List V},
    Expr.allInOrder (isGlobalName globals resolve) args = true →
    allInOrder? I globals resolve behaviour own args shared = some (values, shared') →
    ∃ reads, allDeferred? I globals resolve behaviour own args shared = some (reads, shared') ∧
      reads.map (· shared') = values
  | [], _, _, _, _, evaluates => by
      obtain ⟨rfl, rfl⟩ := Prod.mk.inj (Option.some.inj evaluates)
      exact ⟨[], rfl, rfl⟩
  | arg :: args, _, _, _, ordered, evaluates => by
      simp only [Expr.allInOrder, Bool.and_eq_true, Bool.not_eq_true'] at ordered
      obtain ⟨⟨ordered, ordered'⟩, inTime⟩ := ordered
      obtain ⟨⟨a, shared₁⟩, evaluated, rest⟩ := Option.bind_eq_some_iff.mp evaluates
      obtain ⟨⟨values, shared₂⟩, evaluated', result⟩ := Option.bind_eq_some_iff.mp rest
      obtain ⟨rfl, rfl⟩ := Prod.mk.inj (Option.some.inj result)
      obtain ⟨read, deferred, reads⟩ := deferred_of_inOrder arg ordered evaluated
      obtain ⟨others, deferred', same⟩ := allDeferred_of_inOrder args ordered' evaluated'
      have value := reads.later inTime fun free => allInOrder?_of_callFree free evaluated'
      refine ⟨read :: others, Option.bind_eq_some_iff.mpr ⟨_, deferred,
        Option.bind_eq_some_iff.mpr ⟨_, deferred', rfl⟩⟩, ?_⟩
      rw [List.map_cons, value, same]

end

end Agreement

/-! ### Terms that tell the orders apart -/

/-- Values that record how they were computed, and after how many calls a variable was read. -/
inductive Term where
  | text (text : String)
  | scalar (time : Nat) (n : Name)
  | cell (time : Nat) (array : String) (index : Term)
  | unary (op : UnOp) (operand : Term)
  | binary (op : BinOp) (left right : Term)
  | answer (callee : String) (args : Term)
  | noArgs
  | moreArgs (first rest : Term)
deriving DecidableEq

namespace Term

/-- A list of arguments as one term. -/
def ofArgs : List Term → Term := List.foldr moreArgs noArgs

theorem ofArgs_inj {args args' : List Term} : ofArgs args = ofArgs args' ↔ args = args' := by
  constructor
  · intro same
    induction args generalizing args' with
    | nil => cases args' <;> simp_all [ofArgs]
    | cons a args ih =>
        cases args' with
        | nil => simp [ofArgs] at same
        | cons a' args' =>
            obtain ⟨rfl, rest⟩ := Term.moreArgs.inj same
            rw [ih rest]
  · exact congrArg ofArgs

/-- The shared store after so many calls. -/
def storeAfter (time : Nat) : Store Term := ⟨scalar time, cell time⟩

@[simp] theorem scalar_storeAfter (time : Nat) : (storeAfter time).scalar = scalar time := rfl

@[simp] theorem cell_storeAfter (time : Nat) : (storeAfter time).cell = cell time := rfl

/-- The number of calls before the shared store. -/
def timeOf (s : Store Term) : Nat :=
  match s.scalar (.var "") with
  | scalar time _ => time
  | _ => 0

/-- Every call yields a value of its own and changes all shared variables. -/
def interpretation : Interpretation Term where
  const := text
  unary := unary
  binary := binary
  isTrue _ := false
  keep _ v := v
  keepElement _ v := v
  receive _ v := v
  blank := storeAfter 0
  nothing := noArgs
  outside callee args shared := (answer callee (ofArgs args), storeAfter (timeOf shared + 1))

end Term

/-- How the outside world behaves. -/
def Interpretation.answers (I : Interpretation V) : Behaviour V := fun callee args shared =>
  some (I.outside callee args shared)

section Terms

variable {globals : List String} {resolve : String → String}

open Term (interpretation storeAfter)

/-- A deferred operand is still read in time exactly if no call comes before. -/
theorem inTime_iff {isDeferred hasCall : Bool} {k k' : Nat} (quiet : k' = k ↔ hasCall = false) :
    (isDeferred = true → k' = k) ↔ (isDeferred && hasCall) = false := by
  cases isDeferred <;> simp [quiet]

/-- Both orders take an expression from one time to another, and the deferred value is the strict
one at the times at which every operand is read in time. -/
def Differ (globals : List String) (resolve : String → String) (e : Expr) (k : Nat) : Prop :=
  ∃ v read k', inOrder? interpretation globals resolve interpretation.answers (storeAfter 0) e
      (storeAfter k) = some (v, storeAfter k') ∧
    deferred? interpretation globals resolve interpretation.answers (storeAfter 0) e
      (storeAfter k) = some (read, storeAfter k') ∧
    k ≤ k' ∧ (k' = k ↔ e.hasCall = false) ∧
    ∀ now, read (storeAfter now) = v ↔ e.isInOrder (isGlobalName globals resolve) = true ∧
      (e.isDeferred (isGlobalName globals resolve) = true → now = k')

def DifferIn (globals : List String) (resolve : String → String) (args : List Expr) (k : Nat) :
    Prop :=
  ∃ values reads k', allInOrder? interpretation globals resolve interpretation.answers
      (storeAfter 0) args (storeAfter k) = some (values, storeAfter k') ∧
    allDeferred? interpretation globals resolve interpretation.answers (storeAfter 0) args
      (storeAfter k) = some (reads, storeAfter k') ∧
    k ≤ k' ∧ (k' = k ↔ args.any Expr.hasCall = false) ∧
    (reads.map (· (storeAfter k')) = values ↔
      Expr.allInOrder (isGlobalName globals resolve) args = true)

mutual

/-- **The orders differ** in terms wherever a shared variable waits for a call. -/
theorem differ_expr : ∀ (e : Expr) (k : Nat), Differ globals resolve e k
  | .literal _ value, k =>
      ⟨_, _, k, rfl, rfl, Nat.le_refl k, by simp [Expr.hasCall],
        fun now => by simp [Expr.isInOrder, Expr.isDeferred]⟩
  | .var _ x, k => by
      refine ⟨_, _, k, rfl, rfl, Nat.le_refl k, by simp [Expr.hasCall], fun now => ?_⟩
      cases shared : isGlobalName globals resolve x with
      | true =>
          have shared' : isShared globals (.var (resolve x)) = true := shared
          simp [Memory.get, Memory.side, shared', Expr.isInOrder, Expr.isDeferred, shared]
      | false =>
          have own : isShared globals (.var (resolve x)) = false := shared
          simp [Memory.get, Memory.side, own, Expr.isInOrder, Expr.isDeferred, shared]
  | .element _ array index, k => by
      obtain ⟨v, read, k', ordered, deferred, le, quiet, same⟩ := differ_expr index k
      refine ⟨_, _, k', Option.bind_eq_some_iff.mpr ⟨_, ordered, rfl⟩,
        Option.bind_eq_some_iff.mpr ⟨_, deferred, rfl⟩, le, quiet, fun now => ?_⟩
      cases shared : isGlobalName globals resolve array with
      | true =>
          have shared' : isShared globals (.var (resolve array)) = true := shared
          simp [Memory.cell, Memory.side, shared', same, Expr.isInOrder, Expr.isDeferred, shared]
          tauto
      | false =>
          have own : isShared globals (.var (resolve array)) = false := shared
          simp [Memory.cell, Memory.side, own, same, Expr.isInOrder, Expr.isDeferred, shared]
  | .unary _ op operand, k => by
      obtain ⟨v, read, k', ordered, deferred, le, quiet, same⟩ := differ_expr operand k
      refine ⟨_, _, k', Option.bind_eq_some_iff.mpr ⟨_, ordered, rfl⟩,
        Option.bind_eq_some_iff.mpr ⟨_, deferred, rfl⟩, le, quiet, fun now => ?_⟩
      simp [interpretation, same, Expr.isInOrder, Expr.isDeferred]
  | .binary _ op left right, k => by
      obtain ⟨a, read, k₁, ordered, deferred, le, quiet, same⟩ := differ_expr left k
      obtain ⟨b, read', k₂, ordered', deferred', le', quiet', same'⟩ := differ_expr right k₁
      refine ⟨_, _, k₂, Option.bind_eq_some_iff.mpr ⟨_, ordered,
          Option.bind_eq_some_iff.mpr ⟨_, ordered', rfl⟩⟩,
        Option.bind_eq_some_iff.mpr ⟨_, deferred, Option.bind_eq_some_iff.mpr ⟨_, deferred', rfl⟩⟩,
        Nat.le_trans le le', ?_, fun now => ?_⟩
      · rw [Expr.hasCall, Bool.or_eq_false_iff, ← quiet, ← quiet']
        omega
      · simp only [interpretation, Term.binary.injEq, same, same', inTime_iff quiet',
          Expr.isInOrder, Expr.isDeferred, Bool.and_eq_true, Bool.not_eq_true', implies_true,
          and_true, true_and, Bool.false_eq_true, false_implies]
        exact and_right_comm
  | .call _ callee args, k => by
      obtain ⟨values, reads, k', ordered, deferred, le, quiet, same⟩ := differ_args args k
      refine ⟨_, _, k' + 1, Option.bind_eq_some_iff.mpr ⟨_, ordered, rfl⟩,
        Option.bind_eq_some_iff.mpr ⟨_, deferred, rfl⟩, Nat.le_succ_of_le le, ?_, fun now => ?_⟩
      · simp [Expr.hasCall]
        omega
      · simp [interpretation, Term.ofArgs_inj, same, Expr.isInOrder, Expr.isDeferred]

theorem differ_args : ∀ (args : List Expr) (k : Nat), DifferIn globals resolve args k
  | [], k => ⟨[], [], k, rfl, rfl, Nat.le_refl k, by simp, by simp [Expr.allInOrder]⟩
  | arg :: args, k => by
      obtain ⟨a, read, k₁, ordered, deferred, le, quiet, same⟩ := differ_expr arg k
      obtain ⟨values, reads, k₂, ordered', deferred', le', quiet', same'⟩ := differ_args args k₁
      refine ⟨_, _, k₂, Option.bind_eq_some_iff.mpr ⟨_, ordered,
          Option.bind_eq_some_iff.mpr ⟨_, ordered', rfl⟩⟩,
        Option.bind_eq_some_iff.mpr ⟨_, deferred, Option.bind_eq_some_iff.mpr ⟨_, deferred', rfl⟩⟩,
        Nat.le_trans le le', ?_, ?_⟩
      · rw [List.any_cons, Bool.or_eq_false_iff, ← quiet, ← quiet']
        omega
      · simp only [List.map_cons, List.cons.injEq, same, same', inTime_iff quiet', Expr.allInOrder,
          Bool.and_eq_true, Bool.not_eq_true']
        exact and_right_comm

end

end Terms

/-! ### Evaluation from the left -/

/-- **Code without functions asks the outside world for every answer.** -/
theorem Code.behaves_answers [DecidableEq V] {c : Code} (I : Interpretation V)
    (unmarked : ∀ i ∈ c.instrs, i.isMarker = false) : c.Behaves I I.answers := by
  intro callee args shared v shared' answered
  unfold Code.Answers
  split
  · exact Option.some.inj answered
  · rename_i start found
    obtain ⟨j, -, at_j⟩ := getElem?_of_findFunction? found
    have marked := unmarked _ (List.mem_of_getElem? at_j)
    contradiction

/-- The code of the expression evaluates its operands from the left, whatever its callees do: it
does the calls of strict evaluation and leaves the strict value in its operand. -/
def EvaluatesInOrder (globals : List String) (resolve : String → String) (next : Nat) (e : Expr) :
    Prop :=
  ∀ {V : Type} [DecidableEq V] (I : Interpretation V) (behaviour : Behaviour V) (c : Code) (p : Nat)
    (own shared : Store V) (v : V) (shared' : Store V),
    c.globals = globals → c.Behaves I behaviour → c.Has p (lowerExpr resolve next e).instrs →
    inOrder? I globals resolve behaviour own e shared = some (v, shared') →
    ∃ own', c.Passes I (lowerExpr resolve next e).instrs next p own shared own' shared' ∧
      (lowerExpr resolve next e).value.eval I globals ⟨own', shared'⟩ = v

/-- **Operands are evaluated from the left exactly if no shared variable waits for a call.** -/
theorem evaluatesInOrder_iff (globals : List String) (resolve : String → String) (next : Nat)
    (e : Expr) : EvaluatesInOrder globals resolve next e ↔
      e.isInOrder (isGlobalName globals resolve) = true := by
  constructor
  · intro evaluates
    let c : Code := { globals, instrs := (lowerExpr resolve next e).instrs }
    have behaves : c.Behaves Term.interpretation Term.interpretation.answers :=
      Code.behaves_answers _ fun i mem =>
        isMarker_of_not_boundary (Lower.straight_lowerExpr resolve e next i mem)
    have has : c.Has 0 (lowerExpr resolve next e).instrs := by
      intro k i at_k
      rwa [Nat.zero_add]
    obtain ⟨v, read, k, ordered, deferred, -, -, same⟩ :=
      @differ_expr globals resolve e 0
    obtain ⟨own, passes, value⟩ := evaluates _ _ c 0 _ _ _ _ rfl behaves has ordered
    obtain ⟨own', passes', reads⟩ := runs_deferred behaves e has (.refl _) deferred
    -- Both runs are at the end of the code, where nothing is left to run.
    obtain ⟨calls, reached⟩ := passes.2 [] []
    obtain ⟨calls', reached'⟩ := passes'.2 [] []
    have atEnd (s : Config Term) (at_end : s.pc = 0 + c.instrs.length) :
        c.step Term.interpretation s = s.leave Term.interpretation .fell := by
      simp [Code.step, at_end]
    have one := reached.unique (atEnd _ rfl) reached' (atEnd _ rfl)
    obtain rfl : own = own' := by simpa using congrArg (·.memory.own) one
    have late := reads (.refl own) (Term.storeAfter k)
    exact ((same k).mp (late.symm.trans value)).1
  · intro ordered V _ I behaviour c p own shared v shared' rfl behaves has evaluates
    obtain ⟨read, deferred, reads⟩ := deferred_of_inOrder e ordered evaluates
    obtain ⟨own', passes, same⟩ := runs_deferred behaves e has (.refl own) deferred
    exact ⟨own', passes, (same (.refl own') shared').trans (reads shared' fun _ => rfl)⟩

/-- **Where a program is evaluated from the left.** Every expression of the tree has its code in one
piece in the code of the program. This code gives the value of strict evaluation, for every
behaviour of the callees, if and only if nowhere in the expression an operand or argument that is a
shared variable, or an element that is read in the shared store, has a call to its right in the same
operation or call. -/
theorem lowered_evaluatesInOrder (p : Program) :
    p.loweredExprs.map LoweredExpr.expr = p.expressions ∧
      ∀ x ∈ p.loweredExprs, (∃ q, p.lower.1.Has q x.code.instrs) ∧
        (EvaluatesInOrder p.lower.1.globals x.resolve x.next x.expr ↔
          x.expr.isInOrder (isGlobalName p.lower.1.globals x.resolve) = true) :=
  ⟨expr_lowered p, fun x mem => ⟨placed_lowered p x mem, evaluatesInOrder_iff ..⟩⟩

/-- `left + f()` -/
def plusCall (left : Expr) : Expr := .binary {} .add left (.call {} ⟨"f", {}⟩ [])

/-- `int x = 1; int f() { x = 5; return 1; } int y = left + f();` -/
def addsCall (left : Expr) : Program where
  stmts :=
    [.declare {} ⟨⟨"int", {}⟩, ⟨"x", {}⟩, none, some (.literal {} (.number "1"))⟩,
      .define ⟨⟨"int", {}⟩, ⟨"f", {}⟩, []⟩ {}
        [.assign {} ⟨"x", {}⟩ none (.literal {} (.number "5")),
          .returnValue {} (some (.literal {} (.number "1")))],
      .declare {} ⟨⟨"int", {}⟩, ⟨"y", {}⟩, none, some (plusCall left)⟩]

/-- What `f` does there. -/
def setsX : Behaviour String := fun callee args shared =>
  if callee = "f" ∧ args = [] then some ("1", shared.set (.var "x") "5") else none

theorem behaves_setsX {c : Code} {k : Nat} (found : findFunction? "f" c.instrs = some (k, []))
    (first : c.instrs[k]? = some (.copy (.const "5") (.var "x")))
    (second : c.instrs[k + 1]? = some (.ret (some (.const "1"))))
    (isGlobal : isShared c.globals (.var "x") = true) (typed : c.types.get? "x" = some .int) :
    c.Behaves .textual setsX := by
  intro callee args shared v shared' answered
  unfold setsX at answered
  split at answered
  · rename_i called
    obtain ⟨rfl, rfl⟩ := called
    obtain ⟨rfl, rfl⟩ := Prod.mk.inj (Option.some.inj answered)
    simp only [Code.Answers, found, Code.load]
    have stored : c.step .textual ⟨k, ⟨Interpretation.textual.blank, shared⟩, [], []⟩ =
        .inl ⟨k + 1, ⟨Interpretation.textual.blank, shared.set (.var "x") "5"⟩, [], []⟩ := by
      rw [step_eq_exec first]
      simp [Code.exec, Config.store, Memory.assign, Memory.set, Memory.onSide, isGlobal, typed,
        Operand.eval, Interpretation.textual, convert]
    have returned : c.step .textual
        ⟨k + 1, ⟨Interpretation.textual.blank, shared.set (.var "x") "5"⟩, [], []⟩ =
        .inr ⟨.returned (some "1"), shared.set (.var "x") "5", []⟩ :=
      (step_eq_exec second).trans rfl
    exact ⟨_, .later stored (.now returned), rfl, rfl⟩
  · contradiction

/-- A product of the variable is computed in time. -/
theorem plusCall_evaluatesInOrder :
    let left : Expr := .binary {} .mul (.var {} "x") (.literal {} (.number "1"))
    let p := addsCall left
    let shared : Store String := ⟨fun _ => "1", fun _ _ => ""⟩
    p.check.diagnostics.hasErrors = false ∧ p.lower.1.Behaves .textual setsX ∧
      ∃ x ∈ p.loweredExprs, x.expr = plusCall left ∧ ∃ q own',
        p.lower.1.Passes .textual x.code.instrs x.next q Interpretation.textual.blank shared own'
            (shared.set (.var "x") "5") ∧
          x.code.value.eval .textual p.lower.1.globals ⟨own', shared.set (.var "x") "5"⟩ = "2" := by
  intro left p shared
  have behaves : p.lower.1.Behaves .textual setsX :=
    behaves_setsX (k := 6) (by decide +kernel) (by decide +kernel) (by decide +kernel)
      (by decide +kernel) (by decide +kernel)
  let x : LoweredExpr := p.loweredExprs.get ⟨3, by decide +kernel⟩
  have mem : x ∈ p.loweredExprs := List.get_mem ..
  have expr : x.expr = plusCall left := rfl
  have resolved : x.resolve "x" = "x" := by decide +kernel
  obtain ⟨⟨q, has⟩, inOrder⟩ := (lowered_evaluatesInOrder p).2 x mem
  have isGlobal : isShared p.lower.1.globals (.var "x") = true := by decide +kernel
  have evaluated : inOrder? .textual p.lower.1.globals x.resolve setsX
      Interpretation.textual.blank x.expr shared = some (Interpretation.textual.binary .add
        (Interpretation.textual.binary .mul "1" "1") "1", shared.set (.var "x") "5") := by
    simp [expr, left, plusCall, inOrder?, allInOrder?, setsX, Memory.get, Memory.side, resolved,
      isGlobal, shared, Literal.text, Interpretation.textual]
  have value : Interpretation.textual.binary .add (Interpretation.textual.binary .mul "1" "1") "1" =
      "2" := by decide +kernel
  rw [value] at evaluated
  have ordered : EvaluatesInOrder p.lower.1.globals x.resolve x.next x.expr :=
    inOrder.mpr (by decide +kernel)
  exact ⟨by decide +kernel, behaves, x, mem, expr, q,
    @ordered String _ .textual setsX p.lower.1 q _ shared "2" _ rfl behaves has evaluated⟩

/-- The variable itself is read after the call that changes it. -/
theorem plusCall_readsLate :
    let p := addsCall (.var {} "x")
    p.check.diagnostics.hasErrors = false ∧ p.lower.1.Behaves .textual setsX ∧
      (inOrder? .textual p.lower.1.globals id setsX Interpretation.textual.blank
        (plusCall (.var {} "x")) ⟨fun _ => "1", fun _ _ => ""⟩).map (·.1) = some "2" ∧
      ∃ o, Stops (p.lower.1.step .textual)
          (p.lower.1.load .textual ⟨fun _ => "", fun _ _ => ""⟩ .top) o ∧
        o.shared.scalar (.var "y") = "6" := by
  intro p
  refine ⟨by decide +kernel, ?_, by decide +kernel, ?_⟩
  · exact behaves_setsX (k := 5) (by decide +kernel) (by decide +kernel) (by decide +kernel)
      (by decide +kernel) (by decide +kernel)
  · have ran : (runFor (p.lower.1.step .textual) 10
        (p.lower.1.load .textual ⟨fun _ => "", fun _ _ => ""⟩ .top)).map
          (·.shared.scalar (.var "y")) = some "6" := by decide +kernel
    obtain ⟨o, stops, same⟩ := Option.map_eq_some_iff.mp ran
    exact ⟨o, .of_runFor 10 stops, same⟩

end Tac

end BraceLang
