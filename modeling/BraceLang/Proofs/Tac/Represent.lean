import BraceLang.Proofs.Structured
import BraceLang.Proofs.Tac.Names
import BraceLang.Proofs.Tac.Shape
import Mathlib.Data.List.Forall2

/-!
How the memory of the machine represents the variables of a structured program, and what the
code of expressions does to it.

The scopes that lowering keeps and the scopes of the running program have the same names in
them. A variable is represented if the memory holds its value, as far as it has one, under the
name that lowering gave to it, with the type that it was declared with.

* **`Represents.update`**, **`Represents.declare`**: stores and declarations keep variables
  represented, because their names in the code differ;
* **`runs_lowerExpr`**: the code of an expression computes its value and changes temporaries
  only.
-/

namespace BraceLang.Tac

open Structured (Variable Vars)
open Lower (Apart)

variable {V : Type} {c : Code} {m m' : Memory V}

/-! ### Parts of code -/

/-- The part stands in the code, from a place on. -/
def Code.Has (c : Code) (p : Nat) (part : List Instr) : Prop :=
  ∀ ⦃k i⦄, part[k]? = some i → c.instrs[p + k]? = some i

namespace Code.Has

variable {p : Nat} {first rest : List Instr} {i : Instr}

theorem of_isPrefix (starts : first <+: c.instrs.drop p) : c.Has p first := by
  intro k i at_k
  obtain ⟨below, here⟩ := List.getElem?_eq_some_iff.mp at_k
  have at_k' := List.prefix_iff_getElem?.mp starts k below
  rwa [here, List.getElem?_drop] at at_k'

theorem of_isInfix (within : first <:+: c.instrs) : ∃ p, c.Has p first := by
  obtain ⟨before, behind, whole⟩ := within
  refine ⟨before.length, .of_isPrefix ?_⟩
  rw [← whole, List.append_assoc, List.drop_left]
  exact List.prefix_append _ _

theorem head (has : c.Has p (i :: rest)) : c.instrs[p]? = some i := @has 0 i rfl

theorem tail (has : c.Has p (i :: rest)) : c.Has (p + 1) rest := by
  intro k j at_k
  have at_k' : (i :: rest)[k + 1]? = some j := by simpa using at_k
  have := has at_k'
  rwa [show p + (k + 1) = p + 1 + k by omega] at this

theorem left (has : c.Has p (first ++ rest)) : c.Has p first := by
  intro k j at_k
  refine has ?_
  rw [List.getElem?_append_left (List.getElem?_eq_some_iff.mp at_k).1]
  exact at_k

theorem right (has : c.Has p (first ++ rest)) : c.Has (p + first.length) rest := by
  intro k j at_k
  have at_k' : (first ++ rest)[first.length + k]? = some j := by
    rw [List.getElem?_append_right (Nat.le_add_right _ _), Nat.add_sub_cancel_left]
    exact at_k
  have := has at_k'
  rwa [← Nat.add_assoc] at this

end Code.Has

/-! ### Variables in memory -/

/-- The memory holds a variable under a name of the code. -/
def Holds (c : Code) (m : Memory V) (unique : String) (x : Variable V) : Prop :=
  c.types.get? unique = some x.type ∧
    match x.content with
    | .scalar value => ∀ v, value = some v → m.get c.globals (.var unique) = v
    | .array cells => ∀ i v, cells i = some v → m.cell c.globals unique i = v

/-- The memory holds the variables of one scope, which are those that lowering knows of. -/
structure HoldsScope (c : Code) (m : Memory V) (L : Scope String) (S : Scope (Variable V)) :
    Prop where
  holds : ∀ {name x}, S.get? name = some x →
    ∃ unique, L.get? name = some unique ∧ Holds c m unique x
  absent : ∀ {name}, S.get? name = none → L.get? name = none

/-- The memory holds all variables that are in open scopes. -/
def Represents (c : Code) (m : Memory V) (scopes : List (Scope String))
    (below : List (Scope (Variable V))) : Prop :=
  List.Forall₂ (HoldsScope c m) scopes below

/-- The memories agree on a variable and on an array of this name. -/
def SameAt (c : Code) (m m' : Memory V) (unique : String) : Prop :=
  m'.get c.globals (.var unique) = m.get c.globals (.var unique) ∧
    m'.cell c.globals unique = m.cell c.globals unique

theorem Holds.congr {unique : String} {x : Variable V} (holds : Holds c m unique x)
    (same : SameAt c m m' unique) : Holds c m' unique x := by
  obtain ⟨typed, holds⟩ := holds
  refine ⟨typed, ?_⟩
  rw [same.1, same.2]
  exact holds

theorem HoldsScope.congr {L : Scope String} {S : Scope (Variable V)} (holds : HoldsScope c m L S)
    (same : ∀ {name unique}, L.get? name = some unique → SameAt c m m' unique) :
    HoldsScope c m' L S := by
  refine ⟨?_, holds.absent⟩
  intro name x found
  obtain ⟨unique, found', held⟩ := holds.holds found
  exact ⟨unique, found', held.congr (same found')⟩

namespace Represents

variable {scopes : List (Scope String)} {below : List (Scope (Variable V))} {name : String}
  {x : Variable V}

theorem congr (represents : Represents c m scopes below)
    (same : ∀ L ∈ scopes, ∀ {name unique}, L.get? name = some unique → SameAt c m m' unique) :
    Represents c m' scopes below := by
  unfold Represents at *
  induction represents with
  | nil => exact .nil
  | cons first _ ih =>
      refine .cons (first.congr (same _ List.mem_cons_self)) (ih ?_)
      intro L mem
      exact same L (List.mem_cons_of_mem _ mem)

theorem push (represents : Represents c m scopes below) :
    Represents c m ({} :: scopes) ({} :: below) := by
  refine .cons ⟨?_, fun _ => rfl⟩ represents
  intro name x found
  contradiction

theorem tail (represents : Represents c m scopes below) :
    Represents c m scopes.tail below.tail := by
  unfold Represents at *
  cases represents with
  | nil => exact .nil
  | cons _ rest => exact rest

/-- A visible variable is found under its name in the code. -/
theorem lookup (represents : Represents c m scopes below)
    (found : below.findSome? (·.get? name) = some x) :
    ∃ unique, scopes.findSome? (·.get? name) = some unique ∧ Holds c m unique x ∧
      ∃ L ∈ scopes, L.get? name = some unique := by
  unfold Represents at represents
  induction represents with
  | nil => simp at found
  | @cons L S _ _ first _ ih =>
      rw [List.findSome?_cons] at found ⊢
      cases here : S.get? name with
      | some y =>
          rw [here] at found
          obtain rfl := Option.some.inj found
          obtain ⟨unique, found', held⟩ := first.holds here
          exact ⟨unique, by rw [found'], held, L, List.mem_cons_self, found'⟩
      | none =>
          rw [here] at found
          obtain ⟨unique, found', held, M, mem, at_M⟩ := ih found
          rw [first.absent here]
          exact ⟨unique, found', held, M, List.mem_cons_of_mem _ mem, at_M⟩

/-- A store changes the visible variable of a name, and no other one. -/
theorem update (represents : Represents c m scopes below) (apart : Apart scopes)
    {unique : String} (found : scopes.findSome? (·.get? name) = some unique)
    (same : ∀ other, other ≠ unique → SameAt c m m' other) (held : Holds c m' unique x) :
    Represents c m' scopes (ScopeStack.updateIn name (fun _ => x) below) := by
  unfold Represents at *
  induction represents with
  | nil => exact .nil
  | @cons L S rest below' first others ih =>
      obtain ⟨between, _⟩ := List.pairwise_cons.mp apart.between
      rw [List.findSome?_cons] at found
      unfold ScopeStack.updateIn
      split
      · rename_i contained
        obtain ⟨y, here⟩ := Option.isSome_iff_exists.mp contained
        obtain ⟨unique', found', _⟩ := first.holds here
        rw [found'] at found
        obtain rfl := Option.some.inj found
        refine .cons ⟨?_, ?_⟩ (Represents.congr others ?_)
        · intro other z at_other
          rw [Assoc.get?_update] at at_other
          split at at_other
          · rename_i here'
            subst here'
            rw [here] at at_other
            obtain rfl : x = z := by simpa using at_other
            exact ⟨unique', found', held⟩
          · rename_i other_name
            obtain ⟨unique'', found'', held'⟩ := first.holds at_other
            refine ⟨unique'', found'', held'.congr (same _ ?_)⟩
            intro equal
            subst equal
            exact other_name (apart.within L List.mem_cons_self found'' found')
        · intro other missing
          rw [Assoc.get?_update] at missing
          split at missing
          · rename_i here'
            subst here'
            simp [here] at missing
          · exact first.absent missing
        · intro M mem other unique'' found''
          exact same _ (between M mem found' found'').symm
      · rename_i missing
        have here : S.get? name = none := by simpa [Assoc.contains] using missing
        rw [first.absent here] at found
        obtain ⟨M, mem, at_M⟩ := List.exists_of_findSome?_eq_some found
        refine .cons (first.congr ?_) (ih apart.tail found)
        intro other unique' found'
        exact same _ (between M mem found' at_M)

/-- A new variable is added to the current scope. -/
theorem declare {L : Scope String} {S S' : Scope (Variable V)}
    (represents : Represents c m (L :: scopes) (S :: below)) {unique : String}
    (declared : Scope.declare? S name x = some S')
    (fresh : ∀ M ∈ L :: scopes, ∀ {other u}, M.get? other = some u → u ≠ unique)
    (same : ∀ other, other ≠ unique → SameAt c m m' other) (held : Holds c m' unique x) :
    ∃ L', Scope.declare? L name unique = some L' ∧
      Represents c m' (L' :: scopes) (S' :: below) := by
  unfold Represents at *
  cases represents with
  | cons first others =>
      have missing : S.get? name = none := by
        unfold Scope.declare? at declared
        split at declared
        · contradiction
        · rename_i absent
          simpa [Assoc.contains] using absent
      have entered : Scope.declare? L name unique = some ⟨L.entries ++ [(name, unique)]⟩ := by
        simp [Scope.declare?, Assoc.contains, first.absent missing]
      refine ⟨_, entered, .cons ⟨?_, ?_⟩ ?_⟩
      · intro other y found
        rw [Scope.get?_declare? declared] at found
        rw [Scope.get?_declare? entered]
        split at found
        · rename_i here
          obtain rfl := Option.some.inj found
          exact ⟨unique, by simp [here], held⟩
        · rename_i elsewhere
          obtain ⟨u, found', held'⟩ := first.holds found
          refine ⟨u, by simp [elsewhere, found'], held'.congr (same u ?_)⟩
          exact fresh L List.mem_cons_self found'
      · intro other absent
        rw [Scope.get?_declare? declared] at absent
        rw [Scope.get?_declare? entered]
        split at absent
        · contradiction
        · rename_i elsewhere
          simp [elsewhere, first.absent absent]
      · refine Represents.congr others ?_
        intro M mem other u found
        exact same u (fresh M (List.mem_cons_of_mem _ mem) found)

end Represents

/-- A declared variable is represented as soon as the memory holds it. -/
theorem represents_declare {names : List String} (none_made : NoneMadeUp names) {s : Lower.State}
    {name type : String} {x : Variable V} {σ σ' : Vars V} (named : Lower.WellNamed names s)
    (mem : name ∈ names) (represents : Represents c m s.env.stack.scopes σ.scopes)
    (declared : σ.declare? name x = some σ')
    (same : ∀ other, other ≠ (Lower.declare name type s).1 → SameAt c m m' other)
    (held : Holds c m' (Lower.declare name type s).1 x) :
    Represents c m' (Lower.declare name type s).2.env.stack.scopes σ'.scopes := by
  have fresh := fun L open_ => @Lower.declare_fresh _ _ name type none_made named mem L open_
  obtain ⟨below⟩ := σ
  rw [Lower.stack_declare]
  unfold ScopeStack.declare? at declared ⊢
  cases scopes : s.env.stack.scopes with
  | nil =>
      rw [scopes] at represents
      cases represents
      contradiction
  | cons L rest =>
      rw [scopes] at represents fresh
      cases below with
      | nil => cases represents
      | cons S below =>
          obtain ⟨S', entered, rfl⟩ := Option.map_eq_some_iff.mp declared
          obtain ⟨L', entered', represents'⟩ := represents.declare entered fresh same held
          simpa [entered'] using represents'

theorem sameAt_set {x other : String} (v : V) (differ : other ≠ x) :
    SameAt c m (m.set c.globals (.var x) v) other :=
  ⟨m.get_set_of_ne _ v (by simpa using differ), m.cell_set ..⟩

theorem sameAt_setCell [DecidableEq V] {array other : String} (i v : V) (differ : other ≠ array) :
    SameAt c m (m.setCell c.globals array i v) other :=
  ⟨m.get_setCell .., m.cell_setCell_of_ne _ i v differ⟩

theorem Memory.cell_setCell [DecidableEq V] (globals : List String) (m : Memory V)
    (array : String) (index v i : V) :
    (m.setCell globals array index v).cell globals array i =
      if i = index then v else m.cell globals array i := by
  cases shared : isShared globals (.var array) <;>
    simp [Memory.cell, Memory.setCell, Memory.side, Memory.onSide, shared, Store.setCell]

/-! ### Expressions -/

/-- The memories differ in temporaries from a number on only. -/
structure SameBelow (c : Code) (next : Nat) (m m' : Memory V) : Prop where
  var : ∀ x, m'.get c.globals (.var x) = m.get c.globals (.var x)
  cell : ∀ array, m'.cell c.globals array = m.cell c.globals array
  temp : ∀ t : Temp, t.id < next → m'.get c.globals (.temp t) = m.get c.globals (.temp t)

namespace SameBelow

variable {next next' : Nat} {m'' : Memory V}

theorem refl (m : Memory V) : SameBelow c next m m := ⟨fun _ => rfl, fun _ => rfl, fun _ _ => rfl⟩

theorem trans (first : SameBelow c next m m') (second : SameBelow c next' m' m'')
    (le : next ≤ next') : SameBelow c next m m'' where
  var x := (second.var x).trans (first.var x)
  cell array := (second.cell array).trans (first.cell array)
  temp t below := (second.temp t (Nat.lt_of_lt_of_le below le)).trans (first.temp t below)

theorem set (m : Memory V) (v : V) : SameBelow c next m (m.set c.globals (.temp ⟨next⟩) v) where
  var x := m.get_set_of_ne _ v (by simp)
  cell array := m.cell_set _ _ v array
  temp t below := by
    refine m.get_set_of_ne _ v ?_
    intro same
    obtain rfl := Name.temp.inj same
    exact Nat.lt_irrefl _ below

theorem sameAt (same : SameBelow c next m m') (unique : String) : SameAt c m m' unique :=
  ⟨same.var unique, same.cell unique⟩

/-- Operands that read lower temporaries only keep their values. -/
theorem eval (same : SameBelow c next m m') (I : Interpretation V) {o : Operand}
    (below : ∀ t, .temp t ∈ o.names → t.id < next) :
    o.eval I c.globals m' = o.eval I c.globals m := by
  refine o.eval_congr I c.globals ?_ ?_
  · intro n mem
    cases n with
    | var x => exact same.var x
    | temp t => exact same.temp t (below t mem)
  · intro array _
    exact same.cell array

end SameBelow

mutual

theorem le_lowerExpr (resolve : String → String) :
    ∀ (next : Nat) (e : Expr), next ≤ (lowerExpr resolve next e).next
  | _, .literal .. | _, .var .. => Nat.le_refl _
  | next, .element _ _ index => le_lowerExpr resolve next index
  | next, .unary _ _ operand => Nat.le_succ_of_le (le_lowerExpr resolve next operand)
  | next, .binary _ _ left right =>
      Nat.le_succ_of_le (Nat.le_trans (le_lowerExpr resolve next left)
        (le_lowerExpr resolve _ right))
  | next, .call _ _ args => Nat.le_succ_of_le (le_lowerArgs resolve next args)

theorem le_lowerArgs (resolve : String → String) :
    ∀ (next : Nat) (args : List Expr), next ≤ (lowerArgs resolve next args).next
  | _, [] => Nat.le_refl _
  | next, arg :: args =>
      Nat.le_trans (le_lowerExpr resolve next arg) (le_lowerArgs resolve _ args)

end

/-- The operand of a value reads temporaries that its code has taken. -/
theorem temps_lowerExpr (resolve : String → String) :
    ∀ (next : Nat) (e : Expr) (t : Temp), .temp t ∈ (lowerExpr resolve next e).value.names →
      t.id < (lowerExpr resolve next e).next
  | _, .literal .., t, reads | _, .var .., t, reads => by simp [lowerExpr, Operand.names] at reads
  | next, .element _ _ index, t, reads => by
      refine temps_lowerExpr resolve next index t ?_
      simpa [lowerExpr, Operand.names] using reads
  | _, .unary .., t, reads | _, .binary .., t, reads | _, .call .., t, reads => by
      simp only [lowerExpr, ArgsCode.call, Operand.names, List.mem_singleton,
        Name.temp.injEq] at reads
      subst reads
      exact Nat.lt_succ_self _

/-- The memory holds whatever variable a name stands for. -/
def Visible (c : Code) (m : Memory V) (resolve : String → String) (σ : Vars V) : Prop :=
  ∀ ⦃name x⦄, σ.lookup name = some x → Holds c m (resolve name) x

theorem Visible.congr {resolve : String → String} {σ : Vars V} {next : Nat}
    (visible : Visible c m resolve σ) (same : SameBelow c next m m') :
    Visible c m' resolve σ :=
  fun _ _ found => (visible found).congr (same.sameAt _)

theorem Represents.visible {s : Lower.State} {σ : Vars V}
    (represents : Represents c m s.env.stack.scopes σ.scopes) : Visible c m s.resolve σ := by
  intro name x found
  obtain ⟨unique, found', held, _⟩ := represents.lookup found
  have resolved : s.resolve name = unique := by
    simp [Lower.State.resolve, ScopeStack.lookup, found']
  rw [resolved]
  exact held

variable [DecidableEq V] {I : Interpretation V}

/-- The machine does what the instruction at its place says. -/
theorem leads_exec {p : Nat} {i : Instr} {s' : Config V} (at_p : c.instrs[p]? = some i)
    (executes : c.exec I ⟨p, m, [], []⟩ i = .inl s') :
    Leads (c.step I) ⟨p, m, [], []⟩ s' :=
  .of_step ((step_eq_exec at_p).trans executes)

/-- The code of an expression leaves its value in an operand. -/
theorem runs_lowerExpr {resolve : String → String} {σ : Vars V} :
    ∀ (e : Expr) {m : Memory V} {next p : Nat} {v : V},
      c.Has p (lowerExpr resolve next e).instrs → Visible c m resolve σ →
      Structured.eval I σ e = some v →
      ∃ m', Leads (c.step I) ⟨p, m, [], []⟩
          ⟨p + (lowerExpr resolve next e).instrs.length, m', [], []⟩ ∧
        SameBelow c next m m' ∧ (lowerExpr resolve next e).value.eval I c.globals m' = v
  | .literal _ value, m, next, p, v, _, _, evaluates => by
      obtain rfl := Option.some.inj evaluates
      exact ⟨m, .refl _, .refl _, rfl⟩
  | .var _ name, m, next, p, v, _, visible, evaluates => by
      obtain ⟨x, found, read⟩ := Option.bind_eq_some_iff.mp evaluates
      refine ⟨m, .refl _, .refl _, ?_⟩
      obtain ⟨_, holds⟩ := visible found
      unfold Structured.Variable.read? at read
      cases content : x.content with
      | scalar value =>
          rw [content] at holds read
          exact holds v read
      | array cells =>
          rw [content] at read
          contradiction
  | .element _ array index, m, next, p, v, has, visible, evaluates => by
      obtain ⟨i, indexed, rest⟩ := Option.bind_eq_some_iff.mp evaluates
      obtain ⟨x, found, read⟩ := Option.bind_eq_some_iff.mp rest
      obtain ⟨m', leads, same, value⟩ := runs_lowerExpr index has visible indexed
      refine ⟨m', leads, same, ?_⟩
      obtain ⟨_, holds⟩ := visible.congr same found
      unfold Structured.Variable.readCell? at read
      change m'.cell c.globals (resolve array) _ = v
      rw [value]
      cases content : x.content with
      | scalar value =>
          rw [content] at read
          contradiction
      | array cells =>
          rw [content] at holds read
          exact holds i v read
  | .unary _ op operand, m, next, p, v, has, visible, evaluates => by
      obtain ⟨a, evaluated, result⟩ := Option.bind_eq_some_iff.mp evaluates
      obtain rfl := Option.some.inj result
      obtain ⟨m', leads, same, value⟩ := runs_lowerExpr operand has.left visible evaluated
      have last := leads_exec (I := I) (m := m') has.right.head rfl
      rw [value] at last
      refine ⟨_, ?_, same.trans (.set m' _) (le_lowerExpr ..), m'.get_set_self ..⟩
      simp only [lowerExpr, List.length_append, List.length_singleton, ← Nat.add_assoc]
      exact leads.trans last
  | .binary _ op left right, m, next, p, v, has, visible, evaluates => by
      obtain ⟨a, evaluated, rest⟩ := Option.bind_eq_some_iff.mp evaluates
      obtain ⟨b, evaluated', result⟩ := Option.bind_eq_some_iff.mp rest
      obtain rfl := Option.some.inj result
      obtain ⟨m₁, leads, same, value⟩ := runs_lowerExpr left has.left.left visible evaluated
      obtain ⟨m₂, leads', same', value'⟩ :=
        runs_lowerExpr right has.left.right (visible.congr same) evaluated'
      -- The code of the right operand leaves the left one alone.
      have kept := same'.eval I (temps_lowerExpr resolve next left)
      have last := leads_exec (I := I) (m := m₂) has.right.head rfl
      rw [value', kept, value] at last
      have before := same.trans same' (le_lowerExpr resolve next left)
      have le := Nat.le_trans (le_lowerExpr resolve next left) (le_lowerExpr resolve _ right)
      refine ⟨_, ?_, before.trans (.set m₂ _) le, m₂.get_set_self ..⟩
      simp only [lowerExpr, List.length_append, List.length_singleton, ← Nat.add_assoc] at last ⊢
      exact (leads.trans leads').trans last
  | .call .., _, _, _, _, _, _, evaluates => by contradiction

end BraceLang.Tac
