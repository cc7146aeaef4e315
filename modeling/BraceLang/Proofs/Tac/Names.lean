import BraceLang.Proofs.Numbering
import BraceLang.Proofs.Trees
import BraceLang.Tac.Lower

/-!
The names that lowering gives to variables.

A declaration keeps its name or gets one that is made up from it. As long as no name of the
program looks like a made-up one, this keeps apart what has to be kept apart, whatever the
program is:

* **`keeps_stmt`**: the variables in the open scopes have different names in the code, hidden
  ones included, and the type of a name in the code never changes.

It also says what a statement does to the scopes: it leaves the outer ones alone.
-/

namespace BraceLang.Tac

/-- The name made up when a name is replaced for the `k`th time. -/
def madeUp (name : String) (k : Nat) : String := name ++ "." ++ toString k

theorem toList_madeUp (name : String) (k : Nat) :
    (madeUp name k).toList = name.toList ++ '.' :: Nat.toDigits 10 k := by
  simp [madeUp]

/-- A made-up name tells what it was made up from. -/
theorem madeUp_inj {a b : String} {j k : Nat} (same : madeUp a j = madeUp b k) :
    a = b ∧ j = k := by
  have lists := congrArg String.toList same
  rw [toList_madeUp, toList_madeUp] at lists
  obtain ⟨names, counts⟩ := append_toDigits_inj (by decide) lists
  exact ⟨String.toList_inj.mp names, counts⟩

/-- None of the names looks as if it were made up from one of them. -/
def NoneMadeUp (names : List String) : Prop :=
  ∀ x ∈ names, ∀ y ∈ names, ∀ k, x ≠ madeUp y (k + 1)

theorem noneMadeUp_of_dotless {names : List String}
    (dotless : ∀ x ∈ names, '.' ∉ x.toList) : NoneMadeUp names := by
  intro x mem y _ k same
  refine dotless x mem ?_
  rw [same, toList_madeUp]
  simp

namespace Lower

/-! ### The names in open scopes -/

/-- How often a name has been replaced so far. -/
def State.replaced (s : State) (name : String) : Nat := (s.renames.get? name).getD 0

/-- A declaration of the name may have this name in the code. -/
def State.Gives (s : State) (name unique : String) : Prop :=
  unique = name ∨ ∃ k < s.replaced name, unique = madeUp name (k + 1)

/-- No two entries of the scopes have the same name in the code. -/
structure Apart (scopes : List (Scope String)) : Prop where
  within : ∀ L ∈ scopes, ∀ {a b u}, L.get? a = some u → L.get? b = some u → a = b
  between : scopes.Pairwise fun L M => ∀ {a b u v}, L.get? a = some u → M.get? b = some v → u ≠ v

/-- The names in the code so far are those of declarations of `names`, and the open ones
differ. -/
structure WellNamed (names : List String) (s : State) : Prop where
  entry : ∀ L ∈ s.env.stack.scopes, ∀ {name unique}, L.get? name = some unique →
    name ∈ names ∧ s.Gives name unique
  typed : ∀ {unique t}, s.types.get? unique = some t → ∃ name ∈ names, s.Gives name unique
  apart : Apart s.env.stack.scopes

/-- What lowering leaves as it is. -/
structure Extends (s s' : State) : Prop where
  /-- Only the current scope gets new names. -/
  outer : s'.env.stack.scopes.tail = s.env.stack.scopes.tail
  depth : s'.env.stack.scopes.length = s.env.stack.scopes.length
  types : ∀ {unique t}, s.types.get? unique = some t → s'.types.get? unique = some t
  replaced : ∀ name, s.replaced name ≤ s'.replaced name

namespace Extends

theorem refl (s : State) : Extends s s := ⟨rfl, rfl, id, fun _ => Nat.le_refl _⟩

theorem trans {s s' s'' : State} (first : Extends s s') (second : Extends s' s'') :
    Extends s s'' where
  outer := second.outer.trans first.outer
  depth := second.depth.trans first.depth
  types known := second.types (first.types known)
  replaced name := Nat.le_trans (first.replaced name) (second.replaced name)

end Extends

theorem State.Gives.mono {s s' : State} {name unique : String}
    (more : s.replaced name ≤ s'.replaced name) (gives : s.Gives name unique) :
    s'.Gives name unique := by
  rcases gives with same | ⟨k, below, made⟩
  · exact .inl same
  · exact .inr ⟨k, Nat.lt_of_lt_of_le below more, made⟩

theorem Apart.tail {scopes : List (Scope String)} (apart : Apart scopes) : Apart scopes.tail where
  within L mem := apart.within L (List.mem_of_mem_tail mem)
  between := apart.between.tail

theorem Apart.push {scopes : List (Scope String)} (apart : Apart scopes) :
    Apart ({} :: scopes) where
  within L mem a b u at_a at_b := by
    rcases List.mem_cons.mp mem with rfl | mem
    · contradiction
    · exact apart.within L mem at_a at_b
  between := by
    refine List.pairwise_cons.mpr ⟨?_, apart.between⟩
    intro M _ a b u v at_a
    contradiction

/-- Before the first declaration there are no names. -/
theorem wellNamed_empty (names : List String) : WellNamed names {} := by
  refine ⟨?_, ?_, ?_, .nil⟩
  · intro L mem
    contradiction
  · intro unique t known
    contradiction
  · intro L mem
    contradiction

/-- Naming depends on a part of the state only. -/
theorem WellNamed.of_same {names : List String} {s s' : State} (named : WellNamed names s)
    (scopes : s'.env.stack = s.env.stack) (types : s'.types = s.types)
    (renames : s'.renames = s.renames) : WellNamed names s' := by
  have same : s'.replaced = s.replaced := by
    funext name
    simp only [State.replaced, renames]
  have gives : s'.Gives = s.Gives := by
    funext name unique
    simp only [State.Gives, same]
  constructor
  · rw [scopes, gives]
    exact named.entry
  · rw [types, gives]
    exact named.typed
  · rw [scopes]
    exact named.apart

/-! ### What lowering keeps -/

/-- An action keeps names in order. -/
def Keeps {α : Type} (names : List String) (action : Lower α) : Prop :=
  ∀ s, WellNamed names s → WellNamed names (action s).2 ∧ Extends s (action s).2

variable {names : List String} {α β : Type}

/-- An action that touches neither scopes nor types nor replacements. -/
theorem keeps_of_same {action : Lower α}
    (same : ∀ s, (action s).2.env.stack = s.env.stack ∧ (action s).2.types = s.types ∧
      (action s).2.renames = s.renames) : Keeps names action := by
  intro s named
  obtain ⟨scopes, types, renames⟩ := same s
  refine ⟨named.of_same scopes types renames, ?_⟩
  constructor
  · rw [scopes]
  · rw [scopes]
  · rw [types]
    exact id
  · intro name
    simp only [State.replaced, renames, Nat.le_refl]

theorem keeps_pure (a : α) : Keeps names (pure a : Lower α) :=
  keeps_of_same fun _ => ⟨rfl, rfl, rfl⟩

theorem keeps_expr (e : Expr) : Keeps names (expr e) := keeps_of_same fun _ => ⟨rfl, rfl, rfl⟩

theorem keeps_freshLabel : Keeps names freshLabel := keeps_of_same fun _ => ⟨rfl, rfl, rfl⟩

theorem keeps_call (callee : String) (args : List Expr) : Keeps names (call callee args) :=
  keeps_of_same fun _ => ⟨rfl, rfl, rfl⟩

theorem keeps_declareGlobal (name : String) : Keeps names (declareGlobal name) := by
  refine keeps_of_same fun s => ?_
  change (if _ then s else _).env.stack = _ ∧ (if _ then s else _).types = _ ∧
    (if _ then s else _).renames = _
  split <;> exact ⟨rfl, rfl, rfl⟩

theorem Keeps.bind {action : Lower α} {rest : α → Lower β} (first : Keeps names action)
    (second : ∀ a, Keeps names (rest a)) : Keeps names (action >>= rest) := by
  intro s named
  obtain ⟨named', extends'⟩ := first s named
  obtain ⟨named'', extends''⟩ := second (action s).1 (action s).2 named'
  exact ⟨named'', extends'.trans extends''⟩

theorem scopes_closeScope (s : State) :
    (closeScope s).2.env.stack.scopes = s.env.stack.scopes.tail := by
  change s.env.leave.2.stack.scopes = _
  unfold Env.leave ScopeStack.pop?
  cases scopes : s.env.stack.scopes with
  | nil => simp [scopes]
  | cons _ _ => rfl

theorem WellNamed.openScope {s : State} (named : WellNamed names s) :
    WellNamed names (Lower.openScope s).2 where
  entry L mem name unique found := by
    rcases List.mem_cons.mp mem with rfl | mem
    · contradiction
    · exact named.entry L mem found
  typed := named.typed
  apart := named.apart.push

theorem WellNamed.closeScope {s : State} (named : WellNamed names s) :
    WellNamed names (Lower.closeScope s).2 where
  entry L mem name unique found := by
    rw [scopes_closeScope] at mem
    exact named.entry L (List.mem_of_mem_tail mem) found
  typed := named.typed
  apart := by
    rw [scopes_closeScope]
    exact named.apart.tail

/-- A scope that is opened, filled and closed leaves the others as they were. -/
theorem Keeps.bracket {inside : Lower α} (keeps : Keeps names inside) {s : State}
    (named : WellNamed names s) :
    WellNamed names (closeScope (inside (openScope s).2).2).2 ∧
      Extends s (closeScope (inside (openScope s).2).2).2 ∧
      (closeScope (inside (openScope s).2).2).2.env.stack.scopes = s.env.stack.scopes := by
  obtain ⟨named', extends'⟩ := keeps (openScope s).2 named.openScope
  have scopes : (closeScope (inside (openScope s).2).2).2.env.stack.scopes =
      s.env.stack.scopes := (scopes_closeScope _).trans extends'.outer
  refine ⟨named'.closeScope, ?_, scopes⟩
  constructor
  · rw [scopes]
  · rw [scopes]
  · exact extends'.types
  · exact extends'.replaced

theorem keeps_inScope {inside : Lower (List Instr)} (keeps : Keeps names inside) :
    Keeps names (inScope inside) := by
  intro s named
  obtain ⟨named', extends', _⟩ := keeps.bracket named
  exact ⟨named', extends'⟩

theorem scopes_inScope {inside : Lower (List Instr)} (keeps : Keeps names inside) {s : State}
    (named : WellNamed names s) :
    (inScope inside s).2.env.stack.scopes = s.env.stack.scopes := (keeps.bracket named).2.2

/-! ### Declarations -/

section Declare

variable {s : State} {name type : String}

theorem declare_fst (s : State) (name type : String) :
    (declare name type s).1 =
      if s.clashes name (Ty.parse? type) then madeUp name (s.replaced name + 1) else name := rfl

theorem stack_declare (s : State) (name type : String) :
    (declare name type s).2.env.stack =
      (s.env.stack.declare? name (declare name type s).1).getD s.env.stack := by
  change (s.env.declare name (declare name type s).1).2.stack = _
  unfold Env.declare
  cases s.env.stack.declare? name (declare name type s).1 <;> rfl

theorem replaced_declare (s : State) (name type other : String) :
    (declare name type s).2.replaced other =
      if s.clashes name (Ty.parse? type) ∧ other = name then s.replaced name + 1
      else s.replaced other := by
  change (Assoc.get? (if s.clashes name (Ty.parse? type) then _ else s.renames) other).getD 0 = _
  by_cases clash : s.clashes name (Ty.parse? type) = true
  · by_cases same : other = name
    · subst same
      simp [clash, State.replaced]
    · simp [clash, same, State.replaced, Assoc.get?_set_of_ne _ _ same]
  · simp [clash, State.replaced]

theorem types_declare (s : State) (name type : String) :
    (declare name type s).2.types =
      match Ty.parse? type with
      | some t => s.types.set (declare name type s).1 t
      | none => s.types := rfl

theorem lookup_of_not_clashes {type? : Option Ty} (free : ¬ s.clashes name type? = true) :
    s.env.stack.lookup name = none := by
  simp only [State.clashes, Bool.or_eq_true, not_or, Option.not_isSome_iff_eq_none] at free
  exact free.1

theorem type_of_not_clashes {t t' : Ty} (free : ¬ s.clashes name (some t) = true)
    (known : s.types.get? name = some t') : t = t' := by
  simp only [State.clashes, known, Bool.or_eq_true, not_or, bne_iff_ne, ne_eq,
    Decidable.not_not] at free
  exact free.2

/-- The name of a declaration is one of those that its name may have. -/
theorem gives_declare (s : State) (name type : String) :
    (declare name type s).2.Gives name (declare name type s).1 := by
  unfold State.Gives
  rw [declare_fst, replaced_declare]
  by_cases clash : s.clashes name (Ty.parse? type) = true
  · exact .inr ⟨s.replaced name, by simp [clash], by simp [clash]⟩
  · exact .inl (by simp [clash])

theorem replaced_le_declare (s : State) (name type other : String) :
    s.replaced other ≤ (declare name type s).2.replaced other := by
  rw [replaced_declare]
  split
  · rename_i here
    rw [here.2]
    exact Nat.le_succ _
  · exact Nat.le_refl _

variable (none_made : NoneMadeUp names) (named : WellNamed names s) (mem : name ∈ names)

include none_made mem in
/-- A made-up name is new. -/
theorem ne_madeUp {other unique : String} (mem' : other ∈ names) (gives : s.Gives other unique) :
    unique ≠ madeUp name (s.replaced name + 1) := by
  intro same
  rcases gives with rfl | ⟨k, below, made⟩
  · exact none_made _ mem' _ mem _ same
  · obtain ⟨rfl, counted⟩ := madeUp_inj (made.symm.trans same)
    omega

include none_made named mem in
/-- The name of a declaration is not that of another variable in an open scope. -/
theorem declare_fresh {L : Scope String} (open_ : L ∈ s.env.stack.scopes) {other unique : String}
    (found : L.get? other = some unique) : unique ≠ (declare name type s).1 := by
  obtain ⟨mem', gives⟩ := named.entry L open_ found
  rw [declare_fst]
  split
  · exact ne_madeUp none_made mem mem' gives
  · rename_i free
    -- Nothing visible has the name, so the entry is of another one.
    have unseen := List.findSome?_eq_none_iff.mp (lookup_of_not_clashes free) L open_
    intro same
    subst same
    rcases gives with rfl | ⟨k, _, made⟩
    · simp [found] at unseen
    · exact none_made _ mem _ mem' _ made

include none_made named mem in
/-- A declaration changes the type of no name. -/
theorem types_declare_of_known {unique : String} {t : Ty} (known : s.types.get? unique = some t) :
    (declare name type s).2.types.get? unique = some t := by
  rw [types_declare]
  cases parsed : Ty.parse? type with
  | none => exact known
  | some t' =>
      by_cases same : unique = (declare name type s).1
      · suffices agree : t' = t by simp [same, agree]
        rw [declare_fst, parsed] at same
        split at same
        · obtain ⟨other, mem', gives⟩ := named.typed known
          exact absurd same (ne_madeUp none_made mem mem' gives)
        · rename_i free
          exact type_of_not_clashes free (same ▸ known)
      · exact (Assoc.get?_set_of_ne _ _ same).trans known

/-- The scopes after a declaration: the current one has a new name, or it had the name before. -/
theorem scopes_declare (s : State) (name type : String) :
    (declare name type s).2.env.stack.scopes = s.env.stack.scopes ∨
      ∃ L rest L', s.env.stack.scopes = L :: rest ∧
        Scope.declare? L name (declare name type s).1 = some L' ∧
        (declare name type s).2.env.stack.scopes = L' :: rest := by
  rw [stack_declare]
  generalize (declare name type s).1 = unique
  unfold ScopeStack.declare?
  cases scopes : s.env.stack.scopes with
  | nil => exact .inl (by simpa using scopes)
  | cons L rest =>
      cases entered : Scope.declare? L name unique with
      | none => exact .inl (by simpa [entered] using scopes)
      | some L' => exact .inr ⟨L, rest, L', rfl, entered, by simp [entered]⟩

/-- A new name in the current scope leaves all names apart. -/
theorem Apart.declare {L L' : Scope String} {rest : List (Scope String)} {unique : String}
    (apart : Apart (L :: rest)) (entered : Scope.declare? L name unique = some L')
    (fresh : ∀ M ∈ L :: rest, ∀ {a u}, M.get? a = some u → u ≠ unique) :
    Apart (L' :: rest) := by
  have found := fun a => Scope.get?_declare? entered a
  constructor
  · intro M mem a b u at_a at_b
    rcases List.mem_cons.mp mem with rfl | mem
    · rw [found] at at_a at_b
      split at at_a <;> split at at_b
      · simp_all
      · obtain rfl := Option.some.inj at_a
        exact absurd rfl (fresh L List.mem_cons_self at_b)
      · obtain rfl := Option.some.inj at_b
        exact absurd rfl (fresh L List.mem_cons_self at_a)
      · exact apart.within L List.mem_cons_self at_a at_b
    · exact apart.within M (List.mem_cons_of_mem _ mem) at_a at_b
  · obtain ⟨first, others⟩ := List.pairwise_cons.mp apart.between
    refine List.pairwise_cons.mpr ⟨?_, others⟩
    intro M mem a b u v at_a at_b
    rw [found] at at_a
    split at at_a
    · obtain rfl := Option.some.inj at_a
      exact (fresh M (List.mem_cons_of_mem _ mem) at_b).symm
    · exact first M mem at_a at_b

end Declare

section Statements

variable (none_made : NoneMadeUp names)

include none_made

theorem keeps_declare {name : String} (type : String) (mem : name ∈ names) :
    Keeps names (declare name type) := by
  intro s named
  have more := replaced_le_declare s name type
  have extends' : Extends s (declare name type s).2 := by
    constructor
    · rcases scopes_declare s name type with same | ⟨L, rest, L', before, _, after⟩
      · rw [same]
      · rw [before, after]
        rfl
    · rcases scopes_declare s name type with same | ⟨L, rest, L', before, _, after⟩
      · rw [same]
      · rw [before, after]
        rfl
    · exact types_declare_of_known none_made named mem
    · exact more
  refine ⟨⟨?_, ?_, ?_⟩, extends'⟩
  · intro M open_ other unique found
    rcases scopes_declare s name type with same | ⟨L, rest, L', before, entered, after⟩
    · rw [same] at open_
      obtain ⟨mem', gives⟩ := named.entry M open_ found
      exact ⟨mem', gives.mono (more other)⟩
    · rw [after] at open_
      rcases List.mem_cons.mp open_ with rfl | open_
      · rw [Scope.get?_declare? entered] at found
        split at found
        · rename_i here
          obtain rfl := Option.some.inj found
          rw [here]
          exact ⟨mem, gives_declare s name type⟩
        · obtain ⟨mem', gives⟩ := named.entry L (before ▸ List.mem_cons_self) found
          exact ⟨mem', gives.mono (more other)⟩
      · obtain ⟨mem', gives⟩ := named.entry M (before ▸ List.mem_cons_of_mem _ open_) found
        exact ⟨mem', gives.mono (more other)⟩
  · intro unique t known
    by_cases here : unique = (declare name type s).1
    · exact ⟨name, mem, here ▸ gives_declare s name type⟩
    · have before : s.types.get? unique = some t := by
        rw [types_declare] at known
        split at known
        · rwa [Assoc.get?_set_of_ne _ _ here] at known
        · exact known
      obtain ⟨other, mem', gives⟩ := named.typed before
      exact ⟨other, mem', gives.mono (more other)⟩
  · rcases scopes_declare s name type with same | ⟨L, rest, L', before, entered, after⟩
    · rw [same]
      exact named.apart
    · rw [after]
      refine (before ▸ named.apart).declare entered ?_
      intro M open_ a u found
      exact declare_fresh none_made named mem (before ▸ open_) found

theorem keeps_declaration (d : Declaration) (mem : d.name.val ∈ names) :
    Keeps names (declaration d) := by
  unfold declaration
  split
  · exact (keeps_declare none_made _ mem).bind fun _ =>
      (keeps_declareGlobal _).bind fun _ => keeps_pure _
  · exact (keeps_expr _).bind fun _ => (keeps_declare none_made _ mem).bind fun _ =>
      (keeps_declareGlobal _).bind fun _ => keeps_pure _

theorem keeps_params (params : List Param)
    (mem : ∀ x ∈ params.filterMap fun p => p.name.map (·.val), x ∈ names) :
    Keeps names (Lower.params params) := by
  induction params with
  | nil => exact keeps_pure _
  | cons p rest ih =>
      unfold Lower.params
      split
      · rename_i anonymous
        exact ih fun x here => mem x (by simpa [anonymous] using here)
      · rename_i name named
        refine (keeps_declare none_made _ (mem _ (by simp [named]))).bind fun _ => ?_
        refine (ih fun x here => mem x ?_).bind fun _ => keeps_pure _
        simp only [List.filterMap_cons, named, Option.map_some, List.mem_cons]
        exact .inr here

omit none_made in
theorem keeps_assignment (target : String) (index : Option Expr) (value : Expr) :
    Keeps names (assignment target index value) := by
  unfold assignment
  refine (keeps_of_same fun _ => ⟨rfl, rfl, rfl⟩ : Keeps names get).bind fun _ => ?_
  split
  · exact (keeps_expr _).bind fun _ => keeps_pure _
  · exact (keeps_expr _).bind fun _ => (keeps_expr _).bind fun _ => keeps_pure _

omit none_made in
theorem keeps_test (cond : Expr) (enter stop : Label) : Keeps names (test cond enter stop) :=
  (keeps_expr _).bind fun _ => keeps_pure _

end Statements

mutual

/-- Lowering a statement keeps names in order, provided that it declares some of `names`. -/
theorem keeps_stmt (none_made : NoneMadeUp names) (targets : Option Targets) :
    ∀ s : Stmt, (∀ x ∈ s.declared, x ∈ names) → Keeps names (stmt targets s)
  | .declare _ d, mem => keeps_declaration none_made d (mem _ (by simp [Stmt.declared]))
  | .prototype .., _ => keeps_pure _
  | .define heading _ body, mem => by
      have inside : Keeps names (do
          let params ← Lower.params heading.params
          modify ({ · with inFunction := true })
          let code ← stmts targets body
          return (params, code)) := by
        refine (keeps_params none_made _ fun x here => mem x ?_).bind fun _ => ?_
        · exact List.mem_append_left _ here
        · refine (keeps_of_same fun _ => ⟨rfl, rfl, rfl⟩).bind fun _ => ?_
          refine (keeps_stmts none_made targets body fun x here => mem x ?_).bind
            fun _ => keeps_pure _
          exact List.mem_append_right _ here
      intro s named
      obtain ⟨named', extends', _⟩ := inside.bracket named
      obtain ⟨named'', extends''⟩ := (keeps_of_same fun _ => ⟨rfl, rfl, rfl⟩ :
        Keeps names (do
          modify ({ · with inFunction := false })
          setAside (.function heading.name.val _ :: _))) _ named'
      exact ⟨named'', extends'.trans extends''⟩
  | .assign _ _ index value, _ => keeps_assignment _ index value
  | .call _ callee args, _ => keeps_call callee.val args
  | .block _ body, mem => keeps_inScope (keeps_stmts none_made targets body mem)
  | .ifThen _ _ body, mem =>
      (keeps_expr _).bind fun _ => keeps_freshLabel.bind fun _ => keeps_freshLabel.bind fun _ =>
        (keeps_inScope (keeps_stmts none_made targets body mem)).bind fun _ => keeps_pure _
  | .ifElse _ _ body _ elseBody, mem => by
      have memThen : ∀ x ∈ Stmt.declaredIn body, x ∈ names :=
        fun x here => mem x (List.mem_append_left _ here)
      have memElse : ∀ x ∈ Stmt.declaredIn elseBody, x ∈ names :=
        fun x here => mem x (List.mem_append_right _ here)
      exact (keeps_expr _).bind fun _ => keeps_freshLabel.bind fun _ => keeps_freshLabel.bind
        fun _ => (keeps_inScope (keeps_stmts none_made targets body memThen)).bind fun _ =>
          keeps_freshLabel.bind fun _ =>
            (keeps_inScope (keeps_stmts none_made targets elseBody memElse)).bind
              fun _ => keeps_pure _
  | .whileLoop _ _ body, mem =>
      keeps_freshLabel.bind fun _ => keeps_freshLabel.bind fun _ => keeps_freshLabel.bind fun _ =>
        (keeps_test _ _ _).bind fun _ =>
          (keeps_inScope (keeps_stmts none_made _ body mem)).bind fun _ => keeps_pure _
  | .forLoop init _ update _ body, mem => by
      have memInit : ∀ x ∈ Stmt.declaredBy init, x ∈ names :=
        fun x here => mem x (List.mem_append_left _ (List.mem_append_left _ here))
      have memUpdate : ∀ x ∈ Stmt.declaredBy update, x ∈ names :=
        fun x here => mem x (List.mem_append_left _ (List.mem_append_right _ here))
      have memBody : ∀ x ∈ Stmt.declaredIn body, x ∈ names :=
        fun x here => mem x (List.mem_append_right _ here)
      refine keeps_inScope ((keeps_header none_made targets init memInit).bind fun _ => ?_)
      refine keeps_freshLabel.bind fun _ => keeps_freshLabel.bind fun _ =>
        keeps_freshLabel.bind fun _ => keeps_freshLabel.bind fun _ => ?_
      refine (keeps_test _ _ _).bind fun _ => ?_
      refine (keeps_inScope (keeps_stmts none_made _ body memBody)).bind fun _ => ?_
      exact (keeps_header none_made targets update memUpdate).bind fun _ => keeps_pure _
  | .breakLoop _, _ => keeps_pure _
  | .continueLoop _, _ => keeps_pure _
  | .returnValue _ none, _ => keeps_pure _
  | .returnValue _ (some _), _ => (keeps_expr _).bind fun _ => keeps_pure _

theorem keeps_header (none_made : NoneMadeUp names) (targets : Option Targets) :
    ∀ s : Option Stmt, (∀ x ∈ Stmt.declaredBy s, x ∈ names) → Keeps names (header targets s)
  | none, _ => keeps_pure _
  | some s, mem => keeps_stmt none_made targets s mem

theorem keeps_stmts (none_made : NoneMadeUp names) (targets : Option Targets) :
    ∀ body : List Stmt, (∀ x ∈ Stmt.declaredIn body, x ∈ names) →
      Keeps names (stmts targets body)
  | [], _ => keeps_pure _
  | s :: rest, mem =>
      have memFirst := fun x here => mem x (List.mem_append_left _ here)
      have memRest := fun x here => mem x (List.mem_append_right _ here)
      (keeps_stmt none_made targets s memFirst).bind fun _ =>
        (keeps_stmts none_made targets rest memRest).bind fun _ => keeps_pure _

end

end Lower

end BraceLang.Tac
