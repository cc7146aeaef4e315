import Mathlib.Data.List.Perm.Basic
import BraceLang.Proofs.Check.Accepted
import BraceLang.Proofs.Check.Origins
import BraceLang.Proofs.Check.Restoring

/-!
When a scope closes, its symbols are swept: the variables that nothing has read are reported, and
the functions that have been called but not completed. What has become of a symbol by then is told
by the numbered deeds, without the checker: a name stands for the number of the deed that has
entered it, and a deed that uses the name is a use of that one.

**Main result.** `sweep_exact`: the warnings of a whole program are those that are due, each of
them once, scope by scope and in the order of their places.
-/

namespace BraceLang

namespace Position

theorem notAfter_iff {p q : Position} :
    p.notAfter q = true ↔ p.line < q.line ∨ p.line = q.line ∧ p.column ≤ q.column := by
  rw [notAfter, compare, bne_iff_ne, Ne, Ordering.then_eq_gt, Nat.compare_eq_gt, Nat.compare_eq_eq,
    Nat.compare_eq_gt]
  omega

theorem notAfter_trans (p q r : Position) (first : p.notAfter q = true)
    (second : q.notAfter r = true) : p.notAfter r = true := by
  rw [notAfter_iff] at *
  omega

theorem notAfter_total (p q : Position) : (p.notAfter q || q.notAfter p) = true := by
  rw [Bool.or_eq_true, notAfter_iff, notAfter_iff]
  omega

end Position

namespace Check

open ScopeStack

/-! ### What is due -/

namespace Deed

/-- The deed reads a name that stands for the deed with the number. -/
def isReadOf (i : Nat) (t : ScopeStack Nat) : Deed → Bool
  | reads name => t.lookup name == some i
  | opens | closes | declares .. | enters .. | calls _ | assigns _ => false

/-- The deed calls a name that stands for the deed with the number. -/
def isCallOf (i : Nat) (t : ScopeStack Nat) : Deed → Bool
  | calls name => t.lookup name == some i
  | opens | closes | declares .. | enters .. | reads _ | assigns _ => false

/-- The deed defines the function of the deed with the number, with these types. -/
def completes (i : Nat) (result : Ty) (types : List Ty) (t : ScopeStack Nat) : Deed → Bool
  | enters h result' types' defining =>
      defining && result' == result && types' == types && t.lookupGlobal h.name.val == some i
  | opens | closes | declares .. | reads _ | calls _ | assigns _ => false

end Deed

/-- One of the first deeds passes a test in the scopes in front of it. -/
def happens (ds : List Deed) (n : Nat) (test : ScopeStack Nat → Deed → Bool) : Bool :=
  (List.range n).any fun k => ds[k]?.any (test (origins ds k))

/-- What is to be reported about the deed with the number. -/
inductive Due (ds : List Deed) (i : Nat) : Diagnostic → Prop
  | unused {name type length hasValue}
      (declares : ds[i]? = some (.declares name type length false hasValue))
      (entered : Entered ds i) (unread : happens ds ds.length (Deed.isReadOf i) = false) :
      Due ds i ⟨.warning, .unusedVariable name.val, name.pos⟩
  | undefined {h result types}
      (enters : ds[i]? = some (.enters h result types false)) (entered : Entered ds i)
      (called : happens ds ds.length (Deed.isCallOf i) = true)
      (incomplete : happens ds ds.length (Deed.completes i result types) = false) :
      Due ds i ⟨.warning, .undefinedFunction h.name.val, h.name.pos⟩

/-! ### What the sweep sees of a symbol -/

/-- The symbol without what the sweep does not look at: whether it has a value, and the names of
its parameters. -/
def bare (s : Symbol) : Symbol where
  name := s.name
  type := s.type
  initialized := true
  used := s.used
  declaredAt := s.declaredAt
  kind := match s.kind with
    | .var length isParam => .var length isParam
    | .fn σ => .fn { σ with names := [] }

theorem isFunction_bare (s : Symbol) : (bare s).isFunction = s.isFunction := by
  rw [Symbol.isFunction, Symbol.isFunction, Symbol.signature?, Symbol.signature?, bare]
  cases s.kind <;> rfl

theorem leftover?_bare (s : Symbol) : leftover? (bare s) = leftover? s := by
  rw [leftover?, leftover?, bare]
  cases s.kind <;> rfl

theorem leftovers_bare (symbols : List Symbol) :
    leftovers (symbols.map bare) = leftovers symbols := by
  rw [leftovers, leftovers, List.filterMap_map]
  exact congrArg (List.mergeSort · _) (List.filterMap_congr fun s _ => leftover?_bare s)

theorem standing_bare (name : String) (result : Ty) (types : List Ty) (defining : Bool)
    (s : Symbol) : standing name result types defining (some (bare s)) =
      standing name result types defining (some s) := by
  rw [standing, standing, bare]
  cases s.kind <;> rfl

theorem bare_completed (names : List (Option String)) (s : Symbol) :
    bare (completed names s) = completed [] (bare s) := by
  obtain ⟨name, type, initialized, used, declaredAt, kind⟩ := s
  cases kind <;> rfl

theorem isWarning_leftovers {symbols : List Symbol} {d : Diagnostic} (mem : d ∈ leftovers symbols) :
    d.isWarning = true := by
  rw [leftovers, List.mem_mergeSort, List.mem_filterMap] at mem
  obtain ⟨s, -, left⟩ := mem
  rw [Diagnostic.isWarning, severity_leftover? left]
  rfl

/-! ### Symbols of numbered deeds -/

/-- The symbol that a deed enters, as far as the sweep sees it. -/
def Deed.fresh : Deed → Symbol
  | declares name type length isParam _ =>
      bare (.ofVariable name.val type name.pos length isParam true)
  | enters h result types defining => bare (headingSymbol h result types defining)
  | opens | closes | reads _ | calls _ | assigns _ => .ofVariable "" .void {} none true true

/-- What the sweep sees of the symbol that the deed with the number has entered, after some of the
deeds. -/
def noted (ds : List Deed) (n i : Nat) : Symbol :=
  let s := ds[i]?.elim (Deed.fresh .opens) Deed.fresh
  match s.kind with
  | .var .. => { s with used := happens ds n (Deed.isReadOf i) }
  | .fn σ =>
      { s with
        used := happens ds n (Deed.isCallOf i)
        kind := .fn { σ with
          names := []
          defined := σ.defined || happens ds n (Deed.completes i s.type σ.params) } }

/-- What a deed does to the symbol. -/
def Deed.noting (i : Nat) (t : ScopeStack Nat) (s : Symbol) : Deed → Symbol
  | reads name =>
      if t.lookup name = some i ∧ s.isFunction = false then { s with used := true } else s
  | calls name =>
      if t.lookup name = some i ∧ s.isFunction = true then { s with used := true } else s
  | enters h result types defining =>
      if t.lookupGlobal h.name.val = some i then
        match standing h.name.val result types defining (some s) with
        | .fits => if defining then completed [] s else s
        | .fresh | .conflict _ => s
      else s
  | opens | closes | declares .. | assigns _ => s

section Notes

variable {ds : List Deed} {n i : Nat} {d : Deed} {test : ScopeStack Nat → Deed → Bool}

theorem happens_succ (ds : List Deed) (n : Nat) (test : ScopeStack Nat → Deed → Bool) :
    happens ds (n + 1) test = (happens ds n test || ds[n]?.any (test (origins ds n))) := by
  rw [happens, happens, List.range_succ, List.any_append, List.any_cons, List.any_nil,
    Bool.or_false]

/-- A variable is used by the deeds that read it. -/
theorem noting_variable (s : Symbol) (length : Option UInt32) (isParam used : Bool) (i : Nat)
    (t : ScopeStack Nat) (d : Deed) :
    d.noting i t { s with used, kind := .var length isParam } =
      { s with used := used || d.isReadOf i t, kind := .var length isParam } := by
  cases d with
  | reads name =>
      rw [Deed.noting, Deed.isReadOf]
      by_cases found : t.lookup name = some i
      · rw [if_pos ⟨found, rfl⟩, beq_iff_eq.mpr found, Bool.or_true]
      · rw [if_neg fun both => found both.1, beq_eq_false_iff_ne.mpr found, Bool.or_false]
  | calls name =>
      rw [Deed.noting, Deed.isReadOf, Bool.or_false]
      exact if_neg fun both => absurd both.2 Bool.false_ne_true
  | enters =>
      rw [Deed.noting, Deed.isReadOf, Bool.or_false]
      exact ite_self _
  | opens | closes | declares | assigns => rw [Deed.noting, Deed.isReadOf, Bool.or_false]

/-- A function is used by the deeds that call it, and completed by those that define it. -/
theorem noting_function (s : Symbol) (σ : Signature) (used isDefined : Bool) (i : Nat)
    (t : ScopeStack Nat) (d : Deed) :
    d.noting i t { s with used, kind := .fn { σ with names := [], defined := isDefined } } =
      { s with
        used := used || d.isCallOf i t
        kind := .fn { σ with
          names := []
          defined := isDefined || d.completes i s.type σ.params t } } := by
  cases d with
  | reads name =>
      rw [Deed.noting, Deed.isCallOf, Deed.completes, Bool.or_false, Bool.or_false]
      exact if_neg fun both => absurd both.2.symm Bool.false_ne_true
  | calls name =>
      rw [Deed.noting, Deed.isCallOf, Deed.completes, Bool.or_false]
      by_cases found : t.lookup name = some i
      · rw [if_pos ⟨found, rfl⟩, beq_iff_eq.mpr found, Bool.or_true]
      · rw [if_neg fun both => found both.1, beq_eq_false_iff_ne.mpr found, Bool.or_false]
  | enters h result types defining =>
      rw [Deed.noting, Deed.isCallOf, Deed.completes, Bool.or_false, standing]
      dsimp only
      by_cases found : t.lookupGlobal h.name.val = some i
      · rw [if_pos found, beq_iff_eq.mpr found, Bool.and_true]
        by_cases differs : s.type ≠ result ∨ σ.params ≠ types
        · have none : (defining && result == s.type && types == σ.params) = false := by
            rcases differs with differs | differs <;> simp [Ne.symm differs]
          rw [if_pos differs, none, Bool.or_false]
        · obtain ⟨rfl, rfl⟩ : s.type = result ∧ σ.params = types := by simpa using differs
          rw [if_neg differs, beq_self_eq_true, beq_self_eq_true, Bool.and_true, Bool.and_true]
          cases defining <;> cases isDefined <;> rfl
      · rw [if_neg found, beq_eq_false_iff_ne.mpr found, Bool.and_false, Bool.or_false]
  | opens | closes | declares | assigns =>
      rw [Deed.noting, Deed.isCallOf, Deed.completes, Bool.or_false, Bool.or_false]

theorem noted_succ (here : ds[n]? = some d) (i : Nat) :
    noted ds (n + 1) i = d.noting i (origins ds n) (noted ds n i) := by
  unfold noted
  generalize ds[i]?.elim (Deed.fresh .opens) Deed.fresh = s
  simp only [happens_succ, here, Option.any_some, ← Bool.or_assoc]
  cases s.kind with
  | var => exact (noting_variable s _ _ _ i (origins ds n) d).symm
  | fn σ => exact (noting_function s σ _ _ i (origins ds n) d).symm

/-- A test that only deeds pass that find the one with the number among the open scopes. -/
def Finds (i : Nat) (test : ScopeStack Nat → Deed → Bool) : Prop :=
  ∀ t d, test t d = true → i ∈ t.held

theorem finds_isReadOf (i : Nat) : Finds i (Deed.isReadOf i) := by
  intro t d found
  cases d with
  | reads name => exact mem_held_of_lookup (beq_iff_eq.mp found)
  | opens | closes | declares | enters | calls | assigns => contradiction

theorem finds_isCallOf (i : Nat) : Finds i (Deed.isCallOf i) := by
  intro t d found
  cases d with
  | calls name => exact mem_held_of_lookup (beq_iff_eq.mp found)
  | opens | closes | declares | enters | reads | assigns => contradiction

theorem finds_completes (i : Nat) (result : Ty) (types : List Ty) :
    Finds i (Deed.completes i result types) := by
  intro t d found
  cases d with
  | enters h =>
      rw [Deed.completes, Bool.and_eq_true] at found
      exact mem_held_of_lookupGlobal (beq_iff_eq.mp found.2)
  | opens | closes | declares | reads | calls | assigns => contradiction

theorem lt_of_held (mem : i ∈ (origins ds n).held) : i < n := by
  have early := (closings_held ds n).mem_iff.mp (List.mem_append_right _ mem)
  exact List.mem_range.mp (List.mem_of_mem_filter early)

/-- While it is not among the open scopes, nothing finds it. -/
theorem any_of_absent (finds : Finds i test) (absent : i ∉ (origins ds n).held) :
    ds[n]?.any (test (origins ds n)) = false := by
  cases ds[n]? with
  | none => rfl
  | some d => exact Bool.eq_false_iff.mpr fun found => absent (finds _ d found)

/-- Nothing finds it before it has been entered. -/
theorem happens_early (finds : Finds i test) : happens ds (i + 1) test = false := by
  rw [happens, List.any_eq_false]
  intro k early
  rw [List.mem_range] at early
  rw [Bool.not_eq_true]
  exact any_of_absent finds fun mem => by
    have later := lt_of_held mem
    omega

theorem noted_congr {m : Nat}
    (same : ∀ test, Finds i test → happens ds m test = happens ds n test) :
    noted ds m i = noted ds n i := by
  unfold noted
  rw [same _ (finds_isReadOf i), same _ (finds_isCallOf i)]
  simp only [same _ (finds_completes i _ _)]

/-- As a deed enters it, a symbol is fresh. -/
theorem noted_fresh (here : ds[i]? = some d) : noted ds (i + 1) i = d.fresh := by
  unfold noted
  rw [here, Option.elim_some, happens_early (finds_isReadOf i), happens_early (finds_isCallOf i)]
  simp only [happens_early (finds_completes i _ _), Bool.or_false]
  cases d <;> rfl

theorem apart_origins (ds : List Deed) (n : Nat) : (origins ds n).Apart where
  keys := keys_origins ds n
  held := by
    have nodup := (closings_held ds n).nodup_iff.mpr (List.nodup_range.filter _)
    exact nodup.of_append_right

/-! ### The symbols of the open scopes -/

variable {t : ScopeStack Symbol}

theorem map_marked (t : ScopeStack Symbol) (name : String) {test : Symbol → Bool}
    {g : Symbol → Symbol} (tests : ∀ s, test (bare s) = test s)
    (along : ∀ s, bare (g s) = g (bare s)) :
    (Deed.marked t name test g).map bare = Deed.marked (t.map bare) name test g := by
  have alike : ((t.map bare).lookup name).any test = (t.lookup name).any test := by
    rw [lookup_map, Option.any_map]
    exact congrArg (Option.any · _) (funext tests)
  rw [Deed.marked, Deed.marked, alike]
  split
  · exact update_map along t name
  · rfl

/-- A mark on the symbols of numbered deeds. -/
theorem marked_origins (name : String) (test : Symbol → Bool) (f : Nat → Symbol)
    (g : Symbol → Symbol) :
    Deed.marked ((origins ds n).map f) name test g = (origins ds n).map fun i =>
      if (origins ds n).lookup name = some i ∧ test (f i) = true then g (f i) else f i := by
  rw [Deed.marked, lookup_map]
  cases found : (origins ds n).lookup name with
  | none =>
      rw [Option.map_none, Option.any_none, if_neg Bool.false_ne_true]
      exact map_congr fun i _ => (if_neg fun both => Option.some_ne_none i both.1.symm).symm
  | some i =>
      rw [Option.map_some, Option.any_some]
      by_cases passes : test (f i) = true
      · rw [if_pos passes, update_at (apart_origins ds n) found]
        refine map_congr fun j _ => ?_
        by_cases same : j = i
        · subst same
          rw [if_pos rfl, if_pos ⟨rfl, passes⟩]
        · rw [if_neg same, if_neg fun both => same (Option.some.inj both.1).symm]
      · rw [if_neg passes]
        refine map_congr fun j _ => (if_neg ?_).symm
        rintro ⟨same, passes'⟩
        obtain rfl := Option.some.inj same
        exact passes passes'

theorem noted_marked (same : t.map bare = (origins ds n).map (noted ds n)) (name : String)
    {test : Symbol → Bool} {g : Symbol → Symbol} (tests : ∀ s, test (bare s) = test s)
    (along : ∀ s, bare (g s) = g (bare s))
    (noting : ∀ i, noted ds (n + 1) i =
      if (origins ds n).lookup name = some i ∧ test (noted ds n i) = true then g (noted ds n i)
      else noted ds n i) :
    (Deed.marked t name test g).map bare = (origins ds n).map (noted ds (n + 1)) := by
  rw [map_marked t name tests along, same, marked_origins]
  exact map_congr fun i _ => (noting i).symm

section Headings

variable {h : Heading} {result : Ty} {types : List Ty} {defining : Bool}

theorem lookupGlobal_noted (same : t.map bare = (origins ds n).map (noted ds n)) (name : String) :
    (t.lookupGlobal name).map bare = ((origins ds n).lookupGlobal name).map (noted ds n) := by
  rw [← lookupGlobal_map, ← lookupGlobal_map, same]

/-- A heading whose name is new is entered. -/
theorem noted_new (same : t.map bare = (origins ds n).map (noted ds n))
    (here : ds[n]? = some (.enters h result types defining))
    (new : (origins ds n).lookupGlobal h.name.val = none) :
    ((Deed.enters h result types defining).on t).map bare =
      (((origins ds n).declareGlobal? h.name.val n).getD (origins ds n)).map
        (noted ds (n + 1)) := by
  have unknown := lookupGlobal_noted same h.name.val
  rw [new, Option.map_none, Option.map_eq_none_iff] at unknown
  have kept : t.map bare = (origins ds n).map (noted ds (n + 1)) := by
    rw [same]
    refine map_congr fun i _ => ?_
    rw [noted_succ here, Deed.noting, new, if_neg (Option.some_ne_none i).symm]
  have symbol : bare (headingSymbol h result types defining) = noted ds (n + 1) n :=
    (noted_fresh here).symm
  rw [Deed.on, unknown, standing]
  dsimp only
  rw [← map_declareGlobal?, ← map_declareGlobal?, symbol, kept]

/-- A heading whose name is known is compared with the symbol that has the name; only that one may
change. -/
theorem noted_known (same : t.map bare = (origins ds n).map (noted ds n))
    (here : ds[n]? = some (.enters h result types defining))
    (found : (origins ds n).lookupGlobal h.name.val = some i) :
    ((Deed.enters h result types defining).on t).map bare =
      (origins ds n).map (noted ds (n + 1)) := by
  have known := lookupGlobal_noted same h.name.val
  rw [found, Option.map_some, Option.map_eq_some_iff] at known
  obtain ⟨s, known, isNoted⟩ := known
  -- Outside of the entry that has the name nothing changes, so the entry decides.
  have others : ∀ j, j ≠ i → noted ds (n + 1) j = noted ds n j := by
    intro j differs
    rw [noted_succ here, Deed.noting, found, if_neg fun same => differs (Option.some.inj same).symm]
  have entry := noted_succ here i
  rw [Deed.noting, found, if_pos rfl] at entry
  have kept (unchanged : noted ds (n + 1) i = noted ds n i) :
      t.map bare = (origins ds n).map (noted ds (n + 1)) := by
    rw [same]
    refine map_congr fun j _ => ?_
    by_cases differs : j = i
    · rw [differs, unchanged]
    · rw [others j differs]
  rw [Deed.on, known, ← standing_bare, isNoted]
  cases stands : standing h.name.val result types defining (some (noted ds n i)) with
  | fresh => exact absurd (standing_fresh stands) (Option.some_ne_none _)
  | conflict finding =>
      rw [stands] at entry
      exact kept entry
  | fits =>
      rw [stands] at entry
      cases defining with
      | false => exact kept entry
      | true =>
          dsimp only at entry ⊢
          rw [if_pos rfl] at entry ⊢
          rw [updateGlobal_map (bare_completed (paramNames h)), same,
            updateGlobal_at (apart_origins ds n) found]
          refine map_congr fun j _ => ?_
          by_cases differs : j = i
          · rw [if_pos differs, differs, entry]
          · rw [if_neg differs, others j differs]

end Headings

/-- What a deed does to the symbols is what it does to those of the numbered deeds. -/
theorem noted_on (same : t.map bare = (origins ds n).map (noted ds n)) (here : ds[n]? = some d) :
    (d.on t).map bare = (d.naming n (origins ds n)).map (noted ds (n + 1)) := by
  have noting := noted_succ here
  cases d with
  | opens =>
      have kept : noted ds (n + 1) = noted ds n := funext noting
      rw [kept]
      exact congrArg ScopeStack.push same
  | closes =>
      have kept : noted ds (n + 1) = noted ds n := funext noting
      have tails := congrArg (fun t => ScopeStack.mk t.scopes.tail) same
      rw [kept]
      simpa [map, Deed.on, Deed.naming, List.map_tail] using tails
  | declares name type length isParam hasValue =>
      have symbol : bare (Deed.symbol t name type length isParam hasValue) = noted ds (n + 1) n :=
        (noted_fresh here).symm
      have kept : t.map bare = (origins ds n).map (noted ds (n + 1)) :=
        same.trans (map_congr fun i _ => (noting i).symm)
      rw [Deed.on, Deed.naming, ← map_declare?, ← map_declare?, symbol, kept]
  | enters h result types defining =>
      rw [Deed.naming]
      cases found : (origins ds n).lookupGlobal h.name.val with
      | none => exact noted_new same here found
      | some i =>
          rw [declareGlobal?_taken found, Option.getD_none]
          exact noted_known same here found
  | reads name =>
      exact noted_marked same name (fun s => congrArg not (isFunction_bare s)) (fun _ => rfl)
        (by simpa [Deed.noting] using noting)
  | calls name =>
      exact noted_marked same name isFunction_bare (fun _ => rfl) noting
  | assigns name =>
      have kept : noted ds (n + 1) = noted ds n := funext noting
      rw [kept, Deed.naming, ← same, Deed.on, Deed.marked]
      split
      · apply map_update_of_keeps
        intro s
        rfl
      · rfl

/-- The symbols of the open scopes are those of the numbered deeds. -/
theorem noted_run (ds : List Deed) (n : Nat) :
    ((ds.take n).foldl Deed.on {}).map bare = (origins ds n).map (noted ds n) := by
  induction n with
  | zero => rfl
  | succ n ih =>
      rw [List.take_add_one, List.foldl_append]
      cases here : ds[n]? with
      | some d =>
          rw [origins, here]
          exact noted_on ih here
      | none =>
          have kept : noted ds (n + 1) = noted ds n := by
            funext i
            refine noted_congr fun test _ => ?_
            rw [happens_succ, here, Option.any_none, Bool.or_false]
          rw [origins, here, kept]
          exact ih

/-! ### Scopes that close -/

theorem closings_mono {m : Nat} (le : n ≤ m) : closings ds n ⊆ closings ds m := by
  induction le with
  | refl => exact List.Subset.refl _
  | step _ ih =>
      rw [closings]
      exact fun s mem => List.mem_append_left _ (ih mem)

/-- What a closed scope holds is held by no other. -/
theorem absent_of_closed {s : Scope Nat} {m : Nat} (closed : s ∈ closings ds n) (mem : i ∈ s.values)
    (le : n ≤ m) : i ∉ (origins ds m).held := by
  have nodup := (closings_held ds m).nodup_iff.mpr (List.nodup_range.filter _)
  have inside := List.mem_flatMap_of_mem (closings_mono le closed) mem
  exact fun again => (List.nodup_append.mp nodup).2.2 i inside i again rfl

/-- The symbols of a scope that is closed are what they were when it was closed. -/
theorem noted_of_closed {s : Scope Nat} {m : Nat} (closed : s ∈ (Deed.closes).closed (origins ds n))
    (here : ds[n]? = some .closes) (mem : i ∈ s.values) (le : n ≤ m) :
    noted ds m i = noted ds n i := by
  induction le with
  | refl => rfl
  | @step m le ih =>
      rw [← ih]
      rcases Nat.eq_or_lt_of_le le with rfl | later
      · exact noted_succ here i
      · -- After the closing nothing finds it any more.
        have inside : s ∈ closings ds (n + 1) := by
          rw [closings, here]
          exact List.mem_append_right _ closed
        refine noted_congr fun test finds => ?_
        rw [happens_succ, any_of_absent finds (absent_of_closed inside mem later), Bool.or_false]

/-- The warnings of a deed are those about the symbols of the scope that it closes. -/
theorem warnings_entries (same : t.map bare = (origins ds n).map (noted ds n))
    (here : ds[n]? = some d) (le : n ≤ ds.length) :
    (d.entries t).filter Diagnostic.isWarning =
      (d.closed (origins ds n)).flatMap fun s => leftovers (s.values.map (noted ds ds.length)) := by
  cases d with
  | opens | declares | reads | calls | assigns => rfl
  | enters h result types defining =>
      rw [Deed.entries]
      cases standing h.name.val result types defining (t.lookupGlobal h.name.val) <;> rfl
  | closes =>
      have warnings (symbols : List Symbol) :
          (leftovers symbols).filter Diagnostic.isWarning = leftovers symbols :=
        List.filter_eq_self.mpr fun d mem => isWarning_leftovers mem
      have heads := congrArg (fun t => t.scopes.head?) same
      simp only [map, List.head?_map] at heads
      rw [Deed.entries, warnings, Deed.closed]
      cases inner : (origins ds n).scopes.head? with
      | none =>
          rw [inner, Option.map_none, Option.map_eq_none_iff] at heads
          rw [heads]
          exact List.mergeSort_nil
      | some s =>
          rw [inner, Option.map_some, Option.map_eq_some_iff] at heads
          obtain ⟨symbols, head, alike⟩ := heads
          -- As the scope closes, its symbols are those of the numbered deeds, and these stay
          -- what they are from then on.
          have values := congrArg Assoc.values alike
          rw [Scope.values_map, Scope.values_map] at values
          rw [head, Option.elim_some, Option.toList_some, List.flatMap_singleton, ← leftovers_bare,
            values]
          refine congrArg leftovers (List.map_congr_left fun i mem => ?_)
          have closed : s ∈ Deed.closes.closed (origins ds n) := by
            rw [Deed.closed, inner]
            exact List.mem_singleton.mpr rfl
          exact (noted_of_closed closed here mem le).symm

/-- The warnings of some deeds, scope by scope. -/
theorem warnings_logged (le : n ≤ ds.length) :
    (Deed.logged {} (ds.take n)).filter Diagnostic.isWarning =
      (closings ds n).flatMap fun s => leftovers (s.values.map (noted ds ds.length)) := by
  induction n with
  | zero => rfl
  | succ n ih =>
      have here := List.getElem?_eq_getElem le
      have before := Nat.le_of_lt le
      rw [List.take_add_one, Deed.logged_append, List.filter_append, ih before, closings, here,
        Option.elim_some, List.flatMap_append, ← warnings_entries (noted_run ds n) here before]
      refine congrArg (_ ++ ·) (congrArg (List.filter _) ?_)
      exact List.append_nil _

/-! ### What is due about a symbol -/

/-- Only deeds that declare a variable or enter a function enter a name. -/
theorem kind_of_entered (entered : Entered ds i) :
    (∃ name type length isParam hasValue,
        ds[i]? = some (.declares name type length isParam hasValue)) ∨
      ∃ h result types defining, ds[i]? = some (.enters h result types defining) := by
  have absent : i ∉ (origins ds i).held := fun mem => Nat.lt_irrefl i (lt_of_held mem)
  unfold Entered at entered
  rw [origins] at entered
  cases here : ds[i]? with
  | none =>
      rw [here] at entered
      exact absurd entered absent
  | some d =>
      rw [here, Option.elim_some] at entered
      cases d with
      | declares => exact .inl ⟨_, _, _, _, _, rfl⟩
      | enters => exact .inr ⟨_, _, _, _, rfl⟩
      | opens | reads | calls | assigns => exact absurd entered absent
      | closes =>
          refine absurd ?_ absent
          obtain ⟨s, isOpen, mem⟩ := List.mem_flatMap.mp entered
          exact List.mem_flatMap_of_mem (List.mem_of_mem_tail isOpen) mem

theorem leftover?_declares {name : Located String} {type : Ty} {length : Option UInt32}
    {isParam hasValue : Bool} (here : ds[i]? = some (.declares name type length isParam hasValue)) :
    leftover? (noted ds n i) = if !isParam && !happens ds n (Deed.isReadOf i) then
      some ⟨.warning, .unusedVariable name.val, name.pos⟩ else none := by
  unfold noted
  rw [here]
  rfl

theorem leftover?_enters {h : Heading} {result : Ty} {types : List Ty} {defining : Bool}
    (here : ds[i]? = some (.enters h result types defining)) :
    leftover? (noted ds n i) = if happens ds n (Deed.isCallOf i) &&
        !(defining || happens ds n (Deed.completes i result types)) then
      some ⟨.warning, .undefinedFunction h.name.val, h.name.pos⟩ else none := by
  unfold noted
  rw [here]
  rfl

/-- What the sweep finds is what is due. -/
theorem leftover?_noted {w : Diagnostic} (entered : Entered ds i) :
    leftover? (noted ds ds.length i) = some w ↔ Due ds i w := by
  rcases kind_of_entered entered with ⟨_, _, _, isParam, _, here⟩ | ⟨_, _, _, defining, here⟩
  · rw [leftover?_declares here, Option.ite_none_right_eq_some, Option.some_inj]
    constructor
    · rintro ⟨left, rfl⟩
      obtain ⟨isVariable, unread⟩ := Bool.and_eq_true_iff.mp left
      cases isParam with
      | true => contradiction
      | false => exact .unused here entered ((Bool.not_eq_eq_eq_not ..).mp unread)
    · intro due
      cases due with
      | unused declares _ unread =>
          cases here.symm.trans declares
          exact ⟨by rw [unread]; rfl, rfl⟩
      | undefined enters => cases here.symm.trans enters
  · rw [leftover?_enters here, Option.ite_none_right_eq_some, Option.some_inj]
    constructor
    · rintro ⟨left, rfl⟩
      obtain ⟨called, incomplete⟩ := Bool.and_eq_true_iff.mp left
      cases defining with
      | true => contradiction
      | false => exact .undefined here entered called ((Bool.not_eq_eq_eq_not ..).mp incomplete)
    · intro due
      cases due with
      | unused declares => cases here.symm.trans declares
      | undefined enters _ called incomplete =>
          cases here.symm.trans enters
          exact ⟨by rw [called, incomplete]; rfl, rfl⟩

end Notes

/-! ### Whole programs -/

/-- The deeds of a scope that something is to be reported about, with what it is. -/
def reports (ds : List Deed) (s : Scope Nat) : List (Nat × Diagnostic) :=
  (s.values.filterMap fun i => (leftover? (noted ds ds.length i)).map (i, ·)).mergeSort
    fun e e' => e.2.pos.notAfter e'.2.pos

section Reports

variable {ds : List Deed} {s : Scope Nat}

theorem map_snd_reports (ds : List Deed) (s : Scope Nat) :
    (reports ds s).map Prod.snd = leftovers (s.values.map (noted ds ds.length)) := by
  have along := List.map_mergeSort (f := Prod.snd) (s := fun d e => d.pos.notAfter e.pos)
    (l := s.values.filterMap fun i => (leftover? (noted ds ds.length i)).map (i, ·))
    fun _ _ _ _ => rfl
  rw [reports, leftovers, List.filterMap_map, along, List.map_filterMap]
  refine congrArg (List.mergeSort · _) (List.filterMap_congr fun i _ => ?_)
  rw [Option.map_map]
  exact Option.map_id'

theorem mem_reports {i : Nat} {d : Diagnostic} :
    (i, d) ∈ reports ds s ↔ i ∈ s.values ∧ leftover? (noted ds ds.length i) = some d := by
  rw [reports, List.mem_mergeSort, List.mem_filterMap]
  constructor
  · rintro ⟨j, mem, left⟩
    obtain ⟨d', found, same⟩ := Option.map_eq_some_iff.mp left
    obtain ⟨rfl, rfl⟩ := Prod.mk.inj same
    exact ⟨mem, found⟩
  · rintro ⟨mem, found⟩
    exact ⟨i, mem, by rw [found, Option.map_some]⟩

/-- Among the reports of a scope no deed stands more often than in the scope. -/
theorem map_fst_reports (ds : List Deed) (s : Scope Nat) :
    ((reports ds s).map Prod.fst).Perm
      (s.values.filter fun i => (leftover? (noted ds ds.length i)).isSome) := by
  refine ((List.mergeSort_perm _ _).map Prod.fst).trans (.of_eq ?_)
  rw [List.map_filterMap, ← List.filterMap_eq_filter]
  refine List.filterMap_congr fun i _ => ?_
  rw [Option.map_map, Option.guard]
  cases leftover? (noted ds ds.length i) <;> rfl

theorem nodup_reports (ds : List Deed) :
    (((closings ds ds.length).map (reports ds)).flatten.map Prod.fst).Nodup := by
  have nodup := (closings_held ds ds.length).nodup_iff.mpr (List.nodup_range.filter _)
  have same : (((closings ds ds.length).map (reports ds)).flatten.map Prod.fst).Perm
      (((closings ds ds.length).flatMap Assoc.values).filter fun i =>
        (leftover? (noted ds ds.length i)).isSome) := by
    rw [← List.flatMap_def, List.map_flatMap, List.filter_flatMap]
    exact List.Perm.flatMap_left _ fun s _ => map_fst_reports ds s
  exact same.nodup_iff.mpr (nodup.of_append_left.filter _)

/-- If no scope is left, the reports of all of them are what is due. -/
theorem mem_all_reports (closed : (origins ds ds.length).scopes = []) {i : Nat} {d : Diagnostic} :
    (i, d) ∈ ((closings ds ds.length).map (reports ds)).flatten ↔ Due ds i d := by
  have accounts : i ∈ (closings ds ds.length).flatMap Assoc.values ↔
      i < ds.length ∧ Entered ds i := by
    have all := (closings_held ds ds.length).mem_iff (a := i)
    rw [held, closed, List.flatMap_nil, List.append_nil, List.mem_filter, List.mem_range] at all
    simpa using all
  rw [← List.flatMap_def, List.mem_flatMap]
  constructor
  · rintro ⟨s, isClosed, mem⟩
    obtain ⟨inside, left⟩ := mem_reports.mp mem
    exact (leftover?_noted (accounts.mp (List.mem_flatMap_of_mem isClosed inside)).2).mp left
  · intro due
    obtain ⟨early, entered⟩ : i < ds.length ∧ Entered ds i := by
      cases due with
      | unused here entered | undefined here entered =>
          exact ⟨(List.getElem?_eq_some_iff.mp here).1, entered⟩
    obtain ⟨s, isClosed, inside⟩ := List.mem_flatMap.mp (accounts.mpr ⟨early, entered⟩)
    exact ⟨s, isClosed, mem_reports.mpr ⟨inside, (leftover?_noted entered).mpr due⟩⟩

/-- The reports of a scope are about its own deeds, and stand in the order of their places. -/
theorem sorted_reports (ds : List Deed) (s : Scope Nat) :
    (∀ e ∈ reports ds s, e.1 ∈ s.values) ∧
      (reports ds s).Pairwise fun e e' => e.2.pos.notAfter e'.2.pos = true := by
  constructor
  · rintro ⟨i, d⟩ mem
    exact (mem_reports.mp mem).1
  · apply List.pairwise_mergeSort
    · exact fun e e' e'' => Position.notAfter_trans e.2.pos e'.2.pos e''.2.pos
    · exact fun e e' => Position.notAfter_total e.2.pos e'.2.pos

end Reports

theorem origins_program (p : Program) : (origins p.deeds p.deeds.length).scopes = [] := by
  have symbols := noted_run p.deeds p.deeds.length
  have none := scopes_checkProgram p {}
  rw [(passes_checkProgram p {}).stack] at none
  have lengths := congrArg (fun t => t.scopes.length) symbols
  rw [List.take_length] at lengths
  change (List.map _ (p.deeds.foldl Deed.on {}).scopes).length = _ at lengths
  rw [show (p.deeds.foldl Deed.on {}).scopes = [] from none] at lengths
  simpa [map] using lengths.symm

/-- The warnings that checking a program adds to the log are those that are due about its deeds,
one for each. They come scope by scope, in the order in which the scopes close, and those of one
scope in the order of their places. -/
theorem sweep_exact (p : Program) (log : Diagnostics) :
    ∃ (new : List Diagnostic) (groups : List (List (Nat × Diagnostic))),
      (p.check log).diagnostics.entries = log.entries ++ new ∧
      new.filter Diagnostic.isWarning = groups.flatten.map Prod.snd ∧
      (groups.flatten.map Prod.fst).Nodup ∧
      (∀ i d, (i, d) ∈ groups.flatten ↔ Due p.deeds i d) ∧
      List.Forall₂ (fun s g => (∀ e ∈ g, e.1 ∈ s.values) ∧
        g.Pairwise fun e e' => e.2.pos.notAfter e'.2.pos = true)
        (closings p.deeds p.deeds.length) groups := by
  obtain ⟨new, appended, kept⟩ := (passes_checkProgram p log).log
  have warnings : new.filter Diagnostic.isWarning = (closings p.deeds p.deeds.length).flatMap
      fun s => leftovers (s.values.map (noted p.deeds p.deeds.length)) := by
    rw [kept Diagnostic.isWarning, ← warnings_logged (Nat.le_refl _), List.take_length]
    intro d plain
    obtain ⟨isError, -⟩ := Bool.and_eq_true_iff.mp plain
    rw [Diagnostic.isWarning, beq_iff_eq.mp isError]
    rfl
  refine ⟨new, (closings p.deeds p.deeds.length).map (reports p.deeds), appended, ?_,
    nodup_reports p.deeds, fun i d => mem_all_reports (origins_program p), ?_⟩
  · rw [warnings, ← List.flatMap_def, List.map_flatMap]
    exact List.flatMap_congr fun s _ => (map_snd_reports p.deeds s).symm
  · rw [List.forall₂_map_right_iff]
    exact List.forall₂_same.mpr fun s _ => sorted_reports p.deeds s

end Check

end BraceLang
