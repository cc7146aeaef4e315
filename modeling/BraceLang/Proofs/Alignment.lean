import BraceLang.Proofs.Assembly.Walk
import BraceLang.Proofs.Check.Accepted
import BraceLang.Proofs.Check.Walk

/-!
The scopes of checking and those of making code, side by side. They are aligned when each scope
has the same variables on both sides, and when every function that checking knows has the same
types in the interface. Only the scopes around a function may differ: making code comes to it
when all top-level variables have been declared.

**Main results.** `Aligned.slot_of` and `Aligned.convention_of`: what a name stands for is the same
on both sides. `Aligned.step`: a move without a heading keeps the scopes aligned.
`aligned_enterBody` does so for the parameters of a function.
-/

namespace BraceLang

open Assembly (Interface Done Targets Line Slot declareSlot)

/-- The type of what is kept in storage; functions are not. -/
def Meaning.stored? : Meaning → Option Ty
  | ⟨t, none⟩ => some t
  | ⟨_, some _⟩ => none

namespace View

variable {l l' : View Meaning} {name : String}

/-- The variables of a scope, which have storage. -/
def stored (l : View Meaning) : View Ty := fun name => (l name).bind Meaning.stored?

theorem stored_eq_none (absent : l name = none) : l.stored name = none := by
  rw [stored, absent]
  rfl

theorem stored_eq_some {t : Ty} : l.stored name = some t ↔ l name = some ⟨t, none⟩ := by
  unfold stored
  constructor
  · intro found
    obtain ⟨⟨t', params⟩, here, same⟩ := Option.bind_eq_some_iff.mp found
    cases params with
    | none =>
        obtain rfl := Option.some.inj same
        exact here
    | some params => contradiction
  · intro found
    rw [found]
    rfl

theorem stored_add_variable (l : View Meaning) (name : String) (t : Ty) :
    (l.add name ⟨t, none⟩).stored = l.stored.add name t := by
  funext other
  unfold stored add
  split <;> rfl

theorem stored_add_function (absent : l name = none) (t : Ty) (params : List Ty) :
    (l.add name ⟨t, some params⟩).stored = l.stored := by
  funext other
  unfold stored add
  split
  · rename_i same
    rw [same, absent]
    rfl
  · rfl

end View

/-- Every function of the scope has its types in the interface. -/
def Knows (iface : Interface) (l : View Meaning) : Prop :=
  ∀ name t params, l name = some ⟨t, some params⟩ →
    iface.conventions.get? name = some ⟨t, params⟩

theorem Knows.of_le {iface : Interface} {l l' : View Meaning} (knows : Knows iface l')
    (le : l.Le l') : Knows iface l := by
  intro name t params found
  exact knows name t params (le name _ found)

theorem Knows.add_variable {iface : Interface} {l : View Meaning} (knows : Knows iface l)
    (name : String) (t : Ty) : Knows iface (l.add name ⟨t, none⟩) := by
  intro other t' params found
  unfold View.add at found
  split at found
  · have := congrArg Meaning.params (Option.some.inj found)
    contradiction
  · exact knows other t' params found

/-- There is no heading at the move. -/
def Move.isHeadingFree : Move → Bool
  | .single x => x.val.isHeadingFree
  | .passBy .. | .enterBody .. | .leaveBody .. => false
  | _ => true

namespace Stmt

mutual

theorem all_moves : (x : Stmt) → (x.moves false).all Move.isHeadingFree = x.isHeadingFree
  | .block _ body | .ifThen _ _ body | .whileLoop _ _ body => by
      simp [moves, movesBetween, Move.isHeadingFree, isHeadingFree, all_movesIn body]
  | .ifElse _ _ body _ elseBody => by
      simp [moves, movesBetween, Move.isHeadingFree, isHeadingFree, all_movesIn body,
        all_movesIn elseBody]
  | .forLoop init _ update _ body => by
      simp [moves, movesBetween, Move.isHeadingFree, isHeadingFree, all_movesBy init,
        all_movesIn body, all_movesBy update, Bool.and_comm, Bool.and_left_comm]
  | .declare .. | .prototype .. | .assign .. | .call .. | .breakLoop _ | .continueLoop _
  | .returnValue .. | .define .. => rfl

theorem all_movesBy : (part : Option Stmt) →
    (movesBy false part).all Move.isHeadingFree = headerHeadingFree part
  | none => rfl
  | some x => all_moves x

theorem all_movesIn : (body : List Stmt) →
    (movesIn false body).all Move.isHeadingFree = allHeadingFree body
  | [] => rfl
  | x :: rest => by
      simp [movesIn, Move.isHeadingFree, allHeadingFree, all_moves x, all_movesIn rest]

end

end Stmt

/-- The scopes around the code that is compared, from the innermost one outwards. A variable that
checking finds in them has a slot of its type. -/
structure Surroundings where
  checking : List (View Meaning)
  making : List (View Ty)
  covers : ∀ name t, View.look checking name = some ⟨t, none⟩ → View.look making name = some t

/-- The top level has nothing around it. -/
def Surroundings.none : Surroundings where
  checking := []
  making := []
  covers _ _ found := by contradiction

/-- Around a function is the global scope, which may have more names when code is made. -/
def Surroundings.global {g g' : View Meaning} (le : g.Le g') : Surroundings where
  checking := [g]
  making := [g'.stored]
  covers name t found := by
    have here : g name = some ⟨t, .none⟩ := by simpa [View.look] using found
    have later := View.stored_eq_some.mpr (le name _ here)
    simpa [View.look] using later

/-- Both sides have the same variables in the same scopes, with `depth` scopes between the current
one and the surroundings, and no function is unknown. -/
structure Aligned (iface : Interface) (around : Surroundings) (depth : Nat) (c : Check.State)
    (s : Assembly.State) : Prop where
  layers : ∃ l inner, c.layers = l :: inner ++ around.checking ∧
    s.layers = (l :: inner).map View.stored ++ around.making ∧ inner.length = depth
  known : ∀ l ∈ c.layers, Knows iface l
  poisoned : c.poisoned = []

section Aligned

variable {iface : Interface} {around : Surroundings} {n n' : Nat} {c c' : Check.State}
  {s s' : Assembly.State} {name : String} {symbol : Symbol}

/-! ### Names -/

theorem look_stored (around : Surroundings) {t : Ty} (inner : List (View Meaning))
    (found : View.look (inner ++ around.checking) name = some ⟨t, none⟩) :
    View.look (inner.map View.stored ++ around.making) name = some t := by
  induction inner with
  | nil => exact around.covers name t found
  | cons l rest ih =>
      simp only [View.look, List.cons_append, List.map_cons, List.findSome?_cons] at found ⊢
      cases here : l name with
      | none =>
          rw [here] at found
          rw [View.stored_eq_none here]
          exact ih found
      | some meaning =>
          rw [here] at found
          obtain rfl := Option.some.inj found
          rw [View.stored_eq_some.mpr here]

/-- A variable has a slot of its type. -/
theorem Aligned.slot_of (aligned : Aligned iface around n c s)
    (found : c.env.stack.lookup name = some symbol) (noFunction : symbol.isFunction = false) :
    ∃ slot, s.env.stack.lookup name = some slot ∧ slot.type = symbol.type := by
  have meaning : View.look c.layers name = some ⟨symbol.type, none⟩ := by
    rw [Check.State.layers, ← ScopeStack.lookup_views, found,
      ← Check.meaning_of_variable noFunction]
    rfl
  obtain ⟨l, inner, layers, slots, -⟩ := aligned.layers
  rw [layers] at meaning
  have type := look_stored around (l :: inner) meaning
  rw [← slots, Assembly.State.layers, ← ScopeStack.lookup_views] at type
  exact Option.map_eq_some_iff.mp type

/-- A function has a convention of its types. -/
theorem Aligned.convention_of (aligned : Aligned iface around n c s) {signature : Signature}
    (found : c.env.stack.lookup name = some symbol)
    (isFunction : symbol.signature? = some signature) :
    iface.conventions.get? name = some ⟨symbol.type, signature.params⟩ := by
  have meaning : View.look c.layers name = some ⟨symbol.type, some signature.params⟩ := by
    rw [Check.State.layers, ← ScopeStack.lookup_views, found, Option.map_some, Symbol.meaning,
      isFunction]
    rfl
  obtain ⟨l, member, here⟩ := List.exists_of_findSome?_eq_some meaning
  exact aligned.known l member name _ _ here

/-! ### Steps -/

theorem Aligned.of_same (aligned : Aligned iface around n c s) (layers : c'.layers = c.layers)
    (poisoned : c'.poisoned = c.poisoned) (slots : s'.layers = s.layers) :
    Aligned iface around n c' s' := by
  refine ⟨?_, ?_, poisoned.trans aligned.poisoned⟩
  · rw [layers, slots]
    exact aligned.layers
  · rw [layers]
    exact aligned.known

theorem Aligned.steady (aligned : Aligned iface around n c s) (steady : c.Steady c')
    (slots : s'.layers = s.layers) : Aligned iface around n c' s' :=
  aligned.of_same steady.layers steady.poisoned slots

/-- A scope opens next to the surroundings. -/
theorem aligned_openScope (layers : c.layers = around.checking) (slots : s.layers = around.making)
    (known : ∀ l ∈ c.layers, Knows iface l) (poisoned : c.poisoned = []) :
    Aligned iface around 0 (Check.openScope c).2 (Assembly.openScope s).2 := by
  refine ⟨⟨fun _ => none, [], ?_, ?_, rfl⟩, ?_, poisoned⟩
  · rw [Check.layers_openScope, layers]
    rfl
  · rw [Assembly.layers_openScope, slots]
    rfl
  · rw [Check.layers_openScope]
    exact List.forall_mem_cons.mpr ⟨fun _ _ _ found => by contradiction, known⟩

/-- A scope is opened or closed on both sides, as often as it has been opened inside of the
surroundings. -/
theorem Aligned.scopes {m : Move} (aligned : Aligned iface around n c s)
    (counted : Pass.depth m n = some n') (layers : c'.layers = m.scopes (fun _ => none) c.layers)
    (poisoned : c'.poisoned = c.poisoned)
    (slots : s'.layers = m.scopes (fun _ => none) s.layers) : Aligned iface around n' c' s' := by
  have unpoisoned := poisoned.trans aligned.poisoned
  obtain ⟨l, inner, layers₀, slots₀, deep⟩ := aligned.layers
  unfold Move.scopes at layers slots
  obtain ⟨scoping, rfl⟩ | ⟨scoping, rfl⟩ | ⟨scoping, rfl⟩ := Pass.depth_cases counted <;>
    rw [scoping] at layers slots
  · refine ⟨⟨fun _ => none, l :: inner, ?_, ?_, congrArg (· + 1) deep⟩, ?_, unpoisoned⟩
    · exact layers.trans (congrArg _ layers₀)
    · exact slots.trans (congrArg _ slots₀)
    · rw [layers]
      exact List.forall_mem_cons.mpr ⟨fun _ _ _ found => by contradiction, aligned.known⟩
  · cases inner with
    | nil => contradiction
    | cons l' inner =>
        refine ⟨⟨l', inner, ?_, ?_, Nat.succ.inj deep⟩, ?_, unpoisoned⟩
        · rw [layers, layers₀]
          rfl
        · rw [slots, slots₀]
          rfl
        · rw [layers]
          exact fun l'' mem => aligned.known l'' (List.mem_of_mem_tail mem)
  · exact aligned.of_same layers poisoned slots

/-- A variable that is new to the current scope enters it on both sides. -/
theorem Aligned.declare (aligned : Aligned iface around n c s) {l : View Meaning}
    {rest : List (View Meaning)} {slot : Slot} (layers : c.layers = l :: rest)
    (absent : l name = none) (entered : c'.layers = l.add name ⟨slot.type, none⟩ :: rest)
    (poisoned : c'.poisoned = c.poisoned) :
    Aligned iface around n c' (declareSlot name slot s).2 := by
  obtain ⟨l', inner, layers', slots, deep⟩ := aligned.layers
  obtain ⟨rfl, rfl⟩ := List.cons.inj (layers.symm.trans layers')
  refine ⟨⟨l.add name ⟨slot.type, none⟩, inner, entered, ?_, deep⟩, ?_,
    poisoned.trans aligned.poisoned⟩
  · rw [Assembly.layers_declareSlot slots (View.stored_eq_none absent), List.map_cons,
      View.stored_add_variable]
    rfl
  · rw [entered]
    intro l' member
    rcases List.mem_cons.mp member with rfl | member
    · exact (aligned.known l (layers ▸ List.mem_cons_self)).add_variable name slot.type
    · exact aligned.known l' (layers ▸ List.mem_cons_of_mem l member)

/-! ### Statements -/

theorem aligned_declaration {d : Declaration} {lines : List Line}
    (aligned : Aligned iface around n c s) (clean : (Check.checkDeclaration d c).2.Clean)
    (done : Done (Assembly.declaration iface d) s lines s') :
    Aligned iface around n (Check.checkDeclaration d c).2 s' := by
  rw [Check.checkDeclaration_eq] at clean ⊢
  obtain ⟨slot, middle, type, slots, rfl⟩ := Assembly.done_declaration done
  have visited : c.Steady (Check.visitDeclaration d c).2 := Check.calm_visit _ c
  have checked := aligned.steady (visited.trans (Check.calm_initType d _)) slots
  obtain ⟨l, inner, layers, -, -⟩ := checked.layers
  obtain ⟨t, parsed, notVoid, absent, entered⟩ := Check.declareFound_accepted layers clean
  obtain rfl : slot.type = t := type.trans (Assembly.variableType_eq parsed notVoid)
  exact checked.declare layers absent entered ((Check.after_declareFound d _ _).poisoned clean)

/-- A statement without a heading or other statements in it keeps the scopes aligned. -/
theorem aligned_single {targets : Option Targets} {lines : List Line}
    (x : { x : Stmt // x.isSingle = true }) (free : x.val.isHeadingFree = true)
    (aligned : Aligned iface around n c s) (clean : (Check.checkStmt x c).2.Clean)
    (done : Done (Assembly.stmt iface targets x) s lines s') :
    Aligned iface around n (Check.checkStmt x c).2 s' := by
  rcases x.val.reach_eq_zero_or with still | ⟨site, d, declared⟩
  · rcases Assembly.grows_single x done with ⟨site, d, declared⟩ | grows
    · rw [declared] at still
      contradiction
    · have after := Check.runs_checkStmt x.val c
      rw [still] at after
      exact aligned.of_same (after.outer free) (after.poisoned clean) grows.layers
  · rw [declared, Check.checkStmt] at clean ⊢
    rw [declared, Assembly.stmt] at done
    exact aligned_declaration aligned clean done

/-- A move without a heading keeps the scopes aligned. -/
theorem Aligned.step {m : Move} {v v' : Check.Walk} {w w' : Assembly.Walk}
    (aligned : Aligned iface around n v.state w.state) (free : m.isHeadingFree = true)
    (counted : Pass.depth m n = some n') (checked : Check.pass m v = some v')
    (made : Assembly.pass iface m w = some w') (clean : v'.state.Clean) :
    Aligned iface around n' v'.state w'.state := by
  obtain ⟨x, lines, rfl, done⟩ | ⟨h, braces, body, rfl, -⟩ | ⟨between, passes⟩ :=
    Assembly.step_cases made
  · cases checked
    obtain rfl : n = n' := Option.some_inj.mp counted
    exact aligned_single x free aligned clean done
  · contradiction
  · obtain rfl := Check.step_between between checked
    exact aligned.scopes counted (Check.layers_between between _) (Check.poisoned_between between _)
      passes.layers

/-! ### Functions -/

theorem aligned_declareParams {params : List Param} {types : List Ty} (offset : Nat)
    (has : List.Forall₂ Param.Has params types) (aligned : Aligned iface around n c s)
    (clean : (Check.declareParams params (types.map some) c).2.Clean) :
    Aligned iface around n (Check.declareParams params (types.map some) c).2
      (Assembly.declareParams offset params s).2 := by
  induction has generalizing offset c s with
  | nil => exact aligned
  | @cons p t params types has _ ih =>
      rw [List.map_cons] at clean ⊢
      rw [Assembly.declareParams_cons]
      cases named : p.name with
      | none =>
          rw [Check.declareParams_anonymous named] at clean ⊢
          exact ih _ aligned clean
      | some name =>
          obtain ⟨l, inner, layers, -, -⟩ := aligned.layers
          obtain ⟨absent, c', entered, poisoned, same⟩ :=
            Check.declareParams_accepted named layers clean
          rw [same] at clean ⊢
          obtain rfl : Assembly.typeOf p.type.val = t := Assembly.typeOf_eq has.1
          exact ih _ (aligned.declare layers absent entered poisoned) clean

/-- The body of a function starts with aligned scopes. -/
theorem aligned_enterBody {h : Heading} {braces : Braces} {result? : Option Ty} {types : List Ty}
    (takes : h.Takes types) (layers : c.layers = around.checking)
    (slots : s.layers = around.making) (known : ∀ l ∈ c.layers, Knows iface l)
    (poisoned : c.poisoned = [])
    (clean : (Check.enterBody h braces (result?, types.map some) c).2.Clean) :
    Aligned iface around 0 (Check.enterBody h braces (result?, types.map some) c).2
      (Assembly.enterRoutine h s).2 := by
  let named : Check.State := { c with function := some { name := h.name.val, result := result? } }
  let framed : Assembly.State :=
    { s with frame := some { result := Assembly.typeOf h.result.val } }
  have opened : Aligned iface around 0 (Check.openScope named).2 (Assembly.openScope framed).2 :=
    aligned_openScope layers slots known poisoned
  have declared : Aligned iface around 0
      (Check.declareParams h.params (types.map some) (Check.openScope named).2).2
      (Assembly.declareParams Assembly.firstArgument h.params (Assembly.openScope framed).2).2 := by
    unfold Heading.Takes at takes
    split at takes
    · rename_i void
      obtain ⟨p, params, anonymous, -⟩ := params_of_takesVoid void
      rw [takes, params, Assembly.declareParams_cons, anonymous]
      exact opened
    · exact aligned_declareParams _ takes opened clean
  exact declared.steady (Check.calm_visit _ _) rfl

end Aligned

end BraceLang
