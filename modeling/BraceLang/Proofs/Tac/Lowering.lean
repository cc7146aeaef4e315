import BraceLang.Check.Stmt
import BraceLang.Proofs.Tac.Folding
import BraceLang.Proofs.Tac.Represent

/-!
Lowering keeps the meaning of structured functions.

* **`runs_all`**: whatever a statement does, its code does, for any nesting of statements and
  any number of rounds of a loop;
* **`lower_finishes`**: if a call of a function finishes, running its code from the marker
  finishes too, and in the same way. The marker lists the parameters with a name only, so those
  without one have to come last.
-/

namespace BraceLang.Tac

open Structured (Variable Vars After)
open Lower (State Targets WellNamed Extends expr stmt stmts header inScope declare openScope
  closeScope keeps_stmt keeps_stmts keeps_header keeps_expr keeps_inScope
  scopes_inScope)

variable {V : Type} [DecidableEq V] {c : Code} {I : Interpretation V} {m m' : Memory V}
  {σ σ' : Vars V} {s : State} {p : Nat} {v : V}

/-! ### Single instructions -/

theorem leads_label {l : Label} (at_p : c.instrs[p]? = some (.label l)) :
    Leads (c.step I) ⟨p, m, [], []⟩ ⟨p + 1, m, [], []⟩ :=
  leads_exec at_p rfl

theorem leads_goto {l : Label} (at_p : c.instrs[p]? = some (.goto l)) :
    Leads (c.step I) ⟨p, m, [], []⟩ ⟨c.place l, m, [], []⟩ :=
  leads_exec at_p rfl

theorem leads_copy {source result : Operand} (at_p : c.instrs[p]? = some (.copy source result)) :
    Leads (c.step I) ⟨p, m, [], []⟩
      ⟨p + 1, m.assign I c.globals c.types (source.eval I c.globals m) result, [], []⟩ :=
  leads_exec at_p rfl

theorem leads_branch {cond : Operand} {l : Label} (at_p : c.instrs[p]? = some (.branch cond l)) :
    Leads (c.step I) ⟨p, m, [], []⟩
      ⟨if I.isTrue (cond.eval I c.globals m) then c.place l else p + 1, m, [], []⟩ := by
  refine leads_exec at_p ?_
  simp only [Code.exec, Config.next, Config.jump]
  split <;> rfl

theorem stops_ret {value : Option Operand} (at_p : c.instrs[p]? = some (.ret value)) :
    Stops (c.step I) ⟨p, m, [], []⟩
      ⟨.returned (value.map (·.eval I c.globals m)), m.shared, []⟩ :=
  .now ((step_eq_exec at_p).trans rfl)

theorem stops_end (ends : c.instrs[p]? = none) :
    Stops (c.step I) ⟨p, m, [], []⟩ ⟨.fell, m.shared, []⟩ := by
  refine .now ?_
  simp only [Code.step, ends]
  rfl

/-- Every label stands in the code once. -/
def Code.LabelsOnce (c : Code) : Prop := ∀ l, c.instrs.count (.label l) ≤ 1

theorem place_of_getElem? {l : Label} (once : c.LabelsOnce)
    (at_p : c.instrs[p]? = some (.label l)) : c.place l = p := by
  simp [Code.place, findLabel?_of_count (once l) at_p]

/-- The code of an expression, lowered where its variables are represented. -/
theorem runs_expr {e : Expr} (has : c.Has p (expr e s).1.1)
    (represents : Represents c m s.env.stack.scopes σ.scopes)
    (evaluates : Structured.eval I σ e = some v) :
    ∃ m', Leads (c.step I) ⟨p, m, [], []⟩ ⟨p + (expr e s).1.1.length, m', [], []⟩ ∧
      Represents c m' s.env.stack.scopes σ.scopes ∧ SameBelow c s.supply.temps m m' ∧
      (expr e s).1.2.eval I c.globals m' = v := by
  obtain ⟨m', leads, same, value⟩ := runs_lowerExpr e has represents.visible evaluates
  exact ⟨m', leads, represents.congr fun _ _ _ unique _ => same.sameAt unique, same, value⟩

/-- The code of a condition goes on behind its label, or elsewhere if the condition fails. -/
theorem leads_branching {e : Expr} {holds fails : Label} (once : c.LabelsOnce)
    (has : c.Has p (Lower.branching (expr e s).1 holds fails))
    (represents : Represents c m s.env.stack.scopes σ.scopes)
    (evaluates : Structured.eval I σ e = some v) :
    ∃ m', Represents c m' s.env.stack.scopes σ.scopes ∧
      Leads (c.step I) ⟨p, m, [], []⟩
        ⟨if I.isTrue v then p + (Lower.branching (expr e s).1 holds fails).length
          else c.place fails, m', [], []⟩ := by
  obtain ⟨m', leads, represents', _, value⟩ := runs_expr has.left represents evaluates
  refine ⟨m', represents', leads.trans ?_⟩
  have rest := has.right
  have test := leads_branch (I := I) (m := m') rest.head
  rw [value] at test
  refine test.trans ?_
  cases I.isTrue v with
  | false => exact leads_goto rest.tail.head
  | true =>
      have here := rest.tail.tail.head
      rw [if_pos rfl, if_pos rfl, place_of_getElem? once here]
      simp only [Lower.branching, List.length_append, List.length_cons, List.length_nil,
        Nat.zero_add, ← Nat.add_assoc]
      exact leads_label here

/-! ### Declarations and assignments -/

/-- The code knows the types that lowering has recorded so far. -/
def Code.Knows (c : Code) (s : State) : Prop :=
  ∀ ⦃unique t⦄, s.types.get? unique = some t → c.types.get? unique = some t

theorem Code.Knows.before {s' : State} (knows : c.Knows s') (extends' : Extends s s') :
    c.Knows s :=
  fun _ _ known => knows (extends'.types known)

theorem types_declared (s : State) (name type : String) :
    (s.declared name type).types = (declare name type s).2.types := by
  obtain ⟨globals, same⟩ := Lower.declared_eq s name type
  rw [same]

theorem env_declared (s : State) (name type : String) :
    (s.declared name type).env = (declare name type s).2.env := by
  obtain ⟨globals, same⟩ := Lower.declared_eq s name type
  rw [same]

/-- The code knows the type of what has just been declared. -/
theorem Code.Knows.type {name type : String} {t : Ty} (knows : c.Knows (s.declared name type))
    (parsed : Ty.parse? type = some t) : c.types.get? (declare name type s).1 = some t := by
  apply knows
  rw [types_declared, Lower.types_declare, parsed]
  exact Assoc.get?_set_self ..

variable {names : List String} (none_made : NoneMadeUp names)

include none_made in
theorem runs_declaration (d : Declaration) (named : WellNamed names s)
    (mem : d.name.val ∈ names) (has : c.Has p (Lower.declaration d s).1)
    (knows : c.Knows (Lower.declaration d s).2)
    (represents : Represents c m s.env.stack.scopes σ.scopes)
    (ran : Structured.declare? I σ d = some σ') :
    ∃ m', Leads (c.step I) ⟨p, m, [], []⟩ ⟨p + (Lower.declaration d s).1.length, m', [], []⟩ ∧
      Represents c m' (Lower.declaration d s).2.env.stack.scopes σ'.scopes := by
  obtain ⟨type, name, length, init⟩ := d
  obtain ⟨t, parsed, rest⟩ := Option.bind_eq_some_iff.mp ran
  cases init with
  | none =>
      rw [Lower.declaration_none] at knows ⊢
      have typed := knows.type parsed
      rw [env_declared]
      refine ⟨m, .refl _, ?_⟩
      cases length with
      | none =>
          refine represents_declare none_made named mem represents rest (fun _ _ => ⟨rfl, rfl⟩)
            ⟨typed, ?_⟩
          intro v nothing
          contradiction
      | some _ =>
          refine represents_declare none_made named mem represents rest (fun _ _ => ⟨rfl, rfl⟩)
            ⟨typed, ?_⟩
          intro i v nothing
          contradiction
  | some init =>
      cases length with
      | some _ => contradiction
      | none =>
          obtain ⟨v, evaluates, rest⟩ := Option.bind_eq_some_iff.mp rest
          rw [Lower.declaration_some] at has knows ⊢
          dsimp only at has knows ⊢
          have typed := knows.type parsed
          obtain ⟨m₁, leads, represents', _, value⟩ := runs_expr has.left represents evaluates
          have copied := leads_copy (I := I) (m := m₁) has.right.head
          rw [value] at copied
          rw [env_declared, List.length_append]
          refine ⟨_, leads.trans copied, ?_⟩
          have named' := (keeps_expr init s named).1
          refine represents_declare none_made named' mem represents' rest
            (fun _ differ => sameAt_set _ differ) ⟨typed, ?_⟩
          intro w stored
          obtain rfl := Option.some.inj stored
          rw [Memory.assign, typed, Memory.get_set_self]

theorem runs_assignment {target : String} (index : Option Expr) {value : Expr}
    (named : WellNamed names s) (has : c.Has p (Lower.assignment target index value s).1)
    (represents : Represents c m s.env.stack.scopes σ.scopes)
    (ran : Structured.assign? I σ target index value = some σ') :
    ∃ m', Leads (c.step I) ⟨p, m, [], []⟩
        ⟨p + (Lower.assignment target index value s).1.length, m', [], []⟩ ∧
      Represents c m' (Lower.assignment target index value s).2.env.stack.scopes σ'.scopes := by
  obtain ⟨x, found, rest⟩ := Option.bind_eq_some_iff.mp ran
  obtain ⟨unique, found', ⟨typed, holds⟩, _⟩ := represents.lookup found
  have resolved : s.resolve target = unique := by
    simp [State.resolve, ScopeStack.lookup, found']
  obtain ⟨stored, store, result⟩ := Option.bind_eq_some_iff.mp rest
  obtain rfl := Option.some.inj result
  obtain ⟨type, content⟩ := x
  cases index with
  | none =>
      obtain ⟨v, evaluates, store⟩ := Option.bind_eq_some_iff.mp store
      cases content with
      | array _ => contradiction
      | scalar old =>
          obtain rfl := Option.some.inj store
          rw [Lower.assignment_none, resolved] at has ⊢
          dsimp only at has ⊢
          obtain ⟨m₁, leads, represents', _, value⟩ := runs_expr has.left represents evaluates
          have copied := leads_copy (I := I) (m := m₁) has.right.head
          rw [value] at copied
          rw [List.length_append]
          refine ⟨_, leads.trans copied, ?_⟩
          refine represents'.update named.apart found' (fun _ => sameAt_set _) ⟨typed, ?_⟩
          intro w kept
          obtain rfl := Option.some.inj kept
          rw [Memory.assign, typed, Memory.get_set_self]
  | some index =>
      obtain ⟨i, indexed, store⟩ := Option.bind_eq_some_iff.mp store
      obtain ⟨v, evaluates, store⟩ := Option.bind_eq_some_iff.mp store
      cases content with
      | scalar _ => contradiction
      | array cells =>
          obtain rfl := Option.some.inj store
          rw [Lower.assignment_some, resolved] at has ⊢
          dsimp only at has ⊢
          obtain ⟨m₁, leads, represents', same, value⟩ :=
            runs_expr has.left.left represents indexed
          obtain ⟨m₂, leads', represents'', same', value'⟩ :=
            runs_expr (s := (expr index s).2) has.left.right represents' evaluates
          -- The index is not computed anew once the value is there.
          have kept := same'.eval I (temps_lowerExpr s.resolve s.supply.temps index)
          have copied := leads_copy (I := I) (m := m₂) has.right.head
          rw [value'] at copied
          simp only [List.length_append, List.length_singleton, ← Nat.add_assoc] at copied ⊢
          refine ⟨_, (leads.trans leads').trans copied, ?_⟩
          refine represents''.update named.apart found' (fun _ => sameAt_setCell _ _) ⟨typed, ?_⟩
          intro j w stored
          have before : cells j = some w → m₂.cell c.globals unique j = w := by
            intro old
            rw [same'.cell, same.cell]
            exact holds j w old
          change (m₂.setCell c.globals unique ((expr index s).1.2.eval I c.globals m₂)
            (I.keepElement (c.types.get? unique) v)).cell c.globals unique j = w
          rw [Memory.cell_setCell, typed, show (expr index s).1.2.eval I c.globals m₂ = i from
            kept.trans value]
          dsimp only at stored
          split at stored
          · rename_i here
            rw [if_pos here]
            exact Option.some.inj stored
          · rename_i elsewhere
            rw [if_neg elsewhere]
            exact before stored

include none_made in
/-- The first part of a `for` header. -/
theorem runs_init {targets : Option Targets} {init : Option Stmt}
    (mem : ∀ x ∈ Stmt.declaredBy init, x ∈ names) (named : WellNamed names s)
    (has : c.Has p (header targets init s).1) (knows : c.Knows (header targets init s).2)
    (represents : Represents c m s.env.stack.scopes σ.scopes)
    (ran : Structured.init? I σ init = some σ') :
    ∃ m', Leads (c.step I) ⟨p, m, [], []⟩ ⟨p + (header targets init s).1.length, m', [], []⟩ ∧
      Represents c m' (header targets init s).2.env.stack.scopes σ'.scopes := by
  unfold Structured.init? at ran
  split at ran
  · obtain rfl := Option.some.inj ran
    exact ⟨m, .refl _, represents⟩
  · rename_i site d
    exact runs_declaration none_made d named (mem _ List.mem_cons_self) has knows represents ran
  · rename_i site target index value
    exact runs_assignment index named has represents ran
  · contradiction

/-- The last part of a `for` header, which declares nothing. -/
theorem runs_update {targets : Option Targets} {update : Option Stmt} (named : WellNamed names s)
    (has : c.Has p (header targets update s).1)
    (represents : Represents c m s.env.stack.scopes σ.scopes)
    (ran : Structured.update? I σ update = some σ') :
    ∃ m', Leads (c.step I) ⟨p, m, [], []⟩ ⟨p + (header targets update s).1.length, m', [], []⟩ ∧
      Represents c m' s.env.stack.scopes σ'.scopes := by
  unfold Structured.update? at ran
  split at ran
  · obtain rfl := Option.some.inj ran
    exact ⟨m, .refl _, represents⟩
  · rename_i site target index value
    cases index <;> exact runs_assignment _ named has represents ran
  · contradiction

/-! ### Statements -/

/-- From a configuration on, the machine does what the statement does: it gets to `stop`, to a
target of the loop around, or it returns. What it has to keep is said apart for the first case
and for the jumps. -/
def Follows (c : Code) (I : Interpretation V) (targets : Option Targets) (start : Config V)
    (stop : Nat) (reached jumped : Memory V → Vars V → Prop) : After V → Prop
  | (.normal, σ) => ∃ m, Leads (c.step I) start ⟨stop, m, [], []⟩ ∧ reached m σ
  | (.stopped, σ) => ∀ t, targets = some t →
      ∃ m, Leads (c.step I) start ⟨c.place t.stop, m, [], []⟩ ∧ jumped m σ
  | (.continued, σ) => ∀ t, targets = some t →
      ∃ m, Leads (c.step I) start ⟨c.place t.next, m, [], []⟩ ∧ jumped m σ
  | (.returned value, _) => ∃ o, Stops (c.step I) start o ∧ o.ending = .returned value

section Follows

variable {targets : Option Targets} {start start' : Config V} {stop stop' : Nat}
  {reached reached' jumped jumped' : Memory V → Vars V → Prop} {r : After V}

theorem Follows.after (follows : Follows c I targets start stop reached jumped r)
    (leads : Leads (c.step I) start' start) :
    Follows c I targets start' stop reached jumped r := by
  obtain ⟨flow, σ⟩ := r
  cases flow with
  | normal =>
      obtain ⟨m, rest, kept⟩ := follows
      exact ⟨m, leads.trans rest, kept⟩
  | stopped =>
      intro t isTarget
      obtain ⟨m, rest, kept⟩ := follows t isTarget
      exact ⟨m, leads.trans rest, kept⟩
  | continued =>
      intro t isTarget
      obtain ⟨m, rest, kept⟩ := follows t isTarget
      exact ⟨m, leads.trans rest, kept⟩
  | returned value =>
      obtain ⟨o, stops, ending⟩ := follows
      exact ⟨o, leads o stops, ending⟩

/-- What comes after the statement may be added to what it does, and less may be asked for. -/
theorem Follows.imp (follows : Follows c I targets start stop reached jumped r)
    (next : ∀ m σ, reached m σ →
      ∃ m', Leads (c.step I) ⟨stop, m, [], []⟩ ⟨stop', m', [], []⟩ ∧ reached' m' σ)
    (weaker : ∀ m σ, jumped m σ → jumped' m σ) :
    Follows c I targets start stop' reached' jumped' r := by
  obtain ⟨flow, σ⟩ := r
  cases flow with
  | normal =>
      obtain ⟨m, leads, kept⟩ := follows
      obtain ⟨m', rest, kept'⟩ := next m σ kept
      exact ⟨m', leads.trans rest, kept'⟩
  | stopped =>
      intro t isTarget
      obtain ⟨m, leads, kept⟩ := follows t isTarget
      exact ⟨m, leads, weaker m σ kept⟩
  | continued =>
      intro t isTarget
      obtain ⟨m, leads, kept⟩ := follows t isTarget
      exact ⟨m, leads, weaker m σ kept⟩
  | returned value => exact follows

end Follows

/-- The code of what has been lowered stands at a place, and the memory there represents the
variables. -/
structure Ready (c : Code) (names : List String) (s : State) (lowered : List Instr × State)
    (p : Nat) (m : Memory V) (σ : Vars V) : Prop where
  named : WellNamed names s
  has : c.Has p lowered.1
  knows : c.Knows lowered.2
  represents : Represents c m s.env.stack.scopes σ.scopes

/-- The variables in the open scopes of a state of lowering are represented. -/
abbrev Keeping (c : Code) (s : State) (m : Memory V) (σ : Vars V) : Prop :=
  Represents c m s.env.stack.scopes σ.scopes

/-- The same for all scopes but the current one, which a jump leaves. -/
abbrev KeepingOuter (c : Code) (s : State) (m : Memory V) (σ : Vars V) : Prop :=
  Represents c m s.env.stack.scopes.tail σ.scopes.tail

/-- The code of statements does what they do when they have so much fuel. -/
def RunsStmt (c : Code) (I : Interpretation V) (names : List String) (fuel : Nat) : Prop :=
  ∀ ⦃targets st s p m σ r⦄, (∀ x ∈ st.declared, x ∈ names) →
    Ready c names s (stmt targets st s) p m σ → Structured.exec I fuel st σ = some r →
    Follows c I targets ⟨p, m, [], []⟩ (p + (stmt targets st s).1.length)
      (Keeping c (stmt targets st s).2) (KeepingOuter c s) r

def RunsStmts (c : Code) (I : Interpretation V) (names : List String) (fuel : Nat) : Prop :=
  ∀ ⦃targets body s p m σ r⦄, (∀ x ∈ Stmt.declaredIn body, x ∈ names) →
    Ready c names s (stmts targets body s) p m σ → Structured.execAll I fuel body σ = some r →
    Follows c I targets ⟨p, m, [], []⟩ (p + (stmts targets body s).1.length)
      (Keeping c (stmts targets body s).2) (KeepingOuter c s) r

/-- The variables around a scope are represented, whatever has become of the scope itself. -/
abbrev KeepingBelow (c : Code) (s : State) (m : Memory V) (σ : Vars V) : Prop :=
  Represents c m s.env.stack.scopes σ.scopes.tail

/-- What is run in a scope of its own keeps the variables around it, however it is left. -/
theorem follows_inScope {targets : Option Targets} {start : Config V} {stop : Nat}
    {inside : Vars V → Option (After V)} {r : After V}
    (ran : Structured.inScope inside σ = some r)
    (follows : ∀ {r}, inside σ.push = some r →
      Follows c I targets start stop (KeepingBelow c s) (KeepingBelow c s) r) :
    Follows c I targets start stop (Keeping c s) (Keeping c s) r := by
  obtain ⟨⟨flow, σ₁⟩, inner, rest⟩ := Option.bind_eq_some_iff.mp ran
  obtain ⟨⟨_, σ₂⟩, popped, result⟩ := Option.bind_eq_some_iff.mp rest
  obtain rfl := Option.some.inj result
  have scopes : σ₁.scopes.tail = σ₂.scopes := by
    obtain ⟨below⟩ := σ₁
    cases below with
    | nil => contradiction
    | cons S below =>
        obtain ⟨-, rfl⟩ := Prod.mk.inj (Option.some.inj popped)
        rfl
  have follows := follows inner
  unfold KeepingBelow at follows
  cases flow <;> simp only [Follows, scopes] at follows ⊢ <;> exact follows

include none_made in
theorem RunsStmts.inScope {fuel : Nat} (runs : RunsStmts c I names fuel)
    {targets : Option Targets} {body : List Stmt} {r : After V}
    (mem : ∀ x ∈ Stmt.declaredIn body, x ∈ names)
    (ready : Ready c names s (Lower.inScope (stmts targets body) s) p m σ)
    (ran : Structured.inScope (Structured.execAll I fuel body) σ = some r) :
    Follows c I targets ⟨p, m, [], []⟩ (p + (Lower.inScope (stmts targets body) s).1.length)
      (Keeping c s) (Keeping c s) r := by
  refine follows_inScope ran ?_
  intro r inner
  have outer := (keeps_stmts none_made targets body mem _ ready.named.openScope).2.outer
  refine (runs (s := (openScope s).2) mem ⟨ready.named.openScope, ready.has, ready.knows,
    ready.represents.push⟩ inner).imp ?_ fun _ _ => id
  intro m' σ' kept
  have kept' := kept.tail
  rw [outer] at kept'
  exact ⟨m', .refl _, kept'⟩

/-- The code of a loop: the test stands at `p`, the body follows it, and both the end of the body
and the place that `continue` goes to lead back to the test by way of the update. -/
structure LoopCode (c : Code) (I : Interpretation V) (names : List String) (s : State) (p : Nat)
    (enter : Label) (t : Targets) (cond : Expr) (update : Option Stmt) (body : List Stmt) :
    Prop where
  named : WellNamed names s
  mem : ∀ x ∈ Stmt.declaredIn body, x ∈ names
  test : c.Has p (Lower.branching (expr cond s).1 enter t.stop)
  code : c.Has (p + (Lower.branching (expr cond s).1 enter t.stop).length)
    (Lower.inScope (stmts (some t) body) (expr cond s).2).1
  knows : c.Knows (Lower.inScope (stmts (some t) body) (expr cond s).2).2
  fall : ∀ m, Leads (c.step I)
    ⟨p + (Lower.branching (expr cond s).1 enter t.stop).length +
      (Lower.inScope (stmts (some t) body) (expr cond s).2).1.length, m, [], []⟩
    ⟨c.place t.next, m, [], []⟩
  back : ∀ {m σ σ'}, Keeping c s m σ → Structured.update? I σ update = some σ' →
    ∃ m', Leads (c.step I) ⟨c.place t.next, m, [], []⟩ ⟨p, m', [], []⟩ ∧ Keeping c s m' σ'

def RunsLoop (c : Code) (I : Interpretation V) (names : List String) (fuel : Nat) : Prop :=
  ∀ targets ⦃s p enter t cond update body m σ r⦄,
    LoopCode c I names s p enter t cond update body → Keeping c s m σ →
    Structured.execLoop I fuel cond update body σ = some r →
    Follows c I targets ⟨p, m, [], []⟩ (c.place t.stop) (Keeping c s) (Keeping c s) r

include none_made in
theorem RunsLoop.succ (once : c.LabelsOnce) {fuel : Nat} (runsBody : RunsStmts c I names fuel)
    (runsLoop : RunsLoop c I names fuel) : RunsLoop c I names (fuel + 1) := by
  intro targets s p enter t cond update body m σ r loop keeping ran
  unfold Structured.execLoop at ran
  obtain ⟨v, evaluates, rest⟩ := Option.bind_eq_some_iff.mp ran
  obtain ⟨m₁, keeping₁, tested⟩ := leads_branching once loop.test keeping evaluates
  cases truth : I.isTrue v with
  | false =>
      rw [truth] at rest tested
      obtain rfl := Option.some.inj rest
      exact ⟨m₁, tested, keeping₁⟩
  | true =>
      rw [truth] at rest tested
      obtain ⟨⟨flow, σ₁⟩, inside, rest⟩ := Option.bind_eq_some_iff.mp rest
      have follows := runsBody.inScope none_made loop.mem
        ⟨(keeps_expr cond s loop.named).1, loop.code, loop.knows, keeping₁⟩ inside
      -- Another round starts where the body ends or a `continue` goes to.
      have again : ∀ {m₂ : Memory V}, Keeping c s m₂ σ₁ →
          Leads (c.step I) ⟨p, m, [], []⟩ ⟨c.place t.next, m₂, [], []⟩ →
          (do Structured.execLoop I fuel cond update body (← Structured.update? I σ₁ update)) =
            some r →
          Follows c I targets ⟨p, m, [], []⟩ (c.place t.stop) (Keeping c s) (Keeping c s) r := by
        intro m₂ keeping₂ leads rest
        obtain ⟨σ₂, updated, rest⟩ := Option.bind_eq_some_iff.mp rest
        obtain ⟨m₃, back, keeping₃⟩ := loop.back keeping₂ updated
        exact (runsLoop targets loop keeping₃ rest).after (leads.trans back)
      cases flow with
      | normal =>
          obtain ⟨m₂, leads, keeping₂⟩ := follows
          exact again keeping₂ ((tested.trans leads).trans (loop.fall m₂)) rest
      | continued =>
          obtain ⟨m₂, leads, keeping₂⟩ := follows t rfl
          exact again keeping₂ (tested.trans leads) rest
      | stopped =>
          obtain rfl := Option.some.inj rest
          obtain ⟨m₂, leads, keeping₂⟩ := follows t rfl
          exact ⟨m₂, tested.trans leads, keeping₂⟩
      | returned value =>
          obtain rfl := Option.some.inj rest
          obtain ⟨o, stops, ending⟩ := follows
          exact ⟨o, tested o stops, ending⟩

include none_made in
theorem RunsStmts.succ {fuel : Nat} (runsStmt : RunsStmt c I names fuel)
    (runsStmts : RunsStmts c I names fuel) : RunsStmts c I names (fuel + 1) := by
  intro targets body s p m σ r mem ready ran
  cases body with
  | nil =>
      obtain rfl := Option.some.inj ran
      exact ⟨m, .refl _, ready.represents⟩
  | cons st rest =>
      have memFirst : ∀ x ∈ st.declared, x ∈ names :=
        fun x here => mem x (List.mem_append_left _ here)
      have memRest : ∀ x ∈ Stmt.declaredIn rest, x ∈ names :=
        fun x here => mem x (List.mem_append_right _ here)
      obtain ⟨named₁, extends₁⟩ := keeps_stmt none_made targets st memFirst s ready.named
      obtain ⟨_, extends₂⟩ := keeps_stmts none_made targets rest memRest _ named₁
      obtain ⟨named, has, knows, represents⟩ := ready
      rw [Lower.stmts_cons] at has knows ⊢
      dsimp only at has knows ⊢
      unfold Structured.execAll at ran
      obtain ⟨⟨flow, σ₁⟩, first, ran⟩ := Option.bind_eq_some_iff.mp ran
      have follows := runsStmt memFirst ⟨named, has.left, knows.before extends₂, represents⟩ first
      cases flow with
      | normal =>
          obtain ⟨m₁, leads, keeping₁⟩ := follows
          have follows' := runsStmts memRest ⟨named₁, has.right, knows, keeping₁⟩ ran
          rw [List.length_append, ← Nat.add_assoc]
          refine (follows'.after leads).imp (fun m' _ kept => ⟨m', .refl _, kept⟩) ?_
          intro m' σ' kept
          rw [KeepingOuter, extends₁.outer] at kept
          exact kept
      | stopped =>
          obtain rfl := Option.some.inj ran
          exact follows
      | continued =>
          obtain rfl := Option.some.inj ran
          exact follows
      | returned value =>
          obtain rfl := Option.some.inj ran
          exact follows

/-- A part that keeps the scopes stands for the whole statement, with what follows it in the
code. -/
theorem Follows.ofPart {targets : Option Targets} {start : Config V} {stop stop' : Nat}
    {s₁ s' : State} {r : After V}
    (follows : Follows c I targets start stop (Keeping c s₁) (Keeping c s₁) r)
    (before : s₁.env.stack.scopes = s.env.stack.scopes)
    (after : s'.env.stack.scopes = s.env.stack.scopes)
    (next : ∀ m, Leads (c.step I) ⟨stop, m, [], []⟩ ⟨stop', m, [], []⟩) :
    Follows c I targets start stop' (Keeping c s') (KeepingOuter c s) r := by
  refine follows.imp ?_ ?_
  · intro m σ kept
    rw [Keeping, before, ← after] at kept
    exact ⟨m, next m, kept⟩
  · intro m σ kept
    rw [Keeping, before] at kept
    exact kept.tail

include none_made in
theorem keeps_forRounds (targets : Option Targets) {update : Option Stmt} (cond : Expr)
    {body : List Stmt} (memUpdate : ∀ x ∈ Stmt.declaredBy update, x ∈ names)
    (memBody : ∀ x ∈ Stmt.declaredIn body, x ∈ names) :
    Lower.Keeps names (Lower.forRounds targets cond update body) := by
  intro s named
  have named₁ : WellNamed names (expr cond (s.skip 4)).2 := named.of_same rfl rfl rfl
  have extends₁ : Extends s (expr cond (s.skip 4)).2 := ⟨rfl, rfl, id, fun _ => Nat.le_refl _⟩
  obtain ⟨named₂, extends₂⟩ := keeps_inScope
    (keeps_stmts none_made (some ⟨s.label 2, s.label 3⟩) body memBody) _ named₁
  obtain ⟨named₃, extends₃⟩ := keeps_header none_made targets update memUpdate _ named₂
  exact ⟨named₃, (extends₁.trans extends₂).trans extends₃⟩

section Cases

variable (once : c.LabelsOnce) {fuel : Nat} (runsStmts : RunsStmts c I names fuel)
  (runsLoop : RunsLoop c I names fuel) {targets : Option Targets} {r : After V}

include none_made once runsStmts

theorem follows_ifThen {cond : Expr} {braces : Braces} {body : List Stmt}
    (mem : ∀ x ∈ Stmt.declaredIn body, x ∈ names)
    (ready : Ready c names s (stmt targets (.ifThen cond braces body) s) p m σ)
    (ran : Structured.exec I (fuel + 1) (.ifThen cond braces body) σ = some r) :
    Follows c I targets ⟨p, m, [], []⟩ (p + (stmt targets (.ifThen cond braces body) s).1.length)
      (Keeping c (stmt targets (.ifThen cond braces body) s).2) (KeepingOuter c s) r := by
  obtain ⟨named, has, knows, represents⟩ := ready
  rw [Lower.stmt_ifThen] at has knows ⊢
  dsimp only at has knows ⊢
  have named' : WellNamed names ((expr cond s).2.skip 2) := named.of_same rfl rfl rfl
  have scopes := scopes_inScope (keeps_stmts none_made targets body mem) named'
  unfold Structured.exec at ran
  obtain ⟨v, evaluates, ran⟩ := Option.bind_eq_some_iff.mp ran
  obtain ⟨m₁, keeping₁, tested⟩ := leads_branching once has.left.left represents evaluates
  have last := has.right.head
  rw [List.length_append, List.length_singleton, ← Nat.add_assoc]
  cases truth : I.isTrue v with
  | true =>
      rw [truth] at ran tested
      have follows := runsStmts.inScope none_made mem
        ⟨named', has.left.right, knows, keeping₁⟩ ran
      refine (follows.after tested).ofPart rfl scopes fun m => ?_
      rw [Nat.add_assoc p, ← List.length_append]
      exact leads_label last
  | false =>
      rw [truth] at ran tested
      obtain rfl := Option.some.inj ran
      refine ⟨m₁, tested.trans ?_, ?_⟩
      · rw [if_neg Bool.false_ne_true, place_of_getElem? once last]
        exact leads_label last
      · rw [Keeping, scopes]
        exact keeping₁

theorem follows_ifElse {cond : Expr} {braces elseBraces : Braces} {body elseBody : List Stmt}
    (memThen : ∀ x ∈ Stmt.declaredIn body, x ∈ names)
    (memElse : ∀ x ∈ Stmt.declaredIn elseBody, x ∈ names)
    (ready : Ready c names s (stmt targets (.ifElse cond braces body elseBraces elseBody) s) p m σ)
    (ran : Structured.exec I (fuel + 1) (.ifElse cond braces body elseBraces elseBody) σ =
      some r) :
    Follows c I targets ⟨p, m, [], []⟩
      (p + (stmt targets (.ifElse cond braces body elseBraces elseBody) s).1.length)
      (Keeping c (stmt targets (.ifElse cond braces body elseBraces elseBody) s).2)
      (KeepingOuter c s) r := by
  obtain ⟨named, has, knows, represents⟩ := ready
  rw [Lower.stmt_ifElse] at has knows ⊢
  dsimp only at has knows ⊢
  have keepsThen := keeps_stmts none_made targets body memThen
  have keepsElse := keeps_stmts none_made targets elseBody memElse
  have named₁ : WellNamed names ((expr cond s).2.skip 2) := named.of_same rfl rfl rfl
  have named₂ : WellNamed names
      ((inScope (stmts targets body) ((expr cond s).2.skip 2)).2.skip 1) :=
    (keeps_inScope keepsThen _ named₁).1.of_same rfl rfl rfl
  have knows₁ := knows.before (keeps_inScope keepsElse _ named₂).2
  have scopes₁ := scopes_inScope keepsThen named₁
  have scopes : _ = s.env.stack.scopes := (scopes_inScope keepsElse named₂).trans scopes₁
  unfold Structured.exec at ran
  obtain ⟨v, evaluates, ran⟩ := Option.bind_eq_some_iff.mp ran
  obtain ⟨m₁, keeping₁, tested⟩ :=
    leads_branching once has.left.left.left.left represents evaluates
  have jump := has.left.left.right.head
  have otherwise := has.left.left.right.tail.head
  have last := has.right.head
  rw [List.length_append, List.length_singleton, ← Nat.add_assoc]
  cases truth : I.isTrue v with
  | true =>
      rw [truth] at ran tested
      have follows := runsStmts.inScope none_made memThen
        ⟨named₁, has.left.left.left.right, knows₁, keeping₁⟩ ran
      refine (follows.after tested).ofPart rfl scopes fun m => ?_
      rw [Nat.add_assoc p, ← List.length_append]
      refine (leads_goto jump).trans ?_
      rw [place_of_getElem? once last]
      exact leads_label last
  | false =>
      rw [truth] at ran tested
      have represents' : Keeping c
          ((inScope (stmts targets body) ((expr cond s).2.skip 2)).2.skip 1) m₁ σ := by
        change Represents c m₁ (inScope _ _).2.env.stack.scopes σ.scopes
        rw [scopes₁]
        exact keeping₁
      have follows := runsStmts.inScope none_made memElse
        ⟨named₂, has.left.right, knows, represents'⟩ ran
      rw [if_neg Bool.false_ne_true, place_of_getElem? once otherwise] at tested
      have there := tested.trans (leads_label otherwise)
      simp only [List.length_append, List.length_cons, List.length_nil, ← Nat.add_assoc]
        at follows there last ⊢
      exact (follows.after there).ofPart scopes₁ scopes fun m => leads_label last

include runsLoop in
omit runsStmts in
theorem follows_whileLoop {cond : Expr} {braces : Braces} {body : List Stmt}
    (mem : ∀ x ∈ Stmt.declaredIn body, x ∈ names)
    (ready : Ready c names s (stmt targets (.whileLoop cond braces body) s) p m σ)
    (ran : Structured.exec I (fuel + 1) (.whileLoop cond braces body) σ = some r) :
    Follows c I targets ⟨p, m, [], []⟩
      (p + (stmt targets (.whileLoop cond braces body) s).1.length)
      (Keeping c (stmt targets (.whileLoop cond braces body) s).2) (KeepingOuter c s) r := by
  obtain ⟨named, has, knows, represents⟩ := ready
  rw [Lower.stmt_whileLoop] at has knows ⊢
  dsimp only at has knows ⊢
  have named' : WellNamed names (s.skip 3) := named.of_same rfl rfl rfl
  have scopes := scopes_inScope
    (keeps_stmts none_made (some ⟨s.label 0, s.label 2⟩) body mem) (keeps_expr cond _ named').1
  have first := has.left.left.head
  have jump := has.right.head
  have last := has.right.tail.head
  have loop : LoopCode c I names (s.skip 3) (p + 1) (s.label 1) ⟨s.label 0, s.label 2⟩ cond none
      body := by
    refine ⟨named', mem, has.left.left.tail, ?_, knows, ?_, ?_⟩
    · have code := has.left.right
      rwa [List.length_cons, Nat.add_comm _ 1, ← Nat.add_assoc] at code
    · intro m
      refine leads_goto ?_
      simpa only [List.length_append, List.length_cons, Nat.add_assoc, Nat.add_comm 1] using jump
    · intro m σ σ' keeping updated
      obtain rfl := Option.some.inj updated
      rw [place_of_getElem? once first]
      exact ⟨m, leads_label first, keeping⟩
  unfold Structured.exec at ran
  have follows := (runsLoop targets loop represents ran).after (leads_label first)
  refine follows.ofPart rfl scopes fun m => ?_
  rw [place_of_getElem? once last]
  have leads := leads_label (I := I) (m := m) last
  simpa only [List.length_append, List.length_cons, List.length_nil, Nat.zero_add,
    ← Nat.add_assoc] using leads

include runsLoop in
omit runsStmts in
/-- The rounds of a `for` loop, which end behind its code. -/
theorem follows_forRounds {cond : Expr} {update : Option Stmt} {body : List Stmt}
    (memUpdate : ∀ x ∈ Stmt.declaredBy update, x ∈ names)
    (memBody : ∀ x ∈ Stmt.declaredIn body, x ∈ names)
    (ready : Ready c names s (Lower.forRounds targets cond update body s) p m σ)
    (ran : Structured.execLoop I fuel cond update body σ = some r) :
    Follows c I targets ⟨p, m, [], []⟩
      (p + (Lower.forRounds targets cond update body s).1.length) (Keeping c s) (Keeping c s)
      r := by
  obtain ⟨named, has, knows, represents⟩ := ready
  unfold Lower.forRounds at has knows ⊢
  dsimp only at has knows ⊢
  have named₁ : WellNamed names (s.skip 4) := named.of_same rfl rfl rfl
  have keepsBody := keeps_stmts none_made (some ⟨s.label 2, s.label 3⟩) body memBody
  obtain ⟨named₂, _⟩ := keeps_inScope keepsBody _ (keeps_expr cond _ named₁).1
  have scopes := scopes_inScope keepsBody (keeps_expr cond _ named₁).1
  obtain ⟨_, extends₃⟩ := keeps_header none_made targets update memUpdate _ named₂
  have first := has.left.left.left.head
  have next := has.left.right.head
  have jump := has.right.head
  have last := has.right.tail.head
  have loop : LoopCode c I names (s.skip 4) (p + 1) (s.label 1) ⟨s.label 2, s.label 3⟩ cond update
      body := by
    refine ⟨named₁, memBody, has.left.left.left.tail, ?_, knows.before extends₃, ?_, ?_⟩
    · have code := has.left.left.right
      rwa [List.length_cons, Nat.add_comm _ 1, ← Nat.add_assoc] at code
    · intro m
      rw [place_of_getElem? once next]
      simp only [List.length_append, List.length_cons, Nat.add_assoc, Nat.add_comm 1]
      exact .refl _
    · intro m σ σ' keeping updated
      have keeping' : Keeping c (inScope (stmts (some ⟨s.label 2, s.label 3⟩) body)
          (expr cond (s.skip 4)).2).2 m σ := by
        rw [Keeping, scopes]
        exact keeping
      obtain ⟨m', leads, kept⟩ := runs_update named₂ has.left.right.tail keeping' updated
      refine ⟨m', ?_, ?_⟩
      · rw [place_of_getElem? once next]
        refine ((leads_label next).trans leads).trans ?_
        have back := leads_goto (I := I) (m := m') jump
        rw [place_of_getElem? once first] at back
        simpa only [List.length_append, List.length_cons, Nat.add_assoc, Nat.add_comm 1]
          using back.trans (leads_label first)
      · rw [scopes] at kept
        exact kept
  have follows := (runsLoop targets loop represents ran).after (leads_label first)
  refine follows.imp ?_ fun _ _ => id
  intro m σ kept
  refine ⟨m, ?_, kept⟩
  rw [place_of_getElem? once last]
  have leads := leads_label (I := I) (m := m) last
  simpa only [List.length_append, List.length_cons, List.length_nil, Nat.zero_add,
    ← Nat.add_assoc] using leads

include runsLoop in
omit runsStmts in
theorem follows_forLoop {init : Option Stmt} {cond : Expr} {update : Option Stmt}
    {braces : Braces} {body : List Stmt}
    (memInit : ∀ x ∈ Stmt.declaredBy init, x ∈ names)
    (memUpdate : ∀ x ∈ Stmt.declaredBy update, x ∈ names)
    (memBody : ∀ x ∈ Stmt.declaredIn body, x ∈ names)
    (ready : Ready c names s (stmt targets (.forLoop init cond update braces body) s) p m σ)
    (ran : Structured.exec I (fuel + 1) (.forLoop init cond update braces body) σ = some r) :
    Follows c I targets ⟨p, m, [], []⟩
      (p + (stmt targets (.forLoop init cond update braces body) s).1.length)
      (Keeping c (stmt targets (.forLoop init cond update braces body) s).2)
      (KeepingOuter c s) r := by
  obtain ⟨named, has, knows, represents⟩ := ready
  rw [Lower.stmt_forLoop] at has knows ⊢
  obtain ⟨named₁, extends₁⟩ := keeps_header none_made targets init memInit _ named.openScope
  obtain ⟨_, extends₂⟩ := keeps_forRounds none_made targets cond memUpdate memBody _ named₁
  have scopes : (inScope (Lower.forInside targets init cond update body) s).2.env.stack.scopes =
      s.env.stack.scopes :=
    (Lower.scopes_closeScope _).trans (extends₁.trans extends₂).outer
  unfold Structured.exec at ran
  refine (follows_inScope ran ?_).ofPart rfl scopes fun m => .refl _
  intro r ran
  obtain ⟨σ₁, began, ran⟩ := Option.bind_eq_some_iff.mp ran
  have knows₂ : c.Knows (Lower.forRounds targets cond update body
      (header targets init (openScope s).2).2).2 := knows
  obtain ⟨m₁, leads, keeping⟩ := runs_init none_made memInit named.openScope has.left
    (knows₂.before extends₂) represents.push began
  have follows := follows_forRounds none_made once runsLoop memUpdate memBody
    ⟨named₁, has.right, knows₂, keeping⟩ ran
  have below : ∀ (m : Memory V) (σ : Vars V),
      Keeping c (header targets init (openScope s).2).2 m σ → KeepingBelow c s m σ := by
    intro m σ kept
    have kept' := kept.tail
    rw [extends₁.outer] at kept'
    exact kept'
  rw [Lower.inScope_fst, Lower.forInside, List.length_append, ← Nat.add_assoc]
  exact (follows.after leads).imp (fun m' _ kept => ⟨m', .refl _, below _ _ kept⟩) below

include runsLoop in
theorem RunsStmt.succ : RunsStmt c I names (fuel + 1) := by
  intro targets st s p m σ r mem ready ran
  cases st with
  | declare site d =>
      obtain ⟨σ', declared, result⟩ := Option.bind_eq_some_iff.mp ran
      obtain rfl := Option.some.inj result
      exact runs_declaration none_made d ready.named (mem _ List.mem_cons_self) ready.has
        ready.knows ready.represents declared
  | assign site target index value =>
      obtain ⟨σ', assigned, result⟩ := Option.bind_eq_some_iff.mp ran
      obtain rfl := Option.some.inj result
      exact runs_assignment index ready.named ready.has ready.represents assigned
  | block braces body =>
      have scopes := scopes_inScope (keeps_stmts none_made targets body mem) ready.named
      exact (runsStmts.inScope none_made mem ready ran).ofPart rfl scopes fun m => .refl _
  | ifThen cond braces body => exact follows_ifThen none_made once runsStmts mem ready ran
  | ifElse cond braces body elseBraces elseBody =>
      exact follows_ifElse none_made once runsStmts
        (fun x here => mem x (List.mem_append_left _ here))
        (fun x here => mem x (List.mem_append_right _ here)) ready ran
  | whileLoop cond braces body => exact follows_whileLoop none_made once runsLoop mem ready ran
  | forLoop init cond update braces body =>
      exact follows_forLoop none_made once runsLoop
        (fun x here => mem x (List.mem_append_left _ (List.mem_append_left _ here)))
        (fun x here => mem x (List.mem_append_left _ (List.mem_append_right _ here)))
        (fun x here => mem x (List.mem_append_right _ here)) ready ran
  | breakLoop site =>
      obtain rfl := Option.some.inj ran
      intro t isTarget
      subst isTarget
      exact ⟨m, leads_goto ready.has.head, ready.represents.tail⟩
  | continueLoop site =>
      obtain rfl := Option.some.inj ran
      intro t isTarget
      subst isTarget
      exact ⟨m, leads_goto ready.has.head, ready.represents.tail⟩
  | returnValue site value =>
      cases value with
      | none =>
          obtain rfl := Option.some.inj ran
          exact ⟨_, stops_ret ready.has.head, rfl⟩
      | some e =>
          obtain ⟨v, evaluates, result⟩ := Option.bind_eq_some_iff.mp ran
          obtain rfl := Option.some.inj result
          obtain ⟨m₁, leads, _, _, value⟩ := runs_expr ready.has.left ready.represents evaluates
          refine ⟨_, leads _ (stops_ret ready.has.right.head), ?_⟩
          exact congrArg (fun v => Ending.returned (some v)) value
  | prototype site heading => contradiction
  | define heading braces body => contradiction
  | call site callee args => contradiction

end Cases

include none_made in
/-- Whatever statements do with some amount of fuel, their code does. -/
theorem runs_all (once : c.LabelsOnce) (fuel : Nat) :
    RunsStmt c I names fuel ∧ RunsStmts c I names fuel ∧ RunsLoop c I names fuel := by
  induction fuel with
  | zero =>
      refine ⟨?_, ?_, ?_⟩
      · intro targets st s p m σ r _ _ ran
        contradiction
      · intro targets body s p m σ r _ _ ran
        contradiction
      · intro targets s p enter t cond update body m σ r _ _ ran
        contradiction
  | succ fuel ih =>
      obtain ⟨runsStmt, runsStmts, runsLoop⟩ := ih
      exact ⟨RunsStmt.succ none_made once runsStmts runsLoop, .succ none_made runsStmt runsStmts,
        .succ none_made once runsStmts runsLoop⟩

/-! ### Functions -/

/-- Parameters without names are nothing to lowering. -/
theorem params_anonymous {ps : List Param} (anonymous : ∀ p ∈ ps, p.name = none) (s : State) :
    Lower.params ps s = ([], s) := by
  induction ps with
  | nil => rfl
  | cons p rest ih =>
      obtain ⟨noName, others⟩ := List.forall_mem_cons.mp anonymous
      obtain ⟨type, name⟩ := p
      obtain rfl : name = none := noName
      exact ih others

omit [DecidableEq V] in
/-- What parameters without names receive is not kept. -/
theorem bindParams_anonymous {ps : List Param} (anonymous : ∀ p ∈ ps, p.name = none) {args : List V}
    (bound : Structured.bindParams? I σ ps args = some σ') : σ' = σ := by
  induction ps generalizing args with
  | nil =>
      cases args with
      | nil => exact (Option.some.inj bound).symm
      | cons _ _ => contradiction
  | cons p rest ih =>
      obtain ⟨noName, others⟩ := List.forall_mem_cons.mp anonymous
      obtain ⟨type, name⟩ := p
      obtain rfl : name = none := noName
      cases args with
      | nil => contradiction
      | cons _ args => exact ih others bound

include none_made in
omit [DecidableEq V] in
/-- The parameters are represented once they have received their arguments, if those that lowering
leaves out are the last ones. -/
theorem represents_params (params : List Param) {args : List V}
    (named_first : params.Pairwise fun p q => p.name = none → q.name = none)
    (mem : ∀ x ∈ params.filterMap fun p => p.name.map (·.val), x ∈ names)
    (named : WellNamed names s) (knows : c.Knows (Lower.params params s).2)
    (represents : Represents c m s.env.stack.scopes σ.scopes)
    (bound : Structured.bindParams? I σ params args = some σ') :
    Represents c (m.bind I c.globals c.types (Lower.params params s).1 args)
      (Lower.params params s).2.env.stack.scopes σ'.scopes := by
  induction params generalizing s m σ args with
  | nil =>
      cases args with
      | nil =>
          obtain rfl := Option.some.inj bound
          exact represents
      | cons _ _ => contradiction
  | cons param rest ih =>
      obtain ⟨last, rest_first⟩ := List.pairwise_cons.mp named_first
      obtain ⟨type, name⟩ := param
      cases name with
      | none =>
          -- From here on, no parameter has a name.
          have anonymous : ∀ p ∈ (⟨type, none⟩ : Param) :: rest, p.name = none :=
            List.forall_mem_cons.mpr ⟨rfl, fun p here => last p here rfl⟩
          rw [bindParams_anonymous anonymous bound, params_anonymous anonymous]
          exact represents
      | some name =>
          have memRest : ∀ x ∈ rest.filterMap fun p => p.name.map (·.val), x ∈ names := by
            intro x here
            exact mem x (List.mem_cons_of_mem _ here)
          cases args with
          | nil => contradiction
          | cons v args =>
              obtain ⟨t, parsed, bound⟩ := Option.bind_eq_some_iff.mp bound
              obtain ⟨σ₁, declared, bound⟩ := Option.bind_eq_some_iff.mp bound
              have here : name.val ∈ names := mem _ (by simp)
              obtain ⟨named₁, _⟩ := Lower.keeps_declare none_made type.val here s named
              obtain ⟨_, extends₂⟩ := Lower.keeps_params none_made rest memRest _ named₁
              have typed : c.types.get? (declare name.val type.val s).1 = some t := by
                refine knows (extends₂.types ?_)
                rw [Lower.types_declare, parsed]
                exact Assoc.get?_set_self ..
              have represents₁ : Represents c
                  (m.set c.globals (.var (declare name.val type.val s).1)
                    (I.receive (c.types.get? (declare name.val type.val s).1) v))
                  (declare name.val type.val s).2.env.stack.scopes σ₁.scopes := by
                refine represents_declare none_made named here represents declared
                  (fun _ => sameAt_set _) ⟨typed, ?_⟩
                intro w received
                obtain rfl := Option.some.inj received
                rw [typed, Memory.get_set_self]
              exact ih rest_first memRest named₁ knows represents₁ bound

include none_made in
omit [DecidableEq V] in
/-- Those of a heading that receive an argument are all of its parameters to lowering: a sole `void`
has no name. -/
theorem represents_receivers (h : Heading) {args : List V} (mem : ∀ x ∈ h.declared, x ∈ names)
    (named_first : h.NamedFirst) (named : WellNamed names s)
    (knows : c.Knows (Lower.params h.params s).2)
    (represents : Represents c m s.env.stack.scopes σ.scopes)
    (bound : Structured.bindParams? I σ h.receivers args = some σ') :
    Represents c (m.bind I c.globals c.types (Lower.params h.params s).1 args)
      (Lower.params h.params s).2.env.stack.scopes σ'.scopes := by
  unfold Heading.receivers at bound
  split at bound
  · rename_i void
    obtain ⟨p, params, anonymous, -⟩ := params_of_takesVoid void
    rw [bindParams_anonymous (List.forall_mem_nil _) bound, params,
      params_anonymous (List.forall_mem_singleton.mpr anonymous)]
    exact represents
  · exact represents_params none_made h.params named_first mem named knows represents bound

/-- In the code of a program, every label stands once. -/
theorem labelsOnce_lower (program : Program) : program.lower.1.LabelsOnce := by
  intro l
  rw [count_label_lower]
  exact Lower.within_le ..

theorem wellNamed_start (names : List String) : WellNamed names (openScope {}).2 :=
  (Lower.wellNamed_empty names).openScope

/-- If a call of a function finishes, running the code of the function finishes, and in the same
way: with the same value, or by running off the end. -/
theorem lower_finishes (I : Interpretation V) (heading : Heading) (braces : Braces)
    (body : List Stmt) (named_first : heading.NamedFirst)
    (free : Stmt.allDefinitionFree body = true)
    (none_made : NoneMadeUp (heading.declared ++ Stmt.declaredIn body)) (shared : Store V)
    {args : List V} {ending : Ending V}
    (finishes : Structured.Finishes I heading body args ending) :
    let c := (Program.mk [.define heading braces body]).lower.1
    ∃ o, Stops (c.step I) (c.load I shared (.function heading.name.val args)) o ∧
      o.ending = ending := by
  intro c
  obtain ⟨fuel, called⟩ := finishes
  obtain ⟨σ₁, bound, called⟩ := Option.bind_eq_some_iff.mp called
  obtain ⟨⟨flow, σ₂⟩, ran, result⟩ := Option.bind_eq_some_iff.mp called
  have memParams : ∀ x ∈ heading.declared, x ∈ heading.declared ++ Stmt.declaredIn body :=
    fun x here => List.mem_append_left _ here
  have memBody : ∀ x ∈ Stmt.declaredIn body, x ∈ heading.declared ++ Stmt.declaredIn body :=
    fun x here => List.mem_append_right _ here
  -- The state that the body is lowered in, and the code around it.
  let s₀ : State := (openScope {}).2
  have named₀ := (wellNamed_start (heading.declared ++ Stmt.declaredIn body)).openScope
  obtain ⟨named₁, _⟩ := Lower.keeps_params none_made heading.params memParams _ named₀
  have named : WellNamed _ (s₀.inside heading) := named₁.of_same rfl rfl rfl
  obtain ⟨_, extends'⟩ := keeps_stmts none_made none body memBody _ named
  have aside : (stmts none body (s₀.inside heading)).2.functions = [] :=
    (Lower.functions_stmts none body free _).trans
      (Lower.params_unchanged heading.params (openScope s₀).2).2
  have instrs : c.instrs = .function heading.name.val
      (Lower.params heading.params (openScope s₀).2).1 ::
        (stmts none body (s₀.inside heading)).1 := by
    change [] ++ [] ++ ((stmts none body (s₀.inside heading)).2.functions ++ _ :: _) = _
    rw [aside]
    rfl
  have has : c.Has 1 (stmts none body (s₀.inside heading)).1 := by
    intro k i at_k
    rw [instrs, Nat.add_comm, List.getElem?_cons_succ]
    exact at_k
  have knows : c.Knows (stmts none body (s₀.inside heading)).2 := fun _ _ known => known
  have start : c.load I shared (.function heading.name.val args) =
      ⟨1, (Memory.mk I.blank shared).bind I c.globals c.types
        (Lower.params heading.params (openScope s₀).2).1 args, [], []⟩ := by
    have found : findFunction? heading.name.val c.instrs =
        some (1, (Lower.params heading.params (openScope s₀).2).1) := by
      rw [instrs]
      simp [findFunction?, Instr.paramsOf?]
    simp only [Code.load, found]
  have represents : Represents c (Memory.mk I.blank shared) (openScope s₀).2.env.stack.scopes
      (ScopeStack.push (ScopeStack.push {} : Vars V)).scopes :=
    Represents.push (Represents.push .nil)
  have knows₁ := knows.before extends'
  have represents₁ := represents_receivers none_made heading memParams named_first named₀ knows₁
    represents bound
  have follows := (runs_all none_made (labelsOnce_lower _) fuel).2.1 memBody
    ⟨named, has, knows, represents₁⟩ ran
  rw [start]
  cases flow with
  | normal =>
      obtain rfl := Option.some.inj result
      obtain ⟨m, leads, _⟩ := follows
      refine ⟨_, leads _ (stops_end ?_), rfl⟩
      rw [instrs, List.getElem?_eq_none_iff, List.length_cons]
      omega
  | returned value =>
      obtain rfl := Option.some.inj result
      exact follows
  | stopped => contradiction
  | continued => contradiction

/-- An array, a `for` loop that is continued and left early, and a variable that hides another
one, which its initial value still sees. -/
def partialSums : List Stmt :=
  [.declare {} ⟨⟨"int", {}⟩, ⟨"sums", {}⟩, some 4, none⟩,
    .declare {} ⟨⟨"int", {}⟩, ⟨"last", {}⟩, none, some (.literal {} (.number "1"))⟩,
    .forLoop (some (.declare {} ⟨⟨"int", {}⟩, ⟨"i", {}⟩, none, some (.literal {} (.number "0"))⟩))
      (.binary {} .less (.var {} "i") (.var {} "n"))
      (some (.assign {} ⟨"i", {}⟩ none
        (.binary {} .add (.var {} "i") (.literal {} (.number "1"))))) {}
      [.ifThen (.binary {} .equal (.var {} "i") (.literal {} (.number "1"))) {} [.continueLoop {}],
        .declare {} ⟨⟨"int", {}⟩, ⟨"last", {}⟩, none,
          some (.binary {} .add (.var {} "last") (.var {} "i"))⟩,
        .assign {} ⟨"sums", {}⟩ (some (.var {} "i")) (.var {} "last"),
        .ifThen (.binary {} .equal (.var {} "i") (.literal {} (.number "2"))) {} [.breakLoop {}]],
    .returnValue {} (some (.element {} "sums" (.literal {} (.number "2"))))]

/-- The heading `int f(int n, int)`. -/
def namedFirst : Heading :=
  ⟨⟨"int", {}⟩, ⟨"f", {}⟩, [⟨⟨"int", {}⟩, some ⟨"n", {}⟩⟩, ⟨⟨"int", {}⟩, none⟩]⟩

theorem partialSums_finishes :
    namedFirst.NamedFirst ∧
      Structured.Finishes .textual namedFirst partialSums ["4", "9"] (.returned (some "3")) ∧
      let c := (Program.mk [.define namedFirst {} partialSums]).lower.1
      ∃ o, Stops (c.step .textual)
          (c.load .textual Interpretation.textual.blank (.function "f" ["4", "9"])) o ∧
        o.ending = .returned (some "3") := by
  have finishes : Structured.Finishes .textual namedFirst partialSums ["4", "9"]
      (.returned (some "3")) := ⟨30, by decide +kernel⟩
  have none_made : NoneMadeUp (namedFirst.declared ++ Stmt.declaredIn partialSums) :=
    noneMadeUp_of_dotless (by decide)
  exact ⟨by decide, finishes, lower_finishes .textual namedFirst {} partialSums (by decide)
    (by decide) none_made _ finishes⟩

/-- The function is accepted and has no function inside of it, and a call of it finishes, but its
code does not finish in that way. -/
def Misled (heading : Heading) (body : List Stmt) (args : List String) (ending : Ending String) :
    Prop :=
  let program := Program.mk [.define heading {} body]
  let c := program.lower.1
  program.check.diagnostics.hasErrors = false ∧ Stmt.allDefinitionFree body = true ∧
    Structured.Finishes .textual heading body args ending ∧
    ¬ ∃ o, Stops (c.step .textual) (c.load .textual Interpretation.textual.blank
        (.function heading.name.val args)) o ∧ o.ending = ending

/-- Code that is seen to finish in one way finishes in no other. -/
theorem not_stops_of_runFor {code : Code} {start : Config String} {ending : Ending String}
    (fuel : Nat) (other : Ending String)
    (ran : (runFor (code.step .textual) fuel start).map (·.ending) = some other)
    (differs : other ≠ ending) :
    ¬ ∃ o, Stops (code.step .textual) start o ∧ o.ending = ending := by
  rintro ⟨o, stops, ends⟩
  obtain ⟨o', finished, ends'⟩ := Option.map_eq_some_iff.mp ran
  obtain rfl := stops.unique (.of_runFor fuel finished)
  exact differs (ends'.symm.trans ends)

/-- A variable whose name is the one that lowering makes up for the second `x`. -/
def takenName : List Stmt :=
  [.declare {} ⟨⟨"int", {}⟩, ⟨"x.1", {}⟩, none, some (.literal {} (.number "5"))⟩,
    .declare {} ⟨⟨"int", {}⟩, ⟨"x", {}⟩, none, some (.literal {} (.number "1"))⟩,
    .block {} [.declare {} ⟨⟨"int", {}⟩, ⟨"x", {}⟩, none, some (.literal {} (.number "2"))⟩],
    .returnValue {} (some (.var {} "x.1"))]

/-- The heading `int f()`. -/
def plainHeading : Heading := ⟨⟨"int", {}⟩, ⟨"f", {}⟩, []⟩

/-- The heading `int f(int, int b)`. -/
def namedLast : Heading :=
  ⟨⟨"int", {}⟩, ⟨"f", {}⟩, [⟨⟨"int", {}⟩, none⟩, ⟨⟨"int", {}⟩, some ⟨"b", {}⟩⟩]⟩

/-- Without the condition on names, the code of an accepted function may return something else, and
without the one on parameters too: a parameter that the marker leaves out passes its argument on to
the next one. -/
theorem conditions_needed :
    Misled plainHeading takenName [] (.returned (some "5")) ∧
      Misled namedLast [.returnValue {} (some (.var {} "b"))] ["1", "2"]
        (.returned (some "2")) := by
  refine ⟨⟨by decide +kernel, by decide, ⟨10, by decide +kernel⟩, ?_⟩,
    by decide +kernel, by decide, ⟨3, by decide +kernel⟩, ?_⟩
  · exact not_stops_of_runFor 10 (.returned (some "2")) (by decide +kernel) (by decide)
  · exact not_stops_of_runFor 3 (.returned (some "1")) (by decide +kernel) (by decide)

end BraceLang.Tac
