import BraceLang.Proofs.Tac.Machine

/-!
A call seen from its caller. What an activation does does not depend on the activations that wait
for it, so a call takes the machine from the call to the next instruction with the answer of the
callee: the value it returns, and what it leaves in the shared store.

* **`reaches_above`**: a run that stops can be run on top of a waiting activation, which goes on
  with its outcome;
* **`Code.Behaves.call`**: a call instruction stores the answer of the callee and changes nothing
  else of its activation.
-/

namespace BraceLang.Tac

variable {V : Type} {c : Code} {I : Interpretation V}

/-! ### Runs on top of others -/

/-- The configuration while other activations wait below it and other calls came before. -/
def Config.above (s : Config V) (below : List (Caller V)) (before : List (OutsideCall V)) :
    Config V :=
  { s with callers := s.callers ++ below, calls := before ++ s.calls }

/-- A waiting activation goes on with the outcome of the call it waits for. -/
def Caller.resume (I : Interpretation V) (caller : Caller V) (o : Outcome V)
    (below : List (Caller V)) (before : List (OutsideCall V)) : Config V where
  pc := caller.pc
  memory := ⟨caller.own.set (.temp caller.result) (o.ending.value?.getD I.nothing), o.shared⟩
  callers := below
  calls := before ++ o.calls

/-- What a step comes to when a caller waits below. -/
def above (I : Interpretation V) (caller : Caller V) (below : List (Caller V))
    (before : List (OutsideCall V)) : Config V ⊕ Outcome V → Config V
  | .inl s => s.above (caller :: below) before
  | .inr o => caller.resume I o below before

variable (caller : Caller V) (below : List (Caller V)) (before : List (OutsideCall V))

theorem leave_above (s : Config V) (ending : Ending V) :
    (s.above (caller :: below) before).leave I ending =
      .inl (above I caller below before (s.leave I ending)) := by
  obtain ⟨pc, m, callers, calls⟩ := s
  cases callers <;> rfl

theorem call_above (s : Config V) (callee : String) (args : List V) (result : Temp) :
    (s.above (caller :: below) before).call c I callee args result =
      (s.call c I callee args result).above (caller :: below) before := by
  cases found : findFunction? callee c.instrs <;> simp [Config.call, Config.above, found]

variable [DecidableEq V]

/-- Every step is taken in the same way on top of a waiting activation; the last one leads back
to that activation. -/
theorem step_above (s : Config V) :
    c.step I (s.above (caller :: below) before) =
      .inl (above I caller below before (c.step I s)) := by
  have at_pc : (s.above (caller :: below) before).pc = s.pc := rfl
  simp only [Code.step, at_pc]
  cases c.instrs[s.pc]? with
  | none => exact leave_above caller below before s .fell
  | some i =>
      cases i with
      | function name params => exact leave_above caller below before s .fell
      | ret value => exact leave_above caller below before s _
      | call callee args result => exact congrArg Sum.inl (call_above ..)
      | branch cond target =>
          simp only [Code.exec]
          split <;> simp_all [above, Config.above, Config.jump, Config.next]
      | _ => rfl

/-- **A run that stops is a call that returns**: on top of a waiting activation, it leads back to
that activation with its outcome. -/
theorem reaches_above {s : Config V} {o : Outcome V} (stops : Stops (c.step I) s o) :
    Reaches (c.step I) (s.above (caller :: below) before) (caller.resume I o below before) := by
  induction stops with
  | @now s o last =>
      have stepped := step_above (c := c) (I := I) caller below before s
      rw [last] at stepped
      exact .of_step stepped
  | @later s s' o first _ ih =>
      have stepped := step_above (c := c) (I := I) caller below before s
      rw [first] at stepped
      exact .head stepped ih

/-! ### What callees do -/

/-- Called with the arguments, the function returns the value and leaves the second shared store
behind. -/
def Code.Answers (c : Code) (I : Interpretation V) (callee : String) (args : List V)
    (shared : Store V) (v : V) (shared' : Store V) : Prop :=
  match findFunction? callee c.instrs with
  | none => I.outside callee args shared = (v, shared')
  | some _ => ∃ o, Stops (c.step I) (c.load I shared (.function callee args)) o ∧
      o.ending.value?.getD I.nothing = v ∧ o.shared = shared'

/-- How callees behave: what a function yields for its arguments and what it leaves in the shared
store, if it returns. -/
abbrev Behaviour (V : Type) := String → List V → Store V → Option (V × Store V)

/-- The functions of the code, and those that it does not define, behave so. -/
def Code.Behaves (c : Code) (I : Interpretation V) (behaviour : Behaviour V) : Prop :=
  ∀ ⦃callee args shared v shared'⦄, behaviour callee args shared = some (v, shared') →
    c.Answers I callee args shared v shared'

/-- **A call stores the answer of its callee** and goes on behind it; the rest of what its
activation has for itself is as before. -/
theorem Code.Behaves.call {behaviour : Behaviour V} (behaves : c.Behaves I behaviour)
    {callee : String} {args : List Operand} {result : Temp} {p : Nat} {m : Memory V}
    {v : V} {shared' : Store V} {callers : List (Caller V)} {calls : List (OutsideCall V)}
    (at_p : c.instrs[p]? = some (.call callee args result))
    (answered : behaviour callee (args.map (·.eval I c.globals m)) m.shared = some (v, shared')) :
    ∃ calls', Reaches (c.step I) ⟨p, m, callers, calls⟩
      ⟨p + 1, ⟨m.own.set (.temp result) v, shared'⟩, callers, calls'⟩ := by
  have answers := behaves answered
  have stepped := step_eq_exec (I := I) (s := ⟨p, m, callers, calls⟩) at_p
  unfold Code.Answers at answers
  simp only [Code.exec, Config.call] at stepped
  split at answers
  · rename_i outside
    simp only [outside, answers] at stepped
    exact ⟨_, .of_step stepped⟩
  · rename_i found
    obtain ⟨o, stops, rfl, rfl⟩ := answers
    simp only [found] at stepped
    -- The activation of the callee is a run of its own on top of the waiting one.
    have back := reaches_above ⟨p + 1, m.own, result⟩ callers calls stops
    simp only [Code.load, found, Config.above, List.nil_append, List.append_nil] at back
    exact ⟨_, .head stepped back⟩

end BraceLang.Tac
