import BraceLang.Proofs.Tac.Elimination
import BraceLang.Proofs.Tac.Folding

/-!
How much elimination keeps, whatever the code is: results may be variables, temporaries or
elements, jumps may go anywhere, and a run may start and end at any place. What is left of the code
does the same things in the same order (`Code.acts`), comes to the same outcome or goes on for
ever like the code, and on the way every live name and every element has the same value.

The condition is `Code.FreshAddresses`: liveness takes into account what a *copy* reads to find its
destination (`fresh_of_copy`) but not what a computation reads to find it, so no dropped
definition may reach a computation into an element whose index reads its name. Lowering makes no
such computation (`freshAddresses_of_computesTemps`). Without the condition the element that
receives the value may be another one (`lostIndex_differs`).
-/

namespace BraceLang.Tac

variable {V : Type} [DecidableEq V]

/-- The machine with the whole code and the machine with what is left of it stand at one place
and agree on what is live there, on all elements and on the calls that wait. -/
structure Code.Corresponds (c : Code) (s t : Config V) : Prop where
  pc : t.pc = c.newPlace s.pc
  names : ∀ n, c.Live s.pc n → t.memory.get c.globals n = s.memory.get c.globals n
  cells : ∀ array, t.memory.cell c.globals array = s.memory.cell c.globals array
  waiting : t.callers.map (·.pc) = s.callers.map fun a => c.newPlace a.pc

omit [DecidableEq V] in
theorem Code.AgreeConfigs.corresponds {c : Code} {s t : Config V} (agree : c.AgreeConfigs s t) :
    c.Corresponds s t where
  pc := agree.pc
  names n live := agree.memory.names n (fresh_of_live live)
  cells array := agree.memory.cell array
  waiting := by
    have callers := agree.callers
    generalize s.callers = waiting, t.callers = waiting' at callers ⊢
    induction callers with
    | nil => rfl
    | cons first _ ih => simp only [List.map_cons, first.pc, ih]

/-- **Elimination is safe.** From the same state, code and what is left of it both go on for ever
or both come to the same outcome, with the same returned value, globals and calls of the outside
world. Both perform the same stores into elements and the same calls on the way: whatever the code
has done when it stops or comes to a place, what is left of it has done when it stops or
comes to the place that corresponds, and the other way round. -/
theorem eliminate_performs (c : Code) (I : Interpretation V) (addresses : c.FreshAddresses)
    (s : Config V) :
    SameRuns (c.step I) s (c.eliminated.step I) (c.moved s) ∧
    (∀ done o, Performs (c.step I) (c.acts I) s done (.inr o) ↔
      Performs (c.eliminated.step I) (c.eliminated.acts I) (c.moved s) done (.inr o)) ∧
    (∀ done s', Performs (c.step I) (c.acts I) s done (.inl s') →
      ∃ t', Performs (c.eliminated.step I) (c.eliminated.acts I) (c.moved s) done (.inl t') ∧
        c.Corresponds s' t') ∧
    ∀ done t', Performs (c.eliminated.step I) (c.eliminated.acts I) (c.moved s) done (.inl t') →
      ∃ s', Performs (c.step I) (c.acts I) s done (.inl s') ∧ c.Corresponds s' t' := by
  have tracks := elimination_tracking (I := I) addresses
  have start := Code.AgreeConfigs.moved c s
  refine ⟨.of_stops_iff (tracks.simulation.stops_iff start), fun done o => ⟨fun run => ?_,
    fun run => ?_⟩, fun done s' run => ?_, fun done t' run => ?_⟩
  · obtain ⟨_, answer, ⟨⟩ | ⟨rfl⟩⟩ := tracks.performs start run
    exact answer
  · obtain ⟨_, answer, ⟨⟩ | ⟨rfl⟩⟩ := tracks.performs_back run start
    exact answer
  · obtain ⟨_, answer, ⟨agree⟩ | ⟨⟩⟩ := tracks.performs start run
    exact ⟨_, answer, agree.corresponds⟩
  · obtain ⟨_, answer, ⟨agree⟩ | ⟨⟩⟩ := tracks.performs_back run start
    exact ⟨_, answer, agree.corresponds⟩

/-- A function that computes a sum into an element, with a copy that nobody uses. -/
def sumInto : Code where
  globals := ["v"]
  types := ⟨[("v", .int), ("i", .int), ("x", .int)]⟩
  instrs := [
    .function "f" ["i"],
    .copy (.const "1") (.var "x"),
    .binary .add (.var "i") (.const "2") (.element "v" (.var "i")),
    .ret (some (.element "v" (.var "i")))]

theorem sumInto_performs :
    sumInto.FreshAddresses ∧ sumInto.eliminated.instrs.length = 3 ∧
      let s := sumInto.load .textual ⟨fun _ => "0", fun _ _ => "0"⟩ (.function "f" ["3"])
      ∃ done o, Performs (sumInto.step .textual) (sumInto.acts .textual) s done (.inr o) ∧
        Performs (sumInto.eliminated.step .textual) (sumInto.eliminated.acts .textual)
          (sumInto.moved s) done (.inr o) ∧
        o.ending = .returned (some "5") := by
  have addresses : sumInto.FreshAddresses := by
    refine freshAddresses_of_kept fun k i at_k => ?_
    obtain ⟨below, rfl⟩ := List.getElem?_eq_some_iff.mp at_k
    revert k
    decide +kernel
  refine ⟨addresses, by decide +kernel, ?_⟩
  intro s
  have ran : (runFor (sumInto.step .textual) 4 s).map (·.ending) = some (.returned (some "5")) := by
    decide +kernel
  obtain ⟨o, ran, ending⟩ := Option.map_eq_some_iff.mp ran
  obtain ⟨done, run⟩ := (stops_iff_performs (sumInto.acts .textual)).mp (.of_runFor 4 ran)
  obtain ⟨-, alike, -⟩ := eliminate_performs sumInto .textual addresses s
  exact ⟨done, o, run, (alike done o).mp run, ending⟩

/-- A computation into an element whose index has been set just before. -/
def lostIndex : Code where
  globals := ["a", "b", "v"]
  instrs := [
    .copy (.const "1") (.var "i"),
    .binary .add (.var "a") (.var "b") (.element "v" (.var "i"))]

/-- If a dropped definition reaches the index of a computation's destination, the value goes into
another element. -/
theorem lostIndex_differs :
    let shared : Store String := ⟨fun _ => "2", fun _ _ => "0"⟩
    ¬ SameRuns (lostIndex.step .textual) (lostIndex.load .textual shared .top)
      (lostIndex.eliminated.step .textual) (lostIndex.eliminated.load .textual shared .top) := by
  intro shared same
  have whole : (runFor (lostIndex.step .textual) 3 (lostIndex.load .textual shared .top)).map
      (·.shared.cell "v" "1") = some "4" := by decide +kernel
  have left : (runFor (lostIndex.eliminated.step .textual) 3
      (lostIndex.eliminated.load .textual shared .top)).map (·.shared.cell "v" "1") =
        some "0" := by decide +kernel
  obtain ⟨o, ran, stored⟩ := Option.map_eq_some_iff.mp whole
  obtain ⟨o', ran', kept⟩ := Option.map_eq_some_iff.mp left
  rcases same with ⟨forever, _⟩ | ⟨o'', stops, stops'⟩
  · exact forever o (.of_runFor 3 ran)
  · obtain rfl := stops.unique (.of_runFor 3 ran)
    obtain rfl := stops'.unique (.of_runFor 3 ran')
    simp [stored] at kept

end BraceLang.Tac
