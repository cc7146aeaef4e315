import BraceLang.Proofs.Tac.LivePoints
import BraceLang.Tac.Optimize
import Mathlib.Logic.Function.Iterate

/-!
Optimization ends, and it ends at a fixed point. Rounds are counted here without looking at
whether they change anything (`afterRounds`), so that the number of rounds an optimization takes
is a fact about the rounds and not about how the loop is written.

* **`rounds_ends`**: there is a first round that changes nothing, it comes after no more rounds
  than the code weighs, and the loop stops there;
* **`round_of_stable`**: code that a round leaves alone is left alone by folding and by
  elimination, and every name that it still gives a value to is live.
-/

namespace BraceLang.Tac

variable {globals : List String} {types : Assoc String Ty} {code : List Instr}

/-! ### A round that changes nothing -/

/-- The code neither folds to other code nor has dead instructions. -/
structure Settled (globals : List String) (types : Assoc String Ty) (code : List Instr) :
    Prop where
  folded : fold globals types code = code
  dead : (eliminate globals code).dead = []
  kept : (eliminate globals code).kept = code

@[simp] theorem length_liveOut (globals : List String) (code : List Instr) :
    (liveOut globals code).length = code.length := by
  simp [liveOut, Liveness.out, liveness]

/-- Where nothing is dead, everything is kept. -/
theorem kept_of_dead (none_dead : (eliminate globals code).dead = []) :
    (eliminate globals code).kept = code := by
  have alive : ∀ p ∈ code.zip (liveOut globals code), isDead p.1 p.2 = false := by
    simpa [eliminate, liveOut] using none_dead
  have all : (code.zip (liveOut globals code)).filter (fun p => !isDead p.1 p.2) =
      code.zip (liveOut globals code) :=
    List.filter_eq_self.mpr fun p mem => by simp [alive p mem]
  calc (eliminate globals code).kept
      = ((code.zip (liveOut globals code)).filter fun p => !isDead p.1 p.2).map Prod.fst := rfl
    _ = (code.zip (liveOut globals code)).map Prod.fst := by rw [all]
    _ = code := List.map_fst_zip (by simp)

/-- A stable round shows that the code is settled. -/
theorem round_of_stable (stable : (round globals types code).isStable = true) :
    Settled globals types code := by
  simp only [Round.isStable, Round.changed, round, Bool.and_eq_true, Bool.not_eq_true',
    bne_eq_false_iff_eq, List.isEmpty_iff] at stable
  obtain ⟨folded, dead⟩ := stable
  rw [folded] at dead
  exact ⟨folded, dead, kept_of_dead dead⟩

namespace Settled

theorem stable (settled : Settled globals types code) :
    (round globals types code).isStable = true := by
  simp [Round.isStable, Round.changed, round, settled.folded, settled.dead]

theorem after_round (settled : Settled globals types code) :
    (round globals types code).after = code := by
  simp only [Round.after, round, settled.folded, settled.kept]

/-- In settled code only live names are given values. -/
theorem live {i : Nat} {instr : Instr} {n : Name} (settled : Settled globals types code)
    (here : code[i]? = some instr) (writes : instr.result? = some (.name n)) :
    ∃ live, (liveOut globals code)[i]? = some live ∧ n ∈ live := by
  obtain ⟨below, at_i⟩ := List.getElem?_eq_some_iff.mp here
  have below' : i < (liveOut globals code).length := by simpa using below
  refine ⟨(liveOut globals code)[i], List.getElem?_eq_getElem below', ?_⟩
  have alive : ∀ p ∈ code.zip (liveOut globals code), isDead p.1 p.2 = false := by
    simpa [eliminate, liveOut] using settled.dead
  have mem : (code[i], (liveOut globals code)[i]) ∈ code.zip (liveOut globals code) := by
    rw [← List.getElem_zip (h := by simpa using below)]
    exact List.getElem_mem _
  have kept := alive _ mem
  rw [at_i] at kept
  simpa [isDead, Instr.target?, writes, Operand.name?] using kept

end Settled

/-! ### The loop -/

/-- The code after so many rounds, whether they change it or not. -/
def afterRounds (globals : List String) (types : Assoc String Ty) (k : Nat)
    (code : List Instr) : List Instr :=
  (fun code => (round globals types code).after)^[k] code

theorem afterRounds_succ (k : Nat) (code : List Instr) :
    afterRounds globals types (k + 1) code =
      afterRounds globals types k (round globals types code).after :=
  Function.iterate_succ_apply _ _ _

/-- How the loop runs: it goes through `n` rounds that change something, and stops after one more
that does not. -/
structure EndsAfter (globals : List String) (types : Assoc String Ty) (code : List Instr)
    (n : Nat) : Prop where
  length : (rounds globals types code).length = n + 1
  changing : ∀ k < n, (round globals types (afterRounds globals types k code)).isStable = false
  settled : Settled globals types (afterRounds globals types n code)
  last : (rounds globals types code).getLast?.map Round.after =
    some (afterRounds globals types n code)
  /-- Each round that changes something makes the code lighter. -/
  lighter : n + weight types (afterRounds globals types n code) ≤ weight types code

theorem EndsAfter.zero (stable : (round globals types code).isStable = true) :
    EndsAfter globals types code 0 := by
  have settled := round_of_stable stable
  refine ⟨?_, by simp, settled, ?_, by simp [afterRounds]⟩
  · rw [rounds, if_pos stable]
    rfl
  · rw [rounds, if_pos stable]
    exact congrArg some settled.after_round

theorem EndsAfter.succ {n : Nat} (unstable : (round globals types code).isStable = false)
    (rest : EndsAfter globals types (round globals types code).after n) :
    EndsAfter globals types code (n + 1) := by
  have unfolded : rounds globals types code = round globals types code ::
      rounds globals types (round globals types code).after := by
    rw [rounds, if_neg (by simp [unstable])]
  constructor
  · rw [unfolded, List.length_cons, rest.length]
  · intro k below
    cases k with
    | zero => exact unstable
    | succ k =>
        rw [afterRounds_succ]
        exact rest.changing k (by omega)
  · rw [afterRounds_succ]
    exact rest.settled
  · rw [unfolded, afterRounds_succ, ← rest.last]
    cases others : rounds globals types (round globals types code).after with
    | nil => simpa [others] using rest.length
    | cons r rs => simp
  · have lost := weight_round_lt globals types unstable
    have := rest.lighter
    rw [afterRounds_succ]
    omega

/-- The loop ends. -/
theorem rounds_ends (globals : List String) (types : Assoc String Ty) (code : List Instr) :
    ∃ n, EndsAfter globals types code n := by
  induction code using rounds.induct globals types with
  | case1 code r stable => exact ⟨0, .zero stable⟩
  | case2 code r unstable ih =>
      obtain ⟨n, ends⟩ := ih
      exact ⟨n + 1, .succ (by simpa [r] using unstable) ends⟩

/-- What is settled is not changed by optimization. -/
theorem optimize_of_settled {c : Code} (settled : Settled c.globals c.types c.instrs) :
    c.optimize.1 = c := by
  have last := (EndsAfter.zero settled.stable).last
  simp only [Code.optimize, last, Option.getD_some, afterRounds, Function.iterate_zero, id]

/-- **Optimization reaches a fixed point.** Every program, whatever its code, has a first round
that changes nothing, after at most as many rounds as its code weighs. The loop stops there with
the code of that round: folding it again changes nothing, eliminating again drops nothing,
optimizing again gives the same program, and every variable or temporary that a copy or a
computation still gives a value to is live after it. -/
theorem optimize_settles (c : Code) :
    (∃ n ≤ weight c.types c.instrs,
      (rounds c.globals c.types c.instrs).length = n + 1 ∧
      (∀ k < n, (round c.globals c.types
        (afterRounds c.globals c.types k c.instrs)).isStable = false) ∧
      c.optimize.1 = { c with instrs := afterRounds c.globals c.types n c.instrs }) ∧
    fold c.globals c.types c.optimize.1.instrs = c.optimize.1.instrs ∧
    (eliminate c.globals c.optimize.1.instrs).kept = c.optimize.1.instrs ∧
    (eliminate c.globals c.optimize.1.instrs).dead = [] ∧
    c.optimize.1.optimize.1 = c.optimize.1 ∧
    ∀ (i : Nat) (instr : Instr) (name : Name), c.optimize.1.instrs[i]? = some instr →
      instr.result? = some (.name name) →
      ∃ live, (liveOut c.globals c.optimize.1.instrs)[i]? = some live ∧ name ∈ live := by
  obtain ⟨n, ends⟩ := rounds_ends c.globals c.types c.instrs
  have optimized : c.optimize.1 =
      { c with instrs := afterRounds c.globals c.types n c.instrs } := by
    simp [Code.optimize, ends.last]
  have settled : Settled c.globals c.types c.optimize.1.instrs := by
    rw [optimized]
    exact ends.settled
  refine ⟨⟨n, by have := ends.lighter; omega, ends.length, ends.changing, optimized⟩,
    settled.folded, settled.kept, settled.dead, ?_, fun i instr name => settled.live⟩
  apply optimize_of_settled
  rw [optimized]
  exact ends.settled

end BraceLang.Tac
