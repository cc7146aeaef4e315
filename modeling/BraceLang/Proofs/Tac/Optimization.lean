import BraceLang.Proofs.Tac.Elimination
import BraceLang.Proofs.Tac.Folding
import BraceLang.Tac.Optimize

/-!
Optimization keeps the meaning of code. A round folds and eliminates, and both keep what the
code does; so does any number of rounds.

The interpretation of constants, operators and conversions is arbitrary, as long as it agrees
with what folding computes (`Interpretation.AgreesWithFolding`). `Interpretation.textual`, in
which a value is the text it is written with, is one that does.
-/

namespace BraceLang.Tac

variable {V : Type} [DecidableEq V] {I : Interpretation V}

theorem ComputesTemps.kept {globals : List String} {code : List Instr}
    (temps : ComputesTemps code) : ComputesTemps (eliminate globals code).kept :=
  fun i mem => temps i ((kept_sublist globals code).mem mem)

/-- A round keeps what code does. -/
theorem round_stops_iff (agrees : I.AgreesWithFolding) {c : Code}
    (temps : ComputesTemps c.instrs) (shared : Store V) (entry : Entry V) (o : Outcome V) :
    Stops (c.step I) (c.load I shared entry) o ↔
      Stops (c.folded.eliminated.step I) (c.folded.eliminated.load I shared entry) o :=
  (fold_stops_iff agrees temps shared entry o).trans
    (eliminate_stops_iff (computesTemps_foldFrom temps) shared entry o)

/-- The code that the last round leaves does what the code did before the first one. -/
theorem rounds_stops_iff (agrees : I.AgreesWithFolding) (globals : List String)
    (types : Assoc String Ty) (code : List Instr) (temps : ComputesTemps code) :
    ∃ last, (rounds globals types code).getLast?.map Round.after = some last ∧
      ∀ shared entry o,
        Stops (Code.step ⟨globals, types, code⟩ I) (Code.load ⟨globals, types, code⟩ I shared entry)
            o ↔
          Stops (Code.step ⟨globals, types, last⟩ I)
            (Code.load ⟨globals, types, last⟩ I shared entry) o := by
  induction code using rounds.induct globals types with
  | case1 code r stable =>
      refine ⟨r.after, by rw [rounds]; simp [r, stable], fun shared entry o => ?_⟩
      exact round_stops_iff agrees (c := ⟨globals, types, code⟩) temps shared entry o
  | case2 code r unstable ih =>
      obtain ⟨last, isLast, same⟩ := ih (computesTemps_foldFrom temps).kept
      refine ⟨last, ?_, fun shared entry o => ?_⟩
      · rw [rounds]
        cases others : rounds globals types r.after with
        | nil => simp [others] at isLast
        | cons r' rest =>
            rw [others] at isLast
            simpa [r, unstable, others] using isLast
      · exact (round_stops_iff agrees (c := ⟨globals, types, code⟩) temps shared entry o).trans
          (same shared entry o)

/-- **Optimization preserves meaning.** From the same globals, code and its optimized form both
go on for ever, or both stop in the same way: with the same result, after the same calls of the
outside world with the same arguments and globals, and leaving the same globals. This holds of
the top-level code and of every function with any arguments. -/
theorem optimize_sameRuns (c : Code) (temps : ComputesTemps c.instrs)
    (agrees : I.AgreesWithFolding) (shared : Store V) (entry : Entry V) :
    SameRuns (c.step I) (c.load I shared entry)
      (c.optimize.1.step I) (c.optimize.1.load I shared entry) := by
  refine SameRuns.of_stops_iff fun o => ?_
  obtain ⟨last, isLast, same⟩ := rounds_stops_iff agrees c.globals c.types c.instrs temps
  have optimized : c.optimize.1 = ⟨c.globals, c.types, last⟩ := by
    simp [Code.optimize, isLast]
  rw [optimized]
  exact same shared entry o

/-- A loop that counts a global down, with a computation that nobody uses, a constant that is
known in the loop, and a call that leaves the program. -/
def countdown : Code where
  globals := ["n"]
  types := ⟨[("n", .int), ("step", .int)]⟩
  instrs := [
    .copy (.const "3") (.var "n"),
    .label ⟨0⟩,
    .copy (.const "1") (.var "step"),
    .binary .mul (.var "n") (.var "step") (.temp ⟨0⟩),
    .binary .sub (.var "n") (.var "step") (.temp ⟨1⟩),
    .copy (.temp ⟨1⟩) (.var "n"),
    .call "print" [.var "n"] ⟨2⟩,
    .branch (.var "n") ⟨0⟩,
    .ret (some (.var "n"))]

theorem countdown_sameRuns :
    ComputesTemps countdown.instrs ∧ Interpretation.textual.AgreesWithFolding ∧
      SameRuns (countdown.step .textual) (countdown.load .textual Interpretation.textual.blank .top)
        (countdown.optimize.1.step .textual)
        (countdown.optimize.1.load .textual Interpretation.textual.blank .top) := by
  have temps : ComputesTemps countdown.instrs := by
    intro i mem
    simp only [countdown, List.mem_cons, List.not_mem_nil, or_false] at mem
    rcases mem with rfl | rfl | rfl | rfl | rfl | rfl | rfl | rfl | rfl <;>
      simp [Instr.computesTemp]
  exact ⟨temps, Interpretation.agreesWithFolding_textual,
    optimize_sameRuns countdown temps Interpretation.agreesWithFolding_textual _ _⟩

end BraceLang.Tac
