import BraceLang.Proofs.Tac.Folding

/-!
A folding pass and the code it folds, side by side. Both have the same number of instructions,
and from a place where a basic block begins they go through the same configurations: they are at
the same place after every step, with the same value in every variable, temporary and element
that is in reach of any activation, and they hand over the same values.

* **`sound_of_startsBlock`**: what a pass trusts is true wherever a block begins, whatever is in
  memory;
* **`handedOver_folded`**: where the facts hold, the folded instruction hands over the same values.
-/

namespace BraceLang.Tac

variable {V : Type} {I : Interpretation V} {c : Code}

/-! ### Values that are handed over -/

/-- The values that an instruction gives away: those of the arguments of a call, or the value
that is returned. -/
def Instr.handsOver (I : Interpretation V) (globals : List String) (m : Memory V) :
    Instr → List V
  | .call _ args _ => args.map (·.eval I globals m)
  | .ret value => value.toList.map (·.eval I globals m)
  | .function .. | .label _ | .goto _ | .branch .. | .copy .. | .unary .. | .binary .. => []

/-- The values that the machine gives away with its next step. -/
def Code.handedOver (c : Code) (I : Interpretation V) (s : Config V) : List V :=
  (c.instrs[s.pc]?.map (·.handsOver I c.globals s.memory)).getD []

/-- Looking up operands does not change the values that are handed over. -/
theorem handsOver_step {f : Facts} {m : Memory V} (hold : f.Hold I c.globals m) (i : Instr) :
    (f.step c.globals c.types i).1.handsOver I c.globals m = i.handsOver I c.globals m := by
  cases i with
  | call callee args result => simp [Facts.step, Instr.handsOver, hold.substitute]
  | ret value => cases value <;> simp [Facts.step, Instr.handsOver, hold.substitute]
  | unary op operand result =>
      rcases f.compute_fst (.unary op (f.substitute operand)) result with ⟨source, made⟩ | made <;>
        simp [Facts.step, made, Computation.into, Instr.handsOver]
  | binary op left right result =>
      rcases f.compute_fst (.binary op (f.substitute left) (f.substitute right)) result with
        ⟨source, made⟩ | made <;>
        simp [Facts.step, made, Computation.into, Instr.handsOver]
  | _ => rfl

theorem handedOver_folded {s : Config V} (sound : c.Sound I s) :
    c.folded.handedOver I s = c.handedOver I s := by
  simp only [Code.handedOver, Code.folded, fold, getElem?_foldFrom]
  cases at_pc : c.instrs[s.pc]? with
  | none => rfl
  | some i =>
      cases entry : i.isEntry with
      | true => cases i <;> simp [Instr.isEntry] at entry <;> rfl
      | false => exact handsOver_step (sound.here i at_pc entry) i

/-! ### Where a block begins -/

/-- A basic block begins at the place: it is the first one, it has a label or a function marker,
or it comes after an instruction that ends a block. The place behind the last instruction counts
too, as there is nothing left to run. -/
def Code.StartsBlock (c : Code) (pc : Nat) : Prop :=
  pc = 0 ∨ (∀ i, c.instrs[pc]? = some i → i.isEntry = true) ∨
    ∃ j i, pc = j + 1 ∧ c.instrs[j]? = some i ∧ i.isBoundary = true

/-- A pass knows nothing behind an instruction that ends a block. -/
theorem Facts.step_boundary (f : Facts) (globals : List String) (types : Assoc String Ty)
    {i : Instr} (boundary : i.isBoundary = true) : (f.step globals types i).2 = {} := by
  cases i <;> first | rfl | contradiction

/-- What a pass trusts is true where a block begins. -/
theorem sound_of_startsBlock {s : Config V} (alone : s.callers = [])
    (starts : c.StartsBlock s.pc) : c.Sound I s := by
  refine ⟨?_, by simp [alone]⟩
  rcases starts with first | entry | ⟨j, i, behind, at_j, boundary⟩
  · rw [first]
    exact fun _ _ _ => Facts.Hold.empty _
  · intro i at_pc inside
    rw [entry i at_pc] at inside
    contradiction
  · rw [behind]
    refine trusts_succ at_j ?_
    rw [Facts.step_boundary _ _ _ boundary]
    exact Facts.Hold.empty _

/-- A run starts where a block begins. -/
theorem startsBlock_load (c : Code) (I : Interpretation V) (shared : Store V) (entry : Entry V) :
    c.StartsBlock (c.load I shared entry).pc := by
  cases entry with
  | top => exact .inl rfl
  | function name args =>
      simp only [Code.load]
      split
      · rename_i start params found
        obtain ⟨j, behind, marker⟩ := getElem?_of_findFunction? found
        exact .inr (.inr ⟨j, _, behind, marker, rfl⟩)
      · exact .inr (.inl fun i at_end => by simp at at_end)

/-! ### Side by side -/

variable [DecidableEq V]

/-- **A folding pass goes in lock step with its code.** The pass keeps the number of instructions.
From the same configuration, at the beginning of any basic block and with any values in memory,
the folded code is in the same configuration as the code after every number of steps: at the same
place, with the same memory in every activation. Each next step has the same result and hands over
the same arguments or the same returned value. -/
theorem fold_lockStep (c : Code) (I : Interpretation V) (temps : ComputesTemps c.instrs)
    (agrees : I.AgreesWithFolding) :
    c.folded.instrs.length = c.instrs.length ∧
      ∀ s : Config V, s.callers = [] → c.StartsBlock s.pc → ∀ k,
        stateAfter (c.folded.step I) k s = stateAfter (c.step I) k s ∧
        ∀ t, stateAfter (c.step I) k s = some t →
          c.folded.step I t = c.step I t ∧ c.folded.handedOver I t = c.handedOver I t := by
  refine ⟨length_foldFrom .., fun s alone starts k => ?_⟩
  obtain ⟨together, sound⟩ := stateAfter_eq (P := c.Sound I) (step_folded agrees temps)
    (fun sound => sound.step agrees temps) k (sound_of_startsBlock alone starts)
  exact ⟨together, fun t reached =>
    ⟨step_folded agrees temps (sound t reached), handedOver_folded (sound t reached)⟩⟩

/-- A function that stores a product in an element, computes it again from the constant, and
passes it on to the outside world. -/
def scaled : Code where
  globals := ["g", "v"]
  types := ⟨[("g", .int), ("v", .int), ("n", .int)]⟩
  instrs := [
    .function "f" ["n"],
    .copy (.const "2") (.var "n"),
    .binary .mul (.var "g") (.var "n") (.temp ⟨0⟩),
    .copy (.temp ⟨0⟩) (.element "v" (.var "n")),
    .binary .mul (.var "g") (.const "2") (.temp ⟨1⟩),
    .call "print" [.var "n", .temp ⟨1⟩] ⟨2⟩,
    .ret (some (.element "v" (.var "n")))]

theorem scaled_lockStep :
    ComputesTemps scaled.instrs ∧ Interpretation.textual.AgreesWithFolding ∧
      scaled.folded.instrs ≠ scaled.instrs ∧
      scaled.folded.instrs.length = scaled.instrs.length ∧
      let s := scaled.load .textual ⟨fun _ => "21", fun _ _ => "0"⟩ (.function "f" ["7"])
      s.callers = [] ∧ scaled.StartsBlock s.pc ∧
      ∃ t, stateAfter (scaled.step .textual) 4 s = some t ∧
        stateAfter (scaled.folded.step .textual) 4 s = some t ∧
        scaled.handedOver .textual t = ["2", "42"] ∧
        scaled.folded.handedOver .textual t = ["2", "42"] := by
  have temps : ComputesTemps scaled.instrs := by
    intro i mem
    simp only [scaled, List.mem_cons, List.not_mem_nil, or_false] at mem
    rcases mem with rfl | rfl | rfl | rfl | rfl | rfl | rfl <;> simp [Instr.computesTemp]
  obtain ⟨length, alike⟩ :=
    fold_lockStep scaled .textual temps Interpretation.agreesWithFolding_textual
  have starts := startsBlock_load scaled .textual ⟨fun _ => "21", fun _ _ => "0"⟩
    (.function "f" ["7"])
  obtain ⟨same, last⟩ := alike _ rfl starts 4
  refine ⟨temps, Interpretation.agreesWithFolding_textual, by decide +kernel, length, rfl, starts,
    _, rfl, same.trans rfl, ?_, ?_⟩
  · decide +kernel
  · rw [(last _ rfl).2]
    decide +kernel

end BraceLang.Tac
