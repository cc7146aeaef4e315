import BraceLang.Check.Stmt
import BraceLang.Proofs.Numerals
import BraceLang.Proofs.Tac.FixedPoint
import BraceLang.Proofs.Tac.Folding
import BraceLang.Proofs.Tac.Literals
import BraceLang.Proofs.Tac.Optimization

/-!
The types of known constants. A folding pass records a constant for a variable as the type of the
variable keeps it: with a point for a `double`, as a truth value for a `bool`. What it cannot read
as a number it leaves as it is, so a literal of another kind is recorded as it was written.

The invariant of a pass has two halves (`Facts.Typed`): a recorded constant would not be converted
again, and it is either a numeral or the text of a literal. Both hold from round to round of an
optimization.

* **`Facts.Typed.step`**: an instruction keeps the invariant, and its folded form draws its
  constants from where it did;
* **`constants_typed`**: so every recorded constant has the type of its variable, unless it is the
  text of a literal that is no numeral.
-/

namespace BraceLang

namespace Tac

variable {K : String → Prop} {types : Assoc String Ty} {globals : List String}

/-! ### What folding does to texts -/

/-- The texts that folding makes have the property. -/
structure FoldsTo (K : String → Prop) : Prop where
  convert : ∀ {text} type, K text → K (convert text type)
  unary : ∀ {op a text}, Constant.foldUnary? op a = some text → K text
  binary : ∀ {op a b text}, Constant.foldBinary? op a b = some text → K text

/-- A conversion leaves a text as it is or makes it a numeral. -/
theorem convert_cases (text : String) (type : Option Ty) :
    convert text type = text ∨ ∃ k, Constant.parse? (convert text type) = some k := by
  match type with
  | none | some .void | some .int | some .char => exact .inl rfl
  | some .double =>
      simp only [convert]
      cases parsed : Constant.parse? text with
      | none => exact .inl rfl
      | some k =>
          cases written : (Constant.float k.toFloat).render? with
          | none => exact .inl (by simp [written])
          | some made =>
              have parsed := Constant.parse?_of_render? written
              exact .inr ⟨.float k.toFloat, by simpa [written] using parsed⟩
  | some .bool =>
      simp only [convert]
      cases parsed : Constant.parse? text with
      | none => exact .inl rfl
      | some k =>
          obtain ⟨made, written, read⟩ := Constant.exists_render?_truth k.isTrue
          exact .inr ⟨.truth k.isTrue, by simpa [written] using read⟩

/-- A constant is a numeral, or the text of a literal of the program. -/
def IsOrigin (p : Program) (text : String) : Prop :=
  (∃ k, Constant.parse? text = some k) ∨ ∃ l ∈ p.literals, l.text = text

theorem foldsTo_isOrigin (p : Program) : FoldsTo (IsOrigin p) where
  convert {text} type origin := by
    rcases convert_cases text type with same | numeral
    · rwa [same]
    · exact .inl numeral
  unary folded := .inl (Constant.exists_parse?_unary folded)
  binary folded := .inl (Constant.exists_parse?_binary folded)

/-! ### What a pass knows -/

/-- The constants that a pass knows have a property, and those of variables are as the types of
the variables keep them. -/
structure Facts.Typed (K : String → Prop) (types : Assoc String Ty) (f : Facts) : Prop where
  draws : ∀ {n text}, (n, text) ∈ f.constants.entries → K text
  settled : ∀ {x text}, (.var x, text) ∈ f.constants.entries →
    convert text (types.get? x) = text

namespace Facts.Typed

variable {f f' : Facts}

theorem empty : Typed K types {} := ⟨nofun, nofun⟩

theorem of_subset (typed : f.Typed K types)
    (subset : f'.constants.entries ⊆ f.constants.entries) : f'.Typed K types :=
  ⟨fun mem => typed.draws (subset mem), fun mem => typed.settled (subset mem)⟩

theorem forget (typed : f.Typed K types) (n : Name) : (f.forget n).Typed K types :=
  typed.of_subset fun _ mem => (Assoc.mem_erase.mp mem).1

theorem forgetGlobals (typed : f.Typed K types) : (f.forgetGlobals globals).Typed K types :=
  typed.of_subset fun _ mem => (mem_constants_forgetGlobals mem).1

theorem forgetTarget (typed : f.Typed K types) (result : Operand) :
    (f.forgetTarget result).Typed K types := by
  cases result with
  | const _ => exact typed
  | name n => exact typed.forget n
  | element array index => exact typed.of_subset (List.Subset.refl _)

theorem assigned (typed : f.Typed K types) {source result : Operand} (draws : source.Draws K)
    (settled : ∀ {text x}, source = .const text → result = .var x →
      convert text (types.get? x) = text) : (f.assigned source result).Typed K types := by
  have before := typed.forgetTarget result
  unfold Facts.assigned
  split
  · rename_i text n
    constructor
    · intro k other mem
      rcases Assoc.mem_set mem with old | new
      · exact before.draws old
      · obtain ⟨-, rfl⟩ := Prod.mk.inj new
        exact draws _ (List.mem_singleton_self _)
    · intro x other mem
      rcases Assoc.mem_set mem with old | new
      · exact before.settled old
      · obtain ⟨rfl, rfl⟩ := Prod.mk.inj new
        exact settled rfl rfl
  · exact before

theorem assigned_temp (typed : f.Typed K types) {source : Operand} (draws : source.Draws K)
    (t : Temp) : (f.assigned source (.temp t)).Typed K types :=
  typed.assigned draws fun _ isVar => by simp at isVar

theorem computed (typed : f.Typed K types) (c : Computation) (result : Operand) :
    (f.computed c result).Typed K types := by
  have before := typed.forgetTarget result
  unfold Facts.computed
  split
  · split
    · exact before
    · exact ⟨before.draws, before.settled⟩
  · exact before
  · exact before

theorem draws_substitute (typed : f.Typed K types) {o : Operand} (draws : o.Draws K) :
    (f.substitute o).Draws K := by
  induction o with
  | const text => exact draws
  | name n =>
      cases known : f.constants.get? n with
      | none => simpa [substitute, known] using draws
      | some text =>
          intro other mem
          obtain rfl : other = text := by simpa [substitute, known, Operand.constants] using mem
          exact typed.draws (Assoc.mem_of_get? known)
  | element array index ih => exact ih draws

theorem draws_substituteTarget (typed : f.Typed K types) {o : Operand} (draws : o.Draws K) :
    (f.substituteTarget o).Draws K := by
  cases o with
  | const _ => exact draws
  | name _ => exact draws
  | element array index => exact typed.draws_substitute draws

end Facts.Typed

theorem draws_convertSource (folds : FoldsTo K) (types : Assoc String Ty) {source : Operand}
    (draws : source.Draws K) (result : Operand) : (convertSource types source result).Draws K := by
  unfold convertSource
  split
  · intro other mem
    obtain rfl := List.mem_singleton.mp mem
    exact folds.convert _ (draws _ (List.mem_singleton_self _))
  · exact draws

theorem draws_value? (folds : FoldsTo K) {c : Computation} {text : String}
    (folded : c.value? = some text) : K text := by
  unfold Computation.value? at folded
  split at folded
  · exact folds.unary folded
  · exact folds.binary folded
  · contradiction

namespace Facts.Typed

variable {f : Facts}

/-- Folding a computation into a temporary. -/
theorem compute (typed : f.Typed K types) (folds : FoldsTo K) {c : Computation} (t : Temp)
    (draws : (c.into (.temp t)).Draws K) :
    (f.compute c (.temp t)).1.Draws K ∧ (f.compute c (.temp t)).2.Typed K types := by
  unfold Facts.compute Facts.copied
  split
  · rename_i text folded
    have made : (Operand.const text).Draws K := by
      intro other mem
      obtain rfl := List.mem_singleton.mp mem
      exact draws_value? folds folded
    exact ⟨Instr.draws_copy made (Operand.draws_name _), typed.assigned_temp made t⟩
  · split
    · rename_i holder _
      exact ⟨Instr.draws_copy (Operand.draws_name holder) (Operand.draws_name _),
        typed.assigned_temp (Operand.draws_name holder) t⟩
    · exact ⟨draws, typed.computed c (.temp t)⟩

/-- **A step of a pass keeps the invariant.** -/
theorem step (typed : f.Typed K types) (folds : FoldsTo K) (globals : List String) {i : Instr}
    (draws : i.Draws K) :
    (f.step globals types i).1.Draws K ∧ (f.step globals types i).2.Typed K types := by
  obtain ⟨draws, temps⟩ := draws
  cases i with
  | function _ _ => exact ⟨⟨draws, temps⟩, .empty⟩
  | label _ => exact ⟨⟨draws, temps⟩, .empty⟩
  | goto _ => exact ⟨⟨draws, temps⟩, .empty⟩
  | branch cond target =>
      have drawn := typed.draws_substitute (draws cond (by simp [Instr.operands]))
      exact ⟨Instr.draws_branch drawn target, .empty⟩
  | ret value =>
      refine ⟨Instr.draws_ret fun o mem => ?_, typed⟩
      obtain ⟨o, rfl, rfl⟩ := Option.map_eq_some_iff.mp mem
      exact typed.draws_substitute (draws o (by simp [Instr.operands]))
  | copy source result =>
      have drawn := typed.draws_substitute (draws source (by simp [Instr.operands]))
      have target := typed.draws_substituteTarget (draws result (by simp [Instr.operands]))
      have converted := draws_convertSource folds types drawn result
      refine ⟨Instr.draws_copy converted target, typed.assigned converted ?_⟩
      intro text x isConst isVar
      -- Only a variable becomes a variable, and its constant has just been converted.
      cases result with
      | const _ => contradiction
      | element _ _ => contradiction
      | name n =>
          obtain rfl : n = .var x := by simpa [Facts.substituteTarget] using isVar
          unfold convertSource at isConst
          split at isConst
          · rename_i same
            obtain rfl := Operand.const.inj isConst
            obtain rfl := Name.var.inj (Operand.name.inj same)
            exact convert_convert _ _
          · rename_i other
            exact absurd rfl (other _ _ isConst)
  | unary op operand result =>
      obtain ⟨t, rfl⟩ := temps
      have drawn := typed.draws_substitute (draws operand (by simp [Instr.operands]))
      exact typed.compute folds t (Instr.draws_unary op drawn t)
  | binary op left right result =>
      obtain ⟨t, rfl⟩ := temps
      have drawn := typed.draws_substitute (draws left (by simp [Instr.operands]))
      have drawn' := typed.draws_substitute (draws right (by simp [Instr.operands]))
      exact typed.compute folds t (Instr.draws_binary op drawn drawn' t)
  | call callee args result =>
      refine ⟨Instr.draws_call callee (fun o mem => ?_) result, (typed.forget _).forgetGlobals⟩
      obtain ⟨arg, given, rfl⟩ := List.mem_map.mp mem
      exact typed.draws_substitute (draws arg given)

end Facts.Typed

/-! ### Passes and rounds -/

theorem draws_foldFrom (folds : FoldsTo K) {code : List Instr} (draws : AllDraw K code) {f : Facts}
    (typed : f.Typed K types) : AllDraw K (foldFrom globals types f code) := by
  induction code generalizing f with
  | nil => exact draws
  | cons i rest ih =>
      obtain ⟨first, others⟩ := allDraw_cons.mp draws
      obtain ⟨folded, typed⟩ := typed.step folds globals first
      exact allDraw_cons.mpr ⟨folded, ih others typed⟩

theorem draws_afterRounds (folds : FoldsTo K) (n : Nat) {code : List Instr}
    (draws : AllDraw K code) : AllDraw K (afterRounds globals types n code) := by
  induction n generalizing code with
  | zero => exact draws
  | succ n ih =>
      rw [afterRounds_succ]
      have folded : AllDraw K (fold globals types code) := draws_foldFrom folds draws .empty
      exact ih fun i mem => folded i ((kept_sublist globals _).mem mem)

/-- At every point of a pass, what it knows has the types of its variables. -/
theorem typed_factsBefore (folds : FoldsTo K) {c : Code} (draws : AllDraw K c.instrs) (pc : Nat) :
    (c.factsBefore pc).Typed K c.types := by
  induction pc with
  | zero => exact .empty
  | succ pc ih =>
      cases at_pc : c.instrs[pc]? with
      | some i =>
          rw [factsBefore_succ at_pc]
          exact (ih.step folds c.globals (draws i (List.mem_of_getElem? at_pc))).2
      | none =>
          have same : c.factsBefore (pc + 1) = c.factsBefore pc := by
            simp [Code.factsBefore, List.take_add_one, at_pc]
          rw [same]
          exact ih

/-! ### The types of recorded constants -/

/-- The code of a program after so many rounds of optimization. -/
def codeAfter (p : Program) (n : Nat) : Code :=
  { p.lower.1 with instrs := afterRounds p.lower.1.globals p.lower.1.types n p.lower.1.instrs }

theorem draws_codeAfter (p : Program) (n : Nat) : AllDraw (IsOrigin p) (codeAfter p n).instrs :=
  draws_afterRounds (foldsTo_isOrigin p) n (draws_lower fun l mem => .inr ⟨l, mem, rfl⟩)

/-- The text of a literal of the program, but not a numeral that folding computes with. -/
def IsUnread (p : Program) (text : String) : Prop :=
  (∃ l ∈ p.literals, l.text = text) ∧ Constant.parse? text = none

theorem IsOrigin.unread {p : Program} {text : String} (origin : IsOrigin p text)
    (unread : Constant.parse? text = none) : IsUnread p text := by
  rcases origin with ⟨k, read⟩ | literal
  · simp [unread] at read
  · exact ⟨literal, unread⟩

/-- A numeral that a `double` keeps has a point. -/
theorem hasPoint_of_settled {text : String} {k : Constant} (read : Constant.parse? text = some k)
    (settled : convert text (some .double) = text) : hasPoint text = true := by
  cases k with
  | float x =>
      by_contra whole
      obtain ⟨n, -, made⟩ := Option.bind_eq_some_iff.mp
        ((if_neg whole).symm.trans (read : Constant.parse? text = some (.float x)))
      unfold Constant.ofInt? at made
      split at made <;> simp at made
  | int n =>
      obtain ⟨written, render⟩ := Constant.exists_render?_ofInt (Constant.fits_parse? read)
      have same : convert text (some .double) = written := by
        simp [convert, read, Constant.toFloat, render]
      rw [← settled, same]
      exact Constant.hasPoint_of_render? render

/-- A numeral that a `bool` keeps is a truth value. -/
theorem truth_of_settled {text : String} {k : Constant} (read : Constant.parse? text = some k)
    (settled : convert text (some .bool) = text) : text = "0" ∨ text = "1" := by
  have same : convert text (some .bool) = if k.isTrue then "1" else "0" := by
    have written : (Constant.truth k.isTrue).render? = some (if k.isTrue then "1" else "0") := by
      cases k.isTrue <;> rfl
    simp [convert, read, written]
  rw [← settled, same]
  cases k.isTrue
  · exact .inl rfl
  · exact .inr rfl

/-- **Recorded constants have the types of their variables**, except for literals that are not
read as numbers. At every point of every folding pass over the code of a program, a constant that
is recorded for a `double` has a point and one that is recorded for a `bool` is 0 or 1, unless it
is the text of a character, of a truth value or of a numeral that is out of range and stands in
the program. And it is what the variable holds there, in every run under an interpretation that
agrees with folding: storing it once more would not convert it. -/
theorem constants_typed (p : Program) (n pc : Nat) (x text : String)
    (known : ((codeAfter p n).factsBefore pc).constants.get? (.var x) = some text) :
    (p.lower.1.types.get? x = some .double → hasPoint text = true ∨ IsUnread p text) ∧
    (p.lower.1.types.get? x = some .bool → text = "0" ∨ text = "1" ∨ IsUnread p text) ∧
    ∀ {V : Type} [DecidableEq V] (I : Interpretation V), I.AgreesWithFolding →
      ∀ (shared : Store V) (entry : Entry V) (s : Config V) (i : Instr),
        Reaches ((codeAfter p n).step I) ((codeAfter p n).load I shared entry) s →
        s.pc = pc → (codeAfter p n).instrs[pc]? = some i → i.isEntry = false →
        s.memory.get p.lower.1.globals (.var x) = I.const text ∧
          I.keep (p.lower.1.types.get? x) (I.const text) = I.const text := by
  have draws := draws_codeAfter p n
  have typed := typed_factsBefore (foldsTo_isOrigin p) draws pc
  have entry := Assoc.mem_of_get? known
  have origin := typed.draws entry
  have settled : convert text (p.lower.1.types.get? x) = text := typed.settled entry
  refine ⟨fun isDouble => ?_, fun isBool => ?_, ?_⟩
  · rw [isDouble] at settled
    cases read : Constant.parse? text with
    | none => exact .inr (origin.unread read)
    | some k => exact .inl (hasPoint_of_settled read settled)
  · rw [isBool] at settled
    cases read : Constant.parse? text with
    | none => exact .inr (.inr (origin.unread read))
    | some k => exact (truth_of_settled read settled).imp_right .inl
  · intro V _ I agrees shared entry s i reached at_pc here inside
    have sound := reached.invariant (fun sound => sound.step agrees draws.computesTemps)
      (Code.Sound.load shared entry)
    obtain rfl := at_pc
    refine ⟨(sound.here i here inside).constants (Assoc.mem_of_get? known), ?_⟩
    rw [agrees.keep, settled]

/-- `double d = first; bool b = second; double e = d / (b + 1);` -/
def fromLiterals (first second : Literal) : Program where
  stmts :=
    [.declare {} ⟨⟨"double", {}⟩, ⟨"d", {}⟩, none, some (.literal {} first)⟩,
      .declare {} ⟨⟨"bool", {}⟩, ⟨"b", {}⟩, none, some (.literal {} second)⟩,
      .declare {} ⟨⟨"double", {}⟩, ⟨"e", {}⟩, none,
        some (.binary {} .div (.var {} "d")
          (.binary {} .add (.var {} "b") (.literal {} (.number "1"))))⟩]

/-- Numbers are recorded with the types of the variables, and later arithmetic is that of the
types. -/
theorem constants_typed_numbers :
    let p := fromLiterals (.number "3") (.number "7")
    let facts := (codeAfter p 0).factsBefore 2
    p.check.diagnostics.hasErrors = false ∧
      facts.constants.get? (.var "d") = some "3.0" ∧ facts.constants.get? (.var "b") = some "1" ∧
      (hasPoint "3.0" = true ∨ IsUnread p "3.0") ∧ ("1" = "0" ∨ "1" = "1" ∨ IsUnread p "1") ∧
      (codeAfter p 0).folded.instrs.map Instr.render =
        ["d = 3.0", "b = 1", "t0 = 2", "t1 = 1.5", "e = 1.5"] := by
  intro p facts
  have double : facts.constants.get? (.var "d") = some "3.0" := by decide +kernel
  have bool : facts.constants.get? (.var "b") = some "1" := by decide +kernel
  exact ⟨by decide +kernel, double, bool,
    (constants_typed p 0 2 "d" "3.0" double).1 (by decide +kernel),
    (constants_typed p 0 2 "b" "1" bool).2.1 (by decide +kernel), by decide +kernel⟩

/-- A character is recorded as it was written, for a `double` and for a `bool`. A division of the
`double` becomes one of two integers, and the truth value counts as the code of the character. -/
theorem characters_recorded :
    let p := fromLiterals (.char "'a'") (.char "'a'")
    let facts := (codeAfter p 0).factsBefore 2
    p.check.diagnostics.hasErrors = false ∧
      p.lower.1.types.get? "d" = some .double ∧ p.lower.1.types.get? "b" = some .bool ∧
      facts.constants.get? (.var "d") = some "'a'" ∧ facts.constants.get? (.var "b") = some "'a'" ∧
      hasPoint "'a'" = false ∧ "'a'" ≠ "0" ∧ "'a'" ≠ "1" ∧
      (codeAfter p 0).folded.instrs.map Instr.render =
        ["d = 'a'", "b = 'a'", "t0 = 'a' + 1", "t1 = 'a' / t0", "e = t1"] := by
  decide +kernel

end Tac

end BraceLang
