import BraceLang.Journal
import BraceLang.Tac.Facts

/-!
Folding: one pass over the code that puts known constants in the place of names, computes what
can be computed, and copies what has been computed before. It works inside basic blocks; what
is known is forgotten wherever control may come from elsewhere.

Main statement: an instruction that folding changes becomes *lighter* (`weight_step`), so
that folding cannot go on for ever.
-/

namespace BraceLang.Tac

namespace Facts

variable (globals : List String) (types : Assoc String Ty)

/-- Folds a copy whose operands have been looked up. -/
def copied (f : Facts) (source result : Operand) : Instr × Facts :=
  (.copy source result, f.assigned source result)

/-- Folds a computation whose operands have been looked up: it becomes a copy of its
constant value or of a name that holds its value, or it is made. -/
def compute (f : Facts) (c : Computation) (result : Operand) : Instr × Facts :=
  match c.value? with
  | some text => f.copied (.const text) result
  | none =>
      match f.holders.get? c with
      | some holder => f.copied (.name holder) result
      | none => (c.into result, f.computed c result)

/-- Folds one instruction and gives what is known after it. -/
def step (f : Facts) : Instr → Instr × Facts
  | i@(.function ..) | i@(.label _) | i@(.goto _) => (i, {})
  | .branch cond target => (.branch (f.substitute cond) target, {})
  | .ret value => (.ret (value.map f.substitute), f)
  | .copy source result =>
      f.copied (convertSource types (f.substitute source) result) (f.substituteTarget result)
  | .unary op operand result => f.compute (.unary op (f.substitute operand)) result
  | .binary op left right result =>
      f.compute (.binary op (f.substitute left) (f.substitute right)) result
  | .call callee args result =>
      (.call callee (args.map f.substitute) result, (f.forget (.temp result)).forgetGlobals globals)

end Facts

/-- Folds code that starts with the given facts. -/
def foldFrom (globals : List String) (types : Assoc String Ty) :
    Facts → List Instr → List Instr
  | _, [] => []
  | f, i :: rest =>
      let (i', f') := f.step globals types i
      i' :: foldFrom globals types f' rest

/-- One folding pass. -/
def fold (globals : List String) (types : Assoc String Ty) (code : List Instr) : List Instr :=
  foldFrom globals types {} code

/-- What the journal gets for a folding pass: each instruction that changed. -/
def foldEvents (before after : List Instr) : List Event :=
  (before.zip after).filterMap fun (i, j) =>
    if i = j then none
    else some ⟨.trace, "rewrite `" ++ i.render ++ "` => `" ++ j.render ++ "`"⟩

/-! ### Folding makes code lighter -/

/-- A copy is not settled while its constant would still be converted. -/
def unsettled (types : Assoc String Ty) (source result : Operand) : Nat :=
  if convertSource types source result = source then 0 else 1

/-- What an instruction weighs: more for each name it reads, for a computation, and for a
constant that is still to be converted. -/
def Instr.weight (types : Assoc String Ty) : Instr → Nat
  | .function .. | .label _ | .goto _ => 1
  | .branch cond _ => 1 + cond.names.length
  | .ret value => 1 + (value.elim [] Operand.names).length
  | .copy source result =>
      1 + source.names.length + result.names.length + unsettled types source result
  | .unary _ operand result => 3 + operand.names.length + result.names.length
  | .binary _ left right result =>
      3 + left.names.length + right.names.length + result.names.length
  | .call _ args _ => 1 + (args.flatMap Operand.names).length

/-- What a list of instructions weighs. -/
def weight (types : Assoc String Ty) : List Instr → Nat
  | [] => 0
  | i :: rest => i.weight types + weight types rest

section Weight

variable (globals : List String) (types : Assoc String Ty)

/-- Substitution leaves an operand alone, or the operand reads fewer names. -/
theorem substitute_eq_or_lt (f : Facts) (o : Operand) :
    f.substitute o = o ∨ (f.substitute o).names.length < o.names.length := by
  induction o with
  | const _ => exact .inl rfl
  | name n =>
      cases h : f.constants.get? n with
      | none => exact .inl (by simp [Facts.substitute, h])
      | some _ => exact .inr (by simp [Facts.substitute, h, Operand.names])
  | element array index ih =>
      rcases ih with ih | ih
      · exact .inl (by simp [Facts.substitute, ih])
      · exact .inr (by simpa [Facts.substitute, Operand.names] using ih)

theorem length_names_substitute_le (f : Facts) (o : Operand) :
    (f.substitute o).names.length ≤ o.names.length := by
  rcases substitute_eq_or_lt f o with h | h
  · exact Nat.le_of_eq (congrArg (·.names.length) h)
  · exact Nat.le_of_lt h

theorem substituteTarget_eq_or_lt (f : Facts) (o : Operand) :
    f.substituteTarget o = o ∨ (f.substituteTarget o).names.length < o.names.length := by
  cases o with
  | const _ => exact .inl rfl
  | name _ => exact .inl rfl
  | element array index => exact substitute_eq_or_lt f (.element array index)

@[simp] theorem names_convertSource (source result : Operand) :
    (convertSource types source result).names = source.names := by
  unfold convertSource
  split <;> rfl

theorem unsettled_le_one (source result : Operand) : unsettled types source result ≤ 1 := by
  unfold unsettled
  split <;> omega

theorem unsettled_eq_zero_iff {types : Assoc String Ty} {source result : Operand} :
    unsettled types source result = 0 ↔ convertSource types source result = source := by
  unfold unsettled
  split <;> simp_all

/-- A converted constant is settled, also once the index of its destination has been looked up. -/
theorem unsettled_convertSource (f : Facts) (source result : Operand) :
    unsettled types (convertSource types source result) (f.substituteTarget result) = 0 := by
  rw [unsettled_eq_zero_iff]
  cases source with
  | name _ => rfl
  | element _ _ => rfl
  | const text =>
      match result with
      | .const _ | .temp _ | .element _ _ => rfl
      | .var x => simp [convertSource, Facts.substituteTarget, convert_convert]

/-- Computing makes an instruction lighter, or makes it with the operands it is given. -/
theorem weight_compute (f : Facts) (c : Computation) (result : Operand) :
    (f.compute c result).1 = c.into result ∨
      (f.compute c result).1.weight types < 3 + result.names.length := by
  unfold Facts.compute Facts.copied
  have one := unsettled_le_one types
  split
  · rename_i text _
    have := one (.const text) result
    exact .inr (by simp only [Instr.weight, Operand.names, List.length_nil]; omega)
  · split
    · rename_i holder _
      have : unsettled types (.name holder) result = 0 := unsettled_eq_zero_iff.mpr rfl
      exact .inr (by simp only [Instr.weight, this, Operand.names, List.length_cons,
        List.length_nil]; omega)
    · exact .inl rfl

/-- Looking up the operands of a list leaves it alone, or it reads fewer names. -/
theorem map_substitute_eq_or_lt (f : Facts) (os : List Operand) :
    os.map f.substitute = os ∨
      ((os.map f.substitute).flatMap Operand.names).length <
        (os.flatMap Operand.names).length := by
  induction os with
  | nil => exact .inl rfl
  | cons o os ih =>
      have le := length_names_substitute_le f o
      rcases substitute_eq_or_lt f o with h | h <;> rcases ih with ih | ih
      · exact .inl (by simp only [List.map_cons, h, ih])
      · exact .inr (by simp only [List.map_cons, List.flatMap_cons, List.length_append]; omega)
      · exact .inr (by simp only [List.map_cons, List.flatMap_cons, List.length_append, ih]; omega)
      · exact .inr (by simp only [List.map_cons, List.flatMap_cons, List.length_append]; omega)

/-- **Folding lightens what it changes.** -/
theorem weight_step (f : Facts) (i : Instr) :
    (f.step globals types i).1 = i ∨
      (f.step globals types i).1.weight types < i.weight types := by
  cases i with
  | function _ _ => exact .inl rfl
  | label _ => exact .inl rfl
  | goto _ => exact .inl rfl
  | branch cond target =>
      rcases substitute_eq_or_lt f cond with h | h
      · exact .inl (by simp only [Facts.step, h])
      · exact .inr (by simp only [Facts.step, Instr.weight]; omega)
  | ret value =>
      cases value with
      | none => exact .inl rfl
      | some o =>
          rcases substitute_eq_or_lt f o with h | h
          · exact .inl (by simp only [Facts.step, Option.map_some, h])
          · exact .inr (by simp only [Facts.step, Option.map_some, Instr.weight,
              Option.elim_some]; omega)
  | copy source result =>
      have settled := unsettled_convertSource types f (f.substitute source) result
      rcases substitute_eq_or_lt f source with hs | hs
      · rcases substituteTarget_eq_or_lt f result with hr | hr
        · rw [hs, hr] at settled
          by_cases hc : convertSource types source result = source
          · exact .inl (by simp only [Facts.step, Facts.copied, hs, hr, hc])
          · have : unsettled types source result = 1 := by simp [unsettled, hc]
            exact .inr (by simp only [Facts.step, Facts.copied, hs, hr, Instr.weight, settled,
              names_convertSource]; omega)
        · rw [hs] at settled
          exact .inr (by simp only [Facts.step, Facts.copied, hs, Instr.weight, settled,
            names_convertSource]; omega)
      · have : (f.substituteTarget result).names.length ≤ result.names.length := by
          rcases substituteTarget_eq_or_lt f result with hr | hr
          · exact Nat.le_of_eq (congrArg (·.names.length) hr)
          · exact Nat.le_of_lt hr
        exact .inr (by simp only [Facts.step, Facts.copied, Instr.weight, settled,
          names_convertSource]; omega)
  | unary op operand result =>
      rcases weight_compute types f (.unary op (f.substitute operand)) result with h | h
      · rcases substitute_eq_or_lt f operand with ho | ho
        · exact .inl (by rw [Facts.step, h, ho, Computation.into])
        · exact .inr (by rw [Facts.step, h]; simp only [Computation.into, Instr.weight]; omega)
      · exact .inr (by rw [Facts.step, Instr.weight]; omega)
  | binary op left right result =>
      have := length_names_substitute_le f left
      have := length_names_substitute_le f right
      rcases weight_compute types f (.binary op (f.substitute left) (f.substitute right))
        result with h | h
      · rcases substitute_eq_or_lt f left with hl | hl <;>
          rcases substitute_eq_or_lt f right with hr | hr
        · exact .inl (by rw [Facts.step, h, hl, hr, Computation.into])
        all_goals
          exact .inr (by rw [Facts.step, h]; simp only [Computation.into, Instr.weight]; omega)
      · exact .inr (by rw [Facts.step, Instr.weight]; omega)
  | call callee args result =>
      rcases map_substitute_eq_or_lt f args with h | h
      · exact .inl (by simp only [Facts.step, h])
      · exact .inr (by simp only [Facts.step, Instr.weight]; omega)

/-- A folding pass changes nothing or makes the code lighter. -/
theorem foldFrom_eq_or_weight_lt (f : Facts) (code : List Instr) :
    foldFrom globals types f code = code ∨
      weight types (foldFrom globals types f code) < weight types code := by
  induction code generalizing f with
  | nil => exact .inl rfl
  | cons i rest ih =>
      have head := weight_step globals types f i
      have tail := ih (f.step globals types i).2
      simp only [foldFrom, weight] at tail ⊢
      rcases head with hi | hi <;> rcases tail with hr | hr
      · exact .inl (by rw [hi, hr])
      · exact .inr (by rw [hi]; omega)
      · exact .inr (by rw [hr]; omega)
      · exact .inr (by omega)

end Weight

end BraceLang.Tac
