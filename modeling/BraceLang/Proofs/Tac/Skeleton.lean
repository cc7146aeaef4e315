import BraceLang.Proofs.Tac.Elimination
import BraceLang.Proofs.Tac.FixedPoint
import BraceLang.Proofs.Tac.Folding

/-!
Optimization does not touch the skeleton of code: function markers, labels, jumps, calls, returns
and stores into elements. It only looks up what they read. What else it leaves gives a value to
the destination that it had before, in the order that it had before.

* **`Thins`**: how code and its optimized form are related, instruction by instruction;
* **`thins_foldFrom`**, **`thins_kept`**: folding and elimination relate code so, and so does any
  number of rounds;
* **`optimize_keepsSkeleton`**: what follows for the skeleton and for the rest.
-/

namespace BraceLang.Tac

/-! ### The skeleton -/

/-- Control, calls, and stores into elements. -/
def Instr.isSkeleton (i : Instr) : Bool :=
  match i.result? with
  | none | some (.element ..) => true
  | some (.const _) | some (.name _) => false

/-- Names in an operand have been replaced by constants. -/
inductive Operand.LooksUp : Operand → Operand → Prop where
  | same (o : Operand) : LooksUp o o
  | constant (n : Name) (text : String) : LooksUp (.name n) (.const text)
  | element (array : String) {index index' : Operand} :
      LooksUp index index' → LooksUp (.element array index) (.element array index')

/-- What an instruction of the skeleton may become: one of the same kind with the same name, label,
number of arguments, result and array, whose operands have been looked up. A computation that is
stored in an element may become a copy of a constant or of a name. -/
inductive Instr.Keeps : Instr → Instr → Prop where
  | function (name : String) (params : List String) :
      Keeps (.function name params) (.function name params)
  | label (l : Label) : Keeps (.label l) (.label l)
  | goto (target : Label) : Keeps (.goto target) (.goto target)
  | branch {cond cond' : Operand} (target : Label) :
      cond.LooksUp cond' → Keeps (.branch cond target) (.branch cond' target)
  | call (callee : String) {args args' : List Operand} (result : Temp) :
      List.Forall₂ Operand.LooksUp args args' →
      Keeps (.call callee args result) (.call callee args' result)
  | ret {value value' : Option Operand} :
      Option.Rel Operand.LooksUp value value' → Keeps (.ret value) (.ret value')
  | copy {source source' : Operand} (array : String) {index index' : Operand} :
      source.LooksUp source' → index.LooksUp index' →
      Keeps (.copy source (.element array index)) (.copy source' (.element array index'))
  | unary (op : UnOp) {operand operand' : Operand} (array : String) (index : Operand) :
      operand.LooksUp operand' →
      Keeps (.unary op operand (.element array index)) (.unary op operand' (.element array index))
  | binary (op : BinOp) {left left' right right' : Operand} (array : String) (index : Operand) :
      left.LooksUp left' → right.LooksUp right' →
      Keeps (.binary op left right (.element array index))
        (.binary op left' right' (.element array index))
  | unaryCopied (op : UnOp) (operand : Operand) (array : String) {index index' source : Operand} :
      source.isConst = true ∨ source.isName = true → index.LooksUp index' →
      Keeps (.unary op operand (.element array index)) (.copy source (.element array index'))
  | binaryCopied (op : BinOp) (left right : Operand) (array : String)
      {index index' source : Operand} :
      source.isConst = true ∨ source.isName = true → index.LooksUp index' →
      Keeps (.binary op left right (.element array index)) (.copy source (.element array index'))

/-- What an instruction may become: an instruction of the skeleton is kept, and any other one still
gives a value to its destination. -/
inductive Instr.Becomes (i j : Instr) : Prop where
  | keeps : i.isSkeleton = true → j.isSkeleton = true → i.Keeps j → Becomes i j
  | gives : i.isSkeleton = false → j.result? = i.result? → Becomes i j

/-- The instructions become those of the second list, one after the other; only such as give a
value to a name are left out. -/
inductive Thins : List Instr → List Instr → Prop where
  | nil : Thins [] []
  | keep {i j : Instr} {code code' : List Instr} :
      i.Becomes j → Thins code code' → Thins (i :: code) (j :: code')
  | drop {i : Instr} {n : Name} {code code' : List Instr} :
      i.result? = some (.name n) → Thins code code' → Thins (i :: code) code'

/-! ### Looking up, again and again -/

namespace Operand.LooksUp

variable {o o' o'' : Operand}

theorem trans (first : o.LooksUp o') (second : o'.LooksUp o'') : o.LooksUp o'' := by
  induction first generalizing o'' with
  | same o => exact second
  | constant n text =>
      cases second
      exact .constant n text
  | element array _ ih =>
      cases second with
      | same => exact .element array (ih (.same _))
      | element _ inside => exact .element array (ih inside)

/-- What stands for a constant or a name is a constant or a name. -/
theorem atom (looked : o.LooksUp o') (atom : o.isConst = true ∨ o.isName = true) :
    o'.isConst = true ∨ o'.isName = true := by
  cases looked with
  | same => exact atom
  | constant n text => exact .inl rfl
  | element => simp [isConst, isName, name?] at atom

end Operand.LooksUp

theorem looksUp_substitute (f : Facts) (o : Operand) : o.LooksUp (f.substitute o) := by
  induction o with
  | const text => exact .same _
  | name n =>
      cases known : f.constants.get? n with
      | none => simpa [Facts.substitute, known] using .same _
      | some text => simpa [Facts.substitute, known] using .constant n text
  | element array index ih => exact .element array ih

theorem forall₂_looksUp_trans {os os' os'' : List Operand}
    (first : List.Forall₂ Operand.LooksUp os os') (second : List.Forall₂ Operand.LooksUp os' os'') :
    List.Forall₂ Operand.LooksUp os os'' := by
  induction first generalizing os'' with
  | nil => exact second
  | cons head _ ih =>
      cases second with
      | cons head' rest' => exact .cons (head.trans head') (ih rest')

theorem rel_looksUp_trans {v v' v'' : Option Operand} (first : Option.Rel Operand.LooksUp v v')
    (second : Option.Rel Operand.LooksUp v' v'') : Option.Rel Operand.LooksUp v v'' := by
  cases first with
  | none => exact second
  | some looked =>
      cases second with
      | some looked' => exact .some (looked.trans looked')

namespace Instr

variable {i j k : Instr}

theorem Keeps.trans (first : i.Keeps j) (second : j.Keeps k) : i.Keeps k := by
  cases first with
  | function | label | goto => exact second
  | branch target looked =>
      cases second with
      | branch _ looked' => exact .branch target (looked.trans looked')
  | call callee result looked =>
      cases second with
      | call _ _ looked' => exact .call callee result (forall₂_looksUp_trans looked looked')
  | ret looked =>
      cases second with
      | ret looked' => exact .ret (rel_looksUp_trans looked looked')
  | copy array looked index =>
      cases second with
      | copy _ looked' index' => exact .copy array (looked.trans looked') (index.trans index')
  | unary op array index looked =>
      cases second with
      | unary _ _ _ looked' => exact .unary op array index (looked.trans looked')
      | unaryCopied _ _ _ atom index' => exact .unaryCopied op _ array atom index'
  | binary op array index looked looked' =>
      cases second with
      | binary _ _ _ more more' =>
          exact .binary op array index (looked.trans more) (looked'.trans more')
      | binaryCopied _ _ _ _ atom index' => exact .binaryCopied op _ _ array atom index'
  | unaryCopied op operand array atom index =>
      cases second with
      | copy _ looked index' =>
          exact .unaryCopied op operand array (looked.atom atom) (index.trans index')
  | binaryCopied op left right array atom index =>
      cases second with
      | copy _ looked index' =>
          exact .binaryCopied op left right array (looked.atom atom) (index.trans index')

theorem Keeps.refl (skeleton : i.isSkeleton = true) : i.Keeps i := by
  cases i with
  | function name params => exact .function name params
  | label l => exact .label l
  | goto target => exact .goto target
  | branch cond target => exact .branch target (.same cond)
  | call callee args result => exact .call callee result (List.forall₂_same.mpr fun o _ => .same o)
  | ret value => exact .ret (by cases value <;> constructor; exact .same _)
  | copy source result =>
      cases result with
      | element array index => exact .copy array (.same source) (.same index)
      | _ => simp [isSkeleton, result?] at skeleton
  | unary op operand result =>
      cases result with
      | element array index => exact .unary op array index (.same operand)
      | _ => simp [isSkeleton, result?] at skeleton
  | binary op left right result =>
      cases result with
      | element array index => exact .binary op array index (.same left) (.same right)
      | _ => simp [isSkeleton, result?] at skeleton

theorem isSkeleton_congr (same : j.result? = i.result?) : j.isSkeleton = i.isSkeleton := by
  simp only [isSkeleton, same]

theorem Becomes.refl (i : Instr) : i.Becomes i := by
  cases skeleton : i.isSkeleton with
  | true => exact .keeps skeleton skeleton (.refl skeleton)
  | false => exact .gives skeleton rfl

/-- An instruction and what it becomes belong both to the skeleton, or neither does. -/
theorem Becomes.isSkeleton_eq (becomes : i.Becomes j) : j.isSkeleton = i.isSkeleton := by
  cases becomes with
  | keeps first second _ => rw [first, second]
  | gives _ same => exact isSkeleton_congr same

theorem Becomes.trans (first : i.Becomes j) (second : j.Becomes k) : i.Becomes k := by
  have alike := first.isSkeleton_eq
  cases first with
  | keeps inside inside' keeps =>
      cases second with
      | keeps _ inside'' keeps' => exact .keeps inside inside'' (keeps.trans keeps')
      | gives outside _ => simp [inside'] at outside
  | gives outside same =>
      cases second with
      | keeps inside _ _ => simp [← alike, inside] at outside
      | gives _ same' => exact .gives outside (same'.trans same)

/-- What a dropped instruction came from gave a value to the same name. -/
theorem Becomes.result (becomes : i.Becomes j) {n : Name} (writes : j.result? = some (.name n)) :
    i.result? = some (.name n) := by
  cases becomes with
  | keeps _ inside _ => simp [isSkeleton, writes] at inside
  | gives _ same => rw [← same, writes]

end Instr

namespace Thins

variable {code code' code'' : List Instr}

theorem refl (code : List Instr) : Thins code code := by
  induction code with
  | nil => exact .nil
  | cons i rest ih => exact .keep (.refl i) ih

theorem trans (first : Thins code code') (second : Thins code' code'') : Thins code code'' := by
  induction first generalizing code'' with
  | nil => exact second
  | keep becomes _ ih =>
      cases second with
      | keep becomes' rest => exact .keep (becomes.trans becomes') (ih rest)
      | drop writes rest => exact .drop (becomes.result writes) (ih rest)
  | drop writes _ ih => exact .drop writes (ih second)

/-- The skeleton is kept one to one. -/
theorem skeleton (thins : Thins code code') :
    List.Forall₂ Instr.Keeps (code.filter Instr.isSkeleton) (code'.filter Instr.isSkeleton) := by
  induction thins with
  | nil => exact .nil
  | keep becomes _ ih =>
      cases becomes with
      | keeps inside inside' keeps =>
          rw [List.filter_cons_of_pos inside, List.filter_cons_of_pos inside']
          exact .cons keeps ih
      | gives outside same =>
          rw [List.filter_cons_of_neg (by simp [outside]),
            List.filter_cons_of_neg (by simp [Instr.isSkeleton_congr same, outside])]
          exact ih
  | drop writes _ ih =>
      rw [List.filter_cons_of_neg (by simp [Instr.isSkeleton, writes])]
      exact ih

/-- What is left comes from instructions of the first list, in their order, among them its whole
skeleton. -/
theorem exists_sources (thins : Thins code code') :
    ∃ sources, sources.Sublist code ∧
      sources.filter Instr.isSkeleton = code.filter Instr.isSkeleton ∧
      List.Forall₂ Instr.Becomes sources code' := by
  induction thins with
  | nil => exact ⟨[], .slnil, rfl, .nil⟩
  | @keep i _ _ _ becomes _ ih =>
      obtain ⟨sources, sub, skeleton, all⟩ := ih
      refine ⟨i :: sources, sub.cons_cons i, ?_, .cons becomes all⟩
      simp only [List.filter_cons, skeleton]
  | @drop i _ _ _ writes _ ih =>
      obtain ⟨sources, sub, skeleton, all⟩ := ih
      refine ⟨sources, sub.cons i, ?_, all⟩
      rw [skeleton, List.filter_cons_of_neg (by simp [Instr.isSkeleton, writes])]

end Thins

/-! ### What a round does -/

section Rounds

variable (globals : List String) (types : Assoc String Ty)

/-- A computation keeps its destination. -/
theorem Facts.result_compute (f : Facts) (k : Computation) (result : Operand) :
    (f.compute k result).1.result? = some result := by
  rcases f.compute_fst k result with ⟨source, made⟩ | made
  · rw [made, Instr.result?]
  · rw [made]
    cases k <;> rfl

theorem becomes_step (f : Facts) (i : Instr) : i.Becomes (f.step globals types i).1 := by
  cases i with
  | function _ _ => exact .refl _
  | label _ => exact .refl _
  | goto _ => exact .refl _
  | branch cond target => exact .keeps rfl rfl (.branch target (looksUp_substitute f cond))
  | ret value =>
      refine .keeps rfl rfl (.ret ?_)
      cases value with
      | none => exact .none
      | some o => exact .some (looksUp_substitute f o)
  | call callee args result =>
      refine .keeps rfl rfl (.call callee result ?_)
      rw [List.forall₂_map_right_iff, List.forall₂_same]
      exact fun o _ => looksUp_substitute f o
  | copy source result =>
      cases result with
      | const text => exact .gives rfl rfl
      | name n => exact .gives rfl rfl
      | element array index =>
          have unconverted : convertSource types (f.substitute source) (.element array index) =
              f.substitute source := by
            cases f.substitute source <;> rfl
          refine .keeps rfl rfl ?_
          rw [Facts.step, Facts.copied, unconverted]
          exact .copy array (looksUp_substitute f source) (looksUp_substitute f index)
  | unary op operand result =>
      have same := f.result_compute (.unary op (f.substitute operand)) result
      cases result with
      | const text => exact .gives rfl same
      | name n => exact .gives rfl same
      | element array index =>
          refine .keeps rfl (by rw [Facts.step, Instr.isSkeleton, same]) ?_
          rcases f.compute_cases (.unary op (f.substitute operand)) (.element array index) with
            ⟨source, atom, made⟩ | made
          · rw [Facts.step, made]
            exact .unaryCopied op operand array atom (.same index)
          · rw [Facts.step, made]
            exact .unary op array index (looksUp_substitute f operand)
  | binary op left right result =>
      have same := f.result_compute (.binary op (f.substitute left) (f.substitute right)) result
      cases result with
      | const text => exact .gives rfl same
      | name n => exact .gives rfl same
      | element array index =>
          refine .keeps rfl (by rw [Facts.step, Instr.isSkeleton, same]) ?_
          rcases f.compute_cases (.binary op (f.substitute left) (f.substitute right))
            (.element array index) with ⟨source, atom, made⟩ | made
          · rw [Facts.step, made]
            exact .binaryCopied op left right array atom (.same index)
          · rw [Facts.step, made]
            exact .binary op array index (looksUp_substitute f left) (looksUp_substitute f right)

theorem thins_foldFrom (f : Facts) (code : List Instr) :
    Thins code (foldFrom globals types f code) := by
  induction code generalizing f with
  | nil => exact .nil
  | cons i rest ih => exact .keep (becomes_step globals types f i) (ih _)

/-- Only instructions that give a value to a name are ever dead. -/
theorem thins_kept (code : List Instr) : Thins code (eliminate globals code).kept := by
  have general : ∀ (rest : List Instr) (k : Nat),
      Thins rest (keptFrom (deadAt globals code) k rest) := by
    intro rest
    induction rest with
    | nil => exact fun _ => .nil
    | cons i rest ih =>
        intro k
        rw [keptFrom]
        split
        · rename_i dead
          simp only [deadAt, isDead, Option.any_eq_true, Instr.target?,
            Option.bind_eq_some_iff] at dead
          obtain ⟨n, ⟨result, writes, isName⟩, -⟩ := dead
          cases result with
          | name m => exact .drop writes (ih _)
          | const _ => contradiction
          | element _ _ => contradiction
        · exact .keep (.refl i) (ih _)
  rw [kept_eq]
  exact general code 0

theorem thins_afterRounds (n : Nat) (code : List Instr) :
    Thins code (afterRounds globals types n code) := by
  induction n generalizing code with
  | zero => exact .refl code
  | succ n ih =>
      rw [afterRounds_succ]
      exact ((thins_foldFrom globals types {} code).trans (thins_kept globals _)).trans (ih _)

end Rounds

/-- **Optimization keeps the skeleton of code.** Globals and variables are as before. Function
markers, labels, jumps, calls, returns and stores into elements correspond one to one, in their
order, to those of the code before; they differ in operands only, where names have been replaced
by constants, and in computations that have become copies. Every instruction comes from one of the
code before, in the order of that code, and what is not in the skeleton has the destination that
it had before. -/
theorem optimize_keepsSkeleton (c : Code) :
    c.optimize.1.globals = c.globals ∧ c.optimize.1.types = c.types ∧
    List.Forall₂ Instr.Keeps (c.instrs.filter Instr.isSkeleton)
      (c.optimize.1.instrs.filter Instr.isSkeleton) ∧
    ∃ sources, sources.Sublist c.instrs ∧
      sources.filter Instr.isSkeleton = c.instrs.filter Instr.isSkeleton ∧
      List.Forall₂ Instr.Becomes sources c.optimize.1.instrs := by
  obtain ⟨n, ends⟩ := rounds_ends c.globals c.types c.instrs
  have optimized : c.optimize.1.instrs = afterRounds c.globals c.types n c.instrs := by
    simp [Code.optimize, ends.last]
  have thins : Thins c.instrs c.optimize.1.instrs := by
    rw [optimized]
    exact thins_afterRounds c.globals c.types n c.instrs
  exact ⟨rfl, rfl, thins.skeleton, thins.exists_sources⟩

end BraceLang.Tac
