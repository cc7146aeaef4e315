import BraceLang.Check.Stmt
import BraceLang.Proofs.Tac.Cells
import BraceLang.Proofs.Tac.Operands
import BraceLang.Tac.Lower

/-!
Folding where the bare name of an array stands for its first element. Folding keeps the effect of
an instruction but for one thing: a store into an element drops what is known about elements of
the array (`Facts.forgetElements`) and leaves what is known about its bare name.
`Code.carefulBefore` is what a pass would know that drops both.

* **`Code.Careful.follows`**, **`Code.Careful.effect_eq`**: the careful facts are true of the
  memory, whatever the code does, so what a pass makes of an instruction by them has its effect;
* **`carefulBefore_eq`**: if no array is stored into by elements and used by its bare name, a pass
  knows nothing else;
* **`fold_keepsEffects`**: so an instruction keeps its effect unless its folded form rests on a
  fact about a bare name that was there before a store into an element;
* **`staleFirst_differs`**: and such facts are used.
-/

namespace BraceLang.Tac

variable {V : Type}

/-! ### A careful pass -/

/-- What is left of the facts if a store into an element drops what is known about the bare name
of its array. -/
def Facts.withoutFirst (f : Facts) (i : Instr) : Facts :=
  match i.result? with
  | some (.element array _) => f.forget (.var array)
  | _ => f

/-- What a pass would know before the instruction at a place if it dropped the bare name of an
array at every store into an element. -/
def Code.carefulBefore (c : Code) (pc : Nat) : Facts :=
  (c.instrs.take pc).foldl (fun f i => (f.step c.globals c.types i).2.withoutFirst i) {}

/-- The pass rewrites the instruction as the careful pass does: it uses no fact about a bare name
that was there before a store into an element of that array. -/
def Code.UpToDate (c : Code) (pc : Nat) (i : Instr) : Prop :=
  ((c.factsBefore pc).step c.globals c.types i).1 =
    ((c.carefulBefore pc).step c.globals c.types i).1

/-- What a pass knows after a store into an element. -/
theorem Facts.step_element (f : Facts) (globals : List String) (types : Assoc String Ty) {i : Instr}
    {array : String} {index : Operand} (writes : i.result? = some (.element array index)) :
    (f.step globals types i).2 = f.forgetElements array := by
  have assigned : ∀ source j, f.assigned source (.element array j) = f.forgetElements array := by
    intro source j
    cases source <;> rfl
  have compute : ∀ k, (f.compute k (.element array index)).2 = f.forgetElements array := by
    intro k
    unfold Facts.compute
    split
    · rename_i text _
      exact assigned (.const text) index
    · split
      · rename_i holder _
        exact assigned (.name holder) index
      · rfl
  cases i with
  | copy source result =>
      obtain rfl := Option.some.inj writes
      exact assigned _ _
  | unary op operand result =>
      obtain rfl := Option.some.inj writes
      exact compute _
  | binary op left right result =>
      obtain rfl := Option.some.inj writes
      exact compute _
  | _ => contradiction

section Careful

variable {c : Code} {I : Interpretation V}

theorem carefulBefore_succ {pc : Nat} {i : Instr} (at_pc : c.instrs[pc]? = some i) :
    c.carefulBefore (pc + 1) =
      ((c.carefulBefore pc).step c.globals c.types i).2.withoutFirst i := by
  simp [Code.carefulBefore, List.take_add_one, at_pc]

/-- The careful facts are true, except where control may have come from elsewhere and nothing is
looked up. -/
def Code.Careful (c : Code) (I : Interpretation V) (s : Standing V) : Prop :=
  ∀ i, c.instrs[s.pc]? = some i → i.isEntry = false → (c.carefulBefore s.pc).HoldIn I s.memory

theorem careful_succ {pc : Nat} {i : Instr} {m : Cells V} (at_pc : c.instrs[pc]? = some i)
    (hold : (((c.carefulBefore pc).step c.globals c.types i).2.withoutFirst i).HoldIn I m) :
    c.Careful I ⟨pc + 1, m⟩ := by
  intro j _ _
  rw [carefulBefore_succ at_pc]
  exact hold

/-- Nothing is known behind an instruction that ends a block. -/
theorem careful_boundary {pc : Nat} {i : Instr} (at_pc : c.instrs[pc]? = some i)
    (boundary : i.isBoundary = true) (m : Cells V) : c.Careful I ⟨pc + 1, m⟩ := by
  refine careful_succ at_pc ?_
  rw [Facts.step_boundary _ _ _ boundary]
  cases i <;> first | exact Facts.Hold.empty _ | contradiction

theorem careful_place (l : Label) (m : Cells V) : c.Careful I ⟨c.place l, m⟩ := by
  intro i at_place inside
  rcases getElem?_place c l with label | outside
  · obtain rfl := Option.some.inj (at_place.symm.trans label)
    contradiction
  · exact absurd (at_place.symm.trans outside) (by simp)

theorem careful_of_startsBlock {s : Standing V} (starts : c.StartsBlock s.pc) : c.Careful I s := by
  obtain ⟨pc, m⟩ := s
  rcases starts with first | entry | ⟨j, i, behind, at_j, boundary⟩
  · obtain rfl : pc = 0 := first
    exact fun _ _ _ => Facts.Hold.empty _
  · intro i at_pc inside
    rw [entry i at_pc] at inside
    contradiction
  · obtain rfl : pc = j + 1 := behind
    exact careful_boundary at_j boundary m

/-- What the careful pass makes of an instruction has its effect. -/
theorem Code.Careful.effect_eq (agrees : I.AgreesWithFolding) {s : Standing V}
    (careful : c.Careful I s) {i : Instr} (at_pc : c.instrs[s.pc]? = some i) :
    ((c.carefulBefore s.pc).step c.globals c.types i).1.effect I c.types s.memory =
      i.effect I c.types s.memory := by
  cases entry : i.isEntry with
  | true => cases i <;> first | rfl | contradiction
  | false => exact effect_step agrees (careful i at_pc entry) i

variable {f : Facts} {m : Cells V} {globals : List String} {types : Assoc String Ty}

/-- A constant that a name receives is what the name keeps. -/
theorem keeps_of_convertSource (agrees : I.AgreesWithFolding) {source : Operand} {n : Name}
    {text : String} (converted : convertSource types source (.name n) = .const text) :
    (Operand.name n).keeps I types (source.valueIn I m) = I.const text := by
  cases n with
  | var x =>
      cases source with
      | const written =>
          obtain rfl := Operand.const.inj converted
          exact agrees.keep ..
      | name _ => contradiction
      | element _ _ => contradiction
  | temp t =>
      have converted : source = .const text := by cases source <;> exact converted
      subst converted
      rfl

variable [DecidableEq V]

/-- What is known after a value has been stored. -/
theorem Facts.HoldIn.stored (agrees : I.AgreesWithFolding) (hold : f.HoldIn I m) {i : Instr}
    (temps : i.computesTemp) {dest : Destination V} {v : V}
    (stores : i.effect I types m = .store dest v) :
    ((f.step globals types i).2.withoutFirst i).HoldIn I (m.write v dest) := by
  cases i with
  | copy source result =>
      cases result with
      | const _ => contradiction
      | name n =>
          obtain ⟨rfl, rfl⟩ := Effect.store.inj stores
          refine hold.assigned n _ _ fun text converted => ?_
          rw [← hold.substitute]
          exact keeps_of_convertSource agrees converted
      | element array index =>
          obtain ⟨rfl, rfl⟩ := Effect.store.inj stores
          rw [f.step_element globals types (i := .copy source (.element array index)) rfl]
          exact hold.forgetElements array _ _
  | unary op operand result =>
      obtain ⟨t, rfl⟩ := temps
      obtain ⟨rfl, rfl⟩ := Effect.store.inj stores
      have known := hold.compute agrees (.unary op (f.substitute operand)) t
      simp only [Computation.valueIn, hold.substitute] at known
      exact known
  | binary op left right result =>
      obtain ⟨t, rfl⟩ := temps
      obtain ⟨rfl, rfl⟩ := Effect.store.inj stores
      have known := hold.compute agrees (.binary op (f.substitute left) (f.substitute right)) t
      simp only [Computation.valueIn, hold.substitute] at known
      exact known
  | _ => contradiction

/-- The careful facts stay true from step to step. -/
theorem Code.Careful.follows (agrees : I.AgreesWithFolding) (temps : ComputesTemps c.instrs)
    {s t : Standing V} (careful : c.Careful I s) (follows : c.Follows I s t) : c.Careful I t := by
  cases follows with
  | @falls i at_pc notMarker nothing =>
      have temps := temps i (List.mem_of_getElem? at_pc)
      rcases label_or_copy_of_nothing temps notMarker nothing with ⟨l, rfl⟩ | ⟨source, text, rfl⟩
      · exact careful_boundary at_pc rfl _
      · refine careful_succ at_pc ?_
        have known : ((c.carefulBefore s.pc).step c.globals c.types
            (.copy source (.const text))).2 = c.carefulBefore s.pc := by
          simp only [Facts.step, Facts.copied, Facts.assigned, Facts.substituteTarget]
          split <;> first | rfl | simp_all
        rw [known]
        exact careful _ at_pc rfl
  | @stores i dest v at_pc stored =>
      have entry : i.isEntry = false := by
        cases i <;> first | rfl | contradiction
      exact careful_succ at_pc ((careful i at_pc entry).stored agrees
        (temps i (List.mem_of_getElem? at_pc)) stored)
  | jumps _ _ => exact careful_place _ _
  | taken _ _ _ => exact careful_place _ _
  | passed at_pc branches _ =>
      obtain ⟨cond, rfl⟩ := branch_of_effect branches
      exact careful_boundary at_pc rfl _
  | returns at_pc calls same =>
      obtain ⟨operands, rfl⟩ := call_of_effect calls
      exact careful_succ at_pc ((careful _ at_pc rfl).forgetGlobals same)

theorem Code.Careful.comesTo (agrees : I.AgreesWithFolding) (temps : ComputesTemps c.instrs)
    {s t : Standing V} (careful : c.Careful I s) (comes : c.ComesTo I s t) : c.Careful I t := by
  induction comes with
  | refl => exact careful
  | tail _ follows ih => exact ih.follows agrees temps follows

end Careful

/-! ### Arrays that are used by elements only -/

/-- The variables that are read, or written, by their bare name. -/
def Operand.bare : Operand → List String
  | .const _ | .temp _ => []
  | .var x => [x]
  | .element _ index => index.bare

def Instr.bare (i : Instr) : List String :=
  i.sources.flatMap Operand.bare ++ i.result?.elim [] Operand.bare

/-- No array with a store into an element is used by its bare name. -/
def Code.UsesElementsOnly (c : Code) : Prop :=
  ∀ i ∈ c.instrs, ∀ array index, i.result? = some (.element array index) →
    ∀ j ∈ c.instrs, array ∉ j.bare

/-- Nothing is known about the bare name of an array. -/
structure Facts.Avoid (f : Facts) (array : String) : Prop where
  constants : ∀ {n text}, (n, text) ∈ f.constants.entries → n ≠ .var array
  holders : ∀ {k n}, (k, n) ∈ f.holders.entries →
    n ≠ .var array ∧ ∀ o ∈ k.operands, array ∉ o.bare

namespace Facts.Avoid

variable {f f' : Facts} {array : String}

theorem empty (array : String) : Avoid {} array :=
  ⟨fun known => by simp at known, fun known => by simp at known⟩

theorem less (avoid : f.Avoid array)
    (constants : ∀ e ∈ f'.constants.entries, e ∈ f.constants.entries)
    (holders : ∀ e ∈ f'.holders.entries, e ∈ f.holders.entries) : f'.Avoid array :=
  ⟨fun known => avoid.constants (constants _ known), fun known => avoid.holders (holders _ known)⟩

theorem substitute {o : Operand} (unread : array ∉ o.bare) :
    array ∉ (f.substitute o).bare := by
  induction o with
  | const _ => exact unread
  | name n =>
      cases known : f.constants.get? n with
      | none => simpa [Facts.substitute, known] using unread
      | some text => simp [Facts.substitute, known, Operand.bare]
  | element _ index ih => exact ih unread

theorem forgetTarget (avoid : f.Avoid array) (result : Operand) :
    (f.forgetTarget result).Avoid array := by
  cases result with
  | const _ => exact avoid
  | name n =>
      exact avoid.less (fun _ known => (Assoc.mem_erase.mp known).1)
        fun _ known => (Assoc.mem_filter.mp known).1
  | element _ _ =>
      exact avoid.less (fun _ known => known) fun _ known => (Assoc.mem_filter.mp known).1

theorem assigned (avoid : f.Avoid array) (source : Operand) {result : Operand}
    (other : array ∉ result.bare) : (f.assigned source result).Avoid array := by
  have forgot := avoid.forgetTarget result
  unfold Facts.assigned
  split
  · rename_i text n
    refine ⟨fun known => ?_, forgot.holders⟩
    rcases Assoc.mem_set known with old | new
    · exact forgot.constants old
    · obtain ⟨rfl, rfl⟩ := Prod.mk.inj new
      rintro rfl
      simp [Operand.bare] at other
  · exact forgot

theorem computed (avoid : f.Avoid array) {k : Computation} {result : Operand}
    (unread : ∀ o ∈ k.operands, array ∉ o.bare) (other : array ∉ result.bare) :
    (f.computed k result).Avoid array := by
  have forgot := avoid.forgetTarget result
  cases result with
  | const _ => exact forgot
  | element _ _ => exact forgot
  | name n =>
      simp only [Facts.computed]
      split
      · exact forgot
      · refine ⟨forgot.constants, fun known => ?_⟩
        rcases Assoc.mem_set known with old | new
        · exact forgot.holders old
        · obtain ⟨rfl, rfl⟩ := Prod.mk.inj new
          refine ⟨?_, unread⟩
          rintro rfl
          simp [Operand.bare] at other

theorem compute (avoid : f.Avoid array) {k : Computation} {result : Operand}
    (unread : ∀ o ∈ k.operands, array ∉ o.bare) (other : array ∉ result.bare) :
    (f.compute k result).2.Avoid array := by
  unfold Facts.compute
  split
  · exact avoid.assigned (.const _) other
  · split
    · rename_i holder _
      exact avoid.assigned (.name holder) other
    · exact avoid.computed unread other

theorem step (avoid : f.Avoid array) (globals : List String) (types : Assoc String Ty) {i : Instr}
    (unused : array ∉ i.bare) : (f.step globals types i).2.Avoid array := by
  simp only [Instr.bare, List.mem_append, not_or, List.mem_flatMap, not_exists, not_and] at unused
  obtain ⟨unread, other⟩ := unused
  cases i with
  | copy source result =>
      refine avoid.assigned _ ?_
      cases result with
      | element _ _ => exact substitute other
      | _ => exact other
  | unary op operand result =>
      refine avoid.compute (fun o member => ?_) other
      obtain rfl := List.mem_singleton.mp member
      exact substitute (unread operand (by simp [Instr.sources]))
  | binary op left right result =>
      refine avoid.compute (fun o member => ?_) other
      have sources : o = f.substitute left ∨ o = f.substitute right := by
        simpa [Computation.operands] using member
      rcases sources with rfl | rfl
      · exact substitute (unread left (by simp [Instr.sources]))
      · exact substitute (unread right (by simp [Instr.sources]))
  | call callee args result =>
      refine avoid.less (fun e known => ?_) fun e known => ?_
      · exact (Assoc.mem_erase.mp (mem_constants_forgetGlobals known).1).1
      · exact (Assoc.mem_filter.mp (mem_holders_forgetGlobals known).1).1
  | ret _ => exact avoid
  | _ => exact empty array

/-- An operand that takes part by more than its bare name reads an element. -/
theorem reads_eq_false {k : Computation} (unread : ∀ o ∈ k.operands, array ∉ o.bare)
    (none : k.readsElement array = false) : k.reads (.var array) = false := by
  simp only [Computation.reads, Computation.readsElement, List.any_eq_false] at none ⊢
  intro o member
  have none := none o member
  cases o with
  | const _ => simp [Operand.reads, Operand.names]
  | element _ _ => exact none
  | name n =>
      have unread := unread _ member
      cases n <;> simp_all [Operand.reads, Operand.names, Operand.bare]

/-- There is nothing to drop. -/
theorem forget_forgetElements (avoid : f.Avoid array) :
    (f.forgetElements array).forget (.var array) = f.forgetElements array := by
  have constants : f.constants.entries.filter (fun e => e.1 != .var array) = f.constants.entries :=
    List.filter_eq_self.mpr fun e known => by simpa using avoid.constants known
  have holders : (f.forgetElements array).holders.entries.filter
      (fun e => e.2 != .var array && !e.1.reads (.var array)) =
        (f.forgetElements array).holders.entries := by
    refine List.filter_eq_self.mpr fun e known => ?_
    obtain ⟨known, keeps⟩ := Assoc.mem_filter.mp known
    obtain ⟨other, unread⟩ := avoid.holders known
    simp [other, reads_eq_false unread (by simpa using keeps)]
  simp only [Facts.forget, Assoc.erase, Assoc.filter]
  rw [holders]
  simp only [Facts.forgetElements, constants]

end Facts.Avoid

section ElementsOnly

variable {c : Code}

/-- A pass over code that uses arrays by their elements only knows nothing about bare names, so
the careful pass knows the same. -/
theorem carefulBefore_eq (only : c.UsesElementsOnly) {pc : Nat} (below : pc ≤ c.instrs.length) :
    c.carefulBefore pc = c.factsBefore pc ∧
      ∀ i ∈ c.instrs, ∀ array index, i.result? = some (.element array index) →
        (c.factsBefore pc).Avoid array := by
  induction pc with
  | zero => exact ⟨rfl, fun _ _ array _ _ => .empty array⟩
  | succ pc ih =>
      obtain ⟨same, avoid⟩ := ih (Nat.le_of_succ_le below)
      have at_pc := List.getElem?_eq_getElem (l := c.instrs) (Nat.lt_of_succ_le below)
      rw [carefulBefore_succ at_pc, factsBefore_succ at_pc, same]
      refine ⟨?_, fun i member array index writes => ?_⟩
      · unfold Facts.withoutFirst
        split
        · rename_i array index writes
          rw [Facts.step_element _ _ _ writes]
          exact (avoid _ (List.getElem_mem _) array index writes).forget_forgetElements
        · rfl
      · exact (avoid i member array index writes).step _ _
          (only i member array index writes _ (List.getElem_mem _))

end ElementsOnly

/-! ### The effect of folded code -/

/-- **Folding keeps effects.** Where the bare name of an array stands for its first element, from
the beginning of any basic block and with anything in memory:

* after a store into an element nothing is known about computations that read elements of that
  array;
* wherever a run comes to, the folded instruction reads the same values there as the
  instruction it stands for: it stores the same value in the same place, branches on the same
  value, hands over the same arguments or returns the same value. The one condition is that its
  folded form uses no fact about a bare name that was there before a store into an element;
* there is no such fact in code that uses arrays by their elements only. -/
theorem fold_keepsEffects [DecidableEq V] (c : Code) (I : Interpretation V)
    (temps : ComputesTemps c.instrs) (agrees : I.AgreesWithFolding) :
    (∀ pc i array index, c.instrs[pc]? = some i → i.result? = some (.element array index) →
      ∀ k n, (k, n) ∈ (c.factsBefore (pc + 1)).holders.entries → k.readsElement array = false) ∧
    (∀ s t : Standing V, c.StartsBlock s.pc → c.ComesTo I s t →
      ∀ i, c.instrs[t.pc]? = some i → c.UpToDate t.pc i →
        ∃ i', c.folded.instrs[t.pc]? = some i' ∧
          i'.effect I c.types t.memory = i.effect I c.types t.memory) ∧
    (c.UsesElementsOnly → ∀ pc i, c.instrs[pc]? = some i → c.UpToDate pc i) := by
  refine ⟨fun pc i array index at_pc writes k n known => ?_,
    fun s t starts comes i at_pc upToDate => ?_, fun only pc i at_pc => ?_⟩
  · rw [factsBefore_succ at_pc, Facts.step_element _ _ _ writes] at known
    simpa using (Assoc.mem_filter.mp known).2
  · have careful := (careful_of_startsBlock starts).comesTo agrees temps comes
    refine ⟨((c.factsBefore t.pc).step c.globals c.types i).1, ?_, ?_⟩
    · simp only [Code.folded, fold, getElem?_foldFrom, at_pc, Option.map_some, Code.factsBefore]
    · rw [upToDate]
      exact careful.effect_eq agrees at_pc
  · have below := (List.getElem?_eq_some_iff.mp at_pc).1
    rw [Code.UpToDate, (carefulBefore_eq only (Nat.le_of_lt below)).1]

/-- The bare name of an array gets a new value after a store into an element. -/
def renewed : Code where
  globals := ["v"]
  types := ⟨[("v", .int), ("x", .int), ("y", .int)]⟩
  instrs := [
    .copy (.const "1") (.var "v"),
    .copy (.var "v") (.var "x"),
    .copy (.const "5") (.element "v" (.const "0")),
    .binary .add (.element "v" (.const "0")) (.var "x") (.temp ⟨0⟩),
    .copy (.const "7") (.var "v"),
    .copy (.var "v") (.var "y")]

theorem renewed_keepsEffects :
    let i := Instr.copy (.var "v") (.var "y")
    let i' := Instr.copy (.const "7") (.var "y")
    ComputesTemps renewed.instrs ∧ Interpretation.textual.AgreesWithFolding ∧
      renewed.StartsBlock 0 ∧ renewed.UpToDate 5 i ∧ renewed.folded.instrs[5]? = some i' ∧
      ∃ m, renewed.ComesTo .textual ⟨0, ⟨fun _ => "", fun _ _ => ""⟩⟩ ⟨5, m⟩ ∧
        m.cell "v" "0" = "7" ∧
        i'.effect .textual renewed.types m = i.effect .textual renewed.types m := by
  intro i i'
  have temps : ComputesTemps renewed.instrs := by
    intro j mem
    simp only [renewed, List.mem_cons, List.not_mem_nil, or_false] at mem
    rcases mem with rfl | rfl | rfl | rfl | rfl | rfl <;> simp [Instr.computesTemp]
  have agrees := Interpretation.agreesWithFolding_textual
  have upToDate : renewed.UpToDate 5 i := by unfold Code.UpToDate; decide +kernel
  have folded : renewed.folded.instrs[5]? = some i' := by decide +kernel
  have comes : ∃ m, renewed.ComesTo .textual ⟨0, ⟨fun _ => "", fun _ _ => ""⟩⟩ ⟨5, m⟩ ∧
      m.cell "v" "0" = "7" := by
    refine ⟨_, .head (.stores rfl rfl) (.head (.stores rfl rfl) (.head (.stores rfl rfl)
      (.head (.stores rfl rfl) (.head (.stores rfl rfl) .refl)))), ?_⟩
    decide +kernel
  obtain ⟨m, comes, stored⟩ := comes
  obtain ⟨-, same, -⟩ := fold_keepsEffects renewed .textual temps agrees
  obtain ⟨j, at_5, effects⟩ := same ⟨0, _⟩ ⟨5, m⟩ (.inl rfl) comes i rfl upToDate
  obtain rfl := Option.some.inj (folded.symm.trans at_5)
  exact ⟨temps, agrees, .inl rfl, upToDate, folded, m, comes, stored, effects⟩

/-- `int v[2]; v = 1; v[0] = 5; int x = v;` -/
def staleFirst : Program where
  stmts := [
    .declare {} ⟨⟨"int", {}⟩, ⟨"v", {}⟩, some 2, none⟩,
    .assign {} ⟨"v", {}⟩ none (.literal {} (.number "1")),
    .assign {} ⟨"v", {}⟩ (some (.literal {} (.number "0"))) (.literal {} (.number "5")),
    .declare {} ⟨⟨"int", {}⟩, ⟨"x", {}⟩, none, some (.var {} "v")⟩]

/-- A constant that was stored under the bare name is put in the place of the bare name after a
store into the first element. -/
theorem staleFirst_differs :
    let c := staleFirst.lower.1
    let i := Instr.copy (.var "v") (.var "x")
    let i' := Instr.copy (.const "1") (.var "x")
    staleFirst.check.diagnostics.hasErrors = false ∧ ComputesTemps c.instrs ∧
      c.instrs[2]? = some i ∧ c.folded.instrs[2]? = some i' ∧
      ∃ m, c.ComesTo .textual ⟨0, ⟨fun _ => "", fun _ _ => ""⟩⟩ ⟨2, m⟩ ∧
        i.effect .textual c.types m = .store (.cell "x" "0") "5" ∧
        i'.effect .textual c.types m = .store (.cell "x" "0") "1" := by
  intro c i i'
  have lowered : c = { globals := ["v", "x"], types := ⟨[("v", .int), ("x", .int)]⟩, instrs := [
      .copy (.const "1") (.var "v"), .copy (.const "5") (.element "v" (.const "0")), i] } := by
    decide +kernel
  refine ⟨by decide +kernel, ?_, ?_, ?_, ?_⟩
  · rw [lowered]
    simp [ComputesTemps, Instr.computesTemp, i]
  · rw [lowered]
    rfl
  · rw [lowered]
    decide +kernel
  · rw [lowered]
    refine ⟨_, .head (.stores rfl rfl) (.head (.stores rfl rfl) .refl), ?_, ?_⟩
    · decide +kernel
    · decide +kernel

end BraceLang.Tac
