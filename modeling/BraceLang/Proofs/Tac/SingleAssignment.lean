import BraceLang.Proofs.Tac.Operands
import BraceLang.Proofs.Tac.Units

/-!
Temporaries and labels of lowered code. Both are numbered by counters that run on through nested
functions, whose code is set aside while the code around them is not complete yet.

What carries the argument is a count: between two states of lowering, every temporary that was
taken is made once and read at most once, in the code that was returned or in what was set aside
(`Tidy`). Reads are followed through a piece of code with the temporaries that are at hand, which
are given up where a basic block begins or ends (`Supplied`).

* **`spends_lowerExpr`**: the temporaries of an expression, those of its value still to be read;
* **`tidy_stmt`**: statements read what they make, and jump to labels that have been taken;
* **`makes_lower`**, **`reads_lower`**: a program makes each temporary that was taken once, and
  reads it at most once;
* **`lower_singleAssignment`**: so its code is in order.
-/

namespace BraceLang.Tac

/-! ### Temporaries at hand -/

namespace Instr

/-- The temporary is the result of the instruction. -/
def makes (t : Temp) (i : Instr) : Bool := i.defines? == some (.temp t)

/-- The temporaries that are at hand after the instruction. A basic block starts with none. -/
def handsOn (i : Instr) (hand : List Temp) : List Temp :=
  if i.isBoundary then [] else
    match i.defines? with
    | some (.temp t) => t :: hand
    | some (.var _) | none => hand

theorem makes_of_boundary {i : Instr} (boundary : i.isBoundary = true) (t : Temp) :
    i.makes t = false := by
  cases i <;> first | rfl | contradiction

theorem mem_handsOn {i : Instr} {hand : List Temp} {t : Temp} (mem : t ∈ i.handsOn hand) :
    i.isBoundary = false ∧ (i.makes t = true ∨ t ∈ hand) := by
  unfold handsOn at mem
  split at mem
  · contradiction
  · rename_i inside
    refine ⟨by simpa using inside, ?_⟩
    split at mem
    · rename_i made
      rcases List.mem_cons.mp mem with rfl | mem
      · exact .inl (by simp [makes, made])
      · exact .inr mem
    · exact .inr mem
    · exact .inr mem

theorem handsOn_subset {i : Instr} {hand hand' : List Temp} (sub : hand ⊆ hand') :
    i.handsOn hand ⊆ i.handsOn hand' := by
  unfold handsOn
  split
  · exact List.Subset.refl _
  · split
    · exact List.cons_subset_cons _ sub
    · exact sub
    · exact sub

/-- Inside a block, nothing that is at hand is lost, and what is made is at hand. -/
theorem mem_handsOn_of_straight {i : Instr} (straight : i.isBoundary = false) {hand : List Temp}
    {t : Temp} (known : i.makes t = true ∨ t ∈ hand) : t ∈ i.handsOn hand := by
  unfold handsOn
  rw [straight, if_neg Bool.false_ne_true]
  split
  · rename_i t' made
    rcases known with new | mem
    · obtain rfl : t' = t := by simpa [makes, made] using new
      exact List.mem_cons_self
    · exact List.mem_cons_of_mem _ mem
  · rename_i made
    exact known.resolve_left (by simp [makes, made])
  · rename_i made
    exact known.resolve_left (by simp [makes, made])

end Instr

/-- The temporaries that are at hand after some code. -/
def handAfter (hand : List Temp) (code : List Instr) : List Temp :=
  code.foldl (fun hand i => i.handsOn hand) hand

/-- Every temporary that the code reads is at hand there. -/
def Supplied : List Temp → List Instr → Prop
  | _, [] => True
  | hand, i :: rest => (∀ t, .temp t ∈ i.reads → t ∈ hand) ∧ Supplied (i.handsOn hand) rest

/-- Behind straight code, its results are at hand together with what was at hand before. -/
theorem mem_handAfter {code : List Instr} (straight : ∀ i ∈ code, i.isBoundary = false)
    {hand : List Temp} {t : Temp} (known : code.countP (Instr.makes t) ≠ 0 ∨ t ∈ hand) :
    t ∈ handAfter hand code := by
  induction code generalizing hand with
  | nil => exact known.resolve_left (by simp)
  | cons i rest ih =>
      obtain ⟨inside, straight⟩ := List.forall_mem_cons.mp straight
      refine ih straight ?_
      by_cases later : rest.countP (Instr.makes t) = 0
      · refine .inr (Instr.mem_handsOn_of_straight inside (known.imp_left fun some => ?_))
        rw [List.countP_cons, later] at some
        simpa using some
      · exact .inl later

namespace Supplied

variable {hand hand' : List Temp} {code first second : List Instr}

theorem mono (ready : Supplied hand code) (sub : hand ⊆ hand') : Supplied hand' code := by
  induction code generalizing hand hand' with
  | nil => exact trivial
  | cons i rest ih =>
      exact ⟨fun t read => sub (ready.1 t read), ih ready.2 (Instr.handsOn_subset sub)⟩

theorem append_iff :
    Supplied hand (first ++ second) ↔
      Supplied hand first ∧ Supplied (handAfter hand first) second := by
  induction first generalizing hand with
  | nil => simp [Supplied, handAfter]
  | cons i rest ih =>
      simp only [List.cons_append, Supplied, ih, and_assoc]
      rfl

/-- Code that needs nothing at hand may stand anywhere. -/
theorem append (ready : Supplied [] first) (ready' : Supplied [] second) :
    Supplied [] (first ++ second) :=
  append_iff.mpr ⟨ready, ready'.mono (List.nil_subset _)⟩

theorem of_unread (unread : ∀ i ∈ code, i.reads = []) : Supplied hand code := by
  induction code generalizing hand with
  | nil => exact trivial
  | cons i rest ih =>
      obtain ⟨none, unread⟩ := List.forall_mem_cons.mp unread
      exact ⟨by simp [none], ih unread⟩

/-- A temporary that is read was at hand from the start or has been made on the way, and no block
began or ended since. -/
theorem exists_makes (ready : Supplied hand code) {j : Nat} {i : Instr} {t : Temp}
    (at_j : code[j]? = some i) (read : .temp t ∈ i.reads) :
    (t ∈ hand ∧ ∀ m < j, ∀ x, code[m]? = some x → x.isBoundary = false) ∨
      ∃ k < j, ∃ x, code[k]? = some x ∧ x.makes t = true ∧
        ∀ m, k < m → m < j → ∀ x, code[m]? = some x → x.isBoundary = false := by
  induction code generalizing hand j with
  | nil => simp at at_j
  | cons first rest ih =>
      cases j with
      | zero =>
          obtain rfl : first = i := by simpa using at_j
          exact .inl ⟨ready.1 t read, by simp⟩
      | succ j =>
          rcases ih ready.2 (by simpa using at_j) with ⟨atHand, straight⟩ |
            ⟨k, below, x, at_k, made⟩
          · obtain ⟨inside, origin⟩ := Instr.mem_handsOn atHand
            rcases origin with makes | before
            · refine .inr ⟨0, by omega, first, rfl, makes, fun m above below x at_m => ?_⟩
              cases m with
              | zero => omega
              | succ m => exact straight m (by omega) x (by simpa using at_m)
            · refine .inl ⟨before, fun m below x at_m => ?_⟩
              cases m with
              | zero =>
                  obtain rfl : first = x := by simpa using at_m
                  exact inside
              | succ m => exact straight m (by omega) x (by simpa using at_m)
          · refine .inr ⟨k + 1, by omega, x, by simpa using at_k, made.1,
              fun m above below y at_m => ?_⟩
            cases m with
            | zero => omega
            | succ m => exact made.2 m (by omega) (by omega) y (by simpa using at_m)

end Supplied

/-! ### Expressions -/

/-- How often the code reads the temporary. -/
def readCount (t : Temp) (code : List Instr) : Nat := (code.flatMap Instr.reads).count (.temp t)

@[simp] theorem readCount_nil (t : Temp) : readCount t [] = 0 := rfl

@[simp] theorem readCount_cons (t : Temp) (i : Instr) (rest : List Instr) :
    readCount t (i :: rest) = i.reads.count (.temp t) + readCount t rest := by
  simp [readCount, List.flatMap_cons, List.count_append]

@[simp] theorem readCount_append (t : Temp) (first second : List Instr) :
    readCount t (first ++ second) = readCount t first + readCount t second := by
  simp [readCount, List.flatMap_append, List.count_append]

namespace Lower

/-- The code takes the temporaries from `a` to `b`: it makes each of them once, and reads it at
most once if what is still to be read of it counts as well. -/
structure Spends (a b : Nat) (code : List Instr) (waiting : List Name) : Prop where
  le : a ≤ b
  straight : ∀ i ∈ code, i.isBoundary = false
  made : ∀ t, code.countP (Instr.makes t) = within a b t.id
  read : ∀ t, readCount t code + waiting.count (.temp t) ≤ within a b t.id
  ready : Supplied [] code

namespace Spends

variable {a b d : Nat} {code code' : List Instr} {waiting waiting' : List Name}

theorem nothing {a : Nat} {waiting : List Name} (unread : ∀ t, waiting.count (.temp t) = 0) :
    Spends a a [] waiting where
  le := Nat.le_refl a
  straight := nofun
  made t := by simp
  read t := by simp [unread t]
  ready := trivial

theorem append (first : Spends a b code waiting) (second : Spends b d code' waiting') :
    Spends a d (code ++ code') (waiting ++ waiting') where
  le := Nat.le_trans first.le second.le
  straight := List.forall_mem_append.mpr ⟨first.straight, second.straight⟩
  made t := by
    rw [List.countP_append, first.made, second.made, within_append first.le second.le]
  read t := by
    have all := within_append first.le second.le t.id
    have := first.read t
    have := second.read t
    rw [readCount_append, List.count_append]
    omega
  ready := first.ready.append second.ready

/-- What waits to be read has been made. -/
theorem atHand (spends : Spends a b code waiting) {t : Temp} (waits : .temp t ∈ waiting) :
    t ∈ handAfter [] code := by
  have read := spends.read t
  have one : 0 < waiting.count (.temp t) := List.count_pos_iff.mpr waits
  refine mem_handAfter spends.straight (.inl ?_)
  rw [spends.made]
  omega

/-- An instruction that reads all that waits may follow. -/
theorem ready_consume (spends : Spends a b code waiting) {i : Instr} (reads : i.reads = waiting) :
    Supplied [] (code ++ [i]) :=
  Supplied.append_iff.mpr ⟨spends.ready, fun _ read => spends.atHand (reads ▸ read), trivial⟩

theorem reorder (spends : Spends a b code waiting) (perm : waiting.Perm waiting') :
    Spends a b code waiting' :=
  { spends with read := fun t => perm.count_eq _ ▸ spends.read t }

/-- All that waits is read, and a new temporary made of it. -/
theorem compute (spends : Spends a b code waiting) {i : Instr} (reads : i.reads = waiting)
    (makes : i.defines? = some (.temp ⟨b⟩)) (inside : i.isBoundary = false) :
    Spends a (b + 1) (code ++ [i]) [.temp ⟨b⟩] where
  le := Nat.le_succ_of_le spends.le
  straight := List.forall_mem_append.mpr ⟨spends.straight, by simpa using inside⟩
  made t := by
    have all := within_append spends.le (Nat.le_add_right b 1) t.id
    have one : within b (b + 1) t.id = if b = t.id then 1 else 0 := by simp [within_succ b 0]
    have new : i.makes t = decide (b = t.id) := by
      obtain ⟨id⟩ := t
      by_cases same : b = id <;> simp [Instr.makes, makes, same]
    rw [List.countP_append, spends.made, List.countP_singleton, new]
    simp only [decide_eq_true_eq]
    omega
  read t := by
    have all := within_append spends.le (Nat.le_add_right b 1) t.id
    have one : within b (b + 1) t.id = if b = t.id then 1 else 0 := by simp [within_succ b 0]
    have new : [Name.temp ⟨b⟩].count (.temp t) = if b = t.id then 1 else 0 := by
      obtain ⟨id⟩ := t
      simp [List.count_singleton]
    have := spends.read t
    rw [readCount_append, readCount_cons, readCount_nil, reads, new]
    omega
  ready := spends.ready_consume reads

end Spends

mutual

/-- An expression makes its temporaries and reads all of them but those of its value. -/
theorem spends_lowerExpr (resolve : String → String) : (e : Expr) → ∀ next,
    Spends next (lowerExpr resolve next e).next (lowerExpr resolve next e).instrs
      (lowerExpr resolve next e).value.names
  | .literal .., _ => .nothing fun _ => rfl
  | .var .., _ => .nothing fun _ => rfl
  | .element _ _ index, next => by
      have inside := spends_lowerExpr resolve index next
      -- The name of the array is read too, but it is no temporary.
      exact ⟨inside.le, inside.straight, inside.made,
        fun t => by simpa [lowerExpr, Operand.names, List.count_cons] using inside.read t,
        inside.ready⟩
  | .unary _ op operand, next =>
      (spends_lowerExpr resolve operand next).compute (by simp) rfl rfl
  | .binary _ op left right, next =>
      ((spends_lowerExpr resolve left next).append (spends_lowerExpr resolve right _)).compute
        (by simp) rfl rfl
  | .call _ callee args, next =>
      (spends_lowerArgs resolve args next).compute (by simp) rfl rfl

theorem spends_lowerArgs (resolve : String → String) : (args : List Expr) → ∀ next,
    Spends next (lowerArgs resolve next args).next (lowerArgs resolve next args).instrs
      ((lowerArgs resolve next args).values.flatMap Operand.names)
  | [], _ => .nothing fun _ => rfl
  | arg :: args, next =>
      (spends_lowerExpr resolve arg next).append (spends_lowerArgs resolve args _)

end

theorem spends_expr (e : Expr) (s : State) :
    Spends s.supply.temps (expr e s).2.supply.temps (expr e s).1.1 (expr e s).1.2.names :=
  spends_lowerExpr s.resolve e s.supply.temps

/-! ### Statements -/

/-- All jumps go to labels below the bound. -/
def JumpsBelow (bound : Nat) (code : List Instr) : Prop :=
  ∀ i ∈ code, ∀ l, i.jump? = some l → l.id < bound

theorem JumpsBelow.mono {bound bound' : Nat} {code : List Instr} (below : JumpsBelow bound code)
    (le : bound ≤ bound') : JumpsBelow bound' code :=
  fun i mem l jump => Nat.lt_of_lt_of_le (below i mem l jump) le

theorem jumpsBelow_append {bound : Nat} {first second : List Instr} :
    JumpsBelow bound (first ++ second) ↔ JumpsBelow bound first ∧ JumpsBelow bound second :=
  List.forall_mem_append

theorem JumpsBelow.straight {bound : Nat} {code : List Instr}
    (straight : ∀ i ∈ code, i.isBoundary = false) : JumpsBelow bound code :=
  fun i mem l jump => by simp [jump?_of_not_boundary (straight i mem)] at jump

/-- Between two states, the code that is returned and what is set aside make every temporary that
is taken once and read it at most once, where it is at hand. Jumps go to labels that have been
taken, provided that the targets around the code have been. -/
structure Tidy (outer : Option Targets) (code : List Instr) (s s' : State) : Prop where
  temps : s.supply.temps ≤ s'.supply.temps
  labels : s.supply.labels ≤ s'.supply.labels
  made : ∀ t, code.countP (Instr.makes t) + s'.functions.countP (Instr.makes t) =
    s.functions.countP (Instr.makes t) + within s.supply.temps s'.supply.temps t.id
  read : ∀ t, readCount t code + readCount t s'.functions ≤
    readCount t s.functions + within s.supply.temps s'.supply.temps t.id
  ready : Supplied [] code
  aside : Supplied [] s.functions → Supplied [] s'.functions
  jumps : (∀ l ∈ labelsOf outer, l.id < s.supply.labels) →
    JumpsBelow s.supply.labels s.functions →
    JumpsBelow s'.supply.labels code ∧ JumpsBelow s'.supply.labels s'.functions

namespace Tidy

variable {outer : Option Targets} {s s' s'' : State} {code code' : List Instr}

theorem append (first : Tidy outer code s s') (second : Tidy outer code' s' s'') :
    Tidy outer (code ++ code') s s'' where
  temps := Nat.le_trans first.temps second.temps
  labels := Nat.le_trans first.labels second.labels
  made t := by
    have all := within_append first.temps second.temps t.id
    have := first.made t
    have := second.made t
    rw [List.countP_append]
    omega
  read t := by
    have all := within_append first.temps second.temps t.id
    have := first.read t
    have := second.read t
    rw [readCount_append]
    omega
  ready := first.ready.append second.ready
  aside ready := second.aside (first.aside ready)
  jumps around functions := by
    obtain ⟨below, aside⟩ := first.jumps around functions
    obtain ⟨below', aside'⟩ := second.jumps
      (fun l mem => Nat.lt_of_lt_of_le (around l mem) first.labels) aside
    exact ⟨jumpsBelow_append.mpr ⟨below.mono second.labels, below'⟩, aside'⟩

/-- Code without temporaries. -/
theorem plain (temps : s'.supply.temps = s.supply.temps) (functions : s'.functions = s.functions)
    (labels : s.supply.labels ≤ s'.supply.labels) (unmade : ∀ i ∈ code, i.defines? = none)
    (unread : ∀ i ∈ code, i.reads = [])
    (jumps : (∀ l ∈ labelsOf outer, l.id < s.supply.labels) → JumpsBelow s'.supply.labels code) :
    Tidy outer code s s' where
  temps := Nat.le_of_eq temps.symm
  labels := labels
  made t := by
    have none : code.countP (Instr.makes t) = 0 :=
      List.countP_eq_zero.mpr fun i mem => by simp [Instr.makes, unmade i mem]
    simp [none, temps, functions]
  read t := by
    have none : readCount t code = 0 := by
      rw [readCount, List.flatMap_eq_nil_iff.mpr unread, List.count_nil]
    simp [none, functions]
  ready := .of_unread unread
  aside ready := functions ▸ ready
  jumps around below := ⟨jumps around, functions ▸ below.mono labels⟩

theorem label (l : Label) (temps : s'.supply.temps = s.supply.temps)
    (functions : s'.functions = s.functions) (labels : s.supply.labels ≤ s'.supply.labels) :
    Tidy outer [.label l] s s' :=
  plain temps functions labels (by simp [Instr.defines?, Instr.result?])
    (by simp)
    (fun _ => by simp [JumpsBelow, Instr.jump?])

/-- The way out of one part of a statement, and the start of the next one. -/
theorem goto {l : Label} (next : Label) (temps : s'.supply.temps = s.supply.temps)
    (functions : s'.functions = s.functions) (labels : s.supply.labels ≤ s'.supply.labels)
    (taken : l.id < s'.supply.labels) : Tidy outer [.goto l, .label next] s s' :=
  plain temps functions labels (by simp [Instr.defines?, Instr.result?])
    (by simp)
    (fun _ => by simpa [JumpsBelow, Instr.jump?] using taken)

/-- An instruction that reads all that is left to read, without a temporary as its result. -/
theorem consume {waiting : List Name} {i : Instr}
    (spends : Spends s.supply.temps s'.supply.temps code waiting) (reads : i.reads = waiting)
    (unmade : ∀ t, i.makes t = false) (functions : s'.functions = s.functions)
    (labels : s.supply.labels ≤ s'.supply.labels)
    (jumps : ∀ l, i.jump? = some l → l.id < s'.supply.labels) :
    Tidy outer (code ++ [i]) s s' where
  temps := spends.le
  labels := labels
  made t := by
    rw [List.countP_append, spends.made, functions, List.countP_singleton, unmade]
    simp only [Bool.false_eq_true, if_false]
    omega
  read t := by
    have := spends.read t
    rw [readCount_append, readCount_cons, readCount_nil, reads, functions]
    omega
  ready := spends.ready_consume reads
  aside ready := functions ▸ ready
  jumps _ below :=
    ⟨jumpsBelow_append.mpr ⟨.straight spends.straight, by simpa [JumpsBelow] using jumps⟩,
      functions ▸ below.mono labels⟩

/-- The test of a condition. -/
theorem branching (cond : Expr) {holds fails : Label}
    (temps : s'.supply.temps = (expr cond s).2.supply.temps)
    (functions : s'.functions = s.functions) (labels : s.supply.labels ≤ s'.supply.labels)
    (holds_lt : holds.id < s'.supply.labels) (fails_lt : fails.id < s'.supply.labels) :
    Tidy outer (Lower.branching (expr cond s).1 holds fails) s s' := by
  have spends := spends_expr cond s
  rw [← temps] at spends
  have test : Tidy outer ((expr cond s).1.1 ++ [.branch (expr cond s).1.2 holds]) s s' :=
    consume spends (by simp)
      (Instr.makes_of_boundary rfl) functions labels (by simpa [Instr.jump?] using holds_lt)
  have ways : Tidy outer [.goto fails, .label holds] s' s' :=
    goto holds rfl rfl (Nat.le_refl _) fails_lt
  simpa [Lower.branching] using test.append ways

/-- The body of a loop jumps to the labels of its own loop. -/
theorem inLoop {own : Targets} (tidy : Tidy (some own) code s s')
    (next_lt : own.next.id < s.supply.labels) (stop_lt : own.stop.id < s.supply.labels) :
    Tidy outer code s s' :=
  { tidy with jumps := fun _ => tidy.jumps (by simpa [labelsOf] using ⟨next_lt, stop_lt⟩) }

/-- What opening and closing scopes changes does not matter. -/
theorem inScope {inside : Lower (List Instr)}
    (tidy : ∀ s, Tidy outer (inside s).1 s (inside s).2) (s : State) :
    Tidy outer (inScope inside s).1 s (inScope inside s).2 :=
  { tidy (openScope s).2 with }

/-- A function body is set aside with its marker. -/
theorem define {heading : Heading} {braces : Braces} {body : List Stmt}
    (inside : ∀ s, Tidy outer (stmts outer body s).1 s (stmts outer body s).2) (s : State) :
    Tidy outer (stmt outer (.define heading braces body) s).1 s
      (stmt outer (.define heading braces body) s).2 := by
  have tidy := inside (s.inside heading)
  obtain ⟨supply, functions⟩ := params_unchanged heading.params (openScope s).2
  have taken : (s.inside heading).supply = s.supply := supply
  have before : (s.inside heading).functions = s.functions := functions
  rw [stmt_define]
  generalize stmts outer body (s.inside heading) = code at tidy ⊢
  have marker (t : Temp) : Instr.makes t (.function heading.name.val
      (params heading.params (openScope s).2).1) = false := Instr.makes_of_boundary rfl t
  constructor
  · exact taken ▸ tidy.temps
  · exact taken ▸ tidy.labels
  · intro t
    have made := tidy.made t
    rw [taken, before] at made
    simp only [List.countP_nil, List.countP_append, List.countP_cons, marker, Bool.false_eq_true,
      if_false]
    exact Eq.trans (by omega) made
  · intro t
    have read := tidy.read t
    rw [taken, before] at read
    simp only [readCount_nil, readCount_append, readCount_cons]
    exact Nat.le_trans (by simp [Nat.add_comm]) read
  · exact trivial
  · intro ready
    exact (tidy.aside (before ▸ ready)).append ⟨nofun, tidy.ready⟩
  · intro around below
    obtain ⟨inBody, aside⟩ := tidy.jumps (taken ▸ around) (taken ▸ before ▸ below)
    refine ⟨nofun, jumpsBelow_append.mpr ⟨aside, List.forall_mem_cons.mpr ⟨?_, inBody⟩⟩⟩
    simp [Instr.jump?]

end Tidy

/-- What is to be shown of a statement, wherever it is lowered. -/
def TidyAction (outer : Option Targets) (action : Lower (List Instr)) : Prop :=
  ∀ s, Tidy outer (action s).1 s (action s).2

variable {outer : Option Targets}

theorem tidy_declaration (d : Declaration) : TidyAction outer (declaration d) := by
  intro s
  obtain ⟨type, name, length, init⟩ := d
  cases init with
  | none =>
      have supply := supply_declared s name.val type.val
      rw [declaration_none]
      exact .plain (congrArg Supply.temps supply) (functions_declared ..)
        (Nat.le_of_eq (congrArg Supply.labels supply).symm) nofun nofun fun _ => nofun
  | some init =>
      have supply := supply_declared (expr init s).2 name.val type.val
      have spends := spends_expr init s
      rw [← congrArg Supply.temps supply] at spends
      rw [declaration_some]
      exact .consume spends (by simp)
        (by simp [Instr.makes, Instr.defines?, Instr.result?, Operand.name?])
        (functions_declared ..) (Nat.le_of_eq (congrArg Supply.labels supply).symm)
        (by simp [Instr.jump?])

theorem tidy_assignment (target : String) (index : Option Expr) (value : Expr) :
    TidyAction outer (assignment target index value) := by
  intro s
  cases index with
  | none =>
      rw [assignment_none]
      exact .consume (spends_expr value s) (by simp)
        (by simp [Instr.makes, Instr.defines?, Instr.result?, Operand.name?])
        rfl (Nat.le_refl _) (by simp [Instr.jump?])
  | some index =>
      -- The index waits while the value is computed, and is read after the value.
      have spends := (spends_expr index s).append (spends_expr value (expr index s).2)
      rw [assignment_some]
      exact .consume (spends.reorder List.perm_append_comm) (by simp)
        (by simp [Instr.makes, Instr.defines?, Instr.result?, Operand.name?])
        rfl (Nat.le_refl _) (by simp [Instr.jump?])

theorem tidy_ifThen (cond : Expr) (braces : Braces) {body : List Stmt}
    (inside : TidyAction outer (stmts outer body)) :
    TidyAction outer (stmt outer (.ifThen cond braces body)) := by
  intro s
  have inner := Tidy.inScope inside ((expr cond s).2.skip 2)
  rw [stmt_ifThen]
  dsimp only
  generalize inScope (stmts outer body) ((expr cond s).2.skip 2) = code at inner ⊢
  have test : Tidy outer (Lower.branching (expr cond s).1 ((expr cond s).2.label 0)
      ((expr cond s).2.label 1)) s ((expr cond s).2.skip 2) :=
    .branching cond rfl rfl (Nat.le_add_right _ 2) (Nat.add_lt_add_left (by decide) _)
      (Nat.add_lt_add_left (by decide) _)
  exact (test.append inner).append (.label _ rfl rfl (Nat.le_refl _))

theorem tidy_ifElse (cond : Expr) (braces elseBraces : Braces) {body elseBody : List Stmt}
    (inside : TidyAction outer (stmts outer body))
    (otherwise : TidyAction outer (stmts outer elseBody)) :
    TidyAction outer (stmt outer (.ifElse cond braces body elseBraces elseBody)) := by
  intro s
  have inner := Tidy.inScope inside ((expr cond s).2.skip 2)
  rw [stmt_ifElse]
  dsimp only
  generalize inScope (stmts outer body) ((expr cond s).2.skip 2) = code at inner ⊢
  have other := Tidy.inScope otherwise (code.2.skip 1)
  generalize inScope (stmts outer elseBody) (code.2.skip 1) = elseCode at other ⊢
  have test : Tidy outer (Lower.branching (expr cond s).1 ((expr cond s).2.label 0)
      ((expr cond s).2.label 1)) s ((expr cond s).2.skip 2) :=
    .branching cond rfl rfl (Nat.le_add_right _ 2) (Nat.add_lt_add_left (by decide) _)
      (Nat.add_lt_add_left (by decide) _)
  have between : Tidy outer [.goto (code.2.label 0), .label ((expr cond s).2.label 1)] code.2
      (code.2.skip 1) :=
    .goto _ rfl rfl (Nat.le_add_right _ 1) (Nat.add_lt_add_left (by decide) _)
  exact (((test.append inner).append between).append other).append
    (.label _ rfl rfl (Nat.le_refl _))

theorem tidy_whileLoop (cond : Expr) (braces : Braces) {body : List Stmt}
    (inside : ∀ own, TidyAction (some own) (stmts (some own) body)) :
    TidyAction outer (stmt outer (.whileLoop cond braces body)) := by
  intro s
  have inner : Tidy outer _ _ _ := (Tidy.inScope (inside ⟨s.label 0, s.label 2⟩)
    (expr cond (s.skip 3)).2).inLoop (Nat.add_lt_add_left (by decide) _)
      (Nat.add_lt_add_left (by decide) _)
  rw [stmt_whileLoop]
  dsimp only
  generalize inScope (stmts (some ⟨s.label 0, s.label 2⟩) body) _ = code at inner ⊢
  have start : Tidy outer [.label (s.label 0)] s (s.skip 3) :=
    .label _ rfl rfl (Nat.le_add_right _ 3)
  have test : Tidy outer (Lower.branching (expr cond (s.skip 3)).1 (s.label 1) (s.label 2))
      (s.skip 3) (expr cond (s.skip 3)).2 :=
    .branching cond rfl rfl (Nat.le_refl _) (Nat.add_lt_add_left (by decide) _)
      (Nat.add_lt_add_left (by decide) _)
  have again : Tidy outer [.goto (s.label 0), .label (s.label 2)] code.2 code.2 :=
    .goto _ rfl rfl (Nat.le_refl _)
      (Nat.lt_of_lt_of_le (Nat.add_lt_add_left (by decide) _) inner.labels)
  exact ((start.append test).append inner).append again

theorem tidy_forLoop {init : Option Stmt} (cond : Expr) {update : Option Stmt} (braces : Braces)
    {body : List Stmt} (begins : TidyAction outer (header outer init))
    (inside : ∀ own, TidyAction (some own) (stmts (some own) body))
    (steps : TidyAction outer (header outer update)) :
    TidyAction outer (stmt outer (.forLoop init cond update braces body)) := by
  have rounds : TidyAction outer (forRounds outer cond update body) := by
    intro s
    have inner : Tidy outer _ _ _ := (Tidy.inScope (inside ⟨s.label 2, s.label 3⟩)
      (expr cond (s.skip 4)).2).inLoop (Nat.add_lt_add_left (by decide) _)
        (Nat.add_lt_add_left (by decide) _)
    unfold forRounds
    dsimp only
    generalize inScope (stmts (some ⟨s.label 2, s.label 3⟩) body) _ = code at inner ⊢
    have updates := steps code.2
    generalize header outer update code.2 = updateCode at updates ⊢
    have start : Tidy outer [.label (s.label 0)] s (s.skip 4) :=
      .label _ rfl rfl (Nat.le_add_right _ 4)
    have test : Tidy outer (Lower.branching (expr cond (s.skip 4)).1 (s.label 1) (s.label 3))
        (s.skip 4) (expr cond (s.skip 4)).2 :=
      .branching cond rfl rfl (Nat.le_refl _) (Nat.add_lt_add_left (by decide) _)
        (Nat.add_lt_add_left (by decide) _)
    have between : Tidy outer [.label (s.label 2)] code.2 code.2 := .label _ rfl rfl (Nat.le_refl _)
    have again : Tidy outer [.goto (s.label 0), .label (s.label 3)] updateCode.2 updateCode.2 :=
      .goto _ rfl rfl (Nat.le_refl _)
        (Nat.lt_of_lt_of_le (Nat.lt_of_lt_of_le (Nat.add_lt_add_left (by decide) _) inner.labels)
          updates.labels)
    have whole := ((start.append test).append inner).append ((between.append updates).append again)
    simpa using whole
  intro s
  rw [stmt_forLoop]
  exact Tidy.inScope (fun s => (begins s).append (rounds _)) s

/-- A jump to one of the targets around it. -/
theorem tidy_exit {goal : Targets → Label} (mem : ∀ t, goal t ∈ labelsOf (some t)) (s : State) :
    Tidy outer (outer.map fun t => Instr.goto (goal t)).toList s s := by
  refine .plain rfl rfl (Nat.le_refl _) ?_ ?_ fun around => ?_
  · cases outer <;> simp [Instr.defines?, Instr.result?]
  · cases outer <;> simp
  · cases outer with
    | none => simp [JumpsBelow]
    | some t => simpa [JumpsBelow, Instr.jump?] using around _ (mem t)

mutual

/-- **Statements read what they make**, once each and in the basic block where they make it. -/
theorem tidy_stmt (outer : Option Targets) : (x : Stmt) → TidyAction outer (stmt outer x)
  | .declare _ d => tidy_declaration d
  | .prototype .. => fun _ => .plain rfl rfl (Nat.le_refl _) nofun nofun fun _ => nofun
  | .define _ _ body => Tidy.define (tidy_stmts outer body)
  | .assign _ target index value => tidy_assignment target.val index value
  | .call _ callee args => fun s => by
      have spends := spends_lowerExpr s.resolve (.call {} callee args) s.supply.temps
      exact
        { temps := spends.le
          labels := Nat.le_refl _
          made := fun t => (Nat.add_comm ..).trans (congrArg _ (spends.made t))
          read := fun t => by
            have := spends.read t
            change readCount t (lowerExpr s.resolve s.supply.temps (.call {} callee args)).instrs +
              readCount t s.functions ≤ _
            exact Nat.add_comm .. ▸ Nat.add_le_add_left (Nat.le_trans (Nat.le_add_right ..) this) _
          ready := spends.ready
          aside := id
          jumps := fun _ below => ⟨.straight spends.straight, below⟩ }
  | .block _ body => Tidy.inScope (tidy_stmts outer body)
  | .ifThen cond braces body => tidy_ifThen cond braces (tidy_stmts outer body)
  | .ifElse cond braces body elseBraces elseBody =>
      tidy_ifElse cond braces elseBraces (tidy_stmts outer body) (tidy_stmts outer elseBody)
  | .whileLoop cond braces body =>
      tidy_whileLoop cond braces fun own => tidy_stmts (some own) body
  | .forLoop init cond update braces body =>
      tidy_forLoop cond braces (tidy_header outer init) (fun own => tidy_stmts (some own) body)
        (tidy_header outer update)
  | .breakLoop _ | .continueLoop _ => tidy_exit fun t => by simp [labelsOf]
  | .returnValue _ none => fun _ =>
      .plain rfl rfl (Nat.le_refl _) (List.forall_mem_singleton.mpr rfl)
        (List.forall_mem_singleton.mpr rfl) fun _ => List.forall_mem_singleton.mpr nofun
  | .returnValue _ (some e) => fun s =>
      .consume (spends_expr e s) (Instr.reads_ret_some _)
        (by simp [Instr.makes, Instr.defines?, Instr.result?]) rfl (Nat.le_refl _)
        (by simp [Instr.jump?])

theorem tidy_header (outer : Option Targets) : (part : Option Stmt) →
    TidyAction outer (header outer part)
  | none => fun _ => .plain rfl rfl (Nat.le_refl _) nofun nofun fun _ => nofun
  | some x => tidy_stmt outer x

theorem tidy_stmts (outer : Option Targets) : (body : List Stmt) →
    TidyAction outer (stmts outer body)
  | [] => fun _ => .plain rfl rfl (Nat.le_refl _) nofun nofun fun _ => nofun
  | x :: rest => fun s => (tidy_stmt outer x s).append (tidy_stmts outer rest _)

end

end Lower

/-! ### Programs -/

/-- The temporary or the label occurs in the instruction. -/
def Instr.mentionsTemp (i : Instr) (t : Temp) : Prop :=
  i.makes t = true ∨ .temp t ∈ i.reads

def Instr.mentionsLabel (i : Instr) (l : Label) : Prop := i = .label l ∨ i.jump? = some l

/-- Temporaries and labels are used in an orderly way. -/
structure SingleAssignment (code : List Instr) : Prop where
  /-- Every temporary is the result of exactly one instruction. -/
  made : ∀ t, (∃ i ∈ code, i.mentionsTemp t) → code.countP (Instr.makes t) = 1
  /-- No temporary is read twice, by two instructions or by one. -/
  read : ∀ t, readCount t code ≤ 1
  /-- It is read after it was made, and no basic block begins or ends in between. -/
  placed : ∀ (j : Nat) (i : Instr) (t : Temp), code[j]? = some i → .temp t ∈ i.reads →
    ∃ k < j, ∃ x, code[k]? = some x ∧ x.makes t = true ∧
      ∀ m, k < m → m < j → ∀ y, code[m]? = some y → y.isBoundary = false
  /-- Every label, also one that is only jumped to, stands in exactly one place. -/
  labels : ∀ l, (∃ i ∈ code, i.mentionsLabel l) → code.count (.label l) = 1

section Supply

variable (p : Program)

/-- The code of a program makes each of the temporaries that have been taken once, and no other. -/
theorem makes_lower (t : Temp) : p.lower.1.instrs.countP (Instr.makes t) =
    Lower.within 0 (lastStage p).supply.temps t.id := by
  have made := (Lower.tidy_stmts none p.stmts (Lower.openScope {}).2).made t
  exact List.countP_append.trans (made.trans (Nat.zero_add _))

/-- The code of a program reads each of the temporaries that have been taken at most once, and no
other. -/
theorem reads_lower (t : Temp) : readCount t p.lower.1.instrs ≤
    Lower.within 0 (lastStage p).supply.temps t.id := by
  have read := (Lower.tidy_stmts none p.stmts (Lower.openScope {}).2).read t
  exact (readCount_append ..).trans_le (read.trans (Nat.le_of_eq (Nat.zero_add _)))

/-- The code of a program jumps to labels that have been taken. -/
theorem jumps_lower : Lower.JumpsBelow (lastStage p).supply.labels p.lower.1.instrs :=
  Lower.jumpsBelow_append.mpr
    ((Lower.tidy_stmts none p.stmts (Lower.openScope {}).2).jumps nofun nofun)

/-- The code of a program starts with nothing at hand and needs nothing. -/
theorem supplied_lower : Supplied [] p.lower.1.instrs := by
  have tidy := Lower.tidy_stmts none p.stmts (Lower.openScope {}).2
  exact tidy.ready.append (tidy.aside trivial)

end Supply

/-- **Lowered code is in order**, whatever the program: every temporary is made once, read at most
once, and read in the basic block in which it is made; every label stands in one place, and every
jump goes to one that stands somewhere. -/
theorem lower_singleAssignment (p : Program) : SingleAssignment p.lower.1.instrs := by
  refine ⟨fun t ⟨i, mem, mentions⟩ => ?_, fun t => (reads_lower p t).trans (Lower.within_le ..), ?_,
    fun l ⟨i, mem, mentions⟩ => ?_⟩
  · have atMost := Lower.within_le 0 (lastStage p).supply.temps t.id
    have made := makes_lower p t
    rcases mentions with makes | reads
    · have some : 0 < p.lower.1.instrs.countP (Instr.makes t) :=
        List.countP_pos_iff.mpr ⟨i, mem, makes⟩
      omega
    · have some : 0 < readCount t p.lower.1.instrs :=
        List.count_pos_iff.mpr (List.mem_flatMap.mpr ⟨i, mem, reads⟩)
      have read := reads_lower p t
      omega
  · intro j i t at_j reads
    exact ((supplied_lower p).exists_makes at_j reads).resolve_left
      fun atHand => List.not_mem_nil atHand.1
  · have atMost := Lower.within_le 0 (lastStage p).supply.labels l.id
    have stands := count_label_lower p l
    rcases mentions with rfl | jump
    · have some : 0 < p.lower.1.instrs.count (.label l) := List.count_pos_iff.mpr mem
      omega
    · have taken := jumps_lower p i mem l jump
      rw [stands, Lower.within, if_pos ⟨Nat.zero_le _, taken⟩]

end BraceLang.Tac
