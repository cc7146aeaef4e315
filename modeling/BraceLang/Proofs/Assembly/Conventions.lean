import BraceLang.Proofs.Assembly.Discipline
import BraceLang.Proofs.Assembly.Expressions
import BraceLang.Proofs.Calls

/-!
How a call and the function it calls agree. The caller pushes the arguments from the last to the
first, by what it knows of the function; the function gives its parameters places above its frame
pointer, from the first to the last, by its own heading. In an accepted program every argument is
where its parameter is expected.

**Main results.** `run_pushArg`: what is pushed is the value of the argument, converted to the type
of the parameter. `exprArgs_split`: where on the stack each argument is. `lookup_enterRoutine`:
where a function expects each parameter. `calls_conform`: both in one, with the result on its way
back.
-/

namespace BraceLang.Assembly

open Machine

/-! ### Values on their way -/

section Values

variable {F : Type} {p : Platform F} {m : Machine F} {st : List F} {v : Value F} {low : Nat}

namespace Value

/-- The value in the domain of a type; a `bool` is 0 or 1. -/
def convert (fl : Floats F) (v : Value F) (t : Ty) : Value F :=
  if t = .bool then int (ofTruth (v.isTrue fl))
  else match t.domain with
    | .int => int (v.toInt fl)
    | .float => float (v.toFloat fl)

theorem domain_convert (fl : Floats F) (v : Value F) (t : Ty) :
    (v.convert fl t).domain = t.domain := by
  cases t <;> rfl

end Value

/-- The instructions bring a value of the domain, from its own place to the place that is right for
the type. -/
def Converts (d : Domain) (t : Ty) (instrs : List Instr) : Prop :=
  ∀ (F : Type) (p : Platform F) (m : Machine F) (st : List F) (v : Value F) (low : Nat),
    v.domain = d → m.Shows st v → low + 4 ≤ m.esp.toNat →
      ∃ m', m.run p (code instrs) = .ok m' ∧ m'.Shows st (v.convert p.toFloats t) ∧ Kept low m m'

/-- The instructions push a value of the domain, converted to the type, and touch nothing above. -/
def Pushes (d : Domain) (t : Ty) (instrs : List Instr) : Prop :=
  ∀ (F : Type) (p : Platform F) (m : Machine F) (st : List F) (v : Value F) (low : Nat),
    v.domain = d → m.Shows st v → low + 8 ≤ m.esp.toNat →
      ∃ m', m.run p (code instrs) = .ok m' ∧ m'.Waits p.toFloats (v.convert p.toFloats t) ∧
        m'.fpu = st ∧ m'.esp = m.esp - BitVec.ofNat 32 (argumentBytes t) ∧ m'.ebp = m.ebp ∧
        ∀ a, a.toNat < low ∨ m.esp.toNat ≤ a.toNat → m'.mem a = m.mem a

/-- The instructions put some value into the place that is right for the type. -/
def Supplies (t : Ty) (instrs : List Instr) : Prop :=
  ∀ (F : Type) (p : Platform F) (m : Machine F), ∃ m' v, m.run p (code instrs) = .ok m' ∧
    m'.Shows m.fpu v ∧ v.domain = t.domain

theorem run_toBool (shows : m.Shows st v) :
    ∃ m', m.run p (code (truth v.domain)) = .ok m' ∧
      m'.Shows st (.int (ofTruth (v.isTrue p.toFloats))) ∧ Kept low m m' := by
  obtain ⟨flags, runs⟩ := run_truth (p := p) shows
  exact ⟨_, runs, ⟨rfl, rfl⟩, .of_eq rfl rfl rfl⟩

theorem run_toDomain (shows : m.Shows st v) (room : low + 4 ≤ m.esp.toNat) {t : Ty}
    (notBool : t ≠ .bool) :
    ∃ m', m.run p (code (Assembly.convert v.domain t)) = .ok m' ∧
      m'.Shows st (v.convert p.toFloats t) ∧ Kept low m m' := by
  unfold Assembly.convert Value.convert
  rw [if_neg notBool, if_neg notBool]
  cases v with
  | int n =>
      obtain ⟨rfl, rfl⟩ := shows
      cases t.domain with
      | int => exact ⟨m, rfl, ⟨rfl, rfl⟩, .refl low m⟩
      | float => exact run_toFloat room
  | float x =>
      cases t.domain with
      | int =>
          obtain ⟨m', runs, eax, fpu, kept⟩ := run_toInt (p := p) shows room
          exact ⟨m', runs, ⟨eax, fpu⟩, kept⟩
      | float => exact ⟨m, rfl, shows, .refl low m⟩

theorem run_convert (d : Domain) (t : Ty) : Converts d t (convert d t) := by
  rintro F p m st v low rfl shows room
  by_cases isBool : t = .bool
  · subst isBool
    exact run_toBool shows
  · exact run_toDomain shows room isBool

theorem run_pushArg (d : Domain) (t : Ty) : Pushes d t (convert d t ++ pushValue t.domain) := by
  rintro F p m st v low is shows room
  obtain ⟨m₁, converts, shown, kept⟩ := run_convert d t F p m st v low is shows (by omega)
  have room' : low + pushedBytes (v.convert p.toFloats t).domain ≤ m₁.esp.toNat := by
    have width := pushedBytes_le (v.convert p.toFloats t).domain
    rw [kept.esp]
    omega
  obtain ⟨m₂, pushes, fpu, ebp, esp, waits, mem⟩ := run_pushValue (p := p) shown room'
  rw [Value.domain_convert] at pushes esp
  refine ⟨m₂, ?_, waits, fpu, ?_, ebp.trans kept.ebp, ?_⟩
  · rw [run_code_append, converts]
    exact pushes
  · rw [esp, kept.esp]
    rfl
  · intro a outside
    rw [mem a (kept.esp.symm ▸ outside), kept.mem a outside]

theorem run_defaultValue (t : Ty) : Supplies t (defaultValue t) := by
  intro F p m
  cases t with
  | double => exact ⟨_, .float p.zero, rfl, rfl, rfl⟩
  | _ => exact ⟨_, .int 0, rfl, ⟨rfl, rfl⟩, rfl⟩

end Values

/-! ### What stays on the stack -/

/-- However the lines are read, `esp` is nowhere on the way more than `bound` above its start. -/
def Under (iface : Interface) (bound : Int) (lines : List Line) : Prop :=
  ∀ base k i, (heightAfter iface base k (lines.take i)).esp ≤ k.esp + bound

/-- The same of instructions, one after the other. -/
def staysUnder (iface : Interface) : Int → List Instr → Bool
  | bound, [] => 0 ≤ bound
  | bound, i :: rest => 0 ≤ bound && staysUnder iface (bound - (i.effect iface).1) rest

variable {iface : Interface}

theorem under_nil {bound : Int} (positive : 0 ≤ bound) : Under iface bound [] := by
  intro base k i
  rw [List.take_nil, heightAfter_nil]
  omega

theorem Under.append {bytes depth bound bound' : Int} {first second : List Line}
    (one : Under iface bound first) (shifts : Shifts iface bytes depth first)
    (other : Under iface bound' second) (within : bytes + bound' ≤ bound) :
    Under iface bound (first ++ second) := by
  intro base k i
  rw [List.take_append, heightAfter_append]
  by_cases inside : i ≤ first.length
  · rw [Nat.sub_eq_zero_of_le inside, List.take_zero, heightAfter_nil]
    exact one base k i
  · have behind := other base (k.shift bytes depth) (i - first.length)
    rw [List.take_of_length_le (by omega), shifts.height]
    simp only [Stacks.shift] at behind ⊢
    omega

/-- Lines that do not raise `esp`. -/
theorem under_of_sinking {lines : List Line}
    (sinking : ∀ x ∈ lines, ∀ base k, (readLine iface base k x).esp ≤ k.esp) :
    Under iface 0 lines := by
  intro base k i
  rw [Int.add_zero]
  induction lines generalizing k i with
  | nil =>
      rw [List.take_nil]
      exact Int.le_refl _
  | cons x rest ih =>
      cases i with
      | zero => exact Int.le_refl _
      | succ i =>
          have first := sinking x List.mem_cons_self base k
          have others := ih (fun y mem => sinking y (List.mem_cons_of_mem x mem))
            (readLine iface base k x) i
          exact Int.le_trans others first

theorem under_of {instrs : List Instr} {bound : Int} (isPlain : instrs.all Instr.isPlain = true)
    (stays : staysUnder iface bound instrs = true) : Under iface bound (code instrs) := by
  induction instrs generalizing bound with
  | nil => exact under_nil (of_decide_eq_true stays)
  | cons i rest ih =>
      rw [List.all_cons, Bool.and_eq_true] at isPlain
      obtain ⟨here, later⟩ := Bool.and_eq_true_iff.mp stays
      have positive : 0 ≤ bound := of_decide_eq_true here
      have step (base k : Stacks) : readLine iface base k (.instr i) = k.shift _ _ :=
        (shifts_instr isPlain.1).height base k
      intro base k n
      cases n with
      | zero =>
          change k.esp ≤ k.esp + bound
          omega
      | succ n =>
          have others := ih isPlain.2 later base (readLine iface base k (.instr i)) n
          change (heightAfter iface base (readLine iface base k (.instr i))
            ((code rest).take n)).esp ≤ _
          rw [step] at others ⊢
          simp only [Stacks.shift] at others ⊢
          omega

theorem under_convert (d : Domain) (t : Ty) : Under iface 0 (code (convert d t)) := by
  cases t <;> cases d <;> exact under_of rfl rfl

theorem under_pushValue (d : Domain) : Under iface 0 (code (pushValue d)) := by
  cases d <;> exact under_of rfl rfl

theorem under_unaryOp (op : UnOp) (d : Domain) : Under iface 0 (code (unaryOp op d).1) := by
  cases op <;> cases d <;> exact under_of rfl rfl

theorem under_pushArg (d : Domain) (param : Option Ty) :
    Under iface 0 (code (pushArg d param).1) := by
  cases param with
  | none => exact under_pushValue d
  | some t => cases t <;> cases d <;> exact under_of rfl rfl

theorem under_remainder (again : Target) : Under iface 0 (remainder again) := by
  apply under_of_sinking
  intro x mem base k
  simp only [remainder, code, List.map_cons, List.map_nil, List.mem_cons, List.not_mem_nil,
    or_false] at mem
  rcases mem with rfl | rfl | rfl | rfl | rfl | rfl <;>
    simp [readLine, Line.falls, Instr.leaves, Stacks.afterLine, Stacks.after, Stacks.shift,
      Instr.effect]

theorem under_integerOp (op : BinOp) : Under iface 0 (code (integerOp op)) := by
  cases op <;> exact under_of rfl rfl

theorem under_floatOp (op : BinOp) (s : State) : Under iface 0 (floatOp op s).1.1 := by
  cases op with
  | mod => exact under_remainder _
  | _ => exact under_of rfl rfl

theorem under_popped (left right : Domain) :
    Under iface (pushedBytes left) (code (asFloat right ++ popAsFloat left)) := by
  cases left <;> cases right <;> exact under_of rfl rfl

theorem shifts_popped (left right : Domain) :
    Shifts iface (pushedBytes left) (2 - depthOf right)
      (code (asFloat right ++ popAsFloat left)) := by
  cases left <;> cases right <;> exact shifts_of rfl rfl

theorem under_connective (op : Alu) (left right : Domain) :
    Under iface (pushedBytes left) (code (connective op left right)) := by
  cases left <;> cases right <;> exact under_of rfl rfl

/-- An operator takes the left operand from the stack, and no more. -/
theorem under_binaryOp (op : BinOp) (left right : Domain) (s : State) :
    Under iface (pushedBytes left) (binaryOp op left right s).1.1 := by
  by_cases logical : op.isLogical = true
  · cases op with
    | and | or => exact under_connective _ left right
    | _ => contradiction
  · have arithmetic : op.isLogical = false := Bool.eq_false_iff.mpr logical
    by_cases words : left = .int ∧ right = .int
    · obtain ⟨rfl, rfl⟩ := words
      have popped : Under iface 4 (code [.movReg .ecx .eax, .pop .eax]) := under_of rfl rfl
      have pops : Shifts iface 4 0 (code [.movReg .ecx .eax, .pop .eax]) := shifts_of rfl rfl
      rw [binaryOp_words s arithmetic, code_append]
      exact popped.append pops (under_integerOp op) (Int.le_refl 4)
    · rw [binaryOp_mixed s arithmetic words]
      exact (under_popped left right).append (shifts_popped left right) (under_floatOp op s)
        (Int.le_of_eq (Int.add_zero _))

theorem under_literal (value : Literal) (s : State) :
    Under iface 0 (code (literal value s).1.1) := by
  cases value with
  | number text =>
      by_cases point : hasPoint text = true
      · simp only [literal, point, if_true]
        exact under_of rfl rfl
      · simp only [literal, point]
        exact under_of rfl rfl
  | char text => exact under_of rfl rfl
  | bool value => exact under_of rfl rfl

theorem under_readSlot (name : String) (indexed : Bool) (s : State) :
    Under iface 0 (code (readSlot name indexed s).1.1) := by
  rw [readSlot_eq]
  cases s.env.stack.lookup name with
  | none => exact under_of rfl rfl
  | some slot =>
      change Under iface 0 (code (loadSlot slot indexed))
      unfold loadSlot
      cases slot.type <;> exact under_of rfl rfl

theorem under_callCode (name : String) (bytes : Nat) :
    Under iface bytes (code (callCode name bytes)) := by
  rcases Nat.eq_zero_or_pos bytes with rfl | positive
  · exact under_of rfl rfl
  · rw [callCode, if_pos positive]
    exact under_of rfl (by simp [staysUnder, Instr.effect])

variable (iface)

mutual

/-- The code of an expression never takes anything from the stack that it did not push. -/
theorem under_expr : (e : Expr) → ∀ s : State, Under iface 0 (expr iface e s).1.1
  | .literal pos value, s => by
      rw [expr_literal]
      exact under_literal value s
  | .var pos name, s => by
      rw [expr_var]
      exact under_readSlot name false s
  | .element pos array index, s => by
      rw [expr_element]
      dsimp only
      rw [code_append, code_append]
      have moved : Under iface 0 (code [.movReg .ecx .eax]) := under_of rfl rfl
      have moves : Shifts iface 0 0 (code [.movReg .ecx .eax]) := shifts_of rfl rfl
      have converts : Shifts iface 0 _ _ := shifts_convert (expr iface index s).1.2 .int
      have upToIndex := (under_convert (expr iface index s).1.2 .int).append converts moved
        (Int.le_refl 0)
      exact (under_expr index s).append (shifts_expr iface index s)
        (upToIndex.append (converts.append moves) (under_readSlot array true _) (Int.le_refl 0))
        (Int.le_refl 0)
  | .unary pos op operand, s => by
      rw [expr_unary]
      exact (under_expr operand s).append (shifts_expr iface operand s) (under_unaryOp op _)
        (Int.le_refl 0)
  | .binary pos op left right, s => by
      rw [expr_binary]
      dsimp only
      have pushes := (shifts_expr iface left s).append (shifts_pushValue (expr iface left s).1.2)
      have pushed := (under_expr left s).append (shifts_expr iface left s)
        (under_pushValue (expr iface left s).1.2) (Int.le_refl 0)
      have both := pushed.append pushes (under_expr right (expr iface left s).2) (by omega)
      exact both.append (pushes.append (shifts_expr iface right _)) (under_binaryOp op _ _ _)
        (by omega)
  | .call pos name args, s => by
      have pushes := shifts_exprArgs iface (iface.params name.val) args (callee iface name.val s).2
      have called := (under_exprArgs (iface.params name.val) args
        (callee iface name.val s).2).append pushes (under_callCode name.val _)
        (Int.le_of_eq (Int.add_left_neg _))
      rw [expr_call]
      dsimp only
      split
      · exact called
      · have zero : Under iface 0 (code [.movNat .eax 0]) := under_of rfl rfl
        exact called.append (pushes.call name.val) zero (Int.le_refl 0)

theorem under_exprArgs : (params : List Ty) → (args : List Expr) → ∀ s : State,
    Under iface 0 (exprArgs iface params args s).1.1
  | params, [], s => by
      rw [exprArgs_nil]
      exact under_nil (Int.le_refl 0)
  | params, arg :: args, s => by
      rw [exprArgs_cons]
      dsimp only
      have pushes := shifts_exprArgs iface params.tail args s
      have upToValue := (under_exprArgs params.tail args s).append pushes
        (under_expr arg (exprArgs iface params.tail args s).2) (by omega)
      exact upToValue.append (pushes.append (shifts_expr iface arg _)) (under_pushArg _ _)
        (by omega)

end

variable {iface}

/-! ### Arguments -/

/-- The code that pushes the value of an argument for a parameter of a type. -/
def argumentLines (iface : Interface) (arg : Expr) (t : Ty) (s : State) : List Line :=
  (expr iface arg s).1.1 ++ code (convert (expr iface arg s).1.2 t ++ pushValue t.domain)

/-- The bytes that arguments for the types take together. -/
def argumentsBytes : List Ty → Nat
  | [] => 0
  | t :: rest => argumentBytes t + argumentsBytes rest

theorem argumentsBytes_append (first second : List Ty) :
    argumentsBytes (first ++ second) = argumentsBytes first + argumentsBytes second := by
  induction first with
  | nil => exact (Nat.zero_add _).symm
  | cons t rest ih => rw [List.cons_append, argumentsBytes, ih, argumentsBytes, Nat.add_assoc]

theorem shifts_argumentLines (arg : Expr) (t : Ty) (s : State) :
    Shifts iface (-argumentBytes t) 0 (argumentLines iface arg t s) :=
  ((shifts_expr iface arg s).append (shifts_pushArg _ (some t))).cast
    (by simp [pushArg, argumentBytes]) (Int.add_right_neg _)

theorem under_argumentLines (arg : Expr) (t : Ty) (s : State) :
    Under iface 0 (argumentLines iface arg t s) :=
  (under_expr iface arg s).append (shifts_expr iface arg s) (under_pushArg _ (some t))
    (Int.le_refl 0)

/-- The code that pushes arguments, around that of one of them. What comes behind it pushes the
arguments before it, and takes nothing away. -/
theorem exprArgs_split {params : List Ty} {args : List Expr} {i : Nat} {t : Ty} {arg : Expr}
    (param : params[i]? = some t) (given : args[i]? = some arg) (s : State) :
    ∃ before s' after,
      (exprArgs iface params args s).1.1 = before ++ argumentLines iface arg t s' ++ after ∧
      Shifts iface (argumentsBytes (params.take i) - (exprArgs iface params args s).1.2) 0
        (before ++ argumentLines iface arg t s') ∧
      Shifts iface (-argumentsBytes (params.take i)) 0 after ∧ Under iface 0 after := by
  induction i generalizing params args with
  | zero =>
      obtain ⟨rest, rfl⟩ : ∃ rest, params = t :: rest := by
        cases params with
        | nil => contradiction
        | cons _ rest => exact ⟨rest, congrArg (· :: rest) (Option.some.inj param)⟩
      obtain ⟨others, rfl⟩ : ∃ others, args = arg :: others := by
        cases args with
        | nil => contradiction
        | cons _ others => exact ⟨others, congrArg (· :: others) (Option.some.inj given)⟩
      rw [exprArgs_cons]
      refine ⟨(exprArgs iface rest others s).1.1, (exprArgs iface rest others s).2, [], ?_, ?_,
        .nil, under_nil (Int.le_refl 0)⟩
      · simp [argumentLines, pushArg]
      · refine ((shifts_exprArgs iface rest others s).append
          (shifts_argumentLines arg t _)).cast ?_ rfl
        simp only [pushArg, argumentsBytes, argumentBytes, List.head?_cons, List.tail_cons,
          List.take_zero, Int.natCast_add]
        omega
  | succ i ih =>
      cases params with
      | nil => contradiction
      | cons t₀ rest =>
          cases args with
          | nil => contradiction
          | cons arg₀ others =>
              obtain ⟨before, s', after, lines, shifts, pushes, under⟩ := ih param given
              rw [exprArgs_cons]
              refine ⟨before, s', after ++ argumentLines iface arg₀ t₀
                (exprArgs iface rest others s).2, ?_, ?_, ?_, ?_⟩
              · simp [argumentLines, pushArg, lines]
              · refine shifts.cast ?_ rfl
                simp only [pushArg, argumentsBytes, argumentBytes, List.head?_cons, List.tail_cons,
                  List.take_succ_cons, Int.natCast_add]
                omega
              · refine (pushes.append (shifts_argumentLines arg₀ t₀ _)).cast ?_ rfl
                simp only [argumentsBytes, List.take_succ_cons, Int.natCast_add]
                omega
              · exact under.append pushes (under_argumentLines arg₀ t₀ _) (by omega)

/-! ### Parameters -/

/-- The distance of a parameter from the frame pointer of its function. -/
def paramOffset (params : List Param) (i : Nat) : Nat :=
  firstArgument + argumentsBytes ((params.take i).map fun p => typeOf p.type.val)

/-- A parameter takes eight bytes if it is a `double`, and four otherwise. -/
theorem paramOffset_succ {params : List Param} {i : Nat} {param : Param}
    (here : params[i]? = some param) : paramOffset params (i + 1) =
      paramOffset params i + if typeOf param.type.val = .double then 8 else 4 := by
  have width (t : Ty) : argumentBytes t = if t = .double then 8 else 4 := by cases t <;> rfl
  rw [paramOffset, paramOffset, List.take_add_one, here, ← width]
  simp [argumentsBytes, argumentsBytes_append, Nat.add_assoc]

theorem views_declareSlot {s : State} {l : View Slot} {rest : List (View Slot)} {name : String}
    (slot : Slot) (views : s.env.stack.views id = l :: rest) (absent : l name = none) :
    (declareSlot name slot s).2.env.stack.views id = l.add name slot :: rest := by
  obtain ⟨stack, declared, views'⟩ := ScopeStack.views_declare id views absent slot
  change (Env.declared s.env name (s.env.stack.declare? name slot)).2.stack.views id = _
  rw [declared]
  exact views'

/-- Every parameter has its place, and what else is in the scope stays where it is. -/
theorem views_declareParams {params : List Param} {s : State} {l : View Slot}
    {rest : List (View Slot)} (offset : Nat) (views : s.env.stack.views id = l :: rest)
    (new : Check.New l (params.filterMap fun p => p.name.map (·.val))) :
    ∃ l', (declareParams offset params s).2.env.stack.views id = l' :: rest ∧ l.Le l' ∧
      ∀ i param name, params[i]? = some param → param.name = some name →
        l' name.val = some ⟨typeOf param.type.val, .frame
          (offset + argumentsBytes ((params.take i).map fun p => typeOf p.type.val) : Nat)⟩ := by
  induction params generalizing offset s l with
  | nil => exact ⟨l, views, View.Le.refl l, nofun⟩
  | cons p others ih =>
      have next (i : Nat) : offset + argumentBytes (typeOf p.type.val) +
          argumentsBytes ((others.take i).map fun p => typeOf p.type.val) =
          offset +
            argumentsBytes (((p :: others).take (i + 1)).map fun p => typeOf p.type.val) := by
        simp [argumentsBytes, Nat.add_assoc]
      rw [declareParams_cons]
      cases named : p.name with
      | none =>
          rw [List.filterMap_cons_none (by rw [named]; rfl)] at new
          obtain ⟨l', views', le, places⟩ :=
            ih (offset + argumentBytes (typeOf p.type.val)) views new
          refine ⟨l', views', le, ?_⟩
          rintro (_ | i) param name here is
          · obtain rfl := Option.some.inj here
            rw [named] at is
            contradiction
          · rw [places i param name here is, next]
      | some n =>
          rw [List.filterMap_cons_some (by rw [named]; rfl)] at new
          obtain ⟨absent, new⟩ :=
            (Check.new_cons (⟨typeOf p.type.val, .frame offset⟩ : Slot)).mp new
          obtain ⟨l', views', le, places⟩ := ih (offset + argumentBytes (typeOf p.type.val))
            (views_declareSlot _ views absent) new
          refine ⟨l', views', (View.le_add absent _).trans le, ?_⟩
          rintro (_ | i) param name here is
          · obtain rfl := Option.some.inj here
            obtain rfl := Option.some.inj (named.symm.trans is)
            exact le n.val _ (if_pos rfl)
          · rw [places i param name here is, next]

/-- Where a function expects its parameters, if no two of them have one name. -/
theorem lookup_enterRoutine {h : Heading} (distinct : h.declared.Nodup) (s : State) {i : Nat}
    {param : Param} {name : Located String} (here : h.params[i]? = some param)
    (named : param.name = some name) :
    (enterRoutine h s).2.env.stack.lookup name.val =
      some ⟨typeOf param.type.val, .frame (paramOffset h.params i)⟩ := by
  let opened := (openScope { s with frame := some { result := typeOf h.result.val } }).2
  have views : opened.env.stack.views id = (fun _ => none) :: s.env.stack.views id := rfl
  obtain ⟨l', views', -, places⟩ :=
    views_declareParams firstArgument views ⟨fun _ _ => rfl, distinct⟩
  have found := ScopeStack.lookup_views id (enterRoutine h s).2.env.stack name.val
  rw [show (enterRoutine h s).2.env.stack.views id = _ from views', Option.map_id] at found
  rw [show (enterRoutine h s).2.env.stack.lookup name.val = _ from found, View.look,
    List.findSome?_cons, places i param name here named]
  rfl

/-! ### Results -/

/-- The piece is no `return`, or one that returns the type. -/
def Piece.Returns (iface : Interface) (t : Ty) (piece : Piece) : Prop :=
  ∀ value lines, piece = .act (.finish value) lines →
    ∃ s : State, s.result = t ∧ lines = (resultLines iface value s).1

theorem returns_line (t : Ty) (l : Line) : Piece.Returns iface t (.line l) := nofun

theorem returns_condition (t : Ty) (cond : Expr) (lines : List Line) (target : Target) :
    ∀ piece ∈ condition cond lines target, piece.Returns iface t := by
  intro piece mem
  simp only [condition, List.mem_cons, List.not_mem_nil, or_false] at mem
  rcases mem with rfl | rfl
  · exact nofun
  · exact returns_line t _

theorem returns_plain (t : Ty) (lines : List Line) :
    ∀ piece ∈ plain lines, piece.Returns iface t := by
  intro piece mem
  obtain ⟨l, -, rfl⟩ := List.mem_map.mp mem
  exact returns_line t l

/-- Every `return` returns the type of its unit. -/
theorem Outline.returns {targets : Option Targets} {part : Part} {s s' : State}
    {pieces : List Piece} (outline : Outline iface targets part s pieces s') :
    ∀ piece ∈ pieces, piece.Returns iface s.result := by
  induction outline with
  | nil | function _ => exact List.forall_mem_nil _
  | cons one _ first rest =>
      rw [one.result] at rest
      rw [List.cons_append, List.forall_mem_cons, List.forall_mem_append]
      exact ⟨nofun, first, rest⟩
  | @act _ x _ _ _ _ is made =>
      rw [List.forall_mem_singleton]
      rintro value lines ⟨⟩
      cases x <;> cases is
  | block _ inside => exact inside
  | ifThen tested _ inside =>
      have tests := result_testLines tested
      rw [List.forall_mem_append, List.forall_mem_append, List.forall_mem_singleton]
      exact ⟨⟨returns_condition _ _ _ _, tests ▸ inside⟩, returns_line _ _⟩
  | ifElse tested body _ inside otherwise =>
      have tests := result_testLines tested
      have after := body.result.trans tests
      simp only [List.forall_mem_append, List.forall_mem_cons]
      exact ⟨⟨⟨⟨returns_condition _ _ _ _, tests ▸ inside⟩, returns_line _ _, returns_line _ _,
        List.forall_mem_nil _⟩, after ▸ otherwise⟩, returns_line _ _, List.forall_mem_nil _⟩
  | whileLoop tested _ inside =>
      have tests := result_testLines tested
      simp only [List.cons_append, List.forall_mem_append, List.forall_mem_cons]
      exact ⟨returns_line _ _, ⟨returns_condition _ _ _ _, tests ▸ inside⟩, returns_line _ _,
        returns_line _ _, List.forall_mem_nil _⟩
  | forLoop init tested body _ starts inside updates =>
      have tests := (result_testLines tested).trans init.result
      have after := body.result.trans tests
      simp only [List.cons_append, List.append_assoc, List.forall_mem_append, List.forall_mem_cons]
      exact ⟨starts, returns_line _ _, returns_condition _ _ _ _, tests ▸ inside, returns_line _ _,
        after ▸ updates, returns_line _ _, returns_line _ _, List.forall_mem_nil _⟩
  | @breakLoop targets | @continueLoop targets =>
      cases targets with
      | none => exact List.forall_mem_nil _
      | some t => exact List.forall_mem_singleton.mpr (returns_line _ _)
  | @returnValue _ _ value s lines s' made =>
      obtain ⟨rfl, -⟩ := done_action made
      rw [List.forall_mem_cons, List.forall_mem_singleton]
      constructor
      · rintro _ _ ⟨⟩
        exact ⟨s, rfl, rfl⟩
      · exact returns_line _ _

theorem RoutineOutline.returns {h : Heading} {body : List Stmt} {size : Nat} {pieces : List Piece}
    (outline : RoutineOutline iface h body size pieces) :
    ∀ piece ∈ pieces, piece.Returns iface (typeOf h.result.val) := by
  obtain ⟨s, inner, s', inside, rfl⟩ := outline
  rw [List.forall_mem_append, List.forall_mem_append]
  exact ⟨⟨returns_plain _ _, result_enterRoutine h s ▸ inside.returns⟩, returns_plain _ _⟩

/-- A function of the type leaves its result where `reads` says: on all paths to its end the x87
stack holds it or is empty; and unless the function is `void`, every `return`, and the code that is
reached without one, puts a value into the place for the type. -/
structure LeavesResult (iface : Interface) (reads : Option Domain) (t : Ty) (size : Nat)
    (pieces : List Piece) : Prop where
  reads_eq : reads = if t = .void then none else some t.domain
  depth : Disciplined iface (Stacks.behindPrologue iface size).esp
    (if reads = some .float then 1 else 0) pieces
  value : t ≠ .void → ∀ e lines, .act (.finish (some e)) lines ∈ pieces →
    ∃ s last, lines = (expr iface e s).1.1 ++ code last ∧ Converts (expr iface e s).1.2 t last
  nothing : t ≠ .void → ∀ lines, .act (.finish none) lines ∈ pieces →
    ∃ last, lines = code last ∧ Supplies t last
  fallsOff : ∃ before last, pieces = before ++ plain (code last ++ epilogue) ∧ Supplies t last

theorem RoutineOutline.leavesResult {h : Heading} {body : List Stmt} {size : Nat}
    {pieces : List Piece} {reads : Option Domain}
    (outline : RoutineOutline iface h body size pieces)
    (known : reads =
      if typeOf h.result.val = .void then none else some (typeOf h.result.val).domain) :
    LeavesResult iface reads (typeOf h.result.val) size pieces where
  reads_eq := known
  depth := by
    have disciplined := outline.disciplined
    rw [known]
    generalize typeOf h.result.val = t at disciplined
    cases t <;> exact disciplined
  value notVoid e lines mem := by
    obtain ⟨s, result, rfl⟩ := outline.returns _ mem (some e) lines rfl
    refine ⟨s, convert (expr iface e s).1.2 (typeOf h.result.val), ?_, run_convert _ _⟩
    rw [resultLines_eq, result]
    simp only [if_neg notVoid]
  nothing notVoid lines mem := by
    obtain ⟨s, result, rfl⟩ := outline.returns _ mem none lines rfl
    refine ⟨defaultValue (typeOf h.result.val), ?_, run_defaultValue _⟩
    rw [resultLines_eq, result]
    simp only [if_neg notVoid]
  fallsOff := by
    obtain ⟨s, inner, s', -, rfl⟩ := outline
    exact ⟨_, _, rfl, run_defaultValue _⟩

/-! ### Calls -/

/-- Where the frame pointer of a function is, if it is called while the caller's stacks are as
given: the call pushes the return address, and the prologue does the rest. -/
def Stacks.calledFrame (iface : Interface) (size : Nat) (k : Stacks) : Option Int :=
  ((prologue size).foldl (Stacks.after iface) (k.shift (-4) 0)).ebp

theorem calledFrame_eq (size : Nat) (k : Stacks) : k.calledFrame iface size = some (k.esp - 8) := by
  have twice : k.esp + -4 + -4 = k.esp - 8 := by omega
  unfold Stacks.calledFrame prologue
  split <;> exact congrArg some twice

/-- Code hands an argument over to a parameter of the type that its function expects `offset` bytes
above the frame pointer. The value of the argument is pushed in the domain of the type; it is then
on top of the stack, at the expected place; and on no path to the call is the stack any less
full. -/
def HandsOver (iface : Interface) (lines : List Line) (arg : Expr) (t : Ty) (offset : Nat) : Prop :=
  ∃ before s last after,
    lines = before ++ ((expr iface arg s).1.1 ++ code last) ++ after ∧
    Pushes (expr iface arg s).1.2 t last ∧
    ∀ k, ∃ pushed : Stacks,
      (∀ k', Reaches iface lines (0, k)
        ((before ++ ((expr iface arg s).1.1 ++ code last)).length, k') ↔ k' = pushed) ∧
      (∀ atCall size, Reaches iface lines (0, k) (lines.length, atCall) →
        atCall.calledFrame iface size = some (pushed.esp - offset)) ∧
      ∀ i later, (before ++ ((expr iface arg s).1.1 ++ code last)).length ≤ i →
        Reaches iface lines (0, k) (i, later) → later.esp ≤ pushed.esp

/-- Behind the first of some lines, which go no higher than they start, all paths are below. -/
theorem esp_le_of_under {first second : List Line} {base k k' : Stacks} {bytes depth : Int}
    {i : Nat} (closed : Closed iface base k (first ++ second))
    (shifts : Shifts iface bytes depth first) (under : Under iface 0 second)
    (behind : first.length ≤ i) (reaches : Reaches iface (first ++ second) (0, k) (i, k')) :
    k'.esp ≤ k.esp + bytes := by
  have below := under base (k.shift bytes depth) (i - first.length)
  rw [closed.height reaches, List.take_append, List.take_of_length_le behind, heightAfter_append,
    shifts.height]
  rwa [Int.add_zero] at below

theorem handsOver_exprArgs {params : List Ty} {args : List Expr} {i : Nat} {t : Ty} {arg : Expr}
    (param : params[i]? = some t) (given : args[i]? = some arg) (s : State) :
    HandsOver iface (exprArgs iface params args s).1.1 arg t
      (firstArgument + argumentsBytes (params.take i)) := by
  have whole := shifts_exprArgs iface params args s
  have once := (places_exprArgs iface params args s).nodup
  obtain ⟨before, s', after, lines, shifts, -, under⟩ := exprArgs_split param given s
  refine ⟨before, s', _, after, lines, run_pushArg _ t, ?_⟩
  intro k
  have reaches (k' : Stacks) : Reaches iface _ (0, k) (_, k') ↔ _ := whole.reaches_iff once
  rw [lines] at whole once reaches ⊢
  refine ⟨_, fun k' => shifts.reaches_first_iff whole once, ?_, ?_⟩
  · intro atCall size path
    rw [calledFrame_eq, (reaches atCall).mp path]
    simp only [Stacks.shift, firstArgument]
    congr 1
    omega
  · intro j later behind path
    exact esp_le_of_under (whole.closed once k k) shifts under behind path

/-- A call and the function with the heading agree, from whatever state code is made for the
call. -/
structure Conforms (iface : Interface) (h : Heading) (args : List Expr) (s : State)
    (pushes : List Line) (bytes : Nat) : Prop where
  /-- There is an argument for every parameter that is not `void`. -/
  arity : args.length = ((h.params.map fun p => typeOf p.type.val).filter (· != .void)).length
  /-- The code of the call, as an expression and as a statement, starts with the pushes, the call
  and the release of the bytes. -/
  asExpr : ∀ pos site, pushes ++ code (callCode h.name.val bytes) <+:
    (expr iface (.call pos ⟨h.name.val, site⟩ args) s).1.1
  asStmt : pushes ++ code (callCode h.name.val bytes) <+: (callStmt iface h.name.val args s).1
  /-- What is pushed are these bytes. -/
  pushed : ∀ k k', Reaches iface pushes (0, k) (pushes.length, k') ↔ k' = k.shift (-bytes) 0
  hands : ∀ i param, h.params[i]? = some param → typeOf param.type.val ≠ .void →
    ∃ arg, args[i]? = some arg ∧
      HandsOver iface pushes arg (typeOf param.type.val) (paramOffset h.params i)

/-- A function finds its parameters at their distances from the frame pointer, one directly above
the other. -/
structure FindsParams (h : Heading) : Prop where
  places : ∀ s i param name, h.params[i]? = some param → param.name = some name →
    (enterRoutine h s).2.env.stack.lookup name.val =
      some ⟨typeOf param.type.val, .frame (paramOffset h.params i)⟩
  first : paramOffset h.params 0 = firstArgument
  next : ∀ i param, h.params[i]? = some param → paramOffset h.params (i + 1) =
    paramOffset h.params i + if typeOf param.type.val = .double then 8 else 4

section Accepted

variable {h : Heading} {types : List Ty}

/-- A heading with a parameter that is not `void` takes the types of its parameters. -/
theorem map_typeOf_params {i : Nat} {param : Param} (takes : h.Takes types)
    (here : h.params[i]? = some param) (notVoid : typeOf param.type.val ≠ .void) :
    (h.params.map fun p => typeOf p.type.val) = types := by
  unfold Heading.Takes at takes
  split at takes
  · rename_i void
    obtain ⟨p, params, -, parsed⟩ := params_of_takesVoid void
    rw [params] at here
    obtain rfl := List.mem_singleton.mp (List.mem_of_getElem? here)
    exact absurd (typeOf_eq parsed) notVoid
  · generalize h.params = params at takes
    induction takes with
    | nil => rfl
    | cons has _ ih => rw [List.map_cons, typeOf_eq has.1, ih]

theorem map_fst_namedParams {params : List Param} (has : List.Forall₂ Param.Has params types) :
    (namedParams params types).map Prod.fst = params.filterMap fun p => p.name.map (·.val) := by
  induction has with
  | nil => rfl
  | @cons p t params types _ _ ih =>
      cases named : p.name with
      | none =>
          rw [Check.namedParams_anonymous named, ih, List.filterMap_cons_none (by rw [named]; rfl)]
      | some name =>
          rw [Check.namedParams_named named, List.map_cons, ih,
            List.filterMap_cons_some (by rw [named]; rfl)]

theorem declared_nodup (takes : h.Takes types)
    (distinct : ((namedParams h.params types).map Prod.fst).Nodup) : h.declared.Nodup := by
  unfold Heading.Takes at takes
  split at takes
  · rename_i void
    obtain ⟨p, params, anonymous, -⟩ := params_of_takesVoid void
    rw [Heading.declared, params, List.filterMap_cons_none (by rw [anonymous]; rfl)]
    exact List.nodup_nil
  · rwa [map_fst_namedParams takes] at distinct

theorem findsParams_of_offered {conventions : View Convention} (offered : h.Offered conventions) :
    FindsParams h := by
  obtain ⟨result, types, -, takes, distinct, -⟩ := offered
  constructor
  · intro s i param name here named
    exact lookup_enterRoutine (declared_nodup takes distinct) s here named
  · rfl
  · intro i param here
    exact paramOffset_succ here

theorem conforms_of_matches {args : List Expr} (offered : h.Offered iface.conventions.get?)
    (called : Matches iface (h.name.val, args)) (s : State) :
    let a := exprArgs iface (iface.params h.name.val) args (callee iface h.name.val s).2
    Conforms iface h args s a.1.1 a.1.2 := by
  obtain ⟨result, types, -, takes, -, known⟩ := offered
  obtain ⟨convention, same, arity⟩ := called
  obtain rfl := Option.some.inj (known.symm.trans same)
  have params : iface.params h.name.val = types := by rw [Interface.params, known]; rfl
  intro a
  constructor
  · rw [params_of_takes takes]
    exact arity
  · intro pos site
    rw [expr_call]
    dsimp only
    split
    · exact List.prefix_rfl
    · exact List.prefix_append ..
  · rw [callStmt_eq, call_eq]
    exact List.prefix_append ..
  · intro k k'
    exact (shifts_exprArgs iface _ args _).reaches_iff (places_exprArgs iface _ args _).nodup
  · intro i param here notVoid
    have types_eq := map_typeOf_params takes here notVoid
    have expected : types[i]? = some (typeOf param.type.val) := by
      rw [← types_eq, List.getElem?_map, here]
      rfl
    have inside : i < args.length := arity ▸ (List.getElem?_eq_some_iff.mp expected).1
    refine ⟨args.get ⟨i, inside⟩, List.getElem?_eq_getElem inside, ?_⟩
    rw [paramOffset, List.map_take, types_eq]
    rw [← params] at expected ⊢
    exact handsOver_exprArgs expected (List.getElem?_eq_getElem inside) _

end Accepted

/-- Every function that is defined at top level has its code in the listing. -/
theorem exists_routine {p : Program} {l : Listing} {h : Heading} {body : List Stmt}
    (assembled : p.assemble.1 = .ok l) (defined : (h, body) ∈ definitions p.stmts) :
    ∃ r ∈ l.routines, r.name = h.name.val ∧ ∃ size pieces,
      RoutineOutline (.ofProgram p) h body size pieces ∧ linesOf pieces = r.lines := by
  obtain ⟨-, outlines⟩ := outline_listing assembled
  generalize definitions p.stmts = ds at outlines defined
  generalize l.routines = rs at outlines
  induction outlines with
  | nil => contradiction
  | cons first _ ih =>
      rcases List.mem_cons.mp defined with rfl | later
      · exact ⟨_, List.mem_cons_self, first⟩
      · obtain ⟨r, mem, outline⟩ := ih later
        exact ⟨r, List.mem_cons_of_mem _ mem, outline⟩

/-- Every call in an accepted program agrees with every definition of its function. The arguments
are pushed, converted, at the places where the function expects its parameters; they are removed
again; and the result is left where the call reads it. -/
theorem calls_conform (p : Program) (accepted : p.check.diagnostics.hasErrors = false)
    (top : p.hasHeadingsAtTop = true) :
    let iface := Interface.ofProgram p
    ∀ c ∈ Stmt.callsIn p.stmts, ∀ d ∈ definitions p.stmts, d.1.name.val = c.1 → ∀ s,
      let args := exprArgs iface (iface.params c.1) c.2 (callee iface c.1 s).2
      Conforms iface d.1 c.2 s args.1.1 args.1.2 ∧ FindsParams d.1 ∧
      ∀ l, p.assemble.1 = .ok l → ∃ r ∈ l.routines, r.name = c.1 ∧
        ∃ size pieces, RoutineOutline iface d.1 d.2 size pieces ∧ linesOf pieces = r.lines ∧
          LeavesResult iface (call iface c.1 c.2 s).1.2 (typeOf d.1.result.val) size pieces := by
  rintro iface ⟨name, args⟩ called ⟨h, body⟩ defined rfl s
  have offered := Program.definitions_match accepted top (h, body) defined
  have matched := Program.calls_match accepted top (h.name.val, args) called
  refine ⟨conforms_of_matches offered matched s, findsParams_of_offered offered, ?_⟩
  intro l assembled
  obtain ⟨r, mem, sameName, size, pieces, outline, lines⟩ := exists_routine assembled defined
  refine ⟨r, mem, sameName, size, pieces, outline, lines, outline.leavesResult ?_⟩
  obtain ⟨result, types, parsed, -, -, known⟩ := offered
  rw [call_eq, typeOf_eq parsed]
  dsimp only
  rw [known]
  rfl

/-- A function that is called before its definition, with a call among its arguments. -/
def forwardCalls : Program where
  stmts :=
    [.prototype {} ⟨⟨"int", {}⟩, ⟨"weigh", {}⟩,
        [⟨⟨"double", {}⟩, none⟩, ⟨⟨"bool", {}⟩, none⟩, ⟨⟨"char", {}⟩, none⟩]⟩,
      .define ⟨⟨"double", {}⟩, ⟨"half", {}⟩, [⟨⟨"int", {}⟩, some ⟨"n", {}⟩⟩]⟩ {}
        [.returnValue {} (some (.binary {} .div (.var {} "n") (.literal {} (.number "2.0"))))],
      .define ⟨⟨"int", {}⟩, ⟨"main", {}⟩, []⟩ {}
        [.returnValue {} (some (.call {} ⟨"weigh", {}⟩
          [.call {} ⟨"half", {}⟩ [.literal {} (.number "3")], .literal {} (.number "7"),
            .literal {} (.char "'a'")]))],
      .define ⟨⟨"int", {}⟩, ⟨"weigh", {}⟩,
          [⟨⟨"double", {}⟩, some ⟨"x", {}⟩⟩, ⟨⟨"bool", {}⟩, some ⟨"b", {}⟩⟩,
            ⟨⟨"char", {}⟩, some ⟨"c", {}⟩⟩]⟩ {}
        [.returnValue {} (some (.var {} "c"))]]

theorem forwardCalls_conform :
    forwardCalls.check.diagnostics.hasErrors = false ∧ forwardCalls.hasHeadingsAtTop = true ∧
      ∃ c ∈ Stmt.callsIn forwardCalls.stmts, ∃ d ∈ definitions forwardCalls.stmts,
        d.1.name.val = c.1 ∧ c.2.length = 3 ∧ paramOffset d.1.params 2 = 20 ∧
        let iface := Interface.ofProgram forwardCalls
        let args := exprArgs iface (iface.params c.1) c.2 (callee iface c.1 {}).2
        Conforms iface d.1 c.2 {} args.1.1 args.1.2 := by
  have accepted : forwardCalls.check.diagnostics.hasErrors = false := by decide +kernel
  have top : forwardCalls.hasHeadingsAtTop = true := by decide +kernel
  have called : _ ∈ Stmt.callsIn forwardCalls.stmts := .head _
  have defined : _ ∈ definitions forwardCalls.stmts := .tail _ (.tail _ (.head _))
  refine ⟨accepted, top, _, called, _, defined, rfl, rfl, by decide +kernel, ?_⟩
  exact (calls_conform forwardCalls accepted top _ called _ defined rfl {}).1

end BraceLang.Assembly
