import BraceLang.Proofs.Assembly.Reference

/-!
What the fixed sequences of code do. Between two of them a value is shown in `eax` or on top of
the x87 stack, or it waits on the processor's stack; each lemma here takes a value from one of
these places to another, and says what else of the machine has changed.

**Main results.** `run_integerOp`, `run_compareFloats` and `run_binaryOp` say that an operator
applied to a waiting left operand and a right operand in its place computes what the operator
means, or traps where the operator does.
-/

namespace BraceLang.Assembly

variable {F : Type} {p : Platform F} {m m' m'' : Machine F} {st : List F} {v : Value F}

/-! ### Places of values -/

namespace Machine

/-- The value is in its place, above the part `st` of the x87 stack. -/
def Shows (m : Machine F) (st : List F) : Value F → Prop
  | .int n => m.eax = n ∧ m.fpu = st
  | .float x => m.fpu = x :: st

/-- The value is on top of the processor's stack. -/
def Waits (fl : Floats F) (m : Machine F) : Value F → Prop
  | .int n => m.word m.esp = n
  | .float x => m.number fl m.esp = x

/-- The stack and the frame are where they were, and memory has changed only between `low` and
the top of the stack. -/
structure Kept (low : Nat) (m m' : Machine F) : Prop where
  esp : m'.esp = m.esp
  ebp : m'.ebp = m.ebp
  mem : ∀ a, a.toNat < low ∨ m.esp.toNat ≤ a.toNat → m'.mem a = m.mem a

theorem Kept.refl (low : Nat) (m : Machine F) : Kept low m m := ⟨rfl, rfl, fun _ _ => rfl⟩

theorem Kept.trans {low : Nat} (first : Kept low m m') (second : Kept low m' m'') :
    Kept low m m'' where
  esp := second.esp.trans first.esp
  ebp := second.ebp.trans first.ebp
  mem a outside := by
    rw [second.mem a (first.esp ▸ outside), first.mem a outside]

/-- Some bytes are gone from the stack, and memory has changed only between `low` and the former
top of the stack. -/
structure Dropped (low bytes : Nat) (m m' : Machine F) : Prop where
  esp : m'.esp = m.esp + BitVec.ofNat 32 bytes
  ebp : m'.ebp = m.ebp
  mem : ∀ a, a.toNat < low ∨ m.esp.toNat ≤ a.toNat → m'.mem a = m.mem a

/-- What keeps all of memory above the stack and below it keeps all of memory. -/
theorem Kept.mem_eq (kept : Kept m.esp.toNat m m') : m'.mem = m.mem :=
  funext fun a => kept.mem a (Nat.lt_or_ge a.toNat m.esp.toNat)

/-- The machine differs in registers for values only. -/
theorem Kept.of_eq {low : Nat} (esp : m'.esp = m.esp) (ebp : m'.ebp = m.ebp)
    (mem : m'.mem = m.mem) : Kept low m m' :=
  ⟨esp, ebp, fun a _ => congrFun mem a⟩

end Machine

open Machine

/-! ### Bytes below the top of the stack -/

theorem toNat_sub_ofNat {a : Address} {k : Nat} (room : k ≤ a.toNat) :
    (a - BitVec.ofNat 32 k).toNat = a.toNat - k := by
  have bound := a.isLt
  rw [BitVec.toNat_sub_of_le, BitVec.toNat_ofNat, Nat.mod_eq_of_lt (by omega)]
  rw [BitVec.le_def, BitVec.toNat_ofNat, Nat.mod_eq_of_lt (by omega)]
  exact room

/-- A byte outside of the `n` bytes from `a` on, where these do not reach the end of memory. -/
theorem apart_of_outside {a b : Address} {n : Nat} (fits : a.toNat + n ≤ 0x100000000)
    (outside : b.toNat < a.toNat ∨ a.toNat + n ≤ b.toNat) : Memory.Apart a n b := by
  unfold Memory.Apart
  rw [BitVec.toNat_sub]
  have := a.isLt
  have := b.isLt
  omega

theorem toNat_add_ofNat {a : Address} {k : Nat} (fits : a.toNat + k < 0x100000000) :
    (a + BitVec.ofNat 32 k).toNat = a.toNat + k := by
  rw [BitVec.toNat_add, BitVec.toNat_ofNat]
  omega

/-- What waits at `a` is not touched by changes below `a`. -/
theorem read_of_kept {mem mem' : Memory} {a : Address} {n : Nat}
    (fits : a.toNat + n ≤ 0x100000000) (same : ∀ b, a.toNat ≤ b.toNat → mem' b = mem b) :
    mem'.read a n = mem.read a n := by
  apply Memory.read_congr
  intro k below
  apply same
  rw [toNat_add_ofNat (by omega)]
  omega

theorem Machine.Waits.kept {low : Nat} (waits : m.Waits p.toFloats v)
    (fits : m.esp.toNat + pushedBytes v.domain ≤ 0x100000000) (kept : Kept low m m') :
    m'.Waits p.toFloats v := by
  have same : ∀ b, m.esp.toNat ≤ b.toNat → m'.mem b = m.mem b :=
    fun b above => kept.mem b (.inr above)
  cases v with
  | int n =>
      simp only [Value.domain, pushedBytes] at fits
      rw [Waits, word, kept.esp, read_of_kept fits same]
      exact waits
  | float x =>
      simp only [Value.domain, pushedBytes] at fits
      rw [Waits, number, kept.esp, read_of_kept fits same]
      exact waits

/-! ### Tests -/

theorem low_byte_of_set (x : BitVec 32) (b : Bool) :
    ((x &&& ~~~0xFF) ||| ofTruth b) &&& 0xFF = ofTruth b := by
  rw [BitVec.and_or_distrib_right, BitVec.and_assoc]
  cases b <;> simp [ofTruth]

theorem run_testFlags {f : Flags} (c : Cond) (flags : m.flags = some f) :
    m.run p (code (testFlags c)) = .ok { m with eax := ofTruth (c.holds f) } := by
  simp only [testFlags, run_code_cons, exec, flags, Except.bind, low_byte_of_set, run_code_nil]

theorem equal_eq_zero (fl : Floats F) (x y : F) :
    fl.equal x y = (Flags.ofOrder (fl.compare x y)).zero := by
  unfold Floats.equal
  rcases fl.compare x y with _ | _ | _ | _ <;> rfl

theorem below_eq_carry (fl : Floats F) (x y : F) :
    fl.below x y = (Flags.ofOrder (fl.compare x y)).carry := by
  unfold Floats.below
  rcases fl.compare x y with _ | _ | _ | _ <;> rfl

/-- The truth of a value. -/
theorem run_truth (shows : m.Shows st v) :
    ∃ flags, m.run p (code (truth v.domain)) =
      .ok { m with eax := ofTruth (v.isTrue p.toFloats), fpu := st, flags } := by
  cases v with
  | int n =>
      obtain ⟨rfl, rfl⟩ := shows
      refine ⟨some (.compare m.eax 0), ?_⟩
      have test : (code (truth .int)) = code ([.cmpZero] ++ testFlags .ne) := rfl
      have holds : (Value.int m.eax).isTrue p.toFloats = Cond.ne.holds (.compare m.eax 0) := rfl
      rw [Value.domain, test, run_code_append, holds]
      simp only [run_code_cons, run_code_nil, exec, Except.bind]
      exact run_testFlags .ne rfl
  | float x =>
      refine ⟨some (.ofOrder (p.compare p.zero x)), ?_⟩
      have holds : (Value.float x).isTrue p.toFloats =
          Cond.ne.holds (.ofOrder (p.compare p.zero x)) := by
        rw [Value.isTrue, equal_eq_zero]
        rfl
      have test : (code (truth .float)) = code ([.fldz, .fcomip, .fdrop] ++ testFlags .ne) := rfl
      simp only [Shows] at shows
      rw [Value.domain, test, run_code_append, holds]
      simp only [run_code_cons, run_code_nil, exec, Except.bind, shows]
      exact run_testFlags .ne rfl

/-! ### Moves between the places -/

section Moves

/-- A word that is pushed waits on the stack. -/
theorem word_write {mem : Memory} {a : Address} (w : BitVec 32) :
    BitVec.ofNat 32 ((mem.write a 4 w.toNat).read a 4) = w := by
  have small : w.toNat < 256 ^ 4 := by
    have bound := w.isLt
    omega
  rw [Memory.read_write (by omega), Nat.mod_eq_of_lt small, BitVec.ofNat_toNat,
    BitVec.setWidth_eq]

theorem number_write {mem : Memory} {a : Address} (fl : Floats F) (x : F) :
    fl.ofBits (BitVec.ofNat 64 ((mem.write a 8 (fl.toBits x).toNat).read a 8)) = x := by
  have small : (fl.toBits x).toNat < 256 ^ 8 := by
    have bound := (fl.toBits x).isLt
    omega
  rw [Memory.read_write (by omega), Nat.mod_eq_of_lt small, BitVec.ofNat_toNat,
    BitVec.setWidth_eq, fl.ofBits_toBits]

/-- Bytes outside of some room below the top of the stack are not touched by a push. -/
theorem write_below {mem : Memory} {a b : Address} {k low : Nat} (w : Nat)
    (room : low + k ≤ a.toNat) (outside : b.toNat < low ∨ a.toNat ≤ b.toNat) :
    mem.write (a - BitVec.ofNat 32 k) k w b = mem b := by
  have bound := a.isLt
  have place := toNat_sub_ofNat (show k ≤ a.toNat by omega)
  apply Memory.write_apart
  apply apart_of_outside
  · omega
  · omega

/-- Pushes the value in its place. -/
theorem run_pushValue {low : Nat} (shows : m.Shows st v)
    (room : low + pushedBytes v.domain ≤ m.esp.toNat) :
    ∃ m', m.run p (code (pushValue v.domain)) = .ok m' ∧ m'.fpu = st ∧ m'.ebp = m.ebp ∧
      m'.esp = m.esp - BitVec.ofNat 32 (pushedBytes v.domain) ∧ m'.Waits p.toFloats v ∧
      ∀ a, a.toNat < low ∨ m.esp.toNat ≤ a.toNat → m'.mem a = m.mem a := by
  cases v with
  | int n =>
      obtain ⟨rfl, rfl⟩ := shows
      refine ⟨_, rfl, rfl, rfl, rfl, word_write m.eax, ?_⟩
      intro a outside
      exact write_below _ room outside
  | float x =>
      simp only [Shows] at shows
      simp only [Value.domain, pushValue, run_code_cons, exec, shows, Except.bind, address]
      refine ⟨_, rfl, rfl, rfl, rfl, number_write p.toFloats x, ?_⟩
      intro a outside
      exact write_below _ room outside

/-- Pops a waiting value to its place. -/
theorem run_popValue (waits : m.Waits p.toFloats v) :
    ∃ m', m.run p (code (popValue v.domain)) = .ok m' ∧ m'.Shows m.fpu v ∧ m'.ebp = m.ebp ∧
      m'.esp = m.esp + BitVec.ofNat 32 (pushedBytes v.domain) ∧ m'.mem = m.mem ∧
      m'.ecx = m.ecx := by
  cases v with
  | int n => exact ⟨_, rfl, ⟨waits, rfl⟩, rfl, rfl, rfl, rfl⟩
  | float x => exact ⟨_, rfl, congrArg (· :: m.fpu) waits, rfl, rfl, rfl, rfl⟩

/-- Pops a waiting value to the x87 stack. -/
theorem run_popAsFloat (waits : m.Waits p.toFloats v) :
    ∃ m', m.run p (code (popAsFloat v.domain)) = .ok m' ∧
      m'.fpu = v.toFloat p.toFloats :: m.fpu ∧ m'.ebp = m.ebp ∧
      m'.esp = m.esp + BitVec.ofNat 32 (pushedBytes v.domain) ∧ m'.mem = m.mem := by
  cases v with
  | int n => exact ⟨_, rfl, congrArg (p.ofInt · :: m.fpu) waits, rfl, rfl, rfl⟩
  | float x => exact ⟨_, rfl, congrArg (· :: m.fpu) waits, rfl, rfl, rfl⟩

/-- Moves an integer to the x87 stack, over the four bytes below the processor's stack. -/
theorem run_toFloat {low : Nat} (room : low + 4 ≤ m.esp.toNat) :
    ∃ m', m.run p (code toFloat) = .ok m' ∧ m'.fpu = p.ofInt m.eax :: m.fpu ∧ Kept low m m' := by
  refine ⟨_, rfl, ?_, ?_, rfl, ?_⟩
  · exact congrArg (p.ofInt · :: m.fpu) (word_write m.eax)
  · exact BitVec.sub_add_cancel m.esp 4
  · intro a outside
    exact write_below _ room outside

/-- Moves a number from the x87 stack to `eax`, over the four bytes below the processor's
stack. -/
theorem run_toInt {low : Nat} {x : F} (top : m.fpu = x :: st) (room : low + 4 ≤ m.esp.toNat) :
    ∃ m', m.run p (code toInt) = .ok m' ∧ m'.eax = p.toInt x ∧ m'.fpu = st ∧ Kept low m m' := by
  simp only [toInt, run_code_cons, run_code_nil, exec, top, Except.bind, address, Machine.set]
  refine ⟨_, rfl, word_write (p.toInt x), rfl, ?_, rfl, ?_⟩
  · exact BitVec.sub_add_cancel m.esp 4
  · intro a outside
    exact write_below _ room outside

end Moves

/-! ### Operators -/

/-- A run ends as a computation does: with a value that `Post` relates to the last state, or with
its trap. -/
def Delivers {α : Type} (run : Except Trap (Machine F)) (Post : α → Machine F → Prop) :
    Except Trap α → Prop
  | .error t => run = .error t
  | .ok v => ∃ m', run = .ok m' ∧ Post v m'

namespace Delivers

variable {α β : Type} {run : Except Trap (Machine F)} {Post : α → Machine F → Prop}
  {result : Except Trap α} {lines more : List Line}

theorem map {Post' : β → Machine F → Prop} {f : α → β} (delivers : Delivers run Post result)
    (weaker : ∀ v m', Post v m' → Post' (f v) m') : Delivers run Post' (result.map f) := by
  cases result with
  | error t => exact delivers
  | ok v =>
      obtain ⟨m', ends, post⟩ := delivers
      exact ⟨m', ends, weaker v m' post⟩

theorem imp {Post' : α → Machine F → Prop} (delivers : Delivers run Post result)
    (weaker : ∀ v m', Post v m' → Post' v m') : Delivers run Post' result := by
  cases result with
  | error t => exact delivers
  | ok v =>
      obtain ⟨m', ends, post⟩ := delivers
      exact ⟨m', ends, weaker v m' post⟩

/-- Code that ends, and code after it. -/
theorem after (ends : m.run p lines = .ok m') (delivers : Delivers (m'.run p more) Post result) :
    Delivers (m.run p (lines ++ more)) Post result := by
  rw [run_append, ends]
  exact delivers

/-- Code for a computation, and code for what is done with its value. -/
theorem bind {Post' : β → Machine F → Prop} {next : α → Except Trap β}
    (delivers : Delivers (m.run p lines) Post result)
    (follows : ∀ v m', result = .ok v → Post v m' → Delivers (m'.run p more) Post' (next v)) :
    Delivers (m.run p (lines ++ more)) Post' (result >>= next) := by
  cases result with
  | error t =>
      rw [run_append, delivers]
      rfl
  | ok v =>
      obtain ⟨m', ends, post⟩ := delivers
      exact after ends (follows v m' rfl post)

end Delivers

section Operators

variable {low : Nat} {op : BinOp} {a b : BitVec 32}

/-- The signed number in `edx` and `eax` once `edx` is filled with the sign. -/
theorem dividend_cdq (a : BitVec 32) :
    (if a.msb then (-1 : BitVec 32) else 0).toInt * 0x100000000 + a.toNat = a.toInt := by
  rw [BitVec.toInt_eq_msb_cond a]
  cases a.msb with
  | true =>
      have ones : (-1 : BitVec 32).toInt = -1 := by decide
      simp only [if_true, ones]
      omega
  | false => simp

theorem fitsWord_toInt (a : BitVec 32) : fitsWord a.toInt = true := by
  have above := BitVec.toInt_lt (x := a)
  have below := BitVec.le_toInt (x := a)
  simp only [fitsWord, Bool.and_eq_true, decide_eq_true_eq]
  omega

theorem toInt_tdiv (quotient : ¬Value.NoQuotient a b) :
    a.toInt.tdiv b.toInt = (a.sdiv b).toInt := by
  refine (BitVec.toInt_sdiv_of_ne_or_ne a b ?_).symm
  by_cases least : a = BitVec.intMin 32
  · right
    intro minusOne
    exact quotient (.inr ⟨least, minusOne⟩)
  · exact .inl least

/-- A division traps exactly where there is no quotient. -/
theorem traps_iff : (b = 0 ∨ (!fitsWord (a.toInt.tdiv b.toInt)) = true) ↔ Value.NoQuotient a b := by
  constructor
  · rintro (zero | large)
    · exact .inl zero
    · by_cases quotient : Value.NoQuotient a b
      · exact quotient
      · rw [toInt_tdiv quotient, fitsWord_toInt] at large
        contradiction
  · rintro (zero | ⟨rfl, rfl⟩)
    · exact .inl zero
    · exact .inr (by decide)

/-- The quotient and the remainder of `eax` and `ecx`, or the trap of a division. -/
theorem run_divide : m.run p (code [.cdq, .idiv]) =
    if Value.NoQuotient m.eax m.ecx then .error .divide
    else .ok { m with eax := m.eax.sdiv m.ecx, edx := m.eax.srem m.ecx, flags := none } := by
  simp only [run_code_cons, run_code_nil, exec, Except.bind, divide, dividend_cdq, traps_iff]
  by_cases quotient : Value.NoQuotient m.eax m.ecx
  · simp only [if_pos quotient]
  · simp only [if_neg quotient, toInt_tdiv quotient, ← BitVec.toInt_srem, BitVec.ofInt_toInt]

/-- A comparison of `eax` and `ecx`. -/
theorem run_compare (c : Cond) :
    Delivers (m.run p (code (.cmp :: testFlags c)))
      (fun n m' => m'.Shows m.fpu (.int n) ∧ Kept low m m')
      (.ok (ofTruth (c.holds (.compare m.eax m.ecx)))) := by
  have ends : m.run p (code (.cmp :: testFlags c)) =
      .ok { m with flags := some (.compare m.eax m.ecx),
                   eax := ofTruth (c.holds (.compare m.eax m.ecx)) } := by
    rw [run_code_cons, exec, Except.bind]
    exact run_testFlags c rfl
  exact ⟨_, ends, ⟨rfl, rfl⟩, .of_eq rfl rfl rfl⟩

/-- An operator on integers, the left operand in `eax` and the right one in `ecx`. -/
theorem run_integerOp (arithmetic : op.isLogical = false) :
    Delivers (m.run p (code (integerOp op)))
      (fun n m' => m'.Shows m.fpu (.int n) ∧ Kept low m m')
      (Value.integers op m.eax m.ecx) := by
  have comparisons := holds_compare m.eax m.ecx
  obtain ⟨equal, differ, less, atMost, greater, atLeast⟩ := comparisons
  cases op with
  | add | sub | mul => exact ⟨_, rfl, ⟨rfl, rfl⟩, .of_eq rfl rfl rfl⟩
  | div =>
      rw [integerOp, run_divide, Value.integers]
      by_cases quotient : Value.NoQuotient m.eax m.ecx
      · simp only [if_pos quotient, Delivers]
      · simp only [if_neg quotient]
        exact ⟨_, rfl, ⟨rfl, rfl⟩, .of_eq rfl rfl rfl⟩
  | mod =>
      have parts : code (integerOp .mod) = code ([.cdq, .idiv] ++ [.movReg .eax .edx]) := rfl
      rw [parts, run_code_append, run_divide, Value.integers]
      by_cases quotient : Value.NoQuotient m.eax m.ecx
      · simp only [if_pos quotient, Delivers, Except.bind]
      · simp only [if_neg quotient]
        exact ⟨_, rfl, ⟨rfl, rfl⟩, .of_eq rfl rfl rfl⟩
  | equal =>
      rw [Value.integers, ← equal]
      exact run_compare .e
  | notEqual =>
      rw [Value.integers, ← differ]
      exact run_compare .ne
  | less =>
      rw [Value.integers, ← less]
      exact run_compare .l
  | lessOrEqual =>
      rw [Value.integers, ← atMost]
      exact run_compare .le
  | greater =>
      rw [Value.integers, ← greater]
      exact run_compare .g
  | greaterOrEqual =>
      rw [Value.integers, ← atLeast]
      exact run_compare .ge
  | and | or => contradiction

/-- A comparison of the two numbers on top of the x87 stack. -/
theorem run_compareFloats {x y : F} (c : Cond) (top : m.fpu = x :: y :: st) :
    Delivers (m.run p (code (compareFloats c))) (fun v m' => m'.Shows st v ∧ Kept low m m')
      (.ok (Value.int (ofTruth (c.holds (.ofOrder (p.compare x y)))))) := by
  have ends : m.run p (code (compareFloats c)) =
      .ok { m with flags := some (.ofOrder (p.compare x y)), fpu := st,
                   eax := ofTruth (c.holds (.ofOrder (p.compare x y))) } := by
    rw [compareFloats, run_code_append]
    simp only [run_code_cons, run_code_nil, exec, top, Except.bind]
    exact run_testFlags c rfl
  exact ⟨_, ends, ⟨rfl, rfl⟩, .of_eq rfl rfl rfl⟩

/-- An operator on the two numbers on top of the x87 stack. -/
theorem run_floatOp {x y : F} (s : State) (top : m.fpu = x :: y :: st)
    (arithmetic : op.isLogical = false) (proper : op ≠ .mod) :
    Delivers (m.run p (floatOp op s).1.1) (fun v m' => m'.Shows st v ∧ Kept low m m')
      (Value.floats p.toFloats op x y) := by
  have computes (f : Fpu) : Delivers (m.run p (code [.fpu f]))
      (fun v m' => m'.Shows st v ∧ Kept low m m') (.ok (.float (f.apply p.toFloats x y))) := by
    simp only [run_code_cons, run_code_nil, exec, top, Except.bind]
    exact ⟨_, rfl, rfl, .of_eq rfl rfl rfl⟩
  simp only [Value.floats, equal_eq_zero, below_eq_carry]
  cases op with
  | add =>
      rw [p.add_comm]
      exact computes .add
  | sub => exact computes .sub
  | mul =>
      rw [p.mul_comm]
      exact computes .mul
  | div => exact computes .div
  | mod => contradiction
  | equal => exact run_compareFloats .e top
  | notEqual => exact run_compareFloats .ne top
  | less => exact run_compareFloats .b top
  | lessOrEqual => exact run_compareFloats .be top
  | greater => exact run_compareFloats .a top
  | greaterOrEqual => exact run_compareFloats .ae top
  | and | or => contradiction

theorem and_ofTruth (b c : Bool) : ofTruth b &&& ofTruth c = ofTruth (b && c) := by
  cases b <;> cases c <;> decide

theorem or_ofTruth (b c : Bool) : ofTruth b ||| ofTruth c = ofTruth (b || c) := by
  cases b <;> cases c <;> decide

variable {left right : Value F}

/-- A connective, whose operands both have been evaluated. -/
theorem run_connective (f : Alu) (waits : m.Waits p.toFloats left) (shows : m.Shows st right) :
    ∃ m', m.run p (code (connective f left.domain right.domain)) = .ok m' ∧
      m'.Shows st (.int (f.apply (ofTruth (left.isTrue p.toFloats))
        (ofTruth (right.isTrue p.toFloats)))) ∧
      Dropped low (pushedBytes left.domain) m m' := by
  obtain ⟨flags, tested⟩ := run_truth (p := p) shows
  -- The right operand's truth waits in `ecx`, which the left operand's does not use.
  let held : Machine F := { m with eax := ofTruth (right.isTrue p.toFloats), fpu := st, flags,
                                   ecx := ofTruth (right.isTrue p.toFloats) }
  have waiting : held.Waits p.toFloats left := by
    cases left with
    | int n => exact waits
    | float x => exact waits
  obtain ⟨popped, pops, shown, ebp, esp, mem, ecx⟩ := run_popValue waiting
  obtain ⟨flags', tested'⟩ := run_truth (p := p) shown
  refine ⟨{ popped with eax := f.apply (ofTruth (left.isTrue p.toFloats)) popped.ecx,
                        fpu := st, flags := none }, ?_, ?_, esp, ebp, ?_⟩
  · have moves : ({ m with eax := ofTruth (right.isTrue p.toFloats), fpu := st, flags } :
        Machine F).run p (code [.movReg .ecx .eax]) = .ok held := rfl
    simp only [connective, code_append, run_append, tested, moves, pops, tested', Except.bind]
    rfl
  · rw [ecx]
    exact ⟨rfl, rfl⟩
  · intro a _
    exact congrFun mem a

/-- A connective as an operator. -/
theorem run_logicalOp (s : State) (waits : m.Waits p.toFloats left) (shows : m.Shows st right)
    (logical : op.isLogical = true) :
    Delivers (m.run p (binaryOp op left.domain right.domain s).1.1)
      (fun v m' => m'.Shows st v ∧ Dropped low (pushedBytes left.domain) m m')
      (left.binary p.toFloats op right) := by
  cases op with
  | and =>
      rw [Value.binary, ← and_ofTruth]
      exact run_connective .and waits shows
  | or =>
      rw [Value.binary, ← or_ofTruth]
      exact run_connective .or waits shows
  | _ => contradiction

/-- Brings a right operand to the x87 stack. -/
def asFloat : Domain → List Instr
  | .int => toFloat
  | .float => []

/-- An operator on floating-point numbers, the left operand waiting and the right one in its
place, each of them in either domain. -/
theorem run_mixedOp (s : State) (waits : m.Waits p.toFloats left) (shows : m.Shows st right)
    (room : low + 4 ≤ m.esp.toNat)
    (fits : m.esp.toNat + pushedBytes left.domain ≤ 0x100000000)
    (arithmetic : op.isLogical = false) (proper : op ≠ .mod) :
    Delivers (m.run p (code (asFloat right.domain ++ popAsFloat left.domain) ++
        (floatOp op s).1.1))
      (fun v m' => m'.Shows st v ∧ Dropped low (pushedBytes left.domain) m m')
      (Value.floats p.toFloats op (left.toFloat p.toFloats) (right.toFloat p.toFloats)) := by
  have widens : ∃ m', m.run p (code (asFloat right.domain)) = .ok m' ∧
      m'.fpu = right.toFloat p.toFloats :: st ∧ Kept low m m' := by
    cases right with
    | int n =>
        obtain ⟨rfl, rfl⟩ := shows
        exact run_toFloat room
    | float x => exact ⟨m, rfl, shows, .refl low m⟩
  obtain ⟨widened, runs, top, kept⟩ := widens
  obtain ⟨popped, pops, both, ebp, esp, mem⟩ := run_popAsFloat (waits.kept fits kept)
  rw [top] at both
  have computes : Delivers (popped.run p (floatOp op s).1.1)
      (fun v m' => m'.Shows st v ∧ Kept popped.esp.toNat popped m')
      (Value.floats p.toFloats op (left.toFloat p.toFloats) (right.toFloat p.toFloats)) :=
    run_floatOp s both arithmetic proper
  rw [code_append, List.append_assoc]
  refine .after runs (.after pops (computes.imp ?_))
  rintro v m' ⟨shown, same⟩
  refine ⟨shown, ?_, ?_, ?_⟩
  · rw [same.esp, esp, kept.esp]
  · rw [same.ebp, ebp, kept.ebp]
  · intro a outside
    rw [same.mem_eq, mem, kept.mem a outside]

/-- An operator on integers, the left operand waiting and the right one in `eax`. -/
theorem run_wordOp {b : BitVec 32} (waits : m.Waits p.toFloats (.int a))
    (shows : m.Shows st (.int b)) (arithmetic : op.isLogical = false) :
    Delivers (m.run p (code ([.movReg .ecx .eax, .pop .eax] ++ integerOp op)))
      (fun v m' => m'.Shows st v ∧ Dropped low (pushedBytes .int) m m')
      ((Value.integers op a b).map .int) := by
  obtain ⟨rfl, rfl⟩ := shows
  obtain rfl := waits
  let popped : Machine F := { m with ecx := m.eax, eax := m.word m.esp, esp := m.esp + 4 }
  have computes : Delivers (popped.run p (code (integerOp op)))
      (fun n m' => m'.Shows m.fpu (.int n) ∧ Kept popped.esp.toNat popped m')
      (Value.integers op (m.word m.esp) m.eax) := run_integerOp arithmetic
  rw [code_append]
  refine (Delivers.after rfl computes).map ?_
  rintro n m' ⟨shown, same⟩
  refine ⟨shown, same.esp, same.ebp, ?_⟩
  intro a _
  exact congrFun same.mem_eq a

/-- The code of an operator whose operands are integers. -/
theorem binaryOp_words (s : State) (arithmetic : op.isLogical = false) :
    binaryOp op .int .int s =
      ((code ([.movReg .ecx .eax, .pop .eax] ++ integerOp op), .int), s) := by
  cases op with
  | and | or => contradiction
  | _ => rfl

/-- The code of an operator with a floating-point operand. -/
theorem binaryOp_mixed {d e : Domain} (s : State) (arithmetic : op.isLogical = false)
    (mixed : ¬(d = .int ∧ e = .int)) :
    binaryOp op d e s =
      ((code (asFloat e ++ popAsFloat d) ++
        (floatOp op s).1.1, (floatOp op s).1.2), (floatOp op s).2) := by
  cases op with
  | and | or => contradiction
  | _ =>
      cases d <;> cases e
      case int.int => exact absurd ⟨rfl, rfl⟩ mixed
      all_goals rfl

theorem Value.binary_words (fl : Floats F) (arithmetic : op.isLogical = false)
    (a b : BitVec 32) : (Value.int a).binary fl op (.int b) = (integers op a b).map .int := by
  cases op with
  | and | or => contradiction
  | _ => rfl

theorem Value.binary_mixed (fl : Floats F) (arithmetic : op.isLogical = false)
    (mixed : ¬(left.domain = .int ∧ right.domain = .int)) :
    left.binary fl op right = floats fl op (left.toFloat fl) (right.toFloat fl) := by
  cases op with
  | and | or => contradiction
  | _ =>
      cases left <;> cases right
      case int.int => exact absurd ⟨rfl, rfl⟩ mixed
      all_goals rfl

/-- An operator applied to a waiting left operand and a right operand in its place. -/
theorem run_binaryOp (s : State) (waits : m.Waits p.toFloats left) (shows : m.Shows st right)
    (room : low + 4 ≤ m.esp.toNat)
    (fits : m.esp.toNat + pushedBytes left.domain ≤ 0x100000000)
    (proper : op = .mod → left.domain = .int ∧ right.domain = .int) :
    Delivers (m.run p (binaryOp op left.domain right.domain s).1.1)
      (fun v m' => m'.Shows st v ∧ Dropped low (pushedBytes left.domain) m m')
      (left.binary p.toFloats op right) := by
  by_cases logical : op.isLogical = true
  · exact run_logicalOp s waits shows logical
  · have arithmetic : op.isLogical = false := Bool.not_eq_true _ ▸ logical
    by_cases words : left.domain = .int ∧ right.domain = .int
    · obtain ⟨leftWord, rightWord⟩ := words
      cases left with
      | float x => contradiction
      | int a =>
          cases right with
          | float y => contradiction
          | int b =>
              rw [Value.domain, Value.domain, binaryOp_words s arithmetic,
                Value.binary_words _ arithmetic]
              exact run_wordOp waits shows arithmetic
    · rw [binaryOp_mixed s arithmetic words, Value.binary_mixed _ arithmetic words]
      exact run_mixedOp s waits shows room fits arithmetic fun same => words (proper same)

end Operators

end BraceLang.Assembly
