import BraceLang.Proofs.Assembly.Expressions
import BraceLang.Proofs.Numerals

/-!
Computing with constants beside the code for the same operators. Both are compared with what the
operators mean for whole numbers of any size: a quotient is what is left of the exact one without
its fraction, truth is 0 or 1, and a remainder goes with a quotient.

* **`Truncated`**, **`BinOp.Computes`**, **`UnOp.Computes`**: what the operators mean;
* **`BinOp.Fails`**: where the meaning is no number of 32 bits;
* **`binaryInt?_eq_some`**, **`binaryInt?_eq_none`**: folding computes the meaning;
* **`binary_of_computes`**, **`run_binaryWords`**: so does the code.

**Main result.** `folding_agrees`: a constant is folded exactly where the meaning is a number of
32 bits, its text is read back, and the code leaves the same number in `eax`.
-/

namespace BraceLang

/-! ### What operators mean -/

/-- A quotient and a remainder: the quotient is the exact one without its fraction. -/
structure Truncated (x y q r : Int) : Prop where
  divisor : y ≠ 0
  whole : q * y + r = x
  small : r.natAbs < y.natAbs
  /-- The quotient is not rounded away from zero. -/
  toward : (q * y).natAbs ≤ x.natAbs

theorem truncated_iff {x y q r : Int} :
    Truncated x y q r ↔ y ≠ 0 ∧ q = x.tdiv y ∧ r = x.tmod y := by
  constructor
  · rintro ⟨divisor, whole, small, toward⟩
    have sum : r + y * q = x := by rw [Int.mul_comm, Int.add_comm, whole]
    refine ⟨divisor, ?_⟩
    rcases Int.le_total 0 x with up | down
    · have unique := (Int.tdiv_tmod_unique up divisor).mpr ⟨sum, by omega, by omega⟩
      exact ⟨unique.1.symm, unique.2.symm⟩
    · have unique := (Int.tdiv_tmod_unique' down divisor).mpr ⟨sum, by omega, by omega⟩
      exact ⟨unique.1.symm, unique.2.symm⟩
  · rintro ⟨divisor, rfl, rfl⟩
    constructor
    · exact divisor
    · rw [Int.mul_comm, Int.mul_tdiv_add_tmod]
    · rw [Int.natAbs_tmod]
      exact Nat.mod_lt _ (Int.natAbs_pos.mpr divisor)
    · rw [Int.natAbs_mul, Int.natAbs_tdiv]
      exact Nat.div_mul_le_self _ _

/-- Truth as a number. -/
def truthNumber (P : Prop) [Decidable P] : Int := if P then 1 else 0

/-- The number is what the operator makes of two whole numbers of any size. A remainder is one
only beside a quotient that has 32 bits. -/
def BinOp.Computes (op : BinOp) (x y n : Int) : Prop :=
  match op with
  | .add => n = x + y
  | .sub => n = x - y
  | .mul => n = x * y
  | .div => ∃ r, Truncated x y n r
  | .mod => ∃ q, Truncated x y q n ∧ (Constant.int q).Fits
  | .equal => n = truthNumber (x = y)
  | .notEqual => n = truthNumber (x ≠ y)
  | .less => n = truthNumber (x < y)
  | .lessOrEqual => n = truthNumber (x ≤ y)
  | .greater => n = truthNumber (x > y)
  | .greaterOrEqual => n = truthNumber (x ≥ y)
  | .and => n = truthNumber (x ≠ 0 ∧ y ≠ 0)
  | .or => n = truthNumber (x ≠ 0 ∨ y ≠ 0)

def UnOp.Computes (op : UnOp) (x n : Int) : Prop :=
  match op with
  | .neg => n = -x
  | .not => n = truthNumber (x = 0)

/-- There is no result, or none of 32 bits. -/
def BinOp.Fails (op : BinOp) (x y : Int) : Prop :=
  match op with
  | .add => ¬(Constant.int (x + y)).Fits
  | .sub => ¬(Constant.int (x - y)).Fits
  | .mul => ¬(Constant.int (x * y)).Fits
  | .div | .mod => y = 0 ∨ x = -0x80000000 ∧ y = -1
  | _ => False

def UnOp.Fails (op : UnOp) (x : Int) : Prop := op = .neg ∧ x = -0x80000000

/-! ### Folding -/

namespace Constant

variable {op : BinOp} {x y n : Int} {k : Constant}

theorem ofInt?_eq_some : ofInt? n = some k ↔ (int n).Fits ∧ k = int n := by
  unfold ofInt? Fits
  split
  · rename_i fits
    rw [Option.some.injEq, eq_comm]
    exact ⟨fun same => ⟨fits, same⟩, And.right⟩
  · rename_i large
    exact ⟨fun made => absurd made.symm (Option.some_ne_none k), fun made => absurd made.1 large⟩

theorem ofInt?_eq_none : ofInt? n = none ↔ ¬(int n).Fits := by
  rw [Option.eq_none_iff_forall_not_mem]
  constructor
  · intro none fits
    exact none _ (ofInt?_eq_some.mpr ⟨fits, rfl⟩)
  · intro large k made
    exact large (ofInt?_eq_some.mp made).1

theorem truth_eq {b : Bool} {P : Prop} [Decidable P] (holds : b = true ↔ P) :
    truth b = int (truthNumber P) := by
  rw [truth, truthNumber]
  exact congrArg int (if_congr holds rfl rfl)

/-- A quotient of two words has 32 bits, apart from one. -/
theorem fits_tdiv (left : (int x).Fits) (divisor : y ≠ 0) :
    (int (x.tdiv y)).Fits ↔ ¬(x = -0x80000000 ∧ y = -1) := by
  obtain ⟨low, high⟩ := left
  have size : (x.tdiv y).natAbs = x.natAbs / y.natAbs := Int.natAbs_tdiv x y
  constructor
  · rintro fits ⟨rfl, rfl⟩
    exact absurd fits.2 (by decide)
  · intro proper
    by_cases one : y.natAbs = 1
    · obtain rfl | rfl : y = 1 ∨ y = -1 := by omega
      · rw [Int.tdiv_one]
        exact ⟨low, high⟩
      · rw [Int.tdiv_neg, Int.tdiv_one]
        constructor <;> omega
    · have half : x.natAbs / y.natAbs ≤ x.natAbs / 2 :=
        Nat.div_le_div_left (by omega) (by decide)
      constructor <;> omega

theorem quotient_eq_some :
    binaryInt? .div x y = some k ↔ y ≠ 0 ∧ (int (x.tdiv y)).Fits ∧ k = int (x.tdiv y) := by
  simp only [binaryInt?]
  by_cases zero : y = 0
  · simp [zero]
  · rw [if_neg zero, ofInt?_eq_some]
    exact (and_iff_right zero).symm

theorem quotient_eq_none (left : (int x).Fits) :
    binaryInt? .div x y = none ↔ y = 0 ∨ x = -0x80000000 ∧ y = -1 := by
  simp only [binaryInt?]
  by_cases zero : y = 0
  · simp [zero]
  · rw [if_neg zero, ofInt?_eq_none, fits_tdiv left zero, not_not]
    exact (or_iff_right zero).symm

/-- There is a remainder where there is a quotient. -/
theorem remainder_eq :
    binaryInt? .mod x y = (binaryInt? .div x y).map fun _ => int (x.tmod y) := by
  simp only [binaryInt?]
  split <;> rfl

/-- Folding two integers gives what the operator means, where that has 32 bits. -/
theorem binaryInt?_eq_some (left : (int x).Fits) :
    binaryInt? op x y = some k ↔ ∃ n, op.Computes x y n ∧ (int n).Fits ∧ k = int n := by
  have exactly {n : Int} : ofInt? n = some k ↔ ∃ n', n' = n ∧ (int n').Fits ∧ k = int n' := by
    rw [exists_eq_left, ofInt?_eq_some]
  have truths {b : Bool} {P : Prop} [Decidable P] (holds : b = true ↔ P) :
      some (truth b) = some k ↔ ∃ n, n = truthNumber P ∧ (int n).Fits ∧ k = int n := by
    have fits : (int (truthNumber P)).Fits := truth_eq holds ▸ fits_truth b
    rw [truth_eq holds, Option.some.injEq, exists_eq_left, eq_comm]
    exact ⟨fun same => ⟨fits, same⟩, And.right⟩
  cases op with
  | add | sub | mul => exact exactly
  | div =>
      rw [quotient_eq_some]
      constructor
      · rintro ⟨divisor, fits, rfl⟩
        exact ⟨_, ⟨_, truncated_iff.mpr ⟨divisor, rfl, rfl⟩⟩, fits, rfl⟩
      · rintro ⟨n, ⟨r, truncated⟩, fits, rfl⟩
        obtain ⟨divisor, rfl, -⟩ := truncated_iff.mp truncated
        exact ⟨divisor, fits, rfl⟩
  | mod =>
      rw [remainder_eq, Option.map_eq_some_iff]
      constructor
      · rintro ⟨q, made, rfl⟩
        obtain ⟨divisor, fits, -⟩ := quotient_eq_some.mp made
        exact ⟨_, ⟨_, truncated_iff.mpr ⟨divisor, rfl, rfl⟩, fits⟩, fits_tmod left, rfl⟩
      · rintro ⟨n, ⟨q, truncated, fits⟩, -, rfl⟩
        obtain ⟨divisor, rfl, rfl⟩ := truncated_iff.mp truncated
        exact ⟨_, quotient_eq_some.mpr ⟨divisor, fits, rfl⟩, rfl⟩
  | equal => exact truths beq_iff_eq
  | notEqual => exact truths bne_iff_ne
  | less | lessOrEqual | greater | greaterOrEqual => exact truths decide_eq_true_iff
  | and => exact truths (by simp)
  | or => exact truths (by simp)

theorem binaryInt?_eq_none (left : (int x).Fits) : binaryInt? op x y = none ↔ op.Fails x y := by
  cases op with
  | add | sub | mul => exact ofInt?_eq_none
  | div => exact quotient_eq_none left
  | mod =>
      rw [remainder_eq, Option.map_eq_none_iff]
      exact quotient_eq_none left
  | _ => exact iff_of_false (Option.some_ne_none _) not_false

theorem unaryInt?_eq_some {op : UnOp} :
    unary? op (int x) = some k ↔ (∃ n, op.Computes x n ∧ (int n).Fits ∧ k = int n) := by
  cases op with
  | neg =>
      simp only [UnOp.Computes, exists_eq_left]
      exact ofInt?_eq_some
  | not =>
      have holds : (!(int x).isTrue) = true ↔ x = 0 := by simp [isTrue]
      have fits : (int (truthNumber (x = 0))).Fits := truth_eq holds ▸ fits_truth _
      simp only [UnOp.Computes, exists_eq_left]
      rw [unary?, truth_eq holds, Option.some.injEq, eq_comm]
      exact ⟨fun same => ⟨fits, same⟩, And.right⟩

theorem unaryInt?_eq_none {op : UnOp} (fits : (int x).Fits) :
    unary? op (int x) = none ↔ op.Fails x := by
  obtain ⟨low, high⟩ := fits
  cases op with
  | neg =>
      rw [unary?, ofInt?_eq_none, UnOp.Fails, Fits]
      constructor
      · intro large
        exact ⟨rfl, by omega⟩
      · rintro ⟨-, rfl⟩
        decide
  | not => exact iff_of_false (Option.some_ne_none _) fun fails => UnOp.noConfusion fails.1

/-- The text of a whole number stands for it, if it has 32 bits. -/
theorem parse?_toString (fits : (int n).Fits) : parse? (toString n) = some (int n) :=
  parse?_of_fits fits rfl

end Constant

/-! ### Code -/

namespace Assembly

open Constant

variable {F : Type} {p : Platform F} {m : Machine F} {op : BinOp} {x y n : Int}

theorem toInt_word (fits : (int x).Fits) : (BitVec.ofInt 32 x).toInt = x :=
  BitVec.toInt_ofInt_eq_self (by decide) fits.1 fits.2

theorem word_eq_iff {w : BitVec 32} (fits : (int x).Fits) :
    BitVec.ofInt 32 x = w ↔ x = w.toInt := by
  rw [← BitVec.toInt_inj, toInt_word fits]

theorem word_eq_zero (fits : (int x).Fits) : BitVec.ofInt 32 x = 0 ↔ x = 0 :=
  word_eq_iff fits

theorem slt_iff (left : (int x).Fits) (right : (int y).Fits) :
    (BitVec.ofInt 32 x).slt (BitVec.ofInt 32 y) = true ↔ x < y := by
  rw [BitVec.slt_eq_decide, toInt_word left, toInt_word right, decide_eq_true_iff]

theorem sle_iff (left : (int x).Fits) (right : (int y).Fits) :
    (BitVec.ofInt 32 x).sle (BitVec.ofInt 32 y) = true ↔ x ≤ y := by
  rw [BitVec.sle_eq_decide, toInt_word left, toInt_word right, decide_eq_true_iff]

theorem ofTruth_eq {b : Bool} {P : Prop} [Decidable P] (holds : b = true ↔ P) :
    ofTruth b = BitVec.ofInt 32 (truthNumber P) := by
  rw [ofTruth, truthNumber, if_congr holds rfl rfl]
  split <;> rfl

/-- The words have a quotient exactly where the numbers have one of 32 bits. -/
theorem noQuotient_iff (left : (int x).Fits) (right : (int y).Fits) :
    Value.NoQuotient (BitVec.ofInt 32 x) (BitVec.ofInt 32 y) ↔
      y = 0 ∨ x = -0x80000000 ∧ y = -1 := by
  have least : BitVec.ofInt 32 x = BitVec.intMin 32 ↔ x = -0x80000000 := word_eq_iff left
  have minusOne : BitVec.ofInt 32 y = -1 ↔ y = -1 := word_eq_iff right
  rw [Value.NoQuotient, word_eq_zero right, least, minusOne]

/-- What an operator means for two words is what it means for the numbers, if that has 32
bits. -/
theorem integers_of_computes (left : (int x).Fits) (right : (int y).Fits)
    (arithmetic : op.isLogical = false) (computes : op.Computes x y n) (fits : (int n).Fits) :
    Value.integers op (BitVec.ofInt 32 x) (BitVec.ofInt 32 y) = .ok (BitVec.ofInt 32 n) := by
  have quotient (divisor : y ≠ 0) (whole : (int (x.tdiv y)).Fits) :
      ¬Value.NoQuotient (BitVec.ofInt 32 x) (BitVec.ofInt 32 y) := by
    rw [noQuotient_iff left right]
    rintro (zero | least)
    · exact divisor zero
    · exact (fits_tdiv left divisor).mp whole least
  have same : BitVec.ofInt 32 x = BitVec.ofInt 32 y ↔ x = y := by
    rw [word_eq_iff left, toInt_word right]
  cases op with
  | add =>
      obtain rfl := computes
      rw [Value.integers, BitVec.ofInt_add]
  | sub =>
      obtain rfl := computes
      rw [Value.integers, Int.sub_eq_add_neg, BitVec.ofInt_add, BitVec.ofInt_neg,
        BitVec.sub_eq_add_neg]
  | mul =>
      obtain rfl := computes
      rw [Value.integers, BitVec.ofInt_mul]
  | div =>
      obtain ⟨r, truncated⟩ := computes
      obtain ⟨divisor, rfl, -⟩ := truncated_iff.mp truncated
      have proper := quotient divisor fits
      rw [Value.integers, if_neg proper, ← BitVec.ofInt_toInt (x := BitVec.sdiv _ _),
        ← toInt_tdiv proper, toInt_word left, toInt_word right]
  | mod =>
      obtain ⟨q, truncated, whole⟩ := computes
      obtain ⟨divisor, rfl, rfl⟩ := truncated_iff.mp truncated
      rw [Value.integers, if_neg (quotient divisor whole),
        ← BitVec.ofInt_toInt (x := BitVec.srem _ _), BitVec.toInt_srem, toInt_word left,
        toInt_word right]
  | equal =>
      obtain rfl := computes
      rw [Value.integers, ofTruth_eq (beq_iff_eq.trans same)]
  | notEqual =>
      obtain rfl := computes
      rw [Value.integers, ofTruth_eq (bne_iff_ne.trans same.not)]
  | less =>
      obtain rfl := computes
      rw [Value.integers, ofTruth_eq (slt_iff left right)]
  | lessOrEqual =>
      obtain rfl := computes
      rw [Value.integers, ofTruth_eq (sle_iff left right)]
  | greater =>
      obtain rfl := computes
      rw [Value.integers, ofTruth_eq (slt_iff right left)]
  | greaterOrEqual =>
      obtain rfl := computes
      rw [Value.integers, ofTruth_eq (sle_iff right left)]
  | and | or => contradiction

/-- The same with the connectives. -/
theorem binary_of_computes (fl : Floats F) (left : (int x).Fits) (right : (int y).Fits)
    (computes : op.Computes x y n) (fits : (int n).Fits) :
    (Value.int (BitVec.ofInt 32 x)).binary fl op (.int (BitVec.ofInt 32 y)) =
      .ok (.int (BitVec.ofInt 32 n)) := by
  have first : (Value.int (BitVec.ofInt 32 x)).isTrue fl = true ↔ x ≠ 0 :=
    bne_iff_ne.trans (word_eq_zero left).not
  have second : (Value.int (BitVec.ofInt 32 y)).isTrue fl = true ↔ y ≠ 0 :=
    bne_iff_ne.trans (word_eq_zero right).not
  by_cases logical : op.isLogical = true
  · cases op with
    | and =>
        obtain rfl := computes
        rw [Value.binary, ofTruth_eq (Bool.and_eq_true_iff.trans (and_congr first second))]
    | or =>
        obtain rfl := computes
        rw [Value.binary, ofTruth_eq (Bool.or_eq_true_iff.trans (or_congr first second))]
    | _ => contradiction
  · have arithmetic : op.isLogical = false := Bool.not_eq_true _ ▸ logical
    rw [Value.binary_words fl arithmetic, integers_of_computes left right arithmetic computes fits]
    rfl

/-- The code of an operator whose operands are words: the left one waits on the stack, the right
one is in `eax`. -/
theorem run_binaryWords (p : Platform F) (op : BinOp) (low : Nat) {a b : BitVec 32} (s : State)
    (waits : m.Waits p.toFloats (.int a)) (shows : m.Shows m.fpu (.int b)) :
    Delivers (m.run p (binaryOp op .int .int s).1.1)
      (fun v m' => m'.Shows m.fpu v ∧ Machine.Dropped low (pushedBytes .int) m m')
      ((Value.int a).binary p.toFloats op (.int b)) := by
  by_cases logical : op.isLogical = true
  · have runs : Delivers _ (fun v m' => m'.Shows m.fpu v ∧ Machine.Dropped low _ m m') _ :=
      run_logicalOp s waits shows logical
    exact runs
  · have arithmetic : op.isLogical = false := Bool.not_eq_true _ ▸ logical
    rw [binaryOp_words s arithmetic, Value.binary_words _ arithmetic]
    exact run_wordOp waits shows arithmetic

theorem unary_of_computes {op : UnOp} (fl : Floats F) (whole : (int x).Fits)
    (computes : op.Computes x n) :
    (Value.int (BitVec.ofInt 32 x)).unary fl op = .int (BitVec.ofInt 32 n) := by
  cases op with
  | neg =>
      obtain rfl := computes
      rw [Value.unary, BitVec.ofInt_neg]
  | not =>
      obtain rfl := computes
      have holds : (!(Value.int (BitVec.ofInt 32 x)).isTrue fl) = true ↔ x = 0 := by
        rw [Bool.not_eq_true', Value.isTrue, bne_eq_false_iff_eq, word_eq_zero whole]
      rw [Value.unary, ofTruth_eq holds]

/-! ### Both -/

/-- What is folded is what the operator means, and what the code leaves in `eax` when it starts
in a state with the operands. -/
structure Agrees (p : Platform F) (folded : Option String) (Means : Int → Prop)
    (lines : List Line) (Ready : Machine F → Prop) : Prop where
  meaning : ∀ text, folded = some text ↔ ∃ n, Means n ∧ (int n).Fits ∧ text = toString n
  back : ∀ n, folded = some (toString n) → parse? (toString n) = some (int n)
  runs : ∀ n m, folded = some (toString n) → Ready m →
    ∃ m', m.run p lines = .ok m' ∧ m'.eax = BitVec.ofInt 32 n

theorem toString_inj {n n' : Int} (same : toString n = toString n') : n = n' := by
  have read : Decimal.readInt? (toString n).toList = Decimal.readInt? (toString n').toList := by
    rw [same]
  rw [Decimal.readInt?_toString, Decimal.readInt?_toString] at read
  exact Option.some.inj read

/-- It is enough that folding and the code agree with the meaning. -/
theorem Agrees.of_means {made : Option Constant} {Means : Int → Prop} {lines : List Line}
    {Ready : Machine F → Prop}
    (folds : ∀ k, made = some k ↔ ∃ n, Means n ∧ (int n).Fits ∧ k = int n)
    (runs : ∀ n m, Means n → (int n).Fits → Ready m →
      ∃ m', m.run p lines = .ok m' ∧ m'.eax = BitVec.ofInt 32 n) :
    Agrees p (made.bind render?) Means lines Ready := by
  have meaning (text : String) :
      made.bind render? = some text ↔ ∃ n, Means n ∧ (int n).Fits ∧ text = toString n := by
    rw [Option.bind_eq_some_iff]
    constructor
    · rintro ⟨k, found, written⟩
      obtain ⟨n, means, fits, rfl⟩ := (folds k).mp found
      exact ⟨n, means, fits, (Option.some.inj written).symm⟩
    · rintro ⟨n, means, fits, rfl⟩
      exact ⟨int n, (folds _).mpr ⟨n, means, fits, rfl⟩, rfl⟩
  constructor
  · exact meaning
  · intro n written
    obtain ⟨n', -, fits, same⟩ := (meaning _).mp written
    obtain rfl := toString_inj same
    exact parse?_toString fits
  · intro n m written ready
    obtain ⟨n', means, fits, same⟩ := (meaning _).mp written
    obtain rfl := toString_inj same
    exact runs n m means fits ready

/-- Nothing is lost when what was computed is written. -/
theorem written_eq_none {made : Option Constant} {Means : Int → Prop}
    (folds : ∀ k, made = some k ↔ ∃ n, Means n ∧ (int n).Fits ∧ k = int n) :
    made.bind render? = none ↔ made = none := by
  constructor
  · intro none
    by_contra found
    obtain ⟨k, found⟩ := Option.ne_none_iff_exists'.mp found
    obtain ⟨n, -, -, rfl⟩ := (folds k).mp found
    rw [found] at none
    contradiction
  · rintro rfl
    rfl

/-- Folding integers agrees with the code for the same operators, on whatever platform it runs.
Of two operands the left one waits on the stack and the right one is in `eax`. -/
theorem folding_agrees (p : Platform F) :
    (∀ op a b x y s, parse? a = some (int x) → parse? b = some (int y) →
      Agrees p (foldBinary? op a b) (op.Computes x y) (binaryOp op .int .int s).1.1
          (fun m => m.word m.esp = BitVec.ofInt 32 x ∧ m.eax = BitVec.ofInt 32 y) ∧
        (foldBinary? op a b = none ↔ op.Fails x y)) ∧
    ∀ op a x, parse? a = some (int x) →
      Agrees p (foldUnary? op a) (op.Computes x) (code (unaryOp op .int).1)
          (fun m => m.eax = BitVec.ofInt 32 x) ∧
        (foldUnary? op a = none ↔ op.Fails x) := by
  constructor
  · intro op a b x y s first second
    have left : (int x).Fits := fits_parse? first
    have right : (int y).Fits := fits_parse? second
    have folds (k : Constant) : binaryInt? op x y = some k ↔
        ∃ n, op.Computes x y n ∧ (int n).Fits ∧ k = int n := binaryInt?_eq_some left
    have folded : foldBinary? op a b = (binaryInt? op x y).bind render? := by
      rw [foldBinary?, first, second]
      rfl
    rw [folded]
    constructor
    · apply Agrees.of_means folds
      rintro n m computes fits ⟨waits, shows⟩
      have delivers := run_binaryWords p op 0 s waits ⟨shows, rfl⟩
      rw [binary_of_computes p.toFloats left right computes fits] at delivers
      obtain ⟨m', ends, shown, -⟩ := delivers
      exact ⟨m', ends, shown.1⟩
    · exact (written_eq_none folds).trans (binaryInt?_eq_none left)
  · intro op a x parsed
    have whole : (int x).Fits := fits_parse? parsed
    have folds (k : Constant) : unary? op (int x) = some k ↔
        ∃ n, op.Computes x n ∧ (int n).Fits ∧ k = int n := unaryInt?_eq_some
    have folded : foldUnary? op a = (unary? op (int x)).bind render? := by
      rw [foldUnary?, parsed]
      rfl
    rw [folded]
    constructor
    · apply Agrees.of_means folds
      intro n m computes fits shows
      have inPlace : m.Shows m.fpu (.int (BitVec.ofInt 32 x)) := ⟨shows, rfl⟩
      obtain ⟨m', ends, shown, -⟩ : ∃ m', m.run p (code (unaryOp op .int).1) = .ok m' ∧
          m'.Shows m.fpu ((Value.int (BitVec.ofInt 32 x)).unary p.toFloats op) ∧
          Machine.Kept 0 m m' :=
        run_unaryOp op inPlace
      rw [unary_of_computes p.toFloats whole computes] at shown
      exact ⟨m', ends, shown.1⟩
    · exact (written_eq_none folds).trans (unaryInt?_eq_none whole)

/-- `5 % -2` is folded to 1, which its code leaves in `eax`; what has no result is not folded. -/
theorem remainder_agrees :
    foldBinary? .mod "5" "-2" = some "1" ∧ foldBinary? .div "5" "0" = none ∧
      foldUnary? .neg "-2147483648" = none ∧
      ∃ m', ({ sampleMachine with eax := -2 } : Machine (BitVec 64)).run samplePlatform
        (binaryOp .mod .int .int {}).1.1 = .ok m' ∧ m'.eax = 1 := by
  obtain ⟨binary, unary⟩ := folding_agrees samplePlatform
  obtain ⟨agrees, -⟩ := binary .mod "5" "-2" 5 (-2) {} (by decide) (by decide)
  obtain ⟨-, noQuotient⟩ := binary .div "5" "0" 5 0 {} (by decide) (by decide)
  obtain ⟨-, noNegation⟩ := unary .neg "-2147483648" (-2147483648) (by decide)
  have folded : foldBinary? .mod "5" "-2" = some (toString (1 : Int)) := by
    have truncated : Truncated 5 (-2) (-2) 1 := ⟨by decide, by decide, by decide, by decide⟩
    have fits (n : Int) (small : -2 ≤ n ∧ n ≤ 1) : (int n).Fits := by constructor <;> omega
    exact (agrees.meaning _).mpr
      ⟨1, ⟨-2, truncated, fits _ (by decide)⟩, fits _ (by decide), rfl⟩
  exact ⟨folded, noQuotient.mpr (.inl rfl), noNegation.mpr ⟨rfl, rfl⟩,
    agrees.runs 1 _ folded ⟨by decide, by decide⟩⟩

end Assembly

end BraceLang
