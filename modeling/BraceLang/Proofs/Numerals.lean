import BraceLang.Proofs.Binary64
import BraceLang.Constant

/-!
Constants and their texts. What is computed with constants is written as a numeral that is read
back as the same constant, and every integer of 32 bits has a text with a point for the
floating-point number it is converted to.

* **`parse?_of_fits`**: a constant is read back from its text;
* **`fits_unary?`**, **`fits_binary?`**: what operators yield still fits into 32 bits;
* **`exists_render?_ofInt`**: an integer has a text as a floating-point number.
-/

namespace BraceLang

namespace Decimal

/-! ### Digits -/

theorem all_isDigit (n : Nat) : ∀ c ∈ Nat.toDigits 10 n, c.isDigit = true :=
  fun _ mem => Nat.isDigit_of_mem_toDigits (by decide) (by decide) mem

theorem ofDigits_toDigits (n : Nat) : ofDigits (Nat.toDigits 10 n) = n :=
  Nat.ofDigitChars_ten_toDigits

/-- Digits are not taken for a sign. -/
theorem splitSign_toDigits (n : Nat) (rest : List Char) :
    splitSign (Nat.toDigits 10 n ++ rest) = (false, Nat.toDigits 10 n ++ rest) := by
  cases digits : Nat.toDigits 10 n with
  | nil => exact absurd digits Nat.toDigits_ne_nil
  | cons c cs =>
      have digit : c.isDigit = true := all_isDigit n c (by simp [digits])
      unfold splitSign
      split
      · rename_i same
        obtain ⟨rfl, -⟩ := List.cons.inj same
        contradiction
      · rename_i same
        obtain ⟨rfl, -⟩ := List.cons.inj same
        contradiction
      · rfl

theorem readDigits?_toDigits (n : Nat) : readDigits? (Nat.toDigits 10 n) = some n := by
  have nonempty : (Nat.toDigits 10 n).isEmpty = false := by simp [Nat.toDigits_ne_nil]
  have digits : (Nat.toDigits 10 n).all Char.isDigit = true := List.all_eq_true.mpr (all_isDigit n)
  simp [readDigits?, nonempty, digits, ofDigits_toDigits]

theorem toList_ofNat (n : Nat) : (toString (Int.ofNat n)).toList = Nat.toDigits 10 n :=
  Nat.toList_repr

theorem toList_negSucc (n : Nat) :
    (toString (Int.negSucc n)).toList = '-' :: Nat.toDigits 10 (n + 1) := by
  change ("-" ++ toString (n + 1)).toList = _
  rw [String.toList_append]
  exact congrArg ('-' :: ·) Nat.toList_repr

/-- **A whole number is read back from its digits.** -/
theorem readInt?_toString (n : Int) : readInt? (toString n).toList = some n := by
  cases n with
  | ofNat n =>
      have sign := splitSign_toDigits n []
      rw [List.append_nil] at sign
      rw [toList_ofNat, readInt?, sign]
      simp [readDigits?_toDigits]
  | negSucc n =>
      rw [toList_negSucc, readInt?, splitSign]
      simp [readDigits?_toDigits, Int.negSucc_eq]

/-- The text of a whole number with a point behind it. -/
def wholeText (negative : Bool) (m : Nat) : List Char :=
  (if negative then ['-'] else []) ++ Nat.toDigits 10 m ++ ['.', '0']

theorem write_whole (negative : Bool) (m : Nat) :
    write ⟨negative, m, 0⟩ = wholeText negative m := by
  simp [write, wholeText, tenTo]

theorem takeWhile_digits (m : Nat) (rest : List Char) :
    (Nat.toDigits 10 m ++ '.' :: rest).takeWhile Char.isDigit = Nat.toDigits 10 m ∧
      (Nat.toDigits 10 m ++ '.' :: rest).dropWhile Char.isDigit = '.' :: rest := by
  have digits := all_isDigit m
  constructor
  · rw [List.takeWhile_append_of_pos digits]
    simp [Char.isDigit]
  · rw [List.dropWhile_append_of_pos digits]
    simp [Char.isDigit]

/-- The zero behind the point counts as a digit. -/
theorem read?_whole (negative : Bool) (m : Nat) :
    read? (wholeText negative m) = some ⟨negative, 10 * m, -1⟩ := by
  have sign : splitSign (wholeText negative m) = (negative, Nat.toDigits 10 m ++ ['.', '0']) := by
    cases negative with
    | true => rfl
    | false => exact splitSign_toDigits m ['.', '0']
  obtain ⟨taken, left⟩ := takeWhile_digits m ['0']
  have digits : ofDigits (Nat.toDigits 10 m ++ ['0']) = 10 * m := by
    rw [ofDigits, List.foldl_append, ← ofDigits, ofDigits_toDigits]
    rfl
  have one : ['0'].takeWhile Char.isDigit = ['0'] := by decide
  have none : ['0'].dropWhile Char.isDigit = [] := by decide
  simp only [read?, sign, taken, left, one, none, readExponent?, digits]
  simp

/-! ### The text of a whole binary64 number -/

open Binary64

/-- The decimal of a whole number is among the first to be tried. -/
theorem mem_candidates (negative : Bool) {m : Nat} (is : IsWhole m) (small : m < 10 ^ 10) :
    ⟨negative, m, 0⟩ ∈ candidates (number (signOf negative) m is) := by
  have inside : m.log2 < 52 := (Nat.log2_lt is.pos.ne').mpr (by omega)
  have den : 0 < 2 ^ room m := Nat.two_pow_pos _
  have quotient : m * 2 ^ room m / 2 ^ room m = m := Nat.mul_div_cancel m den
  have places : (toString m).length ≤ 10 := by
    change m.repr.length ≤ 10
    rw [← String.length_toList, Nat.toList_repr]
    exact (Nat.length_toDigits_le_iff (by decide) (by decide)).mpr small
  have first : leading (m * 2 ^ room m) (2 ^ room m) = ((toString m).length - 1 : Nat) := by
    have le : 2 ^ room m ≤ m * 2 ^ room m := Nat.le_mul_of_pos_left _ is.pos
    have some : 0 < (toString m).length := by
      change 0 < m.repr.length
      rw [← String.length_toList, Nat.toList_repr]
      exact Nat.length_toDigits_pos
    rw [leading, if_pos le, quotient]
    omega
  have near : m ∈ neighbours (m * 2 ^ room m) (2 ^ room m) 0 := by
    have exact : ¬ 2 ^ room m ≤ 0 := by omega
    simp [neighbours, tenTo, quotient, exact]
  rw [candidates, ratio_number _ is inside, isNegative_number]
  simp only [is.significand_pos.ne', if_false]
  rw [List.mem_flatMap]
  refine ⟨(toString m).length - 1, List.mem_range.mpr (by omega), ?_⟩
  rw [first, Int.sub_self]
  exact List.mem_map_of_mem near

/-- It reads back as the number. -/
theorem writesBack_whole (negative : Bool) {m : Nat} (is : IsWhole m) (is' : IsWhole (10 * m)) :
    writesBack ⟨negative, m, 0⟩ (number (signOf negative) m is) = true := by
  have tenth : toFloat ⟨negative, 10 * m, -1⟩ = number (signOf negative) m is := by
    have magnitude : Float.ofScientific (10 * m) true 1 = number .positive m is :=
      ofScientific_tenth is is'
    cases negative with
    | true => exact (congrArg Float.neg magnitude).trans (neg_number is)
    | false => exact magnitude
  rw [writesBack, write_whole, read?_whole, Option.map_some, tenth, decide_eq_true_eq]

/-- **Whole numbers have texts.** -/
theorem exists_shortest? (negative : Bool) {m : Nat} (is : IsWhole m) (small : m < 10 ^ 10) :
    ∃ d, shortest? (number (signOf negative) m is) = some d := by
  have is' : IsWhole (10 * m) :=
    ⟨Nat.mul_pos (by decide) is.pos,
      Nat.le_of_lt_succ ((Nat.log2_lt (by have := is.pos; omega)).mpr (by omega))⟩
  rw [shortest?, if_pos (isFinite_number _ is), ← Option.isSome_iff_exists, List.find?_isSome]
  exact ⟨_, mem_candidates negative is small, writesBack_whole negative is is'⟩

end Decimal

/-! ### Constants -/

namespace Constant

/-- An integer has 32 bits. -/
def Fits : Constant → Prop
  | int n => -0x80000000 ≤ n ∧ n < 0x80000000
  | float _ => True

theorem fits_ofInt? {n : Int} {k : Constant} (made : ofInt? n = some k) : k.Fits := by
  unfold ofInt? at made
  split at made
  · rename_i fits
    obtain rfl := Option.some.inj made
    exact fits
  · contradiction

theorem fits_truth (b : Bool) : (truth b).Fits := by
  cases b <;> exact ⟨by decide, by decide⟩

theorem fits_parse? {text : String} {k : Constant} (parsed : parse? text = some k) : k.Fits := by
  unfold parse? at parsed
  split at parsed
  · obtain ⟨d, -, rfl⟩ := Option.map_eq_some_iff.mp parsed
    exact trivial
  · obtain ⟨n, -, made⟩ := Option.bind_eq_some_iff.mp parsed
    exact fits_ofInt? made

theorem fits_unary? {op : UnOp} {a k : Constant} (made : unary? op a = some k) : k.Fits := by
  cases op with
  | neg =>
      cases a with
      | int n => exact fits_ofInt? made
      | float x =>
          obtain rfl := Option.some.inj made
          exact trivial
  | not =>
      obtain rfl := Option.some.inj made
      exact fits_truth _

/-- A remainder is no further from zero than what was divided. -/
theorem fits_tmod {a b : Int} (fits : (int a).Fits) : (int (a.tmod b)).Fits := by
  obtain ⟨low, high⟩ := fits
  have le : (a.tmod b).natAbs ≤ a.natAbs := by
    rw [Int.natAbs_tmod]
    exact Nat.mod_le _ _
  constructor
  · rcases Int.le_total 0 a with up | down
    · have := Int.tmod_nonneg b up
      omega
    · omega
  · rcases Int.le_total 0 a with up | down
    · omega
    · have := Int.tmod_nonneg b (Int.neg_nonneg_of_nonpos down)
      rw [Int.neg_tmod] at this
      omega

theorem fits_binaryInt? {op : BinOp} {a b : Int} {k : Constant} (fits : (int a).Fits)
    (made : binaryInt? op a b = some k) : k.Fits := by
  cases op with
  | add => exact fits_ofInt? made
  | sub => exact fits_ofInt? made
  | mul => exact fits_ofInt? made
  | div =>
      simp only [binaryInt?] at made
      split at made
      · contradiction
      · exact fits_ofInt? made
  | mod =>
      simp only [binaryInt?] at made
      split at made
      · contradiction
      · obtain ⟨-, -, rfl⟩ := Option.map_eq_some_iff.mp made
        exact fits_tmod fits
  | _ =>
      obtain rfl := Option.some.inj made
      exact fits_truth _

theorem fits_binaryFloat? {op : BinOp} {a b : Float} {k : Constant}
    (made : binaryFloat? op a b = some k) : k.Fits := by
  cases op with
  | add => obtain rfl := Option.some.inj made; exact trivial
  | sub => obtain rfl := Option.some.inj made; exact trivial
  | mul => obtain rfl := Option.some.inj made; exact trivial
  | div =>
      simp only [binaryFloat?] at made
      split at made
      · contradiction
      · obtain rfl := Option.some.inj made
        exact trivial
  | mod => contradiction
  | _ =>
      obtain rfl := Option.some.inj made
      exact fits_truth _

theorem fits_binary? {op : BinOp} {a b k : Constant} (fits : a.Fits)
    (made : binary? op a b = some k) : k.Fits := by
  cases a with
  | int m =>
      cases b with
      | int n => exact fits_binaryInt? fits made
      | float y => exact fits_binaryFloat? made
  | float x => exact fits_binaryFloat? made

/-- A whole number is written without a point. -/
theorem hasPoint_toString (n : Int) : hasPoint (toString n) = false := by
  have digits (k : Nat) : '.' ∉ Nat.toDigits 10 k := fun mem =>
    absurd (Decimal.all_isDigit k _ mem) (by decide)
  cases n with
  | ofNat n => rw [hasPoint, Decimal.toList_ofNat]; simp [digits]
  | negSucc n => rw [hasPoint, Decimal.toList_negSucc]; simp [digits]

/-- **A constant is read back from its text.** -/
theorem parse?_of_fits {k : Constant} {text : String} (fits : k.Fits)
    (written : k.render? = some text) : parse? text = some k := by
  cases k with
  | float x => exact parse?_of_render? written
  | int n =>
      obtain rfl := Option.some.inj written
      have made : ofInt? n = some (int n) := if_pos fits
      rw [parse?, if_neg (by rw [hasPoint_toString]; decide), Decimal.readInt?_toString,
        Option.bind_some, made]

/-- What folding computes is read back. -/
theorem exists_parse?_unary {op : UnOp} {a text : String} (folded : foldUnary? op a = some text) :
    ∃ k, parse? text = some k := by
  obtain ⟨x, -, rest⟩ := Option.bind_eq_some_iff.mp folded
  obtain ⟨k, made, written⟩ := Option.bind_eq_some_iff.mp rest
  exact ⟨k, parse?_of_fits (fits_unary? made) written⟩

theorem exists_parse?_binary {op : BinOp} {a b text : String}
    (folded : foldBinary? op a b = some text) : ∃ k, parse? text = some k := by
  obtain ⟨x, parsed, rest⟩ := Option.bind_eq_some_iff.mp folded
  obtain ⟨y, -, rest⟩ := Option.bind_eq_some_iff.mp rest
  obtain ⟨k, made, written⟩ := Option.bind_eq_some_iff.mp rest
  exact ⟨k, parse?_of_fits (fits_binary? (fits_parse? parsed) made) written⟩

/-- A floating-point number is written with a point. -/
theorem hasPoint_of_render? {x : Float} {text : String} (written : (float x).render? = some text) :
    hasPoint text = true := by
  obtain ⟨d, -, rfl⟩ := Option.map_eq_some_iff.mp written
  simp [hasPoint, Decimal.write]

/-- **Every integer of 32 bits has a text as a floating-point number.** -/
theorem exists_render?_ofInt {n : Int} (fits : (int n).Fits) :
    ∃ text, (float (Float.ofInt n)).render? = some text := by
  by_cases zero : n = 0
  · subst zero
    exact ⟨"0.0", by decide +kernel⟩
  · obtain ⟨low, high⟩ := fits
    have is : Binary64.IsWhole n.natAbs :=
      ⟨by omega, Nat.le_of_lt_succ ((Nat.log2_lt (by omega)).mpr (by omega))⟩
    obtain ⟨d, found⟩ := Decimal.exists_shortest? (decide (n < 0)) is (by omega)
    exact ⟨String.ofList d.write, by rw [render?, Binary64.ofInt_eq is, found]; rfl⟩

end Constant

end BraceLang
