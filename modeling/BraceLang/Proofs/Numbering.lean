import Mathlib.Data.List.Basic

/-!
Texts that end in a number behind a mark. The mark is no digit, so such a text is read in one way
only, whatever stands in front of the mark.
-/

namespace BraceLang

/-- A mark that is no digit does not stand in a number. -/
theorem not_mem_toDigits {mark : Char} (noDigit : mark.isDigit = false) (n : Nat) :
    mark ∉ Nat.toDigits 10 n := by
  intro mem
  have digit := Nat.isDigit_of_mem_toDigits (by decide) (by decide) mem
  rw [noDigit] at digit
  contradiction

/-- A list is cut at its last mark in one way only. -/
theorem append_mark_inj {mark : Char} {a b d e : List Char} (unmarked : mark ∉ d)
    (unmarked' : mark ∉ e) (same : a ++ mark :: d = b ++ mark :: e) : a = b ∧ d = e := by
  rcases List.append_eq_append_iff.mp same with ⟨c, rfl, rest⟩ | ⟨c, rfl, rest⟩
  · cases c with
    | nil => simpa using rest
    | cons x c =>
        obtain ⟨-, rfl⟩ := List.cons.inj rest
        simp at unmarked
  · cases c with
    | nil => simpa [eq_comm] using rest
    | cons x c =>
        obtain ⟨-, rfl⟩ := List.cons.inj rest
        simp at unmarked'

/-- A numbered text tells what was numbered, and the number. -/
theorem append_toDigits_inj {mark : Char} (noDigit : mark.isDigit = false) {a b : List Char}
    {j k : Nat} (same : a ++ mark :: Nat.toDigits 10 j = b ++ mark :: Nat.toDigits 10 k) :
    a = b ∧ j = k := by
  obtain ⟨texts, digits⟩ :=
    append_mark_inj (not_mem_toDigits noDigit j) (not_mem_toDigits noDigit k) same
  refine ⟨texts, ?_⟩
  rw [← Nat.ofDigitChars_ten_toDigits (n := j), digits, Nat.ofDigitChars_ten_toDigits]

end BraceLang
