import BraceLang.Assembly.Expr

/-!
Character literals between two languages. A literal of C is copied into the operand of a `mov`,
with its own quotes if it is a character that stands for itself, between backquotes if it is an
escape. What the operand stands for is up to the assembler: it reads escapes between backquotes
only, it knows more letters than C does, and it takes at most two digits for a hexadecimal escape.

* **`CharBody`**: what stands between the quotes of a literal, and `byte?`, what it stands for;
* **`quoted?`**: the bytes that the assembler reads in a quoted operand;
* **`charText_eq_iff`**: what is copied, and `quoted?_operand` what it is read as.

**Main result.** `character_operand`: the characters between the quotes are copied as they are
unless they are an escaped quote, and they are read as the same byte unless they are an escaped
quote or more than two hexadecimal digits.
-/

namespace BraceLang

/-! ### Digits -/

def octalDigits : List Char := ['0', '1', '2', '3', '4', '5', '6', '7']

def hexDigits : List Char :=
  octalDigits ++ ['8', '9', 'a', 'b', 'c', 'd', 'e', 'f', 'A', 'B', 'C', 'D', 'E', 'F']

def isOctal (c : Char) : Bool := octalDigits.contains c

def isHex (c : Char) : Bool := hexDigits.contains c

/-- The number that a digit stands for. -/
def digitOf (c : Char) : Nat :=
  if c.isDigit then c.toNat - '0'.toNat
  else if c.isLower then c.toNat - 'a'.toNat + 10
  else c.toNat - 'A'.toNat + 10

/-- The number that some digits stand for. -/
def numberOf (base : Nat) (digits : List Char) : Nat :=
  digits.foldl (fun n c => base * n + digitOf c) 0

/-- The bytes of a character. -/
def utf8 (c : Char) : List Nat := (String.utf8EncodeChar c).map UInt8.toNat

theorem utf8_ascii {c : Char} (ascii : c.toNat < 128) : utf8 c = [c.toNat] := by
  have small : c.val.toNat ≤ 0x7F := Nat.le_of_lt_succ ascii
  rw [utf8, String.utf8EncodeChar, if_pos small, List.map_singleton]
  exact congrArg ([·]) (UInt8.toNat_ofNat_of_lt' (Nat.lt_of_lt_of_le ascii (by decide)))

theorem isHex_of_isOctal {c : Char} (octal : isOctal c = true) : isHex c = true := by
  rw [isHex, List.contains_iff_mem, hexDigits, List.mem_append, ← List.contains_iff_mem]
  exact .inl octal

/-- Digits are neither quotes nor backslashes. -/
theorem ordinary_of_isHex {c : Char} (hex : isHex c = true) :
    c ≠ '\'' ∧ c ≠ '`' ∧ c ≠ '\\' ∧ c.toNat < 128 := by
  have all : (hexDigits.all fun c => c ≠ '\'' ∧ c ≠ '`' ∧ c ≠ '\\' ∧ c.toNat < 128) = true := by
    decide
  rw [isHex, List.contains_iff_mem] at hex
  exact of_decide_eq_true (List.all_eq_true.mp all c hex)

/-! ### Literals of C -/

/-- An escape of one letter. -/
inductive Escape where
  | quote
  | doubleQuote
  | question
  | backslash
  | alert
  | backspace
  | formFeed
  | newLine
  | carriageReturn
  | tab
  | verticalTab
deriving DecidableEq

namespace Escape

def letter : Escape → Char
  | quote => '\''
  | doubleQuote => '"'
  | question => '?'
  | backslash => '\\'
  | alert => 'a'
  | backspace => 'b'
  | formFeed => 'f'
  | newLine => 'n'
  | carriageReturn => 'r'
  | tab => 't'
  | verticalTab => 'v'

def byte : Escape → Nat
  | quote => 39
  | doubleQuote => 34
  | question => 63
  | backslash => 92
  | alert => 7
  | backspace => 8
  | formFeed => 12
  | newLine => 10
  | carriageReturn => 13
  | tab => 9
  | verticalTab => 11

end Escape

/-- What stands between the quotes of a character literal. -/
inductive CharBody where
  /-- A character that stands for itself. -/
  | plain (c : Char) (ascii : c.toNat < 128)
      (ordinary : c ≠ '\'' ∧ c ≠ '\\' ∧ c ≠ '\n' ∧ c ≠ '\r')
  | simple (e : Escape)
  | octal (digits : List Char) (all : digits.all isOctal = true)
      (count : 1 ≤ digits.length ∧ digits.length ≤ 3)
  | hex (digits : List Char) (all : digits.all isHex = true) (some : 1 ≤ digits.length)
  /-- A character of Unicode, with four digits or with eight. -/
  | universal (long : Bool) (digits : List Char) (all : digits.all isHex = true)
      (count : digits.length = if long then 8 else 4)

namespace CharBody

/-- The characters between the quotes. -/
def inner : CharBody → List Char
  | plain c _ _ => [c]
  | simple e => ['\\', e.letter]
  | octal digits _ _ => '\\' :: digits
  | hex digits _ _ => '\\' :: 'x' :: digits
  | universal long digits _ _ => '\\' :: (if long then 'U' else 'u') :: digits

/-- The literal. -/
def text (b : CharBody) : String := String.ofList ('\'' :: (b.inner ++ ['\'']))

/-- The byte that the literal stands for, if it stands for one. A character of Unicode does so if
it is one of ASCII, and other digits if their number is small enough. -/
def byte? : CharBody → Option Nat
  | plain c _ _ => some c.toNat
  | simple e => some e.byte
  | octal digits _ _ => if numberOf 8 digits < 256 then some (numberOf 8 digits) else none
  | hex digits _ _ => if numberOf 16 digits < 256 then some (numberOf 16 digits) else none
  | universal _ digits _ _ =>
      if numberOf 16 digits < 128 then some (numberOf 16 digits) else none

/-- The assembler takes all digits of the literal for its escape. -/
def IsShort : CharBody → Prop
  | hex digits _ _ => digits.length ≤ 2
  | _ => True

/-- The operand that the literal is to be written as. -/
def operand (b : CharBody) : String :=
  if '\\' ∈ b.inner then String.ofList ('`' :: (b.inner ++ ['`'])) else b.text

end CharBody

/-! ### Operands of the assembler -/

namespace Assembly

/-- The letters of escapes of the assembler. -/
def escapeLetters : List (Char × Nat) :=
  [('\'', 39), ('"', 34), ('`', 96), ('\\', 92), ('?', 63), ('a', 7), ('b', 8), ('t', 9),
    ('n', 10), ('v', 11), ('f', 12), ('r', 13), ('e', 27)]

/-- The digits at the front, up to a certain number of them. -/
def leading (count : Nat) (isDigit : Char → Bool) (cs : List Char) : List Char :=
  (cs.take count).takeWhile isDigit

/-- A character of Unicode by its number, which has exactly so many digits. -/
def unicode? (count : Nat) (cs : List Char) : Option (List Nat × Nat) :=
  let digits := leading count isHex cs
  if digits.length = count ∧ (numberOf 16 digits).isValidChar then
    some (utf8 (Char.ofNat (numberOf 16 digits)), 1 + count)
  else none

/-- The bytes of the escape that follows a backslash, and the number of its characters. -/
def escape? : List Char → Option (List Nat × Nat)
  | [] => none
  | c :: rest =>
      if isOctal c then
        let digits := leading 3 isOctal (c :: rest)
        some ([numberOf 8 digits % 256], digits.length)
      else if c = 'x' then
        let digits := leading 2 isHex rest
        if digits = [] then none else some ([numberOf 16 digits], 1 + digits.length)
      else if c = 'u' then unicode? 4 rest
      else if c = 'U' then unicode? 8 rest
      else (escapeLetters.lookup c).map fun byte => ([byte], 1)

/-- The bytes between backquotes, the second of which is still to come. -/
def backquoted? : List Char → Option (List Nat)
  | [] => none
  | c :: rest =>
      if c = '`' then if rest = [] then some [] else none
      else if c = '\\' then
        (escape? rest).bind fun e => (backquoted? (rest.drop e.2)).map (e.1 ++ ·)
      else (backquoted? rest).map (utf8 c ++ ·)
termination_by cs => cs.length
decreasing_by
  · simp only [List.length_drop, List.length_cons]
    omega
  · simp

/-- The bytes that a quoted operand stands for. Escapes are read between backquotes only. -/
def quoted? (operand : String) : Option (List Nat) :=
  match operand.toList with
  | [] => none
  | q :: cs =>
      if q = '`' then backquoted? cs
      else if (q = '\'' ∨ q = '"') ∧ cs.dropWhile (· ≠ q) = [q] then
        some ((cs.takeWhile (· ≠ q)).flatMap utf8)
      else none

/-! ### What is copied -/

/-- One quote is dropped if no other follows it. -/
theorem dropWhile_quote {cs : List Char} (other : cs.head? ≠ some '\'') :
    ('\'' :: cs).dropWhile (· == '\'') = cs := by
  rw [List.dropWhile_cons_of_pos rfl]
  cases cs with
  | nil => rfl
  | cons c cs =>
      apply List.dropWhile_cons_of_neg
      rw [beq_iff_eq]
      rintro rfl
      exact other rfl

/-- The quotes are dropped, and no more, unless the text between them has quotes at its ends. -/
theorem unquoted_text {c : Char} {cs : List Char} (first : c ≠ '\'')
    (last : (c :: cs).getLast? ≠ some '\'') :
    unquoted (String.ofList ('\'' :: (c :: cs ++ ['\'']))) = String.ofList (c :: cs) := by
  have front : (c :: cs ++ ['\'']).head? ≠ some '\'' := fun same => first (Option.some.inj same)
  have back : (c :: cs).reverse.head? ≠ some '\'' := by
    rw [List.head?_reverse]
    exact last
  rw [unquoted, String.toList_ofList, dropWhile_quote front, List.reverse_append,
    List.reverse_singleton, List.singleton_append, dropWhile_quote back, List.reverse_reverse]

theorem escaped_ofList (cs : List Char) :
    escaped (String.ofList cs) = String.ofList ('`' :: (cs ++ ['`'])) := by
  apply String.toList_injective
  simp [escaped]

theorem contains_text (b : CharBody) :
    b.text.toList.contains '\\' = decide ('\\' ∈ b.inner) := by
  rw [CharBody.text, String.toList_ofList, List.contains_eq_mem]
  simp

theorem inner_cases (b : CharBody) :
    (∃ c, b.inner = [c] ∧ c ≠ '\\') ∨ ∃ cs, b.inner = '\\' :: cs := by
  cases b with
  | plain c ascii ordinary => exact .inl ⟨c, rfl, ordinary.2.1⟩
  | _ => exact .inr ⟨_, rfl⟩

/-- No other literal has a quote between its quotes. -/
theorem quote_not_mem {b : CharBody} (other : b ≠ .simple .quote) : '\'' ∉ b.inner := by
  have digits (ds : List Char) (all : ds.all isHex = true) : '\'' ∉ ds := by
    intro mem
    exact (ordinary_of_isHex (List.all_eq_true.mp all _ mem)).1 rfl
  cases b with
  | plain c ascii ordinary =>
      rw [CharBody.inner, List.mem_singleton]
      exact Ne.symm ordinary.1
  | simple e =>
      cases e with
      | quote => exact absurd rfl other
      | _ => decide
  | octal ds all count =>
      have hexadecimal : ds.all isHex = true := List.all_eq_true.mpr fun c mem =>
        isHex_of_isOctal (List.all_eq_true.mp all c mem)
      exact List.not_mem_cons_of_ne_of_not_mem (by decide) (digits ds hexadecimal)
  | hex ds all some =>
      exact List.not_mem_cons_of_ne_of_not_mem (by decide)
        (List.not_mem_cons_of_ne_of_not_mem (by decide) (digits ds all))
  | universal long ds all count =>
      have letter : '\'' ≠ if long then 'U' else 'u' := by cases long <;> decide
      exact List.not_mem_cons_of_ne_of_not_mem (by decide)
        (List.not_mem_cons_of_ne_of_not_mem letter (digits ds all))

/-- Every other literal is copied as it is to be written. -/
theorem charText_of_ne {b : CharBody} (other : b ≠ .simple .quote) :
    charText b.text = b.operand := by
  have absent := quote_not_mem other
  rw [charText, contains_text, CharBody.operand]
  rcases inner_cases b with ⟨c, inner, plain⟩ | ⟨cs, inner⟩
  · have ordinary : '\\' ∉ b.inner := by
      rw [inner, List.mem_singleton]
      exact Ne.symm plain
    rw [if_neg ordinary, decide_eq_false ordinary]
    rfl
  · have last : ('\\' :: cs).getLast? ≠ some '\'' := fun same =>
      absent (inner ▸ List.mem_of_getLast? same)
    have escape : '\\' ∈ b.inner := inner ▸ List.mem_cons_self
    rw [if_pos escape, decide_eq_true escape, if_pos rfl, CharBody.text, inner,
      unquoted_text (by decide) last, escaped_ofList]

/-- Of an escaped quote only the backslash is left. -/
theorem charText_quote : charText (CharBody.simple .quote).text = "`\\`" := by decide

/-! ### What is read -/

section Reading

variable {cs digits : List Char} {bytes : List Nat} {c : Char}

theorem backquoted?_end : backquoted? ['`'] = some [] := by
  rw [backquoted?, if_pos rfl, if_pos rfl]

theorem backquoted?_escape (cs : List Char) : backquoted? ('\\' :: cs) =
    (escape? cs).bind fun e => (backquoted? (cs.drop e.2)).map (e.1 ++ ·) := by
  rw [backquoted?, if_neg (by decide), if_pos rfl]

theorem backquoted?_plain (first : c ≠ '`') (second : c ≠ '\\') (cs : List Char) :
    backquoted? (c :: cs) = (backquoted? cs).map (utf8 c ++ ·) := by
  rw [backquoted?, if_neg first, if_neg second]

theorem quoted?_backquotes (cs : List Char) :
    quoted? (String.ofList ('`' :: cs)) = backquoted? cs := by
  rw [quoted?, String.toList_ofList]
  rfl

/-- A character between quotes is read as it is. -/
theorem quoted?_quotes (other : c ≠ '\'') (ascii : c.toNat < 128) :
    quoted? (String.ofList ['\'', c, '\'']) = some [c.toNat] := by
  have here : decide (c ≠ '\'') = true := decide_eq_true other
  have skipped : [c, '\''].dropWhile (· ≠ '\'') = ['\''] := List.dropWhile_cons_of_pos here
  have taken : [c, '\''].takeWhile (· ≠ '\'') = [c] := List.takeWhile_cons_of_pos here
  rw [quoted?, String.toList_ofList]
  dsimp only
  rw [if_neg (by decide), if_pos ⟨.inl rfl, skipped⟩, taken, List.flatMap_singleton,
    utf8_ascii ascii]

/-- Nothing is read in an operand without an end. -/
theorem quoted?_backslash : quoted? "`\\`" = none := by
  have operand : "`\\`" = String.ofList ['`', '\\', '`'] := by decide
  have read : escape? ['`'] = some ([96], 1) := by decide
  rw [operand, quoted?_backquotes, backquoted?_escape, read, Option.bind_some, List.drop_one,
    List.tail_cons, backquoted?, Option.map_none]

/-- An escape before the end. -/
theorem backquoted?_of_escape (read : escape? (cs ++ ['`']) = some (bytes, cs.length)) :
    backquoted? ('\\' :: (cs ++ ['`'])) = some bytes := by
  rw [backquoted?_escape, read, Option.bind_some, List.drop_left, backquoted?_end,
    Option.map_some, List.append_nil]

theorem takeWhile_digits {isDigit : Char → Bool} (all : digits.all isDigit = true)
    (cs : List Char) : (digits ++ cs).takeWhile isDigit = digits ++ cs.takeWhile isDigit :=
  List.takeWhile_append_of_pos (List.all_eq_true.mp all)

theorem leading_eq {isDigit : Char → Bool} {count : Nat} (all : digits.all isDigit = true)
    (short : digits.length ≤ count) (stops : isDigit '`' = false) :
    leading count isDigit (digits ++ ['`']) = digits := by
  have rest : (['`'].take (count - digits.length)).takeWhile isDigit = [] := by
    cases count - digits.length with
    | zero => rfl
    | succ n =>
        apply List.takeWhile_cons_of_neg
        rw [stops]
        exact Bool.false_ne_true
  rw [leading, List.take_append, List.take_of_length_le short, takeWhile_digits all, rest,
    List.append_nil]

theorem leading_long {isDigit : Char → Bool} {count : Nat} (all : digits.all isDigit = true)
    (long : count ≤ digits.length) (cs : List Char) :
    leading count isDigit (digits ++ cs) = digits.take count := by
  have first : (digits.take count).all isDigit = true := List.all_eq_true.mpr fun c mem =>
    List.all_eq_true.mp all c (List.mem_of_mem_take mem)
  have whole := takeWhile_digits first []
  rw [List.append_nil] at whole
  rw [leading, List.take_append_of_le_length long, whole]
  exact List.append_nil _

theorem backquoted?_digits (all : digits.all isHex = true) :
    backquoted? (digits ++ ['`']) = some (digits.map Char.toNat) := by
  induction digits with
  | nil => exact backquoted?_end
  | cons c cs ih =>
      rw [List.all_cons, Bool.and_eq_true] at all
      obtain ⟨-, first, second, ascii⟩ := ordinary_of_isHex all.1
      rw [List.cons_append, backquoted?_plain first second, ih all.2, Option.map_some,
        utf8_ascii ascii]
      rfl

theorem escape?_letter (e : Escape) : escape? [e.letter, '`'] = some ([e.byte], 1) := by
  cases e <;> decide

theorem escape?_octal (all : digits.all isOctal = true)
    (count : 1 ≤ digits.length ∧ digits.length ≤ 3) (small : numberOf 8 digits < 256) :
    escape? (digits ++ ['`']) = some ([numberOf 8 digits], digits.length) := by
  have taken := leading_eq all count.2 (by decide)
  cases digits with
  | nil => exact absurd count.1 (by decide)
  | cons c cs =>
      have first : isOctal c = true := List.all_eq_true.mp all c List.mem_cons_self
      rw [List.cons_append] at taken
      rw [List.cons_append, escape?, if_pos first, taken]
      dsimp only
      rw [Nat.mod_eq_of_lt small]

theorem escape?_hex (all : digits.all isHex = true)
    (count : 1 ≤ digits.length ∧ digits.length ≤ 2) :
    escape? ('x' :: (digits ++ ['`'])) = some ([numberOf 16 digits], 1 + digits.length) := by
  have nonempty : digits ≠ [] := List.length_pos_iff.mp count.1
  rw [escape?, if_neg (by decide), if_pos rfl, leading_eq all count.2 (by decide)]
  dsimp only
  rw [if_neg nonempty]

/-- Of many hexadecimal digits the escape takes two, and each of the others is a byte. -/
theorem backquoted?_long (all : digits.all isHex = true) (long : 2 < digits.length) :
    backquoted? ('\\' :: 'x' :: (digits ++ ['`'])) =
      some (numberOf 16 (digits.take 2) :: (digits.drop 2).map Char.toNat) := by
  have taken := leading_long all (Nat.le_of_lt long) ['`']
  have two : (digits.take 2).length = 2 := List.length_take_of_le (Nat.le_of_lt long)
  have nonempty : digits.take 2 ≠ [] := List.ne_nil_of_length_eq_add_one two
  have others : (digits.drop 2).all isHex = true := List.all_eq_true.mpr fun c mem =>
    List.all_eq_true.mp all c (List.mem_of_mem_drop mem)
  have read : escape? ('x' :: (digits ++ ['`'])) = some ([numberOf 16 (digits.take 2)], 3) := by
    rw [escape?, if_neg (by decide), if_pos rfl, taken]
    dsimp only
    rw [if_neg nonempty, two]
  have left : ('x' :: (digits ++ ['`'])).drop 3 = digits.drop 2 ++ ['`'] := by
    rw [List.drop_succ_cons, List.drop_append_of_le_length (Nat.le_of_lt long)]
  rw [backquoted?_escape, read, Option.bind_some, left, backquoted?_digits others]
  rfl

theorem escape?_universal (long : Bool) (cs : List Char) :
    escape? ((if long then 'U' else 'u') :: cs) = unicode? (if long then 8 else 4) cs := by
  cases long <;> rfl

theorem unicode?_digits {count : Nat} (all : digits.all isHex = true)
    (length : digits.length = count) (ascii : numberOf 16 digits < 128) :
    unicode? count (digits ++ ['`']) = some ([numberOf 16 digits], 1 + count) := by
  have valid : (numberOf 16 digits).isValidChar := .inl (Nat.lt_trans ascii (by decide))
  have number : (Char.ofNat (numberOf 16 digits)).toNat = numberOf 16 digits := by
    rw [Char.ofNat, dif_pos valid]
    rfl
  have single : utf8 (Char.ofNat (numberOf 16 digits)) = [numberOf 16 digits] := by
    rw [utf8_ascii (by rw [number]; exact ascii), number]
  rw [unicode?, leading_eq all (Nat.le_of_eq length) (by decide), if_pos ⟨length, valid⟩, single]

end Reading

/-- Where a literal stands for a byte, the operand that it is to be written as is read as that
byte, unless the assembler leaves digits over. -/
theorem quoted?_operand {b : CharBody} {byte : Nat} (stands : b.byte? = some byte) :
    quoted? b.operand = some [byte] ↔ b.IsShort := by
  have escaped {cs : List Char} (inner : b.inner = '\\' :: cs) :
      quoted? b.operand = backquoted? ('\\' :: (cs ++ ['`'])) := by
    have isEscape : '\\' ∈ b.inner := inner ▸ List.mem_cons_self
    rw [CharBody.operand, if_pos isEscape, quoted?_backquotes, inner]
    rfl
  have read {cs : List Char} {n : Nat} (inner : b.inner = '\\' :: cs)
      (escape : escape? (cs ++ ['`']) = some ([n], cs.length)) :
      quoted? b.operand = some [n] :=
    (escaped inner).trans (backquoted?_of_escape escape)
  cases b with
  | plain c ascii ordinary =>
      obtain rfl := Option.some.inj stands
      obtain ⟨quote, backslash, -⟩ := ordinary
      have itself : '\\' ∉ [c] := fun mem => backslash (List.mem_singleton.mp mem).symm
      refine iff_of_true ?_ trivial
      rw [CharBody.operand, CharBody.inner, if_neg itself]
      exact quoted?_quotes quote ascii
  | simple e =>
      obtain rfl := Option.some.inj stands
      exact iff_of_true (read rfl (escape?_letter e)) trivial
  | octal digits all count =>
      obtain ⟨small, same⟩ := Option.ite_none_right_eq_some.mp stands
      obtain rfl := Option.some.inj same
      exact iff_of_true (read rfl (escape?_octal all count small)) trivial
  | hex digits all some =>
      obtain ⟨-, same⟩ := Option.ite_none_right_eq_some.mp stands
      obtain rfl := Option.some.inj same
      by_cases short : digits.length ≤ 2
      · refine iff_of_true (read rfl ?_) short
        rw [List.cons_append, escape?_hex all ⟨some, short⟩, List.length_cons, Nat.add_comm]
      · refine iff_of_false ?_ short
        rw [escaped rfl, List.cons_append, backquoted?_long all (Nat.lt_of_not_le short)]
        intro same
        -- At least one digit is left over.
        have lengths := congrArg List.length (Option.some.inj same)
        rw [List.length_cons, List.length_map, List.length_drop, List.length_singleton] at lengths
        omega
  | universal long digits all count =>
      obtain ⟨small, same⟩ := Option.ite_none_right_eq_some.mp stands
      obtain rfl := Option.some.inj same
      refine iff_of_true (read rfl ?_) trivial
      rw [List.cons_append, escape?_universal, unicode?_digits all count small, List.length_cons,
        count, Nat.add_comm]

/-- Character literals are copied as they are and keep their byte, apart from two kinds: of an
escaped quote the quote is lost, and of a hexadecimal escape the assembler takes two digits. -/
theorem character_operand (b : CharBody) : ∃ written : String,
    (∀ s, literal (.char b.text) s = (([.movText .eax written], .int), s)) ∧
      (written = b.operand ↔ b ≠ .simple .quote) ∧
      ∀ byte, b.byte? = some byte →
        (quoted? written = some [byte] ↔ b ≠ .simple .quote ∧ b.IsShort) := by
  refine ⟨charText b.text, fun s => rfl, ?_⟩
  by_cases quote : b = .simple .quote
  · subst quote
    constructor
    · refine iff_of_false ?_ fun other => other rfl
      decide
    · intro byte _
      refine iff_of_false ?_ fun other => other.1 rfl
      rw [charText_quote, quoted?_backslash]
      exact (Option.some_ne_none [byte]).symm
  · have copied := charText_of_ne quote
    constructor
    · exact iff_of_true copied quote
    · intro byte stands
      rw [copied, quoted?_operand stands]
      exact (and_iff_right quote).symm

/-- A line break is written between backquotes, where it is read. -/
theorem newLine_operand : literal (.char "'\\n'") {} = (([.movText .eax "`\\n`"], .int), {}) ∧
    quoted? "`\\n`" = some [10] := by
  obtain ⟨written, copied, same, read⟩ := character_operand (.simple .newLine)
  obtain rfl := same.mpr (by simp)
  exact ⟨copied {}, (read 10 rfl).mpr ⟨by simp, trivial⟩⟩

/-- Of an escaped quote only the backslash is written, so nothing is read. -/
theorem escapedQuote_lost :
    (CharBody.simple .quote).text = "'\\''" ∧ (CharBody.simple .quote).byte? = some 39 ∧
      literal (.char "'\\''") {} = (([.movText .eax "`\\`"], .int), {}) ∧
      quoted? "`\\`" ≠ some [39] ∧ quoted? "`\\'`" = some [39] := by
  have kept := (quoted?_operand (b := .simple .quote) rfl).mpr trivial
  have written : (CharBody.simple .quote).operand = "`\\'`" := by decide
  refine ⟨rfl, rfl, rfl, ?_, ?_⟩
  · rw [quoted?_backslash]
    exact (Option.some_ne_none [39]).symm
  · rw [← written]
    exact kept

end Assembly

end BraceLang
