import BraceLang.Assembly.Listing
import BraceLang.Proofs.Assembly.Closure
import BraceLang.Proofs.Blocks

/-!
Assembly as it is read from its text: one row a line, which is a label, an instruction with its
operands or something else. Sections and units of code are blocks of rows. Nothing of how a listing
is made is needed to read its text.

Names that are words, constants without line breaks and operands without brackets are ordinary.

**Main results.** `rows_render`: the text of a listing with ordinary names and constants is read as
the rows that its parts stand for. `sectionRows_render`, `codeUnits_render`: the sections and units
of that text.
-/

namespace BraceLang.Assembly

/-! ### Reading -/

/-- A line of assembly, as it is read. -/
inductive Row where
  /-- A label, and what stands behind its colon. -/
  | label (name data : String)
  | instr (mnemonic operands : String)
  /-- A directive, a remark or an empty line. -/
  | other (text : String)
deriving DecidableEq, Repr

/-- Characters that start a character constant. -/
def isQuote (c : Char) : Bool := c == '\'' || c == '`'

namespace Row

/-- A line that starts with a tab is an instruction. Any other line with a colon starts with a
label. -/
def read (line : List Char) : Row :=
  if line.head? = some '\t' then
    .instr (String.ofList (line.tail.takeWhile (· != ' ')))
      (String.ofList ((line.tail.dropWhile (· != ' ')).dropWhile (· == ' ')))
  else if line.contains ':' then
    .label (String.ofList (line.takeWhile (· != ':')))
      (String.ofList (line.dropWhile (· != ':')).tail)
  else .other (String.ofList line)

def readAll (text : List Char) : List Row := (text.splitOn '\n').map read

/-- The row defines the label. -/
def defines (name : String) : Row → Bool
  | label name' _ => name' == name
  | instr .. | other _ => false

/-- Labels that start with a point belong to the unit that they stand in; any other label starts a
unit. -/
def startsUnit : Row → Bool
  | label name _ => name.toList.head? != some '.'
  | instr .. | other _ => false

def startsSection : Row → Bool
  | other text => "section ".toList.isPrefixOf text.toList
  | label .. | instr .. => false

/-- Where the instruction may jump to. -/
def jump? : Row → Option String
  | instr mnemonic operands =>
      if mnemonic = "jmp" ∨ mnemonic = "je" ∨ mnemonic = "jp" then some operands else none
  | label .. | other _ => none

/-- The function that is called. -/
def called? : Row → Option String
  | instr mnemonic operands => if mnemonic = "call" then some operands else none
  | label .. | other _ => none

/-- What the address of the memory operand starts with. In a character constant a bracket means
nothing. -/
def address? : Row → Option String
  | instr _ operands =>
      match operands.toList.dropWhile fun c => !(c == '[' || isQuote c) with
      | '[' :: rest => some (String.ofList (rest.takeWhile fun c => !(c == ' ' || c == ']')))
      | _ => none
  | label .. | other _ => none

end Row

/-- The rows of a text. -/
def rows (text : String) : List Row := Row.readAll text.toList

/-- The rows of a section, without the line that it starts with. -/
def sectionRows (name : String) (rs : List Row) : List Row :=
  ((blocksAt Row.startsSection rs).filter fun b =>
    b.head? = some (.other ("section " ++ name))).flatMap List.tail

/-- The units of code. -/
def codeUnits (rs : List Row) : List (List Row) := blocksAt Row.startsUnit (sectionRows ".text" rs)

/-! ### Ordinary texts -/

/-- Letters, digits and underscores. -/
def isWordChar (c : Char) : Bool := c.isAlphanum || c == '_'

/-- The text has no other characters than letters, digits and underscores. -/
def isWord (text : String) : Bool := text.toList.all isWordChar

/-- Tabs, colons and line breaks say what kind of line a text is. -/
def isLayout (c : Char) : Bool := c == '\t' || c == ':' || c == '\n'

/-- There is nothing in the text that says what kind of line it is. -/
def isBare (text : String) : Bool := text.toList.all fun c => !isLayout c

/-- No address starts in the text, and no character constant. -/
def opensNothing (text : String) : Bool := text.toList.all fun c => !(c == '[' || isQuote c)

/-- The character is not in the text. -/
def Lacks (c : Char) (text : String) : Prop := c ∉ text.toList

instance (c : Char) (text : String) : Decidable (Lacks c text) :=
  inferInstanceAs (Decidable (_ ∉ _))

/-- A constant that may stand in an operand: it is quoted, or there is no bracket in it. -/
structure IsOperand (text : String) : Prop where
  oneLine : Lacks '\n' text
  bracket : text.toList.head?.any isQuote = true ∨ Lacks '[' text

theorem Lacks.append {c : Char} {first second : String} (one : Lacks c first)
    (other : Lacks c second) : Lacks c (first ++ second) := by
  rw [Lacks, String.toList_append, List.mem_append, not_or]
  exact ⟨one, other⟩

theorem Lacks.intercalate {c : Char} {between : String} {xs : List String}
    (lacks : Lacks c between) (each : ∀ x ∈ xs, Lacks c x) :
    Lacks c (between.intercalate xs) := by
  induction xs with
  | nil => exact List.not_mem_nil
  | cons x xs ih =>
      obtain ⟨first, others⟩ := List.forall_mem_cons.mp each
      cases xs with
      | nil => rwa [String.intercalate_singleton]
      | cons y ys =>
          rw [String.intercalate_cons_cons]
          exact (first.append lacks).append (ih others)

theorem lacks_of_isWord {text : String} (word : isWord text = true) {c : Char}
    (special : isWordChar c = false) : Lacks c text := by
  intro mem
  rw [List.all_eq_true.mp word c mem] at special
  contradiction

theorem isWord_append {first second : String} (one : isWord first = true)
    (other : isWord second = true) : isWord (first ++ second) = true := by
  rw [isWord, String.toList_append, List.all_append, Bool.and_eq_true]
  exact ⟨one, other⟩

theorem isBare_of_isWord {text : String} (word : isWord text = true) : isBare text = true := by
  refine List.all_eq_true.mpr fun c mem => ?_
  have wordChar := List.all_eq_true.mp word c mem
  rw [Bool.not_eq_true', ← Bool.not_eq_true, isLayout, Bool.or_eq_true, Bool.or_eq_true, beq_iff_eq,
    beq_iff_eq, beq_iff_eq]
  rintro ((rfl | rfl) | rfl) <;> contradiction

theorem isBare_append {first second : String} (one : isBare first = true)
    (other : isBare second = true) : isBare (first ++ second) = true := by
  rw [isBare, String.toList_append, List.all_append, Bool.and_eq_true]
  exact ⟨one, other⟩

theorem lacks_of_isBare {text : String} (bare : isBare text = true) {c : Char}
    (layout : isLayout c = true) : Lacks c text := by
  intro mem
  have other := List.all_eq_true.mp bare c mem
  rw [layout] at other
  contradiction

theorem isWord_toString (n : Nat) : isWord (toString n) = true := by
  change n.repr.toList.all isWordChar = true
  rw [Nat.toList_repr, List.all_eq_true]
  intro c mem
  have digit := Nat.isDigit_of_mem_toDigits (by decide) (by decide) mem
  simp [isWordChar, Char.isAlphanum, digit]

theorem lacks_toString {c : Char} (special : isWordChar c = false) (n : Nat) :
    Lacks c (toString n) := lacks_of_isWord (isWord_toString n) special

theorem oneLine_int (n : Int) : Lacks '\n' (toString n) := by
  cases n with
  | ofNat n => exact lacks_toString rfl n
  | negSucc n =>
      have minus : Lacks '\n' "-" := by decide
      exact minus.append (lacks_toString rfl (n + 1))

/-! ### Reading line by line -/

/-- The text is read as the rows, whatever comes after it. -/
def Reads (text : String) (rs : List Row) : Prop :=
  ∀ rest, Row.readAll (text.toList ++ rest) = rs ++ Row.readAll rest

theorem Reads.rows_eq {text : String} {rs : List Row} (reads : Reads text rs) :
    rows text = rs ++ [.other ""] := by
  have whole := reads []
  rwa [List.append_nil] at whole

namespace Reads

variable {first second : String} {rs rs' : List Row}

theorem nil : Reads "" [] := fun _ => rfl

theorem append (one : Reads first rs) (other : Reads second rs') :
    Reads (first ++ second) (rs ++ rs') := by
  intro rest
  rw [String.toList_append, List.append_assoc, one, other, List.append_assoc]

theorem line {text : String} (oneLine : Lacks '\n' text) :
    Reads (text ++ "\n") [Row.read text.toList] := by
  intro rest
  have divided : (text.toList ++ '\n' :: rest).splitOn '\n' = text.toList :: rest.splitOn '\n' := by
    rw [List.splitOn, List.splitOnP_append_cons _ _ (by decide), ← List.splitOn,
      List.splitOn_eq_singleton oneLine]
    rfl
  rw [String.toList_append, List.append_assoc]
  change Row.readAll (text.toList ++ '\n' :: rest) = _
  rw [Row.readAll, divided]
  rfl

theorem joinMap {α : Type} {f : α → String} {g : α → List Row} {xs : List α}
    (reads : ∀ x ∈ xs, Reads (f x) (g x)) : Reads (String.join (xs.map f)) (xs.flatMap g) := by
  induction xs with
  | nil => exact nil
  | cons x xs ih =>
      obtain ⟨one, others⟩ := List.forall_mem_cons.mp reads
      rw [List.map_cons, String.join_cons]
      exact one.append (ih others)

end Reads

/-! ### Lines of code -/

/-- What the address starts with, as it is written. -/
def Base.text : Base → String
  | label name => name
  | frame _ => "ebp"
  | top => "esp"

namespace Instr

/-- The memory operand. -/
def mem? : Instr → Option Mem
  | load m | loadSigned m | store m | storeByte m | fld m | fild m | fstp m | fisttp m => some m
  | _ => none

theorem address?_eq (i : Instr) : i.address? = i.mem?.bind Mem.label? := by cases i <;> rfl

def operands (i : Instr) : String := ", ".intercalate i.parts.2

def row (i : Instr) : Row := .instr i.parts.1 i.operands

/-- The names in the instruction are words, and its constant is an operand. -/
structure Ordinary (i : Instr) : Prop where
  address : ∀ name ∈ i.address?, isWord name = true
  callee : ∀ name ∈ i.callee?, isWord name = true
  text : ∀ text ∈ i.text?, IsOperand text

end Instr

def Line.row : Line → Row
  | label t => .label t.render ""
  | instr i => i.row

theorem oneLine_mem {m : Mem} (word : ∀ name ∈ m.label?, isWord name = true) :
    Lacks '\n' m.render := by
  obtain ⟨width, base, scale⟩ := m
  have index : Lacks '\n' ((scale.map fun k => " + ecx*" ++ toString k).getD "") := by
    cases scale with
    | none => decide
    | some k => exact Lacks.append (by decide) (lacks_toString rfl k)
  have start : Lacks '\n' (width.name ++ " [") := by cases width <;> decide
  refine (start.append ?_).append (by decide)
  cases base with
  | label name => exact (lacks_of_isWord (word name rfl) rfl).append index
  | frame offset =>
      dsimp only
      split
      · exact (Lacks.append (Lacks.append (by decide) index) (by decide)).append (oneLine_int _)
      · exact (Lacks.append (Lacks.append (by decide) index) (by decide)).append (oneLine_int _)
  | top => exact Lacks.append (by decide) index

/-- A line break or a bracket is among the operands only if it is in the constant or in the memory
operand. -/
theorem lacks_operands {c : Char} (odd : c = '\n' ∨ c = '[') {i : Instr}
    (callee : ∀ name ∈ i.callee?, isWord name = true) (text : ∀ text ∈ i.text?, Lacks c text)
    (mem : ∀ m ∈ i.mem?, Lacks c m.render) : Lacks c i.operands := by
  have special : isWordChar c = false := by rcases odd with rfl | rfl <;> rfl
  have closed {a : String} (both : Lacks '\n' a ∧ Lacks '[' a) : Lacks c a := by
    rcases odd with rfl | rfl
    · exact both.1
    · exact both.2
  have reg (r : Reg) : Lacks c r.name := closed (by cases r <;> decide)
  have single {a : String} (one : Lacks c a) : ∀ x ∈ [a], Lacks c x :=
    List.forall_mem_singleton.mpr one
  have pair {a b : String} (one : Lacks c a) (other : Lacks c b) : ∀ x ∈ [a, b], Lacks c x :=
    List.forall_mem_cons.mpr ⟨one, single other⟩
  have target (t : Target) : Lacks c t.render := by
    cases t with
    | numbered n => exact Lacks.append (closed (by decide)) (lacks_toString special n)
    | exit => exact closed (by decide)
  refine Lacks.intercalate (closed (by decide)) ?_
  cases i with
  | movText dst t => exact pair (reg dst) (text t rfl)
  | movNat dst n => exact pair (reg dst) (lacks_toString special n)
  | movReg dst src => exact pair (reg dst) (reg src)
  | load m | loadSigned m => exact pair (closed (by decide)) (mem m rfl)
  | store m | storeByte m => exact pair (mem m rfl) (closed (by decide))
  | push r | pop r => exact single (reg r)
  | release n | reserve n => exact pair (closed (by decide)) (lacks_toString special n)
  | fld m | fild m | fstp m | fisttp m => exact single (mem m rfl)
  | jmp t | je t | jp t => exact single (target t)
  | call name => exact single (lacks_of_isWord (callee name rfl) special)
  | widen | cmpZero | cmp | alu _ | flip | fcomip | fpu _ =>
      exact pair (closed (by decide)) (closed (by decide))
  | set _ | neg | idiv | fdrop | fnip | fnstsw | trap => exact single (closed (by decide))
  | cdq | fldz | fchs | fprem | sahf | ret => exact nofun

theorem oneLine_operands {i : Instr} (ordinary : i.Ordinary) : Lacks '\n' i.operands := by
  refine lacks_operands (.inl rfl) ordinary.callee (fun t is => (ordinary.text t is).oneLine)
    fun m is => oneLine_mem ?_
  have address := ordinary.address
  rwa [Instr.address?_eq, is] at address

/-- Mnemonics have no blanks and leave some of their columns free. -/
theorem mnemonic_short (i : Instr) :
    Lacks ' ' i.parts.1 ∧ Lacks '\n' i.parts.1 ∧ i.parts.1.length < 8 := by
  cases i with
  | set c => cases c <;> decide
  | alu op | fpu op => cases op <;> decide
  | _ =>
      dsimp only [Instr.parts]
      decide

theorem head?_operands {i : Instr} (ordinary : i.Ordinary) :
    i.operands.toList.head? ≠ some ' ' := by
  have head {a : String} {xs : List String} (start : a.toList.head? ≠ some ' ') :
      (", ".intercalate (a :: xs)).toList.head? ≠ some ' ' := by
    cases xs with
    | nil => rwa [String.intercalate_singleton]
    | cons b xs =>
        rw [String.intercalate_cons_cons, String.toList_append, String.toList_append]
        cases is : a.toList with
        | nil => exact fun h => absurd (Option.some.inj h) (by decide)
        | cons c cs =>
            rw [is] at start
            exact start
  have reg (r : Reg) : r.name.toList.head? ≠ some ' ' := by cases r <;> decide
  have mem (m : Mem) : m.render.toList.head? ≠ some ' ' := by
    obtain ⟨width, base, scale⟩ := m
    simp only [Mem.render, String.toList_append]
    cases width <;> exact nofun
  have target (t : Target) : t.render.toList.head? ≠ some ' ' := by
    cases t with
    | numbered n =>
        simp only [Target.render, String.toList_append]
        exact nofun
    | exit => decide
  cases i with
  | movText r _ | movNat r _ | movReg r _ | push r | pop r => exact head (reg r)
  | store m | storeByte m | fld m | fild m | fstp m | fisttp m => exact head (mem m)
  | jmp t | je t | jp t => exact head (target t)
  | call name =>
      refine head fun start => ?_
      exact lacks_of_isWord (ordinary.callee name rfl) (by decide) (List.mem_of_mem_head? start)
  | cdq | fldz | fchs | fprem | fnstsw | sahf | ret => decide
  | _ => exact head (by decide)

/-- Blanks divide a mnemonic from the operands. -/
theorem read_columns {m ops : String} {k : Nat} (noBlank : Lacks ' ' m)
    (blanks : k = 0 → ops = "") (head : ops.toList.head? ≠ some ' ') :
    Row.read ('\t' :: (m.toList ++ (List.replicate k ' ' ++ ops.toList))) = .instr m ops := by
  have word : ∀ c ∈ m.toList, (c != ' ') = true := by
    intro c mem
    rw [bne_iff_ne]
    rintro rfl
    exact noBlank mem
  have stops : (List.replicate k ' ' ++ ops.toList).takeWhile (· != ' ') = [] ∧
      (List.replicate k ' ' ++ ops.toList).dropWhile (· != ' ') =
        List.replicate k ' ' ++ ops.toList := by
    cases k with
    | zero =>
        rw [blanks rfl]
        exact ⟨rfl, rfl⟩
    | succ k => exact ⟨rfl, rfl⟩
  have operands : (List.replicate k ' ' ++ ops.toList).dropWhile (· == ' ') = ops.toList := by
    rw [List.dropWhile_append_of_pos (by simp)]
    cases is : ops.toList with
    | nil => rfl
    | cons c cs =>
        rw [is, List.head?_cons, ne_eq, Option.some.injEq] at head
        rw [List.dropWhile_cons_of_neg (by simpa using head)]
  rw [Row.read, List.head?_cons, if_pos rfl, List.tail_cons, List.takeWhile_append_of_pos word,
    stops.1, List.dropWhile_append_of_pos word, stops.2, operands, List.append_nil,
    String.ofList_toList, String.ofList_toList]

theorem reads_instr {i : Instr} (ordinary : i.Ordinary) : Reads (i.render ++ "\n") [i.row] := by
  obtain ⟨noBlank, oneLine, short⟩ := mnemonic_short i
  have head := head?_operands ordinary
  have is : i.render.toList = '\t' :: (i.parts.1.toList ++
      (List.replicate (if i.parts.2 = [] then 0 else 8 - i.parts.1.length) ' ' ++
        i.operands.toList)) := by
    unfold Instr.render Instr.operands
    rcases i.parts with ⟨m, _ | ⟨a, ops⟩⟩
    · simp
    · simp [Instr.column]
  have whole : Lacks '\n' i.render := by
    rw [Lacks, is, List.mem_cons, List.mem_append, List.mem_append]
    rintro (tab | mem | mem | mem)
    · contradiction
    · exact oneLine mem
    · exact absurd (List.eq_of_mem_replicate mem) (by decide)
    · exact oneLine_operands ordinary mem
  have reads := Reads.line whole
  rwa [is, read_columns noBlank ?_ head] at reads
  intro none
  split at none
  · rename_i nothing
    rw [Instr.operands, nothing]
    rfl
  · omega

/-- A line with a colon that does not start with a tab. -/
theorem read_label {name : List Char} (noTab : '\t' ∉ name) (noColon : ':' ∉ name)
    (data : String) :
    Row.read (name ++ ':' :: data.toList) = .label (String.ofList name) data := by
  have before : ∀ c ∈ name, (c != ':') = true := by
    intro c mem
    rw [bne_iff_ne]
    rintro rfl
    exact noColon mem
  have start : (name ++ ':' :: data.toList).head? ≠ some '\t' := by
    cases name with
    | nil => exact fun h => absurd (Option.some.inj h) (by decide)
    | cons c cs =>
        intro h
        exact noTab (Option.some.inj h ▸ List.mem_cons_self)
  rw [Row.read, if_neg start, if_pos (by simp), List.takeWhile_append_of_pos before,
    List.dropWhile_append_of_pos before, List.takeWhile_cons_of_neg (by decide),
    List.dropWhile_cons_of_neg (by decide), List.append_nil, List.tail_cons, String.ofList_toList]

theorem reads_label {name data : String} (bare : isBare name = true)
    (oneLine : Lacks '\n' data) : Reads (name ++ ":" ++ data ++ "\n") [.label name data] := by
  have colon : Lacks '\n' ":" := by decide
  have reads := Reads.line (((lacks_of_isBare bare rfl).append colon).append oneLine)
  rw [String.toList_append, String.toList_append, List.append_assoc] at reads
  have is := read_label (lacks_of_isBare bare rfl) (lacks_of_isBare bare rfl) data
  rw [String.ofList_toList] at is
  rwa [← is]

theorem reads_bareLabel {name : String} (bare : isBare name = true) :
    Reads (name ++ ":\n") [.label name ""] := by
  have nothing : Lacks '\n' "" := List.not_mem_nil
  have reads := reads_label bare nothing
  rwa [String.append_assoc, String.append_assoc] at reads

theorem isBare_target (t : Target) : isBare t.render = true := by
  cases t with
  | numbered n => exact isBare_append (by decide) (isBare_of_isWord (isWord_toString n))
  | exit => decide

theorem reads_line {x : Line} (ordinary : ∀ i ∈ x.instr?, i.Ordinary) : Reads x.render [x.row] := by
  cases x with
  | label t => exact reads_bareLabel (isBare_target t)
  | instr i => exact reads_instr (ordinary i rfl)

theorem head?_target (t : Target) : t.render.toList.head? = some '.' := by
  cases t with
  | numbered n =>
      rw [Target.render, String.toList_append]
      rfl
  | exit => rfl

/-! ### What rows of code say -/

/-- A number is read back from its digits. -/
theorem toString_injective {n m : Nat} (same : toString n = toString m) : n = m := by
  have digits : n.repr.toList = m.repr.toList := congrArg String.toList same
  rw [Nat.toList_repr, Nat.toList_repr] at digits
  rw [← Nat.ofDigitChars_ten_toDigits (n := n), digits, Nat.ofDigitChars_ten_toDigits]

theorem render_injective {t t' : Target} (same : t.render = t'.render) : t = t' := by
  have numbered (n : Nat) : (Target.numbered n).render.toList = '.' :: 'L' :: (toString n).toList :=
    String.toList_append
  have lists := congrArg String.toList same
  cases t with
  | numbered n =>
      cases t' with
      | numbered n' =>
          rw [numbered, numbered] at lists
          simp only [List.cons.injEq, true_and] at lists
          exact congrArg _ (toString_injective (String.toList_inj.mp lists))
      | exit =>
          rw [numbered] at lists
          cases lists
  | exit =>
      cases t' with
      | numbered n' =>
          rw [numbered] at lists
          cases lists
      | exit => rfl

theorem defines_row (t : Target) (x : Line) : x.row.defines t.render = true ↔ x = .label t := by
  cases x with
  | label t' =>
      change (t'.render == t.render) = true ↔ _
      rw [beq_iff_eq, Line.label.injEq]
      exact ⟨render_injective, congrArg _⟩
  | instr i => exact ⟨nofun, nofun⟩

/-- A label is defined in the rows of lines as often as it is placed in them. -/
theorem countP_defines (t : Target) (lines : List Line) :
    (lines.map Line.row).countP (·.defines t.render) = (placed lines).count t := by
  induction lines with
  | nil => rfl
  | cons x rest ih =>
      rw [List.map_cons, List.countP_cons, ih]
      cases x with
      | label t' =>
          rw [placed_label, List.count_cons]
          by_cases same : t' = t
          · rw [if_pos ((defines_row t _).mpr (congrArg _ same)), if_pos (beq_iff_eq.mpr same)]
          · rw [if_neg fun h => same (Line.label.inj ((defines_row t _).mp h)),
              if_neg fun h => same (beq_iff_eq.mp h)]
      | instr i => rfl

theorem jump?_row (x : Line) : x.row.jump? = x.target?.map Target.render := by
  cases x with
  | label t => rfl
  | instr i =>
      cases i with
      | set c => cases c <;> rfl
      | alu op | fpu op => cases op <;> rfl
      | jmp t | je t | jp t => exact congrArg some String.intercalate_singleton
      | _ => rfl

theorem called?_row (x : Line) : x.row.called? = x.instr?.bind (·.callee?) := by
  cases x with
  | label t => rfl
  | instr i =>
      cases i with
      | set c => cases c <;> rfl
      | alu op | fpu op => cases op <;> rfl
      | call name => exact congrArg some String.intercalate_singleton
      | _ => rfl

theorem address?_none {mnemonic ops : String}
    (no : (ops.toList.dropWhile fun c => !(c == '[' || isQuote c)).head? ≠ some '[') :
    (Row.instr mnemonic ops).address? = none := by
  unfold Row.address?
  dsimp only
  split
  · rename_i is
    rw [is] at no
    exact absurd rfl no
  · rfl

theorem address?_of_lacks {mnemonic ops : String} (lacks : Lacks '[' ops) :
    (Row.instr mnemonic ops).address? = none := by
  refine address?_none fun head => lacks ?_
  exact (List.dropWhile_suffix _).subset (List.mem_of_mem_head? head)

/-- A memory operand is a width, and an address in brackets. A blank or a bracket stands behind
what the address starts with. -/
theorem render_mem (m : Mem) : ∃ behind : String,
    m.render = m.width.name ++ " [" ++ (m.base.text ++ behind) ∧
      behind.toList.head?.any (fun c => c == ' ' || c == ']') = true := by
  obtain ⟨width, base, scale⟩ := m
  have start (rest : String) : (((scale.map fun k => " + ecx*" ++ toString k).getD "") ++
      (rest ++ "]")).toList.head?.any (fun c => c == ' ' || c == ']') =
        (scale.isSome || (rest ++ "]").toList.head?.any fun c => c == ' ' || c == ']') := by
    cases scale with
    | none => rfl
    | some k => simp
  cases base with
  | label name =>
      refine ⟨_ ++ ("" ++ "]"), ?_, (start "").trans (by simp)⟩
      simp [Mem.render, Base.text, String.append_assoc]
  | frame offset =>
      by_cases negative : offset < 0
      · refine ⟨_ ++ (" - " ++ toString (-offset) ++ "]"), ?_, (start _).trans (by simp)⟩
        simp [Mem.render, Base.text, negative, String.append_assoc]
      · refine ⟨_ ++ (" + " ++ toString offset ++ "]"), ?_, (start _).trans (by simp)⟩
        simp [Mem.render, Base.text, negative, String.append_assoc]
  | top =>
      refine ⟨_ ++ ("" ++ "]"), ?_, (start "").trans (by simp)⟩
      simp [Mem.render, Base.text, String.append_assoc]

theorem isWord_base {m : Mem} (word : ∀ name ∈ m.label?, isWord name = true) :
    isWord m.base.text = true := by
  obtain ⟨width, base, scale⟩ := m
  cases base with
  | label name => exact word name rfl
  | frame offset => exact (by decide : isWord "ebp" = true)
  | top => exact (by decide : isWord "esp" = true)

/-- A memory operand with nothing in front of it that might be taken for one. -/
theorem address?_of_mem {mnemonic before after : String} {m : Mem}
    (word : ∀ name ∈ m.label?, isWord name = true)
    (nothing : opensNothing before = true) :
    (Row.instr mnemonic (before ++ m.render ++ after)).address? = some m.base.text := by
  obtain ⟨behind, is, stops⟩ := render_mem m
  have width : opensNothing m.width.name = true := by
    cases m.width <;> decide
  have base : ∀ c ∈ m.base.text.toList, (!(c == ' ' || c == ']')) = true := by
    intro c mem
    have wordChar := List.all_eq_true.mp (isWord_base word) c mem
    rw [Bool.not_eq_true', Bool.or_eq_false_iff, beq_eq_false_iff_ne, beq_eq_false_iff_ne]
    exact ⟨by rintro rfl; contradiction, by rintro rfl; contradiction⟩
  have operands : (before ++ m.render ++ after).toList = before.toList ++ (m.width.name.toList ++
      (' ' :: '[' :: (m.base.text.toList ++ (behind.toList ++ after.toList)))) := by
    simp [is]
  have address : (m.base.text.toList ++ (behind.toList ++ after.toList)).takeWhile
      (fun c => !(c == ' ' || c == ']')) = m.base.text.toList := by
    rw [List.takeWhile_append_of_pos base]
    cases behind' : behind.toList with
    | nil =>
        rw [behind'] at stops
        contradiction
    | cons c rest =>
        rw [behind', List.head?_cons, Option.any_some] at stops
        rw [List.cons_append, List.takeWhile_cons_of_neg (by simp [stops]), List.append_nil]
  unfold Row.address?
  dsimp only
  rw [operands, List.dropWhile_append_of_pos (List.all_eq_true.mp nothing),
    List.dropWhile_append_of_pos (List.all_eq_true.mp width),
    List.dropWhile_cons_of_pos rfl, List.dropWhile_cons_of_neg (by decide)]
  exact congrArg some (by rw [address, String.ofList_toList])

/-- A character constant with nothing in front of it that might be taken for an address. -/
theorem address?_of_quoted {mnemonic before text : String} (nothing : opensNothing before = true)
    (quoted : text.toList.head?.any isQuote = true) :
    (Row.instr mnemonic (before ++ text)).address? = none := by
  refine address?_none ?_
  rw [String.toList_append, List.dropWhile_append_of_pos (List.all_eq_true.mp nothing)]
  cases is : text.toList with
  | nil => exact nofun
  | cons c rest =>
      rw [is, List.head?_cons, Option.any_some] at quoted
      rw [List.dropWhile_cons_of_neg (by simp [quoted]), List.head?_cons, ne_eq, Option.some.injEq]
      rintro rfl
      contradiction

theorem address?_row {x : Line} (ordinary : ∀ i ∈ x.instr?, i.Ordinary) :
    x.row.address? = (x.instr?.bind Instr.mem?).map (·.base.text) := by
  cases x with
  | label t => rfl
  | instr i =>
      obtain ⟨address, callee, text⟩ := ordinary i rfl
      have none (text : ∀ t ∈ i.text?, Lacks '[' t) (noMem : i.mem? = none) :
          (Line.instr i).row.address? = none :=
        address?_of_lacks (lacks_operands (.inr rfl) callee text (by rw [noMem]; exact nofun))
      have some {m : Mem} {before after : String} (isMem : i.mem? = some m)
          (operands : i.operands = before ++ m.render ++ after)
          (nothing : opensNothing before = true) :
          (Line.instr i).row.address? = some m.base.text := by
        rw [Instr.address?_eq, isMem] at address
        rw [Line.row, Instr.row, operands]
        exact address?_of_mem address nothing
      cases i with
      | movText r t =>
          rcases (text t rfl).bracket with quoted | lacks
          · have operands : (Instr.movText r t).operands = r.name ++ ", " ++ t := by
              simp [Instr.operands, Instr.parts, String.append_assoc]
            have nothing : opensNothing (r.name ++ ", ") = true := by cases r <;> decide
            rw [Line.row, Instr.row, operands]
            exact address?_of_quoted nothing quoted
          · exact none (by rintro _ ⟨⟩; exact lacks) rfl
      | load m | loadSigned m =>
          have operands : ", ".intercalate ["eax", m.render] = "eax, " ++ m.render ++ "" := by simp
          exact some rfl operands (by decide)
      | store m =>
          have operands : ", ".intercalate [m.render, "eax"] = "" ++ m.render ++ ", eax" := by
            simp [String.append_assoc]
          exact some rfl operands (by decide)
      | storeByte m =>
          have operands : ", ".intercalate [m.render, "al"] = "" ++ m.render ++ ", al" := by
            simp [String.append_assoc]
          exact some rfl operands (by decide)
      | fld m | fild m | fstp m | fisttp m =>
          have operands : ", ".intercalate [m.render] = "" ++ m.render ++ "" := by simp
          exact some rfl operands (by decide)
      | _ => exact none nofun rfl

/-- A bracket in quotes starts no address. -/
example : (Row.read "\tmov     eax, '['".toList).address? = none := by decide

/-! ### Listings -/

/-- Nothing in the listing can be taken for something else when its text is read. -/
structure Listing.Ordinary (l : Listing) : Prop where
  externals : ∀ f ∈ l.externals, isWord f = true
  constants : ∀ text ∈ l.constants, Lacks '\n' text
  reservations : ∀ r ∈ l.reservations, isWord r.label = true
  names : ∀ r ∈ l.routines, isWord r.name = true
  code : ∀ u ∈ l.units, ∀ x ∈ u, ∀ i ∈ x.instr?, i.Ordinary

/-- A constant, with a zero in front if it starts with a point. -/
def constantRow (i : Nat) (text : String) : Row :=
  .label (constantLabel i)
    ("\tdq " ++ (if text.toList.head? = some '.' then "0" else "") ++ text)

def Reservation.row (r : Reservation) : Row :=
  let directive := match widthOf r.type with
    | .byte => "resb"
    | .dword => "resd"
    | .qword => "resq"
  .label r.label ("\t" ++ directive ++ " " ++ toString r.count)

def blank : Row := .other ""

/-- A unit of code, and the empty line behind it. -/
def unitRows (name : String) (lines : List Line) : List Row :=
  .label name "" :: (lines.map Line.row ++ [blank])

namespace Listing

variable {l : Listing}

/-- What stands in front of all sections. -/
def header (l : Listing) : List Row :=
  [.other "; generado por minic", .other "bits 32", .other "global _start"] ++
    l.externals.map (fun name => .other ("extern " ++ name)) ++ [blank]

def data (l : Listing) : List Row :=
  .other "section .data" :: (l.constants.mapIdx constantRow ++ [blank])

def bss (l : Listing) : List Row :=
  .other "section .bss" :: (l.reservations.map Reservation.row ++ [blank])

/-- The units with their labels. -/
def named (l : Listing) : List (String × List Line) :=
  ("_start", l.start) :: l.routines.map fun r => (r.name, r.lines)

theorem map_snd_named (l : Listing) : l.named.map Prod.snd = l.units := by
  rw [named, List.map_cons, List.map_map]
  rfl

def unitsRows (l : Listing) : List (List Row) := l.named.map fun u => unitRows u.1 u.2

def text (l : Listing) : List Row := .other "section .text" :: l.unitsRows.flatten

end Listing

/-- A line without a colon that is no instruction. -/
theorem reads_other {text : String} (bare : isBare text = true) :
    Reads (text ++ "\n") [.other text] := by
  have reads := Reads.line (lacks_of_isBare bare rfl)
  have noColon : text.toList.contains ':' = false := by
    rw [← Bool.not_eq_true, List.contains_iff_mem]
    exact lacks_of_isBare bare rfl
  have noTab : text.toList.head? ≠ some '\t' := fun start =>
    lacks_of_isBare bare rfl (List.mem_of_mem_head? start)
  rwa [Row.read, if_neg noTab, noColon, if_neg Bool.false_ne_true, String.ofList_toList] at reads

theorem reads_header : Reads "; generado por minic\nbits 32\nglobal _start\n"
    [.other "; generado por minic", .other "bits 32", .other "global _start"] := by
  have lines : ∀ text ∈ ["; generado por minic", "bits 32", "global _start"],
      isBare text = true := by decide
  have reads := Reads.joinMap fun text mem => reads_other (lines text mem)
  have same : String.join (["; generado por minic", "bits 32", "global _start"].map (· ++ "\n")) =
    "; generado por minic\nbits 32\nglobal _start\n" := rfl
  rwa [same] at reads

theorem reads_blank : Reads "\n" [blank] := by
  have bare : isBare "" = true := rfl
  have reads := reads_other bare
  rwa [String.empty_append] at reads

theorem reads_section {name : String} (bare : isBare name = true) :
    Reads ("\nsection " ++ name ++ "\n") [blank, .other ("section " ++ name)] := by
  have start : isBare "section " = true := by decide
  have reads := reads_blank.append (reads_other (isBare_append start bare))
  have same : "\n" ++ ("section " ++ name ++ "\n") = "\nsection " ++ name ++ "\n" := by
    have lineBreak : "\nsection " = "\n" ++ "section " := rfl
    simp only [lineBreak, String.append_assoc]
  rwa [same] at reads

theorem reads_start : Reads "\nsection .text\n_start:\n"
    [blank, .other "section .text", .label "_start" ""] := by
  have bare : isBare ".text" = true ∧ isBare "_start" = true := by decide
  have reads := (reads_section bare.1).append (reads_bareLabel bare.2)
  have same : "\nsection " ++ ".text" ++ "\n" ++ ("_start" ++ ":\n") =
    "\nsection .text\n_start:\n" := rfl
  rwa [same] at reads

theorem reads_external {name : String} (word : isWord name = true) :
    Reads ("extern " ++ name ++ "\n") [.other ("extern " ++ name)] := by
  have start : isBare "extern " = true := by decide
  exact reads_other (isBare_append start (isBare_of_isWord word))

/-- The units have ordinary labels and code. -/
theorem Listing.Ordinary.named {l : Listing} (ordinary : l.Ordinary) : ∀ u ∈ l.named,
    isWord u.1 = true ∧ ∀ x ∈ u.2, ∀ i ∈ x.instr?, i.Ordinary := by
  obtain ⟨start, others⟩ := List.forall_mem_cons.mp ordinary.code
  have word : isWord "_start" = true := by decide
  refine List.forall_mem_cons.mpr ⟨⟨word, start⟩, ?_⟩
  refine List.forall_mem_map.mpr fun r mem => ⟨ordinary.names r mem, ?_⟩
  exact others r.lines (List.mem_map_of_mem mem)

theorem reads_constant (i : Nat) {text : String} (oneLine : Lacks '\n' text) :
    Reads (constantLine i text) [constantRow i text] := by
  have word : isWord (constantLabel i) = true := isWord_append (by decide) (isWord_toString i)
  have zero : Lacks '\n' (if text.toList.head? = some '.' then "0" else "") := by split <;> decide
  have start : Lacks '\n' "\tdq " := by decide
  have reads := reads_label (isBare_of_isWord word) ((start.append zero).append oneLine)
  have same : constantLabel i ++ ":" ++ ("\tdq " ++
      (if text.toList.head? = some '.' then "0" else "") ++ text) ++ "\n" =
        constantLine i text := by
    have colon : ":\tdq " = ":" ++ "\tdq " := rfl
    simp only [constantLine, colon, String.append_assoc]
  rwa [same] at reads

theorem reads_reservation {r : Reservation} (word : isWord r.label = true) :
    Reads r.render [r.row] := by
  obtain ⟨name, t, count, label⟩ := r
  have directive {text : String} (oneLine : Lacks '\n' text) :
      Reads (label ++ ":\t" ++ text ++ " " ++ toString count ++ "\n")
        [.label label ("\t" ++ text ++ " " ++ toString count)] := by
    have start : Lacks '\n' "\t" ∧ Lacks '\n' " " := by decide
    have reads := reads_label (isBare_of_isWord word)
      (((start.1.append oneLine).append start.2).append (lacks_toString rfl count))
    have same : label ++ ":" ++ ("\t" ++ text ++ " " ++ toString count) ++ "\n" =
        label ++ ":\t" ++ text ++ " " ++ toString count ++ "\n" := by
      have colon : ":\t" = ":" ++ "\t" := rfl
      simp only [colon, String.append_assoc]
    rwa [same] at reads
  have directives : Lacks '\n' "resb" ∧ Lacks '\n' "resd" ∧ Lacks '\n' "resq" := by decide
  cases t with
  | char => exact directive directives.1
  | void | int | bool => exact directive directives.2.1
  | double => exact directive directives.2.2

theorem reads_lines {lines : List Line} (ordinary : ∀ x ∈ lines, ∀ i ∈ x.instr?, i.Ordinary) :
    Reads (renderLines lines) (lines.map Line.row) := by
  rw [List.map_eq_flatMap]
  exact Reads.joinMap fun x mem => reads_line (ordinary x mem)

/-- An empty line and the code of a function. -/
theorem reads_routine {r : Routine} (word : isWord r.name = true)
    (ordinary : ∀ x ∈ r.lines, ∀ i ∈ x.instr?, i.Ordinary) :
    Reads r.render (blank :: .label r.name "" :: r.lines.map Line.row) := by
  have reads := (reads_blank.append (reads_bareLabel (isBare_of_isWord word))).append
    (reads_lines ordinary)
  rwa [← String.append_assoc] at reads

/-- The empty lines in front of functions are behind the units that come before them. -/
theorem flatMap_blank {α : Type} (f : α → List Row) (xs : List α) :
    (xs.flatMap fun x => blank :: f x) ++ [blank] =
      blank :: xs.flatMap fun x => f x ++ [blank] := by
  induction xs with
  | nil => rfl
  | cons x xs ih =>
      rw [List.flatMap_cons, List.append_assoc, ih, List.flatMap_cons]
      simp

/-- The text of a listing is read as what its parts stand for. -/
theorem rows_render {l : Listing} (ordinary : l.Ordinary) :
    rows l.render = l.header ++ [l.data, l.bss, l.text].flatten := by
  have bare : isBare ".data" = true ∧ isBare ".bss" = true := by decide
  have externals := Reads.joinMap fun f mem => reads_external (ordinary.externals f mem)
  have data := reads_section bare.1
  have constants : Reads (String.join (l.constants.mapIdx constantLine))
      (l.constants.mapIdx constantRow) := by
    have rows : l.constants.mapIdx constantRow =
        l.constants.zipIdx.flatMap fun x => [constantRow x.2 x.1] := by
      rw [List.mapIdx_eq_zipIdx_map, List.map_eq_flatMap]
    rw [List.mapIdx_eq_zipIdx_map, rows]
    refine Reads.joinMap fun x mem => reads_constant x.2 (ordinary.constants x.1 ?_)
    exact List.fst_mem_of_mem_zipIdx mem
  have bss := reads_section bare.2
  have reservations := Reads.joinMap fun r mem => reads_reservation (ordinary.reservations r mem)
  obtain ⟨start, others⟩ := List.forall_mem_cons.mp ordinary.code
  have routines := Reads.joinMap fun r mem => reads_routine (ordinary.names r mem)
    (others r.lines (List.mem_map_of_mem mem))
  have sections := ((((reads_header.append externals).append data).append constants).append
    bss).append reservations
  have whole := (((sections.append reads_start).append (reads_lines start)).append routines).rows_eq
  have units : l.unitsRows.flatten = .label "_start" "" :: (l.start.map Line.row ++
      (l.routines.flatMap fun r => blank :: .label r.name "" :: r.lines.map Line.row) ++
        [blank]) := by
    rw [List.append_assoc, flatMap_blank]
    simp [Listing.unitsRows, Listing.named, unitRows, List.flatMap_def, Function.comp_def]
  change rows l.render = _ at whole
  rw [whole, Listing.text, units]
  simp [Listing.header, Listing.data, Listing.bss, blank, ← List.map_eq_flatMap]

/-! ### Sections and units -/

theorem startsSection_unitRows {name : String} {lines : List Line} :
    ∀ r ∈ unitRows name lines, r.startsSection = false := by
  refine List.forall_mem_cons.mpr ⟨rfl, List.forall_mem_append.mpr ⟨?_, by decide⟩⟩
  refine List.forall_mem_map.mpr fun x _ => ?_
  cases x <;> rfl

theorem isBlock_unitRows {name : String} (word : isWord name = true) (lines : List Line) :
    IsBlock Row.startsUnit (unitRows name lines) := by
  refine ⟨_, _, rfl, ?_, List.forall_mem_append.mpr ⟨?_, by decide⟩⟩
  · refine bne_iff_ne.mpr fun point => ?_
    exact lacks_of_isWord word (by decide) (List.mem_of_mem_head? point)
  · refine List.forall_mem_map.mpr fun x _ => ?_
    cases x with
    | label t =>
        refine bne_eq_false_iff_eq.mpr ?_
        exact head?_target t
    | instr i => rfl

/-- The sections of a text, and what stands in front of them. -/
theorem sections_render {l : Listing} (ordinary : l.Ordinary) :
    blocksAt Row.startsSection (rows l.render) =
        blocksAt Row.startsSection l.header ++ [l.data, l.bss, l.text] ∧
      ∀ b ∈ blocksAt Row.startsSection l.header, b = l.header := by
  have empty : ∀ r ∈ [blank], r.startsSection = false := by decide
  rw [rows_render ordinary]
  refine blocksAt_behind ?_ ?_
  · refine List.forall_mem_append.mpr ⟨List.forall_mem_append.mpr ⟨by decide, ?_⟩, empty⟩
    refine List.forall_mem_map.mpr fun f _ => ?_
    rw [Row.startsSection, String.toList_append]
    rfl
  · simp only [List.forall_mem_cons, List.not_mem_nil, false_implies, implies_true, and_true]
    refine ⟨⟨_, _, rfl, by decide, ?_⟩, ⟨_, _, rfl, by decide, ?_⟩, ⟨_, _, rfl, by decide, ?_⟩⟩
    · refine List.forall_mem_append.mpr ⟨?_, empty⟩
      intro r mem
      obtain ⟨i, _, rfl⟩ := List.mem_mapIdx.mp mem
      rfl
    · exact List.forall_mem_append.mpr ⟨List.forall_mem_map.mpr fun r _ => rfl, empty⟩
    · refine List.forall_mem_flatten.mpr ?_
      exact List.forall_mem_map.mpr fun u _ => startsSection_unitRows

theorem sectionRows_render {l : Listing} (ordinary : l.Ordinary) (name : String) :
    sectionRows name (rows l.render) = ([l.data, l.bss, l.text].filter fun b =>
      b.head? = some (.other ("section " ++ name))).flatMap List.tail := by
  obtain ⟨blocks, before⟩ := sections_render ordinary
  have none : (blocksAt Row.startsSection l.header).filter
      (fun b => b.head? = some (.other ("section " ++ name))) = [] := by
    refine List.filter_eq_nil_iff.mpr fun b mem same => ?_
    rw [before b mem, decide_eq_true_eq] at same
    have first := congrArg (·.toList.head?) (Row.other.inj (Option.some.inj same))
    rw [String.toList_append] at first
    exact absurd (show some ';' = some 's' from first) (by decide)
  rw [sectionRows, blocks, List.filter_append, none]
  rfl

theorem dataRows_render {l : Listing} (ordinary : l.Ordinary) :
    sectionRows ".data" (rows l.render) = l.constants.mapIdx constantRow ++ [blank] := by
  rw [sectionRows_render ordinary]
  exact List.append_nil _

theorem bssRows_render {l : Listing} (ordinary : l.Ordinary) :
    sectionRows ".bss" (rows l.render) = l.reservations.map Reservation.row ++ [blank] := by
  rw [sectionRows_render ordinary]
  exact List.append_nil _

theorem codeUnits_render {l : Listing} (ordinary : l.Ordinary) :
    codeUnits (rows l.render) = l.unitsRows := by
  have text : sectionRows ".text" (rows l.render) = l.unitsRows.flatten := by
    rw [sectionRows_render ordinary]
    exact List.append_nil _
  rw [codeUnits, text]
  refine blocksAt_flatten (List.forall_mem_map.mpr fun u mem => ?_)
  exact isBlock_unitRows (ordinary.named u mem).1 u.2

end BraceLang.Assembly
