import BraceLang.Proofs.Assembly.Emission
import BraceLang.Proofs.Assembly.Sequences

/-!
The code of an expression computes its value. The expression has no call, its names have
storage, its literals are readable, and a remainder is taken of integers only.

While the code runs, values wait on the stack, so memory changes between a lower bound and the
top of the stack at the start. The reference evaluation reads the memory at the start; what it
reads has to be outside of these bytes, as the storage of variables and constants is.

**Main results.** `run_expr` follows the tree: from any state on the way, the code delivers the
value that the expression has at the start, and leaves the stack where it was. `expr_computes`
puts it together for a machine with enough room on its stack.
-/

namespace BraceLang

/-- A literal that an instruction can take: a 32-bit integer, a number with a point, or one
letter or digit between quotes. -/
def Literal.isReadable : Literal → Bool
  | number text => hasPoint text || (Constant.parse? text).isSome
  | char text => match text.toList with
    | ['\'', c, '\''] => c.isAlphanum
    | _ => false
  | bool _ => true

/-- How many bytes below the top of the stack the code of an expression may use. -/
def Expr.stackNeed : Expr → Nat
  | literal .. | var .. | call .. => 0
  | element _ _ index => max index.stackNeed 4
  | unary _ _ operand => operand.stackNeed
  | binary _ _ left right => max left.stackNeed (8 + max right.stackNeed 4)

end BraceLang

namespace BraceLang.Assembly

open Machine

variable {F : Type} {p : Platform F} {iface : Interface} {slots : String → Option Slot}

variable (iface slots) in
/-- Expressions whose code is straight and reads known storage. -/
def isPlain : Expr → Bool
  | .literal _ value => value.isReadable
  | .var _ name => (slots name).isSome
  | .element _ array index => (slots array).isSome && isPlain index
  | .unary _ _ operand => isPlain operand
  | .binary _ op left right => isPlain left && isPlain right &&
      (op != .mod || (domainOf iface slots left == .int && domainOf iface slots right == .int))
  | .call .. => false

/-! ### Texts of literals -/

/-- A number without a point is written for a word. -/
theorem operandWord?_number {text : String} {n : Int} (whole : hasPoint text = false)
    (parsed : Constant.parse? text = some (.int n)) :
    operandWord? text = some (BitVec.ofInt 32 n) := by
  simp only [Constant.parse?, whole, Bool.false_eq_true, if_false] at parsed
  obtain ⟨k, read, fits⟩ := Option.bind_eq_some_iff.mp parsed
  unfold Constant.ofInt? at fits
  split at fits
  · rename_i bounds
    obtain rfl : k = n := by simpa using fits
    unfold operandWord?
    split
    · rename_i c quoted
      rw [quoted] at read
      simp [Decimal.readInt?, Decimal.splitSign, Decimal.readDigits?] at read
    · have fitting : fitsWord k = true := by simpa [fitsWord] using bounds
      simp [read, Option.filter, fitting]
  · contradiction

theorem parse?_whole {text : String} (whole : hasPoint text = false)
    (parses : (Constant.parse? text).isSome = true) :
    ∃ n, Constant.parse? text = some (.int n) := by
  simp only [Constant.parse?, whole, Bool.false_eq_true, if_false] at parses ⊢
  obtain ⟨c, found⟩ := Option.isSome_iff_exists.mp parses
  obtain ⟨k, read, fits⟩ := Option.bind_eq_some_iff.mp found
  unfold Constant.ofInt? at fits
  split at fits
  · obtain rfl := Option.some.inj fits
    exact ⟨k, found⟩
  · contradiction

theorem readable_char {text : String} (readable : (Literal.char text).isReadable = true) :
    ∃ c, text.toList = ['\'', c, '\''] ∧ c.isAlphanum = true := by
  unfold Literal.isReadable at readable
  dsimp only at readable
  split at readable
  · rename_i c quoted
    exact ⟨c, quoted, readable⟩
  · contradiction

/-- A letter or digit between quotes is written for its code. -/
theorem operandWord?_char {text : String} {c : Char} (quoted : text.toList = ['\'', c, '\''])
    (alphanumeric : c.isAlphanum = true) :
    operandWord? (charText text) = some (BitVec.ofNat 32 c.toNat) := by
  have plain : text.toList.contains '\\' = false := by
    rw [quoted]
    have other : c ≠ '\\' := by
      rintro rfl
      contradiction
    simpa using other.symm
  have same : charText text = text := by
    simp only [charText, plain, Bool.false_eq_true, if_false]
  simp only [same, operandWord?, quoted, alphanumeric, if_true]

/-! ### Values of plain expressions -/

section Values

variable {m : Machine F}

theorem Slot.domain_valueAt (fl : Floats F) (m : Machine F) (slot : Slot) (a : Address) :
    (slot.valueAt fl m a).domain = slot.type.domain := by
  unfold valueAt
  cases slot.type <;> rfl

theorem Value.domain_unary (fl : Floats F) (op : UnOp) (v : Value F) :
    (v.unary fl op).domain = (unaryOp op v.domain).2 := by
  cases op <;> cases v <;> rfl

theorem Value.domain_floats (fl : Floats F) {op : BinOp} (x y : F) (d e : Domain)
    (arithmetic : op.isLogical = false) (proper : op ≠ .mod) (mixed : ¬(d = .int ∧ e = .int)) :
    ∃ v, floats fl op x y = .ok v ∧ v.domain = binaryDomain op d e := by
  cases op with
  | mod | and | or => contradiction
  | add | sub | mul | div =>
      refine ⟨_, rfl, ?_⟩
      cases d <;> cases e
      case int.int => exact absurd ⟨rfl, rfl⟩ mixed
      all_goals rfl
  | _ => exact ⟨_, rfl, rfl⟩

theorem Value.integers_defined {op : BinOp} (a b : BitVec 32)
    (arithmetic : op.isLogical = false) :
    integers op a b = .error .divide ∨ ∃ n, integers op a b = .ok n := by
  cases op with
  | and | or => contradiction
  | div | mod =>
      by_cases quotient : NoQuotient a b
      · exact .inl (if_pos quotient)
      · exact .inr ⟨_, if_neg quotient⟩
  | _ => exact .inr ⟨_, rfl⟩

/-- An operator gives a value of the domain it is said to have, or it traps as a division. -/
theorem Value.domain_binary (fl : Floats F) {op : BinOp} (left right : Value F)
    (proper : op = .mod → left.domain = .int ∧ right.domain = .int) :
    left.binary fl op right = .error .divide ∨
      ∃ v, left.binary fl op right = .ok v ∧
        v.domain = binaryDomain op left.domain right.domain := by
  by_cases logical : op.isLogical = true
  · cases op with
    | and | or => exact .inr ⟨_, rfl, rfl⟩
    | _ => contradiction
  · have arithmetic : op.isLogical = false := Bool.not_eq_true _ ▸ logical
    by_cases words : left.domain = .int ∧ right.domain = .int
    · obtain ⟨leftWord, rightWord⟩ := words
      cases left with
      | float x => contradiction
      | int a =>
          cases right with
          | float y => contradiction
          | int b =>
              rw [binary_words fl arithmetic]
              rcases integers_defined a b arithmetic with traps | ⟨n, ends⟩
              · exact .inl (by rw [traps]; rfl)
              · refine .inr ⟨.int n, by rw [ends]; rfl, ?_⟩
                cases op <;> rfl
    · rw [binary_mixed fl arithmetic words]
      exact .inr (domain_floats fl _ _ _ _ arithmetic (fun same => words (proper same)) words)

variable (iface slots) in
theorem literalValue?_of_isReadable (fl : Floats F) (pos : Position) {value : Literal}
    (readable : value.isReadable = true) :
    ∃ v, literalValue? fl value = some v ∧
      v.domain = domainOf iface slots (.literal pos value) := by
  cases value with
  | number text =>
      by_cases point : hasPoint text = true
      · exact ⟨.float (fl.ofText text), by simp [literalValue?, point],
          by simp [domainOf, point, Value.domain]⟩
      · have whole : hasPoint text = false := Bool.not_eq_true _ ▸ point
        obtain ⟨n, parsed⟩ := parse?_whole whole
          (by simpa [Literal.isReadable, whole] using readable)
        exact ⟨.int (BitVec.ofInt 32 n), by simp [literalValue?, whole, parsed],
          by simp [domainOf, whole, Value.domain]⟩
  | char text =>
      obtain ⟨c, quoted, alphanumeric⟩ := readable_char readable
      exact ⟨.int (BitVec.ofNat 32 c.toNat), by simp [literalValue?, quoted, alphanumeric], rfl⟩
  | bool value => exact ⟨_, rfl, rfl⟩

/-- A plain expression has a value of its domain, or a division in it traps. -/
theorem evaluate_of_isPlain : (e : Expr) → isPlain iface slots e = true →
    evaluate p slots m e = .error .divide ∨
      ∃ v, evaluate p slots m e = .ok v ∧ v.domain = domainOf iface slots e
  | .literal pos value, plain => by
      obtain ⟨v, found, domain⟩ := literalValue?_of_isReadable iface slots p.toFloats pos plain
      exact .inr ⟨v, by rw [evaluate, found], domain⟩
  | .var pos name, plain => by
      obtain ⟨slot, found⟩ := Option.isSome_iff_exists.mp plain
      refine .inr ⟨_, by rw [evaluate, found], ?_⟩
      rw [Slot.domain_valueAt, domainOf, found]
      rfl
  | .element pos array index, plain => by
      obtain ⟨known, plainIndex⟩ := Bool.and_eq_true_iff.mp plain
      obtain ⟨slot, found⟩ := Option.isSome_iff_exists.mp known
      rcases evaluate_of_isPlain index plainIndex with traps | ⟨i, ends, _⟩
      · exact .inl (by rw [evaluate, traps]; rfl)
      · refine .inr ⟨_, by rw [evaluate, ends, found]; rfl, ?_⟩
        rw [Slot.domain_valueAt, domainOf, found]
        rfl
  | .unary pos op operand, plain => by
      rcases evaluate_of_isPlain operand plain with traps | ⟨v, ends, domain⟩
      · exact .inl (by rw [evaluate, traps]; rfl)
      · refine .inr ⟨_, by rw [evaluate, ends]; rfl, ?_⟩
        rw [Value.domain_unary, domain]
        cases op <;> simp only [domainOf, unaryOp]
        cases domainOf iface slots operand <;> rfl
  | .binary pos op left right, plain => by
      simp only [isPlain, Bool.and_eq_true, Bool.or_eq_true, bne_iff_ne, beq_iff_eq] at plain
      obtain ⟨⟨plainLeft, plainRight⟩, proper⟩ := plain
      rcases evaluate_of_isPlain left plainLeft with traps | ⟨a, endsLeft, domainLeft⟩
      · exact .inl (by rw [evaluate, traps]; rfl)
      · rcases evaluate_of_isPlain right plainRight with traps | ⟨b, endsRight, domainRight⟩
        · exact .inl (by rw [evaluate, endsLeft, traps]; rfl)
        · have same : evaluate p slots m (.binary pos op left right) =
              a.binary p.toFloats op b := by
            rw [evaluate, endsLeft, endsRight]
            rfl
          rw [same, domainOf, ← domainLeft, ← domainRight]
          apply Value.domain_binary
          intro isMod
          rw [domainLeft, domainRight]
          exact proper.resolve_left (not_not_intro isMod)

end Values

/-! ### States on the way -/

section OnTheWay

variable {low : Nat} {origin m m' : Machine F} {st : List F}

/-- The byte is outside of what may change while the code runs. -/
def Outside (low : Nat) (origin : Machine F) (a : Address) : Prop :=
  a.toNat < low ∨ origin.esp.toNat ≤ a.toNat

/-- A state while the code of an expression runs: the stack is below where it was, and memory has
changed only between `low` and there. -/
structure OnTheWay (low : Nat) (origin m : Machine F) : Prop where
  esp : m.esp.toNat ≤ origin.esp.toNat
  ebp : m.ebp = origin.ebp
  mem : ∀ a, Outside low origin a → m.mem a = origin.mem a

theorem OnTheWay.refl (low : Nat) (origin : Machine F) : OnTheWay low origin origin :=
  ⟨Nat.le_refl _, rfl, fun _ _ => rfl⟩

theorem OnTheWay.kept (onWay : OnTheWay low origin m) (kept : Kept low m m') :
    OnTheWay low origin m' where
  esp := kept.esp ▸ onWay.esp
  ebp := kept.ebp.trans onWay.ebp
  mem a outside := by
    have above : a.toNat < low ∨ m.esp.toNat ≤ a.toNat :=
      outside.imp_right fun top => Nat.le_trans onWay.esp top
    rw [kept.mem a above, onWay.mem a outside]

theorem OnTheWay.read (onWay : OnTheWay low origin m) {a : Address} {n : Nat}
    (outside : ∀ k, k < n → Outside low origin (a + BitVec.ofNat 32 k)) :
    m.mem.read a n = origin.mem.read a n :=
  Memory.read_congr fun k below => onWay.mem _ (outside k below)

/-- A variable is read from where it was at the start. -/
theorem OnTheWay.valueAt (onWay : OnTheWay low origin m) {slot : Slot} {a : Address}
    (outside : ∀ k, k < (widthOf slot.type).bytes → Outside low origin (a + BitVec.ofNat 32 k)) :
    slot.valueAt p.toFloats m a = slot.valueAt p.toFloats origin a := by
  unfold Slot.valueAt
  cases type : slot.type <;> rw [type] at outside
  case double => exact congrArg (fun n => Value.float (p.ofBits (.ofNat 64 n))) (onWay.read outside)
  case char =>
    have first : Outside low origin a := by simpa using outside 0 (by decide)
    exact congrArg (fun byte => Value.int (byte.signExtend 32)) (onWay.mem a first)
  all_goals exact congrArg (fun n => Value.int (.ofNat 32 n)) (onWay.read outside)

theorem OnTheWay.address (onWay : OnTheWay low origin m) (slot : Slot) :
    slot.address p m = slot.address p origin := by
  unfold Slot.address
  rw [onWay.ebp]

/-- Loads the value that the slot has at an address. -/
theorem run_loadSlot {slot : Slot} {indexed : Bool} {a : Address}
    (place : m.address p (slot.mem indexed) = a) :
    ∃ m', m.run p (code (loadSlot slot indexed)) = .ok m' ∧
      m'.Shows m.fpu (slot.valueAt p.toFloats m a) ∧ Kept low m m' := by
  have width : (slot.mem indexed).width = widthOf slot.type := rfl
  unfold loadSlot Slot.valueAt
  cases type : slot.type <;> rw [type] at width
  case double =>
    simp only [run_code_cons, run_code_nil, exec, width, widthOf, if_true, Except.bind, place]
    exact ⟨_, rfl, rfl, .of_eq rfl rfl rfl⟩
  all_goals
    simp only [run_code_cons, run_code_nil, exec, width, widthOf, if_true, Except.bind, place]
    exact ⟨_, rfl, ⟨rfl, rfl⟩, .of_eq rfl rfl rfl⟩

/-- The constants are at their labels, outside of what may change. -/
def Loaded (p : Platform F) (low : Nat) (origin : Machine F) (constants : List String) : Prop :=
  ∀ i text, constants[i]? = some text →
    origin.number p.toFloats (p.address (constantLabel i)) = p.ofText text ∧
      ∀ k, k < 8 → Outside low origin (p.address (constantLabel i) + BitVec.ofNat 32 k)

theorem Loaded.mono {first all : List String} (loaded : Loaded p low origin all)
    (grown : first <+: all) : Loaded p low origin first := by
  exact fun i text found => loaded i text (getElem?_of_grown grown found)

/-- A literal shows its value. -/
theorem run_literal {value : Literal} {s : State} {v : Value F} (onWay : OnTheWay low origin m)
    (loaded : Loaded p low origin (literal value s).2.constants)
    (readable : literalValue? p.toFloats value = some v) :
    ∃ m', m.run p (code (literal value s).1.1) = .ok m' ∧ m'.Shows m.fpu v ∧ Kept low m m' := by
  have moves {text : String} {w : BitVec 32} (reads : operandWord? text = some w) :
      m.run p (code [.movText .eax text]) = .ok { m with eax := w } := by
    simp only [run_code_cons, run_code_nil, exec, reads, Except.bind, Machine.set]
  cases value with
  | number text =>
      by_cases point : hasPoint text = true
      · have emits : literal (.number text) s =
            (([.fld ⟨.qword, .label (constant text s).1, none⟩], .float), (constant text s).2) := by
          simp only [literal, point, if_true]
          rfl
        rw [emits] at loaded ⊢
        obtain rfl : v = .float (p.ofText text) := by
          simpa [literalValue?, point] using readable.symm
        obtain ⟨i, label, found⟩ := constant_placed text s
        obtain ⟨value, outside⟩ := loaded i text found
        refine ⟨{ m with fpu := p.ofText text :: m.fpu }, ?_, rfl, .of_eq rfl rfl rfl⟩
        rw [← value, number, ← onWay.read outside, ← label]
        rfl
      · have whole : hasPoint text = false := Bool.not_eq_true _ ▸ point
        have emits : literal (.number text) s = (([.movText .eax text], .int), s) := by
          simp only [literal, whole, Bool.false_eq_true, if_false]
          rfl
        simp only [literalValue?, whole, Bool.false_eq_true, if_false] at readable
        split at readable
        · rename_i n parsed
          obtain rfl := Option.some.inj readable
          rw [emits]
          exact ⟨_, moves (operandWord?_number whole parsed), ⟨rfl, rfl⟩, .of_eq rfl rfl rfl⟩
        · contradiction
  | char text =>
      simp only [literalValue?] at readable
      split at readable
      · rename_i c quoted
        split at readable
        · rename_i alphanumeric
          obtain rfl := Option.some.inj readable
          exact ⟨_, moves (operandWord?_char quoted alphanumeric), ⟨rfl, rfl⟩, .of_eq rfl rfl rfl⟩
        · contradiction
      · contradiction
  | bool value =>
      obtain rfl := Option.some.inj readable
      cases value <;> exact ⟨_, rfl, ⟨rfl, rfl⟩, .of_eq rfl rfl rfl⟩

theorem address_variable (m : Machine F) (slot : Slot) :
    m.address p (slot.mem false) = slot.address p m := by
  unfold Machine.address Slot.mem Slot.address
  cases slot.place <;> rfl

theorem address_element (m : Machine F) (slot : Slot) :
    m.address p (slot.mem true) = slot.elementAddress p m m.ecx := by
  unfold Machine.address Slot.mem Slot.elementAddress Slot.address
  cases slot.place <;> rfl

/-- An index becomes an integer. -/
theorem run_convertInt {i : Value F} (shows : m.Shows st i) (room : low + 4 ≤ m.esp.toNat) :
    ∃ m', m.run p (code (convert i.domain .int)) = .ok m' ∧ m'.eax = i.toInt p.toFloats ∧
      m'.fpu = st ∧ Kept low m m' := by
  cases i with
  | int n => exact ⟨m, rfl, shows.1, shows.2, .refl low m⟩
  | float x => exact run_toInt shows room

theorem run_unaryOp {v : Value F} (op : UnOp) (shows : m.Shows st v) :
    ∃ m', m.run p (code (unaryOp op v.domain).1) = .ok m' ∧
      m'.Shows st (v.unary p.toFloats op) ∧ Kept low m m' := by
  cases op with
  | neg =>
      cases v with
      | int n =>
          obtain ⟨rfl, rfl⟩ := shows
          exact ⟨_, rfl, ⟨rfl, rfl⟩, .of_eq rfl rfl rfl⟩
      | float x =>
          simp only [Shows] at shows
          simp only [Value.domain, unaryOp, run_code_cons, run_code_nil, exec, shows, Except.bind]
          exact ⟨_, rfl, rfl, .of_eq rfl rfl rfl⟩
  | not =>
      obtain ⟨flags, tested⟩ := run_truth (p := p) shows
      have flips (b : Bool) : ofTruth b ^^^ 1 = ofTruth (!b) := by cases b <;> decide
      simp only [unaryOp, code_append, run_append, tested, Except.bind, run_code_cons,
        run_code_nil, exec, flips]
      exact ⟨_, rfl, ⟨rfl, rfl⟩, .of_eq rfl rfl rfl⟩

end OnTheWay

/-! ### Expressions -/

section Runs

variable {low : Nat} {origin m : Machine F}

theorem pushedBytes_le (d : Domain) : pushedBytes d ≤ 8 := by
  cases d <;> decide

/-- The domain that code is made for is that of the value. -/
theorem domain_of_ok {e : Expr} {s : State} {v : Value F}
    (plain : isPlain iface slots e = true) (stack : s.env.stack.lookup = slots)
    (ends : evaluate p slots origin e = .ok v) : (expr iface e s).1.2 = v.domain := by
  rw [expr_domain, stack]
  rcases evaluate_of_isPlain (p := p) (m := origin) e plain with traps | ⟨w, ends', domain⟩
  · rw [traps] at ends
    contradiction
  · obtain rfl : w = v := by simpa using ends'.symm.trans ends
    exact domain.symm

/-- An operator between two expressions, from what the code of each does. -/
theorem run_binary {pos : Position} {op : BinOp} {left right : Expr} {s : State}
    (onWay : OnTheWay low origin m)
    (room : low + (Expr.binary pos op left right).stackNeed ≤ m.esp.toNat)
    (plain : isPlain iface slots (.binary pos op left right) = true)
    (stack : s.env.stack.lookup = slots)
    (runsLeft : Delivers (m.run p (expr iface left s).1.1)
      (fun v m' => m'.Shows m.fpu v ∧ Kept low m m') (evaluate p slots origin left))
    (runsRight : ∀ m', OnTheWay low origin m' → low + right.stackNeed ≤ m'.esp.toNat →
      Delivers (m'.run p (expr iface right (expr iface left s).2).1.1)
        (fun v m'' => m''.Shows m'.fpu v ∧ Kept low m' m'') (evaluate p slots origin right)) :
    Delivers (m.run p (expr iface (.binary pos op left right) s).1.1)
      (fun v m' => m'.Shows m.fpu v ∧ Kept low m m')
      (evaluate p slots origin (.binary pos op left right)) := by
  simp only [isPlain, Bool.and_eq_true, Bool.or_eq_true, bne_iff_ne, beq_iff_eq] at plain
  obtain ⟨⟨plainLeft, plainRight⟩, proper⟩ := plain
  have stackRight : (expr iface left s).2.env.stack.lookup = slots := by
    rw [(growing_expr iface left s).stack, stack]
  rw [expr_binary, evaluate]
  dsimp only
  rw [List.append_assoc, List.append_assoc]
  refine runsLeft.bind fun a first endsLeft ⟨shownLeft, keptLeft⟩ => ?_
  rw [domain_of_ok plainLeft stack endsLeft]
  have bytes := pushedBytes_le a.domain
  have top := congrArg BitVec.toNat keptLeft.esp
  simp only [Expr.stackNeed] at room
  have fitting : low + pushedBytes a.domain ≤ first.esp.toNat := by omega
  have bound := first.esp.isLt
  obtain ⟨pushed, pushes, fpu, ebp, esp, waits, mem⟩ := run_pushValue (p := p) shownLeft fitting
  have below : pushed.esp.toNat = first.esp.toNat - pushedBytes a.domain := by
    rw [esp, toNat_sub_ofNat (by omega)]
  have onWayLeft := onWay.kept keptLeft
  have onWayPushed : OnTheWay low origin pushed := by
    refine ⟨?_, ?_, ?_⟩
    · have := onWayLeft.esp
      omega
    · rw [ebp, onWayLeft.ebp]
    · intro b outside
      rw [mem b (outside.imp_right (Nat.le_trans onWayLeft.esp)), onWayLeft.mem b outside]
  refine .after pushes ?_
  refine (runsRight pushed onWayPushed (by omega)).bind fun b second endsRight
    ⟨shownRight, keptRight⟩ => ?_
  rw [domain_of_ok plainRight stackRight endsRight]
  have waiting : second.Waits p.toFloats a := waits.kept (by omega) keptRight
  have topRight := congrArg BitVec.toNat keptRight.esp
  have properDomains : op = .mod → a.domain = .int ∧ b.domain = .int := by
    intro isMod
    rw [← domain_of_ok plainLeft stack endsLeft, ← domain_of_ok plainRight stackRight endsRight,
      expr_domain, expr_domain, stackRight, stack]
    exact proper.resolve_left (not_not_intro isMod)
  have shown : second.Shows m.fpu b := fpu ▸ shownRight
  have roomOp : low + 4 ≤ second.esp.toNat := by omega
  refine (run_binaryOp _ waiting shown roomOp (by omega) properDomains).imp ?_
  rintro v last ⟨shownLast, dropped⟩
  refine ⟨shownLast, ?_, ?_, ?_⟩
  · rw [dropped.esp, keptRight.esp, esp, BitVec.sub_add_cancel, keptLeft.esp]
  · rw [dropped.ebp, keptRight.ebp, ebp, keptLeft.ebp]
  · intro c outside
    rw [dropped.mem c (by omega), keptRight.mem c (by omega), mem c (by omega),
      keptLeft.mem c outside]

/-- The code of a plain expression, run from a state on the way, delivers the value that the
expression has at the start. -/
theorem run_expr : (e : Expr) → ∀ {s : State} {m : Machine F}, OnTheWay low origin m →
    low + e.stackNeed ≤ m.esp.toNat → isPlain iface slots e = true →
    s.env.stack.lookup = slots → ReadsOnly p slots origin (Outside low origin) e →
    Loaded p low origin (expr iface e s).2.constants →
    Delivers (m.run p (expr iface e s).1.1) (fun v m' => m'.Shows m.fpu v ∧ Kept low m m')
      (evaluate p slots origin e)
  | .literal pos value, s, m, onWay, _, plain, _, _, loaded => by
      obtain ⟨v, readable, _⟩ :=
        literalValue?_of_isReadable iface slots p.toFloats pos plain
      rw [expr_literal] at loaded ⊢
      rw [evaluate, readable]
      exact run_literal onWay loaded readable
  | .var pos name, s, m, onWay, _, plain, stack, reads, _ => by
      obtain ⟨slot, found⟩ := Option.isSome_iff_exists.mp plain
      rw [expr_var, readSlot_eq, stack, found, evaluate, found]
      dsimp only
      rw [← onWay.valueAt (reads slot found), ← onWay.address]
      exact run_loadSlot (address_variable m slot)
  | .element pos array index, s, m, onWay, room, plain, stack, reads, loaded => by
      obtain ⟨known, plainIndex⟩ := Bool.and_eq_true_iff.mp plain
      obtain ⟨slot, found⟩ := Option.isSome_iff_exists.mp known
      have stackIndex : (expr iface index s).2.env.stack.lookup = slots := by
        rw [(growing_expr iface index s).stack, stack]
      have needs := room
      simp only [Expr.stackNeed] at needs
      rw [expr_element] at loaded ⊢
      dsimp only at loaded ⊢
      rw [readSlot_eq, stackIndex, found] at loaded ⊢
      rw [evaluate, found]
      refine (run_expr index onWay (by omega) plainIndex stack reads.1 loaded).bind fun i m' ends
        ⟨shown, kept⟩ => ?_
      have top := congrArg BitVec.toNat kept.esp
      rw [domain_of_ok plainIndex stack ends, List.append_assoc, code_append, code_append]
      have roomIndex : low + 4 ≤ m'.esp.toNat := by omega
      obtain ⟨converted, converts, eax, fpu, keptIndex⟩ := run_convertInt (p := p) shown roomIndex
      -- The index has gone to `ecx`, where the address of the element is made from it.
      let placed : Machine F := { converted with ecx := converted.eax }
      have keptPlaced : Kept low m placed := (kept.trans keptIndex).trans (.of_eq rfl rfl rfl)
      have onWayPlaced := onWay.kept keptPlaced
      have place : placed.address p (slot.mem true) =
          slot.elementAddress p origin (i.toInt p.toFloats) := by
        rw [address_element, Slot.elementAddress, onWayPlaced.address, ← eax]
        rfl
      obtain ⟨last, loads, shownLast, keptLast⟩ := run_loadSlot (p := p) place
      rw [onWayPlaced.valueAt (reads.2 slot i found ends)] at shownLast
      refine .after converts (.after rfl ?_)
      exact ⟨last, loads, fpu ▸ shownLast, keptPlaced.trans keptLast⟩
  | .unary pos op operand, s, m, onWay, room, plain, stack, reads, loaded => by
      rw [expr_unary] at loaded ⊢
      dsimp only at loaded ⊢
      have plainOperand : isPlain iface slots operand = true := plain
      rw [evaluate]
      refine (run_expr operand onWay room plain stack reads loaded).bind fun v m' ends
        ⟨shown, kept⟩ => ?_
      rw [domain_of_ok plainOperand stack ends]
      obtain ⟨last, runs, shownLast, keptLast⟩ := run_unaryOp (p := p) op shown
      exact ⟨last, runs, shownLast, kept.trans keptLast⟩
  | .binary pos op left right, s, m, onWay, room, plain, stack, reads, loaded => by
      have plains := plain
      simp only [isPlain, Bool.and_eq_true] at plains
      have needs := room
      simp only [Expr.stackNeed] at needs
      have stackRight : (expr iface left s).2.env.stack.lookup = slots := by
        rw [(growing_expr iface left s).stack, stack]
      rw [expr_binary] at loaded
      have loadedRight := loaded.mono (growing_binaryOp op _ _ _).constants
      have loadedLeft := loadedRight.mono (growing_expr iface right _).constants
      apply run_binary onWay room plain stack
      · exact run_expr left onWay (by omega) plains.1.1 stack reads.1 loadedLeft
      · intro m' onWay' room'
        exact run_expr right onWay' room' plains.1.2 stackRight reads.2 loadedRight

end Runs

/-- The machine can run the code of an expression. There is room on its stack; the data sections,
which consist of the bytes of a certain kind, are elsewhere; variables and elements that are read
are above the top of the stack or in a data section; and so are the constants, which are loaded. -/
structure Ready (p : Platform F) (slots : String → Option Slot) (constants : List String)
    (Static : Address → Prop) (m : Machine F) (e : Expr) : Prop where
  room : e.stackNeed ≤ m.esp.toNat
  apart : ∀ a, Static a → a.toNat < m.esp.toNat - e.stackNeed ∨ m.esp.toNat ≤ a.toNat
  reads : ReadsOnly p slots m (fun a => m.esp.toNat ≤ a.toNat ∨ Static a) e
  constants : ∀ i text, constants[i]? = some text →
    m.number p.toFloats (p.address (constantLabel i)) = p.ofText text ∧
      ∀ k, k < 8 → Static (p.address (constantLabel i) + BitVec.ofNat 32 k)

theorem ReadsOnly.imp {m : Machine F} {Kind Kind' : Address → Prop}
    (weaker : ∀ a, Kind a → Kind' a) : (e : Expr) → ReadsOnly p slots m Kind e →
    ReadsOnly p slots m Kind' e
  | .literal .., _ => trivial
  | .var .., reads => fun slot found k below => weaker _ (reads slot found k below)
  | .element _ _ index, reads =>
      ⟨ReadsOnly.imp weaker index reads.1, fun slot i found ends k below =>
        weaker _ (reads.2 slot i found ends k below)⟩
  | .unary _ _ operand, reads => ReadsOnly.imp weaker operand reads
  | .binary _ _ left right, reads =>
      ⟨ReadsOnly.imp weaker left reads.1, ReadsOnly.imp weaker right reads.2⟩
  | .call .., _ => trivial

/-- The code of a plain expression traps where a division of the reference evaluation does.
Otherwise it ends with the value in `eax`, or on top of an x87 stack that is one number higher,
as the domain says; the stack, the frame and the memory outside of the room on the stack are as
they were. -/
theorem expr_computes (p : Platform F) (iface : Interface) (s : State) (e : Expr) (m : Machine F)
    (Static : Address → Prop) (plain : isPlain iface s.env.stack.lookup e = true)
    (ready : Ready p s.env.stack.lookup (expr iface e s).2.constants Static m e) :
    (evaluate p s.env.stack.lookup m e = .error .divide ∧
      m.run p (expr iface e s).1.1 = .error .divide) ∨
    ∃ v m', evaluate p s.env.stack.lookup m e = .ok v ∧ m.run p (expr iface e s).1.1 = .ok m' ∧
      v.domain = (expr iface e s).1.2 ∧ m'.Shows m.fpu v ∧
      Kept (m.esp.toNat - e.stackNeed) m m' := by
  obtain ⟨room, apart, read, constants⟩ := ready
  have outside : ∀ a, m.esp.toNat ≤ a.toNat ∨ Static a →
      Outside (m.esp.toNat - e.stackNeed) m a := by
    rintro a (above | fixed)
    · exact .inr above
    · exact apart a fixed
  have loaded : Loaded p (m.esp.toNat - e.stackNeed) m (expr iface e s).2.constants := by
    intro i text found
    obtain ⟨value, fixed⟩ := constants i text found
    exact ⟨value, fun k below => outside _ (.inr (fixed k below))⟩
  have reads := read.imp outside
  have delivers := run_expr e (.refl _ m) (by omega) plain rfl reads loaded
  rcases evaluate_of_isPlain (p := p) (m := m) e plain with traps | ⟨v, ends, _⟩
  · rw [traps] at delivers
    exact .inl ⟨traps, delivers⟩
  · have domain := domain_of_ok plain rfl ends
    rw [ends] at delivers
    obtain ⟨m', runs, shows, kept⟩ := delivers
    exact .inr ⟨v, m', ends, runs, domain.symm, shows, kept⟩

/-! ### A sample -/

/-- Whole numbers of 64 bits in the place of floating-point numbers; a text stands for the number
before its point. -/
def wholeNumbers : Floats (BitVec 64) where
  zero := 0
  ofText text := BitVec.ofNat 64 (Decimal.ofDigits (text.toList.takeWhile Char.isDigit))
  ofInt n := n.signExtend 64
  toInt x := x.setWidth 32
  neg x := -x
  add x y := x + y
  sub x y := x - y
  mul x y := x * y
  div x y := x.sdiv y
  compare x y := some (if x.slt y then .lt else if x = y then .eq else .gt)
  toBits x := x
  ofBits b := b
  ofBits_toBits _ := rfl
  add_comm := BitVec.add_comm
  mul_comm := BitVec.mul_comm

/-- Constants and top-level variables from `0x2000` on. -/
def samplePlatform : Platform (BitVec 64) where
  toFloats := wholeNumbers
  address label := if label = "_cd0" then 0x2000 else 0x2010

/-- An array of `double` numbers at top level and an integer in a frame. -/
def sampleSlots : State :=
  { env := { stack := ⟨[⟨[("n", ⟨.int, .frame (-4)⟩), ("a", ⟨.double, .global "v_a"⟩)]⟩]⟩ } }

/-- The integer is 5, the second element of the array is 10 and the constant is 2. -/
def sampleMachine : Machine (BitVec 64) where
  eax := 0
  ebx := 0
  ecx := 0
  edx := 0
  esp := 0x1000
  ebp := 0x1004
  flags := none
  mem := Memory.write (Memory.write (Memory.write (fun _ => 0) 0x1000 4 5) 0x2018 8 10) 0x2000 8 2
  fpu := []

/-- `a[n / 4] / 2.0 + n % 3`. -/
def sampleExpr : Expr :=
  .binary {} .add
    (.binary {} .div
      (.element {} "a" (.binary {} .div (.var {} "n") (.literal {} (.number "4"))))
      (.literal {} (.number "2.0")))
    (.binary {} .mod (.var {} "n") (.literal {} (.number "3")))

theorem sample_ready : Ready samplePlatform sampleSlots.env.stack.lookup
    (expr {} sampleExpr sampleSlots).2.constants (fun a => 0x2000 ≤ a.toNat) sampleMachine
    sampleExpr where
  room := by decide
  apart a static := .inr (Nat.le_trans (by decide) static)
  reads := by
    have integer : ReadsOnly samplePlatform sampleSlots.env.stack.lookup sampleMachine
        (fun a => sampleMachine.esp.toNat ≤ a.toNat ∨ 0x2000 ≤ a.toNat) (.var {} "n") := by
      intro slot found
      have known : sampleSlots.env.stack.lookup "n" = some ⟨.int, .frame (-4)⟩ := by decide
      obtain rfl := Option.some.inj (known.symm.trans found)
      decide
    refine ⟨⟨⟨⟨integer, trivial⟩, ?_⟩, trivial⟩, integer, trivial⟩
    intro slot i found ends
    have known : sampleSlots.env.stack.lookup "a" = some ⟨.double, .global "v_a"⟩ := by decide
    obtain rfl := Option.some.inj (known.symm.trans found)
    have index : (evaluate samplePlatform sampleSlots.env.stack.lookup sampleMachine
        (.binary {} .div (.var {} "n") (.literal {} (.number "4")))).toOption =
          some (.int 1) := by decide +kernel
    rw [ends] at index
    obtain rfl := Option.some.inj index
    decide
  constants := by
    have one : (expr {} sampleExpr sampleSlots).2.constants = ["2.0"] := by decide +kernel
    intro i text found
    rw [one] at found
    obtain ⟨rfl, rfl⟩ : i = 0 ∧ "2.0" = text := by
      cases i with
      | zero => exact ⟨rfl, by simpa using found⟩
      | succ i => contradiction
    exact ⟨by decide +kernel, by decide +kernel⟩

/-- The sample's code leaves 7 on the x87 stack. -/
theorem sample_computes : ∃ m',
    sampleMachine.run samplePlatform (expr {} sampleExpr sampleSlots).1.1 = .ok m' ∧
      m'.fpu = [7] ∧ m'.esp = 0x1000 := by
  have value : (evaluate samplePlatform sampleSlots.env.stack.lookup sampleMachine
      sampleExpr).toOption = some (.float 7) := by decide +kernel
  rcases expr_computes samplePlatform {} sampleSlots sampleExpr sampleMachine _
    (by decide +kernel) sample_ready with ⟨traps, _⟩ | ⟨v, m', ends, runs, _, shows, kept⟩
  · rw [traps] at value
    contradiction
  · rw [ends] at value
    obtain rfl := Option.some.inj value
    exact ⟨m', runs, shows, kept.esp⟩

end BraceLang.Assembly
