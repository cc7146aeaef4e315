import Mathlib.Algebra.Group.Nat.Defs
import BraceLang.Assembly.Expr
import BraceLang.Decimal.Basic

/-!
A processor that runs straight-line code. It has the registers, the flags of the last
comparison, a byte memory with 32-bit addresses and an x87 stack. What a floating-point
operation computes is left open: a `Platform` gives the operations and the addresses of the
labels, and the machine says only which operation is applied to what.

Jumps, calls and partial remainders are not run here; they trap like anything else that the
machine does not know.

**Main results.** `read_write` says that memory gives back what was put into it, `read_frame`
that it keeps the rest, and `holds_compare` that the conditions after a comparison are the
orders of 32-bit integers.
-/

namespace BraceLang.Assembly

/-! ### Memory -/

abbrev Address := BitVec 32

abbrev Memory := Address → BitVec 8

namespace Memory

variable {mem : Memory} {a b : Address} {n : Nat}

/-- The number in `n` bytes, the lowest byte first. -/
def read (mem : Memory) : Address → Nat → Nat
  | _, 0 => 0
  | a, n + 1 => (mem a).toNat + 256 * read mem (a + 1) n

/-- Puts a number into `n` bytes, the lowest byte first; what does not fit is lost. -/
def write (mem : Memory) (a : Address) (n v : Nat) : Memory := fun b =>
  if (b - a).toNat < n then BitVec.ofNat 8 (v / 256 ^ (b - a).toNat) else mem b

/-- The byte is none of the `n` bytes from `a` on. -/
def Apart (a : Address) (n : Nat) (b : Address) : Prop := n ≤ (b - a).toNat

theorem write_apart (v : Nat) (apart : Apart a n b) : mem.write a n v b = mem b :=
  if_neg (Nat.not_lt.mpr apart)

theorem read_congr {mem' : Memory} {a : Address}
    (same : ∀ k, k < n → mem' (a + BitVec.ofNat 32 k) = mem (a + BitVec.ofNat 32 k)) :
    mem'.read a n = mem.read a n := by
  induction n generalizing a with
  | zero => rfl
  | succ n ih =>
      have first : mem' a = mem a := by simpa using same 0 (Nat.succ_pos n)
      have rest : mem'.read (a + 1) n = mem.read (a + 1) n := by
        apply ih
        intro k below
        have next : a + 1 + BitVec.ofNat 32 k = a + BitVec.ofNat 32 (k + 1) := by
          rw [BitVec.add_assoc, BitVec.ofNat_add, BitVec.add_comm (BitVec.ofNat 32 k)]
          rfl
        rw [next]
        exact same (k + 1) (Nat.succ_lt_succ below)
      simp only [read, first, rest]

theorem read_write_from (mem : Memory) (a : Address) {v i total : Nat}
    (fits : i + n ≤ 0x100000000) (inside : i + n ≤ total) :
    (mem.write a total v).read (a + BitVec.ofNat 32 i) n = v / 256 ^ i % 256 ^ n := by
  induction n generalizing i with
  | zero => simp [read, Nat.mod_one]
  | succ n ih =>
      have place : (a + BitVec.ofNat 32 i - a).toNat = i := by
        rw [BitVec.add_comm, BitVec.add_sub_cancel, BitVec.toNat_ofNat]
        exact Nat.mod_eq_of_lt (by omega)
      have next : a + BitVec.ofNat 32 i + 1 = a + BitVec.ofNat 32 (i + 1) := by
        rw [BitVec.add_assoc, BitVec.ofNat_add]
        rfl
      have first : ((mem.write a total v) (a + BitVec.ofNat 32 i)).toNat = v / 256 ^ i % 256 := by
        simp only [write, place, if_pos (show i < total by omega), BitVec.toNat_ofNat]
      rw [read, first, next, ih (by omega) (by omega), Nat.pow_succ, ← Nat.div_div_eq_div_mul,
        Nat.pow_succ', Nat.mod_mul]

/-- What was put into some bytes is read from them. -/
theorem read_write {v : Nat} (fits : n ≤ 0x100000000) :
    (mem.write a n v).read a n = v % 256 ^ n := by
  simpa using read_write_from mem a (v := v) (i := 0) (by omega) (Nat.le_of_eq (Nat.zero_add n))

end Memory

/-! ### The machine -/

/-- Floating-point numbers with the operations that code applies to them.

That a number keeps its value while it waits in memory is a convention of this model: the x87 unit
rounds what it stores to 64 bits. -/
structure Floats (F : Type) where
  zero : F
  /-- The number that a constant of the `.data` section is written for. -/
  ofText : String → F
  ofInt : BitVec 32 → F
  /-- Rounds toward zero. -/
  toInt : F → BitVec 32
  neg : F → F
  add : F → F → F
  sub : F → F → F
  mul : F → F → F
  div : F → F → F
  /-- Nothing if the numbers are not ordered. -/
  compare : F → F → Option Ordering
  toBits : F → BitVec 64
  ofBits : BitVec 64 → F
  /-- A convention, see above: nothing is rounded on the way to memory and back. -/
  ofBits_toBits : ∀ x, ofBits (toBits x) = x
  add_comm : ∀ x y, add x y = add y x
  mul_comm : ∀ x y, mul x y = mul y x

/-- What code runs on: floating-point numbers, and where the labels of the data sections are. -/
structure Platform (F : Type) extends Floats F where
  address : String → Address

/-- The flags that comparisons set and `set` instructions test. -/
structure Flags where
  zero : Bool := false
  carry : Bool := false
  sign : Bool := false
  overflow : Bool := false
deriving DecidableEq, Repr

/-- The flags after `a - b`. -/
def Flags.compare (a b : BitVec 32) : Flags where
  zero := a == b
  carry := a.ult b
  sign := (a - b).msb
  overflow := BitVec.ssubOverflow a b

/-- The flags after a floating-point comparison: numbers without an order set both flags. -/
def Flags.ofOrder : Option Ordering → Flags
  | none => { zero := true, carry := true }
  | some .lt => { carry := true }
  | some .eq => { zero := true }
  | some .gt => {}

def Cond.holds (f : Flags) : Cond → Bool
  | e => f.zero
  | ne => !f.zero
  | l => f.sign != f.overflow
  | le => f.zero || f.sign != f.overflow
  | g => !f.zero && f.sign == f.overflow
  | ge => f.sign == f.overflow
  | b => f.carry
  | be => f.carry || f.zero
  | a => !f.carry && !f.zero
  | ae => !f.carry

structure Machine (F : Type) where
  eax : BitVec 32
  ebx : BitVec 32
  ecx : BitVec 32
  edx : BitVec 32
  esp : BitVec 32
  ebp : BitVec 32
  /-- Known after a comparison only. -/
  flags : Option Flags
  mem : Memory
  /-- The x87 stack, `st0` first. -/
  fpu : List F

/-- Why code does not go on. -/
inductive Trap where
  /-- A division by zero, or one whose quotient is too large. -/
  | divide
  /-- Anything that the machine does not know. -/
  | unknown
deriving DecidableEq, Repr

/-- Truth as a word. -/
def ofTruth (b : Bool) : BitVec 32 := if b then 1 else 0

/-- Whether a number fits into a signed word. -/
def fitsWord (n : Int) : Bool := -0x80000000 ≤ n && n < 0x80000000

/-- The word that an operand is written for: a whole number, or the code of a letter or digit
between quotes. -/
def operandWord? (text : String) : Option (BitVec 32) :=
  match text.toList with
  | ['\'', c, '\''] => if c.isAlphanum then some (BitVec.ofNat 32 c.toNat) else none
  | cs => ((Decimal.readInt? cs).filter fitsWord).map (BitVec.ofInt 32)

def Width.bytes : Width → Nat
  | byte => 1
  | dword => 4
  | qword => 8

def Alu.apply : Alu → BitVec 32 → BitVec 32 → BitVec 32
  | add, a, b => a + b
  | sub, a, b => a - b
  | imul, a, b => a * b
  | and, a, b => a &&& b
  | or, a, b => a ||| b

variable {F : Type}

/-- The new top of the x87 stack. Both operands are named by `st1, st0`, so the plain forms
have the lower one first and the reversed forms the upper one. -/
def Fpu.apply (fl : Floats F) : Fpu → F → F → F
  | add, st0, st1 => fl.add st1 st0
  | sub, st0, st1 => fl.sub st0 st1
  | mul, st0, st1 => fl.mul st1 st0
  | div, st0, st1 => fl.div st0 st1

namespace Machine

def get (m : Machine F) : Reg → BitVec 32
  | .eax => m.eax
  | .ebx => m.ebx
  | .ecx => m.ecx
  | .edx => m.edx
  | .esp => m.esp
  | .ebp => m.ebp

def set (m : Machine F) (r : Reg) (v : BitVec 32) : Machine F :=
  match r with
  | .eax => { m with eax := v }
  | .ebx => { m with ebx := v }
  | .ecx => { m with ecx := v }
  | .edx => { m with edx := v }
  | .esp => { m with esp := v }
  | .ebp => { m with ebp := v }

/-- The address of a place in memory. -/
def address (p : Platform F) (m : Machine F) (place : Mem) : Address :=
  let base := match place.base with
    | .label name => p.address name
    | .frame offset => m.ebp + BitVec.ofInt 32 offset
    | .top => m.esp
  match place.scale with
  | none => base
  | some k => base + m.ecx * BitVec.ofNat 32 k

/-- The word at an address. -/
def word (m : Machine F) (a : Address) : BitVec 32 := BitVec.ofNat 32 (m.mem.read a 4)

/-- The floating-point number at an address. -/
def number (fl : Floats F) (m : Machine F) (a : Address) : F :=
  fl.ofBits (BitVec.ofNat 64 (m.mem.read a 8))

/-- Divides the signed number in `edx` and `eax`. -/
def divide (m : Machine F) : Except Trap (Machine F) :=
  let dividend := m.edx.toInt * 0x100000000 + m.eax.toNat
  let quotient := dividend.tdiv m.ecx.toInt
  if m.ecx = 0 ∨ !fitsWord quotient then .error .divide
  else .ok { m with eax := BitVec.ofInt 32 quotient,
                    edx := BitVec.ofInt 32 (dividend.tmod m.ecx.toInt), flags := none }

/-- Runs an instruction. -/
def exec (p : Platform F) (m : Machine F) : Instr → Except Trap (Machine F)
  | .movText dst text => match operandWord? text with
    | some v => .ok (m.set dst v)
    | none => .error .unknown
  | .movNat dst n => .ok (m.set dst (BitVec.ofNat 32 n))
  | .movReg dst src => .ok (m.set dst (m.get src))
  | .load src =>
      if src.width = .dword then .ok { m with eax := m.word (m.address p src) }
      else .error .unknown
  | .loadSigned src =>
      if src.width = .byte then .ok { m with eax := (m.mem (m.address p src)).signExtend 32 }
      else .error .unknown
  | .store dst =>
      if dst.width = .dword then
        .ok { m with mem := m.mem.write (m.address p dst) 4 m.eax.toNat }
      else .error .unknown
  | .storeByte dst =>
      if dst.width = .byte then
        .ok { m with mem := m.mem.write (m.address p dst) 1 m.eax.toNat }
      else .error .unknown
  | .set c => match m.flags with
    | some f => .ok { m with eax := (m.eax &&& ~~~0xFF) ||| ofTruth (c.holds f) }
    | none => .error .unknown
  | .widen => .ok { m with eax := m.eax &&& 0xFF }
  | .cmpZero => .ok { m with flags := some (.compare m.eax 0) }
  | .cmp => .ok { m with flags := some (.compare m.eax m.ecx) }
  | .alu op => .ok { m with eax := op.apply m.eax m.ecx, flags := none }
  | .neg => .ok { m with eax := -m.eax, flags := none }
  | .flip => .ok { m with eax := m.eax ^^^ 1, flags := none }
  | .cdq => .ok { m with edx := if m.eax.msb then -1 else 0 }
  | .idiv => m.divide
  | .push src =>
      let esp := m.esp - 4
      .ok { m with esp, mem := m.mem.write esp 4 (m.get src).toNat }
  | .pop dst => .ok ({ m with esp := m.esp + 4 }.set dst (m.word m.esp))
  | .release bytes => .ok { m with esp := m.esp + BitVec.ofNat 32 bytes, flags := none }
  | .reserve bytes => .ok { m with esp := m.esp - BitVec.ofNat 32 bytes, flags := none }
  | .fld src =>
      if src.width = .qword then
        .ok { m with fpu := m.number p.toFloats (m.address p src) :: m.fpu }
      else .error .unknown
  | .fldz => .ok { m with fpu := p.zero :: m.fpu }
  | .fild src =>
      if src.width = .dword then
        .ok { m with fpu := p.ofInt (m.word (m.address p src)) :: m.fpu }
      else .error .unknown
  | .fstp dst => match dst.width, m.fpu with
    | .qword, x :: rest =>
        .ok { m with fpu := rest, mem := m.mem.write (m.address p dst) 8 (p.toBits x).toNat }
    | _, _ => .error .unknown
  | .fdrop => match m.fpu with
    | _ :: rest => .ok { m with fpu := rest }
    | [] => .error .unknown
  | .fnip => match m.fpu with
    | x :: _ :: rest => .ok { m with fpu := x :: rest }
    | _ => .error .unknown
  | .fisttp dst => match dst.width, m.fpu with
    | .dword, x :: rest =>
        .ok { m with fpu := rest, mem := m.mem.write (m.address p dst) 4 (p.toInt x).toNat }
    | _, _ => .error .unknown
  | .fchs => match m.fpu with
    | x :: rest => .ok { m with fpu := p.neg x :: rest }
    | [] => .error .unknown
  | .fcomip => match m.fpu with
    | x :: y :: rest => .ok { m with fpu := y :: rest, flags := some (.ofOrder (p.compare x y)) }
    | _ => .error .unknown
  | .fpu op => match m.fpu with
    | x :: y :: rest => .ok { m with fpu := op.apply p.toFloats x y :: rest }
    | _ => .error .unknown
  | .fprem | .fnstsw | .sahf | .jmp _ | .je _ | .jp _ | .call _ | .ret | .trap =>
      .error .unknown

/-- Runs lines from the first to the last. -/
def run (p : Platform F) (m : Machine F) (lines : List Line) : Except Trap (Machine F) :=
  lines.foldlM (fun m line => match line with
    | .label _ => .ok m
    | .instr i => m.exec p i) m

variable (p : Platform F) (m : Machine F)

@[simp] theorem run_nil : m.run p [] = .ok m := rfl

@[simp] theorem run_code_nil : m.run p (code []) = .ok m := rfl

theorem run_append (first second : List Line) :
    m.run p (first ++ second) = (m.run p first).bind (·.run p second) :=
  List.foldlM_append

theorem run_code_cons (i : Instr) (rest : List Instr) :
    m.run p (code (i :: rest)) = (m.exec p i).bind (·.run p (code rest)) :=
  rfl

theorem run_code_append (first second : List Instr) :
    m.run p (code (first ++ second)) = (m.run p (code first)).bind (·.run p (code second)) := by
  rw [code, List.map_append]
  exact run_append p m _ _

end Machine

/-! ### Flags -/

theorem signs_compare (a b : BitVec 32) :
    ((Flags.compare a b).sign != (Flags.compare a b).overflow) = a.slt b := by
  have above (x : BitVec 32) : x.toInt < 0x80000000 := by
    have := BitVec.toInt_lt (x := x)
    omega
  have below (x : BitVec 32) : -0x80000000 ≤ x.toInt := by
    have := BitVec.le_toInt (x := x)
    omega
  have bounds := And.intro (above a) (And.intro (below a) (And.intro (above b) (below b)))
  simp only [Flags.compare, BitVec.msb_eq_toInt, BitVec.toInt_sub, BitVec.ssubOverflow,
    BitVec.slt_eq_decide, Int.bmod_def]
  rw [Bool.eq_iff_iff]
  simp only [bne_iff_ne, ne_eq]
  grind

/-- The test that an integer comparison makes of the flags, as an order of integers. -/
theorem holds_compare (a b : BitVec 32) :
    Cond.e.holds (.compare a b) = (a == b) ∧ Cond.ne.holds (.compare a b) = (a != b) ∧
      Cond.l.holds (.compare a b) = a.slt b ∧ Cond.le.holds (.compare a b) = a.sle b ∧
      Cond.g.holds (.compare a b) = b.slt a ∧ Cond.ge.holds (.compare a b) = b.sle a := by
  have differ := signs_compare a b
  have agree : ((Flags.compare a b).sign == (Flags.compare a b).overflow) = b.sle a := by
    rw [BitVec.sle_eq_not_slt, ← differ, bne, Bool.not_not]
  refine ⟨rfl, rfl, differ, ?_, ?_, agree⟩
  · rw [BitVec.sle_eq_slt_or_eq, Bool.or_comm, ← differ]
    rfl
  · rw [BitVec.slt_eq_sle_and_ne, Bool.and_comm, ← agree, bne, BEq.comm]
    rfl

end BraceLang.Assembly
