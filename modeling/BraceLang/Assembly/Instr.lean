/-!
Assembly code for a 32-bit x86 processor with an x87 floating-point stack: the instructions in
use, each shape a constructor of its own, and their written form. Integer values live in `eax`,
with `ecx` and `edx` as helpers; floating-point values live on top of the x87 stack, in `st0`.

An instruction is written after a tab. If it has operands, its mnemonic fills eight columns.
-/

namespace BraceLang.Assembly

inductive Reg where
  | eax
  | ebx
  | ecx
  | edx
  | esp
  | ebp
deriving DecidableEq, Repr

def Reg.name : Reg → String
  | eax => "eax"
  | ebx => "ebx"
  | ecx => "ecx"
  | edx => "edx"
  | esp => "esp"
  | ebp => "ebp"

inductive Width where
  | byte
  | dword
  | qword
deriving DecidableEq, Repr

def Width.name : Width → String
  | byte => "byte"
  | dword => "dword"
  | qword => "qword"

/-- What an address starts from. -/
inductive Base where
  /-- A label of a data section. -/
  | label (name : String)
  /-- A distance from the frame pointer `ebp`. -/
  | frame (offset : Int)
  /-- The top of the stack, `esp`. -/
  | top
deriving DecidableEq, Repr

/-- A place in memory. With a scale, `ecx` times the scale is added to the address. -/
structure Mem where
  width : Width
  base : Base
  scale : Option Nat := none
deriving DecidableEq, Repr

def Mem.render (m : Mem) : String :=
  let index := (m.scale.map fun k => " + ecx*" ++ toString k).getD ""
  let address := match m.base with
    | .label name => name ++ index
    | .frame offset =>
        if offset < 0 then "ebp" ++ index ++ " - " ++ toString (-offset)
        else "ebp" ++ index ++ " + " ++ toString offset
    | .top => "esp" ++ index
  m.width.name ++ " [" ++ address ++ "]"

/-- A jump target inside a unit of code. -/
inductive Target where
  | numbered (n : Nat)
  /-- Where all returns of a unit meet. -/
  | exit
deriving DecidableEq, Repr

def Target.render : Target → String
  | numbered n => ".L" ++ toString n
  | exit => ".exit"

/-- The conditions that `set` instructions test: equality, and order of signed integers or of
what a floating-point comparison leaves in the flags. -/
inductive Cond where
  | e
  | ne
  | l
  | le
  | g
  | ge
  | b
  | be
  | a
  | ae
deriving DecidableEq, Repr

def Cond.suffix : Cond → String
  | e => "e"
  | ne => "ne"
  | l => "l"
  | le => "le"
  | g => "g"
  | ge => "ge"
  | b => "b"
  | be => "be"
  | a => "a"
  | ae => "ae"

/-- Operations on `eax` with `ecx`, the result in `eax`. -/
inductive Alu where
  | add
  | sub
  | imul
  | and
  | or
deriving DecidableEq, Repr

def Alu.mnemonic : Alu → String
  | add => "add"
  | sub => "sub"
  | imul => "imul"
  | and => "and"
  | or => "or"

/-- Operations of `st0` with `st1` that leave their result as the new `st0`. -/
inductive Fpu where
  | add
  /-- `st0 - st1`. -/
  | sub
  | mul
  /-- `st0 / st1`. -/
  | div
deriving DecidableEq, Repr

def Fpu.mnemonic : Fpu → String
  | add => "faddp"
  | sub => "fsubrp"
  | mul => "fmulp"
  | div => "fdivrp"

inductive Instr where
  /-- `mov reg, text`: a constant as it is written. -/
  | movText (dst : Reg) (text : String)
  | movNat (dst : Reg) (n : Nat)
  | movReg (dst src : Reg)
  | load (src : Mem)
  /-- Loads a byte with its sign. -/
  | loadSigned (src : Mem)
  | store (dst : Mem)
  /-- Stores the low byte of `eax`. -/
  | storeByte (dst : Mem)
  /-- Puts the outcome of a test into the low byte of `eax`. -/
  | set (c : Cond)
  /-- Extends the low byte of `eax` to all of it. -/
  | widen
  | cmpZero
  | cmp
  | alu (op : Alu)
  | neg
  /-- Swaps 0 and 1 in `eax`. -/
  | flip
  | cdq
  | idiv
  | push (src : Reg)
  | pop (dst : Reg)
  /-- Gives stack space back. -/
  | release (bytes : Nat)
  /-- Takes stack space. -/
  | reserve (bytes : Nat)
  | fld (src : Mem)
  | fldz
  | fild (src : Mem)
  | fstp (dst : Mem)
  /-- Drops `st0`. -/
  | fdrop
  /-- Drops `st1`. -/
  | fnip
  /-- Stores `st0` as an integer, rounded toward zero, and drops it. -/
  | fisttp (dst : Mem)
  | fchs
  /-- Compares `st0` with `st1`, sets the flags and drops `st0`. -/
  | fcomip
  | fpu (op : Fpu)
  | fprem
  | fnstsw
  | sahf
  | jmp (target : Target)
  /-- Jumps if the last comparison found equality. -/
  | je (target : Target)
  /-- Jumps if a partial remainder is not complete. -/
  | jp (target : Target)
  | call (name : String)
  | ret
  /-- Calls the operating system. -/
  | trap
deriving DecidableEq, Repr

namespace Instr

/-- The mnemonic and the operands. -/
def parts : Instr → String × List String
  | movText dst text => ("mov", [dst.name, text])
  | movNat dst n => ("mov", [dst.name, toString n])
  | movReg dst src => ("mov", [dst.name, src.name])
  | load src => ("mov", ["eax", src.render])
  | loadSigned src => ("movsx", ["eax", src.render])
  | store dst => ("mov", [dst.render, "eax"])
  | storeByte dst => ("mov", [dst.render, "al"])
  | set c => ("set" ++ c.suffix, ["al"])
  | widen => ("movzx", ["eax", "al"])
  | cmpZero => ("cmp", ["eax", "0"])
  | cmp => ("cmp", ["eax", "ecx"])
  | alu op => (op.mnemonic, ["eax", "ecx"])
  | neg => ("neg", ["eax"])
  | flip => ("xor", ["eax", "1"])
  | cdq => ("cdq", [])
  | idiv => ("idiv", ["ecx"])
  | push src => ("push", [src.name])
  | pop dst => ("pop", [dst.name])
  | release bytes => ("add", ["esp", toString bytes])
  | reserve bytes => ("sub", ["esp", toString bytes])
  | fld src => ("fld", [src.render])
  | fldz => ("fldz", [])
  | fild src => ("fild", [src.render])
  | fstp dst => ("fstp", [dst.render])
  | fdrop => ("fstp", ["st0"])
  | fnip => ("fstp", ["st1"])
  | fisttp dst => ("fisttp", [dst.render])
  | fchs => ("fchs", [])
  | fcomip => ("fcomip", ["st0", "st1"])
  | fpu op => (op.mnemonic, ["st1", "st0"])
  | fprem => ("fprem", [])
  | fnstsw => ("fnstsw", ["ax"])
  | sahf => ("sahf", [])
  | jmp target => ("jmp", [target.render])
  | je target => ("je", [target.render])
  | jp target => ("jp", [target.render])
  | call name => ("call", [name])
  | ret => ("ret", [])
  | trap => ("int", ["0x80"])

/-- Fills a mnemonic up to eight columns. -/
def column (mnemonic : String) : String :=
  mnemonic ++ String.ofList (List.replicate (8 - mnemonic.length) ' ')

def render (i : Instr) : String :=
  match i.parts with
  | (mnemonic, []) => "\t" ++ mnemonic
  | (mnemonic, operands) => "\t" ++ column mnemonic ++ ", ".intercalate operands

end Instr

/-- A line of code: a jump target or an instruction. -/
inductive Line where
  | label (t : Target)
  | instr (i : Instr)
deriving DecidableEq, Repr

def Line.render : Line → String
  | label t => t.render ++ ":\n"
  | instr i => i.render ++ "\n"

/-- Instructions as lines. -/
def code (instrs : List Instr) : List Line := instrs.map .instr

@[simp] theorem code_append (first second : List Instr) :
    code (first ++ second) = code first ++ code second := List.map_append

end BraceLang.Assembly
