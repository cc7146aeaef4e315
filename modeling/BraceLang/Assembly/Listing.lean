import BraceLang.Assembly.Stmt

/-!
The assembly of a whole program: a header, the floating-point constants in `.data`, the
top-level variables in `.bss`, and the code in `.text`. The code starts with `_start`, which is
the top-level code followed by a call of `main` if there is one, and goes on with a routine for
every function defined at top level.
-/

namespace BraceLang.Assembly

/-- The code of a function. -/
structure Routine where
  name : String
  lines : List Line

/-- The assembly of a program. -/
structure Listing where
  /-- Functions that have to come from elsewhere. -/
  externals : List String
  /-- Floating-point constants, as they were written. -/
  constants : List String
  reservations : List Reservation
  /-- The code of `_start`. -/
  start : List Line
  routines : List Routine

/-! ### The interface of a program -/

namespace Interface

/-- A heading tells how its function is called; `void` parameters take no argument. -/
def addHeading (i : Interface) (h : Heading) : Interface :=
  let params := (h.params.map fun p => typeOf p.type.val).filter (· != .void)
  { i with conventions := i.conventions.set h.name.val ⟨typeOf h.result.val, params⟩ }

/-- What a top-level statement adds. -/
def addStmt (i : Interface) : Stmt → Interface
  | .prototype _ heading => i.addHeading heading
  | .define heading _ _ =>
      { i.addHeading heading with defined := i.defined ++ [heading.name.val] }
  | _ => i

def ofProgram (p : Program) : Interface := p.stmts.foldl addStmt {}

end Interface

/-! ### Code -/

/-- The bytes that an argument takes on the stack. -/
def argumentBytes (t : Ty) : Nat := pushedBytes t.domain

/-- Gives the parameters their places above the frame pointer, the first at `offset`. -/
def declareParams : Nat → List Param → Emit Unit
  | _, [] => return
  | offset, p :: rest => do
      let t := typeOf p.type.val
      match p.name with
      | none => pure ()
      | some name => declareSlot name.val ⟨t, .frame offset⟩
      declareParams (offset + argumentBytes t) rest

/-- What every routine starts with: a frame with room for its local variables. -/
def prologue (size : Nat) : List Instr :=
  [.push .ebp, .movReg .ebp .esp] ++ if 0 < size then [.reserve size] else []

/-- What every routine ends with. -/
def epilogue : List Line := .label .exit :: code [.movReg .esp .ebp, .pop .ebp, .ret]

/-- The return address and the caller's frame pointer stand below the first argument. -/
def firstArgument : Nat := 8

/-- The code of a function. Its parameters and its body share a scope. -/
def routine (iface : Interface) (h : Heading) (body : List Stmt) : EmitStmt Routine := do
  let name := h.name.val
  let result := typeOf h.result.val
  modify ({ · with frame := some { result } })
  openScope
  declareParams firstArgument h.params
  let lines ← stmts iface none body
  closeScope
  let bytes := ((← get).frame.map (·.size)).getD 0
  modify ({ · with frame := none })
  note ⟨.debug, s!"emitting function `{name}`, {bytes} bytes of locals"⟩
  return ⟨name, code (prologue bytes) ++ lines ++ code (defaultValue result) ++ epilogue⟩

/-- The functions defined at top level, in their order. -/
def routines (iface : Interface) : List Stmt → EmitStmt (List Routine)
  | [] => return []
  | .define heading _ body :: rest => do
      let r ← routine iface heading body
      return r :: (← routines iface rest)
  | _ :: rest => routines iface rest

/-- What `_start` does after the top-level code: it calls `main`, if there is one, and ends the
process with the result. -/
def finish (iface : Interface) : Emit (List Line) := do
  let exit := .label .exit :: code [.movReg .ebx .eax, .movNat .eax 1, .trap]
  if iface.defined.contains "main" then
    let (lines, d?) ← call iface "main" []
    return lines ++ code (if d? = some .float then toInt else []) ++ exit
  else return code [.movNat .eax 0] ++ exit

/-- The assembly of a program, from a fresh state. -/
def listing (p : Program) : EmitStmt Listing := do
  let iface := Interface.ofProgram p
  openScope
  let top ← stmts iface none p.stmts
  let last ← finish iface
  let rs ← routines iface p.stmts
  let s ← get
  return { externals := s.externals.mergeSort (· ≤ ·), constants := s.constants,
           reservations := s.reservations, start := top ++ last, routines := rs }

/-! ### The written form -/

/-- The line of the `.data` section; a constant may not start with a point there. -/
def constantLine (i : Nat) (text : String) : String :=
  constantLabel i ++ ":\tdq " ++ (if text.toList.head? = some '.' then "0" else "") ++ text ++ "\n"

def renderLines (lines : List Line) : String := String.join (lines.map Line.render)

def Routine.render (r : Routine) : String := "\n" ++ r.name ++ ":\n" ++ renderLines r.lines

def Listing.render (l : Listing) : String :=
  "; generado por minic\nbits 32\nglobal _start\n" ++
    String.join (l.externals.map fun name => "extern " ++ name ++ "\n") ++
    "\nsection .data\n" ++ String.join (l.constants.mapIdx constantLine) ++
    "\nsection .bss\n" ++ String.join (l.reservations.map Reservation.render) ++
    "\nsection .text\n_start:\n" ++ renderLines l.start ++
    String.join (l.routines.map Routine.render)

end BraceLang.Assembly

namespace BraceLang

/-- The assembly of a program, or the fault of a frame that does not fit, with what the journal
got up to there. -/
def Program.assemble (p : Program) : Except Assembly.Fault Assembly.Listing × Journal :=
  let (result, s) := (Assembly.listing p).run.run {}
  (result, s.env.journal)

end BraceLang
