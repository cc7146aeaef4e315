import BraceLang.Assembly.Listing
import BraceLang.Check.Stmt
import BraceLang.Tac.Lower
import BraceLang.Tac.Optimize

/-!
Compilation of a whole program, from a syntax tree to the findings, the three-address code
before and after optimization, and the assembly. Findings do not stop a compilation; only a
frame that does not fit does.
-/

namespace BraceLang

/-- The parts of a compilation that can be left out. -/
structure Options where
  /-- Without it the optimized code is a copy of the code. -/
  optimize : Bool := true
  assembly : Bool := true

/-- What a compilation yields. -/
structure Compilation where
  diagnostics : Diagnostics
  stats : Statistics
  code : Tac.Code
  optimized : Tac.Code
  /-- The text of the assembly, unless it was left out. -/
  assembly : Option String

/-- Checking found no errors. -/
def Compilation.succeeded (c : Compilation) : Bool := !c.diagnostics.hasErrors

/-- What the journal gets when the three-address code is finished. -/
def codeEvent (code optimized : Tac.Code) : Event :=
  ⟨.debug, "intermediate code: " ++ toString code.instrs.length ++ " instructions, " ++
    toString optimized.instrs.length ++ " after optimization"⟩

/-- Compiles a program; the journal comes with either outcome. -/
def Program.compile (p : Program) (options : Options := {}) :
    Except Assembly.Fault Compilation × Journal :=
  let checked := p.check
  let (code, loweringJournal) := p.lower
  let (optimized, optimizationJournal) := if options.optimize then code.optimize else (code, #[])
  let journal := (checked.journal ++ loweringJournal ++ optimizationJournal).push
    (codeEvent code optimized)
  let compilation (assembly : Option String) : Compilation :=
    { diagnostics := checked.diagnostics, stats := checked.stats, code, optimized, assembly }
  if options.assembly then
    let (listing, assemblyJournal) := p.assemble
    (listing.map fun l => compilation (some l.render), journal ++ assemblyJournal)
  else (.ok (compilation none), journal)

end BraceLang
