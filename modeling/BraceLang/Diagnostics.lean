import BraceLang.Finding
import BraceLang.Journal
import BraceLang.Position

/-!
The log of findings: entries in the order they were reported, each with its severity and
place, and the report made of them. Whoever runs a compilation asks `hasErrors` before
trusting what it produced.
-/

namespace BraceLang

inductive Severity where
  | info
  | warning
  | error
deriving DecidableEq, Repr

namespace Severity

def name : Severity → String
  | info => "info"
  | warning => "warning"
  | error => "error"

/-- The weight of a severity, errors weighing most. -/
def weight : Severity → Nat
  | info => 0
  | warning => 1
  | error => 2

/-- The graver of two severities. -/
def max (s t : Severity) : Severity := if s.weight ≤ t.weight then t else s

end Severity

/-- One reported finding. -/
structure Diagnostic where
  severity : Severity
  finding : Finding
  pos : Position
deriving DecidableEq, Repr

namespace Diagnostic

def message (d : Diagnostic) : String := d.finding.message

def isError (d : Diagnostic) : Bool := d.severity == .error

def isWarning (d : Diagnostic) : Bool := d.severity == .warning

/-- The line that the journal gets when the finding is reported. -/
def event (d : Diagnostic) : Event :=
  ⟨.debug, d.severity.name ++ " at " ++ d.pos.render ++ ": " ++ d.message⟩

/-- The paragraph of the report. -/
def render (d : Diagnostic) : String :=
  d.severity.name ++ ": " ++ d.message ++ "\n --> " ++ d.pos.render ++ "\n\n"

end Diagnostic

/-- Reported findings, oldest first. -/
structure Diagnostics where
  entries : List Diagnostic := []
deriving DecidableEq, Repr

namespace Diagnostics

def push (log : Diagnostics) (d : Diagnostic) : Diagnostics := ⟨log.entries ++ [d]⟩

def errors (log : Diagnostics) : List Diagnostic := log.entries.filter Diagnostic.isError

def errorCount (log : Diagnostics) : Nat := log.errors.length

def warningCount (log : Diagnostics) : Nat := log.entries.countP Diagnostic.isWarning

def hasErrors (log : Diagnostics) : Bool := log.entries.any Diagnostic.isError

/-- The gravest severity in the log. -/
def worst? (log : Diagnostics) : Option Severity :=
  log.entries.foldl (fun worst d => some (worst.elim d.severity (·.max d.severity))) none

/-- A count with its noun, in the plural unless there is one. -/
private def counted (n : Nat) (noun : String) : String :=
  toString n ++ " " ++ noun ++ (if n = 1 then "" else "s")

/-- The last line of a report that has entries. -/
def verdict (log : Diagnostics) : String :=
  if log.errorCount = 0 then "Build succeeded with " ++ counted log.warningCount "warning" ++ "\n"
  else "Build failed with " ++ counted log.errorCount "error" ++ "\n"

/-- The whole report. -/
def render (log : Diagnostics) : String :=
  if log.entries.isEmpty then "No errors were reported\n"
  else String.join (log.entries.map Diagnostic.render) ++ log.verdict

@[simp] theorem entries_push (log : Diagnostics) (d : Diagnostic) :
    (log.push d).entries = log.entries ++ [d] := rfl

/-- A log has errors exactly when it counts some. -/
theorem hasErrors_iff (log : Diagnostics) : log.hasErrors = true ↔ 0 < log.errorCount := by
  simp [hasErrors, errorCount, errors, List.length_pos_iff_exists_mem]

end Diagnostics

end BraceLang
