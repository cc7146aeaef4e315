/-!
The journal: what a compilation tells its observers while it works, one line an event. Nothing
reads the journal back; it only grows, in the order of the events.
-/

namespace BraceLang

/-- How much detail an observer asks for before a line is of interest. -/
inductive Level where
  | trace
  | debug
  | info
deriving DecidableEq, Repr

def Level.name : Level → String
  | trace => "TRACE"
  | debug => "DEBUG"
  | info => "INFO"

/-- One line of the journal. -/
structure Event where
  level : Level
  text : String
deriving DecidableEq, Repr

/-- The written form, the level before the text. -/
def Event.render (e : Event) : String := e.level.name ++ " " ++ e.text

/-- The events so far, oldest first. -/
abbrev Journal := Array Event

end BraceLang
