/-!
Places in a source text. Every node that can be blamed for a finding carries a line and a
column, both counted from one; places are compared line first.
-/

namespace BraceLang

/-- A line and a column, both counted from one. -/
structure Position where
  line : Nat := 1
  column : Nat := 1
deriving DecidableEq, Repr, Inhabited

namespace Position

/-- The written form, `line:column`. -/
def render (p : Position) : String := toString p.line ++ ":" ++ toString p.column

/-- Line first, then column. -/
def compare (p q : Position) : Ordering :=
  (Ord.compare p.line q.line).then (Ord.compare p.column q.column)

/-- `p` stands at `q` or before it. -/
def notAfter (p q : Position) : Bool := p.compare q != .gt

end Position

/-- A value together with the place it was written at. -/
structure Located (α : Type) where
  val : α
  pos : Position := {}
deriving DecidableEq, Repr

/-- The written form of a located text, `value (line:column)`. -/
def Located.render (x : Located String) : String := x.val ++ " (" ++ x.pos.render ++ ")"

end BraceLang
