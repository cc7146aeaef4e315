import BraceLang.Journal
import BraceLang.Tac.Flow

/-!
Liveness: which names may still be read after each instruction. Globals are read wherever
control may leave the program and by every call.

Each name is a question of its own: whether it is live before and after every instruction. The
answers are found by sweeping over the code from its end, raising the flags of each place that
its successors ask for, until a sweep raises none. A flag that is up stays up, so there are no
more sweeps than flags.

A copy or computation into a name that is not live is dead, and `eliminate` drops it.
-/

namespace BraceLang.Tac

namespace Instr

/-- The names an instruction reads. The index of a destination counts for copies only. -/
def uses : Instr → List Name
  | function .. | label _ | goto _ | ret none => []
  | branch cond _ => cond.names
  | ret (some value) => value.names
  | copy source (.element _ index) => source.names ++ index.names
  | copy source _ => source.names
  | unary _ operand _ => operand.names
  | binary _ left right _ => left.names ++ right.names
  | call _ args _ => args.flatMap Operand.names

/-- The name an instruction gives a new value. An element is not the whole of its array. -/
def defines? : Instr → Option Name
  | call _ _ result => some (.temp result)
  | i => i.result?.bind Operand.name?

/-- The name whose copy or computation this is; nothing else can be dropped. -/
def target? (i : Instr) : Option Name := i.result?.bind Operand.name?

def isCall : Instr → Bool
  | call .. => true
  | _ => false

/-- The names an instruction mentions in any way that liveness looks at. -/
def names (i : Instr) : List Name := i.uses ++ i.defines?.toList

end Instr

/-- Whether a name is live before and after an instruction. -/
structure Point where
  before : Bool := false
  after : Bool := false
deriving DecidableEq, Repr

/-- How many flags of a point are up. -/
def Point.size (p : Point) : Nat := p.before.toNat + p.after.toNat

/-- The name may be read after a node, as far as the points so far tell. -/
def Node.liveAfter (isGlobal : Bool) (points : Array Point) (n : Node) : Bool :=
  (n.leaves && isGlobal) || n.next.any fun j => (points[j]?.getD {}).before

/-- The name may be read before a node, given whether it may be read after it. -/
def Node.liveBefore (name : Name) (isGlobal : Bool) (n : Node) (after : Bool) : Bool :=
  (after && n.instr.defines? != some name) || n.instr.uses.contains name ||
    (n.instr.isCall && isGlobal)

/-- Raises the flags of a point that its node asks for. -/
def Node.visit (name : Name) (isGlobal : Bool) (points : Array Point) (n : Node) (p : Point) :
    Point :=
  let after := p.after || n.liveAfter isGlobal points
  { before := p.before || n.liveBefore name isGlobal after, after }

/-- Visits the first `k` nodes, the last of them first. -/
def sweep (name : Name) (isGlobal : Bool) (nodes : Array Node) :
    Nat → Array Point → Array Point
  | 0, points => points
  | k + 1, points =>
      match nodes[k]?, points[k]? with
      | some n, some p =>
          sweep name isGlobal nodes k
            (points.setIfInBounds k (n.visit name isGlobal points p))
      | _, _ => sweep name isGlobal nodes k points

/-- How many flags are up. -/
def total (points : Array Point) : Nat := (points.toList.map Point.size).foldr (· + ·) 0

@[simp] theorem size_sweep (name : Name) (isGlobal : Bool) (nodes : Array Node) (k : Nat)
    (points : Array Point) : (sweep name isGlobal nodes k points).size = points.size := by
  induction k generalizing points with
  | zero => rfl
  | succ k ih =>
      unfold sweep
      split
      · rw [ih, Array.size_setIfInBounds]
      · exact ih points

theorem Point.size_le (p : Point) : p.size ≤ 2 := by
  obtain ⟨before, after⟩ := p
  cases before <;> cases after <;> decide

/-- A point has two flags. -/
theorem total_le (points : Array Point) : total points ≤ 2 * points.size := by
  obtain ⟨points⟩ := points
  simp only [total, List.size_toArray]
  induction points with
  | nil => exact Nat.le_refl 0
  | cons p rest ih =>
      have := p.size_le
      simp only [List.map_cons, List.foldr_cons, List.length_cons]
      omega

/-- The points of one name, with the number of sweeps it took to find them. -/
structure Trace where
  points : Array Point
  sweeps : Nat

/-- Sweeps until no flag is raised. -/
def converge (name : Name) (isGlobal : Bool) (nodes : Array Node) (points : Array Point)
    (sweeps : Nat) : Trace :=
  let swept := sweep name isGlobal nodes nodes.size points
  if total points < total swept then converge name isGlobal nodes swept (sweeps + 1)
  else ⟨swept, sweeps + 1⟩
termination_by 2 * points.size - total points
decreasing_by
  rename_i raised
  have bound := total_le (sweep name isGlobal nodes nodes.size points)
  change total points < total (sweep name isGlobal nodes nodes.size points) at raised
  rw [size_sweep] at bound ⊢
  omega

/-- Where a name is live. -/
def trace (globals : List String) (nodes : Array Node) (name : Name) : Trace :=
  converge name ((globals.map Name.var).contains name) nodes (Array.replicate nodes.size {}) 0

/-- The names of some code that can be live, each once. -/
def liveNames (globals : List String) (code : List Instr) : List Name :=
  (globals.map Name.var ++ code.flatMap Instr.names).eraseDups

/-- Where each name is live, in code of the given length. -/
structure Liveness where
  traces : List (Name × Trace)
  length : Nat

/-- The liveness of every name. -/
def liveness (globals : List String) (code : List Instr) : Liveness :=
  let nodes := flow code
  { traces := (liveNames globals code).map fun name => (name, trace globals nodes name)
    length := code.length }

namespace Liveness

/-- The names that are live after the instruction at a place. -/
def after (l : Liveness) (i : Nat) : List Name :=
  (l.traces.filter fun (_, t) => (t.points[i]?.getD {}).after).map Prod.fst

/-- The names that are live after each instruction, in the order of the code. -/
def out (l : Liveness) : List (List Name) := (List.range l.length).map l.after

/-- The sweeps that all names take together; code without names takes one. -/
def sweeps (l : Liveness) : Nat := l.traces.foldl (fun k (_, t) => max k t.sweeps) 1

end Liveness

/-- The names that are live after each instruction. -/
def liveOut (globals : List String) (code : List Instr) : List (List Name) :=
  (liveness globals code).out

/-- What the journal gets when liveness has been found. -/
def Liveness.event (l : Liveness) : Event :=
  ⟨.trace, "liveness converged after " ++ toString l.sweeps ++ " iterations"⟩

/-- The instruction only gives a value to a name that nothing reads any more. -/
def isDead (i : Instr) (live : List Name) : Bool := i.target?.any fun n => !live.contains n

/-- Code parted into what is kept and what is dead, with the liveness that tells them apart. -/
structure Elimination where
  kept : List Instr
  dead : List Instr
  liveness : Liveness

/-- Drops the dead instructions. -/
def eliminate (globals : List String) (code : List Instr) : Elimination :=
  let live := liveness globals code
  let marked := code.zip live.out
  { kept := (marked.filter fun (i, names) => !isDead i names).map Prod.fst
    dead := (marked.filter fun (i, names) => isDead i names).map Prod.fst
    liveness := live }

/-- What the journal gets for an elimination. -/
def Elimination.events (e : Elimination) : List Event :=
  e.liveness.event :: e.dead.map fun i => ⟨.trace, "dead: `" ++ i.render ++ "`"⟩

end BraceLang.Tac
