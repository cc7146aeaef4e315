import BraceLang.Assoc
import BraceLang.Journal

/-!
Lexical scopes. A stack of scopes has the global scope at its bottom; a name is looked up from
the innermost scope outwards, so an inner declaration hides an outer one for as long as its
scope is open. No operation fails: absence is `none`, a refused declaration is `none`, and the
caller decides what either means.

The stack is generic in what a name stands for. Checking keeps symbols in it, lowering keeps
unique names, and the assembly keeps storage.
-/

namespace BraceLang

variable {α : Type}

/-- The names of one scope, in the order they were declared. -/
abbrev Scope (α : Type) := Assoc String α

/-- Adds a name to a scope, unless it is there already. -/
def Scope.declare? (s : Scope α) (name : String) (a : α) : Option (Scope α) :=
  if s.contains name then none else some ⟨s.entries ++ [(name, a)]⟩

theorem Scope.get?_declare? {s s' : Scope α} {name : String} {a : α}
    (h : Scope.declare? s name a = some s') (other : String) :
    s'.get? other = if other = name then some a else s.get? other := by
  unfold Scope.declare? at h
  split at h
  · contradiction
  · rename_i absent
    obtain rfl := Option.some.inj h
    have none' : s.entries.lookup name = none :=
      Option.not_isSome_iff_eq_none.mp absent
    by_cases same : other = name
    · subst same
      simp [Assoc.get?, List.lookup_append, none']
    · have differ : (other == name) = false := by simpa using same
      simp [Assoc.get?, List.lookup_append, List.lookup_cons, same, differ]

/-- Open scopes, the innermost first and the global one last. -/
structure ScopeStack (α : Type) where
  scopes : List (Scope α) := []

namespace ScopeStack

/-- How many scopes are open. -/
def depth (t : ScopeStack α) : Nat := t.scopes.length

/-- The current scope is the global one. -/
def isGlobal (t : ScopeStack α) : Bool := t.depth == 1

def push (t : ScopeStack α) : ScopeStack α := ⟨{} :: t.scopes⟩

/-- The innermost scope and the stack without it. -/
def pop? (t : ScopeStack α) : Option (Scope α × ScopeStack α) :=
  match t.scopes with
  | [] => none
  | s :: rest => some (s, ⟨rest⟩)

/-- The global scope. -/
def global? (t : ScopeStack α) : Option (Scope α) := t.scopes.getLast?

/-- The name stands in the current scope itself. -/
def declaredHere (t : ScopeStack α) (name : String) : Bool :=
  t.scopes.head?.any (·.contains name)

/-- What the name stands for in the innermost scope that has it. -/
def lookup (t : ScopeStack α) (name : String) : Option α := t.scopes.findSome? (·.get? name)

/-- What the name stands for in the global scope. -/
def lookupGlobal (t : ScopeStack α) (name : String) : Option α := t.global?.bind (·.get? name)

/-- Declares in the current scope; `none` if there is no scope or the name is taken. -/
def declare? (t : ScopeStack α) (name : String) (a : α) : Option (ScopeStack α) :=
  match t.scopes with
  | [] => none
  | s :: rest => (Scope.declare? s name a).map fun s => ⟨s :: rest⟩

/-- Applies a change to the last member of a list. -/
def onLast (f : Scope α → Option (Scope α)) : List (Scope α) → Option (List (Scope α))
  | [] => none
  | [s] => (f s).map ([·])
  | s :: rest => (onLast f rest).map (s :: ·)

/-- Declares in the global scope, however deep the current one is. -/
def declareGlobal? (t : ScopeStack α) (name : String) (a : α) : Option (ScopeStack α) :=
  (onLast (Scope.declare? · name a) t.scopes).map (⟨·⟩)

/-- Changes the innermost scope that has the name. -/
def updateIn (name : String) (f : α → α) : List (Scope α) → List (Scope α)
  | [] => []
  | s :: rest => if s.contains name then s.update name f :: rest else s :: updateIn name f rest

/-- Changes what the visible entry of a name stands for. -/
def update (t : ScopeStack α) (name : String) (f : α → α) : ScopeStack α :=
  ⟨updateIn name f t.scopes⟩

/-- Changes what a name of the global scope stands for. -/
def updateGlobal (t : ScopeStack α) (name : String) (f : α → α) : ScopeStack α :=
  match onLast (fun s => some (s.update name f)) t.scopes with
  | some scopes => ⟨scopes⟩
  | none => t

/-- Everything declared in any open scope, the global scope first. -/
def values (t : ScopeStack α) : List α := t.scopes.reverse.flatMap (·.values)

@[simp] theorem depth_push (t : ScopeStack α) : t.push.depth = t.depth + 1 := rfl

@[simp] theorem pop?_push (t : ScopeStack α) : t.push.pop? = some ({}, t) := rfl

@[simp] theorem lookup_push (t : ScopeStack α) (name : String) :
    t.push.lookup name = t.lookup name := rfl

/-- A new declaration is what its name stands for, and changes no other name. -/
theorem lookup_declare? {t t' : ScopeStack α} {name : String} {a : α}
    (h : t.declare? name a = some t') (other : String) :
    t'.lookup other = if other = name then some a else t.lookup other := by
  obtain ⟨scopes⟩ := t
  cases scopes with
  | nil => contradiction
  | cons s rest =>
      obtain ⟨s', hs, rfl⟩ := Option.map_eq_some_iff.mp h
      simp only [lookup, List.findSome?_cons, Scope.get?_declare? hs other]
      by_cases same : other = name <;> simp [same]

theorem depth_declare? {t t' : ScopeStack α} {name : String} {a : α}
    (h : t.declare? name a = some t') : t'.depth = t.depth := by
  obtain ⟨scopes⟩ := t
  cases scopes with
  | nil => contradiction
  | cons s rest =>
      obtain ⟨s', _, rfl⟩ := Option.map_eq_some_iff.mp h
      rfl

theorem length_updateIn (name : String) (f : α → α) (scopes : List (Scope α)) :
    (updateIn name f scopes).length = scopes.length := by
  induction scopes with
  | nil => rfl
  | cons s rest ih =>
      unfold updateIn
      split
      · rfl
      · simp [ih]

@[simp] theorem depth_update (t : ScopeStack α) (name : String) (f : α → α) :
    (t.update name f).depth = t.depth := length_updateIn name f t.scopes

/-- An update changes what its name stands for, and no other name. -/
theorem lookup_update (t : ScopeStack α) (name : String) (f : α → α) (other : String) :
    (t.update name f).lookup other =
      if other = name then (t.lookup other).map f else t.lookup other := by
  obtain ⟨scopes⟩ := t
  simp only [lookup, update]
  induction scopes with
  | nil => simp [updateIn]
  | cons s rest ih =>
      unfold updateIn
      split
      · rename_i present
        by_cases same : other = name
        · subst same
          obtain ⟨a, ha⟩ := Option.isSome_iff_exists.mp present
          simp [Assoc.get?_update, ha]
        · simp only [List.findSome?_cons, Assoc.get?_update, if_neg same]
      · rename_i absent
        by_cases same : other = name
        · subst same
          have none' : s.get? other = none := by simpa [Assoc.contains] using absent
          simpa [none'] using ih
        · simp only [List.findSome?_cons, ih, if_neg same]

end ScopeStack

/-- Open scopes together with the journal their changes are noted in. -/
structure Env (α : Type) where
  stack : ScopeStack α := {}
  journal : Journal := #[]

namespace Env

def note (e : Env α) (event : Event) : Env α := { e with journal := e.journal.push event }

def enter (e : Env α) : Env α :=
  let depth := e.stack.depth + 1
  { e with stack := e.stack.push }.note ⟨.trace, s!"push scope, depth={depth}"⟩

/-- Closes the current scope and hands out its contents. -/
def leave (e : Env α) : Option (Scope α) × Env α :=
  match e.stack.pop? with
  | none => (none, e)
  | some (scope, rest) =>
      let depth := rest.depth
      (some scope, { e with stack := rest }.note ⟨.trace, s!"pop scope, depth={depth}"⟩)

/-- Takes over a changed stack and notes the name, or keeps all as it is. -/
def declared (e : Env α) (name : String) : Option (ScopeStack α) → Bool × Env α
  | none => (false, e)
  | some stack => (true, { e with stack }.note ⟨.trace, s!"declare `{name}`"⟩)

def declare (e : Env α) (name : String) (a : α) : Bool × Env α :=
  e.declared name (e.stack.declare? name a)

def declareGlobal (e : Env α) (name : String) (a : α) : Bool × Env α :=
  e.declared name (e.stack.declareGlobal? name a)

def update (e : Env α) (name : String) (f : α → α) : Env α :=
  { e with stack := e.stack.update name f }

def updateGlobal (e : Env α) (name : String) (f : α → α) : Env α :=
  { e with stack := e.stack.updateGlobal name f }

@[simp] theorem stack_note (e : Env α) (event : Event) : (e.note event).stack = e.stack := rfl

@[simp] theorem stack_enter (e : Env α) : e.enter.stack = e.stack.push := rfl

end Env

end BraceLang
