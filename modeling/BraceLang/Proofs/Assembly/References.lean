import BraceLang.Proofs.Assembly.Outline

/-!
What code refers to: the labels of its memory operands, the functions it calls and the literals it
is made with. Constants, reservations and external functions are collected on the way, and a use of
one and its record are in different parts of the assembly.

`Makes` says once what lines refer to and what of it has been recorded behind them.

**Main results.** `makes_expr`, `Outline.makes`: what the code of expressions and of statements
refers to.
-/

namespace BraceLang.Assembly

variable {iface : Interface} {s s' s₁ : State} {lines first second : List Line}

/-! ### References -/

/-- The label of a data section that an address starts from. -/
def Mem.label? (m : Mem) : Option String :=
  match m.base with
  | .label name => some name
  | .frame _ | .top => none

namespace Instr

/-- The label in the memory operand. -/
def address? : Instr → Option String
  | load m | loadSigned m | store m | storeByte m | fld m | fild m | fstp m | fisttp m => m.label?
  | _ => none

/-- The function that is called. -/
def callee? : Instr → Option String
  | call name => some name
  | _ => none

/-- The constant, as it is written. -/
def text? : Instr → Option String
  | movText _ text => some text
  | _ => none

/-- The instruction refers to nothing. -/
def isSilent (i : Instr) : Bool := i.address?.isNone && i.callee?.isNone && i.text?.isNone

end Instr

def Line.instr? : Line → Option Instr
  | label _ => none
  | instr i => some i

def addresses (lines : List Line) : List String :=
  lines.filterMap fun x => x.instr?.bind (·.address?)

def callees (lines : List Line) : List String := lines.filterMap fun x => x.instr?.bind (·.callee?)

def texts (lines : List Line) : List String := lines.filterMap fun x => x.instr?.bind (·.text?)

@[simp] theorem addresses_append (first second : List Line) :
    addresses (first ++ second) = addresses first ++ addresses second := List.filterMap_append

@[simp] theorem callees_append (first second : List Line) :
    callees (first ++ second) = callees first ++ callees second := List.filterMap_append

@[simp] theorem texts_append (first second : List Line) :
    texts (first ++ second) = texts first ++ texts second := List.filterMap_append

/-- The lines refer to nothing. -/
def Silent (lines : List Line) : Prop := lines.all (fun x => x.instr?.all Instr.isSilent) = true

namespace Silent

theorem append (one : Silent first) (other : Silent second) : Silent (first ++ second) := by
  rw [Silent, List.all_append, one, other]
  rfl

theorem none_of {f : Instr → Option String} (silent : Silent lines)
    (silences : ∀ i, i.isSilent = true → f i = none) :
    lines.filterMap (fun x => x.instr?.bind f) = [] := by
  rw [List.filterMap_eq_nil_iff]
  intro x mem
  have here := List.all_eq_true.mp silent x mem
  cases is : x.instr? with
  | none => rfl
  | some i =>
      rw [is] at here
      exact silences i here

theorem addresses_eq (silent : Silent lines) : addresses lines = [] :=
  silent.none_of fun i is => by simp_all [Instr.isSilent]

theorem callees_eq (silent : Silent lines) : callees lines = [] :=
  silent.none_of fun i is => by simp_all [Instr.isSilent]

theorem texts_eq (silent : Silent lines) : texts lines = [] :=
  silent.none_of fun i is => by simp_all [Instr.isSilent]

end Silent

/-! ### Fixed sequences -/

theorem silent_convert (d : Domain) (t : Ty) : Silent (code (convert d t)) := by
  cases d <;> cases t <;> rfl

theorem silent_pushValue (d : Domain) : Silent (code (pushValue d)) := by cases d <;> rfl

theorem silent_dropValue (d : Domain) : Silent (code (dropValue d)) := by cases d <;> rfl

theorem silent_unaryOp (op : UnOp) (d : Domain) : Silent (code (unaryOp op d).1) := by
  cases op <;> cases d <;> rfl

theorem silent_pushArg (d : Domain) (t? : Option Ty) : Silent (code (pushArg d t?).1) := by
  cases t? with
  | none => exact silent_pushValue d
  | some t =>
      rw [pushArg, code_append]
      exact (silent_convert d t).append (silent_pushValue t.domain)

theorem silent_defaultValue (t : Ty) : Silent (code (defaultValue t)) := by cases t <;> rfl

theorem silent_binaryOp (op : BinOp) (left right : Domain) (s : State) :
    Silent (binaryOp op left right s).1.1 := by
  cases op <;> cases left <;> cases right <;> rfl

theorem silent_prologue (size : Nat) : Silent (code (prologue size)) := by
  unfold prologue
  split <;> rfl

theorem silent_epilogue : Silent epilogue := rfl

/-! ### Lexemes -/

/-- What of a program gets into the text of its assembly. -/
inductive Lexeme where
  | literal (value : Literal)
  | called (name : String)
  | declared (name : String)

namespace Lexeme

/-- The text of a floating-point literal, which is kept as a constant. -/
def float? : Lexeme → Option String
  | literal (.number text) => if hasPoint text then some text else none
  | _ => none

/-- The text of another literal, as an operand. -/
def text? : Lexeme → Option String
  | literal (.number text) => if hasPoint text then none else some text
  | literal (.char text) => some (charText text)
  | _ => none

def callee? : Lexeme → Option String
  | called name => some name
  | _ => none

end Lexeme

mutual

/-- The lexemes of an expression, in the order that its code is made in. -/
def lexemes : Expr → List Lexeme
  | .literal _ value => [.literal value]
  | .var .. => []
  | .element _ _ index => lexemes index
  | .unary _ _ operand => lexemes operand
  | .binary _ _ left right => lexemes left ++ lexemes right
  | .call _ name args => lexemesOf args ++ [.called name.val]

/-- Code for arguments is made from the last to the first. -/
def lexemesOf : List Expr → List Lexeme
  | [] => []
  | arg :: args => lexemesOf args ++ lexemes arg

end

/-- Code for the action can be made with these lexemes. -/
def Action.Emits : Action → List Lexeme → Prop
  | test cond, ls => ls = lexemes cond
  | declare d, ls => ls = d.init.elim [] lexemes ++ [.declared d.name.val]
  -- Where the target has no storage, no code is made for its index.
  | assign _ index value, ls => ls = index.elim [] lexemes ++ lexemes value ∨ ls = lexemes value
  | call callee args, ls => ls = lexemesOf args ++ [.called callee.val]
  | finish value, ls => ls = value.elim [] lexemes

/-- Code for the part can be made with these lexemes. -/
inductive Emits : Part → List Lexeme → Prop
  | nil : Emits (.all []) []
  | cons {x rest first others} (one : Emits (.one x) first) (all : Emits (.all rest) others) :
      Emits (.all (x :: rest)) (first ++ others)
  | act {x action ls} (is : Stmt.action? x = some action) (emits : action.Emits ls) :
      Emits (.one x) ls
  | function {x} (is : Stmt.isFunction x = true) : Emits (.one x) []
  | block {braces body ls} (inside : Emits (.all body) ls) : Emits (.one (.block braces body)) ls
  | ifThen {cond braces body ls} (inside : Emits (.all body) ls) :
      Emits (.one (.ifThen cond braces body)) (lexemes cond ++ ls)
  | ifElse {cond braces body elseBraces elseBody ls others} (inside : Emits (.all body) ls)
      (otherwise : Emits (.all elseBody) others) :
      Emits (.one (.ifElse cond braces body elseBraces elseBody)) (lexemes cond ++ ls ++ others)
  | whileLoop {cond braces body ls} (inside : Emits (.all body) ls) :
      Emits (.one (.whileLoop cond braces body)) (lexemes cond ++ ls)
  | forLoop {init cond update braces body before ls again}
      (starts : Emits (.all init.toList) before) (inside : Emits (.all body) ls)
      (updates : Emits (.all update.toList) again) :
      Emits (.one (.forLoop init cond update braces body)) (before ++ lexemes cond ++ ls ++ again)
  | breakLoop {site} : Emits (.one (.breakLoop site)) []
  | continueLoop {site} : Emits (.one (.continueLoop site)) []
  | returnValue {site value} : Emits (.one (.returnValue site value)) (value.elim [] lexemes)

/-! ### What is recorded -/

/-- The label is one of the constants. -/
def isConstant (label : String) : Bool := "_cd".toList.isPrefixOf label.toList

/-- The label stands for the constant with this text. -/
def Holds (constants : List String) (label text : String) : Prop :=
  ∃ i, label = constantLabel i ∧ constants[i]? = some text

theorem isConstant_constantLabel (i : Nat) : isConstant (constantLabel i) = true := by
  simp [isConstant, constantLabel]

theorem Holds.isConstant {constants : List String} {label text : String}
    (holds : Holds constants label text) : isConstant label = true := by
  obtain ⟨i, rfl, -⟩ := holds
  exact isConstant_constantLabel i

theorem Holds.mono {constants constants' : List String} {label text : String}
    (holds : Holds constants label text) (more : constants <+: constants') :
    Holds constants' label text := by
  obtain ⟨i, is, found⟩ := holds
  exact ⟨i, is, getElem?_of_grown more found⟩

theorem exists_holds {constants labels texts : List String}
    (loads : List.Forall₂ (Holds constants) labels texts) :
    ∀ label ∈ labels, ∃ text, Holds constants label text := by
  induction loads with
  | nil => exact nofun
  | cons holds _ ih => exact List.forall_mem_cons.mpr ⟨⟨_, holds⟩, ih⟩

/-- There is space with this label. -/
def Reserves (rs : List Reservation) (label : String) : Prop := ∃ r ∈ rs, r.label = label

/-- Labels of top-level variables begin alike. -/
theorem isConstant_reservationLabel (rs : List Reservation) (name : String) :
    isConstant (reservationLabel rs name) = false := by
  unfold reservationLabel
  split <;> simp [isConstant, List.isPrefixOf]

theorem reserveSpace_cases (rs : List Reservation) (name : String) (t : Ty) (count : Nat) :
    (∃ r ∈ rs, reserveSpace rs name t count = (r.label, rs)) ∨
      reserveSpace rs name t count = (reservationLabel rs name,
        rs ++ [⟨name, t, count, reservationLabel rs name⟩]) := by
  unfold reserveSpace
  split
  · rename_i r found
    exact .inl ⟨r, List.mem_of_find?_eq_some found, rfl⟩
  · exact .inr rfl

/-- The variables with labels have space, and the labels are those of top-level variables. -/
structure Grounded (s : State) : Prop where
  slots : ∀ l ∈ s.env.stack.views Slot.place, ∀ name label, l name = some (.global label) →
    Reserves s.reservations label
  labels : ∀ r ∈ s.reservations, ∃ rs, r.label = reservationLabel rs r.name

theorem Grounded.grow (grounded : Grounded s) (grows : s.Grows s') : Grounded s' where
  slots := by
    rw [grows.stack, grows.reservations]
    exact grounded.slots
  labels := by
    rw [grows.reservations]
    exact grounded.labels

/-- No space is taken for a constant. -/
theorem Grounded.notConstant (grounded : Grounded s) {r : Reservation}
    (mem : r ∈ s.reservations) : isConstant r.label = false := by
  obtain ⟨rs, is⟩ := grounded.labels r mem
  rw [is]
  exact isConstant_reservationLabel rs r.name

/-- A variable that is kept under a label has space there. -/
theorem Grounded.lookup (grounded : Grounded s) {name : String} {slot : Slot}
    (found : s.env.stack.lookup name = some slot) {label : String}
    (isGlobal : slot.place = .global label) : Reserves s.reservations label := by
  have look : View.look (s.env.stack.views Slot.place) name = some (.global label) := by
    rw [← ScopeStack.lookup_views, found, ← isGlobal]
    rfl
  obtain ⟨l, mem, here⟩ := List.exists_of_findSome?_eq_some look
  exact grounded.slots l mem name label here

/-- The lines are made with the lexemes, in the order that they are used in, and what the lines
refer to has been recorded. -/
structure Makes (iface : Interface) (s : State) (lines : List Line) (ls : List Lexeme)
    (s' : State) : Prop where
  constants : s.constants <+: s'.constants
  reservations : s.reservations <+: s'.reservations
  newer : ∀ r ∈ s'.reservations, r ∈ s.reservations ∨ .declared r.name ∈ ls
  written : ∀ c ∈ s'.constants, c ∈ s.constants ∨ c ∈ ls.filterMap Lexeme.float?
  externals : ∀ f, f ∈ s'.externals ↔ f ∈ s.externals ∨ f ∈ callees lines ∧ f ∉ iface.defined
  calls : callees lines = ls.filterMap Lexeme.callee?
  texts : texts lines = ls.filterMap Lexeme.text?
  loads : List.Forall₂ (Holds s'.constants) ((addresses lines).filter isConstant)
    (ls.filterMap Lexeme.float?)
  spaces : ∀ label ∈ addresses lines, isConstant label = false →
    Reserves s'.reservations label

/-- The two states have recorded the same. -/
structure State.SameRecords (s s' : State) : Prop where
  constants : s.constants = s'.constants
  reservations : s.reservations = s'.reservations
  externals : s.externals = s'.externals

theorem Reserves.mono {rs rs' : List Reservation} {label : String} (reserves : Reserves rs label)
    (more : rs <+: rs') : Reserves rs' label := by
  obtain ⟨r, mem, is⟩ := reserves
  exact ⟨r, more.subset mem, is⟩

namespace Makes

variable {ls ls' : List Lexeme}

/-- Lines that call nothing, and refer to what has been recorded already. -/
theorem recorded (uncalled : callees lines = []) (notCalled : ls.filterMap Lexeme.callee? = [])
    (written : Assembly.texts lines = ls.filterMap Lexeme.text?)
    (loads : List.Forall₂ (Holds s.constants) ((addresses lines).filter isConstant)
      (ls.filterMap Lexeme.float?))
    (spaces : ∀ label ∈ addresses lines, isConstant label = false →
      Reserves s.reservations label) : Makes iface s lines ls s where
  constants := List.prefix_rfl
  reservations := List.prefix_rfl
  newer _ mem := .inl mem
  written _ mem := .inl mem
  externals f := by simp [uncalled]
  calls := by rw [uncalled, notCalled]
  texts := written
  loads := loads
  spaces := spaces

/-- Lines that refer to nothing, for lexemes that are not seen in them. -/
theorem unseen (silent : Silent lines) (notCalled : ls.filterMap Lexeme.callee? = [])
    (notText : ls.filterMap Lexeme.text? = []) (notFloat : ls.filterMap Lexeme.float? = []) :
    Makes iface s lines ls s := by
  refine .recorded silent.callees_eq notCalled ?_ ?_ ?_
  · rw [silent.texts_eq, notText]
  · rw [silent.addresses_eq, notFloat]
    exact .nil
  · rw [silent.addresses_eq]
    exact nofun

theorem silent (silent : Silent lines) : Makes iface s lines [] s := .unseen silent rfl rfl rfl

theorem append (one : Makes iface s first ls s₁) (other : Makes iface s₁ second ls' s') :
    Makes iface s (first ++ second) (ls ++ ls') s' where
  constants := one.constants.trans other.constants
  reservations := one.reservations.trans other.reservations
  newer r mem := by
    rcases other.newer r mem with before | here
    · exact (one.newer r before).imp_right (List.mem_append_left _)
    · exact .inr (List.mem_append_right _ here)
  written c mem := by
    rw [List.filterMap_append, List.mem_append]
    rcases other.written c mem with before | here
    · exact (one.written c before).imp_right .inl
    · exact .inr (.inr here)
  externals f := by
    rw [other.externals, one.externals, callees_append, List.mem_append]
    tauto
  calls := by rw [callees_append, one.calls, other.calls, List.filterMap_append]
  texts := by rw [texts_append, one.texts, other.texts, List.filterMap_append]
  loads := by
    rw [addresses_append, List.filter_append, List.filterMap_append]
    exact List.rel_append (one.loads.imp fun _ _ holds => holds.mono other.constants) other.loads
  spaces := by
    rw [addresses_append, List.forall_mem_append]
    refine ⟨fun label mem is => ?_, other.spaces⟩
    exact (one.spaces label mem is).mono other.reservations

theorem append_nil (one : Makes iface s first ls s₁) (other : Makes iface s₁ second [] s') :
    Makes iface s (first ++ second) ls s' := by
  have whole := one.append other
  rwa [List.append_nil] at whole

theorem append_silent (one : Makes iface s first ls s') (silent : Silent second) :
    Makes iface s (first ++ second) ls s' := one.append_nil (.silent silent)

/-- What does not count here may be different. -/
theorem congr {t t' : State} (one : Makes iface s lines ls s') (before : s.SameRecords t)
    (behind : s'.SameRecords t') : Makes iface t lines ls t' := by
  obtain ⟨constants, reservations, externals⟩ := before
  obtain ⟨constants', reservations', externals'⟩ := behind
  constructor
  · exact constants ▸ constants' ▸ one.constants
  · exact reservations ▸ reservations' ▸ one.reservations
  · exact reservations ▸ reservations' ▸ one.newer
  · exact constants ▸ constants' ▸ one.written
  · exact externals ▸ externals' ▸ one.externals
  · exact one.calls
  · exact one.texts
  · exact constants' ▸ one.loads
  · exact reservations' ▸ one.spaces

/-- The constants that the lines refer to have been recorded. -/
theorem held (one : Makes iface s lines ls s') {label : String} (mem : label ∈ addresses lines)
    (isConst : isConstant label = true) : ∃ text, Holds s'.constants label text :=
  exists_holds one.loads label (List.mem_filter.mpr ⟨mem, isConst⟩)

/-- In a scope of its own. -/
theorem enclosed (one : Makes iface (openScope s).2 lines ls s') :
    Makes iface s lines ls (closeScope s').2 := one.congr ⟨rfl, rfl, rfl⟩ ⟨rfl, rfl, rfl⟩

end Makes

/-! ### Storage -/

/-- A slot that is in the frame, or has space under its label. -/
def Slot.Placed (slot : Slot) (s : State) : Prop :=
  ∀ label, slot.place = .global label →
    Reserves s.reservations label ∧ isConstant label = false

theorem Grounded.placed (grounded : Grounded s) {name : String} {slot : Slot}
    (found : s.env.stack.lookup name = some slot) : slot.Placed s := by
  intro label isGlobal
  have reserved := grounded.lookup found isGlobal
  obtain ⟨r, mem, rfl⟩ := reserved
  exact ⟨⟨r, mem, rfl⟩, grounded.notConstant mem⟩

/-- The label of a slot. -/
def Slot.label? (slot : Slot) : Option String :=
  match slot.place with
  | .global label => some label
  | .frame _ => none

/-- Code that refers to nothing but a slot. -/
theorem makes_access {slot : Slot} (placed : slot.Placed s)
    (reaches : addresses lines = slot.label?.toList) (callees_eq : callees lines = [])
    (texts_eq : texts lines = []) : Makes iface s lines [] s := by
  obtain ⟨t, place⟩ := slot
  cases place with
  | frame offset =>
      refine .recorded callees_eq rfl texts_eq ?_ ?_
      · rw [reaches]
        exact .nil
      · rw [reaches]
        exact nofun
  | global label =>
      obtain ⟨reserved, other⟩ := placed label rfl
      refine .recorded callees_eq rfl texts_eq ?_ ?_
      · rw [reaches]
        simp [Slot.label?, other]
      · rw [reaches]
        simpa [Slot.label?] using fun _ => reserved

theorem makes_loadSlot {slot : Slot} (placed : slot.Placed s) (indexed : Bool) :
    Makes iface s (code (loadSlot slot indexed)) [] s := by
  refine makes_access placed ?_ ?_ ?_
  all_goals
    obtain ⟨t, place⟩ := slot
    cases t <;> cases place <;> rfl

theorem makes_storeSlot {slot : Slot} (placed : slot.Placed s) (d : Domain) (indexed : Bool) :
    Makes iface s (code (storeSlot d slot indexed)) [] s := by
  refine makes_access placed ?_ ?_ ?_
  all_goals
    obtain ⟨t, place⟩ := slot
    cases d <;> cases t <;> cases place <;> rfl

theorem Grounded.openScope (grounded : Grounded s) : Grounded (openScope s).2 where
  slots := by
    refine List.forall_mem_cons.mpr ⟨?_, grounded.slots⟩
    exact nofun
  labels := grounded.labels

theorem Grounded.fresh (grounded : Grounded s) : Grounded s.fresh :=
  ⟨grounded.slots, grounded.labels⟩

theorem Grounded.closeScope (grounded : Grounded s) : Grounded (closeScope s).2 where
  slots := by
    have left : (Assembly.closeScope s).2.env.stack.views Slot.place =
        (s.env.stack.views Slot.place).tail := by
      change (s.env.leave.2.stack).views _ = _
      obtain ⟨⟨⟨scopes⟩, journal⟩, _⟩ := s
      cases scopes <;> rfl
    rw [left]
    exact fun l mem => grounded.slots l (List.mem_of_mem_tail mem)
  labels := grounded.labels

theorem Grounded.declareSlot (grounded : Grounded s) (name : String) {slot : Slot}
    (placed : slot.Placed s) : Grounded (declareSlot name slot s).2 where
  slots := by
    change ∀ l ∈ (s.env.declare name slot).2.stack.views Slot.place, _
    unfold Env.declare
    cases declared : s.env.stack.declare? name slot with
    | none => exact grounded.slots
    | some stack =>
        have slots := grounded.slots
        obtain ⟨⟨⟨scopes⟩, journal⟩, _⟩ := s
        cases scopes with
        | nil => contradiction
        | cons scope rest =>
            obtain ⟨scope', declared', rfl⟩ := Option.map_eq_some_iff.mp declared
            obtain ⟨here, others⟩ := List.forall_mem_cons.mp slots
            refine List.forall_mem_cons.mpr ⟨fun other label found => ?_, others⟩
            rw [Scope.view_declare? Slot.place declared', View.add] at found
            split at found
            · exact (placed label (Option.some.inj found)).1
            · exact here other label found
  labels := grounded.labels

/-- Storage that is found for a variable is there from then on. -/
theorem makes_allocate {name : String} {t : Ty} {length : Option UInt32} {slot : Slot}
    (grounded : Grounded s) (done : Done (allocate name t length) s slot s') :
    Makes iface s [] [.declared name] s' ∧ Grounded s' ∧ slot.Placed s' := by
  have nothing : Makes iface s [] [.declared name] s := .unseen rfl rfl rfl rfl
  rcases done_allocate_cases done with ⟨f, size, offset, -, -, rfl, rfl⟩ | ⟨-, rfl, rfl⟩
  · exact ⟨nothing.congr ⟨rfl, rfl, rfl⟩ ⟨rfl, rfl, rfl⟩, ⟨grounded.slots, grounded.labels⟩, nofun⟩
  · rcases reserveSpace_cases s.reservations name t (valueCount length) with ⟨r, mem, is⟩ | is
    · rw [is]
      refine ⟨nothing, grounded, ?_⟩
      rintro label ⟨⟩
      exact ⟨⟨r, mem, rfl⟩, grounded.notConstant mem⟩
    · rw [is]
      have other := isConstant_reservationLabel s.reservations name
      refine ⟨⟨List.prefix_rfl, List.prefix_append _ _, ?_, fun c mem => .inl mem,
        by simp [callees], rfl, rfl, .nil, nofun⟩, ⟨?_, ?_⟩, ?_⟩
      · intro r mem
        rcases List.mem_append.mp mem with before | here
        · exact .inl before
        · obtain rfl := List.mem_singleton.mp here
          exact .inr (List.mem_singleton_self _)
      · intro l mem name' label found
        exact (grounded.slots l mem name' label found).mono (List.prefix_append _ _)
      · exact List.forall_mem_append.mpr
          ⟨grounded.labels, List.forall_mem_singleton.mpr ⟨s.reservations, rfl⟩⟩
      · rintro label ⟨⟩
        exact ⟨⟨_, List.mem_append_right _ (List.mem_singleton_self _), rfl⟩, other⟩

/-! ### Expressions -/

theorem externals_constant (text : String) (s : State) :
    (constant text s).2.externals = s.externals := by
  rw [constant_eq]
  cases s.constants.idxOf? text <;> rfl

theorem mem_constants_constant (text : String) (s : State) :
    ∀ c ∈ (constant text s).2.constants, c ∈ s.constants ∨ c = text := by
  rw [constant_eq]
  cases s.constants.idxOf? text with
  | some i => exact fun c mem => .inl mem
  | none =>
      intro c mem
      exact (List.mem_append.mp mem).imp_right List.mem_singleton.mp

/-- A constant as it is written, at no place of its own. -/
theorem makes_text {l : Lexeme} {text : String} (is : l.text? = some text)
    (notFloat : l.float? = none) (notCalled : l.callee? = none) :
    Makes iface s (code [.movText .eax text]) [l] s := by
  refine .recorded rfl (by simp [notCalled]) ?_ ?_ nofun
  · simp [texts, code, Line.instr?, Instr.text?, is]
  · simp [addresses, code, Line.instr?, Instr.address?, notFloat]

theorem makes_literal (value : Literal) (s : State) :
    Makes iface s (code (literal value s).1.1) [.literal value] (literal value s).2 := by
  cases value with
  | number text =>
      cases point : hasPoint text with
      | true =>
          simp only [literal, point, if_true]
          change Makes iface s (code [.fld ⟨.qword, .label (constant text s).1, none⟩]) _
            (constant text s).2
          have holds : Holds (constant text s).2.constants (constant text s).1 text :=
            constant_placed text s
          have grows := growing_constant text s
          have reaches : addresses (code [.fld ⟨.qword, .label (constant text s).1, none⟩]) =
            [(constant text s).1] := rfl
          refine ⟨grows.constants, ?_, ?_, ?_, ?_, rfl, ?_, ?_, ?_⟩
          · exact grows.reservations ▸ List.prefix_rfl
          · rw [grows.reservations]
            exact fun r mem => .inl mem
          · simpa [Lexeme.float?, point] using mem_constants_constant text s
          · rw [externals_constant]
            simp [callees, code, Line.instr?, Instr.callee?]
          · simp [texts, code, Line.instr?, Instr.text?, Lexeme.text?, point]
          · rw [reaches]
            simpa [holds.isConstant, Lexeme.float?, point] using holds
          · rw [reaches]
            simp [holds.isConstant]
      | false =>
          simp only [literal, point]
          exact makes_text (by simp [Lexeme.text?, point]) (by simp [Lexeme.float?, point]) rfl
  | char text => exact makes_text rfl rfl rfl
  | bool value => exact .unseen rfl rfl rfl rfl

theorem makes_readSlot (grounded : Grounded s) (name : String) (indexed : Bool) :
    Makes iface s (code (readSlot name indexed s).1.1) [] (readSlot name indexed s).2 := by
  rw [readSlot_eq]
  cases found : s.env.stack.lookup name with
  | some slot => exact makes_loadSlot (grounded.placed found) indexed
  | none =>
      have nothing : Silent (code [.movNat .eax 0]) := rfl
      exact (Makes.silent nothing).congr ⟨rfl, rfl, rfl⟩ ⟨rfl, rfl, rfl⟩

/-- An operator takes jump targets, and records nothing else. -/
theorem makes_binaryOp (op : BinOp) (left right : Domain) (s : State) :
    Makes iface s (binaryOp op left right s).1.1 [] (binaryOp op left right s).2 := by
  refine (Makes.silent (silent_binaryOp op left right s)).congr ⟨rfl, rfl, rfl⟩ ⟨?_, ?_, ?_⟩
  all_goals cases op <;> cases left <;> cases right <;> rfl

theorem mem_externals_callee (name : String) (s : State) (f : String) :
    f ∈ (callee iface name s).2.externals ↔ f ∈ s.externals ∨ f = name ∧ f ∉ iface.defined := by
  change f ∈ (if iface.defined.contains name || s.externals.contains name then s
    else { s with externals := s.externals ++ [name] } : State).externals ↔ _
  split
  · rename_i known
    simp only [Bool.or_eq_true, List.contains_iff_mem] at known
    refine ⟨.inl, ?_⟩
    rintro (here | ⟨rfl, other⟩)
    · exact here
    · exact known.resolve_left other
  · rename_i unknown
    simp only [Bool.or_eq_true, List.contains_iff_mem, not_or] at unknown
    rw [List.mem_append, List.mem_singleton]
    refine or_congr_right ⟨?_, And.left⟩
    rintro rfl
    exact ⟨rfl, unknown.1⟩

theorem constants_callee (name : String) (s : State) :
    (callee iface name s).2.constants = s.constants := by
  change (if _ then s else _ : State).constants = _
  split <;> rfl

/-- A call whose function has been noted before its arguments. -/
theorem makes_called {name : String} {ls : List Lexeme}
    (args : Makes iface (callee iface name s).2 lines ls s') (bytes : Nat) :
    Makes iface s (lines ++ code (callCode name bytes)) (ls ++ [.called name]) s' := by
  have noted := growing_callee iface name s
  have calls : callees (code (callCode name bytes)) = [name] := by
    unfold callCode
    split <;> rfl
  have silent : texts (code (callCode name bytes)) = [] ∧
      addresses (code (callCode name bytes)) = [] := by
    unfold callCode
    split <;> exact ⟨rfl, rfl⟩
  refine ⟨noted.constants.trans args.constants, noted.reservations ▸ args.reservations, ?_, ?_, ?_,
    ?_, ?_, ?_, ?_⟩
  · intro r mem
    have known := args.newer r mem
    rw [noted.reservations] at known
    exact known.imp_right (List.mem_append_left _)
  · intro c mem
    have known := args.written c mem
    rw [constants_callee] at known
    simpa [List.filterMap_cons, Lexeme.float?] using known
  · intro f
    rw [args.externals, mem_externals_callee, callees_append, calls, List.mem_append,
      List.mem_singleton]
    tauto
  · rw [callees_append, calls, args.calls, List.filterMap_append]
    rfl
  · rw [texts_append, silent.1, args.texts, List.filterMap_append]
    rfl
  · rw [addresses_append, silent.2, List.filterMap_append, List.append_nil]
    simpa [List.filterMap_cons, Lexeme.float?] using args.loads
  · rw [addresses_append, silent.2, List.append_nil]
    exact args.spaces

mutual

/-- What the code of an expression refers to. -/
theorem makes_expr : (e : Expr) → ∀ {s : State}, Grounded s →
    Makes iface s (expr iface e s).1.1 (lexemes e) (expr iface e s).2
  | .literal pos value, s, _ => by
      rw [expr_literal]
      exact makes_literal value s
  | .var pos name, s, grounded => by
      rw [expr_var]
      exact makes_readSlot grounded name false
  | .element pos array index, s, grounded => by
      have behind := grounded.grow (growing_expr iface index s)
      have moved : Silent (code [.movReg .ecx .eax]) := rfl
      rw [expr_element]
      dsimp only
      rw [code_append, code_append, ← List.append_assoc]
      exact ((makes_expr index grounded).append_silent
        ((silent_convert _ _).append moved)).append_nil (makes_readSlot behind array true)
  | .unary pos op operand, s, grounded => by
      rw [expr_unary]
      exact (makes_expr operand grounded).append_silent (silent_unaryOp op _)
  | .binary pos op left right, s, grounded => by
      have behind := grounded.grow (growing_expr iface left s)
      rw [expr_binary]
      exact (((makes_expr left grounded).append_silent (silent_pushValue _)).append
        (makes_expr right behind)).append_nil (makes_binaryOp op _ _ _)
  | .call pos name args, s, grounded => by
      have behind := grounded.grow (growing_callee iface name.val s)
      have pushed : Makes iface _ (exprArgs iface (iface.params name.val) args _).1.1 _ _ :=
        makes_exprArgs args behind
      have called := makes_called pushed
        (exprArgs iface (iface.params name.val) args (callee iface name.val s).2).1.2
      rw [expr_call]
      dsimp only
      split
      · exact called
      · exact called.append_silent rfl

theorem makes_exprArgs : (args : List Expr) → ∀ {params : List Ty} {s : State}, Grounded s →
    Makes iface s (exprArgs iface params args s).1.1 (lexemesOf args)
      (exprArgs iface params args s).2
  | [], params, s, _ => by
      rw [exprArgs_nil]
      exact .silent rfl
  | arg :: args, params, s, grounded => by
      have behind := grounded.grow (growing_exprArgs iface params.tail args s)
      rw [exprArgs_cons]
      exact ((makes_exprArgs args grounded).append (makes_expr arg behind)).append_silent
        (silent_pushArg _ _)

end

/-! ### Statements -/

theorem makes_assignment (target : Located String) (index : Option Expr) (value : Expr)
    (grounded : Grounded s) : ∃ ls, (Action.assign target index value).Emits ls ∧
      Makes iface s (assignment iface target.val index value s).1 ls
        (assignment iface target.val index value s).2 := by
  rw [assignment_eq]
  cases found : s.env.stack.lookup target.val with
  | none =>
      refine ⟨_, .inr rfl, ?_⟩
      have noted : Grounded (noStorage target.val s).2 := ⟨grounded.slots, grounded.labels⟩
      exact ((makes_expr value noted).append_silent (silent_dropValue _)).congr ⟨rfl, rfl, rfl⟩
        ⟨rfl, rfl, rfl⟩
  | some slot =>
      have placed := grounded.placed found
      cases index with
      | none =>
          have stored : slot.Placed (expr iface value s).2 := by
            rw [Slot.Placed, (growing_expr iface value s).reservations]
            exact placed
          exact ⟨_, .inr rfl, (makes_expr value grounded).append_nil
            (makes_storeSlot stored _ false)⟩
      | some index =>
          have grows := (growing_expr iface index s).trans (growing_expr iface value _)
          have stored : slot.Placed (expr iface value (expr iface index s).2).2 := by
            rw [Slot.Placed, grows.reservations]
            exact placed
          have behind := grounded.grow (growing_expr iface index s)
          have pushed : Silent (code [.push .eax]) := rfl
          have popped : Silent (code [.pop .ecx]) := rfl
          refine ⟨_, .inl rfl, ?_⟩
          dsimp only
          rw [code_append]
          exact (((makes_expr index grounded).append_silent
            ((silent_convert _ _).append pushed)).append (makes_expr value behind)).append_nil
              ((Makes.silent popped).append (makes_storeSlot stored _ true))

theorem makes_declaration {d : Declaration} (grounded : Grounded s)
    (made : Done ((Action.declare d).emit iface) s lines s') :
    ∃ ls, (Action.declare d).Emits ls ∧ Makes iface s lines ls s' ∧ Grounded s' := by
  obtain ⟨slot, middle, allocated, rfl, rfl⟩ := done_declaration_made made
  have first : Makes iface s (d.init.elim [] fun init => (expr iface init s).1.1)
      (d.init.elim [] lexemes) (s.afterInit iface d) := by
    unfold State.afterInit
    cases d.init with
    | none => exact .silent rfl
    | some init => exact makes_expr init grounded
  obtain ⟨records, grounded', placed⟩ :
      Makes iface _ [] _ middle ∧ Grounded middle ∧ slot.Placed middle :=
    makes_allocate (grounded.grow (grows_afterInit s d)) allocated
  have stores : Makes iface middle (d.init.elim [] fun init =>
      code (storeSlot (expr iface init s).1.2 slot false)) [] middle := by
    cases d.init with
    | none => exact .silent rfl
    | some init => exact makes_storeSlot placed _ false
  refine ⟨_, rfl, ?_, grounded'.declareSlot d.name.val placed⟩
  have whole := (first.append records).append_nil stores
  suffices made : Makes iface s _ _ middle from made.congr ⟨rfl, rfl, rfl⟩ ⟨rfl, rfl, rfl⟩
  cases init : d.init with
  | none => simpa [init] using whole
  | some init' => simpa [init] using whole

/-- What the code of an action refers to. -/
theorem makes_emit {action : Action} (grounded : Grounded s)
    (made : Done (action.emit iface) s lines s') :
    ∃ ls, action.Emits ls ∧ Makes iface s lines ls s' ∧ Grounded s' := by
  cases action with
  | test cond =>
      obtain ⟨rfl, rfl⟩ := done_action made
      refine ⟨_, rfl, (makes_expr cond grounded).append_silent ?_,
        grounded.grow (growing_expr iface cond s)⟩
      cases (expr iface cond s).1.2 <;> rfl
  | declare d => exact makes_declaration grounded made
  | assign target index value =>
      obtain ⟨rfl, rfl⟩ := done_action made
      obtain ⟨ls, emits, makes⟩ : ∃ ls, _ ∧ Makes iface s _ ls _ :=
        makes_assignment target index value grounded
      exact ⟨ls, emits, makes, grounded.grow (growing_assignment target.val index value s)⟩
  | call callee args =>
      obtain ⟨rfl, rfl⟩ := done_action made
      have behind := grounded.grow (growing_callee iface callee.val s)
      have pushed : Makes iface _ (exprArgs iface (iface.params callee.val) args _).1.1 _ _ :=
        makes_exprArgs args behind
      have called := makes_called pushed
      refine ⟨_, rfl, ?_, grounded.grow (growing_callStmt callee.val args s)⟩
      rw [callStmt_eq, call_eq]
      refine (called _).append_silent ?_
      rcases Convention.domain? (iface.conventions.get? callee.val) with - | d
      · rfl
      · exact silent_dropValue d
  | finish value =>
      obtain ⟨rfl, rfl⟩ := done_action made
      rw [resultLines_eq]
      cases value with
      | none =>
          refine ⟨_, rfl, .silent ?_, grounded⟩
          change Silent (code (if s.result = .void then [] else defaultValue s.result))
          split
          · rfl
          · exact silent_defaultValue _
      | some e =>
          refine ⟨_, rfl, (makes_expr e grounded).append_silent ?_,
            grounded.grow (growing_expr iface e s)⟩
          split
          · exact silent_dropValue _
          · exact silent_convert _ _

theorem makes_testLines {cond : Expr} (grounded : Grounded s)
    (made : testLines iface cond s = (lines, s')) :
    Makes iface s lines (lexemes cond) s' ∧ Grounded s' := by
  obtain ⟨ls, rfl, makes⟩ := makes_emit grounded
    (show Done (Action.emit iface (.test cond)) s lines s' from done_of_eq made)
  exact makes

/-- What the code of statements refers to. -/
theorem Outline.makes {targets : Option Targets} {part : Part} {pieces : List Piece}
    (outline : Outline iface targets part s pieces s') (grounded : Grounded s) :
    ∃ ls, Emits part ls ∧ Makes iface s (linesOf pieces) ls s' ∧ Grounded s' := by
  induction outline with
  | nil => exact ⟨[], .nil, .silent rfl, grounded⟩
  | function is => exact ⟨[], .function is, .silent rfl, grounded⟩
  | @breakLoop targets =>
      refine ⟨[], .breakLoop, .silent ?_, grounded⟩
      cases targets <;> rfl
  | @continueLoop targets =>
      refine ⟨[], .continueLoop, .silent ?_, grounded⟩
      cases targets <;> rfl
  | cons _ _ one all =>
      obtain ⟨first, emits, makes, grounded'⟩ := one grounded
      obtain ⟨others, emits', makes', grounded''⟩ := all grounded'
      refine ⟨_, .cons emits emits', ?_, grounded''⟩
      rw [List.cons_append, linesOf_cons, linesOf_append]
      exact makes.append makes'
  | act is made =>
      obtain ⟨ls, emits, makes, grounded'⟩ := makes_emit grounded made
      refine ⟨ls, .act is emits, ?_, grounded'⟩
      rw [linesOf_cons, linesOf_nil, List.append_nil]
      exact makes
  | block _ inside =>
      obtain ⟨ls, emits, makes, grounded'⟩ := inside grounded.openScope
      exact ⟨ls, .block emits, makes.enclosed, grounded'.closeScope⟩
  -- What stands between the parts of a statement refers to nothing.
  | @ifThen _ _ _ _ s _ _ _ _ tested _ inside =>
      obtain ⟨tests, grounded₁⟩ := makes_testLines grounded.fresh tested
      obtain ⟨ls, emits, makes, grounded₂⟩ := inside grounded₁.openScope
      have jump : Silent [.instr (.je (.numbered s.labels))] := rfl
      have label : Silent [.label (.numbered s.labels)] := rfl
      have whole := (((tests.congr (t := s) ⟨rfl, rfl, rfl⟩ ⟨rfl, rfl, rfl⟩).append_silent
        jump).append (makes.enclosed)).append_silent label
      exact ⟨_, .ifThen emits, by simpa [condition, Piece.lines] using whole,
        grounded₂.closeScope⟩
  | @ifElse _ _ _ _ _ _ s _ _ _ s₂ _ _ tested _ _ inside otherwise =>
      obtain ⟨tests, grounded₁⟩ := makes_testLines grounded.fresh tested
      obtain ⟨ls, emits, makes, grounded₂⟩ := inside grounded₁.openScope
      obtain ⟨others, emits', makes', grounded₃⟩ := otherwise grounded₂.closeScope.fresh.openScope
      have jump : Silent [.instr (.je (.numbered s.labels))] := rfl
      have between : Silent
          [.instr (.jmp (.numbered s₂.labels)), .label (.numbered s.labels)] := rfl
      have label : Silent [.label (.numbered s₂.labels)] := rfl
      have whole := (((((tests.congr (t := s) ⟨rfl, rfl, rfl⟩ ⟨rfl, rfl, rfl⟩).append_silent
        jump).append makes.enclosed).append_silent between).append
          (makes'.enclosed.congr ⟨rfl, rfl, rfl⟩ ⟨rfl, rfl, rfl⟩)).append_silent label
      exact ⟨_, .ifElse emits emits', by simpa [condition, Piece.lines] using whole,
        grounded₃.closeScope⟩
  | @whileLoop _ _ _ _ s _ _ _ _ tested _ inside =>
      obtain ⟨tests, grounded₁⟩ := makes_testLines grounded.fresh.fresh tested
      obtain ⟨ls, emits, makes, grounded₂⟩ := inside grounded₁.openScope
      have label : Silent [.label (.numbered s.labels)] := rfl
      have jump : Silent [.instr (.je (.numbered (s.labels + 1)))] := rfl
      have last : Silent
          [.instr (.jmp (.numbered s.labels)), .label (.numbered (s.labels + 1))] := rfl
      have whole := ((((Makes.silent (s := s) label).append (tests.congr ⟨rfl, rfl, rfl⟩
        ⟨rfl, rfl, rfl⟩)).append_silent jump).append makes.enclosed).append_silent last
      exact ⟨_, .whileLoop emits, by simpa [condition, Piece.lines] using whole,
        grounded₂.closeScope⟩
  | @forLoop _ _ _ _ _ _ s _ s₁ _ _ _ _ _ _ _ tested _ _ starts inside updates =>
      obtain ⟨before, emits₀, makes₀, grounded₁⟩ := starts grounded.openScope
      obtain ⟨tests, grounded₂⟩ := makes_testLines grounded₁.fresh.fresh.fresh tested
      obtain ⟨ls, emits, makes, grounded₃⟩ := inside grounded₂.openScope
      obtain ⟨again, emits', makes', grounded₄⟩ := updates grounded₃.closeScope
      have label : Silent [.label (.numbered s₁.labels)] := rfl
      have jump : Silent [.instr (.je (.numbered (s₁.labels + 2)))] := rfl
      have next : Silent [.label (.numbered (s₁.labels + 1))] := rfl
      have last : Silent
          [.instr (.jmp (.numbered s₁.labels)), .label (.numbered (s₁.labels + 2))] := rfl
      have whole := (((((((makes₀.append_silent label).append (tests.congr ⟨rfl, rfl, rfl⟩
        ⟨rfl, rfl, rfl⟩)).append_silent jump).append makes.enclosed).append_silent next).append
          makes').append_silent last).enclosed (s := s)
      exact ⟨_, .forLoop emits₀ emits emits', by simpa [condition, Piece.lines] using whole,
        grounded₄.closeScope⟩
  | returnValue made =>
      obtain ⟨ls, rfl, makes, grounded'⟩ := makes_emit grounded made
      have jump : Silent [.instr (.jmp .exit)] := rfl
      exact ⟨_, .returnValue, by simpa [Piece.lines] using makes.append_silent jump, grounded'⟩

end BraceLang.Assembly
