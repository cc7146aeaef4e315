import BraceLang.Proofs.Assembly.Closure
import BraceLang.Proofs.Assembly.Text

/-!
The text of an assembly is closed: whatever it refers to is defined in it or declared external.
This is a property of the text as it is read, for programs whose names are words and whose literals
have no line breaks or brackets outside of quotes.

**Main result.** `closed_render`: jumps stay in their unit and labels are defined once; the
constants and variables that a unit uses are in the data sections, the constants with the texts of
the literals; called functions either have a unit or are external.
-/

namespace BraceLang.Assembly

/-! ### Lexemes of a tree -/

mutual

/-- The lexemes of a statement that may get into a text, with the names of functions. -/
def lexemesOfStmt : Stmt → List Lexeme
  | .declare _ d => d.init.elim [] lexemes ++ [.declared d.name.val]
  | .define heading _ body => .declared heading.name.val :: lexemesOfAll body
  | .assign _ _ index value => index.elim [] lexemes ++ lexemes value
  | .call _ callee args => lexemesOf args ++ [.called callee.val]
  | .block _ body => lexemesOfAll body
  | .ifThen cond _ body | .whileLoop cond _ body => lexemes cond ++ lexemesOfAll body
  | .ifElse cond _ body _ elseBody =>
      lexemes cond ++ lexemesOfAll body ++ lexemesOfAll elseBody
  | .forLoop init cond update _ body =>
      lexemesOfHeader init ++ lexemes cond ++ lexemesOfAll body ++ lexemesOfHeader update
  | .returnValue _ value => value.elim [] lexemes
  | .prototype .. | .breakLoop _ | .continueLoop _ => []

def lexemesOfHeader : Option Stmt → List Lexeme
  | none => []
  | some x => lexemesOfStmt x

def lexemesOfAll : List Stmt → List Lexeme
  | [] => []
  | x :: rest => lexemesOfStmt x ++ lexemesOfAll rest

end

def Part.lexemes : Part → List Lexeme
  | one x => lexemesOfStmt x
  | all body => lexemesOfAll body

theorem lexemesOfAll_toList (part : Option Stmt) :
    lexemesOfAll part.toList = lexemesOfHeader part := by
  cases part with
  | none => rfl
  | some x => exact List.append_nil _

theorem append_subset_append {a a' b b' : List Lexeme} (one : a ⊆ a') (other : b ⊆ b') :
    a ++ b ⊆ a' ++ b' :=
  List.append_subset.mpr ⟨List.Subset.trans one (List.subset_append_left a' b'),
    List.Subset.trans other (List.subset_append_right a' b')⟩

/-- Code is made with lexemes of the tree only. -/
theorem Emits.subset {part : Part} {ls : List Lexeme} (emits : Emits part ls) :
    ls ⊆ part.lexemes := by
  induction emits with
  | nil => exact List.nil_subset _
  | cons _ _ ih ih' => exact append_subset_append ih ih'
  | @act x action ls is emits =>
      cases x with
      | declare site d =>
          obtain rfl := Option.some.inj is
          rw [emits]
          exact List.Subset.refl _
      | assign site target index value =>
          obtain rfl := Option.some.inj is
          rcases emits with rfl | rfl
          · exact List.Subset.refl _
          · exact List.subset_append_right _ _
      | call site callee args =>
          obtain rfl := Option.some.inj is
          rw [emits]
          exact List.Subset.refl _
      | _ => contradiction
  | function _ | breakLoop | continueLoop => exact List.nil_subset _
  | block _ ih => exact ih
  | ifThen _ ih | whileLoop _ ih => exact append_subset_append (List.Subset.refl _) ih
  | ifElse _ _ ih ih' =>
      exact append_subset_append (append_subset_append (List.Subset.refl _) ih) ih'
  | forLoop _ _ _ ih ih' ih'' =>
      rw [Part.lexemes, lexemesOfAll_toList] at ih ih''
      exact append_subset_append (append_subset_append (append_subset_append ih
        (List.Subset.refl _)) ih') ih''
  | returnValue => exact List.Subset.refl _

/-! ### Ordinary lexemes -/

/-- Names are words. Numbers have no line breaks and no brackets in them. Characters start with a
quote and are in one line. -/
def Lexeme.isOrdinary : Lexeme → Bool
  | literal (.number text) => decide (Lacks '\n' text) && decide (Lacks '[' text)
  | literal (.char text) => text.toList.head? == some '\'' && decide (Lacks '\n' text)
  | literal (.bool _) => true
  | called name | declared name => isWord name

theorem unquoted_subset (text : String) : (unquoted text).toList ⊆ text.toList := by
  rw [unquoted, String.toList_ofList]
  intro c mem
  have inner := (List.dropWhile_suffix _).subset (List.mem_reverse.mp mem)
  exact (List.dropWhile_suffix _).subset (List.mem_reverse.mp inner)

/-- However a character is written, it is quoted and in one line. -/
theorem isOperand_charText {text : String} (quoted : text.toList.head? = some '\'')
    (oneLine : Lacks '\n' text) : IsOperand (charText text) := by
  unfold charText
  split
  · have quote : Lacks '\n' "`" := by decide
    have inner : Lacks '\n' (unquoted text) := fun mem => oneLine (unquoted_subset text mem)
    refine ⟨(quote.append inner).append quote, .inl ?_⟩
    rw [escaped, String.toList_append, String.toList_append]
    rfl
  · exact ⟨oneLine, .inl (by rw [quoted]; rfl)⟩

/-- An ordinary literal that is written as an operand can be read as one. -/
theorem isOperand_of_ordinary {x : Lexeme} (ordinary : x.isOrdinary = true) {text : String}
    (is : x.text? = some text) : IsOperand text := by
  cases x with
  | literal value =>
      cases value with
      | number number =>
          have plain := Bool.and_eq_true_iff.mp ordinary
          rw [Lexeme.text?] at is
          split at is
          · contradiction
          · obtain rfl := Option.some.inj is
            exact ⟨of_decide_eq_true plain.1, .inr (of_decide_eq_true plain.2)⟩
      | char char =>
          obtain rfl := Option.some.inj is
          have plain := Bool.and_eq_true_iff.mp ordinary
          exact isOperand_charText (beq_iff_eq.mp plain.1) (of_decide_eq_true plain.2)
      | bool value => contradiction
  | called _ | declared _ => contradiction

theorem oneLine_of_float {x : Lexeme} (ordinary : x.isOrdinary = true) {text : String}
    (is : x.float? = some text) : Lacks '\n' text := by
  cases x with
  | literal value =>
      cases value with
      | number number =>
          rw [Lexeme.float?] at is
          split at is
          · obtain rfl := Option.some.inj is
            exact of_decide_eq_true (Bool.and_eq_true_iff.mp ordinary).1
          · contradiction
      | char _ | bool _ => contradiction
  | called _ | declared _ => contradiction

theorem isWord_reservationLabel (rs : List Reservation) {name : String}
    (word : isWord name = true) : isWord (reservationLabel rs name) = true := by
  have start : isWord "v_" = true := by decide
  have between : isWord "_" = true := by decide
  unfold reservationLabel
  split
  · exact isWord_append start word
  · exact isWord_append (isWord_append (isWord_append start word) between) (isWord_toString _)

end BraceLang.Assembly

namespace BraceLang

/-- All names and literals that may get into an assembly are ordinary. -/
def Program.hasOrdinaryLexemes (p : Program) : Bool :=
  (Assembly.lexemesOfAll p.stmts).all Assembly.Lexeme.isOrdinary

end BraceLang

namespace BraceLang.Assembly

/-- The lexemes of a tree include those of the functions that are defined at the top of it. -/
theorem definition_subset {body : List Stmt} {d : Heading × List Stmt}
    (mem : d ∈ definitions body) :
    .declared d.1.name.val :: lexemesOfAll d.2 ⊆ lexemesOfAll body := by
  induction body with
  | nil => exact absurd mem List.not_mem_nil
  | cons x rest ih =>
      have deeper (mem : d ∈ definitions rest) :
          .declared d.1.name.val :: lexemesOfAll d.2 ⊆ lexemesOfAll (x :: rest) :=
        List.Subset.trans (ih mem) (List.subset_append_right (lexemesOfStmt x) (lexemesOfAll rest))
      cases x with
      | define h braces inner =>
          rcases List.mem_cons.mp mem with rfl | mem
          · exact List.subset_append_left (lexemesOfStmt (.define h braces inner)) _
          · exact deeper mem
      | _ => exact deeper mem

/-- The units of a program with ordinary lexemes are made with such. -/
theorem ordinary_lexemes {bs : List (List Stmt)} {lss : List (List Lexeme)}
    (emits : List.Forall₂ EmitsUnit bs lss)
    (ordinary : ∀ body ∈ bs, ∀ x ∈ lexemesOfAll body, x.isOrdinary = true) :
    ∀ ls ∈ lss, ∀ x ∈ ls, x.isOrdinary = true := by
  induction emits with
  | nil => exact nofun
  | cons one _ ih =>
      obtain ⟨here, others⟩ := List.forall_mem_cons.mp ordinary
      refine List.forall_mem_cons.mpr ⟨?_, ih others⟩
      obtain ⟨inner, emits, is⟩ := one
      have plain : ∀ x ∈ inner, x.isOrdinary = true := fun x mem => here x (emits.subset mem)
      rcases is with rfl | rfl
      · exact plain
      · have main : isWord "main" = true := by decide
        exact List.forall_mem_append.mpr ⟨plain, List.forall_mem_singleton.mpr main⟩

/-- What an instruction refers to is among the references of its code. -/
theorem mem_references {lines : List Line} {x : Line} {i : Instr} {f : Instr → Option String}
    {name : String} (mem : x ∈ lines) (is : i ∈ x.instr?) (refers : name ∈ f i) :
    name ∈ lines.filterMap fun x => x.instr?.bind f :=
  List.mem_filterMap.mpr ⟨x, mem, Option.bind_eq_some_iff.mpr ⟨i, is, refers⟩⟩

namespace Makes

variable {iface : Interface} {s s' : State} {lines : List Line} {ls : List Lexeme}

theorem isWord_callee (makes : Makes iface s lines ls s')
    (ordinary : ∀ x ∈ ls, x.isOrdinary = true) : ∀ f ∈ callees lines, isWord f = true := by
  rw [makes.calls]
  intro f mem
  obtain ⟨x, here, is⟩ := List.mem_filterMap.mp mem
  cases x with
  | called name =>
      obtain rfl := Option.some.inj is
      exact ordinary _ here
  | literal _ | declared _ => contradiction

/-- Space is reserved under words. -/
theorem isWord_label (makes : Makes iface s lines ls s') (none : s.reservations = [])
    (grounded : Grounded s') (ordinary : ∀ x ∈ ls, x.isOrdinary = true) :
    ∀ r ∈ s'.reservations, isWord r.label = true := by
  intro r mem
  obtain ⟨rs, is⟩ := grounded.labels r mem
  have declared := (makes.newer r mem).resolve_left (none ▸ List.not_mem_nil)
  rw [is]
  exact isWord_reservationLabel rs (ordinary _ declared)

theorem oneLine_constant (makes : Makes iface s lines ls s') (none : s.constants = [])
    (ordinary : ∀ x ∈ ls, x.isOrdinary = true) : ∀ text ∈ s'.constants, Lacks '\n' text := by
  intro text mem
  have here := (makes.written text mem).resolve_left (none ▸ List.not_mem_nil)
  obtain ⟨x, mem, is⟩ := List.mem_filterMap.mp here
  exact oneLine_of_float (ordinary x mem) is

/-- Code that is made with ordinary lexemes is ordinary. -/
theorem ordinary_instr (makes : Makes iface s lines ls s')
    (ordinary : ∀ x ∈ ls, x.isOrdinary = true)
    (spaces : ∀ r ∈ s'.reservations, isWord r.label = true) :
    ∀ x ∈ lines, ∀ i ∈ x.instr?, i.Ordinary := by
  intro x mem i is
  constructor
  · intro name refers
    have here : name ∈ addresses lines := mem_references mem is refers
    cases isConst : isConstant name with
    | true =>
        obtain ⟨text, i, rfl, -⟩ := makes.held here isConst
        exact isWord_append (by decide) (isWord_toString i)
    | false =>
        obtain ⟨r, mem, rfl⟩ := makes.spaces name here isConst
        exact spaces r mem
  · exact fun name refers => makes.isWord_callee ordinary name (mem_references mem is refers)
  · intro text refers
    have here : text ∈ Assembly.texts lines := mem_references mem is refers
    rw [makes.texts] at here
    obtain ⟨x, mem, is⟩ := List.mem_filterMap.mp here
    exact isOperand_of_ordinary (ordinary x mem) is

end Makes

/-- The listing of a program with ordinary lexemes is ordinary. -/
theorem ordinary_listing {p : Program} {l : Listing} (assembled : p.assemble.1 = .ok l)
    (ordinary : p.hasOrdinaryLexemes = true) : l.Ordinary := by
  have all := List.all_eq_true.mp ordinary
  have function : ∀ d ∈ definitions p.stmts, isWord d.1.name.val = true ∧
      ∀ x ∈ lexemesOfAll d.2, x.isOrdinary = true := by
    intro d mem
    exact List.forall_mem_cons.mp fun x here => all x (definition_subset mem here)
  obtain ⟨s, lss, made, grounded, emits, -, constants, reservations⟩ := made_listing assembled
  have lexemes : ∀ x ∈ lss.flatten, x.isOrdinary = true := by
    refine List.forall_mem_flatten.mpr (ordinary_lexemes emits ?_)
    exact List.forall_mem_cons.mpr ⟨all, List.forall_mem_map.mpr fun d mem => (function d mem).2⟩
  have spaces := made.makes.isWord_label rfl grounded lexemes
  constructor
  · intro f mem
    exact made.makes.isWord_callee lexemes f ((mem_externals_iff assembled f).mp mem).1
  · exact constants ▸ made.makes.oneLine_constant rfl lexemes
  · exact reservations ▸ spaces
  · intro r mem
    have named := List.mem_map_of_mem (f := Routine.name) mem
    rw [names_routines assembled] at named
    obtain ⟨d, mem, is⟩ := List.mem_map.mp named
    exact is ▸ (function d mem).1
  · intro u unit x mem
    exact made.makes.ordinary_instr lexemes spaces x (List.mem_flatten_of_mem unit mem)

/-! ### Labels of a text -/

theorem defines_isWord {name : String} (word : isWord name = true) (data : String) (t : Target) :
    (Row.label name data).defines t.render = false := by
  refine beq_eq_false_iff_ne.mpr ?_
  rintro rfl
  exact lacks_of_isWord word (by decide) (List.mem_of_mem_head? (head?_target t))

theorem countP_unitRows {name : String} (word : isWord name = true) (t : Target)
    (lines : List Line) :
    (unitRows name lines).countP (·.defines t.render) = (placed lines).count t := by
  have other : Row.defines t.render (.label name "") ≠ true := by
    rw [defines_isWord word]
    decide
  rw [unitRows, List.countP_cons_of_neg other, List.countP_append, countP_defines]
  rfl

theorem countP_units {us : List (String × List Line)} (words : ∀ u ∈ us, isWord u.1 = true)
    (t : Target) : (us.map fun u => unitRows u.1 u.2).flatten.countP (·.defines t.render) =
      (placed (us.map Prod.snd).flatten).count t := by
  induction us with
  | nil => rfl
  | cons u us ih =>
      obtain ⟨word, others⟩ := List.forall_mem_cons.mp words
      rw [List.map_cons, List.flatten_cons, List.countP_append, countP_unitRows word, ih others,
        List.map_cons, List.flatten_cons, placed_append, List.count_append]

/-- No jump target is defined in front of the code. -/
theorem defines_front {l : Listing} (ordinary : l.Ordinary) (t : Target) :
    ∀ r ∈ l.header ++ (l.data ++ l.bss), r.defines t.render = false := by
  have empty : ∀ r ∈ [blank], r.defines t.render = false := List.forall_mem_singleton.mpr rfl
  refine List.forall_mem_append.mpr ⟨?_, List.forall_mem_append.mpr ⟨?_, ?_⟩⟩
  · refine List.forall_mem_append.mpr ⟨List.forall_mem_append.mpr ⟨?_, ?_⟩, empty⟩
    · simp [Row.defines]
    · exact List.forall_mem_map.mpr fun f _ => rfl
  · refine List.forall_mem_cons.mpr ⟨rfl, List.forall_mem_append.mpr ⟨fun r mem => ?_, empty⟩⟩
    obtain ⟨i, _, rfl⟩ := List.mem_mapIdx.mp mem
    exact defines_isWord (isWord_append (by decide) (isWord_toString i)) _ t
  · refine List.forall_mem_cons.mpr ⟨rfl, List.forall_mem_append.mpr ⟨?_, empty⟩⟩
    exact List.forall_mem_map.mpr fun r mem => defines_isWord (ordinary.reservations r mem) _ t

/-- A jump target is defined in a text as often as it is placed in the units. -/
theorem countP_render {l : Listing} (ordinary : l.Ordinary) (t : Target) :
    (rows l.render).countP (·.defines t.render) = (placed l.units.flatten).count t := by
  have front : (l.header ++ (l.data ++ l.bss)).countP (·.defines t.render) = 0 :=
    List.countP_eq_zero.mpr fun r mem => Bool.not_eq_true _ ▸ defines_front ordinary t r mem
  have texts : l.text.countP (·.defines t.render) = (placed l.units.flatten).count t := by
    rw [Listing.text, List.countP_cons_of_neg Bool.false_ne_true, Listing.unitsRows,
      countP_units fun u mem => (ordinary.named u mem).1, Listing.map_snd_named]
  have parts : rows l.render = (l.header ++ (l.data ++ l.bss)) ++ l.text := by
    rw [rows_render ordinary]
    simp
  rw [parts, List.countP_append, front, texts, Nat.zero_add]

/-! ### What units refer to -/

/-- What can be read off a row of a unit, if not off its label or its empty line, can be read off a
line of code. -/
theorem mem_unitRows {f : Row → Option String} (label : ∀ name, f (.label name "") = none)
    (empty : f blank = none) {name told : String} {lines : List Line} {r : Row}
    (mem : r ∈ unitRows name lines) (tells : told ∈ f r) : ∃ x ∈ lines, r = x.row := by
  rcases List.mem_cons.mp mem with rfl | mem
  · rw [label] at tells
    contradiction
  · rcases List.mem_append.mp mem with mem | mem
    · obtain ⟨x, here, rfl⟩ := List.mem_map.mp mem
      exact ⟨x, here, rfl⟩
    · rw [List.mem_singleton.mp mem, empty] at tells
      contradiction

theorem constantLabel_injective {i j : Nat} (same : constantLabel i = constantLabel j) : i = j := by
  have lists := congrArg String.toList same
  rw [constantLabel, constantLabel, String.toList_append, String.toList_append] at lists
  exact toString_injective (String.toList_inj.mp (List.append_cancel_left lists))

theorem filter_others {xs : List String} {i : Nat} {place : Nat → Nat}
    (apart : ∀ j, j < xs.length → place j ≠ i) :
    (xs.mapIdx fun j => constantRow (place j)).filter (·.defines (constantLabel i)) = [] := by
  refine List.filter_eq_nil_iff.mpr fun r mem defines => ?_
  obtain ⟨j, lt, rfl⟩ := List.mem_mapIdx.mp mem
  exact apart j lt (constantLabel_injective (beq_iff_eq.mp defines))

/-- The row of a constant is the only one with its label. -/
theorem filter_constantRow {constants : List String} {i : Nat} {text : String}
    (found : constants[i]? = some text) :
    (constants.mapIdx constantRow ++ [blank]).filter (·.defines (constantLabel i)) =
      [constantRow i text] := by
  obtain ⟨lt, is⟩ := List.getElem?_eq_some_iff.mp found
  have divided : constants = constants.take i ++ text :: constants.drop (i + 1) := by
    rw [← is, ← List.drop_eq_getElem_cons, List.take_append_drop]
  have length : (constants.take i).length = i := List.length_take_of_le lt.le
  have before : ((constants.take i).mapIdx fun j => constantRow j).filter
      (·.defines (constantLabel i)) = [] :=
    filter_others fun j lt => (lt.trans_eq length).ne
  have behind : ((constants.drop (i + 1)).mapIdx fun j => constantRow (j + 1 + i)).filter
      (·.defines (constantLabel i)) = [] :=
    filter_others fun j _ => by omega
  have here : (constantRow (0 + i) text).defines (constantLabel i) = true := by
    rw [Nat.zero_add]
    exact beq_self_eq_true _
  rw [divided, List.mapIdx_append, List.mapIdx_cons, length, List.filter_append,
    List.filter_append, before, List.filter_cons_of_pos here, behind, Nat.zero_add]
  rfl

/-- What the address of a row of code starts with is a constant only if it is a label. -/
theorem filter_address {x : Line} (ordinary : ∀ i ∈ x.instr?, i.Ordinary) :
    x.row.address?.toList.filter isConstant =
      (x.instr?.bind (·.address?)).toList.filter isConstant := by
  rw [address?_row ordinary]
  cases x with
  | label t => rfl
  | instr i =>
      change ((i.mem?.map (·.base.text)).toList.filter isConstant) =
        i.address?.toList.filter isConstant
      have registers : ¬ isConstant "ebp" = true ∧ ¬ isConstant "esp" = true := by decide
      rw [Instr.address?_eq]
      rcases i.mem? with - | ⟨width, base, scale⟩
      · rfl
      · cases base with
        | label name => rfl
        | frame offset => exact List.filter_cons_of_neg registers.1
        | top => exact List.filter_cons_of_neg registers.2

/-- The constants of a unit are the labels of its memory operands that look like constants. -/
theorem constants_unitRows (name : String) {lines : List Line}
    (ordinary : ∀ x ∈ lines, ∀ i ∈ x.instr?, i.Ordinary) :
    ((unitRows name lines).filterMap Row.address?).filter isConstant =
      (addresses lines).filter isConstant := by
  have code : ((lines.map Line.row).filterMap Row.address?).filter isConstant =
      (addresses lines).filter isConstant := by
    rw [addresses, List.filterMap_map, List.filterMap_eq_flatMap_toList,
      List.filterMap_eq_flatMap_toList, List.filter_flatMap, List.filter_flatMap]
    exact List.flatMap_congr fun x mem => filter_address (ordinary x mem)
  rw [unitRows, List.filterMap_cons_none rfl, List.filterMap_append, List.filter_append, code]
  exact List.append_nil _

/-- The row looks like a declaration of an external function. -/
def Row.startsExternal : Row → Bool
  | other text => text.toList.head? == some 'e'
  | label .. | instr .. => false

theorem startsExternal_blank : ∀ r ∈ [blank], r.startsExternal = false :=
  List.forall_mem_singleton.mpr rfl

/-- External functions are declared in front of all sections. -/
theorem startsExternal_sections (l : Listing) :
    ∀ r ∈ [l.data, l.bss, l.text].flatten, r.startsExternal = false := by
  have data : ∀ r ∈ l.data, r.startsExternal = false := by
    have start : Row.startsExternal (.other "section .data") = false := by decide
    refine List.forall_mem_cons.mpr ⟨start, List.forall_mem_append.mpr ⟨?_, startsExternal_blank⟩⟩
    intro r mem
    obtain ⟨i, _, rfl⟩ := List.mem_mapIdx.mp mem
    rfl
  have bss : ∀ r ∈ l.bss, r.startsExternal = false := by
    have start : Row.startsExternal (.other "section .bss") = false := by decide
    refine List.forall_mem_cons.mpr ⟨start, List.forall_mem_append.mpr ⟨?_, startsExternal_blank⟩⟩
    exact List.forall_mem_map.mpr fun r _ => rfl
  have text : ∀ r ∈ l.text, r.startsExternal = false := by
    have start : Row.startsExternal (.other "section .text") = false := by decide
    refine List.forall_mem_cons.mpr ⟨start, List.forall_mem_flatten.mpr ?_⟩
    refine List.forall_mem_map.mpr fun u _ => List.forall_mem_cons.mpr ⟨rfl, ?_⟩
    refine List.forall_mem_append.mpr ⟨?_, startsExternal_blank⟩
    exact List.forall_mem_map.mpr fun x _ => by cases x <;> rfl
  simp only [List.flatten_cons, List.flatten_nil, List.append_nil, List.forall_mem_append]
  exact ⟨data, bss, text⟩

/-- A name is declared external in a text exactly if the listing has it so. -/
theorem mem_extern_iff {l : Listing} (ordinary : l.Ordinary) (f : String) :
    .other ("extern " ++ f) ∈ rows l.render ↔ f ∈ l.externals := by
  have starts : Row.startsExternal (.other ("extern " ++ f)) = true := by
    rw [Row.startsExternal, String.toList_append]
    rfl
  have not_mem {rs : List Row} (none : ∀ r ∈ rs, r.startsExternal = false) :
      .other ("extern " ++ f) ∉ rs := by
    intro mem
    rw [none _ mem] at starts
    contradiction
  have fixed : ∀ r ∈ [.other "; generado por minic", .other "bits 32", .other "global _start"],
      Row.startsExternal r = false := by decide
  have names : .other ("extern " ++ f) ∈
      l.externals.map (fun name => Row.other ("extern " ++ name)) ↔ f ∈ l.externals := by
    refine List.mem_map_of_injective fun a b same => ?_
    have lists := congrArg String.toList (Row.other.inj same)
    rw [String.toList_append, String.toList_append] at lists
    exact String.toList_inj.mp (List.append_cancel_left lists)
  rw [rows_render ordinary, List.mem_append, or_iff_left (not_mem (startsExternal_sections l)),
    Listing.header, List.mem_append, or_iff_left (not_mem startsExternal_blank), List.mem_append,
    or_iff_right (not_mem fixed), names]

/-! ### Closed texts -/

/-- The only row of the section with the label is the constant, with a zero in front if it starts
with a point. -/
def IsConstantOf (data : List Row) (label text : String) : Prop :=
  data.filter (·.defines label) =
    [.label label ("\tdq " ++ (if text.toList.head? = some '.' then "0" else "") ++ text)]

/-- The text with these rows refers to nothing that is missing. -/
structure ClosedText (p : Program) (rs : List Row) : Prop where
  /-- There is a unit for the top-level code, and one for each function that is defined there. -/
  units : (codeUnits rs).map List.head? =
    ("_start" :: (definitions p.stmts).map (·.1.name.val)).map fun name => some (.label name "")
  /-- The numbered labels up to some number are each defined once, and there are no others. -/
  numbered : ∃ k : Nat, ∀ n, rs.countP (·.defines (".L" ++ toString n)) = if n < k then 1 else 0
  exit : ∀ u ∈ codeUnits rs, u.countP (·.defines ".exit") = 1
  jumps : ∀ u ∈ codeUnits rs, ∀ r ∈ u, ∀ target ∈ r.jump?, ∃ r' ∈ u, r'.defines target = true
  addresses : ∀ u ∈ codeUnits rs, ∀ r ∈ u, ∀ label ∈ r.address?, label = "ebp" ∨ label = "esp" ∨
    ∃ r' ∈ sectionRows ".data" rs ++ sectionRows ".bss" rs, r'.defines label = true
  /-- The constants of a unit are the floating-point literals of its statements. -/
  constants : List.Forall₂ (fun body u => ∃ ls, Emits (.all body) ls ∧
    List.Forall₂ (IsConstantOf (sectionRows ".data" rs))
      ((u.filterMap Row.address?).filter isConstant) (ls.filterMap Lexeme.float?))
    (bodies p) (codeUnits rs)
  calls : ∀ u ∈ codeUnits rs, ∀ r ∈ u, ∀ f ∈ r.called?,
    if f ∈ (definitions p.stmts).map (·.1.name.val) then
      (∃ u' ∈ codeUnits rs, u'.head? = some (.label f "")) ∧ .other ("extern " ++ f) ∉ rs
    else .other ("extern " ++ f) ∈ rs

theorem heads_render {p : Program} {l : Listing} (assembled : p.assemble.1 = .ok l)
    (ordinary : l.Ordinary) : (codeUnits (rows l.render)).map List.head? =
      ("_start" :: (definitions p.stmts).map (·.1.name.val)).map
        fun name => some (.label name "") := by
  rw [codeUnits_render ordinary, ← names_routines assembled, Listing.unitsRows, Listing.named]
  simp [unitRows]

/-- What is read off a row of a unit is read off a line of it. -/
theorem jumps_unitRows {lines : List Line} {name : String}
    (inside : ∀ x ∈ lines, ∀ t, x.target? = some t → t ∈ placed lines) :
    ∀ r ∈ unitRows name lines, ∀ target ∈ r.jump?,
      ∃ r' ∈ unitRows name lines, r'.defines target = true := by
  intro r mem target jumps
  obtain ⟨x, here, rfl⟩ := mem_unitRows (fun _ => rfl) rfl mem jumps
  rw [jump?_row] at jumps
  obtain ⟨t, is, rfl⟩ := Option.map_eq_some_iff.mp jumps
  obtain ⟨y, there, label⟩ := List.mem_filterMap.mp (inside x here t is)
  cases y with
  | instr i => contradiction
  | label t' =>
      obtain rfl := Option.some.inj label
      exact ⟨_, List.mem_cons_of_mem _ (List.mem_append_left _ (List.mem_map_of_mem there)),
        (defines_row _ _).mpr rfl⟩

/-- The memory operands of code are in the frame, on the stack or at a label. -/
theorem base_cases (m : Mem) : m.base.text = "ebp" ∨ m.base.text = "esp" ∨
    m.label? = some m.base.text := by
  obtain ⟨width, base, scale⟩ := m
  cases base with
  | label name => exact .inr (.inr rfl)
  | frame offset => exact .inl rfl
  | top => exact .inr (.inl rfl)

/-- A label that code refers to is defined in the data sections. -/
theorem defined_render {p : Program} {l : Listing} (assembled : p.assemble.1 = .ok l)
    (ordinary : l.Ordinary) {label : String} (mem : label ∈ addresses l.units.flatten) :
    ∃ r ∈ sectionRows ".data" (rows l.render) ++ sectionRows ".bss" (rows l.render),
      r.defines label = true := by
  obtain ⟨s, lss, made, -, -, -, constants, reservations⟩ := made_listing assembled
  rw [dataRows_render ordinary, bssRows_render ordinary, constants, reservations]
  cases isConst : isConstant label with
  | true =>
      obtain ⟨text, i, rfl, found⟩ := made.makes.held mem isConst
      have there : constantRow i text ∈ s.constants.mapIdx constantRow :=
        List.mem_mapIdx.mpr (by
          obtain ⟨lt, is⟩ := List.getElem?_eq_some_iff.mp found
          exact ⟨i, lt, by rw [is]⟩)
      exact ⟨_, List.mem_append_left _ (List.mem_append_left _ there), beq_self_eq_true _⟩
  | false =>
      obtain ⟨r, there, rfl⟩ := made.makes.spaces label mem isConst
      exact ⟨_, List.mem_append_right _ (List.mem_append_left _ (List.mem_map_of_mem there)),
        beq_self_eq_true _⟩

/-- The constants of the units are the floating-point literals that the units are made with. -/
theorem constants_render {p : Program} {l : Listing} (assembled : p.assemble.1 = .ok l)
    (ordinary : l.Ordinary) : List.Forall₂ (fun body u => ∃ ls, Emits (.all body) ls ∧
      List.Forall₂ (IsConstantOf (sectionRows ".data" (rows l.render)))
        ((u.filterMap Row.address?).filter isConstant) (ls.filterMap Lexeme.float?))
      (bodies p) l.unitsRows := by
  obtain ⟨s, lss, made, -, emits, -, constants, -⟩ := made_listing assembled
  have loads := made.loads
  rw [← l.map_snd_named, List.forall₂_map_left_iff] at loads
  rw [Listing.unitsRows, List.forall₂_map_right_iff, dataRows_render ordinary, constants]
  have named := ordinary.named
  generalize l.named = us at loads named
  generalize bodies p = bs at emits
  clear made
  induction loads generalizing bs with
  | nil =>
      cases emits
      exact .nil
  | @cons u ls us lss holds _ ih =>
      obtain _ | ⟨emits, others⟩ := emits
      obtain ⟨⟨-, plain⟩, named⟩ := List.forall_mem_cons.mp named
      refine .cons ?_ (ih named _ others)
      obtain ⟨inner, emits, is⟩ := emits
      have same : inner.filterMap Lexeme.float? = ls.filterMap Lexeme.float? := by
        rcases is with rfl | rfl
        · rfl
        · rw [List.filterMap_append]
          exact (List.append_nil _).symm
      refine ⟨inner, emits, ?_⟩
      rw [constants_unitRows u.1 plain, same]
      refine holds.imp fun label text held => ?_
      obtain ⟨i, rfl, found⟩ := held
      exact filter_constantRow found

/-- If code can be made for a program with ordinary lexemes, then its text is closed. -/
theorem closed_render {p : Program} {l : Listing} (assembled : p.assemble.1 = .ok l)
    (ordinaryLexemes : p.hasOrdinaryLexemes = true) : ClosedText p (rows l.render) := by
  have ordinary := ordinary_listing assembled ordinaryLexemes
  obtain ⟨s, lss, made, -⟩ := made_listing assembled
  have inside := made.inside
  rw [← l.map_snd_named, List.forall_mem_map] at inside
  have unit : ∀ u ∈ l.named, u.2 ∈ l.units := fun u mem =>
    l.map_snd_named ▸ List.mem_map_of_mem mem
  refine ⟨heads_render assembled ordinary, ⟨s.labels, fun n => ?_⟩, ?_, ?_, ?_, ?_, ?_⟩
  · have counted := countP_render ordinary (.numbered n)
    rw [made.numbered.2] at counted
    exact counted.trans (if_congr ⟨And.right, fun lt => ⟨Nat.zero_le n, lt⟩⟩ rfl rfl)
  all_goals rw [codeUnits_render ordinary]
  · refine List.forall_mem_map.mpr fun u mem => ?_
    exact (countP_unitRows (ordinary.named u mem).1 .exit u.2).trans (inside u mem).1
  · exact List.forall_mem_map.mpr fun u mem => jumps_unitRows (inside u mem).2
  · refine List.forall_mem_map.mpr fun u mem r row label starts => ?_
    obtain ⟨x, here, rfl⟩ := mem_unitRows (fun _ => rfl) rfl row starts
    rw [address?_row ((ordinary.named u mem).2 x here)] at starts
    obtain ⟨m, isMem, rfl⟩ := Option.map_eq_some_iff.mp starts
    obtain ⟨i, is, isMem⟩ := Option.bind_eq_some_iff.mp isMem
    refine (base_cases m).imp_right
      (Or.imp_right fun isLabel => defined_render assembled ordinary ?_)
    refine mem_references (List.mem_flatten_of_mem (unit u mem) here) is ?_
    rw [Instr.address?_eq, isMem]
    exact isLabel
  · exact constants_render assembled ordinary
  · refine List.forall_mem_map.mpr fun u mem r row f calls => ?_
    obtain ⟨x, here, rfl⟩ := mem_unitRows (fun _ => rfl) rfl row calls
    rw [called?_row] at calls
    obtain ⟨i, is, isCallee⟩ := Option.bind_eq_some_iff.mp calls
    have called : f ∈ callees l.units.flatten :=
      mem_references (List.mem_flatten_of_mem (unit u mem) here) is isCallee
    rw [mem_extern_iff ordinary, mem_externals_iff assembled, and_iff_right called]
    split
    · rename_i defined
      refine ⟨?_, fun none => ?_⟩
      · have heads := heads_render assembled ordinary
        rw [codeUnits_render ordinary] at heads
        have there : some (.label f "") ∈ l.unitsRows.map List.head? :=
          heads ▸ List.mem_map_of_mem (List.mem_cons_of_mem _ defined)
        exact List.mem_map.mp there
      · obtain ⟨d, mem, is⟩ := List.mem_map.mp defined
        exact none d mem is
    · rename_i undefined
      exact fun d mem is => undefined (List.mem_map.mpr ⟨d, mem, is⟩)

/-- A loop that is left, an array, constants with and without a leading zero, a bracket in quotes,
and calls of a function that is defined and of one that is not. -/
def measurements : Program where
  stmts :=
    [.define ⟨⟨"double", {}⟩, ⟨"half", {}⟩, [⟨⟨"double", {}⟩, some ⟨"x", {}⟩⟩]⟩ {}
        [.returnValue {} (some (.binary {} .mul (.var {} "x") (.literal {} (.number ".5"))))],
      .declare {} ⟨⟨"double", {}⟩, ⟨"sums", {}⟩, some 3, none⟩,
      .declare {} ⟨⟨"char", {}⟩, ⟨"mark", {}⟩, none, some (.literal {} (.char "'['"))⟩,
      .whileLoop (.call {} ⟨"more", {}⟩ []) {}
        [.assign {} ⟨"sums", {}⟩ (some (.literal {} (.number "1")))
            (.call {} ⟨"half", {}⟩ [.literal {} (.number "2.75")]),
          .breakLoop {}]]

theorem measurements_closed : ∃ l, measurements.assemble.1 = .ok l ∧
    l.constants = ["2.75", ".5"] ∧ l.externals = ["more"] ∧
    measurements.hasOrdinaryLexemes = true ∧ ClosedText measurements (rows l.render) := by
  have made : (measurements.assemble.1.toOption.map fun l => (l.constants, l.externals)) =
      some (["2.75", ".5"], ["more"]) := by decide +kernel
  have isOrdinary : measurements.hasOrdinaryLexemes = true := by decide
  cases assembled : measurements.assemble.1 with
  | error fault =>
      rw [assembled] at made
      contradiction
  | ok l =>
      rw [assembled] at made
      obtain ⟨constants, externals⟩ := Prod.mk.inj (Option.some.inj made)
      exact ⟨l, rfl, constants, externals, isOrdinary, closed_render assembled isOrdinary⟩

end BraceLang.Assembly
