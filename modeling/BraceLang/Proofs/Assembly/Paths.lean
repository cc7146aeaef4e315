import Mathlib.Data.List.Nodup
import Mathlib.Logic.Relation
import BraceLang.Proofs.Assembly.Outline

/-!
How full the two stacks are along the control-flow paths of lines of code.

Each instruction has an effect on `esp` and on the depth of the x87 stack. A call leaves `esp`
as it was, and a value in `st0` exactly if its function returns a `double`. A path goes from a
line to the next one or to the label that the line jumps to.

Along the paths the stacks are what a single reading of the lines from the first to the last
says, provided that every jump finds its label at the same height. What follows a line that does
not go on is read at a fixed height `base`.

**Main results.** `Closed.height`: if the jumps of some lines agree with their labels, and no
label is there twice, then all paths to a line reach it at the height that the reading says.
-/

namespace BraceLang.Assembly

/-! ### Effects -/

/-- How full the stacks are, counted from where a unit starts. -/
structure Stacks where
  /-- How far `esp` has moved. -/
  esp : Int
  /-- Where `ebp` points to, once the unit has set it. -/
  ebp : Option Int
  /-- The number of values on the x87 stack. -/
  fpu : Int
deriving DecidableEq, Repr

/-- The stacks where a unit starts. -/
def Stacks.entry : Stacks := ⟨0, none, 0⟩

def Stacks.shift (k : Stacks) (bytes depth : Int) : Stacks :=
  { k with esp := k.esp + bytes, fpu := k.fpu + depth }

@[simp] theorem Stacks.shift_zero (k : Stacks) : k.shift 0 0 = k := by
  simp [Stacks.shift]

theorem Stacks.shift_shift (k : Stacks) (a b c d : Int) :
    (k.shift a b).shift c d = k.shift (a + c) (b + d) := by
  simp [Stacks.shift, Int.add_assoc]

variable (iface : Interface)

/-- The function leaves its result in `st0`. -/
def returnsDouble (name : String) : Bool :=
  match iface.conventions.get? name with
  | some c => c.result == .double
  | none => false

/-- What an instruction adds to `esp` and to the depth of the x87 stack. -/
def Instr.effect : Instr → Int × Int
  | push _ => (-4, 0)
  | pop _ => (4, 0)
  | release bytes => (bytes, 0)
  | reserve bytes => (-bytes, 0)
  | fld _ | fldz | fild _ => (0, 1)
  | fstp _ | fdrop | fnip | fisttp _ | fcomip | fpu _ => (0, -1)
  | call name => (0, if returnsDouble iface name then 1 else 0)
  | movText .. | movNat .. | movReg .. | load _ | loadSigned _ | store _ | storeByte _ | set _
  | widen | cmpZero | cmp | alu _ | neg | flip | cdq | idiv | fchs | fprem | fnstsw | sahf | jmp _
  | je _ | jp _ | ret | trap => (0, 0)

/-- The stacks after an instruction. Only the code around the body of a function sets `esp` and
`ebp` from one another. -/
def Stacks.after (k : Stacks) : Instr → Stacks
  | .movReg .ebp .esp => { k with ebp := some k.esp }
  | .movReg .esp .ebp => { k with esp := k.ebp.getD k.esp }
  | .pop .ebp => { k with esp := k.esp + 4, ebp := none }
  | i => k.shift (i.effect iface).1 (i.effect iface).2

/-- Control does not go on to the next line. -/
def Instr.leaves : Instr → Bool
  | jmp _ | ret | trap => true
  | _ => false

/-- Where control may go instead of the next line. -/
def Instr.target? : Instr → Option Target
  | jmp t | je t | jp t => some t
  | _ => none

def Line.falls : Line → Bool
  | label _ => true
  | instr i => !i.leaves

def Line.target? : Line → Option Target
  | label _ => none
  | instr i => i.target?

def Stacks.afterLine (k : Stacks) : Line → Stacks
  | .label _ => k
  | .instr i => k.after iface i

theorem prologue_stays (size : Nat) : ∀ i ∈ prologue size, i.target? = none := by
  intro i mem
  rw [prologue] at mem
  split at mem
  · simp only [List.cons_append, List.nil_append, List.mem_cons, List.not_mem_nil, or_false] at mem
    rcases mem with rfl | rfl | rfl <;> rfl
  · simp only [List.cons_append, List.nil_append, List.mem_cons, List.not_mem_nil, or_false] at mem
    rcases mem with rfl | rfl <;> rfl

theorem defaultValue_stays (t : Ty) : ∀ i ∈ defaultValue t, i.target? = none := by
  cases t <;> decide

/-! ### Paths -/

/-- Control goes from a line to another one, and the stacks change on the way. -/
inductive Step (lines : List Line) : Nat × Stacks → Nat × Stacks → Prop
  | next {i : Nat} {x : Line} {k : Stacks} (here : lines[i]? = some x) (falls : x.falls = true) :
      Step lines (i, k) (i + 1, k.afterLine iface x)
  | jump {i j : Nat} {x : Line} {t : Target} {k : Stacks} (here : lines[i]? = some x)
      (target : x.target? = some t) (there : lines[j]? = some (.label t)) :
      Step lines (i, k) (j, k.afterLine iface x)

/-- Some path leads from a line to another one. -/
abbrev Reaches (lines : List Line) : Nat × Stacks → Nat × Stacks → Prop :=
  Relation.ReflTransGen (Step iface lines)

/-! ### A single reading of the lines -/

variable (base : Stacks)

/-- The stacks at the next line of a reading. -/
def readLine (k : Stacks) (x : Line) : Stacks := if x.falls then k.afterLine iface x else base

/-- The stacks at the end of a reading. -/
def heightAfter (k : Stacks) (lines : List Line) : Stacks := lines.foldl (readLine iface base) k

/-- What a reading finds at the lines. -/
def gather {α : Type} (found : Stacks → Line → List α) : Stacks → List Line → List α
  | _, [] => []
  | k, x :: rest => found k x ++ gather found (readLine iface base k x) rest

/-- The labels that a reading meets. -/
def labelsAt : Stacks → List Line → List (Target × Stacks) :=
  gather iface base fun k x => match x with
    | .label t => [(t, k)]
    | .instr _ => []

/-- The jumps that a reading meets. -/
def jumpsAt : Stacks → List Line → List (Target × Stacks) :=
  gather iface base fun k x => (x.target?.map (·, k.afterLine iface x)).toList

variable {iface base} {k k' : Stacks} {lines : List Line}

@[simp] theorem heightAfter_nil : heightAfter iface base k [] = k := rfl

theorem heightAfter_append (first second : List Line) :
    heightAfter iface base k (first ++ second) =
      heightAfter iface base (heightAfter iface base k first) second :=
  List.foldl_append

theorem gather_append {α : Type} (found : Stacks → Line → List α) (first second : List Line) :
    gather iface base found k (first ++ second) =
      gather iface base found k first ++
        gather iface base found (heightAfter iface base k first) second := by
  induction first generalizing k with
  | nil => rfl
  | cons x rest ih =>
      simp only [List.cons_append, gather, ih, List.append_assoc]
      rfl

theorem mem_gather {α : Type} {found : Stacks → Line → List α} {i : Nat} {x : Line} {a : α}
    (here : lines[i]? = some x) (mem : a ∈ found (heightAfter iface base k (lines.take i)) x) :
    a ∈ gather iface base found k lines := by
  obtain ⟨inside, rfl⟩ := List.getElem?_eq_some_iff.mp here
  have split : lines = lines.take i ++ lines.get ⟨i, inside⟩ :: lines.drop (i + 1) := by
    rw [List.get_eq_getElem, List.getElem_cons_drop, List.take_append_drop]
  rw [split, gather_append, gather]
  exact List.mem_append_right _ (List.mem_append_left _ mem)

theorem labelsAt_append (first second : List Line) :
    labelsAt iface base k (first ++ second) =
      labelsAt iface base k first ++ labelsAt iface base (heightAfter iface base k first) second :=
  gather_append _ first second

theorem jumpsAt_append (first second : List Line) :
    jumpsAt iface base k (first ++ second) =
      jumpsAt iface base k first ++ jumpsAt iface base (heightAfter iface base k first) second :=
  gather_append _ first second

theorem map_fst_labelsAt (k : Stacks) (lines : List Line) :
    (labelsAt iface base k lines).map Prod.fst = placed lines := by
  induction lines generalizing k with
  | nil => rfl
  | cons x rest ih =>
      cases x with
      | label t => exact congrArg (t :: ·) (ih _)
      | instr i => exact ih _

/-- Every jump finds its label at the height of the jump, and no label is there twice. -/
structure Closed (iface : Interface) (base k : Stacks) (lines : List Line) : Prop where
  jumps : ∀ j ∈ jumpsAt iface base k lines, j ∈ labelsAt iface base k lines
  once : (placed lines).Nodup

/-- A label stands at one height. -/
theorem Closed.label_height (closed : Closed iface base k lines) {t : Target} {h : Stacks} {i : Nat}
    (there : lines[i]? = some (.label t)) (mem : (t, h) ∈ labelsAt iface base k lines) :
    h = heightAfter iface base k (lines.take i) := by
  have met : (t, heightAfter iface base k (lines.take i)) ∈ labelsAt iface base k lines :=
    mem_gather there List.mem_cons_self
  have once := closed.once
  have keys : (labelsAt iface base k lines).map Prod.fst = placed lines := map_fst_labelsAt k lines
  rw [← keys] at once
  exact congrArg Prod.snd (List.inj_on_of_nodup_map once mem met rfl)

theorem heightAfter_take_succ {i : Nat} {x : Line} (here : lines[i]? = some x)
    (falls : x.falls = true) :
    heightAfter iface base k (lines.take (i + 1)) =
      (heightAfter iface base k (lines.take i)).afterLine iface x := by
  rw [List.take_add_one, here, heightAfter_append]
  exact if_pos falls

/-- All paths reach a line at the height that the reading says. -/
theorem Closed.height (closed : Closed iface base k lines) {i : Nat}
    (reaches : Reaches iface lines (0, k) (i, k')) :
    k' = heightAfter iface base k (lines.take i) := by
  suffices along : ∀ spot, Reaches iface lines (0, k) spot →
      spot.2 = heightAfter iface base k (lines.take spot.1) from along (i, k') reaches
  intro spot reaches
  induction reaches with
  | refl => rfl
  | tail _ step ih =>
      cases step with
      | next here falls =>
          rw [heightAfter_take_succ here falls]
          exact congrArg (Stacks.afterLine iface · _) ih
      | jump here target there =>
          refine closed.label_height there (closed.jumps _ (mem_gather here ?_))
          rw [target, ← ih]
          exact List.mem_singleton.mpr rfl

/-- Lines that all go on have a path from the first to any other one. -/
theorem reaches_take {i : Nat} (inside : i ≤ lines.length)
    (falls : ∀ x ∈ lines.take i, x.falls = true) :
    Reaches iface lines (0, k) (i, heightAfter iface base k (lines.take i)) := by
  induction i with
  | zero => exact .refl
  | succ i ih =>
      have here : lines[i]? = some (lines.get ⟨i, inside⟩) := List.getElem?_eq_getElem inside
      rw [List.take_add_one, here] at falls
      have goesOn := falls _ (List.mem_append_right _ List.mem_cons_self)
      rw [heightAfter_take_succ here goesOn]
      exact (ih (Nat.le_of_succ_le inside) fun x mem => falls x (List.mem_append_left _ mem)).tail
        (.next here goesOn)

/-! ### Code with a fixed effect -/

/-- However the lines are read, they go on to their end, and they add `bytes` to `esp` and
`depth` to the x87 stack. -/
structure Shifts (iface : Interface) (bytes depth : Int) (lines : List Line) : Prop where
  falls : ∀ x ∈ lines, x.falls = true
  height : ∀ base k, heightAfter iface base k lines = k.shift bytes depth
  jumps : ∀ base k, ∀ j ∈ jumpsAt iface base k lines, j ∈ labelsAt iface base k lines

namespace Shifts

variable {bytes depth bytes' depth' : Int} {first second : List Line}

theorem nil : Shifts iface 0 0 [] where
  falls := nofun
  height _ k := k.shift_zero.symm
  jumps _ _ := nofun

theorem append (one : Shifts iface bytes depth first) (other : Shifts iface bytes' depth' second) :
    Shifts iface (bytes + bytes') (depth + depth') (first ++ second) where
  falls x mem := (List.mem_append.mp mem).elim (one.falls x) (other.falls x)
  height base k := by rw [heightAfter_append, one.height, other.height, Stacks.shift_shift]
  jumps base k j mem := by
    rw [jumpsAt_append] at mem
    rw [labelsAt_append]
    rcases List.mem_append.mp mem with mem | mem
    · exact List.mem_append_left _ (one.jumps base k j mem)
    · exact List.mem_append_right _ (other.jumps base _ j mem)

theorem cast (shifts : Shifts iface bytes depth lines) (sameBytes : bytes = bytes')
    (sameDepth : depth = depth') : Shifts iface bytes' depth' lines :=
  sameBytes ▸ sameDepth ▸ shifts

theorem closed (shifts : Shifts iface bytes depth lines) (once : (placed lines).Nodup)
    (base k : Stacks) : Closed iface base k lines :=
  ⟨shifts.jumps base k, once⟩

/-- All paths through the first of the lines, and there is one, have their effect. -/
theorem reaches_first_iff (one : Shifts iface bytes depth first)
    (whole : Shifts iface bytes' depth' (first ++ second))
    (once : (placed (first ++ second)).Nodup) :
    Reaches iface (first ++ second) (0, k) (first.length, k') ↔ k' = k.shift bytes depth := by
  constructor
  · intro reaches
    rw [(whole.closed once k k).height reaches, List.take_left, one.height]
  · rintro rfl
    have inside : first.length ≤ (first ++ second).length := by simp
    have path : Reaches iface _ (0, k) (_, heightAfter iface k k _) :=
      reaches_take inside fun x mem => whole.falls x (List.mem_of_mem_take mem)
    rwa [List.take_left, one.height] at path

/-- All paths through the lines, and there is one, have the effect. -/
theorem reaches_iff (shifts : Shifts iface bytes depth lines) (once : (placed lines).Nodup) :
    Reaches iface lines (0, k) (lines.length, k') ↔ k' = k.shift bytes depth := by
  have whole : Shifts iface bytes depth (lines ++ []) := (List.append_nil lines).symm ▸ shifts
  have path : Reaches iface (lines ++ []) (0, k) (lines.length, k') ↔ _ :=
    shifts.reaches_first_iff whole ((List.append_nil lines).symm ▸ once)
  rwa [List.append_nil] at path

end Shifts

/-- The instruction goes on to the next one and leaves `esp` and `ebp` to its effect. -/
def Instr.isPlain : Instr → Bool
  | movText dst _ | movNat dst _ | movReg dst _ | pop dst => dst != .esp && dst != .ebp
  | jmp _ | je _ | jp _ | ret | trap => false
  | _ => true

/-- The effect of instructions together. -/
def effectOf (iface : Interface) (instrs : List Instr) : Int × Int :=
  instrs.foldr (fun i sum => ((i.effect iface).1 + sum.1, (i.effect iface).2 + sum.2)) (0, 0)

theorem shifts_instr {i : Instr} (isPlain : i.isPlain = true) :
    Shifts iface (i.effect iface).1 (i.effect iface).2 [.instr i] := by
  have after (k : Stacks) : k.after iface i = k.shift (i.effect iface).1 (i.effect iface).2 := by
    unfold Stacks.after
    split
    · contradiction
    · contradiction
    · contradiction
    · rfl
  have goesOn : i.leaves = false := by
    cases i <;> first | rfl | contradiction
  have stays : i.target? = none := by
    cases i <;> first | rfl | contradiction
  refine ⟨?_, ?_, ?_⟩
  · intro x mem
    obtain rfl := List.mem_singleton.mp mem
    rw [Line.falls, goesOn]
    rfl
  · intro base k
    change readLine iface base k (.instr i) = _
    rw [readLine, Line.falls, goesOn]
    exact after k
  · intro base k j mem
    change j ∈ (Option.map _ i.target?).toList ++ [] at mem
    rw [stays] at mem
    contradiction

/-- The effect of plain code is the sum of the effects. -/
theorem shifts_code (instrs : List Instr) (isPlain : instrs.all Instr.isPlain = true) :
    Shifts iface (effectOf iface instrs).1 (effectOf iface instrs).2 (code instrs) := by
  induction instrs with
  | nil => exact .nil
  | cons i rest ih =>
      rw [List.all_cons, Bool.and_eq_true] at isPlain
      exact (shifts_instr isPlain.1).append (ih isPlain.2)

theorem shifts_of {bytes depth : Int} {instrs : List Instr}
    (isPlain : instrs.all Instr.isPlain = true)
    (sum : effectOf iface instrs = (bytes, depth)) : Shifts iface bytes depth (code instrs) := by
  have shifts : Shifts iface (effectOf iface instrs).1 _ _ := shifts_code instrs isPlain
  rwa [sum] at shifts

end BraceLang.Assembly
