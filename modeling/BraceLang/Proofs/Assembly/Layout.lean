import BraceLang.Proofs.Assembly.Slots
import Mathlib.Data.List.Flatten

/-!
Storage of the variables in the open scopes.

While code is made, the table of slots says where each variable of an open scope is kept, but not
how much of it there is. A ledger stands beside the table: it has the same variables, with their
lengths.

**Main results.** `Sound.allocate`: the storage that is found for a declaration goes with that of
the variables in the ledger. It is apart from theirs, with two exceptions: at top level a
declaration takes over the reservation of a variable with its name, type and length
(`isApart_of_redeclares`), and in a frame of more than half of the address space a local variable
may reach above the frame pointer, where the parameters are. `Sound.enterRoutine`: a function
starts with its parameters apart.
-/

namespace BraceLang.Assembly

variable {iface : Interface} {s s' : State} {targets : Option Targets}

/-! ### Variables and their storage -/

/-- A variable of an open scope. -/
structure Holding where
  name : String
  slot : Slot
  /-- How many values of its type it holds. -/
  count : Nat
  isParam : Bool

namespace Holding

/-- The name and the slot, as they stand in the table. -/
def entry (h : Holding) : String × Slot := (h.name, h.slot)

def bytes (h : Holding) : Nat := h.slot.type.size * h.count

/-- The reservation of a variable that is kept under a label. -/
def reservation (h : Holding) (label : String) : Reservation :=
  ⟨h.name, h.slot.type, h.count, label⟩

def isGlobal (h : Holding) : Bool :=
  match h.slot.place with
  | .global _ => true
  | .frame _ => false

/-- Two variables have different reservations, or ranges of the frame that do not overlap. -/
def isApart (a b : Holding) : Bool :=
  match a.slot.place, b.slot.place with
  | .global l, .global m => a.reservation l != b.reservation m
  | .frame i, .frame j => decide (i + a.bytes ≤ j ∨ j + b.bytes ≤ i)
  | .global _, .frame _ | .frame _, .global _ => true

/-- Both are top-level variables, of the same name, type and length. -/
def Redeclares (a b : Holding) : Prop :=
  a.isGlobal = true ∧ b.isGlobal = true ∧ a.name = b.name ∧ a.slot.type = b.slot.type ∧
    a.count = b.count

/-- A local variable that is not below the frame pointer. -/
def ReachesUp (h : Holding) : Prop := h.isParam = false ∧ ∃ i, h.slot.place = .frame i ∧ 0 ≤ i

/-- One is a parameter, the other a local variable that is not below the frame pointer. -/
def Collides (a b : Holding) : Prop :=
  a.isParam = true ∧ b.ReachesUp ∨ b.isParam = true ∧ a.ReachesUp

/-- The storage of the variable is there: a reservation, an argument or a part of the frame. -/
def Kept (s : State) (h : Holding) : Prop :=
  match h.slot.place with
  | .global label => h.reservation label ∈ s.reservations
  | .frame offset => ∃ f, s.frame = some f ∧
      if h.isParam then (firstArgument : Int) ≤ offset
      else ∃ e, h.bytes ≤ e ∧ e ≤ f.size ∧ e < 0x100000000 ∧ distance e = .ok offset

theorem isApart_comm {a b : Holding} (apart : a.isApart b = true) : b.isApart a = true := by
  unfold isApart at apart ⊢
  split at apart <;> rename_i at_a at_b <;> rw [at_a, at_b]
  · exact bne_iff_ne.mpr (Ne.symm (bne_iff_ne.mp apart))
  · exact decide_eq_true (Or.symm (of_decide_eq_true apart))

theorem Redeclares.symm {a b : Holding} (same : a.Redeclares b) : b.Redeclares a :=
  ⟨same.2.1, same.1, same.2.2.1.symm, same.2.2.2.1.symm, same.2.2.2.2.symm⟩

/-- What holds of two variables that are alive at the same time. -/
def Coexist (a b : Holding) : Prop := a.isApart b = true ∨ a.Redeclares b ∨ a.Collides b

theorem Coexist.symm {a b : Holding} (both : a.Coexist b) : b.Coexist a :=
  both.imp isApart_comm (.imp Redeclares.symm Or.symm)

/-- Reservations of different names, types or lengths are different. -/
theorem coexist_global {a b : Holding} (ga : a.isGlobal = true) (gb : b.isGlobal = true) :
    a.Coexist b := by
  by_cases same : a.name = b.name ∧ a.slot.type = b.slot.type ∧ a.count = b.count
  · exact .inr (.inl ⟨ga, gb, same⟩)
  · left
    unfold isGlobal at ga gb
    unfold isApart
    split
    · rw [bne_iff_ne]
      intro equal
      injection equal with name type count
      exact same ⟨name, type, count⟩
    · simp_all
    · rfl
    · rfl

end Holding

/-! ### Frames -/

theorem le_alignUp (n : Nat) {a : Nat} (positive : 0 < a) : n ≤ alignUp n a := by
  have rounded := Nat.div_add_mod (n + a - 1) a
  have small := Nat.mod_lt (n + a - 1) positive
  unfold alignUp
  rw [Nat.mul_comm]
  omega

theorem alignUp_lt (n : Nat) {a : Nat} (positive : 0 < a) : alignUp n a < n + a := by
  have rounded := Nat.div_mul_le_self (n + a - 1) a
  unfold alignUp
  omega

theorem word_ok {fault : Fault} {n m : Nat} (fits : word fault n = .ok m) :
    n = m ∧ n < 0x100000000 := by
  unfold word at fits
  split at fits
  · rename_i below
    exact ⟨Except.ok.inj fits, below⟩
  · contradiction

theorem ok_of_bind {α β : Type} {first : Except Fault α} {next : α → Except Fault β} {b : β}
    (ends : (first >>= next) = .ok b) : ∃ a, first = .ok a ∧ next a = .ok b := by
  cases first with
  | error fault => contradiction
  | ok a => exact ⟨a, rfl, ends⟩

theorem alignment_pos (t : Ty) : 0 < alignment t := by
  unfold alignment
  split <;> decide

/-- A frame that grows does so within the words, rounding included. -/
theorem growFrame_rounds {size size' count : Nat} {t : Ty} {offset : Int}
    (grown : growFrame size t count = .ok (size', offset)) :
    size + t.size * count + alignment t < 0x100000000 ∧
      size' = alignUp (size + t.size * count) (alignment t) ∧ distance size' = .ok offset := by
  unfold growFrame at grown
  obtain ⟨_, bytes, grown⟩ := ok_of_bind grown
  obtain ⟨rfl, -⟩ := word_ok bytes
  obtain ⟨_, used, grown⟩ := ok_of_bind grown
  obtain ⟨rfl, -⟩ := word_ok used
  obtain ⟨_, room, grown⟩ := ok_of_bind grown
  obtain ⟨rfl, fits⟩ := word_ok room
  obtain ⟨_, placed, grown⟩ := ok_of_bind grown
  obtain ⟨rfl, rfl⟩ := Prod.mk.inj (Except.ok.inj grown)
  exact ⟨fits, rfl, placed⟩

/-- A frame grows by at least what it is to hold, and stays a word. -/
theorem growFrame_ok {size size' count : Nat} {t : Ty} {offset : Int}
    (grown : growFrame size t count = .ok (size', offset)) :
    size + t.size * count ≤ size' ∧ size' < 0x100000000 ∧ distance size' = .ok offset := by
  obtain ⟨fits, rfl, placed⟩ := growFrame_rounds grown
  have least := le_alignUp (size + t.size * count) (alignment_pos t)
  have most := alignUp_lt (size + t.size * count) (alignment_pos t)
  exact ⟨least, by omega, placed⟩

theorem distance_ok {e : Nat} {i : Int} (placed : distance e = .ok i) :
    e < 0x80000000 ∧ i = -(e : Int) ∨ 0x80000000 < e ∧ i = 0x100000000 - (e : Int) := by
  unfold distance at placed
  split at placed
  · contradiction
  · have same := Except.ok.inj placed
    split at same <;> omega

/-- Parts of a frame do not overlap. -/
theorem frame_apart {e e' b b' : Nat} {i i' : Int} (old : distance e = .ok i)
    (new : distance e' = .ok i') (small : b ≤ e) (behind : e + b' ≤ e') (word : e' < 0x100000000) :
    i' + b' ≤ i ∨ i + b ≤ i' := by
  rcases distance_ok old with ⟨_, rfl⟩ | ⟨_, rfl⟩ <;>
    rcases distance_ok new with ⟨_, rfl⟩ | ⟨_, rfl⟩ <;> omega

/-! ### Reservations -/

/-- There is one reservation for a name with its type and length. -/
def OneEach (rs : List Reservation) : Prop :=
  ∀ r ∈ rs, ∀ r' ∈ rs, r.name = r'.name → r.type = r'.type → r.count = r'.count → r = r'

/-- The reservation is there, and none was given up. -/
theorem reserveSpace_spec (rs : List Reservation) (name : String) (t : Ty) (count : Nat) :
    ⟨name, t, count, (reserveSpace rs name t count).1⟩ ∈ (reserveSpace rs name t count).2 ∧
      (∀ r ∈ rs, r ∈ (reserveSpace rs name t count).2) ∧
      (OneEach rs → OneEach (reserveSpace rs name t count).2) := by
  unfold reserveSpace
  split
  · rename_i r found
    have matches_ := List.find?_some found
    simp only [Bool.and_eq_true, beq_iff_eq] at matches_
    obtain ⟨⟨rfl, rfl⟩, rfl⟩ := matches_
    exact ⟨List.mem_of_find?_eq_some found, fun _ mem => mem, id⟩
  · rename_i missing
    refine ⟨by simp, fun r mem => List.mem_append_left _ mem, ?_⟩
    intro one r mem r' mem' sameName sameType sameCount
    have other : ∀ r ∈ rs, r.name = name → r.type = t → r.count = count → False := by
      intro r mem sameName sameType sameCount
      refine List.find?_eq_none.mp missing r mem ?_
      simp [sameName, sameType, sameCount]
    rcases List.mem_append.mp mem with mem | mem <;> rcases List.mem_append.mp mem' with mem' | mem'
    · exact one r mem r' mem' sameName sameType sameCount
    · obtain rfl := List.mem_singleton.mp mem'
      exact (other r mem sameName sameType sameCount).elim
    · obtain rfl := List.mem_singleton.mp mem
      exact (other r' mem' sameName.symm sameType.symm sameCount.symm).elim
    · rw [List.mem_singleton.mp mem, List.mem_singleton.mp mem']

/-! ### Ledgers -/

/-- The variables of the open scopes, the innermost scope first. -/
abbrev Ledger := List (List Holding)

namespace Ledger

def enter (l : Ledger) : Ledger := [] :: l

/-- Adds a variable to the current scope, unless its name is there already. -/
def add (h : Holding) : Ledger → Ledger
  | [] => []
  | scope :: rest => (if scope.any (·.name == h.name) then scope else scope ++ [h]) :: rest

/-- Adds the parameters of a function, the first of them at `offset`. -/
def addParams : Nat → List Param → Ledger → Ledger
  | _, [], l => l
  | offset, p :: rest, l =>
      let t := typeOf p.type.val
      addParams (offset + argumentBytes t) rest (match p.name with
        | none => l
        | some name => l.add ⟨name.val, ⟨t, .frame offset⟩, 1, true⟩)

end Ledger

/-- The ledger has the variables of the table, and their storage is kept apart as far as it
goes. -/
structure Sound (inRoutine : Bool) (s : State) (l : Ledger) : Prop where
  faithful : s.env.stack.scopes.map Assoc.entries = l.map (·.map Holding.entry)
  names : ∀ scope ∈ l, scope.Pairwise fun a b => a.name ≠ b.name
  kept : ∀ h ∈ l.flatten, h.Kept s
  coexist : l.flatten.Pairwise Holding.Coexist
  single : inRoutine = true → l.flatten.Pairwise fun a b => ¬ a.Redeclares b
  oneEach : OneEach s.reservations
  frame : s.frame.isSome = inRoutine

variable {l : Ledger} {inRoutine : Bool}

/-- Storage that is there stays there while more is given out. -/
theorem Holding.Kept.mono {h : Holding} (kept : h.Kept s)
    (reservations : ∀ r ∈ s.reservations, r ∈ s'.reservations)
    (frame : ∀ f, s.frame = some f → ∃ f', s'.frame = some f' ∧ f.size ≤ f'.size) : h.Kept s' := by
  unfold Holding.Kept at kept ⊢
  split
  · rename_i label place
    rw [place] at kept
    exact reservations _ kept
  · rename_i offset place
    rw [place] at kept
    obtain ⟨f, framed, within⟩ := kept
    obtain ⟨f', framed', larger⟩ := frame f framed
    refine ⟨f', framed', ?_⟩
    split
    · rename_i isParam
      simpa [isParam] using within
    · rename_i isLocal
      simp only [isLocal, Bool.false_eq_true, if_false] at within
      obtain ⟨e, small, most, word, placed⟩ := within
      exact ⟨e, small, Nat.le_trans most larger, word, placed⟩

theorem contains_eq_any {scope : Scope Slot} {holdings : List Holding}
    (same : scope.entries = holdings.map Holding.entry) (name : String) :
    scope.contains name = holdings.any (·.name == name) := by
  rw [Bool.eq_iff_iff, Assoc.contains, Assoc.get?, List.lookup_isSome_iff, List.any_eq_true, same]
  constructor
  · rintro ⟨_, mem, found⟩
    obtain ⟨h, held, rfl⟩ := List.mem_map.mp mem
    exact ⟨h, held, beq_iff_eq.mpr (beq_iff_eq.mp found).symm⟩
  · rintro ⟨h, mem, found⟩
    exact ⟨h.entry, List.mem_map_of_mem mem, beq_iff_eq.mpr (beq_iff_eq.mp found).symm⟩

/-- The ledger takes in what the table takes in. -/
theorem faithful_add {h : Holding}
    (faithful : s.env.stack.scopes.map Assoc.entries = l.map (·.map Holding.entry)) :
    (declareSlot h.name h.slot s).2.env.stack.scopes.map Assoc.entries =
      (l.add h).map (·.map Holding.entry) := by
  have stack : (declareSlot h.name h.slot s).2.env.stack =
      (s.env.stack.declare? h.name h.slot).getD s.env.stack := by
    change (s.env.declare h.name h.slot).2.stack = _
    unfold Env.declare
    cases s.env.stack.declare? h.name h.slot <;> rfl
  rw [stack, ScopeStack.declare?]
  cases scopes : s.env.stack.scopes with
  | nil =>
      rw [scopes] at faithful
      obtain rfl : l = [] := List.map_eq_nil_iff.mp faithful.symm
      exact congrArg (List.map Assoc.entries) scopes
  | cons scope outer =>
      rw [scopes] at faithful
      cases l with
      | nil => contradiction
      | cons holdings rest =>
          obtain ⟨same, others⟩ := List.cons.inj faithful
          simp only [Scope.declare?, Ledger.add, contains_eq_any same]
          cases holdings.any (·.name == h.name) with
          | true =>
              simp only [if_true, Option.map_none, Option.getD_none]
              rw [scopes]
              exact faithful
          | false => simp [same, others, Holding.entry]

namespace Sound

theorem of_same (sound : Sound inRoutine s l) (stack : s'.env.stack = s.env.stack)
    (frame : s'.frame = s.frame) (reservations : s'.reservations = s.reservations) :
    Sound inRoutine s' l := by
  constructor
  · rw [stack]
    exact sound.faithful
  · exact sound.names
  · intro h mem
    refine (sound.kept h mem).mono ?_ ?_
    · rw [reservations]
      exact fun _ mem => mem
    · rw [frame]
      exact fun f framed => ⟨f, framed, Nat.le_refl _⟩
  · exact sound.coexist
  · exact sound.single
  · rw [reservations]
    exact sound.oneEach
  · rw [frame]
    exact sound.frame

theorem grow (sound : Sound inRoutine s l) (grows : s.Grows s') : Sound inRoutine s' l :=
  sound.of_same grows.stack grows.frame grows.reservations

theorem enter (sound : Sound inRoutine s l) : Sound inRoutine (openScope s).2 l.enter where
  faithful := congrArg ([] :: ·) sound.faithful
  names scope mem := by
    rcases List.mem_cons.mp mem with rfl | mem
    · exact .nil
    · exact sound.names scope mem
  kept := sound.kept
  coexist := sound.coexist
  single := sound.single
  oneEach := sound.oneEach
  frame := sound.frame

theorem leave (sound : Sound inRoutine s l) : Sound inRoutine (closeScope s).2 l.tail := by
  have closed : (closeScope s).2.env.stack.scopes = s.env.stack.scopes.tail := by
    obtain ⟨⟨⟨scopes⟩, journal⟩, _⟩ := s
    cases scopes <;> rfl
  have fewer : l.tail.flatten.Sublist l.flatten := (List.tail_sublist l).flatten
  constructor
  · rw [closed, List.map_tail, sound.faithful, List.map_tail]
  · exact fun inner mem => sound.names inner (List.mem_of_mem_tail mem)
  · exact fun h mem => sound.kept h (fewer.subset mem)
  · exact sound.coexist.sublist fewer
  · exact fun framed => (sound.single framed).sublist fewer
  · exact sound.oneEach
  · exact sound.frame

theorem add {h : Holding} (sound : Sound inRoutine s l) (kept : h.Kept s)
    (fits : ∀ a ∈ l.flatten, h.Coexist a) (single : inRoutine = true → h.isGlobal = false) :
    Sound inRoutine (declareSlot h.name h.slot s).2 (l.add h) := by
  have faithful := faithful_add (h := h) sound.faithful
  cases l with
  | nil => exact ⟨faithful, nofun, nofun, .nil, fun _ => .nil, sound.oneEach, sound.frame⟩
  | cons scope rest =>
      rw [Ledger.add] at faithful ⊢
      split at faithful
      · rename_i present
        rw [if_pos present]
        exact ⟨faithful, sound.names, sound.kept, sound.coexist, sound.single, sound.oneEach,
          sound.frame⟩
      · rename_i absent
        rw [if_neg absent]
        have mem_iff : ∀ a, a ∈ ((scope ++ [h]) :: rest).flatten ↔
            a = h ∨ a ∈ (scope :: rest).flatten := by
          simp [or_left_comm]
        refine ⟨faithful, ?_, ?_, ?_, ?_, sound.oneEach, sound.frame⟩
        · intro inner mem
          rcases List.mem_cons.mp mem with rfl | mem
          · refine List.pairwise_append.mpr
              ⟨sound.names scope List.mem_cons_self, List.pairwise_singleton _ _, ?_⟩
            intro a older b newer same
            obtain rfl := List.mem_singleton.mp newer
            exact absent (List.any_eq_true.mpr ⟨a, older, beq_iff_eq.mpr same⟩)
          · exact sound.names inner (List.mem_cons_of_mem _ mem)
        · intro a mem
          rcases (mem_iff a).mp mem with rfl | mem
          · exact kept
          · exact sound.kept a mem
        · rw [List.flatten_cons, List.append_assoc, List.singleton_append,
            List.pairwise_middle Holding.Coexist.symm]
          exact List.pairwise_cons.mpr ⟨fits, sound.coexist⟩
        · intro framed
          have notGlobal := single framed
          rw [List.flatten_cons, List.append_assoc, List.singleton_append,
            List.pairwise_middle fun differ same => differ same.symm]
          refine List.pairwise_cons.mpr ⟨?_, sound.single framed⟩
          rintro a - ⟨isGlobal, -⟩
          rw [notGlobal] at isGlobal
          contradiction

end Sound

/-! ### Declarations -/

/-- Without a frame, all variables have reservations. -/
theorem Holding.Kept.isGlobal {h : Holding} (kept : h.Kept s) (unframed : s.frame = none) :
    h.isGlobal = true := by
  unfold Holding.Kept at kept
  unfold Holding.isGlobal
  split
  · rfl
  · rename_i place
    rw [place] at kept
    obtain ⟨f, framed, -⟩ := kept
    rw [unframed] at framed
    contradiction

/-- A reservation does not depend on the frame. -/
theorem Holding.Kept.of_isGlobal {h : Holding} (kept : h.Kept s) (isGlobal : h.isGlobal = true)
    (reservations : s'.reservations = s.reservations) : h.Kept s' := by
  unfold Holding.Kept at kept ⊢
  unfold Holding.isGlobal at isGlobal
  split
  · rename_i place
    rw [place] at kept
    rw [reservations]
    exact kept
  · rename_i place
    rw [place] at isGlobal
    contradiction

/-- A part that a frame grows by does not overlap with what was there before. -/
theorem coexist_local {f : Frame} {h a : Holding} {e : Nat} {offset : Int}
    (framed : s.frame = some f) (kept : a.Kept s) (place : h.slot.place = .frame offset)
    (notParam : h.isParam = false) (behind : f.size + h.bytes ≤ e) (word : e < 0x100000000)
    (placed : distance e = .ok offset) : h.Coexist a := by
  unfold Holding.Kept at kept
  cases at_a : a.slot.place with
  | global label =>
      left
      simp only [Holding.isApart, place, at_a]
  | frame offset' =>
      rw [at_a] at kept
      obtain ⟨f', framed', within⟩ := kept
      obtain rfl := Option.some.inj (framed.symm.trans framed')
      split at within
      · rename_i isParam
        by_cases above : 0 ≤ offset
        · exact .inr (.inr (.inr ⟨isParam, notParam, offset, place, above⟩))
        · left
          simp only [Holding.isApart, place, at_a, decide_eq_true_eq]
          unfold firstArgument at within
          rcases distance_ok placed with ⟨_, rfl⟩ | ⟨_, rfl⟩ <;> omega
      · obtain ⟨e', small, most, -, placed'⟩ := within
        left
        simp only [Holding.isApart, place, at_a, decide_eq_true_eq]
        exact frame_apart placed' placed small (by omega) word

/-- Storage that was found for a variable goes with all the rest. -/
theorem Sound.allocate {name : String} {t : Ty} {length : Option UInt32} {slot : Slot}
    (sound : Sound inRoutine s l) (done : Done (Assembly.allocate name t length) s slot s') :
    Sound inRoutine (declareSlot name slot s').2
      (l.add ⟨name, slot, valueCount length, false⟩) := by
  rcases done_allocate_cases done with
    ⟨f, size, offset, framed, grown, rfl, rfl⟩ | ⟨unframed, rfl, rfl⟩
  · obtain ⟨behind, word, placed⟩ := growFrame_ok grown
    have grows : ∀ f₀, s.frame = some f₀ →
        ∃ f', some { f with size } = some f' ∧ f₀.size ≤ f'.size := by
      intro f₀ framed₀
      obtain rfl := Option.some.inj (framed.symm.trans framed₀)
      exact ⟨_, rfl, by dsimp only; omega⟩
    refine Sound.add (h := ⟨name, ⟨t, .frame offset⟩, valueCount length, false⟩) ?_ ?_ ?_
      fun _ => rfl
    · constructor
      · exact sound.faithful
      · exact sound.names
      · exact fun h mem => (sound.kept h mem).mono (fun _ mem => mem) grows
      · exact sound.coexist
      · exact sound.single
      · exact sound.oneEach
      · rw [← sound.frame, framed]
        rfl
    · refine ⟨_, rfl, size, ?_, Nat.le_refl _, word, placed⟩
      exact Nat.le_trans (Nat.le_add_left _ _) behind
    · intro a mem
      exact coexist_local framed (sound.kept a mem) rfl rfl behind word placed
  · obtain ⟨reserved, others, one⟩ := reserveSpace_spec s.reservations name t (valueCount length)
    refine Sound.add (h := ⟨name, ⟨t, .global _⟩, valueCount length, false⟩) ?_ reserved ?_ ?_
    · constructor
      · exact sound.faithful
      · exact sound.names
      · exact fun h mem => (sound.kept h mem).mono others fun f framed => ⟨f, framed, Nat.le_refl _⟩
      · exact sound.coexist
      · exact sound.single
      · exact one sound.oneEach
      · exact sound.frame
    · intro a mem
      exact Holding.coexist_global rfl ((sound.kept a mem).isGlobal unframed)
    · intro framed
      have top := sound.frame
      rw [unframed, framed] at top
      contradiction

/-- A redeclaration takes over the reservation that is there. -/
theorem isApart_of_redeclares {a b : Holding} (oneEach : OneEach s.reservations)
    (kept : a.Kept s) (kept' : b.Kept s) (same : a.Redeclares b) : a.isApart b = false := by
  obtain ⟨ga, gb, name, type, count⟩ := same
  unfold Holding.isGlobal at ga gb
  unfold Holding.Kept at kept kept'
  unfold Holding.isApart
  split
  · rename_i at_a at_b
    rw [at_a] at kept
    rw [at_b] at kept'
    rw [bne_eq_false_iff_eq]
    exact oneEach _ kept _ kept' name type count
  all_goals simp_all

/-! ### Parameters -/

theorem mem_add {h a : Holding} (mem : a ∈ (l.add h).flatten) : a = h ∨ a ∈ l.flatten := by
  cases l with
  | nil => contradiction
  | cons scope rest =>
      rw [Ledger.add] at mem
      split at mem
      · exact .inr mem
      · simp only [List.flatten_cons, List.mem_append, List.mem_singleton] at mem ⊢
        tauto

theorem size_le_argumentBytes (t : Ty) : t.size ≤ argumentBytes t := by
  cases t <;> decide

/-- Each parameter stands behind those in front of it. -/
theorem Sound.addParams {params : List Param} {offset : Nat} (sound : Sound true s l)
    (start : firstArgument ≤ offset)
    (behind : ∀ a ∈ l.flatten, ∀ i, a.slot.place = .frame i → i + a.bytes ≤ offset) :
    Sound true (declareParams offset params s).2 (l.addParams offset params) := by
  induction params generalizing offset s l with
  | nil => exact sound
  | cons p rest ih =>
      rw [declareParams_cons, Ledger.addParams]
      have size := size_le_argumentBytes (typeOf p.type.val)
      cases p.name with
      | none =>
          refine ih sound (by omega) fun a mem i place => ?_
          have := behind a mem i place
          omega
      | some name =>
          obtain ⟨f, framed⟩ := Option.isSome_iff_exists.mp sound.frame
          refine ih (sound.add (h := ⟨name.val, ⟨_, .frame offset⟩, 1, true⟩) ?_ ?_ fun _ => rfl)
            (by omega) fun a mem i place => ?_
          · exact ⟨f, framed, Int.ofNat_le.mpr start⟩
          · intro a mem
            left
            cases place : a.slot.place with
            | global label => simp only [Holding.isApart, place]
            | frame i =>
                simp only [Holding.isApart, place, decide_eq_true_eq]
                exact .inr (behind a mem i place)
          · rcases mem_add mem with rfl | mem
            · cases place
              simp only [Holding.bytes, Nat.mul_one]
              omega
            · have := behind a mem i place
              omega

/-- A function starts with its parameters in front of the variables of the top level. -/
theorem Sound.enterRoutine {scope : List Holding} (sound : Sound false s [scope]) (h : Heading) :
    Sound true (Assembly.enterRoutine h s).2
      (Ledger.addParams firstArgument h.params (Ledger.enter [scope])) := by
  have unframed : s.frame = none := Option.not_isSome_iff_eq_none.mp (by simp [sound.frame])
  have isGlobal := fun a mem => (sound.kept a mem).isGlobal unframed
  have framed : Sound true { s with frame := some { result := typeOf h.result.val } } [scope] := by
    refine ⟨sound.faithful, sound.names, ?_, sound.coexist, fun _ => ?_, sound.oneEach, rfl⟩
    · intro a mem
      refine (sound.kept a mem).mono (fun _ mem => mem) fun f framed => ?_
      rw [unframed] at framed
      contradiction
    · simp only [List.flatten_cons, List.flatten_nil, List.append_nil]
      refine (sound.names scope List.mem_cons_self).imp ?_
      intro a b differ same
      exact differ same.2.2.1
  refine framed.enter.addParams (Nat.le_refl _) fun a mem i place => ?_
  have stored := isGlobal a mem
  rw [Holding.isGlobal, place] at stored
  contradiction

theorem addParams_cons (offset : Nat) (params : List Param) (scope : List Holding)
    (rest : Ledger) :
    ∃ scope', Ledger.addParams offset params (scope :: rest) = scope' :: rest := by
  induction params generalizing offset scope with
  | nil => exact ⟨scope, rfl⟩
  | cons p params ih =>
      rw [Ledger.addParams]
      cases p.name with
      | none => exact ih _ scope
      | some name => exact ih _ _

end BraceLang.Assembly
