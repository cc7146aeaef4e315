import BraceLang.Proofs.Tac.Acts
import BraceLang.Proofs.Tac.LivePoints
import Mathlib.Data.List.Forall2

/-!
Elimination does not change what code does. The machine that runs the code and the machine that
runs what is left of it go together, except that the second one waits while the first one
executes a dead instruction.

Their memories agree on all cells of arrays and on the names that no dropped definition reaches
(`Code.Fresh`); a live name is one of these. Since every global is live where a unit ends and at
every call, both machines show the same globals to the outside world and to their callers.

* **`fresh_of_live`**: no dropped definition reaches a place where its name is live;
* **`Code.AgreeConfigs.exec`**, **`Code.AgreeConfigs.acts`**, **`Code.AgreeConfigs.wait`**: the two
  machines answer each other's steps and do the same with them, if no dropped definition reaches an
  instruction that reads its name to find a destination;
* **`eliminate_stops_iff`**: so the code and what is left of it stop with the same outcomes.
-/

namespace BraceLang.Tac

/-! ### Leaving instructions out -/

section LeavingOut

/-- The instructions from place `k` on that are not dead. -/
def keptFrom (dead : Nat → Instr → Bool) : Nat → List Instr → List Instr
  | _, [] => []
  | k, i :: rest =>
      if dead k i then keptFrom dead (k + 1) rest else i :: keptFrom dead (k + 1) rest

/-- Where the instruction at a place goes, or the next one that is kept. -/
def newPlace (dead : Nat → Instr → Bool) (k : Nat) (code : List Instr) (pc : Nat) : Nat :=
  (keptFrom dead k (code.take pc)).length

variable {dead : Nat → Instr → Bool} {k : Nat} {code : List Instr}

theorem kept_eq (globals : List String) (code : List Instr) :
    (eliminate globals code).kept = keptFrom (deadAt globals code) 0 code := by
  have general : ∀ (rest : List Instr) (after : Nat → List Name) (k : Nat),
      ((rest.zip ((List.range' k rest.length).map after)).filter fun p => !isDead p.1 p.2).map
        Prod.fst = keptFrom (fun j i => isDead i (after j)) k rest := by
    intro rest after
    induction rest with
    | nil => intro k; rfl
    | cons i rest ih =>
        intro k
        simp only [List.length_cons, List.range'_succ, List.map_cons, List.zip_cons_cons,
          keptFrom, List.filter_cons]
        rw [← ih]
        by_cases dead : isDead i (after k) = true <;> simp [dead]
  have whole := general code (liveness globals code).after 0
  rw [← List.range_eq_range'] at whole
  exact whole

theorem keptFrom_append (first rest : List Instr) :
    keptFrom dead k (first ++ rest) =
      keptFrom dead k first ++ keptFrom dead (k + first.length) rest := by
  induction first generalizing k with
  | nil => rfl
  | cons i first ih =>
      simp only [List.cons_append, keptFrom, ih, List.length_cons]
      rw [show k + 1 + first.length = k + (first.length + 1) by omega]
      split <;> rfl

theorem getElem?_newPlace (pc : Nat) :
    (keptFrom dead k code)[newPlace dead k code pc]? =
      (keptFrom dead (k + min pc code.length) (code.drop pc)).head? := by
  have split : keptFrom dead k (code.take pc ++ code.drop pc) = _ := keptFrom_append ..
  rw [List.take_append_drop, List.length_take] at split
  rw [split, newPlace, List.getElem?_append_right (Nat.le_refl _), Nat.sub_self,
    List.head?_eq_getElem?]

theorem getElem?_newPlace_of_none {pc : Nat} (ends : code[pc]? = none) :
    (keptFrom dead k code)[newPlace dead k code pc]? = none := by
  rw [getElem?_newPlace, List.drop_eq_nil_of_le (List.getElem?_eq_none_iff.mp ends)]
  rfl

theorem newPlace_succ {pc : Nat} {i : Instr} (at_pc : code[pc]? = some i) :
    newPlace dead k code (pc + 1) =
      newPlace dead k code pc + if dead (k + pc) i then 0 else 1 := by
  have below : pc ≤ code.length := Nat.le_of_lt (List.getElem?_eq_some_iff.mp at_pc).1
  simp only [newPlace, List.take_add_one, at_pc, Option.toList_some, keptFrom_append,
    List.length_append, List.length_take, Nat.min_eq_left below, keptFrom]
  split <;> rfl

theorem getElem?_newPlace_of_kept {pc : Nat} {i : Instr} (at_pc : code[pc]? = some i)
    (kept : dead (k + pc) i = false) :
    (keptFrom dead k code)[newPlace dead k code pc]? = some i := by
  obtain ⟨below, rfl⟩ := List.getElem?_eq_some_iff.mp at_pc
  rw [getElem?_newPlace, List.drop_eq_getElem_cons below, Nat.min_eq_left (Nat.le_of_lt below)]
  simp [keptFrom, kept]

theorem newPlace_length : newPlace dead k code code.length = (keptFrom dead k code).length := by
  simp [newPlace]

theorem newPlace_cons_succ (i : Instr) (j : Nat) :
    newPlace dead k (i :: code) (j + 1) =
      newPlace dead (k + 1) code j + if dead k i then 0 else 1 := by
  simp only [newPlace, List.take_succ_cons, keptFrom]
  split <;> rfl

/-- Labels are never left out, so a label is found again. -/
theorem findLabel?_keptFrom (labels : ∀ k l, dead k (.label l) = false) (l : Label) :
    findLabel? l (keptFrom dead k code) = (findLabel? l code).map (newPlace dead k code) := by
  induction code generalizing k with
  | nil => rfl
  | cons i rest ih =>
      cases found : findLabel? l rest with
      | some j =>
          cases drop : dead k i <;>
            simp [keptFrom, findLabel?, ih, found, drop, newPlace_cons_succ]
      | none =>
          by_cases here : i = .label l
          · subst here
            simp [keptFrom, findLabel?, ih, found, labels, newPlace]
          · cases drop : dead k i <;> simp [keptFrom, findLabel?, ih, found, drop, here]

/-- Function markers are never left out either. -/
theorem findFunction?_keptFrom (markers : ∀ k name params, dead k (.function name params) = false)
    (name : String) :
    findFunction? name (keptFrom dead k code) =
      (findFunction? name code).map fun f => (newPlace dead k code f.1, f.2) := by
  induction code generalizing k with
  | nil => rfl
  | cons i rest ih =>
      cases marker : i.paramsOf? name with
      | some params =>
          have kept : dead k i = false := by
            cases i <;> simp_all [Instr.paramsOf?]
          simp [keptFrom, findFunction?, marker, kept, newPlace]
      | none =>
          cases drop : dead k i <;>
            simp [keptFrom, findFunction?, marker, ih, drop, newPlace_cons_succ, Function.comp_def]

end LeavingOut

/-! ### Memories that agree -/

section Agreement

variable {V : Type} {I : Interpretation V} {globals : List String} {live : Name → Prop}

@[simp] theorem Memory.cell_own_set (m : Memory V) (n : Name) (v : V) :
    (m.set globals n v).own.cell = m.own.cell := by
  cases h : isShared globals n <;> simp [Memory.set, Memory.onSide, h]

@[simp] theorem Memory.cell_shared_set (m : Memory V) (n : Name) (v : V) :
    (m.set globals n v).shared.cell = m.shared.cell := by
  cases h : isShared globals n <;> simp [Memory.set, Memory.onSide, h]

/-- Nothing but globals is ever stored in the shared store. -/
theorem Memory.scalar_shared_set (globals : List String) {n k : Name} (m : Memory V) (v : V)
    (own : isShared globals k = false) :
    (m.set globals n v).shared.scalar k = m.shared.scalar k := by
  cases h : isShared globals n with
  | false => simp [Memory.set, Memory.onSide, h]
  | true =>
      have other : k ≠ n := fun same => by simp [← same, own] at h
      simp [Memory.set, Memory.onSide, h, Store.scalar_set_of_ne _ _ other]

/-- Two memories agree on the names that matter, on all cells, and on what the outside world
keeps for itself. -/
structure AgreeOn (globals : List String) (live : Name → Prop) (m m' : Memory V) : Prop where
  names : ∀ n, live n → m'.get globals n = m.get globals n
  ownCells : m'.own.cell = m.own.cell
  sharedCells : m'.shared.cell = m.shared.cell
  hidden : ∀ n, isShared globals n = false → m'.shared.scalar n = m.shared.scalar n

namespace AgreeOn

variable {m m' : Memory V}

theorem refl (m : Memory V) : AgreeOn globals live m m :=
  ⟨fun _ _ => rfl, rfl, rfl, fun _ _ => rfl⟩

theorem mono (agree : AgreeOn globals live m m') {live' : Name → Prop}
    (less : ∀ n, live' n → live n) : AgreeOn globals live' m m' :=
  { agree with names := fun n h => agree.names n (less n h) }

theorem cell (agree : AgreeOn globals live m m') (array : String) :
    m'.cell globals array = m.cell globals array := by
  unfold Memory.cell Memory.side
  split
  · rw [agree.sharedCells]
  · rw [agree.ownCells]

theorem eval (agree : AgreeOn globals live m m') {o : Operand} (reads : ∀ n ∈ o.names, live n) :
    o.eval I globals m' = o.eval I globals m :=
  o.eval_congr I globals (fun n mem => agree.names n (reads n mem)) (fun a _ => agree.cell a)

/-- If every global matters, the shared stores are the same. -/
theorem shared_eq (agree : AgreeOn globals live m m')
    (all : ∀ n, isShared globals n = true → live n) : m'.shared = m.shared := by
  have scalars : m'.shared.scalar = m.shared.scalar := by
    funext n
    cases global : isShared globals n with
    | true => simpa [Memory.get, Memory.side, global] using agree.names n (all n global)
    | false => exact agree.hidden n global
  have cells := agree.sharedCells
  generalize m'.shared = t at scalars cells ⊢
  cases t
  simp_all

theorem own_eq (agree : AgreeOn globals live m m') {n : Name} (own : isShared globals n = false)
    (matters : live n) : m'.own.scalar n = m.own.scalar n := by
  simpa [Memory.get, Memory.side, own] using agree.names n matters

/-- Both memories receive a value for one name. -/
theorem set_both (agree : AgreeOn globals live m m') {live' : Name → Prop} (n : Name) (v : V)
    (less : ∀ k, live' k → k ≠ n → live k) :
    AgreeOn globals live' (m.set globals n v) (m'.set globals n v) where
  names k h := by
    by_cases same : k = n
    · subst same
      simp
    · rw [Memory.get_set_of_ne globals _ v same, Memory.get_set_of_ne globals _ v same]
      exact agree.names k (less k h same)
  ownCells := by simpa using agree.ownCells
  sharedCells := by simpa using agree.sharedCells
  hidden k own := by simpa [Memory.scalar_shared_set globals _ _ own] using agree.hidden k own

/-- The first memory receives a value for a name that does not matter. -/
theorem set_first (agree : AgreeOn globals live m m') {n : Name} (v : V) (dead : ¬ live n) :
    AgreeOn globals live (m.set globals n v) m' where
  names k h := by
    have other : k ≠ n := fun same => dead (same ▸ h)
    rw [Memory.get_set_of_ne globals _ v other]
    exact agree.names k h
  ownCells := by simpa using agree.ownCells
  sharedCells := by simpa using agree.sharedCells
  hidden k own := by simpa [Memory.scalar_shared_set globals _ _ own] using agree.hidden k own

theorem setCell [DecidableEq V] (agree : AgreeOn globals live m m') (array : String) (i v : V) :
    AgreeOn globals live (m.setCell globals array i v) (m'.setCell globals array i v) where
  names k h := by simpa using agree.names k h
  ownCells := by
    unfold Memory.setCell Memory.onSide
    split <;> simp [Store.setCell, agree.ownCells]
  sharedCells := by
    unfold Memory.setCell Memory.onSide
    split <;> simp [Store.setCell, agree.sharedCells]
  hidden k own := by
    unfold Memory.setCell Memory.onSide
    split <;> simp [agree.hidden k own]

/-- Both memories store one value in one destination. -/
theorem assign [DecidableEq V] (agree : AgreeOn globals live m m') {types : Assoc String Ty}
    {live' : Name → Prop} (result : Operand) (v : V)
    (index : ∀ array i, result = .element array i → ∀ n ∈ i.names, live n)
    (less : ∀ k, live' k → result ≠ .name k → live k) :
    AgreeOn globals live' (m.assign I globals types v result)
      (m'.assign I globals types v result) := by
  match result with
  | .const _ => exact agree.mono fun k h => less k h (by simp)
  | .var x => exact agree.set_both _ _ fun k h other => less k h (by simpa using other.symm)
  | .temp t => exact agree.set_both _ _ fun k h other => less k h (by simpa using other.symm)
  | .element array i =>
      simp only [Memory.assign, agree.eval (index array i rfl)]
      exact (agree.mono fun k h => less k h (by simp)).setCell array _ _

end AgreeOn

end Agreement

/-! ### The simulation -/

section Simulating

variable {V : Type} {I : Interpretation V} {c : Code}

/-- What is left of the code after one elimination. -/
def Code.eliminated (c : Code) : Code := { c with instrs := (eliminate c.globals c.instrs).kept }

/-- Where the instruction at a place goes. -/
def Code.newPlace (c : Code) (pc : Nat) : Nat :=
  Tac.newPlace (deadAt c.globals c.instrs) 0 c.instrs pc

/-- The name matters where control stands. -/
def Code.Live (c : Code) (pc : Nat) (n : Name) : Prop :=
  liveAt c.globals c.instrs n pc = true

/-- Elimination drops a definition of the name that may reach the place: there is a way from the
definition to the place without another one. -/
inductive Code.Stale (c : Code) (n : Name) : Nat → Prop where
  | dropped {pc : Nat} {i : Instr} : c.instrs[pc]? = some i →
      deadAt c.globals c.instrs pc i = true → i.result? = some (.name n) → Stale c n (pc + 1)
  | falls {pc : Nat} {i : Instr} : c.instrs[pc]? = some i → i.falls = true →
      (∀ name params, i ≠ .function name params) → i.defines? ≠ some n → Stale c n pc →
      Stale c n (pc + 1)
  | jumps {pc : Nat} {i : Instr} {l : Label} : c.instrs[pc]? = some i → i.jumpsTo l →
      Stale c n pc → Stale c n (c.place l)

/-- No dropped definition of the name reaches the place. -/
def Code.Fresh (c : Code) (pc : Nat) (n : Name) : Prop := ¬ c.Stale n pc

/-- No dropped definition reaches an instruction that reads the name to find its destination. -/
def Code.FreshAddresses (c : Code) : Prop :=
  ∀ pc i, c.instrs[pc]? = some i → ∀ n ∈ i.addressNames, c.Fresh pc n

/-- Two activations wait for one call and will agree when it returns. -/
structure Code.AgreeCallers (c : Code) (a b : Caller V) : Prop where
  pc : b.pc = c.newPlace a.pc
  result : b.result = a.result
  cells : b.own.cell = a.own.cell
  names : ∀ n, isShared c.globals n = false → c.Fresh a.pc n → n ≠ .temp a.result →
    b.own.scalar n = a.own.scalar n

/-- The machine with the whole code and the machine with what is left of it stand alike. -/
structure Code.AgreeConfigs (c : Code) (s t : Config V) : Prop where
  pc : t.pc = c.newPlace s.pc
  memory : AgreeOn c.globals (c.Fresh s.pc) s.memory t.memory
  callers : List.Forall₂ c.AgreeCallers s.callers t.callers
  calls : t.calls = s.calls

@[simp] theorem globals_eliminated : c.eliminated.globals = c.globals := rfl

@[simp] theorem types_eliminated : c.eliminated.types = c.types := rfl

theorem deadAt_label (globals : List String) (code : List Instr) (k : Nat) (l : Label) :
    deadAt globals code k (.label l) = false := rfl

theorem deadAt_function (globals : List String) (code : List Instr) (k : Nat) (name : String)
    (params : List String) : deadAt globals code k (.function name params) = false := rfl

theorem place_eliminated (l : Label) : c.eliminated.place l = c.newPlace (c.place l) := by
  simp only [Code.place, Code.eliminated, kept_eq, Code.newPlace,
    findLabel?_keptFrom (deadAt_label c.globals c.instrs)]
  cases findLabel? l c.instrs with
  | none => simp [newPlace_length]
  | some k => rfl

theorem findFunction?_eliminated (name : String) :
    findFunction? name c.eliminated.instrs =
      (findFunction? name c.instrs).map fun f => (c.newPlace f.1, f.2) := by
  simp only [Code.eliminated, kept_eq, Code.newPlace,
    findFunction?_keptFrom (deadAt_function c.globals c.instrs)]

theorem getElem?_eliminated_of_none {pc : Nat} (ends : c.instrs[pc]? = none) :
    c.eliminated.instrs[c.newPlace pc]? = none := by
  simpa only [Code.eliminated, Code.newPlace, kept_eq] using getElem?_newPlace_of_none ends

theorem getElem?_eliminated {pc : Nat} {i : Instr} (at_pc : c.instrs[pc]? = some i)
    (kept : deadAt c.globals c.instrs pc i = false) :
    c.eliminated.instrs[c.newPlace pc]? = some i ∧ c.newPlace (pc + 1) = c.newPlace pc + 1 := by
  constructor
  · simpa only [Code.eliminated, Code.newPlace, kept_eq] using
      getElem?_newPlace_of_kept at_pc (by simpa using kept)
  · simp [Code.newPlace, newPlace_succ at_pc, kept]

/-- Where a unit ends, every global matters. -/
theorem live_of_ends {pc : Nat} {n : Name}
    (ends : ∀ i, c.instrs[pc]? = some i → ∃ name params, i = .function name params)
    (global : isShared c.globals n = true) : c.Live pc n := by
  unfold Code.Live liveAt
  cases at_pc : c.instrs[pc]? with
  | none => exact global
  | some i =>
      obtain ⟨name, params, rfl⟩ := ends i at_pc
      exact global

theorem live_of_before {pc : Nat} {i : Instr} {n : Name} (at_pc : c.instrs[pc]? = some i)
    (inside : ∀ name params, i ≠ .function name params)
    (before : liveBefore c.globals c.instrs n pc = true) : c.Live pc n := by
  unfold Code.Live liveAt
  rw [at_pc]
  cases i <;> first | exact before | exact absurd rfl (inside _ _)

theorem not_live_of_stale {n : Name} {pc : Nat} (stale : c.Stale n pc) : ¬ c.Live pc n := by
  induction stale with
  | @dropped pc i at_pc dead writes =>
      intro live
      obtain ⟨m, writes', gone⟩ := not_liveAfter_of_deadAt at_pc dead
      obtain rfl : n = m := by simpa [writes] using writes'
      have falls : i.falls = true := by cases i <;> simp_all [Instr.result?, Instr.falls]
      simp [liveAfter_of_falls at_pc falls live] at gone
  | falls at_pc falls notMarker other _ ih =>
      exact fun live => ih (live_of_before at_pc notMarker
        (liveBefore_of_after at_pc (liveAfter_of_falls at_pc falls live) other))
  | @jumps pc i l at_pc jumps _ ih =>
      intro live
      have notMarker : ∀ name params, i ≠ .function name params := by
        rintro name params rfl
        simp [Instr.jumpsTo] at jumps
      have undefined : i.defines? ≠ some n := by
        rcases jumps with rfl | ⟨cond, rfl⟩ <;> simp [Instr.defines?, Instr.result?]
      exact ih (live_of_before at_pc notMarker
        (liveBefore_of_after at_pc (liveAfter_of_jumps at_pc jumps live) undefined))

/-- **No dropped definition reaches a place where its name is live.** -/
theorem fresh_of_live {pc : Nat} {n : Name} (live : c.Live pc n) : c.Fresh pc n :=
  fun stale => not_live_of_stale stale live

theorem fresh_of_uses {pc : Nat} {i : Instr} {n : Name} (at_pc : c.instrs[pc]? = some i)
    (notMarker : ∀ name params, i ≠ .function name params) (used : n ∈ i.uses) : c.Fresh pc n :=
  fresh_of_live (live_of_before at_pc notMarker (liveBefore_of_uses at_pc used))

/-- What is fresh behind an instruction is fresh in front of it, or defined by it. -/
theorem Code.Fresh.of_falls {pc : Nat} {i : Instr} {n : Name} (fresh : c.Fresh (pc + 1) n)
    (at_pc : c.instrs[pc]? = some i) (falls : i.falls = true)
    (notMarker : ∀ name params, i ≠ .function name params) (other : i.defines? ≠ some n) :
    c.Fresh pc n :=
  fun stale => fresh (.falls at_pc falls notMarker other stale)

theorem Code.Fresh.of_jumps {pc : Nat} {i : Instr} {l : Label} {n : Name}
    (fresh : c.Fresh (c.place l) n) (at_pc : c.instrs[pc]? = some i) (jumps : i.jumpsTo l) :
    c.Fresh pc n :=
  fun stale => fresh (.jumps at_pc jumps stale)

/-- Liveness takes into account what a copy reads to find its destination. -/
theorem fresh_of_copy {pc : Nat} {source result : Operand} {n : Name}
    (at_pc : c.instrs[pc]? = some (.copy source result)) (read : n ∈ result.addressNames) :
    c.Fresh pc n := by
  cases result with
  | element array index =>
      exact fresh_of_uses at_pc (by simp) (by simpa [Instr.uses] using .inr read)
  | _ => contradiction

/-- What is computed into temporaries reads no name to find its destination. -/
theorem freshAddresses_of_computesTemps (temps : ComputesTemps c.instrs) : c.FreshAddresses := by
  intro pc i at_pc n read
  have temps := temps i (List.mem_of_getElem? at_pc)
  cases i with
  | copy source result => exact fresh_of_copy at_pc read
  | unary op operand result =>
      obtain ⟨t, rfl⟩ := temps
      contradiction
  | binary op left right result =>
      obtain ⟨t, rfl⟩ := temps
      contradiction
  | _ => contradiction

/-- What is stale has been dropped somewhere. -/
theorem Code.Stale.exists_dropped {n : Name} {pc : Nat} (stale : c.Stale n pc) :
    ∃ k i, c.instrs[k]? = some i ∧ deadAt c.globals c.instrs k i = true ∧
      i.result? = some (.name n) := by
  induction stale with
  | dropped at_pc dead writes => exact ⟨_, _, at_pc, dead, writes⟩
  | falls _ _ _ _ _ ih => exact ih
  | jumps _ _ _ ih => exact ih

/-- A name that is read to find a destination is fresh if no definition of it is dropped. -/
theorem freshAddresses_of_kept
    (kept : ∀ k i, c.instrs[k]? = some i → deadAt c.globals c.instrs k i = true →
      ∀ j ∈ c.instrs, ∀ n ∈ j.addressNames, i.result? ≠ some (.name n)) : c.FreshAddresses := by
  intro pc j at_pc n read stale
  obtain ⟨k, i, at_k, dead, writes⟩ := stale.exists_dropped
  exact kept k i at_k dead j (List.mem_of_getElem? at_pc) n read writes

/-- Both activations end alike, and their callers go on alike. -/
theorem Code.AgreeConfigs.leave {s t : Config V} (agree : c.AgreeConfigs s t)
    (all : ∀ n, isShared c.globals n = true → c.Fresh s.pc n) (ending : Ending V) :
    (∃ s' t', s.leave I ending = .inl s' ∧ t.leave I ending = .inl t' ∧ c.AgreeConfigs s' t') ∨
      (∃ o, s.leave I ending = .inr o ∧ t.leave I ending = .inr o) := by
  have shared := agree.memory.shared_eq all
  have calls := agree.calls
  have callers := agree.callers
  unfold Config.leave
  cases waiting : s.callers with
  | nil =>
      rw [waiting] at callers
      cases waiting' : t.callers with
      | nil => exact .inr ⟨_, rfl, by rw [shared, calls]⟩
      | cons b rest' => simp [waiting'] at callers
  | cons a rest =>
      rw [waiting] at callers
      cases waiting' : t.callers with
      | nil => simp [waiting'] at callers
      | cons b rest' =>
          rw [waiting'] at callers
          obtain ⟨first, others⟩ := List.forall₂_cons.mp callers
          refine .inl ⟨_, _, rfl, rfl, first.pc, ?_, others, calls⟩
          refine ⟨fun n live => ?_, first.cells, by rw [shared], fun n _ => by rw [shared]⟩
          simp only [Memory.get, Memory.side, first.result, shared]
          split
          · rfl
          · rename_i own
            by_cases same : n = .temp a.result
            · subst same
              simp
            · simp only [Store.scalar_set_of_ne _ _ same]
              exact first.names n (by simpa using own) live same

/-- The first machine executes a dead instruction while the second one waits. -/
theorem Code.AgreeConfigs.wait [DecidableEq V] {s t : Config V} (agree : c.AgreeConfigs s t)
    {i : Instr} (at_pc : c.instrs[s.pc]? = some i)
    (dead : deadAt c.globals c.instrs s.pc i = true) :
    ∃ s', c.step I s = .inl s' ∧ c.AgreeConfigs s' t ∧ s'.pc = s.pc + 1 := by
  obtain ⟨n, writes, -⟩ := not_liveAfter_of_deadAt at_pc dead
  have place : c.newPlace (s.pc + 1) = c.newPlace s.pc := by
    simp [Code.newPlace, newPlace_succ at_pc, dead]
  have falls : i.falls = true := by cases i <;> simp_all [Instr.result?, Instr.falls]
  -- What is fresh after the instruction was so before it, and the written name is not among it.
  have after : ∀ k, c.Fresh (s.pc + 1) k → c.Fresh s.pc k ∧ k ≠ n := by
    intro k fresh
    have other : k ≠ n := fun same => fresh (.dropped at_pc dead (same ▸ writes))
    refine ⟨fresh.of_falls at_pc falls ?_ ?_, other⟩
    · rintro name params rfl
      simp [Instr.result?] at writes
    · cases i <;> simp_all [Instr.result?, Instr.defines?, Operand.name?, Ne.symm other]
  have stored : ∀ v, c.AgreeConfigs (s.store c I (.name n) v) t := by
    intro v
    refine ⟨by rw [agree.pc]; exact place.symm, ?_, agree.callers, agree.calls⟩
    have narrowed := agree.memory.mono fun k fresh => (after k fresh).1
    have untouched : ¬ c.Fresh (s.pc + 1) n := fun fresh => (after n fresh).2 rfl
    cases n with
    | var x => exact narrowed.set_first _ untouched
    | temp t => exact narrowed.set_first _ untouched
  cases i with
  | copy source result =>
      obtain rfl : result = .name n := by simpa [Instr.result?] using writes
      exact ⟨_, step_eq_exec at_pc, stored _, rfl⟩
  | unary op operand result =>
      obtain rfl : result = .name n := by simpa [Instr.result?] using writes
      exact ⟨_, step_eq_exec at_pc, stored _, rfl⟩
  | binary op left right result =>
      obtain rfl : result = .name n := by simpa [Instr.result?] using writes
      exact ⟨_, step_eq_exec at_pc, stored _, rfl⟩
  | _ => simp [Instr.result?] at writes

section Together

variable {s t : Config V} {i : Instr}

/-- The operands of an instruction have one value for both machines. -/
theorem Code.AgreeConfigs.eval (agree : c.AgreeConfigs s t) (at_pc : c.instrs[s.pc]? = some i)
    {o : Operand} (source : o ∈ i.sources) :
    o.eval I c.globals t.memory = o.eval I c.globals s.memory := by
  have notMarker : ∀ name params, i ≠ .function name params := by
    rintro name params rfl
    simp [Instr.sources] at source
  exact agree.memory.eval fun _ read => fresh_of_uses at_pc notMarker
    (Instr.mem_uses_of_sources (List.mem_flatMap.mpr ⟨o, source, read⟩))

/-- Both machines go on at the next instruction or at a label without a change. -/
theorem Code.AgreeConfigs.jump (agree : c.AgreeConfigs s t) {pc : Nat}
    (moves : ∀ n, c.Fresh pc n → c.Fresh s.pc n) :
    c.AgreeConfigs (s.jump pc) (t.jump (c.newPlace pc)) :=
  ⟨rfl, agree.memory.mono moves, agree.callers, agree.calls⟩

/-- At a call both machines have the same globals. -/
theorem Code.AgreeConfigs.shared_eq (agree : c.AgreeConfigs s t) (at_pc : c.instrs[s.pc]? = some i)
    (call : i.isCall = true) : t.memory.shared = s.memory.shared :=
  agree.memory.shared_eq fun _ global => fresh_of_live (live_of_before at_pc
    (by rintro name params rfl; contradiction) (liveBefore_of_call at_pc call global))

theorem Code.AgreeConfigs.call (agree : c.AgreeConfigs s t) {callee : String}
    {args : List Operand} {result : Temp}
    (at_pc : c.instrs[s.pc]? = some (.call callee args result)) (values : List V) :
    c.AgreeConfigs (s.call c I callee values result)
      (t.call c.eliminated I callee values result) := by
  have shared := agree.shared_eq at_pc rfl
  have pc : t.pc + 1 = c.newPlace (s.pc + 1) := by
    rw [agree.pc, (getElem?_eliminated at_pc rfl).2]
  have returns : ∀ n, c.Fresh (s.pc + 1) n → n ≠ .temp result → c.Fresh s.pc n :=
    fun n fresh other => fresh.of_falls at_pc rfl (by simp)
      (by simpa [Instr.defines?] using Ne.symm other)
  simp only [Config.call, findFunction?_eliminated]
  cases findFunction? callee c.instrs with
  | some f =>
      simp only [Option.map_some]
      refine ⟨rfl, ?_, List.forall₂_cons.mpr ⟨⟨pc, rfl, agree.memory.ownCells, ?_⟩, agree.callers⟩,
        agree.calls⟩
      · simp only [shared]
        exact .refl _
      · intro n own fresh other
        exact agree.memory.own_eq own (returns n fresh other)
  | none =>
      simp only [Option.map_none]
      refine ⟨pc, ?_, agree.callers, by simp [agree.calls, shared]⟩
      simp only [shared]
      refine ⟨fun n fresh => ?_, agree.memory.ownCells, rfl, fun _ _ => rfl⟩
      simp only [Memory.get, Memory.side]
      split
      · rfl
      · rename_i own
        by_cases same : n = .temp result
        · subst same
          simp
        · simp only [Store.scalar_set_of_ne _ _ same]
          exact agree.memory.own_eq (by simpa using own) (returns n fresh same)

/-- Both machines do one thing with an instruction that is kept. -/
theorem Code.AgreeConfigs.acts (agree : c.AgreeConfigs s t) (addresses : c.FreshAddresses)
    (at_pc : c.instrs[s.pc]? = some i) (kept : deadAt c.globals c.instrs s.pc i = false) :
    c.eliminated.acts I t = c.acts I s := by
  have at_pc' : c.eliminated.instrs[t.pc]? = some i := by
    rw [agree.pc]
    exact (getElem?_eliminated at_pc kept).1
  rw [acts_eq at_pc, acts_eq at_pc']
  refine Instr.acts_congr (fun o source => agree.eval at_pc source) ?_ (agree.shared_eq at_pc)
  intro array j writes
  exact agree.memory.eval fun n read =>
    addresses s.pc i at_pc n (by simpa [Instr.addressNames, writes] using read)

variable [DecidableEq V]

/-- Both machines store one value in one destination. -/
theorem Code.AgreeConfigs.store (agree : c.AgreeConfigs s t) (addresses : c.FreshAddresses)
    (at_pc : c.instrs[s.pc]? = some i) (kept : deadAt c.globals c.instrs s.pc i = false)
    {result : Operand} (writes : i.result? = some result) (v : V) :
    c.AgreeConfigs (s.store c I result v) (t.store c.eliminated I result v) := by
  have notMarker : ∀ name params, i ≠ .function name params := by
    rintro name params rfl
    simp [Instr.result?] at writes
  refine ⟨?_, agree.memory.assign result v ?_ ?_, agree.callers, agree.calls⟩
  · simp [Config.store, agree.pc, (getElem?_eliminated at_pc kept).2]
  · rintro array j rfl n read
    exact addresses s.pc i at_pc n (by simpa [Instr.addressNames, writes] using read)
  · intro k fresh other
    refine fresh.of_falls at_pc (by cases i <;> simp_all [Instr.result?, Instr.falls]) notMarker ?_
    have defines : i.defines? = result.name? := by
      cases i <;> simp_all [Instr.result?, Instr.defines?]
    rw [defines]
    cases result <;> simp_all [Operand.name?]

/-- Both machines execute an instruction that is kept. -/
theorem Code.AgreeConfigs.exec (agree : c.AgreeConfigs s t) (addresses : c.FreshAddresses)
    (at_pc : c.instrs[s.pc]? = some i) (kept : deadAt c.globals c.instrs s.pc i = false) :
    (∃ s' t', c.exec I s i = .inl s' ∧ c.eliminated.exec I t i = .inl t' ∧
        c.AgreeConfigs s' t') ∨
      (∃ o, c.exec I s i = .inr o ∧ c.eliminated.exec I t i = .inr o) := by
  have next : t.pc + 1 = c.newPlace (s.pc + 1) := by
    rw [agree.pc, (getElem?_eliminated at_pc kept).2]
  cases i with
  | function name params =>
      exact agree.leave
        (fun n global => fresh_of_live (live_of_ends (by simp [at_pc]) global)) .fell
  | label l =>
      refine .inl ⟨_, _, rfl, rfl, ?_⟩
      have goesOn := agree.jump fun n fresh =>
        fresh.of_falls at_pc rfl (by simp) (by simp [Instr.defines?, Instr.result?])
      rwa [← next] at goesOn
  | goto target =>
      refine .inl ⟨_, _, rfl, rfl, ?_⟩
      rw [place_eliminated]
      exact agree.jump fun n fresh => fresh.of_jumps at_pc (.inl rfl)
  | branch cond target =>
      have value := agree.eval (I := I) at_pc (o := cond) (by simp [Instr.sources])
      refine .inl ⟨_, _, rfl, rfl, ?_⟩
      simp only [globals_eliminated, value, place_eliminated]
      split
      · exact agree.jump fun n fresh => fresh.of_jumps at_pc (.inr ⟨cond, rfl⟩)
      · have goesOn := agree.jump fun n fresh =>
          fresh.of_falls at_pc rfl (by simp) (by simp [Instr.defines?, Instr.result?])
        rwa [← next] at goesOn
  | copy source result =>
      have value := agree.eval (I := I) at_pc (o := source) (by simp [Instr.sources])
      refine .inl ⟨_, _, rfl, rfl, ?_⟩
      rw [globals_eliminated, value]
      exact agree.store addresses at_pc kept rfl _
  | unary op operand result =>
      have value := agree.eval (I := I) at_pc (o := operand) (by simp [Instr.sources])
      refine .inl ⟨_, _, rfl, rfl, ?_⟩
      rw [globals_eliminated, value]
      exact agree.store addresses at_pc kept rfl _
  | binary op left right result =>
      have leftValue := agree.eval (I := I) at_pc (o := left) (by simp [Instr.sources])
      have rightValue := agree.eval (I := I) at_pc (o := right) (by simp [Instr.sources])
      refine .inl ⟨_, _, rfl, rfl, ?_⟩
      rw [globals_eliminated, leftValue, rightValue]
      exact agree.store addresses at_pc kept rfl _
  | call callee args result =>
      have values : args.map (·.eval I c.globals t.memory) =
          args.map (·.eval I c.globals s.memory) :=
        List.map_congr_left fun o mem => agree.eval at_pc mem
      refine .inl ⟨_, _, rfl, rfl, ?_⟩
      rw [globals_eliminated, values]
      exact agree.call at_pc _
  | ret value =>
      have result : value.map (·.eval I c.globals t.memory) =
          value.map (·.eval I c.globals s.memory) :=
        Option.map_congr fun o mem => agree.eval at_pc (by simpa [Instr.sources] using mem)
      simp only [Code.exec, globals_eliminated, result]
      exact agree.leave (fun n global => fresh_of_live (live_of_before at_pc (by simp)
        (liveBefore_of_after at_pc (liveAfter_of_ret at_pc global) (by simp [Instr.defines?,
          Instr.result?])))) _

/-- **The two machines answer each other's steps.** What comes closer while the second one waits
is the end of the code. -/
theorem elimination_tracking (addresses : c.FreshAddresses) :
    Tracking (c.step I) (c.acts I) (c.eliminated.step I) (c.eliminated.acts I)
      (c.AgreeConfigs (V := V)) (fun s => c.instrs.length - s.pc) where
  progress := by
    intro s t agree
    cases at_pc : c.instrs[s.pc]? with
    | none =>
        have ends : c.eliminated.instrs[t.pc]? = none := by
          rw [agree.pc]
          exact getElem?_eliminated_of_none at_pc
        simp only [Code.step, Code.acts, at_pc, ends]
        exact .inr ⟨rfl, agree.leave
          (fun n global => fresh_of_live (live_of_ends (by simp [at_pc]) global)) .fell⟩
    | some i =>
        cases dead : deadAt c.globals c.instrs s.pc i with
        | true =>
            obtain ⟨s', stepped, waits, pc⟩ := agree.wait (I := I) at_pc dead
            obtain ⟨n, writes, -⟩ := not_liveAfter_of_deadAt at_pc dead
            have below := (List.getElem?_eq_some_iff.mp at_pc).1
            refine .inl ⟨s', stepped, waits, by omega, ?_⟩
            rw [acts_eq at_pc, Instr.acts_of_writes_name writes]
        | false =>
            have at_pc' : c.eliminated.instrs[t.pc]? = some i := by
              rw [agree.pc]
              exact (getElem?_eliminated at_pc dead).1
            rw [step_eq_exec at_pc, step_eq_exec at_pc']
            exact .inr ⟨agree.acts addresses at_pc dead, agree.exec addresses at_pc dead⟩

end Together

/-- Where the machine with what is left of the code stands if the one with the whole code stands
here. -/
def Code.moved (c : Code) (s : Config V) : Config V :=
  { s with
    pc := c.newPlace s.pc
    callers := s.callers.map fun a => { a with pc := c.newPlace a.pc } }

theorem Code.AgreeConfigs.moved (c : Code) (s : Config V) : c.AgreeConfigs s (c.moved s) where
  pc := rfl
  memory := .refl _
  callers := List.forall₂_map_right_iff.mpr
    (List.forall₂_same.mpr fun _ _ => ⟨rfl, rfl, rfl, fun _ _ _ _ => rfl⟩)
  calls := rfl

/-- Both machines start alike. -/
theorem load_eliminated (c : Code) (shared : Store V) (entry : Entry V) :
    c.eliminated.load I shared entry = c.moved (c.load I shared entry) := by
  cases entry with
  | top => rfl
  | function name args =>
      simp only [Code.load, findFunction?_eliminated]
      cases findFunction? name c.instrs with
      | some f => rfl
      | none => simp [Code.moved, Code.eliminated, kept_eq, Code.newPlace, newPlace_length]

/-- **Elimination keeps what code does.** -/
theorem eliminate_stops_iff [DecidableEq V] (temps : ComputesTemps c.instrs) (shared : Store V)
    (entry : Entry V) (o : Outcome V) :
    Stops (c.step I) (c.load I shared entry) o ↔
      Stops (c.eliminated.step I) (c.eliminated.load I shared entry) o := by
  rw [load_eliminated]
  exact (elimination_tracking (freshAddresses_of_computesTemps temps)).simulation.stops_iff
    (.moved c _) o

end Simulating

end BraceLang.Tac
