import BraceLang.Proofs.Tac.Machine
import BraceLang.Tac.Liveness

/-!
What the sweeps of liveness come to. Sweeping ends when a sweep raises no flag, and then no node
asks for a flag that is not up (`stable_converge`). Read off at the places of some code, this
gives the rules by which the liveness of a name moves against the flow of control:

* **`liveAfter_of_falls`**, **`liveAfter_of_jumps`**: what is live where control goes on is live
  after the instruction;
* **`liveBefore_of_after`**, **`liveBefore_of_uses`**, **`liveBefore_of_call`**: what is live
  after an instruction and not defined by it, what it reads, and every global at a call, is live
  before it.
-/

namespace BraceLang.Tac

/-! ### Sweeps -/

section Sweeps

variable {name : Name} {isGlobal : Bool} {nodes : Array Node}

/-- The node at a place asks for no flag that is not up. -/
def StableAt (name : Name) (isGlobal : Bool) (nodes : Array Node) (points : Array Point)
    (k : Nat) : Prop :=
  ∀ n p, nodes[k]? = some n → points[k]? = some p → n.visit name isGlobal points p = p

theorem Node.size_le_visit (n : Node) (name : Name) (isGlobal : Bool) (points : Array Point)
    (p : Point) : p.size ≤ (n.visit name isGlobal points p).size := by
  obtain ⟨before, after⟩ := p
  cases before <;> cases after <;> simp [Node.visit, Point.size]

/-- A visit that raises no flag changes nothing. -/
theorem Node.visit_eq_of_size_le {n : Node} {points : Array Point} {p : Point}
    (h : (n.visit name isGlobal points p).size ≤ p.size) :
    n.visit name isGlobal points p = p := by
  obtain ⟨before, after⟩ := p
  simp only [Node.visit, Point.size] at h ⊢
  generalize n.liveAfter isGlobal points = moreAfter at h ⊢
  generalize n.liveBefore name isGlobal (after || moreAfter) = moreBefore at h ⊢
  cases before <;> cases after <;> cases moreAfter <;> cases moreBefore <;> simp_all

theorem total_setIfInBounds {points : Array Point} {k : Nat} {p : Point} (q : Point)
    (at_k : points[k]? = some p) :
    total (points.setIfInBounds k q) + p.size = total points + q.size := by
  obtain ⟨points⟩ := points
  simp only [total, List.setIfInBounds_toArray, List.getElem?_toArray] at at_k ⊢
  induction points generalizing k with
  | nil => simp at at_k
  | cons first rest ih =>
      cases k with
      | zero =>
          obtain rfl : first = p := by simpa using at_k
          simp only [List.set_cons_zero, List.map_cons, List.foldr_cons]
          omega
      | succ k =>
          have := ih (k := k) (by simpa using at_k)
          simp only [List.set_cons_succ, List.map_cons, List.foldr_cons]
          omega

theorem total_le_sweep (k : Nat) (points : Array Point) :
    total points ≤ total (sweep name isGlobal nodes k points) := by
  induction k generalizing points with
  | zero => exact Nat.le_refl _
  | succ k ih =>
      unfold sweep
      split
      · rename_i n p _ at_k
        have raised := total_setIfInBounds (n.visit name isGlobal points p) at_k
        have grows := n.size_le_visit name isGlobal points p
        have rest := ih (points.setIfInBounds k (n.visit name isGlobal points p))
        omega
      · exact ih points

/-- A sweep that raises no flag visits only nodes that ask for none. -/
theorem sweep_eq_of_total_le {k : Nat} {points : Array Point}
    (quiet : total (sweep name isGlobal nodes k points) ≤ total points) :
    sweep name isGlobal nodes k points = points ∧
      ∀ j < k, StableAt name isGlobal nodes points j := by
  induction k with
  | zero => exact ⟨rfl, by simp⟩
  | succ k ih =>
      unfold sweep at quiet ⊢
      split at quiet
      · rename_i n p node at_k
        have raised := total_setIfInBounds (n.visit name isGlobal points p) at_k
        have rest : _ ≤ total (sweep name isGlobal nodes k _) :=
          total_le_sweep k (points.setIfInBounds k (n.visit name isGlobal points p))
        have same := n.visit_eq_of_size_le (by omega : (n.visit name isGlobal points p).size ≤ _)
        have unchanged : points.setIfInBounds k p = points := by
          apply Array.ext_getElem?
          intro j
          rw [Array.getElem?_setIfInBounds]
          split
          · rename_i here
            subst here
            rw [at_k]
            have := (Array.getElem?_eq_some_iff.mp at_k).1
            simp [this]
          · rfl
        rw [same, unchanged] at quiet ⊢
        obtain ⟨swept, stable⟩ := ih quiet
        refine ⟨swept, fun j below => ?_⟩
        rcases Nat.lt_succ_iff_lt_or_eq.mp below with below | rfl
        · exact stable j below
        · intro n' p' node' at_k'
          rw [node] at node'
          rw [at_k] at at_k'
          obtain rfl := Option.some.inj node'
          obtain rfl := Option.some.inj at_k'
          exact same
      · rename_i missing
        obtain ⟨swept, stable⟩ := ih quiet
        refine ⟨swept, fun j below => ?_⟩
        rcases Nat.lt_succ_iff_lt_or_eq.mp below with below | rfl
        · exact stable j below
        · intro n p node at_k
          exact absurd at_k (missing n p node)

/-- When the sweeps end, no node asks for more. -/
theorem stable_converge (points : Array Point) (sweeps : Nat) {k : Nat} (h : k < nodes.size) :
    StableAt name isGlobal nodes (converge name isGlobal nodes points sweeps).points k := by
  fun_induction converge name isGlobal nodes points sweeps with
  | case1 points sweeps swept raised ih => exact ih
  | case2 points sweeps swept quiet =>
      obtain ⟨same, stable⟩ := sweep_eq_of_total_le (Nat.not_lt.mp quiet)
      change StableAt _ _ _ (sweep name isGlobal nodes nodes.size points) k
      rw [same]
      exact stable k h

theorem size_converge (points : Array Point) (sweeps : Nat) :
    (converge name isGlobal nodes points sweeps).points.size = points.size := by
  fun_induction converge name isGlobal nodes points sweeps with
  | case1 points sweeps swept raised ih => rw [ih, size_sweep]
  | case2 points sweeps swept quiet => exact size_sweep ..

end Sweeps

/-! ### The liveness of some code -/

section Code

variable {globals : List String} {code : List Instr} {i : Nat} {instr : Instr} {n : Name}

/-- The points of a name in some code. -/
def pointOf (globals : List String) (code : List Instr) (n : Name) (i : Nat) : Point :=
  (trace globals (flow code) n).points[i]?.getD {}

def liveBefore (globals : List String) (code : List Instr) (n : Name) (i : Nat) : Bool :=
  (pointOf globals code n i).before

def liveAfter (globals : List String) (code : List Instr) (n : Name) (i : Nat) : Bool :=
  (pointOf globals code n i).after

/-- The name is live where control stands. Where a unit ends, globals are. -/
def liveAt (globals : List String) (code : List Instr) (n : Name) (pc : Nat) : Bool :=
  match code[pc]? with
  | none | some (.function ..) => isShared globals n
  | some _ => liveBefore globals code n pc

theorem getElem?_flow (code : List Instr) (i : Nat) :
    (flow code)[i]? = code[i]?.map fun instr =>
      Node.of instr (fallsInto? code.toArray i) (findLabel? · code) := by
  simp only [flow, Array.getElem?_mapIdx, List.getElem?_toArray]

theorem contains_map_var (globals : List String) (n : Name) :
    (globals.map Name.var).contains n = isShared globals n := by
  cases n with
  | temp t => simp [isShared]
  | var x => simp [isShared]

/-- The flags of a point are those that its node asks for. -/
theorem pointOf_stable (globals : List String) (n : Name) (at_i : code[i]? = some instr) :
    ∃ points, (∀ j, (points[j]?.getD {} : Point) = pointOf globals code n j) ∧
      (Node.of instr (fallsInto? code.toArray i) (findLabel? · code)).visit n
        (isShared globals n) points (pointOf globals code n i) = pointOf globals code n i := by
  refine ⟨(trace globals (flow code) n).points, fun _ => rfl, ?_⟩
  have below : i < code.length := (List.getElem?_eq_some_iff.mp at_i).1
  have size : (trace globals (flow code) n).points.size = code.length := by
    simp [trace, size_converge]
  obtain ⟨p, at_i'⟩ : ∃ p, (trace globals (flow code) n).points[i]? = some p :=
    ⟨_, Array.getElem?_eq_getElem (by omega)⟩
  have stable : StableAt n ((globals.map Name.var).contains n) (flow code)
      (trace globals (flow code) n).points i :=
    stable_converge (Array.replicate (flow code).size {}) 0 (by simpa using below)
  rw [← contains_map_var, pointOf, at_i']
  exact stable _ p (by rw [getElem?_flow, at_i]; rfl) at_i'

theorem liveAfter_of_node (at_i : code[i]? = some instr)
    (asks : ((Node.of instr (fallsInto? code.toArray i) (findLabel? · code)).leaves = true ∧
        isShared globals n = true) ∨
      ∃ j ∈ (Node.of instr (fallsInto? code.toArray i) (findLabel? · code)).next,
        liveBefore globals code n j = true) :
    liveAfter globals code n i = true := by
  obtain ⟨points, same, stable⟩ := pointOf_stable globals n at_i
  have after := congrArg Point.after stable
  have asked : Node.liveAfter (isShared globals n) points
      (Node.of instr (fallsInto? code.toArray i) (findLabel? · code)) = true := by
    simp only [Node.liveAfter, Bool.or_eq_true, Bool.and_eq_true, List.any_eq_true, same]
    exact asks
  simp only [Node.visit, asked, Bool.or_true] at after
  exact after.symm

theorem liveBefore_of_node (at_i : code[i]? = some instr)
    (asks : (liveAfter globals code n i = true ∧ instr.defines? ≠ some n) ∨ n ∈ instr.uses ∨
      (instr.isCall = true ∧ isShared globals n = true)) :
    liveBefore globals code n i = true := by
  obtain ⟨points, same, stable⟩ := pointOf_stable globals n at_i
  have before := congrArg Point.before stable
  have after := congrArg Point.after stable
  have instr_of :
      (Node.of instr (fallsInto? code.toArray i) (findLabel? · code)).instr = instr := by
    cases instr <;> rfl
  simp only [Node.visit] at before after
  rw [after] at before
  have asked : Node.liveBefore n (isShared globals n)
      (Node.of instr (fallsInto? code.toArray i) (findLabel? · code))
      (liveAfter globals code n i) = true := by
    simp only [Node.liveBefore, instr_of, Bool.or_eq_true, Bool.and_eq_true, bne_iff_ne,
      List.contains_eq_mem, decide_eq_true_eq, or_assoc]
    exact asks
  rw [liveAfter] at asked
  simp only [asked, Bool.or_true] at before
  exact before.symm

/-- Control may go on at the next instruction. -/
def Instr.falls : Instr → Bool
  | .goto _ | .ret _ => false
  | .function .. | .label _ | .branch .. | .copy .. | .unary .. | .binary .. | .call .. => true

/-- The instruction may jump to the label. -/
def Instr.jumpsTo (instr : Instr) (l : Label) : Prop :=
  instr = .goto l ∨ ∃ cond, instr = .branch cond l

/-- The next instruction is a successor, or the unit ends there. -/
theorem liveAt_succ (h : liveAt globals code n (i + 1) = true) :
    (fallsInto? code.toArray i = none ∧ isShared globals n = true) ∨
      (fallsInto? code.toArray i = some (i + 1) ∧ liveBefore globals code n (i + 1) = true) := by
  unfold liveAt at h
  unfold fallsInto?
  rw [List.getElem?_toArray]
  cases next : code[i + 1]? with
  | none => exact .inl ⟨rfl, by simpa [next] using h⟩
  | some instr => cases instr <;> simp_all

theorem liveAfter_of_falls (at_i : code[i]? = some instr) (falls : instr.falls = true)
    (live : liveAt globals code n (i + 1) = true) : liveAfter globals code n i = true := by
  refine liveAfter_of_node at_i ?_
  rcases liveAt_succ live with ⟨ends, global⟩ | ⟨next, before⟩
  · refine .inl ⟨?_, global⟩
    cases instr <;> simp_all [Node.of, Instr.falls]
  · refine .inr ⟨i + 1, ?_, before⟩
    cases instr <;> simp_all [Node.of, Instr.falls]

theorem liveAfter_of_jumps {l : Label} (at_i : code[i]? = some instr) (jumps : instr.jumpsTo l)
    (live : liveAt globals code n ((findLabel? l code).getD code.length) = true) :
    liveAfter globals code n i = true := by
  refine liveAfter_of_node at_i ?_
  cases found : findLabel? l code with
  | none =>
      have global : isShared globals n = true := by simpa [liveAt, found] using live
      refine .inl ⟨?_, global⟩
      rcases jumps with rfl | ⟨cond, rfl⟩ <;> simp [Node.of, found]
  | some k =>
      have before : liveBefore globals code n k = true := by
        simpa [liveAt, found, getElem?_of_findLabel? found] using live
      refine .inr ⟨k, ?_, before⟩
      rcases jumps with rfl | ⟨cond, rfl⟩ <;> simp [Node.of, found]

theorem liveAfter_of_ret {value : Option Operand} (at_i : code[i]? = some (.ret value))
    (global : isShared globals n = true) : liveAfter globals code n i = true :=
  liveAfter_of_node at_i (.inl ⟨rfl, global⟩)

theorem liveBefore_of_after (at_i : code[i]? = some instr)
    (after : liveAfter globals code n i = true) (other : instr.defines? ≠ some n) :
    liveBefore globals code n i = true :=
  liveBefore_of_node at_i (.inl ⟨after, other⟩)

theorem liveBefore_of_uses (at_i : code[i]? = some instr) (used : n ∈ instr.uses) :
    liveBefore globals code n i = true :=
  liveBefore_of_node at_i (.inr (.inl used))

theorem liveBefore_of_call (at_i : code[i]? = some instr) (call : instr.isCall = true)
    (global : isShared globals n = true) : liveBefore globals code n i = true :=
  liveBefore_of_node at_i (.inr (.inr ⟨call, global⟩))

/-! ### Dead instructions -/

/-- The instruction at a place gives a value to a name that is not live after it. -/
def deadAt (globals : List String) (code : List Instr) (i : Nat) (instr : Instr) : Bool :=
  isDead instr ((liveness globals code).after i)

theorem mem_after {n : Name} : n ∈ (liveness globals code).after i ↔
    n ∈ liveNames globals code ∧ liveAfter globals code n i = true := by
  simp only [Liveness.after, liveness, List.mem_map, List.mem_filter, Prod.exists,
    Prod.mk.injEq]
  constructor
  · rintro ⟨_, t, ⟨⟨m, mem, rfl, rfl⟩, after⟩, rfl⟩
    exact ⟨mem, after⟩
  · rintro ⟨mem, after⟩
    exact ⟨n, _, ⟨⟨n, mem, rfl, rfl⟩, after⟩, rfl⟩

/-- What a dead instruction writes is not live after it. -/
theorem not_liveAfter_of_deadAt (at_i : code[i]? = some instr)
    (dead : deadAt globals code i instr = true) :
    ∃ n, instr.result? = some (.name n) ∧ liveAfter globals code n i = false := by
  simp only [deadAt, isDead, Option.any_eq_true, Instr.target?, Option.bind_eq_some_iff] at dead
  obtain ⟨n, ⟨result, writes, names⟩, absent⟩ := dead
  have writes : instr.result? = some (.name n) := by
    cases result <;> simp_all [Operand.name?]
  refine ⟨n, writes, ?_⟩
  have defines : instr.defines? = some n := by
    cases instr <;> simp_all [Instr.defines?, Instr.result?, Operand.name?]
  have mentioned : n ∈ liveNames globals code := by
    simp only [liveNames, List.mem_eraseDups, List.mem_append, List.mem_flatMap]
    exact .inr ⟨instr, List.mem_of_getElem? at_i, by simp [Instr.names, defines]⟩
  have absent : n ∉ (liveness globals code).after i := by simpa using absent
  cases after : liveAfter globals code n i with
  | false => rfl
  | true => exact absurd (mem_after.mpr ⟨mentioned, after⟩) absent

end Code

end BraceLang.Tac
