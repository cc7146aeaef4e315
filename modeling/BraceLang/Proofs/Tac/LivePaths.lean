import BraceLang.Proofs.Tac.LivePoints
import Mathlib.Data.List.Chain
import Mathlib.Logic.Function.Iterate

/-!
Liveness as a question about paths. A place *demands* a name if the name's value may be asked for
there, and a name is live after an instruction if some path leads on to a place that demands it,
past no definition of it, or if it is a global and the program may be left there.

The flags of a name are raised sweep by sweep. The equations of liveness can also be solved
without ever looking at the flags that are up: each place gets just the flags that its
successors ask for (`pass`). From flags that are all down the two do the same, because a flag
that is up goes on being asked for (`sweep_eq_pass`).

* **`converge_eq`**: the sweeps end with the first pass that changes nothing;
* **`backed_passes`**: a flag that is up has a path behind it;
* **`liveAfter_of_leadsToDemand`**: where there is a path, the flag is up.
-/

namespace BraceLang.Tac

/-! ### Passes -/

/-- The flags that a node asks for, whatever has been raised so far. -/
def Node.ask (name : Name) (isGlobal : Bool) (points : Array Point) (n : Node) : Point :=
  let after := n.liveAfter isGlobal points
  { before := n.liveBefore name isGlobal after, after }

/-- Gives the first `k` points the flags their nodes ask for, the last of them first. -/
def pass (name : Name) (isGlobal : Bool) (nodes : Array Node) : Nat → Array Point → Array Point
  | 0, points => points
  | k + 1, points =>
      match nodes[k]? with
      | some n =>
          pass name isGlobal nodes k (points.setIfInBounds k (n.ask name isGlobal points))
      | none => pass name isGlobal nodes k points

/-- The points of a name in some code after so many passes. All flags are down at first. -/
def passes (globals : List String) (code : List Instr) (name : Name) (t : Nat) : Array Point :=
  (pass name (isShared globals name) (flow code) code.length)^[t]
    (Array.replicate code.length {})

section Passes

variable {name : Name} {isGlobal : Bool} {nodes : Array Node} {points points' : Array Point}

/-- The flags of one point are up in another one. -/
structure Point.Le (p q : Point) : Prop where
  before : p.before = true → q.before = true
  after : p.after = true → q.after = true

/-- All flags of some points are up in others. -/
def Raises (points points' : Array Point) : Prop :=
  ∀ j : Nat, Point.Le (points[j]?.getD {}) (points'[j]?.getD {})

/-- Every flag that is up is asked for. -/
def Justified (name : Name) (isGlobal : Bool) (nodes : Array Node) (points : Array Point) : Prop :=
  ∀ (k : Nat) n p, nodes[k]? = some n → points[k]? = some p → p.Le (n.ask name isGlobal points)

theorem Point.Le.trans {p q r : Point} (first : p.Le q) (second : q.Le r) : p.Le r :=
  ⟨fun up => second.before (first.before up), fun up => second.after (first.after up)⟩

/-- A node asks for more if more flags are up. -/
theorem Node.ask_mono (n : Node) (raises : Raises points points') :
    (n.ask name isGlobal points).Le (n.ask name isGlobal points') := by
  have after : n.liveAfter isGlobal points = true → n.liveAfter isGlobal points' = true := by
    simp only [Node.liveAfter, Bool.or_eq_true, List.any_eq_true]
    rintro (leaves | ⟨j, next, up⟩)
    · exact .inl leaves
    · exact .inr ⟨j, next, (raises j).before up⟩
  refine ⟨?_, after⟩
  simp only [Node.ask, Node.liveBefore, Bool.or_eq_true, Bool.and_eq_true]
  rintro ((⟨up, other⟩ | used) | called)
  · exact .inl (.inl ⟨after up, other⟩)
  · exact .inl (.inr used)
  · exact .inr called

/-- A visit to a point whose flags are asked for gives it what is asked for. -/
theorem Node.visit_eq_ask {n : Node} {p : Point} (le : p.Le (n.ask name isGlobal points)) :
    n.visit name isGlobal points p = n.ask name isGlobal points := by
  obtain ⟨before, after⟩ := p
  have up : (after || n.liveAfter isGlobal points) = n.liveAfter isGlobal points := by
    cases after
    · rfl
    · exact (le.after rfl).symm
  simp only [Node.visit, Node.ask, up, Point.mk.injEq, and_true]
  cases before
  · rfl
  · exact (le.before rfl).symm

theorem raises_set {k : Nat} {p q : Point} (at_k : points[k]? = some p) (le : p.Le q) :
    Raises points (points.setIfInBounds k q) := by
  intro j
  rw [Array.getElem?_setIfInBounds]
  by_cases here : k = j
  · subst here
    have below := (Array.getElem?_eq_some_iff.mp at_k).1
    rw [at_k, if_pos rfl, if_pos below]
    exact le
  · simpa [here] using (⟨id, id⟩ : Point.Le _ _)

theorem Justified.set (justified : Justified name isGlobal nodes points) {k : Nat} {n : Node}
    (node : nodes[k]? = some n) :
    Justified name isGlobal nodes (points.setIfInBounds k (n.ask name isGlobal points)) := by
  intro j m p at_j point
  rw [Array.getElem?_setIfInBounds] at point
  cases at_k : points[k]? with
  | none =>
      have outside : points.setIfInBounds k (n.ask name isGlobal points) = points :=
        Array.setIfInBounds_eq_of_size_le (Array.getElem?_eq_none_iff.mp at_k)
      rw [outside]
      refine justified j m p at_j ?_
      by_cases here : k = j
      · subst here
        have above := Array.getElem?_eq_none_iff.mp at_k
        simp [Nat.not_lt.mpr above] at point
      · simpa [here] using point
  | some q =>
      have raises := raises_set at_k (justified k n q node at_k)
      by_cases here : k = j
      · subst here
        obtain rfl := Option.some.inj (node.symm.trans at_j)
        have below := (Array.getElem?_eq_some_iff.mp at_k).1
        obtain rfl : n.ask name isGlobal points = p := by simpa [below] using point
        exact n.ask_mono raises
      · exact (justified j m p at_j (by simpa [here] using point)).trans (m.ask_mono raises)

/-- Where all flags are asked for, a sweep is a pass, and they still are after it. -/
theorem sweep_eq_pass (justified : Justified name isGlobal nodes points) (k : Nat) :
    sweep name isGlobal nodes k points = pass name isGlobal nodes k points ∧
      Justified name isGlobal nodes (sweep name isGlobal nodes k points) := by
  induction k generalizing points with
  | zero => exact ⟨rfl, justified⟩
  | succ k ih =>
      unfold sweep pass
      cases node : nodes[k]? with
      | none => exact ih justified
      | some n =>
          cases at_k : points[k]? with
          | some p =>
              simp only [Node.visit_eq_ask (justified k n p node at_k)]
              exact ih (justified.set node)
          | none =>
              have outside : points.setIfInBounds k (n.ask name isGlobal points) = points :=
                Array.setIfInBounds_eq_of_size_le (Array.getElem?_eq_none_iff.mp at_k)
              simp only [outside]
              exact ih justified

theorem justified_blank (size : Nat) :
    Justified name isGlobal nodes (Array.replicate size {}) := by
  intro k n p _ point
  obtain rfl : ({} : Point) = p := by
    rw [Array.getElem?_replicate] at point
    split at point
    · exact Option.some.inj point
    · contradiction
  exact ⟨fun up => by contradiction, fun up => by contradiction⟩

theorem iterate_sweep_eq (size t : Nat) :
    (sweep name isGlobal nodes nodes.size)^[t] (Array.replicate size {}) =
        (pass name isGlobal nodes nodes.size)^[t] (Array.replicate size {}) ∧
      Justified name isGlobal nodes
        ((sweep name isGlobal nodes nodes.size)^[t] (Array.replicate size {})) := by
  induction t with
  | zero => exact ⟨rfl, justified_blank size⟩
  | succ t ih =>
      obtain ⟨same, justified⟩ := ih
      rw [Function.iterate_succ_apply', Function.iterate_succ_apply', ← same]
      exact sweep_eq_pass justified nodes.size

/-- The sweeps end with the first one that raises no flag. -/
theorem converge_eq (points : Array Point) (sweeps : Nat) :
    ∃ t, converge name isGlobal nodes points sweeps =
        ⟨(sweep name isGlobal nodes nodes.size)^[t] points, sweeps + t + 1⟩ ∧
      (sweep name isGlobal nodes nodes.size)^[t + 1] points =
        (sweep name isGlobal nodes nodes.size)^[t] points ∧
      ∀ t' < t, total ((sweep name isGlobal nodes nodes.size)^[t'] points) <
        total ((sweep name isGlobal nodes nodes.size)^[t' + 1] points) := by
  fun_induction converge name isGlobal nodes points sweeps with
  | case1 points sweeps swept raised ih =>
      obtain ⟨t, ends, fixed, raising⟩ := ih
      refine ⟨t + 1, ?_, fixed, ?_⟩
      · rw [ends, Function.iterate_succ_apply]
        simp only [Trace.mk.injEq]
        exact ⟨rfl, by omega⟩
      · intro t' below
        cases t' with
        | zero => exact raised
        | succ t' => exact raising t' (by omega)
  | case2 points sweeps swept quiet =>
      have same := (sweep_eq_of_total_le (Nat.not_lt.mp quiet)).1
      exact ⟨0, by simp only [swept, same, Function.iterate_zero, id, Nat.add_zero],
        by simpa using same, by simp⟩

end Passes

/-! ### The passes over some code -/

section Code

variable {globals : List String} {code : List Instr} {name : Name}

theorem size_pass (name : Name) (isGlobal : Bool) (nodes : Array Node) (k : Nat)
    (points : Array Point) : (pass name isGlobal nodes k points).size = points.size := by
  induction k generalizing points with
  | zero => rfl
  | succ k ih =>
      unfold pass
      split
      · rw [ih, Array.size_setIfInBounds]
      · exact ih points

theorem passes_succ (t : Nat) :
    passes globals code name (t + 1) =
      pass name (isShared globals name) (flow code) code.length (passes globals code name t) :=
  Function.iterate_succ_apply' ..

@[simp] theorem size_passes (t : Nat) : (passes globals code name t).size = code.length := by
  induction t with
  | zero => simp [passes]
  | succ t ih => rw [passes_succ, size_pass, ih]

/-- The number of sweeps of a name, and the points that they end with. -/
structure EndsAt (globals : List String) (code : List Instr) (name : Name) (t : Nat) : Prop where
  trace : trace globals (flow code) name = ⟨passes globals code name t, t + 1⟩
  fixed : passes globals code name (t + 1) = passes globals code name t
  raising : ∀ t' < t,
    total (passes globals code name t') < total (passes globals code name (t' + 1))

theorem exists_endsAt (globals : List String) (code : List Instr) (name : Name) :
    ∃ t, EndsAt globals code name t := by
  have same (t : Nat) : (sweep name (isShared globals name) (flow code) (flow code).size)^[t]
      (Array.replicate code.length {}) = passes globals code name t := by
    rw [passes, (iterate_sweep_eq code.length t).1, size_flow]
  obtain ⟨t, ends, fixed, raising⟩ := @converge_eq name
    (isShared globals name) (flow code) (Array.replicate code.length {}) 0
  simp only [same] at ends fixed raising
  refine ⟨t, ?_, fixed, raising⟩
  rw [Tac.trace, contains_map_var, size_flow, ends, Nat.zero_add]

/-- Every sweep but the last raises a flag, and a point has two. -/
theorem EndsAt.le {t : Nat} (ends : EndsAt globals code name t) : t ≤ 2 * code.length := by
  have grown : ∀ t' ≤ t, t' ≤ total (passes globals code name t') := by
    intro t' le
    induction t' with
    | zero => exact Nat.zero_le _
    | succ t' ih =>
        have := ih (by omega)
        have := ends.raising t' (by omega)
        omega
  have := grown t (Nat.le_refl t)
  have := total_le (passes globals code name t)
  rw [size_passes] at this
  omega

/-- Once a pass changes nothing, no later one does. -/
theorem EndsAt.passes_eq {t : Nat} (ends : EndsAt globals code name t) {later : Nat}
    (le : t ≤ later) : passes globals code name later = passes globals code name t := by
  induction le with
  | refl => rfl
  | step _ ih => rw [passes_succ, ih, ← passes_succ, ends.fixed]

/-! ### Paths -/

/-- Control may go on from the first place to the second. -/
def Flows (code : List Instr) (i j : Nat) : Prop :=
  ∃ node, (flow code)[i]? = some node ∧ j ∈ node.next

/-- Control may leave the program after the instruction at a place. -/
def Exits (code : List Instr) (i : Nat) : Prop :=
  ∃ node, (flow code)[i]? = some node ∧ node.leaves = true

/-- The instruction at a place gives the name a new value. -/
def Defines (code : List Instr) (n : Name) (i : Nat) : Prop :=
  ∃ instr, code[i]? = some instr ∧ instr.defines? = some n

/-- The value that a name has before a place may be asked for there: the instruction uses it, or
the name is a global that a call may read, or that is read by whoever goes on when control leaves
the program. -/
inductive Demands (globals : List String) (code : List Instr) (n : Name) (j : Nat) : Prop where
  | use {instr : Instr} (here : code[j]? = some instr) (used : n ∈ instr.uses)
  | call {instr : Instr} (here : code[j]? = some instr) (call : instr.isCall = true)
      (isGlobal : isShared globals n = true)
  | exit (exits : Exits code j) (kept : ¬ Defines code n j) (isGlobal : isShared globals n = true)

/-- A path leads from a place to one that demands the name, past no definition of it. -/
def LeadsToDemand (globals : List String) (code : List Instr) (n : Name) (i : Nat) : Prop :=
  ∃ (path : List Nat) (j : Nat), (i :: (path ++ [j])).IsChain (Flows code) ∧
    (∀ k ∈ path, ¬ Defines code n k) ∧ Demands globals code n j

/-- What paths say about the flag after a place. -/
def DemandedAfter (globals : List String) (code : List Instr) (n : Name) (i : Nat) : Prop :=
  (Exits code i ∧ isShared globals n = true) ∨ LeadsToDemand globals code n i

/-- What paths say about the flag before a place. -/
def DemandedBefore (globals : List String) (code : List Instr) (n : Name) (i : Nat) : Prop :=
  Demands globals code n i ∨ (¬ Defines code n i ∧ LeadsToDemand globals code n i)

variable {n : Name} {i j : Nat}

theorem LeadsToDemand.of_flows (flows : Flows code i j)
    (demanded : DemandedBefore globals code n j) : LeadsToDemand globals code n i := by
  rcases demanded with demands | ⟨kept, path, k, chain, free, demands⟩
  · exact ⟨[], j, by simpa using flows, by simp, demands⟩
  · refine ⟨j :: path, k, ?_, ?_, demands⟩
    · rw [List.cons_append, List.isChain_cons_cons]
      exact ⟨flows, chain⟩
    · simpa using ⟨kept, free⟩

/-- The node at a place, as far as liveness looks at it. -/
theorem exists_instr_of_node {node : Node} (at_i : (flow code)[i]? = some node) :
    ∃ instr, code[i]? = some instr ∧ node.instr = instr ∧
      node = Node.of instr (fallsInto? code.toArray i) (findLabel? · code) := by
  rw [getElem?_flow] at at_i
  obtain ⟨instr, here, rfl⟩ := Option.map_eq_some_iff.mp at_i
  exact ⟨instr, here, by cases instr <;> rfl, rfl⟩

/-! ### A flag that is up has a path behind it -/

/-- Every flag that is up has a path behind it. -/
def Backed (globals : List String) (code : List Instr) (n : Name) (points : Array Point) : Prop :=
  ∀ j : Nat, ((points[j]?.getD {}).before = true → DemandedBefore globals code n j) ∧
    ((points[j]?.getD {}).after = true → DemandedAfter globals code n j)

/-- What a node asks for has a path behind it if its successors' flags have. -/
theorem Backed.ask {points : Array Point} (backed : Backed globals code n points) {node : Node}
    (at_i : (flow code)[i]? = some node) :
    ((node.ask n (isShared globals n) points).before = true → DemandedBefore globals code n i) ∧
      ((node.ask n (isShared globals n) points).after = true →
        DemandedAfter globals code n i) := by
  obtain ⟨instr, here, same, _⟩ := exists_instr_of_node at_i
  have after : node.liveAfter (isShared globals n) points = true →
      DemandedAfter globals code n i := by
    simp only [Node.liveAfter, Bool.or_eq_true, Bool.and_eq_true, List.any_eq_true]
    rintro (⟨leaves, isGlobal⟩ | ⟨j, next, up⟩)
    · exact .inl ⟨⟨node, at_i, leaves⟩, isGlobal⟩
    · exact .inr (.of_flows ⟨node, at_i, next⟩ ((backed j).1 up))
  refine ⟨?_, after⟩
  simp only [Node.ask, Node.liveBefore, same, Bool.or_eq_true, Bool.and_eq_true, bne_iff_ne,
    List.contains_eq_mem, decide_eq_true_eq]
  rintro ((⟨up, other⟩ | used) | ⟨call, isGlobal⟩)
  · have kept : ¬ Defines code n i := by
      rintro ⟨instr', here', defines⟩
      obtain rfl := Option.some.inj (here.symm.trans here')
      exact other defines
    rcases after up with ⟨exits, isGlobal⟩ | leads
    · exact .inl (.exit exits kept isGlobal)
    · exact .inr ⟨kept, leads⟩
  · exact .inl (.use here used)
  · exact .inl (.call here call isGlobal)

theorem Backed.pass {points : Array Point} (backed : Backed globals code n points) (k : Nat) :
    Backed globals code n (pass n (isShared globals n) (flow code) k points) := by
  induction k generalizing points with
  | zero => exact backed
  | succ k ih =>
      unfold Tac.pass
      cases at_k : (flow code)[k]? with
      | none => exact ih backed
      | some node =>
          refine ih fun j => ?_
          rw [Array.getElem?_setIfInBounds]
          by_cases here : k = j
          · subst here
            by_cases below : k < points.size
            · simpa [below] using backed.ask at_k
            · simp [below]
          · simpa [here] using backed j

theorem backed_passes (globals : List String) (code : List Instr) (n : Name) (t : Nat) :
    Backed globals code n (passes globals code n t) := by
  induction t with
  | zero =>
      intro j
      simp only [passes, Function.iterate_zero, id, Array.getElem?_replicate]
      split <;> simp
  | succ t ih =>
      rw [passes_succ]
      exact ih.pass code.length

/-! ### Where there is a path, the flag is up -/

theorem liveBefore_of_demands (demands : Demands globals code n j) :
    liveBefore globals code n j = true := by
  cases demands with
  | use here used => exact liveBefore_of_uses here used
  | call here call isGlobal => exact liveBefore_of_call here call isGlobal
  | exit exits kept isGlobal =>
      obtain ⟨node, at_j, leaves⟩ := exits
      obtain ⟨instr, here, _, rfl⟩ := exists_instr_of_node at_j
      exact liveBefore_of_after here (liveAfter_of_node here (.inl ⟨leaves, isGlobal⟩))
        fun defines => kept ⟨instr, here, defines⟩

theorem liveAfter_of_flows (flows : Flows code i j) (live : liveBefore globals code n j = true) :
    liveAfter globals code n i = true := by
  obtain ⟨node, at_i, next⟩ := flows
  obtain ⟨instr, here, _, rfl⟩ := exists_instr_of_node at_i
  exact liveAfter_of_node here (.inr ⟨j, next, live⟩)

theorem liveAfter_of_leadsToDemand (leads : LeadsToDemand globals code n i) :
    liveAfter globals code n i = true := by
  obtain ⟨path, j, chain, free, demands⟩ := leads
  induction path generalizing i with
  | nil =>
      have flows : Flows code i j := by simpa using chain
      exact liveAfter_of_flows flows (liveBefore_of_demands demands)
  | cons k path ih =>
      rw [List.cons_append, List.isChain_cons_cons] at chain
      obtain ⟨flows, chain⟩ := chain
      have after := ih chain fun k mem => free k (List.mem_cons_of_mem _ mem)
      -- The path goes on behind `k`, so there is an instruction at `k`.
      obtain ⟨instr, here⟩ : ∃ instr, code[k]? = some instr := by
        obtain ⟨next, _, split⟩ : ∃ next rest, path ++ [j] = next :: rest := by
          cases path <;> simp
        rw [split, List.isChain_cons_cons] at chain
        obtain ⟨node, at_k, _⟩ := chain.1
        obtain ⟨instr, here, _⟩ := exists_instr_of_node at_k
        exact ⟨instr, here⟩
      refine liveAfter_of_flows flows (liveBefore_of_after here after fun defines => ?_)
      exact free k List.mem_cons_self ⟨instr, here, defines⟩

theorem liveAfter_of_exits (exits : Exits code i) (isGlobal : isShared globals n = true) :
    liveAfter globals code n i = true := by
  obtain ⟨node, at_i, leaves⟩ := exits
  obtain ⟨instr, here, _, rfl⟩ := exists_instr_of_node at_i
  exact liveAfter_of_node here (.inl ⟨leaves, isGlobal⟩)

/-! ### What liveness answers -/

theorem mem_liveNames_of_isShared (isGlobal : isShared globals n = true) :
    n ∈ liveNames globals code := by
  rw [← contains_map_var] at isGlobal
  simp only [liveNames, List.mem_eraseDups, List.mem_append]
  exact .inl (List.contains_iff_mem.mp isGlobal)

/-- A name that is demanded somewhere is one of those that are looked at. -/
theorem mem_liveNames_of_demands (demands : Demands globals code n j) :
    n ∈ liveNames globals code := by
  cases demands with
  | use here used =>
      simp only [liveNames, List.mem_eraseDups, List.mem_append, List.mem_flatMap]
      exact .inr ⟨_, List.mem_of_getElem? here, by simp [Instr.names, used]⟩
  | call _ _ isGlobal => exact mem_liveNames_of_isShared isGlobal
  | exit _ _ isGlobal => exact mem_liveNames_of_isShared isGlobal

theorem mem_liveNames_of_leadsToDemand (leads : LeadsToDemand globals code n i) :
    n ∈ liveNames globals code := by
  obtain ⟨path, j, _, _, demands⟩ := leads
  exact mem_liveNames_of_demands demands

/-- No flag of another name is ever raised. -/
theorem passes_of_not_mem (absent : n ∉ liveNames globals code) (t : Nat) :
    passes globals code n t = passes globals code n 0 := by
  have down : ∀ j : Nat, ((passes globals code n t)[j]?.getD {}) = {} := by
    intro j
    obtain ⟨before, after⟩ := backed_passes globals code n t j
    cases point : (passes globals code n t)[j]?.getD {} with
    | mk up up' =>
        rw [point] at before after
        cases up with
        | true =>
            rcases before rfl with demands | ⟨_, leads⟩
            · exact absurd (mem_liveNames_of_demands demands) absent
            · exact absurd (mem_liveNames_of_leadsToDemand leads) absent
        | false =>
            cases up' with
            | true =>
                rcases after rfl with ⟨_, isGlobal⟩ | leads
                · exact absurd (mem_liveNames_of_isShared isGlobal) absent
                · exact absurd (mem_liveNames_of_leadsToDemand leads) absent
            | false => rfl
  have blank : passes globals code n 0 = Array.replicate code.length {} := rfl
  rw [blank]
  refine Array.ext (by simp) fun j below _ => ?_
  have := down j
  rw [Array.getElem?_eq_getElem below, Option.getD_some] at this
  rw [this, Array.getElem_replicate]

/-- The sweeps that all names take together are those of the name that takes the most. -/
theorem Liveness.sweeps_spec (l : Liveness) :
    1 ≤ l.sweeps ∧ (∀ e ∈ l.traces, e.2.sweeps ≤ l.sweeps) ∧
      (l.sweeps = 1 ∨ ∃ e ∈ l.traces, e.2.sweeps = l.sweeps) := by
  obtain ⟨traces, length⟩ := l
  simp only [Liveness.sweeps]
  generalize 1 = least
  induction traces generalizing least with
  | nil => simp
  | cons e rest ih =>
      obtain ⟨le, all, reached⟩ := ih (max least e.2.sweeps)
      simp only [List.foldl_cons, List.mem_cons, forall_eq_or_imp, exists_eq_or_imp]
      refine ⟨by omega, ⟨by omega, all⟩, ?_⟩
      rcases reached with same | found
      · rcases Nat.le_total least e.2.sweeps with le' | le'
        · exact .inr (.inl (by omega))
        · exact .inl (by omega)
      · exact .inr (.inr found)

theorem mem_liveOut : n ∈ (liveOut globals code)[i]?.getD [] ↔
    n ∈ liveNames globals code ∧ liveAfter globals code n i = true := by
  have length : (liveness globals code).length = code.length := rfl
  simp only [liveOut, Liveness.out, List.getElem?_map, length]
  by_cases below : i < code.length
  · rw [List.getElem?_range below]
    exact mem_after
  · have down : liveAfter globals code n i = false := by
      have size : (trace globals (flow code) n).points.size = code.length := by
        simp [trace, size_converge]
      simp [liveAfter, pointOf, size, below]
    simp [below, down]

/-- The name is live after a place if a path says so. -/
theorem mem_liveOut_iff_demandedAfter :
    n ∈ (liveOut globals code)[i]?.getD [] ↔ DemandedAfter globals code n i := by
  rw [mem_liveOut]
  constructor
  · rintro ⟨_, after⟩
    obtain ⟨t, ends⟩ := exists_endsAt globals code n
    rw [liveAfter, pointOf, ends.trace] at after
    exact (backed_passes globals code n t i).2 after
  · rintro (⟨exits, isGlobal⟩ | leads)
    · exact ⟨mem_liveNames_of_isShared isGlobal, liveAfter_of_exits exits isGlobal⟩
    · exact ⟨mem_liveNames_of_leadsToDemand leads, liveAfter_of_leadsToDemand leads⟩

/-- What is live is what the first pass that changes nothing leaves for all names. -/
theorem liveness_ends (globals : List String) (code : List Instr) :
    ∃ t ≤ 2 * code.length, (liveness globals code).sweeps = t + 1 ∧
      (∀ n, passes globals code n (t + 1) = passes globals code n t) ∧
      (∀ t' < t, ∃ n, passes globals code n (t' + 1) ≠ passes globals code n t') ∧
      ∀ (i : Nat) n, n ∈ (liveOut globals code)[i]?.getD [] ↔
        ((passes globals code n t)[i]?.getD ({} : Point)).after = true := by
  obtain ⟨positive, all, reached⟩ := (liveness globals code).sweeps_spec
  obtain ⟨t, sweeps⟩ : ∃ t, (liveness globals code).sweeps = t + 1 := ⟨_, (by omega :
    (liveness globals code).sweeps = (liveness globals code).sweeps - 1 + 1)⟩
  have among {n : Name} (mem : n ∈ liveNames globals code) :
      (n, trace globals (flow code) n) ∈ (liveness globals code).traces :=
    List.mem_map_of_mem mem
  -- The name that takes the most sweeps.
  have longest : t = 0 ∨ ∃ n, EndsAt globals code n t := by
    rcases reached with one | ⟨e, mem, same⟩
    · exact .inl (by omega)
    · obtain ⟨n, _, rfl⟩ := List.mem_map.mp mem
      obtain ⟨t', ends⟩ := exists_endsAt globals code n
      have : t' = t := by simpa [ends.trace, sweeps] using same
      exact .inr ⟨n, this ▸ ends⟩
  have settled : ∀ n, ∃ t' ≤ t, ∀ later, t' ≤ later →
      passes globals code n later = passes globals code n t' := by
    intro n
    by_cases mem : n ∈ liveNames globals code
    · obtain ⟨t', ends⟩ := exists_endsAt globals code n
      have le := all _ (among mem)
      simp only [ends.trace, sweeps] at le
      exact ⟨t', by omega, fun later => ends.passes_eq⟩
    · exact ⟨0, Nat.zero_le t, fun later _ => passes_of_not_mem mem later⟩
  refine ⟨t, ?_, sweeps, ?_, ?_, ?_⟩
  · rcases longest with rfl | ⟨n, ends⟩
    · exact Nat.zero_le _
    · exact ends.le
  · intro n
    obtain ⟨t', le, fixed⟩ := settled n
    rw [fixed (t + 1) (by omega), fixed t le]
  · intro t' below
    rcases longest with rfl | ⟨n, ends⟩
    · contradiction
    · refine ⟨n, fun same => ?_⟩
      have raised := ends.raising t' below
      rw [same] at raised
      exact Nat.lt_irrefl _ raised
  · intro i n
    obtain ⟨t', le, fixed⟩ := settled n
    rw [mem_liveOut_iff_demandedAfter]
    constructor
    · intro demanded
      have live := (mem_liveOut.mp (mem_liveOut_iff_demandedAfter.mpr demanded)).2
      obtain ⟨s, ends⟩ := exists_endsAt globals code n
      have final : passes globals code n s = passes globals code n t := by
        have := ends.passes_eq (Nat.le_max_left s t')
        rw [← this, fixed _ (Nat.le_max_right s t'), fixed t le]
      rwa [liveAfter, pointOf, ends.trace, final] at live
    · exact (backed_passes globals code n t i).2

end Code

/-- **Liveness ends and is exact.** Giving each place the flags that it asks for, from the end of
the code to its start and again and again, comes to a pass that changes nothing after at most two
passes for each instruction, and what liveness answers is what the first such pass leaves. A name
is live after an instruction if and only if control may leave the program there and the name is a
global, or a path leads on, past no definition of the name, to an instruction that uses it, or, if
it is a global, to a call or to an exit that does not define it. -/
theorem liveOut_exact (globals : List String) (code : List Instr) :
    (∃ t ≤ 2 * code.length, (liveness globals code).sweeps = t + 1 ∧
      (∀ n, passes globals code n (t + 1) = passes globals code n t) ∧
      (∀ t' < t, ∃ n, passes globals code n (t' + 1) ≠ passes globals code n t') ∧
      ∀ (i : Nat) n, n ∈ (liveOut globals code)[i]?.getD [] ↔
        ((passes globals code n t)[i]?.getD ({} : Point)).after = true) ∧
    ∀ (i : Nat) n, n ∈ (liveOut globals code)[i]?.getD [] ↔
      (Exits code i ∧ isShared globals n = true) ∨
        ∃ (path : List Nat) (j : Nat), (i :: (path ++ [j])).IsChain (Flows code) ∧
          (∀ k ∈ path, ¬ Defines code n k) ∧ Demands globals code n j :=
  ⟨liveness_ends globals code, fun _ _ => mem_liveOut_iff_demandedAfter⟩

end BraceLang.Tac
