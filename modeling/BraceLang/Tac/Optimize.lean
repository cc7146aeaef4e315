import BraceLang.Tac.Fold
import BraceLang.Tac.Liveness

/-!
Optimization: folding and elimination in turn, until neither changes anything. Every round that
changes something makes the code lighter, so there is a last one.
-/

namespace BraceLang.Tac

/-- One round: the code before it, after folding, and after elimination. -/
structure Round where
  before : List Instr
  folded : List Instr
  elimination : Elimination

namespace Round

def after (r : Round) : List Instr := r.elimination.kept

/-- Folding changed something. -/
def changed (r : Round) : Bool := r.folded != r.before

/-- Neither folding nor elimination changed anything. -/
def isStable (r : Round) : Bool := !r.changed && r.elimination.dead.isEmpty

/-- What the journal gets for the round with the given number. -/
def events (r : Round) (number : Nat) : List Event :=
  foldEvents r.before r.folded ++ r.elimination.events ++
    [⟨.debug, "optimizer pass " ++ toString number ++ ": " ++ toString r.after.length ++
      " instructions (folded: " ++ toString r.changed ++ ", removed: " ++
      toString r.elimination.dead.length ++ ")"⟩]

end Round

variable (globals : List String) (types : Assoc String Ty)

/-- Folds, then eliminates. -/
def round (code : List Instr) : Round :=
  let folded := fold globals types code
  ⟨code, folded, eliminate globals folded⟩

/-! ### Every round makes the code lighter -/

theorem one_le_weight (i : Instr) : 1 ≤ i.weight types := by
  cases i <;> simp only [Instr.weight] <;> omega

/-- Leaving out instructions makes code lighter by one at least for each. -/
theorem weight_add_length_le {code code' : List Instr} (h : code.Sublist code') :
    weight types code + code'.length ≤ weight types code' + code.length := by
  induction h with
  | slnil => exact Nat.le_refl _
  | cons i _ ih =>
      have := one_le_weight types i
      simp only [weight, List.length_cons] at ih ⊢
      omega
  | cons_cons i _ ih =>
      simp only [weight, List.length_cons] at ih ⊢
      omega

theorem map_fst_zip_sublist {α β : Type} :
    ∀ (xs : List α) (ys : List β), ((xs.zip ys).map Prod.fst).Sublist xs
  | [], _ => by simp
  | x :: xs, [] => by simp
  | x :: xs, y :: ys => by simpa using map_fst_zip_sublist xs ys

theorem kept_sublist (code : List Instr) : (eliminate globals code).kept.Sublist code :=
  (List.filter_sublist.map _).trans (map_fst_zip_sublist code _)

theorem length_kept_add_length_dead_le (code : List Instr) :
    (eliminate globals code).kept.length + (eliminate globals code).dead.length ≤ code.length := by
  let marked := code.zip (liveness globals code).out
  have split : marked.length = marked.countP (fun p => isDead p.1 p.2) +
      marked.countP fun p => !isDead p.1 p.2 := by
    simpa using List.length_eq_countP_add_countP (fun p : Instr × List Name => isDead p.1 p.2)
  have short := (map_fst_zip_sublist code (liveness globals code).out).length_le
  simp only [List.countP_eq_length_filter, List.length_map, marked] at split short
  simp only [eliminate, List.length_map]
  omega

theorem weight_round_lt {code : List Instr} (h : (round globals types code).isStable = false) :
    weight types (round globals types code).after < weight types code := by
  have fold := foldFrom_eq_or_weight_lt globals types {} code
  have kept := weight_add_length_le types
    (kept_sublist globals (Tac.fold globals types code))
  have count := length_kept_add_length_dead_le globals (Tac.fold globals types code)
  simp only [Round.isStable, Round.changed, round, Bool.and_eq_false_iff, Bool.not_eq_false',
    bne_iff_ne, List.isEmpty_eq_false_iff, ← List.length_pos_iff] at h
  simp only [Round.after, round]
  simp only [Tac.fold] at *
  rcases h with h | h
  · rcases fold with hf | hf
    · exact absurd hf h
    · omega
  · rcases fold with hf | hf
    · rw [hf] at kept count h ⊢
      omega
    · omega

/-- The rounds of an optimization; the last one is stable. -/
def rounds (code : List Instr) : List Round :=
  let r := round globals types code
  if r.isStable then [r] else r :: rounds r.after
termination_by weight types code
decreasing_by exact weight_round_lt globals types (Bool.eq_false_iff.mpr ‹_›)

/-- The number of each round goes with what it tells the journal. -/
def roundEvents : Nat → List Round → List Event
  | _, [] => []
  | number, r :: rest => r.events number ++ roundEvents (number + 1) rest

/-- Optimizes code; its globals and variables stay as they are. -/
def Code.optimize (c : Code) : Code × Journal :=
  let rs := rounds c.globals c.types c.instrs
  ({ c with instrs := (rs.getLast?.map Round.after).getD c.instrs }, (roundEvents 1 rs).toArray)

end BraceLang.Tac
