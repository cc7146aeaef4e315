import BraceLang.Proofs.Check.Deeds
import BraceLang.Proofs.Stacks

/-!
Which declaration a name stands for. The deeds of a program are numbered, and a stack of scopes is
kept in which each name stands for the number of the deed that has entered it. It depends on the
order of the deeds alone: on the scopes that they open and close, and on the names.

**Main result.** `closings_held`: each deed that enters a name has it in one scope, which is either
closed or still open.
-/

namespace BraceLang

namespace Check

open ScopeStack

/-! ### Numbered deeds -/

namespace Deed

/-- The open scopes after the deed with the number. A name that is taken is not entered again. -/
def naming (i : Nat) (t : ScopeStack Nat) : Deed → ScopeStack Nat
  | opens => t.push
  | closes => ⟨t.scopes.tail⟩
  | declares name .. => (t.declare? name.val i).getD t
  | enters h .. => (t.declareGlobal? h.name.val i).getD t
  | reads _ | calls _ | assigns _ => t

/-- The scope that the deed closes. -/
def closed (t : ScopeStack Nat) : Deed → List (Scope Nat)
  | closes => t.scopes.head?.toList
  | opens | declares .. | enters .. | reads _ | calls _ | assigns _ => []

end Deed

/-- The open scopes in front of the deed with the number. -/
def origins (ds : List Deed) : Nat → ScopeStack Nat
  | 0 => {}
  | n + 1 => ds[n]?.elim (origins ds n) (Deed.naming n (origins ds n))

/-- The scopes that the first deeds have closed, in this order. -/
def closings (ds : List Deed) : Nat → List (Scope Nat)
  | 0 => []
  | n + 1 => closings ds n ++ ds[n]?.elim [] (Deed.closed (origins ds n))

/-- The deed with the number has entered a name: after it, the name stands for it. -/
def Entered (ds : List Deed) (i : Nat) : Prop := i ∈ (origins ds (i + 1)).held

instance (ds : List Deed) : DecidablePred (Entered ds) := fun i =>
  inferInstanceAs (Decidable (i ∈ (origins ds (i + 1)).held))

/-! ### One deed -/

section Steps

variable {t : ScopeStack Nat} {n : Nat}

/-- The values of a scope that closes are no longer held; a deed that enters a name is held, and
others change nothing. -/
theorem held_naming (d : Deed) (n : Nat) (t : ScopeStack Nat) :
    ((d.closed t).flatMap Assoc.values ++ (d.naming n t).held).Perm t.held ∨
      d.closed t = [] ∧ (d.naming n t).held.Perm (n :: t.held) := by
  cases d with
  | opens | reads | calls | assigns => exact .inl (.refl _)
  | closes =>
      obtain ⟨_ | ⟨s, rest⟩⟩ := t
      · exact .inl (.refl _)
      · refine .inl (.of_eq ?_)
        rw [Deed.closed, List.head?_cons, Option.toList_some, List.flatMap_singleton]
        rfl
  | declares name =>
      rw [Deed.naming, Deed.closed]
      cases declared : t.declare? name.val n with
      | none => exact .inl (.refl _)
      | some t' => exact .inr ⟨rfl, (held_declare? declared).2⟩
  | enters h =>
      rw [Deed.naming, Deed.closed]
      cases declared : t.declareGlobal? h.name.val n with
      | none => exact .inl (.refl _)
      | some t' => exact .inr ⟨rfl, (held_declareGlobal? declared).2⟩

theorem keys_naming (d : Deed) (n : Nat) (apart : ∀ s ∈ t.scopes, s.keys.Nodup) :
    ∀ s ∈ (d.naming n t).scopes, s.keys.Nodup := by
  cases d with
  | reads | calls | assigns => exact apart
  | opens => exact List.forall_mem_cons.mpr ⟨List.nodup_nil, apart⟩
  | closes => exact fun s isOpen => apart s (List.mem_of_mem_tail isOpen)
  | declares name =>
      rw [Deed.naming]
      cases declared : t.declare? name.val n with
      | none => exact apart
      | some t' => exact (held_declare? declared).1 apart
  | enters h =>
      rw [Deed.naming]
      cases declared : t.declareGlobal? h.name.val n with
      | none => exact apart
      | some t' => exact (held_declareGlobal? declared).1 apart

end Steps

/-! ### All deeds -/

section Runs

variable (ds : List Deed)

theorem keys_origins (n : Nat) : ∀ s ∈ (origins ds n).scopes, s.keys.Nodup := by
  induction n with
  | zero => exact List.forall_mem_nil _
  | succ n ih =>
      rw [origins]
      cases ds[n]? with
      | none => exact ih
      | some d => exact keys_naming d n ih

/-- The deeds that have entered a name are those that the closed and the open scopes hold. -/
theorem closings_held (n : Nat) :
    ((closings ds n).flatMap Assoc.values ++ (origins ds n).held).Perm
      ((List.range n).filter (Entered ds)) := by
  induction n with
  | zero => exact .refl _
  | succ n ih =>
      have below : n ∉ (origins ds n).held := by
        intro mem
        have early := ih.mem_iff.mp (List.mem_append_right _ mem)
        rw [List.mem_filter, List.mem_range] at early
        exact absurd early.1 (Nat.lt_irrefl n)
      rw [List.range_succ, List.filter_append, List.filter_singleton]
      have entered : Entered ds n ↔ n ∈ (origins ds (n + 1)).held := .rfl
      rw [origins] at entered
      rw [closings, origins]
      cases at? : ds[n]? with
      | none =>
          rw [at?] at entered
          rw [decide_eq_false (entered.not.mpr below), Option.elim_none, Option.elim_none,
            List.append_nil]
          exact (List.append_nil _).symm ▸ ih
      | some d =>
          rw [at?, Option.elim_some] at entered
          rw [Option.elim_some, Option.elim_some, List.flatMap_append, List.append_assoc]
          -- Values move from the open scopes to the closed ones, or there is one value more.
          rcases held_naming d n (origins ds n) with same | ⟨none, more⟩
          · have absent : n ∉ (d.naming n (origins ds n)).held := fun mem =>
              below (same.mem_iff.mp (List.mem_append_right _ mem))
            rw [decide_eq_false (entered.not.mpr absent)]
            exact (List.append_nil _).symm ▸ (same.append_left _).trans ih
          · have present := more.mem_iff.mpr List.mem_cons_self
            rw [decide_eq_true (entered.mpr present), none, List.flatMap_nil, List.nil_append]
            exact ((more.append_left _).trans List.perm_middle).trans
              ((ih.cons n).trans (List.perm_append_singleton n _).symm)

end Runs

/-- A variable that is declared again in an inner scope is another deed there. -/
example : closings [.opens, .declares ⟨"x", {}⟩ .int none false false, .opens, .reads "x",
    .declares ⟨"x", {}⟩ .int none false false, .reads "x", .closes, .closes] 8 =
      [⟨[("x", 4)]⟩, ⟨[("x", 1)]⟩] := by decide

end Check

end BraceLang
