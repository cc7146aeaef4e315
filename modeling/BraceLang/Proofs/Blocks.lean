import Mathlib.Data.List.SplitBy

/-!
Lists that are read block by block: certain members start a block, which goes on up to the next
one.

**Main results.** `blocksAt_flatten`: blocks that are put one after the other are found again.
`blocksAt_behind`: so they are behind members that start none.
-/

namespace BraceLang

variable {α : Type*} {starts : α → Bool}

/-- The list is divided in front of every member that starts a block. -/
def blocksAt (starts : α → Bool) (xs : List α) : List (List α) :=
  xs.splitBy fun _ next => !starts next

/-- The first member starts a block, and no other one does. -/
def IsBlock (starts : α → Bool) (block : List α) : Prop :=
  ∃ first rest, block = first :: rest ∧ starts first = true ∧ ∀ x ∈ rest, starts x = false

theorem isChain_cons_iff {P : α → Bool} (x : α) (rest : List α) :
    (x :: rest).IsChain (fun _ next => P next) ↔ ∀ y ∈ rest, P y = true := by
  induction rest generalizing x with
  | nil => simp
  | cons y rest ih => rw [List.isChain_cons_cons, ih, List.forall_mem_cons]

/-- A list in which no block starts after the first member is one block. -/
theorem blocksAt_of_unmarked {x : α} {rest : List α} (unmarked : ∀ y ∈ rest, starts y = false) :
    blocksAt starts (x :: rest) = [x :: rest] :=
  List.splitBy_of_isChain (List.cons_ne_nil x rest)
    ((isChain_cons_iff _ _).mpr fun y mem => by rw [unmarked y mem]; rfl)

theorem blocksAt_append {first second : List α} (marked : ∀ y ∈ second.head?, starts y = true) :
    blocksAt starts (first ++ second) = blocksAt starts first ++ blocksAt starts second :=
  List.splitBy_append fun _ _ y mem => by rw [marked y mem]; rfl

theorem head?_flatten_of_blocks {bs : List (List α)} (blocks : ∀ b ∈ bs, IsBlock starts b) :
    ∀ y ∈ bs.flatten.head?, starts y = true := by
  cases bs with
  | nil => exact nofun
  | cons b bs =>
      obtain ⟨first, rest, rfl, marked, -⟩ := blocks b List.mem_cons_self
      rintro y ⟨⟩
      exact marked

theorem blocksAt_flatten {bs : List (List α)} (blocks : ∀ b ∈ bs, IsBlock starts b) :
    blocksAt starts bs.flatten = bs := by
  induction bs with
  | nil => rfl
  | cons b bs ih =>
      obtain ⟨⟨first, rest, rfl, marked, unmarked⟩, others⟩ := List.forall_mem_cons.mp blocks
      rw [List.flatten_cons, blocksAt_append (head?_flatten_of_blocks others), ih others,
        blocksAt_of_unmarked unmarked]
      rfl

/-- What stands in front of all blocks is found as one more, if there is anything. -/
theorem blocksAt_behind {top : List α} {bs : List (List α)}
    (unmarked : ∀ x ∈ top, starts x = false) (blocks : ∀ b ∈ bs, IsBlock starts b) :
    blocksAt starts (top ++ bs.flatten) = blocksAt starts top ++ bs ∧
      ∀ b ∈ blocksAt starts top, b = top := by
  refine ⟨by rw [blocksAt_append (head?_flatten_of_blocks blocks), blocksAt_flatten blocks], ?_⟩
  cases top with
  | nil => exact nofun
  | cons x rest =>
      rw [blocksAt_of_unmarked fun y mem => unmarked y (List.mem_cons_of_mem x mem)]
      exact fun b mem => List.mem_singleton.mp mem

end BraceLang
