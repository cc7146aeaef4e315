import Mathlib.Data.List.Forall2
import Mathlib.Data.List.Nodup
import BraceLang.Proofs.Stacks

/-!
What a table of names holds, told from all that has been done to it. A history is the list of the
operations, the latest one first. It says which scopes are still open, which operation declared a
name in a scope first, and which updates were made since, without a table.

* **`openScopes`**, **`declaration?`**, **`visibleIn`**, **`changes`**, **`entry`**: what a history
  says;
* **`rise`**: how much deeper the table is after some operations that close none of the scopes
  before them;
* **`entry_cons`**: what one operation does to one entry;
* **`holds_table`**: the table holds what its history says.

**Main result.** `table_scopes`: a name stands for what the history says, a refused declaration
changes nothing, and when a scope is closed the table is as it was when the scope was opened, apart
from updates of visible entries and from names that are new in the global scope.
-/

namespace BraceLang

variable {α : Type}

/-- What is done to a table of names. -/
inductive ScopeOp (α : Type) where
  | push
  | pop
  | declare (name : String) (a : α)
  | declareGlobal (name : String) (a : α)
  | update (name : String) (f : α → α)
  | updateGlobal (name : String) (f : α → α)

/-- Operations on a table, the latest one first. -/
abbrev History (α : Type) := List (ScopeOp α)

namespace ScopeOp

def apply (e : Env α) : ScopeOp α → Env α
  | push => e.enter
  | pop => e.leave.2
  | declare name a => (e.declare name a).2
  | declareGlobal name a => (e.declareGlobal name a).2
  | update name f => e.update name f
  | updateGlobal name f => e.updateGlobal name f

/-- The scopes that are open after the operation; a new one is given its number. -/
def opens (number : Nat) (scopes : List Nat) : ScopeOp α → List Nat
  | push => number :: scopes
  | pop => scopes.tail
  | _ => scopes

end ScopeOp

namespace History

/-- The table after a history, at first without a scope. -/
def table : History α → Env α
  | [] => {}
  | op :: past => op.apply (table past)

/-! ### What a history says -/

/-- The scopes that are still open, the innermost first. Each is known by the number of operations
before the one that opened it. -/
def openScopes : History α → List Nat
  | [] => []
  | op :: past => op.opens past.length (openScopes past)

/-- What an operation makes of a name in a scope, if the name is not there already. -/
def declares? (past : History α) (s : Nat) (name : String) : ScopeOp α → Option α
  | .declare n a => if n = name ∧ (openScopes past).head? = some s then some a else none
  | .declareGlobal n a => if n = name ∧ (openScopes past).getLast? = some s then some a else none
  | _ => none

/-- What a name was first declared as in a scope. -/
def declaration? (s : Nat) (name : String) : History α → Option α
  | [] => none
  | op :: past => (declaration? s name past).or (declares? past s name op)

/-- The innermost open scope in which a name has been declared. -/
def visibleIn (name : String) (h : History α) : Option Nat :=
  (openScopes h).find? fun s => (declaration? s name h).isSome

/-- The change that an operation makes to what a name stands for in a scope: the entry is the
visible one, or it is in the global scope. -/
def changes? (past : History α) (s : Nat) (name : String) : ScopeOp α → Option (α → α)
  | .update n f => if n = name ∧ visibleIn name past = some s then some f else none
  | .updateGlobal n f =>
      if n = name ∧ (openScopes past).getLast? = some s ∧ (declaration? s name past).isSome then
        some f
      else none
  | _ => none

/-- The changes that are made to an entry after `past`, the latest one first. -/
def changes (s : Nat) (name : String) (past : History α) : History α → List (α → α)
  | [] => []
  | op :: recent => (changes? (recent ++ past) s name op).toList ++ changes s name past recent

/-- Changes applied to a value, the last of the list first. -/
def applied (fs : List (α → α)) (a : α) : α := fs.foldr (fun f a => f a) a

/-- What a name stands for in a scope: its first declaration with all changes since. -/
def entry (s : Nat) (name : String) (h : History α) : Option α :=
  (declaration? s name h).map (applied (changes s name [] h))

/-- How many more scopes are open after the operations than before them, if they close none that
was open before. -/
def rise : History α → Option Nat
  | [] => some 0
  | .push :: recent => (rise recent).map (· + 1)
  | .pop :: recent => (rise recent).bind fun k => if k = 0 then none else some (k - 1)
  | _ :: recent => rise recent

/-! ### Single operations -/

variable {past recent : History α} {op : ScopeOp α} {s : Nat} {name : String}

/-- Nothing is changed before it is declared. -/
theorem changes?_of_absent (absent : declaration? s name past = none) :
    changes? past s name op = none := by
  cases op with
  | update n f =>
      refine if_neg ?_
      rintro ⟨-, visible⟩
      have found := List.find?_some visible
      rw [absent] at found
      contradiction
  | updateGlobal n f =>
      refine if_neg ?_
      rintro ⟨-, -, found⟩
      rw [absent] at found
      contradiction
  | _ => rfl

theorem declaration?_of_later (absent : declaration? s name (op :: past) = none) :
    declaration? s name past = none :=
  (Option.or_eq_none_iff.mp absent).1

theorem changes_of_absent (absent : declaration? s name past = none) :
    changes s name [] past = [] := by
  induction past with
  | nil => rfl
  | cons op past ih =>
      have before := declaration?_of_later absent
      rw [changes, ih before, List.append_nil, List.append_nil, changes?_of_absent before]
      rfl

theorem applied_append (fs gs : List (α → α)) (a : α) :
    applied (fs ++ gs) a = applied fs (applied gs a) :=
  List.foldr_append

theorem applied_toList (f : Option (α → α)) (a : α) : applied f.toList a = (f.getD id) a := by
  cases f <;> rfl

theorem isSome_entry (s : Nat) (name : String) (h : History α) :
    (entry s name h).isSome = (declaration? s name h).isSome := Option.isSome_map

/-- What an operation does to an entry: it changes what is there, or declares it. -/
theorem entry_cons (op : ScopeOp α) (past : History α) (s : Nat) (name : String) :
    entry s name (op :: past) =
      ((entry s name past).map ((changes? past s name op).getD id)).or
        (declares? past s name op) := by
  rw [entry, entry, declaration?, changes, List.append_nil]
  cases found : declaration? s name past with
  | some a =>
      rw [Option.some_or, Option.map_some, Option.map_some, Option.map_some, Option.some_or,
        applied_append, applied_toList]
  | none =>
      rw [Option.none_or, changes_of_absent found, changes?_of_absent found]
      cases declares? past s name op <;> rfl

theorem entry_of_silent (changes : changes? past s name op = none)
    (declares : declares? past s name op = none) :
    entry s name (op :: past) = entry s name past := by
  rw [entry_cons, changes, declares, Option.or_none]
  exact Option.map_id_apply

/-! ### Numbers of scopes -/

theorem lt_of_mem_openScopes : {h : History α} → s ∈ openScopes h → s < h.length
  | op :: past, mem => by
      have before (mem : s ∈ openScopes past) : s < past.length + 1 :=
        Nat.lt_succ_of_lt (lt_of_mem_openScopes mem)
      cases op with
      | push =>
          rcases List.mem_cons.mp mem with rfl | mem
          · exact Nat.lt_succ_self _
          · exact before mem
      | pop => exact before (List.mem_of_mem_tail mem)
      | _ => exact before mem

theorem nodup_openScopes : (h : History α) → (openScopes h).Nodup
  | [] => List.nodup_nil
  | op :: past => by
      have before := nodup_openScopes past
      cases op with
      | push =>
          refine List.nodup_cons.mpr ⟨?_, before⟩
          intro mem
          exact Nat.lt_irrefl _ (lt_of_mem_openScopes mem)
      | pop => exact before.tail
      | _ => exact before

/-- Names are declared in scopes that are open. -/
theorem mem_of_declares? (declares : declares? past s name op ≠ none) : s ∈ openScopes past := by
  cases op with
  | declare n a =>
      by_contra closed
      refine declares (if_neg ?_)
      rintro ⟨-, first⟩
      exact closed (List.mem_of_head? first)
  | declareGlobal n a =>
      by_contra closed
      refine declares (if_neg ?_)
      rintro ⟨-, last⟩
      exact closed (List.mem_of_getLast? last)
  | _ => contradiction

/-- A scope holds nothing before it is opened. -/
theorem declaration?_of_le : {h : History α} → h.length ≤ s → declaration? s name h = none
  | [], _ => rfl
  | op :: past, later => by
      rw [declaration?, declaration?_of_le (Nat.le_of_succ_le later), Option.none_or]
      by_contra declares
      have isOpen := lt_of_mem_openScopes (mem_of_declares? declares)
      exact Nat.lt_irrefl s (Nat.lt_of_lt_of_le isOpen (Nat.le_of_succ_le later))

theorem entry_of_le {h : History α} (later : h.length ≤ s) : entry s name h = none := by
  rw [entry, declaration?_of_le later]
  rfl

/-! ### What the table holds -/

/-- A scope holds what the history says of the scope with that number. -/
def Holds (h : History α) (s : Nat) (scope : Scope α) : Prop :=
  ∀ name, scope.get? name = entry s name h

section Holds

variable {scope : Scope α} {n : String} {a : α} {f : α → α}

theorem contains_of_holds (holds : Holds past s scope) (name : String) :
    scope.contains name = (declaration? s name past).isSome := by
  rw [Assoc.contains, holds name, isSome_entry]

theorem Holds.silent (holds : Holds past s scope)
    (changes : ∀ name, changes? past s name op = none)
    (declares : ∀ name, declares? past s name op = none) : Holds (op :: past) s scope := by
  intro name
  rw [entry_of_silent (changes name) (declares name)]
  exact holds name

theorem get?_declared (scope : Scope α) (n : String) (a : α) (name : String) :
    ((Scope.declare? scope n a).getD scope).get? name =
      (scope.get? name).or (if n = name then some a else none) := by
  by_cases present : scope.contains n = true
  · rw [Scope.declare?, if_pos present, Option.getD_none]
    by_cases same : n = name
    · subst same
      obtain ⟨b, found⟩ := Option.isSome_iff_exists.mp present
      rw [found, Option.some_or]
    · rw [if_neg same, Option.or_none]
  · have absent : scope.get? n = none := Option.not_isSome_iff_eq_none.mp present
    have declared : Scope.declare? scope n a = some ⟨scope.entries ++ [(n, a)]⟩ := if_neg present
    rw [declared, Option.getD_some, Scope.get?_declare? declared]
    by_cases same : n = name
    · subst same
      rw [if_pos rfl, if_pos rfl, absent, Option.none_or]
    · rw [if_neg same, if_neg (Ne.symm same), Option.or_none]

/-- A declaration in the scope, which may be refused there. -/
theorem Holds.declared (holds : Holds past s scope)
    (changes : ∀ name, changes? past s name op = none)
    (declares : ∀ name, declares? past s name op = if n = name then some a else none) :
    Holds (op :: past) s ((Scope.declare? scope n a).getD scope) := by
  intro name
  rw [get?_declared, holds name, entry_cons, changes name, declares name]
  exact congrArg (Option.or · _) Option.map_id_apply.symm

/-- An update in the scope. -/
theorem Holds.updated (holds : Holds past s scope)
    (changes : ∀ name, declaration? s name past ≠ none →
      changes? past s name op = if n = name then some f else none)
    (declares : ∀ name, declares? past s name op = none) :
    Holds (op :: past) s (scope.update n f) := by
  intro name
  rw [Assoc.get?_update, holds name, entry_cons, declares name, Option.or_none]
  cases found : declaration? s name past with
  | none =>
      rw [entry, found]
      exact ite_self _
  | some a =>
      rw [changes name (by rw [found]; exact Option.some_ne_none a)]
      by_cases same : n = name
      · rw [if_pos same, if_pos same.symm]
        rfl
      · rw [if_neg same, if_neg (Ne.symm same)]
        exact Option.map_id_apply.symm

end Holds

section Scopes

variable {R R' : Nat → Scope α → Prop} {ids : List Nat} {scopes : List (Scope α)}

theorem forall₂_imp_mem (all : List.Forall₂ R ids scopes)
    (imp : ∀ s ∈ ids, ∀ scope, R s scope → R' s scope) : List.Forall₂ R' ids scopes := by
  have inside := (List.forall₂_and_left (p := (· ∈ ids)) ids scopes).mpr ⟨fun s mem => mem, all⟩
  exact inside.imp fun s scope both => imp s both.1 scope both.2

theorem forall₂_tail (all : List.Forall₂ R ids scopes) :
    List.Forall₂ R ids.tail scopes.tail := by
  cases all with
  | nil => exact .nil
  | cons _ rest => exact rest

/-- A declaration in the first scope. -/
theorem forall₂_declare? {t : ScopeStack α} {n : String} {a : α}
    (all : List.Forall₂ R ids t.scopes) (nodup : ids.Nodup)
    (first : ∀ s scope, ids.head? = some s → R s scope →
      R' s ((Scope.declare? scope n a).getD scope))
    (others : ∀ s scope, ids.head? ≠ some s → R s scope → R' s scope) :
    List.Forall₂ R' ids ((t.declare? n a).getD t).scopes := by
  obtain ⟨scopes⟩ := t
  cases all with
  | nil => exact .nil
  | @cons s scope ids scopes here all =>
      obtain ⟨absent, -⟩ := List.nodup_cons.mp nodup
      rw [ScopeStack.declare?_getD]
      refine .cons (first s scope rfl here) (forall₂_imp_mem all ?_)
      intro s' mem scope' holds
      refine others s' scope' ?_ holds
      intro same
      exact absent (Option.some.inj same ▸ mem)

/-- A change of the last scope. -/
theorem forall₂_onLast {change : Scope α → Option (Scope α)} (all : List.Forall₂ R ids scopes)
    (nodup : ids.Nodup)
    (last : ∀ s scope, ids.getLast? = some s → R s scope → R' s ((change scope).getD scope))
    (others : ∀ s scope, ids.getLast? ≠ some s → R s scope → R' s scope) :
    List.Forall₂ R' ids ((ScopeStack.onLast change scopes).getD scopes) := by
  induction all with
  | nil => exact .nil
  | @cons s scope ids scopes here all ih =>
      cases all with
      | nil =>
          have changed := last s scope rfl here
          rw [ScopeStack.onLast]
          cases made : change scope with
          | none => exact .cons (by rw [made] at changed; exact changed) .nil
          | some scope' => exact .cons (by rw [made] at changed; exact changed) .nil
      | @cons s' scope' ids scopes here' all =>
          rw [List.getLast?_cons_cons] at last others
          obtain ⟨absent, nodup⟩ := List.nodup_cons.mp nodup
          have inner := ih nodup last others
          have first : R' s scope := by
            refine others s scope ?_ here
            intro isLast
            exact absent (List.mem_of_getLast? isLast)
          rw [ScopeStack.onLast]
          · cases made : ScopeStack.onLast change (scope' :: scopes) with
            | none => exact .cons first (by rw [made] at inner; exact inner)
            | some changed => exact .cons first (by rw [made] at inner; exact inner)
          · exact List.cons_ne_nil _ _

/-- A change of the innermost scope that has a name. -/
theorem forall₂_updateIn {n : String} {f : α → α} {has : Nat → Bool}
    (all : List.Forall₂ R ids scopes) (nodup : ids.Nodup)
    (agree : ∀ s scope, R s scope → scope.contains n = has s)
    (first : ∀ s scope, ids.find? has = some s → R s scope → R' s (scope.update n f))
    (others : ∀ s scope, ids.find? has ≠ some s → R s scope → R' s scope) :
    List.Forall₂ R' ids (ScopeStack.updateIn n f scopes) := by
  induction all with
  | nil => exact .nil
  | @cons s scope ids scopes here all ih =>
      obtain ⟨absent, nodup⟩ := List.nodup_cons.mp nodup
      rw [ScopeStack.updateIn, agree s scope here]
      rw [List.find?_cons] at first others
      cases found : has s with
      | true =>
          rw [found] at first others
          refine .cons (first s scope rfl here) (forall₂_imp_mem all ?_)
          intro s' mem scope' holds
          refine others s' scope' ?_ holds
          intro same
          exact absent (Option.some.inj same ▸ mem)
      | false =>
          rw [found] at first others
          refine .cons (others s scope ?_ here) (ih nodup first others)
          intro isFirst
          exact absent (List.mem_of_find?_eq_some isFirst)

end Scopes

/-- What an operation does to the entries of all open scopes. -/
theorem holds_step (op : ScopeOp α) (past : History α)
    (holds : List.Forall₂ (Holds past) (openScopes past) (table past).stack.scopes) :
    List.Forall₂ (Holds (op :: past)) (openScopes (op :: past))
      (table (op :: past)).stack.scopes := by
  have nodup := nodup_openScopes past
  cases op with
  | push =>
      refine .cons ?_ (holds.imp fun s scope inside => inside.silent (fun _ => rfl) fun _ => rfl)
      -- The new scope is empty, and its number is newer than all declarations.
      intro name
      rw [entry_of_silent rfl rfl, entry_of_le (Nat.le_refl _)]
      rfl
  | pop =>
      have left : (table (.pop :: past)).stack = ⟨(table past).stack.scopes.tail⟩ :=
        Env.stack_leave _
      rw [left]
      exact (forall₂_tail holds).imp fun s scope inside =>
        inside.silent (fun _ => rfl) fun _ => rfl
  | declare n a =>
      have declared : (table (.declare n a :: past)).stack =
          ((table past).stack.declare? n a).getD (table past).stack := Env.stack_declared _ _ _
      rw [declared]
      apply forall₂_declare? holds nodup
      · intro s scope first inside
        refine inside.declared (fun _ => rfl) fun name => ?_
        exact if_congr (and_iff_left first) rfl rfl
      · intro s scope other inside
        refine inside.silent (fun _ => rfl) fun name => if_neg ?_
        exact fun both => other both.2
  | declareGlobal n a =>
      have declared : (table (.declareGlobal n a :: past)).stack =
          ((table past).stack.declareGlobal? n a).getD (table past).stack :=
        Env.stack_declared _ _ _
      rw [declared, ScopeStack.scopes_declareGlobal?]
      apply forall₂_onLast holds nodup
      · intro s scope last inside
        refine inside.declared (fun _ => rfl) fun name => ?_
        exact if_congr (and_iff_left last) rfl rfl
      · intro s scope other inside
        refine inside.silent (fun _ => rfl) fun name => if_neg ?_
        exact fun both => other both.2
  | update n f =>
      apply forall₂_updateIn holds nodup fun s scope inside => contains_of_holds inside n
      · intro s scope visible inside
        refine inside.updated (fun name _ => ?_) fun _ => rfl
        -- Which scope is visible is asked for the name of the update only.
        by_cases same : n = name
        · subst same
          exact if_congr (and_iff_left visible) rfl rfl
        · rw [if_neg same]
          exact if_neg fun both => same both.1
      · intro s scope hidden inside
        refine inside.silent (fun name => if_neg ?_) fun _ => rfl
        rintro ⟨rfl, visible⟩
        exact hidden visible
  | updateGlobal n f =>
      have updated : (table (.updateGlobal n f :: past)).stack =
        (table past).stack.updateGlobal n f := rfl
      rw [updated, ScopeStack.scopes_updateGlobal]
      apply forall₂_onLast holds nodup
      · intro s scope last inside
        refine inside.updated (fun name declared => ?_) fun _ => rfl
        have known := Option.isSome_iff_ne_none.mpr declared
        exact if_congr (and_iff_left ⟨last, known⟩) rfl rfl
      · intro s scope other inside
        refine inside.silent (fun name => if_neg ?_) fun _ => rfl
        exact fun both => other both.2.1

/-- The table holds what the history says. -/
theorem holds_table : (h : History α) →
    List.Forall₂ (Holds h) (openScopes h) (table h).stack.scopes
  | [] => .nil
  | op :: past => holds_step op past (holds_table past)

/-! ### Names -/

section Names

variable {R : Nat → Scope α → Prop} {ids : List Nat} {scopes : List (Scope α)}

/-- A name stands for its entry in the innermost scope that has it. -/
theorem lookup_table (h : History α) (name : String) :
    (table h).stack.lookup name = (visibleIn name h).bind (entry · name h) := by
  have search (ids : List Nat) (scopes : List (Scope α))
      (holds : List.Forall₂ (Holds h) ids scopes) :
      scopes.findSome? (·.get? name) =
        (ids.find? fun s => (declaration? s name h).isSome).bind (entry · name h) := by
    induction holds with
    | nil => rfl
    | @cons s scope ids scopes here _ ih =>
        rw [List.findSome?_cons, List.find?_cons, here name, ih, ← isSome_entry]
        cases found : entry s name h with
        | none => rfl
        | some a => exact found.symm
  exact search _ _ (holds_table h)

theorem forall₂_head? (all : List.Forall₂ R ids scopes) : Option.Rel R ids.head? scopes.head? := by
  cases all with
  | nil => exact .none
  | cons here _ => exact .some here

theorem forall₂_getLast? (all : List.Forall₂ R ids scopes) :
    Option.Rel R ids.getLast? scopes.getLast? := by
  rw [← List.head?_reverse, ← List.head?_reverse]
  exact forall₂_head? (List.rel_reverse all)

/-- There is such a scope, and the name has not been declared in it. -/
def isFree (name : String) (h : History α) (s? : Option Nat) : Bool :=
  s?.any fun s => (declaration? s name h).isNone

theorem isFree_eq {s? : Option Nat} {scope? : Option (Scope α)} {h : History α}
    (holds : Option.Rel (Holds h) s? scope?) (name : String) :
    isFree name h s? = scope?.any fun scope => !scope.contains name := by
  cases holds with
  | none => rfl
  | @some s scope holds =>
      rw [isFree, Option.any_some, Option.any_some, contains_of_holds holds,
        Option.not_isSome]

/-- A declaration succeeds where there is a scope that does not have the name yet. -/
theorem fst_declare (h : History α) (name : String) (a : α) :
    ((table h).declare name a).1 = isFree name h (openScopes h).head? := by
  rw [isFree_eq (forall₂_head? (holds_table h)), ← ScopeStack.isSome_declare? _ name a]
  exact Env.fst_declared _ _ _

theorem fst_declareGlobal (h : History α) (name : String) (a : α) :
    ((table h).declareGlobal name a).1 = isFree name h (openScopes h).getLast? := by
  rw [isFree_eq (forall₂_getLast? (holds_table h)), ← ScopeStack.isSome_declareGlobal? _ name a]
  exact Env.fst_declared _ _ _

end Names

/-! ### Closing a scope again -/

section Closing

variable {h : History α} {k : Nat} {a : α}

theorem rise_of_cons (rises : rise (op :: recent) = some k) : ∃ k, rise recent = some k := by
  cases op with
  | push =>
      obtain ⟨k, inner, -⟩ := Option.map_eq_some_iff.mp rises
      exact ⟨k, inner⟩
  | pop =>
      obtain ⟨k, inner, -⟩ := Option.bind_eq_some_iff.mp rises
      exact ⟨k, inner⟩
  | _ => exact ⟨k, rises⟩

/-- The scopes that were open are still open, below the new ones. -/
theorem openScopes_rise (past : History α) (rises : rise recent = some k) :
    ∃ newer, newer.length = k ∧ openScopes (recent ++ past) = newer ++ openScopes past := by
  induction recent generalizing k with
  | nil =>
      obtain rfl := Option.some.inj rises
      exact ⟨[], rfl, rfl⟩
  | cons op recent ih =>
      cases op with
      | push =>
          obtain ⟨k, inner, rfl⟩ := Option.map_eq_some_iff.mp rises
          obtain ⟨newer, rfl, scopes⟩ := ih inner
          exact ⟨(recent ++ past).length :: newer, rfl, congrArg (_ :: ·) scopes⟩
      | pop =>
          obtain ⟨k', inner, fewer⟩ := Option.bind_eq_some_iff.mp rises
          obtain ⟨newer, rfl, scopes⟩ := ih inner
          cases newer with
          | nil => contradiction
          | cons s newer =>
              obtain rfl := Option.some.inj fewer
              exact ⟨newer, rfl, congrArg List.tail scopes⟩
      | _ => exact ih rises

/-- What is declared stays declared, with the changes that are made to it. -/
theorem entry_append (found : entry s name past = some a) : (recent : History α) →
    entry s name (recent ++ past) = some (applied (changes s name past recent) a)
  | [] => found
  | op :: recent => by
      rw [List.cons_append, entry_cons, entry_append found recent, Option.map_some,
        Option.some_or, changes, applied_append, applied_toList]

/-- While an inner scope is open, what is new in an outer scope is declared globally. -/
theorem global_of_new {inner : Nat} (scopes : openScopes past = inner :: openScopes h)
    (isOpen : s ∈ openScopes h) (absent : entry s name past = none)
    (rises : rise recent = some k) (present : entry s name (recent ++ past) ≠ none) :
    (openScopes h).getLast? = some s ∧ ∃ a, ScopeOp.declareGlobal name a ∈ recent := by
  induction recent generalizing k with
  | nil => exact absurd absent present
  | cons op recent ih =>
      obtain ⟨k, before⟩ := rise_of_cons rises
      by_cases earlier : entry s name (recent ++ past) = none
      · rw [List.cons_append, entry_cons, earlier, Option.map_none, Option.none_or] at present
        obtain ⟨newer, -, numbers⟩ := openScopes_rise past before
        rw [scopes, List.append_cons] at numbers
        have nodup := nodup_openScopes (recent ++ past)
        rw [numbers] at nodup
        have apart := (List.nodup_append.mp nodup).2.2
        cases op with
        | declare n a =>
            obtain ⟨-, first⟩ :
                n = name ∧ (openScopes (recent ++ past)).head? = some s := by
              by_contra other
              exact present (if_neg other)
            rw [numbers, List.head?_append_of_ne_nil _ (by simp)] at first
            exact absurd rfl (apart s (List.mem_of_head? first) s isOpen)
        | declareGlobal n a =>
            obtain ⟨rfl, last⟩ :
                n = name ∧ (openScopes (recent ++ past)).getLast? = some s := by
              by_contra other
              exact present (if_neg other)
            rw [numbers, List.getLast?_append_of_ne_nil _ (List.ne_nil_of_mem isOpen)] at last
            exact ⟨last, a, List.mem_cons_self⟩
        | _ => contradiction
      · obtain ⟨last, a, declared⟩ := ih before earlier
        exact ⟨last, a, List.mem_cons_of_mem op declared⟩

/-- A scope is opened, more is done, and the scope is closed. -/
def around (h recent : History α) : History α := .pop :: (recent ++ .push :: h)

/-- The scopes that were open before are as they were, apart from changes to what is visible and
from new names in the global scope. -/
structure Unwinds (h recent : History α) : Prop where
  depth : (table (around h recent)).stack.depth = (table h).stack.depth
  entries : ∀ (i s : Nat) (scope : Scope α), (openScopes h)[i]? = some s →
    (table h).stack.scopes[i]? = some scope →
    ∃ scope' : Scope α, (table (around h recent)).stack.scopes[i]? = some scope' ∧
      (∀ name a, scope.get? name = some a →
        scope'.get? name = some (applied (changes s name (.push :: h) recent) a)) ∧
      ∀ name, scope.get? name = none → scope'.get? name ≠ none →
        (openScopes h).getLast? = some s ∧ ∃ a, .declareGlobal name a ∈ recent

theorem openScopes_around (rises : rise recent = some 0) :
    openScopes (around h recent) = openScopes h := by
  obtain ⟨newer, empty, scopes⟩ := openScopes_rise (.push :: h) rises
  obtain rfl := List.length_eq_zero_iff.mp empty
  exact congrArg List.tail scopes

theorem getElem?_holds {i : Nat} {scope : Scope α} (number : (openScopes h)[i]? = some s)
    (found : (table h).stack.scopes[i]? = some scope) : Holds h s scope := by
  obtain ⟨inside, rfl⟩ := List.getElem?_eq_some_iff.mp number
  obtain ⟨inside', rfl⟩ := List.getElem?_eq_some_iff.mp found
  exact (holds_table h).get inside inside'

theorem unwinds (rises : rise recent = some 0) : Unwinds h recent := by
  have numbers := openScopes_around (h := h) rises
  have before := (holds_table h).length_eq
  have after := (holds_table (around h recent)).length_eq
  rw [numbers] at after
  constructor
  · exact after.symm.trans before
  · intro i s scope number found
    have inside := (List.getElem?_eq_some_iff.mp number).1
    obtain ⟨scope', found'⟩ : ∃ scope', (table (around h recent)).stack.scopes[i]? = some scope' :=
      ⟨_, List.getElem?_eq_getElem (after ▸ inside)⟩
    have holds := getElem?_holds number found
    have holds' := getElem?_holds (numbers.symm ▸ number) found'
    -- Opening and closing the scope is seen in no other scope.
    have opened (name : String) : entry s name (.push :: h) = scope.get? name :=
      (entry_of_silent rfl rfl).trans (holds name).symm
    have closed (name : String) : scope'.get? name = entry s name (recent ++ .push :: h) :=
      (holds' name).trans (entry_of_silent rfl rfl)
    refine ⟨scope', found', ?_, ?_⟩
    · intro name a kept
      rw [closed name]
      exact entry_append ((opened name).trans kept) recent
    · intro name absent present
      rw [closed name] at present
      exact global_of_new rfl (List.mem_of_getElem? number) ((opened name).trans absent) rises
        present

end Closing

/-- The table implements lexical scoping: a name stands for the first declaration in the innermost
open scope that has one, with the changes since; a refused declaration changes nothing; and closing
a scope gives back what was there before it was opened. -/
theorem table_scopes (h : History α) :
    (∀ name, (table h).stack.lookup name = (visibleIn name h).bind (entry · name h)) ∧
    (∀ name a, ((table h).declare name a).1 = isFree name h (openScopes h).head? ∧
      (((table h).declare name a).1 = false → ((table h).declare name a).2 = table h)) ∧
    (∀ name a, ((table h).declareGlobal name a).1 = isFree name h (openScopes h).getLast? ∧
      (((table h).declareGlobal name a).1 = false →
        ((table h).declareGlobal name a).2 = table h)) ∧
    ∀ recent, rise recent = some 0 → Unwinds h recent := by
  refine ⟨lookup_table h, ?_, ?_, fun recent rises => unwinds rises⟩
  · intro name a
    exact ⟨fst_declare h name a, Env.declared_refused⟩
  · intro name a
    exact ⟨fst_declareGlobal h name a, Env.declared_refused⟩

/-- Two names in the global scope, one of which is hidden in an inner scope while both are
updated. -/
theorem shadowed_unwinds : ∃ scope : Scope Nat,
    (table (around [.declare "y" 2, .declare "x" 1, .push]
      [.pop, .update "y" (· + 1), .push, .update "x" (· + 1), .declare "x" 5])).stack.scopes[0]? =
        some scope ∧
      scope.get? "x" = some 1 ∧ scope.get? "y" = some 3 := by
  obtain ⟨-, -, -, closes⟩ := table_scopes [.declare "y" 2, .declare "x" 1, .push]
  obtain ⟨scope, found, kept, -⟩ := (closes [.pop, .update "y" (· + 1), .push,
    .update "x" (· + 1), .declare "x" 5] (by decide)).entries 0 0 ⟨[("x", 1), ("y", 2)]⟩
      (by decide) (by decide)
  exact ⟨scope, found, kept "x" 1 (by decide), kept "y" 2 (by decide)⟩

end History

end BraceLang
