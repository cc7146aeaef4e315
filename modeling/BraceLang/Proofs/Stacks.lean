import Mathlib.Data.List.Nodup
import BraceLang.Scope

/-!
What the changes of a stack of scopes come to, in two ways of looking at it: from the global scope
at its bottom, and through a function of what the names stand for. The latter keeps the order in
which the names were declared, and is changed as the stack is changed.

**Main results.** `lookupGlobal_declare?`, `lookupGlobal_declareGlobal?`, `lookupGlobal_update` and
`lookupGlobal_updateGlobal` for the global scope; `map_declare?`, `map_declareGlobal?`,
`update_map` and `updateGlobal_map` for the other.
-/

namespace BraceLang

variable {α β : Type}

namespace ScopeStack

/-! ### The global scope -/

/-- What a change to the last scope does to each of them. -/
theorem getElem?_onLast {change : Scope α → Option (Scope α)} {scopes scopes' : List (Scope α)}
    (changed : onLast change scopes = some scopes') :
    scopes'.length = scopes.length ∧ ∀ i s, scopes[i]? = some s →
      if i + 1 = scopes.length then ∃ s', change s = some s' ∧ scopes'[i]? = some s'
      else scopes'[i]? = some s := by
  induction scopes generalizing scopes' with
  | nil => contradiction
  | cons s rest ih =>
      cases rest with
      | nil =>
          obtain ⟨s', here, rfl⟩ := Option.map_eq_some_iff.mp changed
          refine ⟨rfl, fun i s₁ found => ?_⟩
          cases i with
          | zero =>
              obtain rfl := Option.some.inj found
              exact ⟨s', here, rfl⟩
          | succ i => contradiction
      | cons s₁ rest =>
          obtain ⟨others, inner, rfl⟩ := Option.map_eq_some_iff.mp changed
          obtain ⟨length, each⟩ := ih inner
          refine ⟨congrArg (· + 1) length, fun i s₂ found => ?_⟩
          cases i with
          | zero =>
              rw [if_neg (by simp)]
              exact found
          | succ i => simpa using each i s₂ found

/-- A change to the last scope that succeeds has a last scope to change. -/
theorem exists_of_onLast {change : Scope α → Option (Scope α)} {scopes scopes' : List (Scope α)}
    {s : Scope α} (changed : onLast change scopes = some scopes')
    (last : scopes.getLast? = some s) :
    ∃ s', change s = some s' ∧ scopes'.getLast? = some s' := by
  obtain ⟨length, each⟩ := getElem?_onLast changed
  rw [List.getLast?_eq_getElem?] at last
  have inside := (List.getElem?_eq_some_iff.mp last).1
  have here := each _ s last
  rw [if_pos (by omega)] at here
  rw [List.getLast?_eq_getElem?, length]
  exact here

theorem getLast?_onLast {change : Scope α → Option (Scope α)} {scopes scopes' : List (Scope α)}
    (changed : onLast change scopes = some scopes') :
    scopes'.getLast? = scopes.getLast?.bind change := by
  cases last : scopes.getLast? with
  | none =>
      obtain rfl := List.getLast?_eq_none_iff.mp last
      contradiction
  | some s =>
      obtain ⟨s', here, there⟩ := exists_of_onLast changed last
      rw [there, Option.bind_some, here]

variable {t t' : ScopeStack α} {name other : String} {a b : α}

theorem lookupGlobal_cons (s : Scope α) {rest : List (Scope α)} (more : rest ≠ [])
    (name : String) : lookupGlobal ⟨s :: rest⟩ name = lookupGlobal ⟨rest⟩ name := by
  obtain ⟨s', rest', rfl⟩ := List.exists_cons_of_ne_nil more
  rw [lookupGlobal, lookupGlobal, global?, global?, List.getLast?_cons_cons]

theorem lookupGlobal_single (s : Scope α) (name : String) :
    lookupGlobal ⟨[s]⟩ name = s.get? name := rfl

/-- A name that stands for something is not declared again in the same scope. -/
theorem get?_of_known {s s' : Scope α} (declared : Scope.declare? s other b = some s')
    (known : s.get? name = some a) : s'.get? name = some a := by
  have differs : name ≠ other := by
    rintro rfl
    rw [Scope.declare?, Assoc.contains, known] at declared
    contradiction
  rw [Scope.get?_declare? declared, if_neg differs, known]

theorem lookupGlobal_declare? (declared : t.declare? other b = some t')
    (known : t.lookupGlobal name = some a) : t'.lookupGlobal name = some a := by
  obtain ⟨scopes⟩ := t
  cases scopes with
  | nil => contradiction
  | cons s rest =>
      obtain ⟨s', changed, rfl⟩ := Option.map_eq_some_iff.mp declared
      by_cases inner : rest = []
      · subst inner
        exact get?_of_known changed known
      · rw [lookupGlobal_cons _ inner] at known ⊢
        exact known

theorem lookupGlobal_declareGlobal? (declared : t.declareGlobal? other b = some t')
    (known : t.lookupGlobal name = some a) : t'.lookupGlobal name = some a := by
  obtain ⟨scopes, changed, rfl⟩ := Option.map_eq_some_iff.mp declared
  obtain ⟨s, last, here⟩ := Option.bind_eq_some_iff.mp known
  obtain ⟨s', entered, there⟩ := exists_of_onLast changed last
  rw [lookupGlobal, global?, there, Option.bind_some]
  exact get?_of_known entered here

theorem declareGlobal?_taken (known : t.lookupGlobal name = some a) (b : α) :
    t.declareGlobal? name b = none := by
  obtain ⟨s, last, here⟩ := Option.bind_eq_some_iff.mp known
  rw [declareGlobal?, Option.map_eq_none_iff]
  by_contra taken
  obtain ⟨scopes, changed⟩ := Option.ne_none_iff_exists'.mp taken
  obtain ⟨s', entered, -⟩ := exists_of_onLast changed last
  rw [Scope.declare?, Assoc.contains, here] at entered
  contradiction

/-- A change of an entry is seen in the global scope, if it is an entry of that. -/
theorem lookupGlobal_update (known : t.lookupGlobal name = some a) (other : String) (f : α → α) :
    (t.update other f).lookupGlobal name = some a ∨
      (t.update other f).lookupGlobal name = some (f a) := by
  obtain ⟨scopes⟩ := t
  rw [update]
  induction scopes with
  | nil => contradiction
  | cons s rest ih =>
      unfold updateIn
      by_cases inner : rest = []
      · subst inner
        rw [lookupGlobal_single] at known
        split
        · rw [lookupGlobal_single, Assoc.get?_update, known]
          split
          · exact .inr rfl
          · exact .inl rfl
        · exact .inl known
      · have same := lookupGlobal_cons s inner name
        have more : updateIn other f rest ≠ [] := by
          intro empty
          have length := length_updateIn other f rest
          rw [empty] at length
          exact inner (List.length_eq_zero_iff.mp length.symm)
        split
        · rw [lookupGlobal_cons _ inner, ← same]
          exact .inl known
        · rw [lookupGlobal_cons _ more]
          exact ih (same.symm.trans known)

/-- Without any scope nothing is changed; else it is the last one that refuses. -/
theorem onLast_eq_none {change : Scope α → Option (Scope α)} :
    (scopes : List (Scope α)) → onLast change scopes = none →
    scopes = [] ∨ ∃ s, scopes.getLast? = some s ∧ change s = none
  | [], _ => .inl rfl
  | [s], unchanged => .inr ⟨s, rfl, Option.map_eq_none_iff.mp unchanged⟩
  | _ :: s₁ :: rest, unchanged => by
      have inner := onLast_eq_none (s₁ :: rest) (Option.map_eq_none_iff.mp unchanged)
      simpa using inner

theorem lookupGlobal_updateGlobal (t : ScopeStack α) (name other : String) (f : α → α) :
    (t.updateGlobal other f).lookupGlobal name =
      if name = other then (t.lookupGlobal name).map f else t.lookupGlobal name := by
  rw [updateGlobal]
  cases changed : onLast (fun s => some (s.update other f)) t.scopes with
  | some scopes =>
      have last := getLast?_onLast changed
      dsimp only
      rw [lookupGlobal, lookupGlobal, global?, global?, last]
      cases t.scopes.getLast? with
      | none => exact (ite_self _).symm
      | some s => exact Assoc.get?_update s other name f
  | none =>
      rcases onLast_eq_none _ changed with empty | ⟨s, -, refused⟩
      · dsimp only
        rw [lookupGlobal, global?, empty]
        exact (ite_self _).symm
      · contradiction

end ScopeStack

/-! ### Stacks through a function -/

namespace Scope

variable {s : Scope α} {name : String} {f : α → β}

/-- The scope with what its names stand for replaced. -/
def map (f : α → β) (s : Scope α) : Scope β := ⟨s.entries.map fun e => (e.1, f e.2)⟩

theorem get?_map (f : α → β) (s : Scope α) (name : String) :
    (map f s).get? name = (s.get? name).map f := by
  obtain ⟨entries⟩ := s
  simp only [map, Assoc.get?]
  induction entries with
  | nil => rfl
  | cons e rest ih =>
      rw [List.map_cons, List.lookup_cons, List.lookup_cons, ih]
      cases name == e.1 <;> rfl

theorem contains_map (f : α → β) (s : Scope α) (name : String) :
    (map f s).contains name = s.contains name := by
  rw [Assoc.contains, Assoc.contains, get?_map, Option.isSome_map]

theorem values_map (f : α → β) (s : Scope α) : (map f s).values = s.values.map f := by
  rw [Assoc.values, Assoc.values, map, List.map_map, List.map_map]
  rfl

theorem map_declare? (f : α → β) (s : Scope α) (name : String) (a : α) :
    Scope.declare? (map f s) name (f a) = (Scope.declare? s name a).map (map f) := by
  rw [Scope.declare?, Scope.declare?, contains_map]
  split
  · rfl
  · rw [Option.map_some, map, map, List.map_append]
    rfl

theorem update_map {g : α → α} {g' : β → β} (along : ∀ a, f (g a) = g' (f a)) (s : Scope α)
    (name : String) : map f (s.update name g) = (map f s).update name g' := by
  simp only [map, Assoc.update, List.map_map]
  refine congrArg Assoc.mk (List.map_congr_left fun e _ => ?_)
  simp only [Function.comp_apply]
  split
  · rw [along]
  · rfl

/-- A change that does not show. -/
theorem map_update_of_keeps {g : α → α} (keeps : ∀ a, f (g a) = f a) (s : Scope α)
    (name : String) : map f (s.update name g) = map f s := by
  simp only [map, Assoc.update, List.map_map]
  refine congrArg Assoc.mk (List.map_congr_left fun e _ => ?_)
  rw [Function.comp_apply]
  split
  · rw [keeps]
  · rfl

theorem map_congr {g : α → β} (same : ∀ a ∈ s.values, f a = g a) : map f s = map g s := by
  rw [map, map]
  refine congrArg Assoc.mk (List.map_congr_left fun e mem => ?_)
  rw [same e.2 (List.mem_map_of_mem mem)]

end Scope

namespace ScopeStack

variable {t : ScopeStack α}

/-- The stack with what its names stand for replaced. -/
def map (f : α → β) (t : ScopeStack α) : ScopeStack β := ⟨t.scopes.map (Scope.map f)⟩

theorem lookup_map (f : α → β) (t : ScopeStack α) (name : String) :
    (t.map f).lookup name = (t.lookup name).map f := by
  obtain ⟨scopes⟩ := t
  simp only [lookup, map]
  induction scopes with
  | nil => rfl
  | cons s rest ih =>
      rw [List.map_cons, List.findSome?_cons, List.findSome?_cons, Scope.get?_map]
      cases s.get? name with
      | none => exact ih
      | some a => rfl

theorem lookupGlobal_map (f : α → β) (t : ScopeStack α) (name : String) :
    (t.map f).lookupGlobal name = (t.lookupGlobal name).map f := by
  rw [lookupGlobal, lookupGlobal, global?, global?, map, List.getLast?_map]
  cases t.scopes.getLast? with
  | none => rfl
  | some s => exact Scope.get?_map f s name

theorem onLast_map {f : α → β} {change : Scope α → Option (Scope α)}
    {change' : Scope β → Option (Scope β)}
    (along : ∀ s, change' (Scope.map f s) = (change s).map (Scope.map f)) :
    (scopes : List (Scope α)) → onLast change' (scopes.map (Scope.map f)) =
      (onLast change scopes).map (List.map (Scope.map f))
  | [] => rfl
  | [s] => by
      rw [List.map_singleton, onLast, onLast, along, Option.map_map, Option.map_map]
      rfl
  | s :: s₁ :: rest => by
      have inner := onLast_map along (s₁ :: rest)
      change (onLast change' ((s₁ :: rest).map (Scope.map f))).map (Scope.map f s :: ·) =
        ((onLast change (s₁ :: rest)).map (s :: ·)).map _
      rw [inner, Option.map_map, Option.map_map]
      rfl

/-- A declaration, or the stack as it is if there is none. -/
theorem map_declare? (f : α → β) (t : ScopeStack α) (name : String) (a : α) :
    ((t.map f).declare? name (f a)).getD (t.map f) = ((t.declare? name a).getD t).map f := by
  obtain ⟨scopes⟩ := t
  cases scopes with
  | nil => rfl
  | cons s rest =>
      simp only [map, declare?, List.map_cons, Scope.map_declare?]
      cases Scope.declare? s name a <;> rfl

theorem map_declareGlobal? (f : α → β) (t : ScopeStack α) (name : String) (a : α) :
    ((t.map f).declareGlobal? name (f a)).getD (t.map f) =
      ((t.declareGlobal? name a).getD t).map f := by
  rw [declareGlobal?, declareGlobal?, map, onLast_map (fun s => Scope.map_declare? f s name a)]
  cases onLast (Scope.declare? · name a) t.scopes <;> rfl

theorem update_map {f : α → β} {g : α → α} {g' : β → β} (along : ∀ a, f (g a) = g' (f a))
    (t : ScopeStack α) (name : String) : (t.update name g).map f = (t.map f).update name g' := by
  obtain ⟨scopes⟩ := t
  simp only [map, update]
  congr 1
  induction scopes with
  | nil => rfl
  | cons s rest ih =>
      rw [List.map_cons, updateIn, updateIn, Scope.contains_map]
      split
      · rw [List.map_cons, Scope.update_map along]
      · rw [List.map_cons, ih]

theorem map_update_of_keeps {f : α → β} {g : α → α} (keeps : ∀ a, f (g a) = f a)
    (t : ScopeStack α) (name : String) : (t.update name g).map f = t.map f := by
  obtain ⟨scopes⟩ := t
  refine congrArg ScopeStack.mk ?_
  simp only [update]
  induction scopes with
  | nil => rfl
  | cons s rest ih =>
      rw [updateIn]
      split
      · rw [List.map_cons, Scope.map_update_of_keeps keeps, List.map_cons]
      · rw [List.map_cons, ih, List.map_cons]

theorem updateGlobal_map {f : α → β} {g : α → α} {g' : β → β} (along : ∀ a, f (g a) = g' (f a))
    (t : ScopeStack α) (name : String) :
    (t.updateGlobal name g).map f = (t.map f).updateGlobal name g' := by
  have inner : onLast (fun s => some (s.update name g')) (t.scopes.map (Scope.map f)) =
      (onLast (fun s => some (s.update name g)) t.scopes).map (List.map (Scope.map f)) :=
    onLast_map (fun s => congrArg some (Scope.update_map along s name).symm) t.scopes
  have scopes : (t.map f).scopes = t.scopes.map (Scope.map f) := rfl
  rw [updateGlobal, updateGlobal, scopes, inner]
  cases onLast (fun s => some (s.update name g)) t.scopes <;> rfl

/-! ### What the open scopes hold -/

variable {name : String} {a : α}

/-- What the names of all open scopes stand for, the innermost scope first. -/
def held (t : ScopeStack α) : List α := t.scopes.flatMap Assoc.values

theorem mem_held {s : Scope α} (isOpen : s ∈ t.scopes) (found : s.get? name = some a) :
    a ∈ t.held :=
  List.mem_flatMap_of_mem isOpen (List.mem_map_of_mem (Assoc.mem_of_get? found))

theorem mem_held_of_lookup (found : t.lookup name = some a) : a ∈ t.held := by
  obtain ⟨s, isOpen, here⟩ := List.exists_of_findSome?_eq_some found
  exact mem_held isOpen here

theorem mem_held_of_lookupGlobal (found : t.lookupGlobal name = some a) : a ∈ t.held := by
  obtain ⟨s, last, here⟩ := Option.bind_eq_some_iff.mp found
  exact mem_held (List.mem_of_getLast? last) here

theorem map_congr {f g : α → β} (same : ∀ a ∈ t.held, f a = g a) : t.map f = t.map g := by
  rw [map, map]
  refine congrArg ScopeStack.mk (List.map_congr_left fun s isOpen => ?_)
  apply Scope.map_congr
  intro a mem
  exact same a (List.mem_flatMap_of_mem isOpen mem)

/-- A scope has no name twice, and nothing is held twice. -/
structure Apart (t : ScopeStack α) : Prop where
  keys : ∀ s ∈ t.scopes, s.keys.Nodup
  held : t.held.Nodup

theorem Apart.tail (apart : t.Apart) : Apart (⟨t.scopes.tail⟩ : ScopeStack α) := by
  obtain ⟨_ | ⟨s, rest⟩⟩ := t
  · exact apart
  · refine ⟨fun s' isOpen => apart.keys s' (List.mem_cons_of_mem s isOpen), ?_⟩
    have held := apart.held
    rw [ScopeStack.held, List.flatMap_cons] at held
    exact held.of_append_right

end ScopeStack

namespace Scope

variable {s s' : Scope α} {name : String} {a : α}

/-- The second scope is the first one with one more name. -/
structure Extended (s s' : Scope α) (name : String) (a : α) : Prop where
  entries : s'.entries = s.entries ++ [(name, a)]
  new : name ∉ s.keys

theorem extended_of_declare? (declared : Scope.declare? s name a = some s') :
    Extended s s' name a := by
  unfold Scope.declare? at declared
  split at declared
  · contradiction
  · rename_i absent
    obtain rfl := Option.some.inj declared
    refine ⟨rfl, fun mem => absent ?_⟩
    obtain ⟨e, inside, rfl⟩ := List.mem_map.mp mem
    rw [Assoc.contains, Assoc.get?, List.lookup_isSome_iff]
    exact ⟨e, inside, beq_self_eq_true e.1⟩

namespace Extended

theorem values (extended : Extended s s' name a) : s'.values = s.values ++ [a] := by
  rw [Assoc.values, extended.entries, List.map_append]
  rfl

theorem nodup (extended : Extended s s' name a) (apart : s.keys.Nodup) : s'.keys.Nodup := by
  have keys : s'.keys = s.keys.concat name := by
    rw [Assoc.keys, extended.entries, List.map_append, List.concat_eq_append]
    rfl
  rw [keys, List.nodup_concat]
  exact ⟨extended.new, apart⟩

end Extended

end Scope

namespace ScopeStack

variable {t t' : ScopeStack α} {name : String} {a : α}

theorem held_onLast : (scopes : List (Scope α)) → {scopes' : List (Scope α)} →
    onLast (Scope.declare? · name a) scopes = some scopes' →
    ((∀ s ∈ scopes, s.keys.Nodup) → ∀ s ∈ scopes', s.keys.Nodup) ∧
      (scopes'.flatMap Assoc.values).Perm (a :: scopes.flatMap Assoc.values)
  | [], _, changed => by contradiction
  | [s], _, changed => by
      obtain ⟨s', declared, rfl⟩ := Option.map_eq_some_iff.mp changed
      have extended := Scope.extended_of_declare? declared
      constructor
      · intro apart
        exact List.forall_mem_singleton.mpr (extended.nodup (apart s List.mem_cons_self))
      · rw [List.flatMap_singleton, List.flatMap_singleton, extended.values]
        exact List.perm_append_singleton a s.values
  | s :: s₁ :: rest, _, changed => by
      obtain ⟨inner, others, rfl⟩ := Option.map_eq_some_iff.mp changed
      obtain ⟨keys, held⟩ := held_onLast (s₁ :: rest) others
      constructor
      · intro apart
        obtain ⟨here, below⟩ := List.forall_mem_cons.mp apart
        exact List.forall_mem_cons.mpr ⟨here, keys below⟩
      · rw [List.flatMap_cons, List.flatMap_cons]
        exact (held.append_left s.values).trans List.perm_middle

/-- What is declared in the global scope is held then. -/
theorem held_declareGlobal? (declared : t.declareGlobal? name a = some t') :
    ((∀ s ∈ t.scopes, s.keys.Nodup) → ∀ s ∈ t'.scopes, s.keys.Nodup) ∧
      t'.held.Perm (a :: t.held) := by
  obtain ⟨scopes, changed, rfl⟩ := Option.map_eq_some_iff.mp declared
  exact held_onLast t.scopes changed

/-- What is declared in the current scope is held then. -/
theorem held_declare? (declared : t.declare? name a = some t') :
    ((∀ s ∈ t.scopes, s.keys.Nodup) → ∀ s ∈ t'.scopes, s.keys.Nodup) ∧
      t'.held.Perm (a :: t.held) := by
  obtain ⟨_ | ⟨s, rest⟩⟩ := t
  · contradiction
  · obtain ⟨s', here, rfl⟩ := Option.map_eq_some_iff.mp declared
    have extended := Scope.extended_of_declare? here
    constructor
    · intro apart
      obtain ⟨first, below⟩ := List.forall_mem_cons.mp apart
      exact List.forall_mem_cons.mpr ⟨extended.nodup first, below⟩
    · rw [held, held, List.flatMap_cons, List.flatMap_cons, extended.values, List.append_assoc]
      exact List.perm_middle

end ScopeStack

/-! ### A single entry -/

section Entries

variable [DecidableEq α] {name : String} {a : α}

/-- A change of what a name stands for is a change of the entry that the name has. -/
theorem Scope.update_at {s : Scope α} (keys : s.keys.Nodup) (values : s.values.Nodup)
    (found : s.get? name = some a) (f : α → β) (g : β → β) :
    (map f s).update name g = map (fun b => if b = a then g (f b) else f b) s := by
  have entry := Assoc.mem_of_get? found
  have same : ∀ e ∈ s.entries, e.1 = name ↔ e.2 = a := by
    intro e mem
    constructor
    · intro key
      exact congrArg Prod.snd (List.inj_on_of_nodup_map keys mem entry key)
    · intro value
      exact congrArg Prod.fst (List.inj_on_of_nodup_map values mem entry value)
  rw [Assoc.update, map, map, List.map_map]
  refine congrArg Assoc.mk (List.map_congr_left fun e mem => ?_)
  rw [Function.comp_apply]
  by_cases key : e.1 = name
  · rw [if_pos key, if_pos ((same e mem).mp key)]
  · rw [if_neg key, if_neg fun value => key ((same e mem).mpr value)]

theorem Scope.map_at {s : Scope α} (absent : a ∉ s.values) (f : α → β) (g : β → β) :
    map f s = map (fun b => if b = a then g (f b) else f b) s := by
  apply map_congr
  intro b mem
  rw [if_neg]
  rintro rfl
  exact absent mem

namespace ScopeStack

variable {t : ScopeStack α}

theorem map_at (absent : a ∉ t.held) (f : α → β) (g : β → β) :
    t.map f = t.map (fun b => if b = a then g (f b) else f b) := by
  apply map_congr
  intro b mem
  rw [if_neg]
  rintro rfl
  exact absent mem

theorem update_at (apart : t.Apart) (found : t.lookup name = some a) (f : α → β) (g : β → β) :
    (t.map f).update name g = t.map fun b => if b = a then g (f b) else f b := by
  obtain ⟨scopes⟩ := t
  refine congrArg ScopeStack.mk ?_
  simp only [map]
  induction scopes with
  | nil => rfl
  | cons s rest ih =>
      have nodup := apart.held
      rw [held, List.flatMap_cons, List.nodup_append] at nodup
      obtain ⟨here, -, disjoint⟩ := nodup
      rw [lookup, List.findSome?_cons] at found
      rw [List.map_cons, List.map_cons, updateIn, Scope.contains_map, Assoc.contains]
      cases inner : s.get? name with
      | some b =>
          rw [inner] at found
          obtain rfl := Option.some.inj found
          have below : b ∉ held ⟨rest⟩ := fun mem => disjoint b
            (List.mem_map_of_mem (Assoc.mem_of_get? inner)) b mem rfl
          have others := congrArg scopes (map_at below f g)
          rw [Option.isSome_some, if_pos rfl,
            Scope.update_at (apart.keys s List.mem_cons_self) here inner]
          exact congrArg (_ :: ·) others
      | none =>
          rw [inner] at found
          have above : a ∉ s.values := fun mem => disjoint a mem a (mem_held_of_lookup found) rfl
          rw [Option.isSome_none, if_neg Bool.false_ne_true, ih apart.tail found,
            ← Scope.map_at above f g]

theorem updateGlobal_at (apart : t.Apart) (found : t.lookupGlobal name = some a) (f : α → β)
    (g : β → β) :
    (t.map f).updateGlobal name g = t.map fun b => if b = a then g (f b) else f b := by
  obtain ⟨scopes⟩ := t
  suffices changed : onLast (fun s => some (s.update name g)) (scopes.map (Scope.map f)) =
      some (scopes.map (Scope.map fun b => if b = a then g (f b) else f b)) by
    rw [updateGlobal, map, changed, map]
  induction scopes with
  | nil => contradiction
  | cons s rest ih =>
      have nodup := apart.held
      rw [held, List.flatMap_cons, List.nodup_append] at nodup
      obtain ⟨here, -, disjoint⟩ := nodup
      cases rest with
      | nil =>
          have updated := Scope.update_at (apart.keys s List.mem_cons_self) here found f g
          exact congrArg (fun s => some [s]) updated
      | cons s₁ rest =>
          rw [lookupGlobal_cons s (List.cons_ne_nil s₁ rest)] at found
          have above : a ∉ s.values := fun mem =>
            disjoint a mem a (mem_held_of_lookupGlobal found) rfl
          have inner := ih apart.tail found
          rw [List.map_cons] at inner
          rw [List.map_cons, List.map_cons, onLast, inner, Option.map_some, List.map_cons,
            List.map_cons, ← Scope.map_at above f g]
          · rfl
          · exact List.cons_ne_nil _ _

end ScopeStack

end Entries

/-! ### Changes that may be refused -/

namespace ScopeStack

theorem declare?_getD (s : Scope α) (rest : List (Scope α)) (name : String) (a : α) :
    ((⟨s :: rest⟩ : ScopeStack α).declare? name a).getD ⟨s :: rest⟩ =
      ⟨(Scope.declare? s name a).getD s :: rest⟩ := by
  change ((Scope.declare? s name a).map fun s => (⟨s :: rest⟩ : ScopeStack α)).getD _ = _
  cases Scope.declare? s name a <;> rfl

theorem isSome_declared (s : Scope α) (name : String) (a : α) :
    (Scope.declare? s name a).isSome = !s.contains name := by
  rw [Scope.declare?]
  cases s.contains name <;> rfl

theorem isSome_declare? (t : ScopeStack α) (name : String) (a : α) :
    (t.declare? name a).isSome = t.scopes.head?.any fun s => !s.contains name := by
  obtain ⟨_ | ⟨s, rest⟩⟩ := t
  · rfl
  · exact Option.isSome_map.trans (isSome_declared s name a)

theorem isSome_declareGlobal? (t : ScopeStack α) (name : String) (a : α) :
    (t.declareGlobal? name a).isSome = t.scopes.getLast?.any fun s => !s.contains name := by
  obtain ⟨scopes⟩ := t
  rw [declareGlobal?, Option.isSome_map]
  induction scopes with
  | nil => rfl
  | cons s rest ih =>
      cases rest with
      | nil => exact Option.isSome_map.trans (isSome_declared s name a)
      | cons s₁ rest => exact Option.isSome_map.trans ih

theorem scopes_declareGlobal? (t : ScopeStack α) (name : String) (a : α) :
    ((t.declareGlobal? name a).getD t).scopes =
      (onLast (Scope.declare? · name a) t.scopes).getD t.scopes := by
  rw [declareGlobal?]
  cases onLast (Scope.declare? · name a) t.scopes <;> rfl

theorem scopes_updateGlobal (t : ScopeStack α) (name : String) (f : α → α) :
    (t.updateGlobal name f).scopes =
      (onLast (fun s => some (s.update name f)) t.scopes).getD t.scopes := by
  rw [updateGlobal]
  cases onLast (fun s => some (s.update name f)) t.scopes <;> rfl

end ScopeStack

namespace Env

theorem stack_leave (e : Env α) : e.leave.2.stack = ⟨e.stack.scopes.tail⟩ := by
  obtain ⟨⟨scopes⟩, journal⟩ := e
  cases scopes <;> rfl

theorem stack_declared (e : Env α) (name : String) (t? : Option (ScopeStack α)) :
    (e.declared name t?).2.stack = t?.getD e.stack := by
  cases t? <;> rfl

theorem fst_declared (e : Env α) (name : String) (t? : Option (ScopeStack α)) :
    (e.declared name t?).1 = t?.isSome := by
  cases t? <;> rfl

/-- What is refused leaves everything as it is. -/
theorem declared_refused {e : Env α} {name : String} {t? : Option (ScopeStack α)}
    (refused : (e.declared name t?).1 = false) : (e.declared name t?).2 = e := by
  cases t? with
  | none => rfl
  | some t => contradiction

end Env

end BraceLang
