import Mathlib.Data.List.Forall2
import BraceLang.Scope

/-!
Scopes seen through a function of what their names stand for. A view of a scope forgets
everything but one feature of its entries, such as a type; two passes that keep different things
in their scopes can then be compared, and changes to the rest of an entry do not show.

**Main results.** `lookup_views`: a name is looked up in the views as in the scopes.
`views_declare`, `views_update` and `views_updateGlobal` say what the changes of a stack of scopes
do to its views, and `le_declare?` and `le_declareGlobal?` that a declaration takes nothing away.
-/

namespace BraceLang

variable {α β : Type}

/-- What the names of one scope stand for. -/
abbrev View (β : Type) := String → Option β

namespace View

/-- The view with one more name. -/
def add (l : View β) (name : String) (b : β) : View β := fun other =>
  if other = name then some b else l other

/-- What stands in the first view stands in the second. -/
def Le (l l' : View β) : Prop := ∀ name b, l name = some b → l' name = some b

theorem Le.refl (l : View β) : l.Le l := fun _ _ found => found

theorem Le.trans {l l' l'' : View β} (first : l.Le l') (second : l'.Le l'') : l.Le l'' :=
  fun name b found => second name b (first name b found)

theorem le_add {l : View β} {name : String} (absent : l name = none) (b : β) :
    l.Le (l.add name b) := by
  intro other b' found
  by_cases same : other = name
  · subst same
    rw [absent] at found
    contradiction
  · rw [add, if_neg same, found]

theorem add_self {l : View β} {name : String} {b : β} (found : l name = some b) :
    l.add name b = l := by
  funext other
  by_cases same : other = name
  · rw [add, if_pos same, same, found]
  · rw [add, if_neg same]

theorem forall₂_refl (layers : List (View β)) : List.Forall₂ Le layers layers :=
  List.forall₂_same.mpr fun l _ => Le.refl l

theorem forall₂_trans {layers layers' layers'' : List (View β)}
    (first : List.Forall₂ Le layers layers') (second : List.Forall₂ Le layers' layers'') :
    List.Forall₂ Le layers layers'' := by
  induction first generalizing layers'' with
  | nil => exact second
  | cons le _ ih =>
      cases second with
      | cons le' rest => exact .cons (le.trans le') (ih rest)

/-- What a name stands for in the first of several views that has it. -/
def look (layers : List (View β)) (name : String) : Option β := layers.findSome? (· name)

/-- A view of only some of the entries. -/
def present (l : View (Option β)) : View β := fun name => (l name).join

theorem present_add_none {l : View (Option β)} {name : String} (absent : l name = none) :
    (l.add name none).present = l.present := by
  funext other
  by_cases same : other = name
  · rw [present, add, if_pos same, present, same, absent]
    rfl
  · rw [present, add, if_neg same, present]

theorem present_add_some (l : View (Option β)) (name : String) (b : β) :
    (l.add name (some b)).present = l.present.add name b := by
  funext other
  by_cases same : other = name
  · rw [present, add, if_pos same, add, if_pos same]
    rfl
  · rw [present, add, if_neg same, add, if_neg same, present]

/-- What is found first is found first among some of the entries too, if it is one of them. -/
theorem look_present {layers : List (View (Option β))} {name : String} {b : β}
    (found : look layers name = some (some b)) : look (layers.map present) name = some b := by
  induction layers with
  | nil => contradiction
  | cons l rest ih =>
      rw [look, List.findSome?_cons] at found
      rw [look, List.map_cons, List.findSome?_cons, present]
      cases here : l name with
      | none =>
          rw [here] at found
          exact ih found
      | some entry =>
          rw [here] at found
          obtain rfl := Option.some.inj found
          rfl

/-- A view of what the entries are made into. -/
def map (f : α → β) (l : View α) : View β := fun name => (l name).map f

theorem map_add (f : α → β) (l : View α) (name : String) (a : α) :
    (l.add name a).map f = (l.map f).add name (f a) := by
  funext other
  by_cases same : other = name
  · rw [map, add, if_pos same, add, if_pos same]
    rfl
  · rw [map, add, if_neg same, add, if_neg same, map]

theorem look_map (f : α → β) (layers : List (View α)) (name : String) :
    look (layers.map (View.map f)) name = (look layers name).map f := by
  induction layers with
  | nil => rfl
  | cons l rest ih =>
      simp only [look, List.map_cons, List.findSome?_cons, map]
      cases l name with
      | none => exact ih
      | some a => rfl

/-- What a name stands for in the current view. -/
def here (layers : List (View β)) (name : String) : Option β := layers.head?.bind (· name)

theorem here_map (f : α → β) (layers : List (View α)) (name : String) :
    here (layers.map (View.map f)) name = (here layers name).map f := by
  cases layers <;> rfl

theorem here_present {layers : List (View (Option β))} {name : String}
    (absent : here layers name = none) : here (layers.map present) name = none := by
  cases layers with
  | nil => rfl
  | cons l rest => exact congrArg Option.join absent

/-- The current view gets one more name; without one, nothing does. -/
def declare (layers : List (View β)) (name : String) (b : β) : List (View β) :=
  match layers with
  | [] => []
  | l :: rest => l.add name b :: rest

theorem declare_map (f : α → β) (layers : List (View α)) (name : String) (a : α) :
    (declare layers name a).map (View.map f) = declare (layers.map (View.map f)) name (f a) := by
  cases layers with
  | nil => rfl
  | cons l rest => exact congrArg (· :: _) (map_add f l name a)

theorem declare_present (layers : List (View (Option β))) (name : String) (b : β) :
    (declare layers name (some b)).map present = declare (layers.map present) name b := by
  cases layers with
  | nil => rfl
  | cons l rest => exact congrArg (· :: _) (present_add_some l name b)

end View

namespace Scope

variable (f : α → β) {s s' : Scope α} {name : String} {a : α}

/-- The scope seen through `f`. -/
def view (s : Scope α) : View β := fun name => (s.get? name).map f

theorem view_declare? (declared : Scope.declare? s name a = some s') :
    view f s' = (view f s).add name (f a) := by
  funext other
  rw [view, get?_declare? declared, View.add]
  by_cases same : other = name <;> simp [same, view]

theorem view_update (s : Scope α) (name : String) {g : α → α} (keeps : ∀ a, f (g a) = f a) :
    view f (s.update name g) = view f s := by
  funext other
  rw [view, Assoc.get?_update, view]
  split
  · cases s.get? other <;> simp [keeps]
  · rfl

theorem view_update_found {g : α → α} (found : s.get? name = some a) :
    view f (s.update name g) = (view f s).add name (f (g a)) := by
  funext other
  rw [view, Assoc.get?_update, View.add]
  by_cases same : other = name
  · simp [same, found]
  · simp [same, view]

/-- A name is new to a scope in which it can be declared. -/
theorem get?_of_declare? (declared : Scope.declare? s name a = some s') : s.get? name = none := by
  unfold Scope.declare? at declared
  split at declared
  · contradiction
  · rename_i absent
    exact Option.not_isSome_iff_eq_none.mp absent

theorem exists_declare? (a : α) (absent : view f s name = none) :
    ∃ s', Scope.declare? s name a = some s' := by
  have none' : s.get? name = none := Option.map_eq_none_iff.mp absent
  refine ⟨_, if_neg ?_⟩
  simp [Assoc.contains, none']

theorem le_of_declare? (declared : Scope.declare? s name a = some s') :
    (view f s).Le (view f s') := by
  rw [view_declare? f declared]
  apply View.le_add
  rw [view, get?_of_declare? declared]
  rfl

end Scope

namespace ScopeStack

variable (f : α → β) {t t' : ScopeStack α} {name : String} {a : α}

/-- The open scopes seen through `f`, innermost first. -/
def views (t : ScopeStack α) : List (View β) := t.scopes.map (Scope.view f)

theorem lookup_views (t : ScopeStack α) (name : String) :
    (t.lookup name).map f = View.look (t.views f) name := by
  obtain ⟨scopes⟩ := t
  simp only [lookup, views, View.look]
  induction scopes with
  | nil => rfl
  | cons s rest ih =>
      simp only [List.findSome?_cons, List.map_cons, Scope.view]
      cases s.get? name with
      | none => exact ih
      | some a => rfl

theorem views_update (t : ScopeStack α) (name : String) {g : α → α}
    (keeps : ∀ a, f (g a) = f a) : (t.update name g).views f = t.views f := by
  obtain ⟨scopes⟩ := t
  simp only [views, update]
  induction scopes with
  | nil => rfl
  | cons s rest ih =>
      unfold updateIn
      split
      · rw [List.map_cons, Scope.view_update f s name keeps, List.map_cons]
      · rw [List.map_cons, ih, List.map_cons]

/-- A change to the last scope, compared scope by scope. -/
theorem forall₂_onLast {R : Scope α → Scope α → Prop} {change : Scope α → Option (Scope α)}
    (refl : ∀ s, R s s) (changes : ∀ {s s'}, change s = some s' → R s s')
    {scopes scopes' : List (Scope α)} (changed : onLast change scopes = some scopes') :
    List.Forall₂ R scopes scopes' := by
  induction scopes generalizing scopes' with
  | nil => contradiction
  | cons s rest ih =>
      cases rest with
      | nil =>
          obtain ⟨s', changed', rfl⟩ := Option.map_eq_some_iff.mp changed
          exact .cons (changes changed') .nil
      | cons s' rest =>
          obtain ⟨inner, changed', rfl⟩ := Option.map_eq_some_iff.mp changed
          exact .cons (refl s) (ih changed')

/-- What a change to the last scope keeps is kept in all scopes. -/
theorem map_onLast {γ : Type} {g : Scope α → γ} {change : Scope α → Option (Scope α)}
    (keeps : ∀ {s s'}, change s = some s' → g s' = g s) {scopes scopes' : List (Scope α)}
    (changed : onLast change scopes = some scopes') : scopes'.map g = scopes.map g := by
  have same := forall₂_onLast (R := fun s s' => g s' = g s) (fun _ => rfl) keeps changed
  clear changed
  induction same with
  | nil => rfl
  | cons here _ ih => rw [List.map_cons, List.map_cons, here, ih]

theorem views_updateGlobal (t : ScopeStack α) (name : String) {g : α → α}
    (keeps : ∀ a, f (g a) = f a) : (t.updateGlobal name g).views f = t.views f := by
  unfold updateGlobal
  split
  · rename_i scopes changed
    refine map_onLast (fun {s s'} updated => ?_) changed
    obtain rfl := Option.some.inj updated
    exact Scope.view_update f s name keeps
  · rfl

/-- A stack with a scope in it has one however it is seen. -/
theorem exists_views_cons {γ : Type} (g : α → γ) {l : View β} {rest : List (View β)}
    (views : t.views f = l :: rest) : ∃ l' rest', t.views g = l' :: rest' := by
  obtain ⟨scopes⟩ := t
  cases scopes with
  | nil => contradiction
  | cons s others => exact ⟨_, _, rfl⟩

/-- A name that is new to the current scope can be declared in it. -/
theorem views_declare {l : View β} {rest : List (View β)} (views : t.views f = l :: rest)
    (absent : l name = none) (a : α) :
    ∃ t', t.declare? name a = some t' ∧ t'.views f = l.add name (f a) :: rest := by
  obtain ⟨scopes⟩ := t
  cases scopes with
  | nil => contradiction
  | cons s others =>
      obtain ⟨rfl, rfl⟩ := List.cons.inj views
      obtain ⟨s', declared⟩ := Scope.exists_declare? f a absent
      refine ⟨⟨s' :: others⟩, ?_, ?_⟩
      · simp only [declare?, declared, Option.map_some]
      · rw [← Scope.view_declare? f declared]
        rfl

theorem here_views (t : ScopeStack α) (name : String) :
    View.here (t.views f) name = none ↔ t.declaredHere name = false := by
  obtain ⟨scopes⟩ := t
  cases scopes with
  | nil => exact iff_of_true rfl rfl
  | cons s rest =>
      change (s.get? name).map f = none ↔ (s.get? name).isSome = false
      rw [Option.map_eq_none_iff, Option.isSome_eq_false_iff, Option.isNone_iff_eq_none]

/-- What is new to the current scope is declared in it, if there is one. -/
theorem views_declare_getD (absent : t.declaredHere name = false) (a : α) :
    ((t.declare? name a).getD t).views f = View.declare (t.views f) name (f a) := by
  have none' := (here_views f t name).mpr absent
  cases layers : t.views f with
  | nil =>
      obtain ⟨scopes⟩ := t
      obtain rfl := List.map_eq_nil_iff.mp layers
      rfl
  | cons l rest =>
      rw [layers] at none'
      obtain ⟨t', declared, views⟩ := views_declare f layers none' a
      rw [declared, Option.getD_some, views]
      rfl

/-- In the only scope there is, a declaration is a global one. -/
theorem views_declareGlobal {l : View β} (views : t.views f = [l]) (absent : l name = none)
    (a : α) : ∃ t', t.declareGlobal? name a = some t' ∧ t'.views f = [l.add name (f a)] := by
  obtain ⟨t', declared, views'⟩ := views_declare f views absent a
  refine ⟨t', ?_, views'⟩
  obtain ⟨scopes⟩ := t
  obtain ⟨s, rfl, -⟩ := List.map_eq_singleton_iff.mp views
  rw [← declared]
  exact Option.map_map ..

/-- A declaration takes nothing away. -/
theorem le_declare? (declared : t.declare? name a = some t') :
    List.Forall₂ View.Le (t.views f) (t'.views f) ∧ (t'.views f).tail = (t.views f).tail := by
  obtain ⟨scopes⟩ := t
  cases scopes with
  | nil => contradiction
  | cons s rest =>
      obtain ⟨s', declared', rfl⟩ := Option.map_eq_some_iff.mp declared
      exact ⟨.cons (Scope.le_of_declare? f declared') (View.forall₂_refl _), rfl⟩

theorem le_declareGlobal? (declared : t.declareGlobal? name a = some t') :
    List.Forall₂ View.Le (t.views f) (t'.views f) := by
  obtain ⟨scopes', changed, rfl⟩ := Option.map_eq_some_iff.mp declared
  have kept : List.Forall₂ (fun s s' => (Scope.view f s).Le (Scope.view f s')) t.scopes scopes' :=
    forall₂_onLast (fun s => View.Le.refl _) (Scope.le_of_declare? f) changed
  exact List.forall₂_map_left_iff.mpr (List.forall₂_map_right_iff.mpr kept)

/-- An entry that is left out does not show. -/
theorem present_declareGlobal? {f : α → Option β} (declared : t.declareGlobal? name a = some t')
    (hidden : f a = none) :
    (t'.views f).map View.present = (t.views f).map View.present := by
  obtain ⟨scopes', changed, rfl⟩ := Option.map_eq_some_iff.mp declared
  rw [views, views, List.map_map, List.map_map]
  refine map_onLast (fun {s s'} entered => ?_) changed
  have absent : Scope.view f s name = none := by
    rw [Scope.view, Scope.get?_of_declare? entered]
    rfl
  rw [Function.comp_apply, Function.comp_apply, Scope.view_declare? f entered, hidden,
    View.present_add_none absent]

end ScopeStack

end BraceLang
