import BraceLang.Proofs.Assembly.Frames
import BraceLang.Proofs.Assembly.Closed
import BraceLang.Proofs.Numbering
import Mathlib.Data.List.Dedup

/-!
Labels of the top-level variables.

The reservations of a listing depend on the variables of the top-level code and on their order,
and on nothing else: there is one for each name with its types and lengths. The first one of a
name has the name as its label, the others a number behind an underscore. A name may itself end in
an underscore and a number, and then it has the label of another name's later reservation.

**Main results.** `reservations_listing`: what is reserved for a program. `Reserved.nodup_iff`:
labels are different exactly if no name is another name with an underscore and one of its numbers.
`storageLabels_nodup_iff`: the same for whole programs and for the text of the `.bss` section.
-/

namespace BraceLang.Assembly

/-! ### Labels -/

/-- The label of the reservation of a name that `n` others of this name stand in front of. -/
def numberedLabel (name : String) : Nat → String
  | 0 => "v_" ++ name
  | n + 1 => "v_" ++ name ++ "_" ++ toString (n + 1)

theorem reservationLabel_eq (rs : List Reservation) (name : String) :
    reservationLabel rs name = numberedLabel name (rs.countP (·.name == name)) := by
  unfold reservationLabel
  split
  · rename_i none
    rw [none]
    rfl
  · rename_i some
    obtain ⟨n, is⟩ := Nat.exists_eq_succ_of_ne_zero some
    rw [is]
    rfl

/-- The name that the label of a numbered reservation takes. -/
def numberedName (name : String) (n : Nat) : String := name ++ "_" ++ toString n

theorem toList_numberedName (name : String) (n : Nat) :
    (numberedName name n).toList = name.toList ++ '_' :: Nat.toDigits 10 n := by
  have digits : (toString n).toList = Nat.toDigits 10 n := by
    rw [Nat.toString_eq_ofList_toDigits, String.toList_ofList]
  rw [numberedName, String.toList_append, String.toList_append, digits, List.append_assoc]
  rfl

theorem numberedName_inj {a b : String} {m n : Nat} (same : numberedName a m = numberedName b n) :
    a = b ∧ m = n := by
  have texts := congrArg String.toList same
  rw [toList_numberedName, toList_numberedName] at texts
  obtain ⟨names, numbers⟩ := append_toDigits_inj (by decide) texts
  exact ⟨String.toList_injective names, numbers⟩

theorem numberedName_ne (name : String) (n : Nat) : numberedName name n ≠ name := by
  intro same
  have lengths := congrArg (fun text => text.toList.length) same
  simp only [toList_numberedName, List.length_append, List.length_cons] at lengths
  omega

theorem numberedLabel_succ (name : String) (n : Nat) :
    numberedLabel name (n + 1) = "v_" ++ numberedName name (n + 1) := by
  simp only [numberedLabel, numberedName, String.append_assoc]

theorem append_right_inj {start a b : String} (same : start ++ a = start ++ b) : a = b := by
  have texts := congrArg String.toList same
  rw [String.toList_append, String.toList_append] at texts
  exact String.toList_injective (List.append_cancel_left texts)

/-- Two labels are one only for one name with one number, or where a name takes the label of
another name's numbered reservation. -/
theorem numberedLabel_eq_iff {a b : String} {m n : Nat} :
    numberedLabel a m = numberedLabel b n ↔ a = b ∧ m = n ∨
      m = 0 ∧ 0 < n ∧ a = numberedName b n ∨ n = 0 ∧ 0 < m ∧ b = numberedName a m := by
  constructor
  · intro same
    cases m with
    | zero =>
        cases n with
        | zero => exact .inl ⟨append_right_inj same, rfl⟩
        | succ n =>
            rw [numberedLabel_succ] at same
            exact .inr (.inl ⟨rfl, Nat.succ_pos n, append_right_inj same⟩)
    | succ m =>
        rw [numberedLabel_succ] at same
        cases n with
        | zero => exact .inr (.inr ⟨rfl, Nat.succ_pos m, (append_right_inj same).symm⟩)
        | succ n =>
            rw [numberedLabel_succ] at same
            exact .inl (numberedName_inj (append_right_inj same))
  · rintro (⟨rfl, rfl⟩ | ⟨rfl, positive, rfl⟩ | ⟨rfl, positive, rfl⟩)
    · rfl
    · obtain ⟨k, rfl⟩ := Nat.exists_eq_add_of_lt positive
      rw [Nat.zero_add, numberedLabel_succ]
      rfl
    · obtain ⟨k, rfl⟩ := Nat.exists_eq_add_of_lt positive
      rw [Nat.zero_add, numberedLabel_succ]
      rfl

/-! ### Reservations one after the other -/

/-- What space is reserved for: a name with a type and a number of values. -/
abbrev Space := String × Ty × Nat

def Reservation.space (r : Reservation) : Space := (r.name, r.type, r.count)

/-- Reservations as they are made: none is made twice, and each of them has the label that was
free when it was made. -/
inductive Reserved : List Reservation → Prop
  | none : Reserved []
  | more {rs name t count} (reserved : Reserved rs)
      (fresh : (name, t, count) ∉ rs.map Reservation.space) :
      Reserved (rs ++ [⟨name, t, count, numberedLabel name (rs.countP (·.name == name))⟩])

/-- Space is found among the reservations, or a reservation is made. -/
theorem reserveSpace_made (rs : List Reservation) (name : String) (t : Ty) (count : Nat) :
    (name, t, count) ∈ rs.map Reservation.space ∧ (reserveSpace rs name t count).2 = rs ∨
      (name, t, count) ∉ rs.map Reservation.space ∧ (reserveSpace rs name t count).2 =
        rs ++ [⟨name, t, count, numberedLabel name (rs.countP (·.name == name))⟩] := by
  unfold reserveSpace
  split
  · rename_i r found
    have is := List.find?_some found
    simp only [Bool.and_eq_true, beq_iff_eq] at is
    obtain ⟨⟨rfl, rfl⟩, rfl⟩ := is
    exact .inl ⟨List.mem_map_of_mem (List.mem_of_find?_eq_some found), rfl⟩
  · rename_i missing
    refine .inr ⟨?_, by rw [reservationLabel_eq]⟩
    intro there
    obtain ⟨r, mem, is⟩ := List.mem_map.mp there
    obtain ⟨rfl, rfl, rfl⟩ : r.name = name ∧ r.type = t ∧ r.count = count := by
      simpa [Reservation.space] using is
    exact List.find?_eq_none.mp missing r mem (by simp)

theorem Reserved.reserveSpace {rs : List Reservation} (reserved : Reserved rs) (name : String)
    (t : Ty) (count : Nat) : Reserved (reserveSpace rs name t count).2 := by
  rcases reserveSpace_made rs name t count with ⟨-, is⟩ | ⟨fresh, is⟩
  · rw [is]
    exact reserved
  · rw [is]
    exact .more reserved fresh

/-- A name is another name with an underscore and the number of one of its later spaces. -/
def Clash (spaces : List Space) : Prop :=
  ∃ name n, 0 < n ∧ n < spaces.countP (·.1 == name) ∧
    0 < spaces.countP (·.1 == numberedName name n)

namespace Reserved

variable {rs : List Reservation}

theorem spaces_nodup (reserved : Reserved rs) : (rs.map Reservation.space).Nodup := by
  induction reserved with
  | none => exact .nil
  | more _ fresh ih =>
      rw [List.map_append, List.nodup_append']
      exact ⟨ih, List.nodup_singleton _, List.disjoint_singleton.mpr fresh⟩

theorem countP_space (rs : List Reservation) (name : String) :
    (rs.map Reservation.space).countP (·.1 == name) = rs.countP (·.name == name) :=
  List.countP_map

/-- The reservations of a name are numbered from zero on. -/
theorem mem_labels (reserved : Reserved rs) {label : String} :
    label ∈ rs.map (·.label) ↔
      ∃ name n, n < rs.countP (·.name == name) ∧ label = numberedLabel name n := by
  induction reserved with
  | none => simp
  | @more rs name t count reserved fresh ih =>
      rw [List.map_append, List.mem_append, ih, List.map_singleton, List.mem_singleton]
      constructor
      · rintro (⟨other, n, below, rfl⟩ | rfl)
        · refine ⟨other, n, ?_, rfl⟩
          rw [List.countP_append]
          omega
        · refine ⟨name, _, ?_, rfl⟩
          simp [List.countP_append]
      · rintro ⟨other, n, below, rfl⟩
        by_cases old : n < rs.countP (·.name == other)
        · exact .inl ⟨other, n, old, rfl⟩
        · right
          rw [List.countP_append, List.countP_singleton] at below
          split at below
          · rename_i same
            obtain rfl : name = other := beq_iff_eq.mp same
            rw [show n = rs.countP (·.name == name) by omega]
          · omega

/-- One more reservation clashes with those in front of it exactly if its label is taken. -/
theorem clash_more {name : String} {t : Ty} {count : Nat} (reserved : Reserved rs) :
    Clash (rs.map Reservation.space ++ [(name, t, count)]) ↔ Clash (rs.map Reservation.space) ∨
      numberedLabel name (rs.countP (·.name == name)) ∈ rs.map (·.label) := by
  have counts (other : String) :
      (rs.map Reservation.space ++ [(name, t, count)]).countP (·.1 == other) =
        rs.countP (·.name == other) + if name = other then 1 else 0 := by
    rw [List.countP_append, countP_space, List.countP_singleton]
    simp only [beq_iff_eq]
  rw [reserved.mem_labels]
  unfold Clash
  simp only [counts, countP_space]
  constructor
  · rintro ⟨other, n, positive, below, there⟩
    by_cases old : n < rs.countP (·.name == other)
    · by_cases here : 0 < rs.countP (·.name == numberedName other n)
      · exact .inl ⟨other, n, positive, old, here⟩
      · have takes : name = numberedName other n := by
          by_contra differ
          rw [if_neg differ] at there
          omega
        refine .inr ⟨other, n, old, numberedLabel_eq_iff.mpr (.inr (.inl ⟨?_, positive, takes⟩))⟩
        rw [takes]
        omega
    · have same : name = other := by
        by_contra differ
        rw [if_neg differ] at below
        omega
      subst same
      rw [if_pos rfl] at below
      rw [if_neg (numberedName_ne name n).symm] at there
      obtain rfl : n = rs.countP (·.name == name) := by omega
      exact .inr ⟨_, 0, there, numberedLabel_eq_iff.mpr (.inr (.inr ⟨rfl, positive, rfl⟩))⟩
  · rintro (⟨other, n, positive, below, there⟩ | ⟨other, n, below, same⟩)
    · exact ⟨other, n, positive, Nat.lt_add_right _ below, Nat.lt_add_right _ there⟩
    · rcases numberedLabel_eq_iff.mp same with ⟨rfl, is⟩ | ⟨-, positive, rfl⟩ | ⟨rfl, positive, rfl⟩
      · omega
      · exact ⟨other, n, positive, Nat.lt_add_right _ below, by simp⟩
      · exact ⟨name, _, positive, by simp, Nat.lt_add_right _ below⟩

/-- The labels are different exactly if no name clashes with another. -/
theorem nodup_iff (reserved : Reserved rs) :
    (rs.map (·.label)).Nodup ↔ ¬ Clash (rs.map Reservation.space) := by
  induction reserved with
  | none => simp [Clash]
  | @more rs name t count reserved fresh ih =>
      have one : [Reservation.mk name t count
          (numberedLabel name (rs.countP (·.name == name)))].map Reservation.space =
          [(name, t, count)] := rfl
      rw [List.map_append, List.map_append, one, reserved.clash_more, not_or, ← ih,
        List.nodup_append']
      exact and_congr_right fun _ =>
        ⟨fun apart => List.disjoint_singleton.mp apart.2,
          fun free => ⟨List.nodup_singleton _, List.disjoint_singleton.mpr free⟩⟩

end Reserved

theorem Clash.perm {xs ys : List Space} (perm : xs.Perm ys) : Clash xs ↔ Clash ys := by
  unfold Clash
  simp only [perm.countP_eq]

/-! ### The variables of the top-level code -/

end BraceLang.Assembly

namespace BraceLang

open Assembly

/-- The space that a variable needs. -/
def Declaration.space (d : Declaration) : Space := (d.name.val, d.stored, valueCount d.length)

end BraceLang

namespace BraceLang.Assembly

variable {iface : Interface} {s s' s'' : State} {ds ds' : List Declaration}

/-- The reservations with those of more variables. -/
def reserveAll (rs : List Reservation) (ds : List Declaration) : List Reservation :=
  ds.foldl (fun rs d => (reserveSpace rs d.name.val d.stored (valueCount d.length)).2) rs

theorem Reserved.reserveAll {rs : List Reservation} (reserved : Reserved rs)
    (ds : List Declaration) : Reserved (reserveAll rs ds) := by
  induction ds generalizing rs with
  | nil => exact reserved
  | cons d ds ih => exact ih (reserved.reserveSpace _ _ _)

theorem mem_reserveAll (rs : List Reservation) (ds : List Declaration) (x : Space) :
    x ∈ (reserveAll rs ds).map Reservation.space ↔
      x ∈ rs.map Reservation.space ∨ x ∈ ds.map Declaration.space := by
  induction ds generalizing rs with
  | nil => simp [reserveAll]
  | cons d ds ih =>
      rw [reserveAll, List.foldl_cons, ← reserveAll, ih, List.map_cons, List.mem_cons, ← or_assoc]
      refine or_congr_left ?_
      rcases reserveSpace_made rs d.name.val d.stored (valueCount d.length) with
        ⟨there, is⟩ | ⟨-, is⟩
      · rw [is]
        exact ⟨.inl, fun known => known.elim id fun here => here ▸ there⟩
      · rw [is, List.map_append, List.mem_append, List.map_singleton, List.mem_singleton]
        rfl

/-- There is one reservation for each space that is needed. -/
theorem reserveAll_perm (ds : List Declaration) :
    ((reserveAll [] ds).map Reservation.space).Perm (ds.map Declaration.space).dedup := by
  refine (List.perm_ext_iff_of_nodup (Reserved.none.reserveAll ds).spaces_nodup
    (List.nodup_dedup _)).mpr fun x => ?_
  rw [mem_reserveAll, List.mem_dedup]
  simp

/-- What making code for some variables does to the reservations: nothing in a function, which
keeps its variables in its frame. -/
structure MakesSpace (s : State) (ds : List Declaration) (s' : State) : Prop where
  frame : s'.frame.isSome = s.frame.isSome
  reservations : s'.reservations =
    if s.frame.isSome then s.reservations else reserveAll s.reservations ds

namespace MakesSpace

theorem of_same (frame : s'.frame = s.frame) (reservations : s'.reservations = s.reservations) :
    MakesSpace s [] s' where
  frame := congrArg Option.isSome frame
  reservations := reservations.trans (ite_self _).symm

theorem grow (grows : s.Grows s') : MakesSpace s [] s' := of_same grows.frame grows.reservations

theorem append (one : MakesSpace s ds s') (other : MakesSpace s' ds' s'') :
    MakesSpace s (ds ++ ds') s'' where
  frame := other.frame.trans one.frame
  reservations := by
    rw [other.reservations, one.frame, one.reservations]
    split
    · rfl
    · exact List.foldl_append.symm

end MakesSpace

/-- The variables that an action declares. -/
def Action.declared : Action → List Declaration
  | declare d => [d]
  | test _ | assign .. | call .. | finish _ => []

/-- The variables that the code of a part declares. -/
def Part.locals : Part → List Declaration
  | one x => x.locals
  | all body => Stmt.localsIn body

theorem locals_toList (part : Option Stmt) :
    (Part.all part.toList).locals = Stmt.localsBy part := by
  cases part with
  | none => rfl
  | some x => exact List.append_nil _

theorem locals_of_action {x : Stmt} {action : Action} (is : Stmt.action? x = some action) :
    x.locals = action.declared := by
  cases x with
  | declare | assign | call =>
      obtain rfl := Option.some.inj is
      rfl
  | _ => contradiction

theorem MakesSpace.declaration {d : Declaration} {lines : List Line}
    (done : Done (Assembly.declaration iface d) s lines s') : MakesSpace s [d] s' := by
  obtain ⟨slot, middle, allocated, rfl⟩ := done_declaration_allocates done
  have first : MakesSpace s [] (s.afterInit iface d) := grow (grows_afterInit s d)
  refine first.append ?_
  rcases done_allocate_cases allocated with ⟨f, size, offset, framed, -, -, rfl⟩ | ⟨top, -, rfl⟩
  · refine ⟨?_, ?_⟩
    · rw [framed]
      rfl
    · rw [framed]
      rfl
  · refine ⟨rfl, ?_⟩
    rw [top]
    rfl

theorem makesSpace_emit {action : Action} {lines : List Line}
    (made : Done (action.emit iface) s lines s') : MakesSpace s action.declared s' := by
  cases action with
  | declare d => exact .declaration made
  | test cond =>
      obtain ⟨-, rfl⟩ := done_action made
      exact .grow (growing_expr iface cond s)
  | assign target index value =>
      obtain ⟨-, rfl⟩ := done_action made
      exact .grow (growing_assignment target.val index value s)
  | call callee args =>
      obtain ⟨-, rfl⟩ := done_action made
      exact .grow (growing_callStmt callee.val args s)
  | finish value =>
      obtain ⟨-, rfl⟩ := done_action made
      rw [resultLines_eq]
      cases value with
      | some e => exact .grow (growing_expr iface e s)
      | none => exact .of_same rfl rfl

/-- Space is made for the variables of a part in the order of the code. -/
theorem Outline.makesSpace {targets : Option Targets} {part : Part} {pieces : List Piece}
    (outline : Outline iface targets part s pieces s') : MakesSpace s part.locals s' := by
  have tests {cond s lines s'} (made : testLines iface cond s = (lines, s')) :
      MakesSpace s [] s' :=
    makesSpace_emit (show Done (Action.emit iface (.test cond)) s lines s' from done_of_eq made)
  have opens (s : State) : MakesSpace s [] (openScope s).2 := .of_same rfl rfl
  have closes (s : State) : MakesSpace s [] (closeScope s).2 := .of_same rfl rfl
  have fresh (s : State) : MakesSpace s [] s.fresh := .of_same rfl rfl
  induction outline with
  | nil | breakLoop | continueLoop => exact .of_same rfl rfl
  | @function _ x _ is => cases x with
      | prototype | define => exact .of_same rfl rfl
      | _ => contradiction
  | cons _ _ one all => exact one.append all
  | act is made =>
      rw [Part.locals, locals_of_action is]
      exact makesSpace_emit made
  | block _ inside =>
      have all := ((opens _).append inside).append (closes _)
      simpa [Part.locals, Stmt.locals] using all
  | ifThen made _ inside =>
      have all := ((((fresh _).append (tests made)).append (opens _)).append inside).append
        (closes _)
      simpa [Part.locals, Stmt.locals] using all
  | ifElse made _ _ inside otherwise =>
      have first := ((((fresh _).append (tests made)).append (opens _)).append inside).append
        (closes _)
      have all := (((first.append (fresh _)).append (opens _)).append otherwise).append (closes _)
      simpa [Part.locals, Stmt.locals] using all
  | whileLoop made _ inside =>
      have all := (((((fresh _).append (fresh _)).append (tests made)).append (opens _)).append
        inside).append (closes _)
      simpa [Part.locals, Stmt.locals] using all
  | forLoop _ made _ _ starts inside updates =>
      rw [locals_toList] at starts updates
      have entered := (((((opens _).append starts).append (fresh _)).append (fresh _)).append
        (fresh _)).append (tests made)
      have all := ((((entered.append (opens _)).append inside).append (closes _)).append
        updates).append (closes _)
      simpa [Part.locals, Stmt.locals] using all
  | returnValue made => exact makesSpace_emit made

/-- Functions reserve no space, and leave no frame behind. -/
theorem makesSpace_routine {h : Heading} {body : List Stmt} {r : Routine}
    (done : Done (routine iface h body) s r s') :
    s'.reservations = s.reservations ∧ s'.frame = none := by
  obtain ⟨size, inner, filled, event, inside, -, rfl⟩ := done_routine_made done
  refine ⟨?_, rfl⟩
  have framed : (enterRoutine h s).2.frame = some { result := typeOf h.result.val } :=
    frame_declareParams h.params firstArgument _
  have filling := inside.makesSpace.reservations
  rw [framed] at filling
  exact filling.trans (enterRoutine_records h s).1.reservations

theorem reservations_routines (body : List Stmt) {rs : List Routine} {s s' : State}
    (done : Done (routines iface body) s rs s') : s'.reservations = s.reservations := by
  induction body generalizing s rs with
  | nil =>
      rw [routines] at done
      rw [(done_pure done).2]
  | cons x rest ih =>
      obtain ⟨_, _, _, _, _, _, -, made, made', -⟩ | ⟨-, skips⟩ := done_routines_cons done
      · exact (ih made').trans (makesSpace_routine made).1
      · exact ih skips

/-- Space is reserved for the variables of the top-level code, in the order of the code. -/
theorem reservations_listing {p : Program} {l : Listing} (assembled : p.assemble.1 = .ok l) :
    l.reservations = reserveAll [] (Stmt.localsIn p.stmts) := by
  obtain ⟨inner, s, s', inside, routed, -, -, -, reservations⟩ := done_listing_made assembled
  have finished : (finish (Interface.ofProgram p) s).2.reservations = s.reservations :=
    (growing_finish s).reservations
  have top : s.reservations = reserveAll [] (Stmt.localsIn p.stmts) :=
    inside.makesSpace.reservations
  rw [reservations, reservations_routines p.stmts routed, finished, top]

/-! ### The text -/

/-- Reservations define their labels. -/
theorem countP_reservations (rs : List Reservation) (label : String) :
    (rs.map Reservation.row ++ [blank]).countP (·.defines label) =
      (rs.map (·.label)).count label := by
  have other : (blank.defines label) = false := rfl
  rw [List.countP_append, List.countP_singleton, other, List.countP_map, List.count,
    List.countP_map]
  rfl

/-- There is one reservation for each name with its types and lengths. Their labels are different
exactly if no name clashes with the numbered label of another, and it is just then that the text
defines no label of the section twice. -/
theorem storageLabels_nodup_iff {p : Program} {l : Listing} (assembled : p.assemble.1 = .ok l) :
    let spaces := ((Stmt.localsIn p.stmts).map Declaration.space).dedup
    (l.reservations.map Reservation.space).Perm spaces ∧
      ((l.reservations.map (·.label)).Nodup ↔ ¬ Clash spaces) ∧
      (p.hasOrdinaryLexemes = true →
        ((∀ label, (sectionRows ".bss" (rows l.render)).countP (·.defines label) ≤ 1) ↔
          ¬ Clash spaces)) := by
  have is := reservations_listing assembled
  have perm := reserveAll_perm (Stmt.localsIn p.stmts)
  rw [← is] at perm
  have labels : (l.reservations.map (·.label)).Nodup ↔
      ¬ Clash ((Stmt.localsIn p.stmts).map Declaration.space).dedup := by
    rw [← Clash.perm perm, is]
    exact (Reserved.none.reserveAll _).nodup_iff
  refine ⟨perm, labels, fun ordinary => ?_⟩
  rw [bssRows_render (ordinary_listing assembled ordinary), ← labels, List.nodup_iff_count_le_one]
  simp only [countP_reservations]

/-- Declarations of one name with two types, and of a name with an underscore and a number. -/
def underscored (number : String) : Program where
  stmts :=
    [.declare {} ⟨⟨"int", {}⟩, ⟨"x" ++ "_" ++ number, {}⟩, none, none⟩,
      .block {} [.declare {} ⟨⟨"int", {}⟩, ⟨"x", {}⟩, none, none⟩,
        .block {} [.declare {} ⟨⟨"double", {}⟩, ⟨"x", {}⟩, none, none⟩]]]

theorem underscored_labels : ∃ l, (underscored "2").assemble.1 = .ok l ∧
    (l.reservations.map (·.label)).Nodup ∧
    ∀ label, (sectionRows ".bss" (rows l.render)).countP (·.defines label) ≤ 1 := by
  have spaces : ((Stmt.localsIn (underscored "2").stmts).map Declaration.space).dedup =
      [("x_2", .int, 1), ("x", .int, 1), ("x", .double, 1)] := by decide +kernel
  -- Only the number 1 is taken by a later reservation of the one name that has two.
  have free : ¬ Clash [("x_2", .int, 1), ("x", .int, 1), ("x", .double, 1)] := by
    rintro ⟨name, n, positive, below, there⟩
    by_cases twice : name = "x"
    · subst twice
      have two : List.countP (fun x : Space => x.1 == "x")
          [("x_2", .int, 1), ("x", .int, 1), ("x", .double, 1)] = 2 := by decide
      rw [two] at below
      obtain rfl : n = 1 := by omega
      exact absurd there (by decide +kernel)
    · simp only [List.countP_cons, List.countP_nil, beq_iff_eq, Ne.symm twice, if_false] at below
      split at below <;> omega
  have made : (underscored "2").assemble.1.toOption.isSome = true := by decide +kernel
  cases assembled : (underscored "2").assemble.1 with
  | error fault =>
      rw [assembled] at made
      contradiction
  | ok l =>
      obtain ⟨-, labels, text⟩ := storageLabels_nodup_iff assembled
      rw [spaces] at labels text
      exact ⟨l, rfl, labels.mpr free, (text (by decide)).mpr free⟩

end BraceLang.Assembly

namespace BraceLang

open Assembly

/-- The program is accepted, code is made for it, and the section of its variables defines a label
twice. -/
def Program.DefinesTwice (p : Program) (label : String) : Prop :=
  p.check.diagnostics.hasErrors = false ∧ ∃ l, p.assemble.1 = .ok l ∧
    (sectionRows ".bss" (rows l.render)).countP (·.defines label) = 2

/-- A name that is numbered already takes the label of another variable. -/
theorem numbered_taken : (underscored "1").DefinesTwice "v_x_1" := by
  have accepted : (underscored "1").check.diagnostics.hasErrors = false := by decide +kernel
  have made : ((underscored "1").assemble.1.toOption.map fun l => l.reservations.map (·.label)) =
      some ["v_x_1", "v_x", "v_x_1"] := by decide +kernel
  refine ⟨accepted, ?_⟩
  cases assembled : (underscored "1").assemble.1 with
  | error fault =>
      rw [assembled] at made
      contradiction
  | ok l =>
      rw [assembled] at made
      refine ⟨l, rfl, ?_⟩
      rw [bssRows_render (ordinary_listing assembled (by decide)), countP_reservations,
        show l.reservations.map (·.label) = _ from Option.some.inj made]
      decide

end BraceLang
