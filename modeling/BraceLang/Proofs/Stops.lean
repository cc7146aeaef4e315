/-!
Machines that take one step after the other until they stop, and what it takes for two of them
to stop alike.

* **`Simulation.stops_iff`**: if every step of one machine is answered by a step of the other,
  or else brings the first one closer to such a step, both stop with the same outcomes;
* **`SameRuns.of_stops_iff`**: so both of them stop with one outcome, or neither stops;
* **`stateAfter_eq`**: if they take the same steps wherever an invariant holds, they are in the
  same state after any number of steps;
* **`Tracking.performs`**, **`Tracking.performs_back`**: if besides a step and its answer are one
  act, whatever one machine has done on the way to a state or an outcome, so has the other.
-/

namespace BraceLang

variable {σ τ ω α : Type}

/-- A machine stops with an outcome: at once, or after a step to a state where it stops. -/
inductive Stops (step : σ → σ ⊕ ω) : σ → ω → Prop where
  | now {s : σ} {o : ω} : step s = .inr o → Stops step s o
  | later {s s' : σ} {o : ω} : step s = .inl s' → Stops step s' o → Stops step s o

/-- A machine goes on for ever. -/
def Diverges (step : σ → σ ⊕ ω) (s : σ) : Prop := ∀ o, ¬ Stops step s o

/-- The state after so many steps, if the machine takes that many. -/
def stateAfter (step : σ → σ ⊕ ω) : Nat → σ → Option σ
  | 0, s => some s
  | k + 1, s =>
      match step s with
      | .inl s' => stateAfter step k s'
      | .inr _ => none

/-- A machine comes from one state to another. -/
def Reaches (step : σ → σ ⊕ ω) (s s' : σ) : Prop := ∃ k, stateAfter step k s = some s'

/-- Two machines both go on for ever, or both stop with one outcome. -/
def SameRuns (step : σ → σ ⊕ ω) (s : σ) (step' : τ → τ ⊕ ω) (t : τ) : Prop :=
  (Diverges step s ∧ Diverges step' t) ∨ ∃ o, Stops step s o ∧ Stops step' t o

namespace Stops

/-- What a machine does before it takes a step, it does after it. -/
theorem of_later {step : σ → σ ⊕ ω} {s s' : σ} {o : ω} (first : step s = .inl s')
    (stops : Stops step s o) : Stops step s' o := by
  cases stops with
  | now last => simp [first] at last
  | later next rest =>
      obtain rfl : s' = _ := Sum.inl.inj (first.symm.trans next)
      exact rest

/-- A machine has one outcome at most. -/
theorem unique {step : σ → σ ⊕ ω} {s : σ} {o o' : ω} (stops : Stops step s o)
    (stops' : Stops step s o') : o = o' := by
  induction stops with
  | now last =>
      cases stops' with
      | now last' => exact Sum.inr.inj (last.symm.trans last')
      | later next _ => simp [last] at next
  | later first _ ih => exact ih (stops'.of_later first)

end Stops

/-- Runs a machine for so many steps. -/
def runFor (step : σ → σ ⊕ ω) : Nat → σ → Option ω
  | 0, _ => none
  | fuel + 1, s =>
      match step s with
      | .inl s' => runFor step fuel s'
      | .inr o => some o

theorem Stops.of_runFor {step : σ → σ ⊕ ω} {o : ω} (fuel : Nat) {s : σ}
    (ran : runFor step fuel s = some o) : Stops step s o := by
  induction fuel generalizing s with
  | zero => contradiction
  | succ fuel ih =>
      unfold runFor at ran
      split at ran
      · rename_i next
        exact .later next (ih ran)
      · rename_i last
        obtain rfl := Option.some.inj ran
        exact .now last

/-- A machine gets from one state to another, so whatever it does there, it does here. -/
def Leads (step : σ → σ ⊕ ω) (s s' : σ) : Prop := ∀ o, Stops step s' o → Stops step s o

namespace Leads

variable {step : σ → σ ⊕ ω} {s s' s'' : σ}

theorem refl (s : σ) : Leads step s s := fun _ stops => stops

theorem of_step (first : step s = .inl s') : Leads step s s' := fun _ stops => .later first stops

theorem trans (first : Leads step s s') (second : Leads step s' s'') : Leads step s s'' :=
  fun o stops => first o (second o stops)

end Leads

/-- Every step of the first machine is answered by a step of the second, or brings the rank
down while the second one waits; and both stop together. -/
structure Simulation (step : σ → σ ⊕ ω) (step' : τ → τ ⊕ ω) (R : σ → τ → Prop)
    (rank : σ → Nat) : Prop where
  progress : ∀ {s t}, R s t →
    (∃ s', step s = .inl s' ∧ R s' t ∧ rank s' < rank s) ∨
    (∃ s' t', step s = .inl s' ∧ step' t = .inl t' ∧ R s' t') ∨
    (∃ o, step s = .inr o ∧ step' t = .inr o)

namespace Simulation

variable {step : σ → σ ⊕ ω} {step' : τ → τ ⊕ ω} {R : σ → τ → Prop} {rank : σ → Nat}

theorem stops (sim : Simulation step step' R rank) {s : σ} {t : τ} {o : ω} (related : R s t)
    (stops : Stops step s o) : Stops step' t o := by
  induction stops generalizing t with
  | now last =>
      rcases sim.progress related with ⟨_, next, _⟩ | ⟨_, _, next, _⟩ | ⟨o', last', final⟩
      · simp [last] at next
      · simp [last] at next
      · obtain rfl : _ = o' := Sum.inr.inj (last.symm.trans last')
        exact .now final
  | later first _ ih =>
      rcases sim.progress related with ⟨s', next, waits, _⟩ | ⟨s', t', next, answer, related'⟩ |
        ⟨_, last, _⟩
      · obtain rfl : _ = s' := Sum.inl.inj (first.symm.trans next)
        exact ih waits
      · obtain rfl : _ = s' := Sum.inl.inj (first.symm.trans next)
        exact .later answer (ih related')
      · simp [first] at last

/-- The rank excludes that the first machine goes on for ever while the second one waits. -/
theorem stops_back (sim : Simulation step step' R rank) {t : τ} {o : ω}
    (stops : Stops step' t o) : ∀ {s : σ}, R s t → Stops step s o := by
  induction stops with
  | @now t o final =>
      intro s related
      induction measure : rank s using Nat.strongRecOn generalizing s with
      | ind n ih =>
          rcases sim.progress related with ⟨s', next, waits, less⟩ | ⟨_, _, _, answer, _⟩ |
            ⟨o', last, final'⟩
          · exact .later next (ih (rank s') (measure ▸ less) waits rfl)
          · simp [final] at answer
          · obtain rfl : o = o' := Sum.inr.inj (final.symm.trans final')
            exact .now last
  | @later t t₁ o answer _ ihStops =>
      intro s related
      induction measure : rank s using Nat.strongRecOn generalizing s with
      | ind n ih =>
          rcases sim.progress related with ⟨s', next, waits, less⟩ |
            ⟨s', t', next, answer', related'⟩ | ⟨_, _, final⟩
          · exact .later next (ih (rank s') (measure ▸ less) waits rfl)
          · obtain rfl : t₁ = t' := Sum.inl.inj (answer.symm.trans answer')
            exact .later next (ihStops related')
          · simp [answer] at final

/-- Related states stop with the same outcomes. -/
theorem stops_iff (sim : Simulation step step' R rank) {s : σ} {t : τ} (related : R s t) (o : ω) :
    Stops step s o ↔ Stops step' t o :=
  ⟨sim.stops related, fun stops => sim.stops_back stops related⟩

end Simulation

/-- Machines with the same outcomes run alike. -/
theorem SameRuns.of_stops_iff {step : σ → σ ⊕ ω} {step' : τ → τ ⊕ ω} {s : σ} {t : τ}
    (same : ∀ o, Stops step s o ↔ Stops step' t o) : SameRuns step s step' t := by
  by_cases stops : ∃ o, Stops step s o
  · obtain ⟨o, stops⟩ := stops
    exact .inr ⟨o, stops, (same o).mp stops⟩
  · refine .inl ⟨fun o h => stops ⟨o, h⟩, fun o h => stops ⟨o, (same o).mpr h⟩⟩

/-! ### States on the way -/

theorem stateAfter_succ {step : σ → σ ⊕ ω} {s s' : σ} (first : step s = .inl s') (k : Nat) :
    stateAfter step (k + 1) s = stateAfter step k s' := by
  simp only [stateAfter, first]

/-- Machines that take the same steps wherever an invariant holds stay together, and the
invariant goes on to hold. -/
theorem stateAfter_eq {step step' : σ → σ ⊕ ω} {P : σ → Prop}
    (alike : ∀ {s}, P s → step' s = step s)
    (kept : ∀ {s s'}, P s → step s = .inl s' → P s') (k : Nat) {s : σ} (inv : P s) :
    stateAfter step' k s = stateAfter step k s ∧ ∀ t, stateAfter step k s = some t → P t := by
  induction k generalizing s with
  | zero =>
      refine ⟨rfl, fun t same => ?_⟩
      obtain rfl := Option.some.inj same
      exact inv
  | succ k ih =>
      simp only [stateAfter, alike inv]
      cases stepped : step s with
      | inl s' => exact ih (kept inv stepped)
      | inr o => exact ⟨rfl, by simp⟩

namespace Reaches

variable {step : σ → σ ⊕ ω} {s s' s'' : σ}

theorem refl (s : σ) : Reaches step s s := ⟨0, rfl⟩

theorem head (first : step s = .inl s') (rest : Reaches step s' s'') : Reaches step s s'' := by
  obtain ⟨k, reached⟩ := rest
  exact ⟨k + 1, (stateAfter_succ first k).trans reached⟩

theorem of_step (first : step s = .inl s') : Reaches step s s' := head first (refl s')

theorem trans (first : Reaches step s s') (second : Reaches step s' s'') :
    Reaches step s s'' := by
  obtain ⟨k, reached⟩ := first
  induction k generalizing s with
  | zero =>
      obtain rfl := Option.some.inj reached
      exact second
  | succ k ih =>
      simp only [stateAfter] at reached
      split at reached
      · rename_i next
        exact head next (ih reached)
      · contradiction

/-- What every step keeps holds of whatever is reached. -/
theorem invariant {P : σ → Prop} (kept : ∀ {s s'}, P s → step s = .inl s' → P s')
    (reached : Reaches step s s') (start : P s) : P s' := by
  obtain ⟨k, reached⟩ := reached
  exact (stateAfter_eq (fun _ => rfl) kept k start).2 s' reached

/-- There is one state at most in which a run stops. -/
theorem unique {o o' : ω} (first : Reaches step s s') (last : step s' = .inr o)
    (second : Reaches step s s'') (last' : step s'' = .inr o') : s' = s'' := by
  obtain ⟨k, reached⟩ := first
  obtain ⟨j, reached'⟩ := second
  induction k generalizing s j with
  | zero =>
      obtain rfl := Option.some.inj reached
      cases j with
      | zero => exact Option.some.inj reached'
      | succ j => simp [stateAfter, last] at reached'
  | succ k ih =>
      simp only [stateAfter] at reached
      split at reached
      · rename_i next
        cases j with
        | zero =>
            obtain rfl := Option.some.inj reached'
            simp [next] at last'
        | succ j => exact ih reached j (by rwa [stateAfter_succ next] at reached')
      · contradiction

end Reaches

/-! ### What is done on the way -/

/-- A machine comes from a state to another one, or to an outcome, and has done so much by then. -/
inductive Performs (step : σ → σ ⊕ ω) (acts : σ → List α) : σ → List α → σ ⊕ ω → Prop where
  | here (s : σ) : Performs step acts s [] (.inl s)
  | last {s : σ} {o : ω} : step s = .inr o → Performs step acts s (acts s) (.inr o)
  | later {s s' : σ} {done : List α} {r : σ ⊕ ω} : step s = .inl s' →
      Performs step acts s' done r → Performs step acts s (acts s ++ done) r

namespace Performs

variable {step : σ → σ ⊕ ω} {acts : σ → List α} {s s' : σ} {done done' : List α} {r : σ ⊕ ω}

theorem trans (first : Performs step acts s done (.inl s'))
    (rest : Performs step acts s' done' r) : Performs step acts s (done ++ done') r := by
  generalize reached : (Sum.inl s' : σ ⊕ ω) = middle at first
  induction first with
  | here s =>
      obtain rfl := Sum.inl.inj reached
      exact rest
  | last _ => contradiction
  | later next _ ih =>
      rw [List.append_assoc]
      exact .later next (ih reached)

end Performs

/-- A machine stops with an outcome just if it comes to it in some way. -/
theorem stops_iff_performs {step : σ → σ ⊕ ω} (acts : σ → List α) {s : σ} {o : ω} :
    Stops step s o ↔ ∃ done, Performs step acts s done (.inr o) := by
  constructor
  · intro stops
    induction stops with
    | now final => exact ⟨_, .last final⟩
    | later next _ ih =>
        obtain ⟨done, rest⟩ := ih
        exact ⟨_, .later next rest⟩
  · rintro ⟨done, performs⟩
    generalize reached : (Sum.inr o : σ ⊕ ω) = r at performs
    induction performs with
    | here _ => contradiction
    | last final =>
        obtain rfl := Sum.inr.inj reached
        exact .now final
    | later next _ ih => exact .later next (ih reached)

/-- A simulation in which a step and its answer are one act, and a step that is not answered does
nothing that counts. -/
structure Tracking (step : σ → σ ⊕ ω) (acts : σ → List α) (step' : τ → τ ⊕ ω)
    (acts' : τ → List α) (R : σ → τ → Prop) (rank : σ → Nat) : Prop where
  progress : ∀ {s t}, R s t →
    (∃ s', step s = .inl s' ∧ R s' t ∧ rank s' < rank s ∧ acts s = []) ∨
    acts' t = acts s ∧
      ((∃ s' t', step s = .inl s' ∧ step' t = .inl t' ∧ R s' t') ∨
        ∃ o, step s = .inr o ∧ step' t = .inr o)

namespace Tracking

variable {step : σ → σ ⊕ ω} {acts : σ → List α} {step' : τ → τ ⊕ ω} {acts' : τ → List α}
  {R : σ → τ → Prop} {rank : σ → Nat} {s : σ} {t : τ} {done : List α}

theorem simulation (tracks : Tracking step acts step' acts' R rank) :
    Simulation step step' R rank where
  progress related := by
    rcases tracks.progress related with ⟨s', next, waits, less, -⟩ | ⟨-, answer⟩
    · exact .inl ⟨s', next, waits, less⟩
    · exact .inr answer

/-- Whatever the first machine does, the second one does. -/
theorem performs (tracks : Tracking step acts step' acts' R rank) {r : σ ⊕ ω} (related : R s t)
    (performs : Performs step acts s done r) :
    ∃ r', Performs step' acts' t done r' ∧ Sum.LiftRel R Eq r r' := by
  induction performs generalizing t with
  | here s => exact ⟨_, .here t, .inl related⟩
  | last final =>
      rcases tracks.progress related with ⟨_, next, _⟩ | ⟨same, ⟨_, _, next, _⟩ | ⟨o, last, final'⟩⟩
      · simp [final] at next
      · simp [final] at next
      · obtain rfl : _ = o := Sum.inr.inj (final.symm.trans last)
        exact ⟨_, same ▸ .last final', .inr rfl⟩
  | later first _ ih =>
      rcases tracks.progress related with ⟨s', next, waits, _, nothing⟩ |
        ⟨same, ⟨s', t', next, answer, related'⟩ | ⟨_, last, _⟩⟩
      · obtain rfl : _ = s' := Sum.inl.inj (first.symm.trans next)
        rw [nothing]
        exact ih waits
      · obtain rfl : _ = s' := Sum.inl.inj (first.symm.trans next)
        obtain ⟨r', rest, alike⟩ := ih related'
        exact ⟨r', same ▸ .later answer rest, alike⟩
      · simp [first] at last

/-- The first machine comes to a step that the second one answers. -/
theorem catches_up (tracks : Tracking step acts step' acts' R rank) (related : R s t) :
    ∃ s₁, Performs step acts s [] (.inl s₁) ∧ acts' t = acts s₁ ∧
      ((∃ s' t', step s₁ = .inl s' ∧ step' t = .inl t' ∧ R s' t') ∨
        ∃ o, step s₁ = .inr o ∧ step' t = .inr o) := by
  induction measure : rank s using Nat.strongRecOn generalizing s with
  | ind n ih =>
      rcases tracks.progress related with ⟨s', next, waits, less, nothing⟩ | answered
      · obtain ⟨s₁, performs, answered⟩ := ih (rank s') (measure ▸ less) waits rfl
        have first : Performs step acts s (acts s ++ []) (.inl s₁) := .later next performs
        rw [nothing] at first
        exact ⟨s₁, first, answered⟩
      · exact ⟨s, .here s, answered⟩

/-- Whatever the second machine does, the first one does. -/
theorem performs_back (tracks : Tracking step acts step' acts' R rank) {r : τ ⊕ ω}
    (performs : Performs step' acts' t done r) :
    ∀ {s : σ}, R s t → ∃ r', Performs step acts s done r' ∧ Sum.LiftRel R Eq r' r := by
  induction performs with
  | here t => exact fun {s} related => ⟨_, .here s, .inl related⟩
  | last final =>
      intro s related
      obtain ⟨s₁, waits, same, ⟨_, _, _, answer, _⟩ | ⟨o, last, final'⟩⟩ :=
        tracks.catches_up related
      · simp [final] at answer
      · obtain rfl : _ = o := Sum.inr.inj (final.symm.trans final')
        exact ⟨_, same ▸ waits.trans (.last last), .inr rfl⟩
  | later answer _ ih =>
      intro s related
      obtain ⟨s₁, waits, same, ⟨s', t', next, answer', related'⟩ | ⟨_, _, final⟩⟩ :=
        tracks.catches_up related
      · obtain rfl : _ = t' := Sum.inl.inj (answer.symm.trans answer')
        obtain ⟨r', rest, alike⟩ := ih related'
        exact ⟨r', same ▸ waits.trans (.later next rest), alike⟩
      · simp [answer] at final

end Tracking

end BraceLang
