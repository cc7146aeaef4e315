import BraceLang.Proofs.Trees

/-!
Going through trees. Checking, lowering and making code come to the parts of a tree in one order,
and each of them keeps a state of its own on the way. The order is a list of moves, which depends
on the tree only. A pass says what a move does to a state, and may stop at it.

The trace of a pass has a spot for each move that the pass comes to, with the state that it comes
there in. What is noted on the way through a program is read off its trace.

* **`run_append`** and **`trace_append`**: a part of the moves is gone through on its own;
* **`reached`**: a spot is where the pass gets by the moves in front of it;
* **`move_trace`**: no move is left out, unless the pass stops;
* **`run_keeps_deep`**: what moves keep at each depth of open scopes is there at the end, and as
  `depth_moves` says, a statement ends at the depth that it starts at.
-/

namespace BraceLang

/-- The statement has no other statements in it. -/
def Stmt.isSingle : Stmt → Bool
  | .declare .. | .prototype .. | .assign .. | .call .. | .breakLoop _ | .continueLoop _
  | .returnValue .. => true
  | .define .. | .block .. | .ifThen .. | .ifElse .. | .whileLoop .. | .forLoop .. => false

/-- A move on the way through a tree. -/
inductive Move where
  /-- One of some statements is next. -/
  | next (x : Stmt)
  /-- A statement without other statements in it. -/
  | single (x : { x : Stmt // x.isSingle = true })
  /-- A function whose body is not gone into. -/
  | passBy (h : Heading) (braces : Braces) (body : List Stmt)
  | enterBody (h : Heading) (braces : Braces)
  | leaveBody (h : Heading) (braces : Braces)
  | enter (braces : Braces)
  | leave (braces : Braces)
  /-- The condition of a statement that has an `else` or not. -/
  | branch (cond : Expr) (hasElse : Bool)
  | otherwise
  /-- The end of a statement that has branched. -/
  | join
  | whileTest (loop : Stmt) (cond : Expr)
  | whileEnd
  | forStart
  | forTest (loop : Stmt) (cond : Expr)
  | forUpdate
  | forEnd

/-- The move is one between statements: nothing is declared at it and no function starts or ends. -/
def Move.isBetween : Move → Bool
  | .single _ | .passBy .. | .enterBody .. | .leaveBody .. => false
  | _ => true

/-- What a move does to the scopes that are open. -/
inductive Scoping where
  | opens
  | closes
  | stays

def Move.scoping : Move → Scoping
  | .enterBody .. | .enter _ | .forStart => .opens
  | .leaveBody .. | .leave _ | .forEnd => .closes
  | _ => .stays

/-- Open scopes, innermost first, with one that is opened or closed if a move does so. -/
def Move.scopes {α : Type} (m : Move) (fresh : α) (scopes : List α) : List α :=
  match m.scoping with
  | .opens => fresh :: scopes
  | .closes => scopes.tail
  | .stays => scopes

namespace Stmt

/-- The moves of a block, whose braces are around the moves of its statements. -/
def movesBetween (braces : Braces) (inside : List Move) : List Move :=
  .enter braces :: inside ++ [.leave braces]

mutual

/-- The moves through a statement; `deep` says whether bodies of functions are gone into. -/
def moves (deep : Bool) : Stmt → List Move
  | .define h braces body =>
      if deep then .enterBody h braces :: movesIn deep body ++ [.leaveBody h braces]
      else [.passBy h braces body]
  | .block braces body => movesBetween braces (movesIn deep body)
  | .ifThen cond braces body =>
      .branch cond false :: movesBetween braces (movesIn deep body) ++ [.join]
  | .ifElse cond braces body elseBraces elseBody =>
      .branch cond true :: movesBetween braces (movesIn deep body) ++
        .otherwise :: movesBetween elseBraces (movesIn deep elseBody) ++ [.join]
  | .whileLoop cond braces body =>
      .whileTest (.whileLoop cond braces body) cond ::
        movesBetween braces (movesIn deep body) ++ [.whileEnd]
  | .forLoop init cond update braces body =>
      .forStart :: movesBy deep init ++
        .forTest (.forLoop init cond update braces body) cond ::
          movesBetween braces (movesIn deep body) ++
        .forUpdate :: movesBy deep update ++ [.forEnd]
  | .declare site d => [.single ⟨.declare site d, rfl⟩]
  | .prototype site h => [.single ⟨.prototype site h, rfl⟩]
  | .assign site target index value => [.single ⟨.assign site target index value, rfl⟩]
  | .call site callee args => [.single ⟨.call site callee args, rfl⟩]
  | .breakLoop site => [.single ⟨.breakLoop site, rfl⟩]
  | .continueLoop site => [.single ⟨.continueLoop site, rfl⟩]
  | .returnValue site value => [.single ⟨.returnValue site value, rfl⟩]

/-- The moves through a part of a `for` header. -/
def movesBy (deep : Bool) : Option Stmt → List Move
  | none => []
  | some x => x.moves deep

def movesIn (deep : Bool) : List Stmt → List Move
  | [] => []
  | x :: rest => .next x :: x.moves deep ++ movesIn deep rest

end

end Stmt

/-- The names of the variables and parameters that are declared at a move. -/
def Move.declared : Move → List String
  | .single x => x.val.declared
  | .enterBody h _ => h.declared
  | _ => []

namespace Stmt

mutual

theorem declared_moves : (x : Stmt) → ((x.moves true).flatMap Move.declared).Perm x.declared
  | .define h _ body => by
      simpa [moves, Move.declared, declared] using (declared_movesIn body).append_left h.declared
  | .block _ body | .ifThen _ _ body | .whileLoop _ _ body => by
      simpa [moves, movesBetween, Move.declared, declared] using declared_movesIn body
  | .ifElse _ _ body _ elseBody => by
      simpa [moves, movesBetween, Move.declared, declared] using
        (declared_movesIn body).append (declared_movesIn elseBody)
  | .forLoop init _ update _ body => by
      -- The update is come to behind the body.
      have parts := (declared_movesIn body).append (declared_movesBy update)
      simpa [moves, movesBetween, Move.declared, declared] using
        (declared_movesBy init).append (parts.trans List.perm_append_comm)
  | .declare .. | .prototype .. | .assign .. | .call .. | .breakLoop _ | .continueLoop _
  | .returnValue .. => by simp [moves, Move.declared]

theorem declared_movesBy : (part : Option Stmt) →
    ((movesBy true part).flatMap Move.declared).Perm (declaredBy part)
  | none => .refl _
  | some x => declared_moves x

theorem declared_movesIn : (body : List Stmt) →
    ((movesIn true body).flatMap Move.declared).Perm (declaredIn body)
  | [] => .refl _
  | x :: rest => by
      simpa [movesIn, Move.declared, declaredIn] using
        (declared_moves x).append (declared_movesIn rest)

end

end Stmt

/-- What the moves do to a state; at some of them a pass may stop. -/
abbrev Pass (σ : Type) := Move → σ → Option σ

/-- A move that a pass comes to, and the state that it comes there in. -/
structure Spot (σ : Type) where
  move : Move
  state : σ

namespace Pass

variable {σ τ : Type}

/-- The state behind some moves, if the pass does not stop. -/
def run (pass : Pass σ) : List Move → σ → Option σ
  | [], s => some s
  | m :: ms, s => (pass m s).bind (pass.run ms)

/-- The moves that a pass comes to. -/
def trace (pass : Pass σ) : List Move → σ → List (Spot σ)
  | [], _ => []
  | m :: ms, s => ⟨m, s⟩ :: (pass m s).elim [] (pass.trace ms)

variable {pass : Pass σ} {ms ms' : List Move} {s s' s'' : σ} {m : Move}

theorem run_cons (step : pass m s = some s') : pass.run (m :: ms) s = pass.run ms s' := by
  rw [run, step]
  rfl

theorem run_singleton (pass : Pass σ) (m : Move) (s : σ) : pass.run [m] s = pass m s :=
  Option.bind_fun_some _

theorem run_append (pass : Pass σ) (ms ms' : List Move) (s : σ) :
    pass.run (ms ++ ms') s = (pass.run ms s).bind (pass.run ms') := by
  induction ms generalizing s with
  | nil => rfl
  | cons m ms ih =>
      rw [List.cons_append, run, run]
      cases pass m s with
      | none => rfl
      | some s' => exact ih s'

theorem run_trans (first : pass.run ms s = some s') (second : pass.run ms' s' = some s'') :
    pass.run (ms ++ ms') s = some s'' := by
  rw [run_append, first]
  exact second

theorem trace_append (pass : Pass σ) (ms ms' : List Move) (s : σ) :
    pass.trace (ms ++ ms') s = pass.trace ms s ++ (pass.run ms s).elim [] (pass.trace ms') := by
  induction ms generalizing s with
  | nil => rfl
  | cons m ms ih =>
      rw [List.cons_append, trace, trace, run, List.cons_append]
      cases pass m s with
      | none => rfl
      | some s' => exact congrArg _ (ih s')

/-- A spot is where a pass gets by the moves in front of it. -/
theorem reached {t : Spot σ} (mem : t ∈ pass.trace ms s) :
    ∃ front rest, ms = front ++ t.move :: rest ∧ pass.run front s = some t.state := by
  induction ms generalizing s with
  | nil => contradiction
  | cons m ms ih =>
      rcases List.mem_cons.mp mem with rfl | later
      · exact ⟨[], ms, rfl, rfl⟩
      · cases step : pass m s with
        | none =>
            rw [step] at later
            contradiction
        | some s' =>
            rw [step] at later
            obtain ⟨front, rest, rfl, ran⟩ := ih later
            exact ⟨m :: front, rest, rfl, (run_cons step).trans ran⟩

/-- From a spot on, the pass goes on to where it ends. -/
theorem goes_on {t : Spot σ} (mem : t ∈ pass.trace ms s) (ran : pass.run ms s = some s') :
    ∃ s₁ rest, pass t.move t.state = some s₁ ∧ pass.run rest s₁ = some s' := by
  obtain ⟨front, rest, rfl, here⟩ := reached mem
  rw [run_append, here, Option.bind_some, run] at ran
  obtain ⟨s₁, step, later⟩ := Option.bind_eq_some_iff.mp ran
  exact ⟨s₁, rest, step, later⟩

/-- No move is left out unless the pass stops. -/
theorem move_trace (ran : pass.run ms s = some s') : (pass.trace ms s).map Spot.move = ms := by
  induction ms generalizing s with
  | nil => rfl
  | cons m ms ih =>
      rw [run] at ran
      obtain ⟨s₁, step, later⟩ := Option.bind_eq_some_iff.mp ran
      rw [trace, step, List.map_cons]
      exact congrArg _ (ih later)

/-- The states that a pass comes to, the last one included. -/
def states (pass : Pass σ) (ms : List Move) (s : σ) : List σ :=
  (pass.trace ms s).map Spot.state ++ (pass.run ms s).toList

/-- What every move keeps holds wherever a pass comes to, and at the end. -/
theorem run_keeps {P : σ → Prop} (keeps : ∀ m s s', pass m s = some s' → P s → P s') (start : P s)
    (ran : pass.run ms s = some s') : P s' := by
  induction ms generalizing s with
  | nil => exact Option.some_inj.mp ran ▸ start
  | cons m ms ih =>
      rw [run] at ran
      obtain ⟨s₁, step, later⟩ := Option.bind_eq_some_iff.mp ran
      exact ih (keeps m s s₁ step start) later

theorem trace_keeps {P : σ → Prop} (keeps : ∀ m s s', pass m s = some s' → P s → P s')
    (start : P s) : ∀ t ∈ pass.trace ms s, P t.state := by
  intro t mem
  obtain ⟨front, rest, -, ran⟩ := reached mem
  exact run_keeps keeps start ran

theorem states_keep {P : σ → Prop} (keeps : ∀ m s s', pass m s = some s' → P s → P s')
    (start : P s) : ∀ s' ∈ pass.states ms s, P s' := by
  intro s' mem
  rcases List.mem_append.mp mem with mem | mem
  · obtain ⟨t, here, rfl⟩ := List.mem_map.mp mem
    exact trace_keeps keeps start t here
  · exact run_keeps keeps start (Option.mem_toList.mp mem)

/-! ### Parts of a state -/

/-- The other pass does to a part of the state what the pass does to it. -/
def Covers (pass : Pass σ) (part : σ → τ) (other : Pass τ) : Prop :=
  ∀ m s s', pass m s = some s' → other m (part s) = some (part s')

theorem Covers.run {part : σ → τ} {other : Pass τ} (covers : Covers pass part other)
    (ran : pass.run ms s = some s') : other.run ms (part s) = some (part s') := by
  induction ms generalizing s with
  | nil => exact congrArg (some ∘ part) (Option.some_inj.mp ran)
  | cons m ms ih =>
      obtain ⟨s₁, step, later⟩ := Option.bind_eq_some_iff.mp ran
      exact (run_cons (covers m s s₁ step)).trans (ih later)

/-- With a part of its state, a spot of a pass is a spot of the pass of this part. -/
theorem Covers.trace {part : σ → τ} {other : Pass τ} (covers : Covers pass part other)
    {t : Spot σ} (mem : t ∈ pass.trace ms s) :
    (⟨t.move, part t.state⟩ : Spot τ) ∈ other.trace ms (part s) := by
  induction ms generalizing s with
  | nil => contradiction
  | cons m ms ih =>
      rw [Pass.trace] at mem ⊢
      rcases List.mem_cons.mp mem with rfl | later
      · exact List.mem_cons_self
      · cases step : pass m s with
        | none =>
            rw [step] at later
            contradiction
        | some s' =>
            rw [step] at later
            rw [covers m s s' step]
            exact List.mem_cons_of_mem _ (ih later)

/-! ### Passes side by side -/

/-- Two passes at once, which go on as long as neither of them stops. -/
def both (first : Pass σ) (second : Pass τ) : Pass (σ × τ) := fun m s =>
  (first m s.1).bind fun a => (second m s.2).map fun b => (a, b)

/-- A pass with a record that is kept on the way. -/
def along {ρ : Type} (pass : Pass σ) (behind : Move → σ → ρ → ρ) : Pass (σ × ρ) := fun m s =>
  (pass m s.1).map fun s' => (s', behind m s.1 s.2)

theorem along_eq_some {ρ : Type} {behind : Move → σ → ρ → ρ} {u u' : σ × ρ} :
    pass.along behind m u = some u' ↔ pass m u.1 = some u'.1 ∧ u'.2 = behind m u.1 u.2 := by
  unfold along
  rw [Option.map_eq_some_iff]
  constructor
  · rintro ⟨s', step, rfl⟩
    exact ⟨step, rfl⟩
  · rintro ⟨step, kept⟩
    exact ⟨u'.1, step, Prod.ext rfl kept.symm⟩

/-- A record does not stop a pass. -/
theorem run_along {ρ : Type} {behind : Move → σ → ρ → ρ} (ran : pass.run ms s = some s') (r : ρ) :
    ∃ r', (pass.along behind).run ms (s, r) = some (s', r') := by
  induction ms generalizing s r with
  | nil =>
      cases ran
      exact ⟨r, rfl⟩
  | cons m ms ih =>
      obtain ⟨s₁, step, later⟩ := Option.bind_eq_some_iff.mp ran
      obtain ⟨r', ends⟩ := ih later (behind m s r)
      exact ⟨r', (run_cons (along_eq_some.mpr ⟨step, rfl⟩)).trans ends⟩

section Both

variable {first : Pass σ} {second : Pass τ} {u u' : σ × τ}

theorem both_eq_some :
    both first second m u = some u' ↔ first m u.1 = some u'.1 ∧ second m u.2 = some u'.2 := by
  unfold both
  constructor
  · intro step
    obtain ⟨a, stepA, step⟩ := Option.bind_eq_some_iff.mp step
    obtain ⟨b, stepB, rfl⟩ := Option.map_eq_some_iff.mp step
    exact ⟨stepA, stepB⟩
  · rintro ⟨stepA, stepB⟩
    rw [stepA, Option.bind_some, stepB]
    rfl

theorem run_both_eq_some : (both first second).run ms u = some u' ↔
    first.run ms u.1 = some u'.1 ∧ second.run ms u.2 = some u'.2 := by
  induction ms generalizing u with
  | nil =>
      rw [run, run, run, Option.some_inj, Option.some_inj, Option.some_inj]
      exact Prod.ext_iff
  | cons m ms ih =>
      rw [run, run, run, Option.bind_eq_some_iff, Option.bind_eq_some_iff, Option.bind_eq_some_iff]
      constructor
      · rintro ⟨u₁, step, later⟩
        obtain ⟨stepA, stepB⟩ := both_eq_some.mp step
        obtain ⟨laterA, laterB⟩ := ih.mp later
        exact ⟨⟨u₁.1, stepA, laterA⟩, u₁.2, stepB, laterB⟩
      · rintro ⟨⟨a, stepA, laterA⟩, b, stepB, laterB⟩
        exact ⟨(a, b), both_eq_some.mpr ⟨stepA, stepB⟩, ih.mpr ⟨laterA, laterB⟩⟩

theorem covers_first : Covers (both first second) Prod.fst first :=
  fun _ _ _ step => (both_eq_some.mp step).1

end Both

/-! ### Scopes -/

/-- The pass that counts the open scopes. It stops where there is none to be closed. -/
def depth : Pass Nat := fun m n =>
  match m.scoping, n with
  | .opens, n => some (n + 1)
  | .closes, n + 1 => some n
  | .closes, 0 => none
  | .stays, n => some n

theorem depth_cases {n n' : Nat} (counted : depth m n = some n') :
    (m.scoping = .opens ∧ n' = n + 1) ∨ (m.scoping = .closes ∧ n = n' + 1) ∨
      (m.scoping = .stays ∧ n' = n) := by
  unfold depth at counted
  cases scoping : m.scoping <;> rw [scoping] at counted
  · exact .inl ⟨rfl, (Option.some_inj.mp counted).symm⟩
  · cases n with
    | zero => contradiction
    | succ n => exact .inr (.inl ⟨rfl, congrArg (· + 1) (Option.some_inj.mp counted)⟩)
  · exact .inr (.inr ⟨rfl, (Option.some_inj.mp counted).symm⟩)

/-- Below the scopes that are counted, nothing changes. -/
theorem drop_scopes {α : Type} {n n' : Nat} (counted : depth m n = some n') (fresh : α) (k : Nat)
    (scopes : List α) : (m.scopes fresh scopes).drop (k + n') = scopes.drop (k + n) := by
  unfold Move.scopes
  obtain ⟨scoping, rfl⟩ | ⟨scoping, rfl⟩ | ⟨scoping, rfl⟩ := depth_cases counted <;> rw [scoping]
  · rfl
  · exact List.drop_tail

variable {deep : Bool}

theorem depth_movesBetween (braces : Braces) {inside : List Move}
    (same : ∀ n, depth.run inside n = some n) (n : Nat) :
    depth.run (Stmt.movesBetween braces inside) n = some n :=
  run_trans ((run_cons rfl).trans (same (n + 1))) rfl

mutual

/-- All scopes that are opened in a statement are closed in it. -/
theorem depth_moves : (x : Stmt) → (n : Nat) → depth.run (x.moves deep) n = some n
  | .define _ _ body, n => by
      rw [Stmt.moves]
      split
      · exact run_trans ((run_cons rfl).trans (depth_movesIn body (n + 1))) rfl
      · rfl
  | .block braces body, n => depth_movesBetween braces (depth_movesIn body) n
  | .ifThen _ braces body, n | .whileLoop _ braces body, n =>
      run_trans ((run_cons rfl).trans (depth_movesBetween braces (depth_movesIn body) n)) rfl
  | .ifElse _ braces body elseBraces elseBody, n => by
      have held := depth_movesBetween braces (depth_movesIn body) n
      have failed := depth_movesBetween elseBraces (depth_movesIn elseBody) n
      exact run_trans (run_trans ((run_cons rfl).trans held) ((run_cons rfl).trans failed)) rfl
  | .forLoop init _ update braces body, n => by
      have started := depth_movesBy init (n + 1)
      have filled := depth_movesBetween braces (depth_movesIn body) (n + 1)
      have updated := depth_movesBy update (n + 1)
      exact run_trans (run_trans (run_trans ((run_cons rfl).trans started)
        ((run_cons rfl).trans filled)) ((run_cons rfl).trans updated)) rfl
  | .declare .., _ | .prototype .., _ | .assign .., _ | .call .., _ | .breakLoop _, _
  | .continueLoop _, _ | .returnValue .., _ => rfl

theorem depth_movesBy : (part : Option Stmt) → (n : Nat) →
    depth.run (Stmt.movesBy deep part) n = some n
  | none, _ => rfl
  | some x, n => depth_moves x n

theorem depth_movesIn : (body : List Stmt) → (n : Nat) →
    depth.run (Stmt.movesIn deep body) n = some n
  | [], _ => rfl
  | x :: rest, n => run_trans ((run_cons rfl).trans (depth_moves x n)) (depth_movesIn rest n)

end

section Deep

variable {P : Nat → σ → Prop} {n n' : Nat}

/-- What the moves keep at each depth holds at the end. -/
theorem run_keeps_deep
    (keeps : ∀ m ∈ ms, ∀ n n' s s', depth m n = some n' → pass m s = some s' → P n s → P n' s')
    (start : P n s) (counts : depth.run ms n = some n') (ran : pass.run ms s = some s') :
    P n' s' := by
  induction ms generalizing n s with
  | nil =>
      cases counts
      cases ran
      exact start
  | cons m ms ih =>
      obtain ⟨n₁, counted, countsLater⟩ := Option.bind_eq_some_iff.mp counts
      obtain ⟨s₁, step, later⟩ := Option.bind_eq_some_iff.mp ran
      have next := keeps m List.mem_cons_self n n₁ s s₁ counted step start
      exact ih (fun m mem => keeps m (List.mem_cons_of_mem _ mem)) next countsLater later

/-- It holds at all spots as well. -/
theorem trace_keeps_deep
    (keeps : ∀ m ∈ ms, ∀ n n' s s', depth m n = some n' → pass m s = some s' → P n s → P n' s')
    (start : P n s) (counts : depth.run ms n = some n') :
    ∀ t ∈ pass.trace ms s, ∃ n, P n t.state := by
  intro t mem
  obtain ⟨front, rest, rfl, ran⟩ := reached mem
  rw [run_append] at counts
  obtain ⟨k, counts, -⟩ := Option.bind_eq_some_iff.mp counts
  exact ⟨k, run_keeps_deep (fun m mem => keeps m (List.mem_append_left _ mem)) start counts ran⟩

end Deep

/-! ### What is noted on the way -/

variable {α β : Type} {note : Move → σ → List α}

/-- What is noted at the moves that a pass comes to. -/
def noted (pass : Pass σ) (note : Move → σ → List α) (ms : List Move) (s : σ) : List α :=
  (pass.trace ms s).flatMap fun t => note t.move t.state

theorem noted_cons (step : pass m s = some s') :
    pass.noted note (m :: ms) s = note m s ++ pass.noted note ms s' := by
  unfold noted
  rw [trace, step]
  rfl

theorem noted_append (pass : Pass σ) (note : Move → σ → List α) (ms ms' : List Move) (s : σ) :
    pass.noted note (ms ++ ms') s =
      pass.noted note ms s ++ (pass.run ms s).elim [] (pass.noted note ms') := by
  unfold noted
  rw [trace_append, List.flatMap_append]
  cases pass.run ms s <;> rfl

/-- By some moves a pass gets from one state to another, and notes something on the way. -/
structure Notes (pass : Pass σ) (note : Move → σ → List α) (ms : List Move) (s : σ) (l : List α)
    (s' : σ) : Prop where
  run : pass.run ms s = some s'
  noted : pass.noted note ms s = l

namespace Notes

variable {l l' : List α}

theorem nil (s : σ) : Notes pass note [] s [] s := ⟨rfl, rfl⟩

theorem cons (m : Move) (step : pass m s = some s') (later : Notes pass note ms s' l s'') :
    Notes pass note (m :: ms) s (note m s ++ l) s'' := by
  refine ⟨(run_cons step).trans later.run, ?_⟩
  rw [noted_cons step, later.noted]

theorem append (first : Notes pass note ms s l s') (second : Notes pass note ms' s' l' s'') :
    Notes pass note (ms ++ ms') s (l ++ l') s'' := by
  refine ⟨run_trans first.run second.run, ?_⟩
  rw [noted_append, first.run, first.noted, Option.elim_some, second.noted]

/-- Nothing is noted at the last move. -/
theorem concat (first : Notes pass note ms s l s') (m : Move) (step : pass m s' = some s'')
    (silent : note m s' = []) : Notes pass note (ms ++ [m]) s l s'' := by
  have all := first.append (.cons m step (.nil s''))
  rwa [silent, List.nil_append, List.append_nil] at all

end Notes

/-- What is noted without a look at the state is read off the moves. -/
theorem map_noted {f : α → β} {read : Move → List β} (ran : pass.run ms s = some s')
    (same : ∀ m s, (note m s).map f = read m) :
    (pass.noted note ms s).map f = ms.flatMap read := by
  unfold noted
  rw [List.map_flatMap]
  simp only [same]
  rw [← List.flatMap_map, move_trace ran]

end Pass

end BraceLang
