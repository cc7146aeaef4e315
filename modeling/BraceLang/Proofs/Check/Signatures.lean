import BraceLang.Proofs.Check.Restoring

/-!
The first heading of a function settles its types. Whatever is checked afterwards, the name stands
for a function of these types in the global scope. The function is completed once at most, by a
definition that has the same types; its parameters get their names then. A heading with other
types and a second definition are reported and change nothing.

**Main result.** `signatures_settle`: between any two moments of the check of a program, and for
any heading at the second of them.
-/

namespace BraceLang

namespace Check

/-! ### What becomes of a function -/

/-- After some deeds the first symbol, a function, has become the second one. -/
structure Settled (f : String) (s : Symbol) (σ : Signature) (ds : List Deed) (s' : Symbol)
    (σ' : Signature) : Prop where
  kind : s'.kind = .fn σ'
  type : s'.type = s.type
  params : σ'.params = σ.params
  defined : σ.defined = true → σ'.defined = true
  names : σ'.defined = σ.defined → σ'.names = σ.names
  /-- A function is completed by a definition that fits. -/
  completion : σ'.defined ≠ σ.defined → ∃ h, .enters h s.type σ.params true ∈ ds ∧
    h.name.val = f ∧ σ'.names = paramNames h

namespace Settled

variable {f : String} {s s' s'' : Symbol} {σ σ' σ'' : Signature} {ds ds' : List Deed}

theorem of_same (kind : s'.kind = .fn σ) (type : s'.type = s.type) :
    Settled f s σ ds s' σ where
  kind := kind
  type := type
  params := rfl
  defined := id
  names _ := rfl
  completion changed := absurd rfl changed

theorem trans (first : Settled f s σ ds s' σ') (second : Settled f s' σ' ds' s'' σ'') :
    Settled f s σ (ds ++ ds') s'' σ'' where
  kind := second.kind
  type := second.type.trans first.type
  params := second.params.trans first.params
  defined before := second.defined (first.defined before)
  names same := by
    have between : σ'.defined = σ.defined := by
      have up := first.defined
      have upAgain := second.defined
      cases before : σ.defined <;> cases now : σ'.defined <;> simp_all
    exact (second.names (same.trans between.symm)).trans (first.names between)
  completion changed := by
    by_cases between : σ'.defined = σ.defined
    · obtain ⟨h, mem, named, names⟩ := second.completion fun same => changed (same.trans between)
      rw [first.type, first.params] at mem
      exact ⟨h, List.mem_append_right ds mem, named, names⟩
    · obtain ⟨h, mem, named, names⟩ := first.completion between
      -- What is completed stays so, and keeps the names it has got.
      have completed : σ'.defined = true := by
        have up := first.defined
        cases before : σ.defined <;> cases now : σ'.defined <;> simp_all
      have still : σ''.defined = σ'.defined := (second.defined completed).trans completed.symm
      exact ⟨h, List.mem_append_left ds' mem, named, (second.names still).trans names⟩

end Settled

/-- What is said against a heading of a function whose types are settled. -/
def objections (h : Heading) (type : Ty) (params : List Ty) (isDefined : Bool) (result : Ty)
    (types : List Ty) (defining : Bool) : List Diagnostic :=
  if type ≠ result ∨ params ≠ types then
    [⟨.error, .incompatibleSignature h.name.val, h.name.pos⟩]
  else if defining && isDefined then [⟨.error, .functionRedefinition h.name.val, h.name.pos⟩]
  else []

section Deeds

variable {own functions : List String} {k m : Nat} {ds : List Deed} {t : ScopeStack Symbol}
  {f : String} {s : Symbol} {σ : Signature}

/-- A heading is compared with the function that its name stands for. -/
theorem settled_enters {h : Heading} (known : t.lookupGlobal h.name.val = some s)
    (kind : s.kind = .fn σ) (result : Ty) (types : List Ty) (defining : Bool) :
    (Deed.enters h result types defining).entries t =
        objections h s.type σ.params σ.defined result types defining ∧
      ∃ s' σ', ((Deed.enters h result types defining).on t).lookupGlobal h.name.val = some s' ∧
        Settled h.name.val s σ [.enters h result types defining] s' σ' ∧ s'.used = s.used := by
  rw [Deed.entries, Deed.on, known, standing, kind, objections]
  dsimp only
  by_cases differs : s.type ≠ result ∨ σ.params ≠ types
  · rw [if_pos differs, if_pos differs]
    exact ⟨rfl, s, σ, known, .of_same kind rfl, rfl⟩
  · rw [if_neg differs, if_neg differs]
    obtain ⟨rfl, rfl⟩ : s.type = result ∧ σ.params = types := by simpa using differs
    by_cases again : (defining && σ.defined) = true
    · rw [if_pos again, if_pos again]
      exact ⟨rfl, s, σ, known, .of_same kind rfl, rfl⟩
    · rw [if_neg again, if_neg again]
      refine ⟨rfl, ?_⟩
      cases defining with
      | false => exact ⟨s, σ, known, .of_same kind rfl, rfl⟩
      | true =>
          have undefined : σ.defined = false := by simpa using again
          have updated := t.lookupGlobal_updateGlobal h.name.val h.name.val
            (completed (paramNames h))
          rw [if_pos rfl, known, Option.map_some] at updated
          refine ⟨_, { σ with names := paramNames h, defined := true }, updated, ?_, ?_⟩
          · rw [completed, kind]
            refine ⟨rfl, rfl, rfl, fun _ => rfl, fun same => ?_, fun _ => ?_⟩
            · rw [undefined] at same
              contradiction
            · exact ⟨h, List.mem_singleton.mpr rfl, rfl, rfl⟩
          · rw [completed, kind]

/-- The heading of another function changes nothing about this one. -/
theorem lookupGlobal_enters {h : Heading} (other : h.name.val ≠ f)
    (known : t.lookupGlobal f = some s) (result : Ty) (types : List Ty) (defining : Bool) :
    ((Deed.enters h result types defining).on t).lookupGlobal f = some s := by
  rw [Deed.on]
  cases standing h.name.val result types defining (t.lookupGlobal h.name.val) with
  | fresh =>
      dsimp only
      cases declared : t.declareGlobal? h.name.val (headingSymbol h result types defining) with
      | none => exact known
      | some t' => exact ScopeStack.lookupGlobal_declareGlobal? declared known
  | fits =>
      dsimp only
      split
      · rw [ScopeStack.lookupGlobal_updateGlobal, if_neg (Ne.symm other), known]
      · exact known
  | conflict => exact known

/-- A mark on an entry leaves functions what they are. -/
theorem settled_marked (known : t.lookupGlobal f = some s) (kind : s.kind = .fn σ) (name : String)
    (test : Symbol → Bool) {g : Symbol → Symbol}
    (keeps : ∀ s, (g s).kind = s.kind ∧ (g s).type = s.type) :
    ∃ s' σ', (Deed.marked t name test g).lookupGlobal f = some s' ∧ Settled f s σ ds s' σ' := by
  unfold Deed.marked
  split
  · rcases ScopeStack.lookupGlobal_update known name g with same | changed
    · exact ⟨s, σ, same, .of_same kind rfl⟩
    · exact ⟨g s, σ, changed, .of_same ((keeps s).1.trans kind) (keeps s).2⟩
  · exact ⟨s, σ, known, .of_same kind rfl⟩

/-- What one deed does to a function of the global scope, as long as that is open. -/
theorem settled_on {d : Deed} (known : t.lookupGlobal f = some s) (kind : s.kind = .fn σ)
    (isOpen : (d.on t).scopes ≠ []) :
    ∃ s' σ', (d.on t).lookupGlobal f = some s' ∧ Settled f s σ [d] s' σ' := by
  cases d with
  | opens =>
      have more : t.scopes ≠ [] := by
        intro empty
        rw [ScopeStack.lookupGlobal, ScopeStack.global?, empty] at known
        contradiction
      exact ⟨s, σ, (ScopeStack.lookupGlobal_cons {} more f).trans known, .of_same kind rfl⟩
  | closes =>
      obtain ⟨_ | ⟨inner, rest⟩⟩ := t
      · contradiction
      · exact ⟨s, σ, (ScopeStack.lookupGlobal_cons inner isOpen f).symm.trans known,
          .of_same kind rfl⟩
  | declares name type length isParam hasValue =>
      refine ⟨s, σ, ?_, .of_same kind rfl⟩
      rw [Deed.on]
      cases declared : t.declare? name.val _ with
      | none => exact known
      | some t' => exact ScopeStack.lookupGlobal_declare? declared known
  | enters h result types defining =>
      by_cases same : h.name.val = f
      · subst same
        obtain ⟨-, s', σ', there, settled, -⟩ := settled_enters known kind result types defining
        exact ⟨s', σ', there, settled⟩
      · exact ⟨s, σ, lookupGlobal_enters same known result types defining, .of_same kind rfl⟩
  | reads name | calls name | assigns name =>
      rw [Deed.on]
      exact settled_marked known kind name _ fun _ => ⟨rfl, rfl⟩

/-- What nested deeds do to a function of the global scope. -/
theorem settled_run (nested : Nested own functions k ds m) (deep : t.depth = k + 1)
    (known : t.lookupGlobal f = some s) (kind : s.kind = .fn σ) :
    ∃ s' σ', (ds.foldl Deed.on t).lookupGlobal f = some s' ∧ Settled f s σ ds s' σ' := by
  induction nested generalizing t s σ with
  | nil => exact ⟨s, σ, known, .of_same kind rfl⟩
  | @cons k l _ d _ nests _ ih =>
      have deep' : (d.on t).depth = l + 1 := nests.depth deep
      have isOpen : (d.on t).scopes ≠ [] := by
        intro empty
        rw [ScopeStack.depth, empty] at deep'
        contradiction
      obtain ⟨s₁, σ₁, there, one⟩ := settled_on known kind isOpen
      obtain ⟨s', σ', found, others⟩ := ih deep' there one.kind
      exact ⟨s', σ', found, one.trans others⟩

end Deeds

/-! ### Whole programs -/

/-- The check of a program gets to the first state by some of its deeds, from there to the second
by some more, and then to its end. -/
structure Moments (p : Program) (log : Diagnostics) (before between after : List Deed)
    (c c' : State) : Prop where
  first : Passes false { diagnostics := log } (.opens :: before) c
  second : Passes false c between c'
  last : Passes false c' (after ++ [.closes]) (checkProgram p { diagnostics := log }).2

/-- There are two such moments for any parts of the deeds of a program. What is a function in the
global scope at the first moment is one of the same types at the second, and in between it has been
completed once at most. A heading of it is then compared with the types that were settled first:
one finding says that the types differ, or that the function is defined again, and else there is
none. -/
theorem signatures_settle (p : Program) (log : Diagnostics) {before between after : List Deed}
    (parts : Stmt.deedsIn p.stmts = before ++ (between ++ after)) :
    (∃ c c', Moments p log before between after c c') ∧
      ∀ c c' f s σ, Moments p log before between after c c' →
        c.env.stack.lookupGlobal f = some s → s.kind = .fn σ →
        ∃ s' σ', c'.env.stack.lookupGlobal f = some s' ∧ Settled f s σ between s' σ' ∧
          ∀ (h : Heading) (result : Ty) (types : List Ty) (defining : Bool), h.name.val = f →
            (declareFunction h result types defining c').2.diagnostics.entries =
                c'.diagnostics.entries ++
                  objections h s.type σ.params σ'.defined result types defining ∧
              ∃ s'' σ'',
                (declareFunction h result types defining c').2.env.stack.lookupGlobal f = some s'' ∧
                Settled f s' σ' [.enters h result types defining] s'' σ'' ∧ s''.used = s'.used := by
  constructor
  · have passes := passes_checkProgram p log
    rw [Program.deeds, parts, List.append_assoc, List.append_assoc, ← List.cons_append] at passes
    obtain ⟨c, first, rest⟩ := passes.split
    obtain ⟨c', second, last⟩ := rest.split
    exact ⟨c, c', first, second, last⟩
  · intro c c' f s σ moments known kind
    have nested := nested_together p.stmts
    rw [parts] at nested
    obtain ⟨k, first, rest⟩ := nested.split
    obtain ⟨m, second, -⟩ := rest.split
    have deep : c.env.stack.depth = k + 1 := by
      rw [moments.first.stack, List.foldl_cons]
      exact first.depth rfl
    obtain ⟨s', σ', found, settled⟩ := settled_run second deep known kind
    rw [← moments.second.stack] at found
    refine ⟨s', σ', found, settled, ?_⟩
    rintro h result types defining rfl
    obtain ⟨entries, s'', σ'', there, again, used⟩ :=
      settled_enters found settled.kind result types defining
    obtain ⟨stack, logged, -⟩ := (Deed.enters h result types defining).run_spec c'
    rw [entries, settled.type, settled.params] at logged
    refine ⟨logged, s'', σ'', ?_, again, used⟩
    exact (congrArg (ScopeStack.lookupGlobal · h.name.val) stack).trans there

/-- The function `f` is declared, declared with another type, called and defined. -/
def contested : Program :=
  ⟨[.prototype {} ⟨⟨"int", {}⟩, ⟨"f", {}⟩, [⟨⟨"int", {}⟩, none⟩]⟩,
    .prototype {} ⟨⟨"double", {}⟩, ⟨"f", {}⟩, [⟨⟨"int", {}⟩, none⟩]⟩,
    .call {} ⟨"f", {}⟩ [.literal {} (.number "1")],
    .define ⟨⟨"int", {}⟩, ⟨"f", {}⟩, [⟨⟨"int", {}⟩, some ⟨"a", {}⟩⟩]⟩ {}
      [.returnValue {} (some (.var {} "a"))]]⟩

/-- From the first prototype to the end, where the function is defined again. -/
theorem contested_settles : ∃ c c' s s' σ',
    Moments contested {} ((Stmt.deedsIn contested.stmts).take 1)
      ((Stmt.deedsIn contested.stmts).drop 1) [] c c' ∧
    c.env.stack.lookupGlobal "f" = some s ∧ s.kind = .fn ⟨[.int], [none], false⟩ ∧
    c'.env.stack.lookupGlobal "f" = some s' ∧
    Settled "f" s ⟨[.int], [none], false⟩ ((Stmt.deedsIn contested.stmts).drop 1) s' σ' ∧
    σ' = ⟨[.int], [some "a"], true⟩ ∧
    (declareFunction ⟨⟨"int", {}⟩, ⟨"f", {}⟩, []⟩ .int [.int] true c').2.diagnostics.entries =
      c'.diagnostics.entries ++ [⟨.error, .functionRedefinition "f", {}⟩] := by
  have parts : Stmt.deedsIn contested.stmts = (Stmt.deedsIn contested.stmts).take 1 ++
      ((Stmt.deedsIn contested.stmts).drop 1 ++ []) := by
    rw [List.append_nil, List.take_append_drop]
  obtain ⟨⟨c, c', moments⟩, settles⟩ := signatures_settle contested {} parts
  have known : c.env.stack.lookupGlobal "f" =
      some (Symbol.ofFunction "f" .int ⟨[.int], [none], false⟩ {}) := by
    rw [moments.first.stack]
    decide +kernel
  obtain ⟨s', σ', found, settled, compared⟩ := settles c c' "f" _ _ moments known rfl
  have completed : σ' = ⟨[.int], [some "a"], true⟩ := by
    have stands : (c'.env.stack.lookupGlobal "f").bind Symbol.signature? =
        some ⟨[.int], [some "a"], true⟩ := by
      rw [moments.second.stack, moments.first.stack]
      decide +kernel
    rw [found, Option.bind_some, Symbol.signature?, settled.kind] at stands
    exact Option.some.inj stands
  obtain ⟨logged, -⟩ := compared ⟨⟨"int", {}⟩, ⟨"f", {}⟩, []⟩ .int [.int] true rfl
  subst completed
  exact ⟨c, c', _, s', _, moments, known, rfl, found, settled, rfl, logged⟩

end Check

end BraceLang
