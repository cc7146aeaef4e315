/-!
Finite maps as association lists. The first entry of a key counts; `set` keeps one entry a key.
-/

namespace BraceLang

variable {κ α : Type} [DecidableEq κ]

/-- A finite map, entries in the order their keys were last set. -/
structure Assoc (κ α : Type) where
  entries : List (κ × α) := []

namespace Assoc

/-- The entries are data; their order counts. -/
instance [DecidableEq α] : DecidableEq (Assoc κ α) := fun m n =>
  decidable_of_iff (m.entries = n.entries) (by cases m; cases n; simp)

def get? (m : Assoc κ α) (k : κ) : Option α := m.entries.lookup k

def contains (m : Assoc κ α) (k : κ) : Bool := (m.get? k).isSome

def keys (m : Assoc κ α) : List κ := m.entries.map Prod.fst

def values (m : Assoc κ α) : List α := m.entries.map Prod.snd

/-- Keeps the entries that pass a test. -/
def filter (m : Assoc κ α) (keep : κ → α → Bool) : Assoc κ α :=
  ⟨m.entries.filter fun e => keep e.1 e.2⟩

def erase (m : Assoc κ α) (k : κ) : Assoc κ α := m.filter fun key _ => key != k

/-- Makes `k` stand for `a`. -/
def set (m : Assoc κ α) (k : κ) (a : α) : Assoc κ α := ⟨(m.erase k).entries ++ [(k, a)]⟩

/-- Changes what `k` stands for, if it stands for anything. -/
def update (m : Assoc κ α) (k : κ) (f : α → α) : Assoc κ α :=
  ⟨m.entries.map fun e => if e.1 = k then (e.1, f e.2) else e⟩

theorem mem_of_get? {m : Assoc κ α} {k : κ} {a : α} (h : m.get? k = some a) :
    (k, a) ∈ m.entries := by
  obtain ⟨before, after, entries, _⟩ := List.lookup_eq_some_iff.mp h
  simp [entries]

theorem get?_update (m : Assoc κ α) (k key : κ) (f : α → α) :
    (m.update k f).get? key = if key = k then (m.get? key).map f else m.get? key := by
  obtain ⟨entries⟩ := m
  simp only [get?, update]
  induction entries with
  | nil => simp
  | cons e rest ih =>
      obtain ⟨k', a⟩ := e
      by_cases he : key = k'
      · subst he
        by_cases hk : key = k <;> simp [hk]
      · have hb : (key == k') = false := by simpa using he
        by_cases hk : k' = k
        · subst hk
          simpa [List.lookup_cons, hb] using ih
        · simpa [List.lookup_cons, hb, hk] using ih

theorem get?_erase_self (m : Assoc κ α) (k : κ) : (m.erase k).get? k = none := by
  obtain ⟨entries⟩ := m
  simp only [get?, erase, filter]
  induction entries with
  | nil => rfl
  | cons e rest ih =>
      obtain ⟨k', a⟩ := e
      by_cases hk : k' = k
      · simpa [List.filter_cons, hk] using ih
      · have hb : (k == k') = false := by simpa using Ne.symm hk
        simpa [List.filter_cons, List.lookup_cons, hk, hb] using ih

theorem get?_erase_of_ne (m : Assoc κ α) {k key : κ} (h : key ≠ k) :
    (m.erase k).get? key = m.get? key := by
  obtain ⟨entries⟩ := m
  simp only [get?, erase, filter]
  induction entries with
  | nil => rfl
  | cons e rest ih =>
      obtain ⟨k', a⟩ := e
      by_cases hk : k' = k
      · subst hk
        have hb : (key == k') = false := by simpa using h
        simpa [List.filter_cons, List.lookup_cons, hb] using ih
      · cases hb : key == k' <;> simp [List.lookup_cons, hk, hb, ih]

@[simp] theorem get?_set_self (m : Assoc κ α) (k : κ) (a : α) : (m.set k a).get? k = some a := by
  have h : (m.erase k).entries.lookup k = none := m.get?_erase_self k
  simp [get?, set, List.lookup_append, h]

theorem get?_set_of_ne (m : Assoc κ α) {k key : κ} (a : α) (h : key ≠ k) :
    (m.set k a).get? key = m.get? key := by
  have hk : (key == k) = false := by simpa using h
  have he : (m.erase k).entries.lookup key = m.entries.lookup key := m.get?_erase_of_ne h
  simp [get?, set, List.lookup_append, List.lookup_cons, he, hk]

end Assoc

end BraceLang
