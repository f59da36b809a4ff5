/-
  TreeWalk.Store.Fields — named fields in the order in which their names were first set.

  Setting a name that is there keeps its place; a new name goes last; a name that was removed and is set again goes
  last. Names never repeat (`nodup`), so a look-up has one answer.
-/

namespace TreeWalk

structure Fields (α : Type) where
  entries : List (String × α)
  nodup : (entries.map Prod.fst).Nodup

namespace Fields

variable {α : Type}

def empty : Fields α := ⟨[], List.nodup_nil⟩

instance : Inhabited (Fields α) := ⟨empty⟩

instance : EmptyCollection (Fields α) := ⟨empty⟩

def names (f : Fields α) : List String := f.entries.map Prod.fst

def get? (f : Fields α) (name : String) : Option α := f.entries.lookup name

def isEmpty (f : Fields α) : Bool := f.entries.isEmpty

/-- The entries with `name` set to `a`. -/
def setIn (name : String) (a : α) : List (String × α) → List (String × α)
  | [] => [(name, a)]
  | (n, b) :: rest => if n = name then (n, a) :: rest else (n, b) :: setIn name a rest

theorem names_setIn (name : String) (a : α) (l : List (String × α)) :
    (setIn name a l).map Prod.fst =
      if name ∈ l.map Prod.fst then l.map Prod.fst else l.map Prod.fst ++ [name] := by
  induction l with
  | nil => simp [setIn]
  | cons e rest ih =>
    by_cases h : e.1 = name
    · simp [setIn, h]
    · have h' : ¬ name = e.1 := fun e' => h e'.symm
      simp only [setIn, h, if_false, List.map_cons, ih, List.mem_cons, h', false_or]
      split <;> simp

/-- Set a name: in its place if it is there, else last. -/
def insert (f : Fields α) (name : String) (a : α) : Fields α where
  entries := setIn name a f.entries
  nodup := by
    rw [names_setIn]
    split
    · exact f.nodup
    · rename_i h
      exact List.nodup_append.2 ⟨f.nodup, by simp, by
        intro x hx y hy e
        rw [List.mem_singleton.1 hy] at e
        exact h (e ▸ hx)⟩

/-- Remove a name; nothing happens if it is not there. -/
def erase (f : Fields α) (name : String) : Fields α where
  entries := f.entries.filter (·.1 ≠ name)
  nodup := f.nodup.sublist (List.filter_sublist.map _)

/-- Fields set one after the other: a repeated name keeps its first place and its last value. -/
def ofList (l : List (String × α)) : Fields α := l.foldl (fun f e => f.insert e.1 e.2) empty

@[simp] theorem names_empty : (empty : Fields α).names = [] := rfl

@[simp] theorem get?_empty (name : String) : (empty : Fields α).get? name = none := rfl

theorem names_insert (f : Fields α) (name : String) (a : α) :
    (f.insert name a).names = if name ∈ f.names then f.names else f.names ++ [name] :=
  names_setIn name a f.entries

theorem names_erase (f : Fields α) (name : String) : (f.erase name).names = f.names.filter (· ≠ name) := by
  simp only [names, erase, List.filter_map]
  rfl

theorem lookup_cons_eq (name n : String) (a : α) (rest : List (String × α)) :
    ((n, a) :: rest).lookup name = if name = n then some a else rest.lookup name := by
  rw [List.lookup_cons]
  by_cases h : name = n
  · simp [h]
  · have h' : (name == n) = false := by simpa using h
    rw [h', if_neg h]

theorem get?_insert (f : Fields α) (name other : String) (a : α) :
    (f.insert name a).get? other = if other = name then some a else f.get? other := by
  show (setIn name a f.entries).lookup other = if other = name then some a else f.entries.lookup other
  induction f.entries with
  | nil => simp [setIn, lookup_cons_eq]
  | cons e rest ih =>
    obtain ⟨n, b⟩ := e
    by_cases hn : n = name
    · subst hn
      simp only [setIn, if_true, lookup_cons_eq]
      split <;> rfl
    · simp only [setIn, hn, if_false, lookup_cons_eq, ih]
      split
      · rename_i h
        simp [h, hn]
      · rfl

theorem get?_erase (f : Fields α) (name other : String) :
    (f.erase name).get? other = if other = name then none else f.get? other := by
  show (f.entries.filter (·.1 ≠ name)).lookup other = if other = name then none else f.entries.lookup other
  induction f.entries with
  | nil => simp
  | cons e rest ih =>
    obtain ⟨n, b⟩ := e
    by_cases hn : n = name
    · subst hn
      simp only [List.filter_cons, ne_eq, not_true_eq_false, decide_false, Bool.false_eq_true, if_false,
        lookup_cons_eq, ih]
      split <;> rfl
    · simp only [List.filter_cons, ne_eq, hn, not_false_eq_true, decide_true, if_true, lookup_cons_eq, ih]
      by_cases h : other = n <;> simp [h, hn]

theorem mem_names_iff (f : Fields α) (name : String) : name ∈ f.names ↔ (f.get? name).isSome := by
  show name ∈ f.entries.map Prod.fst ↔ (f.entries.lookup name).isSome
  induction f.entries with
  | nil => simp
  | cons e rest ih =>
    obtain ⟨n, b⟩ := e
    rw [lookup_cons_eq, List.map_cons, List.mem_cons, ih]
    by_cases h : name = n <;> simp [h]

theorem get?_of_mem {f : Fields α} {name : String} {a : α} (h : (name, a) ∈ f.entries) : f.get? name = some a := by
  obtain ⟨entries, nodup⟩ := f
  show entries.lookup name = some a
  induction entries with
  | nil => cases h
  | cons e rest ih =>
    obtain ⟨n, b⟩ := e
    rw [List.map_cons, List.nodup_cons] at nodup
    rw [lookup_cons_eq]
    rcases List.mem_cons.mp h with h | h
    · cases h
      rw [if_pos rfl]
    · have hne : name ≠ n := fun e => nodup.1 (e ▸ List.mem_map.mpr ⟨_, h, rfl⟩)
      rw [if_neg hne]
      exact ih nodup.2 h

end Fields

end TreeWalk
