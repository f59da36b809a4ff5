/-
  TreeWalk.Proofs.Reserving — settings with more reserved names.

  Names are added to what is already reserved, and equal items are one item. No name is lost that way and nothing else
  can pass for a name, so what is wrong with the settings stays wrong, and what is wrong with the names that are added
  becomes wrong with the settings. There are two exceptions. A single text in the place of a collection is gone through
  letter by letter, and each letter is a name, so that this fault is lost. And an iterator is used up by a report, so that
  the faults in it are lost if names are added after the report.
  - `Value.isName_distinct`: the distinct items of a list are names exactly when all its items are.
  - `Settings.problems_eq_nil_iff`: nothing is wrong with settings exactly when they are sound.
  - `Settings.reserving_eq_ok`, `Settings.Guards.reserving`: when names can be added, and what comes of it.
  - `reserving_keeps_faults`: which settings are sound once names were added.
-/

import TreeWalk.Proofs.Admission

namespace TreeWalk

variable {σ ν : Type}

/-! ## Distinct items -/

namespace Value

theorem mem_of_mem_distinct {v : Value} {vs : List Value} (h : v ∈ distinct vs) : v ∈ vs := by
  induction vs with
  | nil => exact h
  | cons u vs ih =>
    rcases List.mem_cons.mp h with rfl | h
    · exact List.mem_cons_self
    · exact List.mem_cons_of_mem u (ih (List.mem_filter.mp h).1)

theorem text_equals {v : Value} {t : String} (h : (Value.text t).equals v = true) : v = .text t := by
  cases v with
  | atom a =>
    cases a with
    | text t' => simpa [equals, Atom.equals, Atom.number?, eq_comm] using h
    | _ => simp [equals, Atom.equals, Atom.number?] at h
  | tuple vs => simp [equals] at h
  | container k r => simp [equals] at h

/-- Nothing but names is left out for a name. -/
theorem isName_distinct {vs : List Value} :
    (∀ v ∈ distinct vs, Settings.isName v = true) ↔ ∀ v ∈ vs, Settings.isName v = true := by
  refine ⟨?_, fun h v hv => h v (mem_of_mem_distinct hv)⟩
  induction vs with
  | nil => exact id
  | cons u vs ih =>
    intro h
    obtain ⟨name, rest⟩ := List.forall_mem_cons.mp h
    refine List.forall_mem_cons.mpr ⟨name, ih fun v hv => ?_⟩
    -- What was left out for `u` equals it, and a name equals nothing but itself.
    by_cases same : u.equals v = true
    · obtain ⟨t, rfl⟩ := exists_text_of_isName name
      rw [text_equals same]
      exact name
    · exact rest v (List.mem_filter.mpr ⟨hv, by simpa using same⟩)

end Value

/-! ## Adding names -/

namespace Settings

variable {s : Store} {c c' : Settings} {names : List Value}

theorem iterate_of_text (h : c.reserved.isText = true) :
    ∃ vs, c.reserved.iterate s = .ok vs ∧ ∀ v ∈ vs, isName v = true := by
  unfold Reserved.isText at h
  split at h
  · rename_i text given
    rw [given]
    refine ⟨_, rfl, fun v hv => ?_⟩
    obtain ⟨letter, -, rfl⟩ := List.mem_map.mp hv
    simp [isName]
  · cases h

theorem problems_eq_nil_iff : c.problems s = .ok [] ↔ c.Sound s := by
  constructor
  · intro h
    refine (c.sound_or_faulty s).resolve_right ?_
    rintro ⟨e, faulty⟩
    have refused := check_of_faulty faulty
    rw [check, h] at refused
    cases refused
  · rintro ⟨vs, lists, names⟩
    rw [problems_of_other lists.other, lists.gives, Except.map, complaints_eq_nil_iff.mpr names]

theorem reserving_eq_ok : c.reserving s names = .ok c' ↔
    ∃ vs, c.reserved.iterate s = .ok vs ∧ Value.unhashableAll? vs = none ∧ Value.unhashableAll? names = none ∧
      c' = { c with reserved := .items (Value.distinct (Value.distinct vs ++ Value.distinct names)) } := by
  unfold reserving Value.freeze
  cases c.reserved.iterate s with
  | error e => simp [bind, Except.bind]
  | ok vs =>
    cases hv : Value.unhashableAll? vs with
    | some t => simp [bind, Except.bind, hv]
    | none =>
      cases hn : Value.unhashableAll? names with
      | some t => simp [bind, Except.bind, hv]
      | none => simp [bind, Except.bind, pure, Except.pure, hv, eq_comm]

theorem problems_of_reserving (h : c.reserving s names = .ok c') : ∃ ps, c'.problems s = .ok ps := by
  obtain ⟨vs, -, -, -, rfl⟩ := reserving_eq_ok.mp h
  exact ⟨_, problems_of_other rfl⟩

theorem reserving_sound_iff (h : c.reserving s names = .ok c') {vs : List Value} (gives : c.reserved.iterate s = .ok vs) :
    c'.Sound s ↔ (∀ v ∈ vs, isName v = true) ∧ ∀ v ∈ names, isName v = true := by
  obtain ⟨ws, gives', -, -, rfl⟩ := reserving_eq_ok.mp h
  cases gives.symm.trans gives'
  have all : (∀ v ∈ Value.distinct (Value.distinct vs ++ Value.distinct names), isName v = true) ↔
      (∀ v ∈ vs, isName v = true) ∧ ∀ v ∈ names, isName v = true := by
    rw [Value.isName_distinct, List.forall_mem_append, Value.isName_distinct, Value.isName_distinct]
  rw [← all]
  constructor
  · rintro ⟨us, lists, names⟩
    cases lists.gives
    exact names
  · exact fun names => ⟨_, ⟨rfl, rfl⟩, names⟩

/-- Nothing is wrong with what is left of an iterator, and nothing but the names counts that are added to it. -/
theorem reserving_of_once (once : c.reserved.isLasting = false) (h : Value.unhashableAll? names = none) :
    c.spent.problems s = .ok [] ∧ ∃ c', c.spent.reserving s names = .ok c' ∧
      (c'.problems s = .ok [] ↔ ∀ v ∈ names, isName v = true) := by
  have gives : c.spent.reserved.iterate s = .ok [] := by
    rw [spent_of_once once]
    rfl
  have other : c.spent.reserved.isText = false := by
    rw [spent_of_once once]
    rfl
  have added := reserving_eq_ok.mpr ⟨[], gives, rfl, h, rfl⟩
  refine ⟨problems_eq_nil_iff.mpr ⟨[], ⟨other, gives⟩, List.forall_mem_nil _⟩, _, added, ?_⟩
  rw [problems_eq_nil_iff, reserving_sound_iff added gives]
  simp

end Settings

/-! ## Faults -/

/-- Adding names to settings neither hides what is wrong with them nor makes anything else wrong, but for one text in the
    place of a collection, and for an iterator that is looked at before. Nothing is wrong with the settings that come of
    it exactly when every name that was added is a name, and nothing was wrong with the settings before or they had one
    text, with which there is always something wrong. All other settings that are refused stay so: every visit with them
    fails before it calls or logs anything. To be looked at changes settings only if they have an iterator. Then, whatever
    was wrong, nothing is any more, and nothing but the names counts that are added from then on. -/
theorem reserving_keeps_faults {s : Store} {c c' : Settings} {names : List Value}
    (h : c.reserving s names = .ok c') :
    (c'.problems s = .ok [] ↔
      (c.problems s = .ok [] ∨ c.reserved.isText = true) ∧ ∀ v ∈ names, Settings.isName v = true) ∧
    (c.reserved.isText = true → c.problems s ≠ .ok []) ∧
    (∀ e, c.check s = .error e → c.reserved.isText = false →
      ∃ ps, ps ≠ [] ∧ c'.problems s = .ok ps ∧
        ∀ fuel debug (visitor : Visitor (Callback σ ν)) tree memory,
          visit fuel debug (some c') visitor tree s memory = ⟨some (.raised (.badConfig ps)), s, memory, []⟩) ∧
    (c.reserved.isLasting = true → c.spent = c) ∧
    (c.reserved.isLasting = false → c.spent.problems s = .ok [] ∧
      ∃ c'', c.spent.reserving s names = .ok c'' ∧
        (c''.problems s = .ok [] ↔ ∀ v ∈ names, Settings.isName v = true)) := by
  obtain ⟨vs, gives, -, hashable, -⟩ := Settings.reserving_eq_ok.mp h
  have sound := Settings.reserving_sound_iff h gives
  have other (noText : c.reserved.isText = false) : c.Sound s ↔ ∀ v ∈ vs, Settings.isName v = true := by
    constructor
    · rintro ⟨ws, lists, names⟩
      cases gives.symm.trans lists.gives
      exact names
    · exact fun names => ⟨vs, ⟨noText, gives⟩, names⟩
  refine ⟨?_, fun text => ?_, fun e refused noText => ?_, Settings.spent_of_lasting,
    fun once => Settings.reserving_of_once once hashable⟩
  · rw [Settings.problems_eq_nil_iff, Settings.problems_eq_nil_iff, sound]
    cases text : c.reserved.isText with
    | true =>
      -- The letters are names, so that nothing but the names counts that were added.
      obtain ⟨letters, gives', named⟩ := Settings.iterate_of_text (s := s) text
      cases gives.symm.trans gives'
      exact ⟨fun all => ⟨.inr rfl, all.2⟩, fun all => ⟨named, all.2⟩⟩
    | false => simp [other text]
  · rw [Settings.problems_of_text text]
    simp
  · have unsound : ¬ c.Sound s := by
      intro fine
      rw [Settings.check_of_sound fine] at refused
      cases refused
    have unsound' : ¬ c'.Sound s := fun fine => unsound ((other noText).mpr (sound.mp fine).1)
    obtain ⟨ps, problems⟩ := Settings.problems_of_reserving h
    have some : ps ≠ [] := by
      rintro rfl
      exact unsound' (Settings.problems_eq_nil_iff.mp problems)
    exact ⟨ps, some, problems, fun fuel debug visitor tree memory =>
      visit_of_problems problems some fuel debug tree memory⟩

/-- The keys of a mapping stay sound settings with another name, but not with a number. Settings with a number are refused
    with a name added, and still log. One text is refused, but not with a name added: its letters are names. And so is an
    iterator with a number, but not what is left of it with a name added. -/
theorem guarded_reserving :
    let keys : Settings := { reserved := .value (.container .mapping 3) }
    let numbered : Settings := { reserved := .items [.text "note", .int 1], logging := true }
    let text : Settings := { reserved := .value (.text "data") }
    let iterator : Settings := { reserved := .once [.int 1] }
    (∃ c', keys.reserving guarded [.text "loc", .text "note"] = .ok c' ∧ c'.problems guarded = .ok []) ∧
      (∃ c', keys.reserving guarded [.text "loc", .int 0] = .ok c' ∧ c'.problems guarded ≠ .ok []) ∧
      (∃ c', numbered.reserving guarded [.text "loc"] = .ok c' ∧ c'.logging = true ∧ ∃ ps, ps ≠ [] ∧
        visit 20 true (some c') (.nothing : Visitor (Callback Nat Unit)) (.container .mapping 0) guarded 0 =
          ⟨some (.raised (.badConfig ps)), guarded, 0, []⟩) ∧
      (text.problems guarded ≠ .ok [] ∧
        ∃ c', text.reserving guarded [.text "x"] = .ok c' ∧ c'.problems guarded = .ok []) ∧
      iterator.problems guarded ≠ .ok [] ∧
      ∃ c', iterator.spent.reserving guarded [.text "x"] = .ok c' ∧ c'.problems guarded = .ok [] := by
  intro keys numbered text iterator
  have sound : keys.problems guarded = .ok [] :=
    Settings.problems_eq_nil_iff.mpr ⟨[.text "note", .text "data"], ⟨rfl, rfl⟩, by decide⟩
  have refused : numbered.check guarded = .error (.badConfig (Settings.complaints guarded [.text "note", .int 1])) :=
    Settings.check_of_faulty (.notNames _ ⟨rfl, rfl⟩ (.int 1) (by decide) rfl)
  have keeps (c : Settings) (names : List Value) {c' : Settings} (h : c.reserving guarded names = .ok c') :=
    reserving_keeps_faults (σ := Nat) (ν := Unit) h
  refine ⟨⟨_, rfl, ?_⟩, ⟨_, rfl, ?_⟩, ⟨_, rfl, rfl, ?_⟩, ⟨?_, _, rfl, ?_⟩, ?_, ?_⟩
  · exact (keeps keys [.text "loc", .text "note"] rfl).1.mpr ⟨.inl sound, by decide⟩
  · intro fine
    exact absurd ((keeps keys [.text "loc", .int 0] rfl).1.mp fine).2 (by decide)
  · obtain ⟨ps, some, -, fails⟩ := (keeps numbered [.text "loc"] rfl).2.2.1 _ refused rfl
    exact ⟨ps, some, fails 20 true .nothing (.container .mapping 0) 0⟩
  · exact (keeps text [.text "x"] rfl).2.1 rfl
  · exact (keeps text [.text "x"] rfl).1.mpr ⟨.inr rfl, by decide⟩
  · intro fine
    obtain ⟨vs, lists, named⟩ := Settings.problems_eq_nil_iff.mp fine
    have gives : Except.ok [Value.int 1] = Except.ok (ε := Fault) vs := lists.gives
    cases gives
    exact absurd named (by decide)
  · obtain ⟨-, c', added, sound'⟩ := (keeps iterator [.text "x"] rfl).2.2.2.2 rfl
    exact ⟨c', added, sound'.mpr (by decide)⟩

/-! ## The names that are reserved -/

namespace Settings

variable {s : Store} {c : Settings} {kept more : List String}

/-- The settings are valid, and these are the names they reserve. -/
def Guards (s : Store) (c : Settings) (kept : List String) : Prop :=
  c.reserved.isLasting = true ∧
    ∃ vs, c.Lists s vs ∧ (∀ v ∈ vs, isName v = true) ∧ ∀ name, name ∈ kept ↔ Value.text name ∈ vs

theorem Guards.sound (h : c.Guards s kept) : c.Sound s := by
  obtain ⟨-, vs, lists, named, -⟩ := h
  exact ⟨vs, lists, named⟩

theorem Guards.reserving (h : c.Guards s kept) (named : ∀ name ∈ more, name ≠ "") :
    ∃ c', c.reserving s (more.map .text) = .ok c' ∧ c'.logging = c.logging ∧ c'.colored = c.colored ∧
      c'.Guards s (kept ++ more) := by
  obtain ⟨-, vs, lists, old, mem⟩ := h
  have new : ∀ v ∈ more.map Value.text, isName v = true := by
    intro v hv
    obtain ⟨name, hname, rfl⟩ := List.mem_map.mp hv
    simp [isName, named name hname]
  have added := reserving_eq_ok.mpr
    ⟨vs, lists.gives, Value.unhashableAll?_of_names old, Value.unhashableAll?_of_names new, rfl⟩
  refine ⟨_, added, rfl, rfl, rfl, _, ⟨rfl, rfl⟩, ?_, fun name => ?_⟩
  · obtain ⟨ws, lists', named'⟩ := (reserving_sound_iff added lists.gives).mpr ⟨old, new⟩
    cases lists'.gives
    exact named'
  · rw [Value.text_mem_distinct, List.mem_append, List.mem_append, Value.text_mem_distinct, Value.text_mem_distinct,
      mem name]
    simp

end Settings

section

variable {s : Store} {c c' : Settings} {kept kept' : List String} {v : Visitor (Callback σ ν)}

end

end TreeWalk
