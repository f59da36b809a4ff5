/-
  TreeWalk.Proofs.Admission — which visits are refused, and what the others walk with.

  A visit is refused before anything is called: for its settings (`Settings.Faulty`), or, if these are sound, for its
  visitor (`Visitor.Faulty`). The two relations say when, and with which fault, without going through the checks.
  - `Settings.check_of_faulty`, `Settings.check_of_sound`, `Visitor.callbacks_of_faulty`, `Visitor.callbacks_of_usable`:
    the checks find these faults and no others.
  - `Reserved.names_of_lists`: once the items are known to be names, nothing keeps them from being gathered, and a name
    is among the gathered ones exactly when it is an item.
  - `Settings.Lists.again`: the items are gathered after they were checked, so that they are those that were checked,
    or none if they could be gone through only once.
  - `Walker.walk_reserved`: a walk does not depend on how the reserved names are listed.
  Together: `admission_exact`.
-/

import TreeWalk.Proofs.Steps
import TreeWalk.Search

namespace TreeWalk

variable {σ ν φ : Type}

/-! ## Settings -/

/-- A value that can be gone through item by item. -/
def Value.isIterable : Value → Bool
  | .atom (.text _) => true
  | .atom (.bytes _) => true
  | .atom (.byteArray _) => true
  | .atom (.foreign f) => f.numbers?.isSome
  | .atom _ => false
  | .tuple _ => true
  | .container k _ => k.isList || k.isMapping

def Reserved.isText : Reserved → Bool
  | .value (.text _) => true
  | _ => false

/-- Not an iterator: it can be gone through again and again. -/
def Reserved.isLasting : Reserved → Bool
  | .once _ => false
  | _ => true

namespace Settings

/-- The reserved names are not one text, and going through them gives these items. -/
structure Lists (s : Store) (c : Settings) (vs : List Value) : Prop where
  other : c.reserved.isText = false
  gives : c.reserved.iterate s = .ok vs

/-- All reserved names are names. -/
def Sound (s : Store) (c : Settings) : Prop := ∃ vs, c.Lists s vs ∧ ∀ v ∈ vs, isName v = true

/-- What is wrong with settings: what is reserved cannot be gone through; or it is one text, or has an item that is not
    a name. -/
inductive Faulty (s : Store) (c : Settings) : Fault → Prop
  | notIterable (v : Value) (given : c.reserved = .value v) (closed : v.isIterable = false) :
      Faulty s c (.notIterable v.typeName)
  | oneText (given : c.reserved.isText = true) :
      Faulty s c (.badConfig ["reserved_keys must be a collection of names, not a string"])
  | notNames (vs : List Value) (lists : c.Lists s vs) (v : Value) (mem : v ∈ vs) (other : isName v = false) :
      Faulty s c (.badConfig (complaints s vs))

end Settings

theorem Value.iterate_error_iff {s : Store} {v : Value} {e : Fault} :
    v.iterate s = .error e ↔ v.isIterable = false ∧ e = .notIterable v.typeName := by
  cases v with
  | atom a =>
    cases a with
    | foreign f =>
      cases f <;>
        simp [Value.iterate, Value.isIterable, Foreign.numbers?, Value.typeName, Atom.typeName, eq_comm]
    | _ => simp [Value.iterate, Value.isIterable, Value.typeName, eq_comm]
  | tuple vs => simp [Value.iterate, Value.isIterable]
  | container k r =>
    cases k <;> simp [Value.iterate, Value.isIterable, Kind.isList, Kind.isMapping, Value.typeName, eq_comm]

theorem Reserved.iterate_error_iff {s : Store} {r : Reserved} {e : Fault} :
    r.iterate s = .error e ↔ ∃ v, r = .value v ∧ v.isIterable = false ∧ e = .notIterable v.typeName := by
  cases r with
  | items vs => simp [Reserved.iterate]
  | once vs => simp [Reserved.iterate]
  | value v => simp [Reserved.iterate, Value.iterate_error_iff]

namespace Settings

variable {s : Store} {c : Settings}

theorem sound_or_faulty (s : Store) (c : Settings) : c.Sound s ∨ ∃ e, c.Faulty s e := by
  cases other : c.reserved.isText with
  | true => exact .inr ⟨_, .oneText other⟩
  | false =>
    cases gives : c.reserved.iterate s with
    | error e =>
      obtain ⟨v, given, closed, rfl⟩ := Reserved.iterate_error_iff.mp gives
      exact .inr ⟨_, .notIterable v given closed⟩
    | ok vs =>
      have lists : c.Lists s vs := ⟨other, gives⟩
      by_cases names : ∀ v ∈ vs, isName v = true
      · exact .inl ⟨vs, lists, names⟩
      · simp only [not_forall, Bool.not_eq_true] at names
        obtain ⟨v, mem, hv⟩ := names
        exact .inr ⟨_, .notNames vs lists v mem hv⟩

theorem problems_of_text (h : c.reserved.isText = true) :
    c.problems s = .ok ["reserved_keys must be a collection of names, not a string"] := by
  obtain ⟨reserved, logging, colored⟩ := c
  unfold Reserved.isText at h
  split at h
  · rename_i hr
    cases hr
    rfl
  · cases h

theorem problems_of_other (h : c.reserved.isText = false) :
    c.problems s = (c.reserved.iterate s).map (complaints s) := by
  unfold problems
  split
  · rename_i hr
    rw [hr] at h
    cases h
  · cases c.reserved.iterate s <;> rfl

theorem complaints_eq_nil_iff {vs : List Value} : complaints s vs = [] ↔ ∀ v ∈ vs, isName v = true := by
  simp [complaints, others, sorted]

theorem check_of_sound (h : c.Sound s) : c.check s = .ok () := by
  obtain ⟨vs, lists, names⟩ := h
  rw [check, problems_of_other lists.other, lists.gives]
  simp only [Except.map, complaints_eq_nil_iff.mpr names]
  rfl

theorem check_of_problems {ps : List String} (h : c.problems s = .ok ps) (some : ps ≠ []) :
    c.check s = .error (.badConfig ps) := by
  rw [check, h]
  cases ps with
  | nil => contradiction
  | cons p ps => rfl

theorem check_of_faulty {e : Fault} (h : c.Faulty s e) : c.check s = .error e := by
  cases h with
  | notIterable v given closed =>
    have gives : c.reserved.iterate s = .error (.notIterable v.typeName) :=
      Reserved.iterate_error_iff.mpr ⟨v, given, closed, rfl⟩
    have other : c.reserved.isText = false := by
      rw [given]
      unfold Reserved.isText
      split
      · rename_i ht
        cases ht
        cases closed
      · rfl
    rw [check, problems_of_other other, gives]
    rfl
  | oneText given => exact check_of_problems (problems_of_text given) (List.cons_ne_nil _ _)
  | notNames vs lists v mem other =>
    refine check_of_problems (by rw [problems_of_other lists.other, lists.gives]; rfl) fun none => ?_
    have name := complaints_eq_nil_iff.mp none v mem
    rw [other] at name
    cases name

end Settings

/-! ## Reserved names -/

namespace Value

theorem exists_text_of_isName {v : Value} (h : Settings.isName v = true) : ∃ t, v = .text t := by
  unfold Settings.isName at h
  split at h
  · exact ⟨_, rfl⟩
  · cases h

theorem unhashableAll?_of_names {vs : List Value} (h : ∀ v ∈ vs, Settings.isName v = true) :
    unhashableAll? vs = none := by
  induction vs with
  | nil => rfl
  | cons v vs ih =>
    obtain ⟨⟨t, rfl⟩, hvs⟩ : (∃ t, v = .text t) ∧ ∀ v ∈ vs, Settings.isName v = true :=
      ⟨exists_text_of_isName (h v List.mem_cons_self), fun u hu => h u (List.mem_cons_of_mem v hu)⟩
    exact ih hvs

theorem equals_text {v : Value} {t : String} (h : v.equals (.text t) = true) : v = .text t := by
  cases v with
  | atom a =>
    cases a with
    | text t' => simpa [equals, Atom.equals, Atom.number?] using h
    | _ => simp [equals, Atom.equals, Atom.number?] at h
  | tuple vs => simp [equals] at h
  | container k r => simp [equals] at h

theorem text_mem_distinct {t : String} {vs : List Value} : Value.text t ∈ distinct vs ↔ Value.text t ∈ vs := by
  induction vs with
  | nil => rfl
  | cons v vs ih =>
    rw [distinct, List.mem_cons, List.mem_cons, List.mem_filter, ih]
    constructor
    · rintro (h | ⟨h, -⟩)
      · exact .inl h
      · exact .inr h
    · rintro (h | h)
      · exact .inl h
      · by_cases same : v.equals (.text t) = true
        · exact .inl (equals_text same).symm
        · exact .inr ⟨h, by simpa using same⟩

theorem mem_filterMap_text? {name : String} {vs : List Value} :
    name ∈ vs.filterMap text? ↔ Value.text name ∈ vs := by
  rw [List.mem_filterMap]
  constructor
  · rintro ⟨v, mem, hv⟩
    unfold text? at hv
    split at hv
    · cases hv
      exact mem
    · cases hv
  · exact fun mem => ⟨_, mem, rfl⟩

end Value

/-- Names can be gathered, and a name is gathered exactly when it is an item. -/
theorem Reserved.names_of_lists {s : Store} {c : Settings} {vs : List Value} (lists : c.Lists s vs)
    (names : ∀ v ∈ vs, Settings.isName v = true) :
    ∃ reserved, c.reserved.names s = .ok reserved ∧ ∀ name, name ∈ reserved ↔ Value.text name ∈ vs := by
  refine ⟨(Value.distinct vs).filterMap Value.text?, ?_, fun name => ?_⟩
  · rw [Reserved.names, lists.gives]
    simp only [bind, Except.bind, Value.freeze, Value.unhashableAll?_of_names names]
    rfl
  · rw [Value.mem_filterMap_text?, Value.text_mem_distinct]

section

variable {s : Store} {c : Settings} {vs : List Value}

theorem Settings.spent_of_lasting (lasting : c.reserved.isLasting = true) : c.spent = c := by
  obtain ⟨reserved, logging, colored⟩ := c
  cases reserved with
  | items vs => rfl
  | once vs => cases lasting
  | value v => rfl

theorem Settings.spent_of_once (once : c.reserved.isLasting = false) : c.spent = { c with reserved := .once [] } := by
  obtain ⟨reserved, logging, colored⟩ := c
  cases reserved with
  | items vs => cases once
  | once vs => rfl
  | value v => cases once

theorem Settings.named_again (names : ∀ v ∈ vs, isName v = true) :
    ∀ v ∈ if c.reserved.isLasting then vs else [], isName v = true := by
  intro v hv
  split at hv
  · exact names v hv
  · cases hv

/-- What the second one finds who goes through the reserved names. -/
theorem Settings.Lists.again (lists : c.Lists s vs) :
    c.spent.Lists s (if c.reserved.isLasting then vs else []) := by
  cases lasting : c.reserved.isLasting with
  | true => exact (spent_of_lasting lasting).symm ▸ lists
  | false =>
    rw [spent_of_once lasting]
    exact ⟨rfl, rfl⟩

end

namespace Walker

variable (w : Walker σ ν) {names : List String}

theorem step_reserved (h : ∀ name, name ∈ names ↔ name ∈ w.reserved) (s : State σ ν) :
    ({ w with reserved := names } : Walker σ ν).step s = w.step s := by
  obtain ⟨store, memory, history, focus, stack⟩ := s
  cases focus with
  | next =>
    cases stack with
    | nil => rfl
    | cons frame rest =>
      cases frame with
      | fields node trail keys =>
        cases keys with
        | nil => rfl
        | cons key keys => simp only [step, nextStep, fieldStep, h]
      | items seq key parent trail position => rfl
      | visit o g => rfl
  | _ => rfl

/-- It does not matter how the reserved names are listed, or how often. -/
theorem walk_reserved (h : ∀ name, name ∈ names ↔ name ∈ w.reserved) (fuel : Nat) (tree : Value) (store : Store)
    (memory : σ) :
    ({ w with reserved := names } : Walker σ ν).walk fuel tree store memory = w.walk fuel tree store memory := by
  have same : ({ w with reserved := names } : Walker σ ν).step = w.step := funext (w.step_reserved h)
  rw [walk, walk, run_eq_iterate, run_eq_iterate, same]
  rfl

end Walker

/-! ## Visitors -/

namespace Visitor

/-- What a visitor has as its `enter` or `leave`. -/
def given : Visitor φ → Phase → Option (Handle φ)
  | .nothing, _ => none
  | .mapping enter _, .enter => enter
  | .mapping _ leave, .leave => leave
  | .object _ enter _ _, .enter => enter
  | .object _ _ leave _, .leave => leave

/-- What a visitor has called at each phase: its own members, or itself if it has none. -/
def resolved : Visitor φ → Phase → Option (Handle φ)
  | .object _ none none self, .enter => self
  | v, phase => v.given phase

/-- What is wrong with a visitor: it is neither nothing nor a mapping, has no members and cannot be called; or one of
    its members, the first of them, is neither null nor callable. -/
inductive Faulty (v : Visitor φ) : Fault → Prop
  | shapeless (typeName : String) (shape : v = .object typeName none none none) : Faulty v (.badVisitor typeName)
  | enter (h : Handle φ) (given : v.given .enter = some h) (null : h.isNull = false) (fixed : h.isCallable = false) :
      Faulty v (.badCallback .enter h.typeName)
  | leave (fine : ∀ h, v.given .enter = some h → h.isNull = true ∨ h.isCallable = true) (h : Handle φ)
      (given : v.given .leave = some h) (null : h.isNull = false) (fixed : h.isCallable = false) :
      Faulty v (.badCallback .leave h.typeName)

structure Usable (v : Visitor φ) : Prop where
  shape : ∀ typeName, v ≠ .object typeName none none none
  member : ∀ phase h, v.given phase = some h → h.isNull = true ∨ h.isCallable = true

theorem usable_or_faulty (v : Visitor φ) : v.Usable ∨ ∃ e, v.Faulty e := by
  by_cases shape : ∃ t, v = .object t none none none
  · obtain ⟨t, ht⟩ := shape
    exact .inr ⟨_, .shapeless t ht⟩
  · by_cases enter : ∀ h, v.given .enter = some h → h.isNull = true ∨ h.isCallable = true
    · by_cases leave : ∀ h, v.given .leave = some h → h.isNull = true ∨ h.isCallable = true
      · exact .inl ⟨not_exists.mp shape, fun | .enter => enter | .leave => leave⟩
      · simp only [not_forall, not_or, Bool.not_eq_true] at leave
        obtain ⟨h, given, null, fixed⟩ := leave
        exact .inr ⟨_, .leave enter h given null fixed⟩
    · simp only [not_forall, not_or, Bool.not_eq_true] at enter
      obtain ⟨h, given, null, fixed⟩ := enter
      exact .inr ⟨_, .enter h given null fixed⟩

section

variable {phase : Phase} {h : Handle φ} {o : Option (Handle φ)}

theorem member_of_fixed (null : h.isNull = false) (fixed : h.isCallable = false) :
    member phase (some h) = .error (.badCallback phase h.typeName) := by
  simp [member, null, fixed]

theorem member_of_fine (fine : ∀ h, o = some h → h.isNull = true ∨ h.isCallable = true) :
    member phase o = .ok (o.filter (!·.isNull)) := by
  cases o with
  | none => rfl
  | some h =>
    cases null : h.isNull with
    | true => simp [member, null, Option.filter]
    | false =>
      have callable := (fine h rfl).resolve_left (by simp [null])
      simp [member, null, callable, Option.filter]

theorem callbacks_of_given {v : Visitor φ} (given : v.given phase = some h) :
    v.callbacks = members (v.given .enter) (v.given .leave) := by
  cases v with
  | nothing => rfl
  | mapping enter leave => rfl
  | object t enter leave self =>
    cases enter with
    | some h => rfl
    | none =>
      cases leave with
      | some h => rfl
      | none => cases phase <;> cases given

end

theorem callbacks_of_faulty {v : Visitor φ} {e : Fault} (faulty : v.Faulty e) : v.callbacks = .error e := by
  cases faulty with
  | shapeless t shape =>
    subst shape
    rfl
  | enter h given null fixed =>
    rw [callbacks_of_given given, members, given, member_of_fixed null fixed]
    rfl
  | leave fine h given null fixed =>
    rw [callbacks_of_given given, members, member_of_fine fine, given, member_of_fixed null fixed]
    rfl

/-- The handles of a visitor that is not faulty are those it has, but null counts as none. -/
theorem callbacks_of_usable {v : Visitor φ} (usable : v.Usable) :
    ∃ enter leave, v.callbacks = .ok (enter, leave) ∧
      enter.filter (!·.isNull) = (v.resolved .enter).filter (!·.isNull) ∧
      leave.filter (!·.isNull) = (v.resolved .leave).filter (!·.isNull) := by
  have twice (o : Option (Handle φ)) : (o.filter (!·.isNull)).filter (!·.isNull) = o.filter (!·.isNull) := by
    rw [Option.filter_filter]
    simp
  have looked : members (v.given .enter) (v.given .leave) =
      .ok ((v.given .enter).filter (!·.isNull), (v.given .leave).filter (!·.isNull)) := by
    rw [members, member_of_fine (usable.member .enter), member_of_fine (usable.member .leave)]
    rfl
  cases v with
  | nothing => exact ⟨none, none, rfl, rfl, rfl⟩
  | mapping enter leave => exact ⟨_, _, looked, twice enter, twice leave⟩
  | object t enter leave self =>
    cases enter with
    | some h => exact ⟨_, _, looked, twice (some h), twice leave⟩
    | none =>
      cases leave with
      | some h => exact ⟨_, _, looked, twice none, twice (some h)⟩
      | none =>
        -- It has no members, so it is called itself.
        cases self with
        | some h => exact ⟨some h, none, rfl, rfl, rfl⟩
        | none => exact absurd rfl (usable.shape t)

/-- What is called at each phase; null stands for nothing. -/
def used (v : Visitor (Callback σ ν)) (phase : Phase) : Option (Callback σ ν) :=
  ((v.resolved phase).filter (!·.isNull)).map Handle.toCallback

end Visitor

/-! ## Visits -/

/-- A walker for these settings and this visitor, in which a name is reserved exactly when it is one of `items`. -/
structure Walker.Suits (w : Walker σ ν) (c : Settings) (v : Visitor (Callback σ ν)) (debug : Bool)
    (items : List Value) : Prop where
  enter : w.enter = v.used .enter
  leave : w.leave = v.used .leave
  reserved : ∀ name, name ∈ w.reserved ↔ Value.text name ∈ items
  logging : w.logging = c.logging
  colored : w.colored = c.colored
  debug : w.debug = debug

section

variable {settings : Option Settings} {v : Visitor (Callback σ ν)} {s : Store}

theorem accept_of_faulty_settings {e : Fault} (faulty : (settings.getD {}).Faulty s e) (debug : Bool) :
    accept settings v debug s = .error e := by
  rw [accept, Settings.check_of_faulty faulty]
  rfl

/-- Settings are looked at before the visitor is. -/
theorem visit_of_problems {c : Settings} {ps : List String} (problems : c.problems s = .ok ps) (some : ps ≠ [])
    (fuel : Nat) (debug : Bool) (tree : Value) (memory : σ) :
    visit fuel debug (.some c) v tree s memory = ⟨.some (.raised (.badConfig ps)), s, memory, []⟩ := by
  have refused : accept (.some c) v debug s = .error (.badConfig ps) := by
    rw [accept, Option.getD_some, Settings.check_of_problems problems some]
    rfl
  rw [visit, refused]

theorem accept_of_faulty_visitor (sound : (settings.getD {}).Sound s) {e : Fault} (faulty : v.Faulty e) (debug : Bool) :
    accept settings v debug s = .error e := by
  rw [accept, Settings.check_of_sound sound, Visitor.callbacks_of_faulty faulty]
  rfl

theorem accept_of_usable (sound : (settings.getD {}).Sound s) (usable : v.Usable) (debug : Bool) :
    ∃ w items, accept settings v debug s = .ok w ∧ (settings.getD {}).Lists s items ∧
      w.Suits (settings.getD {}) v debug (if (settings.getD {}).reserved.isLasting then items else []) := by
  obtain ⟨items, lists, names⟩ := sound
  -- The names are gathered from what the check has left.
  obtain ⟨reserved, gathered, mem⟩ := Reserved.names_of_lists lists.again (Settings.named_again names)
  obtain ⟨enter, leave, callbacks, henter, hleave⟩ := Visitor.callbacks_of_usable usable
  have accepted : accept settings v debug s = Walker.make enter leave (settings.getD {}).spent debug s := by
    rw [accept, Settings.check_of_sound ⟨items, lists, names⟩, callbacks]
    rfl
  rw [accepted, Walker.make, gathered]
  exact ⟨_, items, rfl, lists, ⟨congrArg (Option.map Handle.toCallback) henter,
    congrArg (Option.map Handle.toCallback) hleave, mem, rfl, rfl, rfl⟩⟩

theorem accept_error_iff {debug : Bool} {e : Fault} : accept settings v debug s = .error e ↔
    (settings.getD {}).Faulty s e ∨ (settings.getD {}).Sound s ∧ v.Faulty e := by
  constructor
  · intro refused
    rcases (settings.getD {}).sound_or_faulty s with sound | ⟨e', faulty⟩
    · rcases v.usable_or_faulty with usable | ⟨e', faulty⟩
      · obtain ⟨w, items, accepted, -⟩ := accept_of_usable sound usable debug
        rw [refused] at accepted
        cases accepted
      · have refused' := accept_of_faulty_visitor sound faulty debug
        rw [refused] at refused'
        cases refused'
        exact .inr ⟨sound, faulty⟩
    · have refused' := accept_of_faulty_settings (v := v) faulty debug
      rw [refused] at refused'
      cases refused'
      exact .inl faulty
  · rintro (faulty | ⟨sound, faulty⟩)
    · exact accept_of_faulty_settings faulty debug
    · exact accept_of_faulty_visitor sound faulty debug

end

/-- A visit is refused exactly for faulty settings, or, if these are sound, for a faulty visitor; then nothing is called
    or logged, and the store stays as it is. Every other visit is the walk that its settings and its visitor tell. From
    its first call to its last a name is reserved exactly when it was an item of what is given as the reserved names
    before the walk, whatever kind of collection that is; nothing is reserved if the items could be gone through only
    once, as the check did so. -/
theorem admission_exact (fuel : Nat) (debug : Bool) (settings : Option Settings) (visitor : Visitor (Callback σ ν))
    (tree : Value) (store : Store) (memory : σ) :
    let c := settings.getD {}
    let r := visit fuel debug settings visitor tree store memory
    (∀ e, accept settings visitor debug store = .error e ↔ c.Faulty store e ∨ c.Sound store ∧ visitor.Faulty e) ∧
    match accept settings visitor debug store with
    | .error e => r = ⟨some (.raised e), store, memory, []⟩
    | .ok w => ∃ items, c.Lists store items ∧
        let kept := if c.reserved.isLasting then items else []
        w.Suits c visitor debug kept ∧
          ∀ names, (∀ name, name ∈ names ↔ Value.text name ∈ kept) →
            r = ({ w with reserved := names } : Walker σ ν).walk fuel tree store memory := by
  intro c r
  refine ⟨fun e => accept_error_iff, ?_⟩
  cases accepted : accept settings visitor debug store with
  | error e =>
    show visit fuel debug settings visitor tree store memory = _
    rw [visit, accepted]
  | ok w =>
    have sound : c.Sound store := by
      refine (c.sound_or_faulty store).resolve_right ?_
      rintro ⟨e, faulty⟩
      rw [accept_of_faulty_settings faulty] at accepted
      cases accepted
    have usable : visitor.Usable := by
      refine visitor.usable_or_faulty.resolve_right ?_
      rintro ⟨e, faulty⟩
      rw [accept_of_faulty_visitor sound faulty] at accepted
      cases accepted
    obtain ⟨w', items, accepted', lists, suits⟩ := accept_of_usable sound usable debug
    rw [accepted] at accepted'
    cases accepted'
    refine ⟨items, lists, suits, fun names same => ?_⟩
    rw [w.walk_reserved fun name => (same name).trans (suits.reserved name).symm]
    show visit fuel debug settings visitor tree store memory = _
    rw [visit, accepted]

/-- A block with two names; the fields of the fourth record tell which fields are reserved. -/
def guarded : Store := ⟨#[
  { fields := .ofList [("type", .text "Block"), ("note", .container .mapping 1), ("body", .container .mapping 2)] },
  { fields := .ofList [("type", .text "Name")] },
  { fields := .ofList [("type", .text "Name")] },
  { fields := .ofList [("note", .null), ("data", .null)] }]⟩

/-- The reserved names are the keys of a mapping. A visitor that could be called itself has a `leave`, which counts; a
    visitor whose members are both no callbacks is refused for the first. With an iterator, nothing is reserved. -/
theorem guarded_admission :
    let settings : Option Settings := some { reserved := .value (.container .mapping 3) }
    let iterator : Option Settings := some { reserved := .once [.text "note"] }
    let object : Visitor (Callback Nat Unit) :=
      .object "Obj" (some (.value .null)) (some (.callback tally)) (some (.callback tally))
    let mapping : Visitor (Callback Nat Unit) := .mapping (some (.value (.int 5))) (some (.value (.text "x")))
    let w : Walker Nat Unit := ⟨none, some tally, ["data", "note"], false, false, true⟩
    let r := visit 20 true settings object (.container .mapping 0) guarded 0
    r = w.walk 20 (.container .mapping 0) guarded 0 ∧
      r.calls.map (·.node) = [.container .mapping 2, .container .mapping 0] ∧
      visit 20 true iterator object (.container .mapping 0) guarded 0 =
        ({ w with reserved := [] } : Walker Nat Unit).walk 20 (.container .mapping 0) guarded 0 ∧
      visit 20 true settings mapping (.container .mapping 0) guarded 0 =
        ⟨some (.raised (.badCallback .enter "int")), guarded, 0, []⟩ := by
  intro settings iterator object mapping w r
  have sound : (settings.getD {}).Sound guarded := ⟨[.text "note", .text "data"], ⟨rfl, rfl⟩, by decide⟩
  have sound' : (iterator.getD {}).Sound guarded := ⟨[.text "note"], ⟨rfl, rfl⟩, by decide⟩
  have walks : r = w.walk 20 (.container .mapping 0) guarded 0 := by
    have accepted : accept settings object true guarded = .ok { w with reserved := ["note", "data"] } := by
      rw [accept, Settings.check_of_sound sound]
      rfl
    obtain ⟨-, walks⟩ := admission_exact 20 true settings object (.container .mapping 0) guarded 0
    rw [accepted] at walks
    obtain ⟨items, lists, -, walks⟩ := walks
    have gives : Except.ok [Value.text "note", .text "data"] = Except.ok (ε := Fault) items := lists.gives
    cases gives
    exact walks ["data", "note"] (by simp [settings, Reserved.isLasting, or_comm])
  refine ⟨walks, ?_, ?_, ?_⟩
  · rw [walks]
    decide +kernel
  · have accepted : accept iterator object true guarded = .ok { w with reserved := [] } := by
      rw [accept, Settings.check_of_sound sound']
      rfl
    obtain ⟨-, walks⟩ := admission_exact 20 true iterator object (.container .mapping 0) guarded 0
    rw [accepted] at walks
    obtain ⟨items, -, -, walks⟩ := walks
    exact walks [] (by simp [iterator, Reserved.isLasting])
  · obtain ⟨refused, same⟩ := admission_exact 20 true settings mapping (.container .mapping 0) guarded 0
    rw [(refused (.badCallback .enter "int")).mpr (.inr ⟨sound, .enter (.value (.int 5)) rfl rfl rfl⟩)] at same
    exact same

/-- A block with two names, and a list that tells which fields are reserved. -/
def roster : Store := ⟨#[
  { fields := .ofList [("type", .text "Block"), ("names", .container .list 1), ("note", .container .mapping 2),
      ("body", .container .mapping 3)] },
  { items := [.text "note"] },
  { fields := .ofList [("type", .text "Name")] },
  { fields := .ofList [("type", .text "Name")] }]⟩

/-- Makes `body` the only item of the list. -/
def enroll : Callback Nat Unit := fun c s n =>
  { c.answer s (n + 1) (.ok .null) with store := s.put 1 { items := [.text "body"] } }

/-- The names that a walk leaves alone need not be the items of what is given as the reserved names. The item of an
    iterator is no such name, as the check has used it up. And if the items of a list become others during the walk, then
    what stands under the new name is entered, and what stands under the old one is not. -/
theorem listed_names_are_entered :
    let iterator : Settings := { reserved := .once [.text "note"] }
    let r : Run Nat Unit := visit 20 true (some iterator) (.function tally) (.container .mapping 0) guarded 0
    let list : Settings := { reserved := .value (.container .list 1) }
    let r' := visit 20 true (some list) (.function enroll) (.container .mapping 0) roster 0
    (iterator.Lists guarded [.text "note"] ∧ ∃ c ∈ r.calls, c.key = some "note") ∧
      (∃ x ∈ r'.exchanges, list.Lists x.before [.text "body"] ∧ x.call.key = some "body") ∧
      ∀ c ∈ r'.calls, c.key ≠ some "note" := by
  intro iterator r list r'
  have sound : ((some iterator).getD {}).Sound guarded := ⟨[.text "note"], ⟨rfl, rfl⟩, by decide⟩
  have sound' : ((some list).getD {}).Sound roster := ⟨[.text "note"], ⟨rfl, rfl⟩, by decide⟩
  have walks : r = Walker.walk ⟨some tally, none, [], false, false, true⟩ 20 (.container .mapping 0) guarded 0 := by
    have accepted : accept (some iterator) (.function tally) true guarded =
        .ok (⟨some tally, none, [], false, false, true⟩ : Walker Nat Unit) := by
      rw [accept, Settings.check_of_sound sound]
      rfl
    simp only [r, visit, accepted]
  have walks' : r' = Walker.walk ⟨some enroll, none, ["note"], false, false, true⟩ 20 (.container .mapping 0) roster 0 := by
    have accepted : accept (some list) (.function enroll) true roster =
        .ok (⟨some enroll, none, ["note"], false, false, true⟩ : Walker Nat Unit) := by
      rw [accept, Settings.check_of_sound sound']
      rfl
    simp only [r', visit, accepted]
  rw [walks, walks']
  have entered : ∃ x ∈ (Walker.walk ⟨some enroll, none, ["note"], false, false, true⟩ 20 (.container .mapping 0) roster
      0).exchanges, (x.before.cell 1).items = [.text "body"] ∧ x.call.key = some "body" := by decide +kernel
  obtain ⟨x, made, items, key⟩ := entered
  exact ⟨⟨⟨rfl, rfl⟩, by decide +kernel⟩, ⟨x, made, ⟨rfl, congrArg Except.ok items⟩, key⟩, by decide +kernel⟩

end TreeWalk
