/-
  TreeWalk.Proofs.ConsoleCalls — which nodes are calls of `console`, and which cannot be asked.

  Three look-ups lead from a statement to what it calls a method of. Each takes what counts as false for an empty
  mapping; what counts as true must be a mapping, or the look-up fails. That is so for every node, whatever its type is.
  - `Estree.Console.CallsConsole`: what a call of `console` looks like, told by fields alone.
  - `Estree.Console.Trips`: a node has something true that is no mapping where a look-up needs one.
  - `isCall_true_iff`, `isCall_error_iff`: the answer is yes for the former, fails for the latter, no for all others.
-/

import TreeWalk.Estree.Console
import TreeWalk.Record
import TreeWalk.Proofs.Children

namespace TreeWalk

variable {s t : Store} {v u : Value} {name : String}

/-! ## Mappings -/

namespace Value

/-- Fields can be looked up in it. -/
def isMapping : Value → Bool
  | .container k _ => k.isMapping
  | _ => false

/-- A mapping holds this under a name. -/
def Has (s : Store) (v : Value) (name : String) (u : Value) : Prop :=
  ∃ k r, v = .container k r ∧ k.isMapping = true ∧ (s.cell r).fields.get? name = some u

/-- It counts as true and is no mapping. -/
structure Blocks (s : Store) (v : Value) : Prop where
  truthy : v.truthy s = true
  other : v.isMapping = false

theorem Has.isMapping (h : v.Has s name u) : v.isMapping = true := by
  obtain ⟨k, r, rfl, hk, -⟩ := h
  exact hk

theorem Has.unique {u' : Value} (h : v.Has s name u) (h' : v.Has s name u') : u = u' := by
  obtain ⟨k, r, rfl, -, hu⟩ := h
  obtain ⟨k', r', e, -, hu'⟩ := h'
  cases e
  rw [hu] at hu'
  exact Option.some.inj hu'

theorem Has.not_blocks (h : v.Has s name u) : ¬ v.Blocks s := by
  intro blocks
  have other := blocks.other
  rw [h.isMapping] at other
  cases other

theorem lookups_of_other (h : v.isMapping = false) : v.lookups s = .error (.noLookup v.typeName) := by
  cases v with
  | atom a => rfl
  | tuple vs => rfl
  | container k r =>
    have hk : k.isMapping = false := h
    simp only [lookups, hk, Bool.false_eq_true, if_false]
    rfl

theorem lookups_of_isMapping (s : Store) (h : v.isMapping = true) :
    ∃ f, v.lookups s = .ok f ∧ ∀ name u, f.get? name = some u ↔ v.Has s name u := by
  cases v with
  | atom a => cases h
  | tuple vs => cases h
  | container k r =>
    have hk : k.isMapping = true := h
    refine ⟨(s.cell r).fields, by simp only [lookups, hk, if_true], ?_⟩
    intro name u
    constructor
    · intro found
      exact ⟨k, r, rfl, hk, found⟩
    · intro has
      obtain ⟨k', r', e, -, found⟩ := has
      cases e
      exact found

theorem Has.truthy (h : v.Has s name u) : v.truthy s = true := by
  obtain ⟨k, r, rfl, hk, found⟩ := h
  have hl : k.isList = false := by cases k <;> first | rfl | cases hk
  have filled : (s.cell r).fields.isEmpty = false := by
    unfold Fields.get? at found
    unfold Fields.isEmpty
    cases entries : (s.cell r).fields.entries with
    | nil => rw [entries] at found; cases found
    | cons e rest => rfl
  simp [Value.truthy, hl, hk, filled]

theorem has_type_of_isNode (hn : v.isNode s) (mapping : v.isMapping = true) : ∃ t, v.Has s "type" (.text t) := by
  cases v with
  | atom a => cases mapping
  | tuple vs => cases mapping
  | container k r =>
    have hk : k.isMapping = true := mapping
    have hf : k.hasFields = true := by cases k <;> first | rfl | cases hk
    have ho : k ≠ .object := by
      intro e
      rw [e] at hk
      cases hk
    cases field : (s.cell r).fields.get? "type" with
    | none => simp [isNode, tag, hf, Store.attribute?, field, ho] at hn
    | some u =>
      cases text : u.text? with
      | none => simp [isNode, tag, hf, Store.attribute?, field, text] at hn
      | some t =>
        unfold text? at text
        split at text
        · exact ⟨_, k, r, rfl, hk, field⟩
        · cases text

theorem Has.subscript (h : v.Has s name u) : v.subscript s name = .ok u := by
  obtain ⟨k, r, rfl, hk, found⟩ := h
  simp only [Value.subscript, hk, if_true, found]

end Value

/-! ## Calls of `console` -/

namespace Estree.Console

/-- What stands under a name in one of these values. -/
def Under (s : Store) (P : Value → Prop) (name : String) (u : Value) : Prop := ∃ v, P v ∧ v.Has s name u

/-- The fields are those of these values, of which there is one at most. -/
def FieldsOf (s : Store) (P : Value → Prop) (f : Fields Value) : Prop :=
  ∀ name u, f.get? name = some u ↔ Under s P name u

/-- A look-up that may be in vain finds what is there, or fails on what is in its way. -/
theorem lookup_under {P : Value → Prop} {f : Fields Value} (fields : FieldsOf s P f) (name : String) :
    (∃ f', lookupsOrEmpty s (f.get? name) = .ok f' ∧ FieldsOf s (Under s P name) f' ∧
      ∀ u, Under s P name u → ¬ u.Blocks s) ∨
    ∃ u, Under s P name u ∧ u.Blocks s ∧ lookupsOrEmpty s (f.get? name) = .error (.noLookup u.typeName) := by
  cases found : f.get? name with
  | none =>
    have nothing : ∀ u, ¬ Under s P name u := by
      intro u hu
      rw [(fields name u).mpr hu] at found
      cases found
    refine .inl ⟨∅, rfl, ?_, fun u hu => absurd hu (nothing u)⟩
    intro name' u
    constructor
    · intro h
      cases h
    · intro h
      obtain ⟨v, hv, -⟩ := h
      exact absurd hv (nothing v)
  | some v =>
    have only : ∀ u, Under s P name u ↔ u = v := by
      intro u
      rw [← fields name u, found, Option.some.injEq]
      exact eq_comm
    have fieldsOf : ∀ f', (∀ name' u, f'.get? name' = some u ↔ v.Has s name' u) → FieldsOf s (Under s P name) f' := by
      intro f' inside name' u
      rw [inside]
      constructor
      · intro has
        exact ⟨v, (only v).mpr rfl, has⟩
      · intro has
        obtain ⟨v', hv', has⟩ := has
        rwa [(only v').mp hv'] at has
    cases truthy : v.truthy s with
    | false =>
      refine .inl ⟨∅, by simp [lookupsOrEmpty, truthy], fieldsOf ∅ ?_, ?_⟩
      · -- A mapping that counts as false holds nothing.
        intro name' u
        constructor
        · intro h
          cases h
        · intro has
          rw [has.truthy] at truthy
          cases truthy
      · intro u hu blocks
        rw [(only u).mp hu] at blocks
        rw [blocks.truthy] at truthy
        cases truthy
    | true =>
      cases mapping : v.isMapping with
      | false =>
        refine .inr ⟨v, (only v).mpr rfl, ⟨truthy, mapping⟩, ?_⟩
        simp only [lookupsOrEmpty, truthy, if_true, Value.lookups_of_other mapping]
      | true =>
        obtain ⟨f', hf', inside⟩ := v.lookups_of_isMapping s mapping
        refine .inl ⟨f', by simp only [lookupsOrEmpty, truthy, if_true, hf'], fieldsOf f' inside, ?_⟩
        intro u hu blocks
        rw [(only u).mp hu] at blocks
        rw [blocks.other] at mapping
        cases mapping

/-- A statement whose expression calls something that an object named `console` has. -/
def CallsConsole (s : Store) (v : Value) : Prop :=
  v.Has s "type" (.text "ExpressionStatement") ∧ ∃ e c o, v.Has s "expression" e ∧
    e.Has s "type" (.text "CallExpression") ∧ e.Has s "callee" c ∧ c.Has s "object" o ∧
    o.Has s "name" (.text "console")

/-- What is in the way of a look-up. The last one is made only if the types are right. -/
inductive Trips (s : Store) (v : Value) : Value → Prop
  | expression {e : Value} (he : v.Has s "expression" e) (blocks : e.Blocks s) : Trips s v e
  | callee {e c : Value} (he : v.Has s "expression" e) (hc : e.Has s "callee" c) (blocks : c.Blocks s) : Trips s v c
  | object {e c o : Value} (statement : v.Has s "type" (.text "ExpressionStatement")) (he : v.Has s "expression" e)
      (call : e.Has s "type" (.text "CallExpression")) (hc : e.Has s "callee" c) (ho : c.Has s "object" o)
      (blocks : o.Blocks s) : Trips s v o

theorem Trips.later (has : ∀ {x y : Value} {name : String}, x.Has s name y → x.Has t name y)
    (blocks : u.Blocks s → u.Blocks t) (h : Trips s v u) : Trips t v u := by
  cases h with
  | expression he b => exact .expression (has he) (blocks b)
  | callee he hc b => exact .callee (has he) (has hc) (blocks b)
  | object statement he call hc ho b =>
    exact .object (has statement) (has he) (has call) (has hc) (has ho) (blocks b)

/-- One thing at most is in the way: a look-up that fails is the last. -/
theorem Trips.unique {u' : Value} (h : Trips s v u) (h' : Trips s v u') : u = u' := by
  cases h with
  | expression he blocks =>
    cases h' with
    | expression he' => exact he.unique he'
    | callee he' hc =>
      rw [he.unique he'] at blocks
      exact absurd blocks hc.not_blocks
    | object _ he' _ hc =>
      rw [he.unique he'] at blocks
      exact absurd blocks hc.not_blocks
  | callee he hc blocks =>
    cases h' with
    | expression he' blocks' =>
      rw [he'.unique he] at blocks'
      exact absurd blocks' hc.not_blocks
    | callee he' hc' =>
      cases he.unique he'
      exact hc.unique hc'
    | object _ he' _ hc' ho =>
      cases he.unique he'
      rw [hc.unique hc'] at blocks
      exact absurd blocks ho.not_blocks
  | object statement he call hc ho blocks =>
    cases h' with
    | expression he' blocks' =>
      rw [he'.unique he] at blocks'
      exact absurd blocks' hc.not_blocks
    | callee he' hc' blocks' =>
      cases he.unique he'
      rw [hc'.unique hc] at blocks'
      exact absurd blocks' ho.not_blocks
    | object _ he' _ hc' ho' =>
      cases he.unique he'
      cases hc.unique hc'
      exact ho.unique ho'

theorem CallsConsole.not_trips (h : CallsConsole s v) : ¬ Trips s v u := by
  obtain ⟨-, e, c, o, he, -, hc, ho, hname⟩ := h
  intro trips
  cases trips with
  | expression he' blocks =>
    rw [he'.unique he] at blocks
    exact hc.not_blocks blocks
  | callee he' hc' blocks =>
    cases he'.unique he
    rw [hc'.unique hc] at blocks
    exact ho.not_blocks blocks
  | object _ he' _ hc' ho' blocks =>
    cases he'.unique he
    cases hc'.unique hc
    rw [ho'.unique ho] at blocks
    exact hname.not_blocks blocks

/-- What the question about a node comes to. -/
inductive Verdict (s : Store) (v : Value) : Except Fault Bool → Prop
  | yes (calls : CallsConsole s v) : Verdict s v (.ok true)
  | no (other : ¬ CallsConsole s v) (free : ∀ u, ¬ Trips s v u) : Verdict s v (.ok false)
  | fails {u : Value} (trips : Trips s v u) : Verdict s v (.error (.noLookup u.typeName))

/-- The three look-ups of a node, one after the other. -/
theorem verdict_isCall (hn : v.isNode s) (mapping : v.isMapping = true) : Verdict s v (isCall s v) := by
  obtain ⟨fields, hfields, inNode⟩ := v.lookups_of_isMapping s mapping
  obtain ⟨type, htype⟩ := Value.has_type_of_isNode hn mapping
  have ofNode : FieldsOf s (· = v) fields := by
    intro name u
    rw [inNode]
    simp [Under]
  unfold isCall
  simp only [hfields, htype.subscript, bind, Except.bind]
  rcases lookup_under ofNode "expression" with ⟨expression, hexpression, ofExpression, freeE⟩ | ⟨e, he, blocks, fails⟩
  · rcases lookup_under ofExpression "callee" with ⟨callee, hcallee, ofCallee, freeC⟩ | ⟨c, hc, blocks, fails⟩
    · -- Whether the last look-up is made depends on the types.
      simp only [hexpression, hcallee]
      by_cases types : Value.text type = .text "ExpressionStatement" ∧
          expression.get? "type" = some (.text "CallExpression")
      · obtain ⟨statement, call⟩ := types
        rw [statement] at htype
        obtain ⟨e, ⟨_, rfl, he⟩, hcall⟩ := (ofExpression _ _).mp call
        simp only [statement, call, and_self, if_true]
        rcases lookup_under ofCallee "object" with ⟨target, htarget, ofTarget, freeO⟩ | ⟨o, ho, blocks, fails⟩
        · simp only [htarget, pure, Except.pure]
          by_cases named : target.get? "name" = some (.text "console")
          · obtain ⟨o, ⟨c, ⟨e', ⟨_, rfl, he'⟩, hc⟩, ho⟩, hname⟩ := (ofTarget _ _).mp named
            cases he.unique he'
            simp only [named, decide_true]
            exact .yes ⟨htype, e, c, o, he, hcall, hc, ho, hname⟩
          · simp only [named, decide_false]
            refine .no ?_ ?_
            · intro calls
              obtain ⟨-, e', c', o', he', -, hc', ho', hname⟩ := calls
              exact named ((ofTarget _ _).mpr ⟨o', ⟨c', ⟨e', ⟨_, rfl, he'⟩, hc'⟩, ho'⟩, hname⟩)
            · intro u trips
              cases trips with
              | expression he' blocks => exact freeE u ⟨_, rfl, he'⟩ blocks
              | callee he' hc' blocks => exact freeC u ⟨_, ⟨_, rfl, he'⟩, hc'⟩ blocks
              | object _ he' _ hc' ho' blocks => exact freeO u ⟨_, ⟨_, ⟨_, rfl, he'⟩, hc'⟩, ho'⟩ blocks
        · obtain ⟨c, ⟨e', ⟨_, rfl, he'⟩, hc⟩, ho⟩ := ho
          cases he.unique he'
          simp only [fails]
          exact .fails (.object htype he hcall hc ho blocks)
      · simp only [types, if_false, pure, Except.pure]
        refine .no ?_ ?_
        · intro calls
          obtain ⟨statement, e', c', o', he', hcall', -⟩ := calls
          exact types ⟨htype.unique statement, (ofExpression _ _).mpr ⟨e', ⟨_, rfl, he'⟩, hcall'⟩⟩
        · intro u trips
          cases trips with
          | expression he' blocks => exact freeE u ⟨_, rfl, he'⟩ blocks
          | callee he' hc' blocks => exact freeC u ⟨_, ⟨_, rfl, he'⟩, hc'⟩ blocks
          | object statement he' hcall' =>
            exact types ⟨htype.unique statement, (ofExpression _ _).mpr ⟨_, ⟨_, rfl, he'⟩, hcall'⟩⟩
    · obtain ⟨e, ⟨_, rfl, he⟩, hc⟩ := hc
      simp only [hexpression, fails]
      exact .fails (.callee he hc blocks)
  · obtain ⟨_, rfl, he⟩ := he
    simp only [fails]
    exact .fails (.expression he blocks)

section

variable (hn : v.isNode s) (mapping : v.isMapping = true)

include hn mapping

theorem isCall_true_iff : isCall s v = .ok true ↔ CallsConsole s v := by
  have verdict := verdict_isCall hn mapping
  generalize isCall s v = answer at verdict ⊢
  cases verdict with
  | yes calls => simp [calls]
  | no other => simp [other]
  | fails trips =>
    refine ⟨(fun h => by cases h), fun calls => ?_⟩
    exact absurd trips calls.not_trips

theorem isCall_error_iff {e : Fault} :
    isCall s v = .error e ↔ ∃ u, Trips s v u ∧ e = .noLookup u.typeName := by
  have verdict := verdict_isCall hn mapping
  generalize isCall s v = answer at verdict ⊢
  cases verdict with
  | yes calls =>
    refine ⟨(fun h => by cases h), fun h => ?_⟩
    obtain ⟨u, trips, -⟩ := h
    exact absurd trips calls.not_trips
  | no _ free =>
    refine ⟨(fun h => by cases h), fun h => ?_⟩
    obtain ⟨u, trips, -⟩ := h
    exact absurd trips (free u)
  | @fails u trips =>
    constructor
    · intro h
      cases h
      exact ⟨u, trips, rfl⟩
    · intro h
      obtain ⟨u', trips', rfl⟩ := h
      rw [trips.unique trips']

end

end Estree.Console

end TreeWalk
