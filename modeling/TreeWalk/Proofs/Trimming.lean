/-
  TreeWalk.Proofs.Trimming — stores from which calls of `console` were taken out.

  Taking a statement out of a list changes nothing but the elements of this list (`Trimmed`). So what is a node stays
  one, and what is a call of `console` stays one: both are told by fields. A question that failed may cease to fail,
  since a list that got empty counts as false; none begins to fail (`Trimmed.trips`).
  - `Trimmed.remove`: one statement is taken out.
  - `Covers`: the lists that the walk of a node comes to, if it does not enter statements in lists.
  - `Swept`: some lists were rid of their statements, and the others are as they were.
  - `covers_iff`: in a store that was swept, these are the lists that can be reached at all.
-/

import Mathlib.Data.List.Infix
import TreeWalk.Proofs.Addressing
import TreeWalk.Proofs.ConsoleCalls
import TreeWalk.Proofs.Positions

namespace TreeWalk

open Relation (ReflTransGen TransGen)

variable {base s t : Store} {v u : Value}

/-! ## Plain trees -/

/-- Texts, numbers and the like, lists and mappings. -/
def Value.Plain : Value → Prop
  | .atom _ => True
  | .tuple _ => False
  | .container k _ => k = .list ∨ k.isMapping = true

instance : DecidablePred Value.Plain
  | .atom _ => inferInstanceAs (Decidable True)
  | .tuple _ => inferInstanceAs (Decidable False)
  | .container k _ => inferInstanceAs (Decidable (k = .list ∨ k.isMapping = true))

def Store.Plain (s : Store) : Prop := ∀ r < s.size, ∀ v ∈ s.contents r, v.Plain

instance (s : Store) : Decidable s.Plain := inferInstanceAs (Decidable (∀ r < s.size, ∀ v ∈ s.contents r, v.Plain))

theorem Store.Plain.reaches {tree : Value} (h : s.Plain) (ht : tree.Plain)
    (reach : ReflTransGen (Value.Holds s) tree v) : v.Plain := by
  induction reach with
  | refl => exact ht
  | @tail u v _ holds ih =>
    cases u with
    | atom a => cases holds <;> contradiction
    | tuple vs => cases ih
    | container k r => exact h r (lt_size_of_mem_contents holds.mem_contents) v holds.mem_contents

theorem Value.Plain.isMapping (h : v.Plain) (hn : v.isNode s) : v.isMapping = true := by
  cases v with
  | atom a => cases hn
  | tuple vs => cases hn
  | container k r =>
    rcases h with rfl | hk
    · cases hn
    · exact hk

theorem Value.Plain.isMapping_of_mem_entries {e : String × Value} (h : v.Plain) (held : e ∈ v.entries s) :
    v.isMapping = true := by
  cases v with
  | atom a => cases held
  | tuple vs => cases held
  | container k r =>
    rcases h with rfl | hk
    · cases held
    · exact hk

theorem Value.Plain.list (h : v.Plain) (hs : v.isSequence) : ∃ r, v = .container .list r := by
  cases v with
  | atom a => cases hs
  | tuple vs => cases h
  | container k r =>
    rcases h with rfl | hk
    · exact ⟨r, rfl⟩
    · have hl : k.isList = true := hs
      cases k with
      | mapping => cases hl
      | frozenMapping => cases hl
      | _ => cases hk

namespace Estree.Console

/-- A node that is a call of `console`. -/
def isStatement (s : Store) (v : Value) : Bool :=
  v.isNode s &&
    match isCall s v with
    | .ok b => b
    | .error _ => false

theorem isStatement_eq_true : isStatement s v = true ↔ v.isNode s = true ∧ isCall s v = .ok true := by
  unfold isStatement
  cases isCall s v with
  | ok b => simp
  | error e => simp

theorem isStatement_of_not_isNode (h : v.isNode s = false) : isStatement s v = false := by
  rw [isStatement, h]
  rfl

theorem isStatement_of_isCall_false (h : isCall s v = .ok false) : isStatement s v = false := by
  rw [isStatement, h, Bool.and_false]

/-! ## Stores that were trimmed -/

/-- Nothing but calls of `console` is missing from the lists of a store, and nothing else has changed. -/
structure Trimmed (base s : Store) : Prop where
  size : s.size = base.size
  fields : ∀ r, (s.cell r).fields = (base.cell r).fields
  inherited : ∀ r, (s.cell r).inherited = (base.cell r).inherited
  items : ∀ r, (s.cell r).items.Sublist (base.cell r).items
  kept : ∀ r, (s.cell r).items.filter (!isStatement base ·) = (base.cell r).items.filter (!isStatement base ·)

/-- It is no list, or there is something besides statements in it: no removal makes it count as false. -/
def Lasts (base : Store) (u : Value) : Prop :=
  ∀ k r, u = .container k r → k.isList = true → ∃ x ∈ (base.cell r).items, isStatement base x = false

namespace Trimmed

theorem refl (s : Store) : Trimmed s s := ⟨rfl, fun _ => rfl, fun _ => rfl, fun _ => List.Sublist.refl _, fun _ => rfl⟩

variable (h : Trimmed base s) (v : Value)

include h

theorem isNode : v.isNode s = v.isNode base := by
  cases v with
  | container k r => simp only [Value.isNode, Value.tag, Store.attribute?, h.fields, h.inherited]
  | _ => rfl

theorem entries : v.entries s = v.entries base := by
  cases v with
  | container k r => simp only [Value.entries, h.fields]
  | _ => rfl

theorem ownNames : v.ownNames s = v.ownNames base := by
  cases v with
  | container k r => simp only [Value.ownNames, h.fields]
  | _ => rfl

theorem ownField (name : String) : v.ownField s name = v.ownField base name := by
  cases v with
  | container k r => simp only [Value.ownField, h.fields]
  | tuple vs => rfl
  | atom a =>
    cases a with
    | foreign f => cases f <;> rfl
    | _ => rfl

theorem sublist : (v.items s).Sublist (v.items base) := by
  cases v with
  | container k r =>
    simp only [Value.items]
    split
    · exact h.items r
    · exact List.Sublist.refl _
  | _ => exact List.Sublist.refl _

theorem has {name : String} : v.Has s name u ↔ v.Has base name u := by simp only [Value.Has, h.fields]

theorem callsConsole : CallsConsole s v ↔ CallsConsole base v := by simp only [CallsConsole, h.has]

variable {v}

omit h in
theorem blocks_of_fields (fields : ∀ r, (t.cell r).fields = (s.cell r).fields)
    (lists : ∀ k r, v = .container k r → k.isList = true → (s.cell r).items ≠ [] → (t.cell r).items ≠ [])
    (hv : v.Blocks s) : v.Blocks t := by
  refine ⟨?_, hv.other⟩
  have truthy := hv.truthy
  cases v with
  | container k r =>
    cases hl : k.isList with
    | false =>
      simp only [Value.truthy, hl, fields] at truthy ⊢
      exact truthy
    | true =>
      simp only [Value.truthy, hl, if_true, Bool.not_eq_true', List.isEmpty_eq_false_iff] at truthy ⊢
      exact lists k r rfl hl truthy
  | _ => exact truthy

/-- A list that got empty counts as false; nothing begins to count as true. -/
theorem blocks (hv : v.Blocks s) : v.Blocks base := by
  refine blocks_of_fields (fun r => (h.fields r).symm) (fun k r _ _ filled empty => ?_) hv
  have items := h.items r
  rw [empty] at items
  exact filled (List.sublist_nil.mp items)

theorem trips (hv : Trips s v u) : Trips base v u := hv.later (h.has _).mp h.blocks

section

variable (hn : v.isNode base) (mapping : v.isMapping = true)

include hn mapping

theorem isCall_true_iff : isCall s v = .ok true ↔ isCall base v = .ok true := by
  have hn' : v.isNode s := (h.isNode v).trans hn
  rw [Console.isCall_true_iff hn' mapping, Console.isCall_true_iff hn mapping]
  exact h.callsConsole v

theorem isStatement_eq : isStatement s v = isStatement base v := by
  have same := h.isCall_true_iff hn mapping
  rw [Bool.eq_iff_iff, isStatement_eq_true, isStatement_eq_true, h.isNode, same]

end

theorem isCall_error {e : Fault} (hn : v.isNode base) (mapping : v.isMapping = true) (fails : isCall s v = .error e) :
    isCall base v = .error e := by
  have hn' : v.isNode s := (h.isNode v).trans hn
  obtain ⟨u, trips, rfl⟩ := (Console.isCall_error_iff hn' mapping).mp fails
  exact (Console.isCall_error_iff hn mapping).mpr ⟨u, h.trips trips, rfl⟩

theorem mem_items {r : Ref} (mem : v ∈ (base.cell r).items) (stays : isStatement base v = false) :
    v ∈ (s.cell r).items := by
  have kept : v ∈ (base.cell r).items.filter (!isStatement base ·) := List.mem_filter.mpr ⟨mem, by simp [stays]⟩
  rw [← h.kept r] at kept
  exact (List.mem_filter.mp kept).1

theorem trips_of_lasts (lasts : Lasts base u) (hv : Trips base v u) : Trips s v u := by
  refine hv.later (h.has _).mpr (blocks_of_fields h.fields fun k r hu list _ => ?_)
  obtain ⟨x, mem, stays⟩ := lasts k r hu list
  exact List.ne_nil_of_mem (h.mem_items mem stays)

theorem items_eq {r : Ref} (clean : ∀ v ∈ (s.cell r).items, isStatement base v = false) :
    (s.cell r).items = (base.cell r).items.filter (!isStatement base ·) := by
  rw [← h.kept r, List.filter_eq_self.mpr]
  intro v hv
  rw [clean v hv]
  rfl

theorem remove {r : Ref} {pre suf : List Value} (items : (s.cell r).items = pre ++ v :: suf)
    (statement : isStatement base v = true) : Trimmed base (s.setItems r (pre ++ suf)) := by
  have place : r < s.size := Store.lt_size_of_items (i := pre.length) (v := v) (by rw [items]; simp)
  have same : (s.setItems r (pre ++ suf)).cell r = { s.cell r with items := pre ++ suf } := s.cell_put_same _ place
  have other : ∀ q, q ≠ r → (s.setItems r (pre ++ suf)).cell q = s.cell q := fun q hq => s.cell_put_ne _ hq
  refine ⟨?_, ?_, ?_, ?_, ?_⟩
  · rw [Store.setItems, Store.size_put, h.size]
  · intro q
    by_cases hq : q = r
    · rw [hq, same, ← h.fields]
    · rw [other q hq, h.fields]
  · intro q
    by_cases hq : q = r
    · rw [hq, same, ← h.inherited]
    · rw [other q hq, h.inherited]
  · intro q
    by_cases hq : q = r
    · have shorter : (pre ++ suf).Sublist (pre ++ v :: suf) := (List.sublist_cons_self v suf).append_left pre
      rw [hq, same]
      exact (items ▸ shorter).trans (h.items r)
    · rw [other q hq]
      exact h.items q
  · intro q
    by_cases hq : q = r
    · rw [hq, same, ← h.kept, items]
      simp [statement]
    · rw [other q hq, h.kept]

end Trimmed

/-! ## The lists that are come to -/

/-- The lists that the walk of a value comes to: those in its fields, and those below the nodes it enters. A statement
    in a list is not entered. -/
inductive Covers (base : Store) (reserved : List String) : Value → Ref → Prop
  | list {v : Value} {key : String} {r : Ref} (free : key ∉ reserved)
      (held : (key, .container .list r) ∈ v.entries base) : Covers base reserved v r
  | field {v u : Value} {key : String} {r : Ref} (free : key ∉ reserved) (held : (key, u) ∈ v.entries base)
      (single : u.isSequence = false) (node : u.isNode base = true) (below : Covers base reserved u r) :
      Covers base reserved v r
  | element {v u : Value} {key : String} {q r : Ref} (free : key ∉ reserved)
      (held : (key, .container .list q) ∈ v.entries base) (mem : u ∈ (base.cell q).items) (node : u.isNode base = true)
      (stays : isStatement base u = false) (below : Covers base reserved u r) : Covers base reserved v r

theorem Covers.holds {reserved : List String} {r : Ref} (h : Covers base reserved v r) :
    TransGen (Value.Holds base) v (.container .list r) := by
  induction h with
  | list _ held => exact .single (.field held)
  | field _ held _ _ _ ih => exact .head (.field held) ih
  | element _ held mem _ _ _ ih => exact .head (.field held) (.head (.item mem) ih)

/-- Some lists were rid of their statements, and the others are as they were. -/
structure Swept (base : Store) (P : Ref → Prop) (s t : Store) : Prop where
  trimmed : Trimmed base t
  less : ∀ r, (t.cell r).items ⊆ (s.cell r).items
  apart : ∀ r, ¬ P r → (t.cell r).items = (s.cell r).items
  clean : ∀ r, P r → ∀ v ∈ (t.cell r).items, isStatement base v = false

namespace Swept

variable {P Q : Ref → Prop} {w : Store}

theorem refl (h : Trimmed base s) (none : ∀ r, ¬ P r) : Swept base P s s :=
  ⟨h, fun _ => List.Subset.refl _, fun _ _ => rfl, fun r hr => absurd hr (none r)⟩

theorem trans (h : Swept base P s t) (h' : Swept base Q t w) : Swept base (fun r => P r ∨ Q r) s w := by
  refine ⟨h'.trimmed, fun r => List.Subset.trans (h'.less r) (h.less r), ?_, ?_⟩
  · intro r hr
    obtain ⟨hp, hq⟩ := not_or.mp hr
    rw [h'.apart r hq, h.apart r hp]
  · intro r hr v hv
    rcases hr with hp | hq
    · exact h.clean r hp v (h'.less r hv)
    · exact h'.clean r hq v hv

theorem congr (h : Swept base P s t) (same : ∀ r, Q r ↔ P r) : Swept base Q s t :=
  ⟨h.trimmed, h.less, fun r hr => h.apart r fun hp => hr ((same r).mpr hp), fun r hr => h.clean r ((same r).mp hr)⟩

end Swept

end Estree.Console

/-- A list that can be reached: a field that is not reserved holds it, of the root or of a node below it. -/
def Value.Listed (s : Store) (reserved : List String) (tree : Value) (r : Ref) : Prop :=
  ∃ o key, tree.Walked s reserved o ∧ key ∉ reserved ∧ (key, .container .list r) ∈ o.node.entries s

namespace Estree.Console

section

variable {reserved : List String} {tree : Value} (plain : ∀ v, ReflTransGen (Value.Holds base) tree v → v.Plain)

include plain

theorem covers_of_walked (swept : Swept base (Covers base reserved tree) s t) {o o' : Occurrence} {r : Ref}
    (walked : ReflTransGen (Occurrence.Child t reserved) o o') (reach : ReflTransGen (Value.Holds base) tree o.node)
    (within : ∀ r, Covers base reserved o.node r → Covers base reserved tree r)
    (found : Covers base reserved o'.node r) : Covers base reserved o.node r := by
  have trimmed := swept.trimmed
  -- Backwards along the way: a list that is come to from below is come to from above.
  induction walked using ReflTransGen.head_induction_on with
  | refl => exact found
  | head child _ ih =>
    cases child with
    | @field key u free held single node =>
      rw [trimmed.entries] at held
      rw [trimmed.isNode] at node
      have step : ∀ r, Covers base reserved u r → Covers base reserved _ r := fun r h => .field free held single node h
      exact step r (ih (reach.tail (.field held)) fun q hq => within q (step q hq))
    | @element key seq u i free held sequence stands node =>
      rw [trimmed.entries] at held
      rw [trimmed.isNode] at node
      have reach' := reach.tail (Value.Holds.field held)
      obtain ⟨q, rfl⟩ := (plain seq reach').list sequence
      have mem : u ∈ (t.cell q).items := List.mem_of_getElem? stands
      have mem' : u ∈ (base.cell q).items := (trimmed.items q).subset mem
      -- What is left in a list that was swept is no statement.
      have stays := swept.clean q (within q (.list free held)) u mem
      have step : ∀ r, Covers base reserved u r → Covers base reserved _ r := fun r h =>
        .element free held mem' node stays h
      exact step r (ih (reach'.tail (.item mem')) fun p hp => within p (step p hp))

end

theorem walked_of_covers {reserved : List String} {tree : Value} {r : Ref} (trimmed : Trimmed base t)
    (covers : Covers base reserved v r) {o : Occurrence} (walked : tree.Walked t reserved o) (node : o.node = v) :
    tree.Listed t reserved r := by
  induction covers generalizing o with
  | list free held =>
    rw [← node, ← trimmed.entries] at held
    exact ⟨o, _, walked, free, held⟩
  | field free held single hn _ ih =>
    rw [← node, ← trimmed.entries] at held
    rw [← trimmed.isNode] at hn
    exact ih (walked.tail (.field free held single hn)) rfl
  | element free held mem hn stays _ ih =>
    rw [← node, ← trimmed.entries] at held
    rw [← trimmed.isNode] at hn
    -- It may stand at another position by now.
    obtain ⟨i, stands⟩ := List.mem_iff_getElem?.mp (trimmed.mem_items mem stays)
    exact ih (walked.tail (.element free held rfl stands hn)) rfl

/-- In a store that was swept, the lists that were swept are those that can be reached. -/
theorem covers_iff {reserved : List String} {tree : Value} {r : Ref}
    (plain : ∀ v, ReflTransGen (Value.Holds base) tree v → v.Plain)
    (swept : Swept base (Covers base reserved tree) s t) :
    tree.Listed t reserved r ↔ Covers base reserved tree r := by
  constructor
  · intro listed
    obtain ⟨o, key, walked, free, held⟩ := listed
    rw [swept.trimmed.entries] at held
    exact covers_of_walked plain swept walked .refl (fun _ h => h) (.list free held)
  · intro covers
    exact walked_of_covers swept.trimmed covers (o := ⟨tree, none, none, []⟩) .refl rfl

end Estree.Console

end TreeWalk
