/-
  TreeWalk.Proofs.Positions — where a node has to stand in order to be entered.

  A node can stand in three positions: as the root, in a field of a record whose fields are walked, or as an element of
  a list or tuple in such a field (`Occurrence.Child`). A walk that is left alone (`Exchange.Quiet`) enters it in each
  of them and enters nothing else, with one exception: a node that is itself a list is entered as the root and as an
  element, but in a field it is taken for a list, and its elements are looked at in its place.
  - `child_iff_slot`: the positions below a record are its slots.
  - `enters_node`: what a visit enters, by induction along the children; `enters_of_chain` puts the visits of the
    children together.
  - `entered_positions`: the whole walk, in a tree without cycles; the rest of the store may have some.
-/

import TreeWalk.Proofs.Orders

namespace TreeWalk

open Relation (ReflTransGen TransGen)

variable {σ ν : Type}

/-! ## Positions -/

/-- A node that stands directly below a record. What is a list or tuple is not looked at as a node in a field. -/
inductive Occurrence.Child (s : Store) (reserved : List String) (o : Occurrence) : Occurrence → Prop
  | field {key : String} {v : Value} (free : key ∉ reserved) (held : (key, v) ∈ o.node.entries s)
      (single : v.isSequence = false) (node : v.isNode s = true) :
      Child s reserved o ⟨v, some key, none, o.ancestors ++ [o.node]⟩
  | element {key : String} {seq v : Value} {i : Nat} (free : key ∉ reserved) (held : (key, seq) ∈ o.node.entries s)
      (sequence : seq.isSequence = true) (stands : (seq.items s)[i]? = some v) (node : v.isNode s = true) :
      Child s reserved o ⟨v, some key, some i, o.ancestors ++ [o.node]⟩

/-- The occurrences whose fields are walked: the root, node or not, and the nodes below it. -/
def Value.Walked (s : Store) (reserved : List String) (tree : Value) (o : Occurrence) : Prop :=
  ReflTransGen (Occurrence.Child s reserved) ⟨tree, none, none, []⟩ o

section

variable {s : Store} {reserved : List String} {o o' : Occurrence}

theorem mem_slotsFrom_zero {key : String} {items : List Value} {c : Slot} :
    c ∈ Value.slotsFrom s key 0 items ↔
      ∃ i v, items[i]? = some v ∧ v.isNode s = true ∧ c = ⟨key, some i, v⟩ := by
  unfold Value.slotsFrom
  rw [List.mem_filterMap]
  constructor
  · rintro ⟨⟨v, i⟩, hx, hc⟩
    split at hc
    · rename_i hn
      cases hc
      exact ⟨i, v, List.mem_zipIdx_iff_getElem?.mp hx, hn, rfl⟩
    · cases hc
  · rintro ⟨i, v, hv, hn, rfl⟩
    exact ⟨(v, i), List.mem_zipIdx_iff_getElem?.mpr hv, by simp [hn]⟩

theorem child_iff_slot : o.Child s reserved o' ↔ ∃ c ∈ o.node.slots s reserved, o' = c.under o := by
  constructor
  · intro h
    cases h with
    | @field key v free held single node =>
      refine ⟨⟨key, none, v⟩, Value.mem_slots.mpr ⟨free, v, held, ?_⟩, rfl⟩
      simp [Value.slotsAt, single, node]
    | @element key seq v i free held sequence stands node =>
      refine ⟨⟨key, some i, v⟩, Value.mem_slots.mpr ⟨free, seq, held, ?_⟩, rfl⟩
      rw [Value.slotsAt, if_pos sequence]
      exact mem_slotsFrom_zero.mpr ⟨i, v, stands, node, rfl⟩
  · rintro ⟨c, hc, rfl⟩
    obtain ⟨free, v, held, hslot⟩ := Value.mem_slots.mp hc
    unfold Value.slotsAt at hslot
    split at hslot
    · rename_i sequence
      obtain ⟨i, u, stands, node, hc⟩ := mem_slotsFrom_zero.mp hslot
      rw [hc]
      exact .element free held sequence stands node
    · rename_i single
      split at hslot
      · rename_i node
        rw [List.mem_singleton] at hslot
        rw [hslot]
        exact .field free held (by simpa using single) node
      · cases hslot

/-- What lies below an occurrence is the occurrence itself, or lies below what stands in one of its slots. -/
theorem below_iff : ReflTransGen (Occurrence.Child s reserved) o o' ↔
    o' = o ∨ ∃ c ∈ o.node.slots s reserved, ReflTransGen (Occurrence.Child s reserved) (c.under o) o' := by
  constructor
  · intro h
    rcases h.cases_head with rfl | ⟨u, child, below⟩
    · exact .inl rfl
    · obtain ⟨c, hc, rfl⟩ := child_iff_slot.mp child
      exact .inr ⟨c, hc, below⟩
  · rintro (rfl | ⟨c, hc, below⟩)
    · exact .refl
    · exact .head (child_iff_slot.mpr ⟨c, hc, rfl⟩) below

theorem isNode_of_below (h : ReflTransGen (Occurrence.Child s reserved) o o') : o' = o ∨ o'.node.isNode s = true := by
  rcases h.cases_tail with rfl | ⟨_, -, child⟩
  · exact .inl rfl
  cases child with
  | field _ _ _ node => exact .inr node
  | element _ _ _ _ node => exact .inr node

theorem walked_of_other {tree : Value} (hn : tree.isNode s = false) :
    tree.Walked s reserved o ∧ o.node.isNode s ↔ ∃ c ∈ tree.slots s reserved,
      ReflTransGen (Occurrence.Child s reserved) (c.under ⟨tree, none, none, []⟩) o := by
  constructor
  · rintro ⟨walked, node⟩
    rcases below_iff.mp walked with rfl | below
    · rw [hn] at node
      cases node
    · exact below
  · rintro ⟨c, hc, below⟩
    refine ⟨below_iff.mpr (.inr ⟨c, hc, below⟩), ?_⟩
    rcases isNode_of_below below with rfl | node
    · exact Value.isNode_of_mem_slots hc
    · exact node

theorem single_of_walked {tree : Value} (walked : tree.Walked s reserved o) (key : o.key.isSome)
    (index : o.index = none) : o.node.isSequence = false := by
  rcases walked.cases_tail with rfl | ⟨_, -, child⟩
  · cases key
  cases child with
  | field _ _ single _ => exact single
  | element => cases index

end

/-! ## What a visit enters -/

namespace Walker

variable {w : Walker σ ν} {store : Store}

/-- The calls that are added enter all that lies below an occurrence, and are about nothing else. -/
def Enters (w : Walker σ ν) (store : Store) (o : Occurrence) (before after : List Call) : Prop :=
  ∃ cs, after = before ++ cs ∧
    (∀ o', ⟨o', .enter⟩ ∈ cs ↔ ReflTransGen (Occurrence.Child store w.reserved) o o') ∧
    ∀ c ∈ cs, ReflTransGen (Occurrence.Child store w.reserved) o c.toOccurrence

theorem enters_of_chain {o : Occurrence} {slots : List Slot} {before after : List Call}
    (chain : Chain (fun c => w.Enters store (c.under o)) slots before after) :
    ∃ cs, after = before ++ cs ∧
      (∀ o', ⟨o', .enter⟩ ∈ cs ↔
        ∃ c ∈ slots, ReflTransGen (Occurrence.Child store w.reserved) (c.under o) o') ∧
      ∀ d ∈ cs, ∃ c ∈ slots, ReflTransGen (Occurrence.Child store w.reserved) (c.under o) d.toOccurrence := by
  induction chain with
  | nil before => exact ⟨[], (List.append_nil before).symm, by simp, by simp⟩
  | cons head _ ih =>
    obtain ⟨cs, rfl, enters, about⟩ := head
    obtain ⟨ds, rfl, enters', about'⟩ := ih
    refine ⟨cs ++ ds, List.append_assoc _ _ _, fun o' => ?_, fun d hd => ?_⟩
    · rw [List.mem_append, enters, enters', List.exists_mem_cons_iff]
    · rw [List.exists_mem_cons_iff]
      rcases List.mem_append.mp hd with hd | hd
      · exact .inl (about d hd)
      · exact .inr (about' d hd)

theorem mem_callsFor {phase : Phase} {o : Occurrence} {c : Call} :
    c ∈ w.callsFor phase o ↔ w.hears phase = true ∧ c = ⟨o, phase⟩ := by
  unfold callsFor
  split <;> simp [*]

theorem enters_node (enter : w.enter.isSome) {v : Value}
    (acc : Acc (fun u v : Value => ∃ c ∈ v.slots store w.reserved, c.value = u) v) (complete : v.Complete store)
    {o : Occurrence} (node : o.node = v) : w.Visits (w.calmWatch store) o (w.Enters store o) := by
  induction acc generalizing o with
  | intro v _ ih =>
    subst node
    have visits : ∀ c ∈ o.node.slots store w.reserved,
        w.Visits (w.calmWatch store) (c.under o) (w.Enters store (c.under o)) := fun c hc =>
      ih c.value ⟨c, hc, rfl⟩ (complete.reaches (Value.holds_of_mem_slots hc)) rfl
    intro s calm focus
    obtain ⟨t, g, mid, reach, calm', hF, mute, hK, chain, hcalls⟩ := calm_visit complete visits calm focus
    obtain ⟨cs, rfl, enters, about⟩ := enters_of_chain chain
    refine ⟨t, g, reach, calm', hF, ⟨mute.exit, mute.resume⟩, hK, w.callsFor .enter o ++ cs ++ w.callsFor .leave o, ?_,
      fun o' => ?_, fun c hc => ?_⟩
    · show t.calls = s.calls ++ _
      simp only [hcalls, List.append_assoc]
    · -- Among the calls for the node itself, only the first one enters something.
      rw [below_iff, ← enters o']
      simp [mem_callsFor, hears, enter]
    · rw [below_iff]
      simp only [List.mem_append, mem_callsFor] at hc
      rcases hc with (⟨-, rfl⟩ | hc) | ⟨-, rfl⟩
      · exact .inl rfl
      · exact .inr (about c hc)
      · exact .inl rfl

/-! ## The whole walk -/

section

variable {tree : Value} {memory : σ} (enter : w.enter.isSome) (acyclic : tree.Acyclic store)
  (complete : tree.Complete store) (calm : w.Calm store (w.start tree store memory))

include enter acyclic complete calm

theorem leads_to_positions : ∃ t g cs, w.Leads (w.start tree store memory) cs t ∧ t.focus = .done (.returned g) ∧
    (∀ o, ⟨o, .enter⟩ ∈ cs ↔ tree.Walked store w.reserved o ∧ o.node.isNode store) ∧
    ∀ c ∈ cs, tree.Walked store w.reserved c.toOccurrence ∧ c.node.isNode store := by
  have hc : w.HasCallback := .inl enter
  cases hn : tree.isNode store with
  | true =>
    obtain ⟨t, g, reach, -, hdone, cs, hcs, enters, about⟩ :=
      ends_with_root hc calm hn (enters_node enter (acyclic.acc w.reserved .refl) complete rfl)
    have node : ∀ o, tree.Walked store w.reserved o → o.node.isNode store := fun o ho => by
      rcases isNode_of_below ho with rfl | node
      · exact hn
      · exact node
    refine ⟨t, g, cs, ⟨reach, hcs⟩, hdone, fun o => ?_, fun c hc => ⟨about c hc, node _ (about c hc)⟩⟩
    rw [enters o]
    exact ⟨fun ho => ⟨ho, node o ho⟩, And.left⟩
  | false =>
    have intact : ∀ s, (w.calmWatch store).Holds s → tree.Intact store s.store := fun s calm =>
      calm.grows.intact complete
    have visits : ∀ c ∈ tree.slots store w.reserved, w.Visits (w.calmWatch store) (c.under ⟨tree, none, none, []⟩)
        (w.Enters store (c.under ⟨tree, none, none, []⟩)) := fun c hc => by
      have down := Value.holds_of_mem_slots hc
      exact enters_node enter (acyclic.acc w.reserved down.to_reflTransGen) (complete.reaches down) rfl
    obtain ⟨t, reach, -, hdone, chain⟩ := ends_with_children hc calm hn intact visits
    obtain ⟨cs, hcs, enters, about⟩ := enters_of_chain chain
    exact ⟨t, .silent, cs, ⟨reach, hcs⟩, hdone, fun o => (enters o).trans (walked_of_other hn).symm,
      fun c hc => (walked_of_other hn).mpr (about c hc)⟩

end

end Walker

/-- A walk that is left alone, in a tree without cycles, comes to an end. It enters exactly the nodes that stand in the
    tree: the root, those in fields and those in lists and tuples in fields. Nothing that is no node is passed to a
    callback. A node that is itself a list is not entered where it stands in a field. -/
theorem entered_positions (w : Walker σ ν) (enter : w.enter.isSome) {store : Store} {tree : Value}
    (acyclic : tree.Acyclic store) (complete : tree.Complete store) (memory : σ)
    (quiet : ∀ fuel, ∀ x ∈ (w.walk fuel tree store memory).exchanges, x.Quiet) :
    ∃ r, w.Ends tree store memory r ∧ (∃ g, r.outcome = some (.returned g)) ∧
      (∀ o, ⟨o, .enter⟩ ∈ r.calls ↔ tree.Walked store w.reserved o ∧ o.node.isNode store) ∧
      (∀ c ∈ r.calls, tree.Walked store w.reserved c.toOccurrence ∧ c.node.isNode store) ∧
      ∀ c ∈ r.calls, c.key.isSome → c.index = none → c.node.isSequence = false := by
  have calm := Walker.calm_of_quiet quiet
  obtain ⟨t, g, cs, lead, hdone, enters, about⟩ := Walker.leads_to_positions enter acyclic complete calm
  obtain ⟨r, ends, returned, -, rfl⟩ := lead.ends hdone
  exact ⟨r, ends, ⟨g, returned⟩, enters, about, fun c hc => single_of_walked (about c hc).1⟩

/-- A list that is a node, once in a list and once in a field. -/
def listed : Store := ⟨#[
  { fields := .ofList [("type", .text "Name")] },
  { items := [.container .mapping 0], fields := .ofList [("type", .text "List")] },
  { items := [.int 1, .container .listObject 1] },
  { fields := .ofList [("type", .text "Block"), ("rows", .container .list 2), ("body", .container .listObject 1),
      ("parent", .container .mapping 0)] }]⟩

/-- As an element the list is entered. In the field it is not, and the node it has is found there in its place. -/
theorem listed_positions : ∃ r, counting.Ends (.container .mapping 3) listed 0 r ∧
    (∀ o, ⟨o, .enter⟩ ∈ r.calls ↔
      (Value.container .mapping 3).Walked listed ["parent"] o ∧ o.node.isNode listed) ∧
    (Value.container .listObject 1).isNode listed ∧
    ((counting.walk 200 (.container .mapping 3) listed 0).calls.filter (·.phase = .enter)).map
        (fun c => (c.node, c.key, c.index)) =
      [(.container .mapping 3, none, none), (.container .listObject 1, some "rows", some 1),
        (.container .mapping 0, some "body", some 0)] := by
  have layered : listed.Layered := by decide
  have acyclic : (Value.container .mapping 3).Acyclic listed := fun v _ => layered.acyclic v
  obtain ⟨r, ends, -, enters, -⟩ := entered_positions counting rfl acyclic
    (layered.complete (v := .container .mapping 3) (by decide)) 0 (counting_quiet _ _ _)
  exact ⟨r, ends, enters, by decide, by decide⟩

end TreeWalk
