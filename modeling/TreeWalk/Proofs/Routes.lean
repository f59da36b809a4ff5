/-
  TreeWalk.Proofs.Routes — the calls on the way through a node, told without a walk.

  A visitor may ask for things by the node alone: to skip it when it is entered, and to go on at some position when it
  is left (`Policy`). Then the slots of a record that a walk comes to can be told from the record (`Comes`), and the
  calls for a node from the node (`Route`). A route is told as if its node were the root. Where the node occurs in a
  larger tree, its route is grafted on the occurrence (`Call.graft`): the ancestors of the occurrence go in front, and
  the root has its key and its position.
  - `Comes.eq_slots`: where no position other than the next one is named, these slots are all slots in their order.
  - `Occurrence.graft_graft`, `map_graft_through`: to graft a route is to graft the routes below it.
  - `Route.balanced`: a route enters its node and leaves it, and what is between is balanced.
  - `Route.found`: wherever a route enters a node, the route of this node begins.
-/

import TreeWalk.Proofs.Descent

namespace TreeWalk

open Relation (ReflTransGen)

/-- What a visitor asks for, told by the node. -/
structure Policy where
  /-- To skip the node when it is entered. -/
  skips : Value → Bool
  /-- The position to go on at when it is left. -/
  resumes : Value → Option Int

/-! ## The slots a walk comes to -/

/-- How far a walk is with a record: between two fields, or at a position of a list in one of them. -/
inductive Cursor where
  | fields (ahead : List (String × Value))
  | items (key : String) (seq : Value) (position : Int) (ahead : List (String × Value))

/-- What comes next in a record. -/
inductive Turn where
  | done
  | on (next : Cursor)
  | enter (c : Slot) (next : Cursor)

/-- What comes next at a cursor. After a node in a list, the list goes on at the position that is named, or at the next
    one. -/
inductive Cursor.Takes (p : Policy) (store : Store) (reserved : List String) : Cursor → Turn → Prop
  | done : Takes p store reserved (.fields []) .done
  | pass {key : String} {v : Value} {ahead : List (String × Value)}
      (h : key ∈ reserved ∨ v.isSequence = false ∧ v.isNode store = false) :
      Takes p store reserved (.fields ((key, v) :: ahead)) (.on (.fields ahead))
  | scan {key : String} {v : Value} {ahead : List (String × Value)} (free : key ∉ reserved) (hs : v.isSequence) :
      Takes p store reserved (.fields ((key, v) :: ahead)) (.on (.items key v 0 ahead))
  | child {key : String} {v : Value} {ahead : List (String × Value)} (free : key ∉ reserved)
      (hs : v.isSequence = false) (hn : v.isNode store) :
      Takes p store reserved (.fields ((key, v) :: ahead)) (.enter ⟨key, none, v⟩ (.fields ahead))
  | outside {key : String} {seq : Value} {position : Int} {ahead : List (String × Value)}
      (h : position < 0 ∨ (seq.items store).length ≤ position) :
      Takes p store reserved (.items key seq position ahead) (.on (.fields ahead))
  | passItem {key : String} {seq : Value} {i : Nat} {ahead : List (String × Value)} {v : Value}
      (h : (seq.items store)[i]? = some v) (hn : v.isNode store = false) :
      Takes p store reserved (.items key seq i ahead) (.on (.items key seq (i + 1) ahead))
  | item {key : String} {seq : Value} {i : Nat} {ahead : List (String × Value)} {v : Value}
      (h : (seq.items store)[i]? = some v) (hn : v.isNode store) :
      Takes p store reserved (.items key seq i ahead)
        (.enter ⟨key, some i, v⟩ (.items key seq ((p.resumes v).getD (i + 1)) ahead))

/-- The slots that a walk comes to from a cursor on, one after the other. -/
inductive Comes (p : Policy) (store : Store) (reserved : List String) : Cursor → List Slot → Prop
  | done {q : Cursor} (turn : q.Takes p store reserved .done) : Comes p store reserved q []
  | on {q q' : Cursor} {cs : List Slot} (turn : q.Takes p store reserved (.on q'))
      (rest : Comes p store reserved q' cs) : Comes p store reserved q cs
  | enter {q q' : Cursor} {c : Slot} {cs : List Slot} (turn : q.Takes p store reserved (.enter c q'))
      (rest : Comes p store reserved q' cs) : Comes p store reserved q (c :: cs)

namespace Cursor

def Of (store : Store) (v : Value) : Cursor → Prop
  | .fields ahead => ahead ⊆ v.entries store
  | .items _ seq _ ahead => v.Holds store seq ∧ ahead ⊆ v.entries store

def Forward : Cursor → Prop
  | .fields _ => True
  | .items _ _ position _ => 0 ≤ position

def fieldSlots (store : Store) (reserved : List String) (ahead : List (String × Value)) : List Slot :=
  ahead.flatMap fun e => if e.1 ∈ reserved then [] else Value.slotsAt store e.1 e.2

def slots (store : Store) (reserved : List String) : Cursor → List Slot
  | .fields ahead => fieldSlots store reserved ahead
  | .items key seq position ahead =>
    Value.slotsFrom store key position.toNat ((seq.items store).drop position.toNat) ++ fieldSlots store reserved ahead

end Cursor

section

variable {p : Policy} {store : Store} {reserved : List String} {v : Value} {q q' : Cursor} {c : Slot} {cs : List Slot}

theorem Cursor.exists_takes (p : Policy) (store : Store) (reserved : List String) (q : Cursor) :
    ∃ turn, q.Takes p store reserved turn := by
  cases q with
  | fields ahead =>
    cases ahead with
    | nil => exact ⟨_, .done⟩
    | cons e ahead =>
      by_cases free : e.1 ∈ reserved
      · exact ⟨_, .pass (.inl free)⟩
      cases hs : e.2.isSequence with
      | true => exact ⟨_, .scan free hs⟩
      | false =>
        cases hn : e.2.isNode store with
        | true => exact ⟨_, .child free hs hn⟩
        | false => exact ⟨_, .pass (.inr ⟨hs, hn⟩)⟩
  | items key seq position ahead =>
    by_cases inside : 0 ≤ position ∧ position < (seq.items store).length
    · obtain ⟨i, rfl⟩ := Int.eq_ofNat_of_zero_le inside.1
      have hi : i < (seq.items store).length := Int.ofNat_lt.mp inside.2
      have hv : (seq.items store)[i]? = some (seq.items store)[i] := List.getElem?_eq_getElem hi
      cases hn : (seq.items store)[i].isNode store with
      | true => exact ⟨_, .item hv hn⟩
      | false => exact ⟨_, .passItem hv hn⟩
    · exact ⟨_, .outside (by omega)⟩

theorem Cursor.Of.on (h : q.Of store v) (turn : q.Takes p store reserved (.on q')) : q'.Of store v := by
  cases turn with
  | pass => exact (List.cons_subset.mp h).2
  | scan =>
    obtain ⟨he, sub⟩ := List.cons_subset.mp h
    exact ⟨.field he, sub⟩
  | outside => exact h.2
  | passItem => exact h

theorem Cursor.Of.enter (h : q.Of store v) (turn : q.Takes p store reserved (.enter c q')) :
    q'.Of store v ∧ c.value.isNode store ∧ ReflTransGen (Value.Holds store) v c.value := by
  cases turn with
  | child _ _ hn =>
    obtain ⟨he, sub⟩ := List.cons_subset.mp h
    exact ⟨sub, hn, .single (.field he)⟩
  | item hv hn => exact ⟨h, hn, .tail (.single h.1) (.item (List.mem_of_getElem? hv))⟩

theorem Comes.nodes (h : Comes p store reserved q cs) (hq : q.Of store v) :
    ∀ c ∈ cs, c.value.isNode store ∧ ReflTransGen (Value.Holds store) v c.value := by
  induction h with
  | done => exact List.forall_mem_nil _
  | on turn _ ih => exact ih (hq.on turn)
  | enter turn _ ih =>
    obtain ⟨hq', below⟩ := hq.enter turn
    exact List.forall_mem_cons.mpr ⟨below, ih hq'⟩

theorem Cursor.slots_items {key : String} {seq u : Value} {i : Nat} {ahead : List (String × Value)}
    (h : (seq.items store)[i]? = some u) :
    (Cursor.items key seq i ahead).slots store reserved =
      (if u.isNode store then [⟨key, some i, u⟩] else []) ++
        (Cursor.items key seq (i + 1) ahead).slots store reserved := by
  obtain ⟨hi, rfl⟩ := List.getElem?_eq_some_iff.mp h
  have next : ((i : Int) + 1).toNat = i + 1 := by omega
  simp only [slots, next, Int.toNat_natCast, List.drop_eq_getElem_cons hi, Value.slotsFrom_cons, List.append_assoc]

theorem Cursor.Takes.slots_on (turn : q.Takes p store reserved (.on q')) (forward : q.Forward) :
    q.slots store reserved = q'.slots store reserved ∧ q'.Forward := by
  cases turn with
  | @pass key v ahead h =>
    refine ⟨?_, trivial⟩
    simp only [slots, fieldSlots, List.flatMap_cons]
    rcases h with h | ⟨hs, hn⟩
    · simp [h]
    · simp [Value.slotsAt, hs, hn]
  | @scan key v ahead free hs =>
    refine ⟨?_, Int.le_refl 0⟩
    simp [slots, fieldSlots, Value.slotsAt, free, hs]
  | @outside key seq position ahead h =>
    refine ⟨?_, trivial⟩
    have past : (seq.items store).length ≤ position.toNat := by
      have : 0 ≤ position := forward
      omega
    simp only [slots, List.drop_eq_nil_of_le past]
    rfl
  | @passItem key seq i ahead u h hn =>
    refine ⟨?_, ?_⟩
    · rw [slots_items h]
      simp [hn]
    · show (0 : Int) ≤ i + 1
      omega

/-- A turn that enters a slot passes this slot first, and no other if the list goes on at the next position. -/
theorem Cursor.Takes.slots_enter (turn : q.Takes p store reserved (.enter c q')) :
    ∃ rest, q.slots store reserved = c :: rest ∧
      ((∀ i : Nat, c.index = some i → (p.resumes c.value).getD (i + 1) = i + 1) →
        rest = q'.slots store reserved ∧ q'.Forward) := by
  cases turn with
  | @child key v ahead free hs hn =>
    refine ⟨(Cursor.fields ahead).slots store reserved, ?_, fun _ => ⟨rfl, trivial⟩⟩
    simp [slots, fieldSlots, Value.slotsAt, free, hs, hn]
  | @item key seq i ahead u h hn =>
    refine ⟨(Cursor.items key seq (i + 1) ahead).slots store reserved, ?_, fun next => ?_⟩
    · rw [slots_items h, if_pos hn]
      rfl
    · rw [next i rfl]
      refine ⟨rfl, ?_⟩
      show (0 : Int) ≤ i + 1
      omega

/-- Where no node in a list names a position other than the next one, a walk comes to all slots in their order. -/
theorem Comes.eq_slots (h : Comes p store reserved q cs) (forward : q.Forward)
    (next : ∀ c ∈ q.slots store reserved, ∀ i : Nat, c.index = some i → (p.resumes c.value).getD (i + 1) = i + 1) :
    cs = q.slots store reserved := by
  induction h with
  | done turn =>
    cases turn
    rfl
  | on turn _ ih =>
    obtain ⟨same, forward'⟩ := turn.slots_on forward
    rw [same] at next ⊢
    exact ih forward' next
  | enter turn _ ih =>
    obtain ⟨rest, slots, onward⟩ := turn.slots_enter
    rw [slots] at next ⊢
    obtain ⟨first, next'⟩ := List.forall_mem_cons.mp next
    obtain ⟨rfl, forward'⟩ := onward first
    rw [ih forward' next']

end

/-! ## Grafting -/

namespace Occurrence

def root (v : Value) : Occurrence := ⟨v, none, none, []⟩

/-- What occurs in a walk from the node of `b`, as it occurs where `b` does. The root, which has no key, has the key and
    the position of `b`. -/
def graft (b o : Occurrence) : Occurrence :=
  match o.key with
  | none => { b with node := o.node, ancestors := b.ancestors ++ o.ancestors }
  | some _ => { o with ancestors := b.ancestors ++ o.ancestors }

theorem graft_root (b : Occurrence) : b.graft (root b.node) = b := by
  simp [graft, root]

theorem graft_under (b : Occurrence) (c : Slot) : b.graft (c.under (root b.node)) = c.under b := by
  simp [graft, root, Slot.under]

theorem graft_graft (a b o : Occurrence) : a.graft (b.graft o) = (a.graft b).graft o := by
  obtain ⟨node, key, index, ancestors⟩ := o
  obtain ⟨node', key', index', ancestors'⟩ := b
  cases key <;> cases key' <;> simp [graft]

end Occurrence

def Call.graft (b : Occurrence) (c : Call) : Call := ⟨b.graft c.toOccurrence, c.phase⟩

theorem Call.map_graft_graft (a b : Occurrence) (cs : List Call) :
    (cs.map (Call.graft b)).map (Call.graft a) = cs.map (Call.graft (a.graft b)) := by
  rw [List.map_map]
  refine List.map_congr_left fun c _ => ?_
  simp only [Function.comp, Call.graft, Occurrence.graft_graft]

/-- The calls on the way through some slots of an occurrence, where `own` has those for each slot. -/
def Occurrence.through (o : Occurrence) (own : Slot → List Call) (cs : List Slot) : List Call :=
  cs.flatMap fun c => (own c).map (Call.graft (c.under o))

theorem map_graft_through (b : Occurrence) (own : Slot → List Call) (cs : List Slot) :
    ((Occurrence.root b.node).through own cs).map (Call.graft b) = b.through own cs := by
  simp only [Occurrence.through, List.map_flatMap, Call.map_graft_graft, Occurrence.graft_under]

/-! ## Routes -/

/-- An occurrence is entered, and left after some other calls. -/
def Occurrence.around (o : Occurrence) (inner : List Call) : List Call := ⟨o, .enter⟩ :: inner ++ [⟨o, .leave⟩]

theorem map_graft_around (b : Occurrence) (inner : List Call) :
    ((Occurrence.root b.node).around inner).map (Call.graft b) = b.around (inner.map (Call.graft b)) := by
  simp [Occurrence.around, Call.graft, Occurrence.graft_root]

/-- The calls on the way through a node, as if it were the root. -/
inductive Route (p : Policy) (store : Store) (reserved : List String) : Value → List Call → Prop
  | skipped {v : Value} (skip : p.skips v = true) : Route p store reserved v ((Occurrence.root v).around [])
  | entered {v : Value} {cs : List Slot} {own : Slot → List Call} (goes : p.skips v = false)
      (comes : Comes p store reserved (.fields (v.entries store)) cs)
      (below : ∀ c ∈ cs, Route p store reserved c.value (own c)) :
      Route p store reserved v ((Occurrence.root v).around ((Occurrence.root v).through own cs))

/-- Every call of `enter` is followed by one of `leave` for the same occurrence, and what is between them is balanced
    too. -/
inductive Balanced : List Call → Prop
  | nil : Balanced []
  | pair (o : Occurrence) {inner rest : List Call} (within : Balanced inner) (after : Balanced rest) :
      Balanced (o.around inner ++ rest)

theorem balanced_through {b : Occurrence} {own : Slot → List Call} {cs : List Slot}
    (h : ∀ c ∈ cs, ∃ inner, Balanced inner ∧ (own c).map (Call.graft (c.under b)) = (c.under b).around inner) :
    Balanced (b.through own cs) := by
  induction cs with
  | nil => exact .nil
  | cons c cs ih =>
    obtain ⟨⟨inner, balanced, eq⟩, rest⟩ := List.forall_mem_cons.mp h
    show Balanced ((own c).map (Call.graft (c.under b)) ++ b.through own cs)
    rw [eq]
    exact .pair _ balanced (ih rest)

theorem split_append {α : Type} {xs ys before rest : List α} {x : α} (h : xs ++ ys = before ++ x :: rest) :
    (∃ mid, xs = before ++ x :: mid ∧ rest = mid ++ ys) ∨ ∃ before', ys = before' ++ x :: rest := by
  rcases List.append_eq_append_iff.mp h with ⟨before', -, hys⟩ | ⟨mid, hxs, hrest⟩
  · exact .inr ⟨before', hys⟩
  · cases mid with
    | nil => exact .inr ⟨[], hrest.symm⟩
    | cons y mid =>
      cases hrest
      exact .inl ⟨mid, hxs, rfl⟩

theorem split_around {b o : Occurrence} {inner before rest : List Call}
    (h : b.around inner = before ++ ⟨o, .enter⟩ :: rest) :
    (o = b ∧ ⟨o, .enter⟩ :: rest = b.around inner) ∨
      ∃ before' mid, inner = before' ++ ⟨o, .enter⟩ :: mid ∧ rest = mid ++ [⟨b, .leave⟩] := by
  cases before with
  | nil =>
    rw [List.nil_append] at h
    refine .inl ⟨?_, h.symm⟩
    cases h
    rfl
  | cons first before =>
    have tail : inner ++ [⟨b, .leave⟩] = before ++ ⟨o, .enter⟩ :: rest := (List.cons.inj h).2
    rcases split_append tail with ⟨mid, hinner, hrest⟩ | ⟨before', last⟩
    · exact .inr ⟨before, mid, hinner, hrest⟩
    · -- The last call is one of `leave`.
      cases before' with
      | nil => cases last
      | cons y before' => simp at last

section

variable {p : Policy} {store : Store} {reserved : List String} {v : Value} {ds : List Call}

/-- Where its node occurs, a route enters and leaves this occurrence, and what is between is balanced. -/
theorem Route.balanced (h : Route p store reserved v ds) {b : Occurrence} (hb : b.node = v) :
    ∃ inner, Balanced inner ∧ ds.map (Call.graft b) = b.around inner := by
  induction h generalizing b with
  | skipped =>
    subst hb
    exact ⟨[], .nil, map_graft_around b []⟩
  | @entered v cs own _ _ _ ih =>
    subst hb
    refine ⟨b.through own cs, balanced_through fun c hc => ih c hc rfl, ?_⟩
    rw [map_graft_around, map_graft_through]

/-- The route of a node below begins with this call. -/
def Begins (p : Policy) (store : Store) (reserved : List String) (v : Value) (o : Occurrence) (rest : List Call) :
    Prop :=
  o.node.isNode store ∧ ReflTransGen (Value.Holds store) v o.node ∧
    ∃ ds after, Route p store reserved o.node ds ∧ ⟨o, .enter⟩ :: rest = ds.map (Call.graft o) ++ after

theorem Begins.append {o : Occurrence} {rest : List Call} {u : Value} (h : Begins p store reserved u o rest)
    (reach : ReflTransGen (Value.Holds store) v u) (more : List Call) :
    Begins p store reserved v o (rest ++ more) := by
  obtain ⟨hn, reach', ds, after, route, eq⟩ := h
  refine ⟨hn, reach.trans reach', ds, after ++ more, route, ?_⟩
  rw [← List.append_assoc, ← eq]
  rfl

theorem begins_through {b : Occurrence} {own : Slot → List Call} {cs : List Slot}
    (reach : ∀ c ∈ cs, ReflTransGen (Value.Holds store) v c.value)
    (found : ∀ c ∈ cs, ∀ before o rest, (own c).map (Call.graft (c.under b)) = before ++ ⟨o, .enter⟩ :: rest →
      Begins p store reserved c.value o rest) {before rest : List Call} {o : Occurrence}
    (h : b.through own cs = before ++ ⟨o, .enter⟩ :: rest) : Begins p store reserved v o rest := by
  induction cs generalizing before with
  | nil => simp [Occurrence.through] at h
  | cons c cs ih =>
    obtain ⟨below, reach'⟩ := List.forall_mem_cons.mp reach
    obtain ⟨first, found'⟩ := List.forall_mem_cons.mp found
    have both : (own c).map (Call.graft (c.under b)) ++ b.through own cs = before ++ ⟨o, .enter⟩ :: rest := h
    rcases split_append both with ⟨mid, here, rfl⟩ | ⟨before', later⟩
    · exact (first before o mid here).append below _
    · exact ih reach' found' later

/-- Wherever a route enters a node, the route of this node begins. -/
theorem Route.found (h : Route p store reserved v ds) (hn : v.isNode store) {b : Occurrence} (hb : b.node = v)
    {before rest : List Call} {o : Occurrence} (split : ds.map (Call.graft b) = before ++ ⟨o, .enter⟩ :: rest) :
    Begins p store reserved v o rest := by
  induction h generalizing b before o rest with
  | @skipped v skip =>
    subst hb
    rw [map_graft_around] at split
    rcases split_around split with ⟨rfl, whole⟩ | ⟨before', mid, none, -⟩
    · refine ⟨hn, .refl, _, [], .skipped skip, ?_⟩
      rw [whole, map_graft_around, List.append_nil]
    · simp at none
  | @entered v cs own goes comes below ih =>
    subst hb
    rw [map_graft_around, map_graft_through] at split
    rcases split_around split with ⟨rfl, whole⟩ | ⟨before', mid, inner, rfl⟩
    · refine ⟨hn, .refl, _, [], .entered goes comes below, ?_⟩
      rw [whole, map_graft_around, map_graft_through, List.append_nil]
    · have nodes := comes.nodes (v := b.node) (List.Subset.refl _)
      have begins : Begins p store reserved b.node o mid :=
        begins_through (fun c hc => (nodes c hc).2)
          (fun c hc before o rest => ih c hc (nodes c hc).1 rfl (b := c.under b)) inner
      exact begins.append .refl _

end

end TreeWalk
