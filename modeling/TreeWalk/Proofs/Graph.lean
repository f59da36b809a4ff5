/-
  TreeWalk.Proofs.Graph — a walk that skips the nodes it has met before covers a graph.

  The store may have cycles, shared nodes and shared lists. A callback that remembers the nodes it is called for, and
  asks to skip a node it remembers (`meet`), makes the walk a depth-first search. A node that is not yet remembered is
  remembered before its children are walked, so there is one fewer of them at every visit below it: the induction is on
  their number (`unseen`), and each visit gives the same account (`Explored`).
  - `Explored`: the calls are the given ones and one for every slot of a node that was descended into; what was met is
    remembered; nothing was met that need not be.
  - `Explored.append`, `Explored.descend`: such accounts are put together along the slots of a node and around a visit.
  - `graph_walk_complete`: the whole walk.
-/

import Mathlib.Data.Set.Card
import TreeWalk.Proofs.Descent

namespace TreeWalk

variable {ν : Type}

/-- Asks to skip a node that it was called for before, and remembers any other. -/
def meet : Callback (List Value) ν := fun c s seen =>
  if c.node ∈ seen then c.answer s seen (.ok (.action .skip)) else c.answer s (seen ++ [c.node]) (.ok .null)

def explorer (reserved : List String) (logging colored debug : Bool) : Walker (List Value) ν where
  enter := some meet
  leave := none
  reserved := reserved
  logging := logging
  colored := colored
  debug := debug

/-! ## Where calls are made -/

/-- Where the walk comes upon a node: the node it comes from, the field, and the position in it. -/
structure Place where
  parent : Option Value
  key : Option String
  index : Option Nat
  deriving DecidableEq, Repr

def Occurrence.place (o : Occurrence) : Place := ⟨o.ancestors.getLast?, o.key, o.index⟩

/-- The place of a slot of a record. -/
def Slot.place (v : Value) (c : Slot) : Place := ⟨some v, some c.key, c.index⟩

theorem Slot.place_under (c : Slot) (o : Occurrence) : (c.under o).place = c.place o.node := by
  simp [Slot.under, Occurrence.place, Slot.place]

def Occurrence.arrival (o : Occurrence) : Place × Value := (o.place, o.node)

namespace Value

variable {s : Store} {reserved : List String} {v : Value}

def arrivals (s : Store) (reserved : List String) (v : Value) : List (Place × Value) :=
  (v.slots s reserved).map fun c => (c.place v, c.value)

theorem mem_arrivals {p : Place} {u : Value} :
    (p, u) ∈ v.arrivals s reserved ↔ ∃ c ∈ v.slots s reserved, p = c.place v ∧ u = c.value := by
  simp only [arrivals, List.mem_map, Prod.mk.injEq, eq_comm]

theorem getElem?_of_mem_slotsFrom {key : String} {i : Nat} {items : List Value} {c : Slot}
    (h : c ∈ slotsFrom s key i items) : ∃ j, c.index = some (i + j) ∧ items[j]? = some c.value := by
  obtain ⟨⟨x, j⟩, hx, hc⟩ := List.mem_filterMap.mp h
  obtain ⟨hij, hj⟩ := List.mk_mem_zipIdx_iff_le_and_getElem?_sub.mp hx
  split at hc
  · cases hc
    exact ⟨j - i, by rw [Nat.add_sub_cancel' hij], hj⟩
  · cases hc

theorem slot_unique {c d : Slot} (hc : c ∈ v.slots s reserved) (hd : d ∈ v.slots s reserved) (key : c.key = d.key)
    (index : c.index = d.index) : c = d := by
  obtain ⟨-, x, hx, hcx⟩ := mem_slots.mp hc
  obtain ⟨-, y, hy, hdy⟩ := mem_slots.mp hd
  have hxy : x = y := by
    have hfx := (reads_of_cell (s := s) (t := s) (v := v) fun _ _ _ => rfl).field hx
    have hfy := (reads_of_cell (s := s) (t := s) (v := v) fun _ _ _ => rfl).field hy
    rw [key, hfy] at hfx
    cases hfx
    rfl
  subst hxy
  suffices hvalue : c.value = d.value by
    cases c
    cases d
    cases key
    cases index
    cases hvalue
    rfl
  unfold slotsAt at hcx hdy
  split at hcx
  · rename_i hseq
    rw [if_pos hseq] at hdy
    obtain ⟨i, hi, hci⟩ := getElem?_of_mem_slotsFrom hcx
    obtain ⟨j, hj, hdj⟩ := getElem?_of_mem_slotsFrom hdy
    have hij : i = j := by
      rw [hi, hj] at index
      simpa using index
    subst hij
    exact Option.some.inj (hci.symm.trans hdj)
  · rename_i hseq
    rw [if_neg hseq] at hdy
    split at hcx
    · rename_i hnode
      rw [if_pos hnode] at hdy
      rw [List.mem_singleton.mp hcx, List.mem_singleton.mp hdy]
    · cases hcx

theorem nodup_places (s : Store) (reserved : List String) (v : Value) :
    ((v.arrivals s reserved).map Prod.fst).Nodup := by
  rw [arrivals, List.map_map]
  refine nodup_slots.map_on fun c hc d hd e => ?_
  simp only [Function.comp_apply, Slot.place, Place.mk.injEq, Option.some.injEq, true_and] at e
  exact slot_unique hc hd e.1 e.2

/-- What a walk comes upon first: its root if that is a node, and otherwise the children of its root. -/
def firstArrivals (s : Store) (reserved : List String) (tree : Value) : List (Place × Value) :=
  if tree.isNode s then [(⟨none, none, none⟩, tree)] else tree.arrivals s reserved

/-- With the nodes of a set, their children belong to it. -/
def ChildClosed (s : Store) (reserved : List String) (S : Set Value) : Prop :=
  ∀ v ∈ S, ∀ c ∈ v.slots s reserved, c.value ∈ S

/-- A set to which the root belongs if it is a node, and the children of the root and of the nodes of the set, too. -/
structure Covered (s : Store) (reserved : List String) (tree : Value) (S : Set Value) : Prop where
  root : tree.isNode s → tree ∈ S
  top : ∀ c ∈ tree.slots s reserved, c.value ∈ S
  closed : ChildClosed s reserved S

end Value

/-! ## What a part of the walk amounts to -/

/-- The callback let the walk go on to the children of the node. -/
def Exchange.descends {σ : Type} (x : Exchange σ ν) : Bool :=
  match x.reply.outcome with
  | .error _ => false
  | .ok v => !(Signal.ofValue v).isExit x.reply.store && !(Signal.ofValue v).isSkip x.reply.store

def descents {σ : Type} (xs : List (Exchange σ ν)) : List Value := (xs.filter (·.descends)).map (·.call.node)

section

variable {σ : Type}

@[simp] theorem descents_append (xs ys : List (Exchange σ ν)) : descents (xs ++ ys) = descents xs ++ descents ys := by
  simp [descents]

theorem mem_calls_of_mem_descents {xs : List (Exchange σ ν)} {v : Value} (h : v ∈ descents xs) :
    v ∈ xs.map (·.call.node) := by
  obtain ⟨x, hx, rfl⟩ := List.mem_map.mp h
  exact List.mem_map.mpr ⟨x, (List.mem_filter.mp hx).1, rfl⟩

end

/-- What the exchanges `xs` amount to, if they are made for the arrivals `first` and all that these lead to, and the
    nodes that are remembered are `seen` before them and `seen'` after them. -/
structure Explored (store : Store) (reserved : List String) (first : List (Place × Value)) (seen seen' : List Value)
    (xs : List (Exchange (List Value) ν)) : Prop where
  seen_eq : seen' = seen ++ descents xs
  nodup : seen.Nodup → seen'.Nodup
  arrivals : (xs.map (·.call.arrival)).Perm (first ++ (descents xs).flatMap (Value.arrivals store reserved))
  met : ∀ a ∈ first, a.2 ∈ seen'
  children : ∀ v ∈ descents xs, ∀ c ∈ v.slots store reserved, c.value ∈ seen'
  least : ∀ S, Value.ChildClosed store reserved S → (∀ a ∈ first, a.2 ∈ S) → ∀ v ∈ descents xs, v ∈ S

namespace Explored

variable {store : Store} {reserved : List String} {first rest : List (Place × Value)} {a b c : List Value}
  {xs ys : List (Exchange (List Value) ν)}

theorem nil (store : Store) (reserved : List String) (seen : List Value) :
    Explored store reserved [] seen seen ([] : List (Exchange (List Value) ν)) where
  seen_eq := (List.append_nil seen).symm
  nodup := id
  arrivals := .refl []
  met := nofun
  children := nofun
  least := nofun

theorem append (h : Explored store reserved first a b xs) (h' : Explored store reserved rest b c ys) :
    Explored store reserved (first ++ rest) a c (xs ++ ys) := by
  -- What was remembered stays remembered.
  have later : ∀ v ∈ b, v ∈ c := by
    intro v hv
    rw [h'.seen_eq]
    exact List.mem_append_left _ hv
  constructor
  · rw [h'.seen_eq, h.seen_eq, descents_append, List.append_assoc]
  · exact fun nodup => h'.nodup (h.nodup nodup)
  · rw [List.map_append, descents_append, List.flatMap_append]
    refine (h.arrivals.append h'.arrivals).trans ?_
    simp only [List.append_assoc]
    refine .append_left first ?_
    rw [← List.append_assoc, ← List.append_assoc]
    exact List.perm_append_comm.append_right _
  · intro p hp
    rcases List.mem_append.mp hp with hp | hp
    · exact later _ (h.met p hp)
    · exact h'.met p hp
  · intro v hv d hd
    rw [descents_append] at hv
    rcases List.mem_append.mp hv with hv | hv
    · exact later _ (h.children v hv d hd)
    · exact h'.children v hv d hd
  · intro S closed hfirst v hv
    obtain ⟨hS, hS'⟩ := List.forall_mem_append.mp hfirst
    rw [descents_append] at hv
    rcases List.mem_append.mp hv with hv | hv
    · exact h.least S closed hS v hv
    · exact h'.least S closed hS' v hv

theorem skip {x : Exchange (List Value) ν} (skips : x.descends = false) (known : x.call.node ∈ a) :
    Explored store reserved [x.call.arrival] a a [x] := by
  have none : descents [x] = [] := by simp [descents, skips]
  constructor
  · rw [none, List.append_nil]
  · exact id
  · rw [none]
    exact .refl _
  · intro p hp
    rw [List.mem_singleton.mp hp]
    exact known
  · simp [none]
  · simp [none]

theorem descend {x : Exchange (List Value) ν} (descends : x.descends) (new : x.call.node ∉ a)
    (h : Explored store reserved (x.call.node.arrivals store reserved) (a ++ [x.call.node]) b xs) :
    Explored store reserved [x.call.arrival] a b (x :: xs) := by
  have cons : descents (x :: xs) = x.call.node :: descents xs := by simp [descents, descends]
  have known : x.call.node ∈ b := by
    rw [h.seen_eq]
    simp
  have slots : ∀ c ∈ x.call.node.slots store reserved,
      (c.place x.call.node, c.value) ∈ x.call.node.arrivals store reserved :=
    fun c hc => List.mem_map.mpr ⟨c, hc, rfl⟩
  constructor
  · rw [h.seen_eq, cons, List.append_assoc, List.singleton_append]
  · intro nodup
    refine h.nodup (List.nodup_append.mpr ⟨nodup, List.nodup_singleton _, ?_⟩)
    rintro v hv _ hx rfl
    rw [List.mem_singleton.mp hx] at hv
    exact new hv
  · rw [cons]
    exact h.arrivals.cons _
  · intro p hp
    rw [List.mem_singleton.mp hp]
    exact known
  · intro v hv c hc
    rw [cons] at hv
    rcases List.mem_cons.mp hv with rfl | hv
    · exact h.met _ (slots c hc)
    · exact h.children v hv c hc
  · intro S closed hfirst v hv
    have hx : x.call.node ∈ S := hfirst _ (List.mem_singleton_self _)
    rw [cons] at hv
    rcases List.mem_cons.mp hv with rfl | hv
    · exact hx
    · refine h.least S closed (fun p hp => ?_) v hv
      obtain ⟨c, hc, rfl⟩ := List.mem_map.mp hp
      exact closed _ hx c hc

end Explored

/-! ## The walk -/

def unseen (store : Store) (seen : List Value) : Set Value := {v | v.isNode store ∧ v ∉ seen}

theorem finite_unseen (store : Store) (seen : List Value) : (unseen store seen).Finite :=
  (Value.finite_nodes store).subset fun _ hv => hv.1

theorem unseen_append_lt {store : Store} {seen : List Value} {v : Value} (node : v.isNode store) (new : v ∉ seen) :
    (unseen store (seen ++ [v])).ncard < (unseen store seen).ncard := by
  refine Set.ncard_lt_ncard ⟨fun u hu => ⟨hu.1, fun h => hu.2 ?_⟩, fun sub => ?_⟩ (finite_unseen store seen)
  · exact List.mem_append_left _ h
  · exact (sub ⟨node, new⟩).2 (by simp)

namespace Walker

/-- The walk changes nothing in the store and has fewer than `k` nodes to remember; what it remembers and the exchanges
    are watched. -/
def explorerWatch (w : Walker (List Value) ν) (store : Store) (k : Nat) :
    Watch w (List Value × List (Exchange (List Value) ν)) where
  Holds s := s.store = store ∧ (unseen store s.memory).ncard < k
  view s := (s.memory, s.exchanges)
  keeps _ _ _ h _ := h
  still _ _ _ := rfl

/-- A part of the walk adds exchanges that explore the graph from some arrivals on. -/
def Explores (store : Store) (reserved : List String) (first : List (Place × Value))
    (a b : List Value × List (Exchange (List Value) ν)) : Prop :=
  ∃ xs, b.2 = a.2 ++ xs ∧ Explored store reserved first a.1 b.1 xs

theorem explores_of_chain {store : Store} {reserved : List String} {v : Value} {cs : List Slot}
    {a b : List Value × List (Exchange (List Value) ν)}
    (chain : Chain (fun c => Explores store reserved [(c.place v, c.value)]) cs a b) :
    Explores store reserved (cs.map fun c => (c.place v, c.value)) a b := by
  induction chain with
  | nil a => exact ⟨[], (List.append_nil _).symm, .nil store reserved a.1⟩
  | cons head _ ih =>
    obtain ⟨xs, hxs, explored⟩ := head
    obtain ⟨ys, hys, explored'⟩ := ih
    exact ⟨xs ++ ys, by rw [hys, hxs, List.append_assoc], explored.append explored'⟩

theorem meet_known {c : Call} {s : Store} {seen : List Value} (known : c.node ∈ seen) :
    (meet c s seen : Reply _ ν) = c.answer s seen (.ok (.action .skip)) := if_pos known

theorem meet_new {c : Call} {s : Store} {seen : List Value} (new : c.node ∉ seen) :
    (meet c s seen : Reply _ ν) = c.answer s (seen ++ [c.node]) (.ok .null) := if_neg new

section

variable {w : Walker (List Value) ν} (enter : w.enter = some meet) (leave : w.leave = none) (store : Store)

theorem explorer_children {k : Nat} {o : Occurrence} {s : State (List Value) ν} {K : List Frame}
    (visits : ∀ o : Occurrence, o.node.isNode store →
      w.Visits (w.explorerWatch store k) o (Explores store w.reserved [o.arrival]))
    (hs : (w.explorerWatch store k).Holds s) (hF : s.focus = .next)
    (hK : s.stack = .fields o.node o.ancestors (o.node.ownNames s.store) :: K) :
    ∃ t, w.Reaches s t ∧ (w.explorerWatch store k).Holds t ∧ t.focus = .next ∧ t.stack = K ∧
      Explores store w.reserved (o.node.arrivals store w.reserved) (s.memory, s.exchanges) (t.memory, t.exchanges) := by
  have intact : ∀ s, (w.explorerWatch store k).Holds s → o.node.Intact store s.store := by
    intro s hs
    rw [hs.1]
    exact Value.intact_self store o.node
  have below : ∀ c ∈ o.node.slots store w.reserved, w.Visits (w.explorerWatch store k) (c.under o)
      (Explores store w.reserved [(c.place o.node, c.value)]) := by
    intro c hc
    have visit := visits (c.under o) (Value.isNode_of_mem_slots hc)
    rwa [Occurrence.arrival, Slot.place_under] at visit
  obtain ⟨t, reach, ht, hF', hK', chain⟩ := children_pass intact below hs hF hK
  exact ⟨t, reach, ht, hF', hK', explores_of_chain chain⟩

include enter leave in
/-- A visit explores the graph from its node on. The induction is on the nodes that are not remembered: a visit that
    goes on to the children has remembered one more. -/
theorem explorer_visits (k : Nat) (o : Occurrence) (node : o.node.isNode store) :
    w.Visits (w.explorerWatch store k) o (Explores store w.reserved [o.arrival]) := by
  induction k generalizing o with
  | zero => exact fun s hs _ => absurd hs.2 (Nat.not_lt_zero _)
  | succ k ih =>
    intro s hs hF
    let c : Call := { o with phase := .enter }
    by_cases known : c.node ∈ s.memory
    · let r : Reply (List Value) ν := c.answer s.store s.memory (.ok (.action .skip))
      let t := (w.after c r s).go (.back (.ofValue (.action .skip))) s.stack
      have reach : w.Reaches s t := reaches_skipped enter leave hF (meet_known known) rfl rfl rfl
      have explored : Explored store w.reserved [c.arrival] s.memory s.memory [⟨c, s.store, r⟩] :=
        Explored.skip (x := ⟨c, s.store, r⟩) rfl known
      exact ⟨t, _, reach, hs, rfl, ⟨rfl, rfl⟩, rfl, _, w.after_exchanges c r s, explored⟩
    · let r : Reply (List Value) ν := c.answer s.store (s.memory ++ [c.node]) (.ok .null)
      let t := (w.after c r s).go .next
        (.fields c.node c.ancestors (c.node.ownNames s.store) :: .visit o (.ofValue .null) :: s.stack)
      have entered : w.step s = t := step_fields enter hF (meet_new known) rfl rfl rfl
      have fewer : (unseen store (s.memory ++ [c.node])).ncard < k :=
        Nat.lt_of_lt_of_le (unseen_append_lt node known) (Nat.lt_succ_iff.mp hs.2)
      have ht : (w.explorerWatch store k).Holds t := ⟨hs.1, fewer⟩
      obtain ⟨u, reach', hu, hF', hK', xs, hxs, explored⟩ := explorer_children store (o := o) ih ht rfl rfl
      have exchanges : u.exchanges = s.exchanges ++ ⟨c, s.store, r⟩ :: xs := by
        refine hxs.trans ?_
        show (w.after c r s).exchanges ++ xs = _
        rw [after_exchanges, List.append_assoc, List.singleton_append]
      have explored' : Explored store w.reserved [c.arrival] s.memory u.memory (⟨c, s.store, r⟩ :: xs) :=
        Explored.descend (x := ⟨c, s.store, r⟩) rfl known explored
      refine ⟨u.go (.back (.ofValue .null)) s.stack, _, ?_, ⟨hu.1, Nat.lt_succ_of_lt hu.2⟩, rfl, ⟨rfl, rfl⟩, rfl, _,
        exchanges, explored'⟩
      exact ((entered ▸ Reaches.step s).trans reach').trans (reaches_back leave hu hF' hK').1

include enter leave in
theorem explorer_ends (tree : Value) :
    ∃ n g, (w.run n (w.start tree store [])).focus = .done (.returned g) ∧
      (w.run n (w.start tree store [])).store = store ∧
      Explored store w.reserved (tree.firstArrivals store w.reserved) [] (w.run n (w.start tree store [])).memory
        (w.run n (w.start tree store [])).exchanges := by
  let k := (unseen store []).ncard + 1
  let start := w.start tree store []
  have hc : w.HasCallback := .inl (by rw [enter]; rfl)
  have hs : (w.explorerWatch store k).Holds start := by
    refine ⟨w.start_store tree store [], ?_⟩
    rw [w.start_memory]
    exact Nat.lt_succ_self _
  suffices ended : ∃ t g, w.Reaches start t ∧ (w.explorerWatch store k).Holds t ∧ t.focus = .done (.returned g) ∧
      Explores store w.reserved (tree.firstArrivals store w.reserved) (start.memory, start.exchanges)
        (t.memory, t.exchanges) by
    obtain ⟨t, g, ⟨n, rfl⟩, ht, hdone, xs, hxs, explored⟩ := ended
    rw [w.start_exchanges, List.nil_append] at hxs
    rw [w.start_memory, ← hxs] at explored
    exact ⟨n, g, hdone, ht.1, explored⟩
  cases hn : tree.isNode store with
  | true =>
    rw [Value.firstArrivals, if_pos hn]
    exact ends_with_root hc hs hn (explorer_visits enter leave store k ⟨tree, none, none, []⟩ hn)
  | false =>
    have visits : ∀ c ∈ tree.slots store w.reserved, w.Visits (w.explorerWatch store k) (c.under ⟨tree, none, none, []⟩)
        (Explores store w.reserved [(c.place tree, c.value)]) := by
      intro c hc
      exact explorer_visits enter leave store k (c.under ⟨tree, none, none, []⟩) (Value.isNode_of_mem_slots hc)
    have intact : ∀ s, (w.explorerWatch store k).Holds s → tree.Intact store s.store := by
      intro s hs
      rw [hs.1]
      exact Value.intact_self store tree
    obtain ⟨t, reach, ht, hdone, chain⟩ := ends_with_children hc hs hn intact visits
    rw [Value.firstArrivals, if_neg (Bool.eq_false_iff.mp hn)]
    exact ⟨t, .silent, reach, ht, hdone, explores_of_chain chain⟩

end

end Walker

/-! ## The account of a whole walk -/

namespace Explored

variable {store : Store} {reserved : List String} {tree : Value} {seen : List Value}
  {xs : List (Exchange (List Value) ν)} (h : Explored store reserved (tree.firstArrivals store reserved) [] seen xs)

include h

theorem seen_eq_descents : seen = descents xs := h.seen_eq

theorem mem_descents {v : Value} : v ∈ descents xs ↔ v ∈ xs.map (·.call.node) := by
  constructor
  · exact mem_calls_of_mem_descents
  · intro hv
    obtain ⟨x, hx, rfl⟩ := List.mem_map.mp hv
    have arrived := h.arrivals.mem_iff.mp (List.mem_map.mpr ⟨x, hx, rfl⟩)
    rw [← h.seen_eq_descents]
    rcases List.mem_append.mp arrived with first | below
    · exact h.met _ first
    · obtain ⟨u, hu, hbelow⟩ := List.mem_flatMap.mp below
      obtain ⟨c, hc, -, hvalue⟩ := Value.mem_arrivals.mp hbelow
      rw [hvalue]
      exact h.children u hu c hc

theorem covered : tree.Covered store reserved {v | v ∈ descents xs} := by
  have met : ∀ a ∈ tree.firstArrivals store reserved, a.2 ∈ descents xs := fun a ha => h.seen_eq_descents ▸ h.met a ha
  have children : ∀ v ∈ descents xs, ∀ c ∈ v.slots store reserved, c.value ∈ descents xs := fun v hv c hc =>
    h.seen_eq_descents ▸ h.children v hv c hc
  have root : tree.isNode store → tree ∈ descents xs := by
    intro hn
    rw [Value.firstArrivals, if_pos hn] at met
    exact met _ (List.mem_singleton_self _)
  refine ⟨root, fun c hc => ?_, children⟩
  by_cases hn : tree.isNode store
  · exact children tree (root hn) c hc
  · rw [Value.firstArrivals, if_neg hn] at met
    exact met (c.place tree, c.value) (List.mem_map.mpr ⟨c, hc, rfl⟩)

theorem least_covered {S : Set Value} (covered : tree.Covered store reserved S) {v : Value} (hv : v ∈ descents xs) :
    v ∈ S := by
  refine h.least S covered.closed (fun a ha => ?_) v hv
  rw [Value.firstArrivals] at ha
  split at ha
  · rename_i hn
    rw [List.mem_singleton.mp ha]
    exact covered.root hn
  · obtain ⟨c, hc, rfl⟩ := List.mem_map.mp ha
    exact covered.top c hc

theorem isNode_of_mem_descents {v : Value} (hv : v ∈ descents xs) : v.isNode store :=
  h.least_covered (S := {v | v.isNode store})
    ⟨id, fun _ hc => Value.isNode_of_mem_slots hc, fun _ _ _ hc => Value.isNode_of_mem_slots hc⟩ hv

/-- No two calls are made at one place: no node is descended into twice, and no two slots of a node have one place. -/
theorem nodup_calls : (xs.map (·.call.place)).Nodup := by
  have nodup : (descents xs).Nodup := h.seen_eq_descents ▸ h.nodup List.nodup_nil
  have below : ∀ {v : Value} {p : Place}, p ∈ (v.arrivals store reserved).map Prod.fst → p.parent = some v := by
    intro v p hp
    rw [Value.arrivals, List.map_map] at hp
    obtain ⟨c, -, rfl⟩ := List.mem_map.mp hp
    rfl
  have places : xs.map (·.call.place) = (xs.map (·.call.arrival)).map Prod.fst := by
    rw [List.map_map]
    rfl
  rw [places, (h.arrivals.map Prod.fst).nodup_iff, List.map_append, List.map_flatMap]
  refine List.nodup_append.mpr ⟨?_, List.nodup_flatMap.mpr ⟨fun v _ => v.nodup_places store reserved, ?_⟩, ?_⟩
  · rw [Value.firstArrivals]
    split
    · exact List.nodup_singleton _
    · exact tree.nodup_places store reserved
  · refine nodup.imp fun {u v} hne p hu hv => hne ?_
    exact Option.some.inj ((below hu).symm.trans (below hv))
  · rintro p hp _ hq rfl
    obtain ⟨v, hv, hq⟩ := List.mem_flatMap.mp hq
    -- What comes first comes from no node.
    rw [Value.firstArrivals] at hp
    split at hp
    · rw [List.map_singleton, List.mem_singleton] at hp
      have := below hq
      rw [hp] at this
      cases this
    · rename_i hn
      have e := Option.some.inj ((below hp).symm.trans (below hq))
      exact hn (e ▸ h.isNode_of_mem_descents hv)

theorem mem_arrivals {a : Place × Value} : a ∈ xs.map (·.call.arrival) ↔
    (tree.isNode store ∧ a = (⟨none, none, none⟩, tree)) ∨
      ∃ v, (v = tree ∨ v ∈ descents xs) ∧ a ∈ v.arrivals store reserved := by
  rw [h.arrivals.mem_iff, List.mem_append, List.mem_flatMap, Value.firstArrivals]
  by_cases hn : tree.isNode store
  · have root := h.covered.root hn
    simp only [hn, if_true, List.mem_singleton, true_and]
    refine or_congr_right (exists_congr fun v => and_congr_left fun _ => ?_)
    constructor
    · exact .inr
    · rintro (rfl | hv)
      · exact root
      · exact hv
  · simp only [hn, Bool.false_eq_true, if_false, false_and, false_or]
    constructor
    · rintro (ha | ⟨v, hv, ha⟩)
      · exact ⟨tree, .inl rfl, ha⟩
      · exact ⟨v, .inr hv, ha⟩
    · rintro ⟨v, rfl | hv, ha⟩
      · exact .inl ha
      · exact .inr ⟨v, hv, ha⟩

end Explored

/-- A walk that skips the nodes it was called for before comes to an end in every store. The nodes it is called for are
    the root, if that is a node, and all that can be reached from the root, and no others. Each of them is descended
    into once. There is one call for the root, if it is a node, and one for each slot of the root and of these nodes. -/
theorem graph_walk_complete (reserved : List String) (logging colored debug : Bool) (tree : Value) (store : Store) :
    ∃ r : Run (List Value) ν, (explorer reserved logging colored debug).Ends tree store [] r ∧
      (∃ g, r.outcome = some (.returned g)) ∧ r.store = store ∧
      IsLeast {S | tree.Covered store reserved S} {v | v ∈ r.calls.map (·.node)} ∧
      (descents r.exchanges).Nodup ∧ (∀ v, v ∈ descents r.exchanges ↔ v ∈ r.calls.map (·.node)) ∧
      (r.calls.map (·.place)).Nodup ∧
      ∀ a, a ∈ r.calls.map (·.arrival) ↔
        (tree.isNode store ∧ a = (⟨none, none, none⟩, tree)) ∨
          ∃ v, (v = tree ∨ v ∈ r.calls.map (·.node)) ∧ a ∈ v.arrivals store reserved := by
  let w : Walker (List Value) ν := explorer reserved logging colored debug
  obtain ⟨n, g, done, unchanged, explored⟩ := Walker.explorer_ends (w := w) rfl rfl store tree
  let t := w.run n (w.start tree store [])
  have mem : ∀ v, v ∈ descents t.exchanges ↔ v ∈ t.calls.map (·.node) := by
    intro v
    rw [explored.mem_descents, State.calls, List.map_map]
    rfl
  refine ⟨t.toRun, w.ends_of_done done, ⟨g, outcome?_eq_some.mpr done⟩, unchanged, ?_⟩
  rw [toRun_exchanges, toRun_calls]
  simp only [← mem]
  refine ⟨⟨explored.covered, fun S covered v hv => explored.least_covered covered hv⟩, ?_, fun _ => trivial, ?_, ?_⟩
  · exact explored.seen_eq_descents ▸ explored.nodup List.nodup_nil
  · rw [State.calls, List.map_map]
    exact explored.nodup_calls
  · intro a
    rw [State.calls, List.map_map]
    exact explored.mem_arrivals

/-- A node that holds itself and another node, and a list of both that is shared by them. -/
def knot : Store := ⟨#[
  { fields := .ofList [("type", .text "If"), ("self", .container .mapping 0), ("test", .container .mapping 1),
      ("all", .container .list 2)] },
  { fields := .ofList [("type", .text "Name"), ("all", .container .list 2)] },
  { items := [.container .mapping 0, .int 1, .container .mapping 1] }]⟩

example :
    let r : Run (List Value) Unit := (explorer [] false false true).walk 60 (.container .mapping 0) knot []
    r.calls.length = 7 ∧ descents r.exchanges = [.container .mapping 0, .container .mapping 1] := by
  decide

end TreeWalk
