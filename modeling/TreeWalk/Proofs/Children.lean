/-
  TreeWalk.Proofs.Children — the nodes below a value, and the orders in which they can be listed.

  A slot is a place below a record at which a node stands: a field, and a position if the field holds a list or tuple.
  The slots of a record stand in the order of its fields and positions; reserved fields have none. A path is a list of
  slots, each of which belongs to the node the one before it leads to. So a node that can be reached in two ways has two
  paths, and the paths from a value form a tree whatever the store looks like, as long as no value holds itself
  (`Store.Acyclic`).
  - `Value.Acyclic.acc`, `Store.Acyclic.wellFounded`: in a tree or store without cycles, going from child to child comes
    to an end.
  - `preorder`, `postorder`: all paths from a value, each before or after those that continue it; `mem_preorder`,
    `nodup_preorder`: every path is listed, and only once; `postorder_perm`: both orders list the same paths.
  - `Store.Closed`: a store that names no places outside it can be told to have no places that are missing (`complete`).
  - `Store.Layered`: a store built from the bottom up can be told to have no cycles either (`acyclic`).
-/

import Mathlib.Order.WellFoundedSet
import TreeWalk.Record
import TreeWalk.Walk.Call

namespace TreeWalk

open Relation (ReflTransGen TransGen)

/-! ## Slots -/

/-- A place below a record at which a node stands. -/
structure Slot where
  key : String
  index : Option Nat
  value : Value
  deriving DecidableEq, Repr

theorem Store.cell_of_le {s : Store} {r : Ref} (h : s.size ≤ r) : s.cell r = {} := by
  have hr : s.cells.size ≤ r := h
  rw [Store.cell, Array.getElem?_eq_none hr]
  rfl

namespace Value

def entries (s : Store) : Value → List (String × Value)
  | .container k r => if k.hasFields then (s.cell r).fields.entries else []
  | _ => []

def slotsFrom (s : Store) (key : String) (i : Nat) (items : List Value) : List Slot :=
  (items.zipIdx i).filterMap fun x => if x.1.isNode s then some ⟨key, some x.2, x.1⟩ else none

/-- The slots of a field: those of a list or tuple, or the value itself. -/
def slotsAt (s : Store) (key : String) (v : Value) : List Slot :=
  if v.isSequence then slotsFrom s key 0 (v.items s)
  else if v.isNode s then [⟨key, none, v⟩]
  else []

def slots (s : Store) (reserved : List String) (v : Value) : List Slot :=
  (v.entries s).flatMap fun e => if e.1 ∈ reserved then [] else slotsAt s e.1 e.2

/-- A value directly holds another: in a field of its own or among its elements. -/
inductive Holds (s : Store) : Value → Value → Prop
  | field {v w : Value} {name : String} (h : (name, w) ∈ v.entries s) : Holds s v w
  | item {v w : Value} (h : w ∈ v.items s) : Holds s v w

variable {s : Store} {reserved : List String} {key : String} {v : Value} {c : Slot}

theorem slotsFrom_cons (i : Nat) (v : Value) (items : List Value) :
    slotsFrom s key i (v :: items) =
      (if v.isNode s then [⟨key, some i, v⟩] else []) ++ slotsFrom s key (i + 1) items := by
  unfold slotsFrom
  rw [List.zipIdx_cons, List.filterMap_cons]
  cases v.isNode s <;> rfl

theorem mem_slotsFrom {i : Nat} {items : List Value} (h : c ∈ slotsFrom s key i items) :
    c.key = key ∧ c.value.isNode s ∧ c.value ∈ items := by
  obtain ⟨x, hx, hc⟩ := List.mem_filterMap.mp h
  split at hc
  · rename_i hn
    cases hc
    exact ⟨rfl, hn, (List.mem_zipIdx hx).2.2 ▸ List.getElem_mem _⟩
  · cases hc

theorem nodup_slotsFrom (i : Nat) (items : List Value) : (slotsFrom s key i items).Nodup := by
  have hidx : (items.zipIdx i).Nodup := by
    refine List.Nodup.of_map Prod.snd ?_
    rw [List.zipIdx_map_snd]
    exact List.nodup_range'
  refine hidx.filterMap ?_
  rintro ⟨x, i⟩ ⟨y, j⟩ c hx hy
  simp only [Option.mem_def, Option.ite_none_right_eq_some, Option.some.injEq] at hx hy
  obtain ⟨-, rfl⟩ := hx
  obtain ⟨-, hxy⟩ := hy
  cases hxy
  rfl

theorem mem_slotsAt (h : c ∈ slotsAt s key v) : c.key = key ∧ c.value.isNode s ∧ (c.value = v ∨ Holds s v c.value) := by
  unfold slotsAt at h
  split at h
  · obtain ⟨hk, hn, hm⟩ := mem_slotsFrom h
    exact ⟨hk, hn, .inr (.item hm)⟩
  · split at h
    · rename_i hn
      cases List.mem_singleton.mp h
      exact ⟨rfl, hn, .inl rfl⟩
    · cases h

theorem nodup_slotsAt : (slotsAt s key v).Nodup := by
  unfold slotsAt
  split
  · exact nodup_slotsFrom 0 _
  · split
    · exact List.nodup_singleton _
    · exact List.nodup_nil

theorem mem_slots : c ∈ v.slots s reserved ↔
    c.key ∉ reserved ∧ ∃ w, (c.key, w) ∈ v.entries s ∧ c ∈ slotsAt s c.key w := by
  unfold slots
  rw [List.mem_flatMap]
  constructor
  · rintro ⟨⟨name, w⟩, he, hc⟩
    split at hc
    · cases hc
    · rename_i hk
      obtain ⟨rfl, -, -⟩ := mem_slotsAt hc
      exact ⟨hk, w, he, hc⟩
  · rintro ⟨hk, w, he, hc⟩
    exact ⟨(c.key, w), he, by rw [if_neg hk]; exact hc⟩

theorem isNode_of_mem_slots (h : c ∈ v.slots s reserved) : c.value.isNode s := by
  obtain ⟨-, w, -, hc⟩ := mem_slots.mp h
  exact (mem_slotsAt hc).2.1

theorem holds_of_mem_slots (h : c ∈ v.slots s reserved) : TransGen (Holds s) v c.value := by
  obtain ⟨-, w, he, hc⟩ := mem_slots.mp h
  rcases (mem_slotsAt hc).2.2 with e | hw
  · exact .single (e ▸ .field he)
  · exact .tail (.single (.field he)) hw

theorem nodup_entries (s : Store) (v : Value) : ((v.entries s).map Prod.fst).Nodup := by
  unfold entries
  split
  · split
    · exact (s.cell _).fields.nodup
    · exact List.nodup_nil
  · exact List.nodup_nil

theorem nodup_slots : (v.slots s reserved).Nodup := by
  unfold slots
  rw [List.nodup_flatMap]
  refine ⟨fun e _ => ?_, ?_⟩
  · split
    · exact List.nodup_nil
    · exact nodup_slotsAt
  · have hnames := nodup_entries s v
    rw [List.Nodup, List.pairwise_map] at hnames
    refine hnames.imp fun {e e'} hne c hc hc' => hne ?_
    dsimp only at hc hc'
    split at hc
    · cases hc
    · split at hc'
      · cases hc'
      · rw [← (mem_slotsAt hc).1, (mem_slotsAt hc').1]

theorem isNode_container (h : v.isNode s) : ∃ k r, v = .container k r ∧ r < s.size := by
  cases v with
  | atom a => cases h
  | tuple vs => cases h
  | container k r =>
    refine ⟨k, r, rfl, ?_⟩
    by_contra hr
    -- An empty cell has no type, nor does it inherit one.
    have hcell := Store.cell_of_le (Nat.le_of_not_lt hr)
    have htype : s.attribute? k r "type" = none := by
      unfold Store.attribute?
      rw [hcell]
      split
      · rename_i hget
        cases hget
      · split <;> rfl
    simp [isNode, tag, htype] at h

theorem finite_nodes (s : Store) : {v : Value | v.isNode s}.Finite := by
  let kinds : List Kind := [.list, .mapping, .frozenMapping, .object, .listObject]
  refine Set.Finite.subset (List.finite_toSet (kinds.flatMap fun k => (List.range s.size).map (.container k))) ?_
  intro v hv
  obtain ⟨k, r, rfl, hr⟩ := isNode_container hv
  have hk : k ∈ kinds := by cases k <;> decide
  exact List.mem_flatMap.mpr ⟨k, hk, List.mem_map.mpr ⟨r, List.mem_range.mpr hr, rfl⟩⟩

/-- A way down from a value: each slot belongs to the value that the one before it leads to. -/
def Path (s : Store) (reserved : List String) : Value → List Slot → Prop
  | _, [] => True
  | v, c :: p => c ∈ v.slots s reserved ∧ Path s reserved c.value p

end Value

/-! ## Trees and stores without cycles -/

/-- Nothing in the tree holds itself, directly or through others. -/
def Value.Acyclic (s : Store) (tree : Value) : Prop :=
  ∀ v, ReflTransGen (Value.Holds s) tree v → ¬ TransGen (Value.Holds s) v v

/-- Going from child to child comes to an end: the nodes are finitely many, and on the way down none is met twice. -/
theorem Value.Acyclic.acc {s : Store} {tree : Value} (h : tree.Acyclic s) (reserved : List String) {v : Value}
    (reach : ReflTransGen (Value.Holds s) tree v) :
    Acc (fun u v : Value => ∃ c ∈ v.slots s reserved, c.value = u) v := by
  let below : Value → Value → Prop := fun u v => ReflTransGen (Value.Holds s) tree v ∧ TransGen (Value.Holds s) v u
  have : IsStrictOrder Value below :=
    { irrefl := fun v hv => h v hv.1 hv.2
      trans := fun _ _ _ hab hbc => ⟨hbc.1, hbc.2.trans hab.2⟩ }
  have hnodes : WellFounded fun u v => below u v ∧ u ∈ {v : Value | v.isNode s} ∧ v ∈ {v : Value | v.isNode s} :=
    Set.wellFoundedOn_iff.mp (Value.finite_nodes s).wellFoundedOn
  have hacc : ∀ v : Value, v.isNode s → ReflTransGen (Value.Holds s) tree v →
      Acc (fun u v : Value => ∃ c ∈ v.slots s reserved, c.value = u) v := by
    intro v
    induction v using hnodes.induction with
    | _ v ih =>
      intro hv reach
      refine ⟨v, ?_⟩
      rintro u ⟨c, hc, rfl⟩
      have hn := Value.isNode_of_mem_slots hc
      have down := Value.holds_of_mem_slots hc
      exact ih _ ⟨⟨reach, down⟩, hn, hv⟩ hn (reach.trans down.to_reflTransGen)
  refine ⟨v, ?_⟩
  rintro u ⟨c, hc, rfl⟩
  exact hacc _ (Value.isNode_of_mem_slots hc) (reach.trans (Value.holds_of_mem_slots hc).to_reflTransGen)

/-- No value holds itself, directly or through others. -/
def Store.Acyclic (s : Store) : Prop := ∀ v, ¬ TransGen (Value.Holds s) v v

namespace Store.Acyclic

variable {s : Store}

theorem wellFounded (h : s.Acyclic) (reserved : List String) :
    WellFounded fun w v : Value => ∃ c ∈ v.slots s reserved, c.value = w :=
  ⟨fun _ => Value.Acyclic.acc (fun v _ => h v) reserved .refl⟩

/-- Every path from a value, each before those that continue it. -/
def preorder (h : s.Acyclic) (reserved : List String) (v : Value) : List (List Slot) :=
  [] :: (v.slots s reserved).attach.flatMap fun c => (preorder h reserved c.1.value).map (c.1 :: ·)
termination_by (h.wellFounded reserved).wrap v
decreasing_by exact ⟨c.1, c.2, rfl⟩

/-- Every path from a value, each after those that continue it. -/
def postorder (h : s.Acyclic) (reserved : List String) (v : Value) : List (List Slot) :=
  (v.slots s reserved).attach.flatMap (fun c => (postorder h reserved c.1.value).map (c.1 :: ·)) ++ [[]]
termination_by (h.wellFounded reserved).wrap v
decreasing_by exact ⟨c.1, c.2, rfl⟩

variable (h : s.Acyclic) (reserved : List String) (v : Value)

theorem preorder_eq : h.preorder reserved v =
    [] :: (v.slots s reserved).flatMap fun c => (h.preorder reserved c.value).map (c :: ·) := by
  rw [preorder]
  simp

theorem postorder_eq : h.postorder reserved v =
    (v.slots s reserved).flatMap (fun c => (h.postorder reserved c.value).map (c :: ·)) ++ [[]] := by
  rw [postorder]
  simp

theorem mem_preorder {p : List Slot} : p ∈ h.preorder reserved v ↔ v.Path s reserved p := by
  induction p generalizing v with
  | nil =>
    rw [preorder_eq]
    simp [Value.Path]
  | cons c p ih =>
    rw [preorder_eq]
    simp only [List.mem_cons, reduceCtorEq, List.mem_flatMap, List.mem_map, List.cons.injEq, false_or, Value.Path]
    constructor
    · rintro ⟨c', hc, p', hp, rfl, rfl⟩
      exact ⟨hc, (ih _).mp hp⟩
    · rintro ⟨hc, hp⟩
      exact ⟨c, hc, p, (ih _).mpr hp, rfl, rfl⟩

theorem nodup_preorder : (h.preorder reserved v).Nodup := by
  induction v using (h.wellFounded reserved).induction with
  | _ v ih =>
    rw [preorder_eq, List.nodup_cons, List.nodup_flatMap]
    refine ⟨by simp, fun c hc => ?_, ?_⟩
    · exact (ih c.value ⟨c, hc, rfl⟩).map fun p q e => (List.cons.inj e).2
    · -- Paths that begin with different slots differ.
      refine Value.nodup_slots.imp fun {c c'} hne p hp hp' => hne ?_
      obtain ⟨q, -, rfl⟩ := List.mem_map.mp hp
      obtain ⟨q', -, e⟩ := List.mem_map.mp hp'
      exact (List.cons.inj e).1.symm

theorem postorder_perm : (h.postorder reserved v).Perm (h.preorder reserved v) := by
  induction v using (h.wellFounded reserved).induction with
  | _ v ih =>
    rw [preorder_eq, postorder_eq]
    refine List.perm_append_comm.trans (.cons _ (List.Perm.flatMap_left _ fun c hc => ?_))
    exact (ih c.value ⟨c, hc, rfl⟩).map _

end Store.Acyclic

/-! ## Stores built from the bottom up -/

namespace Value

mutual

/-- The places a value names, through tuples of any depth. -/
def refs : Value → List Ref
  | .atom _ => []
  | .tuple vs => refsAll vs
  | .container _ r => [r]

def refsAll : List Value → List Ref
  | [] => []
  | v :: vs => refs v ++ refsAll vs

end

theorem refs_subset_refsAll {v : Value} {vs : List Value} (h : v ∈ vs) : v.refs ⊆ refsAll vs := by
  induction vs with
  | nil => cases h
  | cons w vs ih =>
    rw [refsAll]
    rcases List.mem_cons.mp h with rfl | h
    · exact List.subset_append_left _ _
    · exact fun q hq => List.mem_append_right _ (ih h hq)

/-- A container has a place in the store. -/
def Placed (s : Store) : Value → Prop
  | .container _ r => r < s.size
  | _ => True

/-- Every container that can be reached from a value has a place in the store. -/
def Complete (s : Store) (v : Value) : Prop := ∀ w, ReflTransGen (Holds s) v w → w.Placed s

theorem Complete.placed {s : Store} {v : Value} (h : v.Complete s) : v.Placed s := h v .refl

theorem Complete.reaches {s : Store} {v w : Value} (h : v.Complete s) (hw : TransGen (Holds s) v w) : w.Complete s :=
  fun u hu => h u (hw.to_reflTransGen.trans hu)

theorem Complete.holds {s : Store} {v w : Value} (h : v.Complete s) (hw : Holds s v w) : w.Complete s :=
  h.reaches (.single hw)

end Value

namespace Store

def contents (s : Store) (r : Ref) : List Value := (s.cell r).items ++ (s.cell r).fields.entries.map Prod.snd

/-- What is kept in a place only names places of the store. -/
def Closed (s : Store) : Prop := ∀ r < s.size, ∀ v ∈ s.contents r, ∀ q ∈ v.refs, q < s.size

instance (s : Store) : Decidable s.Closed :=
  inferInstanceAs (Decidable (∀ r < s.size, ∀ v ∈ s.contents r, ∀ q ∈ v.refs, q < s.size))

/-- What is kept in a place only names places before it. -/
def Layered (s : Store) : Prop := ∀ r < s.size, ∀ v ∈ s.contents r, ∀ q ∈ v.refs, q < r

instance (s : Store) : Decidable s.Layered :=
  inferInstanceAs (Decidable (∀ r < s.size, ∀ v ∈ s.contents r, ∀ q ∈ v.refs, q < r))

end Store

namespace Value

variable {s : Store}

theorem Holds.mem_contents {k : Kind} {r : Ref} {w : Value} (h : Holds s (.container k r) w) : w ∈ s.contents r := by
  cases h with
  | field h =>
    simp only [entries] at h
    split at h
    · exact List.mem_append_right _ (List.mem_map.mpr ⟨_, h, rfl⟩)
    · cases h
  | item h =>
    simp only [items] at h
    split at h
    · exact List.mem_append_left _ h
    · cases h

theorem holds_tuple {vs : List Value} {w : Value} (h : Holds s (.tuple vs) w) : w ∈ vs := by
  cases h with
  | field h => cases h
  | item h => exact h

mutual

theorem acc_of_refs : (v : Value) → (∀ q ∈ v.refs, ∀ k, Acc (fun w v => Holds s v w) (.container k q)) →
    Acc (fun w v => Holds s v w) v
  | .atom _, _ => ⟨_, fun _ hw => by cases hw <;> contradiction⟩
  | .tuple vs, h => ⟨_, fun w hw => acc_of_refsAll vs h w (holds_tuple hw)⟩
  | .container k r, h => h r (List.mem_singleton_self r) k

theorem acc_of_refsAll : (vs : List Value) → (∀ q ∈ refsAll vs, ∀ k, Acc (fun w v => Holds s v w) (.container k q)) →
    ∀ w ∈ vs, Acc (fun w v => Holds s v w) w
  | [], _, _, hw => nomatch hw
  | v :: vs, h, w, hw => by
    rcases List.mem_cons.mp hw with e | hw
    · rw [e]
      exact acc_of_refs v fun q hq => h q (List.mem_append_left _ hq)
    · exact acc_of_refsAll vs (fun q hq => h q (List.mem_append_right _ hq)) w hw

end

end Value

theorem Store.lt_size_of_mem_contents {s : Store} {r : Ref} {v : Value} (hv : v ∈ s.contents r) : r < s.size := by
  by_contra hr
  rw [contents, cell_of_le (Nat.le_of_not_lt hr)] at hv
  cases hv

theorem Store.Closed.complete {s : Store} (h : s.Closed) {v : Value} (hv : ∀ q ∈ v.refs, q < s.size) :
    v.Complete s := by
  intro w hw
  have hrefs : ∀ q ∈ w.refs, q < s.size := by
    induction hw with
    | refl => exact hv
    | @tail u w _ huw ih =>
      intro q hq
      cases u with
      | atom a => cases huw <;> contradiction
      | tuple vs => exact ih q (Value.refs_subset_refsAll (Value.holds_tuple huw) hq)
      | container k r => exact h r (lt_size_of_mem_contents huw.mem_contents) w huw.mem_contents q hq
  cases w with
  | container k r => exact hrefs r (List.mem_singleton_self r)
  | atom a => trivial
  | tuple vs => trivial

namespace Store.Layered

variable {s : Store}

theorem refs_lt (h : s.Layered) {r : Ref} {v : Value} (hv : v ∈ s.contents r) {q : Ref} (hq : q ∈ v.refs) :
    q < r ∧ r < s.size :=
  ⟨h r (lt_size_of_mem_contents hv) v hv q hq, lt_size_of_mem_contents hv⟩

theorem acyclic (h : s.Layered) : s.Acyclic := by
  have hplaces : ∀ r k, Acc (fun w v => Value.Holds s v w) (.container k r) := by
    intro r
    induction r using Nat.strong_induction_on with
    | _ r ih => exact fun k => ⟨_, fun w hw => w.acc_of_refs fun q hq => ih q (h.refs_lt hw.mem_contents hq).1⟩
  have hwf : WellFounded fun w v => Value.Holds s v w := ⟨fun v => v.acc_of_refs fun q _ => hplaces q⟩
  intro v hv
  exact hwf.transGen.irrefl.irrefl v (Relation.transGen_swap.mpr hv)

theorem closed (h : s.Layered) : s.Closed := fun r hr v hv q hq => (h r hr v hv q hq).trans hr

theorem complete (h : s.Layered) {v : Value} (hv : ∀ q ∈ v.refs, q < s.size) : v.Complete s := h.closed.complete hv

end Store.Layered

end TreeWalk
