/-
  TreeWalk.Proofs.Descent — walking the children of a record is visiting what stands in its slots, one after the other.

  What a visit does depends on the callbacks. What lies between two visits does not: as long as the tree reads as it did
  (`Value.Intact`), the fields of a record and the positions of its lists lead from slot to slot. So what is known of
  the visits can be put together once, for all walks.
  - `Watch`: something that is kept in a walk, and something that is watched in it. Neither is touched by a step that
    makes no call.
  - `Walker.Visits`: every visit of an occurrence comes back to the frame below it, and takes what is watched from one
    point to another.
  - `Walker.children_pass`: if there are such visits for all slots of a record, the walk of its children comes to its
    end, and what is watched is taken along the slots in their order (`Chain`).
  - `Walker.ends_with_root`, `Walker.ends_with_children`: the same for a whole walk, whose root is a node or not.
-/

import TreeWalk.Proofs.Children
import TreeWalk.Proofs.Steps

namespace TreeWalk

open Relation (ReflTransGen)

variable {σ ν α β : Type}

def Slot.under (c : Slot) (o : Occurrence) : Occurrence := ⟨c.value, some c.key, c.index, o.ancestors ++ [o.node]⟩

/-! ## Values that read as they did -/

namespace Value

/-- In the store `t` the value has the fields and the elements it has in `s`, and is a node if it is one there. -/
structure Reads (s t : Store) (v : Value) : Prop where
  names : v.ownNames t = (v.entries s).map Prod.fst
  field : ∀ {name u}, (name, u) ∈ v.entries s → v.ownField t name = .ok (some u)
  items : v.items t = v.items s
  isNode : v.isNode t = v.isNode s

/-- A value whose place has the same contents reads as it did. A field is found under its name, since no name is there
    twice. -/
theorem reads_of_cell {s t : Store} {v : Value} (h : ∀ k r, v = .container k r → t.cell r = s.cell r) :
    v.Reads s t := by
  cases v with
  | atom a => exact ⟨rfl, nofun, rfl, rfl⟩
  | tuple vs => exact ⟨rfl, nofun, rfl, rfl⟩
  | container k r =>
    have hcell := h k r rfl
    refine ⟨?_, ?_, ?_, ?_⟩
    · simp only [ownNames, entries, hcell]
      split <;> rfl
    · intro name u he
      simp only [entries] at he
      split at he
      · rename_i hk
        rw [ownField, if_pos hk, hcell, Fields.get?_of_mem he]
      · cases he
    · simp only [Value.items, hcell]
    · simp only [Value.isNode, tag, Store.attribute?, hcell]

/-- Every place that can be reached from the value has the contents it had. -/
def Intact (s t : Store) (v : Value) : Prop := ∀ k r, ReflTransGen (Holds s) v (.container k r) → t.cell r = s.cell r

theorem intact_self (s : Store) (v : Value) : v.Intact s s := fun _ _ _ => rfl

theorem Intact.reads {s t : Store} {v : Value} (h : v.Intact s t) : v.Reads s t := by
  apply reads_of_cell
  intro k r e
  subst e
  exact h k r .refl

theorem Intact.holds {s t : Store} {v u : Value} (h : v.Intact s t) (hu : Holds s v u) : u.Intact s t :=
  fun k r hr => h k r (.head hu hr)

end Value

/-! ## Steps on the way -/

namespace Walker

/-- A number of steps leads from one state to another. -/
def Reaches (w : Walker σ ν) (s t : State σ ν) : Prop := ∃ n, w.run n s = t

variable {w : Walker σ ν} {s t u : State σ ν}

theorem Reaches.step (s : State σ ν) : w.Reaches s (w.step s) := ⟨1, w.run_one s⟩

theorem Reaches.trans (h : w.Reaches s t) (h' : w.Reaches t u) : w.Reaches s u := by
  obtain ⟨m, rfl⟩ := h
  obtain ⟨n, rfl⟩ := h'
  exact ⟨m + n, w.run_add m n s⟩

theorem step_of_silent {F F' : Focus} {K K' : List Frame} (hF : s.focus = F) (hK : s.stack = K) (due : w.due F = none)
    (move : Silent w.reserved s.store F K F' K') : w.step s = s.go F' K' := by
  subst hF hK
  obtain ⟨F₁, K₁, move₁, hs⟩ := step_silent due
  obtain ⟨rfl, rfl⟩ := move₁.unique move
  exact hs

end Walker

/-- Something that is kept in a walk, and something that is watched in it. -/
structure Watch (w : Walker σ ν) (α : Type) where
  Holds : State σ ν → Prop
  view : State σ ν → α
  keeps : ∀ s F K, Holds s → w.step s = s.go F K → Holds (s.go F K)
  still : ∀ s F K, view (s.go F K) = view s

/-- What takes a point along a list, from one element to the next. -/
inductive Chain (R : β → α → α → Prop) : List β → α → α → Prop
  | nil (a : α) : Chain R [] a a
  | cons {x : β} {xs : List β} {a b c : α} (head : R x a b) (tail : Chain R xs b c) : Chain R (x :: xs) a c

theorem Chain.append {R : β → α → α → Prop} {xs ys : List β} {a b c : α} (h : Chain R xs a b) (h' : Chain R ys b c) :
    Chain R (xs ++ ys) a c := by
  induction h with
  | nil => exact h'
  | cons head _ ih => exact .cons head (ih h')

theorem Chain.single {R : β → α → α → Prop} {x : β} {a b : α} (h : R x a b) : Chain R [x] a b := .cons h (.nil b)

/-- A signal after which the walk goes on with the next sibling. -/
structure Signal.Onward (s : Store) (g : Signal) : Prop where
  exit : g.isExit s = false
  resume : g.resume s = none

namespace Walker

variable {w : Walker σ ν}

/-- A visit that begins where something is kept comes back to the frame below, and keeps it. -/
def Visits (w : Walker σ ν) (W : Watch w α) (o : Occurrence) (R : α → α → Prop) : Prop :=
  ∀ s, W.Holds s → s.focus = .enter o →
    ∃ t g, w.Reaches s t ∧ W.Holds t ∧ t.focus = .back g ∧ g.Onward t.store ∧ t.stack = s.stack ∧
      R (W.view s) (W.view t)

/-- The walk comes to what waits below the top frame, along some slots. -/
def Passes (w : Walker σ ν) (W : Watch w α) (R : Slot → α → α → Prop) (cs : List Slot) (s : State σ ν)
    (K : List Frame) : Prop :=
  ∃ t, w.Reaches s t ∧ W.Holds t ∧ t.focus = .next ∧ t.stack = K ∧ Chain R cs (W.view s) (W.view t)

variable {W : Watch w α} {R : Slot → α → α → Prop} {store : Store} {o : Occurrence} {s : State σ ν} {K : List Frame}

theorem passes_silent {K' : List Frame} (hs : W.Holds s) (hF : s.focus = .next) (hK : s.stack = K')
    (move : Silent w.reserved s.store .next K' .next K) : w.Passes W R [] s K := by
  have step := step_of_silent hF hK rfl move
  refine ⟨s.go .next K, step ▸ Reaches.step s, W.keeps s .next K hs step, rfl, rfl, ?_⟩
  rw [W.still]
  exact .nil _

theorem Passes.after_silent {K' L : List Frame} {cs : List Slot} (hs : W.Holds s) (hF : s.focus = .next)
    (hK : s.stack = K) (move : Silent w.reserved s.store .next K .next K')
    (h : W.Holds (s.go .next K') → w.Passes W R cs (s.go .next K') L) : w.Passes W R cs s L := by
  have step := step_of_silent hF hK rfl move
  obtain ⟨t, reach, ht, hF', hK', chain⟩ := h (W.keeps s .next K' hs step)
  rw [W.still] at chain
  exact ⟨t, (step ▸ Reaches.step s).trans reach, ht, hF', hK', chain⟩

/-- A silent move to a node, its visit, and a silent move back to the frame below pass its slot. -/
theorem Visits.passes {c : Slot} (visit : w.Visits W (c.under o) (R c)) {K' L : List Frame} (hs : W.Holds s)
    (hF : s.focus = .next) (hK : s.stack = K) (move : Silent w.reserved s.store .next K (.enter (c.under o)) K')
    (back : ∀ (t : Store) (g : Signal), g.Onward t → Silent w.reserved t (.back g) K' .next L) :
    w.Passes W R [c] s L := by
  have step := step_of_silent hF hK rfl move
  obtain ⟨t, g, reach, ht, hback, onward, hstack, taken⟩ := visit _ (W.keeps s _ _ hs step) rfl
  have step' := step_of_silent hback hstack rfl (back t.store g onward)
  rw [W.still] at taken
  refine ⟨t.go .next L, ?_, W.keeps t _ _ ht step', rfl, rfl, ?_⟩
  · exact ((step ▸ Reaches.step s).trans reach).trans (step' ▸ Reaches.step t)
  · rw [W.still]
    exact .single taken

theorem Passes.trans {cs ds : List Slot} {L : List Frame} (h : w.Passes W R cs s K)
    (h' : ∀ t, W.Holds t → t.focus = .next → t.stack = K → w.Passes W R ds t L) : w.Passes W R (cs ++ ds) s L := by
  obtain ⟨t, reach, ht, hF, hK, chain⟩ := h
  obtain ⟨u, reach', hu, hF', hK', chain'⟩ := h' t ht hF hK
  exact ⟨u, reach.trans reach', hu, hF', hK', chain.append chain'⟩

/-! ## Positions and fields -/

theorem items_pass {seq : Value} {key : String} (intact : ∀ s, W.Holds s → seq.Intact store s.store)
    {rest : List Value} {i : Nat} (hrest : (seq.items store).drop i = rest)
    (visits : ∀ c ∈ Value.slotsFrom store key i rest, w.Visits W (c.under o) (R c)) (hs : W.Holds s)
    (hF : s.focus = .next) (hK : s.stack = .items seq key o.node o.ancestors i :: K) :
    w.Passes W R (Value.slotsFrom store key i rest) s K := by
  -- Along the elements that are ahead: the store may change from one to the next, but they read as they did.
  induction rest generalizing i s with
  | nil =>
    have hlen : (seq.items s.store).length ≤ i := by
      rw [(intact s hs).reads.items]
      exact List.drop_eq_nil_iff.mp hrest
    exact passes_silent hs hF hK (.scanOver seq key o.node o.ancestors i K (.inr (Int.ofNat_le.mpr hlen)))
  | cons x rest ih =>
    have hx : (seq.items s.store)[i]? = some x := by
      rw [(intact s hs).reads.items, ← Nat.add_zero i, ← List.getElem?_drop, hrest]
      rfl
    have hrest' : (seq.items store).drop (i + 1) = rest := by
      rw [← List.tail_drop, hrest]
      rfl
    have hmem : x ∈ seq.items store := List.mem_of_mem_drop (hrest ▸ List.mem_cons_self)
    have hnode : x.isNode s.store = x.isNode store := ((intact s hs).holds (.item hmem)).reads.isNode
    rw [Value.slotsFrom_cons] at visits ⊢
    cases hn : x.isNode store with
    | false =>
      simp only [hn, Bool.false_eq_true, if_false, List.nil_append] at visits ⊢
      have move : Silent w.reserved s.store _ _ _ _ :=
        .passItem seq key o.node o.ancestors i K x hx (hnode.trans hn)
      exact Passes.after_silent hs hF hK move fun hs' => ih hrest' visits hs' rfl rfl
    | true =>
      simp only [hn, if_true, List.singleton_append, List.forall_mem_cons] at visits ⊢
      have move : Silent w.reserved s.store _ _ _ _ := .item seq key o.node o.ancestors i K x hx (hnode.trans hn)
      have first : w.Passes W R [⟨key, some i, x⟩] s (.items seq key o.node o.ancestors (i + 1) :: K) := by
        refine visits.1.passes hs hF hK move fun t g onward => ?_
        have back : Silent w.reserved t _ _ _ _ := .resume g seq key o.node o.ancestors i K onward.exit
        rw [onward.resume] at back
        exact back
      exact first.trans fun t ht hF' hK' => ih hrest' visits.2 ht hF' hK'

def fieldSlots (w : Walker σ ν) (store : Store) (e : String × Value) : List Slot :=
  if e.1 ∈ w.reserved then [] else Value.slotsAt store e.1 e.2

theorem field_pass (intact : ∀ s, W.Holds s → o.node.Intact store s.store) {key : String} {v : Value}
    {names : List String} (he : (key, v) ∈ o.node.entries store)
    (visits : ∀ c ∈ w.fieldSlots store (key, v), w.Visits W (c.under o) (R c)) (hs : W.Holds s) (hF : s.focus = .next)
    (hK : s.stack = .fields o.node o.ancestors (key :: names) :: K) :
    w.Passes W R (w.fieldSlots store (key, v)) s (.fields o.node o.ancestors names :: K) := by
  have hfield : o.node.ownField s.store key = .ok (some v) := (intact s hs).reads.field he
  have below : ∀ s, W.Holds s → v.Intact store s.store := fun s hs => (intact s hs).holds (.field he)
  have hnode : v.isNode s.store = v.isNode store := (below s hs).reads.isNode
  simp only [fieldSlots] at visits ⊢
  by_cases hk : key ∈ w.reserved
  · simp only [hk, if_true]
    exact passes_silent hs hF hK (.passField o.node o.ancestors key names K (.inl hk))
  simp only [hk, if_false, Value.slotsAt] at visits ⊢
  cases hv : v.isSequence with
  | true =>
    simp only [hv, if_true] at visits ⊢
    have move : Silent w.reserved s.store _ _ _ _ := .scan o.node o.ancestors key names K v hk hfield hv
    exact Passes.after_silent hs hF hK move fun hs' => items_pass below List.drop_zero visits hs' rfl rfl
  | false =>
    simp only [hv, Bool.false_eq_true, if_false] at visits ⊢
    cases hn : v.isNode store with
    | true =>
      simp only [hn, if_true, List.forall_mem_singleton] at visits ⊢
      have move : Silent w.reserved s.store _ _ _ _ :=
        .child o.node o.ancestors key names K v hk hfield hv (hnode.trans hn)
      exact visits.passes hs hF hK move fun t g onward => .toFields g o.node o.ancestors names K onward.exit
    | false =>
      simp only [Bool.false_eq_true, if_false]
      refine passes_silent hs hF hK (.passField o.node o.ancestors key names K (.inr ⟨some v, hfield, ?_⟩))
      intro u hu
      cases hu
      exact ⟨hv, hnode.trans hn⟩

theorem fields_pass (intact : ∀ s, W.Holds s → o.node.Intact store s.store)
    (visits : ∀ c ∈ o.node.slots store w.reserved, w.Visits W (c.under o) (R c)) {todo : List (String × Value)}
    (sub : todo ⊆ o.node.entries store) (hs : W.Holds s) (hF : s.focus = .next)
    (hK : s.stack = .fields o.node o.ancestors (todo.map Prod.fst) :: K) :
    w.Passes W R (todo.flatMap (w.fieldSlots store)) s K := by
  induction todo generalizing s with
  | nil => exact passes_silent hs hF hK (.fieldsOver o.node o.ancestors K)
  | cons e todo ih =>
    obtain ⟨he, sub⟩ := List.cons_subset.mp sub
    have first : w.Passes W R (w.fieldSlots store e) s (.fields o.node o.ancestors (todo.map Prod.fst) :: K) :=
      field_pass intact he (fun c hc => visits c (List.mem_flatMap.mpr ⟨e, he, hc⟩)) hs hF hK
    rw [List.flatMap_cons]
    exact first.trans fun t ht hF' hK' => ih sub ht hF' hK'

/-- The walk of a record's children comes to its end along the slots of the record. -/
theorem children_pass (intact : ∀ s, W.Holds s → o.node.Intact store s.store)
    (visits : ∀ c ∈ o.node.slots store w.reserved, w.Visits W (c.under o) (R c)) (hs : W.Holds s)
    (hF : s.focus = .next) (hK : s.stack = .fields o.node o.ancestors (o.node.ownNames s.store) :: K) :
    w.Passes W R (o.node.slots store w.reserved) s K := by
  rw [(intact s hs).reads.names] at hK
  exact fields_pass intact visits (List.Subset.refl _) hs hF hK

/-! ## The root -/

section

variable {tree : Value} {memory : σ} (hc : w.HasCallback) (hs : W.Holds (w.start tree store memory))

include hc hs

theorem ends_with_root {P : α → α → Prop} (hn : tree.isNode store) (visit : w.Visits W ⟨tree, none, none, []⟩ P) :
    ∃ t g, w.Reaches (w.start tree store memory) t ∧ W.Holds t ∧ t.focus = .done (.returned g) ∧
      P (W.view (w.start tree store memory)) (W.view t) := by
  have hstart := w.start_node hc hn memory
  obtain ⟨t, g, reach, ht, hback, -, hstack, taken⟩ := visit _ hs (by rw [hstart])
  have step := step_of_silent hback (hstack.trans (by rw [hstart])) rfl (w := w) (.rootOver g)
  refine ⟨t.go (.done (.returned g)) [], g, reach.trans (step ▸ Reaches.step t), W.keeps t _ _ ht step, rfl, ?_⟩
  rw [W.still]
  exact taken

theorem ends_with_children (hn : tree.isNode store = false) (intact : ∀ s, W.Holds s → tree.Intact store s.store)
    (visits : ∀ c ∈ tree.slots store w.reserved, w.Visits W (c.under ⟨tree, none, none, []⟩) (R c)) :
    ∃ t, w.Reaches (w.start tree store memory) t ∧ W.Holds t ∧ t.focus = .done (.returned .silent) ∧
      Chain R (tree.slots store w.reserved) (W.view (w.start tree store memory)) (W.view t) := by
  have hstart := w.start_other hc hn memory
  obtain ⟨t, reach, ht, hnext, hstack, chain⟩ := children_pass (o := ⟨tree, none, none, []⟩) (K := []) intact visits hs
    (by rw [hstart]) (by rw [hstart])
  have step := step_of_silent hnext hstack rfl (w := w) .stop
  refine ⟨t.go (.done (.returned .silent)) [], reach.trans (step ▸ Reaches.step t), W.keeps t _ _ ht step, rfl, ?_⟩
  rw [W.still]
  exact chain

end

/-! ## Visits with `enter` alone -/

section

variable {f : Callback σ ν} {v : Value} {r : Reply σ ν}

theorem due_alone (enter : w.enter = some f) (leave : w.leave = none) {g : Callback σ ν} {c : Call}
    (due : w.due s.focus = some (g, c)) :
    g = f ∧ ∃ o : Occurrence, s.focus = .enter o ∧ c = { o with phase := .enter } := by
  obtain ⟨o, hF, he, hc⟩ | ⟨o, g, -, hl, -⟩ := w.due_cases due
  · exact ⟨Option.some.inj (he.symm.trans enter), o, hF, hc⟩
  · rw [leave] at hl
    cases hl

theorem reaches_skipped (enter : w.enter = some f) (leave : w.leave = none) (hF : s.focus = .enter o)
    (reply : f { o with phase := .enter } s.store s.memory = r) (answer : r.outcome = .ok v)
    (exit : (Signal.ofValue v).isExit r.store = false) (skip : (Signal.ofValue v).isSkip r.store) :
    w.Reaches s ((w.after { o with phase := .enter } r s).go (.back (.ofValue v)) s.stack) := by
  have due : w.due s.focus = some (f, { o with phase := .enter }) := by rw [hF, w.due_of_enter enter]
  have called := step_called due
  simp only [hF, reply, heed, answer, exit, skip, Bool.false_eq_true, if_false, if_true] at called
  have left := step_of_silent (w := w) (s := w.step s) (by rw [called]; rfl) rfl (by simp [Walker.due, leave])
    (.leave { o with ancestors := r.ancestors } (.ofValue v) _)
  have reach : w.Reaches s (w.step (w.step s)) := (Reaches.step s).trans (Reaches.step _)
  rw [left, called] at reach
  exact reach

theorem step_fields (enter : w.enter = some f) (hF : s.focus = .enter o)
    (reply : f { o with phase := .enter } s.store s.memory = r) (answer : r.outcome = .ok v)
    (exit : (Signal.ofValue v).isExit r.store = false) (skip : (Signal.ofValue v).isSkip r.store = false) :
    w.step s = (w.after { o with phase := .enter } r s).go .next
      (.fields o.node r.ancestors (o.node.ownNames r.store) ::
        .visit { o with ancestors := r.ancestors } (.ofValue v) :: s.stack) := by
  have due : w.due s.focus = some (f, { o with phase := .enter }) := by rw [hF, w.due_of_enter enter]
  have called := step_called due
  simp only [hF, reply, heed, answer, exit, skip, Bool.false_eq_true, if_false] at called
  exact called

theorem reaches_back (leave : w.leave = none) {g : Signal} (hs : W.Holds s) (hF : s.focus = .next)
    (hK : s.stack = .visit o g :: K) : w.Reaches s (s.go (.back g) K) ∧ W.Holds (s.go (.back g) K) := by
  have walked := step_of_silent hF hK rfl (w := w) (.childrenOver o g K)
  have left := step_of_silent (w := w) (s := s.go (.leave o g) K) rfl rfl (by simp [Walker.due, leave]) (.leave o g K)
  refine ⟨(walked ▸ Reaches.step s).trans (left ▸ Reaches.step _), ?_⟩
  have hleave : W.Holds (s.go (.leave o g) K) := W.keeps s _ _ hs walked
  exact W.keeps (s.go (.leave o g) K) (.back g) K hleave left

end

end Walker

end TreeWalk
