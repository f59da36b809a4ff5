/-
  TreeWalk.Proofs.Skipping — to skip a node takes away the calls below it, and no others.

  Two walks go through the same tree. Neither changes anything, exits or names a position. In one of them `enter` asks
  to skip some occurrences, in the other none. The calls of both can be told from the paths: a walk without skips makes
  them for all paths, entering a path before those that continue it and leaving it after them (`tour`). The other makes
  the same calls in the same order, without those for paths that continue one at whose end a node was skipped
  (`Value.hidden`). A node that has two paths may be skipped on one of them only.
  - `mem_tour`, `nodup_tour`: every path is on the tour, once in each phase.
  - `visit_skipped`, `visit_descended`, `tours_node`: what the visit of a node does, by induction along the children.
  - `ends_of_obeying`: the calls of a whole walk.
  - `skipping_hides_what_is_below`: the two walks side by side.
-/

import Mathlib.Data.List.Infix
import TreeWalk.Proofs.Orders

namespace TreeWalk

variable {σ ν : Type}

/-! ## Tours -/

namespace Store.Acyclic

variable {store : Store}

/-- All paths from a value, each in both phases around those that continue it. -/
def tour (h : store.Acyclic) (reserved : List String) (v : Value) : List (List Slot × Phase) :=
  ([], .enter) :: (v.slots store reserved).attach.flatMap (fun c =>
    (tour h reserved c.1.value).map fun e => (c.1 :: e.1, e.2)) ++ [([], .leave)]
termination_by (h.wellFounded reserved).wrap v
decreasing_by exact ⟨c.1, c.2, rfl⟩

variable (h : store.Acyclic) (reserved : List String) (v : Value)

theorem tour_eq : h.tour reserved v =
    ([], .enter) :: (v.slots store reserved).flatMap (fun c =>
      (h.tour reserved c.value).map fun e => (c :: e.1, e.2)) ++ [([], .leave)] := by
  rw [tour]
  simp

theorem mem_tour {p : List Slot} {phase : Phase} : (p, phase) ∈ h.tour reserved v ↔ v.Path store reserved p := by
  induction p generalizing v with
  | nil =>
    rw [tour_eq]
    cases phase <;> simp [Value.Path]
  | cons c p ih =>
    rw [tour_eq]
    simp only [List.cons_append, List.mem_cons, Prod.mk.injEq, List.cons.injEq, reduceCtorEq, false_and, false_or,
      List.mem_append, List.mem_flatMap, List.mem_map, List.not_mem_nil, or_false, Value.Path]
    constructor
    · rintro ⟨c', hc, ⟨p', phase'⟩, hp, ⟨rfl, rfl⟩, rfl⟩
      exact ⟨hc, (ih _).mp hp⟩
    · rintro ⟨hc, hp⟩
      exact ⟨c, hc, (p, phase), (ih _).mpr hp, ⟨rfl, rfl⟩, rfl⟩

theorem nodup_tour : (h.tour reserved v).Nodup := by
  induction v using (h.wellFounded reserved).induction with
  | _ v ih =>
    have through : ((v.slots store reserved).flatMap fun c =>
        (h.tour reserved c.value).map fun e => (c :: e.1, e.2)).Nodup := by
      rw [List.nodup_flatMap]
      refine ⟨fun c hc => ?_, ?_⟩
      · refine (ih c.value ⟨c, hc, rfl⟩).map ?_
        rintro ⟨p, phase⟩ ⟨q, phase'⟩ e
        cases e
        rfl
      · -- Paths that begin with different slots differ.
        refine Value.nodup_slots.imp fun {c c'} hne e he he' => hne ?_
        obtain ⟨a, -, rfl⟩ := List.mem_map.mp he
        obtain ⟨b, -, hb⟩ := List.mem_map.mp he'
        simp only [Prod.mk.injEq, List.cons.injEq] at hb
        exact hb.1.1.symm
    rw [tour_eq, List.cons_append, List.nodup_cons, List.nodup_append]
    refine ⟨by simp, through, List.nodup_singleton _, ?_⟩
    intro e he e' he'
    obtain ⟨c, -, hc⟩ := List.mem_flatMap.mp he
    obtain ⟨a, -, rfl⟩ := List.mem_map.mp hc
    rw [List.mem_singleton.mp he']
    simp

/-- The tour of the paths that lead to nodes: the empty one only if the value itself is a node. -/
def nodeTour : List (List Slot × Phase) := (h.tour reserved v).filter fun e => e.1 ≠ [] || v.isNode store

variable {v}

theorem nodeTour_of_isNode (hv : v.isNode store) : h.nodeTour reserved v = h.tour reserved v := by
  simp only [nodeTour, hv, Bool.or_true, List.filter_true]

theorem nodeTour_of_other (hv : v.isNode store = false) : h.nodeTour reserved v =
    (v.slots store reserved).flatMap fun c => (h.tour reserved c.value).map fun e => (c :: e.1, e.2) := by
  have own : ∀ phase : Phase, [(([] : List Slot), phase)].filter (fun e => e.1 ≠ [] || v.isNode store) = [] := by
    simp [hv]
  have through : ∀ c : Slot, ((h.tour reserved c.value).map fun e => (c :: e.1, e.2)).filter
      (fun e => e.1 ≠ [] || v.isNode store) = (h.tour reserved c.value).map fun e => (c :: e.1, e.2) := by
    intro c
    simp [List.filter_map, Function.comp_def]
  rw [nodeTour, tour_eq, ← List.singleton_append, List.filter_append, List.filter_append, own, own, List.nil_append,
    List.append_nil, List.filter_flatMap]
  simp only [through]

theorem mem_nodeTour {p : List Slot} {phase : Phase} :
    (p, phase) ∈ h.nodeTour reserved v ↔ v.Path store reserved p ∧ (p ≠ [] ∨ v.isNode store) := by
  rw [nodeTour, List.mem_filter, mem_tour]
  simp

end Store.Acyclic

/-! ## What is hidden -/

section

variable (skips : Occurrence → Bool)

/-- On the path from an occurrence, a node before the last is skipped. -/
def Occurrence.hides : Occurrence → List Slot → Bool
  | _, [] => false
  | o, c :: p => skips o || (c.under o).hides p

/-- The path continues one that leads to a node which is skipped. -/
def Value.hidden (store : Store) (tree : Value) (p : List Slot) : Bool :=
  p.inits.dropLast.any fun q => (q ≠ [] || tree.isNode store) && skips (Occurrence.along ⟨tree, none, none, []⟩ q)

theorem inits_dropLast_cons (c : Slot) (p : List Slot) :
    (c :: p).inits.dropLast = [] :: p.inits.dropLast.map (c :: ·) := by
  have hne : p.inits.map (c :: ·) ≠ [] := by cases p <;> simp
  rw [List.inits_cons, List.dropLast_cons_of_ne_nil hne, List.map_dropLast]

theorem mem_inits_dropLast {p q : List Slot} : q ∈ p.inits.dropLast ↔ q <+: p ∧ q ≠ p := by
  induction p generalizing q with
  | nil => simp
  | cons c p ih =>
    rw [inits_dropLast_cons, List.mem_cons, List.mem_map]
    cases q with
    | nil => simp
    | cons d q =>
      simp only [reduceCtorEq, List.cons.injEq, false_or, ih, List.cons_prefix_cons, ne_eq]
      constructor
      · rintro ⟨q', ⟨hq, hne⟩, rfl, rfl⟩
        exact ⟨⟨rfl, hq⟩, fun e => hne e.2⟩
      · rintro ⟨⟨rfl, hq⟩, hne⟩
        exact ⟨q, ⟨hq, fun e => hne ⟨rfl, e⟩⟩, rfl, rfl⟩

theorem Occurrence.hides_eq (o : Occurrence) (p : List Slot) :
    o.hides skips p = p.inits.dropLast.any fun q => skips (o.along q) := by
  induction p generalizing o with
  | nil => rfl
  | cons c p ih =>
    rw [inits_dropLast_cons, List.any_cons, List.any_map, Occurrence.hides, ih]
    rfl

variable {store : Store} {tree : Value}

theorem Value.hidden_iff {p : List Slot} : tree.hidden skips store p = true ↔
    ∃ q, q <+: p ∧ q ≠ p ∧ (q ≠ [] ∨ tree.isNode store) ∧ skips (Occurrence.along ⟨tree, none, none, []⟩ q) = true := by
  rw [Value.hidden, List.any_eq_true]
  simp only [mem_inits_dropLast, Bool.and_eq_true, Bool.or_eq_true, decide_eq_true_eq, and_assoc]

theorem Value.hidden_of_isNode (ht : tree.isNode store) (p : List Slot) :
    tree.hidden skips store p = Occurrence.hides skips ⟨tree, none, none, []⟩ p := by
  simp only [Value.hidden, ht, Bool.or_true, Bool.true_and, Occurrence.hides_eq]

theorem Value.hidden_of_other (ht : tree.isNode store = false) (c : Slot) (p : List Slot) :
    tree.hidden skips store (c :: p) = (c.under ⟨tree, none, none, []⟩).hides skips p := by
  rw [Value.hidden, inits_dropLast_cons, List.any_cons, List.any_map, Occurrence.hides_eq]
  simp only [ne_eq, not_true_eq_false, decide_false, ht, Bool.or_false, Bool.false_and, Bool.false_or,
    Function.comp_def, reduceCtorEq, not_false_eq_true, decide_true, Bool.true_and]
  rfl

end

/-! ## The calls for what is not hidden -/

/-- The call for the end of a path. -/
def Occurrence.callAt (o : Occurrence) (e : List Slot × Phase) : Call := ⟨o.along e.1, e.2⟩

def Walker.toured {store : Store} (w : Walker σ ν) (h : store.Acyclic) (skips : Occurrence → Bool) (o : Occurrence) :
    List Call :=
  ((h.tour w.reserved o.node).filter fun e => w.hears e.2 && !o.hides skips e.1).map o.callAt

theorem Walker.toured_eq {store : Store} (w : Walker σ ν) (h : store.Acyclic) (skips : Occurrence → Bool)
    (o : Occurrence) : w.toured h skips o = w.callsFor .enter o ++
      (if skips o then [] else (o.node.slots store w.reserved).flatMap fun c => w.toured h skips (c.under o)) ++
        w.callsFor .leave o := by
  have own : ∀ phase, ([([], phase)].filter fun e : List Slot × Phase => w.hears e.2 && !o.hides skips e.1).map
      o.callAt = w.callsFor phase o := by
    intro phase
    cases hears : w.hears phase <;> simp [Walker.callsFor, hears, Occurrence.hides, Occurrence.callAt, Occurrence.along]
  have through : ∀ c : Slot, (((h.tour w.reserved c.value).map fun e => (c :: e.1, e.2)).filter fun e =>
      w.hears e.2 && !o.hides skips e.1).map o.callAt = if skips o then [] else w.toured h skips (c.under o) := by
    intro c
    cases skipped : skips o <;>
      simp [List.filter_map, Function.comp_def, Occurrence.hides, skipped, Walker.toured, Occurrence.callAt,
        Occurrence.along, Slot.under]
  rw [Walker.toured, h.tour_eq, ← List.singleton_append, List.filter_append, List.filter_append, List.map_append,
    List.map_append, own, own, List.filter_flatMap, List.map_flatMap]
  simp only [through]
  cases skips o <;> simp

/-! ## Walks that only skip -/

/-- A signal that asks for nothing but to skip. -/
structure Signal.Tame (s : Store) (g : Signal) : Prop where
  placed : ∀ k r, g = .live k r → r < s.size
  exit : g.isExit s = false
  resume : g.resume s = none

theorem Signal.Tame.grows {s t : Store} {g : Signal} (hg : g.Tame s) (h : s.Grows t) : g.Tame t := by
  have hitems := items_of_grows hg.placed h
  refine ⟨fun k r e => Nat.lt_of_lt_of_le (hg.placed k r e) h.size, ?_, ?_⟩
  · rw [isExit_of_items hitems, hg.exit]
  · rw [resume_of_items hitems, hg.resume]

/-- The callback changed nothing. It asked to skip if it entered one of these occurrences, and for nothing else. -/
structure Exchange.Obeys (skips : Occurrence → Bool) (x : Exchange σ ν) : Prop where
  store : x.before.Grows x.reply.store
  ancestors : x.reply.ancestors = x.call.ancestors
  answer : ∃ v, x.reply.outcome = .ok v ∧ (Signal.ofValue v).Tame x.reply.store ∧
    (x.call.phase = .enter → (Signal.ofValue v).isSkip x.reply.store = skips x.call.toOccurrence)

/-- From here on the walk does nothing but skip, and nothing of the store it began with has changed. -/
structure Walker.Mild (w : Walker σ ν) (store : Store) (skips : Occurrence → Bool) (s : State σ ν) : Prop where
  grows : store.Grows s.store
  obeys : ∀ n, ∀ x ∈ (w.run n s).exchanges, x.Obeys skips

namespace Walker

variable {w : Walker σ ν} {store : Store} {skips : Occurrence → Bool} {s t : State σ ν} {o : Occurrence}

theorem Mild.step (h : w.Mild store skips s) : w.Mild store skips (w.step s) := by
  refine ⟨grows_step h.grows fun x hx => ?_, fun n x hx => h.obeys (n + 1) x (by rwa [run_step])⟩
  exact (h.obeys 1 x (by rwa [run_one])).store

theorem Mild.reaches (h : w.Mild store skips s) (reach : w.Reaches s t) : w.Mild store skips t := by
  obtain ⟨n, rfl⟩ := reach
  exact w.run_keeps (P := w.Mild store skips) (fun _ => Mild.step) h n

theorem Mild.grows_reaches (h : w.Mild store skips s) (reach : w.Reaches s t) : s.store.Grows t.store :=
  (Mild.reaches ⟨.refl _, h.obeys⟩ reach).grows

theorem Mild.called (h : w.Mild store skips s) {f : Callback σ ν} {c : Call} (due : w.due s.focus = some (f, c)) :
    Exchange.Obeys skips ⟨c, s.store, f c s.store s.memory⟩ :=
  holds_of_due h.obeys due

theorem Mild.entered (h : w.Mild store skips s) (enter : w.enter.isSome) (hF : s.focus = .enter o) :
    ∃ t g, w.Leads s (w.callsFor .enter o) t ∧ g.Tame t.store ∧
      if skips o then t.focus = .leave o g ∧ t.stack = s.stack
      else t.focus = .next ∧
        t.stack = .fields o.node o.ancestors (o.node.ownNames t.store) :: .visit o g :: s.stack := by
  obtain ⟨f, he⟩ := Option.isSome_iff_exists.mp enter
  have obeys := h.called (by rw [hF, w.due_of_enter he])
  obtain ⟨v, hv, tame, skip⟩ := obeys.answer
  obtain ⟨lead, hstore, next⟩ := leads_entered he hF rfl hv obeys.ancestors tame.exit (skip rfl)
  refine ⟨w.step s, .ofValue v, ?_, ?_, ?_⟩
  · rw [callsFor_enter he]
    exact lead
  · rw [hstore]
    exact tame
  · rw [hstore]
    exact next

theorem Mild.left (h : w.Mild store skips s) {g : Signal} (hF : s.focus = .leave o g) (tame : g.Tame s.store) :
    ∃ t g', w.Leads s (w.callsFor .leave o) t ∧ t.focus = .back g' ∧ g'.Tame t.store ∧ t.stack = s.stack := by
  refine leads_left (P := Signal.Tame) hF tame fun f c due => ?_
  obtain ⟨v, hv, tame', -⟩ := (h.called due).answer
  exact ⟨v, hv, tame'⟩

/-- A walk that does nothing but skip, and the calls it makes. -/
def mildWatch (w : Walker σ ν) (store : Store) (skips : Occurrence → Bool) : Watch w (List Call) where
  Holds := w.Mild store skips
  view := State.calls
  keeps _ _ _ h step := step ▸ h.step
  still := go_calls

theorem calls_of_chain {F : Slot → List Call} {cs : List Slot} {before after : List Call}
    (chain : Chain (fun c a b => b = a ++ F c) cs before after) : after = before ++ cs.flatMap F := by
  induction chain with
  | nil => simp
  | cons head _ ih => rw [ih, head, List.flatMap_cons, List.append_assoc]

theorem visit_skipped (enter : w.enter.isSome) (skipped : skips o = true) :
    w.Visits (w.mildWatch store skips) o fun a b => b = a ++ (w.callsFor .enter o ++ w.callsFor .leave o) := by
  intro s mild hF
  obtain ⟨t, g, entered, tame, next⟩ := Mild.entered mild enter hF
  rw [if_pos skipped] at next
  have mild' := Mild.reaches mild entered.1
  obtain ⟨u, g', left, hback, tame', hstack⟩ := mild'.left next.1 tame
  refine ⟨u, g', Reaches.trans entered.1 left.1, mild'.reaches left.1, hback, ⟨tame'.exit, tame'.resume⟩,
    hstack.trans next.2, ?_⟩
  exact (entered.trans left).2

theorem visit_descended (complete : o.node.Complete store) (enter : w.enter.isSome) (goes : skips o = false)
    {F : Slot → List Call}
    (visits : ∀ c ∈ o.node.slots store w.reserved,
      w.Visits (w.mildWatch store skips) (c.under o) fun a b => b = a ++ F c) :
    w.Visits (w.mildWatch store skips) o fun a b =>
      b = a ++ (w.callsFor .enter o ++ (o.node.slots store w.reserved).flatMap F ++ w.callsFor .leave o) := by
  intro s mild hF
  have intact : ∀ s, (w.mildWatch store skips).Holds s → o.node.Intact store s.store := fun s mild =>
    mild.grows.intact complete
  obtain ⟨t, g, entered, tame, next⟩ := Mild.entered mild enter hF
  rw [if_neg (by simp [goes])] at next
  have mild₁ := Mild.reaches mild entered.1
  obtain ⟨t₂, reach, mild₂, hF₂, hK₂, chain⟩ := children_pass intact visits mild₁ next.1 next.2
  have walked : w.Leads t _ t₂ := ⟨reach, calls_of_chain chain⟩
  have ended : w.Leads t₂ [] (t₂.go (.leave o g) s.stack) := leads_silent hF₂ hK₂ rfl (.childrenOver o g s.stack)
  have tame₂ : g.Tame t₂.store := tame.grows (mild₁.grows_reaches reach)
  obtain ⟨u, g', left, hback, tame', hstack⟩ := (Mild.reaches mild₂ ended.1).left rfl tame₂
  have visited := (entered.trans walked).trans (ended.trans left)
  exact ⟨u, g', visited.1, mild.reaches visited.1, hback, ⟨tame'.exit, tame'.resume⟩, hstack, visited.2⟩

/-- A visit makes the calls for all paths from its node that are not hidden. -/
theorem tours_node (h : store.Acyclic) (enter : w.enter.isSome) (v : Value) (complete : v.Complete store) :
    ∀ o : Occurrence, o.node = v → w.Visits (w.mildWatch store skips) o fun a b => b = a ++ w.toured h skips o := by
  induction v using (h.wellFounded w.reserved).induction with
  | _ v ih =>
    intro o hv
    subst hv
    rw [w.toured_eq]
    cases skipped : skips o with
    | true =>
      simp only [if_true, List.append_nil]
      exact visit_skipped enter skipped
    | false =>
      simp only [Bool.false_eq_true, if_false]
      refine visit_descended complete enter skipped fun c hc => ?_
      exact ih c.value ⟨c, hc, rfl⟩ (complete.reaches (Value.holds_of_mem_slots hc)) (c.under o) rfl

/-! ## Whole walks -/

def trace (w : Walker σ ν) (h : store.Acyclic) (tree : Value) : List (List Slot × Phase) :=
  (h.nodeTour w.reserved tree).filter fun e => w.hears e.2

def shown (w : Walker σ ν) (h : store.Acyclic) (skips : Occurrence → Bool) (tree : Value) : List Call :=
  ((w.trace h tree).filter fun e => !tree.hidden skips store e.1).map (Occurrence.callAt ⟨tree, none, none, []⟩)

theorem shown_of_isNode (h : store.Acyclic) {tree : Value} (ht : tree.isNode store) :
    w.shown h skips tree = w.toured h skips ⟨tree, none, none, []⟩ := by
  rw [shown, trace, h.nodeTour_of_isNode w.reserved ht, List.filter_filter, toured]
  simp only [Value.hidden_of_isNode skips ht, Bool.and_comm]

theorem shown_of_other (h : store.Acyclic) {tree : Value} (ht : tree.isNode store = false) :
    w.shown h skips tree =
      (tree.slots store w.reserved).flatMap fun c => w.toured h skips (c.under ⟨tree, none, none, []⟩) := by
  have through : ∀ c : Slot, (((h.tour w.reserved c.value).map fun e => (c :: e.1, e.2)).filter fun e =>
      !tree.hidden skips store e.1 && w.hears e.2).map (Occurrence.callAt ⟨tree, none, none, []⟩) =
        w.toured h skips (c.under ⟨tree, none, none, []⟩) := by
    intro c
    simp [List.filter_map, Function.comp_def, Value.hidden_of_other skips ht, toured, Occurrence.callAt,
      Occurrence.along, Slot.under, Bool.and_comm]
  rw [shown, trace, h.nodeTour_of_other w.reserved ht, List.filter_filter, List.filter_flatMap, List.map_flatMap]
  simp only [through]

theorem ends_of_obeying (w : Walker σ ν) (h : store.Acyclic) {tree : Value} (complete : tree.Complete store)
    {memory : σ} (enter : w.enter.isSome)
    (obeys : ∀ fuel, ∀ x ∈ (w.walk fuel tree store memory).exchanges, x.Obeys skips) :
    ∃ r, w.Ends tree store memory r ∧ (∃ g, r.outcome = some (.returned g)) ∧ store.Grows r.store ∧
      r.calls = w.shown h skips tree := by
  have hc : w.HasCallback := .inl enter
  have mild : w.Mild store skips (w.start tree store memory) := by
    refine ⟨?_, fun n x hx => obeys n x (by rwa [walk, toRun_exchanges])⟩
    rw [start_store]
    exact .refl store
  have intact : ∀ s, (w.mildWatch store skips).Holds s → tree.Intact store s.store := fun s mild =>
    mild.grows.intact complete
  have finish : ∀ t g, w.Leads (w.start tree store memory) (w.shown h skips tree) t → t.focus = .done (.returned g) →
      ∃ r, w.Ends tree store memory r ∧ (∃ g, r.outcome = some (.returned g)) ∧ store.Grows r.store ∧
        r.calls = w.shown h skips tree := by
    intro t g lead done
    obtain ⟨r, ends, returned, hstore, hcalls⟩ := lead.ends done
    refine ⟨r, ends, ⟨g, returned⟩, ?_, hcalls⟩
    rw [hstore]
    exact (mild.reaches lead.1).grows
  cases hn : tree.isNode store with
  | true =>
    obtain ⟨t, g, reach, -, done, hcalls⟩ := ends_with_root hc mild hn (tours_node h enter tree complete _ rfl)
    refine finish t g ⟨reach, ?_⟩ done
    rw [shown_of_isNode h hn]
    exact hcalls
  | false =>
    have visits : ∀ c ∈ tree.slots store w.reserved,
        w.Visits (w.mildWatch store skips) (c.under ⟨tree, none, none, []⟩)
          fun a b => b = a ++ w.toured h skips (c.under ⟨tree, none, none, []⟩) := fun c hc =>
      tours_node h enter c.value (complete.reaches (Value.holds_of_mem_slots hc)) _ rfl
    obtain ⟨t, reach, -, done, chain⟩ := ends_with_children hc mild hn intact visits
    refine finish t .silent ⟨reach, ?_⟩ done
    rw [shown_of_other h hn]
    exact calls_of_chain chain

end Walker

/-! ## Two walks -/

/-- A walk that skips some occurrences, and one through the same tree that skips none. Both come to an end. The calls of
    the first are those of the second in their order, without those for paths that continue one to an occurrence which
    is skipped. So a node that is skipped itself is entered and left. -/
theorem skipping_hides_what_is_below {σ' ν' : Type} (w : Walker σ ν) (w' : Walker σ' ν') {store : Store}
    (acyclic : store.Acyclic) {tree : Value} (complete : tree.Complete store) (memory : σ) (memory' : σ')
    (skips : Occurrence → Bool) (enter : w.enter.isSome) (enter' : w'.enter.isSome)
    (leave : w.leave.isSome = w'.leave.isSome) (reserved : w.reserved = w'.reserved)
    (obeys : ∀ fuel, ∀ x ∈ (w.walk fuel tree store memory).exchanges, x.Obeys skips)
    (obeys' : ∀ fuel, ∀ x ∈ (w'.walk fuel tree store memory').exchanges, x.Obeys fun _ => false) :
    let root : Occurrence := ⟨tree, none, none, []⟩
    ∃ r r', w.Ends tree store memory r ∧ (∃ g, r.outcome = some (.returned g)) ∧
      w'.Ends tree store memory' r' ∧ (∃ g, r'.outcome = some (.returned g)) ∧
      r'.calls = (w.trace acyclic tree).map (fun e => ⟨root.along e.1, e.2⟩) ∧
      r.calls = ((w.trace acyclic tree).filter fun e => !tree.hidden skips store e.1).map
        (fun e => ⟨root.along e.1, e.2⟩) ∧
      (w.trace acyclic tree).Nodup ∧
      (∀ p phase, (p, phase) ∈ w.trace acyclic tree ↔
        (tree.Path store w.reserved p ∧ (p ≠ [] ∨ tree.isNode store)) ∧ w.hears phase) ∧
      (∀ p, tree.hidden skips store p = true ↔
        ∃ q, q <+: p ∧ q ≠ p ∧ (q ≠ [] ∨ tree.isNode store) ∧ skips (root.along q) = true) ∧
      (w.leave.isSome → ∀ p, (p, .enter) ∈ w.trace acyclic tree → tree.hidden skips store p = false →
        ⟨root.along p, .leave⟩ ∈ r.calls) := by
  intro root
  obtain ⟨r, ends, returned, -, hcalls⟩ := w.ends_of_obeying acyclic complete enter obeys
  obtain ⟨r', ends', returned', -, hcalls'⟩ := w'.ends_of_obeying acyclic complete enter' obeys'
  have hears : w'.hears = w.hears := by
    funext phase
    cases phase with
    | enter => exact enter'.trans enter.symm
    | leave => exact leave.symm
  have nothing : ∀ p, tree.hidden (fun _ => false) store p = false := by simp [Value.hidden]
  have trace : w'.shown acyclic (fun _ => false) tree = (w.trace acyclic tree).map root.callAt := by
    simp only [Walker.shown, Walker.trace, nothing, hears, reserved, Bool.not_false, List.filter_true, root]
  have mem : ∀ p phase, (p, phase) ∈ w.trace acyclic tree ↔
      (tree.Path store w.reserved p ∧ (p ≠ [] ∨ tree.isNode store)) ∧ w.hears phase := by
    intro p phase
    rw [Walker.trace, List.mem_filter, acyclic.mem_nodeTour]
  refine ⟨r, r', ends, returned, ends', returned', hcalls'.trans trace, hcalls, ?_, mem, ?_, ?_⟩
  · exact ((acyclic.nodup_tour w.reserved tree).filter _).filter _
  · exact fun p => Value.hidden_iff skips
  · intro hleave p hp shown
    rw [hcalls]
    refine List.mem_map.mpr ⟨(p, .leave), List.mem_filter.mpr ⟨?_, by simp [shown]⟩, rfl⟩
    exact (mem p .leave).mpr ⟨((mem p .enter).mp hp).1, hleave⟩

/-- Answers that these occurrences are to be skipped: those that stand in a list with a tuple, the others with the
    action alone. -/
def pick (skips : Occurrence → Bool) : Callback Nat Unit := fun c s n =>
  c.answer s n (.ok (
    if skips c.toOccurrence then if c.index.isSome then .tuple [.action .skip] else .action .skip else .null))

/-- Answers so in both phases; it is too late for that when a node is left. -/
def picking (skips : Occurrence → Bool) : Walker Nat Unit where
  enter := some (pick skips)
  leave := some (pick skips)
  reserved := ["parent"]
  logging := false
  colored := false
  debug := false

theorem pick_obeys (skips : Occurrence → Bool) (c : Call) (s : Store) (n : Nat) :
    Exchange.Obeys skips ⟨c, s, pick skips c s n⟩ := by
  refine ⟨.refl s, rfl, _, rfl, ?_⟩
  cases skips c.toOccurrence with
  | false => exact ⟨⟨nofun, rfl, rfl⟩, fun _ => rfl⟩
  | true =>
    cases c.index.isSome with
    | false => exact ⟨⟨nofun, rfl, rfl⟩, fun _ => rfl⟩
    | true => exact ⟨⟨nofun, rfl, rfl⟩, fun _ => rfl⟩

theorem picking_obeys (skips : Occurrence → Bool) (tree : Value) (store : Store) (memory : Nat) (fuel : Nat) :
    ∀ x ∈ ((picking skips).walk fuel tree store memory).exchanges, x.Obeys skips := by
  rw [Walker.walk, toRun_exchanges]
  refine (picking skips).run_forall_exchanges (fun f c s n hf => ?_) (by simp [Walker.start_exchanges]) fuel
  rcases hf with hf | hf
  · cases hf
    exact pick_obeys skips c s n
  · cases hf
    exact pick_obeys skips c s n

/-- A node with two paths is skipped on one of them. -/
theorem picked_diamond :
    let skips : Occurrence → Bool := fun o => o.key = some "pair" || o.key = some "callee"
    ∃ h : diamond.Acyclic, ∃ r r', (picking skips).Ends (.container .mapping 3) diamond 0 r ∧
      (picking fun _ => false).Ends (.container .mapping 3) diamond 0 r' ∧
      r'.calls = ((picking skips).trace h (.container .mapping 3)).map
        (fun e => ⟨Occurrence.along ⟨.container .mapping 3, none, none, []⟩ e.1, e.2⟩) ∧
      r.calls = (((picking skips).trace h (.container .mapping 3)).filter fun e =>
        !(Value.container .mapping 3).hidden skips diamond e.1).map
        (fun e => ⟨Occurrence.along ⟨.container .mapping 3, none, none, []⟩ e.1, e.2⟩) ∧
      ((picking skips).walk 200 (.container .mapping 3) diamond 0).calls.length = 10 ∧
      ((picking fun _ => false).walk 200 (.container .mapping 3) diamond 0).calls.length = 16 := by
  intro skips
  have layered : diamond.Layered := by decide
  obtain ⟨r, r', ends, -, ends', -, hcalls', hcalls, -⟩ := skipping_hides_what_is_below (picking skips)
    (picking fun _ => false) layered.acyclic (layered.complete (v := .container .mapping 3) (by decide)) 0 0 skips
    rfl rfl rfl rfl (picking_obeys skips _ _ _) (picking_obeys _ _ _ _)
  exact ⟨layered.acyclic, r, r', ends, ends', hcalls', hcalls, by decide +kernel, by decide +kernel⟩

end TreeWalk
