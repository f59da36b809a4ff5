/-
  TreeWalk.Proofs.Orders — a walk that is left alone calls for every path, in pre-order and in post-order.

  A callback leaves a walk alone if it changes nothing and asks for nothing (`Exchange.Quiet`): it returns neither an
  action to exit or skip nor a position. It may have a memory, and it may put new values into the store, such as a list
  to return; what was there before stays (`Store.Grows`). In a store without cycles such a walk comes to an end. It
  enters the paths from the root in the order of `preorder` and leaves them in that of `postorder`, one call each.
  - `Makes`: the calls of each phase are these, as far as the walk has a callback for the phase.
  - `calm_visit`: a visit makes the calls for its node around what the visits of its children add.
  - `walks_node`: so it makes the calls for all paths from its node, by induction along the children.
  - `quiet_walk_orders`: the whole walk.
-/

import TreeWalk.Proofs.Descent

namespace TreeWalk

variable {σ ν : Type}

/-! ## Stores that only grow -/

/-- What was in a store is still there; there may be more. -/
structure Store.Grows (s t : Store) : Prop where
  size : s.size ≤ t.size
  cell : ∀ r < s.size, t.cell r = s.cell r

namespace Store.Grows

variable {s t u : Store} {v : Value}

theorem refl (s : Store) : s.Grows s := ⟨Nat.le_refl _, fun _ _ => rfl⟩

theorem trans (h : s.Grows t) (h' : t.Grows u) : s.Grows u :=
  ⟨h.size.trans h'.size, fun r hr => (h'.cell r (Nat.lt_of_lt_of_le hr h.size)).trans (h.cell r hr)⟩

theorem reads (h : s.Grows t) (hv : v.Placed s) : v.Reads s t := by
  apply Value.reads_of_cell
  intro k r e
  subst e
  exact h.cell r hv

theorem intact (h : s.Grows t) (hv : v.Complete s) : v.Intact s t := fun _ r hr => h.cell r (hv _ hr)

end Store.Grows

/-! ## Callbacks that leave the walk alone -/

/-- A signal that asks for nothing. -/
structure Signal.Mute (s : Store) (g : Signal) : Prop where
  placed : ∀ k r, g = .live k r → r < s.size
  exit : g.isExit s = false
  skip : g.isSkip s = false
  resume : g.resume s = none

theorem Signal.mute_silent (s : Store) : Signal.silent.Mute s := ⟨nofun, rfl, rfl, rfl⟩

theorem Signal.items_of_grows {s t : Store} {g : Signal} (placed : ∀ k r, g = .live k r → r < s.size) (h : s.Grows t) :
    g.items t = g.items s := by
  cases g with
  | live k r => exact congrArg Cell.items (h.cell r (placed k r rfl))
  | fixed vs => rfl

theorem Signal.Mute.grows {s t : Store} {g : Signal} (hg : g.Mute s) (h : s.Grows t) : g.Mute t := by
  have hitems := items_of_grows hg.placed h
  refine ⟨fun k r e => Nat.lt_of_lt_of_le (hg.placed k r e) h.size, ?_, ?_, ?_⟩
  · rw [isExit_of_items hitems, hg.exit]
  · rw [isSkip_of_items hitems, hg.skip]
  · rw [resume_of_items hitems, hg.resume]

/-- The callback changed nothing and asked for nothing. -/
structure Exchange.Quiet (x : Exchange σ ν) : Prop where
  store : x.before.Grows x.reply.store
  ancestors : x.reply.ancestors = x.call.ancestors
  answer : ∃ v, x.reply.outcome = .ok v ∧ (Signal.ofValue v).Mute x.reply.store

/-- The walk is left alone from here on, and nothing of the store it began with has changed. -/
structure Walker.Calm (w : Walker σ ν) (store : Store) (s : State σ ν) : Prop where
  grows : store.Grows s.store
  quiet : ∀ n, ∀ x ∈ (w.run n s).exchanges, x.Quiet

namespace Walker

variable {w : Walker σ ν} {store : Store} {s t : State σ ν}

theorem grows_step (grows : store.Grows s.store)
    (kept : ∀ x ∈ (w.step s).exchanges, x.before.Grows x.reply.store) : store.Grows (w.step s).store := by
  rcases (w.step_moves s).store with e | ⟨x, hx, e⟩
  · rw [e]
    exact grows
  · have hx' := kept x (w.mem_step_exchanges hx)
    rw [e]
    exact grows.trans (w.exchange?_before hx ▸ hx')

theorem Calm.step (h : w.Calm store s) : w.Calm store (w.step s) := by
  refine ⟨grows_step h.grows fun x hx => ?_, fun n x hx => h.quiet (n + 1) x (by rwa [run_step])⟩
  exact (h.quiet 1 x (by rwa [run_one])).store

/-- These calls lead from one state to another. -/
def Leads (w : Walker σ ν) (s : State σ ν) (cs : List Call) (t : State σ ν) : Prop :=
  (∃ n, w.run n s = t) ∧ t.calls = s.calls ++ cs

theorem Leads.trans {u : State σ ν} {cs ds : List Call} (h : w.Leads s cs t) (h' : w.Leads t ds u) :
    w.Leads s (cs ++ ds) u := by
  obtain ⟨⟨m, rfl⟩, hcs⟩ := h
  obtain ⟨⟨n, rfl⟩, hds⟩ := h'
  exact ⟨⟨m + n, w.run_add m n s⟩, by rw [hds, hcs, List.append_assoc]⟩

theorem Calm.reaches (h : w.Calm store s) (reach : w.Reaches s t) : w.Calm store t := by
  obtain ⟨n, rfl⟩ := reach
  exact w.run_keeps (P := w.Calm store) (fun _ => Calm.step) h n

theorem Calm.leads {cs : List Call} (h : w.Calm store s) (hst : w.Leads s cs t) : w.Calm store t := h.reaches hst.1

theorem Calm.grows_reaches (h : w.Calm store s) (reach : w.Reaches s t) : s.store.Grows t.store :=
  (Calm.reaches ⟨.refl _, h.quiet⟩ reach).grows

theorem leads_silent {F F' : Focus} {K K' : List Frame} (hF : s.focus = F) (hK : s.stack = K) (due : w.due F = none)
    (move : Silent w.reserved s.store F K F' K') : w.Leads s [] (s.go F' K') := by
  refine ⟨⟨1, ?_⟩, by rw [go_calls, List.append_nil]⟩
  rw [run_one, step_of_silent hF hK due move]

def hears (w : Walker σ ν) : Phase → Bool
  | .enter => w.enter.isSome
  | .leave => w.leave.isSome

/-- The calls of each phase are these, as far as the walk has a callback for it. -/
def Makes (w : Walker σ ν) (due : Phase → List Occurrence) (cs : List Call) : Prop :=
  ∀ phase, cs.filter (·.phase = phase) = if w.hears phase then (due phase).map (Call.mk · phase) else []

theorem makes_nil (w : Walker σ ν) : w.Makes (fun _ => []) [] := fun phase => by simp

theorem Makes.append {due due' : Phase → List Occurrence} {cs ds : List Call} (h : w.Makes due cs)
    (h' : w.Makes due' ds) : w.Makes (fun phase => due phase ++ due' phase) (cs ++ ds) := by
  intro phase
  rw [List.filter_append, h phase, h' phase]
  split
  · rw [List.map_append]
  · rfl

def callsFor (w : Walker σ ν) (phase : Phase) (o : Occurrence) : List Call := if w.hears phase then [⟨o, phase⟩] else []

theorem makes_callsFor (w : Walker σ ν) (phase : Phase) (o : Occurrence) :
    w.Makes (fun p => if p = phase then [o] else []) (w.callsFor phase o) := by
  intro p
  unfold callsFor
  by_cases hp : p = phase
  · subst hp
    split <;> simp
  · have hp' : ¬ phase = p := fun e => hp e.symm
    split <;> simp [hp, hp']

theorem holds_of_due {P : Exchange σ ν → Prop} (h : ∀ n, ∀ x ∈ (w.run n s).exchanges, P x) {f : Callback σ ν} {c : Call}
    (due : w.due s.focus = some (f, c)) : P ⟨c, s.store, f c s.store s.memory⟩ := by
  refine h 1 _ ?_
  rw [run_one]
  exact w.mem_step_exchanges (w.exchange?_of_due due rfl)

theorem Calm.called (h : w.Calm store s) {f : Callback σ ν} {c : Call} (due : w.due s.focus = some (f, c)) :
    Exchange.Quiet ⟨c, s.store, f c s.store s.memory⟩ :=
  holds_of_due h.quiet due

/-- A node whose callback lets the walk go on is about to be left if it is to be skipped, and has its fields walked if
    not. -/
theorem leads_entered {o : Occurrence} {f : Callback σ ν} {r : Reply σ ν} {v : Value} {skip : Bool}
    (enter : w.enter = some f) (hf : s.focus = .enter o) (reply : f { o with phase := .enter } s.store s.memory = r)
    (answer : r.outcome = .ok v) (ancestors : r.ancestors = o.ancestors)
    (exit : (Signal.ofValue v).isExit r.store = false) (hskip : (Signal.ofValue v).isSkip r.store = skip) :
    w.Leads s [⟨o, .enter⟩] (w.step s) ∧ (w.step s).store = r.store ∧
      if skip then (w.step s).focus = .leave o (.ofValue v) ∧ (w.step s).stack = s.stack
      else (w.step s).focus = .next ∧ (w.step s).stack =
        .fields o.node o.ancestors (o.node.ownNames r.store) :: .visit o (.ofValue v) :: s.stack := by
  have due : w.due s.focus = some (f, { o with phase := .enter }) := by rw [hf, w.due_of_enter enter]
  have hstep := step_called due
  simp only [hf, reply, heed, answer, ancestors, exit, hskip, Bool.false_eq_true, if_false] at hstep
  rw [hstep]
  refine ⟨⟨⟨1, by rw [run_one, hstep]⟩, by rw [go_calls, after_calls]⟩, rfl, ?_⟩
  cases skip with
  | true => exact ⟨rfl, rfl⟩
  | false => exact ⟨rfl, rfl⟩

theorem callsFor_enter {f : Callback σ ν} (enter : w.enter = some f) (o : Occurrence) :
    w.callsFor .enter o = [⟨o, .enter⟩] := by simp [callsFor, hears, enter]

theorem Calm.enter (h : w.Calm store s) {o : Occurrence} (hf : s.focus = .enter o) (placed : o.node.Placed store) :
    ∃ t g, w.Leads s (w.callsFor .enter o) t ∧ t.focus = .next ∧ g.Mute t.store ∧
      t.stack = .fields o.node o.ancestors ((o.node.entries store).map Prod.fst) :: .visit o g :: s.stack := by
  cases he : w.enter with
  | none =>
    have hcalls : w.callsFor .enter o = [] := by simp [callsFor, hears, he]
    refine ⟨s.go .next (.fields o.node o.ancestors (o.node.ownNames s.store) :: .visit o .silent :: s.stack), .silent,
      ?_, rfl, Signal.mute_silent _, ?_⟩
    · rw [hcalls]
      exact leads_silent hf rfl (by simp [due, he]) (.enter o s.stack)
    · rw [go_stack, (h.grows.reads placed).names]
  | some f =>
    have hq := h.called (by rw [hf, w.due_of_enter he])
    obtain ⟨v, hv, hmute⟩ := hq.answer
    obtain ⟨lead, hstore, hfocus, hstack⟩ := leads_entered he hf rfl hv hq.ancestors hmute.exit hmute.skip
    refine ⟨w.step s, .ofValue v, ?_, hfocus, ?_, ?_⟩
    · rw [callsFor_enter he]
      exact lead
    · rw [hstore]
      exact hmute
    · rw [hstack, ((h.grows.trans hq.store).reads placed).names]

theorem leads_left {P : Store → Signal → Prop} {o : Occurrence} {g : Signal} (hf : s.focus = .leave o g)
    (hg : P s.store g)
    (answers : ∀ f c, w.due s.focus = some (f, c) →
      ∃ v, (f c s.store s.memory).outcome = .ok v ∧ P (f c s.store s.memory).store (.ofValue v)) :
    ∃ t g', w.Leads s (w.callsFor .leave o) t ∧ t.focus = .back g' ∧ P t.store g' ∧ t.stack = s.stack := by
  cases hl : w.leave with
  | none =>
    have hcalls : w.callsFor .leave o = [] := by simp [callsFor, hears, hl]
    refine ⟨s.go (.back g) s.stack, g, ?_, rfl, hg, rfl⟩
    rw [hcalls]
    exact leads_silent hf rfl (by simp [due, hl]) (.leave o g s.stack)
  | some f =>
    have due : w.due s.focus = some (f, { o with phase := .leave }) := by rw [hf, w.due_of_leave hl]
    obtain ⟨v, hv, hP⟩ := answers f _ due
    have hstep := step_called due
    have hcalls : w.callsFor .leave o = [⟨o, .leave⟩] := by simp [callsFor, hears, hl]
    simp only [hf, heed, hv] at hstep
    refine ⟨w.step s, .ofValue v, ⟨⟨1, w.run_one s⟩, ?_⟩, ?_, ?_, ?_⟩
    · rw [hstep, go_calls, after_calls, hcalls]
    · rw [hstep, go_focus]
    · rw [hstep, go_store, after_store]
      exact hP
    · rw [hstep, go_stack]

theorem Calm.leave (h : w.Calm store s) {o : Occurrence} {g : Signal} (hf : s.focus = .leave o g)
    (hg : g.Mute s.store) :
    ∃ t g', w.Leads s (w.callsFor .leave o) t ∧ t.focus = .back g' ∧ g'.Mute t.store ∧ t.stack = s.stack :=
  leads_left (P := Signal.Mute) hf hg fun _ _ due => (h.called due).answer

end Walker

/-! ## Occurrences along paths -/

/-- The occurrence at the end of a path. -/
def Occurrence.along (o : Occurrence) : List Slot → Occurrence
  | [] => o
  | c :: p => (c.under o).along p

namespace Store.Acyclic

variable {store : Store} (h : store.Acyclic) (reserved : List String)

def order : Phase → Value → List (List Slot)
  | .enter => h.preorder reserved
  | .leave => h.postorder reserved

def visited (o : Occurrence) (phase : Phase) : List Occurrence := (h.order reserved phase o.node).map o.along

def below (o : Occurrence) (cs : List Slot) (phase : Phase) : List Occurrence :=
  cs.flatMap fun c => h.visited reserved (c.under o) phase

theorem visited_eq (o : Occurrence) (phase : Phase) : h.visited reserved o phase =
    (if phase = .enter then [o] else []) ++ h.below reserved o (o.node.slots store reserved) phase ++
      (if phase = .leave then [o] else []) := by
  cases phase with
  | enter =>
    simp only [visited, below, order, reduceCtorEq, if_true, if_false, List.append_nil]
    rw [preorder_eq, List.map_cons, List.map_flatMap]
    simp only [List.map_map]
    rfl
  | leave =>
    simp only [visited, below, order, reduceCtorEq, if_true, if_false, List.nil_append]
    rw [postorder_eq, List.map_append, List.map_flatMap]
    simp only [List.map_map]
    rfl

/-- The paths that lead to nodes: the empty one only if the value itself is a node. -/
def nodePaths (phase : Phase) (v : Value) : List (List Slot) :=
  (h.order reserved phase v).filter fun p => p ≠ [] || v.isNode store

def reached (tree : Value) (phase : Phase) : List Occurrence :=
  (h.nodePaths reserved phase tree).map (Occurrence.along ⟨tree, none, none, []⟩)

theorem reached_of_isNode {tree : Value} (ht : tree.isNode store) (phase : Phase) :
    h.reached reserved tree phase = h.visited reserved ⟨tree, none, none, []⟩ phase := by
  simp [reached, nodePaths, visited, ht]

theorem filter_through (next : Value → List (List Slot)) (cs : List Slot) (b : Bool) :
    (cs.flatMap fun c => (next c.value).map (c :: ·)).filter (fun p => p ≠ [] || b) =
      cs.flatMap fun c => (next c.value).map (c :: ·) := by
  rw [List.filter_eq_self]
  intro p hp
  obtain ⟨c, -, hp⟩ := List.mem_flatMap.mp hp
  obtain ⟨q, -, rfl⟩ := List.mem_map.mp hp
  rfl

theorem reached_of_other {tree : Value} (ht : tree.isNode store = false) (phase : Phase) :
    h.reached reserved tree phase = h.below reserved ⟨tree, none, none, []⟩ (tree.slots store reserved) phase := by
  cases phase with
  | enter =>
    rw [reached, nodePaths, order, preorder_eq, List.filter_cons, if_neg (by simp [ht]), filter_through]
    simp only [below, visited, order, List.map_flatMap, List.map_map]
    rfl
  | leave =>
    have hempty : [[]].filter (fun p : List Slot => p ≠ [] || tree.isNode store) = [] := by simp [ht]
    rw [reached, nodePaths, order, postorder_eq, List.filter_append, filter_through, hempty, List.append_nil]
    simp only [below, visited, order, List.map_flatMap, List.map_map]
    rfl

theorem mem_nodePaths {v : Value} {p : List Slot} :
    p ∈ h.nodePaths reserved .enter v ↔ v.Path store reserved p ∧ (p ≠ [] ∨ v.isNode store) := by
  rw [nodePaths, List.mem_filter, order, mem_preorder]
  simp

theorem nodup_nodePaths (v : Value) : (h.nodePaths reserved .enter v).Nodup := (h.nodup_preorder reserved v).filter _

theorem nodePaths_perm (v : Value) : (h.nodePaths reserved .leave v).Perm (h.nodePaths reserved .enter v) :=
  (h.postorder_perm reserved v).filter _

end Store.Acyclic

/-! ## What a visit does -/

namespace Walker

variable {w : Walker σ ν} {store : Store} {h : store.Acyclic} {s : State σ ν} {K : List Frame}

/-- A visit makes the calls for all paths from its node. -/
def Walks (w : Walker σ ν) (h : store.Acyclic) (v : Value) : Prop :=
  ∀ (s : State σ ν) (o : Occurrence), w.Calm store s → o.node = v → s.focus = .enter o →
    ∃ t g cs, w.Leads s cs t ∧ t.focus = .back g ∧ g.Mute t.store ∧ t.stack = s.stack ∧
      w.Makes (h.visited w.reserved o) cs

/-- A walk that is left alone, and the calls it makes. -/
def calmWatch (w : Walker σ ν) (store : Store) : Watch w (List Call) where
  Holds := w.Calm store
  view := State.calls
  keeps _ _ _ h step := step ▸ h.step
  still := go_calls

/-- The calls for all paths that begin with an occurrence are added. -/
def CallsFrom (w : Walker σ ν) (h : store.Acyclic) (o : Occurrence) (before after : List Call) : Prop :=
  ∃ cs, after = before ++ cs ∧ w.Makes (h.visited w.reserved o) cs

theorem Walks.visits {o : Occurrence} (walks : w.Walks h o.node) :
    w.Visits (w.calmWatch store) o (w.CallsFrom h o) := by
  intro s calm hF
  obtain ⟨t, g, cs, visit, hback, mute, hstack, makes⟩ := walks s o calm rfl hF
  exact ⟨t, g, visit.1, calm.leads visit, hback, ⟨mute.exit, mute.resume⟩, hstack, cs, visit.2, makes⟩

theorem makes_of_chain {o : Occurrence} {cs : List Slot} {before after : List Call}
    (chain : Chain (fun c => w.CallsFrom h (c.under o)) cs before after) :
    ∃ ds, after = before ++ ds ∧ w.Makes (h.below w.reserved o cs) ds := by
  induction chain with
  | nil before => exact ⟨[], (List.append_nil before).symm, w.makes_nil⟩
  | cons head _ ih =>
    obtain ⟨ds, rfl, makes⟩ := head
    obtain ⟨es, rfl, makes'⟩ := ih
    exact ⟨ds ++ es, List.append_assoc _ _ _, makes.append makes'⟩

theorem calm_visit {P : Slot → List Call → List Call → Prop} {o : Occurrence} (complete : o.node.Complete store)
    (visits : ∀ c ∈ o.node.slots store w.reserved, w.Visits (w.calmWatch store) (c.under o) (P c))
    (calm : w.Calm store s) (hF : s.focus = .enter o) :
    ∃ t g mid, w.Reaches s t ∧ w.Calm store t ∧ t.focus = .back g ∧ g.Mute t.store ∧ t.stack = s.stack ∧
      Chain P (o.node.slots store w.reserved) (s.calls ++ w.callsFor .enter o) mid ∧
      t.calls = mid ++ w.callsFor .leave o := by
  have intact : ∀ s, (w.calmWatch store).Holds s → o.node.Intact store s.store := fun s calm =>
    calm.grows.intact complete
  obtain ⟨t₁, g, enter, hF₁, mute, hK₁⟩ := calm.enter hF complete.placed
  have calm₁ := calm.leads enter
  rw [← (intact t₁ calm₁).reads.names] at hK₁
  obtain ⟨t₂, reach, calm₂, hF₂, hK₂, chain⟩ := children_pass intact visits calm₁ hF₁ hK₁
  have mute₂ : g.Mute t₂.store := mute.grows (calm₁.grows_reaches reach)
  have ended : w.Leads t₂ [] (t₂.go (.leave o g) s.stack) := leads_silent hF₂ hK₂ rfl (.childrenOver o g s.stack)
  obtain ⟨t₃, g', leave, hF₃, mute₃, hK₃⟩ := (Calm.leads calm₂ ended).leave rfl mute₂
  have left := ended.trans leave
  refine ⟨t₃, g', t₂.calls, ?_, Calm.leads calm₂ left, hF₃, mute₃, hK₃, ?_, left.2⟩
  · exact Reaches.trans enter.1 (Reaches.trans reach left.1)
  · rw [← enter.2]
    exact chain

theorem walks_node (w : Walker σ ν) (h : store.Acyclic) (v : Value) (complete : v.Complete store) : w.Walks h v := by
  -- Without cycles, going from a node to its children comes to an end.
  induction v using (h.wellFounded w.reserved).induction with
  | _ v ih =>
    rintro s o calm rfl hf
    have visits : ∀ c ∈ o.node.slots store w.reserved,
        w.Visits (w.calmWatch store) (c.under o) (w.CallsFrom h (c.under o)) := fun c hc =>
      Walks.visits (o := c.under o) (ih c.value ⟨c, hc, rfl⟩ (complete.reaches (Value.holds_of_mem_slots hc)))
    obtain ⟨t, g, mid, reach, -, hF, mute, hK, chain, hcalls⟩ := calm_visit complete visits calm hf
    obtain ⟨cs, rfl, makes⟩ := makes_of_chain chain
    refine ⟨t, g, w.callsFor .enter o ++ cs ++ w.callsFor .leave o, ⟨reach, ?_⟩, hF, mute, hK, ?_⟩
    · simp only [hcalls, List.append_assoc]
    · have hmakes := ((w.makes_callsFor .enter o).append makes).append (w.makes_callsFor .leave o)
      intro phase
      rw [h.visited_eq]
      exact hmakes phase

/-! ## The whole walk -/

section

variable {tree : Value} {memory : σ} (complete : tree.Complete store)
  (calm : w.Calm store (w.start tree store memory))

include complete calm

theorem leads_of_node (h : store.Acyclic) (hc : w.HasCallback) (hn : tree.isNode store) :
    ∃ t g cs, w.Leads (w.start tree store memory) cs t ∧ t.focus = .done (.returned g) ∧
      w.Makes (h.reached w.reserved tree) cs := by
  obtain ⟨t, g, reach, -, hdone, cs, hcs, makes⟩ := ends_with_root hc calm hn (w.walks_node h tree complete).visits
  refine ⟨t, g, cs, ⟨reach, hcs⟩, hdone, fun phase => ?_⟩
  rw [h.reached_of_isNode w.reserved hn]
  exact makes phase

theorem leads_of_other (h : store.Acyclic) (hc : w.HasCallback) (hn : tree.isNode store = false) :
    ∃ t g cs, w.Leads (w.start tree store memory) cs t ∧ t.focus = .done (.returned g) ∧
      w.Makes (h.reached w.reserved tree) cs := by
  have intact : ∀ s, (w.calmWatch store).Holds s → tree.Intact store s.store := fun s calm =>
    calm.grows.intact complete
  have visits : ∀ c ∈ tree.slots store w.reserved, w.Visits (w.calmWatch store) (c.under ⟨tree, none, none, []⟩)
      (w.CallsFrom h (c.under ⟨tree, none, none, []⟩)) := fun c hc =>
    (w.walks_node h c.value (complete.reaches (Value.holds_of_mem_slots hc))).visits
  obtain ⟨t, reach, -, hdone, chain⟩ := ends_with_children hc calm hn intact visits
  obtain ⟨cs, hcs, makes⟩ := makes_of_chain chain
  refine ⟨t, .silent, cs, ⟨reach, hcs⟩, hdone, fun phase => ?_⟩
  rw [h.reached_of_other w.reserved hn]
  exact makes phase

end

theorem leads_of_nothing (h : store.Acyclic) (hc : ¬ w.HasCallback) (tree : Value) (memory : σ) :
    ∃ t g cs, w.Leads (w.start tree store memory) cs t ∧ t.focus = .done (.returned g) ∧
      w.Makes (h.reached w.reserved tree) cs := by
  have he : w.enter = none := Option.not_isSome_iff_eq_none.mp fun he => hc (.inl he)
  have hl : w.leave = none := Option.not_isSome_iff_eq_none.mp fun hl => hc (.inr hl)
  refine ⟨w.start tree store memory, .silent, [], ⟨⟨0, rfl⟩, (List.append_nil _).symm⟩, ?_, fun phase => ?_⟩
  · simp [start, he, hl, State.finish]
  have hears : w.hears phase = false := by cases phase <;> simp [hears, he, hl]
  rw [hears]
  rfl

theorem calm_of_quiet {tree : Value} {memory : σ}
    (quiet : ∀ fuel, ∀ x ∈ (w.walk fuel tree store memory).exchanges, x.Quiet) :
    w.Calm store (w.start tree store memory) := by
  refine ⟨?_, fun n x hx => quiet n x (by rwa [walk, toRun_exchanges])⟩
  rw [start_store]
  exact .refl store

theorem Leads.ends {tree : Value} {memory : σ} {t : State σ ν} {cs : List Call} {g : Signal}
    (lead : w.Leads (w.start tree store memory) cs t) (hdone : t.focus = .done (.returned g)) :
    ∃ r, w.Ends tree store memory r ∧ r.outcome = some (.returned g) ∧ r.store = t.store ∧ r.calls = cs := by
  obtain ⟨⟨n, rfl⟩, hcalls⟩ := lead
  refine ⟨_, w.ends_of_done hdone, outcome?_eq_some.mpr hdone, rfl, ?_⟩
  have hnone : (w.start tree store memory).calls = [] := by rw [State.calls, w.start_exchanges]; rfl
  rw [toRun_calls, hcalls, hnone, List.nil_append]

/-- A walk that is left alone comes to an end, and makes the calls for all paths to nodes. -/
theorem ends_of_quiet (w : Walker σ ν) (h : store.Acyclic) {tree : Value} (complete : tree.Complete store) {memory : σ}
    (quiet : ∀ fuel, ∀ x ∈ (w.walk fuel tree store memory).exchanges, x.Quiet) :
    ∃ r, w.Ends tree store memory r ∧ (∃ g, r.outcome = some (.returned g)) ∧ store.Grows r.store ∧
      w.Makes (h.reached w.reserved tree) r.calls := by
  have calm := calm_of_quiet quiet
  obtain ⟨t, g, cs, lead, hdone, makes⟩ : ∃ t g cs, w.Leads (w.start tree store memory) cs t ∧
      t.focus = .done (.returned g) ∧ w.Makes (h.reached w.reserved tree) cs := by
    by_cases hc : w.HasCallback
    · cases hn : tree.isNode store with
      | true => exact leads_of_node complete calm h hc hn
      | false => exact leads_of_other complete calm h hc hn
    · exact leads_of_nothing h hc tree memory
  obtain ⟨r, ends, returned, hstore, rfl⟩ := lead.ends hdone
  refine ⟨r, ends, ⟨g, returned⟩, ?_, makes⟩
  rw [hstore]
  exact (calm.leads lead).grows

theorem Makes.only {due : Phase → List Occurrence} {cs : List Call} (h : w.Makes due cs) {phase : Phase}
    (hears : w.hears phase) (deaf : ∀ p, p ≠ phase → w.hears p = false) : cs = (due phase).map (Call.mk · phase) := by
  have hall : cs.filter (·.phase = phase) = cs := by
    rw [List.filter_eq_self]
    intro c hc
    by_contra hne
    -- There is no callback for any other phase, so none of its calls is made.
    have hempty := h c.phase
    rw [deaf c.phase (by simpa using hne)] at hempty
    have hmem : c ∈ cs.filter (·.phase = c.phase) := List.mem_filter.mpr ⟨hc, by simp⟩
    rw [hempty] at hmem
    cases hmem
  rw [← hall, h phase, if_pos hears]

end Walker

/-- A walk whose callbacks change nothing and ask for nothing, in a store without cycles, comes to an end. With `enter`
    alone its calls are the nodes on all paths in pre-order; with `leave` alone they are those in post-order; with both,
    the calls of each phase are. Each path to a node is listed once, in both orders. -/
theorem quiet_walk_orders (w : Walker σ ν) {store : Store} (acyclic : store.Acyclic) {tree : Value}
    (complete : tree.Complete store) (memory : σ)
    (quiet : ∀ fuel, ∀ x ∈ (w.walk fuel tree store memory).exchanges, x.Quiet) :
    ∃ r, w.Ends tree store memory r ∧ (∃ g, r.outcome = some (.returned g)) ∧ store.Grows r.store ∧
      (w.enter.isSome → w.leave = none → r.calls = (acyclic.reached w.reserved tree .enter).map (Call.mk · .enter)) ∧
      (w.enter = none → w.leave.isSome → r.calls = (acyclic.reached w.reserved tree .leave).map (Call.mk · .leave)) ∧
      (w.enter.isSome → w.leave.isSome →
        r.calls.filter (·.phase = .enter) = (acyclic.reached w.reserved tree .enter).map (Call.mk · .enter) ∧
        r.calls.filter (·.phase = .leave) = (acyclic.reached w.reserved tree .leave).map (Call.mk · .leave)) ∧
      (acyclic.nodePaths w.reserved .enter tree).Nodup ∧
      (acyclic.nodePaths w.reserved .leave tree).Perm (acyclic.nodePaths w.reserved .enter tree) ∧
      ∀ p, p ∈ acyclic.nodePaths w.reserved .enter tree ↔
        tree.Path store w.reserved p ∧ (p ≠ [] ∨ tree.isNode store) := by
  obtain ⟨r, ends, returned, grows, makes⟩ := w.ends_of_quiet acyclic complete quiet
  refine ⟨r, ends, returned, grows, ?_, ?_, ?_, acyclic.nodup_nodePaths w.reserved tree,
    acyclic.nodePaths_perm w.reserved tree, fun p => acyclic.mem_nodePaths w.reserved⟩
  · intro he hl
    refine makes.only he fun p hp => ?_
    cases p with
    | enter => exact absurd rfl hp
    | leave => exact Option.isSome_eq_false_iff.mpr (Option.isNone_iff_eq_none.mpr hl)
  · intro he hl
    refine makes.only hl fun p hp => ?_
    cases p with
    | enter => exact Option.isSome_eq_false_iff.mpr (Option.isNone_iff_eq_none.mpr he)
    | leave => exact absurd rfl hp
  · intro he hl
    exact ⟨(makes .enter).trans (if_pos he), (makes .leave).trans (if_pos hl)⟩

/-- A root that is no node, with a node in a tuple and in a field; that node has another one three times. -/
def diamond : Store := ⟨#[
  { fields := .ofList [("type", .text "Name")] },
  { items := [.container .mapping 0, .int 1, .container .mapping 0] },
  { fields := .ofList [("type", .text "Call"), ("args", .container .list 1), ("parent", .container .mapping 0),
      ("callee", .container .mapping 0)] },
  { fields := .ofList [("pair", .tuple [.null, .container .mapping 2]), ("body", .container .mapping 2)] }]⟩

/-- Counts its calls, and returns a new list whenever it enters a node. -/
def counting : Walker Nat Unit where
  enter := some fun c s n =>
    { outcome := .ok (.container .list s.size), store := s.push { items := [.action .proceed] }, memory := n + 1,
      ancestors := c.ancestors }
  leave := some fun c s n => c.answer s (n + 1) (.ok .null)
  reserved := ["parent"]
  logging := false
  colored := false
  debug := true

theorem counting_quiet (tree : Value) (store : Store) (memory : Nat) (fuel : Nat) :
    ∀ x ∈ (counting.walk fuel tree store memory).exchanges, x.Quiet := by
  rw [Walker.walk, toRun_exchanges]
  refine counting.run_forall_exchanges (fun f c s n hf => ?_) (by simp [counting.start_exchanges]) fuel
  rcases hf with hf | hf
  · cases hf
    have hcell : (s.push { items := [.action .proceed] }).cell s.size = { items := [.action .proceed] } :=
      s.cell_push_size _
    refine ⟨⟨by simp, fun r hr => s.cell_push_lt _ hr⟩, rfl, _, rfl, ?_, ?_, ?_, ?_⟩
    · rintro k r ⟨⟩
      simp
    · simp [Signal.ofValue, Signal.isExit, Signal.action, Signal.items, Kind.isList]
    · simp [Signal.ofValue, Signal.isSkip, Signal.action, Signal.items, Kind.isList]
    · simp [Signal.ofValue, Signal.resume, Signal.items, Kind.isList]
  · cases hf
    exact ⟨.refl s, rfl, .null, rfl, (fun _ _ h => by cases h), rfl, rfl, rfl⟩

theorem diamond_orders : ∃ h : diamond.Acyclic, ∃ r, counting.Ends (.container .mapping 3) diamond 0 r ∧
    r.calls.filter (·.phase = .enter) = (h.reached ["parent"] (.container .mapping 3) .enter).map (Call.mk · .enter) ∧
    (h.nodePaths ["parent"] .enter (.container .mapping 3)).Nodup ∧
    (counting.walk 200 (.container .mapping 3) diamond 0).calls.length = 16 := by
  have layered : diamond.Layered := by decide
  obtain ⟨r, ends, -, -, -, -, both, nodup, -⟩ := quiet_walk_orders counting layered.acyclic
    (layered.complete (v := .container .mapping 3) (by decide)) 0 (counting_quiet _ _ _)
  exact ⟨layered.acyclic, r, ends, (both rfl rfl).1, nodup, by decide⟩

end TreeWalk
