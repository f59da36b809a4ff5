/-
  TreeWalk.Proofs.Subtrees — a node below the root is walked as if it were the root.

  The visitor changes nothing, never fails or exits, and asks for things by the node and the phase alone
  (`Walker.Follows`). Then a walk that has both callbacks takes routes. Where it enters a node below the root, its calls
  until it leaves the node are those of a walk from this node, grafted on the occurrence. Where the root is no node, the
  walk is that of the slots it comes to, one after the other.
  - `Walker.travels_of_route`: the visit of a node makes the calls of its route, wherever it takes place. The induction
    is on the route.
  - `Walker.routed`: wherever a walk comes to an end there is a route. The induction is on the steps that are left,
    since a position may be named that was passed before.
  - `subtrees_are_walked_as_trees`: the whole walk.
-/

import TreeWalk.Proofs.Routes
import TreeWalk.Proofs.Unfolding

namespace TreeWalk

open Relation (ReflTransGen)

variable {σ ν : Type}

/-! ## Visitors that follow a policy -/

/-- The signal asks for what the policy says in this phase. -/
def Policy.Wants (p : Policy) (store : Store) (node : Value) (g : Signal) : Phase → Prop
  | .enter => g.isSkip store = p.skips node
  | .leave => g.resume store = p.resumes node

/-- The callback changed nothing, did not fail or exit, and asked for what the policy says. -/
structure Exchange.Follows (p : Policy) (x : Exchange σ ν) : Prop where
  store : x.before.Grows x.reply.store
  ancestors : x.reply.ancestors = x.call.ancestors
  answer : ∃ v, x.reply.outcome = .ok v ∧ (Signal.ofValue v).isExit x.reply.store = false ∧
    p.Wants x.reply.store x.call.node (.ofValue v) x.call.phase

/-- So the callbacks answer every call for a node that can be reached from the tree, as long as what was in the store
    stays there. -/
def Walker.Follows (w : Walker σ ν) (p : Policy) (tree : Value) (store : Store) : Prop :=
  ∀ F f c s m, w.due F = some (f, c) → ReflTransGen (Value.Holds store) tree c.node → store.Grows s →
    Exchange.Follows p ⟨c, s, f c s m⟩

/-! ## Turns as steps -/

def Cursor.frames (o : Occurrence) : Cursor → List Frame
  | .fields ahead => [.fields o.node o.ancestors (ahead.map Prod.fst)]
  | .items key seq position ahead =>
    [.items seq key o.node o.ancestors position, .fields o.node o.ancestors (ahead.map Prod.fst)]

namespace Cursor.Takes

variable {p : Policy} {store t : Store} {reserved : List String} {q q' : Cursor} {c : Slot} {o : Occurrence}

theorem moves_done (turn : q.Takes p store reserved .done) (K : List Frame) :
    Silent reserved t .next (q.frames o ++ K) .next K := by
  cases turn with
  | done => exact .fieldsOver o.node o.ancestors K

variable (of : q.Of store o.node) (reads : ∀ u, ReflTransGen (Value.Holds store) o.node u → u.Reads store t)

include of reads

theorem moves_on (turn : q.Takes p store reserved (.on q')) (K : List Frame) :
    Silent reserved t .next (q.frames o ++ K) .next (q'.frames o ++ K) := by
  cases turn with
  | @pass key v ahead h =>
    obtain ⟨he, -⟩ := List.cons_subset.mp of
    refine .passField o.node o.ancestors key _ K ?_
    rcases h with h | ⟨hs, hn⟩
    · exact .inl h
    · refine .inr ⟨some v, (reads _ .refl).field he, ?_⟩
      intro u hu
      cases hu
      exact ⟨hs, (reads v (.single (.field he))).isNode.trans hn⟩
  | @scan key v ahead free hs =>
    obtain ⟨he, -⟩ := List.cons_subset.mp of
    exact .scan o.node o.ancestors key _ K v free ((reads _ .refl).field he) hs
  | @outside key seq position ahead h =>
    refine .scanOver seq key o.node o.ancestors position _ ?_
    rw [(reads seq (.single of.1)).items]
    exact h
  | @passItem key seq i ahead v h hn =>
    have hv : ReflTransGen (Value.Holds store) o.node v := .tail (.single of.1) (.item (List.mem_of_getElem? h))
    refine .passItem seq key o.node o.ancestors i _ v ?_ ((reads v hv).isNode.trans hn)
    rw [(reads seq (.single of.1)).items]
    exact h

theorem moves_enter (turn : q.Takes p store reserved (.enter c q')) (K : List Frame) :
    ∃ K', Silent reserved t .next (q.frames o ++ K) (.enter (c.under o)) K' ∧
      ∀ (t' : Store) (g : Signal), g.isExit t' = false → g.resume t' = p.resumes c.value →
        Silent reserved t' (.back g) K' .next (q'.frames o ++ K) := by
  cases turn with
  | @child key v ahead free hs hn =>
    obtain ⟨he, -⟩ := List.cons_subset.mp of
    refine ⟨_, .child o.node o.ancestors key _ K v free ((reads _ .refl).field he) hs ?_, ?_⟩
    · exact (reads v (.single (.field he))).isNode.trans hn
    · intro t' g exit _
      exact .toFields g o.node o.ancestors _ K exit
  | @item key seq i ahead v h hn =>
    have hv : ReflTransGen (Value.Holds store) o.node v := .tail (.single of.1) (.item (List.mem_of_getElem? h))
    have h' : (seq.items t)[i]? = some v := by
      rw [(reads seq (.single of.1)).items]
      exact h
    refine ⟨_, .item seq key o.node o.ancestors i _ v h' ((reads v hv).isNode.trans hn), ?_⟩
    intro t' g exit resume
    have back : Silent reserved t' _ _ _ _ :=
      .resume g seq key o.node o.ancestors i (.fields o.node o.ancestors (ahead.map Prod.fst) :: K) exit
    rw [resume] at back
    exact back

end Cursor.Takes

namespace Walker

variable {w : Walker σ ν} {p : Policy} {tree : Value} {store : Store} {s t : State σ ν} {o : Occurrence} {v : Value}
  {K : List Frame} {q q' : Cursor} {c : Slot} {cs : List Slot} {ds : List Call} {own : Slot → List Call} {n : Nat}

theorem reads_below (complete : tree.Complete store) (reach : ReflTransGen (Value.Holds store) tree v)
    (grows : store.Grows s.store) : ∀ u, ReflTransGen (Value.Holds store) v u → u.Reads store s.store :=
  fun u hu => grows.reads (complete u (reach.trans hu))

/-- The visit of a node makes these calls wherever it takes place, and hands back what the policy says. -/
def Travels (w : Walker σ ν) (p : Policy) (store : Store) (v : Value) (ds : List Call) : Prop :=
  ∀ (s : State σ ν) (o : Occurrence), s.focus = .enter o → o.node = v → store.Grows s.store →
    ∃ t g, w.Leads s (ds.map (Call.graft o)) t ∧ store.Grows t.store ∧ t.focus = .back g ∧ t.stack = s.stack ∧
      g.isExit t.store = false ∧ g.resume t.store = p.resumes v

section

variable (complete : tree.Complete store) (follows : w.Follows p tree store)
  (reach : ReflTransGen (Value.Holds store) tree o.node) (grows : store.Grows s.store)

include complete follows reach grows

theorem entered_by_policy (enter : w.enter.isSome) (focus : s.focus = .enter o) :
    ∃ g, w.Leads s [⟨o, .enter⟩] (w.step s) ∧ store.Grows (w.step s).store ∧
      if p.skips o.node then (w.step s).focus = .leave o g ∧ (w.step s).stack = s.stack
      else (w.step s).focus = .next ∧
        (w.step s).stack = (Cursor.fields (o.node.entries store)).frames o ++ .visit o g :: s.stack := by
  obtain ⟨f, he⟩ := Option.isSome_iff_exists.mp enter
  have answered := follows (.enter o) _ _ s.store s.memory (w.due_of_enter he o) reach grows
  obtain ⟨u, hu, exit, skip⟩ := answered.answer
  have grows' := grows.trans answered.store
  obtain ⟨lead, hstore, next⟩ := leads_entered he focus rfl hu answered.ancestors exit skip
  refine ⟨.ofValue u, lead, ?_, ?_⟩
  · rw [hstore]
    exact grows'
  · rw [(grows'.reads (complete _ reach)).names] at next
    exact next

omit complete in
theorem left_by_policy (leave : w.leave.isSome) {g : Signal} (focus : s.focus = .leave o g) :
    ∃ g', w.Leads s [⟨o, .leave⟩] (w.step s) ∧ store.Grows (w.step s).store ∧ (w.step s).focus = .back g' ∧
      (w.step s).stack = s.stack ∧ g'.isExit (w.step s).store = false ∧
        g'.resume (w.step s).store = p.resumes o.node := by
  obtain ⟨f, hl⟩ := Option.isSome_iff_exists.mp leave
  have due : w.due s.focus = some (f, { o with phase := .leave }) := by rw [focus, w.due_of_leave hl]
  have answered := follows _ _ _ s.store s.memory due reach grows
  obtain ⟨u, hu, exit, resume⟩ := answered.answer
  have hstep := step_called due
  simp only [Policy.Wants] at hu exit resume
  simp only [focus, heed, hu] at hstep
  refine ⟨.ofValue u, ⟨⟨1, w.run_one s⟩, ?_⟩, ?_⟩
  · rw [hstep, go_calls, after_calls]
  · rw [hstep]
    exact ⟨grows.trans answered.store, rfl, rfl, exit, resume⟩

end

section

variable (complete : tree.Complete store) (reach : ReflTransGen (Value.Holds store) tree o.node)
  (grows : store.Grows s.store) (of : q.Of store o.node) (focus : s.focus = .next)
  (stack : s.stack = q.frames o ++ K)

include complete reach grows of focus stack

theorem slot_leads (turn : q.Takes p store w.reserved (.enter c q')) (travels : w.Travels p store c.value ds) :
    ∃ t, w.Leads s (ds.map (Call.graft (c.under o))) t ∧ w.Reaches (w.step s) t ∧ store.Grows t.store ∧
      t.focus = .next ∧ t.stack = q'.frames o ++ K := by
  obtain ⟨K', down, up⟩ := turn.moves_enter of (reads_below complete reach grows) K
  have entered := leads_silent focus stack rfl down
  obtain ⟨t, g, lead, grows', back, stack', exit, resume⟩ :=
    travels (s.go (.enter (c.under o)) K') (c.under o) rfl rfl grows
  have returned := leads_silent back stack' rfl (up t.store g exit resume)
  have visited := lead.trans returned
  rw [List.append_nil] at visited
  refine ⟨t.go .next (q'.frames o ++ K), entered.trans visited, ?_, grows', rfl, rfl⟩
  rw [step_of_silent focus stack rfl down]
  exact visited.1

theorem children_lead (comes : Comes p store w.reserved q cs)
    (travels : ∀ c ∈ cs, w.Travels p store c.value (own c)) :
    ∃ t, w.Leads s (o.through own cs) t ∧ store.Grows t.store ∧ t.focus = .next ∧ t.stack = K := by
  induction comes generalizing s with
  | done turn =>
    exact ⟨s.go .next K, leads_silent focus stack rfl (turn.moves_done K), grows, rfl, rfl⟩
  | @on q q' cs turn _ ih =>
    have move := leads_silent focus stack rfl (turn.moves_on of (reads_below complete reach grows) K)
    obtain ⟨t, lead, rest⟩ := ih (s := s.go .next (q'.frames o ++ K)) grows (of.on turn) rfl rfl travels
    exact ⟨t, move.trans lead, rest⟩
  | enter turn _ ih =>
    obtain ⟨first, travels'⟩ := List.forall_mem_cons.mp travels
    obtain ⟨t, lead, -, grows', focus', stack'⟩ := slot_leads complete reach grows of focus stack turn first
    obtain ⟨u, lead', rest⟩ := ih grows' (of.enter turn).1 focus' stack' travels'
    exact ⟨u, lead.trans lead', rest⟩

end

/-! ## A route leads through its node -/

section

variable (enter : w.enter.isSome) (leave : w.leave.isSome) (complete : tree.Complete store)
  (follows : w.Follows p tree store)

include enter leave complete follows

/-- The visit of a node makes the calls of its route. -/
theorem travels_of_route (route : Route p store w.reserved v ds) (reach : ReflTransGen (Value.Holds store) tree v) :
    w.Travels p store v ds := by
  induction route with
  | @skipped v skip =>
    intro s o focus hv grows
    subst hv
    obtain ⟨g, entered, grows₁, next⟩ := entered_by_policy complete follows reach grows enter focus
    rw [if_pos skip] at next
    obtain ⟨g', left, grows₂, back, stack, signal⟩ := left_by_policy follows reach grows₁ leave next.1
    refine ⟨_, g', ?_, grows₂, back, stack.trans next.2, signal⟩
    rw [map_graft_around]
    exact entered.trans left
  | @entered v cs own goes comes _ ih =>
    intro s o focus hv grows
    subst hv
    have of : (Cursor.fields (o.node.entries store)).Of store o.node := List.Subset.refl _
    have travels : ∀ c ∈ cs, w.Travels p store c.value (own c) := fun c hc =>
      ih c hc (reach.trans (comes.nodes of c hc).2)
    obtain ⟨g, entered, grows₁, next⟩ := entered_by_policy complete follows reach grows enter focus
    rw [if_neg (by simp [goes])] at next
    obtain ⟨t, walked, grows₂, focus₂, stack₂⟩ :=
      children_lead complete reach grows₁ of next.1 next.2 comes travels
    have ended := leads_silent focus₂ stack₂ rfl (w := w) (.childrenOver o g s.stack)
    obtain ⟨g', left, grows₃, back, stack₃, signal⟩ :=
      left_by_policy (s := t.go (.leave o g) s.stack) follows reach grows₂ leave rfl
    refine ⟨_, g', ?_, grows₃, back, stack₃, signal⟩
    rw [map_graft_around, map_graft_through]
    have visited := (entered.trans (walked.trans ended)).trans left
    rw [List.append_nil] at visited
    exact visited

end

/-! ## A walk that ends takes a route -/

/-- Where the walk is done after fewer than so many steps, there is a route for the node it is about to enter, and there
    are routes for the slots it comes to in a record. -/
structure Routed (w : Walker σ ν) (p : Policy) (tree : Value) (store : Store) (n : Nat) : Prop where
  visit : ∀ {s : State σ ν} {o : Occurrence}, s.focus = .enter o → ReflTransGen (Value.Holds store) tree o.node →
    store.Grows s.store → w.EndsWithin n s → ∃ ds, Route p store w.reserved o.node ds
  record : ∀ {s : State σ ν} {o : Occurrence} {q : Cursor} {K : List Frame}, s.focus = .next →
    s.stack = q.frames o ++ K → q.Of store o.node → ReflTransGen (Value.Holds store) tree o.node →
      store.Grows s.store → w.EndsWithin n s →
        ∃ cs, Comes p store w.reserved q cs ∧ ∀ c ∈ cs, ∃ ds, Route p store w.reserved c.value ds

section

variable (enter : w.enter.isSome) (leave : w.leave.isSome) (complete : tree.Complete store)
  (follows : w.Follows p tree store) (reach : ReflTransGen (Value.Holds store) tree o.node)
  (grows : store.Grows s.store) (ends : w.EndsWithin (n + 1) s)

include enter complete follows reach grows ends

theorem Routed.visit_succ (h : w.Routed p tree store n) (focus : s.focus = .enter o) :
    ∃ ds, Route p store w.reserved o.node ds := by
  obtain ⟨g, -, grows', next⟩ := entered_by_policy complete follows reach grows enter focus
  cases skip : p.skips o.node with
  | true => exact ⟨_, .skipped skip⟩
  | false =>
    rw [if_neg (by simp [skip])] at next
    have fewer := ends.fewer (by rw [focus]; intro out done; cases done)
    obtain ⟨cs, comes, routes⟩ := h.record next.1 next.2 (List.Subset.refl _) reach grows' fewer
    choose! own below using routes
    exact ⟨_, .entered skip comes below⟩

include leave

theorem Routed.record_succ (h : w.Routed p tree store n) (focus : s.focus = .next) (stack : s.stack = q.frames o ++ K)
    (of : q.Of store o.node) :
    ∃ cs, Comes p store w.reserved q cs ∧ ∀ c ∈ cs, ∃ ds, Route p store w.reserved c.value ds := by
  have fewer := ends.fewer (by rw [focus]; intro out done; cases done)
  have reads := reads_below complete reach grows
  obtain ⟨turn, takes⟩ := q.exists_takes p store w.reserved
  cases turn with
  | done => exact ⟨[], .done takes, List.forall_mem_nil _⟩
  | on q' =>
    rw [step_of_silent focus stack rfl (takes.moves_on of reads K)] at fewer
    obtain ⟨cs, comes, routes⟩ :=
      h.record (s := s.go .next (q'.frames o ++ K)) rfl rfl (of.on takes) reach grows fewer
    exact ⟨cs, .on takes comes, routes⟩
  | enter c q' =>
    obtain ⟨of', -, below⟩ := of.enter takes
    have reach' := reach.trans below
    obtain ⟨K', down, -⟩ := takes.moves_enter of reads K
    have entered := step_of_silent focus stack rfl down
    obtain ⟨ds, route⟩ : ∃ ds, Route p store w.reserved c.value ds := by
      rw [entered] at fewer
      exact h.visit (s := s.go (.enter (c.under o)) K') (o := c.under o) rfl reach' grows fewer
    -- The visit of the slot makes the calls of its route, and the rest of the record is still to come.
    obtain ⟨t, -, later, grows', focus', stack'⟩ := slot_leads complete reach grows of focus stack takes
      (travels_of_route enter leave complete follows route reach')
    obtain ⟨cs, comes, routes⟩ := h.record focus' stack' of' reach grows' (fewer.reaches later)
    exact ⟨c :: cs, .enter takes comes, List.forall_mem_cons.mpr ⟨⟨ds, route⟩, routes⟩⟩

omit reach grows ends

theorem routed (n : Nat) : w.Routed p tree store n := by
  induction n with
  | zero =>
    have never : ∀ s, ¬ w.EndsWithin 0 s := by
      rintro s ⟨m, hm, -⟩
      exact Nat.not_lt_zero m hm
    exact ⟨fun _ _ _ ends => absurd ends (never _), fun _ _ _ _ _ ends => absurd ends (never _)⟩
  | succ n ih =>
    refine ⟨?_, ?_⟩
    · intro s o focus reach grows ends
      exact ih.visit_succ enter complete follows reach grows ends focus
    · intro s o q K focus stack of reach grows ends
      exact ih.record_succ enter leave complete follows reach grows ends focus stack of

end

/-! ## Whole walks -/

theorem Ends.unique {memory : σ} {r r' : Run σ ν} (h : w.Ends tree store memory r) (h' : w.Ends tree store memory r') :
    r = r' := by
  obtain ⟨-, m, hm⟩ := h
  obtain ⟨-, n, hn⟩ := h'
  rw [← hm (max m n) (le_max_left m n), hn (max m n) (le_max_right m n)]

theorem Ends.within {memory : σ} {r : Run σ ν} (h : w.Ends tree store memory r) :
    ∃ n, w.EndsWithin n (w.start tree store memory) := by
  obtain ⟨done, n, hn⟩ := h
  rw [← hn n (Nat.le_refl n)] at done
  obtain ⟨out, hout⟩ := Option.isSome_iff_exists.mp done
  exact ⟨n + 1, n, Nat.lt_succ_self n, out, outcome?_eq_some.mp hout⟩

section

variable (enter : w.enter.isSome) (leave : w.leave.isSome) (complete : tree.Complete store)
  (follows : w.Follows p tree store)

include enter leave complete follows

theorem ends_of_route (route : Route p store w.reserved v ds) (hn : v.isNode store)
    (reach : ReflTransGen (Value.Holds store) tree v) (memory : σ) :
    ∃ r, w.Ends v store memory r ∧ r.calls = ds.map (Call.graft (.root v)) := by
  have start := w.start_node (.inl enter) hn memory
  obtain ⟨t, g, lead, -, back, stack, -⟩ :=
    travels_of_route enter leave complete follows route reach (w.start v store memory) (.root v) (by rw [start]; rfl)
      rfl (by rw [start_store]; exact .refl store)
  have ended := leads_silent back (stack.trans (by rw [start])) rfl (w := w) (.rootOver g)
  obtain ⟨r, ends, -, -, calls⟩ := (lead.trans ended).ends rfl
  refine ⟨r, ends, ?_⟩
  rw [calls, List.append_nil]

/-- A walk from a node that comes to an end takes the route of the node. -/
theorem route_of_ends {memory : σ} {r : Run σ ν} (ends : w.Ends tree store memory r) (hn : tree.isNode store) :
    ∃ ds, Route p store w.reserved tree ds ∧ r.calls = ds.map (Call.graft (.root tree)) := by
  obtain ⟨n, within⟩ := ends.within
  have start := w.start_node (.inl enter) hn memory
  obtain ⟨ds, route⟩ := (routed enter leave complete follows n).visit (o := .root tree) (by rw [start]; rfl) .refl
    (by rw [start_store]; exact .refl store) within
  obtain ⟨r', ends', calls⟩ := ends_of_route enter leave complete follows route hn .refl memory
  refine ⟨ds, route, ?_⟩
  rw [ends.unique ends']
  exact calls

/-- A walk from any other value that comes to an end takes the routes of the slots it comes to. -/
theorem routes_of_ends {memory : σ} {r : Run σ ν} (ends : w.Ends tree store memory r) (hn : tree.isNode store = false) :
    ∃ cs own, Comes p store w.reserved (.fields (tree.entries store)) cs ∧
      (∀ c ∈ cs, Route p store w.reserved c.value (own c)) ∧ r.calls = (Occurrence.root tree).through own cs := by
  obtain ⟨n, within⟩ := ends.within
  have start := w.start_other (.inl enter) hn memory
  have grows : store.Grows (w.start tree store memory).store := by rw [start_store]; exact .refl store
  have of : (Cursor.fields (tree.entries store)).Of store tree := List.Subset.refl _
  have focus : (w.start tree store memory).focus = .next := by rw [start]
  have stack : (w.start tree store memory).stack = (Cursor.fields (tree.entries store)).frames (.root tree) ++ [] := by
    rw [start, ((Store.Grows.refl store).reads complete.placed).names]
    rfl
  obtain ⟨cs, comes, routes⟩ := (routed enter leave complete follows n).record focus stack of .refl grows within
  choose! own below using routes
  have travels : ∀ c ∈ cs, w.Travels p store c.value (own c) := fun c hc =>
    travels_of_route enter leave complete follows (below c hc) (comes.nodes of c hc).2
  obtain ⟨t, lead, -, focus', stack'⟩ :=
    children_lead (o := .root tree) complete .refl grows of focus stack comes travels
  have ended := leads_silent focus' stack' rfl (w := w) .stop
  obtain ⟨r', ends', -, -, calls⟩ := (lead.trans ended).ends rfl
  refine ⟨cs, own, comes, below, ?_⟩
  rw [ends.unique ends', calls, List.append_nil]

/-- Where the route of a node begins, the calls until the node is left are those of a walk from the node. -/
theorem walked_of_begins {rest : List Call} (begins : Begins p store w.reserved tree o rest) :
    ∃ inner after, ⟨o, .enter⟩ :: rest = o.around inner ++ after ∧ Balanced inner ∧
      ∀ memory, ∃ r, w.Ends o.node store memory r ∧ r.calls.map (Call.graft o) = o.around inner := by
  obtain ⟨hn, reach, ds, after, route, eq⟩ := begins
  obtain ⟨inner, balanced, around⟩ := route.balanced (b := o) rfl
  refine ⟨inner, after, by rw [eq, around], balanced, fun memory => ?_⟩
  obtain ⟨r, ends, calls⟩ := ends_of_route enter leave complete follows route hn reach memory
  refine ⟨r, ends, ?_⟩
  rw [calls, Call.map_graft_graft, Occurrence.graft_root, around]

end

end Walker

/-- A walk with both callbacks that comes to an end, and whose visitor changes nothing and follows a policy.
    - From any call of `enter` to the `leave` that matches it, the calls are those of a walk with the same settings from
      the node that is entered, grafted on the occurrence.
    - If the root is no node, the calls are those of walks from the slots the walk comes to, one after the other, with
      the root in front of their ancestors. These are all slots in their order, unless a node in a list names a position
      other than the next one. -/
theorem subtrees_are_walked_as_trees (w : Walker σ ν) (p : Policy) {tree : Value} {store : Store}
    (complete : tree.Complete store) (enter : w.enter.isSome) (leave : w.leave.isSome)
    (follows : w.Follows p tree store) {memory : σ} {r : Run σ ν} (ends : w.Ends tree store memory r) :
    (∀ before o rest, r.calls = before ++ ⟨o, .enter⟩ :: rest → ∃ inner after,
      ⟨o, .enter⟩ :: rest = o.around inner ++ after ∧ Balanced inner ∧
        ∀ memory', ∃ r', w.Ends o.node store memory' r' ∧ r'.calls.map (Call.graft o) = o.around inner) ∧
    (tree.isNode store = false → ∃ cs own, Comes p store w.reserved (.fields (tree.entries store)) cs ∧
      (∀ c ∈ cs, ∀ memory', ∃ r', w.Ends c.value store memory' r' ∧ r'.calls = own c) ∧
      r.calls = (Occurrence.root tree).through own cs ∧
      ((∀ c ∈ tree.slots store w.reserved, ∀ i : Nat, c.index = some i →
          (p.resumes c.value).getD (i + 1) = i + 1) → cs = tree.slots store w.reserved)) := by
  have of : (Cursor.fields (tree.entries store)).Of store tree := List.Subset.refl _
  refine ⟨fun before o rest split => ?_, fun hn => ?_⟩
  · refine Walker.walked_of_begins enter leave complete follows ?_
    cases hn : tree.isNode store with
    | true =>
      obtain ⟨ds, route, calls⟩ := Walker.route_of_ends enter leave complete follows ends hn
      rw [calls] at split
      exact route.found hn rfl split
    | false =>
      obtain ⟨cs, own, comes, routes, calls⟩ := Walker.routes_of_ends enter leave complete follows ends hn
      rw [calls] at split
      refine begins_through (fun c hc => (comes.nodes of c hc).2) (fun c hc before o rest => ?_) split
      exact (routes c hc).found (comes.nodes of c hc).1 rfl
  · obtain ⟨cs, own, comes, routes, calls⟩ := Walker.routes_of_ends enter leave complete follows ends hn
    refine ⟨cs, fun c => (own c).map (Call.graft (.root c.value)), comes, fun c hc memory' => ?_, ?_,
      comes.eq_slots trivial⟩
    · exact Walker.ends_of_route enter leave complete follows (routes c hc) (comes.nodes of c hc).1
        (comes.nodes of c hc).2 memory'
    · rw [calls]
      simp only [Occurrence.through, Call.map_graft_graft]
      rfl

/-! ## Visitors for every policy -/

/-- A visitor that counts its calls and returns what the policy says. -/
def Policy.visitor (p : Policy) : Walker Nat Unit where
  enter := some fun c s n => c.answer s (n + 1) (.ok (if p.skips c.node then .action .skip else .null))
  leave := some fun c s n => c.answer s (n + 1) (.ok ((p.resumes c.node).elim .null .int))
  reserved := []
  logging := false
  colored := false
  debug := false

theorem Policy.visitor_follows (p : Policy) (tree : Value) (store : Store) : p.visitor.Follows p tree store := by
  intro F f c s m due _ _
  cases F with
  | enter o =>
    obtain ⟨he, rfl⟩ := p.visitor.due_enter due
    cases he
    refine ⟨.refl s, rfl, _, rfl, ?_⟩
    simp only [Policy.Wants, Call.answer]
    cases p.skips o.node with
    | true => exact ⟨rfl, rfl⟩
    | false => exact ⟨rfl, rfl⟩
  | leave o g =>
    obtain ⟨hl, rfl⟩ := p.visitor.due_leave due
    cases hl
    refine ⟨.refl s, rfl, _, rfl, ?_⟩
    simp only [Policy.Wants, Call.answer]
    cases p.resumes o.node with
    | none => exact ⟨rfl, rfl⟩
    | some i => exact ⟨rfl, rfl⟩
  | next => cases due
  | back g => cases due
  | done out => cases due

/-- A record that is no node, with a list. Its first element holds itself in two ways: in a list after another node, and
    in a node beside it. -/
def hedged : Store := ⟨#[
  { fields := .ofList [("body", .container .list 1)] },
  { items := [.container .mapping 2, .container .mapping 3, .container .mapping 2] },
  { fields := .ofList [("type", .text "Call"), ("callee", .container .mapping 3), ("args", .container .list 4)] },
  { fields := .ofList [("type", .text "Name")] },
  { items := [.container .mapping 5, .container .mapping 3, .container .mapping 2] },
  { fields := .ofList [("type", .text "Block"), ("owner", .container .mapping 2)] }]⟩

/-- Skips the block, and passes over what comes after a name. -/
def hedging : Policy where
  skips v := v = .container .mapping 5
  resumes v := if v = .container .mapping 3 then some 5 else none

/-- The walk ends, although the store has cycles. The first element of the list is walked as a tree, and the walk of the
    record is that of two elements of the list. -/
theorem hedged_subtrees :
    let tree := Value.container .mapping 0
    let w := hedging.visitor
    let r := w.walk 60 tree hedged 0
    let o : Occurrence := ⟨.container .mapping 2, some "body", some 0, [tree]⟩
    r.calls.length = 10 ∧ (w.walk 60 o.node hedged 0).calls.length = 8 ∧
      (∃ inner after, r.calls = o.around inner ++ after ∧ Balanced inner ∧
        ∀ memory, ∃ r', w.Ends o.node hedged memory r' ∧ r'.calls.map (Call.graft o) = o.around inner) ∧
      ∃ cs own, Comes hedging hedged w.reserved (.fields (tree.entries hedged)) cs ∧
        (∀ c ∈ cs, ∀ memory, ∃ r', w.Ends c.value hedged memory r' ∧ r'.calls = own c) ∧
        r.calls = (Occurrence.root tree).through own cs := by
  intro tree w r o
  have closed : hedged.Closed := by decide
  have ends : w.Ends tree hedged 0 r := w.ends_of_done (o := .returned .silent) (by decide)
  obtain ⟨visits, slots⟩ := subtrees_are_walked_as_trees w hedging (closed.complete (by decide)) rfl rfl
    (hedging.visitor_follows tree hedged) ends
  obtain ⟨cs, own, comes, own_ends, calls, -⟩ := slots (by decide)
  have first : r.calls = [] ++ ⟨o, .enter⟩ :: r.calls.tail := by decide
  obtain ⟨inner, after, eq, walked⟩ := visits [] o r.calls.tail first
  refine ⟨by decide, by decide, ⟨inner, after, ?_, walked⟩, cs, own, comes, own_ends, calls⟩
  rw [← eq]
  exact first

def couple : Store := ⟨#[
  { fields := .ofList [("body", .container .list 1)] },
  { items := [.container .mapping 2, .container .mapping 3] },
  { fields := .ofList [("type", .text "A")] },
  { fields := .ofList [("type", .text "B")] }]⟩

/-- Names the end of the list when it leaves its first node. -/
def hasty : Policy where
  skips _ := false
  resumes v := if v = .container .mapping 2 then some 2 else none

/-- Nothing changes, fails or exits, and what is asked for depends on the node and the phase alone. Yet the walk of the
    record is not the concatenation of the walks of its children: the second one is passed over. -/
theorem a_named_position_hides_a_child :
    let tree := Value.container .mapping 0
    let w := hasty.visitor
    w.Follows hasty tree couple ∧ tree.Complete couple ∧ tree.isNode couple = false ∧
      w.Ends tree couple 0 (w.walk 30 tree couple 0) ∧
      (∀ c ∈ tree.slots couple w.reserved, w.Ends c.value couple 0 (w.walk 30 c.value couple 0)) ∧
      (w.walk 30 tree couple 0).calls ≠ (Occurrence.root tree).through
        (fun c => (w.walk 30 c.value couple 0).calls) (tree.slots couple w.reserved) := by
  intro tree w
  have closed : couple.Closed := by decide
  have done : ∀ c ∈ tree.slots couple w.reserved, (w.run 30 (w.start c.value couple 0)).outcome?.isSome := by decide
  refine ⟨hasty.visitor_follows tree couple, closed.complete (by decide), by decide,
    w.ends_of_done (o := .returned .silent) (by decide), fun c hc => ?_, by decide⟩
  obtain ⟨out, hout⟩ := Option.isSome_iff_exists.mp (done c hc)
  exact w.ends_of_done (outcome?_eq_some.mp hout)

end TreeWalk
