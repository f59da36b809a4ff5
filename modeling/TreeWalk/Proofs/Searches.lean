/-
  TreeWalk.Proofs.Searches — the searches agree with one another.

  A predicate may have a memory, change the tree, answer with anything and fail. What it was asked in a search, and what
  it said, is a list of inquiries (`Predicate.asked`). `findAll` and `findFirst` ask alike as long as the answer is no:
  until then the two walks are in the same state (`Abreast.together`). At the first yes `findFirst` is done, whatever
  `findAll` goes on to do.
  - `untilYes`: the inquiries up to the first yes.
  - `Searching`: the nodes that were found are those with a yes, in order.
  - `abreast_run`: the two searches side by side, after any number of steps.
  - `searches_agree`: what that says of their answers. A predicate that leaves the tree as it is (`Inquiry.Harmless`) is
    asked about the unfolding of the tree, and `countAll` counts it.
-/

import TreeWalk.Proofs.Admission
import TreeWalk.Proofs.Unfolding

namespace TreeWalk

variable {σ ν : Type}

/-! ## Inquiries -/

/-- What a predicate was asked, with the store and the memory it was asked in, and what it answered. -/
structure Inquiry (σ ν : Type) where
  node : Value
  store : Store
  memory : σ
  answer : Answer σ ν

def Inquiry.holds (q : Inquiry σ ν) : Bool :=
  match q.answer.outcome with
  | .ok v => v.truthy q.answer.store
  | .error _ => false

def Predicate.ask (p : Predicate σ ν) (node : Value) (s : Store) (m : σ) : Inquiry σ ν := ⟨node, s, m, p node s m⟩

def memoryAfter (m : σ) (xs : List (Exchange (Gathered σ) ν)) : σ := xs.foldl (fun _ x => x.reply.memory.memory) m

/-- What a predicate was asked in the exchanges of a search, if it began with the memory `m`. -/
def Predicate.asked (p : Predicate σ ν) (m : σ) : List (Exchange (Gathered σ) ν) → List (Inquiry σ ν)
  | [] => []
  | x :: xs => p.ask x.call.node x.before m :: p.asked x.reply.memory.memory xs

/-- The inquiries up to the first one that is answered with a yes. -/
def untilYes : List (Inquiry σ ν) → List (Inquiry σ ν)
  | [] => []
  | q :: qs => if q.holds then [q] else q :: untilYes qs

theorem untilYes_of_none {qs : List (Inquiry σ ν)} (h : ∀ q ∈ qs, q.holds = false) : untilYes qs = qs := by
  induction qs with
  | nil => rfl
  | cons q qs ih =>
    obtain ⟨hq, hqs⟩ := List.forall_mem_cons.mp h
    simp [untilYes, hq, ih hqs]

theorem untilYes_append {qs : List (Inquiry σ ν)} {q : Inquiry σ ν} (h : qs.find? (·.holds) = some q)
    (rs : List (Inquiry σ ν)) : untilYes (qs ++ rs) = untilYes qs := by
  induction qs with
  | nil => cases h
  | cons r qs ih =>
    by_cases hr : r.holds
    · simp [untilYes, hr]
    · rw [List.find?_cons_of_neg hr] at h
      simp [untilYes, hr, ih h]

theorem untilYes_snoc {qs : List (Inquiry σ ν)} {q : Inquiry σ ν} (h : ∀ q ∈ qs, q.holds = false) (hq : q.holds) :
    untilYes (qs ++ [q]) = qs ++ [q] := by
  induction qs with
  | nil => simp [untilYes, hq]
  | cons r qs ih =>
    obtain ⟨hr, hqs⟩ := List.forall_mem_cons.mp h
    simp [untilYes, hr, ih hqs]

theorem find?_snoc {qs : List (Inquiry σ ν)} {q : Inquiry σ ν} (h : ∀ q ∈ qs, q.holds = false) (hq : q.holds) :
    (qs ++ [q]).find? (·.holds) = some q := by
  have none : qs.find? (·.holds) = none := List.find?_eq_none.mpr fun q hq => by simp [h q hq]
  rw [List.find?_append, none, Option.none_or, List.find?_cons_of_pos hq]

theorem Predicate.asked_append (p : Predicate σ ν) (m : σ) (xs ys : List (Exchange (Gathered σ) ν)) :
    p.asked m (xs ++ ys) = p.asked m xs ++ p.asked (memoryAfter m xs) ys := by
  induction xs generalizing m with
  | nil => rfl
  | cons x xs ih => simp only [List.cons_append, asked, ih, memoryAfter, List.foldl_cons]

theorem Predicate.map_node_asked (p : Predicate σ ν) (m : σ) (xs : List (Exchange (Gathered σ) ν)) :
    (p.asked m xs).map (·.node) = xs.map (·.call.node) := by
  induction xs generalizing m with
  | nil => rfl
  | cons x xs ih => simp only [asked, List.map_cons, ih, ask]

theorem Predicate.answer_of_asked {p : Predicate σ ν} {m : σ} {xs : List (Exchange (Gathered σ) ν)} {q : Inquiry σ ν}
    (h : q ∈ p.asked m xs) : q.answer = p q.node q.store q.memory := by
  induction xs generalizing m with
  | nil => cases h
  | cons x xs ih =>
    rcases List.mem_cons.mp h with rfl | h
    · rfl
    · exact ih h

theorem Predicate.gather_eq (p : Predicate σ ν) (yes : Value) (c : Call) (s : Store) (g : Gathered σ) :
    p.gather yes c s g =
      let q := p.ask c.node s g.memory
      { outcome := q.answer.outcome.map fun _ => if q.holds then yes else .null
        store := q.answer.store
        memory := ⟨if q.holds then g.found ++ [c.node] else g.found, q.answer.memory⟩
        notes := q.answer.notes
        ancestors := c.ancestors } := rfl

/-! ## What a search keeps -/

/-- The inquiries account for the memory, for the nodes that were found and for all that was returned to the walk. -/
structure Searching (p : Predicate σ ν) (yes : Value) (m : σ) (s : State (Gathered σ) ν) : Prop where
  memory : s.memory.memory = memoryAfter m s.exchanges
  found : s.memory.found = ((p.asked m s.exchanges).filter (·.holds)).map (·.node)
  answered : ∀ x ∈ s.exchanges, ∃ q ∈ p.asked m s.exchanges, x.reply.store = q.answer.store ∧
    x.reply.ancestors = x.call.ancestors ∧
    x.reply.outcome = q.answer.outcome.map fun _ => if q.holds then yes else .null

namespace Searching

variable {p : Predicate σ ν} {yes : Value} {m : σ} {s : State (Gathered σ) ν} {w : Walker (Gathered σ) ν}

theorem asked_called (h : Searching p yes m s) {f : Callback (Gathered σ) ν} {c : Call}
    (due : w.due s.focus = some (f, c)) :
    p.asked m (w.step s).exchanges = p.asked m s.exchanges ++ [p.ask c.node s.store s.memory.memory] := by
  rw [Walker.exchanges_called due, p.asked_append, h.memory]
  rfl

theorem step (h : Searching p yes m s) (enter : w.enter = some (p.gather yes)) (leave : w.leave = none) :
    Searching p yes m (w.step s) := by
  cases due : w.due s.focus with
  | none =>
    obtain ⟨F, K, -, hs⟩ := Walker.step_silent due
    rw [hs]
    exact ⟨h.memory, h.found, h.answered⟩
  | some d =>
    obtain ⟨f, c⟩ := d
    obtain ⟨rfl, -⟩ := Walker.due_alone enter leave due
    let q := p.ask c.node s.store s.memory.memory
    have asked : p.asked m (w.step s).exchanges = p.asked m s.exchanges ++ [q] := h.asked_called due
    have memory : (w.step s).memory = (p.gather yes c s.store s.memory).memory := by
      rw [Walker.step_called due]
      rfl
    refine ⟨?_, ?_, ?_⟩
    · rw [memory, Walker.exchanges_called due, memoryAfter, List.foldl_append]
      rfl
    · rw [memory, asked, List.filter_append, List.map_append, ← h.found, p.gather_eq]
      show (if q.holds then s.memory.found ++ [c.node] else s.memory.found) = _
      cases hq : q.holds with
      | true => simp [hq]; rfl
      | false => simp [hq]
    · rw [asked, Walker.exchanges_called due]
      refine List.forall_mem_append.mpr ⟨fun x hx => ?_, List.forall_mem_singleton.mpr ⟨q, by simp, rfl, rfl, rfl⟩⟩
      obtain ⟨q', hq', same⟩ := h.answered x hx
      exact ⟨q', List.mem_append_left _ hq', same⟩

theorem start (p : Predicate σ ν) (yes : Value) (m : σ) (w : Walker (Gathered σ) ν) (tree : Value) (store : Store) :
    Searching p yes m (w.start tree store ⟨[], m⟩) := by
  constructor
  · rw [w.start_memory, w.start_exchanges]
    rfl
  · rw [w.start_memory, w.start_exchanges]
    rfl
  · rw [w.start_exchanges]
    exact List.forall_mem_nil _

theorem run (enter : w.enter = some (p.gather yes)) (leave : w.leave = none) (tree : Value) (store : Store) (n : Nat) :
    Searching p yes m (w.run n (w.start tree store ⟨[], m⟩)) :=
  w.run_keeps (P := Searching p yes m) (fun _ h => h.step enter leave) (start p yes m w tree store) n

end Searching

/-! ## Two searches side by side -/

/-- The walk of a visit with one callback. -/
def Settings.alone (c : Settings) (reserved : List String) (debug : Bool) (f : Callback σ ν) : Walker σ ν where
  enter := some f
  leave := none
  reserved := reserved
  logging := c.logging
  colored := c.colored
  debug := debug

/-- The search for the first node stands where the search for all nodes stands, or is done. -/
inductive Abreast (p : Predicate σ ν) (m : σ) (s s' : State (Gathered σ) ν) : Prop
  | together (no : ∀ q ∈ p.asked m s.exchanges, q.holds = false) (same : s' = s)
  | parted (q : Inquiry σ ν) (first : (p.asked m s.exchanges).find? (·.holds) = some q)
      (asked : p.asked m s'.exchanges = untilYes (p.asked m s.exchanges))
      (done : s'.focus = .done (.returned (.ofValue (.action .exit)))) (found : s'.memory.found = [q.node])

section

variable {p : Predicate σ ν} {m : σ} {s s' : State (Gathered σ) ν} (c : Settings) (reserved : List String)
  (debug : Bool)

theorem step_of_silent_search {f g : Callback (Gathered σ) ν} (due : (c.alone reserved debug f).due s.focus = none) :
    (c.alone reserved debug g).step s = (c.alone reserved debug f).step s := by
  refine Walker.step_eq_of_exchange? rfl rfl rfl ?_
  cases hF : s.focus with
  | enter o => rw [hF] at due; cases due
  | _ => simp only [Walker.exchange?, hF, Walker.due, Option.map_none, Settings.alone]

theorem step_of_no {o : Occurrence} (hF : s.focus = .enter o)
    (no : (p.ask o.node s.store s.memory.memory).holds = false) :
    (c.alone reserved debug (p.gather (.action .exit))).step s = (c.alone reserved debug (p.gather .null)).step s := by
  refine Walker.step_eq_of_exchange? rfl rfl rfl ?_
  simp only [Walker.exchange?, hF, Walker.due, Settings.alone, Option.map_some, p.gather_eq, no, Bool.false_eq_true,
    if_false]

theorem step_of_yes {o : Occurrence} (hF : s.focus = .enter o) (yes : (p.ask o.node s.store s.memory.memory).holds) :
    ((c.alone reserved debug (p.gather (.action .exit))).step s).focus =
        .done (.returned (.ofValue (.action .exit))) ∧
      ((c.alone reserved debug (p.gather (.action .exit))).step s).memory.found = s.memory.found ++ [o.node] := by
  have due : (c.alone reserved debug (p.gather (.action .exit))).due s.focus =
      some (p.gather (.action .exit), { o with phase := .enter }) := by rw [hF]; rfl
  obtain ⟨v, hv⟩ : ∃ v, (p.ask o.node s.store s.memory.memory).answer.outcome = .ok v := by
    cases hv : (p.ask o.node s.store s.memory.memory).answer.outcome with
    | ok v => exact ⟨v, rfl⟩
    | error e => simp [Inquiry.holds, hv] at yes
  rw [Walker.step_called due]
  simp only [p.gather_eq, yes, if_true, hF, hv, Except.map]
  exact ⟨rfl, rfl⟩

theorem Abreast.step (h : Abreast p m s s') (searching : Searching p .null m s) :
    Abreast p m ((c.alone reserved debug (p.gather .null)).step s)
      ((c.alone reserved debug (p.gather (.action .exit))).step s') := by
  cases h with
  | together no same =>
    subst same
    cases due : (c.alone reserved debug (p.gather .null)).due s'.focus with
    | none =>
      refine .together ?_ (step_of_silent_search c reserved debug due)
      rwa [Walker.exchanges_silent due]
    | some d =>
      obtain ⟨f, d⟩ := d
      obtain ⟨-, o, hF, rfl⟩ := Walker.due_alone rfl rfl due
      let q := p.ask o.node s'.store s'.memory.memory
      have more : p.asked m _ = p.asked m s'.exchanges ++ [q] := searching.asked_called due
      cases hq : q.holds with
      | false =>
        refine .together ?_ (step_of_no c reserved debug hF hq)
        rw [more]
        exact List.forall_mem_append.mpr ⟨no, List.forall_mem_singleton.mpr hq⟩
      | true =>
        have due' : (c.alone reserved debug (p.gather (.action .exit))).due s'.focus =
            some (p.gather (.action .exit), { o with phase := .enter }) := by rw [hF]; rfl
        obtain ⟨done, found⟩ := step_of_yes c reserved debug hF hq
        refine .parted q ?_ ?_ done ?_
        · rw [more, find?_snoc no hq]
        · rw [more, untilYes_snoc no hq]
          exact searching.asked_called due'
        · -- Nothing was found before.
          have empty : (p.asked m s'.exchanges).filter (·.holds) = [] :=
            List.filter_eq_nil_iff.mpr fun q hq => by simp [no q hq]
          rw [found, searching.found, empty]
          rfl
  | parted q first asked done found =>
    have rest := (c.alone reserved debug (p.gather (.action .exit))).step_done done
    rw [rest]
    cases due : (c.alone reserved debug (p.gather .null)).due s.focus with
    | none =>
      refine .parted q ?_ ?_ done found
      · rw [Walker.exchanges_silent due, first]
      · rw [Walker.exchanges_silent due, asked]
    | some d =>
      have more := searching.asked_called due
      refine .parted q ?_ ?_ done found
      · rw [more, List.find?_append, first, Option.some_or]
      · rw [more, untilYes_append first, asked]

theorem abreast_run (tree : Value) (store : Store) (m : σ) (n : Nat) :
    let all := c.alone reserved debug (p.gather .null)
    let first := c.alone reserved debug (p.gather (.action .exit))
    Abreast p m (all.run n (all.start tree store ⟨[], m⟩)) (first.run n (first.start tree store ⟨[], m⟩)) := by
  intro all first
  induction n with
  | zero =>
    refine .together ?_ rfl
    show ∀ q ∈ p.asked m (all.start tree store ⟨[], m⟩).exchanges, q.holds = false
    rw [all.start_exchanges]
    exact List.forall_mem_nil _
  | succ n ih =>
    rw [all.run_succ, first.run_succ]
    exact ih.step c reserved debug (Searching.run rfl rfl tree store n)

end

/-! ## Answers -/

theorem answer_eq_ok {α : Type} {s : State σ ν} {read : σ → α} {a : α} :
    s.toRun.answer read = some (.ok a) ↔ (∃ g, s.focus = .done (.returned g)) ∧ read s.memory = a := by
  show s.outcome?.map _ = _ ↔ _
  cases hF : s.focus with
  | done o => cases o <;> simp [State.outcome?, hF, State.toRun]
  | _ => simp [State.outcome?, hF]

theorem answer_eq_error {α : Type} {s : State σ ν} {read : σ → α} {e : Fault} :
    s.toRun.answer read = some (.error e) ↔ s.focus = .done (.raised e) := by
  show s.outcome?.map _ = _ ↔ _
  cases hF : s.focus with
  | done o => cases o <;> simp [State.outcome?, hF]
  | _ => simp [State.outcome?, hF]

/-- The search for the first node next to the search for all nodes: it asks up to the first yes, and answers with the
    node of that; without a yes it ends as the other does. -/
structure FirstOfAll (p : Predicate σ ν) (m : σ) (all first : Run (Gathered σ) ν) : Prop where
  asked : p.asked m first.exchanges = untilYes (p.asked m all.exchanges)
  found : ∀ found, all.answer (·.found) = some (.ok found) →
    found = ((p.asked m all.exchanges).filter (·.holds)).map (·.node) ∧
      first.answer (·.found.head?) = some (.ok found.head?)
  fault : ∀ e, all.answer (·.found) = some (.error e) →
    first.answer (·.found.head?) = some
      (match (p.asked m all.exchanges).find? (·.holds) with
      | some q => .ok (some q.node)
      | none => .error e)

theorem Abreast.firstOfAll {p : Predicate σ ν} {m : σ} {s s' : State (Gathered σ) ν} (h : Abreast p m s s')
    (searching : Searching p .null m s) : FirstOfAll p m s.toRun s'.toRun := by
  cases h with
  | together no same =>
    subst same
    constructor
    · rw [toRun_exchanges, untilYes_of_none no]
    · intro found h
      obtain ⟨returned, rfl⟩ := answer_eq_ok.mp h
      refine ⟨?_, answer_eq_ok.mpr ⟨returned, rfl⟩⟩
      rw [toRun_exchanges, searching.found]
    · intro e h
      have none : (p.asked m s'.toRun.exchanges).find? (·.holds) = none := by
        rw [toRun_exchanges]
        exact List.find?_eq_none.mpr fun q hq => by simp [no q hq]
      rw [none]
      exact answer_eq_error.mpr (answer_eq_error.mp h)
  | parted q first asked done found =>
    have answer : s'.toRun.answer (·.found.head?) = some (.ok (some q.node)) :=
      answer_eq_ok.mpr ⟨⟨_, done⟩, by rw [found]; rfl⟩
    constructor
    · rw [toRun_exchanges, toRun_exchanges, asked]
    · intro all h
      obtain ⟨-, rfl⟩ := answer_eq_ok.mp h
      rw [toRun_exchanges, searching.found, List.head?_map, List.head?_filter, first]
      exact ⟨rfl, answer⟩
    · intro e _
      rw [toRun_exchanges, first]
      exact answer

/-! ## Settings -/

/-- The names a walk leaves alone, if the settings are sound. -/
def Settings.admitted (c : Settings) (s : Store) : Except Fault (List String) := do
  c.check s
  c.spent.reserved.names s

theorem accept_function (settings : Option Settings) (f : Callback σ ν) (debug : Bool) (s : Store) :
    accept settings (.function f) debug s =
      ((settings.getD {}).admitted s).map fun reserved => (settings.getD {}).alone reserved debug f := by
  unfold accept Settings.admitted Walker.make
  cases hcheck : (settings.getD {}).check s with
  | error e => simp only [hcheck, bind, Except.bind, Except.map]
  | ok _ =>
    cases hnames : (settings.getD {}).spent.reserved.names s with
    | error e => simp only [hcheck, hnames, bind, Except.bind, Visitor.callbacks, Visitor.function]; rfl
    | ok reserved => simp only [hcheck, hnames, bind, Except.bind, Visitor.callbacks, Visitor.function]; rfl

theorem admitted_of_accept {settings : Option Settings} {f : Callback σ ν} {debug : Bool} {s : Store} {w : Walker σ ν}
    (accepted : accept settings (.function f) debug s = .ok w) :
    ∃ reserved, (settings.getD {}).admitted s = .ok reserved ∧ w = (settings.getD {}).alone reserved debug f := by
  rw [accept_function] at accepted
  cases admitted : (settings.getD {}).admitted s with
  | error e =>
    rw [admitted] at accepted
    cases accepted
  | ok reserved =>
    rw [admitted] at accepted
    cases accepted
    exact ⟨reserved, rfl, rfl⟩

theorem visit_function (fuel : Nat) (debug : Bool) (settings : Option Settings) (f : Callback σ ν) (tree : Value)
    (store : Store) (memory : σ) :
    visit fuel debug settings (.function f) tree store memory =
      match (settings.getD {}).admitted store with
      | .error e => ⟨some (.raised e), store, memory, []⟩
      | .ok reserved => ((settings.getD {}).alone reserved debug f).walk fuel tree store memory := by
  rw [visit, accept_function]
  cases (settings.getD {}).admitted store <;> rfl

theorem firstOfAll (p : Predicate σ ν) (fuel : Nat) (debug : Bool) (settings : Option Settings) (tree : Value)
    (store : Store) (m : σ) :
    FirstOfAll p m (findAll fuel debug settings p tree store m) (findFirst fuel debug settings p tree store m) := by
  unfold findAll findFirst
  rw [visit_function, visit_function]
  cases (settings.getD {}).admitted store with
  | error e =>
    -- Nothing is asked, and both fail with the settings.
    refine ⟨rfl, fun found h => ?_, fun e' h => ?_⟩
    · cases h
    · cases h
      rfl
  | ok reserved =>
    exact (abreast_run _ reserved debug tree store m fuel).firstOfAll (Searching.run rfl rfl tree store fuel)

/-! ## Predicates that leave the tree as it is -/

/-- The predicate answered, and left what can be reached from the tree as it was. -/
structure Inquiry.Harmless (tree : Value) (store : Store) (q : Inquiry σ ν) : Prop where
  intact : tree.Intact store q.answer.store
  answers : ∃ v, q.answer.outcome = .ok v

section

variable {p : Predicate σ ν} {m : σ} {w : Walker (Gathered σ) ν} {tree : Value} {store : Store}
  (enter : w.enter = some (p.gather .null)) (leave : w.leave = none)
  (harmless : ∀ n, ∀ q ∈ p.asked m (w.run n (w.start tree store ⟨[], m⟩)).exchanges, q.Harmless tree store)

include enter leave harmless

theorem Searching.looking : w.Looking tree store (w.start tree store ⟨[], m⟩) := by
  refine ⟨?_, fun n x hx => ?_⟩
  · rw [w.start_store]
    exact Value.intact_self store tree
  · obtain ⟨q, hq, hstore, ancestors, outcome⟩ := (Searching.run enter leave tree store n).answered x hx
    obtain ⟨intact, v, hv⟩ := harmless n q hq
    refine ⟨hstore ▸ intact, ancestors, ?_⟩
    rw [outcome, hv]
    simp [Except.map]

/-- A search that ends has asked about the unfolding of the tree, in order, and found what it should. -/
theorem Searching.asked_of_ok {n : Nat} {found : List Value}
    (h : (w.walk n tree store ⟨[], m⟩).answer (·.found) = some (.ok found)) :
    ∃ order, tree.Unfolding store w.reserved order ∧
      (p.asked m (w.walk n tree store ⟨[], m⟩).exchanges).map (·.node) = order.map (·.node) ∧
      ∀ yes : Value → Bool, (∀ q ∈ p.asked m (w.walk n tree store ⟨[], m⟩).exchanges, q.holds = yes q.node) →
        found = (order.map (·.node)).filter yes := by
  obtain ⟨⟨g, done⟩, rfl⟩ := answer_eq_ok.mp h
  obtain ⟨-, order, unfolding, calls⟩ := w.looking_of_done enter leave (Searching.looking enter leave harmless) done
  rw [Walker.walk, toRun_exchanges]
  have nodes : (p.asked m (w.run n (w.start tree store ⟨[], m⟩)).exchanges).map (·.node) = order.map (·.node) := by
    rw [p.map_node_asked]
    have mapped := congrArg (List.map (·.node)) calls
    rw [State.calls, List.map_map, List.map_map] at mapped
    exact mapped
  refine ⟨order, unfolding, nodes, fun yes agree => ?_⟩
  rw [(Searching.run enter leave tree store n).found, ← nodes, List.filter_map]
  exact congrArg _ (List.filter_congr agree)

theorem Searching.ok_of_unfolding {order : List Occurrence} (unfolding : tree.Unfolding store w.reserved order) :
    ∃ n found, (w.walk n tree store ⟨[], m⟩).answer (·.found) = some (.ok found) := by
  obtain ⟨n, g, done, -⟩ := w.looking_of_unfolding enter leave (Searching.looking enter leave harmless) unfolding
  exact ⟨n, _, answer_eq_ok.mpr ⟨⟨g, done⟩, rfl⟩⟩

theorem Searching.ok_iff : (∃ n found, (w.walk n tree store ⟨[], m⟩).answer (·.found) = some (.ok found)) ↔
    ∃ order, tree.Unfolding store w.reserved order := by
  constructor
  · rintro ⟨n, found, h⟩
    obtain ⟨order, unfolding, -⟩ := Searching.asked_of_ok enter leave harmless h
    exact ⟨order, unfolding⟩
  · rintro ⟨order, unfolding⟩
    exact Searching.ok_of_unfolding enter leave harmless unfolding

theorem Searching.length_iff
    (always : ∀ n, ∀ q ∈ p.asked m (w.walk n tree store ⟨[], m⟩).exchanges, q.holds) {k : Nat} :
    (∃ n found, (w.walk n tree store ⟨[], m⟩).answer (·.found) = some (.ok found) ∧ found.length = k) ↔
      ∃ order, tree.Unfolding store w.reserved order ∧ order.length = k := by
  have length : ∀ {n found}, (w.walk n tree store ⟨[], m⟩).answer (·.found) = some (.ok found) →
      ∃ order, tree.Unfolding store w.reserved order ∧ order.length = found.length := by
    intro n found h
    obtain ⟨order, unfolding, -, filtered⟩ := Searching.asked_of_ok enter leave harmless h
    have everything := filtered (fun _ => true) (always n)
    refine ⟨order, unfolding, ?_⟩
    rw [everything, List.filter_eq_self.mpr fun _ _ => rfl, List.length_map]
  constructor
  · rintro ⟨n, found, h, rfl⟩
    exact length h
  · rintro ⟨order, unfolding, rfl⟩
    obtain ⟨n, found, h⟩ := Searching.ok_of_unfolding enter leave harmless unfolding
    obtain ⟨order', unfolding', hlength⟩ := length h
    exact ⟨n, found, h, by rw [← hlength, unfolding.unique unfolding']⟩

end

/-! ## Counting -/

/-- A walk that counts its calls, and does nothing else. -/
structure Counting (tree : Value) (store : Store) (s : State Nat ν) : Prop where
  unchanged : s.store = store
  memory : s.memory = s.calls.length
  looks : ∀ x ∈ s.exchanges, x.Looks tree store

section

variable {w : Walker Nat ν} (enter : w.enter = some tally) (leave : w.leave = none) {tree : Value} {store : Store}

include enter leave

theorem Counting.step {s : State Nat ν} (h : Counting tree store s) : Counting tree store (w.step s) := by
  cases due : w.due s.focus with
  | none =>
    obtain ⟨F, K, -, hs⟩ := Walker.step_silent due
    rw [hs]
    exact ⟨h.unchanged, h.memory, h.looks⟩
  | some d =>
    obtain ⟨f, c⟩ := d
    obtain ⟨rfl, -⟩ := Walker.due_alone enter leave due
    have looks : Exchange.Looks tree store (⟨c, s.store, tally c s.store s.memory⟩ : Exchange Nat ν) := by
      refine ⟨?_, rfl, rfl⟩
      show tree.Intact store s.store
      rw [h.unchanged]
      exact Value.intact_self store tree
    rw [Walker.step_called due]
    refine ⟨h.unchanged, ?_, ?_⟩
    · rw [go_memory, go_calls, Walker.after_memory, Walker.after_calls, List.length_append, ← h.memory]
      rfl
    · rw [go_exchanges, Walker.after_exchanges]
      exact List.forall_mem_append.mpr ⟨h.looks, List.forall_mem_singleton.mpr looks⟩

theorem Counting.run (n : Nat) : Counting tree store (w.run n (w.start tree store 0)) := by
  refine w.run_keeps (P := Counting tree store) (fun _ h => h.step enter leave) ?_ n
  refine ⟨w.start_store tree store 0, ?_, ?_⟩
  · rw [w.start_memory, State.calls, w.start_exchanges]
    rfl
  · rw [w.start_exchanges]
    exact List.forall_mem_nil _

/-- A count is the length of the unfolding. -/
theorem counts_iff {k : Nat} : (∃ n, (w.walk n tree store 0).answer id = some (.ok k)) ↔
    ∃ order, tree.Unfolding store w.reserved order ∧ order.length = k := by
  have counting : ∀ n, Counting tree store (w.run n (w.start tree store 0)) := Counting.run enter leave
  have looking : w.Looking tree store (w.start tree store 0) := by
    refine ⟨?_, fun n => (counting n).looks⟩
    rw [w.start_store]
    exact Value.intact_self store tree
  constructor
  · rintro ⟨n, h⟩
    obtain ⟨⟨g, done⟩, rfl⟩ := answer_eq_ok.mp h
    obtain ⟨-, order, unfolding, calls⟩ := w.looking_of_done enter leave looking done
    refine ⟨order, unfolding, ?_⟩
    rw [id, (counting n).memory, calls, List.length_map]
  · rintro ⟨order, unfolding, rfl⟩
    obtain ⟨n, g, done, calls⟩ := w.looking_of_unfolding enter leave looking unfolding
    refine ⟨n, answer_eq_ok.mpr ⟨⟨g, done⟩, ?_⟩⟩
    rw [id, (counting n).memory, calls, List.length_map]

end

/-! ## The searches -/

/-- The three searches agree. Next to a search for all nodes, the search for the first one asks the same up to the first
    yes; it answers with the first node that was found, or as the other does if there is none (`FirstOfAll`). With a
    predicate that never fails and leaves the tree as it is, the search for all nodes comes to an end if and only if the
    tree has an unfolding; it asks about the unfolding in pre-order, and so finds the part of it that satisfies the
    predicate. If the answer is always yes, the number of nodes it finds is the count. -/
theorem searches_agree (p : Predicate σ ν) (debug : Bool) (settings : Option Settings) (tree : Value) (store : Store)
    (memory : σ) :
    let all := fun fuel => findAll fuel debug settings p tree store memory
    let asked := fun fuel => p.asked memory (all fuel).exchanges
    let answers := fun fuel found => (all fuel).answer (·.found) = some (.ok found)
    (∀ fuel, FirstOfAll p memory (all fuel) (findFirst fuel debug settings p tree store memory)) ∧
    ((∀ fuel, ∀ q ∈ asked fuel, q.Harmless tree store) →
      (∀ reserved, (settings.getD {}).admitted store = .ok reserved →
        ((∃ fuel found, answers fuel found) ↔ ∃ order, tree.Unfolding store reserved order) ∧
        ∀ fuel found, answers fuel found →
          ∃ order, tree.Unfolding store reserved order ∧ (asked fuel).map (·.node) = order.map (·.node) ∧
            ∀ yes : Value → Bool, (∀ q ∈ asked fuel, q.holds = yes q.node) →
              found = (order.map (·.node)).filter yes) ∧
      ((∀ fuel, ∀ q ∈ asked fuel, q.holds) → ∀ n,
        (∃ fuel, (countAll fuel debug settings tree store : Run Nat ν).answer id = some (.ok n)) ↔
          ∃ fuel found, answers fuel found ∧ found.length = n)) := by
  intro all asked answers
  refine ⟨fun fuel => firstOfAll p fuel debug settings tree store memory, fun harmless => ?_⟩
  cases hadmitted : (settings.getD {}).admitted store with
  | error e =>
    -- Nothing is searched: neither a search nor a count has an answer.
    refine ⟨nofun, fun _ n => ⟨?_, ?_⟩⟩
    · rintro ⟨fuel, h⟩
      rw [countAll, visit_function, hadmitted] at h
      cases h
    · rintro ⟨fuel, found, h, -⟩
      simp only [answers, all, findAll, visit_function, hadmitted] at h
      cases h
  | ok reserved =>
    let w := (settings.getD {}).alone reserved debug (p.gather .null)
    let counter : Walker Nat ν := (settings.getD {}).alone reserved debug tally
    have walks : ∀ fuel, all fuel = w.walk fuel tree store ⟨[], memory⟩ := by
      intro fuel
      simp only [all, findAll, visit_function, hadmitted]
      rfl
    have counts : ∀ fuel, (countAll fuel debug settings tree store : Run Nat ν) = counter.walk fuel tree store 0 := by
      intro fuel
      simp only [countAll, visit_function, hadmitted]
      rfl
    simp only [answers, asked, walks, counts] at harmless ⊢
    have harmless' : ∀ n, ∀ q ∈ p.asked memory (w.run n (w.start tree store ⟨[], memory⟩)).exchanges,
        q.Harmless tree store := by
      intro n q hq
      refine harmless n q ?_
      rwa [Walker.walk, toRun_exchanges]
    refine ⟨?_, fun always n => ?_⟩
    · intro _ hreserved
      cases hreserved
      exact ⟨Searching.ok_iff rfl rfl harmless', fun fuel found h => Searching.asked_of_ok rfl rfl harmless' h⟩
    · rw [counts_iff (w := counter) rfl rfl, Searching.length_iff rfl rfl harmless' always]
      exact Iff.rfl

/-- A predicate that always answers and only adds to the store does no harm to a tree that has all its places. -/
theorem harmless_of_grows {p : Predicate σ ν} (grows : ∀ v (s : Store) m, s.Grows (p v s m).store)
    (answers : ∀ v s m, ∃ u, (p v s m).outcome = .ok u) {tree : Value} {store : Store} (complete : tree.Complete store)
    (fuel : Nat) (debug : Bool) (settings : Option Settings) (memory : σ) :
    ∀ q ∈ p.asked memory (findAll fuel debug settings p tree store memory).exchanges, q.Harmless tree store := by
  rw [findAll, visit_function]
  cases (settings.getD {}).admitted store with
  | error e => exact List.forall_mem_nil _
  | ok reserved =>
    let w := (settings.getD {}).alone reserved debug (p.gather .null)
    let Kept (s : State (Gathered σ) ν) : Prop := Searching p .null memory s ∧ store.Grows s.store ∧
      ∀ q ∈ p.asked memory s.exchanges, store.Grows q.answer.store
    have step : ∀ s, Kept s → Kept (w.step s) := by
      intro s ⟨searching, hs, hq⟩
      refine ⟨searching.step rfl rfl, ?_⟩
      cases due : w.due s.focus with
      | none =>
        obtain ⟨F, K, -, move⟩ := Walker.step_silent due
        rw [move]
        exact ⟨hs, hq⟩
      | some d =>
        obtain ⟨f, c⟩ := d
        obtain ⟨rfl, -⟩ := Walker.due_alone rfl rfl due
        have next : store.Grows (p c.node s.store s.memory.memory).store := hs.trans (grows _ _ _)
        rw [searching.asked_called due, Walker.step_called due]
        exact ⟨next, List.forall_mem_append.mpr ⟨hq, List.forall_mem_singleton.mpr next⟩⟩
    have start : Kept (w.start tree store ⟨[], memory⟩) := by
      refine ⟨Searching.start p .null memory w tree store, ?_, ?_⟩
      · rw [w.start_store]
        exact .refl store
      · rw [w.start_exchanges]
        exact List.forall_mem_nil _
    obtain ⟨-, -, kept⟩ := w.run_keeps step start fuel
    show ∀ q ∈ p.asked memory (w.walk fuel tree store ⟨[], memory⟩).exchanges, q.Harmless tree store
    rw [Walker.walk, toRun_exchanges]
    intro q hq
    refine ⟨(kept q hq).intact complete, ?_⟩
    rw [Predicate.answer_of_asked hq]
    exact answers _ _ _

/-- Counts what it is asked, and answers with a new list, which is empty unless the node is a name. -/
def named : Predicate Nat Unit := fun v s n =>
  { outcome := .ok (.container .list s.size)
    store := s.push { items := if v.tag s = some "Name" then [v] else [] }
    memory := n + 1 }

theorem grows_named (v : Value) (s : Store) (n : Nat) : s.Grows (named v s n).store := by
  refine ⟨?_, fun r hr => s.cell_push_lt _ hr⟩
  simp [named]

def anything : Predicate Unit Unit := fun _ s m => { outcome := .ok (.atom (.bool true)), store := s, memory := m }

theorem admitted_usual (s : Store) : ({} : Settings).admitted s = .ok ["data", "position"] := by
  have sound : ({} : Settings).Sound s := ⟨[.text "data", .text "position"], ⟨rfl, rfl⟩, by decide⟩
  rw [Settings.admitted, Settings.check_of_sound sound]
  rfl

theorem findAll_usual (fuel : Nat) (debug : Bool) (p : Predicate σ ν) (tree : Value) (store : Store) (m : σ) :
    findAll fuel debug none p tree store m =
      (({} : Settings).alone ["data", "position"] debug (p.gather .null)).walk fuel tree store ⟨[], m⟩ := by
  rw [findAll, visit_function]
  simp only [Option.getD_none, admitted_usual]

theorem diamond_searches :
    let tree := Value.container .mapping 3
    let names := List.replicate 8 (Value.container .mapping 0)
    FirstOfAll named 0 (findAll 200 true none named tree diamond 0) (findFirst 200 true none named tree diamond 0) ∧
      (findFirst 200 true none named tree diamond 0).answer (·.found.head?) = some (.ok names.head?) ∧
      (∃ h : diamond.Acyclic, names = ((h.reached ["data", "position"] tree .enter).map (·.node)).filter
        fun v => v.tag diamond = some "Name") ∧
      ∃ fuel, (countAll fuel true none tree diamond : Run Nat Unit).answer id = some (.ok 10) := by
  intro tree names
  have layered : diamond.Layered := by decide
  have complete : tree.Complete diamond := layered.complete (by decide)
  obtain ⟨first, found⟩ := searches_agree named true none tree diamond 0
  obtain ⟨-, count⟩ := searches_agree anything true none tree diamond ()
  have answer : (findAll 200 true none named tree diamond 0).answer (·.found) = some (.ok names) := by
    rw [findAll_usual]
    decide +kernel
  have yes : ∀ q ∈ named.asked 0 (findAll 200 true none named tree diamond 0).exchanges,
      q.holds = decide (q.node.tag diamond = some "Name") := by
    rw [findAll_usual]
    decide +kernel
  refine ⟨first 200, ((first 200).found names answer).2, ?_, ?_⟩
  · have harmless := harmless_of_grows (p := named) grows_named (fun _ _ _ => ⟨_, rfl⟩) complete
    obtain ⟨order, unfolding, -, filtered⟩ :=
      ((found fun fuel => harmless fuel true none 0).1 ["data", "position"] (admitted_usual diamond)).2 200 names answer
    rw [unfolding.unique (layered.acyclic.unfolding tree)] at filtered
    exact ⟨layered.acyclic, filtered _ yes⟩
  · have harmless := harmless_of_grows (p := anything) (fun _ s _ => .refl s) (fun _ _ _ => ⟨_, rfl⟩) complete
    have always : ∀ fuel, ∀ q ∈ anything.asked () (findAll fuel true none anything tree diamond ()).exchanges,
        q.holds := by
      intro fuel q hq
      rw [Inquiry.holds, Predicate.answer_of_asked hq]
      rfl
    refine ((count fun fuel => harmless fuel true none ()).2 always 10).mpr ?_
    refine ⟨200, (findAll 200 true none anything tree diamond ()).memory.found, ?_, ?_⟩
    · show (findAll 200 true none anything tree diamond ()).answer (·.found) = _
      rw [findAll_usual]
      decide +kernel
    · rw [findAll_usual]
      decide +kernel

end TreeWalk
