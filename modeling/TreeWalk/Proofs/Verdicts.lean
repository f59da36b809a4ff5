/-
  TreeWalk.Proofs.Verdicts — whose answer decides about a visit, and what a walk returns.

  A visit ends with a signal. With `leave` it is the answer that `leave` gave just before; without, it is the answer of
  `enter`, which is read when the children were walked. A list that was returned is read as it stands at that time; so
  in the second case nobody may have edited it meanwhile (`Walker.Spares`).
  - `Visiting`: the stages of a visit, from its `enter` to the signal it hands back; `Visiting.step` and `visiting_run`
    lead from one to the next, and `verdict_of_over` tells the exchange that decided (`Walker.Verdict`).
  - `Hearing`: no signal that is going to be read asks to exit, except one that a callback just gave.
  - `exits_of_waiting`: so a walk that stops before its work is done stops at a call that asked for it.
  - `returned_run`: a walk returns the answer that asked to exit, the verdict on its root, or nothing; `returned_eq`
    tells from the exchanges which of them (`Walker.decider`).
-/

import TreeWalk.Proofs.EarlyStop
import TreeWalk.Proofs.Signals
import TreeWalk.Proofs.Splice

namespace TreeWalk

variable {σ ν : Type}

/-- The call that the next step makes does not edit the answers to the visits under way. With `leave` these are not read
    again, and the call may do with them what it likes. -/
def Walker.Spares (w : Walker σ ν) (s : State σ ν) : Prop :=
  w.leave = none → ∀ x, w.exchange? s = some x → ∀ o g, .visit o g ∈ s.stack →
    g.items x.reply.store = g.items s.store

/-- The signal is the answer given in an exchange, and it stands as it did when it was given. -/
structure Exchange.Told (x : Exchange σ ν) (g : Signal) (store : Store) : Prop where
  answer : ∃ v, x.reply.outcome = .ok v ∧ g = .ofValue v
  items : g.items store = g.items x.reply.store

namespace Exchange.Told

variable {x : Exchange σ ν} {g : Signal} {store : Store}

theorem exits (h : x.Told g store) : x.reply.exits = g.isExit store := by
  obtain ⟨⟨v, hv, rfl⟩, items⟩ := h
  rw [Signal.isExit_of_items items, Reply.exits, hv]

theorem later (h : x.Told g store) {store' : Store} (items : g.items store' = g.items store) : x.Told g store' :=
  ⟨h.answer, items.trans h.items⟩

end Exchange.Told

/-! ## Visits -/

/-- The exchange that decides about a visit of `o`, before which there were `n` exchanges: the call of `leave` that was
    made last, or, without `leave`, the call of `enter` that came first. -/
inductive Walker.Verdict (w : Walker σ ν) (o : Occurrence) (n : Nat) (xs : List (Exchange σ ν)) (x : Exchange σ ν) :
    Prop
  | leave (given : w.leave.isSome) (last : xs.getLast? = some x)
      (call : ∃ ancestors, x.call = { o with ancestors, phase := .leave })
  | enter (none : w.leave = none) (first : xs[n]? = some x) (call : x.call = { o with phase := .enter })

/-- The signal that a visit holds is its verdict already if there is no `leave`. -/
def Walker.Holds (w : Walker σ ν) (o : Occurrence) (n : Nat) (s : State σ ν) (g : Signal) : Prop :=
  w.leave = none → ∃ x, w.Verdict o n s.exchanges x ∧ x.Told g s.store

theorem Walker.Verdict.later {w : Walker σ ν} {o : Occurrence} {n : Nat} {xs ys : List (Exchange σ ν)}
    {x : Exchange σ ν} (h : w.Verdict o n xs x) (none : w.leave = none) (more : xs <+: ys) : w.Verdict o n ys x := by
  cases h with
  | leave given => simp [none] at given
  | enter _ first call =>
    obtain ⟨hn, -⟩ := List.getElem?_eq_some_iff.mp first
    refine .enter none ?_ call
    rw [← first]
    exact (List.prefix_iff_getElem?.mp more n hn).trans (List.getElem?_eq_getElem hn).symm

theorem Walker.Holds.later {w : Walker σ ν} {o : Occurrence} {n : Nat} {s t : State σ ν} {g : Signal}
    (h : w.Holds o n s g) (more : s.exchanges <+: t.exchanges)
    (items : w.leave = none → g.items t.store = g.items s.store) : w.Holds o n t g := by
  intro none
  obtain ⟨x, verdict, told⟩ := h none
  exact ⟨x, verdict.later none more, told.later (items none)⟩

/-- The stages of a visit of `o` on the stack `R`, once it was entered: its children are walked, `leave` is due, its
    signal is handed back, or the walk is over. -/
inductive Visiting (w : Walker σ ν) (o : Occurrence) (R : List Frame) (n : Nat) (s : State σ ν) : Prop
  | inside (ancestors : List Value) (g : Signal) (inner : List Frame)
      (stack : s.stack = inner ++ .visit { o with ancestors } g :: R) (holds : w.Holds o n s g)
  | leaving (ancestors : List Value) (g : Signal) (focus : s.focus = .leave { o with ancestors } g)
      (stack : s.stack = R) (holds : w.Holds o n s g)
  | returning {g : Signal} {x : Exchange σ ν} (focus : s.focus = .back g) (stack : s.stack = R)
      (verdict : w.Verdict o n s.exchanges x) (told : x.Told g s.store)
  | done {r : Outcome} (focus : s.focus = .done r)

section

variable {w : Walker σ ν} {o : Occurrence} {R : List Frame} {n : Nat} {s : State σ ν}

theorem holds_entered (length : s.exchanges.length = n) {r : Reply σ ν} {v : Value} (answer : r.outcome = .ok v)
    {F : Focus} {K : List Frame} :
    w.Holds o n ((w.after { o with phase := .enter } r s).go F K) (.ofValue v) := by
  intro none
  refine ⟨⟨{ o with phase := .enter }, s.store, r⟩, .enter none ?_ rfl, ⟨v, answer, rfl⟩, rfl⟩
  rw [go_exchanges, Walker.after_exchanges, ← length]
  exact List.getElem?_concat_length

theorem visiting_entered (hc : w.HasCallback) (focus : s.focus = .enter o) (stack : s.stack = R)
    (length : s.exchanges.length = n) : Visiting w o R n (w.step s) := by
  have move := w.step_moves s
  generalize w.step s = t at move ⊢
  cases move with
  | silent due move =>
    rw [focus] at due move
    -- There is no `enter`, so there is a `leave`.
    have enter : w.enter = none := Option.map_eq_none_iff.mp due
    cases move
    refine .inside o.ancestors .silent [_] (by rw [go_stack, stack]; rfl) fun none => ?_
    simp [Walker.HasCallback, enter, none] at hc
  | raises => exact .done rfl
  | exits => exact .done rfl
  | skips focus' _ _ answer =>
    rw [focus] at focus'
    cases focus'
    exact .leaving _ _ rfl stack (holds_entered length answer)
  | @descends f o' v r focus' _ _ answer =>
    rw [focus] at focus'
    cases focus'
    refine .inside r.ancestors (.ofValue v) [.fields o.node r.ancestors (o.node.ownNames r.store)] ?_
      (holds_entered length answer)
    rw [go_stack, stack]
    rfl
  | leaves focus' =>
    rw [focus] at focus'
    cases focus'

theorem Visiting.step (h : Visiting w o R n s) (spares : w.Spares s)
    (going : ∀ g, s.focus = .back g → s.stack ≠ R) : Visiting w o R n (w.step s) := by
  cases h with
  | inside ancestors g inner stack holds =>
    -- A call above the visit leaves its signal alone.
    have called : ∀ {f c}, w.due s.focus = some (f, c) → ∀ {r}, f c s.store s.memory = r → ∀ {F K},
        w.Holds o n ((w.after c r s).go F K) g := by
      intro f c due r reply F K
      refine holds.later ?_ fun none => ?_
      · rw [go_exchanges, Walker.after_exchanges]
        exact List.prefix_append _ _
      · refine spares none _ (w.exchange?_of_due due reply) { o with ancestors } g ?_
        rw [stack]
        exact List.mem_append_right _ List.mem_cons_self
    have move := w.step_moves s
    generalize w.step s = t at move ⊢
    cases move with
    | silent due move =>
      rcases move.above stack with ⟨-, rfl, rfl⟩ | ⟨r, rfl⟩ | ⟨inner', above⟩
      · exact .leaving ancestors g rfl rfl holds
      · exact .done rfl
      · exact .inside ancestors g inner' above.stack holds
    | raises => exact .done rfl
    | exits => exact .done rfl
    | skips focus callback reply =>
      exact .inside ancestors g inner stack (called (by rw [focus, w.due_of_enter callback]) reply)
    | @descends f o' v r focus callback reply =>
      refine .inside ancestors g (.fields o'.node r.ancestors (o'.node.ownNames r.store) ::
        .visit { o' with ancestors := r.ancestors } (.ofValue v) :: inner) ?_
        (called (by rw [focus, w.due_of_enter callback]) reply)
      rw [go_stack, stack]
      rfl
    | leaves focus callback reply =>
      exact .inside ancestors g inner stack (called (by rw [focus, w.due_of_leave callback]) reply)
  | leaving ancestors g focus stack holds =>
    have move := w.step_moves s
    generalize w.step s = t at move ⊢
    cases move with
    | silent due move =>
      rw [focus] at due move
      obtain ⟨x, verdict, told⟩ := holds (Option.map_eq_none_iff.mp due)
      cases move
      exact .returning rfl stack verdict told
    | raises => exact .done rfl
    | @leaves f o' g' v r focus' callback reply answer =>
      rw [focus] at focus'
      cases focus'
      refine .returning (x := ⟨_, s.store, r⟩) rfl stack (.leave (by rw [callback]; rfl) ?_ ⟨ancestors, rfl⟩)
        ⟨⟨v, answer, rfl⟩, rfl⟩
      rw [go_exchanges, Walker.after_exchanges, List.getLast?_concat]
    | exits focus' => rw [focus] at focus'; cases focus'
    | skips focus' => rw [focus] at focus'; cases focus'
    | descends focus' => rw [focus] at focus'; cases focus'
  | returning focus stack => exact absurd stack (going _ focus)
  | done focus =>
    rw [w.step_done focus]
    exact .done focus

/-- After `m` steps the signal of the visit that `s` is about to make is handed back, for the first time. -/
structure Walker.Over (w : Walker σ ν) (s : State σ ν) (m : Nat) (g : Signal) : Prop where
  focus : (w.run m s).focus = .back g
  stack : (w.run m s).stack = s.stack
  first : ∀ k < m, ∀ g', (w.run k s).focus = .back g' → (w.run k s).stack ≠ s.stack

theorem visiting_run (hc : w.HasCallback) (focus : s.focus = .enter o) {m : Nat}
    (spares : ∀ k < m + 1, w.Spares (w.run k s))
    (first : ∀ k < m + 1, ∀ g, (w.run k s).focus = .back g → (w.run k s).stack ≠ s.stack) :
    Visiting w o s.stack s.exchanges.length (w.run (m + 1) s) := by
  induction m with
  | zero =>
    rw [w.run_one]
    exact visiting_entered hc focus rfl rfl
  | succ m ih =>
    rw [w.run_succ]
    exact (ih (fun k hk => spares k (by omega)) (fun k hk => first k (by omega))).step (spares _ (by omega))
      (first _ (by omega))

/-- A visit that is over hands back its verdict, as it stood when it was given. -/
theorem verdict_of_over (hc : w.HasCallback) (focus : s.focus = .enter o) {m : Nat} {g : Signal} (ended : w.Over s m g)
    (spares : ∀ k < m, w.Spares (w.run k s)) :
    ∃ x, w.Verdict o s.exchanges.length (w.run m s).exchanges x ∧ x.Told g (w.run m s).store := by
  obtain ⟨hfocus, hstack, first⟩ := ended
  cases m with
  | zero =>
    rw [Walker.run, focus] at hfocus
    cases hfocus
  | succ m =>
    cases visiting_run hc focus spares first with
    | inside _ _ _ stack =>
      rw [hstack] at stack
      have := congrArg List.length stack
      simp only [List.length_append, List.length_cons] at this
      omega
    | leaving _ _ focus' =>
      rw [hfocus] at focus'
      cases focus'
    | returning focus' _ verdict told =>
      rw [hfocus] at focus'
      cases focus'
      exact ⟨_, verdict, told⟩
    | done focus' =>
      rw [hfocus] at focus'
      cases focus'

end

/-! ## Signals to exit -/

/-- No signal that is going to be read asks to exit, unless a callback just gave it. -/
structure Hearing (w : Walker σ ν) (s : State σ ν) : Prop where
  visits : w.leave = none → ∀ o g, .visit o g ∈ s.stack → g.isExit s.store = false
  leave : w.leave = none → ∀ o g, s.focus = .leave o g → g.isExit s.store = false
  back : ∀ g, s.focus = .back g →
    g.isExit s.store = false ∨ ∃ x, s.exchanges.getLast? = some x ∧ x.Told g s.store

theorem Silent.left {reserved : List String} {store : Store} {F : Focus} {K K' : List Frame} {o : Occurrence}
    {g : Signal} (h : Silent reserved store F K (.leave o g) K') : .visit o g ∈ K := by
  cases h
  exact List.mem_cons_self

def State.Waiting (s : State σ ν) : Prop := s.stack ≠ [] ∨ ∃ o, s.focus = .enter o

section

variable {w : Walker σ ν} {s : State σ ν}

theorem Hearing.step (h : Hearing w s) (spares : w.Spares s) : Hearing w (w.step s) := by
  -- After a call the visits under way still do not ask to exit.
  have kept : ∀ {x}, w.exchange? s = some x → w.leave = none → ∀ o g, .visit o g ∈ s.stack →
      g.isExit x.reply.store = false := by
    intro x hx none o g hg
    rw [Signal.isExit_of_items (spares none x hx o g hg)]
    exact h.visits none o g hg
  have move := w.step_moves s
  generalize w.step s = t at move ⊢
  cases move with
  | @silent F K due move =>
    refine ⟨fun none o g hg => ?_, fun none o g hF => ?_, fun g hF => .inl ?_⟩
    · rcases move.visit_mem hg with rfl | hg
      · rfl
      · exact h.visits none o g hg
    · rw [go_focus] at hF
      subst hF
      exact h.visits none o g move.left
    · rw [go_focus] at hF
      subst hF
      obtain ⟨o, hfocus, -⟩ := move.back
      rw [hfocus] at due
      exact h.leave (Option.map_eq_none_iff.mp due) o g hfocus
  | raises => exact ⟨nofun, nofun, nofun⟩
  | exits => exact ⟨nofun, nofun, nofun⟩
  | skips focus callback reply answer exit =>
    have hkept := kept (w.exchange?_enter focus callback reply)
    refine ⟨hkept, fun _ o g hF => ?_, nofun⟩
    cases hF
    exact exit
  | descends focus callback reply answer exit =>
    refine ⟨fun none o g hg => ?_, nofun, nofun⟩
    simp only [go_stack, List.mem_cons, reduceCtorEq, false_or, Frame.visit.injEq] at hg
    rcases hg with ⟨-, rfl⟩ | hg
    · exact exit
    · exact kept (w.exchange?_enter focus callback reply) none o g hg
  | @leaves f o g v r focus callback reply answer =>
    have hkept := kept (w.exchange?_leave focus callback reply)
    refine ⟨hkept, nofun, fun g' hF => .inr ?_⟩
    cases hF
    refine ⟨⟨{ o with phase := .leave }, s.store, r⟩, ?_, ⟨v, answer, rfl⟩, rfl⟩
    rw [go_exchanges, Walker.after_exchanges, List.getLast?_concat]

theorem hearing_start (w : Walker σ ν) (tree : Value) (store : Store) (memory : σ) :
    Hearing w (w.start tree store memory) := by
  unfold Walker.start
  split
  · exact ⟨nofun, nofun, nofun⟩
  · split
    · exact ⟨nofun, nofun, nofun⟩
    · exact ⟨fun _ o g hg => (by cases List.mem_singleton.mp hg), nofun, nofun⟩

theorem hearing_run {tree : Value} {store : Store} {memory : σ} {n : Nat}
    (spares : ∀ k < n, w.Spares (w.run k (w.start tree store memory))) :
    Hearing w (w.run n (w.start tree store memory)) := by
  induction n with
  | zero => exact hearing_start w tree store memory
  | succ n ih =>
    rw [w.run_succ]
    exact (ih fun k hk => spares k (by omega)).step (spares n (by omega))

/-- A walk that stops while something is left stops at a call that asked to exit. -/
theorem exits_of_waiting (h : Hearing w s) (sound : s.Sound) (going : ∀ r, s.focus ≠ .done r) (waiting : s.Waiting)
    {g : Signal} (stops : (w.step s).focus = .done (.returned g)) :
    ∃ x, (w.step s).exchanges.getLast? = some x ∧ x.reply.exits = true ∧ x.Told g (w.step s).store := by
  have move := w.step_moves s
  generalize w.step s = t at move stops ⊢
  cases move with
  | silent due move =>
    rw [go_focus] at stops
    subst stops
    have enter : ∀ o, s.focus ≠ .enter o := by
      intro o hfocus
      rw [hfocus] at move
      cases move
    have stack : s.stack ≠ [] := waiting.resolve_right fun ⟨o, hfocus⟩ => enter o hfocus
    rcases move.ending going sound with ⟨-, hnil, -⟩ | ⟨g', hback, hnil | exit, hg⟩
    · exact absurd hnil stack
    · exact absurd hnil stack
    · cases hg
      rcases h.back g hback with other | ⟨x, last, told⟩
      · rw [other] at exit
        cases exit
      · exact ⟨x, last, told.exits.trans exit, told⟩
  | raises => cases stops
  | @exits f o v r focus callback reply answer exit =>
    cases stops
    refine ⟨⟨{ o with phase := .enter }, s.store, r⟩, ?_, ?_, ⟨v, answer, rfl⟩, rfl⟩
    · rw [go_exchanges, Walker.after_exchanges, List.getLast?_concat]
    · rw [Reply.exits, answer]
      exact exit
  | skips => cases stops
  | descends => cases stops
  | leaves => cases stops

end

/-! ## What a walk returns -/

/-- At the bottom are the fields of a root that is not visited, until they are all walked. -/
def Grounded (tree : Value) (F : Focus) (K : List Frame) : Prop :=
  (∃ names, K.getLast? = some (.fields tree [] names)) ∨ (F = .next ∧ K = []) ∨ ∃ r, F = .done r

theorem Grounded.bottom {tree : Value} {F : Focus} {K : List Frame} (h : Grounded tree F K) (next : F ≠ .next)
    (going : ∀ r, F ≠ .done r) : ∃ names, K.getLast? = some (.fields tree [] names) := by
  rcases h with h | ⟨h, -⟩ | ⟨r, h⟩
  · exact h
  · exact absurd h next
  · exact absurd h (going r)

theorem Silent.grounded {reserved : List String} {store : Store} {F F' : Focus} {K K' : List Frame} {tree : Value}
    (h : Silent reserved store F K F' K') (hK : Grounded tree F K) : Grounded tree F' K' := by
  rcases hK with ⟨names, bottom⟩ | ⟨rfl, rfl⟩ | ⟨r, rfl⟩
  · unfold Grounded
    cases h <;> grind
  · cases h
    exact .inr (.inr ⟨_, rfl⟩)
  · cases h
    exact .inr (.inr ⟨r, rfl⟩)

theorem Moves.grounded {w : Walker σ ν} {tree : Value} {s t : State σ ν} (h : Moves w s t)
    (hs : Grounded tree s.focus s.stack) : Grounded tree t.focus t.stack := by
  cases h with
  | silent due move => exact move.grounded hs
  | raises => exact .inr (.inr ⟨_, rfl⟩)
  | exits => exact .inr (.inr ⟨_, rfl⟩)
  | skips focus => exact .inl (hs.bottom (by simp [focus]) (by simp [focus]))
  | descends focus =>
    obtain ⟨names, bottom⟩ := hs.bottom (by simp [focus]) (by simp [focus])
    exact .inl ⟨names, by simp [List.getLast?_cons, bottom]⟩
  | leaves focus => exact .inl (hs.bottom (by simp [focus]) (by simp [focus]))

namespace Walker

variable {w : Walker σ ν}

theorem exists_last_step {s : State σ ν} (going : ∀ r, s.focus ≠ .done r) {n : Nat} {r : Outcome}
    (done : (w.run n s).focus = .done r) :
    ∃ k < n, (∀ r, (w.run k s).focus ≠ .done r) ∧ w.step (w.run k s) = w.run n s := by
  induction n with
  | zero => exact absurd done (going r)
  | succ n ih =>
    by_cases earlier : ∃ r, (w.run n s).focus = .done r
    · obtain ⟨r', hr'⟩ := earlier
      have same : w.run (n + 1) s = w.run n s := by rw [w.run_succ, w.step_done hr']
      rw [same] at done ⊢
      obtain ⟨k, hk, last⟩ := ih done
      exact ⟨k, by omega, last⟩
    · exact ⟨n, by omega, not_exists.mp earlier, (w.run_succ n s).symm⟩

theorem stack_ne_nil_of_back {s : State σ ν} {j k : Nat} (hjk : j < k) (going : ∀ r, (w.run k s).focus ≠ .done r)
    {g : Signal} (back : (w.run j s).focus = .back g) : (w.run j s).stack ≠ [] := by
  intro hnil
  have done : (w.run (j + 1) s).focus = .done (.returned g) := by
    rw [w.run_succ]
    simp only [step, back, backStep, hnil, State.finish]
  obtain ⟨i, rfl⟩ := Nat.exists_eq_add_of_le hjk
  rw [w.run_add, w.run_of_done done] at going
  exact going _ done

theorem returns_of_resting {s : State σ ν} (going : ∀ r, s.focus ≠ .done r) (resting : ¬ s.Waiting) {g : Signal}
    (stops : (w.step s).focus = .done (.returned g)) :
    s.stack = [] ∧ (s.focus = .next ∧ g = .silent ∨ s.focus = .back g) ∧ w.step s = s.go (.done (.returned g)) [] := by
  obtain ⟨hstack, henter⟩ : s.stack = [] ∧ ¬ ∃ o, s.focus = .enter o := by
    simpa only [State.Waiting, not_or, not_not] using resting
  have move := w.step_moves s
  generalize w.step s = t at move stops ⊢
  cases move with
  | @silent F K due move =>
    rw [go_focus] at stops
    subst stops
    generalize s.focus = F₀ at *
    rw [hstack] at move
    cases move with
    | stop => exact ⟨hstack, .inl ⟨rfl, rfl⟩, rfl⟩
    | rootOver => exact ⟨hstack, .inr rfl, rfl⟩
    | rest => exact absurd rfl (going _)
  | raises => cases stops
  | exits focus => exact absurd ⟨_, focus⟩ henter
  | skips => cases stops
  | descends => cases stops
  | leaves => cases stops

section

variable {tree : Value} {store : Store} {memory : σ} {k n : Nat} {g : Signal}

theorem verdict_of_resting (hc : w.HasCallback) (hn : tree.isNode store = true)
    (spares : ∀ j < k, w.Spares (w.run j (w.start tree store memory)))
    (going : ∀ r, (w.run k (w.start tree store memory)).focus ≠ .done r)
    (resting : ¬ (w.run k (w.start tree store memory)).Waiting)
    (returns : (w.run k (w.start tree store memory)).focus = .next ∧ g = .silent ∨
      (w.run k (w.start tree store memory)).focus = .back g) :
    ∃ x, w.Verdict ⟨tree, none, none, []⟩ 0 (w.run k (w.start tree store memory)).exchanges x ∧
      x.Told g (w.run k (w.start tree store memory)).store := by
  have start := w.start_node hc hn memory
  have focus : (w.start tree store memory).focus = .enter ⟨tree, none, none, []⟩ := by rw [start]
  have stack : (w.start tree store memory).stack = [] := by rw [start]
  obtain _ | k := k
  · exact absurd (.inr ⟨_, focus⟩) resting
  have first : ∀ j < k + 1, ∀ g', (w.run j (w.start tree store memory)).focus = .back g' →
      (w.run j (w.start tree store memory)).stack ≠ (w.start tree store memory).stack := by
    intro j hj g' back
    rw [stack]
    exact stack_ne_nil_of_back hj going back
  have stage := visiting_run hc focus (fun j hj => spares j hj) first
  rw [stack, w.start_exchanges] at stage
  cases stage with
  | inside _ _ inner hstack => exact absurd (.inl (by simp [hstack])) resting
  | leaving _ _ hfocus => simp [hfocus] at returns
  | returning hfocus _ verdict told =>
    have same := returns.resolve_left (by simp [hfocus])
    rw [hfocus] at same
    cases same
    exact ⟨_, verdict, told⟩
  | done hdone => exact absurd hdone (going _)

theorem silent_of_resting (hc : w.HasCallback) (hn : tree.isNode store = false)
    (going : ∀ r, (w.run k (w.start tree store memory)).focus ≠ .done r)
    (resting : ¬ (w.run k (w.start tree store memory)).Waiting)
    (returns : (w.run k (w.start tree store memory)).focus = .next ∧ g = .silent ∨
      (w.run k (w.start tree store memory)).focus = .back g) : g = .silent := by
  have grounded : Grounded tree (w.run k (w.start tree store memory)).focus
      (w.run k (w.start tree store memory)).stack := by
    refine w.run_keeps (P := fun t => Grounded tree t.focus t.stack) (fun t ht => (w.step_moves t).grounded ht) ?_ k
    rw [w.start_other hc hn]
    exact .inl ⟨_, rfl⟩
  rcases returns with ⟨-, silent⟩ | back
  · exact silent
  · obtain ⟨names, bottom⟩ := grounded.bottom (by simp [back]) going
    refine absurd (.inl fun hnil => ?_) resting
    simp [hnil] at bottom

/-- A walk that returns gives back the answer that asked to exit; or else the verdict on its root, if this is a node,
    and nothing if it is not. -/
theorem returned_run (hc : w.HasCallback) (spares : ∀ j < n, w.Spares (w.run j (w.start tree store memory)))
    (done : (w.run n (w.start tree store memory)).focus = .done (.returned g)) :
    let s := w.run n (w.start tree store memory)
    (∃ x, s.exchanges.getLast? = some x ∧ x.reply.exits = true ∧ x.Told g s.store) ∨
      (tree.isNode store = true ∧ ∃ x, w.Verdict ⟨tree, none, none, []⟩ 0 s.exchanges x ∧ x.Told g s.store) ∨
        (tree.isNode store = false ∧ g = .silent) := by
  intro s
  have going : ∀ r, (w.start tree store memory).focus ≠ .done r := by
    cases hn : tree.isNode store with
    | true => simp [w.start_node hc hn]
    | false => simp [w.start_other hc hn]
  obtain ⟨k, hk, before, last⟩ := exists_last_step going done
  have hs : s = w.step (w.run k (w.start tree store memory)) := last.symm
  rw [← last] at done
  by_cases waiting : (w.run k (w.start tree store memory)).Waiting
  · refine .inl ?_
    rw [hs]
    exact exits_of_waiting (hearing_run fun j hj => spares j (by omega)) (w.sound_run tree store memory k) before
      waiting done
  · obtain ⟨-, returns, hlast⟩ := returns_of_resting before waiting done
    rw [hlast] at hs
    rw [hs]
    refine .inr ?_
    cases hn : tree.isNode store with
    | true => exact .inl ⟨rfl, verdict_of_resting hc hn (fun j hj => spares j (by omega)) before waiting returns⟩
    | false => exact .inr ⟨rfl, silent_of_resting hc hn before waiting returns⟩

/-- A walk that returns gives back the answer of a call that asked to exit, if there is one. -/
theorem told_of_exits (done : (w.run n (w.start tree store memory)).focus = .done (.returned g)) {x : Exchange σ ν}
    (hx : (w.run n (w.start tree store memory)).exchanges[k]? = some x) (exits : x.reply.exits = true) :
    x.Told g (w.run n (w.start tree store memory)).store := by
  obtain ⟨m, ended, left, -⟩ := done_of_stopping_call hx (Reply.stops_of_exits exits)
  have same := run_eq_of_done ended done
  rw [same] at ended left
  cases answer : x.reply.outcome with
  | error e => simp [Reply.exits, answer] at exits
  | ok v =>
    rw [done, answer] at ended
    cases ended
    exact ⟨⟨v, answer, rfl⟩, by rw [left]⟩

end

end Walker

def Exchange.signal (x : Exchange σ ν) : Signal :=
  match x.reply.outcome with
  | .ok v => .ofValue v
  | .error _ => .silent

theorem Exchange.signal_of_ok {x : Exchange σ ν} {v : Value} (h : x.reply.outcome = .ok v) : x.signal = .ofValue v := by
  rw [signal, h]

namespace Walker

variable {w : Walker σ ν}

/-- The exchange whose answer a walk returns. `node` tells whether its root is a node. -/
def decider (w : Walker σ ν) (node : Bool) (xs : List (Exchange σ ν)) : Option (Exchange σ ν) :=
  xs.getLast?.bind fun x =>
    if x.reply.exits then some x
    else if node then (if w.leave.isSome then some x else xs.head?)
    else none

theorem start_of_nothing (hc : ¬ w.HasCallback) (tree : Value) (store : Store) (memory : σ) :
    (w.start tree store memory).focus = .done (.returned .silent) := by
  have enter : w.enter = none := Option.not_isSome_iff_eq_none.mp fun h => hc (.inl h)
  have leave : w.leave = none := Option.not_isSome_iff_eq_none.mp fun h => hc (.inr h)
  simp [start, enter, leave, State.finish]

theorem hasCallback_of_focus {tree : Value} {store : Store} {memory : σ} {n : Nat} {F : Focus}
    (focus : (w.run n (w.start tree store memory)).focus = F) (going : ∀ r, F ≠ .done r) : w.HasCallback := by
  by_contra none
  have start := start_of_nothing none tree store memory
  rw [w.run_of_done start, start] at focus
  exact going _ focus.symm

theorem returned_eq {tree : Value} {store : Store} {memory : σ} {n : Nat} {g : Signal}
    (spares : ∀ j < n, w.Spares (w.run j (w.start tree store memory)))
    (done : (w.run n (w.start tree store memory)).focus = .done (.returned g)) :
    g = ((w.decider (tree.isNode store) (w.run n (w.start tree store memory)).exchanges).map Exchange.signal).getD
      .silent := by
  by_cases hc : w.HasCallback
  · have returned := returned_run hc spares done
    cases hlast : (w.run n (w.start tree store memory)).exchanges.getLast? with
    | none =>
      have hnil := List.getLast?_eq_none_iff.mp hlast
      simp only [hnil, decider] at returned ⊢
      rcases returned with ⟨x, hx, -⟩ | ⟨-, x, verdict, -⟩ | ⟨-, silent⟩
      · cases hx
      · cases verdict with
        | leave _ last => cases last
        | enter _ first => cases first
      · exact silent
    | some y =>
      simp only [decider, hlast, Option.bind_some]
      cases exits : y.reply.exits with
      | true =>
        rw [List.getLast?_eq_getElem?] at hlast
        obtain ⟨⟨v, hv, rfl⟩, -⟩ := told_of_exits done hlast exits
        simp [Exchange.signal_of_ok hv]
      | false =>
        rcases returned with ⟨x, hx, hexits, -⟩ | ⟨hn, x, verdict, told⟩ | ⟨hn, silent⟩
        · cases hlast.symm.trans hx
          rw [exits] at hexits
          cases hexits
        · obtain ⟨⟨v, hv, rfl⟩, -⟩ := told
          cases verdict with
          | leave given last =>
            cases hlast.symm.trans last
            simp [hn, given, Exchange.signal_of_ok hv]
          | enter none first =>
            rw [← List.head?_eq_getElem?] at first
            simp [hn, none, first, Exchange.signal_of_ok hv]
        · simp [hn, silent]
  · have start := start_of_nothing hc tree store memory
    rw [w.run_of_done start] at done ⊢
    rw [start] at done
    cases done
    simp [decider, w.start_exchanges]

end Walker

end TreeWalk
