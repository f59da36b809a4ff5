/-
  TreeWalk.Proofs.Courses — how a visit goes, whatever its callbacks do.

  A visit that has begun is at work on top of the stack it found (`Busy`): its node is entered, its children are walked,
  its node is left, and its signal is handed back to the frame below. Nothing below is touched before that. A visit may
  last forever; else it comes to its end (`Walker.Over`), or the walk stops within it, and then a callback failed or an
  action to exit was read (`Walker.Stops`).
  - `step_above`: one step above frames that wait.
  - `inside_step`, `leaves_or_stays`: what lies on an open visit goes on until the visit is left.
  - `Busy.step`, `visit_course`: one step of a visit, and any number of them.
  - `gives_of_over`: the signal that is handed back is what the callback returned that decides about the visit.
-/

import TreeWalk.Proofs.Verdicts

namespace TreeWalk

variable {σ ν : Type}

/-! ## Walks that stop -/

theorem Focus.next_ne_done (r : Outcome) : Focus.next ≠ .done r := by
  intro done
  cases done

/-- The next step stops the walk before its time: the callback that is called fails, or an action to exit is read. -/
inductive Walker.Stops (w : Walker σ ν) (s : State σ ν) : Prop
  | fault {x : Exchange σ ν} {e : Fault} (call : w.exchange? s = some x) (answer : x.reply.outcome = .error e)
  | exitEntering {x : Exchange σ ν} {v : Value} (call : w.exchange? s = some x) (phase : x.call.phase = .enter)
      (answer : x.reply.outcome = .ok v) (exit : (Signal.ofValue v).isExit x.reply.store = true)
  | exitBack {g : Signal} (focus : s.focus = .back g) (exit : g.isExit s.store = true)

section

variable {w : Walker σ ν} {s : State σ ν}

theorem Walker.Stops.done (h : w.Stops s) : ∃ r, (w.step s).focus = .done r := by
  cases h with
  | @fault x e call answer =>
    obtain ⟨⟨f, c⟩, due, rfl⟩ := Option.map_eq_some_iff.mp call
    have hstep := Walker.step_called due
    simp only at answer
    simp only [answer] at hstep
    refine ⟨.raised e, ?_⟩
    rw [hstep]
    cases s.focus <;> rfl
  | @exitEntering x v call phase answer exit =>
    obtain ⟨⟨f, c⟩, due, rfl⟩ := Option.map_eq_some_iff.mp call
    have hstep := Walker.step_called due
    simp only at answer phase exit
    refine ⟨.returned (.ofValue v), ?_⟩
    obtain ⟨o, hf, -, rfl⟩ | ⟨o, g, -, -, rfl⟩ := w.due_cases due
    · simp only [hstep, hf, heed, answer, exit, if_true, go_focus]
    · cases phase
  | @exitBack g focus exit =>
    refine ⟨.returned g, ?_⟩
    rw [w.step_exit focus exit]
    rfl

theorem stops_of_done (sound : s.Sound) (going : ∀ r, s.focus ≠ .done r) (waiting : s.stack ≠ []) {r : Outcome}
    (done : (w.step s).focus = .done r) : w.Stops s := by
  have move := w.step_moves s
  generalize w.step s = t at move done
  cases move with
  | silent due move =>
    rw [go_focus] at done
    subst done
    rcases move.ending going sound with ⟨-, hnil, -⟩ | ⟨g, focus, hnil | exit, -⟩
    · exact absurd hnil waiting
    · exact absurd hnil waiting
    · exact .exitBack focus exit
  | raises due reply answer => exact .fault (w.exchange?_of_due due reply) answer
  | exits focus callback reply answer exit =>
    exact .exitEntering (w.exchange?_enter focus callback reply) rfl answer exit
  | skips => cases done
  | descends => cases done
  | leaves => cases done

theorem Walker.sound_after (w : Walker σ ν) (sound : s.Sound) (n : Nat) : (w.run n s).Sound :=
  w.run_keeps (P := State.Sound) (fun t h => (w.step_moves t).sound h) sound n

/-! ## Above an open visit -/

/-- A step above frames that wait stops the walk, leaves them waiting, or is a silent move. -/
theorem step_above {inner below : List Frame} (sound : s.Sound) (going : ∀ r, s.focus ≠ .done r)
    (stack : s.stack = inner ++ below) (waiting : below ≠ []) :
    w.Stops s ∨ ((∀ r, (w.step s).focus ≠ .done r) ∧
      ((∃ inner', (w.step s).stack = inner' ++ below) ∨
        ∃ F K, w.step s = s.go F K ∧ Silent w.reserved s.store s.focus s.stack F K)) := by
  have hne : s.stack ≠ [] := by
    rw [stack]
    exact List.append_ne_nil_of_right_ne_nil inner waiting
  by_cases hdone : ∃ r, (w.step s).focus = .done r
  · obtain ⟨r, hr⟩ := hdone
    exact .inl (stops_of_done sound going hne hr)
  have going' := not_exists.mp hdone
  refine .inr ⟨going', ?_⟩
  have move := w.step_moves s
  generalize w.step s = t at move going' ⊢
  cases move with
  | silent due move => exact .inr ⟨_, _, rfl, move⟩
  | raises => exact absurd rfl (going' _)
  | exits => exact absurd rfl (going' _)
  | skips => exact .inl ⟨inner, stack⟩
  | @descends f o v r =>
    refine .inl ⟨.fields o.node r.ancestors (o.node.ownNames r.store) ::
      .visit { o with ancestors := r.ancestors } (.ofValue v) :: inner, ?_⟩
    rw [go_stack, stack]
    rfl
  | leaves => exact .inl ⟨inner, stack⟩

section

variable {o : Occurrence} {g : Signal} {K : List Frame}

theorem inside_step {inner : List Frame} (sound : s.Sound) (going : ∀ r, s.focus ≠ .done r)
    (stack : s.stack = inner ++ .visit o g :: K) :
    w.Stops s ∨ w.step s = s.go (.leave o g) K ∨
      ((∀ r, (w.step s).focus ≠ .done r) ∧ ∃ inner', (w.step s).stack = inner' ++ .visit o g :: K) := by
  rcases step_above sound going stack (List.cons_ne_nil _ _) with stops | ⟨going', kept | ⟨F, K', step, move⟩⟩
  · exact .inl stops
  · exact .inr (.inr ⟨going', kept⟩)
  · rw [step] at going' ⊢
    rcases move.above stack with ⟨-, rfl, rfl⟩ | ⟨r, rfl⟩ | ⟨inner', above⟩
    · exact .inr (.inl rfl)
    · exact absurd rfl (going' r)
    · exact .inr (.inr ⟨going', inner', above.stack⟩)

/-- So an open visit is left in the end, unless the walk stops above it or stays there. -/
theorem leaves_or_stays (inner : List Frame) (sound : s.Sound) (going : ∀ r, s.focus ≠ .done r)
    (stack : s.stack = inner ++ .visit o g :: K) (n : Nat) :
    (∃ m < n, w.Stops (w.run m s)) ∨ (∃ m ≤ n, (w.run m s).focus = .leave o g ∧ (w.run m s).stack = K) ∨
      ((∀ r, (w.run n s).focus ≠ .done r) ∧ ∃ inner', (w.run n s).stack = inner' ++ .visit o g :: K) := by
  induction n with
  | zero => exact .inr (.inr ⟨going, inner, stack⟩)
  | succ n ih =>
    rcases ih with ⟨m, hm, stops⟩ | ⟨m, hm, left⟩ | ⟨going', inner', stack'⟩
    · exact .inl ⟨m, by omega, stops⟩
    · exact .inr (.inl ⟨m, by omega, left⟩)
    · rw [w.run_succ]
      rcases inside_step (w.sound_after sound n) going' stack' with stops | left | stays
      · exact .inl ⟨n, by omega, stops⟩
      · refine .inr (.inl ⟨n + 1, Nat.le_refl _, ?_⟩)
        rw [w.run_succ, left]
        exact ⟨rfl, rfl⟩
      · exact .inr (.inr stays)

end

end

/-! ## Visits -/

/-- The signal is what the callback returned that decides about the visit of `o`, which began after `n` exchanges. -/
def Walker.Gives (w : Walker σ ν) (o : Occurrence) (n : Nat) (s : State σ ν) (g : Signal) : Prop :=
  ∃ x v, w.Verdict o n s.exchanges x ∧ x.reply.outcome = .ok v ∧ g = .ofValue v

/-- The visit of `o` is at work on the stack `K`. Without `leave`, its signal is already that of `enter`. -/
inductive Busy (w : Walker σ ν) (o : Occurrence) (K : List Frame) (n : Nat) (s : State σ ν) : Prop
  | entering (focus : s.focus = .enter o) (stack : s.stack = K) (length : s.exchanges.length = n)
  | inside (ancestors : List Value) (g : Signal) (inner : List Frame)
      (stack : s.stack = inner ++ .visit { o with ancestors } g :: K) (going : ∀ r, s.focus ≠ .done r)
      (gives : w.leave = none → w.Gives o n s g)
  | leaving {ancestors : List Value} {g : Signal} (focus : s.focus = .leave { o with ancestors } g)
      (stack : s.stack = K) (gives : w.leave = none → w.Gives o n s g)
  | returning {g : Signal} (focus : s.focus = .back g) (stack : s.stack = K) (gives : w.Gives o n s g)

section

variable {w : Walker σ ν} {o : Occurrence} {K : List Frame} {n : Nat} {s t : State σ ν} {g : Signal}

theorem Walker.Gives.later (h : w.Gives o n s g) (none : w.leave = none) (more : s.exchanges <+: t.exchanges) :
    w.Gives o n t g := by
  obtain ⟨x, v, verdict, answer, hg⟩ := h
  exact ⟨x, v, verdict.later none more, answer, hg⟩

theorem busy_entered (hc : w.HasCallback) (focus : s.focus = .enter o) (stack : s.stack = K)
    (length : s.exchanges.length = n) : w.Stops s ∨ Busy w o K n (w.step s) := by
  -- What `enter` returned is the verdict if there is no `leave`.
  have gives : ∀ {r : Reply σ ν} {v : Value} {F : Focus} {L : List Frame}, r.outcome = .ok v → w.leave = none →
      w.Gives o n ((w.after { o with phase := .enter } r s).go F L) (.ofValue v) := by
    intro r v F L answer none
    obtain ⟨x, verdict, ⟨u, hu, hg⟩, -⟩ := holds_entered (F := F) (K := L) length answer none
    exact ⟨x, u, verdict, hu, hg⟩
  have move := w.step_moves s
  generalize w.step s = t at move ⊢
  cases move with
  | silent due move =>
    rw [focus] at due move
    have enter : w.enter = none := Option.map_eq_none_iff.mp due
    cases move
    refine .inr (.inside o.ancestors .silent [_] (by rw [go_stack, stack]; rfl) Focus.next_ne_done fun none => ?_)
    simp [Walker.HasCallback, enter, none] at hc
  | raises due reply answer => exact .inl (.fault (w.exchange?_of_due due reply) answer)
  | exits focus' callback reply answer exit =>
    exact .inl (.exitEntering (w.exchange?_enter focus' callback reply) rfl answer exit)
  | skips focus' _ _ answer =>
    rw [focus] at focus'
    cases focus'
    exact .inr (.leaving rfl stack (gives answer))
  | @descends f o' v r focus' _ _ answer =>
    rw [focus] at focus'
    cases focus'
    refine .inr (.inside r.ancestors (.ofValue v) [.fields o.node r.ancestors (o.node.ownNames r.store)] ?_
      Focus.next_ne_done (gives answer))
    rw [go_stack, stack]
    rfl
  | leaves focus' =>
    rw [focus] at focus'
    cases focus'

theorem busy_left {ancestors : List Value} (focus : s.focus = .leave { o with ancestors } g) (stack : s.stack = K)
    (gives : w.leave = none → w.Gives o n s g) : w.Stops s ∨ Busy w o K n (w.step s) := by
  have move := w.step_moves s
  generalize w.step s = t at move ⊢
  cases move with
  | silent due move =>
    rw [focus] at due move
    have none : w.leave = none := Option.map_eq_none_iff.mp due
    cases move
    exact .inr (.returning rfl stack (gives none))
  | raises due reply answer => exact .inl (.fault (w.exchange?_of_due due reply) answer)
  | @leaves f o' g' v r focus' callback reply answer =>
    rw [focus] at focus'
    cases focus'
    refine .inr (.returning rfl stack
      ⟨⟨_, s.store, r⟩, v, .leave (by rw [callback]; rfl) ?_ ⟨ancestors, rfl⟩, answer, rfl⟩)
    rw [go_exchanges, Walker.after_exchanges, List.getLast?_concat]
  | exits focus' => rw [focus] at focus'; cases focus'
  | skips focus' => rw [focus] at focus'; cases focus'
  | descends focus' => rw [focus] at focus'; cases focus'

theorem Busy.step (h : Busy w o K n s) (hc : w.HasCallback) (sound : s.Sound)
    (ahead : ∀ g, s.focus = .back g → s.stack ≠ K) : w.Stops s ∨ Busy w o K n (w.step s) := by
  cases h with
  | entering focus stack length => exact busy_entered hc focus stack length
  | inside ancestors g inner stack going gives =>
    have gives' : w.leave = none → w.Gives o n (w.step s) g := fun none =>
      (gives none).later none (w.step_moves s).exchanges
    rcases inside_step sound going stack with stops | left | ⟨going', inner', stack'⟩
    · exact .inl stops
    · rw [left] at gives' ⊢
      exact .inr (.leaving rfl rfl gives')
    · exact .inr (.inside ancestors g inner' stack' going' gives')
  | leaving focus stack gives => exact busy_left focus stack gives
  | returning focus stack => exact absurd stack (ahead _ focus)

/-- Where a visit stands that begins in `s`: it is at work, or it came to its end before, or the walk was stopped. -/
theorem visit_course (hc : w.HasCallback) (sound : s.Sound) (focus : s.focus = .enter o) (m : Nat) :
    Busy w o s.stack s.exchanges.length (w.run m s) ∨ (∃ k < m, ∃ g, w.Over s k g) ∨ ∃ k < m, w.Stops (w.run k s) := by
  suffices h : (Busy w o s.stack s.exchanges.length (w.run m s) ∧
      ∀ k < m, ∀ g, (w.run k s).focus = .back g → (w.run k s).stack ≠ s.stack) ∨
        (∃ k < m, ∃ g, w.Over s k g) ∨ ∃ k < m, w.Stops (w.run k s) by
    rcases h with ⟨busy, -⟩ | h
    · exact .inl busy
    · exact .inr h
  induction m with
  | zero => exact .inl ⟨.entering focus rfl rfl, fun k hk => absurd hk (Nat.not_lt_zero k)⟩
  | succ m ih =>
    rcases ih with ⟨busy, first⟩ | ⟨k, hk, ended⟩ | ⟨k, hk, stops⟩
    · by_cases handed : ∃ g, (w.run m s).focus = .back g ∧ (w.run m s).stack = s.stack
      · obtain ⟨g, hback, hstack⟩ := handed
        exact .inr (.inl ⟨m, by omega, g, hback, hstack, first⟩)
      have ahead : ∀ g, (w.run m s).focus = .back g → (w.run m s).stack ≠ s.stack := fun g hback hstack =>
        handed ⟨g, hback, hstack⟩
      rcases busy.step hc (w.sound_after sound m) ahead with stops | busy'
      · exact .inr (.inr ⟨m, by omega, stops⟩)
      · rw [← w.run_succ] at busy'
        refine .inl ⟨busy', fun k hk => ?_⟩
        rcases Nat.lt_succ_iff_lt_or_eq.mp hk with hk | rfl
        · exact first k hk
        · exact ahead
    · exact .inr (.inl ⟨k, by omega, ended⟩)
    · exact .inr (.inr ⟨k, by omega, stops⟩)

theorem done_of_stops {k m : Nat} (hkm : k < m) (stops : w.Stops (w.run k s)) : ∃ r, (w.run m s).focus = .done r := by
  obtain ⟨r, done⟩ := stops.done
  rw [← w.run_succ] at done
  obtain ⟨i, rfl⟩ := Nat.exists_eq_add_of_le hkm
  rw [w.run_add, w.run_of_done done]
  exact ⟨r, done⟩

/-- A visit that comes to its end hands back what the deciding callback returned. -/
theorem gives_of_over (hc : w.HasCallback) (sound : s.Sound) (focus : s.focus = .enter o) {m : Nat}
    (ended : w.Over s m g) : w.Gives o s.exchanges.length (w.run m s) g := by
  rcases visit_course hc sound focus m with busy | ⟨k, hk, g', earlier⟩ | ⟨k, hk, stops⟩
  · have length : (w.run m s).stack.length = s.stack.length := by rw [ended.stack]
    cases busy with
    | entering focus' => rw [ended.focus] at focus'; cases focus'
    | inside _ _ _ stack =>
      rw [stack, List.length_append, List.length_cons] at length
      omega
    | leaving focus' => rw [ended.focus] at focus'; cases focus'
    | returning focus' _ gives =>
      rw [ended.focus] at focus'
      cases focus'
      exact gives
  · exact absurd earlier.stack (ended.first k hk g' earlier.focus)
  · obtain ⟨r, done⟩ := done_of_stops hk stops
    rw [ended.focus] at done
    cases done

end

end TreeWalk
