/-
  TreeWalk.Proofs.Forward — scans that are never sent back.

  A signal may send a scan anywhere, so a walk of a small tree may go on forever. If callbacks change nothing and only
  send scans ahead or out of their lists (`Exchange.Ahead`), it cannot: each call takes one of the calls of its phase
  that are left, and no step adds to them, whether or not there is a callback for the phase.
  - `Moves.ahead`: every signal that is going to be read about an element leads ahead.
  - `Moves.callsLeft_le`: one step; `Walker.Advances.reaches_done`: so the walk ends, by the calls that are left and the
    steps until the next one.
  - `Scan.Climbs.step`, `Scan.climbs_run`: the positions that a scan enters get larger.
  - `forward_walk_ends`: the whole walk.
-/

import TreeWalk.Proofs.CallBound
import TreeWalk.Proofs.Courses
import TreeWalk.Proofs.Prospects
import TreeWalk.Proofs.Signals

namespace TreeWalk

open Relation (ReflTransGen)

variable {σ ν : Type}

/-! ## Callbacks that send no scan back -/

/-- The callback changed nothing. If it decides where a scan goes on, it does not send it back: the call was that of
    `leave`, or there is no `leave`. -/
structure Exchange.Ahead (w : Walker σ ν) (x : Exchange σ ν) : Prop where
  store : x.before.Grows x.reply.store
  answer : ∀ v, x.call.phase = .leave ∨ w.leave = none → x.reply.outcome = .ok v →
    (Signal.ofValue v).Ahead x.reply.store x.call.index

/-- Every signal that is going to be read leads ahead. Without `leave`, those of open visits are going to be read. -/
structure Walker.Ahead (w : Walker σ ν) (s : State σ ν) : Prop where
  visits : w.leave = none → ∀ o g, .visit o g ∈ s.stack → g.Ahead s.store o.index
  leave : w.leave = none → ∀ o g, s.focus = .leave o g → g.Ahead s.store o.index
  back : ∀ g, s.focus = .back g → ∃ o : Occurrence, o.LiesOn s.stack ∧ g.Ahead s.store o.index

theorem Moves.ahead {w : Walker σ ν} {s t : State σ ν} (h : Moves w s t) (hs : w.Ahead s) (stacked : s.Stacked)
    (answers : ∀ x, w.exchange? s = some x → x.Ahead w) : w.Ahead t := by
  -- What open visits hold is still there after a call.
  have kept : ∀ x, w.exchange? s = some x → w.leave = none → ∀ o g, .visit o g ∈ s.stack →
      g.Ahead x.reply.store o.index := by
    intro x hx none o g hm
    have grows := (answers x hx).store
    rw [w.exchange?_before hx] at grows
    exact (hs.visits none o g hm).grows grows
  have stack_lies := stacked.1
  cases h with
  | @silent F K due move =>
    refine ⟨?_, ?_, ?_⟩
    · intro none o g hm
      rcases move.visit_mem hm with rfl | hm
      · exact Signal.ahead_silent _ _
      · exact hs.visits none o g hm
    · intro none o g hF
      rw [go_focus] at hF
      subst hF
      exact hs.visits none o g move.left
    · intro g hF
      rw [go_focus] at hF
      subst hF
      obtain ⟨o, focus, rfl⟩ := move.back
      rw [focus] at due stack_lies
      exact ⟨o, stack_lies, hs.leave (Option.map_eq_none_iff.mp due) o g focus⟩
  | raises => exact ⟨by simp, by simp, by simp⟩
  | exits => exact ⟨by simp, by simp, by simp⟩
  | @skips f o v r focus callback reply answer exit skip =>
    have hx := w.exchange?_enter focus callback reply
    refine ⟨kept _ hx, ?_, by simp⟩
    intro none o' g hF
    cases hF
    exact (answers _ hx).answer v (.inr none) answer
  | @descends f o v r focus callback reply answer exit skip =>
    have hx := w.exchange?_enter focus callback reply
    refine ⟨?_, by simp, by simp⟩
    intro none o' g hm
    simp only [go_stack, List.mem_cons, reduceCtorEq, Frame.visit.injEq, false_or] at hm
    rcases hm with ⟨rfl, rfl⟩ | hm
    · exact (answers _ hx).answer v (.inr none) answer
    · exact kept _ hx none o' g hm
  | @leaves f o g v r focus callback reply answer =>
    have hx := w.exchange?_leave focus callback reply
    refine ⟨kept _ hx, by simp, ?_⟩
    intro g' hF
    cases hF
    rw [focus] at stack_lies
    exact ⟨o, stack_lies, (answers _ hx).answer v (.inl rfl) answer⟩

/-! ## The walk comes to an end -/

def State.made (s : State σ ν) (phase : Phase) : Nat := s.calls.countP (·.phase = phase)

def State.callsLeft {store : Store} (s : State σ ν) (h : store.Acyclic) (reserved : List String) (phase : Phase) :
    Nat :=
  h.callsLeft reserved phase s.focus s.stack

/-- A walk through what was there at first, with signals that lead ahead. -/
structure Walker.Advances (w : Walker σ ν) (store : Store) (P : Value → Prop) (s : State σ ν) : Prop where
  grows : store.Grows s.store
  sound : s.Sound
  stacked : s.Stacked
  among : s.Among P
  ahead : w.Ahead s
  answers : ∀ n, ∀ x ∈ (w.run n s).exchanges, x.Ahead w

section

variable {w : Walker σ ν} {store : Store} {h : store.Acyclic} {P : Value → Prop} {s t : State σ ν}

theorem Walker.Advances.answer (hs : w.Advances store P s) {x : Exchange σ ν} (hx : w.exchange? s = some x) :
    x.Ahead w := by
  refine hs.answers 1 x ?_
  rw [w.run_one]
  exact w.mem_step_exchanges hx

variable (closed : ∀ v u, P v → Value.Holds store v u → P u) (placed : ∀ v, P v → v.Placed store)

include closed placed

theorem Walker.Advances.step (hs : w.Advances store P s) : w.Advances store P (w.step s) := by
  have move := w.step_moves s
  have kept : ∀ x ∈ (w.step s).exchanges, x.before.Grows x.reply.store := by
    intro x hx
    exact (hs.answers 1 x (by rwa [w.run_one])).store
  refine ⟨grows_step hs.grows kept, move.sound hs.sound, move.stacked hs.stacked, ?_, ?_, ?_⟩
  · exact move.among closed (fun v hv => hs.grows.reads (placed v hv)) hs.sound hs.among
  · exact move.ahead hs.ahead hs.stacked fun x hx => hs.answer hx
  · intro n x hx
    exact hs.answers (n + 1) x (by rwa [w.run_step])

theorem Walker.Advances.run (hs : w.Advances store P s) (n : Nat) : w.Advances store P (w.run n s) :=
  w.run_keeps (P := w.Advances store P) (fun _ => Walker.Advances.step closed placed) hs n

theorem Moves.callsLeft_le (move : Moves w s t) (hs : w.Advances store P s) (phase : Phase) :
    t.callsLeft h w.reserved phase + s.focus.tick phase ≤ s.callsLeft h w.reserved phase := by
  have reads : ∀ v, P v → v.Reads store s.store := fun v hv => hs.grows.reads (placed v hv)
  unfold State.callsLeft
  cases move with
  | silent _ move =>
    exact move.callsLeft_le h w.reserved phase closed reads hs.sound hs.stacked.2 hs.among.1 hs.among.2 hs.ahead.back
  | raises =>
    rw [go_focus, go_stack, Store.Acyclic.callsLeft, Nat.zero_add]
    exact tick_le_callsLeft h w.reserved phase s.focus s.stack
  | exits =>
    rw [go_focus, go_stack, Store.Acyclic.callsLeft, Nat.zero_add]
    exact tick_le_callsLeft h w.reserved phase s.focus s.stack
  | @skips f o v r focus =>
    have slots := h.paths_eq w.reserved o.node
    rw [go_focus, go_stack, focus]
    cases phase with
    | enter =>
      simp only [Store.Acyclic.callsLeft, Focus.tick, reduceCtorEq, if_true, if_false]
      omega
    | leave =>
      simp only [Store.Acyclic.callsLeft, Focus.tick, reduceCtorEq, if_true, if_false]
      omega
  | @descends f o v r focus callback reply =>
    have grows := hs.grows.trans (hs.answer (w.exchange?_enter focus callback reply)).store
    have node : P o.node := by
      have hnode := hs.among.1
      rwa [focus] at hnode
    rw [go_focus, go_stack, focus]
    exact Nat.le_of_eq (callsLeft_descended h w.reserved phase (grows.reads (placed o.node node)).names _ _ _)
  | leaves focus =>
    rw [go_focus, go_stack, focus]
    exact Nat.le_of_eq (Nat.add_comm _ _)

/-- The walk ends: every call leaves fewer of them, and between two calls there are fewer and fewer steps left. -/
theorem Walker.Advances.reaches_done (h : store.Acyclic) (hs : w.Advances store P s) :
    ∃ n o, (w.run n s).focus = .done o := by
  generalize hcalls : s.callsLeft h w.reserved .enter + s.callsLeft h w.reserved .leave = calls
  induction calls using Nat.strongRecOn generalizing s with
  | ind calls ih =>
    generalize hsteps : stepsLeft s.store s.focus s.stack = steps
    induction steps using Nat.strongRecOn generalizing s with
    | ind steps ihSteps =>
      by_cases done : ∃ o, s.focus = .done o
      · obtain ⟨o, ho⟩ := done
        exact ⟨0, o, ho⟩
      have hs' := hs.step closed placed
      have enter := (w.step_moves s).callsLeft_le (h := h) closed placed hs .enter
      have leave := (w.step_moves s).callsLeft_le (h := h) closed placed hs .leave
      -- It is enough that the walk ends from its next state on.
      suffices next : ∃ n o, (w.run n (w.step s)).focus = .done o by
        obtain ⟨n, o, hn⟩ := next
        exact ⟨n + 1, o, by rwa [w.run_step]⟩
      by_cases fewer : (w.step s).callsLeft h w.reserved .enter + (w.step s).callsLeft h w.reserved .leave < calls
      · exact ih _ fewer hs' rfl
      have notEnter : ∀ o, s.focus ≠ .enter o := by
        intro o focus
        have tick : s.focus.tick .enter = 1 := by rw [focus]; rfl
        omega
      have notLeave : ∀ o g, s.focus ≠ .leave o g := by
        intro o g focus
        have tick : s.focus.tick .leave = 1 := by rw [focus]; rfl
        omega
      have due : w.due s.focus = none := by
        cases hF : s.focus with
        | enter o => exact absurd hF (notEnter o)
        | leave o g => exact absurd hF (notLeave o g)
        | _ => rfl
      obtain ⟨F, K, silent, hstep⟩ := step_silent due
      have lt := silent.stepsLeft_lt notEnter (not_exists.mp done)
      refine ihSteps _ ?_ hs' (by omega) rfl
      rw [hstep, ← hsteps]
      exact lt

omit closed placed in
theorem Walker.made_step_le (w : Walker σ ν) (s : State σ ν) (phase : Phase) :
    (w.step s).made phase ≤ s.made phase + s.focus.tick phase := by
  unfold State.made State.calls
  cases due : w.due s.focus with
  | none =>
    rw [exchanges_silent due]
    exact Nat.le_add_right _ _
  | some p =>
    obtain ⟨f, c⟩ := p
    have one : [c].countP (·.phase = phase) ≤ s.focus.tick phase := by
      obtain ⟨o, hF, -, rfl⟩ | ⟨o, g, hF, -, rfl⟩ := w.due_cases due
      · rw [hF]
        cases phase <;> exact Nat.le_refl _
      · rw [hF]
        cases phase <;> exact Nat.le_refl _
    rw [exchanges_called due, List.map_append, List.countP_append]
    exact Nat.add_le_add_left one _

theorem Walker.Advances.made_le (h : store.Acyclic) (hs : w.Advances store P s) (phase : Phase) (n : Nat) :
    (w.run n s).made phase + (w.run n s).callsLeft h w.reserved phase ≤
      s.made phase + s.callsLeft h w.reserved phase := by
  induction n with
  | zero => exact Nat.le_refl _
  | succ n ih =>
    have left := (w.step_moves (w.run n s)).callsLeft_le (h := h) closed placed (hs.run closed placed n) phase
    have made := w.made_step_le (w.run n s) phase
    rw [w.run_succ]
    omega

end

theorem Store.Acyclic.length_nodePaths_of_other {store : Store} (h : store.Acyclic) (reserved : List String) {v : Value}
    (other : v.isNode store = false) :
    (h.nodePaths reserved .enter v).length = h.through reserved (v.slots store reserved) := by
  rw [nodePaths, order, preorder_eq, List.filter_cons, if_neg (by simp [other]), filter_through, List.length_flatMap]
  simp [through, paths]

namespace Walker

variable {w : Walker σ ν} {store : Store} {tree : Value} {memory : σ}

theorem callsLeft_start_le (w : Walker σ ν) (h : store.Acyclic) (tree : Value) (memory : σ) (phase : Phase) :
    (w.start tree store memory).callsLeft h w.reserved phase ≤ (h.nodePaths w.reserved .enter tree).length := by
  by_cases hc : w.HasCallback
  · cases hn : tree.isNode store with
    | true =>
      have all : h.nodePaths w.reserved .enter tree = h.preorder w.reserved tree := by
        simp [Store.Acyclic.nodePaths, Store.Acyclic.order, hn]
      rw [w.start_node hc hn, all]
      exact Nat.le_refl _
    | false =>
      have names : tree.ownNames store = (tree.entries store).map Prod.fst :=
        (Value.reads_of_cell fun _ _ _ => rfl : tree.Reads store store).names
      rw [w.start_other hc hn, h.length_nodePaths_of_other w.reserved hn, Value.slots_eq_flatMap, ← names]
      exact Nat.le_refl _
  · obtain ⟨he, hl⟩ := not_or.mp hc
    simp [start, Option.not_isSome_iff_eq_none.mp he, Option.not_isSome_iff_eq_none.mp hl, State.finish,
      State.callsLeft, Store.Acyclic.callsLeft]

theorem ahead_start (w : Walker σ ν) (tree : Value) (store : Store) (memory : σ) :
    w.Ahead (w.start tree store memory) := by
  unfold start
  split
  · exact ⟨by simp [State.finish], by simp [State.finish], by simp [State.finish]⟩
  · split
    · exact ⟨by simp, by simp, by simp⟩
    · exact ⟨by simp, by simp, by simp⟩

theorem among_start (w : Walker σ ν) (tree : Value) (store : Store) (memory : σ) :
    (w.start tree store memory).Among (ReflTransGen (Value.Holds store) tree) := by
  unfold start
  split
  · exact ⟨trivial, by simp [State.finish]⟩
  · split
    · exact ⟨ReflTransGen.refl, by simp⟩
    · exact ⟨trivial, by simpa [Frame.Among] using ReflTransGen.refl⟩

theorem advances_start (ahead : ∀ fuel, ∀ x ∈ (w.walk fuel tree store memory).exchanges, x.Ahead w) :
    w.Advances store (ReflTransGen (Value.Holds store) tree) (w.start tree store memory) where
  grows := by
    rw [start_store]
    exact .refl store
  sound := w.sound_start tree store memory
  stacked := w.stacked_start tree store memory
  among := w.among_start tree store memory
  ahead := w.ahead_start tree store memory
  answers n x hx := ahead n x (by rwa [walk, toRun_exchanges])

end Walker

/-! ## The positions of a scan -/

theorem Moves.stack_of_done {w : Walker σ ν} {s t : State σ ν} (h : Moves w s t) (going : ∀ r, s.focus ≠ .done r)
    {r : Outcome} (done : t.focus = .done r) : t.stack = [] := by
  cases h with
  | @silent F K _ move =>
    rw [go_focus] at done
    subst done
    generalize hF : s.focus = F at move
    generalize hK : s.stack = L at move
    cases move with
    | rest => exact absurd hF (going _)
    | _ => rfl
  | raises => rfl
  | exits => rfl
  | skips => cases done
  | descends => cases done
  | leaves => cases done

namespace Scan

variable (c : Scan) (w : Walker σ ν) (s : State σ ν)

def position? : Option Nat :=
  match s.focus with
  | .enter o => if s.stack.length = c.rest.length + 1 then o.index else none
  | _ => none

def positions (n : Nat) : List Nat := (List.range n).filterMap fun m => c.position? (w.run m s)

theorem positions_succ (n : Nat) : c.positions w s (n + 1) = c.positions w s n ++ (c.position? (w.run n s)).toList := by
  rw [positions, List.range_succ, List.filterMap_append]
  cases h : c.position? (w.run n s) <;> simp [positions, h]

/-- Where a scan stands that has entered these positions: it goes on further than all of them, or is about to enter the
    next one, or is still at work at the last one. -/
inductive Climbs (log : List Nat) : Prop
  | waiting (p : Int) (focus : s.focus = .next) (stack : s.stack = c.frame p :: c.rest)
      (bound : p < 0 ∨ ∀ q ∈ log, (q : Int) < p)
  | entering (i : Nat) (o : Occurrence) (focus : s.focus = .enter o) (index : o.index = some i)
      (stack : s.stack = c.frame i :: c.rest) (bound : ∀ q ∈ log, q < i)
  | inside (i : Nat) (o : Occurrence) (g : Signal) (inner : List Frame) (going : ∀ r, s.focus ≠ .done r)
      (stack : s.stack = inner ++ .visit o g :: c.frame i :: c.rest) (bound : ∀ q ∈ log, q ≤ i)
  | leaving (i : Nat) (o : Occurrence) (g : Signal) (focus : s.focus = .leave o g)
      (stack : s.stack = c.frame i :: c.rest) (bound : ∀ q ∈ log, q ≤ i)
  | back (i : Nat) (g : Signal) (focus : s.focus = .back g) (stack : s.stack = c.frame i :: c.rest)
      (bound : ∀ q ∈ log, q ≤ i)

variable {c w s} {log : List Nat}

theorem climbs_waiting {p : Int} (focus : s.focus = .next) (stack : s.stack = c.frame p :: c.rest)
    (bound : p < 0 ∨ ∀ q ∈ log, (q : Int) < p) : c.Climbs (w.step s) log ∨ ¬ c.Active (w.step s) := by
  obtain ⟨F, K, silent, hstep⟩ := Walker.step_silent (w := w) (s := s) (by rw [focus]; rfl)
  rw [hstep]
  rw [focus, stack] at silent
  rcases silent.scanning with ⟨-, rfl, rfl⟩ | ⟨i, v, rfl, -, ⟨-, rfl, rfl⟩ | ⟨-, rfl, rfl⟩⟩
  · exact .inr (by simp [Active])
  · refine .inl (.entering i _ rfl rfl rfl ?_)
    intro q hq
    rcases bound with out | bound
    · omega
    · exact Int.ofNat_lt.mp (bound q hq)
  · refine .inl (.waiting (i + 1) rfl rfl (.inr ?_))
    intro q hq
    rcases bound with out | bound
    · omega
    · exact (bound q hq).trans (Int.lt_succ _)

theorem climbs_entering {i : Nat} {o : Occurrence} (focus : s.focus = .enter o) (stack : s.stack = c.frame i :: c.rest)
    (bound : ∀ q ∈ log, q ≤ i) : c.Climbs (w.step s) log ∨ ¬ c.Active (w.step s) := by
  have move := w.step_moves s
  generalize w.step s = t at move ⊢
  cases move with
  | silent _ move =>
    rw [focus, stack] at move
    cases move
    exact .inl (.inside i o .silent [_] Focus.next_ne_done rfl bound)
  | raises => exact .inr (by simp [Active])
  | exits => exact .inr (by simp [Active])
  | skips focus' =>
    cases focus.symm.trans focus'
    exact .inl (.leaving i _ _ rfl stack bound)
  | @descends f o' v r focus' =>
    cases focus.symm.trans focus'
    refine .inl (.inside i { o with ancestors := r.ancestors } (.ofValue v)
      [.fields o.node r.ancestors (o.node.ownNames r.store)] Focus.next_ne_done ?_ bound)
    rw [go_stack, stack]
    rfl
  | leaves focus' => cases focus.symm.trans focus'

theorem climbs_leaving {i : Nat} {o : Occurrence} {g : Signal} (focus : s.focus = .leave o g)
    (stack : s.stack = c.frame i :: c.rest) (bound : ∀ q ∈ log, q ≤ i) :
    c.Climbs (w.step s) log ∨ ¬ c.Active (w.step s) := by
  have move := w.step_moves s
  generalize w.step s = t at move ⊢
  cases move with
  | silent _ move =>
    rw [focus, stack] at move
    cases move
    exact .inl (.back i g rfl rfl bound)
  | raises => exact .inr (by simp [Active])
  | exits focus' => cases focus.symm.trans focus'
  | skips focus' => cases focus.symm.trans focus'
  | descends focus' => cases focus.symm.trans focus'
  | leaves => exact .inl (.back i _ rfl stack bound)

/-- A signal that leads ahead takes the scan further than all positions it has entered, or out of the list. -/
theorem climbs_back {i : Nat} {g : Signal} (focus : s.focus = .back g) (stack : s.stack = c.frame i :: c.rest)
    (bound : ∀ q ∈ log, q ≤ i) (ahead : w.Ahead s) : c.Climbs (w.step s) log ∨ ¬ c.Active (w.step s) := by
  obtain ⟨F, K, silent, hstep⟩ := Walker.step_silent (w := w) (s := s) (by rw [focus]; rfl)
  obtain ⟨o, lies, hg⟩ := ahead.back g focus
  rw [stack] at lies
  obtain ⟨-, i', index, hi⟩ := lies
  rw [hstep]
  rw [focus, stack] at silent
  cases silent with
  | exit => exact .inr (by simp [Active])
  | resume =>
    refine .inl (.waiting _ rfl rfl ?_)
    cases hj : g.resume s.store with
    | none =>
      refine .inr ?_
      intro q hq
      have := bound q hq
      rw [Option.getD_none]
      omega
    | some j =>
      rw [Option.getD_some]
      rcases hg.resume i' j index hj with out | further
      · exact .inl out
      · refine .inr ?_
        intro q hq
        have := bound q hq
        omega

theorem Climbs.step (h : c.Climbs s log) (increasing : log.Pairwise (· < ·)) (sound : s.Sound) (ahead : w.Ahead s) :
    (log ++ (c.position? s).toList).Pairwise (· < ·) ∧
      (c.Climbs (w.step s) (log ++ (c.position? s).toList) ∨ ¬ c.Active (w.step s)) := by
  -- A step that enters no element of the list adds no position.
  have same : c.position? s = none → (c.Climbs (w.step s) log ∨ ¬ c.Active (w.step s)) →
      (log ++ (c.position? s).toList).Pairwise (· < ·) ∧
        (c.Climbs (w.step s) (log ++ (c.position? s).toList) ∨ ¬ c.Active (w.step s)) := by
    intro none next
    rw [none, Option.toList_none, List.append_nil]
    exact ⟨increasing, next⟩
  cases h with
  | waiting p focus stack bound => exact same (by rw [position?, focus]) (climbs_waiting focus stack bound)
  | entering i o focus index stack bound =>
    have entered : c.position? s = some i := by simp [position?, focus, stack, index]
    have bound' : ∀ q ∈ log ++ [i], q ≤ i := by
      intro q hq
      rcases List.mem_append.mp hq with hq | hq
      · exact Nat.le_of_lt (bound q hq)
      · exact Nat.le_of_eq (List.mem_singleton.mp hq)
    rw [entered, Option.toList_some]
    refine ⟨List.pairwise_append.mpr ⟨increasing, List.pairwise_singleton _ _, ?_⟩, climbs_entering focus stack bound'⟩
    intro q hq q' hq'
    rw [List.mem_singleton.mp hq']
    exact bound q hq
  | inside i o g inner going stack bound =>
    have deep : s.stack.length ≠ c.rest.length + 1 := by
      simp only [stack, List.length_append, List.length_cons]
      omega
    refine same ?_ ?_
    · unfold position?
      split
      · rw [if_neg deep]
      · rfl
    · rcases inside_step sound going stack with stops | left | ⟨going', inner', stack'⟩
      · obtain ⟨r, done⟩ := stops.done
        exact .inr (by simp [Active, (w.step_moves s).stack_of_done going done])
      · rw [left]
        exact .inl (.leaving i o g rfl rfl bound)
      · exact .inl (.inside i o g inner' going' stack' bound)
  | leaving i o g focus stack bound => exact same (by rw [position?, focus]) (climbs_leaving focus stack bound)
  | back i g focus stack bound => exact same (by rw [position?, focus]) (climbs_back focus stack bound ahead)

/-- The positions that a scan enters get larger, as long as it lasts. -/
theorem climbs_run (focus : s.focus = .next) (stack : s.stack = c.frame 0 :: c.rest) (sound : s.Sound)
    (ahead : ∀ n, w.Ahead (w.run n s)) {n : Nat} (lasts : c.Lasts w s n) :
    (c.positions w s n).Pairwise (· < ·) ∧
      (c.Climbs (w.run n s) (c.positions w s n) ∨ ¬ c.Active (w.run n s)) := by
  induction n with
  | zero => exact ⟨List.Pairwise.nil, .inl (.waiting 0 focus stack (.inr (by simp [positions])))⟩
  | succ n ih =>
    obtain ⟨increasing, climbs | over'⟩ := ih lasts.of_succ
    · rw [w.run_succ, positions_succ]
      exact climbs.step increasing (w.sound_after sound n) (ahead n)
    · exact absurd (lasts n (Nat.lt_succ_self n)) over'

end Scan

/-! ## Every walk -/

/-- A walk whose callbacks change nothing, in a store without cycles. If the callback that decides about an element
    never sends the scan back, the walk comes to an end: what it returns has no position, or a later one, or a negative
    one. In each scan the positions that are entered get larger, so that none is entered twice. In each phase there are
    at most as many calls as there are paths from the root to nodes. -/
theorem forward_walk_ends (w : Walker σ ν) {store : Store} (acyclic : store.Acyclic) {tree : Value}
    (complete : tree.Complete store) (memory : σ)
    (ahead : ∀ fuel, ∀ x ∈ (w.walk fuel tree store memory).exchanges, x.Ahead w) :
    ∃ r, w.Ends tree store memory r ∧
      (∀ phase, (r.calls.filter (·.phase = phase)).length ≤ (acyclic.nodePaths w.reserved .enter tree).length) ∧
      (acyclic.nodePaths w.reserved .enter tree).Nodup ∧
      (∀ p, p ∈ acyclic.nodePaths w.reserved .enter tree ↔
        tree.Path store w.reserved p ∧ (p ≠ [] ∨ tree.isNode store)) ∧
      ∀ k s (c : Scan), w.run k (w.start tree store memory) = s → s.focus = .next → s.stack = c.frame 0 :: c.rest →
        ∀ n, c.Lasts w s n → (c.positions w s n).Pairwise (· < ·) := by
  have closed : ∀ v u, ReflTransGen (Value.Holds store) tree v → Value.Holds store v u →
      ReflTransGen (Value.Holds store) tree u := fun v u hv hu => hv.tail hu
  have advances := Walker.advances_start ahead
  obtain ⟨n, o, done⟩ := advances.reaches_done closed complete acyclic
  refine ⟨_, w.ends_of_done done, ?_, acyclic.nodup_nodePaths w.reserved tree,
    fun p => acyclic.mem_nodePaths w.reserved, ?_⟩
  · intro phase
    have made := advances.made_le closed complete acyclic phase n
    have first := w.callsLeft_start_le acyclic tree memory phase
    have none : (w.start tree store memory).made phase = 0 := by
      rw [State.made, State.calls, w.start_exchanges]
      rfl
    rw [toRun_calls, ← List.countP_eq_length_filter]
    unfold State.made at made none
    omega
  · rintro k s c rfl focus stack m lasts
    have later : ∀ n, w.Ahead (w.run n (w.run k (w.start tree store memory))) := by
      intro n
      rw [← w.run_add]
      exact (advances.run closed complete (k + n)).ahead
    exact (Scan.climbs_run focus stack (w.sound_run tree store memory k) later lasts).1

/-- A block with a list of five, four of which are one and the same call; that has a name three times. -/
def ladder : Store := ⟨#[
  { fields := .ofList [("type", .text "Name")] },
  { items := [.container .mapping 0, .container .mapping 0, .container .mapping 0] },
  { fields := .ofList [("type", .text "Call"), ("args", .container .list 1)] },
  { items := [.container .mapping 2, .int 7, .container .mapping 2, .container .mapping 2, .container .mapping 2] },
  { fields := .ofList [("type", .text "Block"), ("body", .container .list 3)] }]⟩

/-- Takes every second element of a list, and of arguments the first only. What it returns in a new list when it enters
    a node would send the scan back. -/
def hop : Callback Nat Unit := fun c s n =>
  match c.phase, c.key, c.index with
  | .enter, _, _ =>
    { outcome := .ok (.container .list s.size), store := s.push { items := [.action .proceed, .int 0] },
      memory := n + 1, ancestors := c.ancestors }
  | .leave, some "args", _ => c.answer s n (.ok (.int (-1)))
  | .leave, _, some i => c.answer s n (.ok (.int (i + 2)))
  | .leave, _, none => c.answer s n (.ok .null)

/-- Entering nodes decides nothing, since they are left too. -/
def hopping : Walker Nat Unit where
  enter := some hop
  leave := some hop
  reserved := []
  logging := false
  colored := false
  debug := true

theorem hop_ahead (c : Call) (s : Store) (n : Nat) : Exchange.Ahead hopping ⟨c, s, hop c s n⟩ := by
  unfold hop
  split
  · rename_i enter
    refine ⟨⟨by simp, fun r hr => s.cell_push_lt _ hr⟩, ?_⟩
    intro v decides answer
    rcases decides with leave | none
    · cases enter.symm.trans leave
    · cases none
  · refine ⟨.refl s, ?_⟩
    intro v _ answer
    cases answer
    exact ⟨by simp [Signal.ofValue], by simp [Signal.ofValue, Signal.resume, Signal.items, Value.int?]⟩
  · rename_i i _ index _
    refine ⟨.refl s, ?_⟩
    intro v _ answer
    cases answer
    refine ⟨by simp [Signal.ofValue], ?_⟩
    intro q j here resumes
    cases index.symm.trans here
    cases resumes
    exact .inr (by omega)
  · refine ⟨.refl s, ?_⟩
    intro v _ answer
    cases answer
    exact ⟨by simp [Signal.ofValue], by simp [Signal.ofValue, Signal.resume, Signal.items]⟩

theorem hopping_ahead (tree : Value) (store : Store) (memory fuel : Nat) :
    ∀ x ∈ (hopping.walk fuel tree store memory).exchanges, x.Ahead hopping := by
  rw [Walker.walk, toRun_exchanges]
  refine hopping.run_forall_exchanges (fun f c s n hf => ?_) (by simp [hopping.start_exchanges]) fuel
  rcases hf with hf | hf
  · cases hf
    exact hop_ahead c s n
  · cases hf
    exact hop_ahead c s n

def ladderScan : Scan where
  seq := .container .list 3
  key := "body"
  parent := .container .mapping 4
  trail := []
  rest := [.fields (.container .mapping 4) [] [], .visit ⟨.container .mapping 4, none, none, []⟩ (.live .list 5)]

/-- Seven nodes are entered, on seventeen paths; in the list, those at three of five positions. -/
theorem ladder_climbed : ∃ h : ladder.Acyclic, ∃ r, hopping.Ends (.container .mapping 4) ladder 0 r ∧
    (r.calls.filter (·.phase = .enter)).length ≤ (h.nodePaths [] .enter (.container .mapping 4)).length ∧
    (hopping.walk 200 (.container .mapping 4) ladder 0).calls.length = 14 ∧
    ladderScan.positions hopping (hopping.run 3 (hopping.start (.container .mapping 4) ladder 0)) 50 = [0, 2, 4] := by
  have layered : ladder.Layered := by decide
  obtain ⟨r, ends, fewer, -, -, climbs⟩ := forward_walk_ends hopping layered.acyclic
    (layered.complete (v := .container .mapping 4) (by decide)) 0 (hopping_ahead _ _ _)
  exact ⟨layered.acyclic, r, ends, fewer .enter, by decide, by decide⟩

end TreeWalk
