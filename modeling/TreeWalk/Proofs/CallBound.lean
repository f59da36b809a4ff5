/-
  TreeWalk.Proofs.CallBound — walks end if their calls do.

  A tree may lead back to itself, a list may grow while it is scanned, and a scan may be sent back to its beginning, so
  nothing in the tree gets smaller in the course of a walk. But all this takes calls: between two calls the store stays
  as it is, and what is left to do until the next one can be counted. A list that is scanned has so many positions left,
  a record so many fields, and every frame below is gone back to once (`stepsLeft`). A step that is no call makes that
  smaller (`Silent.stepsLeft_lt`), so a walk with `enter` comes to its next call or to its end (`Walker.reaches_call`).
  - `bounded_walk_ends`: if call number `N + 1` fails, should it come to that, the walk ends with it or before. At no time
    are visits nested deeper than `enter` was called.
-/

import Mathlib.Algebra.GroupWithZero.Nat
import TreeWalk.Proofs.EarlyStop
import TreeWalk.Proofs.Stack

namespace TreeWalk

variable {σ ν : Type}

/-! ## The steps that are left until the next call -/

/-- The steps that a field takes: one to look at it, and those of the scan if it holds a list or tuple. -/
def fieldSteps (s : Store) (node : Value) (key : String) : Nat :=
  match node.ownField s key with
  | .ok (some v) => (v.items s).length + 2
  | _ => 1

namespace Frame

/-- The steps that a frame takes once the walk comes back to it. A scan may then be sent to any position. -/
def steps (s : Store) : Frame → Nat
  | .fields node _ names => (names.map (fieldSteps s node)).sum + 1
  | .items seq _ _ _ _ => (seq.items s).length + 2
  | .visit _ _ => 3

def stepsNow (s : Store) : Frame → Nat
  | .items seq _ _ _ position => if 0 ≤ position then ((seq.items s).length - position).toNat + 1 else 1
  | frame => frame.steps s

theorem stepsNow_le (s : Store) (frame : Frame) : frame.stepsNow s ≤ frame.steps s := by
  cases frame with
  | fields => exact Nat.le_refl _
  | visit => exact Nat.le_refl _
  | items seq key parent trail position =>
    unfold stepsNow steps
    simp only
    split <;> omega

theorem stepsNow_pos (s : Store) (frame : Frame) : 0 < frame.stepsNow s := by
  cases frame with
  | fields => exact Nat.zero_lt_succ _
  | visit => exact Nat.zero_lt_succ _
  | items seq key parent trail position =>
    unfold stepsNow
    simp only
    split <;> omega

end Frame

def stackSteps (s : Store) (K : List Frame) : Nat := (K.map (Frame.steps s)).sum

@[simp] theorem stackSteps_cons (s : Store) (frame : Frame) (K : List Frame) :
    stackSteps s (frame :: K) = frame.steps s + stackSteps s K := rfl

/-- A bound for the steps until the next call. -/
def stepsLeft (s : Store) : Focus → List Frame → Nat
  | .enter _, _ => 0
  | .done _, _ => 0
  | .next, [] => 1
  | .next, frame :: K => frame.stepsNow s + stackSteps s K + 1
  | .back _, K => stackSteps s K + 2
  | .leave _ _, K => stackSteps s K + 3

theorem stepsLeft_next_le (s : Store) (K : List Frame) : stepsLeft s .next K ≤ stackSteps s K + 1 := by
  cases K with
  | nil => exact Nat.le_refl _
  | cons frame K =>
    have := frame.stepsNow_le s
    simp only [stepsLeft, stackSteps_cons]
    omega

theorem stepsLeft_below_lt (s : Store) (frame : Frame) (K : List Frame) :
    stepsLeft s .next K < stepsLeft s .next (frame :: K) := by
  have hle := stepsLeft_next_le s K
  have hpos := frame.stepsNow_pos s
  show stepsLeft s .next K < frame.stepsNow s + stackSteps s K + 1
  omega

theorem fieldSteps_pos (s : Store) (node : Value) (key : String) : 0 < fieldSteps s node key := by
  unfold fieldSteps
  split <;> omega

theorem Silent.stepsLeft_lt {reserved : List String} {store : Store} {F F' : Focus} {K K' : List Frame}
    (h : Silent reserved store F K F' K') (notEnter : ∀ o, F ≠ .enter o) (notDone : ∀ o, F ≠ .done o) :
    stepsLeft store F' K' < stepsLeft store F K := by
  cases h with
  | enter o => exact absurd rfl (notEnter o)
  | rest o => exact absurd rfl (notDone o)
  | leave => exact Nat.lt_succ_self _
  | stop => exact Nat.zero_lt_succ _
  | fault => exact Nat.zero_lt_succ _
  | child => exact Nat.zero_lt_succ _
  | item => exact Nat.zero_lt_succ _
  | rootOver => exact Nat.zero_lt_succ _
  | exit => exact Nat.zero_lt_succ _
  | fieldsOver => exact stepsLeft_below_lt store _ K'
  | passField node trail key names K =>
    have := fieldSteps_pos store node key
    simp only [stepsLeft, Frame.stepsNow, Frame.steps, List.map_cons, List.sum_cons]
    omega
  | scan node trail key names K v free hv =>
    have hkey : fieldSteps store node key = (v.items store).length + 2 := by simp only [fieldSteps, hv]
    simp only [stepsLeft, Frame.stepsNow, Frame.steps, stackSteps_cons, List.map_cons, List.sum_cons, hkey]
    simp
    omega
  | scanOver => exact stepsLeft_below_lt store _ K'
  | passItem seq key parent trail i K v hv =>
    obtain ⟨hi, -⟩ := List.getElem?_eq_some_iff.mp hv
    simp only [stepsLeft, Frame.stepsNow]
    rw [if_pos (by omega), if_pos (by omega)]
    omega
  | childrenOver => simp only [stepsLeft, Frame.stepsNow, Frame.steps]; omega
  | resume g seq key parent trail position K =>
    have := Frame.stepsNow_le store (.items seq key parent trail ((g.resume store).getD (position + 1)))
    simp only [stepsLeft, stackSteps_cons, Frame.steps] at this ⊢
    omega
  | toFields => simp only [stepsLeft, Frame.stepsNow, stackSteps_cons]; omega
  | toVisit => simp only [stepsLeft, Frame.stepsNow, stackSteps_cons]; omega

namespace Walker

variable {w : Walker σ ν}

theorem not_enter_of_due (hasEnter : w.enter.isSome) {F : Focus} (due : w.due F = none) (o : Occurrence) :
    F ≠ .enter o := by
  rintro rfl
  obtain ⟨f, hf⟩ := Option.isSome_iff_exists.mp hasEnter
  rw [w.due_of_enter hf] at due
  cases due

/-- A walk with `enter` comes to its next call or to its end, in a bounded number of steps that leave the store and the
    memory as they are. -/
theorem reaches_call (hasEnter : w.enter.isSome) (s : State σ ν) :
    ∃ k ≤ stepsLeft s.store s.focus s.stack, (w.run k s).exchanges = s.exchanges ∧ (w.run k s).store = s.store ∧
      (w.run k s).memory = s.memory ∧ ((w.run k s).outcome?.isSome ∨ (w.due (w.run k s).focus).isSome) := by
  generalize hb : stepsLeft s.store s.focus s.stack = bound
  induction bound using Nat.strongRecOn generalizing s with
  | ind bound ih =>
    by_cases stop : s.outcome?.isSome ∨ (w.due s.focus).isSome
    · exact ⟨0, Nat.zero_le _, rfl, rfl, rfl, stop⟩
    · have hdue : w.due s.focus = none := Option.not_isSome_iff_eq_none.mp fun h => stop (.inr h)
      have hnone : s.outcome? = none := Option.not_isSome_iff_eq_none.mp fun h => stop (.inl h)
      obtain ⟨F, K, silent, hstep⟩ := step_silent hdue
      have hlt := silent.stepsLeft_lt (not_enter_of_due hasEnter hdue) (outcome?_eq_none.mp hnone)
      rw [hb] at hlt
      obtain ⟨k, hk, hx, hs, hm, hend⟩ := ih _ hlt (s.go F K) rfl
      rw [← hstep, ← w.run_step] at hx hs hm hend
      refine ⟨k + 1, by omega, hx.trans ?_, hs.trans ?_, hm.trans ?_, hend⟩
      · rw [hstep, go_exchanges]
      · rw [hstep, go_store]
      · rw [hstep, go_memory]

theorem run_reaches_call (hasEnter : w.enter.isSome) (s : State σ ν) (n : Nat) :
    ∃ m, (w.run m s).exchanges = (w.run n s).exchanges ∧
      ((∃ o, (w.run m s).focus = .done o) ∨ ∃ f c, w.due (w.run m s).focus = some (f, c)) := by
  obtain ⟨k, -, hx, -, -, hend⟩ := reaches_call hasEnter (w.run n s)
  rw [← w.run_add] at hx hend
  refine ⟨n + k, hx, ?_⟩
  rcases hend with hdone | hdue
  · obtain ⟨o, ho⟩ := Option.isSome_iff_exists.mp hdone
    exact .inl ⟨o, outcome?_eq_some.mp ho⟩
  · obtain ⟨⟨f, c⟩, due⟩ := Option.isSome_iff_exists.mp hdue
    exact .inr ⟨f, c, due⟩

theorem exists_done (hasEnter : w.enter.isSome) {s : State σ ν} {N : Nat}
    (limit : ∀ n x, (w.run n s).exchanges[N]? = some x → ∃ e, x.reply.outcome = .error e) (left n : Nat)
    (hleft : (w.run n s).exchanges.length + left = N) :
    ∃ m o, (w.run m s).focus = .done o ∧ (w.run m s).exchanges.length ≤ N + 1 := by
  -- The induction is on the calls that may be made before the one that fails.
  induction left generalizing n with
  | zero =>
    obtain ⟨m, hx, ⟨o, hdone⟩ | ⟨f, c, due⟩⟩ := run_reaches_call hasEnter s n
    · exact ⟨m, o, hdone, by rw [hx]; omega⟩
    · have hlen : (w.run m s).exchanges.length = N := by rw [hx]; omega
      have made := exchanges_called due
      rw [← w.run_succ] at made
      obtain ⟨e, he⟩ := limit (m + 1) _ (by rw [made, ← hlen, List.getElem?_concat_length])
      obtain ⟨k, hk⟩ := stops_ends due rfl (Reply.stops_of_error he)
      rw [← w.run_add] at hk
      refine ⟨m + k, _, by rw [hk]; rfl, ?_⟩
      rw [hk, go_exchanges, after_exchanges, List.length_append, hlen]
      exact Nat.le_refl _
  | succ left ih =>
    obtain ⟨m, hx, ⟨o, hdone⟩ | ⟨f, c, due⟩⟩ := run_reaches_call hasEnter s n
    · exact ⟨m, o, hdone, by rw [hx]; omega⟩
    · have made := exchanges_called due
      rw [← w.run_succ] at made
      refine ih (m + 1) ?_
      rw [made, hx, List.length_append, List.length_singleton]
      omega

end Walker

/-! ## How deep visits are nested -/

def State.enters (s : State σ ν) : Nat := s.calls.countP (·.phase = .enter)

/-- The number of visits that are under way, with the one whose node is about to be entered or left. -/
def State.depth (s : State σ ν) : Nat :=
  match s.focus with
  | .enter _ => visits s.stack + 1
  | .leave _ _ => visits s.stack + 1
  | _ => visits s.stack

/-- The visits that were entered are no more than the times that `enter` was called. -/
def State.Shallow (s : State σ ν) : Prop :=
  match s.focus with
  | .leave _ _ => visits s.stack + 1 ≤ s.enters
  | _ => visits s.stack ≤ s.enters

theorem State.Shallow.visits_le {s : State σ ν} (h : s.Shallow) : visits s.stack ≤ s.enters := by
  unfold Shallow at h
  split at h <;> omega

theorem enters_after (w : Walker σ ν) (c : Call) (r : Reply σ ν) (s : State σ ν) :
    (w.after c r s).enters = s.enters + if c.phase = .enter then 1 else 0 := by
  simp [State.enters, List.countP_cons]

theorem Silent.visits_le {reserved : List String} {store : Store} {F F' : Focus} {K K' : List Frame}
    (h : Silent reserved store F K F' K') (notEnter : ∀ o, F ≠ .enter o) :
    visits K' ≤ visits K ∧ ∀ o g, F' = .leave o g → visits K' + 1 ≤ visits K := by
  cases h with
  | enter o => exact absurd rfl (notEnter o)
  | _ => simp

theorem Moves.shallow {w : Walker σ ν} {s t : State σ ν} (h : Moves w s t) (hasEnter : w.enter.isSome)
    (hs : s.Shallow) : t.Shallow := by
  have hle := hs.visits_le
  cases h with
  | @silent F K due move =>
    obtain ⟨hvisits, hleave⟩ := move.visits_le (Walker.not_enter_of_due hasEnter due)
    have henters : (s.go F K).enters = s.enters := rfl
    unfold State.Shallow
    rw [henters]
    simp only [go_focus, go_stack]
    split
    · have := hleave _ _ rfl
      omega
    · omega
  | raises => exact Nat.zero_le _
  | exits => exact Nat.zero_le _
  | @skips f o v r =>
    show visits s.stack + 1 ≤ (w.after { o with phase := .enter } r s).enters
    rw [enters_after]
    simp only [if_true]
    omega
  | @descends f o v r =>
    show visits (_ :: _ :: s.stack) ≤ (w.after { o with phase := .enter } r s).enters
    rw [enters_after]
    simp
    omega
  | @leaves f o g v r =>
    show visits s.stack ≤ (w.after { o with phase := .leave } r s).enters
    rw [enters_after]
    omega

theorem Walker.shallow_run (w : Walker σ ν) (hasEnter : w.enter.isSome) (tree : Value) (store : Store) (memory : σ)
    (n : Nat) : (w.run n (w.start tree store memory)).Shallow := by
  refine w.run_keeps (P := State.Shallow) (fun s h => (w.step_moves s).shallow hasEnter h) ?_ n
  unfold Walker.start
  split
  · exact Nat.zero_le _
  · split <;> exact Nat.zero_le _

/-- Visits are nested no deeper than `enter` was called, counting the call that is being made. -/
theorem State.Shallow.depth_le {w : Walker σ ν} (hasEnter : w.enter.isSome) {s : State σ ν} (h : s.Shallow) :
    s.depth ≤ (w.step s).enters := by
  have hmono : s.enters ≤ (w.step s).enters := by
    obtain ⟨more, hmore⟩ := (w.step_moves s).exchanges
    simp only [State.enters, State.calls, ← hmore, List.map_append, List.countP_append]
    omega
  unfold State.Shallow at h
  unfold State.depth
  cases hf : s.focus with
  | enter o =>
    obtain ⟨f, hcallback⟩ := Option.isSome_iff_exists.mp hasEnter
    have due : w.due s.focus = some (f, { o with phase := .enter }) := by rw [hf, w.due_of_enter hcallback]
    have henters : (w.step s).enters = s.enters + 1 := by
      rw [Walker.step_called due]
      exact enters_after w _ _ s
    simp only [hf] at h ⊢
    omega
  | _ =>
    simp only [hf] at h ⊢
    omega

/-! ## Every walk -/

/-- If call number `N + 1` fails, should it come to that, the walk ends with it or before, whatever the tree is and
    whatever the callbacks do to it. At any time it is a bounded number of steps to the next call or to the end, in which
    nothing changes; visits are nested no deeper than `enter` was called, and the stack is no longer than that allows. -/
theorem bounded_walk_ends (w : Walker σ ν) (hasEnter : w.enter.isSome) (tree : Value) (store : Store) (memory : σ)
    (N : Nat)
    (limit : ∀ fuel x, (w.walk fuel tree store memory).exchanges[N]? = some x → ∃ e, x.reply.outcome = .error e) :
    (∃ r, w.Ends tree store memory r ∧ r.exchanges.length ≤ N + 1) ∧
      ∀ n s, s = w.run n (w.start tree store memory) →
        (∃ k ≤ stepsLeft s.store s.focus s.stack, (w.run k s).exchanges = s.exchanges ∧
          (w.run k s).store = s.store ∧ (w.run k s).memory = s.memory ∧
          ((w.run k s).outcome?.isSome ∨ (w.due (w.run k s).focus).isSome)) ∧
        s.depth ≤ (w.step s).enters ∧ s.stack.length ≤ 3 * s.enters + 2 := by
  have limit' : ∀ n x, (w.run n (w.start tree store memory)).exchanges[N]? = some x →
      ∃ e, x.reply.outcome = .error e := by
    intro n x hx
    exact limit n x (by rw [Walker.walk, toRun_exchanges]; exact hx)
  refine ⟨?_, ?_⟩
  · have hstart : (w.run 0 (w.start tree store memory)).exchanges.length + N = N := by
      rw [show w.run 0 (w.start tree store memory) = w.start tree store memory from rfl, w.start_exchanges]
      exact Nat.zero_add N
    obtain ⟨m, o, hdone, hlen⟩ := Walker.exists_done hasEnter limit' N 0 hstart
    exact ⟨_, w.ends_of_done hdone, by rw [toRun_exchanges]; exact hlen⟩
  · rintro n s rfl
    have shallow := w.shallow_run hasEnter tree store memory n
    have hlen := (w.stacked_run tree store memory n).2.length_le
    have hvisits := shallow.visits_le
    exact ⟨Walker.reaches_call hasEnter _, shallow.depth_le hasEnter, by omega⟩

/-- A node that is the only element of its own list. -/
def ring : Store := ⟨#[
  { fields := .ofList [("type", .text "Ring"), ("body", .container .list 1)] },
  { items := [.container .mapping 0] }]⟩

/-- Lets the list grow whenever it enters a node, and sends the scan back to its beginning. The fourth call skips the
    node, so that the fifth one leaves it; the seventh call fails. -/
def growing : Walker Nat Unit where
  enter := some fun c s n =>
    c.answer (s.setItems 1 (.container .mapping 0 :: (s.cell 1).items)) (n + 1)
      (if n < 6 then .ok (if n % 4 = 3 then .action .skip else .null) else .error (.raised "Limit" "too many calls"))
  leave := some fun c s n => c.answer s (n + 1) (.ok (.int 0))
  reserved := []
  logging := false
  colored := false
  debug := false

theorem ring_ends : ∃ r, growing.Ends (.container .mapping 0) ring 0 r ∧ r.exchanges.length ≤ 7 := by
  have hdone : (growing.run 40 (growing.start (.container .mapping 0) ring 0)).focus =
      .done (.raised (.raised "Limit" "too many calls")) := by decide +kernel
  have hlast : (growing.run 40 (growing.start (.container .mapping 0) ring 0)).exchanges[6]?.map (·.reply.outcome.isOk) =
      some false := by decide +kernel
  refine (bounded_walk_ends growing rfl (.container .mapping 0) ring 0 6 fun fuel x hx => ?_).1
  rw [Walker.walk, toRun_exchanges] at hx
  obtain ⟨more, hmore⟩ := Walker.exchanges_of_done hdone fuel
  obtain ⟨hlt, -⟩ := List.getElem?_eq_some_iff.mp hx
  rw [← hmore, List.getElem?_append_left hlt, hx] at hlast
  cases ho : x.reply.outcome with
  | error e => exact ⟨e, rfl⟩
  | ok v => simp [ho, Except.isOk, Except.toBool] at hlast

end TreeWalk
