/-
  TreeWalk.Proofs.Returns — the one signal that comes out of a walk.

  Every visit hands a signal to the frame below, and a signal to exit takes the same way. Only one of them leaves the
  walk: the answer of the call that asked to exit, or else the answer that decides about the root. A root can be met
  again further down, but then under a key, so that the calls for the root itself are those without one
  (`Exchange.isForRoot`).
  - `first_of_root_enter`, `last_of_root_leave`: the root is entered first and left last, each time once.
  - `filter_isForRoot`: so the verdict on the root is the answer to the one call for it that decides.
  - `returned_answer`: what a walk returns, and that the signal it returns asks to exit exactly if a call did.
-/

import TreeWalk.Proofs.Bracketing
import TreeWalk.Proofs.Recasting
import TreeWalk.Proofs.Records

namespace TreeWalk

variable {σ ν : Type}

/-! ## Calls for the root -/

/-- The call was made for the root, in this phase, and not for a node found under a key. -/
def Exchange.isForRoot (phase : Phase) (x : Exchange σ ν) : Bool := x.call.key = none ∧ x.call.phase = phase

/-- The phase whose answer decides about a visit. -/
def Walker.verdictPhase (w : Walker σ ν) : Phase := if w.leave.isSome then .leave else .enter

theorem Occurrence.LiesOn.eq_nil {o : Occurrence} {K : List Frame} (h : o.LiesOn K) (key : o.key = none) : K = [] := by
  cases K with
  | nil => rfl
  | cons frame below =>
    cases frame with
    | fields node trail names => simp [Occurrence.LiesOn, key] at h
    | items seq key' parent trail position => simp [Occurrence.LiesOn, key] at h
    | visit o' g => exact h.elim

theorem Silent.stack_ne_nil {reserved : List String} {store : Store} {F : Focus} {K K' : List Frame} {o : Occurrence}
    (h : Silent reserved store F K (.enter o) K') : K' ≠ [] := by
  cases h with
  | child => exact List.cons_ne_nil _ _
  | item => exact List.cons_ne_nil _ _

theorem Moves.stack_ne_nil {w : Walker σ ν} {s t : State σ ν} (h : Moves w s t) {o : Occurrence}
    (focus : t.focus = .enter o) : t.stack ≠ [] := by
  cases h with
  | silent _ move =>
    rw [go_focus] at focus
    subst focus
    exact move.stack_ne_nil
  | raises => cases focus
  | exits => cases focus
  | skips => cases focus
  | descends => cases focus
  | leaves => cases focus

namespace Walker

variable {w : Walker σ ν} {tree : Value} {store : Store} {memory : σ} {n k : Nat} {x : Exchange σ ν}

theorem first_of_root_enter (hx : (w.run n (w.start tree store memory)).exchanges[k]? = some x)
    (root : x.isForRoot .enter) : k = 0 := by
  obtain ⟨m, -, number, f, due, -⟩ := exists_call (w.start_exchanges tree store memory) hx
  obtain ⟨key, phase⟩ : x.call.key = none ∧ x.call.phase = .enter := by simpa [Exchange.isForRoot] using root
  have lies := (w.stacked_run tree store memory m).1
  obtain ⟨o, focus, -, call⟩ | ⟨o, g, -, -, call⟩ := w.due_cases due
  · rw [focus] at lies
    rw [call] at key
    have bottom := lies.eq_nil key
    cases m with
    | zero =>
      rw [← number, run, w.start_exchanges]
      rfl
    | succ m =>
      rw [w.run_succ] at focus bottom
      exact absurd bottom ((w.step_moves _).stack_ne_nil focus)
  · rw [call] at phase
    cases phase

theorem done_of_root_leave {s : State σ ν} {f : Callback σ ν} {c : Call} {o : Occurrence} {g : Signal}
    (focus : s.focus = .leave o g) (bottom : s.stack = []) (due : w.due s.focus = some (f, c)) :
    ∃ m r, (w.run m s).focus = .done r ∧ (w.run m s).exchanges.length = s.exchanges.length + 1 := by
  have made : (w.step s).exchanges.length = s.exchanges.length + 1 := by
    rw [exchanges_called due, List.length_append, List.length_singleton]
  have called := step_called due
  simp only [focus, bottom] at called
  cases answer : (f c s.store s.memory).outcome with
  | error e =>
    rw [answer] at called
    refine ⟨1, .raised e, ?_, ?_⟩
    · rw [w.run_one, called]
      rfl
    · rw [w.run_one, made]
  | ok v =>
    -- The signal of the root is handed back to nobody.
    rw [answer] at called
    have back : (w.step s).focus = .back (.ofValue v) := by
      rw [called]
      rfl
    refine ⟨2, .returned (.ofValue v), ?_, ?_⟩
    · rw [w.run_succ, w.run_one, called]
      rfl
    · have silent : w.due (w.step s).focus = none := by
        rw [back]
        rfl
      rw [w.run_succ, w.run_one, exchanges_silent silent, made]

theorem last_of_root_leave (hx : (w.run n (w.start tree store memory)).exchanges[k]? = some x)
    (root : x.isForRoot .leave) : (w.run n (w.start tree store memory)).exchanges.length = k + 1 := by
  obtain ⟨m, -, number, f, due, -⟩ := exists_call (w.start_exchanges tree store memory) hx
  obtain ⟨key, phase⟩ : x.call.key = none ∧ x.call.phase = .leave := by simpa [Exchange.isForRoot] using root
  have lies := (w.stacked_run tree store memory m).1
  obtain ⟨o, -, -, call⟩ | ⟨o, g, focus, -, call⟩ := w.due_cases due
  · rw [call] at phase
    cases phase
  · rw [focus] at lies
    rw [call] at key
    obtain ⟨i, r, done, length⟩ := done_of_root_leave focus (lies.eq_nil key) due
    rw [← w.run_add] at done length
    have all := (exchanges_of_done done n).length_le
    have reached := (List.getElem?_eq_some_iff.mp hx).1
    omega

end Walker

theorem filter_eq_singleton {α : Type} {p : α → Bool} {xs : List α} {k : Nat} {x : α} (hx : xs[k]? = some x)
    (hp : p x = true) (only : ∀ j y, xs[j]? = some y → p y = true → j = k) : xs.filter p = [x] := by
  induction xs generalizing k with
  | nil => cases hx
  | cons a xs ih =>
    cases k with
    | zero =>
      cases hx
      have none : xs.filter p = [] := by
        refine List.filter_eq_nil_iff.mpr fun y hy holds => ?_
        obtain ⟨j, hj⟩ := List.mem_iff_getElem?.mp hy
        have := only (j + 1) y hj holds
        omega
      rw [List.filter_cons_of_pos hp, none]
    | succ k =>
      have first : ¬ p a = true := by
        intro holds
        have := only 0 a rfl holds
        omega
      rw [List.filter_cons_of_neg first]
      refine ih hx fun j y hj holds => ?_
      have := only (j + 1) y hj holds
      omega

/-- The verdict on the root is the answer to the only call for it in the phase that decides. -/
theorem Walker.filter_isForRoot {w : Walker σ ν} {tree : Value} {store : Store} {memory : σ} {n : Nat}
    {x : Exchange σ ν}
    (verdict : w.Verdict ⟨tree, none, none, []⟩ 0 (w.run n (w.start tree store memory)).exchanges x) :
    (w.run n (w.start tree store memory)).exchanges.filter (Exchange.isForRoot w.verdictPhase) = [x] ∧
      x.call.node = tree := by
  cases verdict with
  | leave given last call =>
    obtain ⟨ancestors, call⟩ := call
    have phase : w.verdictPhase = .leave := if_pos given
    rw [List.getLast?_eq_getElem?] at last
    rw [phase]
    refine ⟨filter_eq_singleton last (by simp [Exchange.isForRoot, call]) fun j y hy root => ?_, by rw [call]⟩
    have length := last_of_root_leave hy root
    omega
  | enter none first call =>
    have phase : w.verdictPhase = .enter := if_neg (by simp [none])
    rw [phase]
    refine ⟨filter_eq_singleton first (by simp [Exchange.isForRoot, call]) fun j y hy root => ?_, by rw [call]⟩
    exact first_of_root_enter hy root

/-! ## The signal that is returned -/

/-- A walk that returns `g` gives back the answer of this exchange: a list or tuple is the very value that the callback
    returned. -/
def Exchange.Yields (x : Exchange σ ν) (g : Signal) : Prop :=
  ∃ v, x.reply.outcome = .ok v ∧ g = .ofValue v ∧ (v.isSequence → g.toValue = v)

theorem Exchange.Told.yields {x : Exchange σ ν} {g : Signal} {store : Store} (h : x.Told g store) : x.Yields g := by
  obtain ⟨⟨v, answer, rfl⟩, -⟩ := h
  exact ⟨v, answer, rfl, Signal.toValue_ofValue⟩

/-- What a walk returns. If no list is edited after it was returned:
    - a call that asks to exit is the last one, and the walk returns its answer;
    - if there is none, the walk returns the answer that decides about its root, given to the only call of `leave` for
      it, or of `enter` if there is no `leave`; and nothing if the root is no node;
    - so the signal that is returned asks to exit exactly if a call did. -/
theorem returned_answer (w : Walker σ ν) (callbacks : w.HasCallback) (tree : Value) (store : Store) (memory : σ)
    (fuel : Nat) (g : Signal) (returns : (w.walk fuel tree store memory).outcome = some (.returned g))
    (unedited : Unedited (w.walk fuel tree store memory).exchanges) :
    let r := w.walk fuel tree store memory
    (∀ k x, r.exchanges[k]? = some x → x.reply.exits = true → r.exchanges.length = k + 1 ∧ x.Yields g) ∧
    ((∀ x ∈ r.exchanges, x.reply.exits = false) →
      (tree.isNode store = true →
        ∃ x, r.exchanges.filter (Exchange.isForRoot w.verdictPhase) = [x] ∧ x.call.node = tree ∧ x.Yields g) ∧
      (tree.isNode store = false → g = .silent)) ∧
    (g.isExit r.store = true ↔ ∃ x ∈ r.exchanges, x.reply.exits = true) := by
  intro r
  have exchanges : r.exchanges = (w.run fuel (w.start tree store memory)).exchanges := toRun_exchanges _
  have done : (w.run fuel (w.start tree store memory)).focus = .done (.returned g) := outcome?_eq_some.mp returns
  have left : r.store = (w.run fuel (w.start tree store memory)).store := rfl
  rw [Walker.walk, toRun_exchanges] at unedited
  have returned := Walker.returned_run callbacks (fun j hj => Walker.spares_run unedited hj) done
  simp only [exchanges, left]
  refine ⟨fun k x hx exits => ?_, fun quiet => ?_, fun exit => ?_, fun stopped => ?_⟩
  · exact ⟨Walker.last_of_exits hx exits, (Walker.told_of_exits done hx exits).yields⟩
  · rcases returned with ⟨x, last, exits, -⟩ | ⟨node, x, verdict, told⟩ | ⟨other, silent⟩
    · rw [quiet x (List.mem_of_getLast? last)] at exits
      cases exits
    · obtain ⟨only, root⟩ := Walker.filter_isForRoot verdict
      refine ⟨fun _ => ⟨x, only, root, told.yields⟩, fun other => ?_⟩
      rw [node] at other
      cases other
    · refine ⟨fun node => ?_, fun _ => silent⟩
      rw [other] at node
      cases node
  · rcases returned with ⟨x, last, exits, -⟩ | ⟨-, x, verdict, told⟩ | ⟨-, silent⟩
    · exact ⟨x, List.mem_of_getLast? last, exits⟩
    · obtain ⟨only, -⟩ := Walker.filter_isForRoot verdict
      have mem : x ∈ (w.run fuel (w.start tree store memory)).exchanges :=
        List.mem_of_mem_filter (only ▸ List.mem_singleton_self x)
      exact ⟨x, mem, told.exits.trans exit⟩
    · rw [silent] at exit
      cases exit
  · obtain ⟨x, hx, exits⟩ := stopped
    obtain ⟨k, hk⟩ := List.mem_iff_getElem?.mp hx
    rw [← (Walker.told_of_exits done hk exits).exits]
    exact exits

/-- Answers about the root with the list that it has, skips it where it is met again, and leaps over every other element
    of a list. -/
def echoing : Walker Nat Unit where
  enter := some fun c s n =>
    c.answer s (n + 1) (.ok (
      match c.key, c.index with
      | none, _ => .container .list 1
      | some _, none => .action .skip
      | some _, some i => .tuple [.null, .int (i + 2)]))
  leave := none
  reserved := []
  logging := false
  colored := false
  debug := false

/-- Asks to exit when it leaves an element of a list, with a position; names a position outside a list too. -/
def quitting : Walker Nat Unit where
  enter := none
  leave := some fun c s n =>
    c.answer s (n + 1) (.ok (if c.index.isSome then .tuple [.action .exit, .int 3] else .int 7))
  reserved := []
  logging := false
  colored := false
  debug := false

/-- A walk that meets its root twice returns the list that it was given for it the first time. A walk that is stopped at
    an element returns what stopped it, and its root is never left. -/
theorem echoed_list :
    let r := echoing.walk 40 (.container .mapping 0) looped 0
    let q := quitting.walk 40 (.container .mapping 0) shared 0
    (r.outcome = some (.returned (.live .list 1)) ∧
      r.calls.map (·.key) = [none, some "body", some "parent", some "body"] ∧
      ∃ x, r.exchanges.filter (Exchange.isForRoot .enter) = [x] ∧ x.call.node = .container .mapping 0 ∧
        x.Yields (.live .list 1)) ∧
    q.outcome = some (.returned (.fixed [.action .exit, .int 3])) ∧ q.calls.map (·.index) = [none, some 0] ∧
      ∃ x ∈ q.exchanges, x.reply.exits = true := by
  intro r q
  refine ⟨?_, ?_⟩
  · have returns : r.outcome = some (.returned (.live .list 1)) := by decide +kernel
    obtain ⟨-, unstopped, -⟩ := returned_answer echoing (.inl rfl) (.container .mapping 0) looped 0 40 _ returns
      (by decide +kernel)
    exact ⟨returns, by decide +kernel, (unstopped (by decide +kernel)).1 (by decide +kernel)⟩
  · have returns : q.outcome = some (.returned (.fixed [.action .exit, .int 3])) := by decide +kernel
    obtain ⟨-, -, stopped⟩ := returned_answer quitting (.inr rfl) (.container .mapping 0) shared 0 40 _ returns
      (by decide +kernel)
    exact ⟨returns, by decide +kernel, stopped.mp (by decide +kernel)⟩

end TreeWalk
