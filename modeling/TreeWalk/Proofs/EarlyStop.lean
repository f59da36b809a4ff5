/-
  TreeWalk.Proofs.EarlyStop — a callback that stops the walk stops it at once.

  `Walker.cutAt k last` is a walk with the same callbacks, except that call number `k` answers as `last` says after it
  did what it does; it counts the calls in its memory. Run beside the walk it was made from, it stands at the same point
  as long as fewer than `k` calls were made (`Beside`, `run_beside`). If the answer is a fault, or a value that asks to
  exit, the walk ends with that call (`cut_ends`): an `enter` ends it in the same step, a `leave` one step later.
  - `early_stop`: so the cut walk makes the calls up to number `k` in the same stores and with the same arguments, makes
    no call after it, leaves the store as that call left it, and its outcome is that answer.
-/

import TreeWalk.Proofs.Steps

namespace TreeWalk

variable {σ ν : Type}

/-- The same callback, but call number `k` gives another answer. It is made in the store that the call leaves, where a
    new list that is returned gets its place. -/
def Callback.cutAt (k : Nat) (last : Store → Except Fault Value × Store) (f : Callback σ ν) : Callback (σ × Nat) ν :=
  fun c s m =>
  let r := f c s m.1
  { outcome := if m.2 = k then (last r.store).1 else r.outcome
    store := if m.2 = k then (last r.store).2 else r.store
    memory := (r.memory, m.2 + 1)
    notes := r.notes
    ancestors := r.ancestors }

def Walker.cutAt (w : Walker σ ν) (k : Nat) (last : Store → Except Fault Value × Store) : Walker (σ × Nat) ν where
  enter := w.enter.map (·.cutAt k last)
  leave := w.leave.map (·.cutAt k last)
  reserved := w.reserved
  logging := w.logging
  colored := w.colored
  debug := w.debug

def Outcome.ofAnswer : Except Fault Value → Outcome
  | .error e => .raised e
  | .ok v => .returned (.ofValue v)

variable (w : Walker σ ν) (k : Nat) (last : Store → Except Fault Value × Store)

theorem due_cutAt (F : Focus) :
    (w.cutAt k last).due F = (w.due F).map fun p => (p.1.cutAt k last, p.2) := by
  cases F with
  | enter o => cases he : w.enter <;> simp [Walker.due, Walker.cutAt, he]
  | leave o g => cases hl : w.leave <;> simp [Walker.due, Walker.cutAt, hl]
  | _ => rfl

/-- A walk and the walk that is cut, at the same point; the cut one has counted the calls. -/
structure Beside (s : State σ ν) (s' : State (σ × Nat) ν) : Prop where
  aligned : Walker.Aligned s s'
  memory : s'.memory = (s.memory, s.exchanges.length)
  scenes : s'.exchanges.map Exchange.scene = s.exchanges.map Exchange.scene

theorem beside_start (tree : Value) (store : Store) (memory : σ) :
    Beside (w.start tree store memory) ((w.cutAt k last).start tree store (memory, 0)) := by
  have hnone : ((w.cutAt k last).enter.isNone && (w.cutAt k last).leave.isNone) =
      (w.enter.isNone && w.leave.isNone) := by simp [Walker.cutAt]
  unfold Walker.start
  simp only [hnone]
  split
  · exact ⟨⟨rfl, rfl, rfl⟩, rfl, rfl⟩
  · split <;> exact ⟨⟨rfl, rfl, rfl⟩, rfl, rfl⟩

variable {w k last} {s : State σ ν} {s' : State (σ × Nat) ν}

/-- As long as call number `k` is not made, the two walks stay at the same point. -/
theorem Beside.step (h : Beside s s') (hk : (w.step s).exchanges.length ≤ k) :
    Beside (w.step s) ((w.cutAt k last).step s') := by
  have hdue := due_cutAt w k last s.focus
  rw [← h.aligned.focus] at hdue
  cases due : w.due s.focus with
  | none =>
    have due' : (w.cutAt k last).due s'.focus = none := by rw [hdue, h.aligned.focus, due]; rfl
    obtain ⟨aligned, memory, memory'⟩ := h.aligned.silent rfl due due'
    refine ⟨aligned, ?_, ?_⟩
    · rw [memory, memory', Walker.exchanges_silent due, h.memory]
    · rw [Walker.exchanges_silent due, Walker.exchanges_silent due', h.scenes]
  | some p =>
    obtain ⟨f, c⟩ := p
    have due' : (w.cutAt k last).due s'.focus = some (f.cutAt k last, c) := by
      rw [hdue, h.aligned.focus, due]
      rfl
    rw [Walker.exchanges_called due, List.length_append, List.length_singleton] at hk
    -- The call that is made here has a number below `k`, so it is answered as before.
    have hne : s.exchanges.length ≠ k := by omega
    have hreply : f.cutAt k last c s'.store s'.memory =
        { outcome := (f c s.store s.memory).outcome
          store := (f c s.store s.memory).store
          memory := ((f c s.store s.memory).memory, s.exchanges.length + 1)
          notes := (f c s.store s.memory).notes
          ancestors := (f c s.store s.memory).ancestors } := by
      simp only [Callback.cutAt, h.aligned.store, h.memory, hne, if_false]
    refine ⟨h.aligned.called due due' ?_ ?_ ?_, ?_, ?_⟩
    · rw [hreply]
    · rw [hreply]
    · rw [hreply]
    · rw [Walker.exchanges_called due, Walker.step_called due, Walker.step_called due', hreply]
      simp
    · rw [Walker.exchanges_called due, Walker.exchanges_called due', List.map_append, List.map_append, h.scenes,
        h.aligned.store]
      rfl

theorem run_beside (tree : Value) (store : Store) (memory : σ) (n : Nat)
    (hk : (w.run n (w.start tree store memory)).exchanges.length ≤ k) :
    Beside (w.run n (w.start tree store memory))
      ((w.cutAt k last).run n ((w.cutAt k last).start tree store (memory, 0))) := by
  induction n with
  | zero => exact beside_start w k last tree store memory
  | succ n ih =>
    rw [Walker.run_succ] at hk ⊢
    rw [Walker.run_succ]
    have hle := (w.step_moves (w.run n (w.start tree store memory))).exchanges.length_le
    exact (ih (by omega)).step hk

/-! ## The call that stops the walk -/

/-- The next step of `s` makes the call of `x`, and has call number `k`. -/
def MakesCall (w : Walker σ ν) (k : Nat) (x : Exchange σ ν) (s : State σ ν) : Prop :=
  s.exchanges.length = k ∧ ∃ f, w.due s.focus = some (f, x.call) ∧ x = ⟨x.call, s.store, f x.call s.store s.memory⟩

theorem exists_call {s : State σ ν} (hs : s.exchanges = []) {n : Nat} {x : Exchange σ ν}
    (hx : (w.run n s).exchanges[k]? = some x) : ∃ m < n, MakesCall w k x (w.run m s) := by
  induction n with
  | zero =>
    rw [show w.run 0 s = s from rfl, hs] at hx
    cases hx
  | succ n ih =>
    have earlier (h : (w.run n s).exchanges[k]? = some x) : ∃ m < n + 1, MakesCall w k x (w.run m s) := by
      obtain ⟨m, hm, hcall⟩ := ih h
      exact ⟨m, by omega, hcall⟩
    rw [Walker.run_succ] at hx
    cases due : w.due (w.run n s).focus with
    | none =>
      rw [Walker.exchanges_silent due] at hx
      exact earlier hx
    | some p =>
      obtain ⟨f, c⟩ := p
      rw [Walker.exchanges_called due] at hx
      rcases Nat.lt_or_ge k (w.run n s).exchanges.length with hlt | hge
      · rw [List.getElem?_append_left hlt] at hx
        exact earlier hx
      · rw [List.getElem?_append_right hge] at hx
        have hk : k = (w.run n s).exchanges.length := by
          have := (List.getElem?_eq_some_iff.mp hx).1
          rw [List.length_singleton] at this
          omega
        rw [hk, Nat.sub_self] at hx
        cases hx
        exact ⟨n, by omega, hk.symm, f, due, rfl⟩

theorem MakesCall.exchanges {x : Exchange σ ν} (h : MakesCall w k x s) : (w.step s).exchanges = s.exchanges ++ [x] := by
  obtain ⟨-, f, due, hx⟩ := h
  rw [Walker.exchanges_called due, ← hx]

/-- A callback that fails or asks to exit ends the walk: an `enter` at once, a `leave` when its signal is read. -/
theorem Walker.stops_ends {f : Callback σ ν} {c : Call} {r : Reply σ ν} (due : w.due s.focus = some (f, c))
    (reply : f c s.store s.memory = r) (stops : r.stops) :
    ∃ n, w.run n s = (w.after c r s).go (.done (.ofAnswer r.outcome)) [] := by
  have hstep := Walker.step_called due
  simp only [reply] at hstep
  cases hr : r.outcome with
  | error e =>
    refine ⟨1, ?_⟩
    rw [w.run_one, hstep, hr]
    cases s.focus <;> rfl
  | ok v =>
    have hx : (Signal.ofValue v).isExit r.store = true := (Reply.stops_of_ok hr).symm.trans stops
    obtain ⟨o, hf, -, -⟩ | ⟨o, g, hf, -, -⟩ := w.due_cases due
    · refine ⟨1, ?_⟩
      rw [w.run_one, hstep, hr, hf]
      simp only [heed, hx, if_true, Outcome.ofAnswer]
    · refine ⟨2, ?_⟩
      rw [w.run_succ, w.run_one, hstep, hr, hf]
      exact w.step_exit rfl hx

theorem Walker.done_of_stopping_call {tree : Value} {store : Store} {memory : σ} {n : Nat} {x : Exchange σ ν}
    (hx : (w.run n (w.start tree store memory)).exchanges[k]? = some x) (stops : x.reply.stops) :
    ∃ m, let t := w.run m (w.start tree store memory)
      t.focus = .done (.ofAnswer x.reply.outcome) ∧ t.store = x.reply.store ∧ t.exchanges.length = k + 1 := by
  obtain ⟨m, -, number, f, due, same⟩ := exists_call (w.start_exchanges tree store memory) hx
  have reply : f x.call (w.run m (w.start tree store memory)).store (w.run m (w.start tree store memory)).memory =
      x.reply := by rw [same]
  obtain ⟨i, ended⟩ := stops_ends due reply stops
  refine ⟨m + i, ?_⟩
  rw [w.run_add, ended]
  refine ⟨rfl, rfl, ?_⟩
  rw [go_exchanges, after_exchanges, List.length_append, number, List.length_singleton]

theorem Beside.cut_ends (h : Beside s s') {x : Exchange σ ν} (hx : MakesCall w k x s)
    (stops : Reply.stops { x.reply with outcome := (last x.reply.store).1, store := (last x.reply.store).2 }) :
    ∃ n, let t := (w.cutAt k last).run n s'
      t.focus = .done (.ofAnswer (last x.reply.store).1) ∧ t.store = (last x.reply.store).2 ∧
        t.memory = (x.reply.memory, k + 1) ∧
        t.exchanges.map Exchange.scene = s.exchanges.map Exchange.scene ++ [x.scene] := by
  obtain ⟨hk, f, due, hxe⟩ := hx
  have due' : (w.cutAt k last).due s'.focus = some (f.cutAt k last, x.call) := by
    rw [due_cutAt, h.aligned.focus, due]
    rfl
  have reply : f.cutAt k last x.call s'.store s'.memory =
      { outcome := (last x.reply.store).1
        store := (last x.reply.store).2
        memory := (x.reply.memory, k + 1)
        notes := x.reply.notes
        ancestors := x.reply.ancestors } := by
    rw [hxe]
    simp only [Callback.cutAt, h.aligned.store, h.memory, hk, if_true]
  obtain ⟨n, hn⟩ := Walker.stops_ends due' reply stops
  refine ⟨n, ?_⟩
  rw [hn]
  refine ⟨rfl, rfl, rfl, ?_⟩
  rw [go_exchanges, Walker.after_exchanges, List.map_append, h.scenes, h.aligned.store, hxe]
  rfl

/-- A walk in which call number `k` fails or asks to exit makes the calls up to that one, each in the same store and
    with the same arguments, and no other; it leaves the store as that call left it, and ends with its answer. -/
theorem early_stop (w : Walker σ ν) (tree : Value) (store : Store) (memory : σ) (fuel k : Nat) (x : Exchange σ ν)
    (last : Store → Except Fault Value × Store) (made : (w.walk fuel tree store memory).exchanges[k]? = some x)
    (stops : Reply.stops { x.reply with outcome := (last x.reply.store).1, store := (last x.reply.store).2 }) :
    ∃ r, (w.cutAt k last).Ends tree store (memory, 0) r ∧ r.outcome = some (.ofAnswer (last x.reply.store).1) ∧
      r.exchanges.map Exchange.scene = ((w.walk fuel tree store memory).exchanges.map Exchange.scene).take (k + 1) ∧
      r.store = (last x.reply.store).2 ∧ r.memory = (x.reply.memory, k + 1) := by
  rw [Walker.walk, toRun_exchanges] at *
  obtain ⟨m, hm, hcall⟩ := exists_call (w.start_exchanges tree store memory) made
  have beside : Beside _ ((w.cutAt k last).run m ((w.cutAt k last).start tree store (memory, 0))) :=
    run_beside tree store memory m (Nat.le_of_eq hcall.1)
  obtain ⟨n, hfocus, hstore, hmemory, hscenes⟩ := beside.cut_ends hcall stops
  rw [← Walker.run_add] at hfocus hstore hmemory hscenes
  refine ⟨_, Walker.ends_of_done _ hfocus, outcome?_eq_some.mpr hfocus, ?_, hstore, hmemory⟩
  have hpre := w.run_exchanges_mono hm (w.start tree store memory)
  rw [w.run_succ, hcall.exchanges] at hpre
  have htake := List.prefix_iff_eq_take.mp (hpre.map Exchange.scene)
  rw [List.length_map, List.length_append, hcall.1, List.length_singleton] at htake
  rw [toRun_exchanges, hscenes, ← htake, List.map_append]
  rfl

/-- A node with a list of two more, the second of which is also a field of the first. -/
def shared : Store := ⟨#[
  { fields := .ofList [("type", .text "Block"), ("body", .container .list 1)] },
  { items := [.container .mapping 2, .container .mapping 3] },
  { fields := .ofList [("type", .text "Call"), ("argument", .container .mapping 3)] },
  { fields := .ofList [("type", .text "Name")] }]⟩

/-- Counts the nodes it enters, and takes the last element off the list whenever it leaves one. -/
def shortening : Walker Nat Unit where
  enter := some fun c s n => c.answer s (n + 1) (.ok .null)
  leave := some fun c s n => c.answer (s.setItems 1 (s.cell 1).items.dropLast) n (.ok .null)
  reserved := []
  logging := false
  colored := false
  debug := false

/-- Return a new list that asks to exit. -/
def exitList (s : Store) : Except Fault Value × Store :=
  (.ok (.container .list s.size), s.push { items := [.action .exit] })

/-- The first `leave`, two nodes deep, asks to exit: the two nodes around it are never left. -/
theorem shared_early_stop :
    ∃ r, (shortening.cutAt 3 exitList).Ends (.container .mapping 0) shared (0, 0) r ∧
      r.outcome = some (.returned (.live .list 4)) ∧ r.calls.map (·.phase) = [.enter, .enter, .enter, .leave] ∧
      (r.store.cell 1).items = [.container .mapping 2] ∧ (r.store.cell 4).items = [.action .exit] := by
  have made : (shortening.walk 60 (.container .mapping 0) shared 0).exchanges[3]? = some
      ⟨⟨⟨.container .mapping 3, some "argument", none, [.container .mapping 0, .container .mapping 2]⟩, .leave⟩, shared,
        ⟨⟨.ok .null, shared.setItems 1 [.container .mapping 2], 3, []⟩,
          [.container .mapping 0, .container .mapping 2]⟩⟩ := rfl
  obtain ⟨r, hends, hout, hscenes, hstore, -⟩ :=
    early_stop shortening (.container .mapping 0) shared 0 60 3 _ exitList made rfl
  refine ⟨r, hends, hout, ?_, by rw [hstore]; rfl, by rw [hstore]; rfl⟩
  have hphases := congrArg (List.map fun p : Call × Store => p.1.phase) hscenes
  rw [List.map_map] at hphases
  rw [Run.calls, List.map_map]
  exact hphases

end TreeWalk
