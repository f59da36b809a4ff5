/-
  TreeWalk.Proofs.Settled — what a callback says is settled when it returns.

  A returned list stays the list it is, and could say something else by the time it is read. Settling an answer means to
  replace a list by the tuple of the elements it has when it is returned; the settled walker has callbacks that do so.
  As long as nobody edits the answer to a visit under way (`Walker.Spares`, which asks nothing where there is a
  `leave`):
  - `Settles.step`, `settles_run`: the walker and its settled form take the same steps.
  - `settled_at_return`: so they make the same calls and leave the same store, a walk stops early only at a call that
    asked to exit when it returned, and a scan goes on where the verdict on its element said at that time.
  - `an_edited_answer_stops_a_walk`: without the condition a walk can stop although no call ever asked for it.
-/

import TreeWalk.Proofs.Verdicts

namespace TreeWalk

variable {σ ν : Type}

/-! ## Settled answers -/

/-- A list or tuple as the tuple of the elements it has. -/
def Value.settled (s : Store) (v : Value) : Value := if v.isSequence then .tuple (v.items s) else v

def Reply.settled (r : Reply σ ν) : Reply σ ν := { r with outcome := r.outcome.map (Value.settled r.store) }

def Exchange.settled (x : Exchange σ ν) : Exchange σ ν := { x with reply := x.reply.settled }

def Callback.settled (f : Callback σ ν) : Callback σ ν := fun c s m => (f c s m).settled

/-- The walker whose callbacks settle their answers. -/
def Walker.settled (w : Walker σ ν) : Walker σ ν :=
  { w with enter := w.enter.map Callback.settled, leave := w.leave.map Callback.settled }

/-- A settled answer has, in every store, the elements it had when it was returned. -/
theorem Signal.ofValue_settled (s : Store) (v : Value) :
    Signal.ofValue (v.settled s) = .fixed ((Signal.ofValue v).items s) := by
  cases v with
  | atom a => cases a <;> rfl
  | tuple vs => rfl
  | container k r => cases k <;> rfl

theorem Call.agrees_settled (leave : Bool) (c : Call) (s : Store) (v : Value) : c.Agrees leave s s v (v.settled s) := by
  have settled := Signal.ofValue_settled s v
  refine ⟨?_, fun _ => ?_, fun _ _ _ => ?_⟩
  · rw [settled]
    rfl
  · rw [settled]
    rfl
  · rw [settled]
    rfl

theorem Call.concurs_settled (leave : Bool) (c : Call) (r : Reply σ ν) : c.Concurs Eq Eq leave r r.settled := by
  refine ⟨rfl, List.forall₂_eq_eq_eq ▸ rfl, ?_⟩
  show c.Answers leave r.store r.store r.outcome (r.outcome.map (Value.settled r.store))
  cases r.outcome with
  | error e => exact .fault e
  | ok v => exact .value (c.agrees_settled leave r.store v)

theorem likeness_self (s : Store) : Likeness Eq s s := by
  refine ⟨fun h => h ▸ rfl, fun h => h ▸ rfl, fun h => h ▸ rfl, ?_, fun h => ?_⟩
  · rintro v _ rfl name
    cases v.ownField s name with
    | error e => exact .fault e
    | ok o =>
      cases o with
      | none => exact .missing
      | some u => exact .found rfl
  · subst h
    exact List.forall₂_eq_eq_eq ▸ rfl

/-- Where there is a `leave`, the signals of the visits under way do not matter. -/
theorem stackLike_of_leave {V : Value → Value → Prop} {s s' t t' : Store} {K K' : List Frame}
    (h : List.Forall₂ (Frame.Like V true s s') K K') : List.Forall₂ (Frame.Like V true t t') K K' := by
  refine h.imp fun f f' hf => ?_
  cases hf with
  | fields names hnode htrail => exact .fields names hnode htrail
  | items key position hseq hparent htrail => exact .items key position hseq hparent htrail
  | visit ho => exact .visit ho nofun

/-! ## The settled walk -/

/-- The settled walk stands at the same point. -/
structure Settles (w : Walker σ ν) (s s' : State σ ν) : Prop where
  store : s'.store = s.store
  memory : s'.memory = s.memory
  exchanges : s'.exchanges = s.exchanges.map Exchange.settled
  focus : s.focus.Like Eq w.leave.isSome s.store s'.store s.stack s'.focus
  stack : List.Forall₂ (Frame.Like Eq w.leave.isSome s.store s'.store) s.stack s'.stack
  fixed : ∀ o g, .visit o g ∈ s'.stack → ∃ vs, g = .fixed vs

section

variable {w : Walker σ ν}

theorem alike_settled (w : Walker σ ν) : w.Alike w.settled := by
  refine ⟨?_, ?_, rfl, rfl, rfl⟩
  · simp [Walker.settled]
  · simp [Walker.settled]

theorem Occurrence.Like.eq_of_eq {o o' : Occurrence} (h : o.Like Eq o') : o' = o := by
  obtain ⟨node, key, index, ancestors⟩ := h
  rw [List.forall₂_eq_eq_eq] at ancestors
  cases o
  cases o'
  simp_all

theorem due_settled {leave : Bool} {s s' : Store} {K : List Frame} {F F' : Focus} (h : F.Like Eq leave s s' K F') :
    w.settled.due F' = (w.due F).map fun p => (p.1.settled, p.2) := by
  cases h with
  | enter ho =>
    rw [ho.eq_of_eq]
    cases henter : w.enter <;> simp [Walker.due, Walker.settled, henter]
  | leave ho =>
    rw [ho.eq_of_eq]
    cases hleave : w.leave <;> simp [Walker.due, Walker.settled, hleave]
  | _ => rfl

theorem visit_mem_heed {store : Store} {ancestors : List Value} {K : List Frame} {F : Focus} {a : Except Fault Value}
    {o : Occurrence} {g : Signal} (h : .visit o g ∈ (heed store ancestors K F a).2) :
    .visit o g ∈ K ∨ ∃ v, a = .ok v ∧ g = .ofValue v := by
  unfold heed at h
  split at h
  · cases h
  · simp only at h
    split at h
    · cases h
    · split at h
      · exact .inl h
      · simp only [List.mem_cons, reduceCtorEq, false_or, Frame.visit.injEq] at h
        rcases h with ⟨-, rfl⟩ | h
        · exact .inr ⟨_, rfl, rfl⟩
        · exact .inl h
  · exact .inl h

theorem Settles.step {s s' : State σ ν} (h : Settles w s s') (spares : w.Spares s) (stacked : s.Stacked) :
    Settles w (w.step s) (w.settled.step s') := by
  have look : Likeness Eq s.store s'.store := by
    rw [h.store]
    exact likeness_self s.store
  have same := due_settled (w := w) h.focus
  cases due : w.due s.focus with
  | none =>
    rw [due] at same
    obtain ⟨F, K, move, hs⟩ := Walker.step_silent due
    obtain ⟨F', K', move', hs'⟩ := Walker.step_silent same
    obtain ⟨F₁, K₁, mirrored, hF, hK⟩ :=
      move.mirror look h.stack h.focus stacked.1 fun _ _ => w.leave_of_due due
    obtain ⟨rfl, rfl⟩ := move'.unique mirrored
    rw [hs, hs']
    refine ⟨h.store, h.memory, h.exchanges, hF, hK, fun o g hg => ?_⟩
    rcases move'.visit_mem hg with rfl | hg
    · exact ⟨[], rfl⟩
    · exact h.fixed o g hg
  | some p =>
    obtain ⟨f, c⟩ := p
    rw [due] at same
    have reply : f.settled c s'.store s'.memory = (f c s.store s.memory).settled := by
      rw [h.store, h.memory]
      rfl
    have hs' := Walker.step_called same
    simp only [reply] at hs'
    rw [Walker.step_called due, hs']
    generalize hr : f c s.store s.memory = r
    -- The visits under way are read alike after the call.
    have kept : List.Forall₂ (Frame.Like Eq w.leave.isSome r.store r.settled.store) s.stack s'.stack := by
      cases hl : w.leave with
      | some f' =>
        have stack := h.stack
        rw [hl] at stack
        exact stackLike_of_leave stack
      | none =>
        have stack := h.stack
        rw [hl] at stack
        refine stackLike_later stack (fun o g hg => ?_) fun o g hg => ?_
        · exact spares hl _ (w.exchange?_of_due due hr) o g hg
        · obtain ⟨vs, rfl⟩ := h.fixed o g hg
          rfl
    obtain ⟨hF, hK⟩ := h.focus.heed due stacked.1 (c.concurs_settled w.leave.isSome r) (likeness_self r.store) kept
    refine ⟨rfl, rfl, ?_, hF, hK, fun o g hg => ?_⟩
    · rw [go_exchanges, go_exchanges, Walker.after_exchanges, Walker.after_exchanges, h.exchanges, h.store,
        List.map_append]
      rfl
    · rcases visit_mem_heed hg with hg | ⟨v, hv, rfl⟩
      · exact h.fixed o g hg
      · obtain ⟨u, -, rfl⟩ : ∃ u, r.outcome = .ok u ∧ u.settled r.store = v := by
          have hv' : r.outcome.map (Value.settled r.store) = .ok v := hv
          cases hu : r.outcome with
          | error e => simp [hu, Except.map] at hv'
          | ok u => exact ⟨u, rfl, by simpa [hu, Except.map] using hv'⟩
        exact ⟨_, Signal.ofValue_settled r.store u⟩

theorem settles_run {tree : Value} {store : Store} {memory : σ} {n : Nat}
    (spares : ∀ k < n, w.Spares (w.run k (w.start tree store memory))) :
    Settles w (w.run n (w.start tree store memory)) (w.settled.run n (w.settled.start tree store memory)) := by
  induction n with
  | zero =>
    have look : ∀ s s', s = s' → Likeness Eq s s' := fun s s' h => h ▸ likeness_self s
    have like := Walker.start_like (T := Eq) look (alike_settled w) (rfl : tree = tree) (rfl : store = store) memory
      memory
    refine ⟨like.store.symm, ?_, ?_, like.focus, like.stack, fun o g hg => ?_⟩
    · exact (w.settled.start_memory tree store memory).trans (w.start_memory tree store memory).symm
    · exact (w.settled.start_exchanges tree store memory).trans
        (congrArg (List.map Exchange.settled) (w.start_exchanges tree store memory)).symm
    · rcases w.settled.start_keeps tree store memory o g hg with rfl | ⟨x, hx, -⟩
      · exact ⟨[], rfl⟩
      · rw [w.settled.start_exchanges] at hx
        cases hx
  | succ n ih =>
    rw [w.run_succ, w.settled.run_succ]
    exact (ih fun k hk => spares k (by omega)).step (spares n (by omega)) (w.stacked_run tree store memory n)

theorem step_of_verdict {s : State σ ν} {g : Signal} {seq : Value} {key : String} {parent : Value} {trail : List Value}
    {i : Int} {K : List Frame} (focus : s.focus = .back g) (stack : s.stack = .items seq key parent trail i :: K) :
    w.step s = if g.isExit s.store then s.go (.done (.returned g)) []
      else s.go .next (.items seq key parent trail ((g.resume s.store).getD (i + 1)) :: K) := by
  obtain ⟨store, memory, history, _, _⟩ := s
  cases focus
  cases stack
  simp only [Walker.step, Walker.backStep]
  split <;> rfl

theorem hasCallback_of_enter {tree : Value} {store : Store} {memory : σ} {n : Nat} {o : Occurrence}
    (focus : (w.run n (w.start tree store memory)).focus = .enter o) : w.HasCallback :=
  Walker.hasCallback_of_focus focus nofun

end

/-- What callbacks say is settled when they return. As long as no call edits the answer to a visit that is under way in
    a walk without `leave`:
    - a walk that stops while something is left has just made a call that asked to exit when it returned;
    - after a visit of an element of a list the walk goes on as the verdict on it said when it was given: it ends, or
      the scan goes on at the position that the verdict had, or at the next one;
    - if all callbacks settle their answers, the same calls are made in the same stores, and the walk leaves the same
      store and comes to the same kind of end. -/
theorem settled_at_return (w : Walker σ ν) (tree : Value) (store : Store) (memory : σ) (fuel : Nat)
    (spares : ∀ n < fuel, w.Spares (w.run n (w.start tree store memory))) :
    let state := fun n => w.run n (w.start tree store memory)
    let r := w.walk fuel tree store memory
    let r' := w.settled.walk fuel tree store memory
    (∀ n < fuel, ∀ g, (∀ r, (state n).focus ≠ .done r) → (state n).Waiting →
      (state (n + 1)).focus = .done (.returned g) →
        ∃ x, (state (n + 1)).exchanges.getLast? = some x ∧ x.reply.exits = true) ∧
    (∀ n m, n + m < fuel → ∀ o seq key parent trail i K g, (state n).focus = .enter o →
      (state n).stack = .items seq key parent trail i :: K → w.Over (state n) m g →
        ∃ x v, w.Verdict o (state n).exchanges.length (state (n + m)).exchanges x ∧ x.reply.outcome = .ok v ∧
          state (n + m + 1) = if (Signal.ofValue v).isExit x.reply.store
            then (state (n + m)).go (.done (.returned (.ofValue v))) []
            else (state (n + m)).go .next
              (.items seq key parent trail (((Signal.ofValue v).resume x.reply.store).getD (i + 1)) :: K)) ∧
    r'.exchanges = r.exchanges.map Exchange.settled ∧ r'.store = r.store ∧ r'.memory = r.memory ∧
      OutcomeLike r.outcome r'.outcome := by
  intro state r r'
  refine ⟨fun n hn g going waiting stops => ?_, fun n m hnm o seq key parent trail i K g focus stack ended => ?_, ?_⟩
  · have hearing : Hearing w (state n) := hearing_run fun k hk => spares k (by omega)
    have next : state (n + 1) = w.step (state n) := w.run_succ n _
    rw [next] at stops ⊢
    obtain ⟨x, last, exits, -⟩ :=
      exits_of_waiting hearing (w.sound_run tree store memory n) going waiting stops
    exact ⟨x, last, exits⟩
  · have hadd : ∀ k, w.run k (state n) = state (n + k) := fun k => (w.run_add n k _).symm
    obtain ⟨x, verdict, ⟨⟨v, answer, rfl⟩, items⟩⟩ := verdict_of_over (hasCallback_of_enter focus) focus ended
      fun k hk => by rw [hadd]; exact spares (n + k) (by omega)
    rw [hadd] at verdict items
    refine ⟨x, v, verdict, answer, ?_⟩
    have next : state (n + m + 1) = w.step (state (n + m)) := w.run_succ (n + m) _
    rw [next, step_of_verdict (by rw [← hadd]; exact ended.focus) (by rw [← hadd, ended.stack, stack]),
      Signal.isExit_of_items items, Signal.resume_of_items items]
  · have settles := settles_run spares
    refine ⟨?_, settles.store, settles.memory, settles.focus.outcome⟩
    simp only [r, r', Walker.walk, toRun_exchanges, settles.exchanges]

/-! ## An answer that is edited -/

/-- Whether the next call leaves the answers to the visits under way alone, where it matters. -/
def Walker.isSparing (w : Walker σ ν) (s : State σ ν) : Bool :=
  w.leave.isSome || (w.exchange? s).all fun x => s.stack.all fun
    | .visit _ g => g.items x.reply.store = g.items s.store
    | _ => true

theorem Walker.spares_of_isSparing {w : Walker σ ν} {s : State σ ν} (h : w.isSparing s) : w.Spares s := by
  intro none x hx o g hg
  simp only [isSparing, none, Option.isSome_none, Bool.false_or, hx, Option.all_some, List.all_eq_true] at h
  simpa using h _ hg

/-- Answers about the first node with a list that this node has; each call edits the store. -/
def answering (edit : Value → Store → Store) : Walker Nat Unit where
  enter := some fun c s n =>
    c.answer (edit c.node s) n (.ok (if c.node = .container .mapping 2 then .container .list 3 else .null))
  leave := none
  reserved := []
  logging := false
  colored := false
  debug := true

/-- The child puts the last node into the list of nodes once more; the last node edits the answer about the first, whose
    visit is over. -/
def tidying : Walker Nat Unit := answering fun node s =>
  match node with
  | .container .mapping 4 => s.setItems 1 ((s.cell 1).items ++ [.container .mapping 5])
  | .container .mapping 5 => s.setItems 3 [.action .exit]
  | _ => s

theorem tidied_answer :
    let state := fun n => tidying.run n (tidying.start (.container .mapping 0) answered 0)
    let r := tidying.walk 45 (.container .mapping 0) answered 0
    let r' := tidying.settled.walk 45 (.container .mapping 0) answered 0
    (∀ n < 45, tidying.Spares (state n)) ∧ tidying.Over (state 4) 16 (.live .list 3) ∧
      (∃ x v, tidying.Verdict ⟨.container .mapping 2, some "body", some 0, [.container .mapping 0]⟩ 1
        (state 20).exchanges x ∧ x.reply.outcome = .ok v ∧
          state 21 = if (Signal.ofValue v).isExit x.reply.store
            then (state 20).go (.done (.returned (.ofValue v))) []
            else (state 20).go .next (.items (.container .list 1) "body" (.container .mapping 0) []
              (((Signal.ofValue v).resume x.reply.store).getD 1) :: (state 20).stack.tail)) ∧
      r'.exchanges = r.exchanges.map Exchange.settled ∧ r'.store = r.store ∧
      r.calls.map (·.index) = [none, some 0, none, some 1, some 2] := by
  intro state r r'
  have spares : ∀ n < 45, tidying.Spares (state n) := by
    have sparing : ∀ n < 45, tidying.isSparing (state n) := by decide +kernel
    exact fun n hn => Walker.spares_of_isSparing (sparing n hn)
  have ended : tidying.Over (state 4) 16 (.live .list 3) := by
    refine ⟨by decide +kernel, by decide +kernel, fun k hk g back => ?_⟩
    have inside : ∀ k < 16, (tidying.run k (state 4)).focus = (state 4).focus ∨
        (tidying.run k (state 4)).focus = (state 19).focus ∨ (tidying.run k (state 4)).stack ≠ (state 4).stack := by
      decide +kernel
    rcases inside k hk with enter | leave | above
    · rw [back] at enter
      cases enter
    · rw [back] at leave
      cases leave
    · exact above
  obtain ⟨-, goes, exchanges, store, -⟩ := settled_at_return tidying (.container .mapping 0) answered 0 45 spares
  refine ⟨spares, ended, ?_, exchanges, store, by decide +kernel⟩
  exact goes 4 16 (by omega) _ _ _ _ _ _ _ _ rfl rfl ended

/-- Asks to exit in the list that was returned, when it enters the child. -/
def halting : Walker Nat Unit := answering fun node s =>
  if node = .container .mapping 4 then s.setItems 3 [.action .exit, .int 1] else s

/-- No call asks to exit when it returns; yet the walk stops while an element of the list is left, since the answer
    about the element before it was edited. With settled answers the walk goes on. -/
theorem an_edited_answer_stops_a_walk :
    let state := fun n => halting.run n (halting.start (.container .mapping 0) answered 0)
    let r := halting.walk 40 (.container .mapping 0) answered 0
    let r' := halting.settled.walk 40 (.container .mapping 0) answered 0
    (state 20).Waiting ∧ (state 21).focus = .done (.returned (.live .list 3)) ∧
      (∀ x ∈ r.exchanges, x.reply.exits = false) ∧
      r.calls.map (·.node) = [.container .mapping 0, .container .mapping 2, .container .mapping 4] ∧
      r'.calls.map (·.node) =
        [.container .mapping 0, .container .mapping 2, .container .mapping 4, .container .mapping 5] := by
  refine ⟨.inl ?_, ?_, ?_, ?_, ?_⟩
  · decide +kernel
  · decide +kernel
  · decide +kernel
  · decide +kernel
  · decide +kernel

end TreeWalk
