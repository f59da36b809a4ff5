/-
  TreeWalk.Proofs.Bracketing — calls are nested like brackets.

  Replaying the calls of a walk, a call of `enter` opens its node and a call of `leave` closes the node that was opened
  last. `replay` does so and checks every call on the way: a node is closed under the field and the position it was
  opened under, and the ancestors a call is given are the nodes open at that time (under the root, if the root is no
  node).

  The invariant (`Bracketed`) reads the open nodes off the stack: a node is open while its visit waits there, and while
  it is about to be left. Every frame lies on the visits that lead to it (`Nested`), so the trail it carries is the list
  of nodes open below it.
  - `calls_bracketed`: with both callbacks, and as long as they leave their lists of ancestors alone, every call of
    every walk passes the check, after any number of steps; when the walk is over and no callback stopped it, nothing is
    open.
-/

import TreeWalk.Proofs.Steps

namespace TreeWalk

variable {σ ν : Type}

/-- A node with the field and the position that led to it. -/
structure Mark where
  node : Value
  key : Option String
  index : Option Nat
  deriving DecidableEq, Repr

def Occurrence.mark (o : Occurrence) : Mark := ⟨o.node, o.key, o.index⟩

/-- The ancestors a call has under these open nodes (the innermost first). -/
def lineage (base : List Value) (opened : List Mark) : List Value := base ++ (opened.map Mark.node).reverse

/-- Check a call against the nodes that are open, and open or close its node. -/
def Call.check (base : List Value) (opened : List Mark) (c : Call) : Option (List Mark) :=
  match c.phase, opened with
  | .enter, _ => if c.ancestors = lineage base opened then some (c.mark :: opened) else none
  | .leave, top :: below => if c.mark = top ∧ c.ancestors = lineage base below then some below else none
  | .leave, [] => none

/-- The nodes still open after these calls, if every call passes its check. -/
def replay (base : List Value) (calls : List Call) : Option (List Mark) := calls.foldlM (Call.check base) []

theorem replay_snoc {base : List Value} {calls : List Call} {opened : List Mark} (h : replay base calls = some opened)
    (c : Call) : replay base (calls ++ [c]) = c.check base opened := by
  simp only [replay, List.foldlM_append] at h ⊢
  rw [h]
  simp

/-! ## The open nodes of a state -/

def Frame.mark? : Frame → Option Mark
  | .visit o _ => some o.mark
  | _ => none

def marks (stack : List Frame) : List Mark := stack.filterMap Frame.mark?

def opened : Focus → List Frame → List Mark
  | .leave o _, K => o.mark :: marks K
  | _, K => marks K

/-- What a frame carries fits the visits below it. -/
def Frame.Fits (base : List Value) (below : List Frame) : Frame → Prop
  | .fields node trail _ => trail ++ [node] = lineage base (marks below)
  | .items _ _ parent trail _ => trail ++ [parent] = lineage base (marks below)
  | .visit o _ => o.ancestors = lineage base (marks below)

def Nested (base : List Value) : List Frame → Prop
  | [] => True
  | frame :: below => frame.Fits base below ∧ Nested base below

def Focus.Fits (base : List Value) (stack : List Frame) : Focus → Prop
  | .enter o => o.ancestors = lineage base (marks stack)
  | .leave o _ => o.ancestors = lineage base (marks stack)
  | _ => True

theorem lineage_visit (base : List Value) (o : Occurrence) (g : Signal) (K : List Frame) :
    lineage base (marks (.visit o g :: K)) = lineage base (marks K) ++ [o.node] := by
  simp [lineage, marks, Frame.mark?, Occurrence.mark]

theorem Silent.nested {reserved : List String} {store : Store} {base : List Value} {F F' : Focus} {K K' : List Frame}
    (h : Silent reserved store F K F' K') (hF : F.Fits base K) (hK : Nested base K) :
    F'.Fits base K' ∧ Nested base K' := by
  cases h with
  | enter o K =>
    refine ⟨trivial, ?_, hF, hK⟩
    show o.ancestors ++ [o.node] = lineage base (marks (.visit o .silent :: K))
    rw [lineage_visit, ← hF]
  | child => exact ⟨hK.1, hK⟩
  | item => exact ⟨hK.1, hK⟩
  | scan => exact ⟨trivial, hK.1, hK⟩
  | childrenOver => exact hK
  | fieldsOver => exact ⟨trivial, hK.2⟩
  | scanOver => exact ⟨trivial, hK.2⟩
  | leave => exact ⟨trivial, hK⟩
  | passField => exact ⟨trivial, hK⟩
  | passItem => exact ⟨trivial, hK⟩
  | resume => exact ⟨trivial, hK⟩
  | toFields => exact ⟨trivial, hK⟩
  | toVisit => exact ⟨trivial, hK⟩
  | rest => exact ⟨trivial, hK⟩
  | stop => exact ⟨trivial, trivial⟩
  | fault => exact ⟨trivial, trivial⟩
  | rootOver => exact ⟨trivial, trivial⟩
  | exit => exact ⟨trivial, trivial⟩

theorem Silent.opened {reserved : List String} {store : Store} {F F' : Focus} {K K' : List Frame}
    (h : Silent reserved store F K F' K') (hF : ∀ o g, F ≠ .enter o ∧ F ≠ .leave o g) (hF' : ∀ o, F' ≠ .done o) :
    opened F' K' = opened F K := by
  cases h with
  | enter o => exact absurd rfl (hF o .silent).1
  | leave o g => exact absurd rfl (hF o g).2
  | stop => exact absurd rfl (hF' _)
  | fault => exact absurd rfl (hF' _)
  | rootOver => exact absurd rfl (hF' _)
  | exit => exact absurd rfl (hF' _)
  | rest => exact absurd rfl (hF' _)
  | _ => rfl

/-! ## The invariant -/

/-- No callback failed or asked to exit. -/
def State.Unstopped (s : State σ ν) : Prop := ∀ x ∈ s.exchanges, x.reply.stops = false

/-- The calls so far leave open what is open in the state while the walk goes on, and nothing once it is over, unless a
    callback stopped it. -/
def State.Accounted (base : List Value) (s : State σ ν) : Prop :=
  ∃ l, replay base s.calls = some l ∧ (s.outcome? = none → l = opened s.focus s.stack) ∧
    (s.outcome?.isSome → s.Unstopped → l = [])

structure Bracketed (base : List Value) (s : State σ ν) : Prop where
  sound : s.Sound
  fits : s.focus.Fits base s.stack
  nested : Nested base s.stack
  accounted : s.Accounted base
  /-- A signal on its way back is the one a callback just returned. -/
  answered : ∀ g, s.focus = .back g → ∃ x ∈ s.exchanges, x.reply.stops = g.isExit s.store

namespace Bracketed

variable {w : Walker σ ν} {base : List Value} {s : State σ ν}

theorem replay_going (h : Bracketed base s) (hf : s.outcome? = none) :
    replay base s.calls = some (opened s.focus s.stack) := by
  obtain ⟨l, hl, hgoing, -⟩ := h.accounted
  rw [hl, hgoing hf]

theorem fits_enter (h : Bracketed base s) {o : Occurrence} (hf : s.focus = .enter o) :
    o.ancestors = lineage base (marks s.stack) := by
  have := h.fits
  rwa [hf] at this

theorem replay_enter (h : Bracketed base s) {o : Occurrence} (hf : s.focus = .enter o) :
    replay base (s.calls ++ [{ o with phase := .enter }]) = some (o.mark :: marks s.stack) := by
  have hr := h.replay_going (by simp [State.outcome?, hf])
  rw [hf] at hr
  rw [replay_snoc hr]
  exact if_pos (h.fits_enter hf)

theorem replay_leave (h : Bracketed base s) {o : Occurrence} {g : Signal} (hf : s.focus = .leave o g) :
    replay base (s.calls ++ [{ o with phase := .leave }]) = some (marks s.stack) := by
  have hr := h.replay_going (by simp [State.outcome?, hf])
  have ha := h.fits
  rw [hf] at hr ha
  rw [replay_snoc hr]
  exact if_pos ⟨rfl, ha⟩

theorem replay_due (h : Bracketed base s) {f : Callback σ ν} {c : Call} (hd : w.due s.focus = some (f, c)) :
    ∃ l, replay base (s.calls ++ [c]) = some l := by
  obtain ⟨o, hf, -, rfl⟩ | ⟨o, g, hf, -, rfl⟩ := w.due_cases hd
  · exact ⟨_, h.replay_enter hf⟩
  · exact ⟨_, h.replay_leave hf⟩

theorem finish (h : Bracketed base s) {f : Callback σ ν} {c : Call} {r : Reply σ ν}
    (hd : w.due s.focus = some (f, c)) (hr : r.stops = true) (o : Outcome) :
    Bracketed base ((w.after c r s).go (.done o) []) := by
  obtain ⟨l, hl⟩ := h.replay_due hd
  refine ⟨nofun, trivial, trivial, ⟨l, by simpa using hl, nofun, fun _ unstopped => ?_⟩, nofun⟩
  have hx : r.stops = false := unstopped _ (w.mem_after c r s)
  rw [hr] at hx
  cases hx

theorem silent (h : Bracketed base s) {F : Focus} {K : List Frame}
    (hF : ∀ o g, s.focus ≠ .enter o ∧ s.focus ≠ .leave o g)
    (move : Silent w.reserved s.store s.focus s.stack F K) : Bracketed base (s.go F K) := by
  obtain ⟨hfits, hnested⟩ := move.nested h.fits h.nested
  obtain ⟨l, hl, hgoing, hover⟩ := h.accounted
  refine ⟨move.sound h.sound, hfits, hnested, ⟨l, hl, fun hn => ?_, fun hd unstopped => ?_⟩, fun g hg => ?_⟩
  · have hn' := outcome?_eq_none.mp hn
    rw [hgoing (outcome?_eq_none.mpr (move.going hn'))]
    exact (move.opened hF hn').symm
  · obtain ⟨o, ho⟩ := Option.isSome_iff_exists.mp hd
    have hFo : F = .done o := outcome?_eq_some.mp ho
    subst hFo
    cases hs : s.outcome? with
    | some o' => exact hover (by simp [hs]) unstopped
    | none =>
      have hl' := hgoing hs
      rcases move.ending (outcome?_eq_none.mp hs) h.sound with ⟨hf, hK, -⟩ | ⟨g, hf, hK | hx, -⟩
      · rw [hl', hf, hK]
        rfl
      · rw [hl', hf, hK]
        rfl
      · -- The signal asks to exit, but it is an answer, and no answer did.
        obtain ⟨x, hx', hstops⟩ := h.answered g hf
        rw [hx, unstopped x hx'] at hstops
        cases hstops
  · have hFg : F = .back g := hg
    subst hFg
    obtain ⟨o, ho, -⟩ := move.back
    exact absurd ho (hF o g).2

end Bracketed

/-- A move of a walk that has both callbacks keeps the calls bracketed, if the callback it calls leaves the list of
    ancestors as it was. -/
theorem Moves.bracketed {w : Walker σ ν} {base : List Value} {s t : State σ ν} (h : Moves w s t)
    (he : w.enter.isSome) (hl : w.leave.isSome) (kept : ∀ x ∈ t.exchanges, x.reply.ancestors = x.call.ancestors)
    (hs : Bracketed base s) : Bracketed base t := by
  cases h with
  | silent due move =>
    -- Both callbacks are there, so no node is entered or left silently.
    refine hs.silent (fun o g => ⟨fun hf => ?_, fun hf => ?_⟩) move
    · rw [hf] at due
      simp [Walker.due, Option.isSome_iff_ne_none.mp he] at due
    · rw [hf] at due
      simp [Walker.due, Option.isSome_iff_ne_none.mp hl] at due
  | raises due reply answer => exact hs.finish due (Reply.stops_of_error answer) _
  | @exits f o v r focus callback reply answer exit =>
    have due := w.due_of_enter callback o
    rw [← focus] at due
    exact hs.finish due (by rw [Reply.stops_of_ok answer, exit]) _
  | @skips f o v r focus callback reply answer exit skip =>
    have ha : r.ancestors = o.ancestors := kept _ (w.mem_after _ r s)
    have hfits := hs.fits_enter focus
    refine ⟨hs.sound, ha.trans hfits, hs.nested, ⟨o.mark :: marks s.stack, ?_, fun _ => rfl, fun h => by cases h⟩,
      fun _ h => by cases h⟩
    rw [go_calls, w.after_calls]
    exact hs.replay_enter focus
  | @descends f o v r focus callback reply answer exit skip =>
    have ha : r.ancestors = o.ancestors := kept _ (w.mem_after _ r s)
    have hfits := hs.fits_enter focus
    refine ⟨(Moves.descends focus callback reply answer exit skip).sound hs.sound, trivial,
      ⟨?_, ha.trans hfits, hs.nested⟩, ⟨o.mark :: marks s.stack, ?_, fun _ => rfl, fun h => by cases h⟩,
      fun _ h => by cases h⟩
    · show r.ancestors ++ [o.node] = lineage base (marks (.visit { o with ancestors := r.ancestors } _ :: s.stack))
      rw [lineage_visit, ha, hfits]
    · rw [go_calls, w.after_calls]
      exact hs.replay_enter focus
  | @leaves f o g v r focus callback reply answer =>
    refine ⟨hs.sound, trivial, hs.nested, ⟨marks s.stack, ?_, fun _ => rfl, fun h => by cases h⟩, fun g' hg' => ?_⟩
    · rw [go_calls, w.after_calls]
      exact hs.replay_leave focus
    · cases hg'
      exact ⟨_, w.mem_after _ r s, Reply.stops_of_ok answer⟩

/-! ## Every walk -/

theorem Walker.bracketed_start (w : Walker σ ν) (h : w.HasCallback) (tree : Value) (store : Store) (memory : σ) :
    Bracketed (if tree.isNode store then [] else [tree]) (w.start tree store memory) := by
  cases hn : tree.isNode store with
  | true =>
    rw [w.start_node h hn]
    exact ⟨nofun, rfl, trivial, ⟨[], rfl, fun _ => rfl, nofun⟩, nofun⟩
  | false =>
    have hsound := w.sound_start tree store memory
    rw [w.start_other h hn] at hsound ⊢
    exact ⟨hsound, trivial, ⟨rfl, trivial⟩, ⟨[], rfl, fun _ => rfl, nofun⟩, nofun⟩

theorem Walker.bracketed_run (w : Walker σ ν) (he : w.enter.isSome) (hl : w.leave.isSome) (tree : Value) (store : Store)
    (memory : σ) (n : Nat)
    (kept : ∀ x ∈ (w.run n (w.start tree store memory)).exchanges, x.reply.ancestors = x.call.ancestors) :
    Bracketed (if tree.isNode store then [] else [tree]) (w.run n (w.start tree store memory)) := by
  induction n with
  | zero => exact w.bracketed_start (.inl he) tree store memory
  | succ n ih =>
    rw [w.run_succ] at kept ⊢
    have move := w.step_moves (w.run n (w.start tree store memory))
    exact move.bracketed he hl kept (ih fun x hx => kept x (move.exchanges.subset hx))

/-- Calls are nested like brackets, and their ancestors are the open nodes. Once the walk is over nothing is open,
    unless a callback failed or asked to exit. -/
theorem calls_bracketed (w : Walker σ ν) (hasEnter : w.enter.isSome) (hasLeave : w.leave.isSome) (tree : Value)
    (store : Store) (memory : σ) (fuel : Nat)
    (kept : ∀ x ∈ (w.walk fuel tree store memory).exchanges, x.reply.ancestors = x.call.ancestors) :
    ∃ l, replay (if tree.isNode store then [] else [tree]) (w.walk fuel tree store memory).calls = some l ∧
      ((w.walk fuel tree store memory).outcome.isSome →
        (∀ x ∈ (w.walk fuel tree store memory).exchanges, x.reply.stops = false) → l = []) := by
  rw [Walker.walk, toRun_exchanges] at *
  rw [toRun_calls]
  obtain ⟨l, hl, -, hover⟩ := (w.bracketed_run hasEnter hasLeave tree store memory fuel kept).accounted
  exact ⟨l, hl, hover⟩

/-- A node with a list of two more, the first of which holds its parent. -/
def looped : Store := ⟨#[
  { fields := .ofList [("type", .text "Block"), ("body", .container .list 1)] },
  { items := [.container .mapping 2, .int 7, .container .mapping 3] },
  { fields := .ofList [("type", .text "Call"), ("parent", .container .mapping 0)] },
  { fields := .ofList [("type", .text "Name")] }]⟩

/-- Skips the children of every node from the third on, and empties the list whenever it leaves a node. -/
def emptying : Walker Nat Unit where
  enter := some fun c s n => c.answer s (n + 1) (.ok (if n < 2 then .null else .action .skip))
  leave := some fun c s n => c.answer (s.setItems 1 []) n (.ok (.int 0))
  reserved := []
  logging := true
  colored := false
  debug := true

theorem looped_bracketed :
    (emptying.walk 60 (.container .mapping 0) looped 0).calls.length = 6 ∧
      ∃ l, replay [] (emptying.walk 60 (.container .mapping 0) looped 0).calls = some l ∧ l = [] := by
  obtain ⟨l, hl, hover⟩ := calls_bracketed emptying rfl rfl (.container .mapping 0) looped 0 60 (by decide)
  exact ⟨by decide, l, hl, hover (by decide) (by decide)⟩

end TreeWalk
