/-
  TreeWalk.Proofs.Signals — a walk hears nothing of what its callbacks return but their signals.

  Of a returned value the walk takes little. Any callback can ask to exit. Only `enter` can ask to skip the children. Only
  the last callback of a visit (`leave`, or `enter` where there is no `leave`) says at which position a scan goes on, and
  only if the node stands in a list and the walk does not exit. Two answers that are the same in these respects agree
  (`Call.Agrees`), whatever else they are.

  Two visitors concur if their calls leave like stores behind and give answers that agree, whenever they are given the
  same and all that went before was the same (`Concur`). A returned list is consulted after it was returned, so it must
  not be edited meanwhile (`Unedited`).
  - `State.Like.step`: the two walks take the same step.
  - `Walker.like_run`: after any number of steps they stand at the same point, with the same behind them.
  - `only_signals_matter`: so they make the same calls, log the same, fail alike and leave like stores behind.
-/

import TreeWalk.Proofs.Likeness

namespace TreeWalk

variable {σ ν σ' ν' : Type}

/-! ## Answers that say the same -/

/-- Two answers to a call, each in the store its callback left behind, ask the walk for the same. `leave` tells whether
    the visit has a `leave`. -/
structure Call.Agrees (leave : Bool) (c : Call) (s s' : Store) (v v' : Value) : Prop where
  exit : (Signal.ofValue v').isExit s' = (Signal.ofValue v).isExit s
  skip : c.phase = .enter → (Signal.ofValue v').isSkip s' = (Signal.ofValue v).isSkip s
  resume : (Signal.ofValue v).isExit s = false → c.phase = .leave ∨ leave = false → c.index.isSome →
    (Signal.ofValue v').resume s' = (Signal.ofValue v).resume s

/-- Neither an action to exit or skip, nor a position, nor a list or tuple that could have them. -/
def Value.isIdle : Value → Bool
  | .atom (.int _) => false
  | .atom (.action a) => a = .proceed
  | .atom _ => true
  | .tuple _ => false
  | .container k _ => !k.isList

/-- Ways in which two answers may differ without effect. -/
inductive Call.Immaterial (leave : Bool) (c : Call) (s s' : Store) (v v' : Value) : Prop
  /-- The position beside an action to exit. -/
  | besideExit (h : (Signal.ofValue v).isExit s) (h' : (Signal.ofValue v').isExit s')
  /-- The position that `enter` gives where there is a `leave`, and any position outside a list. -/
  | position (h : (c.phase = .enter ∧ leave) ∨ c.index = none)
      (action : (Signal.ofValue v').action s' = (Signal.ofValue v).action s)
  /-- An action to skip from `leave`. -/
  | lateSkip (h : c.phase = .leave) (skip : (Signal.ofValue v).isSkip s) (h' : (Signal.ofValue v').isExit s' = false)
      (resume : (Signal.ofValue v').resume s' = (Signal.ofValue v).resume s)
  /-- Anything in the place of an action that is not one of the two. -/
  | action (h : (Signal.ofValue v).action s ∉ [.action .exit, .action .skip])
      (h' : (Signal.ofValue v').action s' ∉ [.action .exit, .action .skip])
      (resume : (Signal.ofValue v').resume s' = (Signal.ofValue v).resume s)
  /-- Booleans, texts and all other values that mean nothing to a walk, null among them. -/
  | idle (h : v.isIdle) (h' : v'.isIdle)

theorem Signal.ofValue_of_isIdle {v : Value} (h : v.isIdle) : Signal.ofValue v = .fixed [v] := by
  cases v with
  | atom a =>
    cases a with
    | int i => cases h
    | _ => rfl
  | tuple vs => cases h
  | container k r =>
    have hk : k.isList = false := by simpa [Value.isIdle] using h
    simp only [ofValue, hk, Bool.false_eq_true, if_false]

theorem Value.ne_action_of_isIdle {v : Value} (h : v.isIdle) : v ∉ [.action .exit, .action .skip] := by
  cases v with
  | atom a =>
    cases a with
    | action a =>
      have ha : a = .proceed := by simpa [Value.isIdle] using h
      subst ha
      decide
    | _ => simp
  | tuple vs => simp
  | container k r => simp

theorem Call.agrees_of_other {leave : Bool} {c : Call} {s s' : Store} {v v' : Value}
    (h : (Signal.ofValue v).action s ∉ [.action .exit, .action .skip])
    (h' : (Signal.ofValue v').action s' ∉ [.action .exit, .action .skip])
    (resume : c.index.isSome → (Signal.ofValue v').resume s' = (Signal.ofValue v).resume s) :
    c.Agrees leave s s' v v' := by
  simp only [List.mem_cons, List.not_mem_nil, or_false, not_or] at h h'
  refine ⟨?_, fun _ => ?_, fun _ _ scans => resume scans⟩
  · simp only [Signal.isExit, h.1, h'.1]
  · simp only [Signal.isSkip, h.2, h'.2]

theorem Call.Immaterial.agrees {leave : Bool} {c : Call} {s s' : Store} {v v' : Value}
    (h : c.Immaterial leave s s' v v') : c.Agrees leave s s' v v' := by
  cases h with
  | besideExit h h' =>
    refine ⟨h'.trans h.symm, fun _ => ?_, fun hx => ?_⟩
    · simp only [Signal.isSkip, of_decide_eq_true h, of_decide_eq_true h']
    · rw [h] at hx
      cases hx
  | position h action =>
    refine ⟨?_, fun _ => ?_, fun _ decides scans => ?_⟩
    · simp only [Signal.isExit, action]
    · simp only [Signal.isSkip, action]
    · rcases h with ⟨he, rfl⟩ | hnone
      · rcases decides with hp | hp
        · rw [he] at hp
          cases hp
        · cases hp
      · rw [hnone] at scans
        cases scans
  | lateSkip h skip h' resume =>
    refine ⟨?_, fun he => ?_, fun _ _ _ => resume⟩
    · rw [h', Signal.isExit, of_decide_eq_true skip]
      rfl
    · rw [h] at he
      cases he
  | action h h' resume => exact agrees_of_other h h' fun _ => resume
  | idle h h' =>
    have e := Signal.ofValue_of_isIdle h
    have e' := Signal.ofValue_of_isIdle h'
    refine agrees_of_other ?_ ?_ fun _ => ?_
    · rw [e]
      exact Value.ne_action_of_isIdle h
    · rw [e']
      exact Value.ne_action_of_isIdle h'
    · rw [e, e']
      rfl

/-! ## Visitors that do the same -/

section

variable (V : Value → Value → Prop) (T : Store → Store → Prop) (leave : Bool)

/-- Both callbacks failed in the same way, or returned answers that agree. -/
inductive Call.Answers (c : Call) (s s' : Store) : Except Fault Value → Except Fault Value → Prop
  | fault (e : Fault) : Call.Answers c s s' (.error e) (.error e)
  | value {v v' : Value} (h : c.Agrees leave s s' v v') : Call.Answers c s s' (.ok v) (.ok v')

/-- Two replies to a call have the same effect on the walk, its tree and the list of ancestors. -/
structure Call.Concurs (c : Call) (r : Reply σ ν) (r' : Reply σ' ν') : Prop where
  store : T r.store r'.store
  ancestors : List.Forall₂ V r.ancestors r'.ancestors
  answer : c.Answers leave r.store r'.store r.outcome r'.outcome

structure Exchange.Like (x : Exchange σ ν) (x' : Exchange σ' ν') : Prop where
  call : x.call.Like V x'.call
  before : T x.before x'.before
  reply : x.call.Concurs V T leave x.reply x'.reply

/-- Each time the two are given the same, after exchanges that were the same, they do the same. -/
def Concur (xs : List (Exchange σ ν)) (xs' : List (Exchange σ' ν')) : Prop :=
  ∀ k x x', xs[k]? = some x → xs'[k]? = some x' →
    List.Forall₂ (Exchange.Like V T leave) (xs.take k) (xs'.take k) →
      x.call.Like V x'.call → T x.before x'.before → x.call.Concurs V T leave x.reply x'.reply

/-- The same record was logged, or the same was exchanged. -/
inductive Entry.Like : Entry σ ν → Entry σ' ν' → Prop
  | log (text : String) : Entry.Like (.log text) (.log text)
  | exchange {c c' : Call} {s s' : Store} {r : Reply σ ν} {r' : Reply σ' ν'}
      (h : Exchange.Like V T leave ⟨c, s, r⟩ ⟨c', s', r'⟩) : Entry.Like (.exchange c s r) (.exchange c' s' r')

/-- Both walks are still going, both were failed in the same way, or both came to their end. -/
inductive OutcomeLike : Option Outcome → Option Outcome → Prop
  | going : OutcomeLike none none
  | raised (e : Fault) : OutcomeLike (some (.raised e)) (some (.raised e))
  | returned (g g' : Signal) : OutcomeLike (some (.returned g)) (some (.returned g'))

structure Run.Like (r : Run σ ν) (r' : Run σ' ν') : Prop where
  journal : List.Forall₂ (Entry.Like V T leave) r.journal r'.journal
  store : T r.store r'.store
  outcome : OutcomeLike r.outcome r'.outcome

/-- Two walks stand at the same point, with the same behind them. -/
structure State.Like (s : State σ ν) (s' : State σ' ν') : Prop where
  store : T s.store s'.store
  history : List.Forall₂ (Entry.Like V T leave) s.history s'.history
  focus : s.focus.Like V leave s.store s'.store s.stack s'.focus
  stack : List.Forall₂ (Frame.Like V leave s.store s'.store) s.stack s'.stack

end

/-- The same callbacks are there, and the same settings. -/
structure Walker.Alike (w : Walker σ ν) (w' : Walker σ' ν') : Prop where
  enter : w'.enter.isSome = w.enter.isSome
  leave : w'.leave.isSome = w.leave.isSome
  reserved : w'.reserved = w.reserved
  logs : w'.logs = w.logs
  colored : w'.colored = w.colored

/-! ## Answers that stay as they are -/

/-- After the exchange `y` a list that was returned in `x` is as it was when it was returned. -/
def Exchange.Spares (x y : Exchange σ ν) : Prop :=
  ∀ v, x.reply.outcome = .ok v → (Signal.ofValue v).items y.reply.store = (Signal.ofValue v).items x.reply.store

instance (x y : Exchange σ ν) : Decidable (x.Spares y) :=
  match h : x.reply.outcome with
  | .error _ => isTrue fun _ e => nomatch h.symm.trans e
  | .ok v => decidable_of_iff ((Signal.ofValue v).items y.reply.store = (Signal.ofValue v).items x.reply.store)
      ⟨fun e _ hv => Except.ok.inj (h.symm.trans hv) ▸ e, fun e => e v h⟩

/-- No list is edited after it was returned. -/
def Unedited (xs : List (Exchange σ ν)) : Prop := xs.Pairwise Exchange.Spares

instance (xs : List (Exchange σ ν)) : Decidable (Unedited xs) := inferInstanceAs (Decidable (xs.Pairwise _))

theorem Unedited.mono {xs ys : List (Exchange σ ν)} (h : Unedited ys) (le : xs <+: ys) : Unedited xs :=
  h.sublist le.sublist

/-- The signals of the visits under way are answers, and they are as they were when they were given. -/
def State.Keeps (s : State σ ν) : Prop :=
  ∀ o g, .visit o g ∈ s.stack → g = .silent ∨
    ∃ x ∈ s.exchanges, ∃ v, x.reply.outcome = .ok v ∧ g = .ofValue v ∧ g.items s.store = g.items x.reply.store

theorem State.Keeps.items {s : State σ ν} (h : s.Keeps) {y : Exchange σ ν} (unedited : Unedited (s.exchanges ++ [y]))
    {o : Occurrence} {g : Signal} (hg : .visit o g ∈ s.stack) : g.items y.reply.store = g.items s.store := by
  rcases h o g hg with rfl | ⟨x, hx, v, hv, rfl, hsame⟩
  · rfl
  · have spares : x.Spares y := (List.pairwise_append.mp unedited).2.2 x hx y (List.mem_singleton_self y)
    rw [spares v hv, hsame]

theorem Silent.visit_mem {reserved : List String} {store : Store} {F F' : Focus} {K K' : List Frame}
    (h : Silent reserved store F K F' K') {o : Occurrence} {g : Signal} (hm : .visit o g ∈ K') :
    g = .silent ∨ .visit o g ∈ K := by
  cases h with
  | enter =>
    simp only [List.mem_cons, reduceCtorEq, false_or, Frame.visit.injEq] at hm
    rcases hm with ⟨-, rfl⟩ | hm
    · exact .inl rfl
    · exact .inr hm
  | _ => grind

theorem State.Keeps.called {w : Walker σ ν} {s : State σ ν} (h : s.Keeps) {c : Call} {r : Reply σ ν} {F : Focus}
    {K : List Frame} (unedited : Unedited ((w.after c r s).go F K).exchanges)
    (hK : ∀ o g, .visit o g ∈ K → .visit o g ∈ s.stack ∨ ∃ v, r.outcome = .ok v ∧ g = .ofValue v) :
    ((w.after c r s).go F K).Keeps := by
  have he : ((w.after c r s).go F K).exchanges = s.exchanges ++ [⟨c, s.store, r⟩] := w.after_exchanges c r s
  intro o g hg
  rcases hK o g hg with hs | ⟨v, hv, rfl⟩
  · rcases h o g hs with rfl | ⟨x, hx, v, hv, rfl, hsame⟩
    · exact .inl rfl
    · refine .inr ⟨x, he ▸ List.mem_append_left _ hx, v, hv, rfl, ?_⟩
      rw [← hsame]
      exact h.items (y := ⟨c, s.store, r⟩) (he ▸ unedited) hs
  · exact .inr ⟨⟨c, s.store, r⟩, he ▸ List.mem_append_right _ (List.mem_singleton_self _), v, hv, rfl, rfl⟩

theorem Moves.keeps {w : Walker σ ν} {s t : State σ ν} (h : Moves w s t) (hs : s.Keeps)
    (unedited : Unedited t.exchanges) : t.Keeps := by
  cases h with
  | silent _ move =>
    intro o g hm
    rcases move.visit_mem hm with rfl | hm
    · exact .inl rfl
    · exact hs o g hm
  | raises => exact hs.called unedited nofun
  | exits => exact hs.called unedited nofun
  | skips => exact hs.called unedited fun o g hm => .inl hm
  | descends _ _ _ answer =>
    refine hs.called unedited fun o g hm => ?_
    simp only [List.mem_cons, reduceCtorEq, false_or, Frame.visit.injEq] at hm
    rcases hm with ⟨-, rfl⟩ | hm
    · exact .inr ⟨_, answer, rfl⟩
    · exact .inl hm
  | leaves => exact hs.called unedited fun o g hm => .inl hm

/-! ## Two walks, step by step -/

section

variable {V : Value → Value → Prop} {T : Store → Store → Prop} {w : Walker σ ν} {w' : Walker σ' ν'}

theorem exchanges_like {leave : Bool} {es : List (Entry σ ν)} {es' : List (Entry σ' ν')}
    (h : List.Forall₂ (Entry.Like V T leave) es es') :
    List.Forall₂ (Exchange.Like V T leave) (exchanges es) (exchanges es') := by
  induction h with
  | nil => exact .nil
  | cons head _ ih =>
    cases head with
    | log => exact ih
    | exchange h => exact .cons h ih

theorem State.Like.exchanges {leave : Bool} {s : State σ ν} {s' : State σ' ν'} (h : s.Like V T leave s') :
    List.Forall₂ (Exchange.Like V T leave) s.exchanges s'.exchanges :=
  List.forall₂_reverse_iff.mpr (exchanges_like h.history)

theorem Concur.mono {leave : Bool} {xs ys : List (Exchange σ ν)} {xs' ys' : List (Exchange σ' ν')}
    (h : Concur V T leave ys ys') (le : xs <+: ys) (le' : xs' <+: ys') : Concur V T leave xs xs' := by
  obtain ⟨more, rfl⟩ := le
  obtain ⟨more', rfl⟩ := le'
  intro k x x' hx hx' same
  obtain ⟨hk, -⟩ := List.getElem?_eq_some_iff.mp hx
  obtain ⟨hk', -⟩ := List.getElem?_eq_some_iff.mp hx'
  apply h k x x'
  · rw [List.getElem?_append_left hk, hx]
  · rw [List.getElem?_append_left hk', hx']
  · rwa [List.take_append_of_le_length hk.le, List.take_append_of_le_length hk'.le]

theorem Focus.Like.due {leave : Bool} {s s' : Store} {K : List Frame} {F F' : Focus} (h : F.Like V leave s s' K F')
    (alike : w.Alike w') :
    (w.due F = none ∧ w'.due F' = none) ∨
      ∃ f c f' c', w.due F = some (f, c) ∧ w'.due F' = some (f', c') ∧ c.Like V c' := by
  have both : ∀ {a : Option (Callback σ ν)} {a' : Option (Callback σ' ν')}, a'.isSome = a.isSome →
      (a = none ∧ a' = none) ∨ ∃ f f', a = some f ∧ a' = some f' := by
    intro a a' h
    cases a with
    | none => exact .inl ⟨rfl, Option.not_isSome_iff_eq_none.mp (Bool.eq_false_iff.mp h)⟩
    | some f =>
      obtain ⟨f', hf'⟩ := Option.isSome_iff_exists.mp h
      exact .inr ⟨f, f', rfl, hf'⟩
  cases h with
  | @enter o o' ho =>
    rcases both alike.enter with ⟨he, he'⟩ | ⟨f, f', he, he'⟩
    · exact .inl ⟨Option.map_eq_none_iff.mpr he, Option.map_eq_none_iff.mpr he'⟩
    · exact .inr ⟨_, _, _, _, w.due_of_enter he o, w'.due_of_enter he' o', ⟨ho, rfl⟩⟩
  | @leave o o' g g' ho =>
    rcases both alike.leave with ⟨hl, hl'⟩ | ⟨f, f', hl, hl'⟩
    · exact .inl ⟨Option.map_eq_none_iff.mpr hl, Option.map_eq_none_iff.mpr hl'⟩
    · exact .inr ⟨_, _, _, _, w.due_of_leave hl o g, w'.due_of_leave hl' o' g', ⟨ho, rfl⟩⟩
  | next => exact .inl ⟨rfl, rfl⟩
  | back => exact .inl ⟨rfl, rfl⟩
  | raised => exact .inl ⟨rfl, rfl⟩
  | returned => exact .inl ⟨rfl, rfl⟩

theorem Focus.Like.heed {leave : Bool} {s s' : Store} {K K' : List Frame} {F F' : Focus} {f : Callback σ ν} {c : Call}
    {r : Reply σ ν} {r' : Reply σ' ν'} (h : F.Like V leave s s' K F') (due : w.due F = some (f, c)) (lies : F.LiesOn K)
    (concurs : c.Concurs V T leave r r') (like : Likeness V r.store r'.store)
    (hK : List.Forall₂ (Frame.Like V leave r.store r'.store) K K') :
    let p := TreeWalk.heed r.store r.ancestors K F r.outcome
    let p' := TreeWalk.heed r'.store r'.ancestors K' F' r'.outcome
    p.1.Like V leave r.store r'.store p.2 p'.1 ∧ List.Forall₂ (Frame.Like V leave r.store r'.store) p.2 p'.2 := by
  obtain ⟨-, ancestors, answer⟩ := concurs
  generalize r.outcome = a at answer ⊢
  generalize r'.outcome = a' at answer ⊢
  cases h with
  | @enter o o' ho =>
    obtain ⟨-, rfl⟩ := w.due_enter due
    cases answer with
    | fault e => exact ⟨.raised e, .nil⟩
    | @value v v' agrees =>
      have ho' : Occurrence.Like V { o with ancestors := r.ancestors } { o' with ancestors := r'.ancestors } :=
        ⟨ho.node, ho.key, ho.index, ancestors⟩
      have held : (Signal.ofValue v).isExit r.store = false →
          Signal.Held leave r.store r'.store { o with ancestors := r.ancestors } (.ofValue v) (.ofValue v') :=
        fun hx hl => ⟨hx, agrees.exit, fun hx scans => agrees.resume hx (.inr hl) scans⟩
      simp only [TreeWalk.heed, agrees.exit, agrees.skip rfl]
      split
      · exact ⟨.returned _ _, .nil⟩
      · rename_i hx
        have hx' := Bool.eq_false_iff.mpr hx
        split
        · exact ⟨.leave ho' (held hx'), hK⟩
        · rw [like.names ho.node]
          exact ⟨.next, .cons (.fields _ ho.node ancestors) (.cons (.visit ho' (held hx')) hK)⟩
  | @leave o o' g g' ho =>
    obtain ⟨-, rfl⟩ := w.due_leave due
    cases answer with
    | fault e => exact ⟨.raised e, .nil⟩
    | value agrees =>
      have hlies : o.LiesOn K := lies
      refine ⟨.back ⟨agrees.exit, fun hx scans => ?_⟩, hK⟩
      exact agrees.resume hx (.inl rfl) (hlies.index_of_scanning scans)
  | next => cases due
  | back => cases due
  | raised => cases due
  | returned => cases due

theorem Call.Answers.exits {leave : Bool} {c : Call} {r : Reply σ ν} {r' : Reply σ' ν'}
    (h : c.Answers leave r.store r'.store r.outcome r'.outcome) : r'.exits = r.exits := by
  unfold Reply.exits
  generalize r.outcome = a at h ⊢
  generalize r'.outcome = a' at h ⊢
  cases h with
  | fault e => rfl
  | value agrees => exact agrees.exit

theorem Call.Concurs.exits {leave : Bool} {c : Call} {r : Reply σ ν} {r' : Reply σ' ν'}
    (h : c.Concurs V T leave r r') : r'.exits = r.exits := h.answer.exits

theorem Exchange.Like.entries {leave : Bool} {c c' : Call} {s s' : Store} {r : Reply σ ν} {r' : Reply σ' ν'}
    (h : Exchange.Like V T leave ⟨c, s, r⟩ ⟨c', s', r'⟩) (look : ∀ s s', T s s' → Likeness V s s')
    (alike : w.Alike w') :
    List.Forall₂ (Entry.Like V T leave) (w.entries c s r) (w'.entries c' s' r') := by
  have hrecord := (look _ _ h.before).record h.call w.colored
  have hexit := (look _ _ h.reply.store).exitRecord h.call w.colored
  simp only [Walker.entries, alike.logs, alike.colored, h.reply.exits, hrecord, hexit]
  refine List.rel_append ?_ (.cons (.exchange h) ?_)
  · split
    · exact .cons (.log _) .nil
    · exact .nil
  · split
    · exact .cons (.log _) .nil
    · exact .nil

/-- Two walks at the same point take the same step, if their visitors concur and edit no answer. -/
theorem State.Like.step {s : State σ ν} {s' : State σ' ν'} (h : s.Like V T w.leave.isSome s')
    (look : ∀ s s', T s s' → Likeness V s s') (alike : w.Alike w') (stacked : s.Stacked) (keeps : s.Keeps)
    (keeps' : s'.Keeps) (concur : Concur V T w.leave.isSome (w.step s).exchanges (w'.step s').exchanges)
    (unedited : Unedited (w.step s).exchanges) (unedited' : Unedited (w'.step s').exchanges) :
    (w.step s).Like V T w.leave.isSome (w'.step s') := by
  rcases h.focus.due alike with ⟨due, due'⟩ | ⟨f, c, f', c', due, due', hc⟩
  · obtain ⟨F, K, move, hs⟩ := Walker.step_silent due
    obtain ⟨F', K', move', hs'⟩ := Walker.step_silent due'
    obtain ⟨F₁, K₁, mirrored, hF, hK⟩ :=
      move.mirror (look _ _ h.store) h.stack h.focus stacked.1 fun _ _ => w.leave_of_due due
    rw [alike.reserved] at move'
    obtain ⟨rfl, rfl⟩ := move'.unique mirrored
    rw [hs, hs']
    exact ⟨h.store, h.history, hF, hK⟩
  · rw [Walker.exchanges_called due] at concur unedited
    rw [Walker.exchanges_called due'] at concur unedited'
    have hlen := h.exchanges.length_eq
    -- The exchanges so far are alike, so the visitors concur about this one.
    have concurs : c.Concurs V T w.leave.isSome (f c s.store s.memory) (f' c' s'.store s'.memory) := by
      apply concur s.exchanges.length ⟨c, s.store, f c s.store s.memory⟩ ⟨c', s'.store, f' c' s'.store s'.memory⟩
      · exact List.getElem?_concat_length
      · rw [hlen]
        exact List.getElem?_concat_length
      · rw [List.take_left, hlen, List.take_left]
        exact h.exchanges
      · exact hc
      · exact h.store
    -- No answer is edited, so the signals of the visits under way are read as before.
    have hK := stackLike_later h.stack (fun o g hg => keeps.items unedited hg) (fun o g hg => keeps'.items unedited' hg)
    have heeded := h.focus.heed due stacked.1 concurs (look _ _ concurs.store) hK
    have hentries := Exchange.Like.entries ⟨hc, h.store, concurs⟩ look alike
    rw [Walker.step_called due, Walker.step_called due']
    exact ⟨concurs.store, List.rel_append hentries h.history, heeded.1, heeded.2⟩

theorem Walker.start_like (look : ∀ s s', T s s' → Likeness V s s') (alike : w.Alike w') {tree tree' : Value}
    {store store' : Store} (htree : V tree tree') (hstore : T store store') (memory : σ) (memory' : σ') :
    (w.start tree store memory).Like V T w.leave.isSome (w'.start tree' store' memory') := by
  have like := look _ _ hstore
  have hnone : (w'.enter.isNone && w'.leave.isNone) = (w.enter.isNone && w.leave.isNone) := by
    simp only [← Option.not_isSome, alike.enter, alike.leave]
  simp only [Walker.start, hnone, like.isNode htree, like.names htree]
  split
  · exact ⟨hstore, .nil, .returned _ _, .nil⟩
  · split
    · exact ⟨hstore, .nil, .enter ⟨htree, rfl, rfl, .nil⟩, .nil⟩
    · exact ⟨hstore, .nil, .next, .cons (.fields _ htree .nil) .nil⟩

theorem Walker.start_keeps (w : Walker σ ν) (tree : Value) (store : Store) (memory : σ) :
    (w.start tree store memory).Keeps := by
  unfold Walker.start
  intro o g hm
  split at hm
  · cases hm
  · split at hm
    · cases hm
    · cases List.mem_singleton.mp hm

/-- What visitors that concur see of a tree is the same after any number of steps. -/
theorem Walker.like_run (look : ∀ s s', T s s' → Likeness V s s') (alike : w.Alike w') {tree tree' : Value}
    {store store' : Store} (htree : V tree tree') (hstore : T store store') (memory : σ) (memory' : σ') (n : Nat)
    (concur : Concur V T w.leave.isSome (w.run n (w.start tree store memory)).exchanges
      (w'.run n (w'.start tree' store' memory')).exchanges)
    (unedited : Unedited (w.run n (w.start tree store memory)).exchanges)
    (unedited' : Unedited (w'.run n (w'.start tree' store' memory')).exchanges) :
    (w.run n (w.start tree store memory)).Like V T w.leave.isSome (w'.run n (w'.start tree' store' memory')) ∧
      (w.run n (w.start tree store memory)).Keeps ∧ (w'.run n (w'.start tree' store' memory')).Keeps := by
  induction n with
  | zero =>
    exact ⟨start_like look alike htree hstore memory memory', w.start_keeps tree store memory,
      w'.start_keeps tree' store' memory'⟩
  | succ n ih =>
    have le := w.run_exchanges_mono n.le_succ (w.start tree store memory)
    have le' := w'.run_exchanges_mono n.le_succ (w'.start tree' store' memory')
    obtain ⟨like, keeps, keeps'⟩ := ih (concur.mono le le') (unedited.mono le) (unedited'.mono le')
    rw [run_succ] at concur unedited
    rw [run_succ] at concur unedited'
    rw [run_succ, run_succ]
    refine ⟨?_, (w.step_moves _).keeps keeps unedited, (w'.step_moves _).keeps keeps' unedited'⟩
    exact like.step look alike (w.stacked_run tree store memory n) keeps keeps' concur unedited unedited'

theorem Focus.Like.outcome {leave : Bool} {t t' : Store} {K : List Frame} {s : State σ ν} {s' : State σ' ν'}
    (h : s.focus.Like V leave t t' K s'.focus) : OutcomeLike s.outcome? s'.outcome? := by
  unfold State.outcome?
  generalize s.focus = F at h ⊢
  generalize s'.focus = F' at h ⊢
  cases h with
  | raised e => exact .raised e
  | returned g g' => exact .returned g g'
  | _ => exact .going

theorem State.Like.toRun {leave : Bool} {s : State σ ν} {s' : State σ' ν'} (h : s.Like V T leave s') :
    Run.Like V T leave s.toRun s'.toRun :=
  ⟨List.forall₂_reverse_iff.mpr h.history, h.store, h.focus.outcome⟩

end

/-! ## Visitors that concur -/

theorem Call.Like.eq {R : Ref → Ref → Prop} (hR : ∀ r r', R r r' → r = r') {c c' : Call}
    (h : c.Like (Value.Like R) c') : c' = c := by
  obtain ⟨⟨node, key, index, ancestors⟩, phase⟩ := h
  obtain ⟨o, p⟩ := c
  obtain ⟨o', p'⟩ := c'
  have hnode := Value.Like.eq hR _ _ node
  have hancestors := Value.eqAll hR _ _ ancestors
  cases o
  cases o'
  simp_all

theorem calls_eq_of_like {R : Ref → Ref → Prop} (hR : ∀ r r', R r r' → r = r') {T : Store → Store → Prop}
    {leave : Bool} {xs : List (Exchange σ ν)} {xs' : List (Exchange σ' ν')}
    (h : List.Forall₂ (Exchange.Like (Value.Like R) T leave) xs xs') : xs'.map (·.call) = xs.map (·.call) := by
  induction h with
  | nil => rfl
  | cons head _ ih => rw [List.map_cons, List.map_cons, head.call.eq hR, ih]

/-- A walk depends on what its callbacks return only through their signals. Let two visitors with the same callbacks
    concur, where `R` tells which containers of the one walk are those of the other, and let no answer be edited after
    it was given. Then both walks make the same calls in the same order, log the same records between them, fail in the
    same way if they fail, and leave like stores behind; if `R` takes containers for none but themselves, the calls are
    equal. What is listed in `Call.Immaterial` makes no difference to whether visitors concur. -/
theorem only_signals_matter {R : Ref → Ref → Prop} {w : Walker σ ν} {w' : Walker σ' ν'} (alike : w.Alike w')
    {tree tree' : Value} {store store' : Store} (htree : tree.Like R tree') (hstore : store.Like R store') (memory : σ)
    (memory' : σ') (fuel : Nat)
    (concur : Concur (Value.Like R) (Store.Like R) w.leave.isSome (w.walk fuel tree store memory).exchanges
      (w'.walk fuel tree' store' memory').exchanges)
    (unedited : Unedited (w.walk fuel tree store memory).exchanges)
    (unedited' : Unedited (w'.walk fuel tree' store' memory').exchanges) :
    Run.Like (Value.Like R) (Store.Like R) w.leave.isSome (w.walk fuel tree store memory)
        (w'.walk fuel tree' store' memory') ∧
      ((∀ r r', R r r' → r = r') →
        (w'.walk fuel tree' store' memory').calls = (w.walk fuel tree store memory).calls) ∧
      ∀ (leave : Bool) (c : Call) (s s' : Store) (v v' : Value),
        c.Immaterial leave s s' v v' → c.Agrees leave s s' v v' := by
  rw [Walker.walk, Walker.walk, toRun_exchanges, toRun_exchanges] at concur
  rw [Walker.walk, toRun_exchanges] at unedited unedited'
  have look : ∀ s s', Store.Like R s s' → Likeness (Value.Like R) s s' := fun s s' h => h.likeness
  obtain ⟨like, -, -⟩ :=
    Walker.like_run look alike htree hstore memory memory' fuel concur unedited unedited'
  refine ⟨like.toRun, fun hR => ?_, fun _ _ _ _ _ _ h => h.agrees⟩
  exact calls_eq_of_like hR (exchanges_like like.toRun.journal)

/-- A node with three nodes in a list, the first of them again at its end. -/
def row : Store := ⟨#[
  { fields := .ofList [("type", .text "Row"), ("cells", .container .list 1)] },
  { items := [.container .mapping 2, .container .mapping 3, .container .mapping 2] },
  { fields := .ofList [("type", .text "Cell")] },
  { fields := .ofList [("type", .text "Cell")] }]⟩

/-- Leaps over every other element. It says so with a number, and outside a list it says nothing. -/
def leaping : Callback Unit Unit := fun c s m =>
  c.answer s m (.ok (match c.index with | some i => .int (i + 2) | none => .null))

/-- Says the same with new lists and a text in the place of the action, and gives a position outside a list too. -/
def wordy : Callback Unit Unit := fun c s m =>
  c.answer (s.push { items := [.text "leap", .int (c.index.getD 7 + 2)] }) m (.ok (.container .list s.size))

def entering (f : Callback Unit Unit) : Walker Unit Unit where
  enter := some f
  leave := none
  reserved := []
  logging := true
  colored := false
  debug := true

theorem made_by_entering (f : Callback Unit Unit) (n : Nat) (tree : Value) (store : Store) :
    ∀ x ∈ ((entering f).walk n tree store ()).exchanges, x.reply = f x.call x.before () := by
  rw [Walker.walk, toRun_exchanges]
  refine (entering f).run_forall_exchanges (P := fun x => x.reply = f x.call x.before ()) ?_ ?_ n
  · intro g c s m hg
    rcases hg with hg | hg
    · rw [Option.some.inj hg]
    · cases hg
  · rw [Walker.start_exchanges]
    exact List.forall_mem_nil _

/-- The two concur, although the lists of the one are in no place of the other. -/
theorem wordy_concurs {R : Ref → Ref → Prop} {c c' : Call} {s s' : Store} (hc : c.Like (Value.Like R) c')
    (hs : s.Like R s') (hR : ∀ r r', R r r' → r < s.size) :
    c.Concurs (Value.Like R) (Store.Like R) false (wordy c s ()) (leaping c' s' ()) := by
  refine ⟨fun r r' hr => ?_, hc.occurrence.ancestors, .value ?_⟩
  · show ((s.push _).cell r).Like R (s'.cell r')
    rw [s.cell_push_lt _ (hR r r' hr)]
    exact hs r r' hr
  · have hitems : (Signal.ofValue (.container .list s.size)).items (wordy c s ()).store =
        [.text "leap", .int (c.index.getD 7 + 2)] := congrArg Cell.items (s.cell_push_size _)
    refine Call.agrees_of_other ?_ ?_ fun scans => ?_
    · rw [Signal.action, hitems]
      simp
    · cases c'.index <;> simp [Signal.action, Signal.ofValue, Signal.items]
    · obtain ⟨i, hi⟩ := Option.isSome_iff_exists.mp scans
      rw [Signal.resume, Signal.resume, hitems, hc.occurrence.index, hi]
      rfl

/-- The places of the row are the same for both; new lists are for one of them only. -/
def Shared (r r' : Ref) : Prop := r = r' ∧ r < row.size

instance (r r' : Ref) : Decidable (Shared r r') := inferInstanceAs (Decidable (r = r' ∧ r < row.size))

theorem wordy_row :
    Run.Like (Value.Like Shared) (Store.Like Shared) false ((entering wordy).walk 20 (.container .mapping 0) row ())
        ((entering leaping).walk 20 (.container .mapping 0) row ()) ∧
      ((entering leaping).walk 20 (.container .mapping 0) row ()).calls =
        ((entering wordy).walk 20 (.container .mapping 0) row ()).calls ∧
      ((entering wordy).walk 20 (.container .mapping 0) row ()).calls.map (·.index) = [none, some 0, some 2] := by
  have alike : (entering wordy).Alike (entering leaping) := ⟨rfl, rfl, rfl, rfl, rfl⟩
  have hroot : (Value.container .mapping 0).Like Shared (.container .mapping 0) := .container _ (by decide)
  have hrow : row.Like Shared row := by
    rintro r r' ⟨rfl, hr⟩
    apply Cell.like_self
    decide +kernel +revert
  have hsize : ∀ x ∈ ((entering wordy).walk 20 (.container .mapping 0) row ()).exchanges, row.size ≤ x.before.size := by
    decide +kernel
  have concur : Concur (Value.Like Shared) (Store.Like Shared) (entering wordy).leave.isSome
      ((entering wordy).walk 20 (.container .mapping 0) row ()).exchanges
      ((entering leaping).walk 20 (.container .mapping 0) row ()).exchanges := by
    intro k x x' hx hx' _ hc hs
    have hm := List.mem_of_getElem? hx
    rw [made_by_entering wordy 20 _ _ x hm, made_by_entering leaping 20 _ _ x' (List.mem_of_getElem? hx')]
    exact wordy_concurs hc hs fun r r' hr => Nat.lt_of_lt_of_le hr.2 (hsize x hm)
  obtain ⟨like, calls, -⟩ :=
    only_signals_matter alike hroot hrow () () 20 concur (by decide +kernel) (by decide +kernel)
  exact ⟨like, calls fun r r' hr => hr.1, by decide +kernel⟩

end TreeWalk
