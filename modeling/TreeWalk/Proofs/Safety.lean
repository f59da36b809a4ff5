/-
  TreeWalk.Proofs.Safety — a walk fails only where a callback fails.

  Of the things a walk reads, three are not to be had of every value: the element at a position, a field, and the parts
  of a signal. The first two fail where they are not there (`Value.element`, `Value.ownField`). Callbacks may shorten the
  list that is scanned, delete the fields that are still to be looked at, name any position to go on at and return
  anything, between any two steps.
  - `State.Readable`: in every state of every walk, what the next step reads is there.
  - `Walker.blamed_run`: a fault that ends a walk is the answer of the last call.
  - `faults_come_from_callbacks`: both, for every walker that can be made, also of values that cannot be called.
-/

import TreeWalk.Proofs.Steps

namespace TreeWalk

variable {σ ν : Type}

/-! ## Signals are lists or tuples -/

/-- The signal is a list or tuple, and its parts are the elements. -/
def Signal.Listed (s : Store) (g : Signal) : Prop := g.toValue.isSequence ∧ g.items s = g.toValue.items s

theorem Signal.listed_iff (s : Store) (g : Signal) : g.Listed s ↔ g.toValue.isSequence := by
  refine ⟨And.left, fun h => ⟨h, ?_⟩⟩
  cases g with
  | fixed vs => rfl
  | live k r =>
    have hk : k.isList = true := h
    simp only [items, toValue, Value.items, hk, if_true]

theorem Signal.isSequence_ofValue (v : Value) : (Signal.ofValue v).toValue.isSequence := by
  cases v with
  | atom a => cases a <;> rfl
  | tuple vs => rfl
  | container k r =>
    cases hk : k.isList with
    | true => simp only [ofValue, hk, if_true, toValue, Value.isSequence]
    | false => simp only [ofValue, hk, Bool.false_eq_true, if_false, toValue, Value.isSequence]

/-! ## What frames hold -/

/-- Only lists and tuples are scanned, and the signal of a visit is one of them. -/
def Frame.Listed : Frame → Prop
  | .fields _ _ _ => True
  | .items seq _ _ _ _ => seq.isSequence
  | .visit _ g => g.toValue.isSequence

def Focus.Listed : Focus → Prop
  | .leave _ g => g.toValue.isSequence
  | .back g => g.toValue.isSequence
  | .done (.returned g) => g.toValue.isSequence
  | _ => True

def State.Listed (s : State σ ν) : Prop := s.focus.Listed ∧ ∀ frame ∈ s.stack, frame.Listed

theorem Silent.listed {reserved : List String} {store : Store} {F F' : Focus} {K K' : List Frame}
    (h : Silent reserved store F K F' K') (hF : F.Listed) (hK : ∀ frame ∈ K, frame.Listed) :
    F'.Listed ∧ ∀ frame ∈ K', frame.Listed := by
  have below : ∀ {frame : Frame} {rest : List Frame}, (∀ f ∈ frame :: rest, f.Listed) → ∀ f ∈ rest, f.Listed :=
    fun h => (List.forall_mem_cons.mp h).2
  have replace : ∀ {old new : Frame} {rest : List Frame}, (∀ f ∈ old :: rest, f.Listed) → new.Listed →
      ∀ f ∈ new :: rest, f.Listed := fun h hn => List.forall_mem_cons.mpr ⟨hn, below h⟩
  cases h with
  | enter o => exact ⟨trivial, List.forall_mem_cons.mpr ⟨trivial, List.forall_mem_cons.mpr ⟨rfl, hK⟩⟩⟩
  | leave => exact ⟨hF, hK⟩
  | stop => exact ⟨rfl, hK⟩
  | fieldsOver => exact ⟨trivial, below hK⟩
  | passField => exact ⟨trivial, replace hK trivial⟩
  | fault => exact ⟨trivial, nofun⟩
  | scan _ _ _ _ _ v _ _ hv => exact ⟨trivial, List.forall_mem_cons.mpr ⟨hv, replace hK trivial⟩⟩
  | child => exact ⟨trivial, replace hK trivial⟩
  | scanOver => exact ⟨trivial, below hK⟩
  | item => exact ⟨trivial, hK⟩
  | passItem => exact ⟨trivial, replace hK (List.forall_mem_cons.mp hK).1⟩
  | childrenOver => exact ⟨(List.forall_mem_cons.mp hK).1, below hK⟩
  | rootOver => exact ⟨hF, nofun⟩
  | exit => exact ⟨hF, nofun⟩
  | resume => exact ⟨trivial, replace hK (List.forall_mem_cons.mp hK).1⟩
  | toFields => exact ⟨trivial, hK⟩
  | toVisit => exact ⟨trivial, hK⟩
  | rest => exact ⟨hF, hK⟩

theorem Moves.listed {w : Walker σ ν} {s t : State σ ν} (h : Moves w s t) (hs : s.Listed) : t.Listed := by
  cases h with
  | silent _ move => exact move.listed hs.1 hs.2
  | raises => exact ⟨trivial, nofun⟩
  | exits => exact ⟨Signal.isSequence_ofValue _, nofun⟩
  | skips => exact ⟨Signal.isSequence_ofValue _, hs.2⟩
  | descends =>
    refine ⟨trivial, List.forall_mem_cons.mpr ⟨trivial, List.forall_mem_cons.mpr ⟨?_, hs.2⟩⟩⟩
    exact Signal.isSequence_ofValue _
  | leaves => exact ⟨Signal.isSequence_ofValue _, hs.2⟩

theorem Walker.listed_run (w : Walker σ ν) (tree : Value) (store : Store) (memory : σ) (n : Nat) :
    (w.run n (w.start tree store memory)).Listed := by
  refine w.run_keeps (P := State.Listed) (fun s h => (w.step_moves s).listed h) ?_ n
  unfold Walker.start
  split
  · exact ⟨rfl, nofun⟩
  · split
    · exact ⟨trivial, nofun⟩
    · exact ⟨trivial, List.forall_mem_singleton.mpr trivial⟩

/-! ## What a step reads -/

/-- A signal that the walk has been given or is holding. -/
def State.Hears (s : State σ ν) (g : Signal) : Prop :=
  s.focus = .back g ∨ s.focus = .done (.returned g) ∨
    (∃ o, s.focus = .leave o g ∨ .visit o g ∈ s.stack) ∨
    ∃ x ∈ s.exchanges, ∃ v, x.reply.outcome = .ok v ∧ g = .ofValue v

/-- What the next step reads is there. -/
structure State.Readable (s : State σ ν) : Prop where
  /-- What is scanned is a list or tuple, with an element at every position within its length. -/
  element : ∀ seq key parent trail position rest, s.focus = .next →
    s.stack = .items seq key parent trail position :: rest →
    seq.isSequence ∧ (0 ≤ position → position < (seq.items s.store).length →
      ∃ v ∈ seq.items s.store, seq.element s.store position = .ok v)
  /-- A field is read of a record, whether it is still there or not. -/
  field : ∀ node trail key names rest, s.focus = .next → s.stack = .fields node trail (key :: names) :: rest →
    node.isRecord ∧ ∃ o, node.ownField s.store key = .ok o
  signal : ∀ g, s.Hears g → g.Listed s.store

theorem State.Listed.hears {s : State σ ν} (h : s.Listed) {g : Signal} (hg : s.Hears g) : g.toValue.isSequence := by
  obtain ⟨hF, hK⟩ := h
  rcases hg with e | e | ⟨o, e | hm⟩ | ⟨x, -, v, -, rfl⟩
  · rw [e] at hF
    exact hF
  · rw [e] at hF
    exact hF
  · rw [e] at hF
    exact hF
  · exact hK _ hm
  · exact Signal.isSequence_ofValue v

theorem State.Listed.readable {s : State σ ν} (h : s.Listed) (sound : s.Sound) : s.Readable := by
  refine ⟨?_, ?_, fun g hg => (g.listed_iff s.store).mpr (h.hears hg)⟩
  · intro seq key parent trail position rest _ hstack
    have hseq : (Frame.items seq key parent trail position).Listed := h.2 _ (by rw [hstack]; exact List.mem_cons_self)
    refine ⟨hseq, fun h0 hlen => ?_⟩
    obtain ⟨i, rfl⟩ := Int.eq_ofNat_of_zero_le h0
    have hi : i < (seq.items s.store).length := Int.ofNat_lt.mp hlen
    exact ⟨_, List.getElem_mem hi, Value.element_of_getElem? (List.getElem?_eq_getElem hi)⟩
  · intro node trail key names rest _ hstack
    have hnode : (Frame.fields node trail (key :: names)).Sound := sound _ (by rw [hstack]; exact List.mem_cons_self)
    have hrecord := hnode (List.cons_ne_nil _ _)
    exact ⟨hrecord, Value.ownField_of_isRecord s.store hrecord key⟩

/-! ## Faults -/

def Phase.choose {α : Type} (enter leave : α) : Phase → α
  | .enter => enter
  | .leave => leave

namespace Walker

variable (w : Walker σ ν)

def callback (phase : Phase) : Option (Callback σ ν) := phase.choose w.enter w.leave

theorem callback_of_due {F : Focus} {f : Callback σ ν} {c : Call} (h : w.due F = some (f, c)) :
    w.callback c.phase = some f := by
  obtain ⟨o, -, he, rfl⟩ | ⟨o, g, -, hl, rfl⟩ := w.due_cases h
  · exact he
  · exact hl

/-- The answer is that of the callback of its phase. -/
def Made (x : Exchange σ ν) : Prop := ∃ f m, w.callback x.call.phase = some f ∧ x.reply = f x.call x.before m

/-- Every call is answered by the callback of its phase, and a fault that ends the walk is the last answer. -/
structure Blamed (s : State σ ν) : Prop where
  made : ∀ x ∈ s.exchanges, w.Made x
  last : ∀ e, s.focus = .done (.raised e) → ∃ x, s.exchanges.getLast? = some x ∧ x.reply.outcome = .error e

variable {w}

theorem Blamed.step {s : State σ ν} (h : w.Blamed s) (sound : s.Sound) : w.Blamed (w.step s) := by
  refine ⟨?_, ?_⟩
  · cases hd : w.due s.focus with
    | none => rw [exchanges_silent hd]; exact h.made
    | some p =>
      rw [exchanges_called hd]
      refine List.forall_mem_append.mpr ⟨h.made, List.forall_mem_singleton.mpr ?_⟩
      exact ⟨p.1, s.memory, w.callback_of_due hd, rfl⟩
  · have move := w.step_moves s
    generalize w.step s = t at move
    intro e he
    cases move with
    | @silent F K _ silent =>
      have hF : F = .done (.raised e) := he
      subst hF
      by_cases hdone : ∃ o, s.focus = .done o
      · -- A walk that is over stays as it is.
        obtain ⟨o, ho⟩ := hdone
        rw [ho] at silent
        cases silent with
        | rest => exact h.last e ho
      · have hgoing : ∀ o, s.focus ≠ .done o := fun o ho => hdone ⟨o, ho⟩
        rcases silent.ending hgoing sound with ⟨-, -, ho⟩ | ⟨g, -, -, ho⟩
        · cases ho
        · cases ho
    | @raises f c e' r due reply answer =>
      cases he
      refine ⟨⟨c, s.store, r⟩, ?_, answer⟩
      rw [go_exchanges, w.after_exchanges, List.getLast?_append]
      rfl
    | exits => cases he
    | skips => cases he
    | descends => cases he
    | leaves => cases he

theorem blamed_run (w : Walker σ ν) (tree : Value) (store : Store) (memory : σ) (n : Nat) :
    w.Blamed (w.run n (w.start tree store memory)) := by
  induction n with
  | zero =>
    refine ⟨?_, ?_⟩
    · show ∀ x ∈ (w.start tree store memory).exchanges, w.Made x
      rw [w.start_exchanges]
      exact List.forall_mem_nil _
    · intro e
      show (w.start tree store memory).focus = .done (.raised e) → _
      unfold start
      split
      · nofun
      · split <;> nofun
  | succ n ih =>
    rw [w.run_succ]
    exact ih.step (w.sound_run tree store memory n)

/-- The callbacks of a walker are the handles it was made of; a null handle counts as missing. -/
theorem callback_of_make {enter leave : Option (Handle (Callback σ ν))} {settings : Settings} {debug : Bool}
    {s : Store} (made : Walker.make enter leave settings debug s = .ok w) {phase : Phase} {f : Callback σ ν}
    (h : w.callback phase = some f) :
    ∃ handle, phase.choose enter leave = some handle ∧ f = handle.toCallback := by
  unfold Walker.make at made
  cases hr : settings.reserved.names s with
  | error e => rw [hr] at made; cases made
  | ok names =>
    rw [hr] at made
    cases made
    cases phase with
    | enter =>
      obtain ⟨handle, hh, rfl⟩ := Option.map_eq_some_iff.mp h
      exact ⟨handle, (Option.filter_eq_some_iff.mp hh).1, rfl⟩
    | leave =>
      obtain ⟨handle, hh, rfl⟩ := Option.map_eq_some_iff.mp h
      exact ⟨handle, (Option.filter_eq_some_iff.mp hh).1, rfl⟩

end Walker

/-- A walk itself never fails. Whatever is given as callbacks and whatever they do, every step finds what it reads, and
    a fault that ends the walk was raised by calling what was given, in the last call that was made. -/
theorem faults_come_from_callbacks {enter leave : Option (Handle (Callback σ ν))} {settings : Settings} {debug : Bool}
    {store₀ : Store} {w : Walker σ ν} (made : Walker.make enter leave settings debug store₀ = .ok w) (tree : Value)
    (store : Store) (memory : σ) (fuel : Nat) :
    (w.run fuel (w.start tree store memory)).Readable ∧
      ∀ e, (w.walk fuel tree store memory).outcome = some (.raised e) →
        ∃ x handle m, (w.walk fuel tree store memory).exchanges.getLast? = some x ∧
          x.call.phase.choose enter leave = some handle ∧
          x.reply = handle.toCallback x.call x.before m ∧ x.reply.outcome = .error e := by
  refine ⟨(w.listed_run tree store memory fuel).readable (w.sound_run tree store memory fuel), fun e he => ?_⟩
  have blamed := w.blamed_run tree store memory fuel
  obtain ⟨x, hx, answer⟩ := blamed.last e (outcome?_eq_some.mp he)
  obtain ⟨f, m, hf, reply⟩ := blamed.made x (List.mem_of_getLast? hx)
  obtain ⟨handle, given, rfl⟩ := Walker.callback_of_make made hf
  rw [Walker.walk, toRun_exchanges]
  exact ⟨x, handle, m, hx, given, reply, answer⟩

/-- A node whose list holds an object that inherits its type, a list with fields, and the node itself. -/
def tangled : Store := ⟨#[
  { fields := .ofList [("type", .text "Block"), ("body", .container .list 1), ("next", .container .mapping 0)] },
  { items := [.container .object 2, .container .listObject 3, .container .mapping 0] },
  { fields := .ofList [("left", .container .mapping 0)], inherited := .ofList [("type", .text "Name")] },
  { items := [.container .object 2], fields := .ofList [("type", .text "List")] }]⟩

/-- Shortens the list and deletes a field whenever it enters a node, and goes on far outside the list. -/
def shrinking : Callback Nat Unit := fun c s n =>
  { c.answer ((s.setItems 1 ((s.cell 1).items.take n)).setFields 0 ((s.cell 0).fields.erase "next")) (n + 1)
      (.ok (if n < 4 then .tuple [.null, .int (-9)] else .action .skip)) with ancestors := [] }

/-- Something that cannot be called fails when the first node is left, four nodes deep; nothing failed before. -/
theorem tangled_fault : ∃ w : Walker Nat Unit,
    Walker.make (some (.callback shrinking)) (some (.value (.int 0))) {} false .empty = .ok w ∧
      (w.walk 40 (.container .mapping 0) tangled 1).outcome = some (.raised (.notCallable "int")) ∧
      (w.walk 40 (.container .mapping 0) tangled 1).calls.map (·.phase) =
        [.enter, .enter, .enter, .enter, .leave] ∧
      ∃ x, (w.walk 40 (.container .mapping 0) tangled 1).exchanges.getLast? = some x ∧ x.call.phase = .leave := by
  have made : Walker.make (some (.callback shrinking)) (some (.value (.int 0))) {} false .empty =
      .ok ⟨some shrinking, some (Value.int 0).call, ["data", "position"], false, false, false⟩ := rfl
  refine ⟨_, made, by decide +kernel, by decide +kernel, ?_⟩
  obtain ⟨-, blame⟩ := faults_come_from_callbacks made (.container .mapping 0) tangled 1 40
  obtain ⟨x, handle, m, hx, given, reply, answer⟩ := blame (.notCallable "int") (by decide +kernel)
  refine ⟨x, hx, ?_⟩
  cases hp : x.call.phase with
  | leave => rfl
  | enter =>
    rw [hp] at given
    cases given
    rw [reply] at answer
    cases answer

end TreeWalk
