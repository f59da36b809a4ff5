/-
  TreeWalk.Proofs.Steps — what one step of a walk can do, and what follows for any number of steps.

  A step either makes a call or moves silently. A call (`Walker.due`) is answered in the store and the memory of the
  state; the walk takes over what the callback leaves behind (`Walker.after`) and goes on as the answer says. A silent
  move (`Silent`) is told by the reserved names, the store, the focus and the stack alone, and changes nothing but the
  focus and the stack.
  - `Walker.step_moves`: every step is one of the moves of `Moves`; invariants are proved by its cases.
  - `Walker.step_called` / `Walker.step_silent` / `Silent.unique`: the same as equations, for two runs side by side.
  - `Walker.sound_run`: only records have fields left to be looked at, so the walk itself never faults.
  - `Walker.run_eq_iterate`, `Walker.Ends`: runs as repeated steps; a walk that ended stays as it is.
-/

import Mathlib.Logic.Function.Iterate
import TreeWalk.Walk.Visit

namespace TreeWalk

variable {σ ν : Type}

/-! ## Exchanges -/

/-- A call that was made, the store it was made in, and what came back. -/
structure Exchange (σ ν : Type) where
  call : Call
  before : Store
  reply : Reply σ ν

/-- What a call is given: its arguments, and the store as it stands. -/
def Exchange.scene (x : Exchange σ ν) : Call × Store := (x.call, x.before)

def Entry.exchange? : Entry σ ν → Option (Exchange σ ν)
  | .log _ => none
  | .exchange c s r => some ⟨c, s, r⟩

/-- The exchanges among what happened, in the same order. -/
def exchanges (entries : List (Entry σ ν)) : List (Exchange σ ν) := entries.filterMap Entry.exchange?

/-- The callback returned a value that asks to exit, as it stands when it is returned. -/
def Reply.exits (r : Reply σ ν) : Bool :=
  match r.outcome with
  | .error _ => false
  | .ok v => (Signal.ofValue v).isExit r.store

/-- The callback failed or asked to exit. -/
def Reply.stops (r : Reply σ ν) : Bool :=
  match r.outcome with
  | .error _ => true
  | .ok _ => r.exits

theorem Reply.stops_of_error {r : Reply σ ν} {e : Fault} (h : r.outcome = .error e) : r.stops = true := by
  rw [stops, h]

theorem Reply.ne_error {r : Reply σ ν} (h : r.stops = false) (e : Fault) : r.outcome ≠ .error e := by
  intro he
  rw [stops_of_error he] at h
  cases h

theorem Reply.stops_of_ok {r : Reply σ ν} {v : Value} (h : r.outcome = .ok v) :
    r.stops = (Signal.ofValue v).isExit r.store := by
  simp only [stops, exits, h]

theorem Reply.stops_of_exits {r : Reply σ ν} (h : r.exits = true) : r.stops = true := by
  unfold stops
  cases r.outcome with
  | error e => rfl
  | ok v => exact h

def Run.exchanges (r : Run σ ν) : List (Exchange σ ν) := TreeWalk.exchanges r.journal

def Run.calls (r : Run σ ν) : List Call := r.exchanges.map (·.call)

def State.exchanges (s : State σ ν) : List (Exchange σ ν) := (TreeWalk.exchanges s.history).reverse

def State.calls (s : State σ ν) : List Call := s.exchanges.map (·.call)

@[simp] theorem toRun_exchanges (s : State σ ν) : s.toRun.exchanges = s.exchanges := by
  simp [Run.exchanges, State.toRun, State.exchanges, TreeWalk.exchanges, List.filterMap_reverse]

@[simp] theorem toRun_calls (s : State σ ν) : s.toRun.calls = s.calls := by simp [Run.calls, State.calls]

def State.go (s : State σ ν) (F : Focus) (K : List Frame) : State σ ν := { s with focus := F, stack := K }

@[simp] theorem go_store (s : State σ ν) (F : Focus) (K : List Frame) : (s.go F K).store = s.store := rfl
@[simp] theorem go_memory (s : State σ ν) (F : Focus) (K : List Frame) : (s.go F K).memory = s.memory := rfl
@[simp] theorem go_focus (s : State σ ν) (F : Focus) (K : List Frame) : (s.go F K).focus = F := rfl
@[simp] theorem go_stack (s : State σ ν) (F : Focus) (K : List Frame) : (s.go F K).stack = K := rfl
@[simp] theorem go_exchanges (s : State σ ν) (F : Focus) (K : List Frame) : (s.go F K).exchanges = s.exchanges := rfl
@[simp] theorem go_calls (s : State σ ν) (F : Focus) (K : List Frame) : (s.go F K).calls = s.calls := rfl

theorem outcome?_eq_some {s : State σ ν} {o : Outcome} : s.outcome? = some o ↔ s.focus = .done o := by
  unfold State.outcome?
  split <;> simp_all

theorem outcome?_eq_none {s : State σ ν} : s.outcome? = none ↔ ∀ o, s.focus ≠ .done o := by
  unfold State.outcome?
  split <;> simp_all

/-! ## Calls -/

namespace Walker

variable (w : Walker σ ν)

/-- The call the next step makes. -/
def due : Focus → Option (Callback σ ν × Call)
  | .enter o => w.enter.map fun f => (f, { o with phase := .enter })
  | .leave o _ => w.leave.map fun f => (f, { o with phase := .leave })
  | _ => none

/-- What a walk keeps of a call, newest first: the exchange, between the records it logs about it. -/
def entries (c : Call) (before : Store) (r : Reply σ ν) : List (Entry σ ν) :=
  (if w.logs && r.exits then [.log (c.exitRecord r.store w.colored)] else [])
    ++ .exchange c before r :: (if w.logs then [.log (c.record before w.colored)] else [])

/-- The state once a call is answered. -/
def after (c : Call) (r : Reply σ ν) (s : State σ ν) : State σ ν :=
  { s with store := r.store, memory := r.memory, history := w.entries c s.store r ++ s.history }

theorem call_eq (f : Callback σ ν) (c : Call) (s : State σ ν) :
    w.call f c s = (w.after c (f c s.store s.memory) s,
      (f c s.store s.memory).outcome.map fun v => (Signal.ofValue v, (f c s.store s.memory).ancestors)) := by
  unfold call after entries Reply.exits
  cases hl : w.logs with
  | false =>
    simp only [Bool.false_eq_true, if_false, Bool.false_and, State.exchange]
    cases (f c s.store s.memory).outcome <;> rfl
  | true =>
    simp only [if_true, Bool.true_and, State.exchange, State.log]
    cases (f c s.store s.memory).outcome with
    | error e => rfl
    | ok v => cases hx : (Signal.ofValue v).isExit (f c s.store s.memory).store <;> simp [Except.map, hx]

theorem exchanges_entries (c : Call) (before : Store) (r : Reply σ ν) :
    exchanges (w.entries c before r) = [⟨c, before, r⟩] := by
  simp only [entries, exchanges, List.filterMap_append]
  cases w.logs with
  | false => rfl
  | true => cases r.exits <;> rfl

variable (c : Call) (r : Reply σ ν) (s : State σ ν)

@[simp] theorem after_store : (w.after c r s).store = r.store := rfl
@[simp] theorem after_memory : (w.after c r s).memory = r.memory := rfl
@[simp] theorem after_focus : (w.after c r s).focus = s.focus := rfl
@[simp] theorem after_stack : (w.after c r s).stack = s.stack := rfl

@[simp] theorem after_exchanges : (w.after c r s).exchanges = s.exchanges ++ [⟨c, s.store, r⟩] := by
  have h : exchanges (w.after c r s).history = ⟨c, s.store, r⟩ :: exchanges s.history := by
    show exchanges (w.entries c s.store r ++ s.history) = _
    rw [exchanges, List.filterMap_append]
    exact congrArg (· ++ exchanges s.history) (w.exchanges_entries c s.store r)
  rw [State.exchanges, h, List.reverse_cons]
  rfl

theorem mem_after : ⟨c, s.store, r⟩ ∈ (w.after c r s).exchanges := by simp

@[simp] theorem after_calls : (w.after c r s).calls = s.calls ++ [c] := by simp [State.calls]

end Walker

/-- Where an answer leads, from the focus and the stack of the call: on with the walk, or to its end. -/
def heed (store : Store) (ancestors : List Value) (stack : List Frame) :
    Focus → Except Fault Value → Focus × List Frame
  | _, .error e => (.done (.raised e), [])
  | .enter o, .ok v =>
    let signal := Signal.ofValue v
    let o := { o with ancestors }
    if signal.isExit store then (.done (.returned signal), [])
    else if signal.isSkip store then (.leave o signal, stack)
    else (.next, .fields o.node ancestors (o.node.ownNames store) :: .visit o signal :: stack)
  | _, .ok v => (.back (Signal.ofValue v), stack)

theorem Walker.step_called {w : Walker σ ν} {s : State σ ν} {f : Callback σ ν} {c : Call}
    (h : w.due s.focus = some (f, c)) :
    let r := f c s.store s.memory
    let p := heed r.store r.ancestors s.stack s.focus r.outcome
    w.step s = (w.after c r s).go p.1 p.2 := by
  intro r p
  cases hf : s.focus with
  | enter o =>
    simp only [Walker.due, hf, Option.map_eq_some_iff, Prod.mk.injEq] at h
    obtain ⟨f', he, rfl, rfl⟩ := h
    simp only [Walker.step, hf, Walker.enterStep, he, Walker.call_eq]
    cases hr : (f' { o with phase := .enter } s.store s.memory).outcome with
    | error e => simp [p, r, hf, heed, hr, State.finish, State.go, Except.map]
    | ok v =>
      simp only [Except.map, p, r, hf, heed, hr, Walker.after_store, State.finish, State.go, Walker.descend,
        Walker.after_stack]
      by_cases hx : (Signal.ofValue v).isExit (f' { o with phase := .enter } s.store s.memory).store = true
      · simp only [hx, if_true]
      · by_cases hs : (Signal.ofValue v).isSkip (f' { o with phase := .enter } s.store s.memory).store = true
        · simp [hx, hs]
        · simp [hx, hs]
  | leave o signal =>
    simp only [Walker.due, hf, Option.map_eq_some_iff, Prod.mk.injEq] at h
    obtain ⟨f', hl, rfl, rfl⟩ := h
    simp only [Walker.step, hf, Walker.leaveStep, hl, Walker.call_eq]
    cases hr : (f' { o with phase := .leave } s.store s.memory).outcome with
    | error e => simp [p, r, hf, heed, hr, State.finish, State.go, Except.map]
    | ok v => simp [p, r, hf, heed, hr, State.go, Except.map]
  | next => simp [Walker.due, hf] at h
  | back signal => simp [Walker.due, hf] at h
  | done o => simp [Walker.due, hf] at h

/-! ## Silent moves -/

/-- What a step without a call does to the focus and the stack. -/
inductive Silent (reserved : List String) (store : Store) : Focus → List Frame → Focus → List Frame → Prop
  | enter (o : Occurrence) (K : List Frame) :
      Silent reserved store (.enter o) K .next
        (.fields o.node o.ancestors (o.node.ownNames store) :: .visit o .silent :: K)
  | leave (o : Occurrence) (g : Signal) (K : List Frame) : Silent reserved store (.leave o g) K (.back g) K
  | stop : Silent reserved store .next [] (.done (.returned .silent)) []
  | fieldsOver (node : Value) (trail : List Value) (K : List Frame) :
      Silent reserved store .next (.fields node trail [] :: K) .next K
  /-- A field that is reserved or gone, or that holds neither a list nor a node. -/
  | passField (node : Value) (trail : List Value) (key : String) (names : List String) (K : List Frame)
      (h : key ∈ reserved ∨ ∃ o, node.ownField store key = .ok o ∧
        ∀ v, o = some v → v.isSequence = false ∧ v.isNode store = false) :
      Silent reserved store .next (.fields node trail (key :: names) :: K) .next (.fields node trail names :: K)
  | fault (node : Value) (trail : List Value) (key : String) (names : List String) (K : List Frame) (e : Fault)
      (free : key ∉ reserved) (h : node.ownField store key = .error e) :
      Silent reserved store .next (.fields node trail (key :: names) :: K) (.done (.raised e)) []
  | scan (node : Value) (trail : List Value) (key : String) (names : List String) (K : List Frame) (v : Value)
      (free : key ∉ reserved) (h : node.ownField store key = .ok (some v)) (hv : v.isSequence) :
      Silent reserved store .next (.fields node trail (key :: names) :: K) .next
        (.items v key node trail 0 :: .fields node trail names :: K)
  | child (node : Value) (trail : List Value) (key : String) (names : List String) (K : List Frame) (v : Value)
      (free : key ∉ reserved) (h : node.ownField store key = .ok (some v)) (hs : v.isSequence = false)
      (hn : v.isNode store) :
      Silent reserved store .next (.fields node trail (key :: names) :: K)
        (.enter ⟨v, some key, none, trail ++ [node]⟩) (.fields node trail names :: K)
  /-- A position outside the list. -/
  | scanOver (seq : Value) (key : String) (parent : Value) (trail : List Value) (position : Int) (K : List Frame)
      (h : position < 0 ∨ (seq.items store).length ≤ position) :
      Silent reserved store .next (.items seq key parent trail position :: K) .next K
  | item (seq : Value) (key : String) (parent : Value) (trail : List Value) (i : Nat) (K : List Frame) (v : Value)
      (h : (seq.items store)[i]? = some v) (hn : v.isNode store) :
      Silent reserved store .next (.items seq key parent trail i :: K)
        (.enter ⟨v, some key, some i, trail ++ [parent]⟩) (.items seq key parent trail i :: K)
  | passItem (seq : Value) (key : String) (parent : Value) (trail : List Value) (i : Nat) (K : List Frame) (v : Value)
      (h : (seq.items store)[i]? = some v) (hn : v.isNode store = false) :
      Silent reserved store .next (.items seq key parent trail i :: K) .next
        (.items seq key parent trail (i + 1) :: K)
  | childrenOver (o : Occurrence) (g : Signal) (K : List Frame) :
      Silent reserved store .next (.visit o g :: K) (.leave o g) K
  | rootOver (g : Signal) : Silent reserved store (.back g) [] (.done (.returned g)) []
  | exit (g : Signal) (frame : Frame) (K : List Frame) (h : g.isExit store) :
      Silent reserved store (.back g) (frame :: K) (.done (.returned g)) []
  | resume (g : Signal) (seq : Value) (key : String) (parent : Value) (trail : List Value) (position : Int)
      (K : List Frame) (h : g.isExit store = false) :
      Silent reserved store (.back g) (.items seq key parent trail position :: K) .next
        (.items seq key parent trail ((g.resume store).getD (position + 1)) :: K)
  | toFields (g : Signal) (node : Value) (trail : List Value) (names : List String) (K : List Frame)
      (h : g.isExit store = false) :
      Silent reserved store (.back g) (.fields node trail names :: K) .next (.fields node trail names :: K)
  /-- Never met: a visit is not handed the signal of another. -/
  | toVisit (g : Signal) (o : Occurrence) (g' : Signal) (K : List Frame) (h : g.isExit store = false) :
      Silent reserved store (.back g) (.visit o g' :: K) .next (.visit o g' :: K)
  | rest (o : Outcome) (K : List Frame) : Silent reserved store (.done o) K (.done o) K

theorem not_outside {items : List Value} {i : Nat} {v : Value} (h : items[i]? = some v) :
    ¬ ((i : Int) < 0 ∨ (items.length : Int) ≤ i) := by
  obtain ⟨hi, -⟩ := List.getElem?_eq_some_iff.mp h
  omega

theorem Silent.unique {reserved : List String} {store : Store} {F F₁ F₂ : Focus} {K K₁ K₂ : List Frame}
    (h₁ : Silent reserved store F K F₁ K₁) (h₂ : Silent reserved store F K F₂ K₂) : F₁ = F₂ ∧ K₁ = K₂ := by
  cases h₁ with
  | scanOver _ _ _ _ _ _ h =>
    cases h₂ with
    | scanOver => exact ⟨rfl, rfl⟩
    | item _ _ _ _ _ _ _ hi => exact absurd h (not_outside hi)
    | passItem _ _ _ _ _ _ _ hi => exact absurd h (not_outside hi)
  | item _ _ _ _ _ _ _ hi hn =>
    cases h₂ with
    | scanOver _ _ _ _ _ _ h => exact absurd h (not_outside hi)
    | item => simp_all
    | passItem => simp_all
  | passItem _ _ _ _ _ _ _ hi hn =>
    cases h₂ with
    | scanOver _ _ _ _ _ _ h => exact absurd h (not_outside hi)
    | item => simp_all
    | passItem => simp_all
  | _ => cases h₂ <;> simp_all

theorem Walker.fieldStep_silent (w : Walker σ ν) (s : State σ ν) (node : Value) (trail : List Value) (key : String)
    (names : List String) (K : List Frame) :
    ∃ F K', Silent w.reserved s.store .next (.fields node trail (key :: names) :: K) F K' ∧
      w.fieldStep node trail key names K s = s.go F K' := by
  simp only [Walker.fieldStep]
  by_cases hk : key ∈ w.reserved
  · exact ⟨_, _, .passField node trail key names K (.inl hk), by simp only [hk, if_true, State.go]⟩
  simp only [hk, if_false]
  cases hv : node.ownField s.store key with
  | error e => exact ⟨_, _, .fault node trail key names K e hk hv, rfl⟩
  | ok o =>
    cases o with
    | none => exact ⟨_, _, .passField node trail key names K (.inr ⟨none, hv, nofun⟩), rfl⟩
    | some v =>
      by_cases h0 : v = .null
      · subst h0
        have passes : ∀ u, some Value.null = some u → u.isSequence = false ∧ u.isNode s.store = false := by
          rintro _ ⟨⟩
          exact ⟨rfl, rfl⟩
        exact ⟨_, _, .passField node trail key names K (.inr ⟨_, hv, passes⟩), by simp [State.go]⟩
      cases hs : v.isSequence with
      | true => exact ⟨_, _, .scan node trail key names K v hk hv hs, by simp [h0, hs, State.go]⟩
      | false =>
        cases hn : v.isNode s.store with
        | true => exact ⟨_, _, .child node trail key names K v hk hv hs hn, by simp [h0, hs, hn, State.go]⟩
        | false =>
          have passes : ∀ u, some v = some u → u.isSequence = false ∧ u.isNode s.store = false := by
            rintro _ ⟨⟩
            exact ⟨hs, hn⟩
          exact ⟨_, _, .passField node trail key names K (.inr ⟨_, hv, passes⟩), by simp [h0, hs, hn, State.go]⟩

theorem Walker.itemStep_silent (reserved : List String) (s : State σ ν) (seq : Value) (key : String) (parent : Value)
    (trail : List Value) (position : Int) (K : List Frame) :
    ∃ F K', Silent reserved s.store .next (.items seq key parent trail position :: K) F K' ∧
      Walker.itemStep seq key parent trail position K s = s.go F K' := by
  unfold Walker.itemStep
  by_cases hp : 0 ≤ position ∧ position < (seq.items s.store).length
  · obtain ⟨i, rfl⟩ := Int.eq_ofNat_of_zero_le hp.1
    have hi : i < (seq.items s.store).length := Int.ofNat_lt.mp hp.2
    have hv : (seq.items s.store)[i]? = some (seq.items s.store)[i] := List.getElem?_eq_getElem hi
    simp only [hp, and_self, if_true, Value.element_of_getElem? hv, Int.toNat_natCast]
    cases hn : (seq.items s.store)[i].isNode s.store with
    | true => exact ⟨_, _, .item seq key parent trail i K _ hv hn, rfl⟩
    | false => exact ⟨_, _, .passItem seq key parent trail i K _ hv hn, rfl⟩
  · rw [if_neg hp]
    exact ⟨_, _, .scanOver seq key parent trail position K (by omega), rfl⟩

/-- A step that makes no call is a silent move, and changes nothing but the focus and the stack. -/
theorem Walker.step_silent {w : Walker σ ν} {s : State σ ν} (h : w.due s.focus = none) :
    ∃ F K, Silent w.reserved s.store s.focus s.stack F K ∧ w.step s = s.go F K := by
  obtain ⟨store, memory, history, focus, stack⟩ := s
  cases focus with
  | enter o =>
    have he : w.enter = none := Option.map_eq_none_iff.mp h
    exact ⟨_, _, .enter o stack, by simp only [Walker.step, Walker.enterStep, he, Walker.descend, State.go]⟩
  | leave o g =>
    have hl : w.leave = none := Option.map_eq_none_iff.mp h
    exact ⟨_, _, .leave o g stack, by simp only [Walker.step, Walker.leaveStep, hl, State.go]⟩
  | next =>
    cases stack with
    | nil => exact ⟨_, _, .stop, rfl⟩
    | cons frame K =>
      cases frame with
      | fields node trail names =>
        cases names with
        | nil => exact ⟨_, _, .fieldsOver node trail K, rfl⟩
        | cons key names =>
          exact w.fieldStep_silent _ node trail key names K
      | items seq key parent trail position => exact Walker.itemStep_silent _ _ seq key parent trail position K
      | visit o g => exact ⟨_, _, .childrenOver o g K, rfl⟩
  | back g =>
    cases stack with
    | nil => exact ⟨_, _, .rootOver g, rfl⟩
    | cons frame K =>
      simp only [Walker.step, Walker.backStep]
      cases hx : g.isExit store with
      | true => exact ⟨_, _, .exit g frame K hx, rfl⟩
      | false =>
        cases frame with
        | fields node trail names => exact ⟨_, _, .toFields g node trail names K hx, rfl⟩
        | items seq key parent trail position => exact ⟨_, _, .resume g seq key parent trail position K hx, rfl⟩
        | visit o g' => exact ⟨_, _, .toVisit g o g' K hx, rfl⟩
  | done o => exact ⟨_, _, .rest o stack, rfl⟩

def Walker.exchange? (w : Walker σ ν) (s : State σ ν) : Option (Exchange σ ν) :=
  (w.due s.focus).map fun p => ⟨p.2, s.store, p.1 p.2 s.store s.memory⟩

theorem Walker.exchanges_silent {w : Walker σ ν} {s : State σ ν} (h : w.due s.focus = none) :
    (w.step s).exchanges = s.exchanges := by
  obtain ⟨F, K, -, hs⟩ := step_silent h
  rw [hs, go_exchanges]

theorem Walker.exchanges_called {w : Walker σ ν} {s : State σ ν} {f : Callback σ ν} {c : Call}
    (h : w.due s.focus = some (f, c)) :
    (w.step s).exchanges = s.exchanges ++ [⟨c, s.store, f c s.store s.memory⟩] := by
  rw [step_called h, go_exchanges, after_exchanges]

/-! ## All moves -/

/-- What a step can do. `r` is the reply to the call that was due. -/
inductive Moves (w : Walker σ ν) (s : State σ ν) : State σ ν → Prop
  | silent {F : Focus} {K : List Frame} (due : w.due s.focus = none)
      (move : Silent w.reserved s.store s.focus s.stack F K) : Moves w s (s.go F K)
  | raises {f : Callback σ ν} {c : Call} {e : Fault} {r : Reply σ ν} (due : w.due s.focus = some (f, c))
      (reply : f c s.store s.memory = r) (answer : r.outcome = .error e) :
      Moves w s ((w.after c r s).go (.done (.raised e)) [])
  | exits {f : Callback σ ν} {o : Occurrence} {v : Value} {r : Reply σ ν} (focus : s.focus = .enter o)
      (callback : w.enter = some f) (reply : f { o with phase := .enter } s.store s.memory = r)
      (answer : r.outcome = .ok v) (exit : (Signal.ofValue v).isExit r.store) :
      Moves w s ((w.after { o with phase := .enter } r s).go (.done (.returned (.ofValue v))) [])
  | skips {f : Callback σ ν} {o : Occurrence} {v : Value} {r : Reply σ ν} (focus : s.focus = .enter o)
      (callback : w.enter = some f) (reply : f { o with phase := .enter } s.store s.memory = r)
      (answer : r.outcome = .ok v) (exit : (Signal.ofValue v).isExit r.store = false)
      (skip : (Signal.ofValue v).isSkip r.store) :
      Moves w s ((w.after { o with phase := .enter } r s).go (.leave { o with ancestors := r.ancestors } (.ofValue v))
        s.stack)
  | descends {f : Callback σ ν} {o : Occurrence} {v : Value} {r : Reply σ ν} (focus : s.focus = .enter o)
      (callback : w.enter = some f) (reply : f { o with phase := .enter } s.store s.memory = r)
      (answer : r.outcome = .ok v) (exit : (Signal.ofValue v).isExit r.store = false)
      (skip : (Signal.ofValue v).isSkip r.store = false) :
      Moves w s ((w.after { o with phase := .enter } r s).go .next
        (.fields o.node r.ancestors (o.node.ownNames r.store) ::
          .visit { o with ancestors := r.ancestors } (.ofValue v) :: s.stack))
  | leaves {f : Callback σ ν} {o : Occurrence} {g : Signal} {v : Value} {r : Reply σ ν} (focus : s.focus = .leave o g)
      (callback : w.leave = some f) (reply : f { o with phase := .leave } s.store s.memory = r)
      (answer : r.outcome = .ok v) :
      Moves w s ((w.after { o with phase := .leave } r s).go (.back (.ofValue v)) s.stack)

namespace Walker

variable (w : Walker σ ν)

theorem due_enter {o : Occurrence} {f : Callback σ ν} {c : Call} (h : w.due (.enter o) = some (f, c)) :
    w.enter = some f ∧ c = { o with phase := .enter } := by
  obtain ⟨f', he, hp⟩ := Option.map_eq_some_iff.mp h
  cases hp
  exact ⟨he, rfl⟩

theorem due_of_enter {f : Callback σ ν} (h : w.enter = some f) (o : Occurrence) :
    w.due (.enter o) = some (f, { o with phase := .enter }) := by simp only [due, h, Option.map_some]

theorem due_of_leave {f : Callback σ ν} (h : w.leave = some f) (o : Occurrence) (g : Signal) :
    w.due (.leave o g) = some (f, { o with phase := .leave }) := by simp only [due, h, Option.map_some]

theorem due_leave {o : Occurrence} {g : Signal} {f : Callback σ ν} {c : Call} (h : w.due (.leave o g) = some (f, c)) :
    w.leave = some f ∧ c = { o with phase := .leave } := by
  obtain ⟨f', hl, hp⟩ := Option.map_eq_some_iff.mp h
  cases hp
  exact ⟨hl, rfl⟩

theorem due_cases {F : Focus} {f : Callback σ ν} {c : Call} (h : w.due F = some (f, c)) :
    (∃ o, F = .enter o ∧ w.enter = some f ∧ c = { o with phase := .enter }) ∨
      ∃ o g, F = .leave o g ∧ w.leave = some f ∧ c = { o with phase := .leave } := by
  cases F with
  | enter o => exact .inl ⟨o, rfl, w.due_enter h⟩
  | leave o g => exact .inr ⟨o, g, rfl, w.due_leave h⟩
  | next => cases h
  | back g => cases h
  | done o => cases h

theorem leave_of_due {F : Focus} (due : w.due F = none) {o : Occurrence} {g : Signal} (h : F = .leave o g) :
    w.leave.isSome = false := by
  rw [h] at due
  rw [Option.map_eq_none_iff.mp due]
  rfl

theorem exchange?_before {s : State σ ν} {x : Exchange σ ν} (h : w.exchange? s = some x) : x.before = s.store := by
  obtain ⟨p, -, rfl⟩ := Option.map_eq_some_iff.mp h
  rfl

theorem exchange?_of_due {s : State σ ν} {f : Callback σ ν} {c : Call} {r : Reply σ ν}
    (due : w.due s.focus = some (f, c)) (reply : f c s.store s.memory = r) : w.exchange? s = some ⟨c, s.store, r⟩ := by
  rw [exchange?, due, ← reply]
  rfl

theorem exchange?_enter {s : State σ ν} {o : Occurrence} {f : Callback σ ν} {r : Reply σ ν} (focus : s.focus = .enter o)
    (callback : w.enter = some f) (reply : f { o with phase := .enter } s.store s.memory = r) :
    w.exchange? s = some ⟨{ o with phase := .enter }, s.store, r⟩ :=
  w.exchange?_of_due (by rw [focus, w.due_of_enter callback]) reply

theorem exchange?_leave {s : State σ ν} {o : Occurrence} {g : Signal} {f : Callback σ ν} {r : Reply σ ν}
    (focus : s.focus = .leave o g) (callback : w.leave = some f)
    (reply : f { o with phase := .leave } s.store s.memory = r) :
    w.exchange? s = some ⟨{ o with phase := .leave }, s.store, r⟩ :=
  w.exchange?_of_due (by rw [focus, w.due_of_leave callback]) reply

theorem mem_step_exchanges {s : State σ ν} {x : Exchange σ ν} (h : w.exchange? s = some x) :
    x ∈ (w.step s).exchanges := by
  obtain ⟨⟨f, c⟩, due, rfl⟩ := Option.map_eq_some_iff.mp h
  rw [exchanges_called due]
  exact List.mem_append_right _ (List.mem_singleton_self _)

theorem step_moves (s : State σ ν) : Moves w s (w.step s) := by
  cases hd : w.due s.focus with
  | none =>
    obtain ⟨F, K, hm, hs⟩ := step_silent hd
    rw [hs]
    exact .silent hd hm
  | some p =>
    obtain ⟨f, c⟩ := p
    rw [step_called hd]
    cases hr : (f c s.store s.memory).outcome with
    | error e =>
      have hh : heed (f c s.store s.memory).store (f c s.store s.memory).ancestors s.stack s.focus (.error e) =
          (.done (.raised e), []) := by cases s.focus <;> rfl
      rw [hh]
      exact .raises hd rfl hr
    | ok v =>
      obtain ⟨o, hf, he, rfl⟩ | ⟨o, g, hf, hl, rfl⟩ := w.due_cases hd
      · simp only [hf, heed]
        split
        · rename_i hx
          exact .exits hf he rfl hr hx
        · rename_i hx
          have hx' := Bool.eq_false_iff.mpr hx
          split
          · rename_i hk
            exact .skips hf he rfl hr hx' hk
          · rename_i hk
            exact .descends hf he rfl hr hx' (Bool.eq_false_iff.mpr hk)
      · rw [hf]
        exact .leaves hf hl rfl hr

end Walker

theorem Moves.silent_of_due {w : Walker σ ν} {s t : State σ ν} (h : Moves w s t) (due : w.due s.focus = none) :
    ∃ F K, Silent w.reserved s.store s.focus s.stack F K ∧ t = s.go F K := by
  cases h with
  | silent _ move => exact ⟨_, _, move, rfl⟩
  | raises hdue => rw [hdue] at due; cases due
  | exits focus callback => rw [focus, w.due_of_enter callback] at due; cases due
  | skips focus callback => rw [focus, w.due_of_enter callback] at due; cases due
  | descends focus callback => rw [focus, w.due_of_enter callback] at due; cases due
  | leaves focus callback => rw [focus, w.due_of_leave callback] at due; cases due

theorem Moves.store {w : Walker σ ν} {s t : State σ ν} (h : Moves w s t) :
    t.store = s.store ∨ ∃ x, w.exchange? s = some x ∧ t.store = x.reply.store := by
  cases h with
  | silent => exact .inl rfl
  | raises due reply => exact .inr ⟨_, w.exchange?_of_due due reply, rfl⟩
  | exits focus callback reply => exact .inr ⟨_, w.exchange?_enter focus callback reply, rfl⟩
  | skips focus callback reply => exact .inr ⟨_, w.exchange?_enter focus callback reply, rfl⟩
  | descends focus callback reply => exact .inr ⟨_, w.exchange?_enter focus callback reply, rfl⟩
  | leaves focus callback reply => exact .inr ⟨_, w.exchange?_leave focus callback reply, rfl⟩

/-- What a scan does at a position: it ends outside the list, enters a node, or passes over anything else. -/
theorem Silent.scanning {reserved : List String} {store : Store} {seq : Value} {key : String} {parent : Value}
    {trail : List Value} {position : Int} {F : Focus} {K K' : List Frame}
    (h : Silent reserved store .next (.items seq key parent trail position :: K) F K') :
    ((position < 0 ∨ (seq.items store).length ≤ position) ∧ F = .next ∧ K' = K) ∨
      ∃ (i : Nat) (v : Value), position = i ∧ (seq.items store)[i]? = some v ∧
        ((v.isNode store ∧ F = .enter ⟨v, some key, some i, trail ++ [parent]⟩ ∧
            K' = .items seq key parent trail i :: K) ∨
          (v.isNode store = false ∧ F = .next ∧ K' = .items seq key parent trail (i + 1) :: K)) := by
  cases h with
  | scanOver _ _ _ _ _ _ outside => exact .inl ⟨outside, rfl, rfl⟩
  | item _ _ _ _ i _ v hv hn => exact .inr ⟨i, v, rfl, hv, .inl ⟨hn, rfl, rfl⟩⟩
  | passItem _ _ _ _ i _ v hv hn => exact .inr ⟨i, v, rfl, hv, .inr ⟨hn, rfl, rfl⟩⟩

theorem Moves.exchanges {w : Walker σ ν} {s t : State σ ν} (h : Moves w s t) : s.exchanges <+: t.exchanges := by
  cases h with
  | silent => exact List.prefix_rfl
  | raises => exact ⟨_, (w.after_exchanges _ _ s).symm⟩
  | exits => exact ⟨_, (w.after_exchanges _ _ s).symm⟩
  | skips => exact ⟨_, (w.after_exchanges _ _ s).symm⟩
  | descends => exact ⟨_, (w.after_exchanges _ _ s).symm⟩
  | leaves => exact ⟨_, (w.after_exchanges _ _ s).symm⟩

namespace Walker

variable (w : Walker σ ν)

/-! ## Runs -/

theorem step_done {s : State σ ν} {o : Outcome} (h : s.focus = .done o) : w.step s = s := by simp only [step, h]

theorem step_exit {s : State σ ν} {g : Signal} (hf : s.focus = .back g) (hx : g.isExit s.store) :
    w.step s = s.go (.done (.returned g)) [] := by
  obtain ⟨store, memory, history, focus, stack⟩ := s
  cases hf
  cases stack with
  | nil => rfl
  | cons frame K =>
    have hx' : g.isExit store = true := hx
    simp only [step, backStep, hx', if_true, State.finish, State.go]

theorem run_eq_iterate (n : Nat) (s : State σ ν) : w.run n s = w.step^[n] s := by
  induction n generalizing s with
  | zero => rfl
  | succ n ih =>
    rw [Function.iterate_succ_apply, ← ih]
    cases hf : s.focus with
    | done o =>
      rw [w.step_done hf, ih, Function.iterate_fixed (w.step_done hf)]
      simp only [run, hf]
    | _ => simp only [run, hf]

theorem run_succ (n : Nat) (s : State σ ν) : w.run (n + 1) s = w.step (w.run n s) := by
  rw [run_eq_iterate, run_eq_iterate, Function.iterate_succ_apply']

theorem run_step (n : Nat) (s : State σ ν) : w.run (n + 1) s = w.run n (w.step s) := by
  rw [run_eq_iterate, run_eq_iterate, Function.iterate_succ_apply]

theorem run_add (m n : Nat) (s : State σ ν) : w.run (m + n) s = w.run n (w.run m s) := by
  rw [run_eq_iterate, run_eq_iterate, run_eq_iterate, Nat.add_comm, Function.iterate_add_apply]

theorem run_keeps {P : State σ ν → Prop} (keeps : ∀ s, P s → P (w.step s)) {s : State σ ν} (h : P s) (n : Nat) :
    P (w.run n s) := by
  induction n with
  | zero => exact h
  | succ n ih => rw [run_succ]; exact keeps _ ih

theorem run_one (s : State σ ν) : w.run 1 s = w.step s := w.run_succ 0 s

theorem run_exchanges (n : Nat) (s : State σ ν) : s.exchanges <+: (w.run n s).exchanges :=
  w.run_keeps (P := fun t => s.exchanges <+: t.exchanges) (fun t h => h.trans (w.step_moves t).exchanges)
    List.prefix_rfl n

theorem run_exchanges_mono {m n : Nat} (h : m ≤ n) (s : State σ ν) :
    (w.run m s).exchanges <+: (w.run n s).exchanges := by
  obtain ⟨k, rfl⟩ := Nat.exists_eq_add_of_le h
  rw [run_add]
  exact w.run_exchanges k _

theorem run_of_done {s : State σ ν} {o : Outcome} (h : s.focus = .done o) (n : Nat) : w.run n s = s := by
  rw [run_eq_iterate]
  exact Function.iterate_fixed (w.step_done h) n

theorem run_eq_of_done {w : Walker σ ν} {s : State σ ν} {m n : Nat} {o o' : Outcome}
    (h : (w.run m s).focus = .done o) (h' : (w.run n s).focus = .done o') : w.run m s = w.run n s := by
  rw [← w.run_of_done h n, ← w.run_of_done h' m, ← run_add, ← run_add, Nat.add_comm]

theorem exchanges_of_done {w : Walker σ ν} {s : State σ ν} {n : Nat} {o : Outcome} (h : (w.run n s).focus = .done o)
    (fuel : Nat) : (w.run fuel s).exchanges <+: (w.run n s).exchanges := by
  rcases Nat.le_total fuel n with hle | hle
  · exact w.run_exchanges_mono hle s
  · obtain ⟨k, rfl⟩ := Nat.exists_eq_add_of_le hle
    have hrun : w.run (n + k) s = w.run n s := by rw [w.run_add, w.run_of_done h]
    exact hrun ▸ List.prefix_rfl

/-- What holds of every answer of the callbacks holds of every exchange of a walk. -/
theorem run_forall_exchanges {P : Exchange σ ν → Prop}
    (hP : ∀ f c store memory, w.enter = some f ∨ w.leave = some f → P ⟨c, store, f c store memory⟩) {s : State σ ν}
    (hs : ∀ x ∈ s.exchanges, P x) (n : Nat) : ∀ x ∈ (w.run n s).exchanges, P x := by
  refine w.run_keeps (P := fun t => ∀ x ∈ t.exchanges, P x) (fun t ht => ?_) hs n
  cases hd : w.due t.focus with
  | none => rwa [exchanges_silent hd]
  | some p =>
    obtain ⟨f, c⟩ := p
    rw [exchanges_called hd]
    refine List.forall_mem_append.mpr ⟨ht, List.forall_mem_singleton.mpr (hP f c _ _ ?_)⟩
    obtain ⟨o, -, he, -⟩ | ⟨o, g, -, hl, -⟩ := w.due_cases hd
    · exact .inl he
    · exact .inr hl

def HasCallback : Prop := w.enter.isSome ∨ w.leave.isSome

theorem start_history (tree : Value) (store : Store) (memory : σ) : (w.start tree store memory).history = [] := by
  unfold start
  split
  · rfl
  · split <;> rfl

theorem start_exchanges (tree : Value) (store : Store) (memory : σ) : (w.start tree store memory).exchanges = [] := by
  unfold start
  split
  · rfl
  · split <;> rfl

@[simp] theorem start_store (tree : Value) (store : Store) (memory : σ) :
    (w.start tree store memory).store = store := by
  unfold start
  split
  · rfl
  · split <;> rfl

@[simp] theorem start_memory (tree : Value) (store : Store) (memory : σ) :
    (w.start tree store memory).memory = memory := by
  unfold start
  split
  · rfl
  · split <;> rfl

theorem start_node (h : w.HasCallback) {tree : Value} {store : Store} (hn : tree.isNode store) (memory : σ) :
    w.start tree store memory = ⟨store, memory, [], .enter ⟨tree, none, none, []⟩, []⟩ := by
  have h' : (w.enter.isNone && w.leave.isNone) = false := by
    rcases h with h | h <;> simp [Option.isNone_eq_false_iff.mpr h]
  simp only [start, h', hn, Bool.false_eq_true, if_false, if_true]

theorem start_other (h : w.HasCallback) {tree : Value} {store : Store} (hn : tree.isNode store = false) (memory : σ) :
    w.start tree store memory = ⟨store, memory, [], .next, [.fields tree [] (tree.ownNames store)]⟩ := by
  have h' : (w.enter.isNone && w.leave.isNone) = false := by
    rcases h with h | h <;> simp [Option.isNone_eq_false_iff.mpr h]
  simp only [start, h', hn, Bool.false_eq_true, if_false]

/-- The walk comes to an end, and this is what it leaves behind. -/
def Ends (tree : Value) (store : Store) (memory : σ) (r : Run σ ν) : Prop :=
  r.outcome.isSome ∧ ∃ n, ∀ fuel, n ≤ fuel → w.walk fuel tree store memory = r

theorem ends_of_done {tree : Value} {store : Store} {memory : σ} {n : Nat} {o : Outcome}
    (h : (w.run n (w.start tree store memory)).focus = .done o) :
    w.Ends tree store memory (w.run n (w.start tree store memory)).toRun := by
  refine ⟨by simp [State.toRun, State.outcome?, h], n, fun fuel hn => ?_⟩
  obtain ⟨k, rfl⟩ := Nat.exists_eq_add_of_le hn
  rw [walk, run_add, w.run_of_done h]

end Walker

/-! ## The walk itself never faults -/

/-- Only a record has fields that are still to be looked at. -/
def Frame.Sound : Frame → Prop
  | .fields node _ names => names ≠ [] → node.isRecord
  | _ => True

def State.Sound (s : State σ ν) : Prop := ∀ frame ∈ s.stack, frame.Sound

theorem Frame.sound_ownNames (store : Store) (node : Value) (trail : List Value) :
    (Frame.fields node trail (node.ownNames store)).Sound := by
  intro h
  obtain ⟨name, hn⟩ := List.exists_mem_of_ne_nil _ h
  exact Value.isRecord_of_mem_ownNames hn

theorem Silent.sound {reserved : List String} {store : Store} {F F' : Focus} {K K' : List Frame}
    (h : Silent reserved store F K F' K') (hK : ∀ frame ∈ K, frame.Sound) : ∀ frame ∈ K', frame.Sound := by
  -- A frame that stays on top with fewer names left was sound before.
  have shorter : ∀ {node trail key names rest},
      (∀ frame ∈ .fields node trail (key :: names) :: rest, Frame.Sound frame) →
        ∀ frame ∈ .fields node trail names :: rest, frame.Sound := by
    intro node trail key names rest h
    obtain ⟨top, below⟩ := List.forall_mem_cons.mp h
    exact List.forall_mem_cons.mpr ⟨fun _ => top (List.cons_ne_nil _ _), below⟩
  cases h with
  | enter o =>
    exact List.forall_mem_cons.mpr ⟨Frame.sound_ownNames store o.node o.ancestors,
      List.forall_mem_cons.mpr ⟨trivial, hK⟩⟩
  | passField => exact shorter hK
  | child => exact shorter hK
  | scan => exact List.forall_mem_cons.mpr ⟨trivial, shorter hK⟩
  | fieldsOver => exact (List.forall_mem_cons.mp hK).2
  | scanOver => exact (List.forall_mem_cons.mp hK).2
  | childrenOver => exact (List.forall_mem_cons.mp hK).2
  | item => exact List.forall_mem_cons.mpr ⟨trivial, (List.forall_mem_cons.mp hK).2⟩
  | passItem => exact List.forall_mem_cons.mpr ⟨trivial, (List.forall_mem_cons.mp hK).2⟩
  | resume => exact List.forall_mem_cons.mpr ⟨trivial, (List.forall_mem_cons.mp hK).2⟩
  | leave => exact hK
  | toFields => exact hK
  | toVisit => exact hK
  | rest => exact hK
  | stop => exact hK
  | rootOver => exact hK
  | fault => nofun
  | exit => nofun

theorem Moves.sound {w : Walker σ ν} {s t : State σ ν} (h : Moves w s t) (hs : s.Sound) : t.Sound := by
  cases h with
  | silent _ move => exact move.sound hs
  | descends =>
    exact List.forall_mem_cons.mpr ⟨Frame.sound_ownNames _ _ _, List.forall_mem_cons.mpr ⟨trivial, hs⟩⟩
  | skips => exact hs
  | leaves => exact hs
  | raises => nofun
  | exits => nofun

theorem Walker.sound_start (w : Walker σ ν) (tree : Value) (store : Store) (memory : σ) :
    (w.start tree store memory).Sound := by
  unfold Walker.start
  intro frame hf
  split at hf
  · cases hf
  · split at hf
    · cases hf
    · rw [List.mem_singleton.mp hf]
      exact Frame.sound_ownNames store tree []

theorem Walker.sound_run (w : Walker σ ν) (tree : Value) (store : Store) (memory : σ) (n : Nat) :
    (w.run n (w.start tree store memory)).Sound :=
  w.run_keeps (P := State.Sound) (fun s h => (w.step_moves s).sound h) (w.sound_start tree store memory) n

/-- A silent move ends the walk with the signal of its root, or with a signal to exit; never with a fault. -/
theorem Silent.ending {reserved : List String} {store : Store} {F : Focus} {K K' : List Frame} {o : Outcome}
    (h : Silent reserved store F K (.done o) K') (hF : ∀ o, F ≠ .done o) (hK : ∀ frame ∈ K, frame.Sound) :
    (F = .next ∧ K = [] ∧ o = .returned .silent) ∨
      ∃ g, F = .back g ∧ (K = [] ∨ g.isExit store) ∧ o = .returned g := by
  cases h with
  | stop => exact .inl ⟨rfl, rfl, rfl⟩
  | rootOver g => exact .inr ⟨g, rfl, .inl rfl, rfl⟩
  | exit g frame K hx => exact .inr ⟨g, rfl, .inr hx, rfl⟩
  | fault node trail key names _ e _ he =>
    have hr : node.isRecord := (List.forall_mem_cons.mp hK).1 (List.cons_ne_nil _ _)
    obtain ⟨o, ho⟩ := Value.ownField_of_isRecord store hr key
    rw [ho] at he
    cases he
  | rest o => exact absurd rfl (hF o)

/-- A signal is handed back silently only where there is no `leave` to ask. -/
theorem Silent.back {reserved : List String} {store : Store} {F : Focus} {K K' : List Frame} {g : Signal}
    (h : Silent reserved store F K (.back g) K') : ∃ o, F = .leave o g ∧ K' = K := by
  cases h with
  | leave o => exact ⟨o, rfl, rfl⟩

theorem Silent.going {reserved : List String} {store : Store} {F F' : Focus} {K K' : List Frame}
    (h : Silent reserved store F K F' K') (hF' : ∀ o, F' ≠ .done o) (o : Outcome) : F ≠ .done o := by
  rintro rfl
  cases h with
  | rest => exact hF' o rfl

/-! ## Two walks side by side -/

namespace Walker

variable {σ' ν' : Type} {w : Walker σ ν} {w' : Walker σ' ν'} {s : State σ ν} {s' : State σ' ν'}

/-- Two walks are about to do the same in equal stores. -/
structure Aligned (s : State σ ν) (s' : State σ' ν') : Prop where
  store : s'.store = s.store
  focus : s'.focus = s.focus
  stack : s'.stack = s.stack

theorem Aligned.silent (h : Aligned s s') (reserved : w'.reserved = w.reserved) (due : w.due s.focus = none)
    (due' : w'.due s'.focus = none) :
    Aligned (w.step s) (w'.step s') ∧ (w.step s).memory = s.memory ∧ (w'.step s').memory = s'.memory := by
  obtain ⟨F, K, move, hs⟩ := step_silent due
  obtain ⟨F', K', move', hs'⟩ := step_silent due'
  rw [h.store, h.focus, h.stack, reserved] at move'
  obtain ⟨hF, hK⟩ := move'.unique move
  rw [hs, hs']
  exact ⟨⟨h.store, hF, hK⟩, rfl, rfl⟩

theorem Aligned.called (h : Aligned s s') {f : Callback σ ν} {f' : Callback σ' ν'} {c c' : Call}
    (due : w.due s.focus = some (f, c)) (due' : w'.due s'.focus = some (f', c'))
    (outcome : (f' c' s'.store s'.memory).outcome = (f c s.store s.memory).outcome)
    (store : (f' c' s'.store s'.memory).store = (f c s.store s.memory).store)
    (ancestors : (f' c' s'.store s'.memory).ancestors = (f c s.store s.memory).ancestors) :
    Aligned (w.step s) (w'.step s') := by
  rw [step_called due, step_called due']
  simp only [outcome, store, ancestors, h.focus, h.stack]
  exact ⟨store, rfl, rfl⟩

/-- What a step does is told by the exchange it makes: two walkers that agree on it, on the reserved names and on their
    logging do the same. -/
theorem step_eq_of_exchange? {w w' : Walker σ ν} {s : State σ ν} (reserved : w'.reserved = w.reserved)
    (logs : w'.logs = w.logs) (colored : w'.colored = w.colored) (same : w'.exchange? s = w.exchange? s) :
    w'.step s = w.step s := by
  unfold exchange? at same
  cases due : w.due s.focus with
  | none =>
    have due' : w'.due s.focus = none := by
      rw [due] at same
      exact Option.map_eq_none_iff.mp same
    obtain ⟨F, K, move, hs⟩ := step_silent due
    obtain ⟨F', K', move', hs'⟩ := step_silent due'
    rw [reserved] at move'
    obtain ⟨rfl, rfl⟩ := move'.unique move
    rw [hs, hs']
  | some p =>
    obtain ⟨f, c⟩ := p
    rw [due] at same
    obtain ⟨⟨f', c'⟩, due', same⟩ := Option.map_eq_some_iff.mp same
    simp only [Exchange.mk.injEq, true_and] at same
    obtain ⟨rfl, reply⟩ := same
    rw [step_called due, step_called due']
    simp only [reply, after, entries, logs, colored]

end Walker

end TreeWalk
