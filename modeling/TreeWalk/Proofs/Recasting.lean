/-
  TreeWalk.Proofs.Recasting — a walk does not depend on how its tree is represented.

  A mapping can be turned into one that is only read, or into an object that inherits nothing, with the same fields in
  the same order; and a list can be turned into a tuple of the same elements (`Turned`). Any of the mappings and lists
  of a store can be turned and the others kept, and what held the one holds the other afterwards (`Store.Recast`).
  Sharing and cycles stay as they are.
  - `Store.Recast.likeness`: a walk sees no difference between the two stores.
  - `Exchange.OnlyReads`, `Echo`: the callbacks change nothing, and return corresponding values when they are given
    corresponding arguments. What they return is then read alike (`Value.Recast.agrees`), and stays as it is
    (`unedited_of_reading`).
  - `recast_walk`: so the calls of the two walks correspond one to one, and so do their results.
-/

import TreeWalk.Proofs.Untouched
import TreeWalk.Proofs.Verdicts

namespace TreeWalk

variable {σ ν σ' ν' : Type}

/-! ## Other representations -/

/-- Corresponding values, if `R` tells what the containers were turned into. -/
inductive Value.Recast (R : Value → Value → Prop) : Value → Value → Prop
  | atom (a : Atom) : Value.Recast R (.atom a) (.atom a)
  | tuple {vs vs' : List Value} (h : List.Forall₂ (Value.Recast R) vs vs') : Value.Recast R (.tuple vs) (.tuple vs')
  | turned {v v' : Value} (h : R v v') : Value.Recast R v v'

/-- The same names in the same order, for corresponding values. -/
def Fields.Recast (V : Value → Value → Prop) (f f' : Fields Value) : Prop :=
  List.Forall₂ (fun e e' => e'.1 = e.1 ∧ V e.2 e'.2) f.entries f'.entries

/-- What may become of a container. -/
inductive Turned (V : Value → Value → Prop) (s s' : Store) : Value → Value → Prop
  | kept (kind : Kind) {r r' : Ref} (items : List.Forall₂ V (s.cell r).items (s'.cell r').items)
      (fields : (s.cell r).fields.Recast V (s'.cell r').fields)
      (inherited : (s.cell r).inherited.Recast V (s'.cell r').inherited) :
      Turned V s s' (.container kind r) (.container kind r')
  | frozen {r r' : Ref} (fields : (s.cell r).fields.Recast V (s'.cell r').fields) :
      Turned V s s' (.container .mapping r) (.container .frozenMapping r')
  | object {r r' : Ref} (fields : (s.cell r).fields.Recast V (s'.cell r').fields)
      (plain : (s'.cell r').inherited = ∅) : Turned V s s' (.container .mapping r) (.container .object r')
  | tuple {r : Ref} {vs' : List Value} (items : List.Forall₂ V (s.cell r).items vs') :
      Turned V s s' (.container .list r) (.tuple vs')

/-- What `R` says of the containers of two stores is so. -/
def Store.Recast (R : Value → Value → Prop) (s s' : Store) : Prop :=
  ∀ v v', R v v' → Turned (Value.Recast R) s s' v v'

namespace Fields.Recast

variable {V : Value → Value → Prop} {f f' : Fields Value}

theorem names (h : f.Recast V f') : f'.names = f.names := by
  unfold Fields.names
  unfold Fields.Recast at h
  generalize f.entries = es at h ⊢
  generalize f'.entries = es' at h ⊢
  induction h with
  | nil => rfl
  | cons head _ ih => rw [List.map_cons, List.map_cons, head.1, ih]

theorem get? (h : f.Recast V f') (name : String) : Option.Rel V (f.get? name) (f'.get? name) := by
  unfold Fields.get?
  unfold Fields.Recast at h
  generalize f.entries = es at h ⊢
  generalize f'.entries = es' at h ⊢
  induction h with
  | nil => exact .none
  | @cons e e' _ _ head _ ih =>
    obtain ⟨key, v⟩ := e
    obtain ⟨key', v'⟩ := e'
    obtain ⟨rfl, hv⟩ : key' = key ∧ V v v' := head
    rw [List.lookup_cons, List.lookup_cons]
    split
    · exact .some hv
    · exact ih

end Fields.Recast

section

variable {R : Value → Value → Prop} {s s' : Store} {v v' : Value}

namespace Value.Recast

theorem text? (hs : s.Recast R s') (h : v.Recast R v') : v'.text? = v.text? := by
  cases h with
  | atom => rfl
  | tuple => rfl
  | turned h => cases hs _ _ h <;> rfl

theorem int? (hs : s.Recast R s') (h : v.Recast R v') : v'.int? = v.int? := by
  cases h with
  | atom => rfl
  | tuple => rfl
  | turned h => cases hs _ _ h <;> rfl

theorem action_iff (hs : s.Recast R s') (h : v.Recast R v') (a : Action) : v' = .action a ↔ v = .action a := by
  cases h with
  | atom => exact Iff.rfl
  | tuple => simp
  | turned h => cases hs _ _ h <;> simp

end Value.Recast

theorem Fields.Recast.text? {f f' : Fields Value} (hs : s.Recast R s') (h : f.Recast (Value.Recast R) f')
    (name : String) : (f'.get? name).bind Value.text? = (f.get? name).bind Value.text? := by
  have own := h.get? name
  generalize f.get? name = field at own ⊢
  generalize f'.get? name = field' at own ⊢
  cases own with
  | none => rfl
  | some hv => exact hv.text? hs

theorem Fields.Recast.type {f f' : Fields Value} (hs : s.Recast R s') (h : f.Recast (Value.Recast R) f')
    {behind behind' : Option Value} (hb : behind'.bind Value.text? = behind.bind Value.text?) :
    (match f'.get? "type" with | some v => some v | none => behind').bind Value.text? =
      (match f.get? "type" with | some v => some v | none => behind).bind Value.text? := by
  have own := h.get? "type"
  generalize f.get? "type" = field at own ⊢
  generalize f'.get? "type" = field' at own ⊢
  cases own with
  | none => exact hb
  | some hv => exact hv.text? hs

namespace Turned

variable (hs : s.Recast R s') (h : Turned (Value.Recast R) s s' v v')

include hs h

theorem tag : v'.tag s' = v.tag s := by
  cases h with
  | kept kind _ fields inherited =>
    simp only [Value.tag, Store.attribute?]
    split
    · refine fields.type hs ?_
      split
      · exact inherited.text? hs "type"
      · rfl
    · rfl
  | frozen fields => exact fields.type hs rfl
  | object fields plain =>
    -- Behind the fields of an object there could be an inherited type; behind those of a mapping there is nothing.
    refine fields.type hs ?_
    rw [plain]
    rfl
  | tuple => rfl

omit hs

theorem sequence : v'.isSequence = v.isSequence := by
  cases h <;> rfl

theorem names : v'.ownNames s' = v.ownNames s := by
  cases h with
  | kept kind _ fields _ => simp only [Value.ownNames, fields.names]
  | frozen fields => exact fields.names
  | object fields _ => exact fields.names
  | tuple => rfl

theorem items : List.Forall₂ (Value.Recast R) (v.items s) (v'.items s') := by
  cases h with
  | kept kind items =>
    simp only [Value.items]
    split
    · exact items
    · exact .nil
  | frozen => exact .nil
  | object => exact .nil
  | tuple items => exact items

theorem field (name : String) : FieldLike (Value.Recast R) (v.ownField s name) (v'.ownField s' name) := by
  have found : ∀ {f f' : Fields Value}, f.Recast (Value.Recast R) f' →
      FieldLike (Value.Recast R) (.ok (f.get? name)) (.ok (f'.get? name)) := by
    intro f f' fields
    have own := fields.get? name
    generalize f.get? name = field at own ⊢
    generalize f'.get? name = field' at own ⊢
    cases own with
    | none => exact .missing
    | some hv => exact .found hv
  cases h with
  | kept kind _ fields _ =>
    simp only [Value.ownField]
    split
    · exact found fields
    · exact .fault _
  | frozen fields => exact found fields
  | object fields _ => exact found fields
  | tuple => exact .fault _

end Turned

/-- A walk sees no difference between a store and one it was turned into. -/
theorem Store.Recast.likeness (hs : s.Recast R s') : Likeness (Value.Recast R) s s' := by
  refine ⟨?_, ?_, ?_, ?_, ?_⟩
  · intro v v' h
    cases h with
    | atom => rfl
    | tuple => rfl
    | turned h => exact (hs _ _ h).tag hs
  · intro v v' h
    cases h with
    | atom => rfl
    | tuple => rfl
    | turned h => exact (hs _ _ h).sequence
  · intro v v' h
    cases h with
    | atom => rfl
    | tuple => rfl
    | turned h => exact (hs _ _ h).names
  · intro v v' h name
    cases h with
    | atom a => exact .atom .atom a name
    | tuple => exact .fault _
    | turned h => exact (hs _ _ h).field name
  · intro v v' h
    cases h with
    | atom => exact .nil
    | tuple h => exact h
    | turned h => exact (hs _ _ h).items

/-! ## Corresponding answers -/

theorem Value.Recast.signal (hs : s.Recast R s') (h : v.Recast R v') :
    (Signal.ofValue v).toValue.Recast R (Signal.ofValue v').toValue := by
  cases h with
  | atom a =>
    cases a with
    | int i => exact .tuple (.cons (.atom _) (.cons (.atom _) .nil))
    | _ => exact .tuple (.cons (.atom _) .nil)
  | tuple h => exact .tuple h
  | turned h =>
    have single : ∀ {u u' : Value}, R u u' → (Value.tuple [u]).Recast R (.tuple [u']) := fun h =>
      .tuple (.cons (.turned h) .nil)
    cases hs _ _ h with
    | kept kind =>
      cases kind with
      | list => exact .turned h
      | listObject => exact .turned h
      | _ => exact single h
    | frozen => exact single h
    | object => exact single h
    | tuple => exact .turned h

theorem Signal.items_toValue (s : Store) (v : Value) : (ofValue v).toValue.items s = (ofValue v).items s := by
  cases v with
  | atom a => cases a <;> rfl
  | tuple vs => rfl
  | container k r => cases k <;> rfl

/-- Corresponding answers ask the walk for the same. -/
theorem Value.Recast.agrees (hs : s.Recast R s') (h : v.Recast R v') (leave : Bool) (c : Call) :
    c.Agrees leave s s' v v' := by
  have items := hs.likeness.items (h.signal hs)
  rw [Signal.items_toValue, Signal.items_toValue] at items
  have action : ∀ a, (Signal.ofValue v').action s' = .action a ↔ (Signal.ofValue v).action s = .action a := by
    intro a
    unfold Signal.action
    generalize (Signal.ofValue v).items s = us at items
    generalize (Signal.ofValue v').items s' = us' at items
    cases items with
    | nil => exact Iff.rfl
    | cons head => exact head.action_iff hs a
  refine ⟨?_, fun _ => ?_, fun _ _ _ => ?_⟩
  · simp only [Signal.isExit, action]
  · simp only [Signal.isSkip, action]
  · unfold Signal.resume
    generalize (Signal.ofValue v).items s = us at items
    generalize (Signal.ofValue v').items s' = us' at items
    obtain _ | ⟨-, _ | ⟨second, -⟩⟩ := items
    · rfl
    · rfl
    · exact second.int? hs

end

/-! ## Callbacks that only read -/

/-- The callback changed nothing. It may have made new values, such as a list to return. -/
structure Exchange.OnlyReads (x : Exchange σ ν) : Prop where
  store : x.before.Grows x.reply.store
  ancestors : x.reply.ancestors = x.call.ancestors
  placed : ∀ v, x.reply.outcome = .ok v → v.Placed x.reply.store

theorem Store.Grows.signal {s t : Store} (h : s.Grows t) {v : Value} (placed : v.Placed s) :
    (Signal.ofValue v).items t = (Signal.ofValue v).items s := by
  cases v with
  | atom a => cases a <;> rfl
  | tuple vs => rfl
  | container k r =>
    simp only [Signal.ofValue]
    split
    · exact congrArg Cell.items (h.cell r placed)
    · rfl

namespace Threaded

variable {s t : Store} {xs : List (Exchange σ ν)}

theorem grows_mem (h : Threaded s xs t) (grows : ∀ x ∈ xs, x.before.Grows x.reply.store) {y : Exchange σ ν}
    (hy : y ∈ xs) : s.Grows y.reply.store := by
  induction xs generalizing s with
  | nil => cases hy
  | cons x xs ih =>
    obtain ⟨rfl, hxs⟩ := h
    obtain ⟨hx, hrest⟩ := List.forall_mem_cons.mp grows
    rcases List.mem_cons.mp hy with rfl | hy
    · exact hx
    · exact hx.trans (ih hxs hrest hy)

theorem unedited (h : Threaded s xs t) (reading : ∀ x ∈ xs, x.OnlyReads) : Unedited xs := by
  induction xs generalizing s with
  | nil => exact .nil
  | cons x xs ih =>
    obtain ⟨rfl, hxs⟩ := h
    obtain ⟨hx, hrest⟩ := List.forall_mem_cons.mp reading
    refine .cons (fun y hy v hv => ?_) (ih hxs hrest)
    have later := hxs.grows_mem (fun z hz => (hrest z hz).store) hy
    exact later.signal (hx.placed v hv)

end Threaded

namespace Walker

variable {w : Walker σ ν} {tree : Value} {store : Store} {memory : σ} {k n : Nat}

theorem keeps_run (unedited : Unedited (w.run n (w.start tree store memory)).exchanges) (hk : k ≤ n) :
    (w.run k (w.start tree store memory)).Keeps := by
  induction k with
  | zero => exact w.start_keeps tree store memory
  | succ k ih =>
    have before := unedited.mono (w.run_exchanges_mono hk (w.start tree store memory))
    rw [w.run_succ] at before ⊢
    exact (w.step_moves _).keeps (ih (by omega)) before

theorem spares_run (unedited : Unedited (w.run n (w.start tree store memory)).exchanges) (hk : k < n) :
    w.Spares (w.run k (w.start tree store memory)) := by
  intro _ x hx o g hg
  obtain ⟨⟨f, c⟩, due, rfl⟩ := Option.map_eq_some_iff.mp hx
  have before := unedited.mono (w.run_exchanges_mono hk (w.start tree store memory))
  rw [w.run_succ, exchanges_called due] at before
  exact (keeps_run unedited hk.le).items before hg

end Walker

/-! ## Callbacks that echo each other -/

section

variable (R : Value → Value → Prop)

/-- Both callbacks failed in the same way, or returned corresponding values. -/
inductive AnswerRecast : Except Fault Value → Except Fault Value → Prop
  | fault (e : Fault) : AnswerRecast (.error e) (.error e)
  | value {v v' : Value} (h : v.Recast R v') : AnswerRecast (.ok v) (.ok v')

/-- Corresponding arguments were given, and corresponding values returned. -/
structure Exchange.Echoes (x : Exchange σ ν) (x' : Exchange σ' ν') : Prop where
  call : x.call.Like (Value.Recast R) x'.call
  before : x.before.Recast R x'.before
  after : x.reply.store.Recast R x'.reply.store
  answer : AnswerRecast R x.reply.outcome x'.reply.outcome

/-- Each time the two are given corresponding arguments, after exchanges that correspond, they return corresponding
    values. -/
def Echo (xs : List (Exchange σ ν)) (xs' : List (Exchange σ' ν')) : Prop :=
  ∀ k x x', xs[k]? = some x → xs'[k]? = some x' → List.Forall₂ (Exchange.Echoes R) (xs.take k) (xs'.take k) →
    x.call.Like (Value.Recast R) x'.call → x.before.Recast R x'.before → x.Echoes R x'

/-- Both walks are still going, both failed in the same way, or their results correspond. -/
inductive ResultRecast : Option Outcome → Option Outcome → Prop
  | going : ResultRecast none none
  | raised (e : Fault) : ResultRecast (some (.raised e)) (some (.raised e))
  | returned {g g' : Signal} (h : g.toValue.Recast R g'.toValue) :
      ResultRecast (some (.returned g)) (some (.returned g'))

end

section

variable {R : Value → Value → Prop}

namespace Exchange.Echoes

variable {x : Exchange σ ν} {x' : Exchange σ' ν'}

theorem answers (h : x.Echoes R x') (leave : Bool) :
    x.call.Answers leave x.reply.store x'.reply.store x.reply.outcome x'.reply.outcome := by
  have answer := h.answer
  generalize x.reply.outcome = a at answer ⊢
  generalize x'.reply.outcome = a' at answer ⊢
  cases answer with
  | fault e => exact .fault e
  | value hv => exact .value (hv.agrees h.after leave x.call)

theorem concurs (h : x.Echoes R x') (reads : x.OnlyReads) (reads' : x'.OnlyReads) (leave : Bool) :
    x.call.Concurs (Value.Recast R) (Store.Recast R) leave x.reply x'.reply := by
  refine ⟨h.after, ?_, h.answers leave⟩
  rw [reads.ancestors, reads'.ancestors]
  exact h.call.occurrence.ancestors

theorem signal (h : x.Echoes R x') : x.signal.toValue.Recast R x'.signal.toValue := by
  have answer := h.answer
  unfold Exchange.signal
  generalize x.reply.outcome = a at answer ⊢
  generalize x'.reply.outcome = a' at answer ⊢
  cases answer with
  | fault e => exact .tuple .nil
  | value hv => exact hv.signal h.after

end Exchange.Echoes

variable {xs : List (Exchange σ ν)} {xs' : List (Exchange σ' ν')}

/-- Exchanges that walks at the same point made correspond, the first of them first. -/
theorem Echo.echoes (echo : Echo R xs xs') {leave : Bool} {k : Nat}
    (like : List.Forall₂ (Exchange.Like (Value.Recast R) (Store.Recast R) leave) (xs.take k) (xs'.take k)) :
    List.Forall₂ (Exchange.Echoes R) (xs.take k) (xs'.take k) := by
  induction k with
  | zero => exact .nil
  | succ k ih =>
    have earlier := ih (by simpa [List.take_take] using List.forall₂_take k like)
    have hlen := like.length_eq
    rw [List.length_take, List.length_take] at hlen
    rcases Nat.lt_or_ge k xs.length with hk | hk
    · have hk' : k < xs'.length := by omega
      have last := like.get (i := k) (by rw [List.length_take]; omega) (by rw [List.length_take]; omega)
      simp only [List.get_eq_getElem, List.getElem_take] at last
      rw [List.take_succ_eq_append_getElem hk, List.take_succ_eq_append_getElem hk']
      -- Exchange number `k` comes after exchanges that correspond, so the callbacks echo each other in it.
      refine List.rel_append earlier (.cons ?_ .nil)
      exact echo k _ _ (List.getElem?_eq_getElem hk) (List.getElem?_eq_getElem hk') earlier last.call last.before
    · have hk' : xs'.length ≤ k := by omega
      rw [List.take_of_length_le hk, List.take_of_length_le hk'] at earlier
      rw [List.take_of_length_le (by omega), List.take_of_length_le (by omega)]
      exact earlier

theorem Echo.echoes_all (echo : Echo R xs xs') {leave : Bool}
    (like : List.Forall₂ (Exchange.Like (Value.Recast R) (Store.Recast R) leave) xs xs') :
    List.Forall₂ (Exchange.Echoes R) xs xs' := by
  have all := xs.take_length
  have all' := xs'.take_length
  rw [← like.length_eq] at all'
  rw [← all, ← all'] at like ⊢
  exact echo.echoes like

theorem Echo.concur (echo : Echo R xs xs') (reading : ∀ x ∈ xs, x.OnlyReads) (reading' : ∀ x ∈ xs', x.OnlyReads)
    (leave : Bool) : Concur (Value.Recast R) (Store.Recast R) leave xs xs' := by
  intro k x x' hx hx' same call before
  have echoes := echo k x x' hx hx' (echo.echoes same) call before
  exact echoes.concurs (reading x (List.mem_of_getElem? hx)) (reading' x' (List.mem_of_getElem? hx')) leave

end

theorem forall₂_head? {α β : Type} {P : α → β → Prop} {as : List α} {bs : List β} (h : List.Forall₂ P as bs) :
    Option.Rel P as.head? bs.head? := by
  cases h with
  | nil => exact .none
  | cons head _ => exact .some head

theorem forall₂_getLast? {α β : Type} {P : α → β → Prop} {as : List α} {bs : List β} (h : List.Forall₂ P as bs) :
    Option.Rel P as.getLast? bs.getLast? := by
  rw [← List.head?_reverse, ← List.head?_reverse]
  exact forall₂_head? (List.forall₂_reverse_iff.mpr h)

/-! ## The two walks -/

section

variable {R : Value → Value → Prop} {w : Walker σ ν} {w' : Walker σ' ν'}

theorem Walker.decider_echoes (alike : w.Alike w') (node : Bool) {xs : List (Exchange σ ν)}
    {xs' : List (Exchange σ' ν')} (h : List.Forall₂ (Exchange.Echoes R) xs xs') :
    Option.Rel (Exchange.Echoes R) (w.decider node xs) (w'.decider node xs') := by
  have last := forall₂_getLast? h
  have first := forall₂_head? h
  unfold Walker.decider
  generalize xs.getLast? = x at last ⊢
  generalize xs'.getLast? = x' at last ⊢
  cases last with
  | none => exact .none
  | some echoes =>
    simp only [Option.bind_some, (echoes.answers false).exits, alike.leave]
    split
    · exact .some echoes
    · split
      · split
        · exact .some echoes
        · exact first
      · exact .none

theorem Walker.recast_run (alike : w.Alike w') {tree tree' : Value} {store store' : Store} (htree : tree.Recast R tree')
    (hstore : store.Recast R store') (memory : σ) (memory' : σ') (n : Nat)
    (reading : ∀ x ∈ (w.run n (w.start tree store memory)).exchanges, x.OnlyReads)
    (reading' : ∀ x ∈ (w'.run n (w'.start tree' store' memory')).exchanges, x.OnlyReads)
    (echo : Echo R (w.run n (w.start tree store memory)).exchanges
      (w'.run n (w'.start tree' store' memory')).exchanges) :
    let s := w.run n (w.start tree store memory)
    let s' := w'.run n (w'.start tree' store' memory')
    List.Forall₂ (Exchange.Echoes R) s.exchanges s'.exchanges ∧ s.store.Recast R s'.store ∧
      ResultRecast R s.outcome? s'.outcome? := by
  intro s s'
  have unedited := (w.threaded_run tree store memory n).unedited reading
  have unedited' := (w'.threaded_run tree' store' memory' n).unedited reading'
  obtain ⟨like, -, -⟩ := like_run (fun _ _ h => Store.Recast.likeness h) alike htree hstore memory memory' n
    (echo.concur reading reading' _) unedited unedited'
  have echoes := echo.echoes_all like.exchanges
  have returned : ∀ g g', s.focus = .done (.returned g) → s'.focus = .done (.returned g') →
      g.toValue.Recast R g'.toValue := by
    intro g g' done done'
    rw [returned_eq (fun _ hj => spares_run unedited hj) done, returned_eq (fun _ hj => spares_run unedited' hj) done',
      hstore.likeness.isNode htree]
    -- The exchanges that decide stand at the same place in both walks.
    have decided := decider_echoes alike (tree.isNode store) echoes
    generalize w.decider _ _ = x at decided ⊢
    generalize w'.decider _ _ = x' at decided ⊢
    cases decided with
    | none => exact .tuple .nil
    | some echoes => exact echoes.signal
  refine ⟨echoes, like.store, ?_⟩
  have focus := like.focus
  unfold State.outcome?
  generalize s.focus = F at focus returned ⊢
  generalize s'.focus = F' at focus returned ⊢
  cases focus with
  | raised e => exact .raised e
  | returned g g' => exact .returned (returned g g' rfl rfl)
  | _ => exact .going

end

/-- A walk does not depend on how its tree is represented. Let some of the mappings of a store be turned into mappings
    that are only read or into objects that inherit nothing, with the same fields in the same order, and some of its
    lists into tuples of the same elements; `R` tells what became of what. If the callbacks of two visitors change
    nothing and return corresponding values for corresponding arguments, their calls correspond one to one and in order,
    and both walks fail in the same way or return corresponding results. -/
theorem recast_walk {R : Value → Value → Prop} {w : Walker σ ν} {w' : Walker σ' ν'} (alike : w.Alike w')
    {tree tree' : Value} {store store' : Store} (htree : tree.Recast R tree') (hstore : store.Recast R store')
    (memory : σ) (memory' : σ') (fuel : Nat)
    (reading : ∀ x ∈ (w.walk fuel tree store memory).exchanges, x.OnlyReads)
    (reading' : ∀ x ∈ (w'.walk fuel tree' store' memory').exchanges, x.OnlyReads)
    (echo : Echo R (w.walk fuel tree store memory).exchanges (w'.walk fuel tree' store' memory').exchanges) :
    let r := w.walk fuel tree store memory
    let r' := w'.walk fuel tree' store' memory'
    List.Forall₂ (Call.Like (Value.Recast R)) r.calls r'.calls ∧ ResultRecast R r.outcome r'.outcome ∧
      r.store.Recast R r'.store := by
  intro r r'
  rw [Walker.walk, toRun_exchanges] at reading reading'
  rw [Walker.walk, Walker.walk, toRun_exchanges, toRun_exchanges] at echo
  obtain ⟨echoes, stores, results⟩ :=
    Walker.recast_run alike htree hstore memory memory' fuel reading reading' echo
  refine ⟨?_, results, stores⟩
  have calls : List.Forall₂ (Call.Like (Value.Recast R)) (w.run fuel (w.start tree store memory)).calls
      (w'.run fuel (w'.start tree' store' memory')).calls := by
    rw [State.calls, State.calls, List.forall₂_map_left_iff, List.forall₂_map_right_iff]
    exact echoes.imp fun _ _ h => h.call
  rwa [← toRun_calls, ← toRun_calls] at calls

/-- A node with nodes in a list, which lead back to it and to the list. -/
def circle : Store := ⟨#[
  { fields := .ofList [("type", .text "Block"), ("body", .container .list 1)] },
  { items := [.container .mapping 2, .int 1, .container .mapping 3, .container .mapping 2] },
  { fields := .ofList [("type", .text "Call"), ("up", .container .mapping 0)] },
  { fields := .ofList [("type", .text "Name"), ("peers", .container .list 1)] }]⟩

def circleItems : List Value :=
  [.container .frozenMapping 2, .int 1, .container .mapping 3, .container .frozenMapping 2]

/-- The circle with an object for its root, a tuple for its list and a frozen mapping for one of its nodes. -/
def circleRecast : Store := ⟨#[
  { fields := .ofList [("type", .text "Block"), ("body", .tuple circleItems)] },
  {},
  { fields := .ofList [("type", .text "Call"), ("up", .container .object 0)] },
  { fields := .ofList [("type", .text "Name"), ("peers", .tuple circleItems)] }]⟩

/-- What became of the containers of the circle. -/
def Circled (v v' : Value) : Prop :=
  (v, v') ∈ [(.container .mapping 0, .container .object 0), (.container .list 1, .tuple circleItems),
    (.container .mapping 2, .container .frozenMapping 2), (.container .mapping 3, .container .mapping 3)]

instance (v v' : Value) : Decidable (Circled v v') := inferInstanceAs (Decidable ((v, v') ∈ _))

theorem circle_items : List.Forall₂ (Value.Recast Circled) (circle.cell 1).items circleItems :=
  .cons (.turned (by decide)) (.cons (.atom _) (.cons (.turned (by decide)) (.cons (.turned (by decide)) .nil)))

theorem circle_turned : circle.Recast Circled circleRecast := by
  have fields : ∀ {r : Ref} {a : Atom} {name : String} {v v' : Value}, Circled v v' →
      (circle.cell r).fields.entries = [("type", .atom a), (name, v)] →
      (circleRecast.cell r).fields.entries = [("type", .atom a), (name, v')] →
      (circle.cell r).fields.Recast (Value.Recast Circled) (circleRecast.cell r).fields := by
    intro r a name v v' hv h h'
    rw [Fields.Recast, h, h']
    exact .cons ⟨rfl, .atom a⟩ (.cons ⟨rfl, .turned hv⟩ .nil)
  intro v v' h
  simp only [Circled, List.mem_cons, Prod.mk.injEq, List.not_mem_nil, or_false] at h
  rcases h with ⟨rfl, rfl⟩ | ⟨rfl, rfl⟩ | ⟨rfl, rfl⟩ | ⟨rfl, rfl⟩
  · exact .object (fields (by decide) rfl rfl) rfl
  · exact .tuple circle_items
  · exact .frozen (fields (by decide) rfl rfl)
  · exact .kept .mapping .nil (fields (by decide) rfl rfl) .nil

/-- Goes two nodes deep, and returns the nodes it goes through. -/
def shallow : Callback Unit Unit := fun c s m =>
  c.answer s m (.ok (if 2 ≤ c.ancestors.length then .action .skip else c.node))

theorem shallow_echoes {R : Value → Value → Prop} {x x' : Exchange Unit Unit}
    (hx : x.reply = shallow x.call x.before ()) (hx' : x'.reply = shallow x'.call x'.before ())
    (call : x.call.Like (Value.Recast R) x'.call) (before : x.before.Recast R x'.before) : x.Echoes R x' := by
  refine ⟨call, before, ?_, ?_⟩
  · rw [hx, hx']
    exact before
  · rw [hx, hx']
    simp only [shallow, Call.answer, call.occurrence.ancestors.length_eq]
    split
    · exact .value (.atom _)
    · exact .value call.occurrence.node

theorem shallow_reads {x : Exchange Unit Unit} (hx : x.reply = shallow x.call x.before ())
    (node : x.call.node.isNode x.before = true) : x.OnlyReads := by
  refine ⟨?_, ?_, ?_⟩
  · rw [hx]
    exact .refl _
  · rw [hx]
    rfl
  · intro v hv
    rw [hx] at hv ⊢
    simp only [shallow, Call.answer, Except.ok.injEq] at hv ⊢
    split at hv
    · subst hv
      trivial
    · subst hv
      obtain ⟨k, r, e, hr⟩ := Value.isNode_container node
      rw [e]
      exact hr

/-- The results correspond, but they are not the same. -/
theorem circle_recast :
    let r := (entering shallow).walk 100 (.container .mapping 0) circle ()
    let r' := (entering shallow).walk 100 (.container .object 0) circleRecast ()
    List.Forall₂ (Call.Like (Value.Recast Circled)) r.calls r'.calls ∧ r.calls.length = 9 ∧
      r.outcome = some (.returned (.fixed [.container .mapping 0])) ∧
      r'.outcome = some (.returned (.fixed [.container .object 0])) := by
  intro r r'
  have nodes : ∀ x ∈ r.exchanges, x.call.node.isNode x.before = true := by decide +kernel
  have nodes' : ∀ x ∈ r'.exchanges, x.call.node.isNode x.before = true := by decide +kernel
  have made := made_by_entering shallow 100 (.container .mapping 0) circle
  have made' := made_by_entering shallow 100 (.container .object 0) circleRecast
  have alike : (entering shallow).Alike (entering shallow) := ⟨rfl, rfl, rfl, rfl, rfl⟩
  obtain ⟨calls, -⟩ := recast_walk alike (.turned (by decide)) circle_turned () () 100
    (fun x hx => shallow_reads (made x hx) (nodes x hx)) (fun x hx => shallow_reads (made' x hx) (nodes' x hx))
    fun k x x' hx hx' _ => shallow_echoes (made x (List.mem_of_getElem? hx)) (made' x' (List.mem_of_getElem? hx'))
  exact ⟨calls, by decide +kernel, by decide +kernel, by decide +kernel⟩

end TreeWalk
