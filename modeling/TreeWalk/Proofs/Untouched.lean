/-
  TreeWalk.Proofs.Untouched — a walk writes nothing to the tree.

  Only callbacks change the store. Each call is made in the store that the one before it left, and a walk leaves the
  store of its last call (`Threaded`). Walks share nothing but the store, so two things follow.
  - A callback may send out a walk of its own (`Errand`), at any point of what it does (`Detour`). If that walk comes to
    an end and its callbacks change nothing, the outer walk does not notice.
  - A walk whose callbacks have no memory and change nothing can be repeated.
  Callbacks that change nothing may still make new values; these are dropped once nobody has them (`Store.keep`).
  - `Walker.threaded_run`: the store between the calls of a walk.
  - `Errand.Harmless.keep`: an errand whose callbacks change nothing leaves the store as it was.
  - `busy_run`, `stateless_run`: the walks side by side.
  - `walk_writes_nothing`: all of it.
-/

import TreeWalk.Proofs.Safety
import TreeWalk.Proofs.Searches

namespace TreeWalk

variable {σ ν κ : Type}

/-! ## The store between calls -/

/-- From the store `s` on, each call is made in the store that the one before it left, and the last one leaves `t`. -/
def Threaded : Store → List (Exchange σ ν) → Store → Prop
  | s, [], t => t = s
  | s, x :: xs, t => x.before = s ∧ Threaded x.reply.store xs t

namespace Threaded

variable {s t : Store} {xs : List (Exchange σ ν)}

theorem snoc (h : Threaded s xs t) {x : Exchange σ ν} (hx : x.before = t) :
    Threaded s (xs ++ [x]) x.reply.store := by
  induction xs generalizing s with
  | nil =>
    have hs : t = s := h
    exact ⟨hx.trans hs, rfl⟩
  | cons y ys ih =>
    obtain ⟨hy, hys⟩ := h
    exact ⟨hy, ih hys⟩

theorem grows (h : Threaded s xs t) (grows : ∀ x ∈ xs, x.before.Grows x.reply.store) : s.Grows t := by
  induction xs generalizing s with
  | nil =>
    have hs : t = s := h
    rw [hs]
    exact .refl s
  | cons x xs ih =>
    obtain ⟨rfl, hxs⟩ := h
    obtain ⟨hx, hrest⟩ := List.forall_mem_cons.mp grows
    exact hx.trans (ih hxs hrest)

end Threaded

theorem Walker.threaded_run (w : Walker σ ν) (tree : Value) (store : Store) (memory : σ) (n : Nat) :
    let s := w.run n (w.start tree store memory)
    Threaded store s.exchanges s.store := by
  refine w.run_keeps (P := fun s => Threaded store s.exchanges s.store) (fun s h => ?_) ?_ n
  · cases due : w.due s.focus with
    | none =>
      obtain ⟨F, K, -, move⟩ := step_silent due
      rw [move]
      exact h
    | some d =>
      rw [step_called due, go_exchanges, go_store, after_exchanges, after_store]
      exact h.snoc rfl
  · rw [w.start_exchanges, w.start_store]
    rfl

theorem visit_threaded (fuel : Nat) (debug : Bool) (settings : Option Settings) (visitor : Visitor (Callback σ ν))
    (tree : Value) (store : Store) (memory : σ) :
    let r := visit fuel debug settings visitor tree store memory
    Threaded store r.exchanges r.store := by
  unfold visit
  cases accept settings visitor debug store with
  | error e => exact rfl
  | ok w =>
    simp only [Walker.walk, toRun_exchanges]
    exact w.threaded_run tree store memory fuel

/-! ## New values -/

def Store.keep (s : Store) (n : Nat) : Store := ⟨s.cells.take n⟩

theorem Store.Grows.keep {s t : Store} (h : s.Grows t) : t.keep s.size = s := by
  obtain ⟨cells⟩ := s
  obtain ⟨cells'⟩ := t
  have hsize : cells.size ≤ cells'.size := h.size
  refine congrArg Store.mk (Array.ext ?_ fun i hi hi' => ?_)
  · simp [Store.size, hsize]
  · have hcell : (cells'[i]?.getD {} : Cell) = cells[i]?.getD {} := h.cell i hi'
    rw [Array.getElem?_eq_getElem (Nat.lt_of_lt_of_le hi' hsize), Array.getElem?_eq_getElem hi', Option.getD_some,
      Option.getD_some] at hcell
    simpa using hcell

/-! ## Errands -/

/-- A walk with all that it needs but a store. Counts and searches are visits, too. -/
structure Errand where
  Memory : Type
  Note : Type
  fuel : Nat
  debug : Bool
  settings : Option Settings
  visitor : Visitor (Callback Memory Note)
  memory : Memory
  target : Value

namespace Errand

def run (e : Errand) (s : Store) : Run e.Memory e.Note :=
  visit e.fuel e.debug e.settings e.visitor e.target s e.memory

def count (fuel : Nat) (debug : Bool) (settings : Option Settings) (target : Value) : Errand :=
  ⟨Nat, Unit, fuel, debug, settings, .function tally, 0, target⟩

/-- A search for all nodes, or with `yes` a request to exit, for the first one. -/
def search (fuel : Nat) (debug : Bool) (settings : Option Settings) (p : Predicate σ ν) (yes : Value) (memory : σ)
    (target : Value) : Errand :=
  ⟨Gathered σ, ν, fuel, debug, settings, .function (p.gather yes), ⟨[], memory⟩, target⟩

theorem run_count (fuel : Nat) (debug : Bool) (settings : Option Settings) (target : Value) (s : Store) :
    (count fuel debug settings target).run s = countAll fuel debug settings target s := rfl

theorem run_search_all (fuel : Nat) (debug : Bool) (settings : Option Settings) (p : Predicate σ ν) (memory : σ)
    (target : Value) (s : Store) :
    (search fuel debug settings p .null memory target).run s = findAll fuel debug settings p target s memory := rfl

theorem run_search_first (fuel : Nat) (debug : Bool) (settings : Option Settings) (p : Predicate σ ν) (memory : σ)
    (target : Value) (s : Store) :
    (search fuel debug settings p (.action .exit) memory target).run s =
      findFirst fuel debug settings p target s memory := rfl

/-- The errand is a walk that comes to an end, and its callbacks neither fail nor change anything. -/
structure Harmless (e : Errand) (s : Store) : Prop where
  accepted : ∃ w, accept e.settings e.visitor e.debug s = .ok w
  ends : (e.run s).outcome.isSome
  answers : ∀ x ∈ (e.run s).exchanges, ∃ v, x.reply.outcome = .ok v
  grows : ∀ x ∈ (e.run s).exchanges, x.before.Grows x.reply.store

namespace Harmless

variable {e : Errand} {s : Store}

theorem walks (h : e.Harmless s) : ∃ w : Walker e.Memory e.Note, e.run s = w.walk e.fuel e.target s e.memory := by
  obtain ⟨w, hw⟩ := h.accepted
  refine ⟨w, ?_⟩
  rw [run, visit, hw]

/-- The errand does not fail: there is no call that could be to blame. -/
theorem returns (h : e.Harmless s) : ∃ g, (e.run s).outcome = some (.returned g) := by
  obtain ⟨w, hw⟩ := h.walks
  obtain ⟨o, ho⟩ := Option.isSome_iff_exists.mp h.ends
  cases o with
  | returned g => exact ⟨g, ho⟩
  | raised f =>
    rw [hw] at ho
    obtain ⟨x, hx, fault⟩ := (w.blamed_run e.target s e.memory e.fuel).last f (outcome?_eq_some.mp ho)
    have mem : x ∈ (e.run s).exchanges := by
      rw [hw, Walker.walk, toRun_exchanges]
      exact List.mem_of_getLast? hx
    obtain ⟨v, hv⟩ := h.answers x mem
    rw [fault] at hv
    cases hv

theorem keep (h : e.Harmless s) : (e.run s).store.keep s.size = s := by
  obtain ⟨w, hw⟩ := h.walks
  have grows := h.grows
  rw [hw, Walker.walk, toRun_exchanges] at grows
  rw [hw]
  exact ((w.threaded_run e.target s e.memory e.fuel).grows grows).keep

end Harmless

theorem harmless_function {f : Callback σ ν} (answers : ∀ c s m, ∃ v, (f c s m).outcome = .ok v)
    (grows : ∀ c (s : Store) m, s.Grows (f c s m).store) {settings : Option Settings} {s : Store}
    {reserved : List String} (admitted : (settings.getD {}).admitted s = .ok reserved) {fuel : Nat} {debug : Bool}
    {target : Value} {memory : σ}
    (ends : (((settings.getD {}).alone reserved debug f).walk fuel target s memory).outcome.isSome) :
    Harmless ⟨σ, ν, fuel, debug, settings, .function f, memory, target⟩ s := by
  let w := (settings.getD {}).alone reserved debug f
  have accepted : accept settings (.function f) debug s = .ok w := by
    rw [accept_function, admitted]
    rfl
  have walks : visit fuel debug settings (.function f) target s memory = w.walk fuel target s memory := by
    rw [visit, accepted]
  have exchanges : ∀ x ∈ (w.run fuel (w.start target s memory)).exchanges,
      (∃ v, x.reply.outcome = .ok v) ∧ x.before.Grows x.reply.store := by
    refine w.run_forall_exchanges (fun g c s m hg => ?_) ?_ fuel
    · rcases hg with hg | hg
      · cases hg
        exact ⟨answers c s m, grows c s m⟩
      · cases hg
    · rw [w.start_exchanges]
      exact List.forall_mem_nil _
  refine ⟨⟨w, accepted⟩, ?_, ?_, ?_⟩
  · rwa [run, walks]
  · rw [run, walks, Walker.walk, toRun_exchanges]
    exact fun x hx => (exchanges x hx).1
  · rw [run, walks, Walker.walk, toRun_exchanges]
    exact fun x hx => (exchanges x hx).2

end Errand

/-! ## Detours -/

/-- A callback halfway: the store, its memory, and whatever else it goes on with. -/
structure Pause (σ κ : Type) where
  store : Store
  memory : σ
  rest : κ

/-- A callback with a point at which an errand may be sent out. It goes on from there, and is told if the errand failed.
-/
structure Detour (σ ν κ : Type) where
  reach : Call → Store → σ → Pause σ κ
  errand : Pause σ κ → Option Errand
  resume : Pause σ κ → Except Fault Unit → Reply σ ν

namespace Detour

/-- Goes on without an errand. -/
def plain (d : Detour σ ν κ) : Callback σ ν := fun c s m => d.resume (d.reach c s m) (.ok ())

/-- Sends out the errand in the store as it is then, and goes on in the store that the errand leaves, with all changes to
    what was there. Only the cells that the errand made are dropped: what it found is not used, so nobody has them. -/
def busy (d : Detour σ ν κ) : Callback σ ν := fun c s m =>
  let p := d.reach c s m
  match d.errand p with
  | none => d.resume p (.ok ())
  | some e =>
    let r := e.run p.store
    d.resume { p with store := r.store.keep p.store.size } ((r.answer fun _ => ()).getD (.ok ()))

/-- The errand that a call sends out, if there is one, is harmless. -/
def Harmless (d : Detour σ ν κ) (c : Call) (s : Store) (m : σ) : Prop :=
  ∀ e, d.errand (d.reach c s m) = some e → e.Harmless (d.reach c s m).store

theorem Harmless.busy_eq {d : Detour σ ν κ} {c : Call} {s : Store} {m : σ} (h : d.Harmless c s m) :
    d.busy c s m = d.plain c s m := by
  cases he : d.errand (d.reach c s m) with
  | none => simp only [busy, plain, he]
  | some e =>
    obtain ⟨g, hg⟩ := (h e he).returns
    simp only [busy, plain, he, (h e he).keep, Run.answer, hg, Option.map_some, Option.getD_some]

end Detour

def Walker.calling (w : Walker σ ν) (callbacks : Phase → Option (Callback σ ν)) : Walker σ ν :=
  { w with enter := callbacks .enter, leave := callbacks .leave }

/-- At some point of the walk this call is made, in this store and with this memory. -/
def Walker.Asks (w : Walker σ ν) (tree : Value) (store : Store) (memory : σ) (c : Call) (s : Store) (m : σ) : Prop :=
  ∃ n f, let t := w.run n (w.start tree store memory)
    w.due t.focus = some (f, c) ∧ t.store = s ∧ t.memory = m

theorem Walker.Asks.lt {w : Walker σ ν} {tree : Value} {store : Store} {memory : σ} {c : Call} {s : Store} {m : σ}
    (h : w.Asks tree store memory c s m) {k : Nat}
    (done : (w.run k (w.start tree store memory)).outcome?.isSome) :
    ∃ n < k, ∃ f, let t := w.run n (w.start tree store memory)
      w.due t.focus = some (f, c) ∧ t.store = s ∧ t.memory = m := by
  obtain ⟨n, f, due, rest⟩ := h
  refine ⟨n, ?_, f, due, rest⟩
  by_contra hk
  obtain ⟨i, rfl⟩ := Nat.exists_eq_add_of_le (Nat.le_of_not_lt hk)
  obtain ⟨o, ho⟩ := Option.isSome_iff_exists.mp done
  have focus := outcome?_eq_some.mp ho
  rw [w.run_add, w.run_of_done focus, focus] at due
  cases due

section

variable (w : Walker σ ν) (detours : Phase → Option (Detour σ ν κ))

def Walker.plain : Walker σ ν := w.calling fun phase => (detours phase).map Detour.plain

def Walker.busy : Walker σ ν := w.calling fun phase => (detours phase).map Detour.busy

variable {w detours}

theorem due_detours (w : Walker σ ν) (detours : Phase → Option (Detour σ ν κ)) (F : Focus) :
    ((w.plain detours).due F = none ∧ (w.busy detours).due F = none) ∨
      ∃ c d, detours c.phase = some d ∧ (w.plain detours).due F = some (d.plain, c) ∧
        (w.busy detours).due F = some (d.busy, c) := by
  cases F with
  | enter o =>
    cases hd : detours .enter with
    | none => exact .inl (by simp [Walker.due, Walker.plain, Walker.busy, Walker.calling, hd])
    | some d =>
      refine .inr ⟨{ o with phase := .enter }, d, hd, ?_⟩
      simp [Walker.due, Walker.plain, Walker.busy, Walker.calling, hd]
  | leave o g =>
    cases hd : detours .leave with
    | none => exact .inl (by simp [Walker.due, Walker.plain, Walker.busy, Walker.calling, hd])
    | some d =>
      refine .inr ⟨{ o with phase := .leave }, d, hd, ?_⟩
      simp [Walker.due, Walker.plain, Walker.busy, Walker.calling, hd]
  | _ => exact .inl ⟨rfl, rfl⟩

/-- A step of the walk with errands is the step of the walk without, if the errand of its call is harmless. -/
theorem busy_step {s : State σ ν} (harmless : ∀ f c, (w.plain detours).due s.focus = some (f, c) →
      ∀ d, detours c.phase = some d → d.Harmless c s.store s.memory) :
    (w.busy detours).step s = (w.plain detours).step s := by
  refine Walker.step_eq_of_exchange? rfl rfl rfl ?_
  unfold Walker.exchange?
  rcases due_detours w detours s.focus with ⟨due, due'⟩ | ⟨c, d, hd, due, due'⟩
  · rw [due, due']
  · have same := (harmless d.plain c due d hd).busy_eq
    simp only [due, due', Option.map_some, same]

theorem busy_run {tree : Value} {store : Store} {memory : σ}
    (harmless : ∀ c s m, (w.plain detours).Asks tree store memory c s m →
      ∀ d, detours c.phase = some d → d.Harmless c s m) (n : Nat) :
    (w.busy detours).run n ((w.busy detours).start tree store memory) =
      (w.plain detours).run n ((w.plain detours).start tree store memory) := by
  induction n with
  | zero =>
    show (w.busy detours).start tree store memory = (w.plain detours).start tree store memory
    simp only [Walker.start, Walker.busy, Walker.plain, Walker.calling, Option.isNone_map]
  | succ n ih =>
    rw [Walker.run_succ, Walker.run_succ, ih]
    apply busy_step
    intro f c due
    exact harmless c _ _ ⟨n, f, due, rfl, rfl⟩

end

/-! ## Callbacks without a memory -/

/-- What the callback does and returns is told by the call and the store. -/
def Callback.Stateless (f : Callback σ ν) : Prop :=
  ∀ c s m m', (f c s m').outcome = (f c s m).outcome ∧ (f c s m').store = (f c s m).store ∧
    (f c s m').ancestors = (f c s m).ancestors

/-- Two walks at the same point, after the same calls. -/
structure Abeam (s s' : State σ ν) : Prop where
  aligned : Walker.Aligned s s'
  scenes : s'.exchanges.map Exchange.scene = s.exchanges.map Exchange.scene

section

variable {w : Walker σ ν} (stateless : ∀ phase f, w.callback phase = some f → Callback.Stateless f)

include stateless

theorem Abeam.step {s s' : State σ ν} (h : Abeam s s') : Abeam (w.step s) (w.step s') := by
  have hdue : w.due s'.focus = w.due s.focus := by rw [h.aligned.focus]
  cases due : w.due s.focus with
  | none =>
    rw [due] at hdue
    obtain ⟨aligned, -, -⟩ := h.aligned.silent rfl due hdue
    refine ⟨aligned, ?_⟩
    rw [Walker.exchanges_silent due, Walker.exchanges_silent hdue, h.scenes]
  | some d =>
    obtain ⟨f, c⟩ := d
    rw [due] at hdue
    obtain ⟨outcome, store, ancestors⟩ := stateless _ f (w.callback_of_due due) c s.store s.memory s'.memory
    rw [← h.aligned.store] at outcome store ancestors
    refine ⟨h.aligned.called due hdue ?_ ?_ ?_, ?_⟩
    · rw [outcome, h.aligned.store]
    · rw [store, h.aligned.store]
    · rw [ancestors, h.aligned.store]
    · rw [Walker.exchanges_called due, Walker.exchanges_called hdue, List.map_append, List.map_append, h.scenes,
        h.aligned.store]
      rfl

theorem stateless_run (tree : Value) (store : Store) (memory memory' : σ) (n : Nat) :
    Abeam (w.run n (w.start tree store memory)) (w.run n (w.start tree store memory')) := by
  induction n with
  | zero =>
    show Abeam (w.start tree store memory) (w.start tree store memory')
    unfold Walker.start
    split
    · exact ⟨⟨rfl, rfl, rfl⟩, rfl⟩
    · split <;> exact ⟨⟨rfl, rfl, rfl⟩, rfl⟩
  | succ n ih =>
    rw [Walker.run_succ, Walker.run_succ]
    exact ih.step stateless

end

/-! ## The walk and the tree -/

/-- A walk writes nothing to the tree. Each call is answered by the callback in the store that the call before it left,
    and the walk leaves the store of its last call, however it ends; a visit that is refused makes no calls. Errands that
    come to an end and whose callbacks change nothing and do not fail make no difference to the walk that sends them out:
    not to its calls, its outcome or the store it leaves. A walk whose callbacks have no memory and change nothing makes
    the same calls again if it is repeated. -/
theorem walk_writes_nothing (w : Walker σ ν) (tree : Value) (store : Store) (memory : σ) :
    (∀ fuel, let r := w.walk fuel tree store memory
      Threaded store r.exchanges r.store ∧ ∀ x ∈ r.exchanges, w.Made x) ∧
    (∀ fuel debug settings (visitor : Visitor (Callback σ ν)),
      let r := visit fuel debug settings visitor tree store memory
      Threaded store r.exchanges r.store) ∧
    (∀ (κ : Type) (detours : Phase → Option (Detour σ ν κ)),
      (∀ c s m, (w.plain detours).Asks tree store memory c s m → ∀ d, detours c.phase = some d → d.Harmless c s m) →
        ∀ fuel, (w.busy detours).walk fuel tree store memory = (w.plain detours).walk fuel tree store memory) ∧
    ((∀ phase f, w.callback phase = some f → Callback.Stateless f) → ∀ fuel,
      let r := w.walk fuel tree store memory
      (∀ x ∈ r.exchanges, x.before.Grows x.reply.store) → ∀ memory',
        let r' := w.walk fuel tree (r.store.keep store.size) memory'
        r'.exchanges.map Exchange.scene = r.exchanges.map Exchange.scene ∧ r'.outcome = r.outcome ∧
          r'.store = r.store) := by
  refine ⟨fun fuel => ?_, fun fuel debug settings visitor => ?_, fun κ detours harmless fuel => ?_,
    fun stateless fuel grows memory' => ?_⟩
  · simp only [Walker.walk, toRun_exchanges]
    exact ⟨w.threaded_run tree store memory fuel, (w.blamed_run tree store memory fuel).made⟩
  · exact visit_threaded fuel debug settings visitor tree store memory
  · rw [Walker.walk, busy_run harmless fuel]
    rfl
  · rw [Walker.walk, toRun_exchanges] at grows
    have kept : (w.walk fuel tree store memory).store.keep store.size = store :=
      ((w.threaded_run tree store memory fuel).grows grows).keep
    rw [kept]
    obtain ⟨aligned, scenes⟩ := stateless_run stateless tree store memory memory' fuel
    simp only [Walker.walk, toRun_exchanges]
    refine ⟨scenes, ?_, aligned.store⟩
    show State.outcome? _ = State.outcome? _
    simp only [State.outcome?, aligned.focus]

/-- On the way into a node, takes an argument out of the list of `diamond` and then counts the tree. -/
def pruning : Detour Nat Unit Call where
  reach c s n := ⟨s.setItems 1 ((s.cell 1).items.drop 1), n + 1, c⟩
  errand _ := some (.count 100 true none (.container .mapping 3))
  resume p failed := p.rest.answer p.store p.memory (failed.map fun _ => .null)

/-- On the way out, looks for a name in the node, with a predicate that makes new lists, and then makes one itself. -/
def seeking : Detour Nat Unit Call where
  reach c s n := ⟨s, n, c⟩
  errand p := some (.search 100 true none named (.action .exit) 0 p.rest.node)
  resume p failed := p.rest.answer (p.store.push {}) p.memory (failed.map fun _ => .null)

def errands : Phase → Option (Detour Nat Unit Call)
  | .enter => some pruning
  | .leave => some seeking

theorem diamond_errands :
    let tree := Value.container .mapping 3
    let r := (counting.plain errands).walk 100 tree diamond 0
    let once := counting.walk 200 tree diamond 0
    let again := counting.walk 200 tree (once.store.keep diamond.size) once.memory
    (counting.busy errands).walk 100 tree diamond 0 = r ∧ r.outcome.isSome ∧ r.calls.length = 10 ∧
      again.calls = once.calls ∧ once.outcome.isSome ∧ once.calls.length = 16 := by
  intro tree r once again
  obtain ⟨-, -, outing, repeated⟩ := walk_writes_nothing counting tree diamond 0
  let alone {σ : Type} (f : Callback σ Unit) := ({} : Settings).alone ["data", "position"] true f
  have usual : ∀ s, ((none : Option Settings).getD {}).admitted s = .ok ["data", "position"] := admitted_usual
  -- The errands come to an end wherever the walk calls for them.
  have ends : ∀ n < 47, let t := (counting.plain errands).run n ((counting.plain errands).start tree diamond 0)
      ((counting.plain errands).due t.focus).all fun p =>
        match p.2.phase with
        | .enter => ((alone tally).walk 100 tree (pruning.reach p.2 t.store t.memory).store 0).outcome.isSome
        | .leave => ((alone (named.gather (.action .exit))).walk 100 p.2.node t.store ⟨[], 0⟩).outcome.isSome := by
    decide +kernel
  have harmless : ∀ c s m, (counting.plain errands).Asks tree diamond 0 c s m →
      ∀ d, errands c.phase = some d → d.Harmless c s m := by
    intro c s m asks d hd e he
    obtain ⟨n, hn, f, due, rfl, rfl⟩ := asks.lt (k := 47) (by decide +kernel)
    have ends := ends n hn
    cases hphase : c.phase with
    | enter =>
      simp only [due, Option.all_some, hphase] at ends
      rw [hphase] at hd
      cases hd
      cases he
      exact Errand.harmless_function (fun _ _ _ => ⟨_, rfl⟩) (fun _ s _ => .refl s) (usual _) ends
    | leave =>
      simp only [due, Option.all_some, hphase] at ends
      rw [hphase] at hd
      cases hd
      cases he
      exact Errand.harmless_function (fun _ _ _ => ⟨_, rfl⟩) (fun _ s m => grows_named _ s m.memory) (usual _) ends
  have stateless : ∀ phase f, counting.callback phase = some f → Callback.Stateless f := by
    intro phase f hf
    cases phase with
    | enter => cases hf; exact fun _ _ _ _ => ⟨rfl, rfl, rfl⟩
    | leave => cases hf; exact fun _ _ _ _ => ⟨rfl, rfl, rfl⟩
  obtain ⟨scenes, -⟩ := repeated stateless 200 (fun x hx => (counting_quiet tree diamond 0 200 x hx).store) once.memory
  have calls : again.calls = once.calls := by
    have mapped := congrArg (List.map Prod.fst) scenes
    rw [List.map_map, List.map_map] at mapped
    exact mapped
  exact ⟨outing Call errands harmless 100, by decide +kernel, by decide +kernel, calls, by decide +kernel,
    by decide +kernel⟩

end TreeWalk
