/-
  TreeWalk.Proofs.Snapshots — the fields of a record are looked at once each, in the order they had at the start.

  The names of the fields are taken down when the walk of a record's children starts (`Descent.Starts`): after `enter`
  has answered, or at once for a root that is no node. From then on callbacks may remove fields, add them or put
  anything into them. What counts is the list of names, and what a field holds when its turn comes (`Descent.At`).
  - `Descent.inside_step`, `Descent.stands`: the names looked at and the names left are together the names taken down,
    until the walk of the children has ended or the walk was stopped. Between two turns the walk is at work on what the
    field held at the first of them.
  - `Descent.At.decided`, `Descent.At.passes`, `Descent.At.opens`, `Descent.At.visits`: what becomes of a field in its
    turn.
  - `field_snapshot`: all of it, for every record whose children are walked.
-/

import TreeWalk.Proofs.Scans

namespace TreeWalk

variable {σ ν : Type}

/-- The walk of a record's children, while the frames `rest` wait. -/
structure Descent where
  node : Value
  trail : List Value
  rest : List Frame

namespace Descent

variable (d : Descent)

def frame (names : List String) : Frame := .fields d.node d.trail names

/-- The walk of the children starts after so many steps: that of a root which is no node, or that of a node which
    `enter` did not ask to skip. -/
inductive Starts (w : Walker σ ν) (tree : Value) (store : Store) (memory : σ) : Nat → Descent → Prop
  | root (callback : w.HasCallback) (other : tree.isNode store = false) : Starts w tree store memory 0 ⟨tree, [], []⟩
  | answered {k : Nat} {o : Occurrence} {x : Exchange σ ν} {v : Value}
      (focus : (w.run k (w.start tree store memory)).focus = .enter o)
      (call : w.exchange? (w.run k (w.start tree store memory)) = some x) (answer : x.reply.outcome = .ok v)
      (exit : (Signal.ofValue v).isExit x.reply.store = false)
      (skip : (Signal.ofValue v).isSkip x.reply.store = false) :
      Starts w tree store memory (k + 1) ⟨o.node, x.reply.ancestors,
        .visit { o with ancestors := x.reply.ancestors } (.ofValue v) :: (w.run k (w.start tree store memory)).stack⟩
  | unasked {k : Nat} {o : Occurrence} (enter : w.enter = none)
      (focus : (w.run k (w.start tree store memory)).focus = .enter o) :
      Starts w tree store memory (k + 1)
        ⟨o.node, o.ancestors, .visit o .silent :: (w.run k (w.start tree store memory)).stack⟩

structure At (names : List String) (s : State σ ν) : Prop where
  focus : s.focus = .next
  stack : s.stack = d.frame names :: d.rest

/-- The name that is looked at, if it is the turn of one. -/
def turn? (s : State σ ν) : Option String :=
  match s.focus, s.stack with
  | .next, .fields _ _ (key :: _) :: below => if below = d.rest then some key else none
  | _, _ => none

def turns (w : Walker σ ν) (s : State σ ν) (n : Nat) : List String :=
  (List.range n).filterMap fun m => d.turn? (w.run m s)

def occurrence (key : String) (v : Value) : Occurrence := ⟨v, some key, none, d.trail ++ [d.node]⟩

def scan (key : String) (v : Value) (names : List String) : Scan := ⟨v, key, d.node, d.trail, d.frame names :: d.rest⟩

/-- A field that is reserved, gone, or holds neither a list nor a node. Null is neither. -/
def Idle (reserved : List String) (store : Store) (key : String) : Prop :=
  key ∈ reserved ∨ d.node.ownField store key = .ok none ∨
    ∃ v, d.node.ownField store key = .ok (some v) ∧ v.isSequence = false ∧ v.isNode store = false

structure Listed (reserved : List String) (store : Store) (key : String) (v : Value) : Prop where
  free : key ∉ reserved
  field : d.node.ownField store key = .ok (some v)
  sequence : v.isSequence = true

structure Single (reserved : List String) (store : Store) (key : String) (v : Value) : Prop where
  free : key ∉ reserved
  field : d.node.ownField store key = .ok (some v)
  single : v.isSequence = false
  node : v.isNode store = true

/-- What becomes of the field `key`, whose turn it is in `s`, by what it holds then. -/
structure Taken (w : Walker σ ν) (key : String) (names : List String) (s : State σ ν) : Prop where
  decided : d.Idle w.reserved s.store key ∨
    ∃ v, d.Listed w.reserved s.store key v ∨ d.Single w.reserved s.store key v
  passes : d.Idle w.reserved s.store key → w.step s = s.go .next (d.frame names :: d.rest)
  scans : ∀ v, d.Listed w.reserved s.store key v → (d.scan key v names).Opens w names d.rest s ∧
    ∀ i, 1 ≤ i → ∃ k r, (d.scan key v names).Candidate w s k r ∧ k ≤ i ∧ (d.scan key v names).Stands w s k r i
  visits : ∀ v, d.Single w.reserved s.store key v →
    w.step s = s.go (.enter (d.occurrence key v)) (d.frame names :: d.rest) ∧ ∀ i,
      Busy w (d.occurrence key v) (d.frame names :: d.rest) s.exchanges.length (w.run (i + 1) s) ∨
        (∃ j < i, ∃ g, w.Over (w.run 1 s) j g ∧ g.isExit (w.run (j + 1) s).store = false ∧
          w.run (j + 2) s = (w.run (j + 1) s).go .next (d.frame names :: d.rest)) ∨
        ∃ j < i, w.Stops (w.run (j + 1) s)

/-- The last name that was looked at is `key`, after `m` steps. It held a list or a node; `names` are left. -/
structure Within (w : Walker σ ν) (s : State σ ν) (n m : Nat) (key : String) (names : List String) : Prop where
  before : m < n
  turn : d.At (key :: names) (w.run m s)
  last : d.turns w s n = d.turns w s m ++ [key]
  held : ∃ v, d.Listed w.reserved (w.run m s).store key v ∨ d.Single w.reserved (w.run m s).store key v

/-- Where the walk of the children stands after `n` steps. -/
inductive Stands (w : Walker σ ν) (s : State σ ν) (n : Nat) : Prop
  | turn {names : List String} (now : d.At names (w.run n s))
      (order : d.turns w s n ++ names = d.node.ownNames s.store)
  | working {m : Nat} {key : String} {names : List String} (inner : List Frame)
      (stack : (w.run n s).stack = inner ++ d.frame names :: d.rest) (going : ∀ r, (w.run n s).focus ≠ .done r)
      (order : d.turns w s n ++ names = d.node.ownNames s.store) (within : d.Within w s n m key names)
  | ended {m : Nat} (before : m < n) (all : d.turns w s m = d.node.ownNames s.store) (last : d.At [] (w.run m s))
  | stopped {m : Nat} (before : m < n) (stops : w.Stops (w.run m s))

end Descent

/-! ## What lies on the fields of a record -/

theorem Silent.tail {reserved : List String} {store : Store} {F F' : Focus} {frame : Frame} {K K' : List Frame}
    (h : Silent reserved store F (frame :: K) F' K') : (∃ r, F' = .done r) ∨ ∃ top, K' = top ++ K := by
  cases h with
  | enter => exact .inr ⟨[_, _, _], rfl⟩
  | leave => exact .inr ⟨[_], rfl⟩
  | fieldsOver => exact .inr ⟨[], rfl⟩
  | passField => exact .inr ⟨[_], rfl⟩
  | fault => exact .inl ⟨_, rfl⟩
  | scan => exact .inr ⟨[_, _], rfl⟩
  | child => exact .inr ⟨[_], rfl⟩
  | scanOver => exact .inr ⟨[], rfl⟩
  | item => exact .inr ⟨[_], rfl⟩
  | passItem => exact .inr ⟨[_], rfl⟩
  | childrenOver => exact .inr ⟨[], rfl⟩
  | exit => exact .inl ⟨_, rfl⟩
  | resume => exact .inr ⟨[_], rfl⟩
  | toFields => exact .inr ⟨[_], rfl⟩
  | toVisit => exact .inr ⟨[_], rfl⟩
  | rest => exact .inl ⟨_, rfl⟩

namespace Descent

variable {d : Descent} {w : Walker σ ν} {s : State σ ν}

theorem silent_keeps {reserved : List String} {store : Store} {F F' : Focus} {names : List String}
    {inner K' : List Frame} (h : Silent reserved store F (inner ++ d.frame names :: d.rest) F' K')
    (between : ¬ (inner = [] ∧ F = .next)) :
    (∃ r, F' = .done r) ∨ ∃ inner', K' = inner' ++ d.frame names :: d.rest := by
  cases inner with
  | nil =>
    cases h with
    | enter => exact .inr ⟨[_, _], rfl⟩
    | leave => exact .inr ⟨[], rfl⟩
    | exit => exact .inl ⟨_, rfl⟩
    | toFields => exact .inr ⟨[], rfl⟩
    | rest => exact .inl ⟨_, rfl⟩
    | fieldsOver => exact absurd ⟨rfl, rfl⟩ between
    | passField => exact absurd ⟨rfl, rfl⟩ between
    | fault => exact absurd ⟨rfl, rfl⟩ between
    | scan => exact absurd ⟨rfl, rfl⟩ between
    | child => exact absurd ⟨rfl, rfl⟩ between
  | cons frame inner =>
    rcases h.tail with done | ⟨top, rfl⟩
    · exact .inl done
    · exact .inr ⟨top ++ inner, by simp⟩

theorem inside_step {names : List String} {inner : List Frame} (sound : s.Sound) (going : ∀ r, s.focus ≠ .done r)
    (stack : s.stack = inner ++ d.frame names :: d.rest) (between : ¬ d.At names s) :
    w.Stops s ∨
      ((∀ r, (w.step s).focus ≠ .done r) ∧ ∃ inner', (w.step s).stack = inner' ++ d.frame names :: d.rest) := by
  rcases step_above sound going stack (List.cons_ne_nil _ _) with stops | ⟨going', kept | ⟨F, K, step, move⟩⟩
  · exact .inl stops
  · exact .inr ⟨going', kept⟩
  · have hbetween : ¬ (inner = [] ∧ s.focus = .next) := by
      intro ⟨hnil, focus⟩
      exact between ⟨focus, by rw [stack, hnil]; rfl⟩
    rw [stack] at move
    rw [step] at going' ⊢
    rcases silent_keeps move hbetween with ⟨r, rfl⟩ | kept
    · exact absurd rfl (going' r)
    · exact .inr ⟨going', kept⟩

/-! ## Turns -/

theorem turns_succ (d : Descent) (w : Walker σ ν) (s : State σ ν) (n : Nat) :
    d.turns w s (n + 1) = d.turns w s n ++ (d.turn? (w.run n s)).toList := by
  rw [turns, List.range_succ, List.filterMap_append]
  cases h : d.turn? (w.run n s) <;> simp [turns, h]

theorem At.turn? {key : String} {names : List String} (h : d.At (key :: names) s) : d.turn? s = some key := by
  simp only [Descent.turn?, h.focus, h.stack, frame, if_true]

theorem turn?_between {names : List String} {inner : List Frame} (stack : s.stack = inner ++ d.frame names :: d.rest)
    (between : ¬ d.At names s) : d.turn? s = none := by
  unfold Descent.turn?
  split
  · rename_i key names' below focus hstack
    rw [stack] at hstack
    rw [if_neg]
    intro hbelow
    cases inner with
    | nil => exact between ⟨focus, stack⟩
    | cons frame inner =>
      have length := congrArg List.length (List.cons.inj hstack).2
      rw [hbelow] at length
      simp at length
      omega
  · rfl

theorem At.decided {key : String} {names : List String} (h : d.At (key :: names) s) (sound : s.Sound)
    (reserved : List String) :
    d.Idle reserved s.store key ∨ ∃ v, d.Listed reserved s.store key v ∨ d.Single reserved s.store key v := by
  by_cases free : key ∈ reserved
  · exact .inl (.inl free)
  have record : d.node.isRecord :=
    sound (d.frame (key :: names)) (by rw [h.stack]; exact List.mem_cons_self) (List.cons_ne_nil _ _)
  obtain ⟨o, field⟩ := Value.ownField_of_isRecord s.store record key
  cases o with
  | none => exact .inl (.inr (.inl field))
  | some v =>
    cases sequence : v.isSequence with
    | true => exact .inr ⟨v, .inl ⟨free, field, sequence⟩⟩
    | false =>
      cases node : v.isNode s.store with
      | true => exact .inr ⟨v, .inr ⟨free, field, sequence, node⟩⟩
      | false => exact .inl (.inr (.inr ⟨v, field, sequence, node⟩))

section

variable {key : String} {names : List String} (h : d.At (key :: names) s)

include h

theorem At.passes (idle : d.Idle w.reserved s.store key) : w.step s = s.go .next (d.frame names :: d.rest) := by
  refine Walker.step_of_silent h.focus h.stack rfl (.passField d.node d.trail key names d.rest ?_)
  rcases idle with reserved | gone | ⟨v, field, other⟩
  · exact .inl reserved
  · exact .inr ⟨none, gone, nofun⟩
  · refine .inr ⟨some v, field, fun u hu => ?_⟩
    cases hu
    exact other

theorem At.enters {v : Value} (single : d.Single w.reserved s.store key v) :
    w.step s = s.go (.enter (d.occurrence key v)) (d.frame names :: d.rest) :=
  Walker.step_of_silent h.focus h.stack rfl
    (.child d.node d.trail key names d.rest v single.free single.field single.single single.node)

theorem At.opens {v : Value} (listed : d.Listed w.reserved s.store key v) :
    (d.scan key v names).Opens w names d.rest s :=
  ⟨h.focus, h.stack, rfl, listed.free, listed.field, listed.sequence⟩

theorem At.visits {v : Value} (single : d.Single w.reserved s.store key v) (hc : w.HasCallback) (sound : s.Sound)
    (i : Nat) :
    Busy w (d.occurrence key v) (d.frame names :: d.rest) s.exchanges.length (w.run (i + 1) s) ∨
      (∃ j < i, ∃ g, w.Over (w.run 1 s) j g ∧ g.isExit (w.run (j + 1) s).store = false ∧
        w.run (j + 2) s = (w.run (j + 1) s).go .next (d.frame names :: d.rest)) ∨
      ∃ j < i, w.Stops (w.run (j + 1) s) := by
  have enters := h.enters single
  have sound' : (w.step s).Sound := (w.step_moves s).sound sound
  have stack : (w.step s).stack = d.frame names :: d.rest := by rw [enters]; rfl
  have length : (w.step s).exchanges.length = s.exchanges.length := by rw [enters, go_exchanges]
  simp only [w.run_step]
  rcases visit_course hc sound' (by rw [enters]; rfl) i with busy | ⟨j, hj, g, ended⟩ | stops
  · rw [stack, length] at busy
    exact .inl busy
  · cases goes : g.isExit (w.run j (w.step s)).store with
    | true => exact .inr (.inr ⟨j, hj, .exitBack ended.focus goes⟩)
    | false =>
      refine .inr (.inl ⟨j, hj, g, ended, goes, ?_⟩)
      rw [← w.run_step, w.run_succ]
      exact Walker.step_of_silent ended.focus (ended.stack.trans stack) rfl
        (.toFields g d.node d.trail names d.rest goes)
  · exact .inr (.inr stops)

theorem At.taken (hc : w.HasCallback) (sound : s.Sound) : d.Taken w key names s where
  decided := h.decided sound w.reserved
  passes := h.passes
  scans _ listed := ⟨h.opens listed, fun _ hi => Scan.Candidate.first.stands (h.opens listed) hc sound hi⟩
  visits _ single := ⟨h.enters single, h.visits single hc sound⟩

end

/-! ## All turns -/

section

variable {n : Nat} {names : List String}

theorem stands_after_turn (sound : s.Sound) (now : d.At names (w.run n s))
    (order : d.turns w s n ++ names = d.node.ownNames s.store) : d.Stands w s (n + 1) := by
  cases names with
  | nil => exact .ended (Nat.lt_succ_self n) (by rw [← order, List.append_nil]) now
  | cons key names =>
    have last : d.turns w s (n + 1) = d.turns w s n ++ [key] := by rw [turns_succ, now.turn?]; rfl
    have order' : d.turns w s (n + 1) ++ names = d.node.ownNames s.store := by rw [last, ← order]; simp
    have within : ∀ v, d.Listed w.reserved (w.run n s).store key v ∨ d.Single w.reserved (w.run n s).store key v →
        d.Within w s (n + 1) n key names := fun v held => ⟨Nat.lt_succ_self n, now, last, v, held⟩
    rcases now.decided (w.sound_after sound n) w.reserved with idle | ⟨v, listed | single⟩
    · have step := now.passes idle
      rw [← w.run_succ] at step
      exact .turn ⟨congrArg State.focus step, congrArg State.stack step⟩ order'
    · have first := (now.opens listed).first
      rw [← w.run_add] at first
      exact .working [_] first.stack (by rw [first.focus]; exact Focus.next_ne_done) order' (within v (.inl listed))
    · have step := now.enters single
      rw [← w.run_succ] at step
      exact .working [] (congrArg State.stack step) (by rw [step]; nofun) order' (within v (.inr single))

/-- Where the walk of the children stands, as long as it is not stopped. -/
theorem stands (sound : s.Sound) (start : d.At (d.node.ownNames s.store) s) (n : Nat) : d.Stands w s n := by
  induction n with
  | zero => exact .turn start rfl
  | succ n ih =>
    cases ih with
    | turn now order => exact stands_after_turn sound now order
    | @working m key names inner stack going order within =>
      -- The field is done with and the next name has its turn, or there is still work above the fields.
      by_cases now : d.At names (w.run n s)
      · exact stands_after_turn sound now order
      · have same : d.turns w s (n + 1) = d.turns w s n := by
          rw [turns_succ, turn?_between stack now, Option.toList_none, List.append_nil]
        rcases inside_step (w.sound_after sound n) going stack now with stops | ⟨going', inner', stack'⟩
        · exact .stopped (Nat.lt_succ_self n) stops
        · rw [← w.run_succ] at going' stack'
          have before := Nat.lt_succ_of_lt within.before
          exact .working inner' stack' going' (same ▸ order) ⟨before, within.turn, same ▸ within.last, within.held⟩
    | ended before all last => exact .ended (Nat.lt_succ_of_lt before) all last
    | stopped before stops => exact .stopped (Nat.lt_succ_of_lt before) stops

/-- A call is made while the walk is at work on what a field held in its turn. -/
theorem Stands.calling (h : d.Stands w s n) {x : Exchange σ ν} (call : w.exchange? (w.run n s) = some x) :
    (∃ m key names, key ∈ d.node.ownNames s.store ∧ d.Within w s n m key names) ∨
      ∃ m < n, d.At [] (w.run m s) ∧ d.turns w s m = d.node.ownNames s.store := by
  have silent : w.due (w.run n s).focus ≠ none := by
    intro due
    rw [Walker.exchange?, due] at call
    cases call
  cases h with
  | turn now => exact absurd (by rw [now.focus]; rfl) silent
  | working _ _ _ order within =>
    refine .inl ⟨_, _, _, ?_, within⟩
    rw [← order, within.last]
    simp
  | ended before all last => exact .inr ⟨_, before, last, all⟩
  | stopped before stops =>
    obtain ⟨r, done⟩ := done_of_stops before stops
    exact absurd (by rw [done]; rfl) silent

end

theorem Starts.start {tree : Value} {store : Store} {memory : σ} {k : Nat} (h : Starts w tree store memory k d) :
    d.At (d.node.ownNames (w.run k (w.start tree store memory)).store) (w.run k (w.start tree store memory)) := by
  cases h with
  | root callback other =>
    rw [Walker.run, w.start_other callback other]
    exact ⟨rfl, rfl⟩
  | @answered k o x v focus call answer exit skip =>
    obtain ⟨⟨f, c⟩, due, rfl⟩ := Option.map_eq_some_iff.mp call
    have step := Walker.step_called due
    simp only at answer exit skip
    simp only [focus, heed, answer, exit, skip, Bool.false_eq_true, if_false] at step
    rw [w.run_succ, step]
    exact ⟨rfl, rfl⟩
  | @unasked k o enter focus =>
    have due : w.due (.enter o) = none := by rw [Walker.due, enter]; rfl
    have step := Walker.step_of_silent focus rfl due (.enter o _)
    rw [w.run_succ, step]
    exact ⟨rfl, rfl⟩

end Descent

/-! ## The law -/

theorem Value.nodup_ownNames (s : Store) (v : Value) : (v.ownNames s).Nodup := by
  have reads : v.Reads s s := Value.reads_of_cell fun _ _ _ => rfl
  rw [reads.names]
  exact Value.nodup_entries s v

/-- The names that a record has when the walk of its children starts are looked at once each and in their order, until
    the walk is stopped. What a field holds in its turn decides: it is passed over, scanned or visited. While the walk
    of the children lasts, every call is made for one of these fields, which is not reserved and held a list or a node
    in its turn. -/
theorem field_snapshot (w : Walker σ ν) {tree : Value} {store : Store} {memory : σ} {k : Nat} {d : Descent}
    (starts : d.Starts w tree store memory k) :
    let s := w.run k (w.start tree store memory)
    d.At (d.node.ownNames s.store) s ∧ (d.node.ownNames s.store).Nodup ∧
    (∀ n, d.Stands w s n) ∧
    (∀ n key names, d.At (key :: names) (w.run n s) → d.Taken w key names (w.run n s)) ∧
    ∀ n x, w.exchange? (w.run n s) = some x →
      (∃ m key names, key ∈ d.node.ownNames s.store ∧ d.Within w s n m key names) ∨
        ∃ m < n, d.At [] (w.run m s) ∧ d.turns w s m = d.node.ownNames s.store := by
  intro s
  have start := starts.start
  have sound : s.Sound := w.sound_run tree store memory k
  have hc : w.HasCallback := Walker.hasCallback_of_focus start.focus Focus.next_ne_done
  have stands := d.stands (w := w) sound start
  exact ⟨start, Value.nodup_ownNames _ _, stands, fun n key names now => now.taken hc (w.sound_after sound n),
    fun n x call => (stands n).calling call⟩

/-- A node with a child, a list and another child. -/
def ledger : Store := ⟨#[
  { fields := .ofList [("type", .text "Block"), ("head", .container .mapping 2), ("body", .container .list 1),
      ("last", .container .mapping 2)] },
  { items := [.container .mapping 2, .int 7] },
  { fields := .ofList [("type", .text "Name")] }]⟩

/-- Adds a field to the root when it is entered. When the first child is, removes the last two fields and adds one of
    them again, with a node in the place of the list, and a new one. -/
def reshaping : Walker Nat Unit where
  enter := some fun c s n =>
    match c.key with
    | none => c.answer (s.setFields 0 ((s.cell 0).fields.insert "more" (.container .list 1))) n (.ok .null)
    | some "head" =>
      let fields := ((s.cell 0).fields.erase "body").erase "last"
      let fields := (fields.insert "body" (.container .mapping 2)).insert "late" (.container .mapping 2)
      c.answer (s.setFields 0 fields) n (.ok .null)
    | _ => c.answer s n (.ok .null)
  leave := none
  reserved := []
  logging := false
  colored := false
  debug := false

def ledgerDescent : Descent where
  node := .container .mapping 0
  trail := []
  rest := [.visit ⟨.container .mapping 0, none, none, []⟩ (.fixed [.null])]

def atLedger : State Nat Unit := reshaping.run 1 (reshaping.start (.container .mapping 0) ledger 0)

/-- The field that was removed and added again is visited in its old place, and as the node it holds by then. The field
    that was only removed is passed over, and the late one is not seen. -/
theorem reshaped_ledger :
    ledgerDescent.Starts reshaping (.container .mapping 0) ledger 0 1 ∧
    ledgerDescent.At ["type", "head", "body", "last", "more"] atLedger ∧
    ledgerDescent.Stands reshaping atLedger 20 ∧
    ledgerDescent.Taken reshaping "body" ["last", "more"] (reshaping.run 8 atLedger) ∧
    ledgerDescent.turns reshaping atLedger 26 = ["type", "head", "body", "last", "more"] ∧
    (reshaping.walk 40 (.container .mapping 0) ledger 0).calls.map (fun c => (c.key, c.index)) =
      [(none, none), (some "head", none), (some "body", none), (some "more", some 0)] := by
  have focus : (reshaping.run 0 (reshaping.start (.container .mapping 0) ledger 0)).focus =
      .enter ⟨.container .mapping 0, none, none, []⟩ := rfl
  have call : reshaping.exchange? (reshaping.run 0 (reshaping.start (.container .mapping 0) ledger 0)) = some _ := rfl
  have starts : ledgerDescent.Starts reshaping (.container .mapping 0) ledger 0 1 :=
    .answered (v := .null) focus call rfl rfl rfl
  obtain ⟨start, -, stands, taken, -⟩ := field_snapshot reshaping starts
  exact ⟨starts, start, stands 20, taken 8 _ _ ⟨rfl, rfl⟩, by decide, by decide⟩

end TreeWalk
