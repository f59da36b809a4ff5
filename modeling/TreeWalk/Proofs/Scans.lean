/-
  TreeWalk.Proofs.Scans — which elements a scan enters, whatever callbacks do to the list.

  A scan goes from candidate to candidate. A candidate is a position: 0 when the scan is opened, and after a visit the
  one that its signal names, or the next one (`Scan.Candidate`). From a candidate the scan passes over what is no node
  and enters the first node it finds in the list as it is then (`Scan.First`). It ends at a candidate below zero and at
  one with no node at or after it (`Scan.Exhausted`). Callbacks may shorten the list, lengthen it or name any position;
  no condition is put on them.
  - `Scan.At.leads`: from a candidate to the node that is entered, or to the end.
  - `Scan.Candidate.stands`: every state of the walk belongs to a candidate, until the scan has ended or the walk was
    stopped (`Scan.Stands`).
  - `scan_law`: all of it, and what follows the end of a scan: the next field of the record, and in the end its `leave`.
-/

import TreeWalk.Proofs.Courses
import TreeWalk.Proofs.Descent
import TreeWalk.Proofs.Settled

namespace TreeWalk

variable {σ ν : Type}

theorem State.go_self {s : State σ ν} {F : Focus} {K : List Frame} (focus : s.focus = F) (stack : s.stack = K) :
    s = s.go F K := by
  subst focus stack
  rfl

namespace Scan

variable (c : Scan)

/-! ## Candidates -/

def occurrence (q : Nat) (v : Value) : Occurrence := ⟨v, some c.key, some q, c.trail ++ [c.parent]⟩

/-- The walk finds the list in a field of a record whose fields it walks; `names` are to follow, and `K` waits. -/
structure Opens (w : Walker σ ν) (names : List String) (K : List Frame) (s : State σ ν) : Prop where
  focus : s.focus = .next
  stack : s.stack = .fields c.parent c.trail (c.key :: names) :: K
  rest : c.rest = .fields c.parent c.trail names :: K
  free : c.key ∉ w.reserved
  field : c.parent.ownField s.store c.key = .ok (some c.seq)
  sequence : c.seq.isSequence = true

/-- The scan is about to look at a position. -/
structure At (r : Int) (s : State σ ν) : Prop where
  focus : s.focus = .next
  stack : s.stack = c.frame r :: c.rest

/-- The first node of the list at or after a position. -/
structure First (store : Store) (r : Int) (q : Nat) (v : Value) : Prop where
  ahead : r ≤ q
  stands : (c.items store)[q]? = some v
  node : v.isNode store = true
  least : ∀ p : Nat, r ≤ p → p < q → ∀ u, (c.items store)[p]? = some u → u.isNode store = false

/-- The position is below zero, or no node stands at or after it. -/
def Exhausted (store : Store) (r : Int) : Prop :=
  r < 0 ∨ ∀ p : Nat, r ≤ p → ∀ u, (c.items store)[p]? = some u → u.isNode store = false

/-- The candidates of the scan that is opened in `s`: the number of steps, and the position. -/
inductive Candidate (w : Walker σ ν) (s : State σ ν) : Nat → Int → Prop
  | first : Candidate w s 1 0
  | next {k m j : Nat} {r : Int} {q : Nat} {v : Value} {g : Signal} (prior : Candidate w s k r) (nonneg : 0 ≤ r)
      (first : c.First (w.run k s).store r q v)
      (enters : w.run (k + m) s = (w.run k s).go (.enter (c.occurrence q v)) (c.frame q :: c.rest))
      (ended : w.Over (w.run (k + m) s) j g) (goes : g.isExit (w.run (k + m + j) s).store = false) :
      Candidate w s (k + m + j + 1) ((g.resume (w.run (k + m + j) s).store).getD (q + 1))

/-- Where a scan stands after `n` steps, of which the last candidate `r` came after `k`: it passes over elements, it
    visits the first node it found, or it has ended. Or the walk was stopped. -/
inductive Stands (w : Walker σ ν) (s : State σ ν) (k : Nat) (r : Int) (n : Nat) : Prop
  | passing {p : Int} (ahead : r ≤ p) (state : w.run n s = (w.run k s).go .next (c.frame p :: c.rest))
  | visiting {m q : Nat} {v : Value} (first : c.First (w.run k s).store r q v) (after : k ≤ m) (before : m ≤ n)
      (enters : w.run m s = (w.run k s).go (.enter (c.occurrence q v)) (c.frame q :: c.rest))
      (busy : Busy w (c.occurrence q v) (c.frame q :: c.rest) (w.run m s).exchanges.length (w.run n s))
  | ended {m : Nat} (exhausted : c.Exhausted (w.run k s).store r) (after : k ≤ m) (before : m ≤ n)
      (state : w.run m s = (w.run k s).go .next c.rest)
  | stopped {m : Nat} (after : k ≤ m) (before : m < n) (stops : w.Stops (w.run m s))

section

variable {c} {w : Walker σ ν} {s : State σ ν} {r : Int}

theorem first_or_exhausted (store : Store) (r : Int) : (0 ≤ r ∧ ∃ q v, c.First store r q v) ∨ c.Exhausted store r := by
  by_cases nonneg : 0 ≤ r
  · by_cases found : ∃ q : Nat, r ≤ q ∧ ∃ v, (c.items store)[q]? = some v ∧ v.isNode store = true
    · classical
      obtain ⟨ahead, v, stands, node⟩ := Nat.find_spec found
      refine .inl ⟨nonneg, Nat.find found, v, ahead, stands, node, fun p hr hp u hu => ?_⟩
      by_contra hn
      exact Nat.find_min found hp ⟨hr, u, hu, by simpa using hn⟩
    · refine .inr (.inr fun p hr u hu => ?_)
      by_contra hn
      exact found ⟨p, hr, u, hu, by simpa using hn⟩
  · exact .inr (.inl (by omega))

theorem Opens.first {names : List String} {K : List Frame} (opens : c.Opens w names K s) : c.At 0 (w.run 1 s) := by
  have move : Silent w.reserved s.store .next _ .next _ :=
    .scan c.parent c.trail c.key names K c.seq opens.free opens.field opens.sequence
  rw [w.run_one, Walker.step_of_silent opens.focus opens.stack rfl move, ← opens.rest]
  exact ⟨rfl, rfl⟩

/-! ## From a candidate -/

theorem passes_over {i d : Nat} (here : c.At i s)
    (others : ∀ p, i ≤ p → p < i + d → ∃ u, (c.items s.store)[p]? = some u ∧ u.isNode s.store = false) {j : Nat}
    (hj : j ≤ d) : w.run j s = s.go .next (c.frame (i + j : Nat) :: c.rest) := by
  induction j with
  | zero => exact State.go_self here.focus here.stack
  | succ j ih =>
    obtain ⟨u, hu, hn⟩ := others (i + j) (by omega) (by omega)
    have move : Silent w.reserved s.store .next _ .next _ :=
      .passItem c.seq c.key c.parent c.trail (i + j) c.rest u hu hn
    rw [w.run_succ, ih (by omega), Walker.step_of_silent rfl rfl rfl move]
    rfl

theorem At.ends_outside (here : c.At r s) (outside : r < 0 ∨ (c.items s.store).length ≤ r) :
    w.step s = s.go .next c.rest :=
  Walker.step_of_silent here.focus here.stack rfl (.scanOver c.seq c.key c.parent c.trail r c.rest outside)

/-- For `m` steps the scan passes over elements from a position on; nothing is called, and nothing is changed. -/
def Passes (c : Scan) (w : Walker σ ν) (s : State σ ν) (r : Int) (m : Nat) : Prop :=
  ∀ j ≤ m, ∃ p, r ≤ p ∧ w.run j s = s.go .next (c.frame p :: c.rest)

theorem At.enters {q : Nat} {v : Value} (here : c.At r s) (nonneg : 0 ≤ r) (first : c.First s.store r q v) :
    ∃ m, c.Passes w s r m ∧ w.run (m + 1) s = s.go (.enter (c.occurrence q v)) (c.frame q :: c.rest) := by
  obtain ⟨i, rfl⟩ := Int.eq_ofNat_of_zero_le nonneg
  obtain ⟨d, rfl⟩ := Nat.exists_eq_add_of_le (Int.ofNat_le.mp first.ahead)
  have others : ∀ p, i ≤ p → p < i + d → ∃ u, (c.items s.store)[p]? = some u ∧ u.isNode s.store = false := by
    intro p hip hp
    have hlength : i + d < (c.items s.store).length := (List.getElem?_eq_some_iff.mp first.stands).1
    have hget : (c.items s.store)[p]? = some _ := List.getElem?_eq_getElem (by omega)
    exact ⟨_, hget, first.least p (by omega) hp _ hget⟩
  have move : Silent w.reserved s.store .next _ (.enter (c.occurrence (i + d) v)) _ :=
    .item c.seq c.key c.parent c.trail (i + d : Nat) c.rest v first.stands first.node
  refine ⟨d, fun j hj => ⟨_, by omega, passes_over here others hj⟩, ?_⟩
  rw [w.run_succ, passes_over here others (Nat.le_refl d), Walker.step_of_silent rfl rfl rfl move]
  rfl

theorem At.ends (here : c.At r s) (exhausted : c.Exhausted s.store r) :
    ∃ m, c.Passes w s r m ∧ w.run (m + 1) s = s.go .next c.rest := by
  by_cases nonneg : 0 ≤ r
  · obtain ⟨i, rfl⟩ := Int.eq_ofNat_of_zero_le nonneg
    -- What is left of the list is passed over.
    generalize hd : (c.items s.store).length - i = d
    have others : ∀ p, i ≤ p → p < i + d → ∃ u, (c.items s.store)[p]? = some u ∧ u.isNode s.store = false := by
      intro p hip hp
      have hget : (c.items s.store)[p]? = some _ := List.getElem?_eq_getElem (by omega)
      exact ⟨_, hget, exhausted.resolve_left (by omega) p (Int.ofNat_le.mpr hip) _ hget⟩
    have last : c.At (i + d : Nat) (s.go .next (c.frame (i + d : Nat) :: c.rest)) := ⟨rfl, rfl⟩
    have outside : ((c.items s.store).length : Int) ≤ (i + d : Nat) := by omega
    refine ⟨d, fun j hj => ⟨_, by omega, passes_over here others hj⟩, ?_⟩
    rw [w.run_succ, passes_over here others (Nat.le_refl d), last.ends_outside (.inr outside)]
    rfl
  · refine ⟨0, fun j hj => ⟨r, Int.le_refl r, ?_⟩, ?_⟩
    · rw [Nat.le_zero.mp hj]
      exact State.go_self here.focus here.stack
    · rw [w.run_one]
      exact here.ends_outside (.inl (by omega))

/-- Where a candidate leads: to the first node at or after it, or to the end of the scan. -/
theorem At.leads (here : c.At r s) :
    ∃ m, c.Passes w s r m ∧
      ((0 ≤ r ∧ ∃ q v, c.First s.store r q v ∧
          w.run (m + 1) s = s.go (.enter (c.occurrence q v)) (c.frame q :: c.rest)) ∨
        (c.Exhausted s.store r ∧ w.run (m + 1) s = s.go .next c.rest)) := by
  rcases c.first_or_exhausted s.store r with ⟨nonneg, q, v, first⟩ | exhausted
  · obtain ⟨m, passes, enters⟩ := here.enters (w := w) nonneg first
    exact ⟨m, passes, .inl ⟨nonneg, q, v, first, enters⟩⟩
  · obtain ⟨m, passes, ends⟩ := here.ends (w := w) exhausted
    exact ⟨m, passes, .inr ⟨exhausted, ends⟩⟩

/-! ## From candidate to candidate -/

theorem step_of_over {q m : Nat} {g : Signal} (stack : s.stack = c.frame q :: c.rest)
    (ended : w.Over s m g) :
    w.run (m + 1) s = if g.isExit (w.run m s).store then (w.run m s).go (.done (.returned g)) []
      else (w.run m s).go .next (c.frame ((g.resume (w.run m s).store).getD (q + 1)) :: c.rest) := by
  rw [w.run_succ, step_of_verdict ended.focus (ended.stack.trans stack)]
  rfl

section

variable {names : List String} {K : List Frame} (opens : c.Opens w names K s)

include opens

theorem Candidate.here {k : Nat} (h : c.Candidate w s k r) : c.At r (w.run k s) := by
  cases h with
  | first => exact opens.first
  | @next k m j r q v g _ _ _ enters ended goes =>
    have stack : (w.run (k + m) s).stack = c.frame q :: c.rest := by rw [enters]; rfl
    have next := step_of_over stack ended
    rw [← w.run_add, ← w.run_add, goes] at next
    exact ⟨congrArg State.focus next, congrArg State.stack next⟩

/-- Every state from a candidate on belongs to it or to a later one. -/
theorem Candidate.stands (hc : w.HasCallback) (sound : s.Sound) {k n : Nat} (candidate : c.Candidate w s k r)
    (hkn : k ≤ n) : ∃ k' r', c.Candidate w s k' r' ∧ k' ≤ n ∧ c.Stands w s k' r' n := by
  -- The induction is on the steps that are left.
  obtain ⟨d, hd⟩ : ∃ d, n - k = d := ⟨_, rfl⟩
  induction d using Nat.strongRecOn generalizing k r with
  | ind d ih =>
    obtain ⟨m, passes, leads⟩ := (candidate.here opens).leads (w := w)
    simp only [Passes, ← w.run_add] at passes leads
    by_cases hn : n ≤ k + m
    · obtain ⟨p, ahead, state⟩ := passes (n - k) (by omega)
      rw [Nat.add_sub_cancel' hkn] at state
      exact ⟨k, r, candidate, hkn, .passing ahead state⟩
    rcases leads with ⟨nonneg, q, v, first, enters⟩ | ⟨exhausted, ends⟩
    · obtain ⟨i, rfl⟩ := Nat.exists_eq_add_of_le (show k + (m + 1) ≤ n by omega)
      have focus : (w.run (k + (m + 1)) s).focus = .enter (c.occurrence q v) := by rw [enters]; rfl
      have stack : (w.run (k + (m + 1)) s).stack = c.frame q :: c.rest := by rw [enters]; rfl
      rcases visit_course hc (w.sound_after sound _) focus i with busy | ⟨j, hj, g, ended⟩ | ⟨j, hj, stops⟩
      · rw [stack, ← w.run_add] at busy
        exact ⟨k, r, candidate, hkn, .visiting first (by omega) (by omega) enters busy⟩
      · cases goes : g.isExit (w.run (k + (m + 1) + j) s).store with
        | true =>
          have back : (w.run (k + (m + 1) + j) s).focus = .back g := by rw [w.run_add]; exact ended.focus
          exact ⟨k, r, candidate, hkn, .stopped (by omega) (by omega) (.exitBack back goes)⟩
        | false =>
          exact ih _ (by omega) (.next candidate nonneg first enters ended goes) (by omega) rfl
      · rw [← w.run_add] at stops
        exact ⟨k, r, candidate, hkn, .stopped (by omega) (by omega) stops⟩
    · exact ⟨k, r, candidate, hkn, .ended exhausted (by omega) (by omega) ends⟩

theorem Candidate.enters (hc : w.HasCallback) (sound : s.Sound) {n q : Nat} {v : Value}
    (candidate : c.Candidate w s n r) (nonneg : 0 ≤ r) (first : c.First (w.run n s).store r q v) :
    ∃ m, w.run (n + m) s = (w.run n s).go (.enter (c.occurrence q v)) (c.frame q :: c.rest) ∧
      (w.enter.isSome → ∃ x, w.exchange? (w.run (n + m) s) = some x ∧
        x.call = { c.occurrence q v with phase := .enter }) ∧
      ∀ j g, w.Over (w.run (n + m) s) j g →
        w.Gives (c.occurrence q v) (w.run (n + m) s).exchanges.length (w.run (n + m + j) s) g ∧
        (g.isExit (w.run (n + m + j) s).store = true →
          w.run (n + m + j + 1) s = (w.run (n + m + j) s).go (.done (.returned g)) []) ∧
        (g.isExit (w.run (n + m + j) s).store = false →
          c.Candidate w s (n + m + j + 1) ((g.resume (w.run (n + m + j) s).store).getD (q + 1))) := by
  obtain ⟨m, -, enters⟩ := (candidate.here opens).enters (w := w) nonneg first
  rw [← w.run_add] at enters
  have focus : (w.run (n + (m + 1)) s).focus = .enter (c.occurrence q v) := by rw [enters]; rfl
  have stack : (w.run (n + (m + 1)) s).stack = c.frame q :: c.rest := by rw [enters]; rfl
  refine ⟨m + 1, enters, fun hsome => ?_, fun j g ended => ⟨?_, fun exit => ?_, fun goes => ?_⟩⟩
  · obtain ⟨f, callback⟩ := Option.isSome_iff_exists.mp hsome
    exact ⟨_, w.exchange?_enter focus callback rfl, rfl⟩
  · have gives := gives_of_over hc (w.sound_after sound _) focus ended
    rw [← w.run_add] at gives
    exact gives
  · have next := step_of_over stack ended
    rw [← w.run_add, ← w.run_add, exit] at next
    exact next
  · exact .next candidate nonneg first enters ended goes

end

end

end Scan

/-! ## After a scan -/

theorem fields_go_on {w : Walker σ ν} {s : State σ ν} {node : Value} {trail : List Value} {names : List String}
    {K : List Frame} (sound : s.Sound) (stacked : s.Stacked) (focus : s.focus = .next)
    (stack : s.stack = .fields node trail names :: K) :
    (∀ name names', names = name :: names' → w.step s = w.fieldStep node trail name names' K s) ∧
    (K = [] ∨ ∃ o g below, K = .visit o g :: below ∧ o.node = node ∧ ∀ m,
      (∃ j < m, w.Stops (w.run j s)) ∨
      (∃ j ≤ m, (w.run j s).focus = .leave o g ∧ (w.run j s).stack = below) ∨
      ((∀ r, (w.run m s).focus ≠ .done r) ∧ ∃ inner, (w.run m s).stack = inner ++ K)) := by
  refine ⟨fun name names' hnames => ?_, ?_⟩
  · subst hnames
    simp only [Walker.step, focus, Walker.nextStep, stack]
  · have lies := stacked.2
    rw [stack] at lies
    rcases lies.1 with rfl | ⟨o, g, below, rfl, node, -⟩
    · exact .inl rfl
    · have going : ∀ r, s.focus ≠ .done r := by
        rw [focus]
        exact Focus.next_ne_done
      exact .inr ⟨o, g, below, rfl, node, leaves_or_stays [_] sound going stack⟩

/-! ## The law -/

/-- A list that the walk finds in a field is scanned from candidate to candidate, whatever callbacks do to it. From a
    candidate the first node at or after it is entered. What is returned about it names the next candidate, if it names
    a position; else the next position is. A scan ends at a candidate below zero, or with no node at or after it, and
    nowhere else. Then the next field of the record is looked at, and the record is left in the end, as long as nothing
    stops the walk. -/
theorem scan_law (w : Walker σ ν) {tree : Value} {store : Store} {memory : σ} {k : Nat} {s : State σ ν}
    (reached : w.run k (w.start tree store memory) = s) (c : Scan) {names : List String} {K : List Frame}
    (opens : c.Opens w names K s) :
    c.Candidate w s 1 0 ∧
    (∀ n r, c.Candidate w s n r → c.At r (w.run n s) ∧
      (∀ q v, 0 ≤ r → c.First (w.run n s).store r q v → ∃ m,
        w.run (n + m) s = (w.run n s).go (.enter (c.occurrence q v)) (c.frame q :: c.rest) ∧
        (w.enter.isSome → ∃ x, w.exchange? (w.run (n + m) s) = some x ∧
          x.call = { c.occurrence q v with phase := .enter }) ∧
        ∀ j g, w.Over (w.run (n + m) s) j g →
          w.Gives (c.occurrence q v) (w.run (n + m) s).exchanges.length (w.run (n + m + j) s) g ∧
          (g.isExit (w.run (n + m + j) s).store = true →
            w.run (n + m + j + 1) s = (w.run (n + m + j) s).go (.done (.returned g)) []) ∧
          (g.isExit (w.run (n + m + j) s).store = false →
            c.Candidate w s (n + m + j + 1) ((g.resume (w.run (n + m + j) s).store).getD (q + 1)))) ∧
      (c.Exhausted (w.run n s).store r → ∃ m, w.run (n + m) s = (w.run n s).go .next c.rest)) ∧
    (∀ n, 1 ≤ n → ∃ k r, c.Candidate w s k r ∧ k ≤ n ∧ c.Stands w s k r n) ∧
    ∀ n, (w.run n s).focus = .next → (w.run n s).stack = c.rest →
      (∀ name names', names = name :: names' →
        w.run (n + 1) s = w.fieldStep c.parent c.trail name names' K (w.run n s)) ∧
      (K = [] ∨ ∃ o g below, K = .visit o g :: below ∧ o.node = c.parent ∧ ∀ m,
        (∃ j < m, w.Stops (w.run (n + j) s)) ∨
        (∃ j ≤ m, (w.run (n + j) s).focus = .leave o g ∧ (w.run (n + j) s).stack = below) ∨
        ((∀ r, (w.run (n + m) s).focus ≠ .done r) ∧ ∃ inner, (w.run (n + m) s).stack = inner ++ K)) := by
  have sound : s.Sound := reached ▸ w.sound_run tree store memory k
  have focus : (w.run k (w.start tree store memory)).focus = .next := reached ▸ opens.focus
  have hc : w.HasCallback := Walker.hasCallback_of_focus focus Focus.next_ne_done
  refine ⟨.first, fun n r candidate => ⟨candidate.here opens, fun q v nonneg first => ?_, fun exhausted => ?_⟩,
    fun n hn => Scan.Candidate.first.stands opens hc sound hn, fun n focus stack => ?_⟩
  · exact candidate.enters opens hc sound nonneg first
  · obtain ⟨m, -, ends⟩ := (candidate.here opens).ends (w := w) exhausted
    rw [← w.run_add] at ends
    exact ⟨m + 1, ends⟩
  · have stacked : (w.run n s).Stacked := by
      rw [← reached, ← w.run_add]
      exact w.stacked_run tree store memory _
    have law := fields_go_on (w := w) (w.sound_after sound n) stacked focus (stack.trans opens.rest)
    simp only [← w.run_add] at law
    rw [w.run_succ]
    exact law

/-- A node with a list and a child after it. -/
def hurdles : Store := ⟨#[
  { fields := .ofList [("type", .text "Block"), ("body", .container .list 1), ("next", .container .mapping 2)] },
  { items := [.container .mapping 2, .int 7, .container .mapping 3, .container .mapping 2] },
  { fields := .ofList [("type", .text "Name")] },
  { fields := .ofList [("type", .text "Call")] }]⟩

/-- Shortens the list and jumps ahead in it, then back to the number, and then below zero. -/
def bouncing : Walker Nat Unit where
  enter := some fun c s n => c.answer s n (.ok .null)
  leave := some fun c s n =>
    match c.key, n with
    | some "body", 0 => c.answer (s.setItems 1 ((s.cell 1).items.take 3)) 1 (.ok (.int 2))
    | some "body", 1 => c.answer s 2 (.ok (.tuple [.action .proceed, .int 1]))
    | some "body", 2 => c.answer s 3 (.ok (.int (-1)))
    | _, _ => c.answer s n (.ok .null)
  reserved := []
  logging := false
  colored := false
  debug := false

def hurdleScan : Scan where
  seq := .container .list 1
  key := "body"
  parent := .container .mapping 0
  trail := []
  rest := [.fields (.container .mapping 0) [] ["next"], .visit ⟨.container .mapping 0, none, none, []⟩ (.fixed [.null])]

def atHurdles : State Nat Unit := bouncing.run 2 (bouncing.start (.container .mapping 0) hurdles 0)

/-- The list is entered at 0, at 2, and at 2 again, since there is no node at 1. The child after it is visited. -/
theorem bounced_hurdles :
    hurdleScan.Opens bouncing ["next"] [.visit ⟨.container .mapping 0, none, none, []⟩ (.fixed [.null])] atHurdles ∧
    (∃ k r, hurdleScan.Candidate bouncing atHurdles k r ∧ k ≤ 22 ∧ hurdleScan.Stands bouncing atHurdles k r 22) ∧
    bouncing.run 25 atHurdles = bouncing.fieldStep (.container .mapping 0) [] "next" []
      [.visit ⟨.container .mapping 0, none, none, []⟩ (.fixed [.null])] (bouncing.run 24 atHurdles) ∧
    ((bouncing.walk 40 (.container .mapping 0) hurdles 0).calls.filter (·.phase = .enter)).map
      (fun c => (c.key, c.index)) =
      [(none, none), (some "body", some 0), (some "body", some 2), (some "body", some 2), (some "next", none)] := by
  have opens : hurdleScan.Opens bouncing ["next"]
      [.visit ⟨.container .mapping 0, none, none, []⟩ (.fixed [.null])] atHurdles :=
    ⟨rfl, rfl, rfl, by decide, rfl, rfl⟩
  obtain ⟨-, -, covered, after⟩ := scan_law bouncing (s := atHurdles) rfl hurdleScan opens
  exact ⟨opens, covered 22 (by decide), (after 24 rfl rfl).1 "next" [] rfl, by decide⟩

end TreeWalk
