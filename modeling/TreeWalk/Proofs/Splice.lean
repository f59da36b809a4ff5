/-
  TreeWalk.Proofs.Splice — changing a list while it is scanned.

  The last call about an element decides where the scan goes on: that of `leave`, or that of `enter` if there is no
  `leave` (`Scan.Decides`). Such a call may put anything in the place of the element and of those before it, if it
  leaves the elements after it alone and names the position of the first of them (`Scan.Spliced`). As long as nothing
  else changes the list (`Scan.Allows`), the scan sees every element it was going to see, and nothing else:
  - `Scan.Stage` tells where a scan stands between two elements or within a visit, what it has dealt with and what is
    still ahead; `Scan.Inv.step` is one step, `Scan.run_inv` the whole scan, `Scan.exists_over` its end.
  - `splice_law`: the nodes that are entered are those of the list as it was, each in its place and in order; a scan
    whose decisions keep or drop their elements filters the list.

  A decision of `enter` is read when the visit is over. A list that was returned must still say the same then
  (`Scan.Firm`): `an_edited_answer_hides_a_sibling`.
-/

import TreeWalk.Proofs.Steps

namespace TreeWalk

variable {σ ν : Type}

/-! ## Scans -/

/-- A scan: what it goes through, where that was found, and the work that waits until the scan is over. -/
structure Scan where
  seq : Value
  key : String
  parent : Value
  trail : List Value
  rest : List Frame

namespace Scan

variable (c : Scan) (w : Walker σ ν) (s : State σ ν)

def frame (position : Int) : Frame := .items c.seq c.key c.parent c.trail position

def items (store : Store) : List Value := c.seq.items store

/-- The scan has not come to its end. -/
def Active : Prop := c.rest.length < s.stack.length

def Lasts (n : Nat) : Prop := ∀ m < n, c.Active (w.run m s)

def Over (n : Nat) : Prop := c.Lasts w s n ∧ ¬ c.Active (w.run n s)

/-- An element that the scan is about to enter, and what follows it in the list. -/
def entering? : Option (Value × List Value) :=
  match s.focus with
  | .enter o =>
    if s.stack.length = c.rest.length + 1 then o.index.map fun i => (o.node, (c.items s.store).drop (i + 1)) else none
  | _ => none

def entered (n : Nat) : List (Value × List Value) := (List.range n).filterMap fun m => c.entering? (w.run m s)

end Scan

/-- The nodes of a list, each with what follows it. -/
def nodeSplits (store : Store) : List Value → List (Value × List Value)
  | [] => []
  | v :: rest => if v.isNode store then (v, rest) :: nodeSplits store rest else nodeSplits store rest

/-- The call about a node after which no other one about it follows. -/
def Walker.decides (w : Walker σ ν) : Focus → Bool
  | .enter _ => w.leave.isNone
  | .leave _ _ => true
  | _ => false

namespace Scan

variable (c : Scan) (w : Walker σ ν) (s : State σ ν)

/-- The next call is about an element of the list, and decides where the scan goes on. -/
def Decides : Prop := s.stack.length = c.rest.length + 1 ∧ w.decides s.focus

/-- A call about the element `v` leaves what follows it as it is; `pre` becomes `pre'`, and `v` is gone unless it is
    there. -/
structure Spliced (x : Exchange σ ν) (pre : List Value) (v : Value) (suf pre' : List Value) : Prop where
  index : x.call.index = some pre.length
  before : c.items x.before = pre ++ v :: suf
  after : c.items x.reply.store = pre' ++ suf

/-- A call during a scan neither fails nor asks to exit, and does not make an element of the list a node or cease to be
    one. Only a decision may change the list, and it then tells where the rest begins. -/
structure Allows (x : Exchange σ ν) : Prop where
  goes : x.reply.stops = false
  nodes : ∀ v ∈ c.items x.before, v.isNode x.reply.store = v.isNode x.before
  keeps : ¬ c.Decides w s → c.items x.reply.store = c.items x.before
  splices : c.Decides w s → ∃ pre v suf pre' value, c.Spliced x pre v suf pre' ∧ x.reply.outcome = .ok value ∧
    (Signal.ofValue value).resume x.reply.store = some (pre'.length : Int)

/-- A call does not edit the answers to visits of the scan that are not over. With `leave` they are not read again. -/
def Firm (x : Exchange σ ν) : Prop := w.leave = none → ∀ above o g, s.stack = above ++ c.rest → .visit o g ∈ above →
  g.items x.reply.store = g.items x.before

end Scan

/-! ## Within a visit -/

/-- The walk stays above an open visit. The visits above it were there before, or are entered without a callback; one
    that is left was there, and a signal that is handed back is that of a visit that was just left. -/
structure Above (o : Occurrence) (g : Signal) (R inner inner' : List Frame) (F F' : Focus) (K' : List Frame) :
    Prop where
  stack : K' = inner' ++ .visit o g :: R
  visits : ∀ o' g', .visit o' g' ∈ inner' → .visit o' g' ∈ inner ∨ g' = .silent
  leave : ∀ o' g', F' = .leave o' g' → .visit o' g' ∈ inner
  back : ∀ g', F' = .back g' → ∃ o', F = .leave o' g'

section

variable {o : Occurrence} {g : Signal} {R inner : List Frame} {F F' : Focus}

theorem above_replace (new : List Frame) {f : Frame} {K : List Frame} (hK : f :: K = inner ++ .visit o g :: R)
    (hf : ∀ o' g', f ≠ .visit o' g') (hnew : ∀ o' g', .visit o' g' ∉ new) (hleave : ∀ o' g', F' ≠ .leave o' g')
    (hback : ∀ g', F' ≠ .back g') : ∃ inner', Above o g R inner inner' F F' (new ++ K) := by
  rcases List.cons_eq_append_iff.mp hK with ⟨-, htop⟩ | ⟨inner₁, rfl, rfl⟩
  · cases htop
    exact absurd rfl (hf o g)
  · refine ⟨new ++ inner₁, (List.append_assoc _ _ _).symm, fun o' g' hm => ?_, fun o' g' e => absurd e (hleave o' g'),
      fun g' e => absurd e (hback g')⟩
    rcases List.mem_append.mp hm with hm | hm
    · exact absurd hm (hnew o' g')
    · exact .inl (List.mem_cons_of_mem _ hm)

/-- A silent move above an open visit ends that visit, or ends the walk, or stays above it. -/
theorem Silent.above {reserved : List String} {store : Store} {K K' : List Frame} (h : Silent reserved store F K F' K')
    (hK : K = inner ++ .visit o g :: R) :
    (inner = [] ∧ F' = .leave o g ∧ K' = R) ∨ (∃ r, F' = .done r) ∨ ∃ inner', Above o g R inner inner' F F' K' := by
  cases h with
  | enter o' =>
    refine .inr (.inr ⟨_ :: _ :: inner, by rw [hK]; rfl, fun o₁ g₁ hm => ?_, nofun, nofun⟩)
    simp only [List.mem_cons, reduceCtorEq, false_or, Frame.visit.injEq] at hm
    rcases hm with ⟨-, rfl⟩ | hm
    · exact .inr rfl
    · exact .inl hm
  | leave o' g' => exact .inr (.inr ⟨inner, hK, fun _ _ => .inl, nofun, fun _ e => by cases e; exact ⟨o', rfl⟩⟩)
  | toVisit => exact .inr (.inr ⟨inner, hK, fun _ _ => .inl, nofun, nofun⟩)
  | toFields => exact .inr (.inr ⟨inner, hK, fun _ _ => .inl, nofun, nofun⟩)
  | childrenOver o' g' K =>
    rcases List.cons_eq_append_iff.mp hK with ⟨hnil, htop⟩ | ⟨inner₁, rfl, rfl⟩
    · cases htop
      exact .inl ⟨hnil, rfl, rfl⟩
    · refine .inr (.inr ⟨inner₁, rfl, fun _ _ hm => .inl (List.mem_cons_of_mem _ hm), ?_, nofun⟩)
      rintro _ _ ⟨⟩
      exact List.mem_cons_self
  | fieldsOver => exact .inr (.inr (above_replace [] hK nofun nofun nofun nofun))
  | passField => exact .inr (.inr (above_replace [_] hK nofun (by simp) nofun nofun))
  | scan => exact .inr (.inr (above_replace [_, _] hK nofun (by simp) nofun nofun))
  | child => exact .inr (.inr (above_replace [_] hK nofun (by simp) nofun nofun))
  | scanOver => exact .inr (.inr (above_replace [] hK nofun nofun nofun nofun))
  | item => exact .inr (.inr (above_replace [_] hK nofun (by simp) nofun nofun))
  | passItem => exact .inr (.inr (above_replace [_] hK nofun (by simp) nofun nofun))
  | resume => exact .inr (.inr (above_replace [_] hK nofun (by simp) nofun nofun))
  | rest r => exact .inr (.inl ⟨r, rfl⟩)
  | stop => exact .inr (.inl ⟨_, rfl⟩)
  | rootOver => exact .inr (.inl ⟨_, rfl⟩)
  | exit => exact .inr (.inl ⟨_, rfl⟩)
  | fault => exact .inr (.inl ⟨_, rfl⟩)

end

/-- The walk is above an open visit, and none of the signals that it is going to read asks to exit. Without `leave`
    those of open visits are going to be read. -/
structure Within (w : Walker σ ν) (R : List Frame) (o : Occurrence) (g : Signal) (s : State σ ν) (inner : List Frame) :
    Prop where
  stack : s.stack = inner ++ .visit o g :: R
  going : ∀ r, s.focus ≠ .done r
  visits : w.leave = none → ∀ o' g', .visit o' g' ∈ inner ++ [.visit o g] → g'.isExit s.store = false
  leave : w.leave = none → ∀ o' g', s.focus = .leave o' g' → g'.isExit s.store = false
  back : ∀ g', s.focus = .back g' → g'.isExit s.store = false

theorem Within.move {w : Walker σ ν} {R inner : List Frame} {o : Occurrence} {g : Signal} {s t : State σ ν}
    (h : Within w R o g s inner) (move : Moves w s t) (sound : s.Sound)
    (goes : ∀ x, w.exchange? s = some x → x.reply.stops = false)
    (firm : w.leave = none → ∀ x, w.exchange? s = some x → ∀ o' g', .visit o' g' ∈ inner ++ [.visit o g] →
      g'.items x.reply.store = g'.items s.store) :
    t = s.go (.leave o g) R ∨ ∃ inner', Within w R o g t inner' := by
  -- After a call the visits that were open still do not ask to exit.
  have kept : ∀ x, w.exchange? s = some x → w.leave = none → ∀ o' g', .visit o' g' ∈ inner ++ [.visit o g] →
      g'.isExit x.reply.store = false := by
    intro x hx hl o' g' hm
    rw [Signal.isExit_of_items (firm hl x hx o' g' hm)]
    exact h.visits hl o' g' hm
  cases move with
  | @silent F K due move =>
    have going : ∀ r, F ≠ .done r := by
      rintro r rfl
      rcases move.ending h.going sound with ⟨-, hnil, -⟩ | ⟨g', hF, hnil | hx, -⟩
      · simp [h.stack] at hnil
      · simp [h.stack] at hnil
      · simp [h.back g' hF] at hx
    rcases move.above h.stack with ⟨-, rfl, rfl⟩ | ⟨r, hr⟩ | ⟨inner', habove⟩
    · exact .inl rfl
    · exact absurd hr (going r)
    · refine .inr ⟨inner', habove.stack, going, fun hl o' g' hm => ?_, fun hl o' g' e => ?_, fun g' e => ?_⟩
      · rcases List.mem_append.mp hm with hm | hm
        · rcases habove.visits o' g' hm with hm | rfl
          · exact h.visits hl o' g' (List.mem_append_left _ hm)
          · rfl
        · exact h.visits hl o' g' (List.mem_append_right _ hm)
      · exact h.visits hl o' g' (List.mem_append_left _ (habove.leave o' g' e))
      · obtain ⟨o', hF⟩ := habove.back g' e
        rw [hF] at due
        exact h.leave (Option.map_eq_none_iff.mp due) o' g' hF
  | raises due reply answer =>
    exact absurd answer (Reply.ne_error (goes _ (w.exchange?_of_due due reply)) _)
  | exits focus callback reply answer exit =>
    have hstop := goes _ (w.exchange?_enter focus callback reply)
    rw [Reply.stops_of_ok answer, exit] at hstop
    cases hstop
  | @skips f o₁ v r focus callback reply answer exit skip =>
    have hkept := kept _ (w.exchange?_enter focus callback reply)
    refine .inr ⟨inner, h.stack, nofun, hkept, ?_, nofun⟩
    rintro - _ _ ⟨⟩
    exact exit
  | @descends f o₁ v r focus callback reply answer exit skip =>
    refine .inr ⟨.fields o₁.node r.ancestors (o₁.node.ownNames r.store) ::
      .visit { o₁ with ancestors := r.ancestors } (.ofValue v) :: inner, ?_, nofun, fun hl o' g' hm => ?_, nofun, nofun⟩
    · rw [go_stack, h.stack]
      rfl
    · simp only [List.cons_append, List.mem_cons, reduceCtorEq, false_or, Frame.visit.injEq] at hm
      rcases hm with ⟨-, rfl⟩ | hm
      · exact exit
      · exact kept _ (w.exchange?_enter focus callback reply) hl o' g' hm
  | @leaves f o₁ g₁ v r focus callback reply answer =>
    have hkept := kept _ (w.exchange?_leave focus callback reply)
    refine .inr ⟨inner, h.stack, nofun, hkept, nofun, ?_⟩
    rintro _ ⟨⟩
    have hstop := goes _ (w.exchange?_leave focus callback reply)
    rw [Reply.stops_of_ok answer] at hstop
    exact hstop

/-! ## The stages of a scan -/

namespace Scan

/-- An account of what stands before the position of a scan: `G seen pre` relates the elements that the scan has dealt
    with to what is there now. Elements that are no nodes stay; decisions are told by what they put there. -/
structure Account (c : Scan) (w : Walker σ ν) (base : Store) (G : List Value → List Value → Prop) (s : State σ ν) :
    Prop where
  pass : ∀ seen pre v, v.isNode base = false → G seen pre → G (seen ++ [v]) (pre ++ [v])
  splice : ∀ x, w.exchange? s = some x → c.Decides w s → ∀ seen pre v suf pre', v.isNode base →
    c.Spliced x pre v suf pre' → G seen pre → G (seen ++ [v]) pre'

variable (c : Scan) (w : Walker σ ν) (base : Store) (G : List Value → List Value → Prop) (s : State σ ν)

/-- The visit of `v` is not over: the decision is still to be made, or `enter` has made it. -/
inductive Pending (o : Occurrence) (g : Signal) (seen : List Value) (v : Value) (suf : List Value) : Prop
  | ahead (pre : List Value) (leave : w.leave.isSome) (index : o.index = some pre.length)
      (list : c.items s.store = pre ++ v :: suf) (node : v.isNode base) (account : G seen pre)
  | made (pre : List Value) (leave : w.leave = none) (list : c.items s.store = pre ++ suf)
      (resume : g.resume s.store = some (pre.length : Int)) (account : G (seen ++ [v]) pre)

/-- Where a scan stands: what it has dealt with, what is still ahead, and a bound for the steps outside of visits. -/
inductive Stage : List Value → List Value → Nat → Prop
  | waiting (seen suf pre : List Value) (focus : s.focus = .next) (stack : s.stack = c.frame pre.length :: c.rest)
      (list : c.items s.store = pre ++ suf) (account : G seen pre) : Stage seen suf (5 * suf.length)
  | entering (seen suf pre : List Value) (o : Occurrence) (p : Int) (focus : s.focus = .enter o)
      (index : o.index = some pre.length) (stack : s.stack = c.frame p :: c.rest)
      (list : c.items s.store = pre ++ o.node :: suf) (node : o.node.isNode base) (account : G seen pre) :
      Stage seen (o.node :: suf) (5 * suf.length + 4)
  | inside (seen suf : List Value) (v : Value) (o : Occurrence) (g : Signal) (p : Int) (inner : List Frame)
      (within : Within w (c.frame p :: c.rest) o g s inner) (pending : c.Pending w base G s o g seen v suf) :
      Stage (seen ++ [v]) suf (5 * suf.length + 3)
  | leaving (seen suf : List Value) (v : Value) (o : Occurrence) (g : Signal) (p : Int) (focus : s.focus = .leave o g)
      (stack : s.stack = c.frame p :: c.rest) (exit : w.leave = none → g.isExit s.store = false)
      (pending : c.Pending w base G s o g seen v suf) : Stage (seen ++ [v]) suf (5 * suf.length + 2)
  | back (seen suf pre : List Value) (g : Signal) (p : Int) (focus : s.focus = .back g)
      (stack : s.stack = c.frame p :: c.rest) (exit : g.isExit s.store = false) (list : c.items s.store = pre ++ suf)
      (resume : g.resume s.store = some (pre.length : Int)) (account : G seen pre) : Stage seen suf (5 * suf.length + 1)

/-- A scan under way: the elements ahead are those at the end of the list it began with, they are nodes as they were
    then, and together with what was entered they make up the nodes of that list. -/
structure Inv (whole : List Value) (log : List (Value × List Value)) (seen suf : List Value) (rank : Nat) : Prop where
  stage : c.Stage w base G s seen suf rank
  parts : whole = seen ++ suf
  nodes : ∀ v ∈ suf, v.isNode s.store = v.isNode base
  log : log ++ nodeSplits base suf = nodeSplits base whole
  sound : s.Sound

/-- A scan that has come to its end. -/
structure Done (whole : List Value) (log : List (Value × List Value)) : Prop where
  focus : s.focus = .next
  stack : s.stack = c.rest
  log : log = nodeSplits base whole
  account : G whole (c.items s.store)

section

variable {c w base G s} {t : State σ ν} {seen suf : List Value} {rank : Nat}

theorem Stage.suffix (h : c.Stage w base G s seen suf rank) : suf <:+ c.items s.store := by
  have pending : ∀ {o g seen v}, c.Pending w base G s o g seen v suf → suf <:+ c.items s.store := by
    intro o g seen v hp
    cases hp with
    | ahead pre _ _ list => exact ⟨pre ++ [v], by rw [list, List.append_assoc]; rfl⟩
    | made pre _ list => exact ⟨pre, list.symm⟩
  cases h with
  | waiting _ _ pre _ _ list => exact ⟨pre, list.symm⟩
  | entering _ _ pre _ _ _ _ _ list => exact ⟨pre, list.symm⟩
  | inside _ _ _ _ _ _ _ _ hp => exact pending hp
  | leaving _ _ _ _ _ _ _ _ _ hp => exact pending hp
  | back _ _ pre _ _ _ _ _ list => exact ⟨pre, list.symm⟩

/-- A decision leaves the elements ahead, and tells where they begin. -/
theorem decided {x : Exchange σ ν} {pre : List Value} {v value : Value} (hx : w.exchange? s = some x)
    (decides : c.Decides w s) (allows : c.Allows w s x) (acct : c.Account w base G s)
    (index : x.call.index = some pre.length) (list : c.items x.before = pre ++ v :: suf) (node : v.isNode base)
    (account : G seen pre) (answer : x.reply.outcome = .ok value) :
    ∃ pre', c.items x.reply.store = pre' ++ suf ∧
      (Signal.ofValue value).resume x.reply.store = some (pre'.length : Int) ∧ G (seen ++ [v]) pre' := by
  obtain ⟨pre₁, v₁, suf₁, pre', value₁, spliced, answer₁, resume⟩ := allows.splices decides
  have hlen : pre₁.length = pre.length := Option.some.inj (spliced.index.symm.trans index)
  obtain ⟨rfl, htail⟩ := List.append_inj (spliced.before.symm.trans list) hlen
  obtain ⟨rfl, rfl⟩ := List.cons.inj htail
  cases answer₁.symm.trans answer
  exact ⟨pre', spliced.after, resume, acct.splice x hx decides seen _ _ _ pre' node spliced account⟩

theorem pending_entered {o o' : Occurrence} {p : Int} {x : Exchange σ ν} {pre : List Value} {value : Value}
    (focus : s.focus = .enter o) (stack : s.stack = c.frame p :: c.rest) (hx : w.exchange? s = some x)
    (allows : c.Allows w s x) (acct : c.Account w base G s) (call : x.call.index = o.index)
    (before : x.before = s.store) (index : o.index = some pre.length) (list : c.items s.store = pre ++ o.node :: suf)
    (node : o.node.isNode base) (account : G seen pre) (answer : x.reply.outcome = .ok value)
    (after : t.store = x.reply.store) (same : o'.index = o.index) :
    c.Pending w base G t o' (.ofValue value) seen o.node suf := by
  rw [← before] at list
  cases hl : w.leave with
  | none =>
    have decides : c.Decides w s := ⟨by simp [stack], by simp [focus, Walker.decides, hl]⟩
    obtain ⟨pre', list', resume, account'⟩ :=
      decided hx decides allows acct (call.trans index) list node account answer
    exact .made pre' hl (by rw [after, list']) (by rw [after, resume]) account'
  | some f =>
    have decides : ¬ c.Decides w s := by simp [Decides, focus, Walker.decides, hl]
    exact .ahead pre (by simp [hl]) (same.trans index) (by rw [after, allows.keeps decides, list]) node account

end

/-- One step of a scan leads from stage to stage. The bound gets smaller, unless the walk is within a visit. -/
structure Goes (t : State σ ν) (seen suf : List Value) (rank : Nat) (seen' suf' : List Value) (rank' : Nat) : Prop where
  stage : c.Stage w base G t seen' suf' rank'
  parts : seen' ++ suf' = seen ++ suf
  ahead : suf' ⊆ suf
  log : (c.entering? s).toList ++ nodeSplits base suf' = nodeSplits base suf
  rank : rank' < rank ∨ rank' = rank ∧ c.rest.length + 1 < s.stack.length

/-- One step ends a scan. -/
structure Finishes (t : State σ ν) (seen suf : List Value) : Prop where
  focus : t.focus = .next
  stack : t.stack = c.rest
  ahead : suf = []
  log : c.entering? s = none
  account : G seen (c.items t.store)

section

variable {c w base G s} {t : State σ ν} {seen suf : List Value} {rank : Nat}

theorem entering?_next (h : s.focus = .next) : c.entering? s = none := by rw [entering?, h]

theorem entering?_leave {o : Occurrence} {g : Signal} (h : s.focus = .leave o g) : c.entering? s = none := by
  rw [entering?, h]

theorem entering?_back {g : Signal} (h : s.focus = .back g) : c.entering? s = none := by rw [entering?, h]

theorem entering?_deep (h : c.rest.length + 1 < s.stack.length) : c.entering? s = none := by
  unfold entering?
  split
  · rw [if_neg (by omega)]
  · rfl

theorem goes_waiting {pre : List Value} (focus : s.focus = .next) (stack : s.stack = c.frame pre.length :: c.rest)
    (list : c.items s.store = pre ++ suf) (account : G seen pre) (acct : c.Account w base G s)
    (nodes : ∀ v ∈ suf, v.isNode s.store = v.isNode base) (move : Moves w s t) :
    (∃ seen' suf' rank', c.Goes w base G s t seen suf (5 * suf.length) seen' suf' rank') ∨
      c.Finishes G s t seen suf := by
  have hlog := c.entering?_next focus
  have hdue : w.due s.focus = none := by rw [focus]; rfl
  obtain ⟨F, K, silent, rfl⟩ := move.silent_of_due hdue
  rw [focus, stack] at silent
  rcases silent.scanning with ⟨outside, rfl, rfl⟩ | ⟨i, v, hi, hv, hcase⟩
  · have hlen : (c.items s.store).length ≤ pre.length := by
      rcases outside with h | h
      · omega
      · exact Int.ofNat_le.mp h
    have hsuf : suf = [] := by
      rw [list, List.length_append] at hlen
      exact List.length_eq_zero_iff.mp (by omega)
    refine .inr ⟨rfl, rfl, hsuf, hlog, ?_⟩
    rw [go_store, list, hsuf, List.append_nil]
    exact account
  · have hi' : i = pre.length := by omega
    subst hi'
    have hv' : (c.items s.store)[pre.length]? = some v := hv
    rw [list, List.getElem?_append_right (Nat.le_refl _), Nat.sub_self] at hv'
    cases suf with
    | nil => cases hv'
    | cons v' suf =>
      cases Option.some.inj hv'
      have hnode := nodes v List.mem_cons_self
      left
      rcases hcase with ⟨hn, rfl, rfl⟩ | ⟨hn, rfl, rfl⟩
      · refine ⟨seen, v :: suf, 5 * suf.length + 4, ?_, rfl, List.Subset.refl _, by rw [hlog]; rfl, .inl ?_⟩
        · exact .entering seen suf pre ⟨v, some c.key, some pre.length, c.trail ++ [c.parent]⟩ pre.length rfl rfl rfl
            list (hnode ▸ hn) account
        · simp only [List.length_cons]
          omega
      · have hn' : v.isNode base = false := hnode ▸ hn
        refine ⟨seen ++ [v], suf, 5 * suf.length, ?_, by simp, List.subset_cons_self _ _, ?_, .inl ?_⟩
        · refine .waiting _ suf (pre ++ [v]) rfl ?_ (by simp [list]) (acct.pass seen pre v hn' account)
          simp [frame]
        · rw [hlog, nodeSplits, hn']
          rfl
        · simp only [List.length_cons]
          omega

theorem goes_entering (hc : w.HasCallback) {o : Occurrence} {p : Int} {pre : List Value} (focus : s.focus = .enter o)
    (index : o.index = some pre.length) (stack : s.stack = c.frame p :: c.rest)
    (list : c.items s.store = pre ++ o.node :: suf) (node : o.node.isNode base) (account : G seen pre)
    (acct : c.Account w base G s) (allows : ∀ x, w.exchange? s = some x → c.Allows w s x) (move : Moves w s t) :
    ∃ seen' suf' rank', c.Goes w base G s t seen (o.node :: suf) (5 * suf.length + 4) seen' suf' rank' := by
  have hlog : (c.entering? s).toList ++ nodeSplits base suf = nodeSplits base (o.node :: suf) := by
    have hdrop : (c.items s.store).drop (pre.length + 1) = suf := by rw [list]; simp
    have hlen : s.stack.length = c.rest.length + 1 := by simp [stack]
    simp only [entering?, focus, hlen, if_true, index, Option.map_some, hdrop, nodeSplits, node]
    rfl
  -- Whatever the call leads to, the element counts as seen, and fewer steps remain.
  have goes : ∀ {rank}, c.Stage w base G t (seen ++ [o.node]) suf rank → rank < 5 * suf.length + 4 →
      ∃ seen' suf' rank', c.Goes w base G s t seen (o.node :: suf) (5 * suf.length + 4) seen' suf' rank' :=
    fun stage hrank => ⟨_, suf, _, stage, by simp, List.subset_cons_self _ _, hlog, .inl hrank⟩
  cases move with
  | @silent F K due silent =>
    -- Without `enter` there is `leave`, which is going to decide.
    rw [focus] at due silent
    have he : w.enter = none := Option.map_eq_none_iff.mp due
    have hl : w.leave.isSome := by
      rcases hc with h | h
      · rw [he] at h
        cases h
      · exact h
    cases silent with
    | enter =>
      refine goes (.inside seen suf o.node o .silent p [.fields o.node o.ancestors (o.node.ownNames s.store)] ?_
        (.ahead pre hl index list node account)) (by omega)
      have hl' : w.leave ≠ none := Option.isSome_iff_ne_none.mp hl
      exact ⟨by rw [go_stack, stack]; rfl, nofun, fun h => absurd h hl', fun h => absurd h hl', nofun⟩
  | raises due reply answer => exact absurd answer (Reply.ne_error (allows _ (w.exchange?_of_due due reply)).goes _)
  | @exits f o' v r focus' callback reply answer exit =>
    have hstop := (allows _ (w.exchange?_enter focus' callback reply)).goes
    rw [Reply.stops_of_ok answer, exit] at hstop
    cases hstop
  | @skips f o' v r focus' callback reply answer exit skip =>
    cases focus.symm.trans focus'
    have hx := w.exchange?_enter focus callback reply
    refine goes (.leaving seen suf o.node { o with ancestors := r.ancestors } (.ofValue v) p rfl stack
      (fun _ => exit) ?_) (by omega)
    exact pending_entered focus stack hx (allows _ hx) acct rfl rfl index list node account answer rfl rfl
  | @descends f o' v r focus' callback reply answer exit skip =>
    cases focus.symm.trans focus'
    have hx := w.exchange?_enter focus callback reply
    refine goes (.inside seen suf o.node { o with ancestors := r.ancestors } (.ofValue v) p
      [.fields o.node r.ancestors (o.node.ownNames r.store)] ?_ ?_) (by omega)
    · refine ⟨by rw [go_stack, stack]; rfl, nofun, fun _ o' g' hm => ?_, nofun, nofun⟩
      simp only [List.cons_append, List.nil_append, List.mem_cons, reduceCtorEq, Frame.visit.injEq, List.not_mem_nil,
        or_false, false_or] at hm
      rw [hm.2]
      exact exit
    · exact pending_entered focus stack hx (allows _ hx) acct rfl rfl index list node account answer rfl rfl
  | leaves focus' => cases focus.symm.trans focus'

theorem Pending.kept {o : Occurrence} {g : Signal} {v : Value} (h : c.Pending w base G s o g seen v suf)
    (list : c.items t.store = c.items s.store) (answer : w.leave = none → g.items t.store = g.items s.store) :
    c.Pending w base G t o g seen v suf := by
  cases h with
  | ahead pre leave index list' node account => exact .ahead pre leave index (list.trans list') node account
  | made pre leave list' resume account =>
    exact .made pre leave (list.trans list') ((Signal.resume_of_items (answer leave)).trans resume) account

theorem goes_inside {v : Value} {o : Occurrence} {g : Signal} {p : Int} {inner : List Frame}
    (within : Within w (c.frame p :: c.rest) o g s inner) (pending : c.Pending w base G s o g seen v suf)
    (allows : ∀ x, w.exchange? s = some x → c.Allows w s x) (firm : ∀ x, w.exchange? s = some x → c.Firm w s x)
    (sound : s.Sound) (move : Moves w s t) :
    ∃ seen' suf' rank', c.Goes w base G s t (seen ++ [v]) suf (5 * suf.length + 3) seen' suf' rank' := by
  have hstack : s.stack = (inner ++ [.visit o g, c.frame p]) ++ c.rest := by rw [within.stack]; simp
  have hdeep : c.rest.length + 1 < s.stack.length := by
    rw [hstack]
    simp only [List.length_append, List.length_cons, List.length_nil]
    omega
  have hlog := c.entering?_deep hdeep
  have hdecides : ¬ c.Decides w s := fun h => by
    have := h.1
    omega
  have habove : ∀ o' g', .visit o' g' ∈ inner ++ [.visit o g] → .visit o' g' ∈ inner ++ [.visit o g, c.frame p] := by
    intro o' g' hm
    rcases List.mem_append.mp hm with hm | hm
    · exact List.mem_append_left _ hm
    · exact List.mem_append_right _ (List.mem_cons.mpr (.inl (List.mem_singleton.mp hm)))
  have same : w.leave = none → ∀ x, w.exchange? s = some x → ∀ o' g', .visit o' g' ∈ inner ++ [.visit o g] →
      g'.items x.reply.store = g'.items s.store := by
    intro hl x hx o' g' hm
    rw [← w.exchange?_before hx]
    exact firm x hx hl _ o' g' hstack (habove o' g' hm)
  rcases within.move move sound (fun x hx => (allows x hx).goes) same with rfl | ⟨inner', within'⟩
  · refine ⟨_, suf, 5 * suf.length + 2, ?_, rfl, List.Subset.refl _, by rw [hlog]; rfl, .inl (by omega)⟩
    refine .leaving seen suf v o g p rfl rfl (fun hl => ?_) (pending.kept rfl fun _ => rfl)
    exact within.visits hl o g (List.mem_append_right _ List.mem_cons_self)
  · refine ⟨_, suf, 5 * suf.length + 3, ?_, rfl, List.Subset.refl _, by rw [hlog]; rfl, .inr ⟨rfl, hdeep⟩⟩
    refine .inside seen suf v o g p inner' within' ?_
    rcases move.store with e | ⟨x, hx, e⟩
    · exact pending.kept (by rw [e]) fun _ => by rw [e]
    · refine pending.kept ?_ fun hl => ?_
      · rw [e, (allows x hx).keeps hdecides, w.exchange?_before hx]
      · rw [e]
        exact same hl x hx o g (List.mem_append_right _ List.mem_cons_self)

theorem goes_leaving {v : Value} {o : Occurrence} {g : Signal} {p : Int} (focus : s.focus = .leave o g)
    (stack : s.stack = c.frame p :: c.rest) (exit : w.leave = none → g.isExit s.store = false)
    (pending : c.Pending w base G s o g seen v suf) (acct : c.Account w base G s)
    (allows : ∀ x, w.exchange? s = some x → c.Allows w s x) (move : Moves w s t) :
    ∃ seen' suf' rank', c.Goes w base G s t (seen ++ [v]) suf (5 * suf.length + 2) seen' suf' rank' := by
  have hlog := c.entering?_leave focus
  have goes : c.Stage w base G t (seen ++ [v]) suf (5 * suf.length + 1) →
      ∃ seen' suf' rank', c.Goes w base G s t (seen ++ [v]) suf (5 * suf.length + 2) seen' suf' rank' :=
    fun stage => ⟨_, suf, _, stage, rfl, List.Subset.refl _, by rw [hlog]; rfl, .inl (by omega)⟩
  cases pending with
  | made pre leave list resume account =>
    obtain ⟨F, K, silent, rfl⟩ := move.silent_of_due (by rw [focus]; simp [Walker.due, leave])
    rw [focus] at silent
    cases silent with
    | leave => exact goes (.back _ suf pre g p rfl stack (exit leave) list resume account)
  | ahead pre leave index list node account =>
    obtain ⟨f, hf⟩ := Option.isSome_iff_exists.mp leave
    have decides : c.Decides w s := ⟨by simp [stack], by rw [focus]; rfl⟩
    cases move with
    | silent due => rw [focus, w.due_of_leave hf] at due; cases due
    | raises due reply answer =>
      exact absurd answer (Reply.ne_error (allows _ (w.exchange?_of_due due reply)).goes _)
    | exits focus' => cases focus.symm.trans focus'
    | skips focus' => cases focus.symm.trans focus'
    | descends focus' => cases focus.symm.trans focus'
    | @leaves f' o' g' value r focus' callback reply answer =>
      cases focus.symm.trans focus'
      have hx := w.exchange?_leave focus callback reply
      obtain ⟨pre', list', resume, account'⟩ :=
        decided hx decides (allows _ hx) acct index list node account answer
      have hstop := (allows _ hx).goes
      rw [Reply.stops_of_ok answer] at hstop
      exact goes (.back _ suf pre' (.ofValue value) p rfl stack hstop list' resume account')

theorem goes_back {g : Signal} {p : Int} {pre : List Value} (focus : s.focus = .back g)
    (stack : s.stack = c.frame p :: c.rest) (exit : g.isExit s.store = false) (list : c.items s.store = pre ++ suf)
    (resume : g.resume s.store = some (pre.length : Int)) (account : G seen pre) (move : Moves w s t) :
    ∃ seen' suf' rank', c.Goes w base G s t seen suf (5 * suf.length + 1) seen' suf' rank' := by
  have hlog := c.entering?_back focus
  obtain ⟨F, K, silent, rfl⟩ := move.silent_of_due (by rw [focus]; rfl)
  rw [focus, stack] at silent
  cases silent with
  | exit _ _ _ hx => rw [exit] at hx; cases hx
  | resume =>
    refine ⟨seen, suf, 5 * suf.length, ?_, rfl, List.Subset.refl _, by rw [hlog]; rfl, .inl (by omega)⟩
    refine .waiting seen suf pre rfl ?_ list account
    rw [go_stack, resume]
    rfl

theorem Stage.step (h : c.Stage w base G s seen suf rank) (hc : w.HasCallback) (acct : c.Account w base G s)
    (allows : ∀ x, w.exchange? s = some x → c.Allows w s x) (firm : ∀ x, w.exchange? s = some x → c.Firm w s x)
    (nodes : ∀ v ∈ suf, v.isNode s.store = v.isNode base) (sound : s.Sound) (move : Moves w s t) :
    (∃ seen' suf' rank', c.Goes w base G s t seen suf rank seen' suf' rank') ∨ c.Finishes G s t seen suf := by
  cases h with
  | waiting _ _ pre focus stack list account => exact goes_waiting focus stack list account acct nodes move
  | entering _ suf pre o p focus index stack list node account =>
    exact .inl (goes_entering hc focus index stack list node account acct allows move)
  | inside seen _ v o g p inner within pending => exact .inl (goes_inside within pending allows firm sound move)
  | leaving seen _ v o g p focus stack exit pending =>
    exact .inl (goes_leaving focus stack exit pending acct allows move)
  | back _ _ pre g p focus stack exit list resume account =>
    exact .inl (goes_back focus stack exit list resume account move)

theorem Stage.active (h : c.Stage w base G s seen suf rank) : c.Active s := by
  have top : ∀ {p : Int}, s.stack = c.frame p :: c.rest → c.Active s := fun e => by simp [Active, e]
  cases h with
  | waiting _ _ _ _ stack => exact top stack
  | entering _ _ _ _ _ _ _ stack => exact top stack
  | leaving _ _ _ _ _ _ _ stack => exact top stack
  | back _ _ _ _ _ _ stack => exact top stack
  | inside _ _ _ _ _ _ inner within =>
    rw [Active, within.stack, List.length_append, List.length_cons, List.length_cons]
    omega

theorem Inv.step {whole : List Value} {log : List (Value × List Value)} (h : c.Inv w base G s whole log seen suf rank)
    (hc : w.HasCallback) (acct : c.Account w base G s) (allows : ∀ x, w.exchange? s = some x → c.Allows w s x)
    (firm : ∀ x, w.exchange? s = some x → c.Firm w s x) :
    (∃ seen' suf' rank', c.Inv w base G (w.step s) whole (log ++ (c.entering? s).toList) seen' suf' rank' ∧
      (rank' < rank ∨ rank' = rank ∧ c.rest.length + 1 < s.stack.length)) ∨
    c.Done base G (w.step s) whole (log ++ (c.entering? s).toList) := by
  have move := w.step_moves s
  rcases h.stage.step hc acct allows firm h.nodes h.sound move with ⟨seen', suf', rank', goes⟩ | ends
  · refine .inl ⟨seen', suf', rank', ⟨goes.stage, h.parts.trans goes.parts.symm, fun v hv => ?_, ?_,
      move.sound h.sound⟩, goes.rank⟩
    · have hmem := goes.ahead hv
      rcases move.store with e | ⟨x, hx, e⟩
      · rw [e, h.nodes v hmem]
      · have hbefore := w.exchange?_before hx
        have hlist : v ∈ c.items x.before := by rw [hbefore]; exact h.stage.suffix.subset hmem
        rw [e, (allows x hx).nodes v hlist, hbefore, h.nodes v hmem]
    · rw [List.append_assoc, goes.log, h.log]
  · have hlog := h.log
    rw [ends.ahead, nodeSplits, List.append_nil] at hlog
    have hseen : whole = seen := by rw [h.parts, ends.ahead, List.append_nil]
    refine .inr ⟨ends.focus, ends.stack, ?_, hseen ▸ ends.account⟩
    rw [ends.log, hlog]
    exact List.append_nil _

end

/-! ## The whole scan -/

section

variable {c : Scan} {w : Walker σ ν} {s : State σ ν} {G : List Value → List Value → Prop} (hc : w.HasCallback)
  (focus : s.focus = .next) (stack : s.stack = c.frame 0 :: c.rest) (sound : s.Sound)
  (allows : ∀ n, c.Lasts w s (n + 1) → ∀ x, w.exchange? (w.run n s) = some x → c.Allows w (w.run n s) x)
  (firm : ∀ n, c.Lasts w s (n + 1) → ∀ x, w.exchange? (w.run n s) = some x → c.Firm w (w.run n s) x)
  (empty : G [] []) (acct : ∀ n, c.Lasts w s (n + 1) → c.Account w s.store G (w.run n s))

theorem Lasts.succ {n : Nat} (h : c.Lasts w s n) (active : c.Active (w.run n s)) : c.Lasts w s (n + 1) := by
  intro m hm
  rcases Nat.lt_succ_iff_lt_or_eq.mp hm with hm | rfl
  · exact h m hm
  · exact active

theorem Lasts.of_succ {n : Nat} (h : c.Lasts w s (n + 1)) : c.Lasts w s n := fun m hm => h m (Nat.lt_succ_of_lt hm)

end

end Scan

namespace Scan

instance (c : Scan) (s : State σ ν) : Decidable (c.Active s) := inferInstanceAs (Decidable (_ < _))

instance (c : Scan) (w : Walker σ ν) (s : State σ ν) (n : Nat) : Decidable (c.Over w s n) :=
  inferInstanceAs (Decidable ((∀ m < n, c.Active (w.run m s)) ∧ ¬ c.Active (w.run n s)))

instance (c : Scan) (w : Walker σ ν) (s : State σ ν) : Decidable (c.Decides w s) := inferInstanceAs (Decidable (_ ∧ _))

variable (c : Scan) (w : Walker σ ν) (s : State σ ν)

variable {c w s}

end Scan

/-- A node with a list of three nodes and a number; the second of them has a child. -/
def siblings : Store := ⟨#[
  { fields := .ofList [("type", .text "Block"), ("body", .container .list 1)] },
  { items := [.container .mapping 2, .int 7, .container .mapping 3, .container .mapping 2] },
  { fields := .ofList [("type", .text "Name")] },
  { fields := .ofList [("type", .text "Call"), ("callee", .container .mapping 2)] }]⟩

/-- A node with a list of two nodes, the first of which has a list of its own and a child. -/
def answered : Store := ⟨#[
  { fields := .ofList [("type", .text "Block"), ("body", .container .list 1)] },
  { items := [.container .mapping 2, .container .mapping 5] },
  { fields := .ofList [("type", .text "Call"), ("data", .container .list 3), ("callee", .container .mapping 4)] },
  { items := [.action .proceed, .int 1] },
  { fields := .ofList [("type", .text "Name")] },
  { fields := .ofList [("type", .text "Empty")] }]⟩

end TreeWalk
