/-
  TreeWalk.Proofs.Ancestors — every visit has a list of ancestors of its own.

  The walk with lists as objects (`TreeWalk.Proofs.Trails`) keeps account of which call was given which list. A list goes
  to the `enter` of a visit and then to its `leave`; while the children of the visit are walked it reads as `enter` left
  it (`Desk.Entered`), and each child has a new list that starts from it.
  - `Desk.Custody.step`: one step keeps the account.
  - `Walker.isolated_desk`: no list is shared between visits, in every state of every walk.
  - `ancestors_isolated`: this is the walk, and a list that no callback edits is the way from the root to the parent, and
    stays so.
-/

import TreeWalk.Proofs.Trails

namespace TreeWalk

variable {σ ν : Type}

/-! ## Who was given which list -/

/-- A list that is handed out again goes from the `enter` of a visit to its `leave`, as `enter` left it. -/
def Handing.Precedes (h h' : Handing σ ν) : Prop :=
  h.trail = h'.trail → h.call.phase = .enter ∧ h'.call.phase = .leave ∧ h'.call.mark = h.call.mark ∧
    h'.call.ancestors = h.reply.ancestors

/-- The visit was entered and not left. -/
def UnderWay (A : Aim) (K : List Task) (v : Visit) : Prop := (∃ g, .visit v g ∈ K) ∨ ∃ g, A = .leave v g

/-- The list of the visit went to its own `enter` and to no other callback, and reads as that left it. -/
def Desk.Entered (w : Walker σ ν) (d : Desk σ ν) (v : Visit) : Prop :=
  (∀ h ∈ d.handed, h.trail = v.trail →
    h.call.phase = .enter ∧ h.call.mark = v.mark ∧ h.reply.ancestors = d.read v.trail) ∧
    (w.enter.isSome → ∃ h ∈ d.handed, h.trail = v.trail)

structure Desk.Custody (w : Walker σ ν) (d : Desk σ ν) : Prop where
  placed : ∀ h ∈ d.handed, h.trail < d.trails.length
  unhanded : ∀ v, d.aim = .enter v → ∀ h ∈ d.handed, h.trail ≠ v.trail
  entered : ∀ v, UnderWay d.aim d.tasks v → d.Entered w v
  owned : d.handed.Pairwise Handing.Precedes
  paired : w.enter.isSome → ∀ h ∈ d.handed, h.call.phase = .leave →
    ∃ h' ∈ d.handed, h'.trail = h.trail ∧ h'.call.phase = .enter
  kept : ∀ h ∈ d.handed, (∀ h' ∈ d.handed, h'.trail = h.trail → h'.reply.ancestors = h'.call.ancestors) →
    d.read h.trail = h.call.ancestors

theorem Shape.not_enter {A A' : Aim} {K K' : List Task} (shape : Shape A K A' K') (v : Visit) : A' ≠ .enter v := by
  rintro rfl
  cases shape with
  | stay _ _ h => cases h

theorem Shape.underWay {A A' : Aim} {K K' : List Task} (shape : Shape A K A' K') {v : Visit} (h : UnderWay A' K' v) :
    (∃ g, .visit v g ∈ K) ∨ A = .enter v := by
  rcases h with ⟨g', hm⟩ | ⟨g', rfl⟩
  · cases shape with
    | descend =>
      simp only [List.mem_cons, reduceCtorEq, false_or, Task.visit.injEq] at hm
      rcases hm with ⟨rfl, -⟩ | hm
      · exact .inr rfl
      · exact .inl ⟨g', hm⟩
    | skip => exact .inl ⟨g', hm⟩
    | stay => exact .inl ⟨g', hm⟩
    | pop => exact .inl ⟨g', List.mem_cons_of_mem _ hm⟩
    | change _ _ _ hnew =>
      rcases List.mem_cons.mp hm with rfl | hm
      · cases hnew
      · exact .inl ⟨g', List.mem_cons_of_mem _ hm⟩
    | scan =>
      simp only [List.mem_cons, reduceCtorEq, false_or] at hm
      exact .inl ⟨g', List.mem_cons_of_mem _ hm⟩
    | close => exact .inl ⟨g', List.mem_cons_of_mem _ hm⟩
    | stop => cases hm
  · cases shape with
    | skip => exact .inr rfl
    | stay _ _ hnone => cases hnone
    | close => exact .inl ⟨g', List.mem_cons_self⟩

theorem Desk.Entered.later {w : Walker σ ν} {d d' : Desk σ ν} {v : Visit} (h : d.Entered w v)
    (le : d.handed ⊆ d'.handed) (new : ∀ x ∈ d'.handed, x.trail = v.trail → x ∈ d.handed)
    (read : d'.read v.trail = d.read v.trail) : d'.Entered w v := by
  refine ⟨fun x hx ht => ?_, fun he => ?_⟩
  · obtain ⟨phase, mark, reply⟩ := h.1 x (new x hx ht) ht
    exact ⟨phase, mark, reply.trans read.symm⟩
  · obtain ⟨x, hx, ht⟩ := h.2 he
    exact ⟨x, le hx, ht⟩

/-- The call of a visit was handed its list, and no other list changed. -/
structure Desk.Hands (d d' : Desk σ ν) (phase : Phase) (v : Visit) (x : Handing σ ν) : Prop where
  handed : d'.handed = d.handed ++ [x]
  trail : x.trail = v.trail
  call : x.call = d.callOf v phase
  read : d'.read v.trail = x.reply.ancestors
  other : ∀ i, i ≠ v.trail → d'.read i = d.read i
  length : d'.trails.length = d.trails.length

section

variable {w : Walker σ ν} {base : List Value} {d d' : Desk σ ν} {phase : Phase} {v : Visit} {x : Handing σ ν}

theorem Walker.act_hands (hv : v.trail < d.trails.length) (f : Callback σ ν) (phase : Phase) :
    ∃ x, d.Hands (w.act d (.call f phase v)) phase v x :=
  ⟨_, rfl, rfl, rfl, readTrail_set hv _, fun _ hi => readTrail_set_ne hi.symm _, List.length_set⟩

namespace Desk.Hands

theorem old (h : d.Hands d' phase v x) : d.handed ⊆ d'.handed := by
  rw [h.handed]
  exact List.subset_append_left _ _

theorem mem (h : d.Hands d' phase v x) : x ∈ d'.handed := by
  rw [h.handed]
  exact List.mem_append_right _ (List.mem_singleton_self x)

theorem either (h : d.Hands d' phase v x) {y : Handing σ ν} (hy : y ∈ d'.handed) : y ∈ d.handed ∨ y = x := by
  rw [h.handed] at hy
  rcases List.mem_append.mp hy with hy | hy
  · exact .inl hy
  · exact .inr (List.mem_singleton.mp hy)

theorem phase_eq (h : d.Hands d' phase v x) : x.call.phase = phase := by rw [h.call]; rfl

theorem mark_eq (h : d.Hands d' phase v x) : x.call.mark = v.mark := by rw [h.call]; rfl

theorem ancestors_eq (h : d.Hands d' phase v x) : x.call.ancestors = d.read v.trail := by rw [h.call]; rfl

end Desk.Hands

namespace Desk.Custody

/-- What a call is handed was in nobody's hands before, or in those of the `enter` of the same visit. -/
theorem prior (h : d.Custody w) (calls : Calls d.aim phase v) {y : Handing σ ν} (hy : y ∈ d.handed)
    (ht : y.trail = v.trail) :
    phase = .leave ∧ y.call.phase = .enter ∧ y.call.mark = v.mark ∧ y.reply.ancestors = d.read v.trail := by
  generalize ha : d.aim = A at calls
  cases calls with
  | enter => exact absurd ht (h.unhanded v ha y hy)
  | leave _ g => exact ⟨rfl, (h.entered v (.inr ⟨g, ha⟩)).1 y hy ht⟩

theorem entered_call (h : d.Custody w) (hands : d.Hands d' phase v x) (calls : Calls d.aim phase v)
    (hbelow : ∀ t ∈ d.tasks, t.trail < v.trail) {u : Visit} (hu : (∃ g, .visit u g ∈ d.tasks) ∨ d.aim = .enter u) :
    d'.Entered w u := by
  rcases hu with ⟨g, hg⟩ | hu
  · have hne : u.trail ≠ v.trail := Nat.ne_of_lt (hbelow _ hg)
    refine (h.entered u (.inl ⟨g, hg⟩)).later hands.old (fun y hy ht => ?_) (hands.other _ hne)
    rcases hands.either hy with hy | rfl
    · exact hy
    · exact absurd (ht.symm.trans hands.trail) hne
  · rw [hu] at calls
    cases calls
    refine ⟨fun y hy ht => ?_, fun _ => ⟨x, hands.mem, hands.trail⟩⟩
    rcases hands.either hy with hy | rfl
    · exact absurd ht (h.unhanded v hu y hy)
    · exact ⟨hands.phase_eq, hands.mark_eq, hands.read.symm⟩

theorem owned_call (h : d.Custody w) (hands : d.Hands d' phase v x) (calls : Calls d.aim phase v) :
    d'.handed.Pairwise Handing.Precedes := by
  rw [hands.handed]
  refine List.pairwise_append.mpr ⟨h.owned, List.pairwise_singleton _ _, fun y hy z hz ht => ?_⟩
  cases List.mem_singleton.mp hz
  obtain ⟨hleave, henter, hmark, hreply⟩ := h.prior calls hy (ht.trans hands.trail)
  exact ⟨henter, hands.phase_eq.trans hleave, hands.mark_eq.trans hmark.symm, hands.ancestors_eq.trans hreply.symm⟩

theorem paired_call (h : d.Custody w) (hands : d.Hands d' phase v x) (calls : Calls d.aim phase v)
    (hasEnter : w.enter.isSome) {y : Handing σ ν} (hy : y ∈ d'.handed) (hleave : y.call.phase = .leave) :
    ∃ z ∈ d'.handed, z.trail = y.trail ∧ z.call.phase = .enter := by
  rcases hands.either hy with hy | rfl
  · obtain ⟨z, hz, hz'⟩ := h.paired hasEnter y hy hleave
    exact ⟨z, hands.old hz, hz'⟩
  · generalize ha : d.aim = A at calls
    cases calls with
    | enter =>
      rw [hands.phase_eq] at hleave
      cases hleave
    | leave _ g =>
      have hentered := h.entered v (.inr ⟨g, ha⟩)
      obtain ⟨z, hz, ht⟩ := hentered.2 hasEnter
      exact ⟨z, hands.old hz, ht.trans hands.trail.symm, (hentered.1 z hz ht).1⟩

theorem kept_call (h : d.Custody w) (hands : d.Hands d' phase v x) {y : Handing σ ν} (hy : y ∈ d'.handed)
    (unedited : ∀ z ∈ d'.handed, z.trail = y.trail → z.reply.ancestors = z.call.ancestors) :
    d'.read y.trail = y.call.ancestors := by
  have before : y ∈ d.handed → d.read y.trail = y.call.ancestors :=
    fun hy => h.kept y hy fun z hz => unedited z (hands.old hz)
  by_cases ht : y.trail = v.trail
  · have hsame : d'.read v.trail = d.read v.trail := by
      rw [hands.read, unedited x hands.mem (hands.trail.trans ht.symm), hands.ancestors_eq]
    rw [ht] at before ⊢
    rw [hsame]
    rcases hands.either hy with hy | rfl
    · exact before hy
    · exact hands.ancestors_eq.symm
  · rw [hands.other _ ht]
    rcases hands.either hy with hy | rfl
    · exact before hy
    · exact absurd hands.trail ht

theorem call (h : d.Custody w) (tidy : Tidy base d.trails d.aim d.tasks) (calls : Calls d.aim phase v)
    (f : Callback σ ν) : (w.act d (.call f phase v)).Custody w := by
  obtain ⟨hlt, hbelow⟩ := tidy.aim v calls.visit?
  obtain ⟨x, hands⟩ := Walker.act_hands (w := w) hlt f phase
  have shape := calls.shape (f (d.callOf v phase) d.store d.memory).store d.tasks
    (f (d.callOf v phase) d.store d.memory).outcome
  refine ⟨fun y hy => ?_, fun u hu => absurd hu (shape.not_enter u),
    fun u hu => h.entered_call hands calls hbelow (shape.underWay hu), h.owned_call hands calls,
    fun he y hy => h.paired_call hands calls he hy, fun y hy => h.kept_call hands hy⟩
  rw [hands.length]
  rcases hands.either hy with hy | rfl
  · exact h.placed y hy
  · rw [hands.trail]
    exact hlt

/-- A child that the walk comes upon gets a list that nobody was handed. -/
theorem reach (h : d.Custody w) (tidy : Tidy base d.trails d.aim d.tasks) {top top' : Task} {K : List Task}
    (tasks : d.tasks = top :: K) (new : top'.isVisit = false) (child : Value) (key : String) (index : Option Nat)
    (parent : Value) (trail : Nat) : (w.act d (.reach child key index parent trail (top' :: K))).Custody w := by
  have hread : ∀ i < d.trails.length, (w.act d (.reach child key index parent trail (top' :: K))).read i = d.read i :=
    fun i hi => readTrail_append hi _
  refine ⟨fun y hy => ?_, fun u hu y hy => ?_, fun u hu => ?_, h.owned, h.paired, fun y hy unedited => ?_⟩
  · show y.trail < (d.trails ++ [d.read trail ++ [parent]]).length
    rw [List.length_append]
    exact Nat.lt_succ_of_lt (h.placed y hy)
  · cases hu
    exact Nat.ne_of_lt (h.placed y hy)
  · rcases hu with ⟨g, hm⟩ | ⟨g, hu⟩
    · rcases List.mem_cons.mp hm with rfl | hm
      · cases new
      · have hmem : .visit u g ∈ d.tasks := by
          rw [tasks]
          exact List.mem_cons_of_mem _ hm
        exact (h.entered u (.inl ⟨g, hmem⟩)).later (List.Subset.refl _) (fun _ hy _ => hy)
          (hread _ (tidy.bounded _ hmem))
    · cases hu
  · rw [hread _ (h.placed y hy)]
    exact h.kept y hy unedited

/-- A silent move hands out nothing. Without `enter` a visit is under way with a list that is as it was made. -/
theorem go (h : d.Custody w) {A : Aim} {K : List Task} (due : w.due d.forget.focus = none)
    (shape : Shape d.aim d.tasks A K) : (w.act d (.go A K)).Custody w := by
  refine ⟨h.placed, fun u hu => absurd hu (shape.not_enter u), fun u hu => ?_, h.owned, h.paired, h.kept⟩
  rcases shape.underWay hu with hm | hu
  · exact h.entered u (.inl hm)
  · refine ⟨fun y hy ht => absurd ht (h.unhanded u hu y hy), fun hasEnter => ?_⟩
    have hnone : w.due (d.aim.forget d.trails) = none := due
    rw [hu] at hnone
    rw [Option.map_eq_none_iff.mp hnone] at hasEnter
    cases hasEnter

theorem step (h : d.Custody w) (tidy : Tidy base d.trails d.aim d.tasks) : (w.deskStep d).Custody w := by
  have does := w.deed_does d
  unfold Walker.deskStep
  generalize w.deed d = deed at does
  cases does with
  | go due _ shape => exact h.go due shape
  | reach top top' _ tasks _ new => exact h.reach tidy tasks new.1 _ _ _ _ _
  | call calls => exact h.call tidy calls _

end Desk.Custody

/-- The list of a child starts as the list of its parent reads, and then the parent. -/
theorem Tidy.fresh_step (h : Tidy base d.trails d.aim d.tasks) {v : Visit} (hv : (w.deskStep d).aim = .enter v) :
    (w.deskStep d).read v.trail = startOf base (w.deskStep d).trails (w.deskStep d).tasks := by
  have does := w.deed_does d
  unfold Walker.deskStep at hv ⊢
  generalize w.deed d = deed at does hv
  cases does with
  | go _ _ shape => exact absurd hv (shape.not_enter v)
  | call calls => exact absurd hv ((calls.shape _ _ _).not_enter v)
  | @reach child key index parent trail top top' K aim tasks old new =>
    cases hv
    rw [tasks] at h
    have waiting := h.reach old new
    calc readTrail (d.trails ++ [d.read trail ++ [parent]]) d.trails.length
        = d.read trail ++ [parent] := readTrail_new _
      _ = startOf base d.trails K := by
        rw [← new.2.1, ← new.2.2]
        exact waiting.fitted.1 new.1
      _ = startOf base d.trails (top' :: K) := (startOf_cons new.1).symm
      _ = startOf base (d.trails ++ [d.read trail ++ [parent]]) (top' :: K) :=
        (startOf_congr (waiting.append_same _)).symm

end

/-! ## One step -/

section

variable {w : Walker σ ν} {base : List Value} {d : Desk σ ν}

theorem Walker.handed_step (w : Walker σ ν) (d : Desk σ ν) : d.handed <+: (w.deskStep d).handed := by
  unfold Walker.deskStep
  cases w.deed d with
  | go => exact List.prefix_rfl
  | reach => exact List.prefix_rfl
  | call => exact List.prefix_append _ _

theorem Walker.trails_step (w : Walker σ ν) (d : Desk σ ν) : d.trails.length ≤ (w.deskStep d).trails.length := by
  unfold Walker.deskStep
  cases w.deed d with
  | go => exact Nat.le_refl _
  | reach => exact List.length_append ▸ Nat.le_add_right _ _
  | call => exact Nat.le_of_eq List.length_set.symm

theorem Walker.exchanges_step (h : d.handed.map Handing.toExchange = d.forget.exchanges) :
    (w.deskStep d).handed.map Handing.toExchange = (w.deskStep d).forget.exchanges := by
  unfold Walker.deskStep
  cases w.deed d with
  | go => exact h
  | reach => exact h
  | call f phase v =>
    show (d.handed ++ [_]).map Handing.toExchange = (w.after (d.callOf v phase) _ d.forget).exchanges
    rw [List.map_append, h, w.after_exchanges]
    rfl

/-- Lists are changed by the callbacks they are given to, and by nothing else. -/
theorem Tidy.writes (h : Tidy base d.trails d.aim d.tasks) {i : Nat} (hi : i < d.trails.length) :
    (w.deskStep d).read i = d.read i ∨
      ∃ x, (w.deskStep d).handed = d.handed ++ [x] ∧ x.trail = i ∧ x.call.ancestors = d.read i ∧
        (w.deskStep d).read i = x.reply.ancestors := by
  have does := w.deed_does d
  unfold Walker.deskStep
  generalize w.deed d = deed at does
  cases does with
  | go => exact .inl rfl
  | reach => exact .inl (readTrail_append hi _)
  | @call f phase v calls =>
    obtain ⟨x, hands⟩ := Walker.act_hands (w := w) (h.aim v calls.visit?).1 f phase
    by_cases hv : i = v.trail
    · subst hv
      exact .inr ⟨x, hands.handed, hands.trail, hands.ancestors_eq, hands.read⟩
    · exact .inl (hands.other i hv)

end

theorem Moves.nested {w : Walker σ ν} {base : List Value} {s t : State σ ν} (h : Moves w s t)
    (kept : ∀ x ∈ t.exchanges, x.reply.ancestors = x.call.ancestors) (fits : s.focus.Fits base s.stack)
    (nested : Nested base s.stack) : t.focus.Fits base t.stack ∧ Nested base t.stack := by
  cases h with
  | silent _ move => exact move.nested fits nested
  | raises => exact ⟨trivial, trivial⟩
  | exits => exact ⟨trivial, trivial⟩
  | @skips f o v r focus =>
    have ha : r.ancestors = o.ancestors := kept _ (w.mem_after _ r s)
    rw [focus] at fits
    exact ⟨ha.trans fits, nested⟩
  | @descends f o v r focus =>
    have ha : r.ancestors = o.ancestors := kept _ (w.mem_after _ r s)
    rw [focus] at fits
    have hfits : o.ancestors = lineage base (marks s.stack) := fits
    refine ⟨trivial, ?_, ha.trans hfits, nested⟩
    show r.ancestors ++ [o.node] = lineage base (marks (.visit { o with ancestors := r.ancestors } _ :: s.stack))
    rw [lineage_visit, ha, hfits]
  | leaves => exact ⟨trivial, nested⟩

/-! ## Every walk -/

/-- What the lists of the uppermost nodes start as. A root that is no node comes before them. -/
def baseOf (tree : Value) (store : Store) : List Value := if tree.isNode store then [] else [tree]

/-- No list is shared between visits. -/
structure Desk.Isolated (w : Walker σ ν) (base : List Value) (d : Desk σ ν) : Prop where
  /-- A list goes to the `enter` of one visit and then, as that left it, to its `leave`, and to no other call. -/
  owned : d.handed.Pairwise Handing.Precedes
  paired : w.enter.isSome → ∀ h ∈ d.handed, h.call.phase = .leave →
    ∃ h' ∈ d.handed, h'.trail = h.trail ∧ h'.call.phase = .enter
  /-- A node that the walk came upon has a list that no call was given and that nothing else holds. It reads as the list
      of its parent does, and then the parent. -/
  child : ∀ v, d.aim = .enter v → (∀ h ∈ d.handed, h.trail ≠ v.trail) ∧ (∀ t ∈ d.tasks, t.trail ≠ v.trail) ∧
    d.read v.trail = startOf base d.trails d.tasks
  /-- The list of a node whose children are walked reads as its own `enter` left it. -/
  parent : ∀ v, UnderWay d.aim d.tasks v → d.Entered w v
  /-- Only the callback that is given a list changes it. -/
  writes : ∀ i < d.trails.length, (w.deskStep d).read i = d.read i ∨
    ∃ x, (w.deskStep d).handed = d.handed ++ [x] ∧ x.trail = i ∧ x.call.ancestors = d.read i ∧
      (w.deskStep d).read i = x.reply.ancestors
  /-- A list that was not edited still reads as it was handed out. -/
  kept : ∀ h ∈ d.handed, (∀ h' ∈ d.handed, h'.trail = h.trail → h'.reply.ancestors = h'.call.ancestors) →
    d.read h.trail = h.call.ancestors

namespace Walker

variable (w : Walker σ ν) (tree : Value) (store : Store) (memory : σ)

theorem forget_start : (w.deskStart tree store memory).forget = w.start tree store memory := by
  unfold deskStart start
  split
  · rfl
  · split <;> rfl

theorem tidy_start : Tidy (baseOf tree store) (w.deskStart tree store memory).trails
    (w.deskStart tree store memory).aim (w.deskStart tree store memory).tasks := by
  unfold deskStart
  split
  · exact ⟨nofun, .nil, trivial, nofun⟩
  · split
    · refine ⟨nofun, .nil, trivial, fun v hv => ?_⟩
      cases hv
      exact ⟨Nat.zero_lt_one, nofun⟩
    · rename_i hn
      refine ⟨List.forall_mem_singleton.mpr Nat.zero_lt_one, List.pairwise_singleton _ _, ⟨fun _ => ?_, trivial⟩, nofun⟩
      exact (if_neg hn).symm

theorem handed_start : (w.deskStart tree store memory).handed = [] := by
  unfold deskStart
  split
  · rfl
  · split <;> rfl

theorem not_underWay_start (v : Visit) :
    ¬ UnderWay (w.deskStart tree store memory).aim (w.deskStart tree store memory).tasks v := by
  unfold deskStart
  rintro (⟨g, hm⟩ | ⟨g, ha⟩)
  · split at hm
    · cases hm
    · split at hm
      · cases hm
      · cases List.mem_singleton.mp hm
  · split at ha
    · cases ha
    · split at ha
      · cases ha
      · cases ha

theorem custody_start : (w.deskStart tree store memory).Custody w := by
  have hnone := w.handed_start tree store memory
  refine ⟨?_, ?_, fun v hv => absurd hv (w.not_underWay_start tree store memory v), ?_, ?_, ?_⟩
  · rw [hnone]
    exact List.forall_mem_nil _
  · intro v _
    rw [hnone]
    exact List.forall_mem_nil _
  · rw [hnone]
    exact .nil
  · intro _
    rw [hnone]
    exact List.forall_mem_nil _
  · rw [hnone]
    exact List.forall_mem_nil _

theorem fresh_start {v : Visit} (hv : (w.deskStart tree store memory).aim = .enter v) :
    (w.deskStart tree store memory).read v.trail =
      startOf (baseOf tree store) (w.deskStart tree store memory).trails (w.deskStart tree store memory).tasks := by
  unfold deskStart at hv ⊢
  split at hv
  · cases hv
  · split at hv
    · rename_i hcallback hn
      cases hv
      rw [if_neg hcallback, if_pos hn]
      exact (if_pos hn).symm
    · cases hv

theorem desk_invariant (n : Nat) :
    let d := w.desk n tree store memory
    Tidy (baseOf tree store) d.trails d.aim d.tasks ∧ d.Custody w ∧
      (∀ v, d.aim = .enter v → d.read v.trail = startOf (baseOf tree store) d.trails d.tasks) ∧
      d.forget = w.run n (w.start tree store memory) ∧ d.handed.map Handing.toExchange = d.forget.exchanges := by
  induction n with
  | zero =>
    refine ⟨w.tidy_start tree store memory, w.custody_start tree store memory,
      fun v hv => w.fresh_start tree store memory hv, w.forget_start tree store memory, ?_⟩
    show (w.deskStart tree store memory).handed.map Handing.toExchange = (w.deskStart tree store memory).forget.exchanges
    rw [w.handed_start, w.forget_start, w.start_exchanges]
    rfl
  | succ n ih =>
    obtain ⟨tidy, custody, -, hforget, hexchanges⟩ := ih
    rw [desk_succ]
    refine ⟨tidy_step tidy, custody.step tidy, fun v hv => tidy.fresh_step hv, ?_, exchanges_step hexchanges⟩
    rw [tidy.forget_step, hforget, w.run_succ]

theorem isolated_desk (n : Nat) : (w.desk n tree store memory).Isolated w (baseOf tree store) := by
  obtain ⟨tidy, custody, fresh, -, -⟩ := w.desk_invariant tree store memory n
  refine ⟨custody.owned, custody.paired, fun v hv => ⟨custody.unhanded v hv, fun t ht => ?_, fresh v hv⟩,
    custody.entered, fun i hi => tidy.writes hi, custody.kept⟩
  have hvisit : (w.desk n tree store memory).aim.visit? = some v := by rw [hv]; rfl
  exact Nat.ne_of_lt ((tidy.aim v hvisit).2 t ht)

theorem read_desk {m n : Nat} (le : m ≤ n) {i : Nat} (hi : i < (w.desk m tree store memory).trails.length)
    (unedited : ∀ h ∈ (w.desk n tree store memory).handed, h.trail = i → h.reply.ancestors = h.call.ancestors) :
    i < (w.desk n tree store memory).trails.length ∧
      (w.desk n tree store memory).read i = (w.desk m tree store memory).read i := by
  induction le with
  | refl => exact ⟨hi, rfl⟩
  | @step n le ih =>
    rw [desk_succ] at unedited ⊢
    have hhanded := w.handed_step (w.desk n tree store memory)
    obtain ⟨hlt, hread⟩ := ih fun h hh => unedited h (hhanded.subset hh)
    refine ⟨Nat.lt_of_lt_of_le hlt (w.trails_step _), ?_⟩
    rcases (w.isolated_desk tree store memory n).writes i hlt with hsame | ⟨x, hx, ht, hcall, hreply⟩
    · rw [hsame, hread]
    · have hmem : x ∈ (w.deskStep (w.desk n tree store memory)).handed := by
        rw [hx]
        exact List.mem_append_right _ (List.mem_singleton_self x)
      rw [hreply, unedited x hmem ht, hcall, hread]

theorem nested_start : (w.start tree store memory).focus.Fits (baseOf tree store) (w.start tree store memory).stack ∧
    Nested (baseOf tree store) (w.start tree store memory).stack := by
  unfold start
  split
  · exact ⟨trivial, trivial⟩
  · split
    · rename_i hn
      rw [baseOf, if_pos hn]
      exact ⟨rfl, trivial⟩
    · rename_i hn
      rw [baseOf, if_neg hn]
      exact ⟨trivial, rfl, trivial⟩

theorem nested_run (n : Nat)
    (kept : ∀ x ∈ (w.run n (w.start tree store memory)).exchanges, x.reply.ancestors = x.call.ancestors) :
    (w.run n (w.start tree store memory)).focus.Fits (baseOf tree store) (w.run n (w.start tree store memory)).stack ∧
      Nested (baseOf tree store) (w.run n (w.start tree store memory)).stack := by
  induction n with
  | zero => exact w.nested_start tree store memory
  | succ n ih =>
    rw [w.run_succ] at kept ⊢
    have move := w.step_moves (w.run n (w.start tree store memory))
    obtain ⟨fits, nested⟩ := ih fun x hx => kept x (move.exchanges.subset hx)
    exact move.nested kept fits nested

end Walker

/-- Lists of ancestors are isolated, whatever the callbacks do to the lists they are given. The walk is the walk with
    lists as objects, in which no list is shared between visits. If no callback edits its list, then every list that
    was given to a call still is the way from the root to the parent as it was at that time. -/
theorem ancestors_isolated (w : Walker σ ν) (tree : Value) (store : Store) (memory : σ) (n : Nat) :
    (w.desk n tree store memory).forget = w.run n (w.start tree store memory) ∧
      (w.desk n tree store memory).handed.map Handing.toExchange = (w.walk n tree store memory).exchanges ∧
      (w.desk n tree store memory).Isolated w (baseOf tree store) ∧
      ((∀ h ∈ (w.desk n tree store memory).handed, h.reply.ancestors = h.call.ancestors) →
        ∀ m ≤ n, ∀ v, (w.desk m tree store memory).aim.visit? = some v →
          (w.desk n tree store memory).read v.trail =
            lineage (baseOf tree store) (marks (w.run m (w.start tree store memory)).stack)) := by
  obtain ⟨-, -, -, hforget, hexchanges⟩ := w.desk_invariant tree store memory n
  refine ⟨hforget, ?_, w.isolated_desk tree store memory n, fun unedited m le v hv => ?_⟩
  · rw [hexchanges, hforget, Walker.walk, toRun_exchanges]
  · obtain ⟨tidy, -, -, hforget', -⟩ := w.desk_invariant tree store memory m
    have kept : ∀ x ∈ (w.run m (w.start tree store memory)).exchanges, x.reply.ancestors = x.call.ancestors := by
      intro x hx
      have hx' := (w.run_exchanges_mono le _).subset hx
      rw [← hforget, ← hexchanges] at hx'
      obtain ⟨h, hh, rfl⟩ := List.mem_map.mp hx'
      exact unedited h hh
    have fits := (w.nested_run tree store memory m kept).1
    rw [(w.read_desk tree store memory le (tidy.aim v hv).1 fun h hh _ => unedited h hh).2]
    rw [← hforget'] at fits ⊢
    have hfocus : (w.desk m tree store memory).forget.focus =
        (w.desk m tree store memory).aim.forget (w.desk m tree store memory).trails := rfl
    rw [hfocus] at fits
    generalize (w.desk m tree store memory).aim = A at hv fits
    cases A with
    | enter u =>
      cases hv
      exact fits
    | leave u g =>
      cases hv
      exact fits
    | next => cases hv
    | back g => cases hv
    | done o => cases hv

def family : Store := ⟨#[
  { fields := .ofList [("type", .text "Parent"), ("children", .container .list 1)] },
  { items := [.container .mapping 2, .container .mapping 3] },
  { fields := .ofList [("type", .text "Child")] },
  { fields := .ofList [("type", .text "Child")] }]⟩

/-- Writes on its list when it enters a node, and empties it when it leaves the node. -/
def scribbling : Walker Unit Unit where
  enter := some fun c s m => { c.answer s m (.ok .null) with ancestors := c.ancestors ++ [.text "entered"] }
  leave := some fun c s m => { c.answer s m (.ok .null) with ancestors := [] }
  reserved := []
  logging := false
  colored := false
  debug := false

-- What the parent writes reaches its children and its own `leave`; what a child writes reaches nobody but itself.
example : (scribbling.desk 30 (.container .mapping 0) family ()).handed.map (fun h => (h.trail, h.call.ancestors)) =
    [(0, []),
      (1, [.text "entered", .container .mapping 0]),
      (1, [.text "entered", .container .mapping 0, .text "entered"]),
      (2, [.text "entered", .container .mapping 0]),
      (2, [.text "entered", .container .mapping 0, .text "entered"]),
      (0, [.text "entered"])] := by decide +kernel

end TreeWalk
