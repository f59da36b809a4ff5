/-
  TreeWalk.Proofs.Unfolding — a walk that only looks lists the unfolding of its tree.

  The unfolding of a tree has one occurrence for every way to a node, so a node that is shared is there more than once,
  and a cycle makes it infinite. `Unfolds` lists it in pre-order, where it is finite: a list is derived slot by slot. It
  needs no store without cycles, only that no cycle can be reached.
  - `Unfolds.unique`, `Store.Acyclic.unfolding`: there is at most one such list, and without cycles it is the one of
    all paths in pre-order.
  - `Walker.Looking`: the callbacks ask for nothing and leave what can be reached from the tree as it is.
  - `Walker.looking_of_done`: if such a walk with `enter` alone ends, its calls are the unfolding. The induction is on
    the steps that are left, since a visit that has entered its node has fewer of them.
  - `Walker.looking_of_unfolding`: if there is an unfolding, such a walk ends. The induction is on its derivation.
-/

import TreeWalk.Proofs.Orders

namespace TreeWalk

open Relation (ReflTransGen)

variable {σ ν : Type}

/-! ## The unfolding -/

/-- The occurrences at some slots of an occurrence and all that are below them, each before those below it. -/
inductive Unfolds (store : Store) (reserved : List String) : Occurrence → List Slot → List Occurrence → Prop
  | nil (o : Occurrence) : Unfolds store reserved o [] []
  | cons {o : Occurrence} {c : Slot} {cs : List Slot} {l m : List Occurrence}
      (below : Unfolds store reserved (c.under o) (c.value.slots store reserved) l)
      (rest : Unfolds store reserved o cs m) : Unfolds store reserved o (c :: cs) (c.under o :: l ++ m)

/-- The occurrences of all nodes that a walk from the tree comes upon, in pre-order. -/
def Value.Unfolding (store : Store) (reserved : List String) (tree : Value) (l : List Occurrence) : Prop :=
  ∃ below, Unfolds store reserved ⟨tree, none, none, []⟩ (tree.slots store reserved) below ∧
    l = (if tree.isNode store then [⟨tree, none, none, []⟩] else []) ++ below

section

variable {store : Store} {reserved : List String}

theorem Unfolds.unique {o : Occurrence} {cs : List Slot} {l m : List Occurrence} (h : Unfolds store reserved o cs l)
    (h' : Unfolds store reserved o cs m) : l = m := by
  induction h generalizing m with
  | nil => cases h'; rfl
  | cons _ _ ih ih' =>
    cases h' with
    | cons below rest => rw [ih below, ih' rest]

theorem Value.Unfolding.unique {tree : Value} {l m : List Occurrence} (h : tree.Unfolding store reserved l)
    (h' : tree.Unfolding store reserved m) : l = m := by
  obtain ⟨below, unfolds, rfl⟩ := h
  obtain ⟨below', unfolds', rfl⟩ := h'
  rw [unfolds.unique unfolds']

namespace Store.Acyclic

variable (h : store.Acyclic)

theorem unfolds_below {o : Occurrence} {cs : List Slot}
    (unfolds : ∀ c ∈ cs, Unfolds store reserved (c.under o) (c.value.slots store reserved)
      (h.below reserved (c.under o) (c.value.slots store reserved) .enter)) :
    Unfolds store reserved o cs (h.below reserved o cs .enter) := by
  induction cs with
  | nil => exact .nil o
  | cons c cs ih =>
    obtain ⟨head, tail⟩ := List.forall_mem_cons.mp unfolds
    have visited : h.visited reserved (c.under o) .enter =
        c.under o :: h.below reserved (c.under o) (c.value.slots store reserved) .enter := by
      rw [h.visited_eq]
      simp [Slot.under]
    have eq : h.below reserved o (c :: cs) .enter =
        c.under o :: h.below reserved (c.under o) (c.value.slots store reserved) .enter ++
          h.below reserved o cs .enter := by
      rw [← visited]
      rfl
    rw [eq]
    exact .cons head (ih tail)

theorem unfolds (o : Occurrence) : Unfolds store reserved o (o.node.slots store reserved)
    (h.below reserved o (o.node.slots store reserved) .enter) := by
  suffices all : ∀ v (o : Occurrence), o.node = v → Unfolds store reserved o (o.node.slots store reserved)
      (h.below reserved o (o.node.slots store reserved) .enter) from all o.node o rfl
  intro v
  induction v using (h.wellFounded reserved).induction with
  | _ v ih =>
    intro o ho
    subst ho
    exact h.unfolds_below fun c hc => ih c.value ⟨c, hc, rfl⟩ (c.under o) rfl

theorem unfolding (tree : Value) : tree.Unfolding store reserved (h.reached reserved tree .enter) := by
  refine ⟨_, h.unfolds ⟨tree, none, none, []⟩, ?_⟩
  cases hn : tree.isNode store with
  | true =>
    rw [h.reached_of_isNode reserved hn, h.visited_eq]
    simp
  | false =>
    rw [h.reached_of_other reserved hn]
    rfl

end Store.Acyclic

end

theorem Value.Intact.reach {s t : Store} {v u : Value} (h : v.Intact s t) (hu : ReflTransGen (Holds s) v u) :
    u.Intact s t := fun k r hr => h k r (hu.trans hr)

/-! ## Walks that only look -/

/-- The callback asked for nothing and left what can be reached from the tree as it was. -/
structure Exchange.Looks (tree : Value) (store : Store) (x : Exchange σ ν) : Prop where
  intact : tree.Intact store x.reply.store
  ancestors : x.reply.ancestors = x.call.ancestors
  answer : x.reply.outcome = .ok .null

namespace Walker

/-- From here on the callbacks only look, and so they did before. -/
structure Looking (w : Walker σ ν) (tree : Value) (store : Store) (s : State σ ν) : Prop where
  intact : tree.Intact store s.store
  looks : ∀ n, ∀ x ∈ (w.run n s).exchanges, x.Looks tree store

variable {w : Walker σ ν} {tree : Value} {store : Store} {s : State σ ν}

theorem Looking.step (h : w.Looking tree store s) : w.Looking tree store (w.step s) := by
  refine ⟨?_, fun n x hx => h.looks (n + 1) x (by rwa [run_step])⟩
  rcases (w.step_moves s).store with e | ⟨x, hx, e⟩
  · rw [e]
    exact h.intact
  · rw [e]
    refine (h.looks 1 x ?_).intact
    rw [run_one]
    exact w.mem_step_exchanges hx

/-- A walk that only looks, of which something more is kept, and its calls. -/
def lookingWatch (w : Walker σ ν) (tree : Value) (store : Store) (A : State σ ν → Prop)
    (keeps : ∀ s, A s → A (w.step s)) : Watch w (List Call) where
  Holds s := w.Looking tree store s ∧ A s
  view := State.calls
  keeps s _ _ h step := step ▸ ⟨h.1.step, keeps s h.2⟩
  still := go_calls

def CallsUnfolding (w : Walker σ ν) (store : Store) (o : Occurrence) (before after : List Call) : Prop :=
  ∃ l, Unfolds store w.reserved o (o.node.slots store w.reserved) l ∧ after = before ++ (o :: l).map (Call.mk · .enter)

theorem unfolds_of_chain {o : Occurrence} {cs : List Slot} {before after : List Call}
    (chain : Chain (fun c => w.CallsUnfolding store (c.under o)) cs before after) :
    ∃ l, Unfolds store w.reserved o cs l ∧ after = before ++ l.map (Call.mk · .enter) := by
  induction chain with
  | nil before => exact ⟨[], .nil o, (List.append_nil before).symm⟩
  | cons head _ ih =>
    obtain ⟨l, below, rfl⟩ := head
    obtain ⟨m, rest, rfl⟩ := ih
    exact ⟨_, .cons below rest, by rw [List.map_append, List.append_assoc]⟩

section

variable {f : Callback σ ν} (enter : w.enter = some f) (leave : w.leave = none) {A B : State σ ν → Prop}
  (keepsA : ∀ s, A s → A (w.step s)) (keepsB : ∀ s, B s → B (w.step s))

include enter leave in
/-- A visit makes the calls of its unfolding, if those below it do. Below it more may be kept than around it. -/
theorem looking_visits {o : Occurrence} (reach : ReflTransGen (Value.Holds store) tree o.node)
    (down : ∀ s, A s → s.focus = .enter o → B (w.step s)) (up : ∀ s, B s → A s)
    (visits : ∀ c ∈ o.node.slots store w.reserved,
      w.Visits (w.lookingWatch tree store B keepsB) (c.under o) (w.CallsUnfolding store (c.under o))) :
    w.Visits (w.lookingWatch tree store A keepsA) o (w.CallsUnfolding store o) := by
  intro s hs hF
  let c : Call := { o with phase := .enter }
  have due : w.due s.focus = some (f, c) := by rw [hF, w.due_of_enter enter]
  have looks : Exchange.Looks tree store ⟨c, s.store, f c s.store s.memory⟩ := by
    refine hs.1.looks 1 _ ?_
    rw [run_one]
    exact w.mem_step_exchanges (w.exchange?_of_due due rfl)
  have answer : (f c s.store s.memory).outcome = .ok .null := looks.answer
  have ancestors : (f c s.store s.memory).ancestors = o.ancestors := looks.ancestors
  have entered := step_fields enter hF rfl answer rfl rfl
  rw [ancestors] at entered
  have ht : (w.lookingWatch tree store B keepsB).Holds (w.step s) := ⟨hs.1.step, down s hs.2 hF⟩
  have intact : ∀ s, (w.lookingWatch tree store B keepsB).Holds s → o.node.Intact store s.store := fun s hs =>
    hs.1.intact.reach reach
  obtain ⟨u, reach', hu, hF', hK', chain⟩ := children_pass (o := o) intact visits ht (by rw [entered]; rfl)
    (by rw [entered]; rfl)
  obtain ⟨l, unfolds, hl⟩ := unfolds_of_chain chain
  obtain ⟨back, hback⟩ := reaches_back leave hu hF' hK'
  refine ⟨u.go (.back (.ofValue .null)) s.stack, .ofValue .null, ((Reaches.step s).trans reach').trans back,
    ⟨hback.1, up _ hback.2⟩, rfl, ⟨rfl, rfl⟩, rfl, l, unfolds, ?_⟩
  have called : (w.step s).calls = s.calls ++ [c] := by rw [entered, go_calls, after_calls]
  show u.calls = s.calls ++ _
  rw [List.map_cons, ← List.singleton_append, ← List.append_assoc, ← called]
  exact hl

include enter in
theorem looking_ends {memory : σ} (hs : (w.lookingWatch tree store A keepsA).Holds (w.start tree store memory))
    (root : w.Visits (w.lookingWatch tree store A keepsA) ⟨tree, none, none, []⟩
      (w.CallsUnfolding store ⟨tree, none, none, []⟩))
    (top : ∀ c ∈ tree.slots store w.reserved, w.Visits (w.lookingWatch tree store A keepsA)
      (c.under ⟨tree, none, none, []⟩) (w.CallsUnfolding store (c.under ⟨tree, none, none, []⟩))) :
    ∃ t g l, w.Reaches (w.start tree store memory) t ∧ t.focus = .done (.returned g) ∧
      tree.Unfolding store w.reserved l ∧ t.calls = l.map (Call.mk · .enter) := by
  have hc : w.HasCallback := .inl (by rw [enter]; rfl)
  have none : (w.lookingWatch tree store A keepsA).view (w.start tree store memory) = [] := by
    show (w.start tree store memory).calls = []
    rw [State.calls, w.start_exchanges]
    rfl
  cases hn : tree.isNode store with
  | true =>
    obtain ⟨t, g, reach, -, done, l, unfolds, hl⟩ := ends_with_root hc hs hn root
    rw [none, List.nil_append] at hl
    exact ⟨t, g, _, reach, done, ⟨l, unfolds, by rw [if_pos hn, List.singleton_append]⟩, hl⟩
  | false =>
    have intact : ∀ s, (w.lookingWatch tree store A keepsA).Holds s → tree.Intact store s.store := fun s hs =>
      hs.1.intact
    obtain ⟨t, reach, -, done, chain⟩ := ends_with_children hc hs hn intact top
    obtain ⟨l, unfolds, hl⟩ := unfolds_of_chain chain
    rw [none, List.nil_append] at hl
    exact ⟨t, .silent, l, reach, done, ⟨l, unfolds, by rw [if_neg (Bool.eq_false_iff.mp hn), List.nil_append]⟩, hl⟩

end

/-! ## A walk that ends -/

def EndsWithin (w : Walker σ ν) (n : Nat) (s : State σ ν) : Prop := ∃ m < n, ∃ o, (w.run m s).focus = .done o

theorem EndsWithin.step {n : Nat} (h : w.EndsWithin n s) : w.EndsWithin n (w.step s) := by
  obtain ⟨m, hm, o, done⟩ := h
  refine ⟨m, hm, o, ?_⟩
  rw [← run_step, run_succ, w.step_done done]
  exact done

theorem EndsWithin.reaches {n : Nat} {t : State σ ν} (h : w.EndsWithin n s) (reach : w.Reaches s t) :
    w.EndsWithin n t := by
  obtain ⟨m, rfl⟩ := reach
  exact w.run_keeps (P := w.EndsWithin n) (fun _ => EndsWithin.step) h m

theorem EndsWithin.fewer {n : Nat} (h : w.EndsWithin (n + 1) s) (going : ∀ out, s.focus ≠ .done out) :
    w.EndsWithin n (w.step s) := by
  obtain ⟨m, hm, out, done⟩ := h
  cases m with
  | zero => exact absurd done (going out)
  | succ m =>
    rw [run_step] at done
    exact ⟨m, by omega, out, done⟩

section

variable {f : Callback σ ν} (enter : w.enter = some f) (leave : w.leave = none)

include enter leave

theorem visits_of_ending (n : Nat) (o : Occurrence) (reach : ReflTransGen (Value.Holds store) tree o.node) :
    w.Visits (w.lookingWatch tree store (w.EndsWithin n) fun _ => EndsWithin.step) o (w.CallsUnfolding store o) := by
  induction n generalizing o with
  | zero =>
    intro s hs _
    obtain ⟨m, hm, -⟩ := hs.2
    exact absurd hm (Nat.not_lt_zero m)
  | succ n ih =>
    -- To enter the node takes a step, so there are fewer left for what is below it.
    refine looking_visits enter leave (B := w.EndsWithin n) _ (fun _ => EndsWithin.step) reach
      (fun s hs hF => hs.fewer (by rw [hF]; intro out done; cases done)) ?_ ?_
    · intro s hs
      obtain ⟨m, hm, done⟩ := hs
      exact ⟨m, by omega, done⟩
    · intro c hc
      exact ih (c.under o) (reach.trans (Value.holds_of_mem_slots hc).to_reflTransGen)

/-- The calls of a walk that only looks, when it is over, are the unfolding of its tree. -/
theorem looking_of_done {memory : σ} (looking : w.Looking tree store (w.start tree store memory)) {n : Nat}
    {out : Outcome} (done : (w.run n (w.start tree store memory)).focus = .done out) :
    (∃ g, out = .returned g) ∧ ∃ l, tree.Unfolding store w.reserved l ∧
      (w.run n (w.start tree store memory)).calls = l.map (Call.mk · .enter) := by
  have hs : (w.lookingWatch tree store (w.EndsWithin (n + 1)) fun _ => EndsWithin.step).Holds
      (w.start tree store memory) := ⟨looking, n, Nat.lt_succ_self n, out, done⟩
  have visits : ∀ o : Occurrence, ReflTransGen (Value.Holds store) tree o.node →
      w.Visits _ o (w.CallsUnfolding store o) := visits_of_ending enter leave (n + 1)
  obtain ⟨t, g, l, ⟨m, rfl⟩, done', unfolding, hl⟩ := looking_ends enter _ hs (visits _ .refl)
    fun c hc => visits _ (Value.holds_of_mem_slots hc).to_reflTransGen
  -- A walk comes to one end only.
  have same := run_eq_of_done done done'
  rw [same, done'] at done
  cases done
  exact ⟨⟨g, rfl⟩, l, unfolding, by rw [same, hl]⟩

/-! ## A tree that unfolds -/

theorem visits_of_unfolds {o : Occurrence} {cs : List Slot} {l : List Occurrence}
    (unfolds : Unfolds store w.reserved o cs l) (reach : ∀ c ∈ cs, ReflTransGen (Value.Holds store) tree c.value) :
    ∀ c ∈ cs, w.Visits (w.lookingWatch tree store (fun _ => True) fun _ => id) (c.under o)
      (w.CallsUnfolding store (c.under o)) := by
  induction unfolds with
  | nil => exact List.forall_mem_nil _
  | cons _ _ ih ih' =>
    obtain ⟨head, tail⟩ := List.forall_mem_cons.mp reach
    refine List.forall_mem_cons.mpr ⟨?_, ih' tail⟩
    refine looking_visits enter leave _ (fun _ => id) head (fun _ _ _ => trivial) (fun _ => id) (ih ?_)
    exact fun d hd => head.trans (Value.holds_of_mem_slots hd).to_reflTransGen

/-- A walk that only looks comes to an end, if its tree has an unfolding. -/
theorem looking_of_unfolding {memory : σ} (looking : w.Looking tree store (w.start tree store memory))
    {l : List Occurrence} (unfolding : tree.Unfolding store w.reserved l) :
    ∃ n g, (w.run n (w.start tree store memory)).focus = .done (.returned g) ∧
      (w.run n (w.start tree store memory)).calls = l.map (Call.mk · .enter) := by
  obtain ⟨below, unfolds, -⟩ := id unfolding
  have top := visits_of_unfolds enter leave unfolds fun c hc => (Value.holds_of_mem_slots hc).to_reflTransGen
  have root := looking_visits enter leave (fun _ => id) (fun _ => id) (o := ⟨tree, none, none, []⟩) .refl
    (fun _ _ _ => trivial) (fun _ => id) top
  obtain ⟨t, g, m, ⟨n, rfl⟩, done, unfolding', hm⟩ := looking_ends enter (fun _ => id) ⟨looking, trivial⟩ root top
  exact ⟨n, g, done, by rw [hm, unfolding.unique unfolding']⟩

end

end Walker

end TreeWalk
