/-
  TreeWalk.Proofs.Stripping — taking the calls of `console` out of a syntax tree.

  In a tree of mappings, lists and atoms without cycles the walk always ends. It fails only where a look-up for a node
  in a list comes upon something true that is no mapping; the guards of the look-ups let that through, whatever the type
  of the node is (`stripping_always_ends`). Where no question fails, the lists that can be reached afterwards have lost
  their statements and nothing else, all other lists and all fields are as they were, and there is nothing left for a
  second walk to take out (`statements_are_stripped`).
  - `Aside`: after a removal the walk goes on beside the statement or further up; a step lemma and a run lemma.
  - `admitted_of_trimmed`: settings that were accepted are accepted again.
  - `unchanged_of_swept`: a sweep of what was swept changes nothing.
-/

import TreeWalk.Proofs.Admission
import TreeWalk.Proofs.Ancestors
import TreeWalk.Proofs.Searches
import TreeWalk.Proofs.Sweeping
import TreeWalk.Proofs.Untouched

namespace TreeWalk

open Relation (ReflTransGen TransGen)

variable {σ ν : Type}

/-! ## Where the walk goes after a removal -/

theorem Silent.marks_suffix {reserved : List String} {store : Store} {F F' : Focus} {K K' : List Frame}
    (h : Silent reserved store F K F' K') (hF : ∀ o, F ≠ .enter o) : marks K' <:+ marks K := by
  cases h with
  | enter o => exact absurd rfl (hF o)
  | stop => exact List.suffix_refl _
  | fault => exact List.nil_suffix
  | rootOver => exact List.suffix_refl _
  | exit => exact List.nil_suffix
  | childrenOver o => exact List.suffix_cons o.mark _
  | _ => exact List.suffix_refl _

theorem lineage_mono (base : List Value) {ms ms' : List Mark} (h : ms' <:+ ms) :
    lineage base ms' <+: lineage base ms := by
  unfold lineage
  exact (List.prefix_append_right_inj base).mpr (List.reverse_prefix.mpr (h.map Mark.node))

namespace Estree.Console

/-- The call is made for a statement in a list. -/
structure Removes (x : Exchange σ ν) : Prop where
  index : x.call.index.isSome = true
  statement : isCall x.before x.call.node = .ok true

/-- The call after a removal is made beside the statement or further up. -/
structure Aside (base : List Value) (s : State σ ν) : Prop where
  next : ∀ n x y, s.exchanges[n]? = some x → s.exchanges[n + 1]? = some y → Removes x →
    y.call.ancestors <+: x.call.ancestors
  last : ∀ x, s.exchanges.getLast? = some x → Removes x → lineage base (marks s.stack) <+: x.call.ancestors

theorem strip_ancestors (c : Call) (store : Store) (memory : σ) :
    (strip c store memory : Reply σ ν).ancestors = c.ancestors := by
  unfold strip
  split
  · rfl
  · split
    · rfl
    · rfl
    · split <;> rfl

theorem strip_skips {c : Call} {store : Store} {memory : σ} {i : Nat} {v : Value} (hi : c.index = some i)
    (statement : isCall store c.node = .ok true) (answer : (strip c store memory : Reply σ ν).outcome = .ok v) :
    v = .tuple [.action .skip, .int i] := by
  simp only [strip, hi, statement] at answer
  split at answer
  · cases answer
  · cases answer
    rfl

variable {w : Walker σ ν} {base : List Value} {s t : State σ ν}

theorem Aside.next_called (h : Aside base s) {y : Exchange σ ν}
    (fits : y.call.ancestors = lineage base (marks s.stack)) :
    ∀ n x z, (s.exchanges ++ [y])[n]? = some x → (s.exchanges ++ [y])[n + 1]? = some z → Removes x →
      z.call.ancestors <+: x.call.ancestors := by
  intro n x z hx hz removes
  by_cases hn : n + 1 < s.exchanges.length
  · rw [List.getElem?_append_left (Nat.lt_of_succ_lt hn)] at hx
    rw [List.getElem?_append_left hn] at hz
    exact h.next n x z hx hz removes
  · have bound : n + 1 < (s.exchanges ++ [y]).length := (List.getElem?_eq_some_iff.mp hz).1
    rw [List.length_append, List.length_singleton] at bound
    have hlen : s.exchanges.length = n + 1 := by omega
    rw [List.getElem?_append_left (by omega)] at hx
    rw [← hlen, List.getElem?_concat_length] at hz
    cases hz
    rw [fits]
    refine h.last x ?_ removes
    rw [List.getLast?_eq_getElem?, hlen]
    exact hx

theorem Aside.step (h : Aside base s) (enter : w.enter = some strip) (leave : w.leave = none)
    (fits : s.focus.Fits base s.stack) : Aside base (w.step s) := by
  cases due : w.due s.focus with
  | none =>
    obtain ⟨F, K, move, hs⟩ := Walker.step_silent due
    have closed : ∀ o, s.focus ≠ .enter o := by
      intro o hF
      rw [hF, w.due_of_enter enter] at due
      cases due
    rw [hs]
    exact ⟨h.next, fun x hx removes => (lineage_mono base (move.marks_suffix closed)).trans (h.last x hx removes)⟩
  | some d =>
    obtain ⟨f, c⟩ := d
    obtain ⟨rfl, o, hF, rfl⟩ := Walker.due_alone enter leave due
    rw [hF] at fits
    have exchanges := Walker.exchanges_called due
    refine ⟨?_, ?_⟩
    · rw [exchanges]
      exact h.next_called fits
    · intro x hx removes
      rw [exchanges, List.getLast?_append, List.getLast?_singleton] at hx
      cases hx
      obtain ⟨i, hi⟩ := Option.isSome_iff_exists.mp removes.index
      have ancestors : o.ancestors = lineage base (marks s.stack) := fits
      show lineage base (marks (w.step s).stack) <+: o.ancestors
      rw [ancestors, Walker.step_called due, go_stack, hF]
      refine lineage_mono base ?_
      cases answer : (strip { o with phase := .enter } s.store s.memory : Reply σ ν).outcome with
      | error e => exact List.nil_suffix
      | ok v =>
        obtain rfl := strip_skips hi removes.statement answer
        exact List.suffix_refl _

section

variable {tree : Value} {store : Store} {memory : σ} (enter : w.enter = some strip) (leave : w.leave = none)

include enter leave

theorem ancestors_kept (n : Nat) :
    ∀ x ∈ (w.run n (w.start tree store memory)).exchanges, x.reply.ancestors = x.call.ancestors := by
  refine w.run_forall_exchanges ?_ (by simp [Walker.start_exchanges]) n
  intro f c store memory callback
  rcases callback with callback | callback
  · rw [enter] at callback
    cases callback
    exact strip_ancestors c store memory
  · rw [leave] at callback
    cases callback

theorem aside_run (n : Nat) : Aside (baseOf tree store) (w.run n (w.start tree store memory)) := by
  induction n with
  | zero =>
    have none : (w.run 0 (w.start tree store memory)).exchanges = [] := w.start_exchanges tree store memory
    refine ⟨?_, ?_⟩
    · rw [none]
      intro n x y hx
      cases hx
    · rw [none]
      intro x hx
      cases hx
  | succ n ih =>
    rw [w.run_succ]
    exact ih.step enter leave (w.nested_run tree store memory n (ancestors_kept enter leave n)).1

/-- After a removal the walk goes on beside the statement or further up. -/
theorem ancestors_after_removal {r : Run σ ν} (ends : w.Ends tree store memory r) {n : Nat} {x y : Exchange σ ν}
    (hx : r.exchanges[n]? = some x) (hy : r.exchanges[n + 1]? = some y) (removes : Removes x) :
    y.call.ancestors <+: x.call.ancestors := by
  obtain ⟨-, m, walks⟩ := ends
  rw [← walks m (Nat.le_refl m), Walker.walk, toRun_exchanges] at hx hy
  exact (aside_run enter leave m).next n x y hx hy removes

end

/-! ## A second walk -/

section

variable {store store' : Store} {tree : Value}

theorem Trimmed.holds (trimmed : Trimmed store store') : Value.Holds store' ≤ Value.Holds store := by
  intro v u h
  cases h with
  | field held => exact .field (trimmed.entries v ▸ held)
  | item mem => exact .item ((trimmed.sublist v).subset mem)

theorem Trimmed.reaches (trimmed : Trimmed store store') {v : Value} (h : ReflTransGen (Value.Holds store') tree v) :
    ReflTransGen (Value.Holds store) tree v := ReflTransGen.mono trimmed.holds _ _ h

theorem Trimmed.acyclic (trimmed : Trimmed store store') (acyclic : tree.Acyclic store) : tree.Acyclic store' :=
  fun v reach cycle => acyclic v (trimmed.reaches reach) (TransGen.mono trimmed.holds _ _ cycle)

theorem Trimmed.eq_of_items (trimmed : Trimmed store store')
    (same : ∀ r, (store'.cell r).items = (store.cell r).items) : store' = store := by
  have cells : ∀ r, store'.cell r = store.cell r := by
    intro r
    have fields := trimmed.fields r
    have inherited := trimmed.inherited r
    have items := same r
    cases new : store'.cell r
    cases old : store.cell r
    simp_all
  have grows : store.Grows store' := ⟨Nat.le_of_eq trimmed.size.symm, fun r _ => cells r⟩
  have whole : store'.keep store.size = store' := by
    rw [← trimmed.size]
    simp [Store.keep, Store.size]
  rw [← whole, grows.keep]

/-- A sweep of a store that was swept changes nothing. -/
theorem unchanged_of_swept {reserved : List String} {store'' : Store}
    (plain : ∀ v, ReflTransGen (Value.Holds store) tree v → v.Plain)
    (first : Swept store (Covers store reserved tree) store store')
    (second : Swept store' (Covers store' reserved tree) store' store'') : store'' = store' := by
  have trimmed := first.trimmed
  refine second.trimmed.eq_of_items fun q => ?_
  by_cases covered : Covers store' reserved tree q
  · -- What is come to in the swept store can be reached in it, and so it was swept.
    have listed := walked_of_covers (.refl store') covered (o := ⟨tree, none, none, []⟩) .refl rfl
    have swept := first.clean q ((covers_iff plain first).mp listed)
    have reach := trimmed.reaches covered.holds.to_reflTransGen
    rw [second.trimmed.items_eq (second.clean q covered), List.filter_eq_self]
    intro v hv
    have still : isStatement store' v = false := by
      cases hn : v.isNode store with
      | false => exact isStatement_of_not_isNode ((trimmed.isNode v).trans hn)
      | true =>
        have held := reach.tail (.item ((trimmed.items q).subset hv))
        rw [trimmed.isStatement_eq hn ((plain v held).isMapping hn)]
        exact swept v hv
    rw [still]
    rfl
  · exact second.apart q covered

end

/-! ## Settings -/

section

variable {store store' : Store} {c : Settings} {vs : List Value}

/-- Names are no statements, so a list of names is as it was. -/
theorem iterate_of_trimmed (trimmed : Trimmed store store') (gives : c.reserved.iterate store = .ok vs)
    (names : ∀ v ∈ vs, Settings.isName v = true) : c.reserved.iterate store' = .ok vs := by
  cases given : c.reserved with
  | items ws =>
    rw [given] at gives
    exact gives
  | once ws =>
    rw [given] at gives
    exact gives
  | value v =>
    rw [given] at gives
    cases v with
    | atom a => cases a <;> exact gives
    | tuple ws => exact gives
    | container k r =>
      simp only [Reserved.iterate, Value.iterate, trimmed.fields] at gives ⊢
      cases hk : k.isList with
      | false =>
        rw [hk] at gives
        exact gives
      | true =>
        simp only [hk, if_true, Except.ok.injEq] at gives ⊢
        have clean : ∀ v ∈ vs, isStatement store v = false := by
          intro v hv
          obtain ⟨t, rfl⟩ := Value.exists_text_of_isName (names v hv)
          exact isStatement_of_not_isNode rfl
        rw [trimmed.items_eq fun v hv => clean v (gives ▸ (trimmed.items r).subset hv), gives, List.filter_eq_self]
        intro v hv
        rw [clean v hv]
        rfl

theorem admitted_of_trimmed (trimmed : Trimmed store store') {reserved : List String}
    (admitted : c.admitted store = .ok reserved) : c.admitted store' = .ok reserved := by
  rcases c.sound_or_faulty store with ⟨vs, lists, names⟩ | ⟨e, faulty⟩
  · have gives := iterate_of_trimmed trimmed lists.gives names
    have again := iterate_of_trimmed trimmed lists.again.gives (Settings.named_again names)
    have check := Settings.check_of_sound ⟨vs, lists, names⟩
    have check' : c.check store' = .ok () := Settings.check_of_sound ⟨vs, ⟨lists.other, gives⟩, names⟩
    rw [← admitted]
    simp only [Settings.admitted, check, check', Reserved.names, lists.again.gives, again]
  · simp only [Settings.admitted, Settings.check_of_faulty faulty] at admitted
    cases admitted

theorem accept_of_trimmed (trimmed : Trimmed store store') {settings : Option Settings} {f : Callback σ ν}
    {debug : Bool} {w : Walker σ ν} (accepted : accept settings (.function f) debug store = .ok w) :
    accept settings (.function f) debug store' = .ok w := by
  obtain ⟨reserved, admitted, rfl⟩ := admitted_of_accept accepted
  rw [accept_function, admitted_of_trimmed trimmed admitted]
  rfl

end

/-! ## Every tree of mappings and lists -/

section

variable {store : Store} {tree : Value} {settings : Option Settings} {debug : Bool}

theorem alone_of_accept (accepted : accept settings (.function strip) debug store = .ok w) :
    w.enter = some strip ∧ w.leave = none := by
  obtain ⟨reserved, -, rfl⟩ := admitted_of_accept accepted
  exact ⟨rfl, rfl⟩

/-- In a tree of mappings, lists and atoms a node is a call of `console` or not, or one of the look-ups that tell has
    something true in its way that is no mapping; in a node of any type, as the type is looked at last. A walk that
    takes out the calls always ends. If it fails, it fails on what is in the way for a node in a list it comes to; if it
    returns, nothing is in the way there but lists of nothing but statements, which removals may have emptied. -/
theorem stripping_always_ends (memory : σ) (accepted : accept settings (.function strip) debug store = .ok w)
    (plain : ∀ v, ReflTransGen (Value.Holds store) tree v → v.Plain) (acyclic : tree.Acyclic store) :
    (∀ v, ReflTransGen (Value.Holds store) tree v → v.isNode store = true → Verdict store v (isCall store v)) ∧
      ∃ r, w.Ends tree store memory r ∧
        ((∃ g, r.outcome = some (.returned g) ∧ Fair store (Covers store w.reserved tree)) ∨
          ∃ u, r.outcome = some (.raised (.noLookup u.typeName)) ∧ Foul store (Covers store w.reserved tree) u) := by
  obtain ⟨enter, leave⟩ := alone_of_accept accepted
  refine ⟨fun v reach hn => verdict_isCall hn ((plain v reach).isMapping hn), ?_⟩
  obtain ⟨r, ends, ⟨g, returned, -, fair⟩ | raised⟩ := walk_sweeps enter leave plain acyclic memory
  · exact ⟨r, ends, .inl ⟨g, returned, fair⟩⟩
  · exact ⟨r, ends, .inr raised⟩

def stripper : Walker Unit Unit := ({} : Settings).alone ["data", "position"] true strip

theorem accept_stripper (store : Store) : accept none (.function strip) true store = .ok stripper := by
  rw [accept_function, Option.getD_none, admitted_usual]
  rfl

/-- An arrow function in a list, which says in `expression` that its body is one. -/
def arrows : Store := ⟨#[
  { fields := .ofList [("type", .text "ArrowFunctionExpression"), ("expression", .atom (.bool true))] },
  { items := [.container .mapping 0] },
  { fields := .ofList [("type", .text "ArrayExpression"), ("elements", .container .list 1)] }]⟩

/-- There is no call of `console`, and the walk fails all the same. -/
theorem arrows_trip : ∃ r, stripper.Ends (.container .mapping 2) arrows () r ∧
    r.outcome = some (.raised (.noLookup "bool")) := by
  have layered : arrows.Layered := by decide
  have kept : arrows.Plain := by decide
  have plain : ∀ v, ReflTransGen (Value.Holds arrows) (.container .mapping 2) v → v.Plain :=
    fun v reach => kept.reaches (by decide) reach
  have only : ∀ q < arrows.size, ∀ v ∈ (arrows.cell q).items, v = .container .mapping 0 := by decide
  have trips : Trips arrows (.container .mapping 0) (.atom (.bool true)) :=
    .expression ⟨.mapping, 0, rfl, rfl, by decide⟩ ⟨rfl, rfl⟩
  obtain ⟨-, r, ends, ⟨g, -, fair⟩ | ⟨u, raised, q, -, v, mem, -, trips'⟩⟩ :=
    stripping_always_ends () (accept_stripper arrows) plain fun v _ => layered.acyclic v
  · have held : ("elements", Value.container .list 1) ∈ (Value.container .mapping 2).entries arrows := by decide
    have covers : Covers arrows stripper.reserved (.container .mapping 2) 1 := .list (by decide) held
    exact absurd trips (fair 1 covers _ (by decide) (by decide) _ (fun k r e => by cases e))
  · obtain rfl := only q (Store.lt_size_of_mem_contents (List.mem_append_left _ mem)) v mem
    rw [trips'.unique trips] at raised
    exact ⟨r, ends, raised⟩

/-- What is left of a tree whose statements were taken out. -/
structure Stripped (reserved : List String) (tree : Value) (store : Store) (r : Run σ ν) : Prop where
  returned : ∃ g, r.outcome = some (.returned g)
  size : r.store.size = store.size
  fields : ∀ q, (r.store.cell q).fields = (store.cell q).fields
  inherited : ∀ q, (r.store.cell q).inherited = (store.cell q).inherited
  /-- A list that can be reached in the end has lost its statements, and nothing else. -/
  listed : ∀ q, tree.Listed r.store reserved q →
    (r.store.cell q).items = (store.cell q).items.filter (!isStatement store ·)
  apart : ∀ q, ¬ tree.Listed r.store reserved q → (r.store.cell q).items = (store.cell q).items
  /-- No node is entered through a statement that was taken out: the next call is beside it or further up. -/
  aside : ∀ n x y, r.exchanges[n]? = some x → r.exchanges[n + 1]? = some y → Removes x →
    y.call.ancestors <+: x.call.ancestors

/-- Where no question about a node in a list fails, a walk takes out the statements of all lists that can be reached and
    changes nothing else. A second walk, with the same settings, leaves everything as it is. -/
theorem statements_are_stripped (memory memory' : σ) (accepted : accept settings (.function strip) debug store = .ok w)
    (plain : ∀ v, ReflTransGen (Value.Holds store) tree v → v.Plain) (acyclic : tree.Acyclic store)
    (answers : ∀ q v, ReflTransGen (Value.Holds store) tree (.container .list q) → v ∈ (store.cell q).items →
      v.isNode store = true → ∀ e, isCall store v ≠ .error e) :
    ∃ r, w.Ends tree store memory r ∧ Stripped w.reserved tree store r ∧
      accept settings (.function strip) debug r.store = .ok w ∧
      ∃ r', w.Ends tree r.store memory' r' ∧ (∃ g, r'.outcome = some (.returned g)) ∧ r'.store = r.store := by
  obtain ⟨enter, leave⟩ := alone_of_accept accepted
  have sound : ∀ q v u, ReflTransGen (Value.Holds store) tree (.container .list q) → v ∈ (store.cell q).items →
      v.isNode store = true → ¬ Trips store v u := by
    intro q v u reach mem hn trips
    have mapping := (plain v (reach.tail (.item mem))).isMapping hn
    exact answers q v reach mem hn _ ((isCall_error_iff hn mapping).mpr ⟨u, trips, rfl⟩)
  obtain ⟨r, ends, ⟨g, returned, swept, -⟩ | ⟨u, -, q, covers, v, mem, hn, trips⟩⟩ :=
    walk_sweeps enter leave plain acyclic memory
  · have trimmed := swept.trimmed
    have plain' : ∀ v, ReflTransGen (Value.Holds r.store) tree v → v.Plain := fun v h => plain v (trimmed.reaches h)
    refine ⟨r, ends, ?_, accept_of_trimmed trimmed accepted, ?_⟩
    · refine ⟨⟨g, returned⟩, trimmed.size, trimmed.fields, trimmed.inherited, ?_, ?_, ?_⟩
      · intro q listed
        exact trimmed.items_eq (swept.clean q ((covers_iff plain swept).mp listed))
      · intro q unlisted
        exact swept.apart q fun covers => unlisted ((covers_iff plain swept).mpr covers)
      · intro n x y hx hy removes
        exact ancestors_after_removal enter leave ends hx hy removes
    · obtain ⟨r', ends', ⟨g', returned', swept', -⟩ | ⟨u, -, q, covers, v, mem, hn, trips⟩⟩ :=
        walk_sweeps enter leave plain' (trimmed.acyclic acyclic) memory'
      · exact ⟨r', ends', ⟨g', returned'⟩, unchanged_of_swept plain swept swept'⟩
      · -- What is in the way now was in the way before.
        rw [trimmed.isNode] at hn
        have reach := trimmed.reaches covers.holds.to_reflTransGen
        exact absurd (trimmed.trips trips) (sound q v u reach ((trimmed.items q).subset mem) hn)
  · exact absurd trips (sound q v u covers.holds.to_reflTransGen mem hn)

end

/-- One statement many times over: in a field, side by side and last in a list, and in a list that two blocks share. -/
def program : Store := ⟨#[
  { fields := .ofList [("type", .text "Identifier"), ("name", .text "console")] },
  { fields := .ofList [("type", .text "MemberExpression"), ("object", .container .mapping 0)] },
  { fields := .ofList [("type", .text "CallExpression"), ("callee", .container .mapping 1)] },
  { fields := .ofList [("type", .text "ExpressionStatement"), ("expression", .container .mapping 2)] },
  { items := [.container .mapping 3, .container .mapping 0, .container .mapping 3] },
  { fields := .ofList [("type", .text "BlockStatement"), ("body", .container .list 4)] },
  { fields := .ofList [("type", .text "BlockStatement"), ("body", .container .list 4)] },
  { items := [.container .mapping 3, .container .mapping 3, .container .mapping 5, .container .mapping 6,
      .container .mapping 3] },
  { fields := .ofList [("type", .text "Program"), ("first", .container .mapping 3), ("body", .container .list 7)] }]⟩

theorem program_stripped : ∃ r, stripper.Ends (.container .mapping 8) program () r ∧
    (r.store.cell 7).items = [.container .mapping 5, .container .mapping 6] ∧
    (r.store.cell 4).items = [.container .mapping 0] ∧
    ∃ r', stripper.Ends (.container .mapping 8) r.store () r' ∧ r'.store = r.store := by
  have layered : program.Layered := by decide
  have kept : program.Plain := by decide
  have plain : ∀ v, ReflTransGen (Value.Holds program) (.container .mapping 8) v → v.Plain :=
    fun v reach => kept.reaches (by decide) reach
  have asked : ∀ q < program.size, ∀ v ∈ (program.cell q).items, (isCall program v).isOk = true := by decide
  obtain ⟨r, ends, stripped, -, r', ends', -, same⟩ := statements_are_stripped () () (accept_stripper program) plain
    (fun v _ => layered.acyclic v) fun q v _ mem _ e fails => by
      have ok := asked q (Store.lt_size_of_mem_contents (List.mem_append_left _ mem)) v mem
      rw [fails] at ok
      cases ok
  have entries : ∀ q, (Value.container .mapping q).entries r.store = (Value.container .mapping q).entries program := by
    intro q
    simp only [Value.entries, stripped.fields]
  have outer : ("body", Value.container .list 7) ∈ (Value.container .mapping 8).entries r.store := by
    rw [entries]
    decide
  have body : (r.store.cell 7).items = [.container .mapping 5, .container .mapping 6] := by
    rw [stripped.listed 7 ⟨⟨.container .mapping 8, none, none, []⟩, "body", .refl, by decide, outer⟩]
    decide
  have node : (Value.container .mapping 5).isNode r.store = true := by
    simp only [Value.isNode, Value.tag, Store.attribute?, stripped.fields, stripped.inherited]
    decide
  have child : Occurrence.Child r.store stripper.reserved ⟨.container .mapping 8, none, none, []⟩ _ :=
    .element (i := 0) (by decide) outer rfl (congrArg (·[0]?) body) node
  have inner : (r.store.cell 4).items = [.container .mapping 0] := by
    rw [stripped.listed 4 ⟨_, "body", .single child, by decide, by rw [entries]; decide⟩]
    decide
  exact ⟨r, ends, body, inner, r', ends', same⟩

end Estree.Console

end TreeWalk
