/-
  TreeWalk.Proofs.Likeness — two walks in stores that look alike.

  A walk looks at a value in five ways: whether it has a type and which, whether it is a list or tuple, what names it has
  for its fields, what a field holds, and what elements it has. Two stores look alike through a relation between values
  if like values answer these alike, with like fields and like elements (`Likeness`). Where two walks stand at the same
  point in such stores, a silent move of the one is matched by the other (`Silent.mirror`).

  The walks may hold different signals, as long as those are read alike (`Signal.Reads`): both ask to exit or neither
  does, and a scan that goes on goes on at the same position. The signal of a visit that is under way is read only if
  there is no `leave` (`Signal.Held`).
  - `Value.Like`, `Store.Like`: the likeness of stores whose containers correspond in any way, place by place
    (`Store.Like.likeness`).
-/

import Mathlib.Data.List.Forall2
import TreeWalk.Proofs.Children
import TreeWalk.Proofs.Stack

namespace TreeWalk

/-! ## Stores that look alike -/

section

variable (V : Value → Value → Prop)

/-- What two look-ups of a field gave: the same fault, nothing, or like values. -/
inductive FieldLike : Except Fault (Option Value) → Except Fault (Option Value) → Prop
  | fault (e : Fault) : FieldLike (.error e) (.error e)
  | missing : FieldLike (.ok none) (.ok none)
  | found {v v' : Value} (h : V v v') : FieldLike (.ok (some v)) (.ok (some v'))

/-- Like values look alike in these stores. -/
structure Likeness (s s' : Store) : Prop where
  tag : ∀ {v v'}, V v v' → v'.tag s' = v.tag s
  sequence : ∀ {v v'}, V v v' → v'.isSequence = v.isSequence
  names : ∀ {v v'}, V v v' → v'.ownNames s' = v.ownNames s
  field : ∀ {v v'}, V v v' → ∀ name, FieldLike V (v.ownField s name) (v'.ownField s' name)
  items : ∀ {v v'}, V v v' → List.Forall₂ V (v.items s) (v'.items s')

structure Occurrence.Like (o o' : Occurrence) : Prop where
  node : V o.node o'.node
  key : o'.key = o.key
  index : o'.index = o.index
  ancestors : List.Forall₂ V o.ancestors o'.ancestors

structure Call.Like (c c' : Call) : Prop where
  occurrence : c.toOccurrence.Like V c'.toOccurrence
  phase : c'.phase = c.phase

end

theorem FieldLike.atom {V : Value → Value → Prop} (hV : ∀ a, V (.atom a) (.atom a)) {s s' : Store} (a : Atom)
    (name : String) : FieldLike V ((Value.atom a).ownField s name) ((Value.atom a).ownField s' name) := by
  cases a with
  | action => exact .missing
  | foreign f =>
    cases f with
    | function => exact .missing
    | marker =>
      simp only [Value.ownField]
      split
      · exact .found (hV _)
      · exact .missing
    | _ => exact .fault _
  | _ => exact .fault _

namespace Likeness

variable {V : Value → Value → Prop} {s s' : Store} {v v' : Value}

theorem isNode (h : Likeness V s s') (hv : V v v') : v'.isNode s' = v.isNode s := by
  simp only [Value.isNode, h.tag hv]

theorem label (h : Likeness V s s') (hv : V v v') (colored : Bool) : v'.label s' colored = v.label s colored := by
  simp only [Value.label, h.tag hv]

theorem length (h : Likeness V s s') (hv : V v v') : (v'.items s').length = (v.items s).length :=
  (h.items hv).length_eq.symm

theorem element (h : Likeness V s s') (hv : V v v') {i : Nat} {u : Value} (hu : (v.items s)[i]? = some u) :
    ∃ u', (v'.items s')[i]? = some u' ∧ V u u' := by
  obtain ⟨hi, rfl⟩ := List.getElem?_eq_some_iff.mp hu
  have hi' : i < (v'.items s').length := by rw [h.length hv]; exact hi
  exact ⟨(v'.items s')[i], List.getElem?_eq_getElem hi', (h.items hv).get hi hi'⟩

theorem found (h : Likeness V s s') (hv : V v v') {key : String} {u : Value}
    (hu : v.ownField s key = .ok (some u)) : ∃ u', v'.ownField s' key = .ok (some u') ∧ V u u' := by
  have hfield := h.field hv key
  rw [hu] at hfield
  generalize v'.ownField s' key = field' at hfield
  cases hfield with
  | found h => exact ⟨_, rfl, h⟩

theorem fault (h : Likeness V s s') (hv : V v v') {key : String} {e : Fault}
    (he : v.ownField s key = .error e) : v'.ownField s' key = .error e := by
  have hfield := h.field hv key
  rw [he] at hfield
  generalize v'.ownField s' key = field' at hfield ⊢
  cases hfield
  rfl

/-- A field that is gone here, or holds neither a list nor a node, is such a field there. -/
theorem passed (h : Likeness V s s') (hv : V v v') {key : String}
    (pass : ∃ o, v.ownField s key = .ok o ∧ ∀ u, o = some u → u.isSequence = false ∧ u.isNode s = false) :
    ∃ o, v'.ownField s' key = .ok o ∧ ∀ u, o = some u → u.isSequence = false ∧ u.isNode s' = false := by
  obtain ⟨o, ho, hpass⟩ := pass
  cases o with
  | none =>
    have hfield := h.field hv key
    rw [ho] at hfield
    generalize v'.ownField s' key = field' at hfield ⊢
    cases hfield
    exact ⟨none, rfl, nofun⟩
  | some u =>
    obtain ⟨u', hu', hlike⟩ := h.found hv ho
    obtain ⟨hseq, hn⟩ := hpass u rfl
    refine ⟨some u', hu', fun w hw => ?_⟩
    cases hw
    exact ⟨(h.sequence hlike).trans hseq, (h.isNode hlike).trans hn⟩

theorem record (h : Likeness V s s') {c c' : Call} (hc : c.Like V c') (colored : Bool) :
    c'.record s' colored = c.record s colored := by
  simp only [Call.record, hc.phase, h.label hc.occurrence.node, hc.occurrence.key, hc.occurrence.index,
    hc.occurrence.ancestors.length_eq]

theorem exitRecord (h : Likeness V s s') {c c' : Call} (hc : c.Like V c') (colored : Bool) :
    c'.exitRecord s' colored = c.exitRecord s colored := by
  unfold Call.exitRecord
  rw [hc.phase, h.label hc.occurrence.node]

end Likeness

/-! ## Signals that are read alike -/

/-- Both signals ask to exit or neither does; where a scan goes on, it goes on at the same position. -/
def Signal.Reads (s s' : Store) (scans : Prop) (g g' : Signal) : Prop :=
  g'.isExit s' = g.isExit s ∧ (g.isExit s = false → scans → g'.resume s' = g.resume s)

/-- The signals of a visit that is under way. Only without `leave` are they going to be read, when it is over. -/
def Signal.Held (leave : Bool) (s s' : Store) (o : Occurrence) (g g' : Signal) : Prop :=
  leave = false → g.isExit s = false ∧ g.Reads s s' o.index.isSome g'

theorem Signal.held_silent (leave : Bool) (s s' : Store) (o : Occurrence) : Signal.Held leave s s' o .silent .silent :=
  fun _ => ⟨rfl, rfl, fun _ _ => rfl⟩

theorem Signal.Held.later {leave : Bool} {s s' t t' : Store} {o : Occurrence} {g g' : Signal}
    (h : Signal.Held leave s s' o g g') (hg : g.items t = g.items s) (hg' : g'.items t' = g'.items s') :
    Signal.Held leave t t' o g g' := by
  intro hl
  obtain ⟨hx, hexit, hresume⟩ := h hl
  have e := Signal.isExit_of_items hg
  refine ⟨e.trans hx, ?_, fun hx' hscan => ?_⟩
  · rw [Signal.isExit_of_items hg', e, hexit]
  · rw [Signal.resume_of_items hg', Signal.resume_of_items hg]
    exact hresume hx hscan

/-! ## Walks at the same point -/

section

variable (V : Value → Value → Prop) (leave : Bool) (s s' : Store)

inductive Frame.Like : Frame → Frame → Prop
  | fields {node node' : Value} {trail trail' : List Value} (names : List String) (hnode : V node node')
      (htrail : List.Forall₂ V trail trail') : Frame.Like (.fields node trail names) (.fields node' trail' names)
  | items {seq seq' parent parent' : Value} {trail trail' : List Value} (key : String) (position : Int)
      (hseq : V seq seq') (hparent : V parent parent') (htrail : List.Forall₂ V trail trail') :
      Frame.Like (.items seq key parent trail position) (.items seq' key parent' trail' position)
  | visit {o o' : Occurrence} {g g' : Signal} (ho : o.Like V o') (hg : Signal.Held leave s s' o g g') :
      Frame.Like (.visit o g) (.visit o' g')

def scanning : List Frame → Prop
  | .items _ _ _ _ _ :: _ => True
  | _ => False

/-- What two walks are about to do with the stack `K` of the one below. -/
inductive Focus.Like (K : List Frame) : Focus → Focus → Prop
  | enter {o o' : Occurrence} (ho : o.Like V o') : Focus.Like K (.enter o) (.enter o')
  | leave {o o' : Occurrence} {g g' : Signal} (ho : o.Like V o') (hg : Signal.Held leave s s' o g g') :
      Focus.Like K (.leave o g) (.leave o' g')
  | next : Focus.Like K .next .next
  | back {g g' : Signal} (hg : g.Reads s s' (scanning K) g') : Focus.Like K (.back g) (.back g')
  | raised (e : Fault) : Focus.Like K (.done (.raised e)) (.done (.raised e))
  | returned (g g' : Signal) : Focus.Like K (.done (.returned g)) (.done (.returned g'))

end

theorem Occurrence.LiesOn.index_of_scanning {o : Occurrence} {K : List Frame} (h : o.LiesOn K) (scans : scanning K) :
    o.index.isSome := by
  cases K with
  | nil => cases scans
  | cons frame K =>
    cases frame with
    | items seq key parent trail position => exact h.index_isSome
    | fields => cases scans
    | visit => cases scans

theorem Frame.Like.later {V : Value → Value → Prop} {leave : Bool} {s s' t t' : Store} {f f' : Frame}
    (h : f.Like V leave s s' f') (hf : ∀ o g, f = .visit o g → g.items t = g.items s)
    (hf' : ∀ o g, f' = .visit o g → g.items t' = g.items s') : f.Like V leave t t' f' := by
  cases h with
  | fields names hnode htrail => exact .fields names hnode htrail
  | items key position hseq hparent htrail => exact .items key position hseq hparent htrail
  | visit ho hg => exact .visit ho (hg.later (hf _ _ rfl) (hf' _ _ rfl))

theorem stackLike_later {V : Value → Value → Prop} {leave : Bool} {s s' t t' : Store} {K K' : List Frame}
    (h : List.Forall₂ (Frame.Like V leave s s') K K') (hK : ∀ o g, .visit o g ∈ K → g.items t = g.items s)
    (hK' : ∀ o g, .visit o g ∈ K' → g.items t' = g.items s') : List.Forall₂ (Frame.Like V leave t t') K K' := by
  induction h with
  | nil => exact .nil
  | @cons f f' K K' hf _ ih =>
    refine .cons (hf.later ?_ ?_) (ih ?_ ?_)
    · rintro o g rfl
      exact hK o g List.mem_cons_self
    · rintro o g rfl
      exact hK' o g List.mem_cons_self
    · exact fun o g hm => hK o g (List.mem_cons_of_mem _ hm)
    · exact fun o g hm => hK' o g (List.mem_cons_of_mem _ hm)

/-! ## Moves that are matched -/

section

variable {V : Value → Value → Prop} {leave : Bool} {reserved : List String} {s s' : Store}

/-- From here the other walk has a silent move that leads to where this one is then. -/
def Mirrored (V : Value → Value → Prop) (leave : Bool) (reserved : List String) (s s' : Store) (F' : Focus)
    (K' : List Frame) (F₁ : Focus) (K₁ : List Frame) : Prop :=
  ∃ F₁' K₁', Silent reserved s' F' K' F₁' K₁' ∧ F₁.Like V leave s s' K₁ F₁' ∧
    List.Forall₂ (Frame.Like V leave s s') K₁ K₁'

variable (like : Likeness V s s') {F₁ : Focus} {K K' K₁ : List Frame}
  (hK : List.Forall₂ (Frame.Like V leave s s') K K')

include like hK

theorem Silent.mirror_fields {node node' : Value} {trail trail' : List Value} {names : List String}
    (hnode : V node node') (htrail : List.Forall₂ V trail trail')
    (h : Silent reserved s .next (.fields node trail names :: K) F₁ K₁) :
    Mirrored V leave reserved s s' .next (.fields node' trail' names :: K') F₁ K₁ := by
  cases h with
  | fieldsOver => exact ⟨_, _, .fieldsOver _ _ _, .next, hK⟩
  | passField _ _ key names _ pass =>
    exact ⟨_, _, .passField _ _ key names _ (pass.imp_right (like.passed hnode)), .next,
      .cons (.fields names hnode htrail) hK⟩
  | fault _ _ key names _ e free he =>
    exact ⟨_, _, .fault _ _ key names _ e free (like.fault hnode he), .raised e, .nil⟩
  | scan _ _ key names _ v free hv hseq =>
    obtain ⟨v', hv', hlike⟩ := like.found hnode hv
    refine ⟨_, _, .scan _ _ key names _ v' free hv' ((like.sequence hlike).trans hseq), .next, ?_⟩
    exact .cons (.items key 0 hlike hnode htrail) (.cons (.fields names hnode htrail) hK)
  | child _ _ key names _ v free hv hseq hn =>
    obtain ⟨v', hv', hlike⟩ := like.found hnode hv
    have ancestors : List.Forall₂ V (trail ++ [node]) (trail' ++ [node']) :=
      List.rel_append htrail (.cons hnode .nil)
    exact ⟨_, _, .child _ _ key names _ v' free hv' ((like.sequence hlike).trans hseq)
      ((like.isNode hlike).trans hn), .enter ⟨hlike, rfl, rfl, ancestors⟩, .cons (.fields names hnode htrail) hK⟩

theorem Silent.mirror_items {seq seq' parent parent' : Value} {trail trail' : List Value} {key : String} {position : Int}
    (hseq : V seq seq') (hparent : V parent parent') (htrail : List.Forall₂ V trail trail')
    (h : Silent reserved s .next (.items seq key parent trail position :: K) F₁ K₁) :
    Mirrored V leave reserved s s' .next (.items seq' key parent' trail' position :: K') F₁ K₁ := by
  cases h with
  | scanOver _ _ _ _ _ _ outside =>
    refine ⟨_, _, .scanOver _ key _ _ position _ ?_, .next, hK⟩
    rwa [like.length hseq]
  | item _ _ _ _ i _ v hv hn =>
    obtain ⟨v', hv', hlike⟩ := like.element hseq hv
    have ancestors : List.Forall₂ V (trail ++ [parent]) (trail' ++ [parent']) :=
      List.rel_append htrail (.cons hparent .nil)
    exact ⟨_, _, .item _ key _ _ i _ v' hv' ((like.isNode hlike).trans hn), .enter ⟨hlike, rfl, rfl, ancestors⟩,
      .cons (.items key i hseq hparent htrail) hK⟩
  | passItem _ _ _ _ i _ v hv hn =>
    obtain ⟨v', hv', hlike⟩ := like.element hseq hv
    exact ⟨_, _, .passItem _ key _ _ i _ v' hv' ((like.isNode hlike).trans hn), .next,
      .cons (.items key (i + 1) hseq hparent htrail) hK⟩

omit like

theorem Silent.mirror_back {frame frame' : Frame} {g g' : Signal} (hg : g.Reads s s' (TreeWalk.scanning (frame :: K)) g')
    (hf : frame.Like V leave s s' frame') (lies : (Focus.back g).LiesOn (frame :: K))
    (h : Silent reserved s (.back g) (frame :: K) F₁ K₁) :
    Mirrored V leave reserved s s' (.back g') (frame' :: K') F₁ K₁ := by
  cases h with
  | exit _ _ _ hx => exact ⟨_, _, .exit _ _ _ (hg.1.trans hx), .returned _ _, .nil⟩
  | resume _ seq key parent trail position _ hx =>
    cases hf with
    | items _ _ hseq hparent htrail =>
      refine ⟨_, _, .resume _ _ key _ _ position _ (hg.1.trans hx), .next, ?_⟩
      rw [hg.2 hx trivial]
      exact .cons (.items key _ hseq hparent htrail) hK
  | toFields _ node trail names _ hx =>
    cases hf with
    | fields _ hnode htrail =>
      exact ⟨_, _, .toFields _ _ _ names _ (hg.1.trans hx), .next, .cons (.fields names hnode htrail) hK⟩
  | toVisit _ o g' _ hx => exact absurd rfl (lies o g' _)

include like

/-- A silent move of one walk is matched by the other. -/
theorem Silent.mirror {F F' : Focus} (h : Silent reserved s F K F₁ K₁) (hF : F.Like V leave s s' K F')
    (lies : F.LiesOn K) (silent : ∀ o g, F = .leave o g → leave = false) :
    Mirrored V leave reserved s s' F' K' F₁ K₁ := by
  cases hF with
  | @enter o o' ho =>
    cases h
    refine ⟨_, _, .enter _ _, .next, ?_⟩
    rw [like.names ho.node]
    exact .cons (.fields _ ho.node ho.ancestors) (.cons (.visit ho (Signal.held_silent leave s s' o)) hK)
  | @leave o o' g g' ho hg =>
    cases h
    -- Without `leave` the signal is read, and its position only by a scan.
    obtain ⟨-, hexit, hresume⟩ := hg (silent o g rfl)
    have hlies : o.LiesOn K := lies
    exact ⟨_, _, .leave _ _ _, .back ⟨hexit, fun hx hscan => hresume hx (hlies.index_of_scanning hscan)⟩, hK⟩
  | next =>
    cases hK with
    | nil =>
      cases h
      exact ⟨_, _, .stop, .returned _ _, .nil⟩
    | cons hf hK =>
      cases hf with
      | fields names hnode htrail => exact h.mirror_fields like hK hnode htrail
      | items key position hseq hparent htrail => exact h.mirror_items like hK hseq hparent htrail
      | visit ho hg =>
        cases h
        exact ⟨_, _, .childrenOver _ _ _, .leave ho hg, hK⟩
  | back hg =>
    cases hK with
    | nil =>
      cases h
      exact ⟨_, _, .rootOver _, .returned _ _, .nil⟩
    | cons hf hK => exact h.mirror_back hK hg hf lies
  | raised e =>
    cases h
    exact ⟨_, _, .rest _ _, .raised e, hK⟩
  | returned g g' =>
    cases h
    exact ⟨_, _, .rest _ _, .returned g g', hK⟩

end

/-! ## Containers that correspond -/

/-- Atoms are the same, tuples have like elements, and containers are of one kind and correspond. -/
inductive Value.Like (R : Ref → Ref → Prop) : Value → Value → Prop
  | atom (a : Atom) : Value.Like R (.atom a) (.atom a)
  | tuple {vs vs' : List Value} (h : List.Forall₂ (Value.Like R) vs vs') : Value.Like R (.tuple vs) (.tuple vs')
  | container (kind : Kind) {r r' : Ref} (h : R r r') : Value.Like R (.container kind r) (.container kind r')

/-- The same names in the same order, for like values. -/
structure Fields.Like (R : Ref → Ref → Prop) (f f' : Fields Value) : Prop where
  names : f'.names = f.names
  get? : ∀ name, Option.Rel (Value.Like R) (f.get? name) (f'.get? name)

structure Cell.Like (R : Ref → Ref → Prop) (c c' : Cell) : Prop where
  items : List.Forall₂ (Value.Like R) c.items c'.items
  fields : c.fields.Like R c'.fields
  inherited : c.inherited.Like R c'.inherited

/-- In places that correspond there are like contents. -/
def Store.Like (R : Ref → Ref → Prop) (s s' : Store) : Prop := ∀ r r', R r r' → (s.cell r).Like R (s'.cell r')

section

variable {R : Ref → Ref → Prop}

namespace Value

mutual

theorem like_self : (v : Value) → (∀ r ∈ v.refs, R r r) → v.Like R v
  | .atom a, _ => .atom a
  | .tuple vs, h => .tuple (like_selfAll vs h)
  | .container k r, h => .container k (h r (List.mem_singleton_self r))

theorem like_selfAll : (vs : List Value) → (∀ r ∈ refsAll vs, R r r) → List.Forall₂ (Value.Like R) vs vs
  | [], _ => .nil
  | v :: vs, h =>
    .cons (like_self v fun r hr => h r (List.mem_append_left _ hr))
      (like_selfAll vs fun r hr => h r (List.mem_append_right _ hr))

end

mutual

theorem Like.eq (hR : ∀ r r', R r r' → r = r') : (v v' : Value) → v.Like R v' → v = v'
  | _, _, .atom _ => rfl
  | .tuple vs, .tuple vs', .tuple h => congrArg Value.tuple (eqAll hR vs vs' h)
  | _, _, .container k h => congrArg (Value.container k) (hR _ _ h)

theorem eqAll (hR : ∀ r r', R r r' → r = r') : (vs vs' : List Value) → List.Forall₂ (Value.Like R) vs vs' → vs = vs'
  | [], [], .nil => rfl
  | v :: vs, v' :: vs', .cons h hs => by rw [Like.eq hR v v' h, eqAll hR vs vs' hs]

end

theorem Like.text? {v v' : Value} (h : v.Like R v') : v'.text? = v.text? := by
  cases h <;> rfl

end Value

theorem Fields.like_self {f : Fields Value} (h : ∀ v ∈ f.entries.map Prod.snd, ∀ r ∈ v.refs, R r r) : f.Like R f := by
  refine ⟨rfl, fun name => ?_⟩
  cases hv : f.get? name with
  | none => exact .none
  | some v =>
    obtain ⟨front, back, hf, -⟩ := List.lookup_eq_some_iff.mp hv
    refine .some (v.like_self (h v (List.mem_map.mpr ⟨(name, v), ?_, rfl⟩)))
    rw [hf]
    exact List.mem_append_right _ List.mem_cons_self

theorem Cell.like_self {c : Cell}
    (h : ∀ v ∈ c.items ++ c.fields.entries.map Prod.snd ++ c.inherited.entries.map Prod.snd, ∀ r ∈ v.refs, R r r) :
    c.Like R c := by
  simp only [List.forall_mem_append] at h
  obtain ⟨⟨items, fields⟩, inherited⟩ := h
  exact ⟨List.forall₂_same.mpr fun v hv => v.like_self (items v hv), Fields.like_self fields,
    Fields.like_self inherited⟩

theorem Fields.Like.text? {f f' : Fields Value} (h : f.Like R f') (name : String) :
    (f'.get? name).bind Value.text? = (f.get? name).bind Value.text? := by
  have hrel := h.get? name
  generalize f.get? name = field at hrel ⊢
  generalize f'.get? name = field' at hrel ⊢
  cases hrel with
  | none => rfl
  | some hv => exact hv.text?

theorem Store.Like.tag {s s' : Store} (h : s.Like R s') {v v' : Value} (hv : v.Like R v') : v'.tag s' = v.tag s := by
  cases hv with
  | atom => rfl
  | tuple => rfl
  | @container kind r r' hr =>
    have hcell := h r r' hr
    have own := hcell.fields.get? "type"
    have inherited := hcell.inherited.text? "type"
    simp only [Value.tag, Store.attribute?]
    split
    · generalize (s.cell r).fields.get? "type" = field at own ⊢
      generalize (s'.cell r').fields.get? "type" = field' at own ⊢
      cases own with
      | none =>
        simp only
        split
        · exact inherited
        · rfl
      | some hv => exact hv.text?
    · rfl

/-- Stores whose places correspond look alike. -/
theorem Store.Like.likeness {s s' : Store} (h : s.Like R s') : Likeness (Value.Like R) s s' := by
  refine ⟨h.tag, ?_, ?_, ?_, ?_⟩
  · intro v v' hv
    cases hv <;> rfl
  · intro v v' hv
    cases hv with
    | atom => rfl
    | tuple => rfl
    | @container kind r r' hr => simp only [Value.ownNames, (h r r' hr).fields.names]
  · intro v v' hv name
    cases hv with
    | atom a => exact .atom .atom a name
    | tuple => exact .fault _
    | @container kind r r' hr =>
      have own := (h r r' hr).fields.get? name
      simp only [Value.ownField]
      split
      · generalize (s.cell r).fields.get? name = field at own ⊢
        generalize (s'.cell r').fields.get? name = field' at own ⊢
        cases own with
        | none => exact .missing
        | some hv => exact .found hv
      · exact .fault _
  · intro v v' hv
    cases hv with
    | atom => exact .nil
    | tuple hvs => exact hvs
    | @container kind r r' hr =>
      simp only [Value.items]
      split
      · exact (h r r' hr).items
      · exact .nil

end

end TreeWalk
