/-
  TreeWalk.Proofs.Prospects — the calls that a walk has before it, as long as nothing sends it back.

  What is left to do is told by paths. A node that is about to be entered has all paths from it ahead; fields have those
  through their slots, a scan has those through the slots from its position on, and a visit under way has its own end.
  The paths are those of the store that the walk began with: what the walk looks at belongs to its tree, and reads as it
  did (`State.Among`).
  - `Store.Acyclic.callsLeft`: a bound for the calls of a phase that are still to come.
  - `Silent.callsLeft_le`: a silent move opens no way to more of them, if a signal that it reads leads ahead
    (`Signal.Ahead`). Where it stands for a call that has no callback, there are fewer.
-/

import Mathlib.Algebra.GroupWithZero.Nat
import TreeWalk.Proofs.Orders
import TreeWalk.Proofs.Stack

namespace TreeWalk

variable {σ ν : Type}

/-! ## Signals that lead ahead -/

/-- A signal about an element with a position sends the scan ahead or out of the list, if it sends it anywhere. -/
structure Signal.Ahead (s : Store) (index : Option Nat) (g : Signal) : Prop where
  placed : ∀ k r, g = .live k r → r < s.size
  resume : ∀ (i : Nat) (j : Int), index = some i → g.resume s = some j → j < 0 ∨ i < j

theorem Signal.ahead_silent (s : Store) (index : Option Nat) : Signal.silent.Ahead s index := by
  refine ⟨?_, ?_⟩
  · intro k r h
    cases h
  · intro i j _ h
    cases h

theorem Signal.Ahead.grows {s t : Store} {index : Option Nat} {g : Signal} (h : g.Ahead s index) (grows : s.Grows t) :
    g.Ahead t index := by
  refine ⟨fun k r e => Nat.lt_of_lt_of_le (h.placed k r e) grows.size, ?_⟩
  rw [Signal.resume_of_items (Signal.items_of_grows h.placed grows)]
  exact h.resume

/-! ## Walks that stay in their tree -/

namespace Value

variable {s t : Store} {v u : Value} {name : String}

theorem mem_ownNames_of_ownField (record : v.isRecord) (h : v.ownField s name = .ok (some u)) :
    name ∈ v.ownNames s := by
  cases v with
  | atom a =>
    cases a with
    | action a => cases h
    | foreign f =>
      cases f with
      | function => cases h
      | _ => cases record
    | _ => cases record
  | tuple vs => cases record
  | container k r =>
    have hk : k.hasFields = true := record
    simp only [ownField, hk, if_true, Except.ok.injEq] at h
    simp only [ownNames, hk, if_true]
    rw [Fields.mem_names_iff, h]
    rfl

theorem Reads.mem_entries (h : v.Reads s t) (record : v.isRecord) (field : v.ownField t name = .ok (some u)) :
    (name, u) ∈ v.entries s := by
  have hname := mem_ownNames_of_ownField record field
  rw [h.names] at hname
  obtain ⟨⟨name', u'⟩, hmem, rfl⟩ := List.mem_map.mp hname
  have same := h.field hmem
  rw [field] at same
  cases same
  exact hmem

end Value

/-- What a frame is going to look at is among some values. -/
def Frame.Among (P : Value → Prop) : Frame → Prop
  | .fields node _ _ => P node
  | .items seq _ _ _ _ => P seq
  | .visit _ _ => True

def Focus.Among (P : Value → Prop) : Focus → Prop
  | .enter o => P o.node
  | _ => True

def State.Among (P : Value → Prop) (s : State σ ν) : Prop := s.focus.Among P ∧ ∀ frame ∈ s.stack, frame.Among P

section

variable {store : Store} {P : Value → Prop} (closed : ∀ v u, P v → Value.Holds store v u → P u)

include closed

theorem Silent.among {reserved : List String} {t : Store} {F F' : Focus} {K K' : List Frame}
    (move : Silent reserved t F K F' K') (reads : ∀ v, P v → v.Reads store t) (sound : ∀ frame ∈ K, frame.Sound)
    (hF : F.Among P) (hK : ∀ frame ∈ K, frame.Among P) : F'.Among P ∧ ∀ frame ∈ K', frame.Among P := by
  -- A field of a record on top of the stack holds a value of the tree.
  have held : ∀ {node trail key names L v}, K = .fields node trail (key :: names) :: L →
      node.ownField t key = .ok (some v) → P v := by
    intro node trail key names L v e field
    subst e
    have record : node.isRecord := (List.forall_mem_cons.mp sound).1 (List.cons_ne_nil _ _)
    have hnode : P node := (List.forall_mem_cons.mp hK).1
    exact closed node v hnode (.field ((reads node hnode).mem_entries record field))
  cases move with
  | enter o => exact ⟨trivial, List.forall_mem_cons.mpr ⟨hF, List.forall_mem_cons.mpr ⟨trivial, hK⟩⟩⟩
  | leave => exact ⟨trivial, hK⟩
  | stop => exact ⟨trivial, hK⟩
  | fieldsOver => exact ⟨trivial, (List.forall_mem_cons.mp hK).2⟩
  | passField =>
    obtain ⟨top, below⟩ := List.forall_mem_cons.mp hK
    exact ⟨trivial, List.forall_mem_cons.mpr ⟨top, below⟩⟩
  | fault => exact ⟨trivial, by simp⟩
  | scan _ _ _ _ _ v _ field =>
    obtain ⟨top, below⟩ := List.forall_mem_cons.mp hK
    exact ⟨trivial, List.forall_mem_cons.mpr ⟨held rfl field, List.forall_mem_cons.mpr ⟨top, below⟩⟩⟩
  | child _ _ _ _ _ v _ field =>
    obtain ⟨top, below⟩ := List.forall_mem_cons.mp hK
    exact ⟨held rfl field, List.forall_mem_cons.mpr ⟨top, below⟩⟩
  | scanOver => exact ⟨trivial, (List.forall_mem_cons.mp hK).2⟩
  | item seq _ _ _ i _ v hv =>
    have hseq : P seq := (List.forall_mem_cons.mp hK).1
    rw [(reads seq hseq).items] at hv
    exact ⟨closed seq v hseq (.item (List.mem_of_getElem? hv)), hK⟩
  | passItem =>
    obtain ⟨top, below⟩ := List.forall_mem_cons.mp hK
    exact ⟨trivial, List.forall_mem_cons.mpr ⟨top, below⟩⟩
  | childrenOver => exact ⟨trivial, (List.forall_mem_cons.mp hK).2⟩
  | rootOver => exact ⟨trivial, hK⟩
  | exit => exact ⟨trivial, by simp⟩
  | resume =>
    obtain ⟨top, below⟩ := List.forall_mem_cons.mp hK
    exact ⟨trivial, List.forall_mem_cons.mpr ⟨top, below⟩⟩
  | toFields => exact ⟨trivial, hK⟩
  | toVisit => exact ⟨trivial, hK⟩
  | rest => exact ⟨trivial, hK⟩

theorem Moves.among {w : Walker σ ν} {s t : State σ ν} (h : Moves w s t) (reads : ∀ v, P v → v.Reads store s.store)
    (sound : s.Sound) (hs : s.Among P) : t.Among P := by
  cases h with
  | silent _ move => exact move.among closed reads sound hs.1 hs.2
  | raises => exact ⟨trivial, by simp⟩
  | exits => exact ⟨trivial, by simp⟩
  | skips => exact ⟨trivial, hs.2⟩
  | descends focus =>
    have hnode := hs.1
    rw [focus] at hnode
    exact ⟨trivial, List.forall_mem_cons.mpr ⟨hnode, List.forall_mem_cons.mpr ⟨trivial, hs.2⟩⟩⟩
  | leaves => exact ⟨trivial, hs.2⟩

end

/-! ## The slots that are ahead -/

namespace Value

variable {s : Store} {reserved : List String} {v u : Value} {key : String}

/-- The slots of one field of a record; a reserved field has none. -/
def slotsOf (s : Store) (reserved : List String) (v : Value) (key : String) : List Slot :=
  if key ∈ reserved then []
  else
    match v.ownField s key with
    | .ok (some u) => slotsAt s key u
    | _ => []

theorem slotsOf_of_mem (h : (key, u) ∈ v.entries s) :
    v.slotsOf s reserved key = if key ∈ reserved then [] else slotsAt s key u := by
  have reads : v.Reads s s := reads_of_cell fun _ _ _ => rfl
  rw [slotsOf, reads.field h]

theorem slots_eq_flatMap (s : Store) (reserved : List String) (v : Value) :
    v.slots s reserved = ((v.entries s).map Prod.fst).flatMap (v.slotsOf s reserved) := by
  rw [slots, List.flatMap_map]
  refine List.flatMap_congr fun e he => ?_
  exact (slotsOf_of_mem he).symm

/-- The slots of a list or tuple from a position on; outside of it there are none. -/
def slotsAhead (s : Store) (key : String) (seq : Value) (position : Int) : List Slot :=
  if 0 ≤ position then slotsFrom s key position.toNat ((seq.items s).drop position.toNat) else []

theorem slotsAhead_natCast (seq : Value) (i : Nat) :
    slotsAhead s key seq i = slotsFrom s key i ((seq.items s).drop i) := by
  rw [slotsAhead, if_pos (Int.natCast_nonneg i), Int.toNat_natCast]

theorem slotsAhead_of_getElem? {seq : Value} {i : Nat} (h : (seq.items s)[i]? = some v) :
    slotsAhead s key seq i = (if v.isNode s then [⟨key, some i, v⟩] else []) ++ slotsAhead s key seq (i + 1) := by
  obtain ⟨hi, rfl⟩ := List.getElem?_eq_some_iff.mp h
  have next : slotsAhead s key seq (i + 1) = slotsFrom s key (i + 1) ((seq.items s).drop (i + 1)) :=
    slotsAhead_natCast seq (i + 1)
  rw [slotsAhead_natCast, next, List.drop_eq_getElem_cons hi, slotsFrom_cons]

theorem slotsAhead_of_le {seq : Value} {i : Nat} (h : (seq.items s).length ≤ i) : slotsAhead s key seq i = [] := by
  rw [slotsAhead_natCast, List.drop_of_length_le h]
  rfl

theorem slotsAt_of_isSequence (h : u.isSequence) : slotsAt s key u = slotsAhead s key u 0 := by
  rw [slotsAt, if_pos h]
  exact (slotsAhead_natCast u 0).symm

end Value

/-! ## The calls that are left -/

namespace Store.Acyclic

variable {store : Store} (h : store.Acyclic) (reserved : List String) (phase : Phase)

/-- The number of paths from a value. -/
def paths (v : Value) : Nat := (h.preorder reserved v).length

def through (cs : List Slot) : Nat := (cs.map fun c => h.paths reserved c.value).sum

/-- The calls of a phase that a frame is going to make once what lies on it is over. -/
def frameCalls : Frame → Nat
  | .fields node _ names => h.through reserved (names.flatMap (node.slotsOf store reserved))
  | .items seq key _ _ position =>
    if 0 ≤ position then h.through reserved (seq.slotsAhead store key (position + 1)) else 0
  | .visit _ _ => if phase = .leave then 1 else 0

def frameCallsNow : Frame → Nat
  | .items seq key _ _ position => h.through reserved (seq.slotsAhead store key position)
  | frame => h.frameCalls reserved phase frame

def stackCalls (K : List Frame) : Nat := (K.map (h.frameCalls reserved phase)).sum

/-- A bound for the calls of a phase that are still to come. -/
def callsLeft : Focus → List Frame → Nat
  | .enter o, K => h.paths reserved o.node + h.stackCalls reserved phase K
  | .leave _ _, K => (if phase = .leave then 1 else 0) + h.stackCalls reserved phase K
  | .next, [] => 0
  | .next, frame :: K => h.frameCallsNow reserved phase frame + h.stackCalls reserved phase K
  | .back _, K => h.stackCalls reserved phase K
  | .done _, _ => 0

@[simp] theorem through_nil : h.through reserved [] = 0 := rfl

@[simp] theorem through_cons (c : Slot) (cs : List Slot) :
    h.through reserved (c :: cs) = h.paths reserved c.value + h.through reserved cs := rfl

@[simp] theorem through_append (cs ds : List Slot) :
    h.through reserved (cs ++ ds) = h.through reserved cs + h.through reserved ds := by
  simp [through]

@[simp] theorem stackCalls_cons (frame : Frame) (K : List Frame) :
    h.stackCalls reserved phase (frame :: K) = h.frameCalls reserved phase frame + h.stackCalls reserved phase K := rfl

theorem paths_eq (v : Value) : h.paths reserved v = h.through reserved (v.slots store reserved) + 1 := by
  rw [paths, preorder_eq, List.length_cons, List.length_flatMap]
  simp [through, paths]

theorem through_ahead_succ_le (key : String) (seq : Value) (i : Nat) :
    h.through reserved (seq.slotsAhead store key (i + 1 : Nat)) ≤ h.through reserved (seq.slotsAhead store key i) := by
  cases hv : (seq.items store)[i]? with
  | none =>
    have hlen := List.getElem?_eq_none_iff.mp hv
    rw [Value.slotsAhead_of_le (Nat.le_succ_of_le hlen)]
    exact Nat.zero_le _
  | some v =>
    rw [Value.slotsAhead_of_getElem? hv, through_append, Int.natCast_succ]
    exact Nat.le_add_left _ _

theorem through_ahead_le (key : String) (seq : Value) {i j : Nat} (hij : i ≤ j) :
    h.through reserved (seq.slotsAhead store key j) ≤ h.through reserved (seq.slotsAhead store key i) := by
  induction j, hij using Nat.le_induction with
  | base => exact Nat.le_refl _
  | succ j _ ih => exact (h.through_ahead_succ_le reserved key seq j).trans ih

/-- A scan that is sent ahead or out of its list has no more before it than one that goes on. -/
theorem through_resumed_le (key : String) (seq : Value) {g : Signal} {s : Store} {i : Nat}
    (ahead : g.Ahead s (some i)) :
    h.through reserved (seq.slotsAhead store key ((g.resume s).getD (i + 1))) ≤
      h.through reserved (seq.slotsAhead store key (i + 1)) := by
  cases hj : g.resume s with
  | none => exact Nat.le_refl _
  | some j =>
    rw [Option.getD_some]
    rcases ahead.resume i j rfl hj with out | further
    · rw [Value.slotsAhead, if_neg (by omega)]
      exact Nat.zero_le _
    · obtain ⟨q, rfl⟩ := Int.eq_ofNat_of_zero_le (show 0 ≤ j by omega)
      have hq : i + 1 ≤ q := by omega
      exact h.through_ahead_le reserved key seq hq

end Store.Acyclic

/-- One, if the next call is of this phase, should there be a callback for it. -/
def Focus.tick (phase : Phase) : Focus → Nat
  | .enter _ => if phase = .enter then 1 else 0
  | .leave _ _ => if phase = .leave then 1 else 0
  | _ => 0

section

variable {store : Store} (h : store.Acyclic) (reserved : List String) (phase : Phase)

/-- Whatever comes of entering a node, one call of each phase belongs to the node itself. -/
theorem callsLeft_descended {o o' : Occurrence} {t : Store}
    (names : o.node.ownNames t = (o.node.entries store).map Prod.fst) (trail : List Value) (g : Signal)
    (K : List Frame) :
    h.callsLeft reserved phase .next (.fields o.node trail (o.node.ownNames t) :: .visit o' g :: K) +
      Focus.tick phase (.enter o) = h.callsLeft reserved phase (.enter o) K := by
  have slots := h.paths_eq reserved o.node
  rw [Value.slots_eq_flatMap, ← names] at slots
  simp only [Store.Acyclic.callsLeft, Store.Acyclic.frameCallsNow, Store.Acyclic.frameCalls,
    Store.Acyclic.stackCalls_cons, slots]
  cases phase with
  | enter =>
    simp only [Focus.tick, reduceCtorEq, if_true, if_false]
    omega
  | leave =>
    simp only [Focus.tick, reduceCtorEq, if_true, if_false]
    omega

theorem tick_le_callsLeft (F : Focus) (K : List Frame) : F.tick phase ≤ h.callsLeft reserved phase F K := by
  cases F with
  | enter o =>
    have slots := h.paths_eq reserved o.node
    simp only [Focus.tick, Store.Acyclic.callsLeft]
    split <;> omega
  | leave => exact Nat.le_add_right _ _
  | next => exact Nat.zero_le _
  | back => exact Nat.zero_le _
  | done => exact Nat.zero_le _

variable {P : Value → Prop} (closed : ∀ v u, P v → Value.Holds store v u → P u)

include closed

/-- A silent move makes no calls, and opens no way to more of them. -/
theorem Silent.callsLeft_le {t : Store} {F F' : Focus} {K K' : List Frame} (move : Silent reserved t F K F' K')
    (reads : ∀ v, P v → v.Reads store t) (sound : ∀ frame ∈ K, frame.Sound) (stacked : Stacked K)
    (hF : F.Among P) (hK : ∀ frame ∈ K, frame.Among P)
    (ahead : ∀ g, F = .back g → ∃ o : Occurrence, o.LiesOn K ∧ g.Ahead t o.index) :
    h.callsLeft reserved phase F' K' + F.tick phase ≤ h.callsLeft reserved phase F K := by
  -- What a field of a record on top of the stack holds, and how many paths go through it.
  have field : ∀ {node trail key names L v}, K = .fields node trail (key :: names) :: L → key ∉ reserved →
      node.ownField t key = .ok (some v) → v.Reads store t ∧
        node.slotsOf store reserved key = Value.slotsAt store key v := by
    intro node trail key names L v e free field
    subst e
    have record : node.isRecord := (List.forall_mem_cons.mp sound).1 (List.cons_ne_nil _ _)
    have hnode : P node := (List.forall_mem_cons.mp hK).1
    have entry := (reads node hnode).mem_entries record field
    refine ⟨reads v (closed node v hnode (.field entry)), ?_⟩
    rw [Value.slotsOf_of_mem entry, if_neg free]
  cases move with
  | enter o K => exact Nat.le_of_eq (callsLeft_descended h reserved phase (reads o.node hF).names _ _ _)
  | leave => exact Nat.le_of_eq (Nat.add_comm _ _)
  | stop => exact Nat.le_refl _
  | fieldsOver node trail K =>
    -- Fields lie at the bottom or on a visit, never on a scan.
    rcases stacked.1 with rfl | ⟨o, g, below, rfl, -, -⟩
    · exact Nat.zero_le _
    · exact Nat.le_add_left _ _
  | passField => simp [Store.Acyclic.callsLeft, Store.Acyclic.frameCallsNow, Store.Acyclic.frameCalls, Focus.tick]
  | fault => exact Nat.zero_le _
  | scan node trail key names L v free hv hs =>
    obtain ⟨-, slots⟩ := field rfl free hv
    rw [Value.slotsAt_of_isSequence hs] at slots
    simp [Store.Acyclic.callsLeft, Store.Acyclic.frameCallsNow, Store.Acyclic.frameCalls, Focus.tick, slots]
    omega
  | child node trail key names L v free hv hs hn =>
    obtain ⟨hreads, slots⟩ := field rfl free hv
    rw [hreads.isNode] at hn
    simp only [Value.slotsAt, hs, hn, Bool.false_eq_true, if_false, if_true] at slots
    simp [Store.Acyclic.callsLeft, Store.Acyclic.frameCallsNow, Store.Acyclic.frameCalls, Focus.tick, slots]
    omega
  | scanOver seq key parent trail position K =>
    obtain ⟨names, below, rfl⟩ := stacked.1
    exact Nat.le_add_left _ _
  | item seq key parent trail i L v hv hn =>
    have hseq : P seq := (List.forall_mem_cons.mp hK).1
    rw [(reads seq hseq).items] at hv
    rw [(reads v (closed seq v hseq (.item (List.mem_of_getElem? hv)))).isNode] at hn
    simp [Store.Acyclic.callsLeft, Store.Acyclic.frameCallsNow, Store.Acyclic.frameCalls, Focus.tick,
      Value.slotsAhead_of_getElem? hv, hn]
    omega
  | passItem seq key parent trail i L v hv =>
    have hseq : P seq := (List.forall_mem_cons.mp hK).1
    rw [(reads seq hseq).items] at hv
    simp [Store.Acyclic.callsLeft, Store.Acyclic.frameCallsNow, Focus.tick,
      Value.slotsAhead_of_getElem? hv]
  | childrenOver => exact Nat.le_refl _
  | rootOver => exact Nat.le_refl _
  | exit => exact Nat.zero_le _
  | resume g seq key parent trail position L =>
    obtain ⟨o, ⟨-, i, index, rfl⟩, hg⟩ := ahead g rfl
    rw [index] at hg
    have fewer := h.through_resumed_le reserved key seq hg
    simp [Store.Acyclic.callsLeft, Store.Acyclic.frameCallsNow, Store.Acyclic.frameCalls, Focus.tick]
    exact fewer
  | toFields => exact Nat.le_refl _
  | toVisit => exact Nat.le_refl _
  | rest => exact Nat.le_refl _

end

end TreeWalk
