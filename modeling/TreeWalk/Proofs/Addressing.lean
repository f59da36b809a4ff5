/-
  TreeWalk.Proofs.Addressing — a node that is entered stands where its key and its index say.

  A scan keeps the list that it came upon, and a position in it. Callbacks may edit the list in place, and name any
  position; the scan reads the list again each time. So the place it tells a callback is right as long as the list is
  still what the field of the record holds (`Walker.Keeps`): a field whose list is being scanned is not given another
  value and not removed. All other fields are free.
  - `Frame.Held`, `Occurrence.Addressed`: the list of a scan is what its field holds, a node what its place holds.
  - `Moves.addressed`, `Walker.addressed_run`: one step keeps this, and so does a walk.
  - `removeFromParent_of_addressed`: a node can be taken out of its list by its place.
  - `entered_nodes_are_addressed`: both, for every call of `enter`.
-/

import Mathlib.Control.Monad.Basic
import TreeWalk.Estree.Console
import TreeWalk.Proofs.Children
import TreeWalk.Proofs.EarlyStop
import TreeWalk.Proofs.Splice

namespace TreeWalk

variable {σ ν : Type}

/-! ## Places -/

/-- The list that is scanned is what the field holds. -/
def Frame.Held (store : Store) : Frame → Prop
  | .items seq key parent _ _ => parent.ownField store key = .ok (some seq) ∧ seq.isSequence = true
  | _ => True

/-- The field whose list is scanned holds what it held. -/
def Frame.Kept (s t : Store) : Frame → Prop
  | .items _ key parent _ _ => parent.ownField t key = parent.ownField s key
  | _ => True

instance (s t : Store) : DecidablePred (Frame.Kept s t)
  | .items _ key parent _ _ => inferInstanceAs (Decidable (parent.ownField t key = parent.ownField s key))
  | .fields _ _ _ => inferInstanceAs (Decidable True)
  | .visit _ _ => inferInstanceAs (Decidable True)

/-- The next call leaves the fields alone whose lists are being scanned. -/
def Walker.Keeps (w : Walker σ ν) (s : State σ ν) : Prop :=
  ∀ x, w.exchange? s = some x → ∀ frame ∈ s.stack, frame.Kept x.before x.reply.store

/-- The innermost ancestor holds the node in the field `key`, or in the list of this field at `index`. -/
def Occurrence.Addressed (store : Store) (o : Occurrence) : Prop :=
  ∃ parent key v, o.ancestors.getLast? = some parent ∧ o.key = some key ∧ parent.ownField store key = .ok (some v) ∧
    match o.index with
    | none => v = o.node
    | some i => v.isSequence = true ∧ (v.items store)[i]? = some o.node

/-- Every scan goes through what its field holds, and a node that is about to be entered stands where it is said to. -/
structure State.Addressed (tree : Value) (s : State σ ν) : Prop where
  held : ∀ frame ∈ s.stack, frame.Held s.store
  entering : ∀ o, s.focus = .enter o → o = ⟨tree, none, none, []⟩ ∨ o.Addressed s.store

/-! ## Every step -/

theorem Frame.Held.kept {s t : Store} {frame : Frame} (held : frame.Held s) (kept : frame.Kept s t) : frame.Held t := by
  cases frame with
  | items seq key parent trail position => exact ⟨Eq.trans kept held.1, held.2⟩
  | fields node trail names => trivial
  | visit o g => trivial

/-- A step without a call reads the store again: a field that is looked at, or the position of a list. -/
theorem Silent.addressed {reserved : List String} {store : Store} {F F' : Focus} {K K' : List Frame}
    (h : Silent reserved store F K F' K') (held : ∀ frame ∈ K, frame.Held store) :
    (∀ frame ∈ K', frame.Held store) ∧ ∀ o, F' = .enter o → o.Addressed store := by
  have last : ∀ (trail : List Value) (node : Value), (trail ++ [node]).getLast? = some node := fun trail node =>
    List.getLast?_concat
  cases h with
  | enter => exact ⟨List.forall_mem_cons.mpr ⟨trivial, List.forall_mem_cons.mpr ⟨trivial, held⟩⟩, nofun⟩
  | leave => exact ⟨held, nofun⟩
  | stop => exact ⟨nofun, nofun⟩
  | fieldsOver => exact ⟨(List.forall_mem_cons.mp held).2, nofun⟩
  | passField => exact ⟨List.forall_mem_cons.mpr ⟨trivial, (List.forall_mem_cons.mp held).2⟩, nofun⟩
  | fault => exact ⟨nofun, nofun⟩
  | scan node trail key names K v free field sequence =>
    refine ⟨List.forall_mem_cons.mpr ⟨⟨field, sequence⟩, ?_⟩, nofun⟩
    exact List.forall_mem_cons.mpr ⟨trivial, (List.forall_mem_cons.mp held).2⟩
  | child node trail key names K v free field =>
    refine ⟨List.forall_mem_cons.mpr ⟨trivial, (List.forall_mem_cons.mp held).2⟩, fun o ho => ?_⟩
    cases ho
    exact ⟨node, key, v, last trail node, rfl, field, rfl⟩
  | scanOver => exact ⟨(List.forall_mem_cons.mp held).2, nofun⟩
  | item seq key parent trail i K v stands =>
    -- The scan looks at its list, which is what the field still holds.
    obtain ⟨field, sequence⟩ := (List.forall_mem_cons.mp held).1
    refine ⟨held, fun o ho => ?_⟩
    cases ho
    exact ⟨parent, key, seq, last trail parent, rfl, field, sequence, stands⟩
  | passItem =>
    obtain ⟨⟨field, sequence⟩, below⟩ := List.forall_mem_cons.mp held
    exact ⟨List.forall_mem_cons.mpr ⟨⟨field, sequence⟩, below⟩, nofun⟩
  | childrenOver => exact ⟨(List.forall_mem_cons.mp held).2, nofun⟩
  | rootOver => exact ⟨nofun, nofun⟩
  | exit => exact ⟨nofun, nofun⟩
  | resume =>
    obtain ⟨⟨field, sequence⟩, below⟩ := List.forall_mem_cons.mp held
    exact ⟨List.forall_mem_cons.mpr ⟨⟨field, sequence⟩, below⟩, nofun⟩
  | toFields => exact ⟨held, nofun⟩
  | toVisit => exact ⟨held, nofun⟩
  | rest => exact ⟨held, nofun⟩

theorem addressed_after {w : Walker σ ν} {tree : Value} {s : State σ ν} {c : Call} {r : Reply σ ν} {F : Focus}
    {K : List Frame} (held : ∀ frame ∈ K, frame.Held r.store) (other : ∀ o, F ≠ .enter o) :
    ((w.after c r s).go F K).Addressed tree := by
  refine ⟨?_, fun o ho => ?_⟩
  · rw [go_stack, go_store, Walker.after_store]
    exact held
  · rw [go_focus] at ho
    exact absurd ho (other o)

theorem Moves.addressed {w : Walker σ ν} {tree : Value} {s t : State σ ν} (h : Moves w s t) (keeps : w.Keeps s)
    (hs : s.Addressed tree) : t.Addressed tree := by
  -- The scans that wait go on in the store that the call leaves.
  have held : ∀ x, w.exchange? s = some x → ∀ frame ∈ s.stack, frame.Held x.reply.store := by
    intro x hx frame hf
    have kept := keeps x hx frame hf
    rw [w.exchange?_before hx] at kept
    exact (hs.held frame hf).kept kept
  cases h with
  | silent due move =>
    obtain ⟨held', entering⟩ := move.addressed hs.held
    exact ⟨held', fun o ho => .inr (entering o ho)⟩
  | raises => exact addressed_after nofun nofun
  | exits => exact addressed_after nofun nofun
  | skips focus callback reply =>
    have kept := held _ (w.exchange?_enter focus callback reply)
    exact addressed_after kept nofun
  | descends focus callback reply =>
    have kept := held _ (w.exchange?_enter focus callback reply)
    exact addressed_after (List.forall_mem_cons.mpr ⟨trivial, List.forall_mem_cons.mpr ⟨trivial, kept⟩⟩) nofun
  | leaves focus callback reply =>
    have kept := held _ (w.exchange?_leave focus callback reply)
    exact addressed_after kept nofun

theorem Walker.addressed_start (w : Walker σ ν) (tree : Value) (store : Store) (memory : σ) :
    (w.start tree store memory).Addressed tree := by
  unfold Walker.start
  split
  · exact ⟨nofun, nofun⟩
  · split
    · refine ⟨nofun, fun o ho => .inl ?_⟩
      cases ho
      rfl
    · exact ⟨List.forall_mem_cons.mpr ⟨trivial, nofun⟩, nofun⟩

theorem Walker.addressed_run (w : Walker σ ν) (tree : Value) (store : Store) (memory : σ) {n : Nat}
    (keeps : ∀ m < n, w.Keeps (w.run m (w.start tree store memory))) :
    (w.run n (w.start tree store memory)).Addressed tree := by
  induction n with
  | zero => exact w.addressed_start tree store memory
  | succ n ih =>
    rw [w.run_succ]
    have before := ih fun m hm => keeps m (Nat.lt_succ_of_lt hm)
    exact (w.step_moves _).addressed (keeps n (Nat.lt_succ_self n)) before

/-! ## Taking a node out of its list -/

theorem Store.lt_size_of_items {s : Store} {r : Ref} {i : Nat} {v : Value} (h : (s.cell r).items[i]? = some v) :
    r < s.size := by
  by_contra outside
  rw [Store.cell_of_le (Nat.le_of_not_lt outside)] at h
  cases h

theorem Value.subscript_of_ownField {s : Store} {k : Kind} {r : Ref} {key : String} {v : Value}
    (hk : k.isMapping = true) (field : (Value.container k r).ownField s key = .ok (some v)) :
    (Value.container k r).subscript s key = .ok v := by
  have hf : k.hasFields = true := by cases k <;> first | rfl | cases hk
  simp only [Value.ownField, hf, if_true, Except.ok.injEq] at field
  simp only [Value.subscript, hk, if_true, field]

theorem Value.deleteItem_of_getElem? {s : Store} {k : Kind} {r : Ref} {i : Nat} {v : Value}
    (hk : (Value.container k r).isSequence = true) (stands : ((Value.container k r).items s)[i]? = some v) :
    ∃ t, (Value.container k r).deleteItem s i = .ok t ∧
      (Value.container k r).items t = ((Value.container k r).items s).eraseIdx i := by
  have hlist : k.isList = true := hk
  simp only [Value.items, hlist, if_true] at stands ⊢
  have hi : i < (s.cell r).items.length := (List.getElem?_eq_some_iff.mp stands).1
  refine ⟨s.setItems r ((s.cell r).items.eraseIdx i), ?_, ?_⟩
  · simp only [Value.deleteItem, hlist, if_true, hi]
  · rw [Store.setItems, Store.cell_put_same s _ (Store.lt_size_of_items stands)]

/-- A node is taken out of the list it stands in by its key and its index. -/
theorem removeFromParent_of_addressed {s : Store} {ancestors : List Value} {key : String} {kp kv : Kind} {p r : Ref}
    {i : Nat} {node : Value} (last : ancestors.getLast? = some (.container kp p)) (mapping : kp.isMapping = true)
    (field : (Value.container kp p).ownField s key = .ok (some (.container kv r)))
    (sequence : (Value.container kv r).isSequence = true)
    (stands : ((Value.container kv r).items s)[i]? = some node) :
    ∃ t, Estree.Console.removeFromParent s ancestors (some key) i = .ok t ∧
      (Value.container kv r).items t = ((Value.container kv r).items s).eraseIdx i := by
  obtain ⟨t, deleted, items⟩ := Value.deleteItem_of_getElem? sequence stands
  refine ⟨t, ?_, items⟩
  simp only [Estree.Console.removeFromParent, last, Value.subscript_of_ownField mapping field]
  exact deleted

/-! ## Every call -/

/-- As long as no call touches a field whose list is being scanned, every node that is entered is what the innermost
    ancestor holds in the field `key`, or what stands at `index` in the list it holds there; the root apart. So it can
    be removed from this list by its place. -/
theorem entered_nodes_are_addressed (w : Walker σ ν) (tree : Value) (store : Store) (memory : σ) (fuel : Nat)
    (keeps : ∀ n < fuel, w.Keeps (w.run n (w.start tree store memory))) :
    ∀ x ∈ (w.walk fuel tree store memory).exchanges, x.call.phase = .enter →
      x.call.toOccurrence = ⟨tree, none, none, []⟩ ∨
      ∃ parent key v, x.call.ancestors.getLast? = some parent ∧ x.call.key = some key ∧
        parent.ownField x.before key = .ok (some v) ∧
        (x.call.index = none → v = x.call.node) ∧
        ∀ i, x.call.index = some i →
          v.isSequence = true ∧ i < (v.items x.before).length ∧ (v.items x.before)[i]? = some x.call.node ∧
          ∀ kp p kv r, parent = .container kp p → kp.isMapping = true → v = .container kv r →
            ∃ t, Estree.Console.removeFromParent x.before x.call.ancestors x.call.key i = .ok t ∧
              v.items t = (v.items x.before).eraseIdx i := by
  intro x hx phase
  obtain ⟨k, hk⟩ := List.mem_iff_getElem?.mp hx
  rw [Walker.walk, toRun_exchanges] at hk
  obtain ⟨n, hn, -, f, due, hx⟩ := exists_call (w.start_exchanges tree store memory) hk
  have addressed := w.addressed_run tree store memory (n := n) fun m hm => keeps m (Nat.lt_trans hm hn)
  generalize w.run n (w.start tree store memory) = s at due hx addressed
  have before : x.before = s.store := by rw [hx]
  cases hf : s.focus with
  | enter o =>
    rw [hf] at due
    obtain ⟨-, call⟩ := w.due_enter due
    rw [before, call]
    rcases addressed.entering o hf with rfl | ⟨parent, key, v, last, hkey, field, place⟩
    · exact .inl rfl
    · refine .inr ⟨parent, key, v, last, hkey, field, fun hi => ?_, fun i hi => ?_⟩
      · have index : o.index = none := hi
        rw [index] at place
        exact place
      · have index : o.index = some i := hi
        rw [index] at place
        obtain ⟨sequence, stands⟩ := place
        refine ⟨sequence, (List.getElem?_eq_some_iff.mp stands).1, stands, fun kp p kv r hp mapping hv => ?_⟩
        subst hp hv
        rw [hkey]
        exact removeFromParent_of_addressed last mapping field sequence stands
  | leave o g =>
    rw [hf] at due
    obtain ⟨-, call⟩ := w.due_leave due
    rw [call] at phase
    cases phase
  | next => rw [hf] at due; cases due
  | back g => rw [hf] at due; cases due
  | done r => rw [hf] at due; cases due

def Walker.isKeeping (w : Walker σ ν) (s : State σ ν) : Bool :=
  (w.exchange? s).all fun x => s.stack.all fun frame => frame.Kept x.before x.reply.store

theorem Walker.keeps_of_isKeeping {w : Walker σ ν} {s : State σ ν} (h : w.isKeeping s) : w.Keeps s := by
  intro x hx frame hf
  simp only [isKeeping, hx, Option.all_some, List.all_eq_true, decide_eq_true_eq] at h
  exact h frame hf

/-- The first time it comes to the child of an element, puts a node in front of the list, and a new field into the
    root. -/
def crowding : Walker Nat Unit where
  enter := some fun c s n =>
    match c.key, n with
    | some "callee", 0 =>
      let s := s.setItems 1 (.container .mapping 2 :: (s.cell 1).items)
      c.answer (s.setFields 0 ((s.cell 0).fields.insert "note" (.int 1))) 1 (.ok .null)
    | _, _ => c.answer s n (.ok .null)
  leave := none
  reserved := []
  logging := false
  colored := false
  debug := false

/-- The element whose child is in the way is entered twice, the second time at the position it was moved to. -/
theorem crowded_siblings :
    (∀ n < 60, crowding.Keeps (crowding.run n (crowding.start (.container .mapping 0) siblings 0))) ∧
    (crowding.walk 60 (.container .mapping 0) siblings 0).calls.map (fun c => (c.key, c.index)) =
      [(none, none), (some "body", some 0), (some "body", some 2), (some "callee", none), (some "body", some 3),
        (some "callee", none), (some "body", some 4)] ∧
    ∀ x ∈ (crowding.walk 60 (.container .mapping 0) siblings 0).exchanges, x.call.phase = .enter →
      x.call.index = some 3 → ∃ parent key v, x.call.ancestors.getLast? = some parent ∧ x.call.key = some key ∧
        parent.ownField x.before key = .ok (some v) ∧ (v.items x.before)[3]? = some x.call.node := by
  have keeps : ∀ n < 60, crowding.Keeps (crowding.run n (crowding.start (.container .mapping 0) siblings 0)) := by
    have checked : ∀ n < 60, crowding.isKeeping (crowding.run n (crowding.start (.container .mapping 0) siblings 0)) :=
      by decide
    exact fun n hn => Walker.keeps_of_isKeeping (checked n hn)
  refine ⟨keeps, by decide, fun x hx phase hi => ?_⟩
  rcases entered_nodes_are_addressed crowding _ _ _ _ keeps x hx phase with root | addressed
  · rw [root] at hi
    cases hi
  · obtain ⟨parent, key, v, last, hkey, field, -, place⟩ := addressed
    exact ⟨parent, key, v, last, hkey, field, (place 3 hi).2.2.1⟩

end TreeWalk
