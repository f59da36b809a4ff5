/-
  TreeWalk.Proofs.Sweeping — a walk that takes out calls of `console` rids every list it comes to of them.

  The callback is asked about every node that stands in a list. A statement is taken out, and the scan goes on at the
  same position. Any other node has its fields walked, which leaves the list alone: in a tree without cycles no list is
  below its own elements. So a list is rid of its statements by one scan, at every depth; a question that fails ends the
  walk instead.
  - `Sweeps`: the walk comes to some point with these lists swept, or it fails on an element of one of them.
  - `scan_sweeps`: a scan, by induction on what is still ahead of it.
  - `fields_sweep`, `visit_sweeps`: the fields of a record one after the other; a node by induction along its children.
  - `walk_sweeps`: the whole walk.
-/

import TreeWalk.Proofs.Orders
import TreeWalk.Proofs.Trimming

namespace TreeWalk.Estree.Console

open Relation (ReflTransGen TransGen)
open Walker (Reaches)

variable {σ ν : Type} {w : Walker σ ν} {base : Store} {P Q : Ref → Prop} {s t : State σ ν} {K : List Frame}
  {v u : Value}

/-! ## What the callback does -/

section

variable {c : Call} {store : Store} {memory : σ}

theorem strip_of_single (h : c.index = none) :
    (strip c store memory : Reply σ ν) = c.answer store memory (.ok .null) := by simp only [strip, h]

theorem strip_of_false (h : isCall store c.node = .ok false) :
    (strip c store memory : Reply σ ν) = c.answer store memory (.ok .null) := by
  cases hi : c.index with
  | none => exact strip_of_single hi
  | some i => simp only [strip, hi, h]

theorem strip_of_error {i : Nat} {e : Fault} (hi : c.index = some i) (h : isCall store c.node = .error e) :
    (strip c store memory : Reply σ ν) = c.answer store memory (.error e) := by simp only [strip, hi, h]

theorem strip_of_true {trail : List Value} {parent : Value} {key : String} {r : Ref} {pre suf : List Value}
    (ancestors : c.ancestors = trail ++ [parent]) (hkey : c.key = some key) (hi : c.index = some pre.length)
    (mapping : parent.isMapping = true) (field : parent.ownField store key = .ok (some (.container .list r)))
    (items : (store.cell r).items = pre ++ c.node :: suf) (h : isCall store c.node = .ok true) :
    (strip c store memory : Reply σ ν) = c.answer (store.setItems r (pre ++ suf)) memory
      (.ok (.tuple [.action .skip, .int pre.length])) := by
  cases parent with
  | atom a => cases mapping
  | tuple vs => cases mapping
  | container k p =>
    have found := Value.subscript_of_ownField mapping field
    have erased : (pre ++ c.node :: suf).eraseIdx pre.length = pre ++ suf := by
      rw [List.eraseIdx_append_of_length_le (Nat.le_refl _)]
      simp
    have removed : removeFromParent store c.ancestors c.key pre.length = .ok (store.setItems r (pre ++ suf)) := by
      simp [removeFromParent, ancestors, hkey, found, bind, Except.bind, Value.deleteItem, Kind.isList, items, erased]
    simp only [strip, hi, h, removed]

end

/-! ## Sweeps -/

/-- None of the nodes in these lists has something lasting in the way of a look-up. -/
def Fair (base : Store) (P : Ref → Prop) : Prop :=
  ∀ r, P r → ∀ v ∈ (base.cell r).items, v.isNode base = true → ∀ u, Lasts base u → ¬ Trips base v u

/-- This is in the way of a look-up for a node in one of these lists. -/
def Foul (base : Store) (P : Ref → Prop) (u : Value) : Prop :=
  ∃ r, P r ∧ ∃ v ∈ (base.cell r).items, v.isNode base = true ∧ Trips base v u

/-- The walk comes to a point at which these lists are swept, or it fails on an element of one of them. -/
def Sweeps (w : Walker σ ν) (base : Store) (P : Ref → Prop) (s : State σ ν) (E : State σ ν → Prop) : Prop :=
  (∃ t, w.Reaches s t ∧ E t ∧ Swept base P s.store t.store ∧ Fair base P) ∨
    ∃ t u, w.Reaches s t ∧ t.focus = .done (.raised (.noLookup u.typeName)) ∧ Foul base P u

namespace Sweeps

variable {E E' : State σ ν → Prop}

theorem here {F F' : Focus} {K K' : List Frame} (hF : s.focus = F) (hK : s.stack = K) (due : w.due F = none)
    (move : Silent w.reserved s.store F K F' K') (there : E (s.go F' K')) (trimmed : Trimmed base s.store)
    (nothing : ∀ r, ¬ P r) : Sweeps w base P s E :=
  .inl ⟨s.go F' K', Walker.step_of_silent hF hK due move ▸ Reaches.step s, there, Swept.refl trimmed nothing,
    fun r hr => absurd hr (nothing r)⟩

theorem trans (h : Sweeps w base P s E)
    (h' : ∀ t, E t → Swept base P s.store t.store → Sweeps w base Q t E') :
    Sweeps w base (fun r => P r ∨ Q r) s E' := by
  rcases h with ⟨t, reach, here, swept, fair⟩ | ⟨t, u, reach, fails, r, hr, foul⟩
  · rcases h' t here swept with ⟨t', reach', here', swept', fair'⟩ | ⟨t', u, reach', fails, r, hr, foul⟩
    · refine .inl ⟨t', reach.trans reach', here', swept.trans swept', ?_⟩
      intro r hr
      rcases hr with hr | hr
      · exact fair r hr
      · exact fair' r hr
    · exact .inr ⟨t', u, reach.trans reach', fails, r, .inr hr, foul⟩
  · exact .inr ⟨t, u, reach, fails, r, .inl hr, foul⟩

theorem congr (h : Sweeps w base P s E) (same : ∀ r, Q r ↔ P r) : Sweeps w base Q s E := by
  have e : Q = P := funext fun r => propext (same r)
  rwa [e]

theorem finish (h : Sweeps w base P s E)
    (h' : ∀ t, E t → Trimmed base t.store → Sweeps w base (fun _ => False) t E') : Sweeps w base P s E' :=
  .congr (h.trans fun t there swept => h' t there swept.trimmed) fun _ => iff_of_eq (or_false _).symm

theorem after (h : Sweeps w base P t E) (reach : w.Reaches s t)
    (less : ∀ r, (t.store.cell r).items ⊆ (s.store.cell r).items)
    (apart : ∀ r, ¬ P r → (t.store.cell r).items = (s.store.cell r).items) : Sweeps w base P s E := by
  rcases h with ⟨t', reach', there, swept, fair⟩ | ⟨t', u, reach', fails, foul⟩
  · refine .inl ⟨t', reach.trans reach', there, ⟨swept.trimmed, ?_, ?_, swept.clean⟩, fair⟩
    · exact fun r => List.Subset.trans (swept.less r) (less r)
    · exact fun r hr => (swept.apart r hr).trans (apart r hr)
  · exact .inr ⟨t', u, reach.trans reach', fails, foul⟩

theorem after_silent {F F' : Focus} {K K' : List Frame} (hF : s.focus = F) (hK : s.stack = K) (due : w.due F = none)
    (move : Silent w.reserved s.store F K F' K') (h : Sweeps w base P (s.go F' K') E) : Sweeps w base P s E :=
  h.after (Walker.step_of_silent hF hK due move ▸ Reaches.step s) (fun _ => List.Subset.refl _) fun _ _ => rfl

end Sweeps

def Goes (K : List Frame) (t : State σ ν) : Prop := t.focus = .next ∧ t.stack = K

def Back (K : List Frame) (t : State σ ν) : Prop := t.stack = K ∧ ∃ g, t.focus = .back g ∧ g.Onward t.store

/-- The visit of a node that stands alone, or that is no statement, sweeps the lists that it comes to. -/
def Visited (w : Walker σ ν) (base : Store) (v : Value) : Prop :=
  ∀ (s : State σ ν) (o : Occurrence), Trimmed base s.store → s.focus = .enter o → o.node = v →
    (o.index = none ∨ isCall s.store v = .ok false) → Sweeps w base (Covers base w.reserved v) s (Back s.stack)

/-! ## Scans -/

/-- A list that a scan comes to: the list itself, or one that is below a node among these elements. -/
def ScanCovers (base : Store) (reserved : List String) (q : Ref) (vs : List Value) (r : Ref) : Prop :=
  r = q ∨ ∃ u ∈ vs, u.isNode base = true ∧ isStatement base u = false ∧ Covers base reserved u r

section

variable {reserved : List String} {q r : Ref} {vs : List Value}

theorem scanCovers_nil : ScanCovers base reserved q [] r ↔ r = q := by simp [ScanCovers]

theorem scanCovers_cons_of_passed (h : v.isNode base = false ∨ isStatement base v = true) :
    ScanCovers base reserved q (v :: vs) r ↔ ScanCovers base reserved q vs r := by
  unfold ScanCovers
  rw [List.exists_mem_cons_iff]
  rcases h with h | h <;> simp [h]

theorem scanCovers_cons (hn : v.isNode base = true) (stays : isStatement base v = false) :
    ScanCovers base reserved q (v :: vs) r ↔ Covers base reserved v r ∨ ScanCovers base reserved q vs r := by
  unfold ScanCovers
  rw [List.exists_mem_cons_iff]
  simp only [hn, stays, true_and]
  tauto

end

/-- An element that the scan has gone past: it is no statement, and nothing lasting is in the way of its look-ups. -/
structure Passed (base : Store) (v : Value) : Prop where
  stays : isStatement base v = false
  free : v.isNode base = true → ∀ u, Lasts base u → ¬ Trips base v u

/-- A scan that stands at this position of a list, which has these elements, sweeps what is ahead of it. -/
def ScanSweeps (w : Walker σ ν) (base : Store) (scan : Int → Frame) (q : Ref) (K : List Frame) (position : Int)
    (items ahead : List Value) : Prop :=
  ∀ t : State σ ν, Trimmed base t.store → Goes (scan position :: K) t → (t.store.cell q).items = items →
    Sweeps w base (ScanCovers base w.reserved q ahead) t (Goes K)

section

variable {key : String} {parent : Value} {trail : List Value} {q : Ref}
  (leave : w.leave = none) (enter : w.enter = some strip) (mapping : parent.isMapping = true)
  (field : parent.ownField base key = .ok (some (.container .list q)))
  (elements : ∀ v ∈ (base.cell q).items, v.isNode base = true → v.isMapping = true)
  (visits : ∀ v ∈ (base.cell q).items, v.isNode base = true → isStatement base v = false → Visited w base v)
  (outside : ∀ v ∈ (base.cell q).items, v.isNode base = true → ¬ Covers base w.reserved v q)

include elements

/-- Once the scan has gone past all elements, nothing lasting is in the way for any that the list ever had. -/
theorem fair_of_passed {store : Store} (trimmed : Trimmed base store)
    (passed : ∀ v ∈ (store.cell q).items, Passed base v) : Fair base (· = q) := by
  intro r hr v hv hn u lasts trips
  rw [hr] at hv
  cases statement : isStatement base v with
  | false => exact (passed v (trimmed.mem_items hv statement)).free hn u lasts trips
  | true =>
    have calls := (isCall_true_iff hn (elements v hv hn)).mp (isStatement_eq_true.mp statement).2
    exact calls.not_trips trips

omit elements

theorem fails_of_error {o : Occurrence} {i : Nat} {e : Fault} (enter : w.enter = some strip) (hF : s.focus = .enter o)
    (index : o.index = some i) (fails : isCall s.store o.node = .error e) :
    ∃ t, w.Reaches s t ∧ t.focus = .done (.raised e) := by
  have due : w.due s.focus = some (strip, { o with phase := .enter }) := by rw [hF, w.due_of_enter enter]
  have called := Walker.step_called due
  have reply : (strip { o with phase := .enter } s.store s.memory : Reply σ ν) =
    Call.answer { o with phase := .enter } s.store s.memory (.error e) := strip_of_error index fails
  simp only [reply, Call.answer, heed] at called
  exact ⟨w.step s, Reaches.step s, by rw [called]; rfl⟩

theorem reaches_removed {pre suf : List Value} (enter : w.enter = some strip) (leave : w.leave = none)
    (mapping : parent.isMapping = true) (field : parent.ownField s.store key = .ok (some (.container .list q)))
    (hF : s.focus = .enter ⟨v, some key, some pre.length, trail ++ [parent]⟩)
    (hK : s.stack = .items (.container .list q) key parent trail pre.length :: K)
    (items : (s.store.cell q).items = pre ++ v :: suf) (calls : isCall s.store v = .ok true) :
    ∃ t, w.Reaches s t ∧ t.store = s.store.setItems q (pre ++ suf) ∧ Goes s.stack t := by
  let c : Call := ⟨⟨v, some key, some pre.length, trail ++ [parent]⟩, .enter⟩
  let r : Reply σ ν :=
    c.answer (s.store.setItems q (pre ++ suf)) s.memory (.ok (.tuple [.action .skip, .int pre.length]))
  let g : Signal := .fixed [.action .skip, .int pre.length]
  have reply : strip c s.store s.memory = r := strip_of_true rfl rfl rfl mapping field items calls
  have reach : w.Reaches s ((w.after c r s).go (.back g) s.stack) :=
    Walker.reaches_skipped enter leave hF reply rfl rfl rfl
  have back : w.step ((w.after c r s).go (.back g) s.stack) = _ :=
    Walker.step_of_silent rfl hK rfl (.resume g (.container .list q) key parent trail pre.length K rfl)
  refine ⟨_, reach.trans (Reaches.step _), ?_⟩
  rw [back, hK]
  exact ⟨rfl, rfl, rfl⟩

section

variable {pre suf : List Value} (trimmed : Trimmed base s.store) (hn : v.isNode base = true)
  (hF : s.focus = .enter ⟨v, some key, some pre.length, trail ++ [parent]⟩)
  (hK : s.stack = .items (.container .list q) key parent trail pre.length :: K)
  (items : (s.store.cell q).items = pre ++ v :: suf)
  (removed : ScanSweeps w base (.items (.container .list q) key parent trail) q K pre.length (pre ++ suf) suf)
  (kept : Passed base v →
    ScanSweeps w base (.items (.container .list q) key parent trail) q K (pre.length + 1) (pre ++ v :: suf) suf)

include leave enter mapping field trimmed hF hK items removed in
theorem statement_sweeps (statement : isStatement base v = true) (answer : isCall s.store v = .ok true) :
    Sweeps w base (ScanCovers base w.reserved q (v :: suf)) s (Goes K) := by
  have field' : parent.ownField s.store key = .ok (some (.container .list q)) := by rw [trimmed.ownField, field]
  obtain ⟨t, reach, store, goes⟩ := reaches_removed enter leave mapping field' hF hK items answer
  have inside : q < s.store.size := Store.lt_size_of_items (i := pre.length) (v := v) (by rw [items]; simp)
  have here : (t.store.cell q).items = pre ++ suf := by rw [store, Store.setItems, Store.cell_put_same _ _ inside]
  have there : ∀ r, r ≠ q → (t.store.cell r).items = (s.store.cell r).items := by
    intro r hr
    rw [store, Store.setItems, Store.cell_put_ne _ _ hr]
  have sweeps := removed t (store ▸ trimmed.remove items statement) (hK ▸ goes) here
  refine .congr (sweeps.after reach ?_ ?_) fun r => scanCovers_cons_of_passed (.inr statement)
  · intro r
    by_cases hr : r = q
    · rw [hr, here, items]
      exact ((List.sublist_cons_self v suf).append_left pre).subset
    · rw [there r hr]
      exact List.Subset.refl _
  · exact fun r hr => there r fun e => hr (.inl e)

include visits outside trimmed hn hF hK items kept in
/-- Any other node stays, and what is below it is swept. The list itself is not below its element. -/
theorem other_sweeps (mem : v ∈ (base.cell q).items) (settled : Passed base v) (answer : isCall s.store v = .ok false) :
    Sweeps w base (ScanCovers base w.reserved q (v :: suf)) s (Goes K) := by
  have visited := visits v mem hn settled.stays s _ trimmed hF rfl (.inr answer)
  refine .congr (visited.trans ?_) fun r => scanCovers_cons hn settled.stays
  intro t back swept
  obtain ⟨stack, g, focus, onward⟩ := back
  have resume : Silent w.reserved t.store _ _ _ _ :=
    .resume g (.container .list q) key parent trail pre.length K onward.exit
  rw [onward.resume] at resume
  refine .after_silent focus (stack.trans hK) rfl resume (kept settled _ swept.trimmed ⟨rfl, rfl⟩ ?_)
  rw [go_store, swept.apart q (outside v mem hn), items]

include leave enter mapping field elements visits outside trimmed hn hF hK items removed kept in
theorem element_sweeps : Sweeps w base (ScanCovers base w.reserved q (v :: suf)) s (Goes K) := by
  have mem : v ∈ (base.cell q).items := (trimmed.items q).subset (items ▸ List.mem_append_right _ List.mem_cons_self)
  have hm := elements v mem hn
  have hn' : v.isNode s.store = true := (trimmed.isNode v).trans hn
  have same := trimmed.isStatement_eq hn hm
  cases answer : isCall s.store v with
  | error e =>
    obtain ⟨t, reach, done⟩ := fails_of_error enter hF rfl answer
    obtain ⟨u, trips, rfl⟩ := (isCall_error_iff hn hm).mp (trimmed.isCall_error hn hm answer)
    exact .inr ⟨t, u, reach, done, q, .inl rfl, v, mem, hn, trips⟩
  | ok b =>
    cases b with
    | true =>
      have statement : isStatement base v = true := same ▸ isStatement_eq_true.mpr ⟨hn', answer⟩
      exact statement_sweeps leave enter mapping field trimmed hF hK items removed statement answer
    | false =>
      have settled : Passed base v := by
        refine ⟨same ▸ isStatement_of_isCall_false answer, fun _ u lasts trips => ?_⟩
        have fails := (isCall_error_iff hn' hm).mpr ⟨_, trimmed.trips_of_lasts lasts trips, rfl⟩
        rw [answer] at fails
        cases fails
      exact other_sweeps visits outside trimmed hn hF hK items kept mem settled answer

end

include elements leave enter mapping field visits outside

/-- A scan rids its list of the statements that are ahead of it. -/
theorem scan_sweeps (pre suf : List Value) (passed : ∀ v ∈ pre, Passed base v) :
    ScanSweeps w base (.items (.container .list q) key parent trail) q K pre.length (pre ++ suf) suf := by
  induction suf generalizing pre with
  | nil =>
    intro s trimmed goes items
    rw [List.append_nil] at items
    have outside : (((Value.container .list q).items s.store).length : Int) ≤ pre.length := by
      rw [← items]
      exact Int.le_refl _
    have past : Silent w.reserved s.store _ _ _ _ :=
      .scanOver (.container .list q) key parent trail pre.length K (.inr outside)
    have step := Walker.step_of_silent goes.1 goes.2 rfl past
    refine .inl ⟨s.go .next K, step ▸ Reaches.step s, ⟨rfl, rfl⟩, ⟨trimmed, fun _ => List.Subset.refl _,
      fun _ _ => rfl, ?_⟩, ?_⟩
    · intro r hr v hv
      rw [scanCovers_nil.mp hr, go_store, items] at hv
      exact (passed v hv).stays
    · intro r hr
      exact fair_of_passed elements trimmed (items ▸ passed) r (scanCovers_nil.mp hr)
  | cons v suf ih =>
    -- What the scan goes past stays where it is.
    have kept : Passed base v → ScanSweeps w base (.items (.container .list q) key parent trail) q K (pre.length + 1)
        (pre ++ v :: suf) suf := by
      intro settled
      have past := ih (pre ++ [v]) (List.forall_mem_append.mpr ⟨passed, List.forall_mem_singleton.mpr settled⟩)
      rw [List.append_assoc, List.length_append] at past
      exact past
    intro s trimmed goes items
    have stands : ((Value.container .list q).items s.store)[pre.length]? = some v := by
      show (s.store.cell q).items[pre.length]? = some v
      rw [items]
      simp
    cases hn : v.isNode base with
    | false =>
      have settled : Passed base v := ⟨isStatement_of_not_isNode hn, fun h => by rw [hn] at h; cases h⟩
      have pass : Silent w.reserved s.store _ _ _ _ :=
        .passItem _ key parent trail _ K v stands ((trimmed.isNode v).trans hn)
      refine .after_silent goes.1 goes.2 rfl pass (.congr ?_ fun r => scanCovers_cons_of_passed (.inl hn))
      exact kept settled _ trimmed ⟨rfl, rfl⟩ items
    | true =>
      have item : Silent w.reserved s.store _ _ _ _ :=
        .item _ key parent trail _ K v stands ((trimmed.isNode v).trans hn)
      refine .after_silent goes.1 goes.2 rfl item ?_
      exact element_sweeps leave enter mapping field elements visits outside (s := s.go _ _) trimmed hn rfl rfl items
        (ih pre passed) kept

end

/-! ## Fields and nodes -/

def FieldCovers (base : Store) (reserved : List String) (e : String × Value) (r : Ref) : Prop :=
  e.1 ∉ reserved ∧ ((∃ q, e.2 = .container .list q ∧ ScanCovers base reserved q (base.cell q).items r) ∨
    (e.2.isSequence = false ∧ e.2.isNode base = true ∧ Covers base reserved e.2 r))

theorem covers_iff_field {reserved : List String} {r : Ref} :
    Covers base reserved v r ↔ ∃ e ∈ v.entries base, FieldCovers base reserved e r := by
  constructor
  · intro covers
    cases covers with
    | list free held => exact ⟨_, held, free, .inl ⟨r, rfl, .inl rfl⟩⟩
    | field free held single node below => exact ⟨_, held, free, .inr ⟨single, node, below⟩⟩
    | element free held mem node stays below => exact ⟨_, held, free, .inl ⟨_, rfl, .inr ⟨_, mem, node, stays, below⟩⟩⟩
  · intro found
    obtain ⟨⟨key, u⟩, held, free, scan | ⟨single, node, below⟩⟩ := found
    · obtain ⟨q, rfl, rfl | ⟨x, mem, node, stays, below⟩⟩ := scan
      · exact .list free held
      · exact .element free held mem node stays below
    · exact .field free held single node below

theorem Trimmed.scanCovers {store : Store} (trimmed : Trimmed base store) {reserved : List String} {q r : Ref} :
    ScanCovers base reserved q (base.cell q).items r ↔ ScanCovers base reserved q (store.cell q).items r := by
  unfold ScanCovers
  constructor
  · intro h
    rcases h with h | ⟨u, mem, node, stays, below⟩
    · exact .inl h
    · exact .inr ⟨u, trimmed.mem_items mem stays, node, stays, below⟩
  · intro h
    rcases h with h | ⟨u, mem, rest⟩
    · exact .inl h
    · exact .inr ⟨u, (trimmed.items q).subset mem, rest⟩

section

variable {tree : Value} (enter : w.enter = some strip) (leave : w.leave = none)
  (plain : ∀ v, ReflTransGen (Value.Holds base) tree v → v.Plain) (acyclic : tree.Acyclic base)
  (reach : ReflTransGen (Value.Holds base) tree v)
  (visits : ∀ c ∈ v.slots base w.reserved, Visited w base c.value)

include enter leave plain acyclic reach visits

theorem field_sweeps {key : String} {trail : List Value} {names : List String} (held : (key, u) ∈ v.entries base)
    (trimmed : Trimmed base s.store) (goes : Goes (.fields v trail (key :: names) :: K) s) :
    Sweeps w base (FieldCovers base w.reserved (key, u)) s (Goes (.fields v trail names :: K)) := by
  have reads : v.Reads base base := Value.reads_of_cell fun _ _ _ => rfl
  have field : v.ownField base key = .ok (some u) := reads.field held
  have field' : v.ownField s.store key = .ok (some u) := (trimmed.ownField v key).trans field
  have reachU := reach.tail (.field held)
  have slot : ∀ o', (⟨v, none, none, []⟩ : Occurrence).Child base w.reserved o' → Visited w base o'.node := by
    intro o' child
    obtain ⟨c, hc, rfl⟩ := child_iff_slot.mp child
    exact visits c hc
  by_cases hk : key ∈ w.reserved
  · refine .here goes.1 goes.2 rfl (.passField v trail key names K (.inl hk)) ⟨rfl, rfl⟩ trimmed ?_
    exact fun r covers => covers.1 hk
  cases hs : u.isSequence with
  | true =>
    obtain ⟨q, rfl⟩ := (plain u reachU).list hs
    refine .after_silent goes.1 goes.2 rfl (.scan v trail key names K _ hk field' hs) ?_
    refine .congr (scan_sweeps leave enter ?_ field ?_ ?_ ?_ [] (s.store.cell q).items ?_ _ trimmed ⟨rfl, rfl⟩ rfl)
      fun r => ?_
    · exact (plain v reach).isMapping_of_mem_entries held
    · intro x hx hn
      exact (plain x (reachU.tail (.item hx))).isMapping hn
    · intro x hx hn _
      obtain ⟨i, stands⟩ := List.mem_iff_getElem?.mp hx
      exact slot _ (.element hk held rfl stands hn)
    · intro x hx hn covers
      exact acyclic _ reachU (.head (.item hx) covers.holds)
    · exact List.forall_mem_nil _
    · rw [← trimmed.scanCovers]
      simp [FieldCovers, hk, hs]
  | false =>
    have sole : ∀ r, FieldCovers base w.reserved (key, u) r ↔ u.isNode base = true ∧ Covers base w.reserved u r := by
      intro r
      constructor
      · intro covers
        rcases covers.2 with ⟨q, rfl, -⟩ | ⟨-, below⟩
        · cases hs
        · exact below
      · exact fun below => ⟨hk, .inr ⟨hs, below⟩⟩
    cases hn : u.isNode base with
    | true =>
      have hn' : u.isNode s.store = true := (trimmed.isNode u).trans hn
      refine .after_silent goes.1 goes.2 rfl (.child v trail key names K u hk field' hs hn') ?_
      have visited : Visited w base u := slot _ (.field hk held hs hn)
      let o : Occurrence := ⟨u, some key, none, trail ++ [v]⟩
      have sweeps := visited (s.go (.enter o) (.fields v trail names :: K)) o trimmed rfl rfl (.inl rfl)
      refine .congr (sweeps.finish ?_) fun r => by simp [sole, hn]
      intro t back trimmed'
      obtain ⟨stack, g, focus, onward⟩ := back
      exact .here focus stack rfl (.toFields g v trail names K onward.exit) ⟨rfl, rfl⟩ trimmed' fun _ => id
    | false =>
      refine .here goes.1 goes.2 rfl (.passField v trail key names K (.inr ⟨some u, field', ?_⟩)) ⟨rfl, rfl⟩ trimmed ?_
      · intro x hx
        cases hx
        exact ⟨hs, (trimmed.isNode u).trans hn⟩
      · intro r covers
        have node := ((sole r).mp covers).1
        rw [hn] at node
        cases node

theorem fields_sweep {trail : List Value} {todo : List (String × Value)} (sub : todo ⊆ v.entries base)
    (trimmed : Trimmed base s.store) (goes : Goes (.fields v trail (todo.map Prod.fst) :: K) s) :
    Sweeps w base (fun r => ∃ e ∈ todo, FieldCovers base w.reserved e r) s (Goes K) := by
  induction todo generalizing s with
  | nil =>
    refine .here goes.1 goes.2 rfl (.fieldsOver v trail K) ⟨rfl, rfl⟩ trimmed ?_
    intro r found
    obtain ⟨e, he, -⟩ := found
    cases he
  | cons e todo ih =>
    obtain ⟨he, sub⟩ := List.cons_subset.mp sub
    have first := field_sweeps enter leave plain acyclic reach visits he trimmed goes
    refine .congr (first.trans fun t goes' swept => ih sub swept.trimmed goes') fun r => ?_
    rw [List.exists_mem_cons_iff]

theorem record_sweeps {trail : List Value} (trimmed : Trimmed base s.store)
    (goes : Goes (.fields v trail (v.ownNames s.store) :: K) s) :
    Sweeps w base (Covers base w.reserved v) s (Goes K) := by
  have reads : v.Reads base base := Value.reads_of_cell fun _ _ _ => rfl
  rw [trimmed.ownNames, reads.names] at goes
  exact .congr (fields_sweep enter leave plain acyclic reach visits (List.Subset.refl _) trimmed goes) fun r =>
    covers_iff_field

end

section

variable {tree : Value} (enter : w.enter = some strip) (leave : w.leave = none)
  (plain : ∀ v, ReflTransGen (Value.Holds base) tree v → v.Plain) (acyclic : tree.Acyclic base)

include enter leave plain acyclic

/-- So does the visit of a node, by induction along its children. -/
theorem visit_sweeps (reach : ReflTransGen (Value.Holds base) tree v) : Visited w base v := by
  induction acyclic.acc w.reserved reach with
  | intro v _ ih =>
    have visits : ∀ c ∈ v.slots base w.reserved, Visited w base c.value := by
      intro c hc
      exact ih c.value ⟨c, hc, rfl⟩ (reach.trans (Value.holds_of_mem_slots hc).to_reflTransGen)
    intro s o trimmed hF hnode hindex
    subst hnode
    have reply : (strip { o with phase := .enter } s.store s.memory : Reply σ ν) =
        Call.answer { o with phase := .enter } s.store s.memory (.ok .null) := by
      rcases hindex with alone | answer
      · exact strip_of_single alone
      · exact strip_of_false answer
    have entered := Walker.step_fields enter hF reply rfl rfl rfl
    have same : (w.step s).store = s.store := by rw [entered]; rfl
    have goes : Goes (.fields o.node o.ancestors (o.node.ownNames (w.step s).store) ::
        .visit o (.ofValue .null) :: s.stack) (w.step s) := by
      rw [entered]
      exact ⟨rfl, rfl⟩
    have sweeps := record_sweeps enter leave plain acyclic reach visits (same ▸ trimmed) goes
    have walked : Sweeps w base (Covers base w.reserved o.node) s (Goes (.visit o (.ofValue .null) :: s.stack)) := by
      refine sweeps.after (Walker.Reaches.step s) ?_ ?_
      · rw [same]
        exact fun _ => List.Subset.refl _
      · rw [same]
        exact fun _ _ => rfl
    refine walked.finish fun t goes trimmed' => ?_
    refine .after_silent goes.1 goes.2 rfl (.childrenOver o _ s.stack) ?_
    refine .here rfl rfl (by simp [Walker.due, leave]) (.leave o _ s.stack) ?_ trimmed' fun _ => id
    exact ⟨rfl, _, rfl, rfl, rfl⟩

theorem root_sweeps (memory : σ) :
    Sweeps w base (Covers base w.reserved tree) (w.start tree base memory)
      (fun t => ∃ g, t.focus = .done (.returned g)) := by
  have hc : w.HasCallback := .inl (by rw [enter]; rfl)
  have trimmed : Trimmed base (w.start tree base memory).store := by
    rw [Walker.start_store]
    exact .refl base
  cases hn : tree.isNode base with
  | true =>
    have start := w.start_node hc hn memory
    have visited : Visited w base tree := visit_sweeps enter leave plain acyclic .refl
    have sweeps := visited (w.start tree base memory) ⟨tree, none, none, []⟩ trimmed (by rw [start]) rfl (.inl rfl)
    refine sweeps.finish fun t back trimmed' => ?_
    obtain ⟨stack, g, focus, -⟩ := back
    exact .here focus (stack.trans (by rw [start])) rfl (.rootOver g) ⟨g, rfl⟩ trimmed' fun _ => id
  | false =>
    have start := w.start_other hc hn memory
    have visits : ∀ c ∈ tree.slots base w.reserved, Visited w base c.value := by
      intro c hc
      exact visit_sweeps enter leave plain acyclic (Value.holds_of_mem_slots hc).to_reflTransGen
    have goes : Goes [.fields tree [] (tree.ownNames (w.start tree base memory).store)] (w.start tree base memory) := by
      rw [start]
      exact ⟨rfl, rfl⟩
    have walked := record_sweeps enter leave plain acyclic .refl visits trimmed goes
    exact walked.finish fun t goes' trimmed' => .here goes'.1 goes'.2 rfl .stop ⟨_, rfl⟩ trimmed' fun _ => id

/-- The walk ends. Either it returns, and all lists that it came to are swept, or it fails on an element of one. -/
theorem walk_sweeps (memory : σ) :
    ∃ r, w.Ends tree base memory r ∧
      ((∃ g, r.outcome = some (.returned g) ∧ Swept base (Covers base w.reserved tree) base r.store ∧
          Fair base (Covers base w.reserved tree)) ∨
        ∃ u, r.outcome = some (.raised (.noLookup u.typeName)) ∧ Foul base (Covers base w.reserved tree) u) := by
  rcases root_sweeps enter leave plain acyclic memory with ⟨t, ⟨n, rfl⟩, ⟨g, done⟩, swept, fair⟩ |
    ⟨t, u, ⟨n, rfl⟩, done, foul⟩
  · rw [Walker.start_store] at swept
    exact ⟨_, w.ends_of_done done, .inl ⟨g, outcome?_eq_some.mpr done, swept, fair⟩⟩
  · exact ⟨_, w.ends_of_done done, .inr ⟨u, outcome?_eq_some.mpr done, foul⟩⟩

end

end TreeWalk.Estree.Console
