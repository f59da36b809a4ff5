/-
  TreeWalk.Proofs.Records — what a walk logs is told by its calls.

  A walk that logs leaves one record before each call it attempts, whether or not what is called can be called, and one
  after it if the callback asked to exit. The first has the node as it is when the call is made, the second as the
  callback left it. Nothing else is logged, so the journal can be put together from the exchanges alone
  (`Exchange.recorded`). A call that asked to exit is the last one, since the walk ends with it.
  - `Call.record_spelled`: a record spells the field and the position that led to the node.
  - `begins_record`, `begins_exitRecord`: a record shows by its beginning what it is about.
  - `Walker.journal_run`: the journal, after any number of steps.
  - `records_mirror_calls`: all of it, for every walk.
-/

import TreeWalk.Proofs.EarlyStop
import TreeWalk.Proofs.Safety
import TreeWalk.Proofs.Tracing

namespace TreeWalk

variable {σ ν : Type}

/-! ## Records -/

def Occurrence.keyValue (o : Occurrence) : Value := o.key.elim .null .text

def Occurrence.indexValue (o : Occurrence) : Value := o.index.elim .null fun i => .int i

/-- The beginning of the records that are logged before the calls of a phase. -/
def Phase.opening (phase : Phase) : String := phase.name ++ " "

/-- The beginning of the records that are logged after calls that asked to exit. -/
def exitOpening : String := "exit requested on "

def Call.title (s : Store) (colored : Bool) (c : Call) : String := c.phase.opening ++ c.node.label s colored

theorem Call.record_spelled (s : Store) (colored : Bool) (c : Call) :
    c.record s colored = c.title s colored ++ " key=" ++ c.keyValue.spell s ++ " index=" ++ c.indexValue.spell s ++
      " depth=" ++ toString c.ancestors.length := by
  obtain ⟨⟨node, key, index, ancestors⟩, phase⟩ := c
  cases key <;> cases index <;> rfl

theorem Call.exitRecord_titled (s : Store) (colored : Bool) (c : Call) :
    c.exitRecord s colored = exitOpening ++ c.title s colored := by
  unfold exitRecord title Phase.opening
  rw [String.append_assoc, String.append_assoc, String.append_assoc]
  rfl

namespace Exchange

def entry (x : Exchange σ ν) : Entry σ ν := .exchange x.call x.before x.reply

/-- An exchange and the records about it, in order. -/
def recorded (colored : Bool) (x : Exchange σ ν) : List (Entry σ ν) :=
  .log (x.call.title x.before colored ++ " key=" ++ x.call.keyValue.spell x.before ++ " index=" ++
      x.call.indexValue.spell x.before ++ " depth=" ++ toString x.call.ancestors.length) ::
    x.entry ::
    if x.reply.exits then [.log (exitOpening ++ x.call.title x.reply.store colored)] else []

theorem recorded_eq (colored : Bool) (x : Exchange σ ν) :
    x.recorded colored = .log (x.call.record x.before colored) :: x.entry ::
      if x.reply.exits then [.log (x.call.exitRecord x.reply.store colored)] else [] := by
  rw [recorded, x.call.record_spelled, x.call.exitRecord_titled]

end Exchange

def Entry.record? : Entry σ ν → Option String
  | .log text => some text
  | .exchange _ _ _ => none

def Entry.begins (start : String) (e : Entry σ ν) : Bool := e.record?.any (start.toList.isPrefixOf ·.toList)

section

variable (s : Store) (colored : Bool) (c : Call)

theorem begins_record (phase : Phase) :
    (Entry.log (c.record s colored) : Entry σ ν).begins phase.opening = decide (c.phase = phase) := by
  simp only [Entry.begins, Entry.record?, Option.any_some, c.record_eq, String.toList_append]
  cases c.phase <;> cases phase <;> simp [Phase.opening, Phase.name, List.isPrefixOf]

theorem not_begins_record : (Entry.log (c.record s colored) : Entry σ ν).begins exitOpening = false := by
  simp only [Entry.begins, Entry.record?, Option.any_some, c.record_eq, String.toList_append]
  cases c.phase <;> simp [exitOpening, Phase.name, List.isPrefixOf]

theorem begins_exitRecord : (Entry.log (c.exitRecord s colored) : Entry σ ν).begins exitOpening = true := by
  simp only [Entry.begins, Entry.record?, Option.any_some, c.exitRecord_eq, String.toList_append]
  simp [exitOpening, List.isPrefixOf]

theorem not_begins_exitRecord (phase : Phase) :
    (Entry.log (c.exitRecord s colored) : Entry σ ν).begins phase.opening = false := by
  simp only [Entry.begins, Entry.record?, Option.any_some, c.exitRecord_eq, String.toList_append]
  cases phase <;> simp [Phase.opening, Phase.name, List.isPrefixOf]

end

/-! ## The journal -/

namespace Walker

variable {w : Walker σ ν}

theorem logs_of_make {enter leave : Option (Handle (Callback σ ν))} {c : Settings} {debug : Bool} {s : Store}
    (made : Walker.make enter leave c debug s = .ok w) : w.logs = (c.logging && debug) ∧ w.colored = c.colored := by
  unfold Walker.make at made
  cases hr : c.reserved.names s with
  | error e => rw [hr] at made; cases made
  | ok names =>
    rw [hr] at made
    cases made
    exact ⟨rfl, rfl⟩

theorem entries_logged (logs : w.logs = true) (c : Call) (before : Store) (r : Reply σ ν) :
    (w.entries c before r).reverse = Exchange.recorded w.colored ⟨c, before, r⟩ := by
  rw [Exchange.recorded_eq]
  simp only [entries, logs, Bool.true_and, if_true]
  cases r.exits <;> rfl

theorem entries_unlogged (logs : w.logs = false) (c : Call) (before : Store) (r : Reply σ ν) :
    (w.entries c before r).reverse = [Exchange.entry ⟨c, before, r⟩] := by
  unfold entries
  simp [logs, Exchange.entry]

/-- A walk keeps its calls one after the other, each as it keeps a single one. -/
theorem journal_run {told : Exchange σ ν → List (Entry σ ν)}
    (single : ∀ c before r, (w.entries c before r).reverse = told ⟨c, before, r⟩) (tree : Value) (store : Store)
    (memory : σ) (n : Nat) :
    (w.run n (w.start tree store memory)).history.reverse =
      (w.run n (w.start tree store memory)).exchanges.flatMap told := by
  refine w.run_keeps (P := fun s => s.history.reverse = s.exchanges.flatMap told) (fun s ih => ?_) ?_ n
  · cases due : w.due s.focus with
    | none =>
      obtain ⟨F, K, -, hs⟩ := step_silent due
      rw [hs]
      exact ih
    | some p =>
      rw [exchanges_called due, step_called due, List.flatMap_append, ← ih]
      show (w.entries _ _ _ ++ s.history).reverse = _
      rw [List.reverse_append, single]
      simp
  · rw [w.start_exchanges, w.start_history]
    rfl

/-! ## The last call -/

/-- A call that asked to exit is the last one. -/
theorem last_of_exits {tree : Value} {store : Store} {memory : σ} {n k : Nat} {x : Exchange σ ν}
    (hx : (w.run n (w.start tree store memory)).exchanges[k]? = some x) (exits : x.reply.exits = true) :
    (w.run n (w.start tree store memory)).exchanges.length = k + 1 := by
  obtain ⟨m, done, -, length⟩ := done_of_stopping_call hx (Reply.stops_of_exits exits)
  have all := (exchanges_of_done done n).length_le
  have reached := (List.getElem?_eq_some_iff.mp hx).1
  omega

theorem exits_dropLast (tree : Value) (store : Store) (memory : σ) (n : Nat) :
    ∀ x ∈ (w.run n (w.start tree store memory)).exchanges.dropLast, x.reply.exits = false := by
  intro x hx
  obtain ⟨k, hk, rfl⟩ := List.getElem_of_mem hx
  have short := (w.run n (w.start tree store memory)).exchanges.length_dropLast
  rw [List.getElem_dropLast]
  by_contra exits
  have here : k < (w.run n (w.start tree store memory)).exchanges.length := by omega
  -- A call that asked to exit would be the last one.
  have last := last_of_exits (List.getElem?_eq_getElem here) (by simpa using exits)
  omega

end Walker

/-! ## Records and calls -/

theorem countP_recorded {colored : Bool} {start : String} {p : Exchange σ ν → Bool}
    (single : ∀ x : Exchange σ ν, (x.recorded colored).countP (Entry.begins start) = [x].countP p)
    (xs : List (Exchange σ ν)) :
    (xs.flatMap (Exchange.recorded colored)).countP (Entry.begins start) = xs.countP p := by
  induction xs with
  | nil => rfl
  | cons x xs ih =>
    rw [List.flatMap_cons, List.countP_append, ih, single, ← List.countP_append]
    rfl

theorem countP_opening (colored : Bool) (phase : Phase) (x : Exchange σ ν) :
    (x.recorded colored).countP (Entry.begins phase.opening) = [x].countP (·.call.phase = phase) := by
  have call : x.entry.begins phase.opening = false := rfl
  rw [Exchange.recorded_eq]
  cases x.reply.exits with
  | false => simp [List.countP_cons, begins_record, call]
  | true => simp [List.countP_cons, begins_record, not_begins_exitRecord, call]

theorem countP_exitOpening (colored : Bool) (x : Exchange σ ν) :
    (x.recorded colored).countP (Entry.begins exitOpening) = [x].countP (·.reply.exits) := by
  have call : x.entry.begins exitOpening = false := rfl
  rw [Exchange.recorded_eq]
  cases hx : x.reply.exits with
  | false => simp [not_begins_record, call, hx]
  | true => simp [not_begins_record, begins_exitRecord, call, hx]

theorem begins_of_mem_recorded {colored : Bool} {x : Exchange σ ν} {e : Entry σ ν}
    (h : e ∈ (x.recorded colored).dropLast ∨ x.reply.exits = false ∧ e ∈ x.recorded colored) :
    e.begins exitOpening = false := by
  have either : e = .log (x.call.record x.before colored) ∨ e = x.entry := by
    rw [Exchange.recorded_eq] at h
    cases hx : x.reply.exits <;> simp [hx] at h <;> tauto
  rcases either with rfl | rfl
  · exact not_begins_record _ _ _
  · rfl

/-- If no call but the last asked to exit, a record that says so is the last thing in the journal. -/
theorem exit_record_last {colored : Bool} {xs : List (Exchange σ ν)}
    (h : ∀ x ∈ xs.dropLast, x.reply.exits = false) :
    ∀ e ∈ (xs.flatMap (Exchange.recorded colored)).dropLast, e.begins exitOpening = false := by
  rcases xs.eq_nil_or_concat with rfl | ⟨earlier, last, rfl⟩
  · simp
  · intro e he
    rw [List.concat_eq_append] at h he
    rw [List.dropLast_concat] at h
    rw [List.flatMap_append, List.flatMap_singleton, List.dropLast_append_of_ne_nil (by simp [Exchange.recorded])] at he
    rcases List.mem_append.mp he with he | he
    · obtain ⟨x, hx, he⟩ := List.mem_flatMap.mp he
      exact begins_of_mem_recorded (.inr ⟨h x hx, he⟩)
    · exact begins_of_mem_recorded (.inl he)

/-- A walk that logs shows its calls. Every call it makes is a call of what was given for the phase, whether or not that
    can be called. In the journal there stands just before the call a record of its phase, of the type of the node, of
    the field and the position that led to it and of the number of its ancestors, as all of these are then; and just
    after the call, if it returned a value that asks to exit, a record that says so, with the type that the node then
    has. There are no other records. Hence a record of an exit is the last thing in the journal and there is at most one,
    and there are as many records of a phase as calls. A walk that does not log has nothing but its calls in the
    journal. -/
theorem records_mirror_calls {enter leave : Option (Handle (Callback σ ν))} {c : Settings} {debug : Bool} {s : Store}
    {w : Walker σ ν} (made : Walker.make enter leave c debug s = .ok w) (fuel : Nat) (tree : Value) (store : Store)
    (memory : σ) :
    let r := w.walk fuel tree store memory
    (∀ x ∈ r.exchanges, ∃ handle m, x.call.phase.choose enter leave = some handle ∧
      x.reply = handle.toCallback x.call x.before m) ∧
    (c.logging = true → debug = true →
      r.journal = r.exchanges.flatMap (Exchange.recorded c.colored) ∧
      (∀ e ∈ r.journal.dropLast, e.begins exitOpening = false) ∧
      r.journal.countP (Entry.begins exitOpening) = r.exchanges.countP (·.reply.exits) ∧
      ∀ phase, r.journal.countP (Entry.begins phase.opening) = r.calls.countP (·.phase = phase)) ∧
    (c.logging = false ∨ debug = false → r.journal = r.exchanges.map Exchange.entry) := by
  intro r
  have exchanges : r.exchanges = (w.run fuel (w.start tree store memory)).exchanges := toRun_exchanges _
  obtain ⟨logs, colored⟩ := Walker.logs_of_make made
  refine ⟨fun x hx => ?_, fun logging debugs => ?_, fun silent => ?_⟩
  · rw [exchanges] at hx
    obtain ⟨f, m, hf, reply⟩ := (w.blamed_run tree store memory fuel).made x hx
    obtain ⟨handle, given, rfl⟩ := Walker.callback_of_make made hf
    exact ⟨handle, m, given, reply⟩
  · have journal : r.journal = r.exchanges.flatMap (Exchange.recorded c.colored) := by
      rw [exchanges, ← colored]
      exact Walker.journal_run (Walker.entries_logged (by rw [logs, logging, debugs]; rfl)) tree store memory fuel
    refine ⟨journal, ?_, ?_, fun phase => ?_⟩
    · rw [journal]
      refine exit_record_last fun x hx => ?_
      rw [exchanges] at hx
      exact Walker.exits_dropLast tree store memory fuel x hx
    · rw [journal]
      exact countP_recorded (countP_exitOpening c.colored) r.exchanges
    · rw [journal, Run.calls, List.countP_map]
      exact countP_recorded (countP_opening c.colored phase) r.exchanges
  · rw [exchanges, List.map_eq_flatMap]
    refine Walker.journal_run (Walker.entries_unlogged ?_) tree store memory fuel
    rw [logs]
    rcases silent with h | h <;> simp [h]

/-- At its second call `relabeling` gives the node another type and asks to exit, and the last record has that type; and
    there is a record of the call of something that cannot be called. -/
theorem branch_records :
    let r := (relabeler false).walk 20 (.container .mapping 0) branch 0
    r.journal = r.exchanges.flatMap (Exchange.recorded false) ∧
      r.journal.filterMap Entry.record? = ["enter node (If) key=None index=None depth=0",
        "enter node (Name) key='te\\x1b[33mst' index=None depth=1", "exit requested on enter node (Label)"] ∧
      ∃ w : Walker Nat Unit,
        Walker.make (some (.value .null)) (some (.value (.int 0))) (.verbose true) true branch = .ok w ∧
          let r := w.walk 20 (.container .mapping 0) branch 0
          r.journal.countP (Entry.begins "leave ") = 1 ∧
            r.journal.filterMap Entry.record? =
              ["leave node (\x1b[33mName\x1b[39m) key='te\\x1b[33mst' index=None depth=1"] := by
  intro r
  have exits : Walker.make (some (.callback relabeling)) none (.verbose false) true branch = .ok (relabeler false) := rfl
  have fails : Walker.make (some (.value .null)) (some (.value (.int 0))) (.verbose true) true branch =
      .ok (⟨none, some (Value.int 0).call, ["data", "position"], true, true, true⟩ : Walker Nat Unit) := rfl
  obtain ⟨-, mirrored, -⟩ := records_mirror_calls exits 20 (.container .mapping 0) branch 0
  obtain ⟨-, counted, -⟩ := records_mirror_calls fails 20 (.container .mapping 0) branch 0
  refine ⟨(mirrored rfl rfl).1, by decide +kernel, _, fails, ?_, by decide +kernel⟩
  exact ((counted rfl rfl).2.2.2 .leave).trans (by decide +kernel)

end TreeWalk
