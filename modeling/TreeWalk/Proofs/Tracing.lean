/-
  TreeWalk.Proofs.Tracing — logging does not show in a walk.

  Whether a walk logs, whether its records are coloured, and whether its records are kept has no influence on what it
  does: two walks that differ in nothing else go through the same states, apart from the records in their histories
  (`Alike`).

  A coloured record is the plain one with a mark before and a mark after the type of the node. `uncolor` removes these
  marks from a text, wherever they stand. All else in a record is free of them (`uncolor_record`): a key is quoted, and
  no quoted text has an escape character (`Text.escape_not_mem_quote`).
  - `tracing_transparent`: the calls, the answers and the outcome are the same; and without the marks, the records are.
-/

import Mathlib.Data.List.Infix
import TreeWalk.Proofs.Steps

namespace TreeWalk

variable {σ ν : Type}

/-! ## Colours -/

/-- A text without the marks that turn the colour on and off. -/
def uncolor : List Char → List Char
  | '\x1b' :: '[' :: '3' :: '3' :: 'm' :: cs => uncolor cs
  | '\x1b' :: '[' :: '3' :: '9' :: 'm' :: cs => uncolor cs
  | c :: cs => c :: uncolor cs
  | [] => []

theorem uncolor_cons {c : Char} (h : c ≠ '\x1b') (cs : List Char) : uncolor (c :: cs) = c :: uncolor cs := by
  rw [uncolor]
  · rintro cs rfl
    exact absurd rfl h
  · rintro cs rfl
    exact absurd rfl h

theorem uncolor_append {as : List Char} (h : '\x1b' ∉ as) (cs : List Char) : uncolor (as ++ cs) = as ++ uncolor cs := by
  induction as with
  | nil => rfl
  | cons a as ih =>
    obtain ⟨ha, has⟩ := not_or.mp (mt List.mem_cons.mpr h)
    rw [List.cons_append, uncolor_cons (Ne.symm ha), ih has, List.cons_append]

theorem uncolor_eq_self {as : List Char} (h : '\x1b' ∉ as) : uncolor as = as := by
  have kept := uncolor_append h []
  rwa [List.append_nil, uncolor, List.append_nil] at kept

theorem ends_before {c : Char} (ms : List Char) {as cs ds : List Char} (hc : c ∉ ms) (h : as ++ c :: cs = ms ++ ds) :
    ∃ rest, as = ms ++ rest := by
  rcases List.append_eq_append_iff.mp h with ⟨more, hms, hds⟩ | ⟨rest, has, -⟩
  · cases more with
    | nil => exact ⟨[], by rw [hms, List.append_nil, List.append_nil]⟩
    | cons d more =>
      cases hds
      rw [hms] at hc
      exact absurd (by simp) hc
  · exact ⟨rest, has⟩

/-- No mark goes beyond a character that does not stand inside of one. -/
theorem uncolor_split {c : Char} (h : c ∉ ['[', '3', '9', 'm']) (as cs : List Char) :
    uncolor (as ++ c :: cs) = uncolor as ++ uncolor (c :: cs) := by
  fun_induction uncolor as with
  | case1 as ih => exact ih
  | case2 as ih => exact ih
  | case3 a as on off ih =>
    rw [List.cons_append, uncolor, ih, List.cons_append]
    · intro ds ha hds
      obtain ⟨rest, has⟩ := ends_before ['[', '3', '3', 'm'] (by simp_all) hds
      exact on rest ha has
    · intro ds ha hds
      obtain ⟨rest, has⟩ := ends_before ['[', '3', '9', 'm'] (by simp_all) hds
      exact off rest ha has
  | case4 => rfl

theorem uncolor_on (cs : List Char) : uncolor ("\x1b[33m".toList ++ cs) = uncolor cs := rfl

theorem uncolor_off (cs : List Char) : uncolor ("\x1b[39m".toList ++ cs) = uncolor cs := rfl

/-- There is no mark in the text. -/
structure Colorless (text : String) : Prop where
  on : ¬ "\x1b[33m".toList <:+: text.toList
  off : ¬ "\x1b[39m".toList <:+: text.toList

instance (text : String) : Decidable (Colorless text) :=
  decidable_of_iff (¬ "\x1b[33m".toList <:+: text.toList ∧ ¬ "\x1b[39m".toList <:+: text.toList)
    ⟨fun h => ⟨h.1, h.2⟩, fun h => ⟨h.on, h.off⟩⟩

theorem Colorless.uncolor {text : String} (h : Colorless text) : uncolor text.toList = text.toList := by
  obtain ⟨on, off⟩ := h
  generalize text.toList = cs at on off
  fun_induction TreeWalk.uncolor cs with
  | case1 cs ih => exact absurd ⟨[], cs, rfl⟩ on
  | case2 cs ih => exact absurd ⟨[], cs, rfl⟩ off
  | case3 c cs _ _ ih =>
    have later : cs <:+: c :: cs := (List.suffix_cons c cs).isInfix
    rw [ih (fun h => on (h.trans later)) (fun h => off (h.trans later))]
  | case4 => rfl

/-! ## Records -/

namespace Text

theorem escape_not_mem_hexDigits (k n : Nat) : '\x1b' ∉ hexDigits k n := by
  induction k generalizing n with
  | zero => exact List.not_mem_nil
  | succ k ih =>
    have hdigit : ∀ d < 16, '\x1b' ≠ Nat.digitChar d := by decide
    rw [hexDigits, List.mem_append, List.mem_singleton, not_or]
    exact ⟨ih _, hdigit _ (Nat.mod_lt n (by decide))⟩

/-- A character is never written with an escape character: the escape character itself is not printable. -/
theorem escape_not_mem_escape {slashed : List Char} (h : '\x1b' ∉ slashed) (c : Char) :
    '\x1b' ∉ escape isPrintable slashed c := by
  unfold escape
  split
  · rename_i hc
    have hne : '\x1b' ≠ c := fun e => h (e ▸ hc)
    simp [hne]
  · split
    · decide
    · split
      · decide
      · split
        · decide
        · split
          · rename_i hprint
            have hne : '\x1b' ≠ c := by
              rintro rfl
              exact absurd hprint (by decide)
            simp [hne]
          · unfold codeEscape
            split
            · simp [escape_not_mem_hexDigits]
            · split <;> simp [escape_not_mem_hexDigits]

theorem escape_not_mem_quote (text : String) : '\x1b' ∉ (quote text).toList := by
  have hmark : '\x1b' ≠ markFor text.toList := by
    unfold markFor
    split <;> decide
  rw [quote, String.toList_ofList, quoted]
  simp only [List.cons_append, List.mem_cons, List.mem_append, List.mem_flatMap, List.not_mem_nil, or_false, not_or,
    not_exists, not_and]
  refine ⟨hmark, fun c _ => escape_not_mem_escape ?_ c, hmark⟩
  simp [hmark]

theorem escape_not_mem_number (n : Nat) : '\x1b' ∉ (toString n).toList := by
  show '\x1b' ∉ n.repr.toList
  rw [Nat.toList_repr]
  intro h
  exact absurd (Nat.isDigit_of_mem_toDigits (by decide) (by decide) h) (by decide)

end Text

def Value.Colorless (s : Store) (v : Value) : Prop := ∀ t ∈ v.tag s, TreeWalk.Colorless t

instance (s : Store) (v : Value) : Decidable (v.Colorless s) :=
  inferInstanceAs (Decidable (∀ t ∈ v.tag s, TreeWalk.Colorless t))

theorem uncolor_type (colored : Bool) (t : String) (after : List Char) :
    uncolor (("node (" ++ (if colored then yellow t else t) ++ ")").toList ++ after) =
      "node (".toList ++ (uncolor t.toList ++ ')' :: uncolor after) := by
  have close : uncolor (t.toList ++ ')' :: after) = uncolor t.toList ++ ')' :: uncolor after := by
    rw [uncolor_split (by decide), uncolor_cons (by decide)]
  rw [String.toList_append, String.toList_append, List.append_assoc, List.append_assoc, uncolor_append (by decide)]
  congr 1
  cases colored with
  | false => exact close
  | true =>
    simp only [if_true, yellow, String.toList_append, List.append_assoc]
    have off : uncolor (t.toList ++ ("\x1b[39m".toList ++ (")".toList ++ after))) =
        uncolor t.toList ++ uncolor ("\x1b[39m".toList ++ (")".toList ++ after)) :=
      uncolor_split (c := '\x1b') (by decide) t.toList ('[' :: '3' :: '9' :: 'm' :: ')' :: after)
    rw [uncolor_on, off, uncolor_off]
    exact congrArg _ (uncolor_cons (by decide) after)

theorem uncolor_label (s : Store) (colored : Bool) (v : Value) {before : List Char} (h : '\x1b' ∉ before)
    (after : List Char) :
    uncolor (before ++ ((v.label s colored).toList ++ after)) =
      before ++ (uncolor (v.label s false).toList ++ uncolor after) := by
  rw [uncolor_append h]
  congr 1
  unfold Value.label
  split
  · rename_i t _
    split
    · exact uncolor_append (by decide) after
    · have plain := uncolor_type false t []
      rw [List.append_nil] at plain
      rw [uncolor_type colored t after, plain]
      simp [uncolor]
  · exact uncolor_append (by decide) after

theorem uncolor_label_plain {s : Store} {v : Value} (h : v.Colorless s) :
    uncolor (v.label s false).toList = (v.label s false).toList := by
  unfold Value.label
  split
  · rename_i t ht
    split
    · exact uncolor_eq_self (by decide)
    · have plain := uncolor_type false t []
      rw [List.append_nil, (h t ht).uncolor] at plain
      rw [plain]
      simp [uncolor]
  · exact uncolor_eq_self (by decide)

def uncolored (text : String) : String := String.ofList (uncolor text.toList)

section

variable {s : Store} {v : Value} {before after : String} (hbefore : '\x1b' ∉ before.toList)

include hbefore

/-- Without marks, a text around a label does not show whether the label is coloured. -/
theorem uncolored_around (colored : Bool) :
    uncolored (before ++ (v.label s colored ++ after)) = uncolored (before ++ (v.label s false ++ after)) := by
  simp only [uncolored, String.toList_append]
  rw [uncolor_label s colored v hbefore, uncolor_label s false v hbefore]

theorem uncolored_around_plain (hv : v.Colorless s) (hafter : '\x1b' ∉ after.toList) :
    uncolored (before ++ (v.label s false ++ after)) = before ++ (v.label s false ++ after) := by
  rw [uncolored, String.toList_append, String.toList_append, uncolor_label s false v hbefore, uncolor_label_plain hv,
    uncolor_eq_self hafter, ← String.toList_append, ← String.toList_append, String.ofList_toList]

end

namespace Call

def placeText (c : Call) : String :=
  " key=" ++ (match c.key with | some k => Text.quote k | none => "None")
    ++ " index=" ++ (match c.index with | some i => toString i | none => "None")
    ++ " depth=" ++ toString c.ancestors.length

variable (s : Store) (colored : Bool) (c : Call)

theorem record_eq : c.record s colored = (c.phase.name ++ " ") ++ (c.node.label s colored ++ c.placeText) := by
  obtain ⟨⟨node, key, index, ancestors⟩, phase⟩ := c
  cases key <;> cases index <;> simp only [record, placeText, String.append_assoc]

theorem exitRecord_eq : c.exitRecord s colored =
    ("exit requested on " ++ c.phase.name ++ " ") ++ (c.node.label s colored ++ "") :=
  congrArg (("exit requested on " ++ c.phase.name ++ " ") ++ ·) String.append_empty.symm

theorem escape_not_mem_placeText : '\x1b' ∉ c.placeText.toList := by
  have key : '\x1b' ∉ (match c.key with | some k => Text.quote k | none => "None").toList := by
    split
    · exact Text.escape_not_mem_quote _
    · decide
  have index : '\x1b' ∉ (match c.index with | some i => toString i | none => "None").toList := by
    split
    · exact Text.escape_not_mem_number _
    · decide
  simp only [placeText, String.toList_append, List.mem_append, not_or]
  exact ⟨⟨⟨⟨⟨by decide, key⟩, by decide⟩, index⟩, by decide⟩, Text.escape_not_mem_number _⟩

theorem escape_not_mem_phase : '\x1b' ∉ (c.phase.name ++ " ").toList := by cases c.phase <;> decide

theorem escape_not_mem_exit : '\x1b' ∉ ("exit requested on " ++ c.phase.name ++ " ").toList := by
  cases c.phase <;> decide

end Call

def Entry.uncolored : Entry σ ν → Entry σ ν
  | .log text => .log (TreeWalk.uncolored text)
  | .exchange c s r => .exchange c s r

/-- The type of the node had no marks in it, neither when the call was made nor when it was answered. -/
structure Exchange.Colorless (x : Exchange σ ν) : Prop where
  before : x.call.node.Colorless x.before
  after : x.call.node.Colorless x.reply.store

instance (x : Exchange σ ν) : Decidable x.Colorless :=
  decidable_of_iff (x.call.node.Colorless x.before ∧ x.call.node.Colorless x.reply.store)
    ⟨fun h => ⟨h.1, h.2⟩, fun h => ⟨h.before, h.after⟩⟩

/-- Two walkers with the same callbacks and the same reserved names. -/
structure Walker.Twins (w w' : Walker σ ν) : Prop where
  enter : w'.enter = w.enter
  leave : w'.leave = w.leave
  reserved : w'.reserved = w.reserved

namespace Walker

variable {w w' : Walker σ ν}

theorem uncolored_entries (logs : w'.logs = w.logs) (c : Call) (before : Store) (r : Reply σ ν) :
    (w'.entries c before r).map Entry.uncolored = (w.entries c before r).map Entry.uncolored := by
  have call (k : Bool) : uncolored (c.record before k) = uncolored (c.record before false) := by
    rw [c.record_eq, c.record_eq]
    exact uncolored_around c.escape_not_mem_phase k
  have exit (k : Bool) : uncolored (c.exitRecord r.store k) = uncolored (c.exitRecord r.store false) := by
    rw [c.exitRecord_eq, c.exitRecord_eq]
    exact uncolored_around c.escape_not_mem_exit k
  unfold entries
  rw [logs]
  cases w.logs with
  | false => simp [Entry.uncolored]
  | true =>
    cases r.exits with
    | false => simp [Entry.uncolored, call w'.colored, call w.colored]
    | true => simp [Entry.uncolored, call w'.colored, call w.colored, exit w'.colored, exit w.colored]

theorem plain_entries (plain : w.colored = false) {c : Call} {before : Store} {r : Reply σ ν}
    (h : Exchange.Colorless ⟨c, before, r⟩) : (w.entries c before r).map Entry.uncolored = w.entries c before r := by
  have call : uncolored (c.record before false) = c.record before false := by
    rw [c.record_eq]
    exact uncolored_around_plain c.escape_not_mem_phase h.before c.escape_not_mem_placeText
  have exit : uncolored (c.exitRecord r.store false) = c.exitRecord r.store false := by
    rw [c.exitRecord_eq]
    exact uncolored_around_plain c.escape_not_mem_exit h.after (by decide)
  unfold entries
  rw [plain]
  cases w.logs with
  | false => simp [Entry.uncolored]
  | true =>
    cases r.exits with
    | false => simp [Entry.uncolored, call]
    | true => simp [Entry.uncolored, call, exit]

/-! ## Two walks side by side -/

theorem Twins.due (h : w.Twins w') (F : Focus) : w'.due F = w.due F := by
  cases F with
  | enter o => simp only [Walker.due, h.enter]
  | leave o g => simp only [Walker.due, h.leave]
  | _ => rfl

end Walker

/-- Two walks at the same point; if both log or both do not, their histories differ in nothing but marks. -/
structure Alike (w w' : Walker σ ν) (s s' : State σ ν) : Prop where
  aligned : Walker.Aligned s s'
  memory : s'.memory = s.memory
  exchanges : s'.exchanges = s.exchanges
  history : w'.logs = w.logs → s'.history.map Entry.uncolored = s.history.map Entry.uncolored

variable {w w' : Walker σ ν}

theorem Alike.step (twins : w.Twins w') {s s' : State σ ν} (h : Alike w w' s s') :
    Alike w w' (w.step s) (w'.step s') := by
  have hdue : w'.due s'.focus = w.due s.focus := by rw [twins.due, h.aligned.focus]
  cases due : w.due s.focus with
  | none =>
    rw [due] at hdue
    obtain ⟨aligned, memory, memory'⟩ := h.aligned.silent twins.reserved due hdue
    refine ⟨aligned, by rw [memory, memory', h.memory], ?_, ?_⟩
    · rw [Walker.exchanges_silent due, Walker.exchanges_silent hdue, h.exchanges]
    · obtain ⟨F, K, -, hs⟩ := Walker.step_silent due
      obtain ⟨F', K', -, hs'⟩ := Walker.step_silent hdue
      rw [hs, hs']
      exact h.history
  | some p =>
    obtain ⟨f, c⟩ := p
    rw [due] at hdue
    -- The same callback is called, with the same arguments.
    have reply : f c s'.store s'.memory = f c s.store s.memory := by rw [h.aligned.store, h.memory]
    refine ⟨h.aligned.called due hdue (by rw [reply]) (by rw [reply]) (by rw [reply]), ?_, ?_, fun logs => ?_⟩
    · rw [Walker.step_called due, Walker.step_called hdue]
      simp only [go_memory, Walker.after_memory, reply]
    · rw [Walker.exchanges_called due, Walker.exchanges_called hdue, h.exchanges, reply, h.aligned.store]
    · rw [Walker.step_called due, Walker.step_called hdue, reply]
      show (w'.entries c s'.store _ ++ s'.history).map _ = (w.entries c s.store _ ++ s.history).map _
      rw [List.map_append, List.map_append, h.history logs, h.aligned.store, Walker.uncolored_entries logs]

theorem alike_run (twins : w.Twins w') (tree : Value) (store : Store) (memory : σ) (n : Nat) :
    Alike w w' (w.run n (w.start tree store memory)) (w'.run n (w'.start tree store memory)) := by
  induction n with
  | zero =>
    have start : w'.start tree store memory = w.start tree store memory := by
      simp only [Walker.start, twins.enter, twins.leave]
    show Alike w w' (w.start tree store memory) (w'.start tree store memory)
    rw [start]
    exact ⟨⟨rfl, rfl, rfl⟩, rfl, rfl, fun _ => rfl⟩
  | succ n ih =>
    rw [w.run_succ, w'.run_succ]
    exact ih.step twins

theorem plain_run (plain : w.colored = false) (tree : Value) (store : Store) (memory : σ) (n : Nat)
    (h : ∀ x ∈ (w.run n (w.start tree store memory)).exchanges, x.Colorless) :
    (w.run n (w.start tree store memory)).history.map Entry.uncolored =
      (w.run n (w.start tree store memory)).history := by
  revert h
  refine w.run_keeps (P := fun s => (∀ x ∈ s.exchanges, x.Colorless) → s.history.map Entry.uncolored = s.history)
    (fun s ih h => ?_) (fun _ => ?_) n
  · cases due : w.due s.focus with
    | none =>
      rw [Walker.exchanges_silent due] at h
      obtain ⟨F, K, -, hs⟩ := Walker.step_silent due
      rw [hs]
      exact ih h
    | some p =>
      rw [Walker.exchanges_called due] at h
      obtain ⟨earlier, last⟩ := List.forall_mem_append.mp h
      rw [Walker.step_called due]
      show (w.entries _ _ _ ++ s.history).map _ = w.entries _ _ _ ++ s.history
      rw [List.map_append, ih earlier, Walker.plain_entries plain (List.forall_mem_singleton.mp last)]
  · rw [w.start_history]
    rfl

/-! ## Tracing -/

theorem make_twins (enter leave : Option (Handle (Callback σ ν))) {c c' : Settings}
    (reserved : c'.reserved = c.reserved) (debug debug' : Bool) (s : Store) :
    match Walker.make enter leave c debug s, Walker.make enter leave c' debug' s with
    | .ok w, .ok w' => w.Twins w' ∧ w.colored = c.colored ∧ (c'.logging = c.logging → debug' = debug → w'.logs = w.logs)
    | .error e, .error e' => e' = e
    | _, _ => False := by
  unfold Walker.make
  rw [reserved]
  cases c.reserved.names s with
  | error e => rfl
  | ok names =>
    refine ⟨⟨rfl, rfl, rfl⟩, rfl, fun logging debugs => ?_⟩
    simp only [Walker.logs, logging, debugs]

/-- Logging does not show in a walk. Two walkers that are made of the same callbacks and the same reserved names are both
    refused, with the same fault, or do the same: from the same tree, store and memory they make the same calls in the
    same stores, get the same answers, and come to the same outcome, store and memory after any number of steps. If they
    differ only in the colour of their records, all that happened is the same once the marks are removed from the
    records; and if the types of the nodes have no marks, this gives the records that are not coloured. -/
theorem tracing_transparent (enter leave : Option (Handle (Callback σ ν))) (c c' : Settings)
    (reserved : c'.reserved = c.reserved) (debug debug' : Bool) (s : Store) :
    (∀ e, Walker.make enter leave c debug s = .error e → Walker.make enter leave c' debug' s = .error e) ∧
    ∀ w, Walker.make enter leave c debug s = .ok w → ∃ w', Walker.make enter leave c' debug' s = .ok w' ∧
      ∀ fuel tree store memory,
        let r := w.walk fuel tree store memory
        let r' := w'.walk fuel tree store memory
        r'.exchanges = r.exchanges ∧ r'.outcome = r.outcome ∧ r'.store = r.store ∧ r'.memory = r.memory ∧
        (c'.logging = c.logging → debug' = debug →
          r'.journal.map Entry.uncolored = r.journal.map Entry.uncolored ∧
          (c.colored = false → (∀ x ∈ r.exchanges, x.Colorless) → r'.journal.map Entry.uncolored = r.journal)) := by
  have made := make_twins enter leave reserved debug debug' s
  cases hw : Walker.make enter leave c debug s with
  | error e =>
    cases hw' : Walker.make enter leave c' debug' s with
    | ok w' => rw [hw, hw'] at made; exact made.elim
    | error e' =>
      rw [hw, hw'] at made
      have he : e' = e := made
      subst he
      exact ⟨fun _ h => h, nofun⟩
  | ok w =>
    cases hw' : Walker.make enter leave c' debug' s with
    | error e' => rw [hw, hw'] at made; exact made.elim
    | ok w' =>
      rw [hw, hw'] at made
      obtain ⟨twins, colored, logs⟩ := made
      refine ⟨nofun, ?_⟩
      rintro _ ⟨⟩
      refine ⟨w', rfl, fun fuel tree store memory => ?_⟩
      intro r r'
      have alike := alike_run twins tree store memory fuel
      have journal : c'.logging = c.logging → debug' = debug →
          r'.journal.map Entry.uncolored = r.journal.map Entry.uncolored := by
        intro logging debugs
        show (List.reverse _).map _ = (List.reverse _).map _
        rw [List.map_reverse, List.map_reverse, alike.history (logs logging debugs)]
      refine ⟨?_, ?_, alike.aligned.store, alike.memory, fun logging debugs => ⟨journal logging debugs, ?_⟩⟩
      · simp only [r, r', Walker.walk, toRun_exchanges, alike.exchanges]
      · show State.outcome? _ = State.outcome? _
        unfold State.outcome?
        rw [alike.aligned.focus]
      · intro plain colorless
        rw [journal logging debugs]
        show (List.reverse _).map _ = List.reverse _
        rw [List.map_reverse, plain_run (colored.trans plain)]
        simpa only [r, Walker.walk, toRun_exchanges] using colorless

/-- A test with a name in a field whose own name has an escape character. -/
def branch : Store := ⟨#[
  { fields := .ofList [("type", .text "If"), ("te\x1b[33mst", .container .mapping 1)] },
  { fields := .ofList [("type", .text "Name")] }]⟩

/-- At its second call, gives the name another type and asks to exit. -/
def relabeling : Callback Nat Unit := fun c s n =>
  if n = 1 then c.answer (s.setFields 1 (.ofList [("type", .text "Label")])) (n + 1) (.ok (.action .exit))
  else c.answer s (n + 1) (.ok .null)

def relabeler (colored : Bool) : Walker Nat Unit := ⟨some relabeling, none, ["data", "position"], true, colored, true⟩

theorem branch_traces :
    let r := (relabeler false).walk 20 (.container .mapping 0) branch 0
    let r' := (relabeler true).walk 20 (.container .mapping 0) branch 0
    r'.exchanges = r.exchanges ∧ r'.outcome = r.outcome ∧ r'.journal.map Entry.uncolored = r.journal ∧
      r.outcome = some (.returned (.ofValue (.action .exit))) ∧ r.journal.length = 5 := by
  intro r r'
  have made (colored : Bool) : Walker.make (some (.callback relabeling)) none (.verbose colored) true branch =
      .ok (relabeler colored) := rfl
  obtain ⟨-, same⟩ := tracing_transparent (some (.callback relabeling)) none (.verbose false) (.verbose true) rfl true
    true branch
  obtain ⟨w', hw', same⟩ := same (relabeler false) (made false)
  rw [made true] at hw'
  cases hw'
  obtain ⟨exchanges, outcome, -, -, records⟩ := same 20 (.container .mapping 0) branch 0
  refine ⟨exchanges, outcome, (records rfl rfl).2 rfl ?_, ?_, ?_⟩
  · decide +kernel
  · decide +kernel
  · decide +kernel

end TreeWalk
