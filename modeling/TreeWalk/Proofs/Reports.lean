/-
  TreeWalk.Proofs.Reports — what is wrong with reserved names is told in one way, however they are listed.

  Every item that is not a name is reported by its spelling, in the order of the spellings. Items that are spelled alike
  keep the order in which they were listed, so the order of the items is not told by the items; two lists in different
  places may hold the same. But a report has nothing of an item except its spelling, so the reports are the same.
  - `Settings.map_complaint_eq_of_perm`: two rows of the same items, both in order, have the same reports.
  - `Settings.complaint_not_mem`: no report reads like one about a name, unless something else is spelled like a text.
  - `reports_are_canonical`: the reports of two collections of the same items, and the visits that fail with them.
-/

import TreeWalk.Proofs.Admission

namespace TreeWalk

variable {σ ν : Type}

/-! ## Quotes around nothing -/

theorem Text.escape_ne_nil (keep : Char → Bool) (slashed : List Char) (c : Char) : escape keep slashed c ≠ [] := by
  unfold escape codeEscape
  repeat' split
  all_goals exact List.cons_ne_nil _ _

theorem Text.quote_eq_empty {t : String} (h : quote t = quote "") : t = "" := by
  have chars : quoted isPrintable [] t.toList = quoted isPrintable [] [] := String.ofList_injective h
  have length := congrArg List.length chars
  simp only [quoted, List.length_append, List.length_cons, List.length_nil, List.flatMap_nil] at length
  have inner : t.toList.flatMap (escape isPrintable (markFor t.toList :: '\\' :: [])) = [] :=
    List.length_eq_zero_iff.mp (by omega)
  cases ht : t.toList with
  | nil => exact String.toList_eq_nil_iff.mp ht
  | cons c cs =>
    rw [ht, List.flatMap_cons, List.append_eq_nil_iff] at inner
    exact absurd inner.1 (escape_ne_nil _ _ _)

/-! ## Items in order -/

namespace Settings

variable {s : Store} {vs ws : List Value}

def InOrder (s : Store) (vs : List Value) : Prop := vs.Pairwise fun v w => v.spell s ≤ w.spell s

theorem sorted_perm (s : Store) (vs : List Value) : (sorted s vs).Perm vs := List.mergeSort_perm vs _

theorem sorted_inOrder (s : Store) (vs : List Value) : InOrder s (sorted s vs) := by
  have sorted : (vs.mergeSort fun v w => decide (v.spell s ≤ w.spell s)).Pairwise fun v w =>
      decide (v.spell s ≤ w.spell s) = true := by
    apply List.pairwise_mergeSort
    · intro u v w huv hvw
      simp only [decide_eq_true_eq] at huv hvw ⊢
      exact String.le_trans huv hvw
    · intro u v
      simp only [Bool.or_eq_true, decide_eq_true_eq]
      exact String.le_total _ _
  exact sorted.imp of_decide_eq_true

/-- Two rows of the same items, both in order, may differ in items that are spelled alike, and in nothing else. -/
theorem map_spell_eq_of_perm (hv : InOrder s vs) (hw : InOrder s ws) (same : vs.Perm ws) :
    vs.map (·.spell s) = ws.map (·.spell s) := by
  have antisymm : ∀ a b, a ∈ vs.map (·.spell s) → b ∈ ws.map (·.spell s) → a ≤ b → b ≤ a → a = b := by
    intro a b _ _ hab hba
    exact String.le_antisymm hab hba
  exact List.Perm.eq_of_pairwise antisymm (List.pairwise_map.mpr hv) (List.pairwise_map.mpr hw) (same.map _)

/-- So their reports are the same: a report has nothing of an item but its spelling. -/
theorem map_complaint_eq_of_perm (hv : InOrder s vs) (hw : InOrder s ws) (same : vs.Perm ws) :
    vs.map (complaint s) = ws.map (complaint s) := by
  have spellings := congrArg (List.map fun t => "reserved key " ++ t ++ " must be a non-empty string")
    (map_spell_eq_of_perm hv hw same)
  rw [List.map_map, List.map_map] at spellings
  exact spellings

theorem others_perm (s : Store) (vs : List Value) : (others s vs).Perm (vs.filter fun v => !isName v) :=
  (sorted_perm s vs).filter _

theorem others_inOrder (s : Store) (vs : List Value) : InOrder s (others s vs) :=
  (sorted_inOrder s vs).sublist List.filter_sublist

theorem complaints_eq_of_perm (same : ws.Perm vs) : complaints s ws = complaints s vs := by
  refine map_complaint_eq_of_perm (others_inOrder s ws) (others_inOrder s vs) ?_
  exact ((others_perm s ws).trans (same.filter _)).trans (others_perm s vs).symm

/-! ## Names are not reported -/

theorem spell_eq_of_complaint {u v : Value} (h : complaint s u = complaint s v) : u.spell s = v.spell s := by
  unfold complaint at h
  exact (String.append_right_inj _).mp ((String.append_left_inj _).mp h)

/-- Nothing but texts is spelled like a text. -/
def Apart (s : Store) (vs : List Value) : Prop := ∀ v ∈ vs, v.text? = none → ∀ t, v.spell s ≠ Text.quote t

/-- No report can be taken for one about a name: what is not a name is no text, or the empty one. -/
theorem complaint_not_mem (apart : Apart s vs) {v : Value} (name : isName v = true) :
    complaint s v ∉ (others s vs).map (complaint s) := by
  intro reported
  obtain ⟨u, hu, same⟩ := List.mem_map.mp reported
  obtain ⟨mem, other⟩ := List.mem_filter.mp ((others_perm s vs).mem_iff.mp hu)
  obtain ⟨t, rfl⟩ := Value.exists_text_of_isName name
  have spelling : u.spell s = Text.quote t := spell_eq_of_complaint same
  cases text : u.text? with
  | none => exact apart u mem text t spelling
  | some t' =>
    have hu : u = .text t' := by
      unfold Value.text? at text
      split at text
      · rw [Option.some.inj text]
      · cases text
    subst hu
    have empty : t' = "" := by simpa [isName] using other
    subst empty
    have none : t = "" := Text.quote_eq_empty spelling.symm
    simp [isName, none] at name

end Settings

/-! ## Reports -/

/-- The reports about reserved names are canonical. Two collections of the same items, each item as often in one as in
    the other, have the same reports, whatever kinds of collections they are and in whatever order they list the items.
    There is one report for each item that is not a name, as often as it is listed, and they stand in the order of the
    items' spellings; nothing is reported about names. A visit with either collection fails with these reports, if there
    are any, before it calls or logs anything. -/
theorem reports_are_canonical {s : Store} {c c' : Settings} {vs vs' : List Value} (lists : c.Lists s vs)
    (lists' : c'.Lists s vs') (same : vs'.Perm vs) :
    let bad := (Settings.sorted s vs).filter fun v => !Settings.isName v
    let reports := bad.map (Settings.complaint s)
    c.problems s = .ok reports ∧ c'.problems s = .ok reports ∧
      bad.Perm (vs.filter fun v => !Settings.isName v) ∧
      bad.Pairwise (fun v w => v.spell s ≤ w.spell s) ∧
      ((∀ v ∈ vs, v.text? = none → ∀ t, v.spell s ≠ Text.quote t) →
        ∀ v ∈ vs, Settings.isName v = true → Settings.complaint s v ∉ reports) ∧
      (reports ≠ [] → ∀ fuel debug (visitor : Visitor (Callback σ ν)) tree memory,
        visit fuel debug (some c) visitor tree s memory = ⟨some (.raised (.badConfig reports)), s, memory, []⟩ ∧
        visit fuel debug (some c') visitor tree s memory = ⟨some (.raised (.badConfig reports)), s, memory, []⟩) := by
  intro bad reports
  have problems : c.problems s = .ok reports := by
    rw [Settings.problems_of_other lists.other, lists.gives]
    rfl
  have problems' : c'.problems s = .ok reports := by
    rw [Settings.problems_of_other lists'.other, lists'.gives, Except.map, Settings.complaints_eq_of_perm same]
    rfl
  refine ⟨problems, problems', Settings.others_perm s vs, Settings.others_inOrder s vs, ?_, ?_⟩
  · intro apart v _ name
    exact Settings.complaint_not_mem apart name
  · intro some fuel debug visitor tree memory
    exact ⟨visit_of_problems problems some fuel debug tree memory, visit_of_problems problems' some fuel debug tree memory⟩

def twins : Store := ⟨#[{ items := [.int 1] }, { items := [.int 1] }]⟩

/-- A list and a tuple of the same items in different orders. Two of the items are lists in different places that are
    spelled alike; they are reported after the empty text and the number, and nothing is reported about the name. -/
theorem twins_reported :
    let c : Settings := { reserved := .items [.container .list 0, .text "b", .int 7, .container .list 1, .text ""] }
    let c' : Settings := { reserved := .value (.tuple [.text "", .container .list 1, .int 7, .container .list 0,
      .text "b"]) }
    let reports := ["reserved key '' must be a non-empty string", "reserved key 7 must be a non-empty string",
      "reserved key [1] must be a non-empty string", "reserved key [1] must be a non-empty string"]
    c.problems twins = .ok reports ∧ c'.problems twins = .ok reports ∧
      visit 20 true (some c') (.nothing : Visitor (Callback Nat Unit)) (.int 1) twins 0 =
        ⟨some (.raised (.badConfig reports)), twins, 0, []⟩ := by
  intro c c' reports
  have same : [.text "", .container .list 1, .int 7, .container .list 0, .text "b"].Perm
      [.container .list 0, .text "b", .int 7, .container .list 1, (.text "" : Value)] := by decide
  have lists' : c'.Lists twins [.text "", .container .list 1, .int 7, .container .list 0, .text "b"] := ⟨rfl, rfl⟩
  obtain ⟨problems, problems', -, -, -, fails⟩ := reports_are_canonical (σ := Nat) (ν := Unit) (s := twins) (c := c)
    ⟨rfl, rfl⟩ lists' same
  have inOrder : Settings.InOrder twins [.text "", .int 7, .container .list 0, .container .list 1] := by
    unfold Settings.InOrder
    decide +kernel
  have all : (Settings.others twins [.container .list 0, .text "b", .int 7, .container .list 1, .text ""]).map
      (Settings.complaint twins) = reports := by
    rw [Settings.map_complaint_eq_of_perm (Settings.others_inOrder _ _) inOrder
      ((Settings.others_perm _ _).trans (by decide))]
    decide +kernel
  rw [Settings.others] at all
  rw [all] at problems problems' fails
  exact ⟨problems, problems', (fails (List.cons_ne_nil _ _) 20 true .nothing (.int 1) 0).2⟩

end TreeWalk
