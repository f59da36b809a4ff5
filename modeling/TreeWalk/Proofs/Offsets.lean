/-
  TreeWalk.Proofs.Offsets — the offsets in an array literal are those of its text.

  The text of an array literal has the texts of its elements between brackets, separated by a comma and a space. The
  literal is laid out without writing that text: offsets are counted on from element to element, and the last one tells
  where the array ends. Both sides are compared with any text before and after the elements.
  - `slice_spread`: each element spans its own text, and no other.
  - `getLast?_spread`: the last element ends where the joined texts end.
  - `wholeOf?_toString`: the text of a whole number is one that names it.
  - `offsets_describe_source`: so the offsets of the tree that is built for whole numbers are those of its text.
-/

import TreeWalk.Estree.Array
import TreeWalk.Value.Number

namespace TreeWalk.Estree.ArrayLiteral

/-- The texts of the elements, separated by a comma and a space. -/
def joined (texts : List String) : String := ", ".intercalate texts

def source (texts : List String) : String := "[" ++ joined texts ++ "]"

def slice (text : String) (start stop : Nat) : String := String.ofList ((text.toList.take stop).drop start)

@[simp] theorem joined_nil : joined [] = "" := String.intercalate_nil

@[simp] theorem joined_singleton (t : String) : joined [t] = t := String.intercalate_singleton

@[simp] theorem joined_cons_cons (t u : String) (ts : List String) :
    joined (t :: u :: ts) = t ++ ", " ++ joined (u :: ts) := String.intercalate_cons_cons

theorem exists_joined_cons (t : String) (ts : List String) : ∃ rest, joined (t :: ts) = t ++ rest := by
  cases ts with
  | nil => exact ⟨"", by simp⟩
  | cons u ts => exact ⟨", " ++ joined (u :: ts), by rw [joined_cons_cons, String.append_assoc]⟩

theorem slice_middle (before middle after : String) :
    slice (before ++ middle ++ after) before.length (before.length + middle.length) = middle := by
  have chars : (before ++ middle ++ after).toList = (before.toList ++ middle.toList) ++ after.toList := by simp
  have inner : (before.toList ++ middle.toList).length = before.length + middle.length := by
    rw [List.length_append, String.length_toList, String.length_toList]
  rw [slice, chars, List.take_left' inner, List.drop_left' String.length_toList, String.ofList_toList]

/-! ## Elements that are spread out -/

variable (s : Store)

@[simp] theorem value_spread (start : Nat) (vs : List Value) : (spread s start vs).map (·.value) = vs := by
  induction vs generalizing start with
  | nil => rfl
  | cons v vs ih => simp [spread, ih]

@[simp] theorem raw_spread (start : Nat) (vs : List Value) :
    (spread s start vs).map (·.raw) = vs.map (Value.plainText s) := by
  induction vs generalizing start with
  | nil => rfl
  | cons v vs ih => simp [spread, ih]

theorem mem_spread {start : Nat} {vs : List Value} {l : Literal} (h : l ∈ spread s start vs) :
    l.raw = l.value.plainText s ∧ l.stop = l.start + l.raw.length ∧ start ≤ l.start ∧
      l.stop ≤ start + (joined (vs.map (Value.plainText s))).length := by
  induction vs generalizing start with
  | nil => cases h
  | cons v vs ih =>
    rcases List.mem_cons.mp h with rfl | h
    · obtain ⟨rest, hrest⟩ := exists_joined_cons (v.plainText s) (vs.map (Value.plainText s))
      rw [List.map_cons, hrest, String.length_append]
      refine ⟨rfl, rfl, Nat.le_refl _, ?_⟩
      show start + (v.plainText s).length ≤ _
      omega
    · cases vs with
      | nil => cases h
      | cons u vs =>
        obtain ⟨raw, length, after, within⟩ := ih h
        simp only [List.map_cons, joined_cons_cons, String.length_append] at within ⊢
        have two : ", ".length = 2 := rfl
        exact ⟨raw, length, by omega, by omega⟩

theorem pairwise_spread (start : Nat) (vs : List Value) :
    (spread s start vs).Pairwise fun l m => l.stop < m.start := by
  induction vs generalizing start with
  | nil => exact .nil
  | cons v vs ih =>
    refine .cons (fun m hm => ?_) (ih _)
    obtain ⟨-, -, after, -⟩ := mem_spread s hm
    show start + (v.plainText s).length < m.start
    omega

/-- In a text that has the joined texts after `before`, the span of each element is its own text. -/
theorem slice_spread (before after : String) {vs : List Value} {l : Literal} (h : l ∈ spread s before.length vs) :
    slice (before ++ joined (vs.map (Value.plainText s)) ++ after) l.start l.stop = l.raw := by
  induction vs generalizing before with
  | nil => cases h
  | cons v vs ih =>
    rcases List.mem_cons.mp h with rfl | h
    · obtain ⟨rest, hrest⟩ := exists_joined_cons (v.plainText s) (vs.map (Value.plainText s))
      have middle := slice_middle before (v.plainText s) (rest ++ after)
      rw [List.map_cons, hrest]
      simpa [String.append_assoc] using middle
    · cases vs with
      | nil => cases h
      | cons u vs =>
        -- What stands before the second element is the first one with its comma.
        have start : before.length + (v.plainText s).length + 2 = (before ++ v.plainText s ++ ", ").length := by
          rw [String.length_append, String.length_append]
          rfl
        rw [start] at h
        have tail := ih (before ++ v.plainText s ++ ", ") h
        simpa [String.append_assoc] using tail

theorem getLast?_spread (start : Nat) (v : Value) (vs : List Value) :
    (spread s start (v :: vs)).getLast?.map (·.stop) =
      some (start + (joined ((v :: vs).map (Value.plainText s))).length) := by
  induction vs generalizing start v with
  | nil => simp [spread]
  | cons u vs ih =>
    have tail := ih (start + (v.plainText s).length + 2) u
    rw [spread, spread, List.getLast?_cons_cons, ← spread, tail]
    simp only [List.map_cons, joined_cons_cons, String.length_append]
    have two : ", ".length = 2 := rfl
    congr 1
    omega

theorem stop_ofValues (vs : List Value) :
    (ofValues s vs).stop = (source (vs.map (Value.plainText s))).length := by
  have brackets : "[".length = 1 ∧ "]".length = 1 := ⟨rfl, rfl⟩
  simp only [source, String.length_append]
  cases vs with
  | nil =>
    rw [List.map_nil, joined_nil]
    rfl
  | cons v vs =>
    show ((spread s 1 (v :: vs)).getLast?.map (·.stop)).getD 1 + 1 = _
    rw [getLast?_spread, Option.getD_some]
    omega

/-! ## Whole numbers -/

/-- The whole number that a decimal text names; a negative one has a sign before its digits. -/
def wholeOf? (text : String) : Option Int :=
  match text.toList with
  | '-' :: ds => (readDigits ds).map fun n => -(n : Int)
  | ds => (readDigits ds).map fun n => (n : Int)

theorem readDigits_toDigits (n : Nat) : readDigits (Nat.toDigits 10 n) = some n := by
  have digits : (Nat.toDigits 10 n).all Char.isDigit = true := by
    refine List.all_eq_true.mpr fun c hc => ?_
    exact Nat.isDigit_of_mem_toDigits (by decide) (by decide) hc
  have value : Nat.ofDigitChars 10 (Nat.toDigits 10 n) 0 = n := Nat.ofDigitChars_ten_toDigits
  unfold readDigits
  rw [if_neg (by simp [digits])]
  exact congrArg some value

theorem wholeOf?_toString (i : Int) : wholeOf? (toString i) = some i := by
  cases i with
  | ofNat n =>
    have chars : (toString (Int.ofNat n)).toList = Nat.toDigits 10 n := String.toList_ofList
    unfold wholeOf?
    rw [chars]
    split
    · -- A digit is no sign.
      rename_i ds sign
      have digit : '-'.isDigit = true := Nat.isDigit_of_mem_toDigits (by decide) (by decide)
        (sign ▸ List.mem_cons_self : '-' ∈ Nat.toDigits 10 n)
      cases digit
    · rw [readDigits_toDigits]
      rfl
  | negSucc n =>
    have chars : (toString (Int.negSucc n)).toList = '-' :: Nat.toDigits 10 (n + 1) := by
      have digits : (n + 1).repr.toList = Nat.toDigits 10 (n + 1) := String.toList_ofList
      show ("-" ++ (n + 1).repr).toList = _
      rw [String.toList_append, digits]
      rfl
    unfold wholeOf?
    rw [chars]
    simp only [readDigits_toDigits]
    rfl

theorem length_toString_pos (i : Int) : 0 < (toString i).length := by
  cases i with
  | ofNat n =>
    have chars : (toString (Int.ofNat n)).length = (Nat.toDigits 10 n).length := String.length_ofList
    rw [chars]
    exact Nat.length_toDigits_pos
  | negSucc n =>
    show 0 < ("-" ++ (n + 1).repr).length
    rw [String.length_append]
    exact Nat.lt_of_lt_of_le Nat.zero_lt_one (Nat.le_add_right _ _)

/-- The offsets of an array literal of whole numbers describe its text: it starts at the start of the text and ends with
    it, its elements are literals of the numbers in their order, each has the decimal text of its number and spans
    exactly this text, and the spans follow each other. -/
theorem offsets_describe_source (ns : List Int) :
    let text := source (ns.map toString)
    ∃ ls : List Literal,
      (ofValues s (ns.map .int)).toTree =
        node "ArrayExpression" 0 text.length [("elements", .list (ls.map Literal.toTree))] ∧
      ls.map (·.value) = ns.map .int ∧ ls.map (·.raw) = ns.map toString ∧
      (∀ l ∈ ls, slice text l.start l.stop = l.raw ∧ wholeOf? l.raw = l.value.int? ∧ 0 < l.start ∧ l.start < l.stop ∧
        l.stop < text.length) ∧
      ls.Pairwise fun l m => l.stop < m.start := by
  intro text
  have texts : (ns.map Value.int).map (Value.plainText s) = ns.map toString := by
    rw [List.map_map]
    rfl
  have stop := stop_ofValues s (ns.map .int)
  have values := value_spread s 1 (ns.map .int)
  have raws := raw_spread s 1 (ns.map .int)
  rw [texts] at stop raws
  refine ⟨spread s 1 (ns.map .int), ?_, values, raws, fun l hl => ?_, pairwise_spread s 1 _⟩
  · rw [toTree, stop]
    rfl
  · obtain ⟨raw, length, first, last⟩ := mem_spread s hl
    have spans := slice_spread s "[" "]" hl
    rw [texts] at last spans
    obtain ⟨n, -, value⟩ : ∃ n ∈ ns, Value.int n = l.value := by
      refine List.mem_map.mp ?_
      rw [← values]
      exact List.mem_map_of_mem hl
    have number : l.raw = toString n := by
      rw [raw, ← value]
      rfl
    have within : text.length = 1 + (joined (ns.map toString)).length + 1 := by
      simp only [text, source, String.length_append]
      rfl
    have digits := length_toString_pos n
    rw [number] at length
    refine ⟨spans, ?_, by omega, by omega, by omega⟩
    rw [number, wholeOf?_toString, ← value]
    rfl

example : source ["10", "-2", "0"] = "[10, -2, 0]" ∧ slice "[10, -2, 0]" 5 7 = "-2" := by decide

end TreeWalk.Estree.ArrayLiteral
