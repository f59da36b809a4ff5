/-
  TreeWalk.Proofs.Stack — which frame lies on which.

  The fields of a node lie on the visit of that node, or at the bottom if they are the fields of the root. A scan lies
  on the fields of the record that holds the list. The visit of a node lies where the walk came upon the node: on a scan
  at its position, on the fields that lead to it, or at the bottom. So a node in a list is one with a position
  (`Occurrence.LiesOn`), and a signal is never handed to a visit (`State.Stacked`).
  - `Walker.stacked_run`: this holds in every state of every walk.
  - `Stacked.length_le`: there are at most two frames above each visit.
-/

import TreeWalk.Proofs.Steps

namespace TreeWalk

variable {σ ν : Type}

/-- Where the visit of a node may lie. -/
def Occurrence.LiesOn (o : Occurrence) : List Frame → Prop
  | [] => o.key = none ∧ o.index = none
  | .fields _ _ _ :: _ => o.key.isSome ∧ o.index = none
  | .items _ key _ _ position :: _ => o.key = some key ∧ ∃ i : Nat, o.index = some i ∧ position = i
  | .visit _ _ :: _ => False

def Frame.LiesOn : Frame → List Frame → Prop
  | .fields node trail _, K => K = [] ∨ ∃ o g below, K = .visit o g :: below ∧ o.node = node ∧ o.ancestors = trail
  | .items _ _ parent trail _, K => ∃ names below, K = .fields parent trail names :: below
  | .visit o _, K => o.LiesOn K

/-- Every frame lies where it belongs. -/
def Stacked : List Frame → Prop
  | [] => True
  | frame :: below => frame.LiesOn below ∧ Stacked below

/-- A signal goes to a scan, to fields, or out of the walk. -/
def Focus.LiesOn : Focus → List Frame → Prop
  | .enter o, K => o.LiesOn K
  | .leave o _, K => o.LiesOn K
  | .back _, K => ∀ o g below, K ≠ .visit o g :: below
  | _, _ => True

def State.Stacked (s : State σ ν) : Prop := s.focus.LiesOn s.stack ∧ TreeWalk.Stacked s.stack

theorem Occurrence.LiesOn.not_visit {o : Occurrence} {K : List Frame} (h : o.LiesOn K) :
    ∀ o' g below, K ≠ .visit o' g :: below := by
  rintro o' g below rfl
  exact h

theorem Occurrence.LiesOn.index_isSome {o : Occurrence} {seq : Value} {key : String} {parent : Value}
    {trail : List Value} {position : Int} {K : List Frame} (h : o.LiesOn (.items seq key parent trail position :: K)) :
    o.index.isSome := by
  obtain ⟨-, i, hi, -⟩ := h
  rw [hi]
  rfl

/-! ## Every walk -/

theorem Silent.stacked {reserved : List String} {store : Store} {F F' : Focus} {K K' : List Frame}
    (h : Silent reserved store F K F' K') (hF : F.LiesOn K) (hK : Stacked K) : F'.LiesOn K' ∧ Stacked K' := by
  cases h with
  | enter o => exact ⟨trivial, .inr ⟨o, .silent, _, rfl, rfl, rfl⟩, hF, hK⟩
  | leave => exact ⟨Occurrence.LiesOn.not_visit hF, hK⟩
  | stop => exact ⟨trivial, trivial⟩
  | fieldsOver => exact ⟨trivial, hK.2⟩
  | passField => exact ⟨trivial, hK.1, hK.2⟩
  | fault => exact ⟨trivial, trivial⟩
  | scan _ _ _ names K => exact ⟨trivial, ⟨names, K, rfl⟩, hK.1, hK.2⟩
  | child => exact ⟨⟨rfl, rfl⟩, hK.1, hK.2⟩
  | scanOver => exact ⟨trivial, hK.2⟩
  | item _ _ _ _ i => exact ⟨⟨rfl, i, rfl, rfl⟩, hK⟩
  | passItem => exact ⟨trivial, hK.1, hK.2⟩
  | childrenOver => exact hK
  | rootOver => exact ⟨trivial, trivial⟩
  | exit => exact ⟨trivial, trivial⟩
  | resume => exact ⟨trivial, hK.1, hK.2⟩
  | toFields => exact ⟨trivial, hK⟩
  | toVisit => exact ⟨trivial, hK⟩
  | rest => exact ⟨trivial, hK⟩

theorem Moves.stacked {w : Walker σ ν} {s t : State σ ν} (h : Moves w s t) (hs : s.Stacked) : t.Stacked := by
  obtain ⟨hF, hK⟩ := hs
  cases h with
  | silent _ move => exact move.stacked hF hK
  | raises => exact ⟨trivial, trivial⟩
  | exits => exact ⟨trivial, trivial⟩
  | skips focus =>
    rw [focus] at hF
    exact ⟨hF, hK⟩
  | descends focus =>
    rw [focus] at hF
    exact ⟨trivial, .inr ⟨_, _, _, rfl, rfl, rfl⟩, hF, hK⟩
  | leaves focus =>
    rw [focus] at hF
    exact ⟨Occurrence.LiesOn.not_visit hF, hK⟩

theorem Walker.stacked_start (w : Walker σ ν) (tree : Value) (store : Store) (memory : σ) :
    (w.start tree store memory).Stacked := by
  unfold Walker.start
  split
  · exact ⟨trivial, trivial⟩
  · split
    · exact ⟨⟨rfl, rfl⟩, trivial⟩
    · exact ⟨trivial, .inl rfl, trivial⟩

theorem Walker.stacked_run (w : Walker σ ν) (tree : Value) (store : Store) (memory : σ) (n : Nat) :
    (w.run n (w.start tree store memory)).Stacked :=
  w.run_keeps (P := State.Stacked) (fun s h => (w.step_moves s).stacked h) (w.stacked_start tree store memory) n

/-! ## How long a stack can be -/

def Frame.isVisit : Frame → Bool
  | .visit _ _ => true
  | _ => false

def visits (K : List Frame) : Nat := K.countP Frame.isVisit

section

variable (K : List Frame)

@[simp] theorem visits_nil : visits [] = 0 := rfl

@[simp] theorem visits_fields (node : Value) (trail : List Value) (names : List String) :
    visits (.fields node trail names :: K) = visits K := List.countP_cons_of_neg Bool.false_ne_true

@[simp] theorem visits_items (seq : Value) (key : String) (parent : Value) (trail : List Value) (position : Int) :
    visits (.items seq key parent trail position :: K) = visits K := List.countP_cons_of_neg Bool.false_ne_true

@[simp] theorem visits_visit (o : Occurrence) (g : Signal) : visits (.visit o g :: K) = visits K + 1 :=
  List.countP_cons_of_pos rfl

end

/-- The number of frames above the innermost visit, or above the bottom. -/
def excess : List Frame → Nat
  | .fields _ _ _ :: _ => 1
  | .items _ _ _ _ _ :: _ => 2
  | _ => 0

theorem excess_le (K : List Frame) : excess K ≤ 2 := by
  unfold excess
  split <;> omega

theorem Stacked.length_le_excess {K : List Frame} (h : Stacked K) : K.length ≤ 3 * visits K + excess K := by
  induction K with
  | nil => simp
  | cons frame below ih =>
    obtain ⟨hlies, hbelow⟩ := h
    have hlen := ih hbelow
    cases frame with
    | fields node trail names =>
      rcases hlies with rfl | ⟨o, g, K', rfl, -, -⟩
      · simp [excess]
      · simp [excess] at hlen ⊢
        omega
    | items seq key parent trail position =>
      obtain ⟨names, K', rfl⟩ := hlies
      simp [excess] at hlen ⊢
      omega
    | visit o g =>
      -- A visit may lie on up to two frames above the next one.
      have hexcess := excess_le below
      simp only [visits_visit, List.length_cons]
      omega

theorem Stacked.length_le {K : List Frame} (h : Stacked K) : K.length ≤ 3 * visits K + 2 := by
  have hexcess := excess_le K
  have hlen := h.length_le_excess
  omega

end TreeWalk
