/-
  TreeWalk.Proofs.Trails — the walk with its lists of ancestors as objects.

  In the walk a list of ancestors is a value: a callback is given one, and gives one back. Here it is an object. A list
  is known by its place among all the lists made so far (`Desk.trails`). Visits and frames hold places; a callback is
  given what stands in a place and leaves it edited there, for everyone who holds the place to see. The walk makes a new
  list for each child it comes upon, out of what the list of the parent holds at that time, and does nothing else to
  lists (`Walker.act`).
  - `Walker.deed_does`: what the walk does next, and which places are held afterwards (`Shape`).
  - `Walker.tidy_step`: a visit holds a younger list than all that waits below it.
  - `Tidy.forget_step`: so an edit is seen by nobody else, and read off their places the lists are the values of the
    walk, step by step.
-/

import TreeWalk.Proofs.Bracketing

namespace TreeWalk

variable {σ ν : Type}

/-! ## The walk with lists as objects -/

/-- A node at the place where the walk came upon it, with the place of its list of ancestors. -/
structure Visit where
  node : Value
  key : Option String
  index : Option Nat
  trail : Nat
  deriving DecidableEq, Repr

def Visit.mark (v : Visit) : Mark := ⟨v.node, v.key, v.index⟩

inductive Task where
  | fields (node : Value) (trail : Nat) (names : List String)
  | items (seq : Value) (key : String) (parent : Value) (trail : Nat) (position : Int)
  | visit (v : Visit) (signal : Signal)
  deriving DecidableEq, Repr

inductive Aim where
  | enter (v : Visit)
  | leave (v : Visit) (signal : Signal)
  | next
  | back (signal : Signal)
  | done (outcome : Outcome)
  deriving DecidableEq, Repr

/-- A call, with the place of the list it was given. -/
structure Handing (σ ν : Type) extends Exchange σ ν where
  trail : Nat

structure Desk (σ ν : Type) where
  store : Store
  memory : σ
  history : List (Entry σ ν)
  aim : Aim
  tasks : List Task
  /-- Every list of ancestors that was made, as it reads now. -/
  trails : List (List Value)
  /-- Which call was given which list, the first call first. -/
  handed : List (Handing σ ν)

/-- What the walk does next. -/
inductive Deed (σ ν : Type) where
  | go (aim : Aim) (tasks : List Task)
  /-- Come upon a child of `parent`, whose list is in the place `trail`. -/
  | reach (child : Value) (key : String) (index : Option Nat) (parent : Value) (trail : Nat) (tasks : List Task)
  | call (f : Callback σ ν) (phase : Phase) (v : Visit)

def readTrail (trails : List (List Value)) (i : Nat) : List Value := trails[i]?.getD []

def Desk.read (d : Desk σ ν) (i : Nat) : List Value := readTrail d.trails i

def Visit.forget (trails : List (List Value)) (v : Visit) : Occurrence :=
  ⟨v.node, v.key, v.index, readTrail trails v.trail⟩

def Desk.callOf (d : Desk σ ν) (v : Visit) (phase : Phase) : Call := { v.forget d.trails with phase }

namespace Walker

variable (w : Walker σ ν)

def fieldDeed (store : Store) (node : Value) (trail : Nat) (key : String) (names : List String) (rest : List Task) :
    Deed σ ν :=
  let pass := .go .next (.fields node trail names :: rest)
  if key ∈ w.reserved then pass
  else
    match node.ownField store key with
    | .error e => .go (.done (.raised e)) []
    | .ok none => pass
    | .ok (some v) =>
      if v.isSequence then .go .next (.items v key node trail 0 :: .fields node trail names :: rest)
      else if v.isNode store then .reach v key none node trail (.fields node trail names :: rest)
      else pass

def itemDeed (store : Store) (seq : Value) (key : String) (parent : Value) (trail : Nat) (position : Int)
    (rest : List Task) : Deed σ ν :=
  if 0 ≤ position ∧ position < (seq.items store).length then
    match seq.element store position with
    | .error e => .go (.done (.raised e)) []
    | .ok v =>
      if v.isNode store then
        .reach v key (some position.toNat) parent trail (.items seq key parent trail position :: rest)
      else .go .next (.items seq key parent trail (position + 1) :: rest)
  else .go .next rest

def backDeed (store : Store) (g : Signal) : List Task → Deed σ ν
  | [] => .go (.done (.returned g)) []
  | top :: rest =>
    if g.isExit store then .go (.done (.returned g)) []
    else
      match top with
      | .items seq key parent trail position =>
        .go .next (.items seq key parent trail ((g.resume store).getD (position + 1)) :: rest)
      | _ => .go .next (top :: rest)

def deed (d : Desk σ ν) : Deed σ ν :=
  match d.aim, d.tasks with
  | .enter v, K =>
    match w.enter with
    | some f => .call f .enter v
    | none => .go .next (.fields v.node v.trail (v.node.ownNames d.store) :: .visit v .silent :: K)
  | .leave v g, K =>
    match w.leave with
    | some f => .call f .leave v
    | none => .go (.back g) K
  | .next, [] => .go (.done (.returned .silent)) []
  | .next, .fields _ _ [] :: K => .go .next K
  | .next, .fields node trail (key :: names) :: K => w.fieldDeed d.store node trail key names K
  | .next, .items seq key parent trail position :: K => itemDeed d.store seq key parent trail position K
  | .next, .visit v g :: K => .go (.leave v g) K
  | .back g, K => backDeed d.store g K
  | .done o, K => .go (.done o) K

/-- Where an answer leads. The visit goes on with the list it has. -/
def heedAnswer (store : Store) (v : Visit) (K : List Task) : Phase → Except Fault Value → Aim × List Task
  | _, .error e => (.done (.raised e), [])
  | .enter, .ok a =>
    let g := Signal.ofValue a
    if g.isExit store then (.done (.returned g), [])
    else if g.isSkip store then (.leave v g, K)
    else (.next, .fields v.node v.trail (v.node.ownNames store) :: .visit v g :: K)
  | .leave, .ok a => (.back (Signal.ofValue a), K)

/-- A child gets a new list, in the next free place. A call is given the list of its visit and leaves it edited in its
    place. Nothing else is done to lists. -/
def act (d : Desk σ ν) : Deed σ ν → Desk σ ν
  | .go aim tasks => { d with aim, tasks }
  | .reach child key index parent trail tasks =>
    { d with
      aim := .enter ⟨child, some key, index, d.trails.length⟩
      tasks
      trails := d.trails ++ [d.read trail ++ [parent]] }
  | .call f phase v =>
    let c := d.callOf v phase
    let r := f c d.store d.memory
    let p := heedAnswer r.store v d.tasks phase r.outcome
    { store := r.store
      memory := r.memory
      history := w.entries c d.store r ++ d.history
      aim := p.1
      tasks := p.2
      trails := d.trails.set v.trail r.ancestors
      handed := d.handed ++ [⟨⟨c, d.store, r⟩, v.trail⟩] }

def deskStep (d : Desk σ ν) : Desk σ ν := w.act d (w.deed d)

/-- The first list is empty, and belongs to the root. -/
def deskStart (tree : Value) (store : Store) (memory : σ) : Desk σ ν :=
  let d : Desk σ ν := ⟨store, memory, [], .next, [], [[]], []⟩
  if w.enter.isNone && w.leave.isNone then { d with aim := .done (.returned .silent) }
  else if tree.isNode store then { d with aim := .enter ⟨tree, none, none, 0⟩ }
  else { d with tasks := [.fields tree 0 (tree.ownNames store)] }

def desk (n : Nat) (tree : Value) (store : Store) (memory : σ) : Desk σ ν :=
  w.deskStep^[n] (w.deskStart tree store memory)

theorem desk_succ (n : Nat) (tree : Value) (store : Store) (memory : σ) :
    w.desk (n + 1) tree store memory = w.deskStep (w.desk n tree store memory) :=
  Function.iterate_succ_apply' _ _ _

end Walker

/-! ## Reading the lists off their places -/

section

variable (trails : List (List Value))

def Task.forget : Task → Frame
  | .fields node trail names => .fields node (readTrail trails trail) names
  | .items seq key parent trail position => .items seq key parent (readTrail trails trail) position
  | .visit v g => .visit (v.forget trails) g

def Aim.forget : Aim → Focus
  | .enter v => .enter (v.forget trails)
  | .leave v g => .leave (v.forget trails) g
  | .next => .next
  | .back g => .back g
  | .done o => .done o

end

/-- The state of the walk in which the lists are values. -/
def Desk.forget (d : Desk σ ν) : State σ ν :=
  ⟨d.store, d.memory, d.history, d.aim.forget d.trails, d.tasks.map (Task.forget d.trails)⟩

def Task.trail : Task → Nat
  | .fields _ trail _ => trail
  | .items _ _ _ trail _ => trail
  | .visit v _ => v.trail

def Task.node : Task → Value
  | .fields node _ _ => node
  | .items _ _ parent _ _ => parent
  | .visit v _ => v.node

def Task.isVisit : Task → Bool
  | .visit _ _ => true
  | _ => false

def Aim.visit? : Aim → Option Visit
  | .enter v => some v
  | .leave v _ => some v
  | _ => none

theorem Task.forget_congr {ts ts' : List (List Value)} {t : Task} (h : readTrail ts' t.trail = readTrail ts t.trail) :
    t.forget ts' = t.forget ts := by
  cases t with
  | fields => exact congrArg (Frame.fields _ · _) h
  | items => exact congrArg (Frame.items _ _ _ · _) h
  | visit v => exact congrArg (fun l => Frame.visit ⟨v.node, v.key, v.index, l⟩ _) h

section

variable {ts : List (List Value)} {i j : Nat}

theorem readTrail_append (h : i < ts.length) (l : List Value) : readTrail (ts ++ [l]) i = readTrail ts i := by
  rw [readTrail, List.getElem?_append_left h, readTrail]

theorem readTrail_new (l : List Value) : readTrail (ts ++ [l]) ts.length = l := by
  rw [readTrail, List.getElem?_concat_length]
  rfl

theorem readTrail_set (h : i < ts.length) (l : List Value) : readTrail (ts.set i l) i = l := by
  rw [readTrail, List.getElem?_set_self h]
  rfl

theorem readTrail_set_ne (h : i ≠ j) (l : List Value) : readTrail (ts.set i l) j = readTrail ts j := by
  rw [readTrail, List.getElem?_set_ne h, readTrail]

end

/-! ## What a step does -/

/-- What becomes of the places that are held when no list is made. -/
inductive Shape : Aim → List Task → Aim → List Task → Prop
  | descend (v : Visit) (g : Signal) (names : List String) (K : List Task) :
      Shape (.enter v) K .next (.fields v.node v.trail names :: .visit v g :: K)
  | skip (v : Visit) (g : Signal) (K : List Task) : Shape (.enter v) K (.leave v g) K
  | stay (A : Aim) {A' : Aim} (K : List Task) (h : A'.visit? = none) : Shape A K A' K
  | pop {top : Task} (K : List Task) (h : top.isVisit = false) : Shape .next (top :: K) .next K
  | change (A : Aim) {top top' : Task} (K : List Task) (h : top.isVisit = false) (h' : top'.isVisit = false)
      (node : top'.node = top.node) (trail : top'.trail = top.trail) : Shape A (top :: K) .next (top' :: K)
  | scan (node : Value) (trail : Nat) (names names' : List String) (seq : Value) (key : String) (position : Int)
      (K : List Task) :
      Shape .next (.fields node trail names :: K) .next
        (.items seq key node trail position :: .fields node trail names' :: K)
  | close (v : Visit) (g : Signal) (K : List Task) : Shape .next (.visit v g :: K) (.leave v g) K
  | stop (A : Aim) (K : List Task) (o : Outcome) : Shape A K (.done o) []

/-- The visit that is about to make a call. -/
inductive Calls : Aim → Phase → Visit → Prop
  | enter (v : Visit) : Calls (.enter v) .enter v
  | leave (v : Visit) (g : Signal) : Calls (.leave v g) .leave v

/-- What the walk does next, and what the walk with values does at the same time. -/
inductive Does (w : Walker σ ν) (d : Desk σ ν) : Deed σ ν → Prop
  | go {A : Aim} {K : List Task} (due : w.due d.forget.focus = none)
      (move : Silent w.reserved d.store d.forget.focus d.forget.stack (A.forget d.trails)
        (K.map (Task.forget d.trails)))
      (shape : Shape d.aim d.tasks A K) : Does w d (.go A K)
  | reach {child : Value} {key : String} {index : Option Nat} {parent : Value} {trail : Nat} (top top' : Task)
      {K : List Task} (aim : d.aim = .next) (tasks : d.tasks = top :: K)
      (old : top.isVisit = false ∧ top.node = parent ∧ top.trail = trail)
      (new : top'.isVisit = false ∧ top'.node = parent ∧ top'.trail = trail)
      (move : Silent w.reserved d.store d.forget.focus d.forget.stack
        (.enter ⟨child, some key, index, d.read trail ++ [parent]⟩) ((top' :: K).map (Task.forget d.trails))) :
      Does w d (.reach child key index parent trail (top' :: K))
  | call {f : Callback σ ν} {phase : Phase} {v : Visit} (calls : Calls d.aim phase v)
      (due : w.due d.forget.focus = some (f, d.callOf v phase)) : Does w d (.call f phase v)

namespace Walker

variable (w : Walker σ ν) (d : Desk σ ν)

theorem fieldDeed_does {node : Value} {trail : Nat} {key : String} {names : List String} {K : List Task}
    (aim : d.aim = .next) (tasks : d.tasks = .fields node trail (key :: names) :: K) :
    Does w d (w.fieldDeed d.store node trail key names K) := by
  obtain ⟨store, memory, history, _, _, trails, handed⟩ := d
  cases aim
  cases tasks
  have pass : (key ∈ w.reserved ∨ ∃ o, node.ownField store key = .ok o ∧
        ∀ v, o = some v → v.isSequence = false ∧ v.isNode store = false) →
      Does w ⟨store, memory, history, .next, .fields node trail (key :: names) :: K, trails, handed⟩
        (.go .next (.fields node trail names :: K)) :=
    fun h => .go rfl (.passField node _ key names _ h) (.change _ K rfl rfl rfl rfl)
  simp only [fieldDeed]
  by_cases hk : key ∈ w.reserved
  · rw [if_pos hk]
    exact pass (.inl hk)
  rw [if_neg hk]
  cases hv : node.ownField store key with
  | error e => exact .go rfl (.fault node _ key names _ e hk hv) (.stop _ _ _)
  | ok o =>
    cases o with
    | none => exact pass (.inr ⟨none, hv, nofun⟩)
    | some v =>
      simp only
      cases hs : v.isSequence with
      | true => exact .go rfl (.scan node _ key names _ v hk hv hs) (.scan node trail _ names v key 0 K)
      | false =>
        cases hn : v.isNode store with
        | true =>
          exact .reach (.fields node trail (key :: names)) (.fields node trail names) rfl rfl ⟨rfl, rfl, rfl⟩
            ⟨rfl, rfl, rfl⟩ (.child node _ key names _ v hk hv hs hn)
        | false =>
          refine pass (.inr ⟨some v, hv, ?_⟩)
          rintro _ ⟨⟩
          exact ⟨hs, hn⟩

theorem itemDeed_does {seq : Value} {key : String} {parent : Value} {trail : Nat} {position : Int} {K : List Task}
    (aim : d.aim = .next) (tasks : d.tasks = .items seq key parent trail position :: K) :
    Does w d (itemDeed d.store seq key parent trail position K) := by
  obtain ⟨store, memory, history, _, _, trails, handed⟩ := d
  cases aim
  cases tasks
  simp only [itemDeed]
  by_cases hp : 0 ≤ position ∧ position < (seq.items store).length
  · obtain ⟨i, rfl⟩ := Int.eq_ofNat_of_zero_le hp.1
    have hi : i < (seq.items store).length := Int.ofNat_lt.mp hp.2
    have hv : (seq.items store)[i]? = some (seq.items store)[i] := List.getElem?_eq_getElem hi
    simp only [hp, and_self, if_true, Value.element_of_getElem? hv, Int.toNat_natCast]
    cases hn : (seq.items store)[i].isNode store with
    | true =>
      exact .reach (.items seq key parent trail i) (.items seq key parent trail i) rfl rfl ⟨rfl, rfl, rfl⟩
        ⟨rfl, rfl, rfl⟩ (.item seq key parent _ i _ _ hv hn)
    | false => exact .go rfl (.passItem seq key parent _ i _ _ hv hn) (.change _ K rfl rfl rfl rfl)
  · have outside : position < 0 ∨ ((seq.items store).length : Int) ≤ position := by omega
    rw [if_neg hp]
    exact .go rfl (.scanOver seq key parent _ position _ outside) (.pop K rfl)

theorem deed_does : Does w d (w.deed d) := by
  obtain ⟨store, memory, history, aim, tasks, trails, handed⟩ := d
  cases aim with
  | enter v =>
    cases he : w.enter with
    | some f =>
      simp only [deed, he]
      exact .call (.enter v) (w.due_of_enter he _)
    | none =>
      simp only [deed, he]
      exact .go (Option.map_eq_none_iff.mpr he) (.enter _ _) (.descend v _ _ _)
  | leave v g =>
    cases hl : w.leave with
    | some f =>
      simp only [deed, hl]
      exact .call (.leave v g) (w.due_of_leave hl _ _)
    | none =>
      simp only [deed, hl]
      exact .go (Option.map_eq_none_iff.mpr hl) (.leave _ _ _) (.stay _ _ rfl)
  | next =>
    cases tasks with
    | nil => exact .go rfl .stop (.stop _ _ _)
    | cons top K =>
      cases top with
      | fields node trail names =>
        cases names with
        | nil => exact .go rfl (.fieldsOver _ _ _) (.pop K rfl)
        | cons key names => exact w.fieldDeed_does _ rfl rfl
      | items seq key parent trail position => exact w.itemDeed_does _ rfl rfl
      | visit v g => exact .go rfl (.childrenOver _ _ _) (.close v g K)
  | back g =>
    cases tasks with
    | nil => exact .go rfl (.rootOver g) (.stop _ _ _)
    | cons top K =>
      simp only [deed, backDeed]
      cases hx : g.isExit store with
      | true => exact .go rfl (.exit g _ _ hx) (.stop _ _ _)
      | false =>
        cases top with
        | fields => exact .go rfl (.toFields g _ _ _ _ hx) (.stay _ _ rfl)
        | items => exact .go rfl (.resume g _ _ _ _ _ _ hx) (.change _ K rfl rfl rfl rfl)
        | visit => exact .go rfl (.toVisit g _ _ _ hx) (.stay _ _ rfl)
  | done o => exact .go rfl (.rest o _) (.stay _ _ rfl)

end Walker

/-! ## Whose list is whose -/

def innermost : List Task → Option Visit
  | [] => none
  | .visit v _ :: _ => some v
  | _ :: K => innermost K

/-- What the list of a child starts as: the list of its parent, and then the parent. -/
def startOf (base : List Value) (trails : List (List Value)) (K : List Task) : List Value :=
  match innermost K with
  | some p => readTrail trails p.trail ++ [p.node]
  | none => base

/-- What fields and scans hold, a list and a record, makes up what the list of a child starts as. -/
def Fitted (base : List Value) (trails : List (List Value)) : List Task → Prop
  | [] => True
  | t :: K => (t.isVisit = false → readTrail trails t.trail ++ [t.node] = startOf base trails K) ∧ Fitted base trails K

/-- Every place that is held is there, and a visit holds a younger list than all that waits below it. -/
structure Tidy (base : List Value) (trails : List (List Value)) (A : Aim) (K : List Task) : Prop where
  bounded : ∀ t ∈ K, t.trail < trails.length
  ordered : K.Pairwise fun a b => a.isVisit → b.trail < a.trail
  fitted : Fitted base trails K
  aim : ∀ v, A.visit? = some v → v.trail < trails.length ∧ ∀ t ∈ K, t.trail < v.trail

theorem innermost_of_not_isVisit {t : Task} (h : t.isVisit = false) (K : List Task) :
    innermost (t :: K) = innermost K := by
  cases t with
  | visit => cases h
  | _ => rfl

theorem mem_of_innermost {K : List Task} {p : Visit} (h : innermost K = some p) : ∃ g, .visit p g ∈ K := by
  induction K with
  | nil => cases h
  | cons t K ih =>
    cases t with
    | visit v g =>
      cases h
      exact ⟨g, List.mem_cons_self⟩
    | _ =>
      obtain ⟨g, hg⟩ := ih h
      exact ⟨g, List.mem_cons_of_mem _ hg⟩

section

variable {base : List Value} {ts ts' : List (List Value)} {K : List Task}

theorem startOf_cons {t : Task} (h : t.isVisit = false) : startOf base ts (t :: K) = startOf base ts K := by
  simp only [startOf, innermost_of_not_isVisit h]

theorem startOf_congr (h : ∀ t ∈ K, readTrail ts' t.trail = readTrail ts t.trail) :
    startOf base ts' K = startOf base ts K := by
  unfold startOf
  cases hp : innermost K with
  | none => rfl
  | some p =>
    obtain ⟨g, hg⟩ := mem_of_innermost hp
    exact congrArg (· ++ [p.node]) (h _ hg)

theorem Fitted.congr (hK : Fitted base ts K) (h : ∀ t ∈ K, readTrail ts' t.trail = readTrail ts t.trail) :
    Fitted base ts' K := by
  induction K with
  | nil => trivial
  | cons t K ih =>
    obtain ⟨htop, hbelow⟩ := List.forall_mem_cons.mp h
    refine ⟨fun hv => ?_, ih hK.2 hbelow⟩
    rw [htop, startOf_congr hbelow]
    exact hK.1 hv

theorem Tidy.congr {A : Aim} (h : Tidy base ts A K) (le : ts.length ≤ ts'.length)
    (same : ∀ t ∈ K, readTrail ts' t.trail = readTrail ts t.trail) : Tidy base ts' A K :=
  ⟨fun t ht => Nat.lt_of_lt_of_le (h.bounded t ht) le, h.ordered, h.fitted.congr same,
    fun v hv => ⟨Nat.lt_of_lt_of_le (h.aim v hv).1 le, (h.aim v hv).2⟩⟩

theorem Tidy.set_same {A : Aim} (h : Tidy base ts A K) {v : Visit} (hv : A.visit? = some v) (l : List Value) :
    ∀ t ∈ K, readTrail (ts.set v.trail l) t.trail = readTrail ts t.trail := by
  intro t ht
  exact readTrail_set_ne (Nat.ne_of_gt ((h.aim v hv).2 t ht)) l

theorem Tidy.append_same {A : Aim} (h : Tidy base ts A K) (l : List Value) :
    ∀ t ∈ K, readTrail (ts ++ [l]) t.trail = readTrail ts t.trail := by
  intro t ht
  exact readTrail_append (h.bounded t ht) l

theorem Shape.tidy {A A' : Aim} {K' : List Task} (shape : Shape A K A' K') (h : Tidy base ts A K) :
    Tidy base ts A' K' := by
  obtain ⟨bounded, ordered, fitted, aim⟩ := h
  cases shape with
  | descend v g names =>
    obtain ⟨hlt, habove⟩ := aim v rfl
    refine ⟨?_, ?_, ⟨fun _ => rfl, nofun, fitted⟩, nofun⟩
    · exact List.forall_mem_cons.mpr ⟨hlt, List.forall_mem_cons.mpr ⟨hlt, bounded⟩⟩
    · exact List.pairwise_cons.mpr ⟨nofun, List.pairwise_cons.mpr ⟨fun t ht _ => habove t ht, ordered⟩⟩
  | skip v g => exact ⟨bounded, ordered, fitted, fun u hu => by cases hu; exact aim v rfl⟩
  | stay A K hnone => exact ⟨bounded, ordered, fitted, fun v hv => by rw [hnone] at hv; cases hv⟩
  | pop =>
    exact ⟨(List.forall_mem_cons.mp bounded).2, (List.pairwise_cons.mp ordered).2, fitted.2, nofun⟩
  | change A K hold hnew node trail =>
    obtain ⟨htop, hbelow⟩ := List.forall_mem_cons.mp bounded
    refine ⟨List.forall_mem_cons.mpr ⟨trail ▸ htop, hbelow⟩, List.pairwise_cons.mpr ⟨?_, ?_⟩, ⟨fun _ => ?_, fitted.2⟩,
      nofun⟩
    · intro t _ hv
      rw [hnew] at hv
      cases hv
    · exact (List.pairwise_cons.mp ordered).2
    · rw [trail, node]
      exact fitted.1 hold
  | scan node trail names names' =>
    obtain ⟨htop, hbelow⟩ := List.forall_mem_cons.mp bounded
    refine ⟨List.forall_mem_cons.mpr ⟨htop, List.forall_mem_cons.mpr ⟨htop, hbelow⟩⟩, ?_, ?_, nofun⟩
    · exact List.pairwise_cons.mpr ⟨nofun, List.pairwise_cons.mpr ⟨nofun, (List.pairwise_cons.mp ordered).2⟩⟩
    · exact ⟨fun _ => (fitted.1 rfl).trans (startOf_cons rfl).symm, fun _ => fitted.1 rfl, fitted.2⟩
  | close v g =>
    obtain ⟨htop, hbelow⟩ := List.forall_mem_cons.mp bounded
    refine ⟨hbelow, (List.pairwise_cons.mp ordered).2, fitted.2, fun u hu => ?_⟩
    cases hu
    exact ⟨htop, fun t ht => (List.pairwise_cons.mp ordered).1 t ht rfl⟩
  | stop => exact ⟨nofun, .nil, trivial, nofun⟩

/-- Where a child is reached, what comes upon it waits with the list and the record it had. -/
theorem Tidy.reach {A : Aim} {top top' : Task} {parent : Value} {trail : Nat} (h : Tidy base ts A (top :: K))
    (old : top.isVisit = false ∧ top.node = parent ∧ top.trail = trail)
    (new : top'.isVisit = false ∧ top'.node = parent ∧ top'.trail = trail) : Tidy base ts .next (top' :: K) :=
  (Shape.change A K old.1 new.1 (new.2.1.trans old.2.1.symm) (new.2.2.trans old.2.2.symm)).tidy h

end

theorem Calls.visit? {A : Aim} {phase : Phase} {v : Visit} (h : Calls A phase v) : A.visit? = some v := by
  cases h <;> rfl

theorem Calls.shape {A : Aim} {phase : Phase} {v : Visit} (h : Calls A phase v) (store : Store) (K : List Task)
    (o : Except Fault Value) :
    Shape A K (Walker.heedAnswer store v K phase o).1 (Walker.heedAnswer store v K phase o).2 := by
  cases o with
  | error e => exact .stop _ _ _
  | ok a =>
    cases h with
    | leave => exact .stay _ K rfl
    | enter =>
      simp only [Walker.heedAnswer]
      split
      · exact .stop _ _ _
      · split
        · exact .skip v _ K
        · exact .descend v _ _ K

theorem Walker.tidy_step {w : Walker σ ν} {base : List Value} {d : Desk σ ν} (h : Tidy base d.trails d.aim d.tasks) :
    Tidy base (w.deskStep d).trails (w.deskStep d).aim (w.deskStep d).tasks := by
  have does := w.deed_does d
  unfold deskStep
  generalize w.deed d = deed at does
  cases does with
  | go _ _ shape => exact shape.tidy h
  | @reach child key index parent trail top top' K aim tasks old new =>
    rw [tasks] at h
    have waiting := h.reach old new
    have hlen : d.trails.length < (d.trails ++ [d.read trail ++ [parent]]).length := by simp
    obtain ⟨bounded, ordered, fitted, -⟩ := waiting.congr (Nat.le_of_lt hlen) (waiting.append_same _)
    refine ⟨bounded, ordered, fitted, fun v hv => ?_⟩
    cases hv
    exact ⟨hlen, waiting.bounded⟩
  | call calls =>
    apply (calls.shape _ _ _).tidy
    exact h.congr (Nat.le_of_eq List.length_set.symm) (h.set_same calls.visit? _)

/-! ## The walk with values -/

theorem Calls.forget {A : Aim} {phase : Phase} {v : Visit} (h : Calls A phase v) {base : List Value}
    {ts : List (List Value)} {K : List Task} (tidy : Tidy base ts A K) (store : Store) (l : List Value)
    (o : Except Fault Value) :
    ((Walker.heedAnswer store v K phase o).1.forget (ts.set v.trail l),
      (Walker.heedAnswer store v K phase o).2.map (Task.forget (ts.set v.trail l))) =
        heed store l (K.map (Task.forget ts)) (A.forget ts) o := by
  have hv := (tidy.aim v h.visit?).1
  have same : K.map (Task.forget (ts.set v.trail l)) = K.map (Task.forget ts) :=
    List.map_congr_left fun t ht => Task.forget_congr (tidy.set_same h.visit? l t ht)
  have own : v.forget (ts.set v.trail l) = { v.forget ts with ancestors := l } :=
    congrArg (Occurrence.mk v.node v.key v.index) (readTrail_set hv l)
  cases o with
  | error e => cases h <;> rfl
  | ok a =>
    cases h with
    | leave => simp only [Walker.heedAnswer, heed, Aim.forget, same]
    | enter =>
      rw [show (Aim.enter v).forget ts = .enter (v.forget ts) from rfl]
      simp only [Walker.heedAnswer, heed]
      by_cases hx : (Signal.ofValue a).isExit store = true
      · rw [if_pos hx, if_pos hx]
        rfl
      · rw [if_neg hx, if_neg hx]
        by_cases hs : (Signal.ofValue a).isSkip store = true
        · rw [if_pos hs, if_pos hs]
          simp only [Aim.forget, own, same]
        · rw [if_neg hs, if_neg hs]
          simp only [Aim.forget, List.map_cons, Task.forget, own, same, readTrail_set hv]
          rfl

/-- Read off their places, the lists are the values of the walk. -/
theorem Tidy.forget_step {w : Walker σ ν} {base : List Value} {d : Desk σ ν} (h : Tidy base d.trails d.aim d.tasks) :
    (w.deskStep d).forget = w.step d.forget := by
  have does := w.deed_does d
  unfold Walker.deskStep
  generalize w.deed d = deed at does
  -- A silent move of the walk with values is the one it is said to make.
  have silent : ∀ {F : Focus} {K : List Frame}, w.due d.forget.focus = none →
      Silent w.reserved d.store d.forget.focus d.forget.stack F K → w.step d.forget = d.forget.go F K := by
    intro F K due move
    obtain ⟨F', K', move', hs⟩ := Walker.step_silent due
    obtain ⟨rfl, rfl⟩ := move.unique move'
    exact hs
  cases does with
  | go due move => exact (silent due move).symm
  | @reach child key index parent trail top top' K aim tasks old new move =>
    have due : w.due d.forget.focus = none := by
      show w.due (d.aim.forget d.trails) = none
      rw [aim]
      rfl
    have same : (top' :: K).map (Task.forget (d.trails ++ [d.read trail ++ [parent]])) =
        (top' :: K).map (Task.forget d.trails) := by
      rw [tasks] at h
      exact List.map_congr_left fun t ht => Task.forget_congr ((h.reach old new).append_same _ t ht)
    rw [silent due move, ← same]
    simp only [Walker.act, Desk.forget, State.go, Aim.forget, Visit.forget, readTrail_new]
  | @call f phase v calls due =>
    rw [Walker.step_called due]
    exact congrArg (fun p => (w.after (d.callOf v phase) _ d.forget).go p.1 p.2) (calls.forget h _ _ _)

end TreeWalk
