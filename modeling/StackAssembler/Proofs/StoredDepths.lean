import StackAssembler.Proofs.DepthSurvey
import StackAssembler.Proofs.StoredTables

/-!
# The depth analysis in linked storage

A walk along the links visits what the walk along the indices visits, in the
same order, and the analysis of a body performs the analysis of the routine that
it stores.  What is added is the check that a word can hold the code positions.
-/

namespace StackAssembler

namespace Program

open Flow Liveness StackDepth

/-! ## Places -/

section Places

variable {routine : Routine} {code : List Instr} {front back : List Entry}
  {entry : Entry} {table : Targets}

/-- A handle names the entry at an index. -/
abbrev Names (routine : Routine) (index : Nat) (handle : Handle) : Prop :=
  routine.handles[index]? = some handle

theorem exists_names {index : Nat} (inside : index < routine.instrs.length) :
    ∃ handle, Names routine index handle := by
  have length_eq : routine.instrs.length = routine.handles.length := by
    simp [Routine.instrs, Routine.handles]
  exact ⟨_, List.getElem?_eq_getElem (length_eq ▸ inside)⟩

/-- An outcome about handles mirrors one about indices. -/
inductive Mirrors {ε α β : Type} (raise : ε → Failure)
    (related : α → β → Prop) : Except ε α → Except Failure β → Prop
  | ok {value : α} {image : β} (kept : related value image) :
      Mirrors raise related (.ok value) (.ok image)
  | error (cause : ε) :
      Mirrors raise related (.error cause) (.error (raise cause))

theorem performs_destination (describes : table.Describe routine)
    {index : Nat} {handle : Handle} (names : Names routine index handle)
    {instr : Instr}
    (small : position routine.instrs index + instr.size < positionLimit)
    (target : Target) (other : Routine) :
    ∃ outcome, Mirrors .defect (Names routine)
        (Flow.destination routine.instrs index instr target) outcome ∧
      Performs (destination table handle instr target) other
        (outcome, other) := by
  cases target with
  | label name =>
      rw [destination, describes.labels_eq, Flow.destination]
      cases found : labelIndex? routine.instrs name with
      | none => exact ⟨_, .error _, performs_throw _ other⟩
      | some place =>
          have marked := (labelIndex?_eq_some_iff.mp found).1
          obtain ⟨goal, named⟩ := exists_names
            (List.getElem?_eq_some_iff.mp marked).1
          rw [Option.bind_some, named]
          exact ⟨_, .ok named, performs_pure goal other⟩
  | offset distance =>
      have measured {outcome : Except Failure Handle}
          (performs : Performs (orDefect (.jumpOutOfRange distance.toInt)
            (if 0 ≤ (position routine.instrs index : Int) + instr.size +
                  distance.toInt ∧
                (position routine.instrs index : Int) + instr.size +
                  distance.toInt < positionLimit then
              (indexAt? routine.instrs (position routine.instrs index +
                instr.size + distance.toInt).toNat).bind
                  (routine.handles[·]?)
            else none)) other (outcome, other)) :
          Performs (destination table handle instr (.offset distance)) other
            (outcome, other) := by
        rw [destination, describes.positions_eq index handle names]
        apply (performs_pure _ other).bind
        apply (performs_advance small other).bind
        simp only [Nat.cast_add, describes.starts_eq]
        exact performs
      rw [Flow.destination]
      split
      · rename_i inside
        rw [if_pos inside] at measured
        cases found : indexAt? routine.instrs (position routine.instrs index +
            instr.size + distance.toInt).toNat with
        | none =>
            rw [found] at measured
            exact ⟨_, .error _, measured (performs_throw _ other)⟩
        | some place =>
            obtain ⟨goal, named⟩ :=
              exists_names (indexAt?_eq_some_iff.mp found).1
            rw [found, Option.bind_some, named] at measured
            exact ⟨_, .ok named, measured (performs_pure goal other)⟩
      · rename_i outside
        rw [if_neg outside] at measured
        exact ⟨_, .error _, measured (performs_throw _ other)⟩

theorem performs_fanOut {declared left : Nat}
    (split : routine.entries = front ++ back) (enough : left ≤ back.length) :
    Performs (fanOut declared left (back.head?.map (·.handle))) routine
      (.ok ((back.take left).map (·.handle)), routine) := by
  induction left generalizing front back with
  | zero => exact performs_pure _ _
  | succ left ih =>
      cases back with
      | nil => cases enough
      | cons entry back =>
          apply (performs_next split).bind
          rw [List.append_cons] at split
          exact (ih split (Nat.le_of_succ_le_succ enough)).bind
            (performs_pure _ _)

/-- A table that declares more than there is names how much there is. -/
theorem performs_fanOut_of_short {declared left : Nat}
    (split : routine.entries = front ++ back) (short : back.length < left) :
    Performs (fanOut declared left (back.head?.map (·.handle))) routine
      (.error (.defect (.fanOutExceeded declared
        (declared - (left - back.length)))), routine) := by
  induction left generalizing front back with
  | zero => cases short
  | succ left ih =>
      cases back with
      | nil => exact performs_throw _ _
      | cons entry back =>
          have fewer := Nat.lt_of_succ_lt_succ short
          have count : left + 1 - (entry :: back).length =
              left - back.length := by
            rw [List.length_cons]
            omega
          apply (performs_next split).bind
          rw [List.append_cons] at split
          rw [count]
          exact (ih split fewer).bind_error

/-- The handles of a stretch of entries name its indices. -/
theorem forall₂_names {before : List Entry} {handles : List Handle}
    (split : routine.handles = before.map (·.handle) ++ handles) {count : Nat}
    (enough : count ≤ handles.length) :
    List.Forall₂ (Names routine) (List.range' before.length count)
      (handles.take count) := by
  rw [List.forall₂_iff_get]
  refine ⟨by simpa using enough, fun place inside _ => ?_⟩
  rw [List.length_range'] at inside
  have shift : before.length + place = (before.map (·.handle)).length + place := by
    rw [List.length_map]
  simp only [List.get_eq_getElem, List.getElem_range', one_mul, Names, split]
  rw [shift, List.getElem?_append_right (by omega)]
  simp

/-- How the places where an instruction may continue are split: those to put
down, and the next instruction if it follows. -/
inductive Onward (routine : Routine) (index : Nat) :
    List Nat → List Handle → Option Handle → Prop
  | leave {places : List Nat} {put : List Handle}
      (named : List.Forall₂ (Names routine) places put) :
      Onward routine index places put none
  | follow {places : List Nat} {put : List Handle}
      (named : List.Forall₂ (Names routine) places put) :
      Onward routine index (places ++ [index + 1]) put
        routine.handles[index + 1]?

section Current

variable {other : Routine} {instr : Instr}

theorem next_eq (split : other.entries = front ++ entry :: back)
    (handles_eq : other.handles = routine.handles) :
    back.head?.map (·.handle) = routine.handles[front.length + 1]? := by
  rw [← handles_eq, Routine.handles, split, List.getElem?_map,
    List.getElem?_append_right (by omega), Nat.add_sub_cancel_left]
  simp [List.head?_eq_getElem?]

/-- The entries of a table of jumps are those behind it. -/
theorem performs_fanOutBehind (split : other.entries = front ++ entry :: back)
    (handles_eq : other.handles = routine.handles) (count : Nat) :
    ∃ outcome, Mirrors .defect (List.Forall₂ (Names routine))
        (if count ≤ routine.instrs.length - (front.length + 1) then
          .ok (List.range' (front.length + 1) count)
        else .error (.fanOutExceeded count
          (routine.instrs.length - (front.length + 1)))) outcome ∧
      Performs (fanOut count count (back.head?.map (·.handle))) other
        (outcome, other) := by
  have length_eq : routine.instrs.length - (front.length + 1) =
      back.length := by
    have same := congrArg List.length handles_eq
    simp only [Routine.handles, Routine.instrs, List.length_map, split,
      List.length_append, List.length_cons] at same ⊢
    omega
  have handles_split : routine.handles =
      (front ++ [entry]).map (·.handle) ++ back.map (·.handle) := by
    rw [← handles_eq, Routine.handles, split]
    simp
  rw [List.append_cons] at split
  rw [length_eq]
  by_cases enough : count ≤ back.length
  · have named := forall₂_names handles_split
      (enough.trans_eq (List.length_map _).symm)
    rw [List.length_append, List.length_singleton, ← List.map_take] at named
    rw [if_pos enough]
    exact ⟨_, .ok named, performs_fanOut split enough⟩
  · have performs := @performs_fanOut_of_short _ _ _ count _ split
      (Nat.lt_of_not_le enough)
    rw [Nat.sub_sub_self (by omega)] at performs
    rw [if_neg enough]
    exact ⟨_, .error _, performs⟩

theorem performs_onward (describes : table.Describe routine)
    (split : other.entries = front ++ entry :: back)
    (handles_eq : other.handles = routine.handles)
    (small : position routine.instrs front.length + instr.size <
      positionLimit) :
    ∃ outcome, Mirrors .defect (fun places next =>
        Onward routine front.length places next.1 next.2)
        (successors routine.instrs front.length instr) outcome ∧
      Performs (onward table entry.handle instr) other (outcome, other) := by
  have names : Names routine front.length entry.handle := by
    rw [Names, ← handles_eq, Routine.handles, split]
    simp
  have follower := next_eq split handles_eq
  unfold successors
  split
  · rename_i target
    obtain ⟨outcome, mirrors, performs⟩ :=
      performs_destination describes names small target other
    generalize Flow.destination _ _ _ target = found at mirrors ⊢
    cases mirrors with
    | error defect => exact ⟨_, .error defect, performs.bind_error⟩
    | ok named =>
        exact ⟨_, .ok (.leave (.cons named .nil)),
          performs.bind (performs_pure _ _)⟩
  · rename_i condition target
    obtain ⟨outcome, mirrors, performs⟩ :=
      performs_destination describes names small target other
    generalize Flow.destination _ _ _ target = found at mirrors ⊢
    cases mirrors with
    | error defect => exact ⟨_, .error defect, performs.bind_error⟩
    | ok named =>
        refine ⟨.ok ([_], _),
          .ok (@Onward.follow _ _ [_] [_] (.cons named .nil)),
          performs.bind ?_⟩
        rw [← follower]
        exact (performs_next split).bind (performs_pure _ _)
  · rename_i slot declared
    obtain ⟨outcome, mirrors, performs⟩ :=
      performs_fanOutBehind split handles_eq declared.toNat
    dsimp only
    generalize (if declared.toNat ≤ _ then _ else _ :
      Except Defect (List Nat)) = found at mirrors ⊢
    cases mirrors with
    | error defect =>
        exact ⟨_, .error defect, (performs_next split).bind performs.bind_error⟩
    | ok named =>
        exact ⟨_, .ok (.leave named),
          (performs_next split).bind (performs.bind (performs_pure _ _))⟩
  · exact ⟨_, .ok (.leave .nil), performs_pure _ _⟩
  · refine ⟨.ok ([], _), .ok (@Onward.follow _ _ [] [] .nil), ?_⟩
    rw [← follower]
    unfold onward
    split
    · simp_all
    · simp_all
    · simp_all
    · simp_all
    · exact (performs_next split).bind (performs_pure _ _)

theorem performs_anchorAt (split : other.entries = front ++ entry :: back)
    (depth : Int) :
    Performs (anchorAt entry.handle depth) other
      (match anchor .words depth entry.instr with
      | .error failure => (.error failure, other)
      | .ok anchored => (.ok anchored, { other with
          entries := front ++ { entry with instr := anchored } :: back })) := by
  unfold anchorAt
  apply (performs_instrAt split).bind
  split
  · rename_i distance same
    rw [same]
    cases anchor .words depth (.pushStackAddr distance) with
    | error failure => exact (performs_throw failure other).bind_error
    | ok anchored =>
        exact (performs_pure anchored other).bind
          ((performs_replace split anchored).bind (performs_pure _ _))
  · rename_i relative
    have unchanged : anchor .words depth entry.instr = .ok entry.instr :=
      anchor_eq_ok_iff.mpr (.inl ⟨relative, rfl⟩)
    rw [unchanged]
    dsimp only
    rw [← split]
    exact performs_pure _ other

/-- An arrival writes to the entry what an arrival at its index says, and goes
on where that goes on. -/
theorem performs_arrive (describes : table.Describe routine)
    (split : other.entries = front ++ entry :: back)
    (handles_eq : other.handles = routine.handles)
    (small : position routine.instrs front.length + entry.instr.size <
      positionLimit) (depth : Int) :
    ∃ outcome,
      Mirrors id (fun ahead next => next.1 = ahead.1 ∧
          Onward routine front.length ahead.2 next.2.1 next.2.2)
        (StackDepth.arrive .words routine.instrs front.length depth
          entry.instr).2 outcome ∧
      Performs (arrive table entry.handle depth) other
        (outcome, { other with
          entries := front ++ { entry with
            instr := (StackDepth.arrive .words routine.instrs front.length
              depth entry.instr).1
            depth := some depth } :: back }) := by
  have recorded := performs_setDepth split depth
  have anchoring := @performs_anchorAt front back
    { entry with depth := some depth }
    { other with
      entries := front ++ { entry with depth := some depth } :: back } rfl depth
  unfold StackDepth.arrive
  dsimp only at anchoring
  cases done : anchor .words depth entry.instr with
  | error failure =>
      rw [done] at anchoring
      exact ⟨_, .error failure, recorded.bind anchoring.bind_error⟩
  | ok anchored =>
      rw [done] at anchoring
      dsimp only at anchoring ⊢
      cases sum : depthAfter .words depth anchored with
      | error failure =>
          refine ⟨_, .error failure, recorded.bind (anchoring.bind ?_)⟩
          rw [sum]
          exact (performs_throw failure _).bind_error
      | ok after =>
          obtain ⟨outcome, mirrors, performs⟩ :=
            @performs_onward _ front back
              { entry with instr := anchored, depth := some depth } _
              { other with
                entries := front ++ { entry with
                  instr := anchored, depth := some depth } :: back }
              anchored describes rfl
              (by rw [← handles_eq]; simp [Routine.handles, split])
              (by rwa [size_of_anchor done])
          generalize successors routine.instrs front.length anchored = found
            at mirrors ⊢
          cases mirrors with
          | error defect =>
              refine ⟨_, .error (Failure.defect defect),
                recorded.bind (anchoring.bind ?_)⟩
              rw [sum]
              exact (performs_pure after _).bind performs.bind_error
          | ok kept =>
              refine ⟨.ok (after, _), .ok ⟨rfl, kept⟩,
                recorded.bind (anchoring.bind ?_)⟩
              rw [sum]
              exact (performs_pure after _).bind
                (performs.bind (performs_pure _ _))

end Current

end Places

/-! ## The walk -/

section Walking

variable {routine : Routine} {table : Targets} {walk next : Walk}
  {result : Walk × Option Failure}

/-- A handle waits for the visit of an index, at the same depth. -/
def Waits (routine : Routine) (place : Nat × Int) (waiting : Handle × Int) :
    Prop :=
  Names routine place.1 waiting.1 ∧ waiting.2 = place.2

theorem forall₂_waits {places : List Nat} {put : List Handle}
    {pending : List (Nat × Int)} {waiting : List (Handle × Int)}
    (named : List.Forall₂ (Names routine) places put)
    (waits : List.Forall₂ (Waits routine) pending waiting) (after : Int) :
    List.Forall₂ (Waits routine) (places.reverse.map (·, after) ++ pending)
      (put.reverse.map (·, after) ++ waiting) := by
  refine List.rel_append ?_ waits
  rw [List.forall₂_map_left_iff, List.forall₂_map_right_iff]
  exact (List.rel_reverse named).imp fun _ _ name => ⟨name, rfl⟩

def outcomeOf (routine : Routine) (result : Walk × Option Failure) :
    Except Failure Walker × Routine :=
  (match result.2 with
    | some failure => .error failure
    | none => .ok { pending := [], deepest := result.1.deepest },
    { routine with entries := result.1.entries })

/-- A walk along the links has a result from a state on, whether its next place
waits or is where its path is. -/
structure Pursues (table : Targets) (routine : Routine) (walk : Walk)
    (result : Walk × Option Failure) : Prop where
  waiting : ∀ waiting, List.Forall₂ (Waits routine) walk.pending waiting →
    Performs (Targets.walkAll table { pending := waiting, deepest := walk.deepest })
      { routine with entries := walk.entries } (outcomeOf routine result)
  along : ∀ {index : Nat} {depth : Int} {pending : List (Nat × Int)} waiting,
    walk.pending = (index, depth) :: pending →
    List.Forall₂ (Waits routine) pending waiting →
    Performs (Targets.walk table
        { pending := waiting, deepest := walk.deepest }
        routine.handles[index]? depth >>= Targets.walkAll table)
      { routine with entries := walk.entries } (outcomeOf routine result)

/-- A place that waits is where the path is as soon as it is taken. -/
theorem Pursues.of_along {index : Nat} {depth : Int}
    {pending : List (Nat × Int)}
    (order : walk.pending = (index, depth) :: pending)
    (along : ∀ waiting, List.Forall₂ (Waits routine) pending waiting →
      Performs (Targets.walk table
          { pending := waiting, deepest := walk.deepest }
          routine.handles[index]? depth >>= Targets.walkAll table)
        { routine with entries := walk.entries } (outcomeOf routine result)) :
    Pursues table routine walk result where
  waiting waiting waits := by
    rw [order] at waits
    obtain ⟨⟨handle, arrival⟩, rest, ⟨named, same⟩, others, rfl⟩ :=
      List.forall₂_cons_left_iff.mp waits
    obtain rfl : arrival = depth := same
    rw [Targets.walkAll]
    dsimp only at named ⊢
    rw [← named]
    exact along rest others
  along waiting taken waits := by
    rw [order] at taken
    obtain ⟨⟨rfl, rfl⟩, rfl⟩ := List.cons.inj taken
    exact along waiting waits

/-- The entries of a walk keep their handles and stand for the code. -/
structure Stands (routine : Routine) (walk : Walk) : Prop where
  tracks : Tracks routine.instrs walk.entries
  handles_eq : walk.entries.map (·.handle) = routine.handles

theorem stands_of_visit (visit : Visit .words routine.instrs walk next)
    (stands : Stands routine walk) : Stands routine next :=
  ⟨visit.tracks stands.tracks, visit.handles_eq.trans stands.handles_eq⟩

/-- An entry of a walk stands between others, and its handle names it. -/
theorem Stands.split (stands : Stands routine walk) {index : Nat}
    {entry : Entry} (found : walk.entries[index]? = some entry) :
    Names routine index entry.handle ∧
      ∃ front back, walk.entries = front ++ entry :: back ∧
        front.length = index ∧
        ∀ new, walk.entries.set index new = front ++ new :: back := by
  have named : Names routine index entry.handle := by
    rw [Names, ← stands.handles_eq, List.getElem?_map, found, Option.map_some]
  obtain ⟨inside, rfl⟩ := List.getElem?_eq_some_iff.mp found
  refine ⟨named, walk.entries.take index, walk.entries.drop (index + 1), ?_,
    by simp; omega, fun new => ?_⟩
  · simp
  · rw [List.set_eq_take_append_cons_drop, if_pos inside]

section Steps

variable (describes : table.Describe routine)
  (small : routine.codeSize < positionLimit)
  (stands : Stands routine walk)

include stands in
theorem pursues_of_pass {index : Nat} {depth : Int}
    {pending : List (Nat × Int)}
    (order : walk.pending = (index, depth) :: pending)
    (known : ∀ entry, walk.entries[index]? = some entry →
      entry.depth = some depth)
    (pursues : Pursues table routine { walk with pending } result) :
    Pursues table routine walk result := by
  refine .of_along order fun waiting waits => ?_
  have later := pursues.waiting waiting waits
  cases found : walk.entries[index]? with
  | none =>
      have nameless : routine.handles[index]? = none := by
        rw [← stands.handles_eq, List.getElem?_map, found, Option.map_none]
      rw [nameless, Targets.walk, pure_bind]
      exact later
  | some entry =>
      obtain ⟨named, front, back, split, -⟩ := stands.split found
      rw [named, Targets.walk, bind_assoc]
      refine Performs.bind (@performs_depthAt
        { routine with entries := walk.entries } front back entry split) ?_
      rw [known entry found]
      dsimp only
      rw [if_pos rfl, pure_bind]
      exact later

include stands in
theorem pursues_of_conflict {index : Nat} {depth recorded : Int}
    {pending : List (Nat × Int)} {entry : Entry}
    (order : walk.pending = (index, depth) :: pending)
    (found : walk.entries[index]? = some entry)
    (known : entry.depth = some recorded) (differs : recorded ≠ depth) :
    Pursues table routine walk
      (walk, some (.defect
        (.depthMismatch entry.instr.text recorded depth))) := by
  refine .of_along order fun waiting waits => ?_
  obtain ⟨named, front, back, split, -⟩ := stands.split found
  have here : { routine with entries := walk.entries }.entries =
    front ++ entry :: back := split
  rw [named, Targets.walk, bind_assoc]
  apply (performs_depthAt here).bind
  rw [known]
  dsimp only
  rw [if_neg differs, bind_assoc]
  apply (performs_instrAt here).bind
  exact (performs_throw _ _).bind_error

include describes small stands

theorem exists_arrive {index : Nat} {entry : Entry}
    (found : walk.entries[index]? = some entry) (blank : entry.depth = none)
    (depth : Int) :
    ∃ outcome,
      Mirrors id (fun ahead next => next.1 = ahead.1 ∧
          Onward routine index ahead.2 next.2.1 next.2.2)
        (StackDepth.arrive .words routine.instrs index depth
          entry.instr).2 outcome ∧
      Performs (arrive table entry.handle depth)
        { routine with entries := walk.entries }
        (outcome, { routine with
          entries := walk.entries.set index { entry with
            instr := (StackDepth.arrive .words routine.instrs index depth
              entry.instr).1
            depth := some depth } }) := by
  have below : position routine.instrs index + entry.instr.size <
      positionLimit := by
    rw [← position_succ (stands.tracks.blank found blank)]
    exact (position_le_codeSize _ _).trans_lt small
  obtain ⟨-, front, back, split, rfl, put⟩ := stands.split found
  rw [put]
  exact @performs_arrive _ front back entry _
    { routine with entries := walk.entries } describes split
    stands.handles_eq below depth

theorem pursues_of_enter {index : Nat} {depth after : Int}
    {pending : List (Nat × Int)} {entry : Entry} {anchored : Instr}
    {places : List Nat} (order : walk.pending = (index, depth) :: pending)
    (found : walk.entries[index]? = some entry) (blank : entry.depth = none)
    (arrived : StackDepth.arrive .words routine.instrs index depth
      entry.instr = (anchored, .ok (after, places)))
    (pursues : Pursues table routine
      { entries := walk.entries.set index
          { entry with instr := anchored, depth := some depth }
        pending := places.reverse.map (·, after) ++ pending
        deepest := max walk.deepest after } result) :
    Pursues table routine walk result := by
  refine .of_along order fun waiting waits => ?_
  obtain ⟨outcome, mirrors, performs⟩ :=
    exists_arrive describes small stands found blank depth
  obtain ⟨named, front, back, split, -⟩ := stands.split found
  have here : { routine with entries := walk.entries }.entries =
    front ++ entry :: back := split
  rw [arrived] at mirrors performs
  rw [named, Targets.walk, bind_assoc]
  apply (performs_depthAt here).bind
  rw [blank]
  dsimp only
  rw [bind_assoc]
  cases mirrors with
  | @ok _ goal kept =>
      obtain ⟨sum, put, cursor⟩ := goal
      obtain ⟨rfl, onward⟩ := kept
      apply performs.bind
      cases onward with
      | leave names =>
          rw [Targets.walk, pure_bind]
          exact pursues.waiting _ (forall₂_waits names waits _)
      | @follow others _ names =>
          refine pursues.along _ ?_ (forall₂_waits names waits _)
          simp

theorem pursues_of_refused {index : Nat} {depth : Int}
    {pending : List (Nat × Int)} {entry : Entry} {instr : Instr}
    {failure : Failure} (order : walk.pending = (index, depth) :: pending)
    (found : walk.entries[index]? = some entry) (blank : entry.depth = none)
    (arrived : StackDepth.arrive .words routine.instrs index depth
      entry.instr = (instr, .error failure)) :
    Pursues table routine walk
      ({ walk with
          entries := walk.entries.set index
            { entry with instr, depth := some depth } }, some failure) := by
  refine .of_along order fun waiting waits => ?_
  obtain ⟨outcome, mirrors, performs⟩ :=
    exists_arrive describes small stands found blank depth
  obtain ⟨named, front, back, split, -⟩ := stands.split found
  have here : { routine with entries := walk.entries }.entries =
    front ++ entry :: back := split
  rw [arrived] at mirrors performs
  rw [named, Targets.walk, bind_assoc]
  apply (performs_depthAt here).bind
  rw [blank]
  dsimp only
  rw [bind_assoc]
  cases mirrors with
  | error => exact performs.bind_error

/-- The walk along the links has the result of the walk along the indices. -/
theorem pursues_explore :
    Pursues table routine walk (explore .words routine.instrs walk) := by
  obtain ⟨last, run, halts⟩ := explore_run .words routine.instrs walk
  generalize explore .words routine.instrs walk = result at halts
  induction run using Relation.ReflTransGen.head_induction_on with
  | refl =>
      cases halts with
      | done order =>
          refine ⟨fun waiting waits => ?_, fun waiting taken => ?_⟩
          · rw [order, List.forall₂_nil_left_iff] at waits
            rw [waits, Targets.walkAll]
            exact performs_pure _ _
          · rw [order] at taken
            cases taken
      | conflict order found known differs =>
          exact pursues_of_conflict stands order found known differs
      | refused order found blank arrived =>
          exact pursues_of_refused describes small stands order found blank
            arrived
  | head visit run ih =>
      have later := ih (stands_of_visit visit stands)
      cases visit with
      | pass order known => exact pursues_of_pass stands order known later
      | enter order found blank arrived =>
          exact pursues_of_enter describes small stands order found blank
            arrived later

end Steps

end Walking

/-! ## The analysis -/

section Analyses

variable {routine : Routine} {front back : List Entry}

theorem performs_unvisited (split : routine.entries = front ++ back) :
    Performs (unvisited (back.map (·.handle))) routine
      (.ok ((back.filter fun entry => !entry.depth.isSome).map (·.handle)),
        routine) := by
  induction back generalizing front with
  | nil => exact performs_pure _ _
  | cons entry back ih =>
      apply (performs_depthAt split).bind
      rw [List.append_cons] at split
      apply (ih split).bind
      rw [List.filter_cons]
      cases entry.depth <;> exact performs_pure _ _

theorem performs_eraseAll (keep : Entry → Bool)
    (split : routine.entries = front ++ back) :
    Performs (eraseAll ((back.filter fun entry => !keep entry).map (·.handle)))
      routine
      (.ok (), { routine with
        entries := front ++ back.filter keep
        pool := routine.pool.retireAll
          ((back.filter fun entry => !keep entry).map (·.handle)) }) := by
  induction back generalizing routine front with
  | nil =>
      rw [List.filter_nil, List.filter_nil, ← split]
      exact performs_pure _ _
  | cons entry back ih =>
      by_cases kept : keep entry
      · rw [List.append_cons] at split
        have later := ih split
        simpa [kept] using later
      · have later := @ih { routine with
          entries := front ++ back
          pool := routine.pool.retire entry.handle } front rfl
        simp only [List.filter_cons, kept]
        exact (performs_erase split).discard.bind later

theorem performs_retain (keep : Entry → Bool) (routine : Routine) :
    Performs (eraseAll
        ((routine.entries.filter fun entry => !keep entry).map (·.handle)))
      routine (.ok (), routine.retain keep) :=
  performs_eraseAll keep (List.nil_append _).symm

theorem stands_start (routine : Routine) :
    Stands routine.clearDepths (start routine) where
  tracks := by
    rw [instrs_clearDepths]
    exact tracks_start routine
  handles_eq := rfl

/-- A walk of all paths from the first entry. -/
theorem walkAll_of_start (table : Targets) (cursor : Option Handle) :
    Targets.walkAll table { pending := cursor.toList.map (·, 0) } =
      Targets.walk table { pending := [] } cursor 0 >>= Targets.walkAll table := by
  cases cursor with
  | none => rw [Targets.walk, pure_bind]; rfl
  | some handle => rw [Targets.walkAll]; rfl

theorem codeSize_clearDepths (routine : Routine) :
    routine.clearDepths.codeSize = routine.codeSize := by
  rw [Routine.codeSize, instrs_clearDepths, Routine.codeSize]

theorem map_fst_rows (entries : List Entry) :
    (rows entries).map (·.1) = entries.map (·.handle) := by
  simp [rows, Function.comp_def]

theorem length_unvisited (entries : List Entry) :
    ((entries.filter fun entry => !entry.depth.isSome).map
      (·.handle)).length = StackDepth.unvisited entries := by
  simp [StackDepth.unvisited, List.countP_eq_length_filter]

/-- The analysis of small code in a body is the analysis of the routine. -/
theorem performs_measureDepths (small : routine.codeSize < positionLimit) :
    Performs measureDepths routine routine.measureDepths := by
  apply (performs_clearDepths routine).bind
  rw [Routine.measureDepths]
  cases repeated : repeatedLabel? routine.instrs with
  | some label =>
      rw [measureDepthsBy_of_repeatedLabel? repeated]
      rw [← instrs_clearDepths] at repeated
      exact ((performs_listing _).bind
        (performs_labelsOf_of_repeated repeated _).bind_error).bind_error
  | none =>
      have distinct := repeatedLabel?_eq_none_iff.mp repeated
      have blank : (labels routine.clearDepths.instrs).Nodup := by
        rwa [instrs_clearDepths]
      rw [← codeSize_clearDepths] at small
      refine performs_of_accounted fun accounted => ?_
      obtain ⟨table, describes, tabled⟩ :=
        performs_targets accounted blank small
      apply tabled.bind
      apply (performs_head _).bind
      have walked := (pursues_explore describes small
        (stands_start routine)).along [] rfl .nil
      have first : routine.clearDepths.entries.head?.map (·.handle) =
          routine.clearDepths.handles[0]? := by
        rw [Routine.handles, List.getElem?_map, List.head?_eq_getElem?]
      dsimp only
      rw [walkAll_of_start, first]
      rw [instrs_clearDepths] at walked
      obtain ⟨final, failure?, ended⟩ :
          ∃ final failure?, explore .words routine.instrs (start routine) =
            (final, failure?) := ⟨_, _, rfl⟩
      rw [ended] at walked
      cases failure? with
      | some failure =>
          rw [measureDepthsBy_of_failure distinct ended]
          exact walked.bind_error
      | none =>
          rw [measureDepthsBy_of_finished distinct ended]
          apply walked.bind
          apply (performs_listing _).bind
          rw [map_fst_rows]
          apply (performs_unvisited (List.nil_append _).symm).bind
          apply (performs_retain (·.depth.isSome) _).bind
          apply (performs_setMaxDepth _ _).bind
          rw [length_unvisited]
          exact performs_pure _ _

/-- Why code is refused whose size no word can hold. -/
def largeCodeFailure (code : List Instr) : Failure :=
  match repeatedLabel? code with
  | some label => .defect (.duplicateLabel label)
  | none => .fault .overflow

/-- Code whose size no word can hold is refused before any depth is found. -/
theorem performs_measureDepths_of_large
    (large : positionLimit ≤ routine.codeSize) :
    Performs measureDepths routine
      (.error (largeCodeFailure routine.instrs), routine.clearDepths) := by
  apply (performs_clearDepths routine).bind
  rw [← codeSize_clearDepths] at large
  rw [← instrs_clearDepths, largeCodeFailure]
  apply Performs.bind_error
  apply (performs_listing _).bind
  cases repeated : repeatedLabel? routine.clearDepths.instrs with
  | some label => exact (performs_labelsOf_of_repeated repeated _).bind_error
  | none =>
      apply (performs_labelsOf (repeatedLabel?_eq_none_iff.mp repeated) _).bind
      apply Performs.bind_error
      exact performs_positionTable_of_large (by decide)
        (by rwa [Nat.zero_add]) _

end Analyses

end Program

end StackAssembler
