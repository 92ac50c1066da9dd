import StackAssembler.StackDepth
import StackAssembler.Proofs.ControlGraph

/-!
# The depth walk

The walk of the depth analysis is taken apart into visits.  A visit takes the
next pending place and either finds it known at the same depth or records the
depth there and puts its successors down.  A run of visits ends when nothing is
pending, when two depths disagree, or when an instruction refuses its depth.

Two invariants of the visits give the main result.  What a recorded instruction
leads to is recorded at the depth behind it or still pending, so a finished
walk has consistent depths.  And where depths suit every reachable instruction,
the walk records only these depths and never stops early.  Hence the analysis
accepts exactly the well-formed routines.
-/

namespace StackAssembler

namespace StackDepth

open Flow Relation

/-- The sums of an exact adder are those of integers. -/
class Adder.Exact (add : Adder) : Prop where
  eq_add : ∀ {left right sum : Int}, add left right = some sum →
    sum = left + right

instance : Adder.Exact .integers where
  eq_add added := (Option.some.inj added).symm

theorem words_eq_some_iff {left right sum : Int} :
    Adder.words left right = some sum ↔ sum = left + right ∧ FitsWord sum := by
  unfold Adder.words
  split
  · rename_i fits
    constructor
    · intro added
      obtain rfl := Option.some.inj added
      exact ⟨rfl, fits⟩
    · rintro ⟨rfl, -⟩
      rfl
  · rename_i wide
    constructor
    · intro added
      cases added
    · rintro ⟨rfl, fits⟩
      exact absurd fits wide

instance : Adder.Exact .words where
  eq_add added := (words_eq_some_iff.mp added).1

section Arrival

variable {add : Adder} {code : List Instr} {index : Nat} {depth : Int}
  {instr anchored : Instr}

theorem total_eq_ok_iff {left right sum : Int} :
    total add left right = .ok sum ↔ add left right = some sum := by
  unfold total
  cases add left right <;> simp

/-- Anchoring changes an address relative to the stack's top only, and adds its
distance to the depth. -/
theorem anchor_eq_ok_iff :
    anchor add depth instr = .ok anchored ↔
      ((∀ distance, instr ≠ .pushStackAddr distance) ∧ anchored = instr) ∨
        ∃ distance sum slot, instr = .pushStackAddr distance ∧
          add distance.toInt depth = some sum ∧
          Slot.ofInt? sum = some slot ∧ anchored = .pushFrameAddr slot := by
  by_cases relative : ∃ distance, instr = .pushStackAddr distance
  · obtain ⟨distance, rfl⟩ := relative
    simp only [anchor, total, bind, Except.bind]
    cases added : add distance.toInt depth with
    | none => simp [added]
    | some sum =>
        cases inFrame : Slot.ofInt? sum with
        | none => simp [added, inFrame]
        | some slot => simp [added, inFrame, pure, Except.pure, eq_comm]
  · have other : ∀ distance, instr ≠ .pushStackAddr distance :=
      fun distance same => relative ⟨distance, same⟩
    have unchanged : anchor add depth instr = .ok instr := by
      unfold anchor
      split
      · exact absurd rfl (other _)
      · rfl
    simp [unchanged, other, eq_comm]

theorem eq_or_frameAddr_of_anchor
    (done : anchor add depth instr = .ok anchored) :
    anchored = instr ∨ ∃ distance slot,
      instr = .pushStackAddr distance ∧ anchored = .pushFrameAddr slot := by
  rcases anchor_eq_ok_iff.mp done with ⟨-, same⟩ | ⟨_, _, _, old, -, -, new⟩
  · exact .inl same
  · exact .inr ⟨_, _, old, new⟩

/-- What does not tell an address relative to the stack's top from a frame
address does not see whether an instruction is anchored. -/
theorem apply_of_anchor {Property : Type} (property : Instr → Property)
    (blind : ∀ distance slot,
      property (.pushFrameAddr slot) = property (.pushStackAddr distance))
    (done : anchor add depth instr = .ok anchored) :
    property anchored = property instr := by
  rcases eq_or_frameAddr_of_anchor done with rfl | ⟨distance, slot, rfl, rfl⟩
  · rfl
  · exact blind distance slot

theorem stackChange_of_anchor (done : anchor add depth instr = .ok anchored) :
    anchored.stackChange = instr.stackChange :=
  apply_of_anchor Instr.stackChange (fun _ _ => rfl) done

theorem size_of_anchor (done : anchor add depth instr = .ok anchored) :
    anchored.size = instr.size :=
  apply_of_anchor Instr.size (fun _ _ => rfl) done

theorem successors_of_anchor (done : anchor add depth instr = .ok anchored) :
    successors code index anchored = successors code index instr :=
  apply_of_anchor (successors code index) (fun _ _ => rfl) done

theorem anchor_integers [add.Exact]
    (done : anchor add depth instr = .ok anchored) :
    anchor .integers depth instr = .ok anchored := by
  apply anchor_eq_ok_iff.mpr
  rcases anchor_eq_ok_iff.mp done with same |
    ⟨distance, sum, slot, old, added, inFrame, new⟩
  · exact .inl same
  · obtain rfl := Adder.Exact.eq_add added
    exact .inr ⟨distance, _, slot, old, rfl, inFrame, new⟩

theorem exists_anchor_iff :
    (∃ anchored, anchor .integers depth instr = .ok anchored) ↔
      ∀ distance, instr = .pushStackAddr distance →
        -32768 ≤ distance.toInt + depth ∧ distance.toInt + depth < 32768 := by
  have inFrame (value : Int) : (∃ slot, Slot.ofInt? value = some slot) ↔
      -32768 ≤ value ∧ value < 32768 := by
    simp [Slot.ofInt?]
  constructor
  · rintro ⟨anchored, done⟩ distance rfl
    rcases anchor_eq_ok_iff.mp done with ⟨other, -⟩ |
      ⟨_, _, slot, same, added, found, -⟩
    · exact absurd rfl (other distance)
    · obtain rfl := Instr.pushStackAddr.inj same
      obtain rfl := Adder.Exact.eq_add added
      exact (inFrame _).mp ⟨slot, found⟩
  · intro frame
    by_cases relative : ∃ distance, instr = .pushStackAddr distance
    · obtain ⟨distance, rfl⟩ := relative
      obtain ⟨slot, found⟩ := (inFrame _).mpr (frame distance rfl)
      exact ⟨_, anchor_eq_ok_iff.mpr
        (.inr ⟨distance, _, slot, rfl, rfl, found, rfl⟩)⟩
    · exact ⟨instr, anchor_eq_ok_iff.mpr
        (.inl ⟨fun distance same => relative ⟨distance, same⟩, rfl⟩)⟩

theorem arrive_eq_ok_iff {after : Int} {places : List Nat} :
    arrive add code index depth instr = (anchored, .ok (after, places)) ↔
      anchor add depth instr = .ok anchored ∧
        add depth instr.stackChange = some after ∧ 0 ≤ after ∧
          successors code index instr = .ok places := by
  unfold arrive
  cases done : anchor add depth instr with
  | error failure => simp
  | ok changed =>
      simp only [depthAfter, total, stackChange_of_anchor done,
        successors_of_anchor done, Prod.mk.injEq, Except.ok.injEq]
      cases add depth instr.stackChange with
      | none => simp [bind, Except.bind]
      | some sum =>
          by_cases below : sum < 0
          · simp only [bind, Except.bind, if_pos below, Option.some.injEq]
            constructor
            · rintro ⟨-, failed⟩
              cases failed
            · rintro ⟨-, rfl, notBelow, -⟩
              omega
          · cases successors code index instr with
            | error defect =>
                have lost : (Except.error defect : Except Defect (List Nat)
                  ).mapError Failure.defect = .error (.defect defect) := rfl
                simp [bind, Except.bind, pure, Except.pure, below, lost]
            | ok found =>
                have kept : (Except.ok found : Except Defect (List Nat)
                  ).mapError Failure.defect = .ok found := rfl
                simp only [bind, Except.bind, pure, Except.pure, if_neg below,
                  kept, Except.ok.injEq, Prod.mk.injEq, Option.some.injEq]
                constructor
                · rintro ⟨rfl, rfl, rfl⟩
                  exact ⟨rfl, rfl, by omega, rfl⟩
                · rintro ⟨rfl, rfl, -, rfl⟩
                  exact ⟨rfl, rfl, rfl⟩

/-- An arrival whose sums are exact goes on at the sum of integers. -/
theorem arrive_exact [add.Exact] {after : Int} {places : List Nat}
    (arrived : arrive add code index depth instr =
      (anchored, .ok (after, places))) :
    anchor .integers depth instr = .ok anchored ∧
      after = depth + instr.stackChange ∧ 0 ≤ after ∧
        successors code index instr = .ok places := by
  obtain ⟨done, added, notBelow, found⟩ := arrive_eq_ok_iff.mp arrived
  exact ⟨anchor_integers done, Adder.Exact.eq_add added, notBelow, found⟩

/-- A sum of an exact adder is the sum of integers or has no number. -/
theorem total_integers_or_overflow (add : Adder) [add.Exact]
    (left right : Int) :
    total add left right = total .integers left right ∨
      total add left right = .error (.fault .overflow) := by
  unfold total
  cases added : add left right with
  | none => exact .inr rfl
  | some sum =>
      obtain rfl := Adder.Exact.eq_add added
      exact .inl rfl

theorem anchor_integers_or_overflow (add : Adder) [add.Exact] (depth : Int)
    (instr : Instr) :
    anchor add depth instr = anchor .integers depth instr ∨
      anchor add depth instr = .error (.fault .overflow) := by
  cases instr with
  | pushStackAddr distance =>
      rcases total_integers_or_overflow add distance.toInt depth with
        same | overflow
      · exact .inl (by rw [anchor, same]; rfl)
      · exact .inr (by rw [anchor, overflow]; rfl)
  | _ => exact .inl rfl

theorem depthAfter_integers_or_overflow (add : Adder) [add.Exact] (depth : Int)
    (instr : Instr) :
    depthAfter add depth instr = depthAfter .integers depth instr ∨
      depthAfter add depth instr = .error (.fault .overflow) := by
  rcases total_integers_or_overflow add depth instr.stackChange with
    same | overflow
  · exact .inl (by rw [depthAfter, same]; rfl)
  · exact .inr (by rw [depthAfter, overflow]; rfl)

theorem arrive_integers_or_overflow (add : Adder) [add.Exact]
    (code : List Instr) (index : Nat) (depth : Int) (instr : Instr) :
    arrive add code index depth instr =
        arrive .integers code index depth instr ∨
      (arrive add code index depth instr).2 = .error (.fault .overflow) := by
  unfold arrive
  rcases anchor_integers_or_overflow add depth instr with same | overflow
  · rw [same]
    cases anchor .integers depth instr with
    | error failure => exact .inl rfl
    | ok anchored =>
        rcases depthAfter_integers_or_overflow add depth anchored with
          same | overflow
        · exact .inl (by simp only [same])
        · exact .inr (by simp only [overflow]; rfl)
  · exact .inr (by rw [overflow])

end Arrival

/-- One visit of the walk that meets no defect. -/
inductive Visit (add : Adder) (code : List Instr) (walk : Walk) :
    Walk → Prop
  | pass {index : Nat} {depth : Int} {pending : List (Nat × Int)}
      (order : walk.pending = (index, depth) :: pending)
      (known : ∀ entry, walk.entries[index]? = some entry →
        entry.depth = some depth) :
      Visit add code walk { walk with pending }
  | enter {index : Nat} {depth after : Int} {pending : List (Nat × Int)}
      {entry : Entry} {anchored : Instr} {places : List Nat}
      (order : walk.pending = (index, depth) :: pending)
      (found : walk.entries[index]? = some entry)
      (blank : entry.depth = none)
      (arrived : arrive add code index depth entry.instr =
        (anchored, .ok (after, places))) :
      Visit add code walk
        { entries := walk.entries.set index
            { entry with instr := anchored, depth := some depth }
          pending := places.reverse.map (·, after) ++ pending
          deepest := max walk.deepest after }

/-- The ways in which a walk ends. -/
inductive Halts (add : Adder) (code : List Instr) (walk : Walk) :
    Walk × Option Failure → Prop
  | done (order : walk.pending = []) : Halts add code walk (walk, none)
  | conflict {index : Nat} {depth recorded : Int}
      {pending : List (Nat × Int)} {entry : Entry}
      (order : walk.pending = (index, depth) :: pending)
      (found : walk.entries[index]? = some entry)
      (known : entry.depth = some recorded) (differs : recorded ≠ depth) :
      Halts add code walk
        (walk, some (.defect (.depthMismatch entry.instr.text recorded depth)))
  | refused {index : Nat} {depth : Int} {pending : List (Nat × Int)}
      {entry : Entry} {instr : Instr} {failure : Failure}
      (order : walk.pending = (index, depth) :: pending)
      (found : walk.entries[index]? = some entry)
      (blank : entry.depth = none)
      (arrived : arrive add code index depth entry.instr =
        (instr, .error failure)) :
      Halts add code walk
        ({ walk with
            entries := walk.entries.set index
              { entry with instr, depth := some depth } }, some failure)

/-- The walk is a run of visits up to one of its ends. -/
theorem explore_run (add : Adder) (code : List Instr) (walk : Walk) :
    ∃ last, ReflTransGen (Visit add code) walk last ∧
      Halts add code last (explore add code walk) := by
  fun_induction explore add code walk with
  | case1 walk order => exact ⟨walk, .refl, .done order⟩
  | case2 walk index depth pending order missing ih =>
      obtain ⟨last, run, halts⟩ := ih
      have visit : Visit add code walk { walk with pending } :=
        .pass order (by simp [missing])
      exact ⟨last, .head visit run, halts⟩
  | case3 walk index pending entry found recorded known order ih =>
      obtain ⟨last, run, halts⟩ := ih
      have visit : Visit add code walk { walk with pending } :=
        .pass order (by simp [found, known])
      exact ⟨last, .head visit run, halts⟩
  | case4 walk index depth pending order entry found recorded known differs =>
      exact ⟨walk, .refl, .conflict order found known differs⟩
  | case5 walk index depth pending order entry found blank instr entries
      failure arrived =>
      refine ⟨walk, .refl, ?_⟩
      rw [show entries = _ from recordAt_eq_set found instr depth]
      exact .refused order found blank arrived
  | case6 walk index depth pending order entry found blank instr entries
      after places arrived ih =>
      rw [show entries = _ from recordAt_eq_set found instr depth] at ih ⊢
      obtain ⟨last, run, halts⟩ := ih
      exact ⟨last, .head (.enter order found blank arrived) run, halts⟩

section Steps

variable {add : Adder} {code : List Instr} {walk next : Walk}

theorem explore_of_found {entries : List Entry} {index : Nat} {depth : Int}
    {pending : List (Nat × Int)} {deepest : Int} {entry : Entry}
    (found : entries[index]? = some entry) :
    explore add code ⟨entries, (index, depth) :: pending, deepest⟩ =
      match entry.depth with
      | some recorded =>
          if recorded = depth then explore add code ⟨entries, pending, deepest⟩
          else
            (⟨entries, (index, depth) :: pending, deepest⟩,
              some (.defect
                (.depthMismatch entry.instr.text recorded depth)))
      | none =>
          match arrive add code index depth entry.instr with
          | (instr, .error failure) =>
              (⟨entries.set index { entry with instr, depth := some depth },
                (index, depth) :: pending, deepest⟩, some failure)
          | (instr, .ok (after, places)) =>
              explore add code
                ⟨entries.set index { entry with instr, depth := some depth },
                  places.reverse.map (·, after) ++ pending,
                  max deepest after⟩ := by
  rw [explore]
  dsimp only
  split
  · rename_i missing
    rw [found] at missing
    cases missing
  · rename_i other same
    obtain rfl := Option.some.inj (found.symm.trans same)
    split
    · rename_i recorded known
      rw [known]
    · rename_i blank
      rw [blank]
      simp only [recordAt_eq_set found]
      rcases arrive add code index depth entry.instr with
        ⟨instr, failure | ⟨after, places⟩⟩ <;> rfl

theorem explore_of_visit (visit : Visit add code walk next) :
    explore add code walk = explore add code next := by
  obtain ⟨entries, waiting, deepest⟩ := walk
  cases visit with
  | @pass index depth pending order known =>
      obtain rfl := order
      cases found : entries[index]? with
      | none =>
          rw [explore]
          dsimp only
          split
          · rfl
          · rename_i there
            rw [found] at there
            cases there
      | some entry =>
          have recorded := known entry found
          rw [explore_of_found found, recorded]
          exact if_pos rfl
  | enter order found blank arrived =>
      obtain rfl := order
      rw [explore_of_found found, blank]
      dsimp only
      rw [arrived]

theorem explore_of_run (run : ReflTransGen (Visit add code) walk next) :
    explore add code walk = explore add code next := by
  induction run with
  | refl => rfl
  | tail _ visit ih => exact ih.trans (explore_of_visit visit)

theorem explore_of_halts {result : Walk × Option Failure}
    (halts : Halts add code walk result) : explore add code walk = result := by
  obtain ⟨entries, waiting, deepest⟩ := walk
  cases halts with
  | done order =>
      obtain rfl := order
      rw [explore]
  | conflict order found known differs =>
      obtain rfl := order
      rw [explore_of_found found, known]
      exact if_neg differs
  | refused order found blank arrived =>
      obtain rfl := order
      rw [explore_of_found found, blank]
      dsimp only
      rw [arrived]

end Steps

theorem Visit.integers {add : Adder} [add.Exact] {code : List Instr}
    {walk next : Walk} (visit : Visit add code walk next) :
    Visit .integers code walk next := by
  cases visit with
  | pass order known => exact .pass order known
  | enter order found blank arrived =>
      refine .enter order found blank ?_
      rcases arrive_integers_or_overflow add code _ _ _ with same | overflow
      · rwa [← same]
      · rw [arrived] at overflow
        cases overflow

/-- The walk with exact sums is the walk in integers, unless it comes to a sum
that has no number. -/
theorem explore_integers_or_overflow (add : Adder) [add.Exact]
    (code : List Instr) (walk : Walk) :
    explore add code walk = explore .integers code walk ∨
      (explore add code walk).2 = some (.fault .overflow) := by
  obtain ⟨last, run, halts⟩ := explore_run add code walk
  have reached : explore .integers code walk = explore .integers code last := by
    clear halts
    induction run with
    | refl => rfl
    | tail _ visit ih => exact ih.trans (explore_of_visit visit.integers)
  rw [reached]
  generalize explore add code walk = result at halts ⊢
  cases halts with
  | done order => exact .inl (explore_of_halts (.done order)).symm
  | conflict order found known differs =>
      exact .inl (explore_of_halts (.conflict order found known differs)).symm
  | refused order found blank arrived =>
      rcases arrive_integers_or_overflow add code _ _ _ with same | overflow
      · rw [arrived] at same
        exact .inl (explore_of_halts
          (.refused order found blank same.symm)).symm
      · rw [arrived] at overflow
        exact .inr (congrArg some (Except.error.inj overflow))

/-- What holds before the first visit and is kept by every visit holds at the
end of a walk without a defect, when nothing is pending. -/
theorem explore_induction {add : Adder} {code : List Instr}
    {walk final : Walk} {invariant : Walk → Prop}
    (kept : ∀ walk walk', Visit add code walk walk' →
      invariant walk → invariant walk')
    (initial : invariant walk) (ended : explore add code walk = (final, none)) :
    invariant final ∧ final.pending = [] := by
  obtain ⟨last, run, halts⟩ := explore_run add code walk
  have holds : invariant last := by
    clear halts
    induction run with
    | refl => exact initial
    | tail _ visit ih => exact kept _ _ visit ih
  rw [ended] at halts
  cases halts with
  | done order => exact ⟨holds, order⟩

theorem Visit.deepest_le {add : Adder} {code : List Instr} {walk next : Walk}
    (visit : Visit add code walk next) : walk.deepest ≤ next.deepest := by
  cases visit with
  | pass => exact Int.le_refl _
  | enter => exact Int.le_max_left _ _

theorem Visit.deepest_le_word {code : List Instr} {walk next : Walk}
    (visit : Visit .words code walk next)
    (before : walk.deepest ≤ 2147483647) : next.deepest ≤ 2147483647 := by
  cases visit with
  | pass => exact before
  | enter order found blank arrived =>
      obtain ⟨-, added, -⟩ := arrive_eq_ok_iff.mp arrived
      exact Int.max_le.mpr ⟨before, (words_eq_some_iff.mp added).2.2⟩

/-- A visit in integers after which no depth is above the range of words is a
visit in words: a depth behind an instruction is not negative, and a slot fits a
word in any case. -/
theorem Visit.words {code : List Instr} {walk next : Walk}
    (visit : Visit .integers code walk next)
    (fits : next.deepest ≤ 2147483647) : Visit .words code walk next := by
  cases visit with
  | pass order known => exact .pass order known
  | @enter index depth after pending entry anchored places order found blank
      arrived =>
      obtain ⟨done, rfl, notBelow, onward⟩ := arrive_exact arrived
      have highest : depth + entry.instr.stackChange ≤ 2147483647 :=
        Int.le_trans (Int.le_max_right walk.deepest _) fits
      have anchoredThere : anchor .words depth entry.instr = .ok anchored := by
        apply anchor_eq_ok_iff.mpr
        rcases anchor_eq_ok_iff.mp done with same |
          ⟨distance, sum, slot, old, added, inFrame, new⟩
        · exact .inl same
        · have frame : -32768 ≤ sum ∧ sum < 32768 := by
            unfold Slot.ofInt? at inFrame
            split at inFrame
            · assumption
            · cases inFrame
          refine .inr ⟨distance, sum, slot, old, ?_, inFrame, new⟩
          exact words_eq_some_iff.mpr ⟨Adder.Exact.eq_add added,
            by omega, by omega⟩
      refine .enter order found blank (arrive_eq_ok_iff.mpr
        ⟨anchoredThere, words_eq_some_iff.mpr ⟨rfl, ?_⟩, notBelow, onward⟩)
      exact ⟨by omega, highest⟩

/-- A finished walk in integers whose greatest depth fits a word is a walk in
words. -/
theorem explore_words_of_finished {code : List Instr} {walk final : Walk}
    (ended : explore .integers code walk = (final, none))
    (fits : final.deepest ≤ 2147483647) :
    explore .words code walk = (final, none) := by
  obtain ⟨last, run, halts⟩ := explore_run .integers code walk
  rw [ended] at halts
  cases halts with
  | done order =>
      clear ended
      have early : walk.deepest ≤ final.deepest ∧
          explore .words code walk = explore .words code final := by
        induction run using ReflTransGen.head_induction_on with
        | refl => exact ⟨Int.le_refl _, rfl⟩
        | head visit _ ih =>
            refine ⟨Int.le_trans visit.deepest_le ih.1, ?_⟩
            have within := Int.le_trans ih.1 fits
            exact (explore_of_visit (visit.words within)).trans ih.2
      exact early.2.trans (explore_of_halts (.done order))

/-- The entries of a walk belong to the code: an entry without a depth holds
its instruction as it was, one with a depth holds it anchored there. -/
structure Tracks (code : List Instr) (entries : List Entry) : Prop where
  length_eq : entries.length = code.length
  blank : ∀ {index : Nat} {entry : Entry}, entries[index]? = some entry →
    entry.depth = none → code[index]? = some entry.instr
  anchored : ∀ {index : Nat} {entry : Entry} {depth : Int},
    entries[index]? = some entry → entry.depth = some depth →
      ∃ instr, code[index]? = some instr ∧
        anchor .integers depth instr = .ok entry.instr

/-- A place is settled at a depth if the visit there is still pending, or if
the instruction there, if any, has that depth. -/
def Settled (walk : Walk) (place : Nat) (depth : Int) : Prop :=
  (place, depth) ∈ walk.pending ∨
    ∀ entry, walk.entries[place]? = some entry → entry.depth = some depth

/-- The start is settled at depth zero, and the successors of every recorded
instruction are settled at the depth behind it. -/
structure Closed (code : List Instr) (walk : Walk) : Prop where
  tracks : Tracks code walk.entries
  start : Settled walk 0 0
  onward : ∀ {index : Nat} {entry : Entry} {depth : Int},
    walk.entries[index]? = some entry → entry.depth = some depth →
      0 ≤ depth + entry.instr.stackChange ∧
        ∃ places, successors code index entry.instr = .ok places ∧
          ∀ place ∈ places,
            Settled walk place (depth + entry.instr.stackChange)

theorem getElem?_set_eq_some_iff {entries : List Entry} {index place : Nat}
    {old new entry : Entry} (found : entries[index]? = some old) :
    (entries.set index new)[place]? = some entry ↔
      (place = index ∧ entry = new) ∨
        (place ≠ index ∧ entries[place]? = some entry) := by
  obtain ⟨inside, -⟩ := List.getElem?_eq_some_iff.mp found
  by_cases same : index = place
  · subst same
    simp [inside, eq_comm]
  · simp [List.getElem?_set_ne same, Ne.symm same]

section Visits

variable {add : Adder} [add.Exact] {code : List Instr} {walk walk' : Walk}

theorem Visit.tracks (visit : Visit add code walk walk')
    (before : Tracks code walk.entries) : Tracks code walk'.entries := by
  cases visit with
  | pass order known => exact before
  | enter order found blank arrived =>
      obtain ⟨done, -⟩ := arrive_exact arrived
      refine ⟨by simpa using before.length_eq, ?_, ?_⟩
      · intro place other located unknown
        rcases (getElem?_set_eq_some_iff found).mp located with
          ⟨-, rfl⟩ | ⟨-, kept⟩
        · simp at unknown
        · exact before.blank kept unknown
      · intro place other recorded located known
        rcases (getElem?_set_eq_some_iff found).mp located with
          ⟨rfl, rfl⟩ | ⟨-, kept⟩
        · obtain rfl := Option.some.inj known
          exact ⟨_, before.blank found blank, done⟩
        · exact before.anchored kept known

omit [add.Exact] in
/-- What is settled stays settled: the visit that was pending records its
depth or finds it recorded. -/
theorem Visit.settled (visit : Visit add code walk walk') {place : Nat}
    {depth : Int} (before : Settled walk place depth) :
    Settled walk' place depth := by
  cases visit with
  | pass order known =>
      rcases before with waiting | recorded
      · rw [order, List.mem_cons] at waiting
        rcases waiting with first | later
        · obtain ⟨rfl, rfl⟩ := Prod.mk.inj first
          exact .inr known
        · exact .inl later
      · exact .inr recorded
  | enter order found blank arrived =>
      rcases before with waiting | recorded
      · rw [order, List.mem_cons] at waiting
        rcases waiting with first | later
        · obtain ⟨rfl, rfl⟩ := Prod.mk.inj first
          refine .inr fun entry located => ?_
          rcases (getElem?_set_eq_some_iff found).mp located with
            ⟨-, rfl⟩ | ⟨other, -⟩
          · rfl
          · exact absurd rfl other
        · exact .inl (List.mem_append_right _ later)
      · refine .inr fun entry located => ?_
        rcases (getElem?_set_eq_some_iff found).mp located with
          ⟨rfl, -⟩ | ⟨-, kept⟩
        -- A recorded place is not entered again.
        · simp [recorded _ found] at blank
        · exact recorded entry kept

theorem Visit.closed (visit : Visit add code walk walk')
    (before : Closed code walk) : Closed code walk' := by
  refine ⟨visit.tracks before.tracks, visit.settled before.start, ?_⟩
  intro place entry depth located known
  have onward {kept : Entry} (same : walk.entries[place]? = some kept)
      (knownBefore : kept.depth = some depth) :
      0 ≤ depth + kept.instr.stackChange ∧
        ∃ places, successors code place kept.instr = .ok places ∧
          ∀ next ∈ places,
            Settled walk' next (depth + kept.instr.stackChange) := by
    obtain ⟨notBelow, places, found, settled⟩ :=
      before.onward same knownBefore
    exact ⟨notBelow, places, found, fun next member =>
      visit.settled (settled next member)⟩
  cases visit with
  | pass order _ => exact onward located known
  | enter order found blank arrived =>
      rcases (getElem?_set_eq_some_iff found).mp located with
        ⟨rfl, rfl⟩ | ⟨-, kept⟩
      · obtain ⟨done, rfl, notBelow, successorsFound⟩ :=
          arrive_exact arrived
        obtain rfl := Option.some.inj known
        -- The successors of the place just entered are pending now.
        simp only [stackChange_of_anchor done, successors_of_anchor done]
        refine ⟨notBelow, _, successorsFound, fun next member => .inl ?_⟩
        exact List.mem_append_left _ (by simpa using member)
      · exact onward kept known

/-- The walk keeps to given depths: it goes to reachable places only and
arrives there at the depth given for them. -/
structure Follows (code : List Instr) (depth : Nat → Int) (walk : Walk) :
    Prop where
  tracks : Tracks code walk.entries
  waiting : ∀ {place : Nat} {incoming : Int},
    (place, incoming) ∈ walk.pending → place < code.length →
      Reachable code place ∧ incoming = depth place
  recorded : ∀ {place : Nat} {entry : Entry} {incoming : Int},
    walk.entries[place]? = some entry → entry.depth = some incoming →
      incoming = depth place

variable {depth : Nat → Int}

theorem Follows.first (follows : Follows code depth walk) {index : Nat}
    {incoming : Int} {pending : List (Nat × Int)} {entry : Entry}
    (order : walk.pending = (index, incoming) :: pending)
    (found : walk.entries[index]? = some entry) :
    Reachable code index ∧ incoming = depth index := by
  apply follows.waiting
  · rw [order]
    exact List.mem_cons_self
  · rw [← follows.tracks.length_eq]
    exact (List.getElem?_eq_some_iff.mp found).1

theorem Visit.follows (distinct : (labels code).Nodup)
    (suits : ∀ index instr, Reachable code index →
      code[index]? = some instr → Suits code depth index instr)
    (visit : Visit add code walk walk') (before : Follows code depth walk) :
    Follows code depth walk' := by
  refine ⟨visit.tracks before.tracks, ?_, ?_⟩
  · intro place incoming waiting inside
    cases visit with
    | pass order known =>
        exact before.waiting (by rw [order]; simp [waiting]) inside
    | enter order found blank arrived =>
        rcases List.mem_append.mp waiting with added | later
        · obtain ⟨reachable, rfl⟩ := before.first order found
          obtain ⟨-, rfl, -, successorsFound⟩ :=
            arrive_exact arrived
          have here := before.tracks.blank found blank
          obtain ⟨next, member, equal⟩ := List.mem_map.mp added
          obtain ⟨rfl, rfl⟩ := Prod.mk.inj equal
          have edge := (mem_successors_iff distinct here successorsFound
            inside).mp (List.mem_reverse.mp member)
          exact ⟨reachable.tail edge,
            ((suits _ _ reachable here).agrees _ edge).symm⟩
        · exact before.waiting (by rw [order]; simp [later]) inside
  · intro place entry incoming located known
    cases visit with
    | pass order _ => exact before.recorded located known
    | enter order found blank arrived =>
        rcases (getElem?_set_eq_some_iff found).mp located with
          ⟨rfl, rfl⟩ | ⟨-, kept⟩
        · obtain rfl := Option.some.inj known
          exact (before.first order found).2
        · exact before.recorded kept known

omit [add.Exact] in
/-- A walk in integers that keeps to suitable depths ends without a defect. -/
theorem Follows.halts (follows : Follows code depth walk)
    (distinct : (labels code).Nodup)
    (suits : ∀ index instr, Reachable code index →
      code[index]? = some instr → Suits code depth index instr)
    {result : Walk × Option Failure}
    (halts : Halts .integers code walk result) : result.2 = none := by
  cases halts with
  | done order => rfl
  | conflict order found known differs =>
      have incoming := (follows.first order found).2
      exact absurd ((follows.recorded found known).trans incoming.symm)
        differs
  | refused order found blank arrived =>
      obtain ⟨reachable, rfl⟩ := follows.first order found
      have suit := suits _ _ reachable (follows.tracks.blank found blank)
      obtain ⟨anchored, done⟩ := exists_anchor_iff.mpr suit.inFrame
      obtain ⟨places, successorsFound⟩ :=
        (exists_successors_iff distinct).mpr ⟨suit.lands, suit.fits⟩
      have accepted := arrive_eq_ok_iff.mpr
        ⟨done, rfl, suit.notBelow, successorsFound⟩
      rw [arrived] at accepted
      simp at accepted

end Visits

def start (routine : Routine) : Walk where
  entries := routine.clearDepths.entries
  pending := [(0, 0)]

theorem blank_start {routine : Routine} {index : Nat} {entry : Entry}
    (found : (start routine).entries[index]? = some entry) :
    entry.depth = none ∧ routine.instrs[index]? = some entry.instr := by
  simp only [start, Routine.clearDepths, List.getElem?_map,
    Option.map_eq_some_iff] at found
  obtain ⟨original, located, rfl⟩ := found
  simp [Routine.instrs, located]

theorem tracks_start (routine : Routine) :
    Tracks routine.instrs (start routine).entries where
  length_eq := by simp [start, Routine.clearDepths, Routine.instrs]
  blank found _ := (blank_start found).2
  anchored found known := by simp [(blank_start found).1] at known

theorem closed_start (routine : Routine) :
    Closed routine.instrs (start routine) where
  tracks := tracks_start routine
  start := .inl (by simp [start])
  onward found known := by simp [(blank_start found).1] at known

theorem follows_start (routine : Routine) {depth : Nat → Int}
    (zero : depth 0 = 0) :
    Follows routine.instrs depth (start routine) where
  tracks := tracks_start routine
  waiting waiting _ := by
    simp only [start, List.mem_singleton, Prod.mk.injEq] at waiting
    obtain ⟨rfl, rfl⟩ := waiting
    exact ⟨.refl, zero.symm⟩
  recorded found known := by simp [(blank_start found).1] at known

section Finished

variable {code : List Instr} {walk : Walk} (closed : Closed code walk)
  (finished : walk.pending = []) (distinct : (labels code).Nodup)

include finished in
theorem Settled.depth_eq {place : Nat} {incoming : Int} {entry : Entry}
    (settled : Settled walk place incoming)
    (found : walk.entries[place]? = some entry) :
    entry.depth = some incoming := by
  rcases settled with waiting | recorded
  · simp [finished] at waiting
  · exact recorded entry found

include closed in
theorem Closed.exists_entry {place : Nat} (inside : place < code.length) :
    ∃ entry, walk.entries[place]? = some entry :=
  ⟨_, List.getElem?_eq_getElem (closed.tracks.length_eq ▸ inside)⟩

include closed finished distinct

/-- What a finished walk has recorded is closed under the edges. -/
theorem Closed.recorded_of_edge {index place : Nat} {entry : Entry}
    {incoming : Int} (found : walk.entries[index]? = some entry)
    (known : entry.depth = some incoming) (edge : Edge code index place) :
    ∃ next, walk.entries[place]? = some next ∧
      next.depth = some (incoming + entry.instr.stackChange) := by
  obtain ⟨-, places, successorsFound, onward⟩ := closed.onward found known
  obtain ⟨instr, here, done⟩ := closed.tracks.anchored found known
  rw [successors_of_anchor done] at successorsFound
  have member := (mem_successors_iff distinct here successorsFound
    edge.lt_length).mpr edge
  obtain ⟨next, nextFound⟩ := closed.exists_entry edge.lt_length
  exact ⟨next, nextFound, (onward place member).depth_eq finished nextFound⟩

theorem Closed.recorded_of_reachable {index : Nat}
    (reachable : Reachable code index) (inside : index < code.length) :
    ∃ entry incoming, walk.entries[index]? = some entry ∧
      entry.depth = some incoming := by
  induction reachable with
  | refl =>
      obtain ⟨entry, found⟩ := closed.exists_entry inside
      exact ⟨entry, 0, found, closed.start.depth_eq finished found⟩
  | tail _ edge ih =>
      obtain ⟨entry, incoming, found, known⟩ := ih edge.source_lt_length
      obtain ⟨next, nextFound, nextKnown⟩ :=
        closed.recorded_of_edge finished distinct found known edge
      exact ⟨next, _, nextFound, nextKnown⟩

/-- The depths that a finished walk has recorded suit every reachable
instruction. -/
theorem Closed.wellFormed : WellFormed code := by
  -- Behind the end of the code the depth is of no interest.
  let depth (index : Nat) : Int :=
    ((walk.entries[index]?.bind (·.depth)).getD 0)
  have depth_eq {place : Nat} {incoming : Int} {entry : Entry}
      (found : walk.entries[place]? = some entry)
      (known : entry.depth = some incoming) : depth place = incoming := by
    simp [depth, found, known]
  refine ⟨distinct, depth, ?_, ?_⟩
  · cases first : walk.entries[0]? with
    | none => simp [depth, first]
    | some entry => exact depth_eq first (closed.start.depth_eq finished first)
  intro index instr reachable here
  obtain ⟨entry, incoming, found, known⟩ :=
    closed.recorded_of_reachable finished distinct reachable
      (List.getElem?_eq_some_iff.mp here).1
  obtain ⟨notBelow, places, successorsFound, -⟩ := closed.onward found known
  obtain ⟨original, same, done⟩ := closed.tracks.anchored found known
  obtain rfl := Option.some.inj (here.symm.trans same)
  rw [successors_of_anchor done] at successorsFound
  rw [stackChange_of_anchor done] at notBelow
  obtain ⟨lands, fits⟩ := (exists_successors_iff distinct).mp
    ⟨places, successorsFound⟩
  refine ⟨?_, ?_, lands, fits, ?_⟩
  · rwa [depth_eq found known]
  · intro place edge
    obtain ⟨next, nextFound, nextKnown⟩ :=
      closed.recorded_of_edge finished distinct found known edge
    rw [depth_eq nextFound nextKnown, depth_eq found known,
      stackChange_of_anchor done]
  · rw [depth_eq found known]
    exact exists_anchor_iff.mp ⟨_, done⟩

end Finished

@[simp]
theorem instrs_clearDepths (routine : Routine) :
    routine.clearDepths.instrs = routine.instrs := by
  simp [Routine.clearDepths, Routine.instrs]

section Analyses

variable {add : Adder} {routine : Routine} {final : Walk}

theorem measureDepthsBy_of_repeatedLabel? {label : Label}
    (repeated : repeatedLabel? routine.instrs = some label) :
    routine.measureDepthsBy add =
      (.error (.defect (.duplicateLabel label)), routine.clearDepths) := by
  simp only [Routine.measureDepthsBy, instrs_clearDepths, repeated]

theorem measureDepthsBy_of_failure {failure : Failure}
    (distinct : (labels routine.instrs).Nodup)
    (ended : explore add routine.instrs (start routine) =
      (final, some failure)) :
    routine.measureDepthsBy add =
      (.error failure, { routine with entries := final.entries }) := by
  unfold start at ended
  simp only [Routine.measureDepthsBy, instrs_clearDepths,
    repeatedLabel?_eq_none_iff.mpr distinct, ended]
  rfl

theorem closed_of_finished [add.Exact]
    (ended : explore add routine.instrs (start routine) = (final, none)) :
    Closed routine.instrs final ∧ final.pending = [] :=
  explore_induction (fun _ _ visit => visit.closed) (closed_start routine)
    ended

def analysisOf (final : Walk) : Analysis where
  maxDepth := final.deepest.toNat
  removed := unvisited final.entries
  diagnostics :=
    if unvisited final.entries = 0 then []
    else
      [.note s!"removed {unvisited final.entries} unreachable instruction(s)"]

theorem measureDepthsBy_of_finished (distinct : (labels routine.instrs).Nodup)
    (ended : explore add routine.instrs (start routine) = (final, none)) :
    routine.measureDepthsBy add =
      (.ok (analysisOf final),
        { { routine with entries := final.entries }.retain (·.depth.isSome)
          with maxDepth := final.deepest.toNat }) := by
  unfold start at ended
  simp only [Routine.measureDepthsBy, instrs_clearDepths,
    repeatedLabel?_eq_none_iff.mpr distinct, ended]
  rfl

/-- An accepted routine has distinct labels and a finished walk, and what is
left of it are the entries that the walk has reached. -/
theorem finished_of_measureDepthsBy {analysis : Analysis} {measured : Routine}
    (accepted : routine.measureDepthsBy add = (.ok analysis, measured)) :
    (labels routine.instrs).Nodup ∧
      ∃ final, explore add routine.instrs (start routine) = (final, none) ∧
        analysis = analysisOf final ∧
        measured =
          { { routine with entries := final.entries }.retain (·.depth.isSome)
            with maxDepth := final.deepest.toNat } := by
  cases repeated : repeatedLabel? routine.instrs with
  | some label =>
      simp [measureDepthsBy_of_repeatedLabel? repeated] at accepted
  | none =>
      have distinct := repeatedLabel?_eq_none_iff.mp repeated
      refine ⟨distinct, ?_⟩
      obtain ⟨final, failure?, ended⟩ :
          ∃ final failure?, explore add routine.instrs (start routine) =
            (final, failure?) := ⟨_, _, rfl⟩
      cases failure? with
      | some failure =>
          simp [measureDepthsBy_of_failure distinct ended] at accepted
      | none =>
          rw [measureDepthsBy_of_finished distinct ended] at accepted
          obtain ⟨same, left⟩ := Prod.mk.inj accepted
          exact ⟨final, ended, (Except.ok.inj same).symm, left.symm⟩

/-- Where sums have no number, the analysis fails.  Otherwise it is the one in
integers. -/
theorem measureDepthsBy_integers_or_overflow (add : Adder) [add.Exact]
    (routine : Routine) :
    routine.measureDepthsBy add = routine.measureDepthsBy .integers ∨
      (routine.measureDepthsBy add).1 = .error (.fault .overflow) := by
  cases repeated : repeatedLabel? routine.instrs with
  | some label =>
      rw [measureDepthsBy_of_repeatedLabel? repeated,
        measureDepthsBy_of_repeatedLabel? repeated]
      exact .inl rfl
  | none =>
      have distinct := repeatedLabel?_eq_none_iff.mp repeated
      rcases explore_integers_or_overflow add routine.instrs (start routine)
        with same | overflow
      · rw [Routine.measureDepthsBy, Routine.measureDepthsBy]
        unfold start at same
        simp only [instrs_clearDepths, repeated, same, true_or]
      · rw [measureDepthsBy_of_failure distinct (Prod.ext rfl overflow)]
        exact .inr rfl

/-- The analysis in words accepts a routine exactly if the one in integers does
and the greatest depth fits a word. -/
theorem measureDepths_eq_ok_iff {analysis : Analysis} {left : Routine} :
    routine.measureDepths = (.ok analysis, left) ↔
      routine.measureDepthsBy .integers = (.ok analysis, left) ∧
        analysis.maxDepth ≤ 2147483647 := by
  constructor
  · intro accepted
    rcases measureDepthsBy_integers_or_overflow .words routine with
      same | overflow
    · refine ⟨same ▸ accepted, ?_⟩
      obtain ⟨-, final, ended, rfl, -⟩ := finished_of_measureDepthsBy accepted
      have highest : final.deepest ≤ 2147483647 :=
        (@explore_induction _ _ _ _ (fun walk => walk.deepest ≤ 2147483647)
          (fun _ _ visit => visit.deepest_le_word) (by simp [start]) ended).1
      exact Int.toNat_le.mpr highest
    · have failed : (routine.measureDepths).1 = .error (.fault .overflow) :=
        overflow
      rw [accepted] at failed
      cases failed
  · rintro ⟨accepted, fits⟩
    obtain ⟨distinct, final, ended, rfl, rfl⟩ :=
      finished_of_measureDepthsBy accepted
    exact measureDepthsBy_of_finished distinct
      (explore_words_of_finished ended (Int.toNat_le.mp fits))

end Analyses

end StackDepth

end StackAssembler
