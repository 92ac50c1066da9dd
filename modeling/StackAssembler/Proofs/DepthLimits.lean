import StackAssembler.Proofs.ParallelRuns
import Mathlib

/-!
# How deep a walk can get

A loop adds nothing to a depth without limit: the walk enters every instruction
once, and an instruction changes the depth by what fits a 16-bit word.  So no
depth of a walk exceeds 65535 for each instruction that has been entered, and
none drops below zero by more than that before the walk stops.

The 32-bit words that hold depths have room for 32768 instructions.  On code of
that length no sum of the walk leaves their range, so it makes no difference
whether sums are those of integers, fail at the ends of the range or wrap around
there.
-/

namespace StackAssembler

theorem Instr.stackChange_bounds (instr : Instr) :
    -65535 ≤ instr.stackChange ∧ instr.stackChange ≤ 65535 := by
  have word (count : UInt16) : (count.toNat : Int) ≤ 65535 := by
    have below := count.toNat_lt
    omega
  cases instr with
  | pop count | push count | call _ _ count | alloc _ _ count =>
      have bound := word count
      simp only [stackChange]
      omega
  | _ => simp [stackChange, pointerUnits]

namespace StackDepth

open Flow Relation

/-! ## The numbers of a walk -/

/-- The sums that the visit of an instruction works out: the slot that an
address relative to the stack's top means, and the depth behind the
instruction. -/
def sumsAt (depth : Int) (instr : Instr) : List Int :=
  match instr with
  | .pushStackAddr distance =>
      [distance.toInt + depth, depth + instr.stackChange]
  | _ => [depth + instr.stackChange]

/-- The sums that the next visit of a walk works out.  A visit to a known place
or behind the code works out none. -/
def Walk.nextSums (walk : Walk) : List Int :=
  match walk.pending with
  | [] => []
  | (index, depth) :: _ =>
      match walk.entries[index]? with
      | none => []
      | some entry =>
          if entry.depth.isNone then sumsAt depth entry.instr else []

/-- All numbers of a walk: the depths that are pending and those on record, the
sums of the next visit, and the greatest depth so far. -/
def Walk.numbers (walk : Walk) : List Int :=
  walk.pending.map (·.2) ++ walk.entries.filterMap (·.depth) ++
    walk.nextSums ++ [walk.deepest]

/-- A number that a walk over so many instructions may come to. -/
def InBounds (count : Nat) (value : Int) : Prop :=
  -65535 ≤ value ∧ value ≤ 65535 * count

theorem InBounds.fitsWord {count : Nat} {value : Int}
    (within : InBounds count value) (short : count ≤ 32768) :
    FitsWord value := by
  obtain ⟨low, high⟩ := within
  constructor
  · omega
  · omega

/-! ## The bound grows with the entered instructions -/

def entered (entries : List Entry) : Nat :=
  entries.countP (·.depth.isSome)

theorem entered_set {entries : List Entry} {index : Nat} {entry new : Entry}
    (found : entries[index]? = some entry) (blank : entry.depth = none)
    (known : new.depth.isSome) :
    entered (entries.set index new) = entered entries + 1 := by
  obtain ⟨inside, rfl⟩ := List.getElem?_eq_some_iff.mp found
  rw [entered, List.countP_set inside]
  simp [blank, known, entered]

theorem entered_lt_length {entries : List Entry} {index : Nat} {entry : Entry}
    (found : entries[index]? = some entry) (blank : entry.depth = none) :
    entered entries < entries.length := by
  refine List.countP_lt_length_iff.mpr ⟨entry, List.mem_of_getElem? found, ?_⟩
  simp [blank]

/-- The depths of a walk are not below zero and not above 65535 for each
instruction that it has entered. -/
structure Limited (count : Nat) (walk : Walk) : Prop where
  length_eq : walk.entries.length = count
  pending : ∀ item ∈ walk.pending,
    0 ≤ item.2 ∧ item.2 ≤ 65535 * entered walk.entries
  recorded : ∀ {entry : Entry} {depth : Int}, entry ∈ walk.entries →
    entry.depth = some depth →
      0 ≤ depth ∧ depth ≤ 65535 * entered walk.entries
  deepest : 0 ≤ walk.deepest ∧ walk.deepest ≤ 65535 * entered walk.entries

theorem limited_start (routine : Routine) :
    Limited routine.instrs.length (start routine) where
  length_eq := (tracks_start routine).length_eq
  pending := by
    intro item waiting
    obtain rfl := List.mem_singleton.mp waiting
    constructor
    · rfl
    · omega
  recorded member known := by
    obtain ⟨index, found⟩ := List.mem_iff_getElem?.mp member
    simp [(blank_start found).1] at known
  deepest := ⟨le_refl _, by simp [start]⟩

section Visits

variable {add : Adder} {code : List Instr} {walk next : Walk} {count : Nat}

theorem Visit.limited [add.Exact] (visit : Visit add code walk next)
    (before : Limited count walk) : Limited count next := by
  cases visit with
  | pass order known =>
      refine ⟨before.length_eq, ?_, before.recorded, before.deepest⟩
      intro item waiting
      exact before.pending item (by simp [order, waiting])
  | @enter index depth after pending entry anchored places order found blank
      arrived =>
      obtain ⟨-, rfl, notBelow, -⟩ := arrive_exact arrived
      have grown : entered (walk.entries.set index
          { entry with instr := anchored, depth := some depth }) =
            entered walk.entries + 1 := entered_set found blank rfl
      have incoming := before.pending (index, depth) (by simp [order])
      have change := entry.instr.stackChange_bounds
      -- One more entered instruction makes room for one more change of depth.
      have raised {value : Int}
          (bound : value ≤ 65535 * entered walk.entries + 65535) :
          value ≤ 65535 * (entered walk.entries + 1 : Nat) := by
        push_cast
        omega
      constructor
      · simpa using before.length_eq
      · intro item waiting
        rw [grown]
        rcases List.mem_append.mp waiting with added | later
        · obtain ⟨place, -, rfl⟩ := List.mem_map.mp added
          exact ⟨notBelow, raised (by omega)⟩
        · have bound := before.pending item (by simp [order, later])
          exact ⟨bound.1, raised (by omega)⟩
      · intro other recorded member known
        rw [grown]
        rcases List.mem_or_eq_of_mem_set member with kept | rfl
        · have bound := before.recorded kept known
          exact ⟨bound.1, raised (by omega)⟩
        · obtain rfl := Option.some.inj known
          exact ⟨incoming.1, raised (by omega)⟩
      · have deepest := before.deepest
        rw [grown]
        exact ⟨le_max_of_le_left deepest.1,
          raised (max_le (by omega) (by omega))⟩

theorem limited_of_visits [add.Exact]
    (visits : ReflTransGen (Visit add code) walk next)
    (before : Limited count walk) : Limited count next := by
  induction visits with
  | refl => exact before
  | tail _ visit ih => exact visit.limited ih

theorem Limited.entered_le (limited : Limited count walk) :
    entered walk.entries ≤ count :=
  limited.length_eq ▸ List.countP_le_length

/-- The next visit enters one more instruction, so its sums stay within the
bound for the whole code. -/
theorem Limited.within_sumsAt (limited : Limited count walk) {index : Nat}
    {depth : Int} {pending : List (Nat × Int)} {entry : Entry}
    (order : walk.pending = (index, depth) :: pending)
    (found : walk.entries[index]? = some entry) (blank : entry.depth = none) :
    ∀ value ∈ sumsAt depth entry.instr, InBounds count value := by
  have incoming := limited.pending (index, depth) (by simp [order])
  have room : entered walk.entries < count :=
    limited.length_eq ▸ entered_lt_length found blank
  have change := entry.instr.stackChange_bounds
  have behind : InBounds count (depth + entry.instr.stackChange) := by
    constructor
    · omega
    · omega
  intro value member
  unfold sumsAt at member
  split at member
  · rename_i distance same
    rcases List.mem_cons.mp member with rfl | last
    · have low := distance.le_toInt
      have high := distance.toInt_lt
      constructor
      · omega
      · omega
    · rw [List.mem_singleton.mp last]
      exact behind
  · rw [List.mem_singleton.mp member]
    exact behind

theorem Limited.within_nextSums (limited : Limited count walk) :
    ∀ value ∈ walk.nextSums, InBounds count value := by
  intro value member
  unfold Walk.nextSums at member
  split at member
  · cases member
  · rename_i order
    split at member
    · cases member
    · rename_i entry found
      split at member
      · rename_i blank
        exact limited.within_sumsAt order found (Option.isNone_iff_eq_none.mp
          blank) value member
      · cases member

/-- All numbers of a limited walk are within the bound for the whole code. -/
theorem Limited.within_numbers (limited : Limited count walk) :
    ∀ value ∈ walk.numbers, InBounds count value := by
  have entered_le := limited.entered_le
  have within {value : Int}
      (bound : 0 ≤ value ∧ value ≤ 65535 * entered walk.entries) :
      InBounds count value := by
    constructor
    · omega
    · omega
  intro value member
  simp only [Walk.numbers, List.mem_append, List.mem_map, List.mem_filterMap,
    List.mem_singleton] at member
  rcases member with ((⟨item, waiting, rfl⟩ | ⟨entry, inside, known⟩) | sum) |
    rfl
  · exact within (limited.pending item waiting)
  · exact within (limited.recorded inside known)
  · exact limited.within_nextSums value sum
  · exact within limited.deepest

/-- At the end of a walk all depths on record are within the bound, also the
one at which an instruction was refused. -/
theorem Limited.within_recorded (limited : Limited count walk)
    {result : Walk × Option Failure} (halts : Halts add code walk result)
    {entry : Entry} {depth : Int} (member : entry ∈ result.1.entries)
    (known : entry.depth = some depth) : InBounds count depth := by
  have among {value : Int} (listed : value ∈ walk.pending.map (·.2) ∨
      value ∈ walk.entries.filterMap (·.depth)) : InBounds count value :=
    limited.within_numbers value (by simp only [Walk.numbers,
      List.mem_append, listed, true_or])
  cases halts with
  | done | conflict =>
      exact among (.inr (List.mem_filterMap.mpr ⟨entry, member, known⟩))
  | refused order found blank arrived =>
      rcases List.mem_or_eq_of_mem_set member with kept | rfl
      · exact among (.inr (List.mem_filterMap.mpr ⟨entry, kept, known⟩))
      · obtain rfl := Option.some.inj known
        exact among (.inl (by simp [order]))

end Visits

/-! ## Depths in 32-bit words -/

/-- A number as a signed 32-bit word keeps it. -/
def wrap (value : Int) : Int :=
  (Int32.ofInt value).toInt

theorem FitsWord.wrap_eq {value : Int} (fits : FitsWord value) :
    wrap value = value := by
  obtain ⟨low, high⟩ := fits
  exact Int32.toInt_ofInt_of_le (by omega) (by omega)

namespace Adder

/-- Words that wrap around have the sum that is left then. -/
def wrapping : Adder := fun left right => some (wrap (left + right))

/-- An adder has every sum that fits a word. -/
def HasWords (add : Adder) : Prop :=
  ∀ {left right : Int}, FitsWord (left + right) →
    add left right = some (left + right)

theorem hasWords_words : HasWords words := fun fits => if_pos fits

theorem hasWords_wrapping : HasWords wrapping := fun fits =>
  congrArg some fits.wrap_eq

end Adder

section Words

variable {add : Adder} (hasWords : add.HasWords) {code : List Instr}
  {walk : Walk} {count : Nat}

include hasWords

theorem total_of_fits {left right : Int} (fits : FitsWord (left + right)) :
    total add left right = total .integers left right := by
  rw [total, hasWords fits]
  rfl

theorem arrive_of_fits {index : Nat} {depth : Int} {instr : Instr}
    (fits : ∀ value ∈ sumsAt depth instr, FitsWord value) :
    arrive add code index depth instr =
      arrive .integers code index depth instr := by
  have behind : FitsWord (depth + instr.stackChange) := by
    apply fits
    unfold sumsAt
    split
    · exact List.mem_cons_of_mem _ (List.mem_singleton_self _)
    · exact List.mem_singleton_self _
  have anchors : anchor add depth instr = anchor .integers depth instr := by
    cases instr with
    | pushStackAddr distance =>
        have sum : FitsWord (distance.toInt + depth) :=
          fits _ List.mem_cons_self
        rw [anchor, total_of_fits hasWords sum]
        rfl
    | _ => rfl
  unfold arrive
  rw [anchors]
  cases done : anchor .integers depth instr with
  | error failure => rfl
  | ok anchored =>
      have after : depthAfter add depth anchored =
          depthAfter .integers depth anchored := by
        rw [depthAfter, stackChange_of_anchor done,
          total_of_fits hasWords behind, ← stackChange_of_anchor done]
        rfl
      simp only [after]

theorem Limited.arrive_eq (limited : Limited count walk)
    (short : count ≤ 32768) {index : Nat} {depth : Int}
    {pending : List (Nat × Int)} {entry : Entry}
    (order : walk.pending = (index, depth) :: pending)
    (found : walk.entries[index]? = some entry) (blank : entry.depth = none) :
    arrive add code index depth entry.instr =
      arrive .integers code index depth entry.instr :=
  arrive_of_fits hasWords fun value member =>
    (limited.within_sumsAt order found blank value member).fitsWord short

/-- A walk over at most 32768 instructions is the walk in integers. -/
theorem Limited.explore_eq (limited : Limited count walk)
    (short : count ≤ 32768) :
    explore add code walk = explore .integers code walk := by
  obtain ⟨last, run, halts⟩ := explore_run .integers code walk
  have reached : Limited count last ∧
      explore add code walk = explore add code last := by
    clear halts
    induction run with
    | refl => exact ⟨limited, rfl⟩
    | tail _ visit ih =>
        refine ⟨visit.limited ih.1, ih.2.trans (explore_of_visit ?_)⟩
        cases visit with
        | pass order known => exact .pass order known
        | enter order found blank arrived =>
            rw [← ih.1.arrive_eq hasWords short order found blank] at arrived
            exact .enter order found blank arrived
  rw [reached.2]
  generalize explore .integers code walk = result at halts ⊢
  cases halts with
  | done order => exact explore_of_halts (.done order)
  | conflict order found known differs =>
      exact explore_of_halts (.conflict order found known differs)
  | refused order found blank arrived =>
      rw [← reached.1.arrive_eq hasWords short order found blank] at arrived
      exact explore_of_halts (.refused order found blank arrived)

end Words

theorem exists_defect_of_arrive {code : List Instr} {index : Nat} {depth : Int}
    {instr left : Instr} {failure : Failure}
    (refused : arrive .integers code index depth instr =
      (left, .error failure)) : ∃ defect, failure = .defect defect := by
  unfold arrive at refused
  split at refused
  · rename_i same
    obtain rfl := Except.error.inj (Prod.mk.inj refused).2
    unfold anchor at same
    split at same
    · simp only [total, Adder.integers, bind, Except.bind] at same
      split at same
      · cases same
      · exact ⟨_, (Except.error.inj same).symm⟩
    · cases same
  · have outcome := (Prod.mk.inj refused).2
    simp only [depthAfter, total, Adder.integers, bind, Except.bind]
      at outcome
    split at outcome
    · rename_i below
      split at below
      · exact ⟨_, (Except.error.inj outcome) ▸
          (Except.error.inj below).symm⟩
      · cases below
    · split at outcome
      · rename_i lost
        obtain rfl := Except.error.inj outcome
        unfold Except.mapError at lost
        split at lost
        · exact ⟨_, (Except.error.inj lost).symm⟩
        · cases lost
      · cases outcome

theorem exists_defect_of_measureDepthsBy {routine : Routine}
    {failure : Failure}
    (failed : (routine.measureDepthsBy .integers).1 = .error failure) :
    ∃ defect, failure = .defect defect := by
  cases repeated : repeatedLabel? routine.instrs with
  | some label =>
      rw [measureDepthsBy_of_repeatedLabel? repeated] at failed
      exact ⟨_, (Except.error.inj failed).symm⟩
  | none =>
      have distinct := repeatedLabel?_eq_none_iff.mp repeated
      obtain ⟨last, -, halts⟩ :=
        explore_run .integers routine.instrs (start routine)
      rcases ended : explore .integers routine.instrs (start routine) with
        ⟨final, failure?⟩
      rw [ended] at halts
      cases halts with
      | done =>
          rw [measureDepthsBy_of_finished distinct ended] at failed
          cases failed
      | conflict =>
          rw [measureDepthsBy_of_failure distinct ended] at failed
          exact ⟨_, (Except.error.inj failed).symm⟩
      | refused order found blank arrived =>
          rw [measureDepthsBy_of_failure distinct ended] at failed
          obtain rfl := Except.error.inj failed
          exact exists_defect_of_arrive arrived

/-! ## The analysis stays within the limits -/

/-- The walks that the analysis of a routine passes through, visit by visit. -/
def Passes (add : Adder) (routine : Routine) (walk : Walk) : Prop :=
  ReflTransGen (Visit add routine.instrs) (start routine) walk

/-- The depths that the analysis leaves on record were recorded by its walk. -/
theorem recorded_of_measureDepthsBy {add : Adder} {routine : Routine}
    {entry : Entry} {depth : Int}
    (member : entry ∈ (routine.measureDepthsBy add).2.entries)
    (known : entry.depth = some depth) :
    entry ∈ (explore add routine.instrs (start routine)).1.entries := by
  cases repeated : repeatedLabel? routine.instrs with
  | some label =>
      rw [measureDepthsBy_of_repeatedLabel? repeated] at member
      obtain ⟨index, found⟩ := List.mem_iff_getElem?.mp member
      have blank := (@blank_start routine index entry found).1
      cases blank.symm.trans known
  | none =>
      have distinct := repeatedLabel?_eq_none_iff.mp repeated
      cases ended : explore add routine.instrs (start routine) with
      | mk final failure? =>
          cases failure? with
          | some failure =>
              rwa [measureDepthsBy_of_failure distinct ended] at member
          | none =>
              rw [measureDepthsBy_of_finished distinct ended] at member
              exact (List.mem_filter.mp member).1

theorem measureDepthsBy_of_short {add : Adder} (hasWords : add.HasWords)
    {routine : Routine} (short : routine.instrs.length ≤ 32768) :
    routine.measureDepthsBy add = routine.measureDepthsBy .integers := by
  have same : explore add routine.instrs (start routine) =
      explore .integers routine.instrs (start routine) :=
    (limited_start routine).explore_eq hasWords short
  unfold start at same
  rw [Routine.measureDepthsBy, Routine.measureDepthsBy]
  simp only [instrs_clearDepths, same]

/-- Depths are bounded by the length of the code, whatever loops it has.  With
any exact adder, all numbers of all walks that the analysis of a routine passes
through, the depths that it leaves on record and the greatest depth that it
reports are at least -65535 and at most 65535 for each instruction, also if it
fails.  On up to 32768 instructions all of them fit a signed 32-bit word; then
the analysis in words is the one in integers and does not overflow, and a walk
whose sums wrap around at the ends of the words is the same walk. -/
theorem measureDepths_stays_within_limits (routine : Routine) (add : Adder)
    [add.Exact] :
    (∃ last, Passes add routine last ∧ Halts add routine.instrs last
      (explore add routine.instrs (start routine))) ∧
    (∀ walk, Passes add routine walk →
      ∀ value ∈ walk.numbers, InBounds routine.instrs.length value) ∧
    (∀ entry ∈ (routine.measureDepthsBy add).2.entries, ∀ depth,
      entry.depth = some depth → InBounds routine.instrs.length depth) ∧
    (∀ analysis, (routine.measureDepthsBy add).1 = .ok analysis →
      InBounds routine.instrs.length analysis.maxDepth) ∧
    (routine.instrs.length ≤ 32768 →
      (∀ walk, Passes add routine walk →
        ∀ value ∈ walk.numbers, FitsWord value) ∧
      routine.measureDepths = routine.measureDepthsBy .integers ∧
      routine.measureDepths.1 ≠ .error (.fault .overflow) ∧
      explore .wrapping routine.instrs (start routine) =
        explore .integers routine.instrs (start routine)) := by
  have limited {walk : Walk} (passes : Passes add routine walk) :
      Limited routine.instrs.length walk :=
    limited_of_visits passes (limited_start routine)
  obtain ⟨last, passes, halts⟩ :=
    explore_run add routine.instrs (start routine)
  refine ⟨⟨last, passes, halts⟩, ?_, ?_, ?_, ?_⟩
  · intro walk passes
    exact (limited passes).within_numbers
  · intro entry member depth known
    exact (limited passes).within_recorded halts
      (recorded_of_measureDepthsBy member known) known
  · intro analysis accepted
    obtain ⟨-, final, ended, rfl, -⟩ :=
      finished_of_measureDepthsBy (Prod.ext accepted rfl)
    rw [ended] at halts
    cases halts with
    | done order =>
        have reported : ((analysisOf last).maxDepth : Int) = last.deepest :=
          Int.toNat_of_nonneg (limited passes).deepest.1
        rw [reported]
        exact (limited passes).within_numbers _ (by simp [Walk.numbers])
  · intro short
    have same : routine.measureDepths = routine.measureDepthsBy .integers :=
      measureDepthsBy_of_short Adder.hasWords_words short
    refine ⟨?_, same, ?_, (limited_start routine).explore_eq
      Adder.hasWords_wrapping short⟩
    · intro walk passes value member
      exact ((limited passes).within_numbers value member).fitsWord short
    · rw [same]
      intro overflow
      obtain ⟨_, ⟨⟩⟩ := exists_defect_of_measureDepthsBy overflow

/-- Two instructions that reserve as much as one instruction can. -/
def piling : Routine :=
  Routine.ofList [.push 65535, .push 65535]

/-- The bound is met. -/
theorem measureDepths_stays_within_limits_piling :
    piling.measureDepths.1 = .ok ⟨131070, 0, []⟩ ∧
    131070 = 65535 * piling.instrs.length ∧
    InBounds piling.instrs.length 131070 ∧
    piling.instrs.length ≤ 32768 ∧
    piling.measureDepths = piling.measureDepthsBy .integers := by
  have accepted : piling.measureDepths.1 = .ok ⟨131070, 0, []⟩ := by cbv
  obtain ⟨-, -, -, within, short⟩ :=
    measureDepths_stays_within_limits piling .words
  exact ⟨accepted, rfl, within _ accepted, by decide,
    (short (by decide)).2.1⟩

end StackDepth

end StackAssembler
