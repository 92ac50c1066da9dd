import StackAssembler.Proofs.CueBlindness
import StackAssembler.Proofs.RepeatedWalks

/-!
# Analysing a routine again

What an analysis leaves is analysed again with the same result.  After a defect
nothing is removed, and the walk over what is left repeats itself.  After a
finished walk the entries that were not reached are gone.  If jumps name labels,
the walk never asks for them: the places it is sent to are all recorded in the
end, and labels, successors and jump tables are found at the ranks of the places
where they were.
-/

namespace StackAssembler

namespace StackDepth

open Flow Relation

/-! ## Leaving out what is not recorded -/

/-- An entry stands at a place and has a depth. -/
def Kept (left : List Entry) (place : Nat) : Prop :=
  ∃ entry, left[place]? = some entry ∧ entry.depth.isSome = true

section Thinning

variable {Item : Type}

/-- The items beside the entries that have a depth. -/
def thinned : List Entry → List Item → List Item
  | entry :: left, item :: items =>
      if entry.depth.isSome then item :: thinned left items
      else thinned left items
  | _, _ => []

theorem rank_cons (entry : Entry) (left : List Entry) (place : Nat) :
    rank (entry :: left) (place + 1) =
      rank left place + if entry.depth.isSome then 1 else 0 := by
  simp [rank, List.countP_cons]

variable {left : List Entry} {items : List Item} {item : Item} {place : Nat}

theorem thinned_sublist (left : List Entry) (items : List Item) :
    (thinned left items).Sublist items := by
  fun_induction thinned left items with
  | case1 entry left item items known ih => exact ih.cons_cons item
  | case2 entry left item items unknown ih => exact ih.cons item
  | case3 => exact List.nil_sublist _

theorem thinned_map {Other : Type} (view : Item → Other) (left : List Entry)
    (items : List Item) :
    thinned left (items.map view) = (thinned left items).map view := by
  fun_induction thinned left items with
  | case1 entry left item items known ih => simp [thinned, known, ih]
  | case2 entry left item items unknown ih => simp [thinned, unknown, ih]
  | case3 left items other =>
      cases left with
      | nil => simp [thinned]
      | cons entry left =>
          cases items with
          | nil => simp [thinned]
          | cons item items =>
              exact absurd rfl (other entry left item items rfl)

theorem thinned_self (left : List Entry) :
    thinned left left = left.filter (·.depth.isSome) := by
  induction left with
  | nil => rfl
  | cons entry left ih => simp [thinned, ih, List.filter_cons]

theorem length_thinned (length_eq : left.length = items.length) :
    (thinned left items).length = rank left left.length := by
  induction left generalizing items with
  | nil => rfl
  | cons entry left ih =>
      cases items with
      | nil => cases length_eq
      | cons item items =>
          rw [List.length_cons, rank_cons, ← ih (Nat.succ.inj length_eq)]
          cases known : entry.depth.isSome <;> simp [thinned, known]

theorem getElem?_thinned (kept : Kept left place)
    (found : items[place]? = some item) :
    (thinned left items)[rank left place]? = some item := by
  obtain ⟨entry, there, known⟩ := kept
  induction left generalizing items place with
  | nil => cases there
  | cons head left ih =>
      cases items with
      | nil => cases found
      | cons first items =>
          cases place with
          | zero =>
              obtain rfl := Option.some.inj there
              obtain rfl := Option.some.inj found
              simp [thinned, known, rank]
          | succ place =>
              rw [List.getElem?_cons_succ] at there found
              have later := ih found there
              rw [rank_cons]
              cases headKnown : head.depth.isSome <;>
                simpa [thinned, headKnown] using later

theorem thinned_set (kept : Kept left place) (items : List Item)
    (item : Item) :
    thinned left (items.set place item) =
      (thinned left items).set (rank left place) item := by
  obtain ⟨entry, there, known⟩ := kept
  induction left generalizing items place with
  | nil => cases there
  | cons head left ih =>
      cases items with
      | nil => simp [thinned]
      | cons first items =>
          cases place with
          | zero =>
              obtain rfl := Option.some.inj there
              simp [thinned, known, rank]
          | succ place =>
              rw [List.getElem?_cons_succ] at there
              have later := ih items there
              rw [rank_cons]
              cases headKnown : head.depth.isSome <;>
                simp [thinned, headKnown, later]

theorem rank_le_rank (left : List Entry) {place later : Nat}
    (order : place ≤ later) : rank left place ≤ rank left later :=
  (List.take_sublist_take_left order).countP_le

theorem rank_add {count : Nat}
    (kept : ∀ distance < count, Kept left (place + distance)) :
    rank left (place + count) = rank left place + count := by
  induction count with
  | zero => rfl
  | succ count ih =>
      obtain ⟨entry, there, known⟩ := kept count (Nat.lt_succ_self count)
      rw [← Nat.add_assoc, rank_succ there known,
        ih fun distance below => kept distance (Nat.lt_succ_of_lt below)]
      rfl

theorem getElem?_thinned_of_le (length_eq : left.length = items.length)
    (beyond : left.length ≤ place) :
    (thinned left items)[rank left place]? = none := by
  rw [List.getElem?_eq_none_iff, length_thinned length_eq]
  exact rank_le_rank left beyond

end Thinning

/-! ## The walk over what is kept -/

section Successors

variable {code : List Instr} {left : List Entry} {index : Nat} {instr : Instr}
  {places : List Nat} (length_eq : left.length = code.length)
  (kept : Kept left index)

/-- Behind a kept entry the ranks go on by one. -/
theorem rank_behind (kept : Kept left index) :
    rank left (index + 1) = rank left index + 1 := by
  obtain ⟨entry, there, known⟩ := kept
  exact rank_succ there known

include length_eq kept

/-- A jump table whose rows are kept has the same rows without the rest of the
code. -/
theorem successors_thinned_table {slot : Slot} {fanOut : UInt32}
    (found : successors code index (.jumpPtr slot fanOut) = .ok places)
    (onward : ∀ place ∈ places, place < left.length → Kept left place) :
    successors (thinned left code) (rank left index) (.jumpPtr slot fanOut) =
      .ok (places.map (rank left)) := by
  rw [successors] at found
  split at found
  · rename_i fits
    obtain rfl := Except.ok.inj found
    have inside : index < left.length := by
      obtain ⟨entry, there, -⟩ := kept
      exact (List.getElem?_eq_some_iff.mp there).1
    have rows : ∀ distance < fanOut.toNat,
        Kept left (index + 1 + distance) := by
      intro distance below
      apply onward
      · rw [List.mem_range'_1]
        omega
      · omega
    have ranks : ∀ count ≤ fanOut.toNat,
        rank left (index + 1 + count) = rank left index + 1 + count := by
      intro count below
      rw [rank_add fun distance less => rows distance (less.trans_le below),
        rank_behind kept]
    have room : rank left index + 1 + fanOut.toNat ≤
        (thinned left code).length := by
      rw [length_thinned length_eq, ← ranks _ le_rfl]
      exact rank_le_rank left (by omega)
    rw [successors, if_pos (by omega)]
    congr 1
    apply List.ext_getElem
    · simp
    · intro count below _
      simp only [List.length_range'] at below
      simp [ranks count below.le]
  · cases found

variable (distinct : (labels code).Nodup)

include distinct

/-- Where an instruction leads to kept places, it leads to their ranks without
the rest of the code. -/
theorem successors_thinned (named : instr.namesLabel = true)
    (found : successors code index instr = .ok places)
    (onward : ∀ place ∈ places, place < left.length → Kept left place) :
    successors (thinned left code) (rank left index) instr =
      .ok (places.map (rank left)) := by
  by_cases table : ∃ slot fanOut, instr = .jumpPtr slot fanOut
  · obtain ⟨slot, fanOut, rfl⟩ := table
    exact successors_thinned_table length_eq kept found onward
  cases aimed : instr.target? with
  | none =>
      have noTable : ∀ slot fanOut, instr ≠ .jumpPtr slot fanOut :=
        fun slot fanOut same => table ⟨slot, fanOut, same⟩
      rw [successors_of_plain aimed noTable] at found ⊢
      obtain rfl := Except.ok.inj found
      split <;> simp [rank_behind kept]
  | some target =>
      rw [successors_of_target? aimed] at found ⊢
      cases target with
      | offset distance =>
          simp [Instr.namesLabel, aimed, Target.label?] at named
      | label name =>
          cases reached : labelIndex? code name with
          | none => simp [destination, reached, Except.map] at found
          | some marker =>
              simp only [destination, reached, Except.map,
                Except.ok.injEq] at found
              obtain rfl := found
              have marked := (labelIndex?_eq_some_iff.mp reached).1
              have markerKept : Kept left marker := by
                apply onward marker List.mem_cons_self
                rw [length_eq]
                exact (List.getElem?_eq_some_iff.mp marked).1
              have ranked := labelIndex?_of_getElem?
                (distinct.sublist (labels_sublist (thinned_sublist left code)))
                (getElem?_thinned markerKept marked)
              simp only [destination, ranked, Except.map, List.map_cons]
              split <;> simp [rank_behind kept]

end Successors

/-- A walk without the entries that have no depth in the end. -/
def Walk.thin (left : List Entry) (walk : Walk) : Walk where
  entries := thinned left walk.entries
  pending := walk.pending.map fun visit => (rank left visit.1, visit.2)
  deepest := walk.deepest

section Walks

variable {add : Adder} {code : List Instr} {walk next last : Walk}

theorem settled_of_visits
    (visits : ReflTransGen (Visit add code) walk next)
    {place : Nat} {depth : Int} (before : Settled walk place depth) :
    Settled next place depth := by
  induction visits with
  | refl => exact before
  | tail _ visit ih => exact visit.settled ih

/-- What is pending in a walk that finishes is kept in the end. -/
theorem kept_of_pending (visits : ReflTransGen (Visit add code) walk last)
    (finished : last.pending = []) {place : Nat} {depth : Int}
    (waiting : (place, depth) ∈ walk.pending)
    (inside : place < last.entries.length) : Kept last.entries place := by
  have settled := settled_of_visits visits (.inl waiting)
  have found := List.getElem?_eq_getElem inside
  exact ⟨_, found, by simp [settled.depth_eq finished found]⟩

/-- A visit of a walk that finishes is a visit without the entries that are not
kept. -/
theorem Visit.thin (visit : Visit add code walk next)
    (visits : ReflTransGen (Visit add code) next last)
    (finished : last.pending = []) (tracks : Tracks code walk.entries)
    (distinct : (labels code).Nodup)
    (named : ∀ instr ∈ code, instr.namesLabel = true) :
    Visit add (thinned last.entries code) (walk.thin last.entries)
      (next.thin last.entries) := by
  have persists := visit.persists.trans (persists_of_visits visits)
  cases visit with
  | @pass index depth pending order known =>
      refine .pass (by rw [Walk.thin, order]; rfl) ?_
      intro entry there
      cases found : walk.entries[index]? with
      | none =>
          have beyond := List.getElem?_eq_none_iff.mp found
          rw [persists.1] at beyond
          cases (getElem?_thinned_of_le persists.1.symm beyond).symm.trans there
      | some other =>
          have recorded := known other found
          have kept : Kept last.entries index :=
            ⟨other, persists.2 found recorded, by simp [recorded]⟩
          obtain rfl := Option.some.inj
            ((getElem?_thinned kept found).symm.trans there)
          exact recorded
  | @enter index depth after pending entry anchored places order found blank
      arrived =>
      have inside := (List.getElem?_eq_some_iff.mp found).1
      have kept : Kept last.entries index := by
        have recorded := (persists_of_visits visits).2
          (List.getElem?_set_self inside) rfl
        exact ⟨_, recorded, rfl⟩
      obtain ⟨done, added, notBelow, onward⟩ := arrive_eq_ok_iff.mp arrived
      have here := tracks.blank found blank
      have moved := successors_thinned
        (persists.1.symm.trans tracks.length_eq) kept distinct
        (named _ (List.mem_of_getElem? here)) onward fun place member =>
          kept_of_pending visits finished (List.mem_append_left _
            (List.mem_map_of_mem (List.mem_reverse.mpr member)))
      have arrivedThere := arrive_eq_ok_iff.mpr
        ⟨done, added, notBelow, moved⟩
      have visit : Visit add (thinned last.entries code)
          (walk.thin last.entries) _ :=
        .enter (by rw [Walk.thin, order]; rfl) (getElem?_thinned kept found)
          blank arrivedThere
      simpa [Walk.thin, thinned_set kept, Function.comp_def] using visit

/-- A walk that finishes is repeated without the entries that are not kept. -/
theorem explore_thin [add.Exact]
    (visits : ReflTransGen (Visit add code) walk last)
    (finished : last.pending = []) (tracks : Tracks code walk.entries)
    (distinct : (labels code).Nodup)
    (named : ∀ instr ∈ code, instr.namesLabel = true) :
    explore add (thinned last.entries code) (walk.thin last.entries) =
      (last.thin last.entries, none) := by
  induction visits using ReflTransGen.head_induction_on with
  | refl => exact explore_of_halts (.done (by simp [Walk.thin, finished]))
  | head visit rest ih =>
      have thin := visit.thin rest finished tracks distinct named
      exact (explore_of_visit thin).trans (ih (visit.tracks tracks))

end Walks

/-! ## The second analysis -/

section Analyses

variable {add : Adder} [add.Exact] {routine left : Routine} {final : Walk}

theorem touched_clearDepths (entries : List Entry) :
    List.Forall₂ Touched entries
      (entries.map fun entry => { entry with depth := none }) := by
  induction entries with
  | nil => exact .nil
  | cons entry entries ih => exact .cons ⟨rfl, .inl rfl⟩ ih

theorem touched_explore {failure? : Option Failure}
    (ended : explore add routine.instrs (start routine) =
      (final, failure?)) :
    List.Forall₂ Touched routine.entries final.entries := by
  obtain ⟨last, visits, halts⟩ := explore_run add routine.instrs (start routine)
  rw [ended] at halts
  apply halts.touched
  clear halts
  induction visits with
  | refl => exact touched_clearDepths routine.entries
  | tail _ visit ih => exact visit.touched ih

theorem again_start (same : final.entries.length = routine.entries.length) :
    (start routine).again final.entries =
      start { routine with entries := final.entries } := by
  simp only [Walk.again, start, Routine.clearDepths, List.zipWith_map_right]
  congr 1
  apply List.ext_getElem
  · simp [same]
  · intro index _ _
    simp

/-- A walk over the entries that a walk has left does what that walk did. -/
theorem explore_visited {failure? : Option Failure}
    (ended : explore add routine.instrs (start routine) =
      (final, failure?)) :
    explore add (final.entries.map (·.instr))
        (start { routine with entries := final.entries }) =
      (final, failure?) := by
  have touched := touched_explore ended
  rw [← again_start touched.length_eq.symm, ← ended]
  exact explore_again (sameLayout_of_touched touched)
    (congrArg (·.1.entries) ended).symm

theorem namesLabel_of_tracks {code : List Instr} {entries : List Entry}
    (tracks : Tracks code entries)
    (named : ∀ instr ∈ code, instr.namesLabel = true) :
    ∀ instr ∈ entries.map (·.instr), instr.namesLabel = true := by
  intro instr member
  obtain ⟨entry, inside, rfl⟩ := List.mem_map.mp member
  obtain ⟨index, found⟩ := List.mem_iff_getElem?.mp inside
  cases known : entry.depth with
  | none => exact named _ (List.mem_of_getElem? (tracks.blank found known))
  | some depth =>
      obtain ⟨source, here, done⟩ := tracks.anchored found known
      exact namesLabel_of_anchor done (named _ (List.mem_of_getElem? here))

/-- The analysis of what a refused routine has become refuses it again. -/
theorem measureDepthsBy_of_refused {failure : Failure}
    (refused : routine.measureDepthsBy add = (.error failure, left)) :
    left = { routine with entries := left.entries } ∧
      List.Forall₂ Touched routine.entries left.entries ∧
        left.measureDepthsBy add = (.error failure, left) := by
  cases repeated : repeatedLabel? routine.instrs with
  | some label =>
      rw [measureDepthsBy_of_repeatedLabel? repeated] at refused
      obtain ⟨same, rfl⟩ := Prod.mk.inj refused
      obtain rfl := Except.error.inj same
      rw [← instrs_clearDepths] at repeated
      refine ⟨rfl, touched_clearDepths routine.entries, ?_⟩
      rw [measureDepthsBy_of_repeatedLabel? repeated]
      simp [Routine.clearDepths]
  | none =>
      have distinct := repeatedLabel?_eq_none_iff.mp repeated
      rcases ended : explore add routine.instrs (start routine) with
        ⟨final, failure?⟩
      cases failure? with
      | none => simp [measureDepthsBy_of_finished distinct ended] at refused
      | some other =>
          rw [measureDepthsBy_of_failure distinct ended] at refused
          obtain ⟨same, rfl⟩ := Prod.mk.inj refused
          obtain rfl := Except.error.inj same
          have touched := touched_explore ended
          refine ⟨rfl, touched, ?_⟩
          have layout := sameLayout_of_touched touched
          exact measureDepthsBy_of_failure (layout.labels_eq ▸ distinct)
            (explore_visited ended)

/-- A finished walk is repeated over the entries that it has recorded. -/
theorem explore_measured
    (named : ∀ instr ∈ routine.instrs, instr.namesLabel = true)
    (distinct : (labels routine.instrs).Nodup)
    (ended : explore add routine.instrs (start routine) = (final, none)) :
    explore add ((final.entries.filter (·.depth.isSome)).map (·.instr))
        (start { routine with
          entries := final.entries.filter (·.depth.isSome) }) =
      ({ final with entries := final.entries.filter (·.depth.isSome) },
        none) := by
  obtain ⟨closed, finished⟩ := closed_of_finished ended
  have layout := sameLayout_of_touched (touched_explore ended)
  obtain ⟨last, visits, halts⟩ := explore_run add
    (final.entries.map (·.instr))
    (start { routine with entries := final.entries })
  rw [explore_visited ended] at halts
  obtain ⟨order⟩ := halts
  have thin := explore_thin visits finished
    (tracks_start { routine with entries := final.entries })
    (layout.labels_eq ▸ distinct) (namesLabel_of_tracks closed.tracks named)
  simpa [Walk.thin, start, Routine.clearDepths, thinned_map, thinned_self,
    finished, rank] using thin

theorem retain_of_forall {keep : Entry → Bool}
    (all : ∀ entry ∈ routine.entries, keep entry = true) :
    routine.retain keep = routine := by
  have noneLeft : routine.entries.filter (fun entry => !keep entry) = [] :=
    List.filter_eq_nil_iff.mpr fun entry member => by simp [all entry member]
  simp [Routine.retain, List.filter_eq_self.mpr all, noneLeft,
    HandlePool.retireAll]

/-- The analysis of what an accepted routine has become accepts it as it is. -/
theorem measureDepthsBy_of_accepted
    (named : ∀ instr ∈ routine.instrs, instr.namesLabel = true)
    {analysis : Analysis}
    (accepted : routine.measureDepthsBy add = (.ok analysis, left)) :
    left.measureDepthsBy add =
      (.ok { analysis with removed := 0, diagnostics := [] }, left) := by
  obtain ⟨distinct, final, ended, rfl, left_eq⟩ :=
    finished_of_measureDepthsBy accepted
  have entries_eq : left.entries = final.entries.filter (·.depth.isSome) := by
    rw [left_eq]
    rfl
  have recorded : ∀ entry ∈ left.entries, entry.depth.isSome = true := by
    intro entry member
    rw [entries_eq] at member
    exact (List.mem_filter.mp member).2
  have distinctLeft : (labels left.instrs).Nodup := by
    have layout := sameLayout_of_touched (touched_explore ended)
    rw [Routine.instrs, entries_eq]
    exact (layout.labels_eq ▸ distinct).sublist
      (labels_sublist (List.filter_sublist.map _))
  have again : explore add left.instrs (start left) =
      ({ final with entries := left.entries }, none) := by
    have measured := explore_measured named distinct ended
    rw [← entries_eq] at measured
    exact measured
  have whole : unvisited left.entries = 0 := by
    apply List.countP_eq_zero.mpr
    intro entry member
    simp [← Option.not_isSome, recorded entry member]
  have maxDepth_eq : left.maxDepth = final.deepest.toNat := by
    rw [left_eq]
  rw [measureDepthsBy_of_finished distinctLeft again, retain_of_forall recorded]
  simp [analysisOf, whole, ← maxDepth_eq]

end Analyses

/-- The analysis of what an analysis of symbolic code leaves repeats its result:
a refused routine keeps all its entries, changed in nothing but the addresses
that the walk has reached, and is refused for the same reason; an accepted one
has nothing more to remove.  Either way the routine stays as it is. -/
theorem measureDepths_repeats {routine : Routine}
    (named : ∀ instr ∈ routine.instrs, instr.namesLabel = true) :
    (∀ failure left, routine.measureDepths = (.error failure, left) →
      left = { routine with entries := left.entries } ∧
        List.Forall₂ Touched routine.entries left.entries ∧
          left.measureDepths = (.error failure, left)) ∧
    ∀ analysis left, routine.measureDepths = (.ok analysis, left) →
      left.measureDepths =
        (.ok { analysis with removed := 0, diagnostics := [] }, left) :=
  ⟨fun _ _ refused => measureDepthsBy_of_refused refused,
    fun _ _ accepted => measureDepthsBy_of_accepted named accepted⟩

/-- A loop that leaves an address on the stack each time. -/
def climbing : Routine :=
  .ofList [.pushConst 7, .label ⟨0⟩, .pushStackAddr 0, .jump (.label ⟨0⟩)]

theorem measureDepths_repeats_climbing :
    climbing.measureDepths.1 =
        .error (.defect (.depthMismatch (Instr.label ⟨0⟩).text 1 2)) ∧
      climbing.measureDepths.2.instrs =
        [.pushConst 7, .label ⟨0⟩, .pushFrameAddr 1, .jump (.label ⟨0⟩)] ∧
      climbing.measureDepths.2.measureDepths = climbing.measureDepths ∧
      reserving.measureDepths.1 =
        .ok ⟨3, 1, [.note "removed 1 unreachable instruction(s)"]⟩ ∧
      reserving.measureDepths.2.measureDepths =
        (.ok ⟨3, 0, []⟩, reserving.measureDepths.2) := by
  have refused : climbing.measureDepths.1 =
      .error (.defect (.depthMismatch (Instr.label ⟨0⟩).text 1 2)) := by cbv
  have accepted : reserving.measureDepths.1 =
      .ok ⟨3, 1, [.note "removed 1 unreachable instruction(s)"]⟩ := by cbv
  have climbingNamed : ∀ instr ∈ climbing.instrs,
      instr.namesLabel = true := by decide
  have reservingNamed : ∀ instr ∈ reserving.instrs,
      instr.namesLabel = true := by decide
  have refusedAgain := (measureDepths_repeats climbingNamed).1 _ _
    (Prod.ext refused rfl)
  have acceptedAgain := (measureDepths_repeats reservingNamed).2 _ _
    (Prod.ext accepted rfl)
  exact ⟨refused, by cbv, refusedAgain.2.2.trans (Prod.ext refused.symm rfl),
    accepted, acceptedAgain⟩

end StackDepth

end StackAssembler
