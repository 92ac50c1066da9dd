import StackAssembler.Proofs.JumpLanding
import StackAssembler.Proofs.LeveledCode
import StackAssembler.Proofs.ParallelRuns

/-!
# Walking measured code again

The depth walk edits the entries that it comes to.  A second walk starts from
what the first one has left and takes the same steps: an anchored instruction is
as long as the original one, leads to the same places, and is not anchored
again.  So a walk over the entries as they are at its end ends the same way,
with the same defect if it met one.
-/

namespace StackAssembler

namespace StackDepth

open Flow Relation

/-! ## Code of the same layout -/

/-- Two runs of instructions that mark the same labels at the same places and
positions. -/
structure SameLayout (code other : List Instr) : Prop where
  marks_eq : code.map Instr.marks? = other.map Instr.marks?
  sizes_eq : code.map Instr.size = other.map Instr.size

section Layouts

variable {code other : List Instr}

theorem indexAt?_congr (sizes : code.map Instr.size = other.map Instr.size)
    (target : Nat) : indexAt? code target = indexAt? other target := by
  induction code generalizing other target with
  | nil =>
      obtain rfl := List.map_eq_nil_iff.mp sizes.symm
      rfl
  | cons instr code ih =>
      cases other with
      | nil => cases sizes
      | cons first other =>
          obtain ⟨size, sizes⟩ := List.cons.inj sizes
          rw [indexAt?, indexAt?, size, ih sizes]

theorem SameLayout.labelIndex?_eq (layout : SameLayout code other)
    (label : Label) : labelIndex? code label = labelIndex? other label := by
  have asMarks (run : List Instr) : labelIndex? run label =
      (run.map Instr.marks?).findIdx? (· = some label) := by
    rw [labelIndex?, List.findIdx?_map]
    rfl
  rw [asMarks, asMarks, layout.marks_eq]

theorem SameLayout.labels_eq (layout : SameLayout code other) :
    labels code = labels other := by
  have asMarks (run : List Instr) :
      labels run = (run.map Instr.marks?).filterMap id := by
    rw [labels, List.filterMap_map]
    rfl
  rw [asMarks, asMarks, layout.marks_eq]

theorem SameLayout.successors_eq (layout : SameLayout code other)
    (index : Nat) (instr : Instr) :
    successors code index instr = successors other index instr := by
  have aims (target : Target) : destination code index instr target =
      destination other index instr target := by
    cases target with
    | label label => rw [destination, destination, layout.labelIndex?_eq]
    | offset distance =>
        simp only [destination, position_congr layout.sizes_eq,
          indexAt?_congr layout.sizes_eq]
  have lengths : code.length = other.length := by
    simpa using congrArg List.length layout.sizes_eq
  cases instr with
  | jump target | branch _ target => rw [successors, successors, aims]
  | jumpPtr index fanOut => rw [successors, successors, lengths]
  | _ => rfl

/-- What an arrival leaves is left as it is by a second one. -/
theorem SameLayout.arrive_again {add : Adder} [add.Exact]
    (layout : SameLayout code other) {index : Nat} {depth : Int}
    {instr left : Instr} {outcome : Except Failure (Int × List Nat)}
    (arrived : arrive add code index depth instr = (left, outcome)) :
    arrive add other index depth left = (left, outcome) := by
  unfold arrive at arrived ⊢
  cases done : anchor add depth instr with
  | error failure =>
      rw [done] at arrived
      obtain ⟨rfl, rfl⟩ := Prod.mk.inj arrived
      rw [done]
  | ok anchored =>
      rw [done] at arrived
      obtain ⟨rfl, rfl⟩ := Prod.mk.inj arrived
      have settled : anchor add depth anchored = .ok anchored :=
        anchor_eq_ok_iff.mpr
          (.inl ⟨absolute_of_anchor (anchor_integers done), rfl⟩)
      rw [settled, layout.successors_eq]

end Layouts

/-! ## What a walk does to the entries -/

/-- What a walk makes of an entry: it only replaces an address relative to the
stack's top, where it has recorded the depth. -/
structure Touched (old new : Entry) : Prop where
  handle_eq : new.handle = old.handle
  instr_eq : new.instr = old.instr ∨
    ∃ distance slot depth, old.instr = .pushStackAddr distance ∧
      new.instr = .pushFrameAddr slot ∧ new.depth = some depth ∧
        slot.toInt = distance.toInt + depth

theorem Touched.blank {old new : Entry} (touched : Touched old new)
    (blank : new.depth = none) : new.instr = old.instr := by
  rcases touched.instr_eq with same | ⟨_, _, _, -, -, known, -⟩
  · exact same
  · cases blank.symm.trans known

theorem Touched.arrive {add : Adder} [add.Exact] {code : List Instr}
    {index : Nat} {depth : Int} {old new : Entry} {left : Instr}
    {outcome : Except Failure (Int × List Nat)}
    (touched : Touched old new) (blank : new.depth = none)
    (arrived : arrive add code index depth new.instr = (left, outcome)) :
    Touched old { new with instr := left, depth := some depth } := by
  refine ⟨touched.handle_eq, ?_⟩
  rw [touched.blank blank] at arrived
  unfold StackDepth.arrive at arrived
  cases done : anchor add depth old.instr with
  | error failure =>
      rw [done] at arrived
      exact .inl (Prod.mk.inj arrived).1.symm
  | ok anchored =>
      rw [done] at arrived
      obtain ⟨rfl, -⟩ := Prod.mk.inj arrived
      generalize old.instr = instr at done ⊢
      cases anchored_of_anchor (anchor_integers done) with
      | address sum => exact .inr ⟨_, _, _, rfl, rfl, rfl, sum⟩
      | same => exact .inl rfl

theorem sameLayout_of_touched {olds news : List Entry}
    (touched : List.Forall₂ Touched olds news) :
    SameLayout (olds.map (·.instr)) (news.map (·.instr)) := by
  induction touched with
  | nil => exact ⟨rfl, rfl⟩
  | @cons first second _ _ touched _ ih =>
      obtain ⟨marks, sizes⟩ := ih
      rcases touched.instr_eq with same | ⟨_, _, _, oldEq, newEq, -⟩
      · exact ⟨by simp [same, marks], by simp [same, sizes]⟩
      · have size : first.instr.size = second.instr.size := by
          rw [oldEq, newEq]
          rfl
        exact ⟨by simp [oldEq, newEq, marks, Instr.marks?],
          by simp [size, sizes]⟩

theorem forall₂_set {related : Entry → Entry → Prop} {olds news : List Entry}
    {index : Nat} {new other : Entry} (all : List.Forall₂ related olds news)
    (found : news[index]? = some new)
    (exchange : ∀ old, related old new → related old other) :
    List.Forall₂ related olds (news.set index other) := by
  induction all generalizing index with
  | nil => exact .nil
  | cons first rest ih =>
      cases index with
      | zero =>
          obtain rfl := Option.some.inj found
          exact .cons (exchange _ first) rest
      | succ index => exact .cons first (ih found)

section Steps

variable {add : Adder} {code : List Instr} {walk next : Walk}
  {olds : List Entry} {result : Walk × Option Failure}

theorem Visit.touched [add.Exact] (visit : Visit add code walk next)
    (before : List.Forall₂ Touched olds walk.entries) :
    List.Forall₂ Touched olds next.entries := by
  cases visit with
  | pass => exact before
  | enter order found blank arrived =>
      exact forall₂_set before found fun _ old => old.arrive blank arrived

theorem Halts.touched [add.Exact] (halts : Halts add code walk result)
    (before : List.Forall₂ Touched olds walk.entries) :
    List.Forall₂ Touched olds result.1.entries := by
  cases halts with
  | done | conflict => exact before
  | refused order found blank arrived =>
      exact forall₂_set before found fun _ old => old.arrive blank arrived

/-- What is recorded early is found later as it was recorded. -/
def Persists (early late : List Entry) : Prop :=
  early.length = late.length ∧
    ∀ {index : Nat} {entry : Entry} {depth : Int},
      early[index]? = some entry → entry.depth = some depth →
        late[index]? = some entry

theorem Persists.trans {early middle late : List Entry}
    (first : Persists early middle) (second : Persists middle late) :
    Persists early late :=
  ⟨first.1.trans second.1, fun found known =>
    second.2 (first.2 found known) known⟩

theorem persists_set {entries : List Entry} {index : Nat} {entry : Entry}
    (found : entries[index]? = some entry) (blank : entry.depth = none)
    (new : Entry) : Persists entries (entries.set index new) := by
  refine ⟨(List.length_set ..).symm, fun {place other depth} there known => ?_⟩
  have apart : index ≠ place := by
    rintro rfl
    obtain rfl := Option.some.inj (found.symm.trans there)
    cases blank.symm.trans known
  rwa [List.getElem?_set_ne apart]

theorem Visit.persists (visit : Visit add code walk next) :
    Persists walk.entries next.entries := by
  cases visit with
  | pass => exact ⟨rfl, fun found _ => found⟩
  | enter order found blank arrived => exact persists_set found blank _

theorem Halts.persists (halts : Halts add code walk result) :
    Persists walk.entries result.1.entries := by
  cases halts with
  | done | conflict => exact ⟨rfl, fun found _ => found⟩
  | refused order found blank arrived => exact persists_set found blank _

theorem persists_of_visits
    (visits : ReflTransGen (Visit add code) walk next) :
    Persists walk.entries next.entries := by
  induction visits with
  | refl => exact ⟨rfl, fun found _ => found⟩
  | tail _ visit ih => exact ih.trans visit.persists

end Steps

/-! ## The walk over the entries that it leaves -/

/-- A walk with the entries that are left at the end of all, each with the depth
that the walk has for it so far. -/
def Walk.again (left : List Entry) (walk : Walk) : Walk :=
  { walk with
    entries := left.zipWith
      (fun entry seen => { entry with depth := seen.depth }) walk.entries }

section Repetition

variable {add : Adder} [add.Exact] {code other : List Instr} {walk next : Walk} {left : List Entry}
  {index : Nat} {entry final : Entry}

theorem getElem?_again (found : walk.entries[index]? = some entry)
    (last : left[index]? = some final) :
    (walk.again left).entries[index]? =
      some { final with depth := entry.depth } := by
  simp [Walk.again, List.getElem?_zipWith, found, last]

theorem again_self (walk : Walk) : walk.again walk.entries = walk := by
  simp [Walk.again, List.zipWith_self]

theorem zipWith_set (last : left[index]? = some final) (new : Entry)
    (entries : List Entry) :
    left.zipWith (fun entry seen => { entry with depth := seen.depth })
        (entries.set index new) =
      (left.zipWith (fun entry seen => { entry with depth := seen.depth })
        entries).set index { final with depth := new.depth } := by
  induction left generalizing index entries with
  | nil => simp
  | cons head left ih =>
      cases entries with
      | nil => simp
      | cons first entries =>
          cases index with
          | zero =>
              obtain rfl := Option.some.inj last
              rfl
          | succ index => exact congrArg _ (ih last entries)

theorem set_again (walk : Walk) (index : Nat) (new : Entry) :
    { walk.again (walk.entries.set index new) with
      entries := (walk.again (walk.entries.set index new)).entries.set index
        new } =
      { walk with entries := walk.entries.set index new } := by
  have entries_eq (entries : List Entry) :
      ((entries.set index new).zipWith (fun entry seen =>
        { entry with depth := seen.depth }) entries).set index new =
        entries.set index new := by
    induction entries generalizing index with
    | nil => rfl
    | cons first entries ih =>
        cases index with
        | zero => simp [List.zipWith_self]
        | succ index => exact congrArg _ (ih index)
  simp only [Walk.again, entries_eq]

/-- A visit is repeated over the entries that are left at the end. -/
theorem Visit.again (visit : Visit add code walk next)
    (layout : SameLayout code other) (persists : Persists next.entries left) :
    Visit add other (walk.again left) (next.again left) := by
  cases visit with
  | @pass index depth pending order known =>
      refine .pass order fun seen there => ?_
      simp only [Walk.again, List.getElem?_zipWith_eq_some] at there
      obtain ⟨final, entry, -, found, rfl⟩ := there
      exact known entry found
  | @enter index depth after pending entry anchored places order found blank
      arrived =>
      have inside := (List.getElem?_eq_some_iff.mp found).1
      have last := persists.2 (List.getElem?_set_self inside) rfl
      have visit : Visit add other (walk.again left) _ := .enter order
        (getElem?_again found last) blank (layout.arrive_again arrived)
      simpa [Walk.again, zipWith_set last] using visit

theorem Halts.again {result : Walk × Option Failure}
    (halts : Halts add code walk result) (layout : SameLayout code other) :
    Halts add other (walk.again result.1.entries) result := by
  cases halts with
  | done order =>
      rw [again_self]
      exact .done order
  | conflict order found known differs =>
      rw [again_self]
      exact .conflict order found known differs
  | @refused index depth pending entry instr failure order found blank arrived =>
      have inside := (List.getElem?_eq_some_iff.mp found).1
      have last : (walk.entries.set index
          { entry with instr, depth := some depth })[index]? =
            some { entry with instr, depth := some depth } :=
        List.getElem?_set_self inside
      have refused : Halts add other (walk.again _) _ := .refused order
        (getElem?_again found last) blank (layout.arrive_again arrived)
      rwa [set_again] at refused

/-- A walk over the entries that it leaves is the same walk. -/
theorem explore_again (layout : SameLayout code other)
    (left_eq : left = (explore add code walk).1.entries) :
    explore add other (walk.again left) = explore add code walk := by
  obtain ⟨last, visits, halts⟩ := explore_run add code walk
  rw [← explore_of_halts (halts.again layout), ← left_eq]
  -- The entries that a visit leaves persist up to the end of the walk.
  have early : ∀ middle, ReflTransGen (Visit add code) middle last →
      explore add other (middle.again left) =
        explore add other (last.again left) := by
    intro middle rest
    induction rest using ReflTransGen.head_induction_on with
    | refl => rfl
    | head visit rest ih =>
        have persists := (persists_of_visits rest).trans halts.persists
        rw [← left_eq] at persists
        exact (explore_of_visit (visit.again layout persists)).trans ih
  exact early walk visits

end Repetition

end StackDepth

end StackAssembler
