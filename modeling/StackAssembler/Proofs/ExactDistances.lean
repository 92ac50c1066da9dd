import StackAssembler.Proofs.HandleAccounting
import StackAssembler.Proofs.ResolvedFlow

/-!
# All jumps get their distances, or none does

Jumps get their distances only if each label marks one place and the label of
each jump marks one.  Then a distance leads from the end of its jump to the
marker, and nothing else has changed; all labels are settled, so to ask again
changes nothing.

The distances are worked out before an instruction is replaced.  This module
also says so step by step: all replacements are planned first and then made in
turn, each by the handle of its jump.
-/

namespace StackAssembler

open Flow

namespace Layout

/-! ## What stands in the way -/

def MarksTwice (code : List Instr) (name : Label) : Prop :=
  ∃ early late : Nat, early < late ∧ code[early]? = some (.label name) ∧
    code[late]? = some (.label name)

def Dangles (code : List Instr) (name : Label) : Prop :=
  (∃ instr ∈ code, instr.target? = some (.label name)) ∧
    Instr.label name ∉ code

theorem nodup_labels_iff {code : List Instr} :
    (labels code).Nodup ↔ ∀ name, ¬MarksTwice code name := by
  rw [labels, List.Nodup, List.pairwise_filterMap, List.pairwise_iff_getElem]
  constructor
  · rintro distinct name ⟨early, late, before, first, second⟩
    obtain ⟨earlyInside, earlyEq⟩ := List.getElem?_eq_some_iff.mp first
    obtain ⟨lateInside, lateEq⟩ := List.getElem?_eq_some_iff.mp second
    exact distinct early late earlyInside lateInside before name
      (by rw [earlyEq]; rfl) name (by rw [lateEq]; rfl) rfl
  · intro single early late earlyInside lateInside before name marks other
      otherMarks
    rintro rfl
    rw [Instr.marks?_eq_some_iff] at marks otherMarks
    exact single name ⟨early, late, before,
      List.getElem?_eq_some_iff.mpr ⟨earlyInside, marks⟩,
      List.getElem?_eq_some_iff.mpr ⟨lateInside, otherMarks⟩⟩

theorem resolvable_iff {code : List Instr} :
    Resolvable code ↔
      ∀ name, ¬MarksTwice code name ∧ ¬Dangles code name := by
  constructor
  · intro resolvable name
    refine ⟨nodup_labels_iff.mp resolvable.distinct name, ?_⟩
    rintro ⟨⟨instr, member, aimed⟩, unmarked⟩
    exact unmarked (mem_labels_iff.mp
      (resolvable.marked member (Instr.jumpLabel?_eq_some_iff.mpr aimed)))
  · intro clear
    refine ⟨nodup_labels_iff.mpr fun name => (clear name).1, ?_⟩
    intro instr name member named
    by_contra unmarked
    refine (clear name).2 ⟨⟨instr, member,
      Instr.jumpLabel?_eq_some_iff.mp named⟩, ?_⟩
    rwa [mem_labels_iff] at unmarked

/-! ## What becomes of a routine -/

section Resolving

variable {routine left : Routine} {count : Nat}

/-- Jumps got their distances: there is nothing in the way, the number of jumps
that named a label was counted, and all instructions are those of a resolved
run. -/
theorem resolved_of_resolveJumps
    (done : routine.resolveJumps = .ok (count, left)) :
    Resolvable routine.instrs ∧
      ResolvedFrom routine.instrs 0 routine.instrs left.instrs ∧
      count = routine.instrs.countP (·.jumpLabel?.isSome) ∧
      left = routine.withInstrs left.instrs := by
  obtain ⟨code, resolves, rest⟩ := bind_eq_ok_iff.mp done
  obtain ⟨rfl, rfl⟩ := Prod.mk.inj (Except.ok.inj rest)
  unfold resolve at resolves
  split at resolves
  · cases resolves
  · rename_i single
    have resolved := resolveFrom_eq_ok_iff.mp resolves
    rw [instrs_withInstrs resolved.length_eq]
    refine ⟨⟨repeatedLabel?_eq_none_iff.mp single, ?_⟩, resolved, rfl, rfl⟩
    intro instr name member named
    obtain ⟨index, here⟩ := List.mem_iff_getElem?.mp member
    obtain ⟨new, -, outcome⟩ := resolved.getElem? here
    cases outcome with
    | kept unnamed => cases unnamed.symm.trans named
    | turned other located =>
        obtain rfl := Option.some.inj (named.symm.trans other)
        exact labelIndex?_isSome_iff.mp (by rw [located]; rfl)

/-- What becomes of an entry at an index of the code. -/
inductive Aimed (code : List Instr) (index : Nat) : Entry → Entry → Prop
  | kept {entry : Entry}
      (unnamed : ∀ name, entry.instr.target? ≠ some (.label name)) :
      Aimed code index entry entry
  | jump {handle : Handle} {depth : Option Int} {name : Label} {place : Nat}
      {distance : Int32} (marked : code[place]? = some (.label name))
      (lands : (position code index : Int) +
        (Instr.jump (.label name)).size + distance.toInt =
          position code place) :
      Aimed code index ⟨handle, .jump (.label name), depth⟩
        ⟨handle, .jump (.offset distance), depth⟩
  | branch {handle : Handle} {depth : Option Int} {cond : Condition}
      {name : Label} {place : Nat} {distance : Int32}
      (marked : code[place]? = some (.label name))
      (lands : (position code index : Int) +
        (Instr.branch cond (.label name)).size + distance.toInt =
          position code place) :
      Aimed code index ⟨handle, .branch cond (.label name), depth⟩
        ⟨handle, .branch cond (.offset distance), depth⟩

/-- The distance of a jump in short code leads to its label. -/
theorem Resolved.aimed {code : List Instr}
    (short : Instr.codeSize code < 2 ^ 31) {index : Nat}
    {instr new : Instr} (here : code[index]? = some instr)
    (resolved : Resolved code (position code index) instr new)
    (handle : Handle) (depth : Option Int) :
    Aimed code index ⟨handle, instr, depth⟩ ⟨handle, new, depth⟩ := by
  cases resolved with
  | kept unnamed =>
      refine .kept fun name aimed => ?_
      cases unnamed.symm.trans (Instr.jumpLabel?_eq_some_iff.mpr aimed)
  | @turned _ name place named located turned =>
      have marked := (labelIndex?_eq_some_iff.mp located).1
      have placeShort := position_le_codeSize code place
      have finishShort := position_le_codeSize code (index + 1)
      rw [position_succ here] at finishShort
      have far : (Int32.ofInt (position code place -
          (position code index + instr.size))).toInt =
            position code place - (position code index + instr.size) := by
        rw [← Int.natCast_add]
        exact toInt_distance (by omega) (by omega)
      have aimed := Instr.jumpLabel?_eq_some_iff.mp named
      obtain ⟨_, rfl, rfl⟩ | ⟨_, _, rfl, rfl⟩ := retarget?_eq_some turned
      · obtain rfl := Option.some.inj aimed
        exact .jump marked (by omega)
      · obtain rfl := Option.some.inj aimed
        exact .branch marked (by omega)

theorem withInstrs_instrs (routine : Routine) :
    routine.withInstrs routine.instrs = routine := by
  simp [Routine.withInstrs, Routine.instrs, List.zipWith_map_right,
    List.zipWith_self]

/-- Code in which no jump names a label is left as it is. -/
theorem resolveJumps_of_settled (distinct : (labels routine.instrs).Nodup)
    (settled : ∀ instr ∈ routine.instrs, instr.jumpLabel? = none) :
    routine.resolveJumps = .ok (0, routine) := by
  have kept (code : List Instr) (position : Nat) (rest : List Instr)
      (unnamed : ∀ instr ∈ rest, instr.jumpLabel? = none) :
      ResolvedFrom code position rest rest := by
    induction rest generalizing position with
    | nil => exact .nil
    | cons instr rest ih =>
        refine .cons (.kept (unnamed instr List.mem_cons_self)) (ih _ ?_)
        intro other member
        exact unnamed other (List.mem_cons_of_mem _ member)
  have resolves : resolve routine.instrs = .ok routine.instrs := by
    rw [resolve, repeatedLabel?_eq_none_iff.mpr distinct]
    exact resolveFrom_eq_ok_iff.mpr (kept _ 0 _ settled)
  have none : routine.instrs.countP (·.jumpLabel?.isSome) = 0 := by
    rw [List.countP_eq_zero]
    intro instr member
    simp [settled instr member]
  refine bind_eq_ok_iff.mpr ⟨routine.instrs, resolves, ?_⟩
  rw [none, withInstrs_instrs]
  rfl

end Resolving

/-! ## Replacements in turn -/

/-- Plan the replacement of the jumps that name a label, from a code position
on. -/
def planFrom (code : List Instr) :
    Nat → List Entry → Except Defect (List Edit)
  | _, [] => .ok []
  | position, entry :: entries =>
      match entry.instr.jumpLabel? with
      | none => planFrom code (position + entry.instr.size) entries
      | some label => do
          let distance ← distance code position entry.instr label
          let edits ← planFrom code (position + entry.instr.size) entries
          return match entry.instr.retarget? (.offset distance) with
            | some jump => .replace entry.handle jump :: edits
            | none => edits

/-- The replacements that turn entries which name a label into the given
instructions. -/
def replacements : List Entry → List Instr → List Edit
  | entry :: entries, instr :: code =>
      if entry.instr.jumpLabel?.isSome then
        .replace entry.handle instr :: replacements entries code
      else replacements entries code
  | _, _ => []

/-- A plan replaces the jumps as they are resolved all at once. -/
theorem planFrom_eq (code : List Instr) (position : Nat)
    (entries : List Entry) :
    planFrom code position entries =
      (resolveFrom code position (entries.map (·.instr))).map
        (replacements entries) := by
  induction entries generalizing position with
  | nil => rfl
  | cons entry entries ih =>
      rw [planFrom, List.map_cons, resolveFrom, resolveInstr]
      cases named : entry.instr.jumpLabel? with
      | none =>
          simp only [ih]
          cases resolveFrom code (position + entry.instr.size)
            (entries.map (·.instr)) with
          | error defect => rfl
          | ok others =>
              simp [Except.map, bind, Except.bind, pure, Except.pure,
                replacements, named]
      | some label =>
          dsimp only
          cases distance code position entry.instr label with
          | error defect => rfl
          | ok offset =>
              obtain ⟨jump, turned⟩ :=
                exists_retarget? named (.offset offset)
              rw [ih]
              cases resolveFrom code (position + entry.instr.size)
                (entries.map (·.instr)) with
              | error defect => rfl
              | ok others =>
                  simp [Except.map, bind, Except.bind, pure, Except.pure,
                    replacements, named, turned]

theorem length_replacements {code : List Instr} {start : Nat}
    {entries : List Entry} {others : List Instr}
    (resolved : ResolvedFrom code start (entries.map (·.instr)) others) :
    (replacements entries others).length =
      (entries.map (·.instr)).countP (·.jumpLabel?.isSome) := by
  induction entries generalizing start others with
  | nil => rfl
  | cons entry entries ih =>
      cases resolved with
      | cons first onward =>
          rw [replacements, List.map_cons, List.countP_cons, ← ih onward]
          cases entry.instr.jumpLabel? <;> simp

/-- Replacements that are made one by one, each by the handle of its entry,
replace all of these entries, and none is refused. -/
theorem performAll_replacements {routine : Routine} {code : List Instr}
    {start : Nat} {front entries : List Entry} {others : List Instr}
    (resolved : ResolvedFrom code start (entries.map (·.instr)) others)
    (distinct : ((front ++ entries).map (·.handle)).Nodup) :
    ∃ replies : List Reply,
      { routine with entries := front ++ entries }.performAll
          (replacements entries others) =
        (replies.map .ok, { routine with
          entries := front ++ entries.zipWith
            (fun entry instr => { entry with instr }) others }) := by
  induction entries generalizing front start others with
  | nil =>
      cases resolved
      exact ⟨[], rfl⟩
  | cons entry entries ih =>
      cases resolved with
      | @cons _ _ new _ others first onward =>
          obtain ⟨replies, later⟩ :=
            @ih _ (front ++ [{ entry with instr := new }]) others
              onward (by simpa using distinct)
          simp only [List.append_assoc, List.singleton_append] at later
          rw [replacements, List.zipWith_cons_cons]
          cases named : entry.instr.jumpLabel? with
          | none =>
              -- An instruction that names no label is not replaced.
              cases first with
              | kept => exact ⟨replies, later⟩
              | turned other => cases named.symm.trans other
          | some label =>
              have located : { routine with
                  entries := front ++ entry :: entries }.locate
                    entry.handle = .ok (front, entry, entries) :=
                Routine.locate_eq_ok_iff.mpr
                  (Routine.splitAt?_middle distinct)
              refine ⟨.replaced entry.instr :: replies, ?_⟩
              rw [Option.isSome_some, if_pos rfl, Routine.performAll,
                Routine.perform, Routine.edit_replace located]
              simp only [later, List.map_cons]

end Layout

namespace Routine

open Layout

/-- Give all jumps their distances in single steps: plan all replacements, then
make them in turn.  The result also holds the routine as it is then. -/
def resolveStepwise (routine : Routine) : Except Defect Nat × Routine :=
  match repeatedLabel? routine.instrs with
  | some label => (.error (.duplicateLabel label), routine)
  | none =>
      match planFrom routine.instrs 0 routine.entries with
      | .error defect => (.error defect, routine)
      | .ok edits => (.ok edits.length, (routine.performAll edits).2)

theorem resolveStepwise_of_error {routine : Routine} {defect : Defect}
    (failed : routine.resolveJumps = .error defect) :
    routine.resolveStepwise = (.error defect, routine) := by
  unfold resolveJumps resolve at failed
  rw [resolveStepwise]
  cases repeated : repeatedLabel? routine.instrs with
  | some label =>
      rw [repeated] at failed
      obtain rfl := Except.error.inj failed
      rfl
  | none =>
      rw [repeated] at failed
      cases outcome : resolveFrom routine.instrs 0 routine.instrs with
      | ok code =>
          rw [outcome] at failed
          cases failed
      | error other =>
          rw [outcome] at failed
          obtain rfl := Except.error.inj failed
          have planned : planFrom routine.instrs 0 routine.entries =
              .error other := by
            rw [planFrom_eq, ← instrs, outcome]
            rfl
          simp only [planned]

/-- The plan for resolvable code has a replacement for every jump that names a
label, and none of them is refused. -/
theorem exists_plan {routine left : Routine} {count : Nat}
    (done : routine.resolveJumps = .ok (count, left))
    (distinct : routine.handles.Nodup) :
    ∃ edits, planFrom routine.instrs 0 routine.entries = .ok edits ∧
      edits.length = count ∧
      ∃ replies : List Reply,
        routine.performAll edits = (replies.map .ok, left) := by
  obtain ⟨resolvable, resolved, rfl, filled⟩ := resolved_of_resolveJumps done
  obtain ⟨replies, replaced⟩ :=
    @performAll_replacements routine _ _ [] _ _ resolved distinct
  refine ⟨replacements routine.entries left.instrs, ?_,
    length_replacements resolved, replies, ?_⟩
  · rw [planFrom_eq, ← instrs, resolveFrom_eq_ok_iff.mpr resolved]
    rfl
  · rw [List.nil_append] at replaced
    rw [replaced]
    exact congrArg _ filled.symm

theorem resolveStepwise_of_ok {routine left : Routine} {count : Nat}
    (done : routine.resolveJumps = .ok (count, left))
    (distinct : routine.handles.Nodup) :
    routine.resolveStepwise = (.ok count, left) := by
  obtain ⟨resolvable, -⟩ := resolved_of_resolveJumps done
  obtain ⟨edits, planned, length_eq, replies, performed⟩ :=
    exists_plan done distinct
  rw [resolveStepwise, repeatedLabel?_eq_none_iff.mpr resolvable.distinct]
  simp only [planned, performed, length_eq]

/-! ## All or nothing -/

theorem resolveJumps_fails_iff {routine : Routine} :
    (∃ defect, routine.resolveJumps = .error defect) ↔
      ∃ name, MarksTwice routine.instrs name ∨
        Dangles routine.instrs name := by
  constructor
  · rintro ⟨defect, failed⟩
    by_contra clear
    have resolvable : Resolvable routine.instrs := by
      rw [resolvable_iff]
      intro name
      exact ⟨fun twice => clear ⟨name, .inl twice⟩,
        fun dangles => clear ⟨name, .inr dangles⟩⟩
    obtain ⟨count, left, done, -⟩ := exists_resolveJumps resolvable
    cases failed.symm.trans done
  · rintro ⟨name, inTheWay⟩
    cases outcome : routine.resolveJumps with
    | error defect => exact ⟨defect, rfl⟩
    | ok result =>
        have resolvable := (resolved_of_resolveJumps outcome).1
        obtain ⟨single, marked⟩ := resolvable_iff.mp resolvable name
        rcases inTheWay with twice | dangles
        · exact absurd twice single
        · exact absurd dangles marked

/-- All that giving jumps their distances returns and leaves behind. -/
structure Resolution (routine : Routine) (count : Nat) (left : Routine) :
    Prop where
  aimed : ∀ index, Option.Rel (Aimed routine.instrs index)
    routine.entries[index]? left.entries[index]?
  rest_eq : left = { routine with entries := left.entries }
  position_eq : ∀ index,
    position left.instrs index = position routine.instrs index
  count_eq : count = routine.instrs.countP (·.jumpLabel?.isSome)
  again : left.resolveJumps = .ok (0, left)

theorem resolution_of_resolveJumps {routine left : Routine} {count : Nat}
    (short : routine.codeSize < 2 ^ 31)
    (done : routine.resolveJumps = .ok (count, left)) :
    Resolution routine count left := by
  obtain ⟨resolvable, resolved, rfl, filled⟩ := resolved_of_resolveJumps done
  have entries_eq : left.entries = routine.entries.zipWith
      (fun entry instr => { entry with instr }) left.instrs :=
    congrArg entries filled
  constructor
  · intro index
    rw [entries_eq, List.getElem?_zipWith]
    cases found : routine.entries[index]? with
    | none => exact .none
    | some entry =>
        have here : routine.instrs[index]? = some entry.instr := by
          simp [instrs, found]
        obtain ⟨new, there, outcome⟩ := resolved.getElem? here
        rw [Nat.zero_add] at outcome
        rw [there]
        exact .some (outcome.aimed short here entry.handle entry.depth)
  · rw [entries_eq]
    exact filled
  · exact resolved.position_eq
  · rfl
  · refine resolveJumps_of_settled ?_ resolved.jumpLabel?_eq_none
    rw [resolved.labels_eq]
    exact resolvable.distinct

/-- Jumps get their distances exactly, and all of them or none.  In code of
fewer than 2³¹ units the step fails exactly if a label marks two places or a
jump names a label that marks none.  Otherwise it turns the jumps and branches
that name a label, and nothing else, into jumps and branches over the distance
from their end to the marker of the label; all code positions stay, the number
of the turned ones is returned, and a second time there is nothing to do.  If
handles are distinct, the same is done by planning all replacements and making
them one after the other, where a failure leaves the routine as it was. -/
theorem resolveJumps_all_or_nothing {routine : Routine}
    (short : routine.codeSize < 2 ^ 31) :
    ((∃ defect, routine.resolveJumps = .error defect) ↔
      ∃ name, MarksTwice routine.instrs name ∨
        Dangles routine.instrs name) ∧
    (∀ defect, routine.resolveJumps = .error defect →
      routine.resolveStepwise = (.error defect, routine)) ∧
    (∀ count left, routine.resolveJumps = .ok (count, left) →
      Resolution routine count left ∧
      (routine.handles.Nodup →
        routine.resolveStepwise = (.ok count, left))) := by
  refine ⟨resolveJumps_fails_iff,
    fun defect failed => resolveStepwise_of_error failed, ?_⟩
  intro count left done
  exact ⟨resolution_of_resolveJumps short done, resolveStepwise_of_ok done⟩

/-- A loop that a branch leaves. -/
def revolving : Routine :=
  ofList [.label ⟨0⟩, .branch .zero (.label ⟨1⟩), .pushConst 7,
    .jump (.label ⟨0⟩), .label ⟨1⟩, .ret 0]

/-- A jump to a label, and one to a label that is missing. -/
def halfMarked : Routine :=
  ofList [.jump (.label ⟨0⟩), .label ⟨0⟩, .jump (.label ⟨1⟩)]

/-- The branch leads over a constant and a jump, and the jump back over them and
itself.  A jump that could be resolved stays as it is when a later one
dangles. -/
theorem resolveJumps_all_or_nothing_revolving :
    (revolving.codeSize = 7 ∧
      ∃ left, revolving.resolveJumps = .ok (2, left) ∧
        left.instrs = [.label ⟨0⟩, .branch .zero (.offset 4), .pushConst 7,
          .jump (.offset (-6)), .label ⟨1⟩, .ret 0] ∧
        Resolution revolving 2 left ∧
        revolving.resolveStepwise = (.ok 2, left)) ∧
    halfMarked.resolveJumps = .error (.danglingLabel ⟨1⟩) ∧
      halfMarked.resolveStepwise =
        (.error (.danglingLabel ⟨1⟩), halfMarked) := by
  have short : revolving.codeSize < 2 ^ 31 := by decide
  have done : revolving.resolveJumps = .ok (2, _) := rfl
  obtain ⟨-, -, turned⟩ := resolveJumps_all_or_nothing short
  obtain ⟨resolution, stepwise⟩ := turned 2 _ done
  have otherShort : halfMarked.codeSize < 2 ^ 31 := by decide
  have failed : halfMarked.resolveJumps = .error (.danglingLabel ⟨1⟩) := rfl
  obtain ⟨-, unchanged, -⟩ := resolveJumps_all_or_nothing otherShort
  exact ⟨⟨rfl, _, done, rfl, resolution, stepwise (by decide)⟩, failed,
    unchanged _ failed⟩

end Routine

end StackAssembler
