import StackAssembler.Instr.Stack
import StackAssembler.Proofs.Rewriting

/-!
# Code that keeps its stack depths

Stack depths of code are given here by the depths at its labels alone.  From
label to label the depth follows from the instructions, every jump has to agree
with the depth at its label, and all depths lie between zero and a peak.  The
rules for that are those of a type system, read front to back.

A revision of the code keeps to the same labels and the same peak: what an old
window did to the depth the new one does as well, on a way that goes no
higher.
-/

namespace StackAssembler

namespace Instr

/-- Instructions that pass control to the next one and to no other, and that no
jump can name. -/
def isStraight : Instr → Bool
  | label _ | jump _ | branch .. | jumpPtr .. | ret _ => false
  | _ => true

/-- Straight instructions that do not refer to the stack's top. -/
def isPlain : Instr → Bool
  | pushStackAddr _ => false
  | instr => instr.isStraight

theorem isStraight_of_isPlain {instr : Instr} (plain : instr.isPlain = true) :
    instr.isStraight = true := by
  cases instr <;> first | rfl | cases plain

theorem marks?_of_isStraight {instr : Instr}
    (straight : instr.isStraight = true) : instr.marks? = none := by
  cases instr <;> first | rfl | cases straight

end Instr

namespace StackDepth

open Flow Window

/-- A depth from zero up to a peak. -/
def Within (peak depth : Int) : Prop :=
  0 ≤ depth ∧ depth ≤ peak

/-- Code that has the given depth at each of its labels and stays within a
peak.  The depth on arrival is `none` where control arrives by jumps only. -/
inductive Paced (level : Label → Int) (peak : Int) :
    Option Int → List Instr → Prop
  | done {incoming : Option Int}
      (within : ∀ depth ∈ incoming, Within peak depth) :
      Paced level peak incoming []
  | label {incoming : Option Int} {name : Label} {rest : List Instr}
      (agrees : ∀ depth ∈ incoming, depth = level name)
      (within : Within peak (level name))
      (onward : Paced level peak (some (level name)) rest) :
      Paced level peak incoming (.label name :: rest)
  | plain {instr : Instr} {depth : Int} {rest : List Instr}
      (plain : instr.isPlain = true) (within : Within peak depth)
      (onward : Paced level peak (some (depth + instr.stackChange)) rest) :
      Paced level peak (some depth) (instr :: rest)
  | jump {name : Label} {depth : Int} {rest : List Instr}
      (within : Within peak depth) (agrees : depth = level name)
      (onward : Paced level peak none rest) :
      Paced level peak (some depth) (.jump (.label name) :: rest)
  | branch {cond : Condition} {name : Label} {depth : Int}
      {rest : List Instr} (within : Within peak depth)
      (agrees : depth = level name)
      (onward : Paced level peak (some depth) rest) :
      Paced level peak (some depth) (.branch cond (.label name) :: rest)
  | ret {count : UInt16} {depth : Int} {rest : List Instr}
      (within : Within peak depth) (onward : Paced level peak none rest) :
      Paced level peak (some depth) (.ret count :: rest)

section Windows

variable {level : Label → Int} {peak depth : Int} {incoming : Option Int}
  {instr : Instr} {rest : List Instr}

theorem Paced.within (paced : Paced level peak (some depth) rest) :
    Within peak depth := by
  cases paced with
  | done within => exact within depth rfl
  | label agrees within => exact agrees depth rfl ▸ within
  | plain _ within | jump within | branch within | ret within => exact within

/-- Control arrives at an instruction without a label from the one before. -/
theorem Paced.exists_depth (paced : Paced level peak incoming (instr :: rest))
    (unmarked : instr.marks? = none) : ∃ depth, incoming = some depth := by
  cases paced with
  | label => simp [Instr.marks?] at unmarked
  | plain | jump | branch | ret => exact ⟨_, rfl⟩

theorem paced_plain_iff (plain : instr.isPlain = true) :
    Paced level peak (some depth) (instr :: rest) ↔
      Within peak depth ∧
        Paced level peak (some (depth + instr.stackChange)) rest := by
  constructor
  · intro paced
    cases paced with
    | plain _ within onward => exact ⟨within, onward⟩
    | label | jump | branch | ret => cases plain
  · rintro ⟨within, onward⟩
    exact .plain plain within onward

theorem paced_label_iff {name : Label} :
    Paced level peak incoming (.label name :: rest) ↔
      (∀ depth ∈ incoming, depth = level name) ∧
        Within peak (level name) ∧
        Paced level peak (some (level name)) rest := by
  constructor
  · intro paced
    cases paced with
    | label agrees within onward => exact ⟨agrees, within, onward⟩
    | plain plain => cases plain
  · rintro ⟨agrees, within, onward⟩
    exact .label agrees within onward

theorem paced_jump_iff {name : Label} :
    Paced level peak (some depth) (.jump (.label name) :: rest) ↔
      Within peak depth ∧ depth = level name ∧
        Paced level peak none rest := by
  constructor
  · intro paced
    cases paced with
    | jump within agrees onward => exact ⟨within, agrees, onward⟩
    | plain plain => cases plain
  · rintro ⟨within, agrees, onward⟩
    exact .jump within agrees onward

theorem paced_branch_iff {cond : Condition} {name : Label} :
    Paced level peak (some depth) (.branch cond (.label name) :: rest) ↔
      Within peak depth ∧ depth = level name ∧
        Paced level peak (some depth) rest := by
  constructor
  · intro paced
    cases paced with
    | branch within agrees onward => exact ⟨within, agrees, onward⟩
    | plain plain => cases plain
  · rintro ⟨within, agrees, onward⟩
    exact .branch within agrees onward

theorem paced_ret_iff {count : UInt16} :
    Paced level peak (some depth) (.ret count :: rest) ↔
      Within peak depth ∧ Paced level peak none rest := by
  constructor
  · intro paced
    cases paced with
    | ret within onward => exact ⟨within, onward⟩
    | plain plain => cases plain
  · rintro ⟨within, onward⟩
    exact .ret within onward

theorem Paced.drop
    (paced : Paced level peak (some depth) (instr :: rest))
    (plain : instr.isPlain = true) (idle : instr.stackChange = 0) :
    Paced level peak (some depth) rest := by
  obtain ⟨-, onward⟩ := (paced_plain_iff plain).mp paced
  rwa [idle, Int.add_zero] at onward

theorem Paced.alter {new : Instr}
    (paced : Paced level peak (some depth) (instr :: rest))
    (plain : instr.isPlain = true) (newPlain : new.isPlain = true)
    (change : new.stackChange = instr.stackChange) :
    Paced level peak (some depth) (new :: rest) := by
  obtain ⟨within, onward⟩ := (paced_plain_iff plain).mp paced
  exact .plain newPlain within (change ▸ onward)

variable {first second third : Instr}

theorem Paced.join {new : Instr}
    (paced : Paced level peak (some depth) (first :: second :: rest))
    (firstPlain : first.isPlain = true) (secondPlain : second.isPlain = true)
    (newPlain : new.isPlain = true)
    (change : new.stackChange = first.stackChange + second.stackChange) :
    Paced level peak (some depth) (new :: rest) := by
  obtain ⟨within, later⟩ := (paced_plain_iff firstPlain).mp paced
  obtain ⟨-, onward⟩ := (paced_plain_iff secondPlain).mp later
  rw [Int.add_assoc, ← change] at onward
  exact .plain newPlain within onward

/-- Two instructions may stand for three of the same effect, if the depth
between them was met before. -/
theorem Paced.condense {new last : Instr}
    (paced : Paced level peak (some depth)
      (first :: second :: third :: rest))
    (firstPlain : first.isPlain = true) (secondPlain : second.isPlain = true)
    (thirdPlain : third.isPlain = true) (newPlain : new.isPlain = true)
    (lastPlain : last.isPlain = true)
    (between : new.stackChange = first.stackChange ∨ new.stackChange = 0)
    (change : new.stackChange + last.stackChange =
      first.stackChange + second.stackChange + third.stackChange) :
    Paced level peak (some depth) (new :: last :: rest) := by
  obtain ⟨within, later⟩ := (paced_plain_iff firstPlain).mp paced
  obtain ⟨firstWithin, later⟩ := (paced_plain_iff secondPlain).mp later
  obtain ⟨-, onward⟩ := (paced_plain_iff thirdPlain).mp later
  have newWithin : Within peak (depth + new.stackChange) := by
    rcases between with same | idle
    · rwa [same]
    · rwa [idle, Int.add_zero]
  refine .plain newPlain within (.plain lastPlain newWithin ?_)
  rw [Int.add_assoc, change, ← Int.add_assoc, ← Int.add_assoc]
  exact onward

end Windows

section Rules

theorem isPlain_of_write? {instr : Instr} {slot : Slot}
    (writes : instr.access.write? = some slot) :
    instr.isPlain = true ∧ instr.stackChange = 0 := by
  cases instr <;> first | exact ⟨rfl, rfl⟩ | cases writes

theorem stackChange_of_unitPush {instr : Instr} (pushes : UnitPush instr) :
    instr.isPlain = true ∧ instr.stackChange = 1 := by
  cases pushes <;> exact ⟨rfl, rfl⟩

theorem stackChange_of_isPlainPush {instr : Instr}
    (pushes : isPlainPush instr = true) :
    instr.isPlain = true ∧ instr.stackChange = 1 := by
  cases instr <;> first | exact ⟨rfl, rfl⟩ | cases pushes

/-- Discarding fewer units is discarding and pushing the difference. -/
theorem stackChange_pop_sub {count units : UInt16} (enough : units ≤ count) :
    (Instr.pop (count - units)).stackChange =
      units.toNat + (Instr.pop count).stackChange := by
  have difference := UInt16.toNat_sub_of_le _ _ enough
  have bound := UInt16.le_iff_toNat_le.mp enough
  simp only [Instr.stackChange]
  omega

variable {level : Label → Int} {peak depth : Int}

/-- The patch of a rule keeps the depths at the labels and the peak. -/
theorem Paced.patched {scope : Scope} {window : List Instr} {patch : Patch}
    (rule : Rule scope window patch)
    (paced : Paced level peak (some depth) window) :
    Paced level peak (some depth) (patch.fillInstrs window) := by
  cases rule with
  | unusedWrite writes =>
      obtain ⟨plain, idle⟩ := isPlain_of_write? writes
      exact paced.drop plain idle
  | unusedGlobalRead => exact paced.alter rfl rfl rfl
  | compareConst | arithConst | arithConstLeft | arithCopy | arithImmCopy
  | constCopy | globalPush | constPush | constStore | globalWrite
  | globalReadUsed | globalRead | increment | decrement | frameRead
  | constRef => exact paced.join rfl rfl rfl rfl
  | registerBack | suspendBefore | lineBefore =>
      exact (paced.drop rfl rfl).drop rfl rfl
  | jitEntry | popNone | pushNone | suspendTwice | lineTwice | discardRead =>
      exact paced.drop rfl rfl
  | checkRead => exact paced.condense rfl rfl rfl rfl rfl (.inl rfl) rfl
  | checkFrame enough | checkVar enough =>
      refine paced.condense rfl rfl rfl rfl rfl (.inr rfl) ?_
      rw [stackChange_pop_sub enough]
      exact Int.zero_add _
  | discardUnit pushes enough =>
      obtain ⟨plain, change⟩ := stackChange_of_unitPush pushes
      refine paced.join plain rfl rfl ?_
      rw [stackChange_pop_sub enough, change]
      rfl
  | @discardConst8 _ count _ enough =>
      have two : 2 ≤ count := UInt16.le_iff_toNat_le.mpr
        (UInt16.lt_iff_toNat_lt.mp enough)
      refine paced.join rfl rfl rfl ?_
      rw [stackChange_pop_sub two]
      rfl
  | discardRead8 enough =>
      refine paced.join rfl rfl rfl ?_
      rw [stackChange_pop_sub (UInt16.le_of_lt enough)]
      rfl
  | pushTwice fits =>
      refine paced.join rfl rfl rfl ?_
      simp only [Instr.stackChange, UInt16.toNat_add]
      omega
  | branchUnless | branchIf =>
      cases paced.drop rfl rfl with
      | branch within agrees onward => exact .branch within agrees onward
      | plain plain => cases plain
  | popReturn =>
      -- The return leaves the frame from any depth.
      obtain ⟨within, later⟩ := (paced_plain_iff rfl).mp paced
      exact .ret within (paced_ret_iff.mp later).2
  | jumpNext =>
      obtain ⟨-, agrees, later⟩ := paced_jump_iff.mp paced
      obtain ⟨-, within, onward⟩ := paced_label_iff.mp later
      refine .label (fun _ arrives => ?_) within onward
      exact (Option.some.inj arrives).symm.trans agrees

end Rules

section Revisions

variable {level : Label → Int} {peak depth : Int} {incoming : Option Int}

theorem isStraight_of_crossable {slot : Slot} {instr : Instr}
    (passed : Crossable slot instr) : instr.isStraight = true := by
  have unbarred := passed.unbarred
  cases instr <;> first | rfl | simp [Instr.isBarrier, Instr.isJump,
    Instr.dropsTemporaries] at unbarred

theorem Paced.postponed {slot : Slot} {value : UInt32}
    {skipped rest : List Instr}
    (paced : Paced level peak (some depth) (skipped ++ rest))
    (passed : ∀ instr ∈ skipped, Crossable slot instr) :
    Paced level peak (some depth)
      (skipped ++ .setVar4 slot value :: rest) := by
  induction skipped generalizing depth with
  | nil => exact .plain rfl paced.within ((Int.add_zero depth).symm ▸ paced)
  | cons instr skipped ih =>
      have straight := isStraight_of_crossable
        (passed instr List.mem_cons_self)
      cases paced with
      | plain plain within onward =>
          exact .plain plain within (ih onward fun other member =>
            passed other (List.mem_cons_of_mem _ member))
      | label | jump | branch | ret => cases straight

variable {temporaries : SlotSet} {keepJitEntries : Bool}
  {code old new : List Instr}

theorem Paced.revised
    (revision : Revision temporaries keepJitEntries code old new)
    (paced : Paced level peak (some depth) old) :
    Paced level peak (some depth) new := by
  cases revision with
  | patch rule => exact paced.patched rule
  | postpone passed => exact (paced.drop rfl rfl).postponed passed
  | exchange firstPush secondPush =>
      obtain ⟨firstPlain, firstChange⟩ :=
        stackChange_of_isPlainPush firstPush
      obtain ⟨secondPlain, secondChange⟩ :=
        stackChange_of_isPlainPush secondPush
      refine paced.condense firstPlain secondPlain rfl secondPlain firstPlain
        (.inl ?_) ?_
      · rw [firstChange, secondChange]
      · rw [firstChange, secondChange]
        rfl

/-- The window of a rule starts with an instruction that marks no label. -/
theorem exists_cons_of_rule {scope : Scope} {window : List Instr}
    {patch : Patch} (rule : Rule scope window patch) :
    ∃ instr rest, window = instr :: rest ∧ instr.marks? = none := by
  cases rule with
  | unusedWrite writes => exact ⟨_, _, rfl, marks?_eq_none_of_write? writes⟩
  | discardUnit pushes => exact ⟨_, _, rfl, pushes.unmarked⟩
  | _ => exact ⟨_, _, rfl, rfl⟩

theorem exists_cons_of_revision
    (revision : Revision temporaries keepJitEntries code old new) :
    ∃ instr rest, old = instr :: rest ∧ instr.marks? = none := by
  cases revision with
  | patch rule => exact exists_cons_of_rule rule
  | postpone => exact ⟨_, _, rfl, rfl⟩
  | exchange firstPush =>
      have plain := (stackChange_of_isPlainPush firstPush).1
      exact ⟨_, _, rfl, Instr.marks?_of_isStraight
        (Instr.isStraight_of_isPlain plain)⟩

/-- A revision anywhere in the code keeps the depths at the labels and the
peak. -/
theorem Paced.revised_behind
    (revision : Revision temporaries keepJitEntries code old new)
    {front : List Instr} (paced : Paced level peak incoming (front ++ old)) :
    Paced level peak incoming (front ++ new) := by
  induction front generalizing incoming with
  | nil =>
      obtain ⟨instr, rest, rfl, unmarked⟩ := exists_cons_of_revision revision
      obtain ⟨depth, rfl⟩ := paced.exists_depth unmarked
      exact paced.revised revision
  | cons instr front ih =>
      cases paced with
      | label agrees within onward => exact .label agrees within (ih onward)
      | plain plain within onward => exact .plain plain within (ih onward)
      | jump within agrees onward => exact .jump within agrees (ih onward)
      | branch within agrees onward => exact .branch within agrees (ih onward)
      | ret within onward => exact .ret within (ih onward)

end Revisions

/-- Code from which instructions without an effect on the depth are left out,
or exchanged for others of the same effect. -/
inductive Idles : List Instr → List Instr → Prop
  | done : Idles [] []
  | keep (instr : Instr) {before after : List Instr}
      (idles : Idles before after) : Idles (instr :: before) (instr :: after)
  | alter {old new : Instr} {before after : List Instr}
      (oldPlain : old.isPlain = true) (newPlain : new.isPlain = true)
      (change : new.stackChange = old.stackChange)
      (idles : Idles before after) : Idles (old :: before) (new :: after)
  | drop {instr : Instr} {before after : List Instr}
      (plain : instr.isPlain = true) (idle : instr.stackChange = 0)
      (idles : Idles before after) : Idles (instr :: before) after

/-- Without instructions that have no effect the code stays within the same
peaks. -/
theorem Idles.paced_iff {level : Label → Int} {bound peak : Int}
    {incoming : Option Int} {before after : List Instr}
    (idles : Idles before after) (paced : Paced level bound incoming before) :
    Paced level peak incoming before ↔ Paced level peak incoming after := by
  induction idles generalizing incoming with
  | done => rfl
  | keep instr _ ih =>
      cases paced with
      | label _ _ onward => rw [paced_label_iff, paced_label_iff, ih onward]
      | plain plain _ onward =>
          rw [paced_plain_iff plain, paced_plain_iff plain, ih onward]
      | jump _ _ onward => rw [paced_jump_iff, paced_jump_iff, ih onward]
      | branch _ _ onward =>
          rw [paced_branch_iff, paced_branch_iff, ih onward]
      | ret _ onward => rw [paced_ret_iff, paced_ret_iff, ih onward]
  | alter oldPlain newPlain change _ ih =>
      obtain ⟨depth, rfl⟩ := paced.exists_depth
        (Instr.marks?_of_isStraight (Instr.isStraight_of_isPlain oldPlain))
      obtain ⟨-, onward⟩ := (paced_plain_iff oldPlain).mp paced
      rw [paced_plain_iff oldPlain, paced_plain_iff newPlain, change,
        ih onward]
  | drop plain idle _ ih =>
      obtain ⟨depth, rfl⟩ := paced.exists_depth
        (Instr.marks?_of_isStraight (Instr.isStraight_of_isPlain plain))
      have later := paced.drop plain idle
      rw [paced_plain_iff plain, idle, Int.add_zero, ih later]
      exact ⟨And.right, fun onward => ⟨onward.within, onward⟩⟩

end StackDepth

end StackAssembler
