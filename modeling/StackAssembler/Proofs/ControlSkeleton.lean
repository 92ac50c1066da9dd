import StackAssembler.Proofs.Rewriting
import Mathlib.Data.List.Permutation

/-!
# The control skeleton of a routine

The skeleton of a routine is what is left of it without its straight-line code:
labels, jumps, jump tables, calls, allocations and returns, in order and with
their handles.  Tightening may compute the condition of a branch anew, so
conditions are not part of it.

A rewrite leaves the skeleton as it is, with one exception.  A jump to the
label that comes next is left out.  So a skeleton after any run of rewrites is
the one before, less some jumps that had become idle.  In particular no label
is touched, and the places that a table of labels names stay the right ones.
-/

namespace StackAssembler

open Relation

/-- What the skeleton keeps of an instruction. -/
inductive Landmark where
  | label (name : Label)
  | jump (target : Target)
  /-- A branch, on whatever condition. -/
  | branch (target : Target)
  | table (slot : Slot) (fanOut : UInt32)
  | call (kind : CallKind) (func : UInt32) (units : UInt16)
  | alloc (typeId func : UInt32) (units : UInt16)
  | ret (count : UInt16)
  deriving DecidableEq

def Instr.landmark? : Instr → Option Landmark
  | label name => some (.label name)
  | jump target => some (.jump target)
  | branch _ target => some (.branch target)
  | jumpPtr slot fanOut => some (.table slot fanOut)
  | call kind func units => some (.call kind func units)
  | alloc typeId func units => some (.alloc typeId func units)
  | ret count => some (.ret count)
  | _ => none

/-- A landmark with the handle of its instruction. -/
def Entry.landmark? (entry : Entry) : Option (Handle × Landmark) :=
  entry.instr.landmark?.map fun landmark => (entry.handle, landmark)

def skeleton (entries : List Entry) : List (Handle × Landmark) :=
  entries.filterMap Entry.landmark?

section Skeletons

variable {entry : Entry}

@[simp]
theorem skeleton_append (first second : List Entry) :
    skeleton (first ++ second) = skeleton first ++ skeleton second :=
  List.filterMap_append

theorem skeleton_cons (entry : Entry) (entries : List Entry) :
    skeleton (entry :: entries) =
      entry.landmark?.toList ++ skeleton entries := by
  cases found : entry.landmark? <;> simp [skeleton, found]

theorem skeleton_cons_of_plain (plain : entry.instr.landmark? = none)
    (entries : List Entry) : skeleton (entry :: entries) = skeleton entries := by
  simp [skeleton_cons, Entry.landmark?, plain]

end Skeletons

/-- One jump is left out that stands directly in front of the label that it
goes to. -/
inductive SkipsJump :
    List (Handle × Landmark) → List (Handle × Landmark) → Prop
  | skip {front back : List (Handle × Landmark)} {jump marker : Handle}
      {name : Label} :
      SkipsJump
        (front ++ (jump, .jump (.label name)) :: (marker, .label name) :: back)
        (front ++ (marker, .label name) :: back)

namespace Window

/-- A patch drops no landmark and puts none where there was another
instruction. -/
inductive LandmarkSafe : List Instr → Patch → Prop
  | done (code : List Instr) : LandmarkSafe code []
  | drop {instr : Instr} {code : List Instr} {patch : Patch}
      (plain : instr.landmark? = none) (safe : LandmarkSafe code patch) :
      LandmarkSafe (instr :: code) (none :: patch)
  | put {old new : Instr} {code : List Instr} {patch : Patch}
      (same : new.landmark? = old.landmark?) (safe : LandmarkSafe code patch) :
      LandmarkSafe (old :: code) (some new :: patch)

theorem LandmarkSafe.skeleton_fill {code : List Instr} {patch : Patch}
    (safe : LandmarkSafe code patch) {window : List Entry}
    (same : window.map (·.instr) = code) :
    skeleton (patch.fill window) = skeleton window := by
  induction safe generalizing window with
  | done code => rfl
  | drop plain safe ih =>
      obtain ⟨entry, rest, rfl, rfl, rfl⟩ := List.map_eq_cons_iff.mp same
      rw [Patch.fill, skeleton_cons_of_plain plain, ih rfl]
  | put alike safe ih =>
      obtain ⟨entry, rest, rfl, rfl, rfl⟩ := List.map_eq_cons_iff.mp same
      rw [Patch.fill, skeleton_cons, skeleton_cons, ih rfl, Entry.landmark?,
        Entry.landmark?, alike]

theorem landmark?_of_write? {instr : Instr} {slot : Slot}
    (writes : instr.access.write? = some slot) : instr.landmark? = none := by
  cases instr with
  | label | jump | branch | jumpPtr | call | alloc | ret => cases writes
  | _ => rfl

theorem landmark?_of_isPlainPush {instr : Instr}
    (pushes : isPlainPush instr = true) : instr.landmark? = none := by
  cases instr with
  | label | jump | branch | jumpPtr | call | alloc | ret => cases pushes
  | _ => rfl

/-- Every rule but one keeps all landmarks.  That one drops a jump to the label
that comes next. -/
theorem Rule.landmarkSafe {scope : Scope} {window : List Instr} {patch : Patch}
    (rule : Rule scope window patch) :
    LandmarkSafe window patch ∨
      ∃ name rest, window = .jump (.label name) :: .label name :: rest ∧
        patch = [none, some (.label name)] := by
  cases rule with
  | jumpNext => exact .inr ⟨_, _, rfl, rfl⟩
  | unusedWrite writes =>
      exact .inl (.drop (landmark?_of_write? writes) (.done _))
  | unusedGlobalRead => exact .inl (.put rfl (.done _))
  | compareConst | arithConst | arithConstLeft | globalPush | constPush
  | constStore | discardConst8 | discardRead | discardRead8 | branchUnless
  | branchIf | popReturn | suspendTwice | lineTwice =>
      exact .inl (.drop rfl (.put rfl (.done _)))
  | arithCopy | arithImmCopy | constCopy | globalWrite | globalReadUsed
  | globalRead | increment | decrement | frameRead | pushTwice | constRef =>
      exact .inl (.put rfl (.drop rfl (.done _)))
  | registerBack | suspendBefore | lineBefore =>
      exact .inl (.drop rfl (.drop rfl (.done _)))
  | checkRead => exact .inl (.put rfl (.put rfl (.drop rfl (.done _))))
  | checkFrame | checkVar =>
      exact .inl (.put rfl (.drop rfl (.put rfl (.done _))))
  | jitEntry | popNone | pushNone => exact .inl (.drop rfl (.done _))
  | discardUnit pushes =>
      refine .inl (.drop ?_ (.put rfl (.done _)))
      cases pushes <;> rfl

/-- A rewrite keeps the skeleton or leaves one idle jump out of it. -/
theorem Rewrite.skips {temporaries : SlotSet} {keepJitEntries : Bool}
    {before after : List Entry}
    (rewrite : Rewrite temporaries keepJitEntries before after) :
    ReflGen SkipsJump (skeleton before) (skeleton after) := by
  cases rewrite with
  | @patch front window patch rule =>
      rcases rule.landmarkSafe with safe | ⟨name, rest, same, rfl⟩
      · rw [skeleton_append, skeleton_append, safe.skeleton_fill rfl]
      · obtain ⟨jump, others, rfl, jumps, later⟩ :=
          List.map_eq_cons_iff.mp same
        obtain ⟨marker, back, rfl, marks, rfl⟩ :=
          List.map_eq_cons_iff.mp later
        have skip : SkipsJump _ _ := @SkipsJump.skip (skeleton front)
          (skeleton back) jump.handle marker.handle name
        simpa [Patch.fill, skeleton_cons, Entry.landmark?, jumps, marks,
          Instr.landmark?] using ReflGen.single skip
  | @postpone front skipped rest entry reader slot value constant =>
      have plain : entry.instr.landmark? = none := by rw [constant]; rfl
      simp only [skeleton_append, skeleton_cons_of_plain plain]
      exact .refl
  | @exchange front rest first second swap firstPush secondPush swaps =>
      have plainSwap : swap.instr.landmark? = none := by rw [swaps]; rfl
      simp only [skeleton_append, skeleton_cons_of_plain plainSwap,
        skeleton_cons_of_plain (landmark?_of_isPlainPush firstPush),
        skeleton_cons_of_plain (landmark?_of_isPlainPush secondPush)]
      exact .refl

/-- Any number of rewrites leaves idle jumps out of the skeleton one by
one. -/
theorem skips_of_rewrites {temporaries : SlotSet} {keepJitEntries : Bool}
    {before after : List Entry}
    (rewrites : ReflTransGen (Rewrite temporaries keepJitEntries)
      before after) :
    ReflTransGen SkipsJump (skeleton before) (skeleton after) :=
  related_of_rewrites rewrites (fun _ => .refl) .trans
    fun rewrite => rewrite.skips.to_reflTransGen

end Window

/-- The labels of a skeleton with the handles of their markers. -/
def markers (landmarks : List (Handle × Landmark)) : List (Label × Handle) :=
  landmarks.filterMap fun
    | (handle, .label name) => some (name, handle)
    | _ => none

theorem SkipsJump.markers_eq {before after : List (Handle × Landmark)}
    (skips : SkipsJump before after) : markers after = markers before := by
  cases skips with
  | skip => simp [markers]

theorem markers_skeleton (entries : List Entry) :
    markers (skeleton entries) = entries.filterMap fun entry =>
      entry.instr.marks?.map fun name => (name, entry.handle) := by
  rw [markers, skeleton, List.filterMap_filterMap]
  congr 1
  funext ⟨handle, instr, depth⟩
  cases instr <;> rfl

theorem labelHandles_of_rewrites {temporaries : SlotSet}
    {keepJitEntries : Bool} {routine left : Routine}
    (rewrites : ReflTransGen (Window.Rewrite temporaries keepJitEntries)
      routine.entries left.entries) :
    left.labelHandles = routine.labelHandles := by
  have same : ∀ {before after : List (Handle × Landmark)},
      ReflTransGen SkipsJump before after →
        markers after = markers before := by
    intro before after skips
    induction skips with
    | refl => rfl
    | tail _ skip ih => exact skip.markers_eq.trans ih
  rw [Routine.labelHandles, Routine.labelHandles, ← markers_skeleton,
    ← markers_skeleton, same (Window.skips_of_rewrites rewrites)]

/-- The control skeleton survives tightening.  For a routine with distinct
labels, the skeleton after tightening is the one before, less some jumps, each
of which stands directly in front of the label it goes to when it is left
out. -/
theorem tighten_keeps_skeleton {routine : Routine}
    (distinct : (Flow.labels routine.instrs).Nodup) (keepJitEntries : Bool) :
    ∃ count tightened,
      routine.tighten keepJitEntries = .ok (count, tightened) ∧
        ReflTransGen SkipsJump (skeleton routine.entries)
          (skeleton tightened.entries) := by
  obtain ⟨count, tightened, done, -, rewrites⟩ :=
    Window.exists_tighten distinct keepJitEntries
  exact ⟨count, tightened, done, Window.skips_of_rewrites rewrites⟩

/-- A routine in which two jumps become idle, one because the code behind it
goes away and the other because the first one does. -/
def hopping : Routine :=
  Routine.ofList [.jump (.label ⟨2⟩), .jump (.label ⟨2⟩), .push 0, .label ⟨2⟩,
    .test .zero, .branch .zero (.label ⟨2⟩), .call .system 7 1, .jitEntry 0,
    .pop 1, .ret 0]

theorem tighten_keeps_skeleton_hopping :
    (Flow.labels hopping.instrs).Nodup ∧
      ∃ count tightened, hopping.tighten false = .ok (count, tightened) ∧
        skeleton hopping.entries =
          [(⟨0, 0⟩, .jump (.label ⟨2⟩)), (⟨1, 0⟩, .jump (.label ⟨2⟩)),
            (⟨3, 0⟩, .label ⟨2⟩), (⟨5, 0⟩, .branch (.label ⟨2⟩)),
            (⟨6, 0⟩, .call .system 7 1), (⟨9, 0⟩, .ret 0)] ∧
        skeleton tightened.entries =
          [(⟨3, 0⟩, .label ⟨2⟩), (⟨5, 0⟩, .branch (.label ⟨2⟩)),
            (⟨6, 0⟩, .call .system 7 1), (⟨9, 0⟩, .ret 0)] ∧
        ReflTransGen SkipsJump (skeleton hopping.entries)
          (skeleton tightened.entries) := by
  have distinct : (Flow.labels hopping.instrs).Nodup := by decide
  obtain ⟨count, tightened, done, skips⟩ :=
    tighten_keeps_skeleton distinct false
  have outcome : (hopping.tighten false).map (fun result =>
      skeleton result.2.entries) =
        .ok [(⟨3, 0⟩, .label ⟨2⟩), (⟨5, 0⟩, .branch (.label ⟨2⟩)),
          (⟨6, 0⟩, .call .system 7 1), (⟨9, 0⟩, .ret 0)] := by cbv
  rw [done] at outcome
  exact ⟨distinct, count, tightened, done, by rfl, Except.ok.inj outcome,
    skips⟩

end StackAssembler
