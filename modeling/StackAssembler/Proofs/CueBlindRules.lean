import StackAssembler.Window.Scan
import StackAssembler.Proofs.LineLookup

/-!
# Rules that are blind to cues

What an instruction does to slots, register, stack and labels does not depend
on the cue of a line.  So the search for readers of a slot and the window rules
come to the same answers when all cues are set, and a line that a rule keeps
has its new cue.
-/

namespace StackAssembler

open Liveness Window

namespace Instr

variable (instr : Instr) (cue : Bool)

theorem withCue_cases :
    (∃ pos old, instr = .line pos old) ∨
      instr.source? = none ∧ instr.withCue cue = instr := by
  cases instr with
  | line pos old => exact .inl ⟨pos, old, rfl⟩
  | _ => exact .inr ⟨rfl, rfl⟩

theorem withCue_of_noLine {instr : Instr} (noLine : instr.source? = none)
    (cue : Bool) : instr.withCue cue = instr := by
  rcases instr.withCue_cases cue with ⟨pos, old, rfl⟩ | ⟨-, same⟩
  · cases noLine
  · exact same

/-- What does not see the cue of a line sees no cue at all. -/
theorem apply_withCue {Property : Type} (property : Instr → Property)
    (blind : ∀ pos old, property (.line pos cue) = property (.line pos old)) :
    property (instr.withCue cue) = property instr := by
  rcases instr.withCue_cases cue with ⟨pos, old, rfl⟩ | ⟨-, same⟩
  · exact blind pos old
  · rw [same]

@[simp]
theorem withCue_withCue (other : Bool) :
    (instr.withCue other).withCue cue = instr.withCue cue := by
  cases instr <;> rfl

@[simp]
theorem source?_withCue : (instr.withCue cue).source? = instr.source? :=
  apply_withCue instr cue source? fun _ _ => rfl

@[simp]
theorem marks?_withCue : (instr.withCue cue).marks? = instr.marks? :=
  apply_withCue instr cue marks? fun _ _ => rfl

@[simp]
theorem access_withCue : (instr.withCue cue).access = instr.access :=
  apply_withCue instr cue access fun _ _ => rfl

@[simp]
theorem dropsTemporaries_withCue :
    (instr.withCue cue).dropsTemporaries = instr.dropsTemporaries :=
  apply_withCue instr cue dropsTemporaries fun _ _ => rfl

@[simp]
theorem isBarrier_withCue : (instr.withCue cue).isBarrier = instr.isBarrier :=
  apply_withCue instr cue isBarrier fun _ _ => rfl

@[simp]
theorem isSwap_withCue : (instr.withCue cue).isSwap = instr.isSwap :=
  apply_withCue instr cue isSwap fun _ _ => rfl

@[simp]
theorem isPlainPush_withCue :
    isPlainPush (instr.withCue cue) = isPlainPush instr :=
  apply_withCue instr cue isPlainPush fun _ _ => rfl

@[simp]
theorem isJitEntry_withCue :
    (instr.withCue cue).isJitEntry = instr.isJitEntry :=
  apply_withCue instr cue isJitEntry fun _ _ => rfl

@[simp]
theorem readsRegister_withCue :
    (instr.withCue cue).readsRegister = instr.readsRegister :=
  apply_withCue instr cue readsRegister fun _ _ => rfl

@[simp]
theorem endsRegisterScan_withCue :
    (instr.withCue cue).endsRegisterScan = instr.endsRegisterScan :=
  apply_withCue instr cue endsRegisterScan fun _ _ => rfl

def recue (code : List Instr) : List Instr :=
  code.map (·.withCue cue)

variable {cue}

@[simp]
theorem recue_cons (instr : Instr) (code : List Instr) :
    recue cue (instr :: code) = instr.withCue cue :: recue cue code := rfl

@[simp]
theorem labels_recue (code : List Instr) :
    Flow.labels (recue cue code) = Flow.labels code := by
  simp [Flow.labels, recue, List.filterMap_map]

end Instr

open Instr

/-! ## Liveness -/

namespace Liveness

variable (cue : Bool)

section Paths

variable {α : Type} [DecidableEq α]

theorem follow_recue (labels : List (Label × α)) (slot : Slot)
    (code : List Instr) (frontier : Frontier α) :
    follow labels slot (recue cue code) frontier =
      follow labels slot code frontier := by
  induction code generalizing frontier with
  | nil => rfl
  | cons instr code ih =>
      rcases instr.withCue_cases cue with ⟨pos, old, rfl⟩ | ⟨-, same⟩
      · exact ih frontier
      · simp only [recue_cons, same, follow, ih]

theorem search_recue (labels : List (Label × α)) (slot : Slot)
    {codeAt? cuedAt? : α → Option (List Instr)}
    (cued : ∀ place, cuedAt? place = (codeAt? place).map (recue cue))
    (frontier : Frontier α) :
    search labels slot cuedAt? frontier =
      search labels slot codeAt? frontier := by
  fun_induction search labels slot codeAt? frontier with
  | case1 frontier order => rw [search, order]
  | case2 frontier place pending order missing =>
      rw [search, order]
      simp only [cued, missing, Option.map_none]
  | case3 frontier place pending order code found read =>
      rw [search, order]
      simp only [cued, found, Option.map_some]
      split
      · rfl
      · rename_i later followed
        rw [follow_recue, read] at followed
        cases followed
  | case4 frontier place pending order code found later followed ih =>
      rw [search, order]
      simp only [cued, found, Option.map_some]
      split
      · rename_i read
        rw [follow_recue, followed] at read
        cases read
      · rename_i other same
        rw [follow_recue, followed] at same
        obtain rfl := Option.some.inj same
        exact ih

end Paths

theorem codeAtLabel?_recue (code : List Instr) (name : Label) :
    codeAtLabel? (recue cue code) name =
      (codeAtLabel? code name).map (recue cue) := by
  have dropped : (recue cue code).dropWhile (·.marks? ≠ some name) =
      recue cue (code.dropWhile (·.marks? ≠ some name)) := by
    simp [recue, List.dropWhile_map, Function.comp_def]
  rw [codeAtLabel?, codeAtLabel?, dropped]
  cases code.dropWhile (·.marks? ≠ some name) <;> rfl

theorem unreadFrom_recue (code : List Instr) (slot : Slot)
    (rest : List Instr) :
    unreadFrom (recue cue code) slot (recue cue rest) =
      unreadFrom code slot rest := by
  simp only [unreadFrom, answerFrom, labels_recue, follow_recue,
    search_recue cue _ _ (codeAtLabel?_recue cue code)]

theorem registerUsed_recue (code : List Instr) :
    registerUsed (recue cue code) = registerUsed code := by
  induction code with
  | nil => rfl
  | cons instr code ih => simp [registerUsed, ih]

end Liveness

/-! ## The window rules -/

/-- Set the cues of the lines that a patch keeps. -/
def Patch.recue (cue : Bool) (patch : Patch) : Patch :=
  patch.map (Option.map (·.withCue cue))

namespace Window

/-- A scope answers about code with its cues set as another scope does about
the code before. -/
structure Scope.Recued (cue : Bool) (scope cued : Scope) : Prop where
  dead_recue : ∀ slot rest,
    cued.dead slot (Instr.recue cue rest) = scope.dead slot rest
  keepJitEntries_eq : cued.keepJitEntries = scope.keepJitEntries

theorem recued_scopeOf (cue : Bool) (temporaries : SlotSet)
    (keepJitEntries : Bool) (code : List Instr) :
    Scope.Recued cue (scopeOf temporaries keepJitEntries code)
      (scopeOf temporaries keepJitEntries (Instr.recue cue code)) where
  dead_recue slot rest := by simp only [scopeOf, unreadFrom_recue]
  keepJitEntries_eq := rfl

section Rules

variable (cue : Bool)

theorem dropWrite_recue (used : Bool) (instr : Instr) :
    dropWrite used (instr.withCue cue) = (dropWrite used instr).recue cue := by
  cases instr with
  | loadGlobalReadReg4 dst global =>
      simp only [dropWrite, withCue]
      split <;> rfl
  | _ => rfl

-- The rules decide on the constructors of the first instruction, then on those
-- of the next one.  Most of them match no rule, with any cues.

theorem forward_recue (dead : Slot → Bool) (first second : Instr) :
    forward dead (first.withCue cue) (second.withCue cue) =
      (forward dead first second).map (·.recue cue) := by
  cases first with
  | setVar4 slot value =>
      cases second with
      | cmp | binOp =>
          simp only [forward, withCue]
          repeat' split
          all_goals rfl
      | copyVar4 | pushVar | copyVarToGlobal4 =>
          simp only [forward, withCue]
          split <;> rfl
      | _ => rfl
  | binOp | binOpImm =>
      cases second with
      | copyVar4 =>
          simp only [forward, withCue]
          split <;> rfl
      | _ => rfl
  | copyRegToVar4 =>
      cases second with
      | copyVarToReg4 =>
          simp only [forward, withCue]
          split <;> rfl
      | _ => rfl
  | copyGlobalToVar4 =>
      cases second with
      | pushVar =>
          simp only [forward, withCue]
          split <;> rfl
      | _ => rfl
  | _ => rfl

theorem checks_recue (window : List Instr) :
    checks (Instr.recue cue window) =
      (checks window).map (·.recue cue) := by
  match window with
  | [] => rfl
  | [first] => cases first <;> rfl
  | [first, second] =>
      cases first with
      | suspend | line | pushFrameAddr | pushVar => cases second <;> rfl
      | _ => rfl
  | first :: second :: third :: rest =>
      cases first with
      | suspend | line =>
          cases second with
          | jitEntry => cases third <;> rfl
          | _ => rfl
      | pushFrameAddr =>
          cases second with
          | chkRefS =>
              cases third with
              | pop count =>
                  simp only [checks, Instr.recue_cons, withCue]
                  split <;> rfl
              | _ => rfl
          | _ => rfl
      | pushVar =>
          cases second with
          | chkRef =>
              cases third with
              | pop count =>
                  simp only [checks, Instr.recue_cons, withCue]
                  split <;> rfl
              | _ => rfl
          | _ => rfl
      | _ => rfl

theorem discard_recue (first : Instr) (count : UInt16) :
    discard (first.withCue cue) count =
      (discard first count).map (·.recue cue) := by
  cases first with
  | pushVar | pushConst | pushRegPtr | pushFrameAddr | pushVarRef | pushConst8
  | readStack4 | readStack8 =>
      simp only [discard, withCue]
      split <;> rfl
  | _ => rfl

theorem throughRegister_recue (used : Bool) (first second : Instr) :
    throughRegister used (first.withCue cue) (second.withCue cue) =
      (throughRegister used first second).map (·.recue cue) := by
  cases first with
  | loadGlobal =>
      cases second with
      | writeVar4 | readReg4 =>
          simp only [throughRegister, withCue]
          split <;> rfl
      | _ => rfl
  | loadVar =>
      cases second with
      | incI | decI =>
          simp only [throughRegister, withCue]
          split <;> rfl
      | _ => rfl
  | test cond =>
      cases second with
      | branch tested target =>
          cases tested with
          | zero | notZero =>
              simp only [throughRegister, withCue]
              split <;> rfl
          | _ => rfl
      | _ => rfl
  | _ => rfl

theorem merge_recue (first second : Instr) :
    merge (first.withCue cue) (second.withCue cue) =
      (merge first second).map (·.recue cue) := by
  cases first with
  | push units =>
      cases second with
      | push =>
          simp only [merge, withCue]
          split <;> rfl
      | _ => rfl
  | pushConst value =>
      cases second with
      | getRef =>
          simp only [merge, withCue]
          repeat' split
          all_goals rfl
      | _ => rfl
  | jump target =>
      cases target with
      | label =>
          cases second with
          | label =>
              simp only [merge, withCue]
              split <;> rfl
          | _ => rfl
      | offset => rfl
  | pushFrameAddr | pop | suspend | line => cases second <;> rfl
  | _ => rfl

theorem fuse_recue (used : Bool) (first second : Instr) :
    fuse used (first.withCue cue) (second.withCue cue) =
      (fuse used first second).map (·.recue cue) := by
  have unfused :
      (throughRegister used (first.withCue cue) (second.withCue cue)).or
          (merge (first.withCue cue) (second.withCue cue)) =
        ((throughRegister used first second).or
          (merge first second)).map (·.recue cue) := by
    rw [throughRegister_recue, merge_recue, Option.map_or]
  cases second with
  | pop count => exact discard_recue cue first count
  | _ => exact unfused

theorem idle_recue (keepJitEntries : Bool) (instr : Instr) :
    idle keepJitEntries (instr.withCue cue) = idle keepJitEntries instr := by
  cases instr <;> rfl

variable {cue}

theorem Scope.Recued.unusedValue {scope cued : Scope}
    (recued : scope.Recued cue cued) (window : List Instr) :
    unusedValue cued (Instr.recue cue window) =
      (unusedValue scope window).map (·.recue cue) := by
  cases window with
  | nil => rfl
  | cons first rest =>
      simp only [Instr.recue_cons, Window.unusedValue, access_withCue,
        recued.dead_recue, registerUsed_recue, dropWrite_recue]
      split
      · rfl
      · cases rest with
        | nil => rfl
        | cons second rest =>
            simp only [Instr.recue_cons, recued.dead_recue, forward_recue]

theorem Scope.Recued.simplify {scope cued : Scope}
    (recued : scope.Recued cue cued) (window : List Instr) :
    simplify cued (Instr.recue cue window) =
      (simplify scope window).map (·.recue cue) := by
  cases window with
  | nil => rfl
  | cons first rest =>
      simp only [Instr.recue_cons, Window.simplify, recued.keepJitEntries_eq,
        idle_recue]
      split
      · rfl
      · cases rest with
        | nil => rfl
        | cons second rest =>
            simp only [Instr.recue_cons, registerUsed_recue, fuse_recue]

end Rules

end Window

end StackAssembler
