import StackAssembler.Routine.Edit
import StackAssembler.Window.Catalog

/-!
# Scanning with the window

The scan moves a cursor through a routine and applies at each place the first
rule that matches.  After a change it steps back two places, since one change
may enable another.  Passes over the routine are repeated until one changes
nothing.  The scan ends because every change makes the code lighter.
-/

namespace StackAssembler

namespace Window

open Liveness

/-- What the rules may know about the code around a cursor. -/
def scopeOf (temporaries : SlotSet) (keepJitEntries : Bool)
    (code : List Instr) : Scope where
  dead slot rest := temporaries.contains slot && unreadFrom code slot rest
  keepJitEntries := keepJitEntries

/-- One change: where the scan goes on, and the handles that were given up, in
that order. -/
structure Change where
  cursor : Cursor
  vacated : List Handle

def applyPatch (cursor : Cursor) (patch : Patch) : Change where
  cursor := Cursor.back patch.retreat ⟨cursor.before, patch.fill cursor.after⟩
  vacated := patch.vacated cursor.after

/-- Split entries at the first one that reads a slot.  There is none if the
slot is overwritten, the temporaries are dropped, or a jump or label stands in
the way. -/
def splitAtRead? (slot : Slot) :
    List Entry → Option (List Entry × List Entry)
  | [] => none
  | entry :: rest =>
      if entry.instr.access.reads slot then some ([], entry :: rest)
      else if entry.instr.access.writes slot || entry.instr.dropsTemporaries ||
          entry.instr.isBarrier then
        none
      else
        (splitAtRead? slot rest).map fun (skipped, found) =>
          (entry :: skipped, found)

/-- The cursor after a constant for a temporary was moved down to the
instruction that reads it, if that is not the next one anyway. -/
def postponed? (temporaries : SlotSet) (cursor : Cursor) : Option Cursor :=
  match cursor.after with
  | [] => none
  | entry :: rest =>
      match entry.instr with
      | .setVar4 slot _ =>
          if temporaries.contains slot then
            match splitAtRead? slot rest with
            | none | some ([], _) => none
            | some (skipped, found) =>
                some ⟨skipped.reverse ++ cursor.before, entry :: found⟩
          else none
      | _ => none

/-- Pushes whose order may be exchanged. -/
def isPlainPush : Instr → Bool
  | .pushConst _ | .pushVar _ | .pushFrameAddr _ => true
  | _ => false

/-- Two pushes and a swap are the same pushes in the other order. -/
def exchangePushes (cursor : Cursor) : Option Change :=
  match cursor.after with
  | first :: second :: third :: rest =>
      if isPlainPush first.instr && isPlainPush second.instr &&
          third.instr.isSwap then
        some
          { cursor := Cursor.back 2 ⟨cursor.before, second :: first :: rest⟩
            vacated := [third.handle] }
      else none
  | _ => none

def dropValue (temporaries : SlotSet) (keepJitEntries : Bool)
    (cursor : Cursor) : Option Change :=
  (unusedValue (scopeOf temporaries keepJitEntries cursor.code)
    cursor.window).map (applyPatch cursor)

/-- Move a constant down to the instruction that reads it, if its value can be
removed there. -/
def postponeValue (temporaries : SlotSet) (keepJitEntries : Bool)
    (cursor : Cursor) : Option Change :=
  (postponed? temporaries cursor).bind (dropValue temporaries keepJitEntries)

def simplifyChecks (cursor : Cursor) : Option Change :=
  (checks cursor.window).map (applyPatch cursor)

def simplifyPair (temporaries : SlotSet) (keepJitEntries : Bool)
    (cursor : Cursor) : Option Change :=
  (simplify (scopeOf temporaries keepJitEntries cursor.code)
    cursor.window).map (applyPatch cursor)

/-- The first change that a rule makes at a cursor. -/
def changeAt (temporaries : SlotSet) (keepJitEntries : Bool)
    (cursor : Cursor) : Option Change :=
  (dropValue temporaries keepJitEntries cursor).or <|
    (postponeValue temporaries keepJitEntries cursor).or <|
      (exchangePushes cursor).or <|
        (simplifyChecks cursor).or <|
          simplifyPair temporaries keepJitEntries cursor

theorem weight_applyPatch_lt {scope : Scope} {cursor : Cursor} {patch : Patch}
    (rule : Rule scope cursor.window patch) :
    (applyPatch cursor patch).cursor.weight < cursor.weight := by
  rw [applyPatch, Cursor.weight_back, Cursor.weight_eq, Cursor.weight_eq,
    Cursor.window, Patch.map_instr_fill]
  exact Nat.add_lt_add_left rule.lightens _

theorem weight_dropValue_lt {temporaries : SlotSet} {keepJitEntries : Bool}
    {cursor : Cursor} {change : Change}
    (changed : dropValue temporaries keepJitEntries cursor = some change) :
    change.cursor.weight < cursor.weight := by
  obtain ⟨patch, proposed, rfl⟩ := Option.map_eq_some_iff.mp changed
  exact weight_applyPatch_lt (rule_of_unusedValue proposed)

theorem append_of_splitAtRead? {slot : Slot} {entries skipped found : List Entry}
    (split : splitAtRead? slot entries = some (skipped, found)) :
    entries = skipped ++ found := by
  induction entries generalizing skipped with
  | nil => simp [splitAtRead?] at split
  | cons entry rest ih =>
      unfold splitAtRead? at split
      split at split
      · simp_all
      · split at split
        · contradiction
        · obtain ⟨⟨passed, remaining⟩, inner, equal⟩ :=
            Option.map_eq_some_iff.mp split
          simp only [Prod.mk.injEq] at equal
          obtain ⟨rfl, rfl⟩ := equal
          simp [ih inner]

theorem weight_postponed? {temporaries : SlotSet} {cursor moved : Cursor}
    (postponed : postponed? temporaries cursor = some moved) :
    moved.weight = cursor.weight := by
  obtain ⟨before, after⟩ := cursor
  unfold postponed? at postponed
  repeat' split at postponed
  all_goals try contradiction
  rename_i skipped found _ split
  obtain rfl := append_of_splitAtRead? split
  obtain rfl := Option.some.inj postponed
  simp_all [Cursor.weight_eq, Cursor.window]
  omega

theorem weight_exchangePushes_lt {cursor : Cursor} {change : Change}
    (changed : exchangePushes cursor = some change) :
    change.cursor.weight < cursor.weight := by
  obtain ⟨before, after⟩ := cursor
  unfold exchangePushes at changed
  repeat' split at changed
  all_goals try contradiction
  rename_i first second third rest _ _
  obtain rfl := Option.some.inj changed
  have positive := third.instr.two_le_weight
  rw [Cursor.weight_back]
  simp_all [Cursor.weight_eq, Cursor.window]
  omega

theorem weight_changeAt_lt {temporaries : SlotSet} {keepJitEntries : Bool}
    {cursor : Cursor} {change : Change}
    (changed : changeAt temporaries keepJitEntries cursor = some change) :
    change.cursor.weight < cursor.weight := by
  unfold changeAt at changed
  simp only [Option.or_eq_some_iff] at changed
  rcases changed with dropped | ⟨-, postponed | ⟨-, exchanged |
    ⟨-, checked | ⟨-, simplified⟩⟩⟩⟩
  · exact weight_dropValue_lt dropped
  · obtain ⟨moved, postponed, dropped⟩ :=
      Option.bind_eq_some_iff.mp postponed
    rw [← weight_postponed? postponed]
    exact weight_dropValue_lt dropped
  · exact weight_exchangePushes_lt exchanged
  · obtain ⟨patch, proposed, rfl⟩ := Option.map_eq_some_iff.mp checked
    exact weight_applyPatch_lt
      (@rule_of_checks ⟨fun _ _ => false, keepJitEntries⟩ _ _ proposed)
  · obtain ⟨patch, proposed, rfl⟩ := Option.map_eq_some_iff.mp simplified
    exact weight_applyPatch_lt (rule_of_simplify proposed)

theorem weight_restart (cursor : Cursor) :
    Cursor.weight ⟨[], cursor.entries⟩ = cursor.weight := by
  simp [Cursor.weight, Cursor.code, Cursor.entries]

theorem weight_advance {cursor : Cursor} {entry : Entry} {rest : List Entry}
    (window : cursor.after = entry :: rest) :
    Cursor.weight ⟨entry :: cursor.before, rest⟩ = cursor.weight := by
  simp [Cursor.weight, Cursor.code, Cursor.entries, window]

/-- The state of a scan: the cursor, whether this pass has changed anything,
the number of changes, and the handles given up, the last one first. -/
structure Scan where
  cursor : Cursor
  changed : Bool := false
  changes : Nat := 0
  vacated : List Handle := []

/-- Scan to the end of the pass, and go through the code again until a pass
changes nothing. -/
def scan (temporaries : SlotSet) (keepJitEntries : Bool) (state : Scan) :
    Scan :=
  match _window : state.cursor.after with
  | [] =>
      if _again : state.changed then
        scan temporaries keepJitEntries
          { state with
            cursor := ⟨[], state.cursor.entries⟩
            changed := false }
      else state
  | entry :: rest =>
      match _changed : changeAt temporaries keepJitEntries state.cursor with
      | some change =>
          scan temporaries keepJitEntries
            { cursor := change.cursor
              changed := true
              changes := state.changes + 1
              vacated := change.vacated.reverse ++ state.vacated }
      | none =>
          scan temporaries keepJitEntries
            { state with cursor := ⟨entry :: state.cursor.before, rest⟩ }
termination_by
  (state.cursor.weight, state.changed.toNat, state.cursor.after.length)
decreasing_by
  · rw [weight_restart]
    exact Prod.Lex.right _ (Prod.Lex.left _ _ (by simp [_again]))
  · exact Prod.Lex.left _ _ (weight_changeAt_lt _changed)
  · rw [weight_advance _window]
    exact Prod.Lex.right _ (Prod.Lex.right _ (by simp [_window]))

end Window

namespace Routine

open Window

/-- Apply the window rules until none matches.  The result is the number of
changes. -/
def tighten (routine : Routine) (keepJitEntries : Bool) :
    Except Defect (Nat × Routine) :=
  match Flow.repeatedLabel? routine.instrs with
  | some label => .error (.duplicateLabel label)
  | none =>
      let result := scan routine.temporaries keepJitEntries
        { cursor := ⟨[], routine.entries⟩ }
      .ok (result.changes,
        { routine with
          entries := result.cursor.entries
          pool := routine.pool.retireAll result.vacated.reverse })

end Routine

end StackAssembler
