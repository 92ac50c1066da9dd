import StackAssembler.Flow
import StackAssembler.Instr.Access
import StackAssembler.Routine.Basic

/-!
# Liveness

Whether the value of a slot, or of the register, is still used after a point
of the code.

For a slot, every path from that point is followed until it reads the slot,
overwrites it, or drops all temporaries.  A jump whose destination is not known
counts as a read.  Destinations have names: labels, or handles of a routine.
The search keeps the destinations that it still has to follow and all that it
has met; it ends because a destination is met only once.

For the register, only the straight line of code is looked at.
-/

namespace StackAssembler

namespace Liveness

/-- What is found on the paths from a point. -/
inductive Answer (α : Type) where
  /-- Some path reads the slot, or may do so. -/
  | read
  /-- No path reads the slot. -/
  | unread
  /-- A destination was followed that names no place in the code. -/
  | lost (place : α)
  deriving DecidableEq

def Answer.isUnread {α : Type} : Answer α → Bool
  | unread => true
  | _ => false

/-- Destinations that a search still has to follow, and those met so far. -/
structure Frontier (α : Type) where
  pending : List α := []
  met : List α := []

variable {α : Type} [DecidableEq α]

/-- Meet a destination, which is followed later if it is new. -/
def Frontier.meet (frontier : Frontier α) (place : α) : Frontier α :=
  if place ∈ frontier.met then frontier
  else ⟨place :: frontier.pending, place :: frontier.met⟩

/-- The place that a target names, by a table of labels. -/
def placeOf? (labels : List (Label × α)) : Target → Option α
  | .label label => (labels.find? (·.1 = label)).map (·.2)
  | .offset _ => none

/-- Follow the code up to the end of its straight line.  The result is the
frontier behind it, or `none` if the slot is read. -/
def follow (labels : List (Label × α)) (slot : Slot) :
    List Instr → Frontier α → Option (Frontier α)
  | [], frontier => some frontier
  | instr :: rest, frontier =>
      if instr.access.reads slot then none
      else if instr.access.writes slot || instr.dropsTemporaries then
        some frontier
      else
        match instr with
        | .jump target =>
            match placeOf? labels target with
            | none => none
            | some place => some (frontier.meet place)
        | .branch _ target =>
            match placeOf? labels target with
            | none => none
            | some place => follow labels slot rest (frontier.meet place)
        | .jumpPtr .. => none
        | _ => follow labels slot rest frontier

/-- The work that a frontier leaves: what is pending, and what may be met. -/
def remaining (labels : List (Label × α)) (frontier : Frontier α) : Nat :=
  frontier.pending.length + labels.countP (fun row => row.2 ∉ frontier.met)

/-- Meeting a new destination of the table leaves fewer to be met. -/
theorem countP_unmet_lt {labels : List (Label × α)} {row : Label × α}
    {met : List α} (member : row ∈ labels) (fresh : row.2 ∉ met) :
    labels.countP (fun other => other.2 ∉ row.2 :: met) <
      labels.countP (fun other => other.2 ∉ met) := by
  obtain ⟨front, back, rfl⟩ := List.append_of_mem member
  have weaken : ∀ rows : List (Label × α),
      rows.countP (fun other => other.2 ∉ row.2 :: met) ≤
        rows.countP (fun other => other.2 ∉ met) := by
    intro rows
    apply List.countP_mono_left
    intro other _ unmet
    simp only [List.mem_cons, not_or, decide_eq_true_eq] at unmet ⊢
    exact unmet.2
  have frontLe := weaken front
  have backLe := weaken back
  simp only [List.countP_append, List.countP_cons, List.mem_cons, true_or,
    not_true_eq_false, decide_false, Bool.false_eq_true, if_false, fresh,
    not_false_eq_true, decide_true, if_true] at frontLe backLe ⊢
  omega

theorem remaining_meet_le {labels : List (Label × α)} {target : Target}
    {place : α} (found : placeOf? labels target = some place)
    (frontier : Frontier α) :
    remaining labels (frontier.meet place) ≤ remaining labels frontier := by
  unfold Frontier.meet
  split
  · exact Nat.le_refl _
  · rename_i fresh
    have member : ∃ row ∈ labels, row.2 = place := by
      cases target with
      | offset _ => simp [placeOf?] at found
      | label label =>
          obtain ⟨row, rowFound, rfl⟩ := Option.map_eq_some_iff.mp found
          exact ⟨row, List.mem_of_find?_eq_some rowFound, rfl⟩
    obtain ⟨row, rowMem, rfl⟩ := member
    have fewer := countP_unmet_lt rowMem fresh
    simp only [remaining, List.length_cons]
    omega

theorem remaining_follow_le {labels : List (Label × α)} {slot : Slot}
    {code : List Instr} {frontier result : Frontier α}
    (followed : follow labels slot code frontier = some result) :
    remaining labels result ≤ remaining labels frontier := by
  fun_induction follow labels slot code frontier with
  | case1 | case3 => simp_all
  | case2 | case4 | case6 | case8 => simp at followed
  | case5 rest frontier target place found =>
      obtain rfl := Option.some.inj followed
      exact remaining_meet_le found frontier
  | case7 rest frontier cond target place found _ _ ih =>
      exact Nat.le_trans (ih followed) (remaining_meet_le found frontier)
  | case9 => simp_all

/-- Follow the pending destinations, the last one met first. -/
def search (labels : List (Label × α)) (slot : Slot)
    (codeAt? : α → Option (List Instr)) (frontier : Frontier α) : Answer α :=
  match _order : frontier.pending with
  | [] => .unread
  | place :: pending =>
      match codeAt? place with
      | none => .lost place
      | some code =>
          match _followed :
            follow labels slot code { frontier with pending } with
          | none => .read
          | some frontier => search labels slot codeAt? frontier
termination_by remaining labels frontier
decreasing_by
  have bound := remaining_follow_le _followed
  simp only [remaining, _order, List.length_cons] at bound ⊢
  omega

/-- What is found on the paths that start with the given code. -/
def answerFrom (labels : List (Label × α)) (slot : Slot)
    (codeAt? : α → Option (List Instr)) (met : List α) (code : List Instr) :
    Answer α :=
  match follow labels slot code { met } with
  | none => .read
  | some frontier => search labels slot codeAt? frontier

def codeAtLabel? (code : List Instr) (label : Label) : Option (List Instr) :=
  match code.dropWhile (·.marks? ≠ some label) with
  | [] => none
  | rest => some rest

/-- Whether a slot is read on no path through the code that starts with
`rest`, a part of it. -/
def unreadFrom (code : List Instr) (slot : Slot) (rest : List Instr) : Bool :=
  (answerFrom ((Flow.labels code).map fun label => (label, label)) slot
    (codeAtLabel? code) [] rest).isUnread

/-- Whether the value of the register is used on the straight line of the
code. -/
def registerUsed : List Instr → Bool
  | [] => false
  | instr :: rest =>
      if instr.readsRegister then true
      else if instr.endsRegisterScan then false
      else registerUsed rest

end Liveness

namespace Routine

open Liveness

def codeFrom? (routine : Routine) (handle : Handle) : Option (List Instr) :=
  (splitAt? handle routine.entries).map fun (_, entry, after) =>
    (entry :: after).map (·.instr)

/-- The handles of the label markers, the last marker first. -/
def labelHandles (routine : Routine) : List (Label × Handle) :=
  (routine.entries.filterMap fun entry =>
    entry.instr.marks?.map fun label => (label, entry.handle)).reverse

/-- Whether some path after an instruction reads a slot, with the given table
of labels. -/
def slotReadAfter (routine : Routine) (labels : List (Label × Handle))
    (handle : Handle) (slot : Slot) : Except Fault Bool := do
  let (_, _, after) ← routine.locate handle
  match after with
  | [] => return false
  | start :: _ =>
      match answerFrom labels slot routine.codeFrom? [start.handle]
        (after.map (·.instr)) with
      | .read => return true
      | .unread => return false
      | .lost place => throw (.staleHandle place)

/-- Whether the register is used on the straight line after an instruction. -/
def registerUsedAfter (routine : Routine) (handle : Handle) :
    Except Fault Bool := do
  let (_, _, after) ← routine.locate handle
  return registerUsed (after.map (·.instr))

end Routine

end StackAssembler
