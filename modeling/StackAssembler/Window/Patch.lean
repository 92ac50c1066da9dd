import StackAssembler.Routine.Basic

/-!
# Windows and patches

A cursor stands in a sequence of entries; the window is what follows it.  A
patch says for each place of the window whether it is kept, and with which
instruction.  An entry that is kept has its handle and its depth as before.

Instructions are weighed so that every patch of the rules makes a sequence
lighter: an instruction weighs two, and one that both loads the address of a
global and reads it weighs three.
-/

namespace StackAssembler

/-- What becomes of the places of a window, in order: a place is kept with an
instruction, or given up. -/
abbrev Patch := List (Option Instr)

namespace Patch

def fill : Patch → List Entry → List Entry
  | [], entries => entries
  | _ :: _, [] => []
  | some instr :: patch, entry :: entries =>
      { entry with instr } :: fill patch entries
  | none :: patch, _ :: entries => fill patch entries

def fillInstrs : Patch → List Instr → List Instr
  | [], code => code
  | _ :: _, [] => []
  | some instr :: patch, _ :: code => instr :: fillInstrs patch code
  | none :: patch, _ :: code => fillInstrs patch code

/-- The handles of the places given up, the last place first. -/
def vacated : Patch → List Entry → List Handle
  | none :: patch, entry :: entries => vacated patch entries ++ [entry.handle]
  | some _ :: patch, _ :: entries => vacated patch entries
  | _, _ => []

/-- How far the cursor steps back behind a patch: two places, and one more if
its own place was given up. -/
def retreat : Patch → Nat
  | none :: _ => 3
  | _ => 2

theorem map_instr_fill (patch : Patch) (entries : List Entry) :
    (patch.fill entries).map (·.instr) =
      patch.fillInstrs (entries.map (·.instr)) := by
  fun_induction fill patch entries with
  | case1 | case2 => simp [fillInstrs]
  | case3 instr patch entry entries ih => simp [fillInstrs, ih]
  | case4 patch entry entries ih => simp [fillInstrs, ih]

end Patch

namespace Instr

def weight : Instr → Nat
  | loadGlobalReadReg4 .. => 3
  | _ => 2

def totalWeight : List Instr → Nat
  | [] => 0
  | instr :: rest => instr.weight + totalWeight rest

@[simp]
theorem totalWeight_nil : totalWeight [] = 0 := rfl

@[simp]
theorem totalWeight_cons (instr : Instr) (code : List Instr) :
    totalWeight (instr :: code) = instr.weight + totalWeight code := rfl

@[simp]
theorem totalWeight_append (first second : List Instr) :
    totalWeight (first ++ second) =
      totalWeight first + totalWeight second := by
  induction first with
  | nil => simp
  | cons instr first ih => simp [ih, Nat.add_assoc]

@[simp]
theorem totalWeight_reverse (code : List Instr) :
    totalWeight code.reverse = totalWeight code := by
  induction code with
  | nil => rfl
  | cons instr code ih => simp [ih, Nat.add_comm]

theorem two_le_weight (instr : Instr) : 2 ≤ instr.weight := by
  cases instr <;> simp [weight]

end Instr

/-- A place in a sequence of entries: what stands before it, the nearest entry
first, and what follows. -/
structure Cursor where
  before : List Entry
  after : List Entry

namespace Cursor

def entries (cursor : Cursor) : List Entry :=
  cursor.before.reverse ++ cursor.after

def code (cursor : Cursor) : List Instr :=
  cursor.entries.map (·.instr)

def window (cursor : Cursor) : List Instr :=
  cursor.after.map (·.instr)

/-- Step back over some entries, as far as there are any. -/
def back : Nat → Cursor → Cursor
  | 0, cursor => cursor
  | _ + 1, ⟨[], after⟩ => ⟨[], after⟩
  | count + 1, ⟨entry :: before, after⟩ => back count ⟨before, entry :: after⟩

@[simp]
theorem entries_back (count : Nat) (cursor : Cursor) :
    (cursor.back count).entries = cursor.entries := by
  fun_induction back count cursor with
  | case1 | case2 => rfl
  | case3 count entry before after ih => simpa [entries] using ih

def weight (cursor : Cursor) : Nat :=
  Instr.totalWeight cursor.code

@[simp]
theorem weight_back (count : Nat) (cursor : Cursor) :
    (cursor.back count).weight = cursor.weight := by
  simp [weight, code]

theorem weight_eq (cursor : Cursor) :
    cursor.weight =
      Instr.totalWeight (cursor.before.map (·.instr)) +
        Instr.totalWeight cursor.window := by
  simp [weight, code, entries, window, List.map_reverse]

end Cursor

end StackAssembler
