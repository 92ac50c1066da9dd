import StackAssembler.Routine.Basic

/-!
# Editing a routine

Insertion, removal, replacement and movement of instructions, and the joining
of two routines.  A new instruction gets a fresh handle and no depth;
replacement and movement keep both.
-/

namespace StackAssembler

namespace Routine

def push (routine : Routine) (instr : Instr) : Handle × Routine :=
  let (handle, pool) := routine.pool.issue
  (handle,
    { routine with entries := routine.entries ++ [{ handle, instr }], pool })

def pushFront (routine : Routine) (instr : Instr) : Handle × Routine :=
  let (handle, pool) := routine.pool.issue
  (handle, { routine with entries := { handle, instr } :: routine.entries, pool })

def insertBefore (routine : Routine) (place : Handle) (instr : Instr) :
    Except Fault (Handle × Routine) := do
  let (before, entry, after) ← routine.locate place
  let (handle, pool) := routine.pool.issue
  return (handle,
    { routine with entries := before ++ { handle, instr } :: entry :: after,
                   pool })

/-- Entries for new instructions, whose handles are issued in order. -/
def newEntries (pool : HandlePool) : List Instr → List Entry × HandlePool
  | [] => ([], pool)
  | instr :: code =>
      let (handle, pool) := pool.issue
      let (entries, pool) := newEntries pool code
      ({ handle, instr } :: entries, pool)

def pushAll (routine : Routine) (code : List Instr) : Routine :=
  let (added, pool) := newEntries routine.pool code
  { routine with entries := routine.entries ++ added, pool }

@[simp]
theorem pushAll_nil (routine : Routine) : routine.pushAll [] = routine := by
  simp [pushAll, newEntries]

@[simp]
theorem pushAll_cons (routine : Routine) (instr : Instr) (code : List Instr) :
    routine.pushAll (instr :: code) = (routine.push instr).2.pushAll code := by
  simp [pushAll, newEntries, push]

def ofList (code : List Instr) : Routine :=
  pushAll {} code

/-- Remove an instruction.  The result is the handle before it or, at the
front, the handle after it. -/
def erase (routine : Routine) (handle : Handle) :
    Except Fault (Option Handle × Routine) := do
  let (before, _, after) ← routine.locate handle
  return ((before.getLast?.or after.head?).map (·.handle),
    { routine with entries := before ++ after,
                   pool := routine.pool.retire handle })

def popLast (routine : Routine) : Option Instr × Routine :=
  match routine.entries.getLast? with
  | none => (none, routine)
  | some entry =>
      (some entry.instr,
        { routine with entries := routine.entries.dropLast,
                       pool := routine.pool.retire entry.handle })

/-- Put another instruction in the place of one and return the old one. -/
def replace (routine : Routine) (handle : Handle) (instr : Instr) :
    Except Fault (Instr × Routine) := do
  let (before, entry, after) ← routine.locate handle
  return (entry.instr,
    { routine with entries := before ++ { entry with instr } :: after })

/-- Move an instruction directly before another one.  Moving an instruction
before itself is no move at all. -/
def moveBefore (routine : Routine) (handle place : Handle) :
    Except Fault Routine :=
  if handle = place then .ok routine
  else do
    let (before, entry, after) ← routine.locate handle
    match splitAt? place (before ++ after) with
    | none => .error (.staleHandle place)
    | some (front, target, back) =>
        .ok { routine with entries := front ++ entry :: target :: back }

/-- Keep the entries that pass a test and retire the others front to back. -/
def retain (routine : Routine) (keep : Entry → Bool) : Routine :=
  { routine with
    entries := routine.entries.filter keep
    pool := routine.pool.retireAll
      ((routine.entries.filter fun entry => !keep entry).map (·.handle)) }

def mapInstrs (routine : Routine) (change : Instr → Instr) : Routine :=
  { routine with
    entries := routine.entries.map fun entry =>
      { entry with instr := change entry.instr } }

theorem instrs_mapInstrs (routine : Routine) (change : Instr → Instr) :
    (routine.mapInstrs change).instrs = routine.instrs.map change := by
  simp [instrs, mapInstrs, Function.comp_def]

/-- Give the instructions new contents, in order. -/
def withInstrs (routine : Routine) (code : List Instr) : Routine :=
  { routine with
    entries := routine.entries.zipWith
      (fun entry instr => { entry with instr }) code }

/-- Let every instruction use one slot instead of another.  The temporaries
stay as they are. -/
def exchangeSlot (routine : Routine) (old new : Slot) : Routine :=
  routine.mapInstrs
    (Instr.renameSlots fun slot => if slot = old then new else slot)

/-- Move the contents of another routine to the end of this one.  The lines of
the other routine move up by the size of this one, its instructions get fresh
handles here, and it is left as a new routine.  If a line is refused, neither
code has changed, but the lines before that one have been recorded. -/
def absorb (routine other : Routine) : Except Fault Unit × Routine × Routine :=
  match wordPosition routine.codeSize with
  | .error fault => (.error fault, routine, other)
  | .ok shift =>
      match routine.lines.recordAll shift other.lines.rows with
      | (.error fault, lines) => (.error fault, { routine with lines }, other)
      | (.ok (), lines) =>
          let joined := routine.pushAll other.instrs
          (.ok (),
            { joined with
              lines
              temporaries :=
                joined.temporaries.insertAll other.temporaries.toList },
            {})

/-- Add a call and the entry point that has to follow it.  The result is the
handle of the call. -/
def emitCall (routine : Routine) (kind : CallKind) (func : UInt32)
    (count : UInt16) : Handle × Routine :=
  let (handle, routine) := routine.push (.call kind func count)
  (handle, (routine.push (.jitEntry 0)).2)

/-- Add a line marker with a cue and the entry point that has to follow it.
The result is the handle of the marker. -/
def emitLine (routine : Routine) (pos : SourcePos) : Handle × Routine :=
  let (handle, routine) := routine.push (.line pos true)
  (handle, (routine.push (.jitEntry 0)).2)

end Routine

end StackAssembler
