import StackAssembler.Assembly
import StackAssembler.Proofs.LinkedStore

/-!
# Assembly in linked storage

The steps of an assembly as programs that work on linked storage.  A program
holds handles and reaches the code only through them: it follows links, reads
and replaces instructions, moves and removes them, and keeps tables whose keys
are handles.  A handle that has become stale is a fault.

A program has no result if it follows a link to a vacant place, if it asks a
table for a key that is not there, or if it does not end.
-/

namespace StackAssembler

/-- Linked code with all that belongs to it. -/
structure Body where
  store : Store := {}
  temporaries : SlotSet := {}
  lines : LineTable := {}
  maxDepth : Nat := 0

/-- A program that works on a body.  It ends with a value or with a failure, and
leaves the body as it is then. -/
abbrev Program := ExceptT Failure (StateT Body Option)

namespace Program

open StackDepth Liveness Window

variable {α : Type}

/-- A handle in the code, or the end of the code. -/
abbrev Link := Option Handle

/-- Labels with the handles of their markers. -/
abbrev LabelTable := List (Label × Handle)

/-! ## Single operations -/

def stuck : Program α := fun _ => none

def ofExcept : Except Failure α → Program α
  | .ok value => pure value
  | .error failure => throw failure

def ofOption : Option α → Program α
  | some value => pure value
  | none => stuck

def orDefect (defect : Defect) : Option α → Program α
  | some value => pure value
  | none => throw (.defect defect)

def query (question : Store → Except Fault α) : Program α := fun body =>
  some ((question body.store).mapError .fault, body)

def head : Program Link := query fun store => .ok store.head?

def next (handle : Handle) : Program Link := query (·.next handle)

def previous (handle : Handle) : Program Link :=
  query (·.previous handle)

def look (handle : Handle) (view : Store.Node → α) : Program α :=
  query fun store =>
    match store.node? handle with
    | some node => .ok (view node)
    | none => .error (.staleHandle handle)

def instrAt (handle : Handle) : Program Instr := look handle (·.instr)

def depthAt (handle : Handle) : Program (Option Int) := look handle (·.depth)

def edit (edit : Edit) : Program Reply := fun body =>
  (body.store.perform edit).map fun (reply, store) =>
    (reply.mapError .fault, { body with store })

def replace (handle : Handle) (instr : Instr) : Program Unit :=
  discard (edit (.replace handle instr))

def moveBefore (handle place : Handle) : Program Unit :=
  discard (edit (.moveBefore handle place))

/-- Remove an instruction.  The result is the handle before it or, at the
front, the handle after it. -/
def erase (handle : Handle) : Program Link := do
  match ← edit (.erase handle) with
  | .resume handle? => return handle?
  | _ => stuck

def setDepth (handle : Handle) (depth : Int) : Program Unit := fun body =>
  match body.store.node? handle with
  | none => some (.error (.fault (.staleHandle handle)), body)
  | some _ =>
      (body.store.modifyNode handle.index fun node =>
        { node with depth := some depth }).map fun store =>
          (.ok (), { body with store })

/-- Forget the depths in all places, whatever is in them. -/
def clearDepths : Program Unit :=
  modify fun body => { body with store := body.store.clearDepths }

def isTemporary (slot : Slot) : Program Bool := do
  return (← get).temporaries.contains slot

def setLines (lines : LineTable) : Program Unit :=
  modify fun body => { body with lines }

def recordLine (position : Nat) (source : SourcePos) : Program Unit := do
  let lines ← ofExcept
    (((← get).lines.record position source).mapError .fault)
  setLines lines

def setMaxDepth (maxDepth : Nat) : Program Unit :=
  modify fun body => { body with maxDepth }

/-- The sum of a code position and a size, if a word can hold it. -/
def advance (position size : Nat) : Program Nat :=
  ofExcept ((wordPosition (position + size)).mapError .fault)

/-- The handles from one on, along the links, with their instructions. -/
def Link.listFrom (cursor : Link) : Program (List (Handle × Instr)) := do
  match cursor with
  | none => return []
  | some handle =>
      let instr ← instrAt handle
      let rest ← (← next handle) |>.listFrom
      return (handle, instr) :: rest
partial_fixpoint

def listing : Program (List (Handle × Instr)) := do (← head).listFrom

/-- The instructions of some handles with their depths. -/
def surveyAll : List (Handle × Instr) → Program (List (Instr × Option Int))
  | [] => return []
  | (handle, instr) :: rest => do
      let depth ← depthAt handle
      let others ← surveyAll rest
      return (instr, depth) :: others

def eraseAll : List Handle → Program Unit
  | [] => return
  | handle :: handles => do
      discard (erase handle)
      eraseAll handles

def editAll : List Edit → Program Unit
  | [] => return
  | change :: changes => do
      discard (edit change)
      editAll changes

/-! ## Tables -/

/-- The table of labels with the handles of their markers, the last marker
first.  No label may mark two places. -/
def labelTable (table : LabelTable) :
    List (Handle × Instr) → Except Defect (LabelTable)
  | [] => .ok table
  | (handle, instr) :: rest =>
      match instr.marks? with
      | none => labelTable table rest
      | some label =>
          match placeOf? table (.label label) with
          | some _ => .error (.duplicateLabel label)
          | none => labelTable ((label, handle) :: table) rest

def labelsOf (code : List (Handle × Instr)) :
    Program (LabelTable) :=
  ofExcept ((labelTable [] code).mapError .defect)

def positionTable (position : Nat) :
    List (Handle × Instr) → Program (List (Handle × Nat))
  | [] => return []
  | (handle, instr) :: rest => do
      let rows ← positionTable (← advance position instr.size) rest
      return (handle, position) :: rows

def startTable (positions : List (Handle × Nat))
    (starts : List (Nat × Handle)) :
    List (Handle × Instr) → Program (List (Nat × Handle))
  | [] => return starts
  | (handle, _) :: rest => do
      let position ← ofOption (positions.lookup handle)
      match starts.lookup position with
      | some _ => startTable positions starts rest
      | none => startTable positions ((position, handle) :: starts) rest

/-- What is known about the places that code can jump to. -/
structure Targets where
  labels : LabelTable
  positions : List (Handle × Nat)
  starts : List (Nat × Handle)

def targets : Program Targets := do
  let code ← listing
  let labels ← labelsOf code
  let positions ← positionTable 0 code
  let starts ← startTable positions [] code
  return { labels, positions, starts }

/-- The handle at which a jump or branch continues. -/
def destination (targets : Targets) (jump : Handle) (instr : Instr) :
    Target → Program Handle
  | .label label =>
      orDefect (.danglingLabel label) (placeOf? targets.labels (.label label))
  | .offset distance => do
      let position ← ofOption (targets.positions.lookup jump)
      let target : Int := (← advance position instr.size) + distance.toInt
      orDefect (.jumpOutOfRange distance.toInt)
        (if 0 ≤ target ∧ target < positionLimit then
          targets.starts.lookup target.toNat
        else none)

/-! ## Stack depths -/

/-- The state of a walk along the paths: the places put down for later, the
last one first, and the greatest depth met. -/
structure Walker where
  pending : List (Handle × Int)
  deepest : Int := 0

/-- The handles from one on, as many as a jump table declares. -/
def fanOut (declared : Nat) : Nat → Link → Program (List Handle)
  | 0, _ => return []
  | left + 1, none =>
      throw (.defect (.fanOutExceeded declared (declared - (left + 1))))
  | left + 1, some handle => do
      let rest ← fanOut declared left (← next handle)
      return handle :: rest

/-- Read an instruction.  An address relative to the stack's top becomes the
frame address that it means at the depth. -/
def anchorAt (handle : Handle) (depth : Int) : Program Instr := do
  match ← instrAt handle with
  | .pushStackAddr distance =>
      let anchored ← ofExcept (anchor .words depth (.pushStackAddr distance))
      replace handle anchored
      return anchored
  | instr => return instr

/-- The places to put down at an instruction, and the one at which its path
continues. -/
def onward (targets : Targets) (handle : Handle) (instr : Instr) :
    Program (List Handle × Link) := do
  match instr with
  | .jump target => return ([← destination targets handle instr target], none)
  | .branch _ target =>
      let place ← destination targets handle instr target
      return ([place], ← next handle)
  | .jumpPtr _ declared =>
      return (← fanOut declared.toNat declared.toNat (← next handle), none)
  | .ret _ => return ([], none)
  | _ => return ([], ← next handle)

/-- Arrive at an instruction with a depth: the depth after it, the places to put
down, and the one at which the path continues. -/
def arrive (targets : Targets) (handle : Handle) (depth : Int) :
    Program (Int × List Handle × Link) := do
  setDepth handle depth
  let instr ← anchorAt handle depth
  let after ← ofExcept (depthAfter .words depth instr)
  return (after, ← onward targets handle instr)

/-- Follow a path until it ends or meets an instruction with a depth. -/
def Targets.walk (targets : Targets) (walker : Walker) (cursor : Link)
    (depth : Int) : Program Walker := do
  match cursor with
  | none => return walker
  | some handle =>
      match ← depthAt handle with
      | some recorded =>
          if recorded = depth then return walker
          else
            let instr ← instrAt handle
            throw (.defect (.depthMismatch instr.text recorded depth))
      | none =>
          let (after, places, cursor) ← arrive targets handle depth
          targets |>.walk
            { pending := places.reverse.map (·, after) ++ walker.pending
              deepest := max walker.deepest after } cursor after
partial_fixpoint

/-- Follow all paths that were put down. -/
def Targets.walkAll (targets : Targets) (walker : Walker) : Program Walker := do
  match walker.pending with
  | [] => return walker
  | (handle, depth) :: pending =>
      targets |>.walkAll
        (← targets.walk { walker with pending } (some handle) depth)
partial_fixpoint

/-- Of some handles, those whose instructions have no depth. -/
def unvisited : List Handle → Program (List Handle)
  | [] => return []
  | handle :: handles => do
      let depth ← depthAt handle
      let rest ← unvisited handles
      return if depth.isSome then rest else handle :: rest

/-- Find the stack depths, and remove what no path reaches. -/
def measureDepths : Program Analysis := do
  clearDepths
  let targets ← targets
  let start := (← head).toList.map (·, (0 : Int))
  let walker ← targets.walkAll { pending := start }
  let unreached ← unvisited ((← listing).map (·.1))
  eraseAll unreached
  let maxDepth := walker.deepest.toNat
  setMaxDepth maxDepth
  return {
      maxDepth
      removed := unreached.length
      diagnostics :=
        if unreached.length = 0 then []
        else
          [.note s!"removed {unreached.length} unreachable instruction(s)"] }

/-! ## Liveness -/

/-- Follow the straight line from a handle on.  The result is the frontier
behind it, or `none` if the slot is read. -/
def LabelTable.follow (labels : LabelTable) (slot : Slot)
    (frontier : Frontier Handle) (cursor : Link) :
    Program (Option (Frontier Handle)) := do
  match cursor with
  | none => return some frontier
  | some handle =>
      let instr ← instrAt handle
      if instr.access.reads slot then return none
      else if instr.access.writes slot || instr.dropsTemporaries then
        return some frontier
      else
        match instr with
        | .jump target => return (placeOf? labels target).map frontier.meet
        | .branch _ target =>
            match placeOf? labels target with
            | none => return none
            | some place =>
                labels |>.follow slot (frontier.meet place) (← next handle)
        | .jumpPtr .. => return none
        | _ => labels |>.follow slot frontier (← next handle)
partial_fixpoint

/-- Whether some path from the pending places reads the slot. -/
def LabelTable.search (labels : LabelTable) (slot : Slot)
    (frontier : Frontier Handle) : Program Bool := do
  match frontier.pending with
  | [] => return false
  | place :: pending =>
      match ← labels.follow slot { frontier with pending } (some place) with
      | none => return true
      | some frontier => labels |>.search slot frontier
partial_fixpoint

def slotReadAfter (labels : LabelTable) (handle : Handle)
    (slot : Slot) : Program Bool := do
  match ← next handle with
  | none => return false
  | some start => labels.search slot { pending := [start], met := [start] }

/-- Whether a slot is a temporary that no path after an instruction reads. -/
def deadAfter (labels : LabelTable) (handle : Handle) :
    Option Slot → Program Bool
  | none => return false
  | some slot => do
      if ← isTemporary slot then
        return !(← slotReadAfter labels handle slot)
      else return false

/-- Whether the register is used on the straight line from a handle on. -/
def Link.registerUsed (cursor : Link) : Program Bool := do
  match cursor with
  | none => return false
  | some handle =>
      let instr ← instrAt handle
      if instr.readsRegister then return true
      else if instr.endsRegisterScan then return false
      else (← next handle) |>.registerUsed
partial_fixpoint

def registerUsedAfter (handle : Handle) : Program Bool := do
  (← next handle).registerUsed

/-! ## Window rules -/

/-- Step back from a handle, as far as there are any before it. -/
def stepBack : Nat → Handle → Program Handle
  | 0, handle => return handle
  | count + 1, handle => do
      match ← previous handle with
      | some before => stepBack count before
      | none => return handle

/-- Where a scan goes on after a change: two places back. -/
def backTwo : Link → Program Link
  | none => head
  | some handle => return some (← stepBack 2 handle)

/-- Apply a patch to the places of a window, the last one first.  The result is
the first place or, if that was given up, where to go on. -/
def applyPatch : Patch → List Handle → Program Link
  | change :: patch, handle :: handles => do
      discard (applyPatch patch handles)
      match change with
      | some instr =>
          replace handle instr
          return some handle
      | none => erase handle
  | _, handles => return handles.head?

/-- Where a scan goes on after a change, if there was one. -/
abbrev Resume := Option Link

/-- Apply a patch, if there is one, to the places of a window. -/
def rewrite (handles : List Handle) : Option Patch → Program Resume
  | none => return none
  | some patch => return some (← backTwo (← applyPatch patch handles))

/-- The patch for a write at a handle that nobody reads.  The register matters
only if the instruction loads it. -/
def dropWriteAt (handle : Handle) (instr : Instr) : Program Patch := do
  match instr with
  | .loadGlobalReadReg4 .. =>
      return dropWrite (← registerUsedAfter handle) instr
  | _ => return dropWrite false instr

/-- The patch for two instructions that hand a value over in a slot, the second
one at a handle.  Whether the slot is read behind them is not asked if the
answer does not matter. -/
def forwardAt (labels : LabelTable) (handle : Handle)
    (first second : Instr) : Program (Option Patch) := do
  match forward (fun _ => false) first second with
  | some patch => return some patch
  | none =>
      match forward (fun _ => true) first second with
      | none => return none
      | some patch =>
          if ← deadAfter labels handle first.access.write? then
            return some patch
          else return none

/-- The patch for two instructions that become one, the second one at a
handle.  The register matters only if they meet in it. -/
def fuseAt (handle : Handle) (first second : Instr) :
    Program (Option Patch) := do
  match throughRegister false first second with
  | some _ => return fuse (← registerUsedAfter handle) first second
  | none => return fuse false first second

def dropValue (labels : LabelTable) (handle : Handle) :
    Program Resume := do
  let first ← instrAt handle
  if ← deadAfter labels handle first.access.write? then
    rewrite [handle] (some (← dropWriteAt handle first))
  else
    match ← next handle with
    | none => return none
    | some other =>
        rewrite [handle, other]
          (← forwardAt labels other first (← instrAt other))

/-- The first handle from one on whose instruction reads a slot, unless
something stands in the way. -/
def Link.readerFrom (slot : Slot) (cursor : Link) :
    Program (Option Handle) := do
  match cursor with
  | none => return none
  | some handle =>
      let instr ← instrAt handle
      if instr.access.reads slot then return some handle
      else if instr.access.writes slot || instr.dropsTemporaries ||
          instr.isBarrier then
        return none
      else (← next handle) |>.readerFrom slot
partial_fixpoint

/-- Remove an unused value at a handle after it was moved down to a reader.  If
it cannot be removed there, it is moved back to the place before the next
handle. -/
def dropValueBelow (labels : LabelTable)
    (handle next reader : Handle) : Program Resume := do
  moveBefore handle reader
  match ← dropValue labels handle with
  | some resume => return some resume
  | none =>
      moveBefore handle next
      return none

/-- Move a constant down to the instruction that reads it, if its value can be
removed there. -/
def postponeValue (labels : LabelTable) (handle : Handle) :
    Program Resume := do
  match ← instrAt handle with
  | .setVar4 slot _ =>
      if ← isTemporary slot then
        match ← next handle with
        | none => return none
        | some other =>
            match ← Link.readerFrom slot (some other) with
            | none => return none
            | some reader =>
                if reader = other then return none
                else dropValueBelow labels handle other reader
      else return none
  | _ => return none

/-- The two handles that follow, if there are so many. -/
def nextTwo (handle : Handle) : Program (Option (Handle × Handle)) := do
  match ← next handle with
  | none => return none
  | some second =>
      match ← next second with
      | none => return none
      | some third => return some (second, third)

/-- Two pushes and a swap are the same pushes in the other order. -/
def exchangePushes (handle : Handle) : Program Resume := do
  match ← nextTwo handle with
  | none => return none
  | some (second, third) =>
      if isPlainPush (← instrAt handle) && isPlainPush (← instrAt second) &&
          (← instrAt third).isSwap then
        discard (erase third)
        moveBefore second handle
        return some (← backTwo (some second))
      else return none

def simplifyChecks (handle : Handle) : Program Resume := do
  match ← nextTwo handle with
  | none => return none
  | some (second, third) =>
      rewrite [handle, second, third]
        (checks [← instrAt handle, ← instrAt second, ← instrAt third])

def simplifyPair (keepJitEntries : Bool) (handle : Handle) :
    Program Resume := do
  let first ← instrAt handle
  if idle keepJitEntries first then rewrite [handle] (some [none])
  else
    match ← next handle with
    | none => return none
    | some other =>
        rewrite [handle, other] (← fuseAt other first (← instrAt other))

/-- Try one change after the other until one is made. -/
def firstOf : List (Program Resume) → Program Resume
  | [] => return none
  | rule :: rules => do
      match ← rule with
      | some resume => return some resume
      | none => firstOf rules

/-- The first change that a rule makes at a handle. -/
def changeAt (labels : LabelTable) (keepJitEntries : Bool)
    (handle : Handle) : Program Resume :=
  firstOf [dropValue labels handle, postponeValue labels handle,
    exchangePushes handle, simplifyChecks handle,
    simplifyPair keepJitEntries handle]

/-- Scan to the end of the code.  The result is the number of changes so
far. -/
def LabelTable.pass (labels : LabelTable) (keepJitEntries : Bool)
    (changes : Nat) (cursor : Link) : Program Nat := do
  match cursor with
  | none => return changes
  | some handle =>
      match ← changeAt labels keepJitEntries handle with
      | some resume => labels |>.pass keepJitEntries (changes + 1) resume
      | none => labels |>.pass keepJitEntries changes (← next handle)
partial_fixpoint

/-- Repeat passes until one changes nothing. -/
def LabelTable.passes (labels : LabelTable) (keepJitEntries : Bool)
    (changes : Nat) : Program Nat := do
  let after ← labels.pass keepJitEntries changes (← head)
  if after = changes then return after
  else labels |>.passes keepJitEntries after
partial_fixpoint

def tighten (keepJitEntries : Bool) : Program Nat := do
  let labels ← labelsOf (← listing)
  labels.passes keepJitEntries 0

/-! ## Layout -/

def setCue (cue : Bool) (handle : Handle) : Program Unit := do
  match ← instrAt handle with
  | .line pos other => if other ≠ cue then replace handle (.line pos cue)
  | _ => return

/-- Set every line marker from a handle on to be a cue or not. -/
def Link.setCues (cue : Bool) (cursor : Link) : Program Unit := do
  match cursor with
  | none => return
  | some handle =>
      setCue cue handle
      (← next handle) |>.setCues cue
partial_fixpoint

def Link.dropJitEntries (cursor : Link) : Program Unit := do
  match cursor with
  | none => return
  | some handle =>
      let follower ← next handle
      if (← instrAt handle).isJitEntry then
        discard (erase handle)
      follower |>.dropJitEntries
partial_fixpoint

def planJumps (labels : LabelTable)
    (positions : List (Handle × Nat)) :
    List (Handle × Instr) → Program (List Edit)
  | [] => return []
  | (handle, instr) :: rest => do
      match instr.jumpLabel? with
      | none => planJumps labels positions rest
      | some label =>
          match placeOf? labels (.label label) with
          | none => throw (.defect (.danglingLabel label))
          | some marker =>
              let position ← ofOption (positions.lookup handle)
              let behind ← advance position instr.size
              let target ← ofOption (positions.lookup marker)
              let distance := Int32.ofInt (target - behind)
              let edits ← planJumps labels positions rest
              return match instr.retarget? (.offset distance) with
                | some jump => .replace handle jump :: edits
                | none => edits

/-- Give all jumps to labels their distances.  Nothing is replaced before all
distances are known. -/
def resolveJumps : Program Nat := do
  let code ← listing
  let labels ← labelsOf code
  let positions ← positionTable 0 code
  let edits ← planJumps labels positions code
  editAll edits
  return edits.length

/-- If there is a line marker at a handle, it goes to the line table.  The result
is the code position behind the instruction, and the number of markers. -/
def collectAt (position : Nat) (handle : Handle) : Program (Nat × Nat) := do
  match ← instrAt handle with
  | .line pos cue =>
      recordLine position pos
      if cue then
        replace handle .suspend
        return (← advance position (Instr.size .suspend), 1)
      else
        discard (erase handle)
        return (position, 1)
  | instr => return (← advance position instr.size, 0)

/-- Move the line markers from a handle on to the line table.  The result is
the number of markers. -/
def Link.collectFrom (position count : Nat) (cursor : Link) :
    Program Nat := do
  match cursor with
  | none => return count
  | some handle =>
      let follower ← next handle
      let (behind, markers) ← collectAt position handle
      follower |>.collectFrom behind (count + markers)
partial_fixpoint

def collectLines : Program Nat := do
  setLines {}
  (← head).collectFrom 0 0

/-- Encode the code, whose size a word has to hold. -/
def encode : Program Encoded := do
  let code := (← listing).map (·.2)
  discard (advance 0 (Instr.codeSize code))
  ofExcept ((Instr.encode code).mapError .defect)

/-! ## Assembly -/

/-- Set the cues, and find the stack depths. -/
def analyze (options : Options) : Program Analysis := do
  (← head).setCues options.lineCues
  measureDepths

/-- Tighten the code if that is wanted, and drop the entry points if they are
not. -/
def reduce (options : Options) : Program Unit := do
  if options.optimize then
    discard (tighten options.jitEntries)
  if !options.jitEntries then
    (← head).dropJitEntries

/-- Lay out and encode the code of a body whose depths are known. -/
def finish (analysis : Analysis) : Program Artifact := do
  discard resolveJumps
  discard collectLines
  let encoded ← encode
  return {
      code := encoded.code
      maxDepth := analysis.maxDepth
      lines := (← get).lines
      jitEntries := encoded.jitEntries
      diagnostics := analysis.diagnostics }

def assemble (options : Options) : Program Artifact := do
  let analysis ← analyze options
  reduce options
  finish analysis

end Program

namespace Body

open Program

/-- The instructions along the links, with their depths. -/
def contents? (body : Body) : Option (List (Instr × Option Int)) :=
  match (listing >>= surveyAll) body with
  | some (.ok rows, _) => some rows
  | _ => none

def code? (body : Body) : Option (List Instr) :=
  body.contents?.map fun rows => rows.map (·.1)

end Body

namespace Program

/-! ## Joining -/

def recordMoved (shift : Nat) : List LineRow → Program Unit
  | [] => return
  | row :: rows => do
      recordLine (← advance shift row.position) row.source
      recordMoved shift rows

def pushAll (code : List Instr) : Program Unit :=
  editAll (code.map .push)

def markTemporaries (slots : List Slot) : Program Unit :=
  modify fun body =>
    { body with temporaries := body.temporaries.insertAll slots }

def absorb (other : Body) : Program Unit := do
  let code := (← listing).map (·.2)
  recordMoved (← advance 0 (Instr.codeSize code)) other.lines.rows
  pushAll (← ofOption other.code?)
  markTemporaries other.temporaries.toList

end Program

end StackAssembler
