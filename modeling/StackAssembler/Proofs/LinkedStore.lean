import StackAssembler.Proofs.HandleAccounting

/-!
# Linked storage of a routine

The entries of a routine can be kept in the places of their handles, each of
them linked with the place before it and the place behind it, so that an edit
touches a few links only.  This module defines such a store with its edits and
queries.  The links of a store spell a sequence of entries, and linking,
unlinking and changing a node does to that sequence what it should.
-/

namespace StackAssembler

namespace Store

/-- An instruction in a place, linked with its neighbours. -/
structure Node where
  instr : Instr
  depth : Option Int
  previous : Option Nat
  next : Option Nat

/-- A place with its generation, and the node in it unless it is vacant. -/
structure Cell where
  generation : UInt32
  node : Option Node

end Store

/-- Linked places for the entries of a routine. -/
structure Store where
  cells : Array Store.Cell := #[]
  vacant : List Nat := []
  head : Option Nat := none
  tail : Option Nat := none
  length : Nat := 0

namespace Store

/-! ## Cells and links

An operation that follows a link to a vacant place has no result. -/

def nodeAt? (store : Store) (index : Nat) : Option Node :=
  store.cells[index]?.bind (·.node)

def generationAt? (store : Store) (index : Nat) : Option UInt32 :=
  store.cells[index]?.map (·.generation)

def node? (store : Store) (handle : Handle) : Option Node :=
  if store.generationAt? handle.index = some handle.generation then
    store.nodeAt? handle.index
  else none

def handleAt? (store : Store) (place : Option Nat) : Option Handle :=
  place.bind fun index =>
    (store.generationAt? index).map fun generation => ⟨index, generation⟩

def putNode (store : Store) (index : Nat) (node : Node) : Store :=
  { store with
    cells := store.cells.modify index fun cell =>
      { cell with node := some node } }

def modifyNode (store : Store) (index : Nat) (change : Node → Node) :
    Option Store :=
  (store.nodeAt? index).map fun node => store.putNode index (change node)

/-- Set the link behind a place, or the link to the first place. -/
def setNext (store : Store) (next : Option Nat) : Option Nat → Option Store
  | none => some { store with head := next }
  | some index => store.modifyNode index fun node => { node with next }

/-- Set the link in front of a place, or the link to the last place. -/
def setPrevious (store : Store) (previous : Option Nat) :
    Option Nat → Option Store
  | none => some { store with tail := previous }
  | some index => store.modifyNode index fun node => { node with previous }

/-- The link in front of a place, or the link to the last place. -/
def previousOf (store : Store) : Option Nat → Option (Option Nat)
  | none => some store.tail
  | some index => (store.nodeAt? index).map (·.previous)

/-- Link an unlinked place in front of another one or at the end. -/
def linkBefore (store : Store) (index : Nat) (place : Option Nat) :
    Option Store := do
  let previous ← store.previousOf place
  let store ← store.modifyNode index fun node =>
    { node with previous, next := place }
  let store ← store.setNext (some index) previous
  let store ← store.setPrevious (some index) place
  return { store with length := store.length + 1 }

/-- Unlink a place.  The result also holds its former neighbours. -/
def unlink (store : Store) (index : Nat) :
    Option ((Option Nat × Option Nat) × Store) := do
  let node ← store.nodeAt? index
  let store ← store.setNext node.next node.previous
  let store ← store.setPrevious node.previous node.next
  return ((node.previous, node.next),
    { store with length := store.length - 1 })

/-- Take a place for an instruction: the last vacated one, or a new one. -/
def allocate (store : Store) (instr : Instr) : Nat × Store :=
  match store.vacant with
  | index :: vacant =>
      (index, { store.putNode index ⟨instr, none, none, none⟩ with vacant })
  | [] =>
      (store.cells.size,
        { store with
          cells := store.cells.push ⟨0, some ⟨instr, none, none, none⟩⟩ })

/-- Vacate a place, which starts its next generation. -/
def vacate (store : Store) (index : Nat) : Store :=
  { store with
    cells := store.cells.modify index fun cell => ⟨cell.generation + 1, none⟩
    vacant := index :: store.vacant }

/-! ## Edits and queries -/

/-- Insert an instruction in front of a place or at the end. -/
def insert (store : Store) (instr : Instr) (place : Option Nat) :
    Option (Handle × Store) := do
  let (index, store) := store.allocate instr
  let store ← store.linkBefore index place
  let handle ← store.handleAt? (some index)
  return (handle, store)

/-- Remove the instruction of a place.  The result holds the handle before it
or, at the front, the handle after it. -/
def remove (store : Store) (index : Nat) :
    Option (Option Handle × Store) := do
  let ((previous, next), store) ← store.unlink index
  let store := store.vacate index
  return (store.handleAt? (previous.or next), store)

/-- Change the instructions from a place on along the links, in the given
number of steps at most. -/
def changeFrom (change : Instr → Instr) :
    Nat → Option Nat → Store → Option Store
  | _, none, store => some store
  | 0, some _, _ => none
  | steps + 1, some index, store => do
      let node ← store.nodeAt? index
      let store ← store.modifyNode index fun node =>
        { node with instr := change node.instr }
      store.changeFrom change steps node.next

def edit (store : Store) : Edit → Option (Reply × Store)
  | .push instr => do
      let (handle, left) ← store.insert instr none
      return (.inserted handle, left)
  | .pushFront instr => do
      let (handle, left) ← store.insert instr store.head
      return (.inserted handle, left)
  | .insertBefore place instr => do
      let (handle, left) ← store.insert instr (some place.index)
      return (.inserted handle, left)
  | .moveBefore handle place =>
      if handle = place then some (.done, store)
      else do
        let (_, apart) ← store.unlink handle.index
        let left ← apart.linkBefore handle.index (some place.index)
        return (.done, left)
  | .erase handle => do
      let (handle?, left) ← store.remove handle.index
      return (.resume handle?, left)
  | .popLast =>
      match store.tail with
      | none => some (.popped none, store)
      | some index => do
          let node ← store.nodeAt? index
          let (_, left) ← store.remove index
          return (.popped (some node.instr), left)
  | .replace handle instr => do
      let node ← store.nodeAt? handle.index
      let left ← store.modifyNode handle.index fun node => { node with instr }
      return (.replaced node.instr, left)
  | .exchangeSlot old new => do
      let left ← store.changeFrom
        (Instr.renameSlots fun slot => if slot = old then new else slot)
        store.length store.head
      return (.done, left)

/-- Look up the handles of an edit, then make it.  A stale handle leaves the
store as it was. -/
def perform (store : Store) (edit : Edit) :
    Option (Except Fault Reply × Store) :=
  match edit.names.find? fun name => (store.node? name).isNone with
  | some name => some (.error (.staleHandle name), store)
  | none => (store.edit edit).map fun (reply, left) => (.ok reply, left)

def performAll (store : Store) :
    List Edit → Option (List (Except Fault Reply) × Store)
  | [] => some ([], store)
  | edit :: edits => do
      let (reply, left) ← store.perform edit
      let (replies, final) ← left.performAll edits
      return (reply :: replies, final)

def head? (store : Store) : Option Handle :=
  store.handleAt? store.head

def last? (store : Store) : Option Handle :=
  store.handleAt? store.tail

def next (store : Store) (handle : Handle) : Except Fault (Option Handle) :=
  match store.node? handle with
  | some node => .ok (store.handleAt? node.next)
  | none => .error (.staleHandle handle)

def previous (store : Store) (handle : Handle) :
    Except Fault (Option Handle) :=
  match store.node? handle with
  | some node => .ok (store.handleAt? node.previous)
  | none => .error (.staleHandle handle)

def instr? (store : Store) (handle : Handle) : Option Instr :=
  (store.node? handle).map (·.instr)

def clearDepths (store : Store) : Store :=
  { store with
    cells := store.cells.map fun cell =>
      { cell with node := cell.node.map fun node => { node with depth := none } } }

/-! ## Segments of linked places -/

def firstPlace (entries : List Entry) : Option Nat :=
  entries.head?.map (·.handle.index)

def lastPlace (entries : List Entry) : Option Nat :=
  entries.getLast?.map (·.handle.index)

@[simp]
theorem firstPlace_nil : firstPlace [] = none := rfl

@[simp]
theorem firstPlace_cons (entry : Entry) (entries : List Entry) :
    firstPlace (entry :: entries) = some entry.handle.index := rfl

@[simp]
theorem firstPlace_append (front back : List Entry) :
    firstPlace (front ++ back) = (firstPlace front).or (firstPlace back) := by
  cases front <;> simp

@[simp]
theorem lastPlace_nil : lastPlace [] = none := rfl

@[simp]
theorem lastPlace_append (front back : List Entry) :
    lastPlace (front ++ back) = (lastPlace back).or (lastPlace front) := by
  simp [lastPlace, Option.map_or]

@[simp]
theorem lastPlace_cons (entry : Entry) (entries : List Entry) :
    lastPlace (entry :: entries) =
      (lastPlace entries).or (some entry.handle.index) :=
  lastPlace_append [entry] entries

/-- The places of entries hold them and are linked in order, with the given
links at both ends. -/
def Linked (nodeAt? : Nat → Option Node) :
    Option Nat → List Entry → Option Nat → Prop
  | _, [], _ => True
  | previous, entry :: entries, next =>
      nodeAt? entry.handle.index =
          some ⟨entry.instr, entry.depth, previous,
            (firstPlace entries).or next⟩ ∧
        Linked nodeAt? (some entry.handle.index) entries next

theorem linked_append {nodeAt? : Nat → Option Node}
    {previous next : Option Nat} {front back : List Entry} :
    Linked nodeAt? previous (front ++ back) next ↔
      Linked nodeAt? previous front ((firstPlace back).or next) ∧
        Linked nodeAt? ((lastPlace front).or previous) back next := by
  induction front generalizing previous with
  | nil => simp [Linked]
  | cons entry front ih => simp [Linked, ih, and_assoc, Option.or_assoc]

theorem Linked.congr {nodeAt? others : Nat → Option Node}
    {previous next : Option Nat} {entries : List Entry}
    (linked : Linked nodeAt? previous entries next)
    (agree : ∀ index ∈ placesOf entries, others index = nodeAt? index) :
    Linked others previous entries next := by
  induction entries generalizing previous with
  | nil => trivial
  | cons entry entries ih =>
      have here := agree entry.handle.index (by simp)
      refine ⟨here.trans linked.1, ih linked.2 ?_⟩
      intro index member
      exact agree index (by simp [member])

/-! ## Changing links -/

section Nodes

variable {store : Store} {index : Nat} {node : Node}

theorem lt_size_of_nodeAt? (found : store.nodeAt? index = some node) :
    index < store.cells.size := by
  obtain ⟨cell, here, -⟩ := Option.bind_eq_some_iff.mp found
  exact (Array.getElem?_eq_some_iff.mp here).1

theorem nodeAt?_putNode_self (inside : index < store.cells.size)
    (node : Node) : (store.putNode index node).nodeAt? index = some node := by
  simp [putNode, nodeAt?, Array.getElem_modify, inside]

theorem nodeAt?_putNode_of_ne {place : Nat} (apart : place ≠ index)
    (node : Node) :
    (store.putNode index node).nodeAt? place = store.nodeAt? place := by
  simp [putNode, nodeAt?, Array.getElem?_modify, apart.symm]

@[simp]
theorem generationAt?_putNode (store : Store) (index : Nat) (node : Node)
    (place : Nat) :
    (store.putNode index node).generationAt? place =
      store.generationAt? place := by
  by_cases same : index = place
  · simp [putNode, generationAt?, Array.getElem?_modify, same,
      Function.comp_def]
  · simp [putNode, generationAt?, Array.getElem?_modify, same]

theorem modifyNode_of_nodeAt? (found : store.nodeAt? index = some node)
    (change : Node → Node) :
    store.modifyNode index change =
      some (store.putNode index (change node)) := by
  rw [modifyNode, found, Option.map_some]

end Nodes

/-- Only nodes in the given places have changed, and perhaps the ends. -/
structure Relinked (store left : Store) (places : List Nat) : Prop where
  node_eq : ∀ index, index ∉ places → left.nodeAt? index = store.nodeAt? index
  generation_eq : ∀ index, left.generationAt? index = store.generationAt? index
  vacant_eq : left.vacant = store.vacant
  length_eq : left.length = store.length

section Relinked

variable {store middle left : Store} {places : List Nat}

theorem Relinked.trans (first : Relinked store middle places)
    (second : Relinked middle left places) : Relinked store left places where
  node_eq index outside :=
    (second.node_eq index outside).trans (first.node_eq index outside)
  generation_eq index :=
    (second.generation_eq index).trans (first.generation_eq index)
  vacant_eq := second.vacant_eq.trans first.vacant_eq
  length_eq := second.length_eq.trans first.length_eq

theorem relinked_putNode {index : Nat} (member : index ∈ places)
    (node : Node) : Relinked store (store.putNode index node) places where
  node_eq place outside := by
    apply nodeAt?_putNode_of_ne
    rintro rfl
    exact outside member
  generation_eq := generationAt?_putNode store index node
  vacant_eq := rfl
  length_eq := rfl

theorem Relinked.mono {others : List Nat}
    (relinked : Relinked store left places) (subset : places ⊆ others) :
    Relinked store left others where
  node_eq index outside :=
    relinked.node_eq index fun member => outside (subset member)
  generation_eq := relinked.generation_eq
  vacant_eq := relinked.vacant_eq
  length_eq := relinked.length_eq

theorem Relinked.recount (relinked : Relinked store left places)
    (count : Nat → Nat) :
    Relinked { store with length := count store.length }
      { left with length := count left.length } places where
  node_eq := relinked.node_eq
  generation_eq := relinked.generation_eq
  vacant_eq := relinked.vacant_eq
  length_eq := congrArg count relinked.length_eq

end Relinked

/-- A store is linked up to some point and from there on, with a link ahead at
the end of the front part and a link behind at the start of the back part. -/
structure Parted (store : Store) (front back : List Entry)
    (ahead behind : Option Nat) : Prop where
  front_linked : Linked store.nodeAt? none front ahead
  back_linked : Linked store.nodeAt? behind back none
  head_eq : store.head = (firstPlace front).or ahead
  tail_eq : store.tail = (lastPlace back).or behind

/-- The links of a store spell a sequence of entries. -/
structure Whole (store : Store) (entries : List Entry) : Prop where
  linked : Linked store.nodeAt? none entries none
  head_eq : store.head = firstPlace entries
  tail_eq : store.tail = lastPlace entries

section Links

variable {store : Store} {front back : List Entry} {ahead behind : Option Nat}

theorem whole_append_iff :
    store.Whole (front ++ back) ↔
      store.Parted front back (firstPlace back) (lastPlace front) := by
  constructor
  · rintro ⟨linked, head_eq, tail_eq⟩
    have parts := linked_append.mp linked
    rw [Option.or_none, Option.or_none] at parts
    exact ⟨parts.1, parts.2, by rw [head_eq, firstPlace_append],
      by rw [tail_eq, lastPlace_append]⟩
  · rintro ⟨frontLinked, backLinked, head_eq, tail_eq⟩
    refine ⟨linked_append.mpr ?_, by rw [head_eq, firstPlace_append],
      by rw [tail_eq, lastPlace_append]⟩
    rw [Option.or_none, Option.or_none]
    exact ⟨frontLinked, backLinked⟩

/-- One entry in the middle: both parts are linked to its place. -/
theorem whole_middle_iff {entry : Entry} :
    store.Whole (front ++ entry :: back) ↔
      store.Parted front back (some entry.handle.index)
          (some entry.handle.index) ∧
        store.nodeAt? entry.handle.index =
          some ⟨entry.instr, entry.depth, lastPlace front,
            firstPlace back⟩ := by
  rw [whole_append_iff]
  constructor
  · rintro ⟨frontLinked, ⟨node, backLinked⟩, head_eq, tail_eq⟩
    rw [Option.or_none] at node
    refine ⟨⟨frontLinked, backLinked, head_eq, ?_⟩, node⟩
    rw [tail_eq, lastPlace_cons, Option.or_assoc, Option.some_or]
  · rintro ⟨⟨frontLinked, backLinked, head_eq, tail_eq⟩, node⟩
    refine ⟨frontLinked, ⟨?_, backLinked⟩, head_eq, ?_⟩
    · rw [Option.or_none]
      exact node
    · rw [tail_eq, lastPlace_cons, Option.or_assoc, Option.some_or]

theorem not_mem_rest {entry : Entry}
    (distinct : (placesOf (front ++ entry :: back)).Nodup) :
    entry.handle.index ∉ placesOf (front ++ back) ∧
      (placesOf (front ++ back)).Nodup := by
  have reordered :=
    (placesOf_perm_middle front entry back).nodup_iff.mp distinct
  exact List.nodup_cons.mp reordered

/-- Nodes in places of neither part do not matter. -/
theorem Parted.of_agree {left : Store}
    (parted : store.Parted front back ahead behind)
    (agree : ∀ index ∈ placesOf (front ++ back),
      left.nodeAt? index = store.nodeAt? index)
    (sameHead : left.head = store.head) (sameTail : left.tail = store.tail) :
    left.Parted front back ahead behind where
  front_linked := parted.front_linked.congr fun index member =>
    agree index (by simp [member])
  back_linked := parted.back_linked.congr fun index member =>
    agree index (by simp [member])
  head_eq := sameHead.trans parted.head_eq
  tail_eq := sameTail.trans parted.tail_eq

/-- Setting the link behind the front part sets the link ahead. -/
theorem Parted.setNext (parted : store.Parted front back ahead behind)
    (distinct : (placesOf (front ++ back)).Nodup) (next : Option Nat) :
    ∃ left, store.setNext next (lastPlace front) = some left ∧
      left.Parted front back next behind ∧
      Relinked store left (placesOf (front ++ back)) := by
  rcases List.eq_nil_or_concat' front with rfl | ⟨init, entry, rfl⟩
  · exact ⟨_, rfl, ⟨trivial, parted.back_linked, rfl, parted.tail_eq⟩,
      fun _ _ => rfl, fun _ => rfl, rfl, rfl⟩
  · obtain ⟨initLinked, node, -⟩ := linked_append.mp parted.front_linked
    rw [List.append_assoc] at distinct
    obtain ⟨outside, -⟩ := not_mem_rest distinct
    rw [placesOf_append, List.mem_append, not_or] at outside
    obtain ⟨notInit, notBack⟩ := outside
    have inside := lt_size_of_nodeAt? node
    have last : lastPlace (init ++ [entry]) = some entry.handle.index := by
      simp
    rw [last, Store.setNext]
    refine ⟨_, modifyNode_of_nodeAt? node _, ⟨?_, ?_, ?_, parted.tail_eq⟩, ?_⟩
    · refine linked_append.mpr ⟨?_, ?_, trivial⟩
      · refine initLinked.congr fun index member => ?_
        exact nodeAt?_putNode_of_ne (ne_of_mem_of_not_mem member notInit) _
      · exact nodeAt?_putNode_self inside _
    · refine parted.back_linked.congr fun index member => ?_
      exact nodeAt?_putNode_of_ne (ne_of_mem_of_not_mem member notBack) _
    · have head_eq := parted.head_eq
      rw [firstPlace_append, Option.or_assoc] at head_eq ⊢
      exact head_eq
    · exact relinked_putNode (by simp) _

/-- Setting the link in front of the back part sets the link behind. -/
theorem Parted.setPrevious (parted : store.Parted front back ahead behind)
    (distinct : (placesOf (front ++ back)).Nodup) (previous : Option Nat) :
    ∃ left, store.setPrevious previous (firstPlace back) = some left ∧
      left.Parted front back ahead previous ∧
      Relinked store left (placesOf (front ++ back)) := by
  cases back with
  | nil =>
      exact ⟨_, rfl, ⟨parted.front_linked, trivial, parted.head_eq, rfl⟩,
        fun _ _ => rfl, fun _ => rfl, rfl, rfl⟩
  | cons entry back =>
      obtain ⟨node, backLinked⟩ := parted.back_linked
      obtain ⟨outside, -⟩ := not_mem_rest distinct
      rw [placesOf_append, List.mem_append, not_or] at outside
      obtain ⟨notFront, notBack⟩ := outside
      have inside := lt_size_of_nodeAt? node
      refine ⟨_, modifyNode_of_nodeAt? node _,
        ⟨?_, ⟨?_, ?_⟩, parted.head_eq, ?_⟩, ?_⟩
      · refine parted.front_linked.congr fun index member => ?_
        exact nodeAt?_putNode_of_ne (ne_of_mem_of_not_mem member notFront) _
      · exact nodeAt?_putNode_self inside _
      · refine backLinked.congr fun index member => ?_
        exact nodeAt?_putNode_of_ne (ne_of_mem_of_not_mem member notBack) _
      · have tail_eq := parted.tail_eq
        rw [lastPlace_cons, Option.or_assoc] at tail_eq ⊢
        exact tail_eq
      · exact relinked_putNode (by simp) _

theorem Parted.previousOf
    (parted : store.Parted front back (firstPlace back) (lastPlace front)) :
    store.previousOf (firstPlace back) = some (lastPlace front) := by
  cases back with
  | nil => exact congrArg some parted.tail_eq
  | cons entry back =>
      rw [firstPlace_cons, Store.previousOf, parted.back_linked.1]
      rfl

/-- A node in a place of its own is linked in between two parts. -/
theorem Whole.linkBefore {entry : Entry} {node : Node}
    (whole : store.Whole (front ++ back))
    (distinct : (placesOf (front ++ entry :: back)).Nodup)
    (found : store.nodeAt? entry.handle.index = some node)
    (sameInstr : node.instr = entry.instr)
    (sameDepth : node.depth = entry.depth) :
    ∃ left, store.linkBefore entry.handle.index (firstPlace back) = some left ∧
      left.Whole (front ++ entry :: back) ∧
      Relinked { store with length := store.length + 1 } left
        (placesOf (front ++ entry :: back)) := by
  have parted := whole_append_iff.mp whole
  obtain ⟨outside, rest⟩ := not_mem_rest distinct
  have inside := lt_size_of_nodeAt? found
  -- The node gets its own links first, then both neighbours are linked to it.
  have modified := modifyNode_of_nodeAt? found fun node =>
    { node with previous := lastPlace front, next := firstPlace back }
  have aside : (store.putNode entry.handle.index
      ⟨node.instr, node.depth, lastPlace front, firstPlace back⟩).Parted
      front back (firstPlace back) (lastPlace front) := by
    refine parted.of_agree (fun index member => ?_) rfl rfl
    exact nodeAt?_putNode_of_ne (ne_of_mem_of_not_mem member outside) _
  obtain ⟨middle, setNext, ahead, middleRelinked⟩ :=
    aside.setNext rest (some entry.handle.index)
  obtain ⟨left, setPrevious, behind, leftRelinked⟩ :=
    ahead.setPrevious rest (some entry.handle.index)
  refine ⟨{ left with length := left.length + 1 }, ?_, ?_, ?_⟩
  · rw [Store.linkBefore, parted.previousOf]
    simp only [bind, Option.bind, modified, setNext, setPrevious, pure]
  · rw [whole_middle_iff]
    refine ⟨⟨behind.front_linked, behind.back_linked, behind.head_eq,
      behind.tail_eq⟩, ?_⟩
    calc
      left.nodeAt? entry.handle.index = _ :=
        (middleRelinked.trans leftRelinked).node_eq _ outside
      _ = some ⟨entry.instr, entry.depth, lastPlace front,
            firstPlace back⟩ := by
        rw [nodeAt?_putNode_self inside, sameInstr, sameDepth]
  · have member : entry.handle.index ∈ placesOf (front ++ entry :: back) := by
      simp
    exact ((relinked_putNode member _).trans
      ((middleRelinked.trans leftRelinked).mono
        (placesOf_subset_middle front entry back))).recount (· + 1)

theorem Whole.unlink {entry : Entry}
    (whole : store.Whole (front ++ entry :: back))
    (distinct : (placesOf (front ++ entry :: back)).Nodup) :
    ∃ left, store.unlink entry.handle.index =
        some ((lastPlace front, firstPlace back), left) ∧
      left.Whole (front ++ back) ∧
      Relinked { store with length := store.length - 1 } left
        (placesOf (front ++ back)) := by
  obtain ⟨parted, node⟩ := whole_middle_iff.mp whole
  obtain ⟨-, rest⟩ := not_mem_rest distinct
  obtain ⟨middle, setNext, ahead, middleRelinked⟩ :=
    parted.setNext rest (firstPlace back)
  obtain ⟨left, setPrevious, behind, leftRelinked⟩ :=
    ahead.setPrevious rest (lastPlace front)
  refine ⟨{ left with length := left.length - 1 }, ?_, ?_, ?_⟩
  · rw [Store.unlink, node]
    simp only [bind, Option.bind, setNext, setPrevious, pure]
  · exact whole_append_iff.mpr ⟨behind.front_linked, behind.back_linked,
      behind.head_eq, behind.tail_eq⟩
  · exact (middleRelinked.trans leftRelinked).recount (· - 1)

theorem Whole.modifyNode {entry : Entry}
    (whole : store.Whole (front ++ entry :: back))
    (distinct : (placesOf (front ++ entry :: back)).Nodup)
    (change : Node → Node) (instr : Instr) (depth : Option Int)
    (changed : ∀ previous next,
      change ⟨entry.instr, entry.depth, previous, next⟩ =
        ⟨instr, depth, previous, next⟩) :
    ∃ left, store.modifyNode entry.handle.index change = some left ∧
      left.Whole (front ++ { entry with instr, depth } :: back) ∧
      Relinked store left (placesOf (front ++ entry :: back)) := by
  obtain ⟨parted, node⟩ := whole_middle_iff.mp whole
  obtain ⟨outside, -⟩ := not_mem_rest distinct
  refine ⟨_, modifyNode_of_nodeAt? node _, ?_, relinked_putNode (by simp) _⟩
  rw [whole_middle_iff, changed]
  refine ⟨parted.of_agree (fun index member => ?_) rfl rfl, ?_⟩
  · exact nodeAt?_putNode_of_ne (ne_of_mem_of_not_mem member outside) _
  · exact nodeAt?_putNode_self (lt_size_of_nodeAt? node) _

theorem Whole.changeFrom (change : Instr → Instr) {steps : Nat}
    (whole : store.Whole (front ++ back))
    (distinct : (placesOf (front ++ back)).Nodup)
    (enough : back.length ≤ steps) :
    ∃ left, store.changeFrom change steps (firstPlace back) = some left ∧
      left.Whole (front ++ back.map fun entry =>
        { entry with instr := change entry.instr }) ∧
      Relinked store left (placesOf (front ++ back)) := by
  induction back generalizing store front steps with
  | nil =>
      refine ⟨store, by cases steps <;> rfl, whole, ?_⟩
      exact ⟨fun _ _ => rfl, fun _ => rfl, rfl, rfl⟩
  | cons entry back ih =>
      obtain ⟨steps, rfl⟩ : ∃ fewer, steps = fewer + 1 :=
        Nat.exists_eq_add_one_of_ne_zero (by simp at enough; omega)
      obtain ⟨-, node⟩ := whole_middle_iff.mp whole
      obtain ⟨middle, modified, changed, middleRelinked⟩ :=
        whole.modifyNode distinct
          (fun node => { node with instr := change node.instr })
          (change entry.instr) entry.depth fun _ _ => rfl
      -- The changed entry joins the front part, in the same place as before.
      have same : placesOf
          ((front ++ [{ entry with instr := change entry.instr }]) ++ back) =
          placesOf (front ++ entry :: back) := by
        simp
      rw [List.append_cons] at changed
      obtain ⟨left, rest, leftWhole, leftRelinked⟩ :=
        ih changed (same ▸ distinct)
          (Nat.le_of_succ_le_succ enough)
      refine ⟨left, ?_, ?_, middleRelinked.trans (same ▸ leftRelinked)⟩
      · rw [firstPlace_cons, Store.changeFrom, node]
        simp only [bind, Option.bind, modified, rest]
      · rw [List.append_assoc] at leftWhole
        exact leftWhole

end Links

end Store

end StackAssembler
