import StackAssembler.Routine.Edit
import Mathlib.Data.List.Nodup
import Mathlib.Tactic.Tauto

/-!
# Edits of a routine and the accounts of its handles

An edit changes the sequence of a routine's entries in one place, and refuses a
handle that names no entry.  The handle pool keeps the accounts: the places of
the entries and the vacant places are all places of the pool, each of them once,
and an entry's handle has the current generation of its place.  A new routine
has its accounts in order, and every edit keeps them so.
-/

namespace StackAssembler

namespace HandlePool

/-- The given places and the vacant ones are all places of a pool, each of them
once. -/
def Accounts (pool : HandlePool) (places : List Nat) : Prop :=
  (places ++ pool.vacant).Perm (List.range pool.generations.size)

section Accounts

variable {pool : HandlePool} {places : List Nat}

theorem Accounts.of_perm {others : List Nat} (accounts : pool.Accounts places)
    (reordered : others.Perm places) : pool.Accounts others :=
  (reordered.append_right _).trans accounts

theorem Accounts.nodup (accounts : pool.Accounts places) : places.Nodup := by
  have whole : (places ++ pool.vacant).Nodup :=
    accounts.nodup_iff.mpr List.nodup_range
  exact (List.nodup_append.mp whole).1

theorem Accounts.nodup_vacant (accounts : pool.Accounts places) :
    pool.vacant.Nodup := by
  have whole : (places ++ pool.vacant).Nodup :=
    accounts.nodup_iff.mpr List.nodup_range
  exact (List.nodup_append.mp whole).2.1

theorem Accounts.not_mem_vacant (accounts : pool.Accounts places)
    {index : Nat} (member : index ∈ places) : index ∉ pool.vacant := by
  have whole : (places ++ pool.vacant).Nodup :=
    accounts.nodup_iff.mpr List.nodup_range
  intro vacant
  exact (List.nodup_append.mp whole).2.2 index member index vacant rfl

theorem Accounts.mem_or_vacant_iff (accounts : pool.Accounts places)
    {index : Nat} :
    index ∈ places ∨ index ∈ pool.vacant ↔
      index < pool.generations.size := by
  rw [← List.mem_append, accounts.mem_iff, List.mem_range]

/-- A handle that is issued has the current generation of its place.  Its place
is taken from then on, and no other place changes. -/
theorem Accounts.issue (accounts : pool.Accounts places) {handle : Handle}
    {left : HandlePool} (issued : pool.issue = (handle, left)) :
    left.Accounts (handle.index :: places) ∧
      left.generations[handle.index]? = some handle.generation ∧
      ∀ index ∈ places,
        left.generations[index]? = pool.generations[index]? := by
  obtain ⟨generations, vacant⟩ := pool
  cases vacant with
  | nil =>
      obtain ⟨rfl, rfl⟩ := Prod.mk.inj issued
      have taken : places.Perm (List.range generations.size) := by
        simpa [Accounts] using accounts
      refine ⟨?_, by simp, ?_⟩
      · have grown : (generations.size :: places).Perm
            (List.range (generations.size + 1)) := by
          rw [List.range_succ]
          exact (taken.cons _).trans
            (List.perm_append_singleton _ _).symm
        simpa [Accounts] using grown
      · intro index member
        have inside : index < generations.size :=
          List.mem_range.mp (taken.mem_iff.mp member)
        simp [Array.getElem?_push, Nat.ne_of_lt inside]
  | cons index vacant =>
      obtain ⟨rfl, rfl⟩ := Prod.mk.inj issued
      have inside : index < generations.size :=
        accounts.mem_or_vacant_iff.mp (.inr List.mem_cons_self)
      refine ⟨?_, by simp [inside], fun _ _ => rfl⟩
      exact List.perm_middle.symm.trans accounts

/-- A handle that is retired leaves its place vacant, and no other place
changes. -/
theorem Accounts.retire {handle : Handle}
    (accounts : pool.Accounts (handle.index :: places)) :
    (pool.retire handle).Accounts places ∧
      ∀ index ∈ places, (pool.retire handle).generations[index]? =
        pool.generations[index]? := by
  refine ⟨?_, ?_⟩
  · have moved := List.perm_middle.trans accounts
    simpa [Accounts, HandlePool.retire] using moved
  · intro index member
    have apart : handle.index ≠ index := by
      rintro rfl
      exact (List.nodup_cons.mp accounts.nodup).1 member
    simp [HandlePool.retire, Array.getElem?_modify, apart]

end Accounts

end HandlePool

def placesOf (entries : List Entry) : List Nat :=
  entries.map (·.handle.index)

@[simp]
theorem placesOf_nil : placesOf [] = [] := rfl

@[simp]
theorem placesOf_cons (entry : Entry) (entries : List Entry) :
    placesOf (entry :: entries) = entry.handle.index :: placesOf entries :=
  rfl

@[simp]
theorem placesOf_append (first second : List Entry) :
    placesOf (first ++ second) = placesOf first ++ placesOf second :=
  List.map_append

theorem placesOf_perm_middle (front : List Entry) (entry : Entry)
    (back : List Entry) :
    (placesOf (front ++ entry :: back)).Perm
      (entry.handle.index :: placesOf (front ++ back)) :=
  (List.perm_middle).map _

theorem mem_middle {front back : List Entry} {entry other : Entry}
    (member : other ∈ front ++ back) : other ∈ front ++ entry :: back :=
  ((List.sublist_cons_self entry back).append_left front).subset member

/-- Taking an entry out and putting it back elsewhere reorders the entries. -/
theorem perm_of_move {before after front back : List Entry}
    {entry target : Entry} (rest : before ++ after = front ++ target :: back) :
    (front ++ entry :: target :: back).Perm (before ++ entry :: after) := by
  have moved : (front ++ entry :: target :: back).Perm
      (entry :: (before ++ after)) := by
    rw [rest]
    exact List.perm_middle
  exact moved.trans List.perm_middle.symm

theorem placesOf_subset_middle (front : List Entry) (entry : Entry)
    (back : List Entry) :
    placesOf (front ++ back) ⊆ placesOf (front ++ entry :: back) :=
  List.map_subset _ fun _ => mem_middle

namespace Routine

/-- The handles and the pool of a routine are in order. -/
structure Accounted (routine : Routine) : Prop where
  accounts : routine.pool.Accounts (placesOf routine.entries)
  current : ∀ entry ∈ routine.entries,
    routine.pool.generations[entry.handle.index]? =
      some entry.handle.generation

theorem accounted_new : Accounted {} where
  accounts := List.Perm.refl []
  current := by simp

theorem Accounted.nodup_handles {routine : Routine}
    (accounted : routine.Accounted) : routine.handles.Nodup := by
  have places : (routine.handles.map (·.index)).Nodup := by
    rw [handles, List.map_map]
    exact accounted.accounts.nodup
  exact places.of_map _

section Splits

variable {handle : Handle} {entries : List Entry}

theorem splitAt?_eq_none_iff :
    splitAt? handle entries = none ↔
      ∀ entry ∈ entries, entry.handle ≠ handle := by
  induction entries with
  | nil => simp [splitAt?]
  | cons entry entries ih =>
      by_cases same : entry.handle = handle
      · simp [splitAt?, same]
      · simp [splitAt?, same, ih]

/-- A sequence is split at the first entry with the handle. -/
theorem splitAt?_eq_some_iff {front back : List Entry} {entry : Entry} :
    splitAt? handle entries = some (front, entry, back) ↔
      entries = front ++ entry :: back ∧ entry.handle = handle ∧
        ∀ other ∈ front, other.handle ≠ handle := by
  induction entries generalizing front with
  | nil => simp [splitAt?]
  | cons first entries ih =>
      by_cases same : first.handle = handle
      · rw [splitAt?, if_pos same]
        constructor
        · rintro ⟨⟩
          exact ⟨rfl, same, by simp⟩
        · rintro ⟨whole, -, apart⟩
          cases front with
          | nil =>
              obtain ⟨rfl, rfl⟩ := List.cons.inj whole
              rfl
          | cons other front =>
              obtain ⟨rfl, -⟩ := List.cons.inj whole
              exact absurd same (apart first List.mem_cons_self)
      · rw [splitAt?, if_neg same, Option.map_eq_some_iff]
        constructor
        · rintro ⟨⟨before, found, after⟩, split, equal⟩
          obtain ⟨rfl, rest⟩ := Prod.mk.inj equal
          obtain ⟨rfl, rfl⟩ := Prod.mk.inj rest
          obtain ⟨rfl, named, apart⟩ := ih.mp split
          refine ⟨rfl, named, ?_⟩
          intro other member
          rcases List.mem_cons.mp member with rfl | later
          · exact same
          · exact apart other later
        · rintro ⟨whole, named, apart⟩
          cases front with
          | nil =>
              obtain ⟨rfl, -⟩ := List.cons.inj whole
              exact absurd named same
          | cons other front =>
              obtain ⟨rfl, rfl⟩ := List.cons.inj whole
              refine ⟨(front, entry, back), ih.mpr ⟨rfl, named, ?_⟩, rfl⟩
              intro other member
              exact apart other (List.mem_cons_of_mem _ member)

/-- Where handles are distinct, a sequence is split at any of its entries. -/
theorem splitAt?_middle {front back : List Entry} {entry : Entry}
    (distinct : ((front ++ entry :: back).map (·.handle)).Nodup) :
    splitAt? entry.handle (front ++ entry :: back) =
      some (front, entry, back) := by
  rw [splitAt?_eq_some_iff]
  refine ⟨rfl, rfl, ?_⟩
  intro other member
  rw [List.map_append, List.map_cons, List.nodup_append] at distinct
  exact distinct.2.2 _ (List.mem_map_of_mem member) _ List.mem_cons_self

variable {routine : Routine}

theorem locate_eq_ok_iff {front back : List Entry} {entry : Entry} :
    routine.locate handle = .ok (front, entry, back) ↔
      splitAt? handle routine.entries = some (front, entry, back) := by
  unfold locate
  cases splitAt? handle routine.entries <;> simp

theorem locate_of_not_mem (missing : handle ∉ routine.handles) :
    routine.locate handle = .error (.staleHandle handle) := by
  have none : splitAt? handle routine.entries = none := by
    rw [splitAt?_eq_none_iff]
    intro entry member same
    exact missing (same ▸ List.mem_map_of_mem member)
  rw [locate, none]

theorem exists_locate (member : handle ∈ routine.handles) :
    ∃ front entry back, routine.entries = front ++ entry :: back ∧
      entry.handle = handle ∧
      routine.locate handle = .ok (front, entry, back) := by
  cases split : splitAt? handle routine.entries with
  | none =>
      obtain ⟨entry, inside, same⟩ := List.mem_map.mp member
      exact absurd same (splitAt?_eq_none_iff.mp split entry inside)
  | some parts =>
      obtain ⟨front, entry, back⟩ := parts
      obtain ⟨whole, named, -⟩ := splitAt?_eq_some_iff.mp split
      exact ⟨front, entry, back, whole, named, locate_eq_ok_iff.mpr split⟩

end Splits

end Routine

/-- The edits of a sequence of instructions. -/
inductive Edit where
  | push (instr : Instr)
  | pushFront (instr : Instr)
  | insertBefore (place : Handle) (instr : Instr)
  | moveBefore (handle place : Handle)
  | erase (handle : Handle)
  | popLast
  | replace (handle : Handle) (instr : Instr)
  | exchangeSlot (old new : Slot)

/-- What an edit answers. -/
inductive Reply where
  /-- The handle of the new instruction. -/
  | inserted (handle : Handle)
  /-- Where to go on behind an erased instruction. -/
  | resume (handle? : Option Handle)
  /-- The instruction that was the last one. -/
  | popped (instr? : Option Instr)
  /-- The instruction that was replaced. -/
  | replaced (instr : Instr)
  | done

/-- The handles that an edit looks up, in this order. -/
def Edit.names : Edit → List Handle
  | insertBefore place _ => [place]
  | moveBefore handle place => if handle = place then [] else [handle, place]
  | erase handle | replace handle _ => [handle]
  | push _ | pushFront _ | popLast | exchangeSlot .. => []

/-- An edit turns a sequence into another one, with an answer. -/
inductive Edited : List Entry → Edit → Reply → List Entry → Prop
  | push {entries : List Entry} {instr : Instr} {handle : Handle}
      (fresh : handle.index ∉ placesOf entries) :
      Edited entries (.push instr) (.inserted handle)
        (entries ++ [⟨handle, instr, none⟩])
  | pushFront {entries : List Entry} {instr : Instr} {handle : Handle}
      (fresh : handle.index ∉ placesOf entries) :
      Edited entries (.pushFront instr) (.inserted handle)
        (⟨handle, instr, none⟩ :: entries)
  | insertBefore {front back : List Entry} {entry : Entry} {instr : Instr}
      {handle : Handle}
      (fresh : handle.index ∉ placesOf (front ++ entry :: back)) :
      Edited (front ++ entry :: back) (.insertBefore entry.handle instr)
        (.inserted handle) (front ++ ⟨handle, instr, none⟩ :: entry :: back)
  | moveDown {front between back : List Entry} {entry target : Entry} :
      Edited (front ++ entry :: (between ++ target :: back))
        (.moveBefore entry.handle target.handle) .done
        (front ++ (between ++ entry :: target :: back))
  | moveUp {front between back : List Entry} {entry target : Entry} :
      Edited (front ++ target :: (between ++ entry :: back))
        (.moveBefore entry.handle target.handle) .done
        (front ++ entry :: target :: (between ++ back))
  | stay {entries : List Entry} {handle : Handle} :
      Edited entries (.moveBefore handle handle) .done entries
  | erase {front back : List Entry} {entry : Entry} :
      Edited (front ++ entry :: back) (.erase entry.handle)
        (.resume ((front.getLast?.or back.head?).map (·.handle)))
        (front ++ back)
  | popNone : Edited [] .popLast (.popped none) []
  | pop {front : List Entry} {entry : Entry} :
      Edited (front ++ [entry]) .popLast (.popped (some entry.instr)) front
  | replace {front back : List Entry} {entry : Entry} {instr : Instr} :
      Edited (front ++ entry :: back) (.replace entry.handle instr)
        (.replaced entry.instr) (front ++ { entry with instr } :: back)
  | exchangeSlot {entries : List Entry} {old new : Slot} :
      Edited entries (.exchangeSlot old new) .done
        (entries.map fun entry =>
          { entry with
            instr := entry.instr.renameSlots fun slot =>
              if slot = old then new else slot })

/-- Where an entry goes that is moved: down across some entries, or up. -/
theorem edited_moveBefore {before after front back : List Entry}
    {entry target : Entry}
    (split : before ++ after = front ++ target :: back) :
    Edited (before ++ entry :: after)
      (.moveBefore entry.handle target.handle) .done
      (front ++ entry :: target :: back) := by
  rcases List.append_eq_append_iff.mp split with
    ⟨between, rfl, rfl⟩ | ⟨between, rfl, later⟩
  · simpa using @Edited.moveDown before between back entry target
  · cases between with
    | nil =>
        obtain rfl : target :: back = after := later
        simpa using @Edited.moveDown front [] back entry target
    | cons other between =>
        obtain ⟨rfl, rfl⟩ := List.cons.inj later
        simpa using @Edited.moveUp front between after entry target

namespace Routine

def edit (routine : Routine) : Edit → Except Fault (Reply × Routine)
  | .push instr =>
      let (handle, left) := routine.push instr
      .ok (.inserted handle, left)
  | .pushFront instr =>
      let (handle, left) := routine.pushFront instr
      .ok (.inserted handle, left)
  | .insertBefore place instr => do
      let (handle, left) ← routine.insertBefore place instr
      return (.inserted handle, left)
  | .moveBefore handle place => do
      let left ← routine.moveBefore handle place
      return (.done, left)
  | .erase handle => do
      let (handle?, left) ← routine.erase handle
      return (.resume handle?, left)
  | .popLast =>
      let (instr?, left) := routine.popLast
      .ok (.popped instr?, left)
  | .replace handle instr => do
      let (old, left) ← routine.replace handle instr
      return (.replaced old, left)
  | .exchangeSlot old new => .ok (.done, routine.exchangeSlot old new)

/-- An edit and what is left of the routine: a fault leaves it as it was. -/
def perform (routine : Routine) (edit : Edit) :
    Except Fault Reply × Routine :=
  match routine.edit edit with
  | .error fault => (.error fault, routine)
  | .ok (reply, left) => (.ok reply, left)

def performAll (routine : Routine) :
    List Edit → List (Except Fault Reply) × Routine
  | [] => ([], routine)
  | edit :: edits =>
      let (reply, left) := routine.perform edit
      let (replies, final) := left.performAll edits
      (reply :: replies, final)

section Results

variable {routine : Routine} {handle : Handle} {pool : HandlePool}

theorem edit_push (issued : routine.pool.issue = (handle, pool))
    (instr : Instr) :
    routine.edit (.push instr) = .ok (.inserted handle,
      { routine with
        entries := routine.entries ++ [⟨handle, instr, none⟩], pool }) := by
  rw [edit, push, issued]

theorem edit_pushFront (issued : routine.pool.issue = (handle, pool))
    (instr : Instr) :
    routine.edit (.pushFront instr) = .ok (.inserted handle,
      { routine with
        entries := ⟨handle, instr, none⟩ :: routine.entries, pool }) := by
  rw [edit, pushFront, issued]

theorem edit_popLast_of_nil (empty : routine.entries = []) :
    routine.edit .popLast = .ok (.popped none, routine) := by
  rw [edit, popLast, empty]
  rfl

theorem edit_popLast {front : List Entry} {entry : Entry}
    (whole : routine.entries = front ++ [entry]) :
    routine.edit .popLast = .ok (.popped (some entry.instr),
      { routine with
        entries := front
        pool := routine.pool.retire entry.handle }) := by
  rw [edit, popLast, whole]
  simp

theorem edit_moveBefore_self :
    routine.edit (.moveBefore handle handle) = .ok (.done, routine) := by
  rw [edit, moveBefore, if_pos rfl]
  rfl

variable {front back : List Entry} {entry : Entry}

theorem edit_insertBefore
    (located : routine.locate entry.handle = .ok (front, entry, back))
    (issued : routine.pool.issue = (handle, pool)) (instr : Instr) :
    routine.edit (.insertBefore entry.handle instr) = .ok (.inserted handle,
      { routine with
        entries := front ++ ⟨handle, instr, none⟩ :: entry :: back
        pool }) := by
  rw [edit, insertBefore, located, issued]
  rfl

theorem edit_erase
    (located : routine.locate entry.handle = .ok (front, entry, back)) :
    routine.edit (.erase entry.handle) =
      .ok (.resume ((front.getLast?.or back.head?).map (·.handle)),
        { routine with
          entries := front ++ back
          pool := routine.pool.retire entry.handle }) := by
  rw [edit, erase, located]
  rfl

theorem edit_replace
    (located : routine.locate entry.handle = .ok (front, entry, back))
    (instr : Instr) :
    routine.edit (.replace entry.handle instr) = .ok (.replaced entry.instr,
      { routine with
        entries := front ++ { entry with instr } :: back }) := by
  rw [edit, replace, located]
  rfl

theorem edit_moveBefore {before after : List Entry} {target : Entry}
    (apart : entry.handle ≠ target.handle)
    (located : routine.locate entry.handle = .ok (before, entry, after))
    (split : splitAt? target.handle (before ++ after) =
      some (front, target, back)) :
    routine.edit (.moveBefore entry.handle target.handle) =
      .ok (.done, { routine with
        entries := front ++ entry :: target :: back }) := by
  rw [edit, moveBefore, if_neg apart, located]
  simp only [bind, Except.bind, split]
  rfl

/-- Another entry than the one that is moved is found among the rest. -/
theorem exists_split_rest {before after : List Entry} {place : Handle}
    (whole : routine.entries = before ++ entry :: after)
    (apart : entry.handle ≠ place) (known : place ∈ routine.handles) :
    ∃ front target back, before ++ after = front ++ target :: back ∧
      target.handle = place ∧
      splitAt? place (before ++ after) = some (front, target, back) := by
  cases split : splitAt? place (before ++ after) with
  | none =>
      obtain ⟨other, member, named⟩ := List.mem_map.mp known
      have unnamed := splitAt?_eq_none_iff.mp split
      rw [whole, List.mem_append, List.mem_cons] at member
      rcases member with inFront | rfl | inBack
      · exact absurd named (unnamed other (List.mem_append_left _ inFront))
      · exact absurd named apart
      · exact absurd named (unnamed other (List.mem_append_right _ inBack))
  | some parts =>
      obtain ⟨front, target, back⟩ := parts
      obtain ⟨rest, named, -⟩ := splitAt?_eq_some_iff.mp split
      exact ⟨front, target, back, rest, named, rfl⟩

/-- An edit is refused for the first of its handles that names no entry. -/
theorem edit_of_stale {edit : Edit} {name : Handle}
    (stale : edit.names.find? (· ∉ routine.handles) = some name) :
    routine.edit edit = .error (.staleHandle name) := by
  cases edit with
  | push | pushFront | popLast | exchangeSlot => cases stale
  | insertBefore place instr =>
      obtain ⟨missing, rfl⟩ : place ∉ routine.handles ∧ place = name := by
        simpa [Edit.names] using stale
      rw [Routine.edit, insertBefore, locate_of_not_mem missing]
      rfl
  | erase handle =>
      obtain ⟨missing, rfl⟩ : handle ∉ routine.handles ∧ handle = name := by
        simpa [Edit.names] using stale
      rw [Routine.edit, erase, locate_of_not_mem missing]
      rfl
  | replace handle instr =>
      obtain ⟨missing, rfl⟩ : handle ∉ routine.handles ∧ handle = name := by
        simpa [Edit.names] using stale
      rw [Routine.edit, replace, locate_of_not_mem missing]
      rfl
  | moveBefore handle place =>
      have apart : handle ≠ place := by
        rintro rfl
        simp [Edit.names] at stale
      rw [Routine.edit, moveBefore, if_neg apart]
      rw [Edit.names, if_neg apart] at stale
      by_cases known : handle ∈ routine.handles
      · obtain ⟨missing, rfl⟩ : place ∉ routine.handles ∧ place = name := by
          simpa [known] using stale
        obtain ⟨before, entry, after, whole, rfl, located⟩ :=
          exists_locate known
        have unsplit : splitAt? place (before ++ after) = none := by
          rw [splitAt?_eq_none_iff]
          intro other member same
          apply missing
          rw [handles, whole, ← same]
          exact List.mem_map_of_mem (mem_middle member)
        rw [located]
        simp only [bind, Except.bind, unsplit]
      · obtain rfl : handle = name := by simpa [known] using stale
        rw [locate_of_not_mem known]
        rfl

end Results

/-- What an edit that is not refused makes of a routine. -/
structure Edits (routine : Routine) (edit : Edit) (reply : Reply)
    (left : Routine) : Prop where
  edited : Edited routine.entries edit reply left.entries
  accounted : left.Accounted
  temporaries_eq : left.temporaries = routine.temporaries
  lines_eq : left.lines = routine.lines
  maxDepth_eq : left.maxDepth = routine.maxDepth

section Accounted

variable {routine : Routine} (accounted : routine.Accounted)

include accounted

theorem Accounted.insert {handle : Handle} {pool : HandlePool}
    (issued : routine.pool.issue = (handle, pool)) (instr : Instr)
    {front back : List Entry} (whole : routine.entries = front ++ back) :
    handle.index ∉ placesOf routine.entries ∧
      Accounted { routine with
        entries := front ++ ⟨handle, instr, none⟩ :: back, pool } := by
  obtain ⟨accounts, issuedCurrent, unchanged⟩ := accounted.accounts.issue issued
  refine ⟨(List.nodup_cons.mp accounts.nodup).1, ?_, ?_⟩
  · apply accounts.of_perm
    rw [whole]
    exact placesOf_perm_middle front ⟨handle, instr, none⟩ back
  · intro entry member
    have cases : entry = ⟨handle, instr, none⟩ ∨ entry ∈ routine.entries := by
      rw [whole]
      simp only [List.mem_append, List.mem_cons] at member ⊢
      tauto
    rcases cases with rfl | old
    · exact issuedCurrent
    · exact (unchanged _ (List.mem_map_of_mem old)).trans
        (accounted.current entry old)

theorem Accounted.delete {front back : List Entry} {entry : Entry}
    (whole : routine.entries = front ++ entry :: back) :
    Accounted { routine with
      entries := front ++ back
      pool := routine.pool.retire entry.handle } := by
  have accounts := accounted.accounts.of_perm
    (whole ▸ (placesOf_perm_middle front entry back).symm)
  obtain ⟨left, unchanged⟩ := accounts.retire
  refine ⟨left, ?_⟩
  intro other member
  have old : other ∈ routine.entries := whole ▸ mem_middle member
  exact (unchanged _ (List.mem_map_of_mem member)).trans
    (accounted.current other old)

/-- Entries that keep their handles, in any order. -/
theorem Accounted.of_perm_handles {entries : List Entry}
    (reordered : (entries.map (·.handle)).Perm routine.handles) :
    Accounted { routine with entries } := by
  refine ⟨?_, ?_⟩
  · apply accounted.accounts.of_perm
    have places := reordered.map (·.index)
    simpa [placesOf, handles, Function.comp_def] using places
  · intro entry member
    have known : entry.handle ∈ routine.handles :=
      reordered.mem_iff.mp (List.mem_map_of_mem member)
    obtain ⟨other, old, same⟩ := List.mem_map.mp known
    rw [← same]
    exact accounted.current other old

theorem Accounted.move {before after front back : List Entry}
    {entry target : Entry}
    (whole : routine.entries = before ++ entry :: after)
    (rest : before ++ after = front ++ target :: back) :
    Accounted { routine with entries := front ++ entry :: target :: back } := by
  apply accounted.of_perm_handles
  rw [handles, whole]
  exact (perm_of_move rest).map _

theorem Accounted.exists_edits {edit : Edit}
    (known : ∀ name ∈ edit.names, name ∈ routine.handles) :
    ∃ reply left, routine.edit edit = .ok (reply, left) ∧
      routine.Edits edit reply left := by
  cases edit with
  | push instr =>
      rcases issued : routine.pool.issue with ⟨handle, pool⟩
      have added := accounted.insert issued instr (List.append_nil _).symm
      exact ⟨_, _, edit_push issued instr, .push added.1, added.2, rfl, rfl,
        rfl⟩
  | pushFront instr =>
      rcases issued : routine.pool.issue with ⟨handle, pool⟩
      have added := accounted.insert issued instr (List.nil_append _).symm
      exact ⟨_, _, edit_pushFront issued instr, .pushFront added.1, added.2,
        rfl, rfl, rfl⟩
  | insertBefore place instr =>
      rcases issued : routine.pool.issue with ⟨handle, pool⟩
      obtain ⟨front, entry, back, whole, rfl, located⟩ :=
        exists_locate (known place (by simp [Edit.names]))
      obtain ⟨fresh, left⟩ := accounted.insert issued instr whole
      refine ⟨_, _, edit_insertBefore located issued instr, ?_, left, rfl, rfl,
        rfl⟩
      rw [whole] at fresh ⊢
      exact .insertBefore fresh
  | moveBefore handle place =>
      by_cases same : handle = place
      · subst same
        exact ⟨_, _, edit_moveBefore_self, .stay, accounted, rfl, rfl, rfl⟩
      · rw [Edit.names, if_neg same] at known
        obtain ⟨before, entry, after, whole, rfl, located⟩ :=
          exists_locate (known handle (by simp))
        obtain ⟨front, target, back, rest, rfl, split⟩ :=
          exists_split_rest whole same (known place (by simp))
        refine ⟨_, _, edit_moveBefore same located split, ?_,
          accounted.move whole rest, rfl, rfl, rfl⟩
        rw [whole]
        exact edited_moveBefore rest
  | erase handle =>
      obtain ⟨front, entry, back, whole, rfl, located⟩ :=
        exists_locate (known handle (by simp [Edit.names]))
      refine ⟨_, _, edit_erase located, ?_, accounted.delete whole, rfl, rfl,
        rfl⟩
      rw [whole]
      exact .erase
  | popLast =>
      rcases List.eq_nil_or_concat' routine.entries with
        empty | ⟨front, entry, whole⟩
      · refine ⟨_, _, edit_popLast_of_nil empty, ?_, accounted, rfl, rfl, rfl⟩
        rw [empty]
        exact .popNone
      · have left := accounted.delete whole
        rw [List.append_nil] at left
        refine ⟨_, _, edit_popLast whole, ?_, left, rfl, rfl, rfl⟩
        rw [whole]
        exact .pop
  | replace handle instr =>
      obtain ⟨front, entry, back, whole, rfl, located⟩ :=
        exists_locate (known handle (by simp [Edit.names]))
      have left : Accounted { routine with
          entries := front ++ { entry with instr } :: back } := by
        apply accounted.of_perm_handles
        simp [handles, whole]
      refine ⟨_, _, edit_replace located instr, ?_, left, rfl, rfl, rfl⟩
      rw [whole]
      exact .replace
  | exchangeSlot old new =>
      have left : Accounted (routine.exchangeSlot old new) := by
        apply accounted.of_perm_handles
        simp [handles, Function.comp_def]
      exact ⟨_, _, rfl, .exchangeSlot, left, rfl, rfl, rfl⟩

theorem Accounted.perform_cases (edit : Edit) :
    (∃ name, edit.names.find? (· ∉ routine.handles) = some name ∧
      routine.perform edit = (.error (.staleHandle name), routine)) ∨
    (∀ name ∈ edit.names, name ∈ routine.handles) ∧
      ∃ reply left, routine.perform edit = (.ok reply, left) ∧
        routine.edit edit = .ok (reply, left) ∧
        routine.Edits edit reply left := by
  cases stale : edit.names.find? (· ∉ routine.handles) with
  | some name =>
      refine .inl ⟨name, rfl, ?_⟩
      rw [perform, edit_of_stale stale]
  | none =>
      have known : ∀ name ∈ edit.names, name ∈ routine.handles := by
        simpa using stale
      obtain ⟨reply, left, done, edits⟩ := accounted.exists_edits known
      refine .inr ⟨known, reply, left, ?_, done, edits⟩
      rw [perform, done]

/-- Every edit, refused or not, keeps the accounts of a routine. -/
theorem Accounted.perform (edit : Edit) :
    (routine.perform edit).2.Accounted := by
  rcases accounted.perform_cases edit with
    ⟨name, -, refused⟩ | ⟨-, reply, left, done, -, edits⟩
  · rw [refused]
    exact accounted
  · rw [done]
    exact edits.accounted

end Accounted

end Routine

end StackAssembler
