import StackAssembler.Proofs.HandleAccounting
import StackAssembler.Proofs.SlotLiveness
import Mathlib.Data.List.Permutation

/-!
# Paths to a read

The value in a slot may still be read if control can get to a reader of the
slot through instructions that leave the value alone.  Where it is not known to
which instruction control passes on, every reader is within reach.  This file
says so with paths through the code, which know nothing of the search for
reads, and proves the search exact: it always has an answer, and it finds a
read exactly if there is a path to one.

That a read is found only at the end of a path is an invariant of the search:
paths lead to all destinations that it still has to follow.  That no read is
missed follows along a path: the destinations that were met are closed under
the steps of control, no matter on which line each of them was met first.
-/

namespace StackAssembler

namespace Liveness

open Flow Relation

/-- The value in a slot survives an instruction, and it is known to which
instructions control passes on. -/
structure Spares (code : List Instr) (slot : Slot) (instr : Instr) : Prop where
  unread : instr.access.reads slot = false
  unwritten : instr.access.writes slot = false
  kept : instr.dropsTemporaries = false
  noTable : ∀ chooser fanOut, instr ≠ .jumpPtr chooser fanOut
  known : ∀ target, instr.target? = some target →
    ∃ name ∈ labels code, target = .label name

/-- Control passes from the instruction at an index to the one at a place, and
the value in a slot survives. -/
inductive Passes (code : List Instr) (slot : Slot) (index : Nat) : Nat → Prop
  | jump {instr : Instr} {name : Label} {place : Nat}
      (here : code[index]? = some instr) (spares : Spares code slot instr)
      (aimed : instr.target? = some (.label name))
      (marked : code[place]? = some (.label name)) :
      Passes code slot index place
  | next {instr : Instr} (here : code[index]? = some instr)
      (spares : Spares code slot instr) (falls : instr.fallsThrough = true) :
      Passes code slot index (index + 1)

/-- The instruction at an index reads a slot, or control passes on from it to
an instruction that is not known. -/
inductive Reveals (code : List Instr) (slot : Slot) (index : Nat) : Prop
  | read {instr : Instr} (here : code[index]? = some instr)
      (reads : instr.access.reads slot = true)
  | table {chooser : Slot} {fanOut : UInt32}
      (here : code[index]? = some (.jumpPtr chooser fanOut))
  | distance {instr : Instr} {units : Int32} (here : code[index]? = some instr)
      (aimed : instr.target? = some (.offset units))
  | unmarked {instr : Instr} {name : Label} (here : code[index]? = some instr)
      (aimed : instr.target? = some (.label name))
      (missing : name ∉ labels code)

/-- A path from an index leads to where a slot is read, or may be read for all
that is known. -/
def MayBeRead (code : List Instr) (slot : Slot) (start : Nat) : Prop :=
  ∃ finish, ReflTransGen (Passes code slot) start finish ∧
    Reveals code slot finish

theorem not_mayBeRead_of_length_le {code : List Instr} {slot : Slot}
    {start : Nat} (outside : code.length ≤ start) :
    ¬ MayBeRead code slot start := by
  have nothing : code[start]? = none := List.getElem?_eq_none outside
  rintro ⟨finish, path, reveals⟩
  rcases path.cases_head with rfl | ⟨place, passes, -⟩
  · cases reveals <;> simp_all
  · cases passes <;> simp_all

/-- An instruction with a target writes no slot, keeps the temporaries and jumps
by no table. -/
theorem spared_of_target? {instr : Instr} {target : Target}
    (aimed : instr.target? = some target) (slot : Slot) :
    instr.access.writes slot = false ∧ instr.dropsTemporaries = false ∧
      ∀ chooser fanOut, instr ≠ .jumpPtr chooser fanOut := by
  cases instr with
  | jump | branch => exact ⟨rfl, rfl, by simp⟩
  | _ => cases aimed

theorem marker_unique {code : List Instr} (distinct : (labels code).Nodup)
    {name : Label} {first second : Nat}
    (marked : code[first]? = some (.label name))
    (again : code[second]? = some (.label name)) : first = second := by
  have found := labelIndex?_of_getElem? distinct marked
  rw [labelIndex?_of_getElem? distinct again] at found
  exact (Option.some.inj found).symm

theorem drop_eq_cons_iff {code rest : List Instr} {instr : Instr}
    {index : Nat} :
    code.drop index = instr :: rest ↔
      code[index]? = some instr ∧ code.drop (index + 1) = rest := by
  constructor
  · intro line
    rw [← List.head?_drop, ← List.tail_drop, line]
    exact ⟨rfl, rfl⟩
  · rintro ⟨here, rfl⟩
    obtain ⟨inside, rfl⟩ := List.getElem?_eq_some_iff.mp here
    exact List.drop_eq_getElem_cons inside

/-- A table has a place for each label of the code and for no other, and the
code at that place starts with the marker of the label. -/
structure Maps {α : Type} (code : List Instr) (table : List (Label × α))
    (codeAt? : α → Option (List Instr)) : Prop where
  found : ∀ {name : Label} {place : α},
    placeOf? table (.label name) = some place →
      ∃ index, code[index]? = some (.label name) ∧
        codeAt? place = some (code.drop index)
  unmarked : ∀ {name : Label}, placeOf? table (.label name) = none →
    name ∉ labels code

section Exactness

variable {α : Type} {code rest : List Instr} {slot : Slot}
  {table : List (Label × α)} {codeAt? : α → Option (List Instr)}
  {start index : Nat}

/-- A path leads to the code at a place. -/
def Arrives (code : List Instr) (slot : Slot)
    (codeAt? : α → Option (List Instr)) (start : Nat) (place : α) : Prop :=
  ∃ index, codeAt? place = some (code.drop index) ∧
    ReflTransGen (Passes code slot) start index

/-- A target without a place is one that is not known. -/
theorem Maps.reveals (maps : Maps code table codeAt?) {instr : Instr}
    {target : Target} (here : code[index]? = some instr)
    (aimed : instr.target? = some target)
    (nowhere : placeOf? table target = none) : Reveals code slot index := by
  cases target with
  | offset units => exact .distance here aimed
  | label name => exact .unmarked here aimed (maps.unmarked nowhere)

theorem Maps.exists_label (maps : Maps code table codeAt?) {target : Target}
    {place : α} (located : placeOf? table target = some place) :
    ∃ name index, target = .label name ∧
      code[index]? = some (.label name) ∧
      codeAt? place = some (code.drop index) := by
  cases target with
  | offset units => cases located
  | label name =>
      obtain ⟨index, marked, line⟩ := maps.found located
      exact ⟨name, index, rfl, marked, line⟩

/-- An instruction whose target has a place spares a slot that it does not
read. -/
theorem Maps.spares (maps : Maps code table codeAt?) {instr : Instr}
    {target : Target} {place : α} (unread : instr.access.reads slot = false)
    (aimed : instr.target? = some target)
    (located : placeOf? table target = some place) :
    Spares code slot instr := by
  obtain ⟨unwritten, kept, noTable⟩ := spared_of_target? aimed slot
  refine ⟨unread, unwritten, kept, noTable, ?_⟩
  intro other same
  obtain rfl := Option.some.inj (aimed.symm.trans same)
  obtain ⟨name, index, rfl, marked, -⟩ := maps.exists_label located
  exact ⟨name, mem_labels_iff.mpr (List.mem_of_getElem? marked), rfl⟩

theorem Maps.arrives (maps : Maps code table codeAt?) {instr : Instr}
    {target : Target} {place : α}
    (reached : ReflTransGen (Passes code slot) start index)
    (here : code[index]? = some instr)
    (unread : instr.access.reads slot = false)
    (aimed : instr.target? = some target)
    (located : placeOf? table target = some place) :
    Arrives code slot codeAt? start place := by
  have spares := maps.spares unread aimed located
  obtain ⟨name, other, rfl, marked, line⟩ := maps.exists_label located
  exact ⟨other, line, reached.tail (.jump here spares aimed marked)⟩

/-- A target on a quiet line has a place, and that place is closed. -/
theorem Quiet.exists_place {closed : α → Prop} {instr : Instr}
    {target : Target} (quiet : Quiet table slot closed (instr :: rest))
    (aimed : instr.target? = some target) :
    ∃ place, placeOf? table target = some place ∧ closed place := by
  cases quiet with
  | stop unread ends =>
      obtain ⟨unwritten, kept, -⟩ := spared_of_target? aimed slot
      simp [unwritten, kept] at ends
  | onward _ _ jumps _ => exact jumps target aimed

theorem Quiet.not_reveals (maps : Maps code table codeAt?)
    {closed : α → Prop} (quiet : Quiet table slot closed (code.drop index)) :
    ¬ Reveals code slot index := by
  intro reveals
  cases reveals with
  | read here reads =>
      rw [drop_eq_cons_iff.mpr ⟨here, rfl⟩] at quiet
      cases quiet <;> simp_all
  | table here =>
      rw [drop_eq_cons_iff.mpr ⟨here, rfl⟩] at quiet
      cases quiet with
      | stop _ ends => cases ends
      | onward _ noTable => exact noTable _ _ rfl
  | distance here aimed =>
      rw [drop_eq_cons_iff.mpr ⟨here, rfl⟩] at quiet
      obtain ⟨place, located, -⟩ := quiet.exists_place aimed
      cases located
  | unmarked here aimed missing =>
      rw [drop_eq_cons_iff.mpr ⟨here, rfl⟩] at quiet
      obtain ⟨place, located, -⟩ := quiet.exists_place aimed
      obtain ⟨other, marked, -⟩ := maps.found located
      exact missing (mem_labels_iff.mpr (List.mem_of_getElem? marked))

/-- Control passes from a quiet line to a quiet line, if all closed places
start quiet lines. -/
theorem Quiet.passes (distinct : (labels code).Nodup)
    (maps : Maps code table codeAt?) {closed : α → Prop}
    (certified : ∀ place, closed place → ∃ line, codeAt? place = some line ∧
      Quiet table slot closed line)
    {place : Nat} (quiet : Quiet table slot closed (code.drop index))
    (passes : Passes code slot index place) :
    Quiet table slot closed (code.drop place) := by
  cases passes with
  | jump here spares aimed marked =>
      rw [drop_eq_cons_iff.mpr ⟨here, rfl⟩] at quiet
      obtain ⟨destination, located, member⟩ := quiet.exists_place aimed
      obtain ⟨other, again, line⟩ := maps.found located
      obtain ⟨found, same, lineQuiet⟩ := certified destination member
      rw [line] at same
      obtain rfl := Option.some.inj same
      rwa [marker_unique distinct marked again]
  | next here spares falls =>
      rw [drop_eq_cons_iff.mpr ⟨here, rfl⟩] at quiet
      cases quiet with
      | stop _ ends => simp [spares.unwritten, spares.kept] at ends
      | onward _ _ _ onward => exact onward falls

variable [DecidableEq α]

theorem arrives_meet {frontier : Frontier α} {place : α}
    (waiting : ∀ other ∈ frontier.pending, Arrives code slot codeAt? start other)
    (arrives : Arrives code slot codeAt? start place) :
    ∀ other ∈ (frontier.meet place).pending,
      Arrives code slot codeAt? start other := by
  unfold Frontier.meet
  split
  · exact waiting
  · intro other member
    rcases List.mem_cons.mp member with rfl | before
    · exact arrives
    · exact waiting other before

/-- To follow a line that a path leads to ends at a read, or paths lead to all
that is still to be followed. -/
theorem follow_sound (maps : Maps code table codeAt?)
    {frontier : Frontier α} (line : code.drop index = rest)
    (reached : ReflTransGen (Passes code slot) start index)
    (waiting : ∀ place ∈ frontier.pending,
      Arrives code slot codeAt? start place) :
    (follow table slot rest frontier).elim (MayBeRead code slot start)
      fun result => ∀ place ∈ result.pending,
        Arrives code slot codeAt? start place := by
  fun_induction follow table slot rest frontier generalizing index with
  | case1 frontier => exact waiting
  | case2 instr rest frontier reads =>
      obtain ⟨here, -⟩ := drop_eq_cons_iff.mp line
      exact ⟨index, reached, .read here reads⟩
  | case3 instr rest frontier unread ends => exact waiting
  | case4 rest frontier target nowhere =>
      obtain ⟨here, -⟩ := drop_eq_cons_iff.mp line
      exact ⟨index, reached, maps.reveals here rfl nowhere⟩
  | case5 rest frontier target place located =>
      obtain ⟨here, -⟩ := drop_eq_cons_iff.mp line
      exact arrives_meet waiting (maps.arrives reached here rfl rfl located)
  | case6 rest frontier cond target nowhere =>
      obtain ⟨here, -⟩ := drop_eq_cons_iff.mp line
      exact ⟨index, reached, maps.reveals here rfl nowhere⟩
  | case7 rest frontier cond target place located unread goes ih =>
      obtain ⟨here, onward⟩ := drop_eq_cons_iff.mp line
      have spares : Spares code slot (.branch cond target) :=
        maps.spares rfl rfl located
      exact ih onward (reached.tail (.next here spares rfl))
        (arrives_meet waiting (maps.arrives reached here rfl rfl located))
  | case8 rest frontier chooser fanOut =>
      obtain ⟨here, -⟩ := drop_eq_cons_iff.mp line
      exact ⟨index, reached, .table here⟩
  | case9 instr rest frontier unread goes noJump noBranch noTable ih =>
      obtain ⟨here, onward⟩ := drop_eq_cons_iff.mp line
      simp only [Bool.or_eq_true, not_or, Bool.not_eq_true] at unread goes
      have unaimed : instr.target? = none := by
        cases instr with
        | jump target => exact (noJump target rfl).elim
        | branch cond target => exact (noBranch cond target rfl).elim
        | _ => rfl
      have falls : instr.fallsThrough = true := by
        cases instr with
        | jump target => exact (noJump target rfl).elim
        | jumpPtr chooser fanOut => exact (noTable chooser fanOut rfl).elim
        | ret count => exact goes.2.symm
        | _ => rfl
      have spares : Spares code slot instr :=
        ⟨unread, goes.1, goes.2, noTable, by simp [unaimed]⟩
      exact ih onward (reached.tail (.next here spares falls)) waiting

theorem follow_first_sound (maps : Maps code table codeAt?)
    {frontier : Frontier α} {place : α} {pending : List α}
    (order : frontier.pending = place :: pending)
    (located : codeAt? place = some rest)
    (waiting : ∀ other ∈ frontier.pending,
      Arrives code slot codeAt? start other) :
    (follow table slot rest { frontier with pending }).elim
      (MayBeRead code slot start)
      fun result => ∀ other ∈ result.pending,
        Arrives code slot codeAt? start other := by
  rw [order] at waiting
  obtain ⟨index, line, reached⟩ := waiting place List.mem_cons_self
  obtain rfl := Option.some.inj (located.symm.trans line)
  apply follow_sound maps rfl reached
  intro other later
  exact waiting other (List.mem_cons_of_mem _ later)

/-- A search for which paths lead to all pending destinations has an answer,
and it finds a read only if there is a path to one. -/
theorem search_sound (maps : Maps code table codeAt?)
    {frontier : Frontier α}
    (waiting : ∀ place ∈ frontier.pending,
      Arrives code slot codeAt? start place) :
    search table slot codeAt? frontier = .unread ∨
      search table slot codeAt? frontier = .read ∧
        MayBeRead code slot start := by
  fun_induction search table slot codeAt? frontier with
  | case1 frontier order => exact .inl rfl
  | case2 frontier place pending order lost =>
      obtain ⟨index, line, -⟩ := waiting place (by simp [order])
      rw [lost] at line
      cases line
  | case3 frontier place pending order line located read =>
      have sound := follow_first_sound maps order located waiting
      rw [read] at sound
      exact .inr ⟨rfl, sound⟩
  | case4 frontier place pending order line located result followed ih =>
      have sound := follow_first_sound maps order located waiting
      rw [followed] at sound
      exact ih sound

/-- No read is missed: if none is found from the code at an index, no path leads
to one. -/
theorem not_mayBeRead_of_answerFrom (distinct : (labels code).Nodup)
    (maps : Maps code table codeAt?) {met : List α}
    (started : ∀ place ∈ met, codeAt? place = some (code.drop start))
    (answered : answerFrom table slot codeAt? met (code.drop start) =
      .unread) :
    ¬ MayBeRead code slot start := by
  obtain ⟨closed, quiet, closes⟩ := certificate_of_answerFrom answered
  -- What was met before the search starts the line that the search starts at.
  have certified : ∀ place, closed place → ∃ line,
      codeAt? place = some line ∧ Quiet table slot closed line := by
    intro place member
    rcases closes place member with before | certificate
    · exact ⟨_, started place before, quiet⟩
    · exact certificate
  rintro ⟨finish, path, reveals⟩
  have quietThere : Quiet table slot closed (code.drop finish) := by
    clear reveals
    induction path with
    | refl => exact quiet
    | tail _ passes ih => exact ih.passes distinct maps certified passes
  exact quietThere.not_reveals maps reveals

theorem answerFrom_exact (distinct : (labels code).Nodup)
    (maps : Maps code table codeAt?) {met : List α}
    (started : ∀ place ∈ met, codeAt? place = some (code.drop start)) :
    answerFrom table slot codeAt? met (code.drop start) = .read ∧
        MayBeRead code slot start ∨
      answerFrom table slot codeAt? met (code.drop start) = .unread ∧
        ¬ MayBeRead code slot start := by
  have sound : answerFrom table slot codeAt? met (code.drop start) = .unread ∨
      answerFrom table slot codeAt? met (code.drop start) = .read ∧
        MayBeRead code slot start := by
    have nothingWaits : ∀ place ∈ (⟨[], met⟩ : Frontier α).pending,
        Arrives code slot codeAt? start place := by simp
    have followed := follow_sound maps rfl .refl nothingWaits
    unfold answerFrom
    split
    · rename_i read
      rw [read] at followed
      exact .inr ⟨rfl, followed⟩
    · rename_i frontier unread
      rw [unread] at followed
      exact search_sound maps followed
  rcases sound with unread | found
  · exact .inr ⟨unread,
      not_mayBeRead_of_answerFrom distinct maps started unread⟩
  · exact .inl found

end Exactness

section Tables

variable {α : Type} {table : List (Label × α)} {name : Label}

theorem mem_of_placeOf? {place : α}
    (located : placeOf? table (.label name) = some place) :
    (name, place) ∈ table := by
  obtain ⟨row, found, rfl⟩ := Option.map_eq_some_iff.mp located
  have same : row.1 = name := by simpa using List.find?_some found
  rw [← same]
  exact List.mem_of_find?_eq_some found

theorem not_mem_of_placeOf?
    (nowhere : placeOf? table (.label name) = none) (place : α) :
    (name, place) ∉ table := by
  have missing := List.find?_eq_none.mp (Option.map_eq_none_iff.mp nowhere)
  intro member
  exact missing _ member (by simp)

end Tables

theorem maps_labels {code : List Instr} (distinct : (labels code).Nodup) :
    Maps code ((labels code).map fun name => (name, name))
      (codeAtLabel? code) where
  found := by
    intro name place located
    obtain ⟨other, member, same⟩ := List.mem_map.mp (mem_of_placeOf? located)
    obtain ⟨rfl, rfl⟩ := Prod.mk.inj same
    obtain ⟨front, rest, rfl⟩ :=
      List.append_of_mem (mem_labels_iff.mp member)
    refine ⟨front.length, by simp, ?_⟩
    rw [codeAtLabel?_eq_map, codeBehind?_append_label distinct,
      List.drop_left]
    rfl
  unmarked := by
    intro name nowhere member
    exact not_mem_of_placeOf? nowhere name (List.mem_map_of_mem member)

/-- The question that the window rules ask is answered exactly. -/
theorem unreadFrom_drop_iff {code : List Instr}
    (distinct : (labels code).Nodup) (slot : Slot) (start : Nat) :
    unreadFrom code slot (code.drop start) = true ↔
      ¬ MayBeRead code slot start := by
  have nothingMet : ∀ place ∈ ([] : List Label),
      codeAtLabel? code place = some (code.drop start) := by simp
  unfold unreadFrom
  rcases @answerFrom_exact _ _ slot _ _ _ _ distinct (maps_labels distinct)
    _ nothingMet with ⟨found, read⟩ | ⟨found, unread⟩
  · simp [found, Answer.isUnread, read]
  · simp [found, Answer.isUnread, unread]

end Liveness

namespace Routine

open Flow Liveness

section Queries

variable {routine : Routine}

theorem mem_labelHandles_iff {name : Label} {handle : Handle} :
    (name, handle) ∈ routine.labelHandles ↔
      ∃ entry ∈ routine.entries, entry.instr = .label name ∧
        entry.handle = handle := by
  simp only [labelHandles, List.mem_reverse, List.mem_filterMap,
    Option.map_eq_some_iff, Instr.marks?_eq_some_iff, Prod.mk.injEq]
  constructor
  · rintro ⟨entry, member, other, marked, rfl, named⟩
    exact ⟨entry, member, marked, named⟩
  · rintro ⟨entry, member, marked, named⟩
    exact ⟨entry, member, name, marked, rfl, named⟩

/-- A routine with distinct handles is split at an index by the handle
there. -/
theorem locate_getElem? (distinct : routine.handles.Nodup) {index : Nat}
    {entry : Entry} (here : routine.entries[index]? = some entry) :
    routine.locate entry.handle =
      .ok (routine.entries.take index, entry,
        routine.entries.drop (index + 1)) := by
  obtain ⟨inside, rfl⟩ := List.getElem?_eq_some_iff.mp here
  have whole : routine.entries = routine.entries.take index ++
      routine.entries[index] :: routine.entries.drop (index + 1) := by
    rw [List.getElem_cons_drop, List.take_append_drop]
  rw [handles, whole] at distinct
  have split := splitAt?_middle distinct
  rw [← whole] at split
  exact locate_eq_ok_iff.mpr split

theorem codeFrom?_getElem? (distinct : routine.handles.Nodup) {index : Nat}
    {entry : Entry} (here : routine.entries[index]? = some entry) :
    routine.codeFrom? entry.handle = some (routine.instrs.drop index) := by
  have split := locate_eq_ok_iff.mp (locate_getElem? distinct here)
  obtain ⟨inside, rfl⟩ := List.getElem?_eq_some_iff.mp here
  rw [codeFrom?, split, instrs, ← List.map_drop,
    List.drop_eq_getElem_cons inside]
  rfl

theorem maps_labelHandles (distinct : routine.handles.Nodup) :
    Maps routine.instrs routine.labelHandles routine.codeFrom? where
  found := by
    intro name handle located
    obtain ⟨entry, member, marked, rfl⟩ :=
      mem_labelHandles_iff.mp (mem_of_placeOf? located)
    obtain ⟨index, here⟩ := List.mem_iff_getElem?.mp member
    refine ⟨index, ?_, codeFrom?_getElem? distinct here⟩
    rw [instrs, List.getElem?_map, here, Option.map_some, marked]
  unmarked := by
    intro name nowhere member
    obtain ⟨entry, inside, marked⟩ :=
      List.mem_map.mp (mem_labels_iff.mp member)
    exact not_mem_of_placeOf? nowhere entry.handle
      (mem_labelHandles_iff.mpr ⟨entry, inside, marked, rfl⟩)

theorem slotReadAfter_exact (distinctLabels : (labels routine.instrs).Nodup)
    (distinctHandles : routine.handles.Nodup) {index : Nat} {entry : Entry}
    (here : routine.entries[index]? = some entry) (slot : Slot) :
    routine.slotReadAfter routine.labelHandles entry.handle slot = .ok true ∧
        MayBeRead routine.instrs slot (index + 1) ∨
      routine.slotReadAfter routine.labelHandles entry.handle slot =
          .ok false ∧
        ¬ MayBeRead routine.instrs slot (index + 1) := by
  have located := locate_getElem? distinctHandles here
  cases behind : routine.entries.drop (index + 1) with
  | nil =>
      rw [behind] at located
      have last : routine.instrs.length ≤ index + 1 := by
        rw [instrs, List.length_map]
        exact List.drop_eq_nil_iff.mp behind
      refine .inr ⟨?_, not_mayBeRead_of_length_le last⟩
      rw [slotReadAfter, located]
      rfl
  | cons start rest =>
      rw [behind] at located
      have next : routine.entries[index + 1]? = some start := by
        rw [← List.head?_drop, behind]
        rfl
      have line : routine.instrs.drop (index + 1) =
          (start :: rest).map (·.instr) := by
        rw [instrs, ← List.map_drop, behind]
      have started : ∀ handle ∈ [start.handle], routine.codeFrom? handle =
          some (routine.instrs.drop (index + 1)) := by
        intro handle member
        obtain rfl := List.mem_singleton.mp member
        exact codeFrom?_getElem? distinctHandles next
      have answer := @answerFrom_exact _ _ slot _ _ _ _ distinctLabels
        (maps_labelHandles distinctHandles) _ started
      rw [line] at answer
      rcases answer with ⟨found, read⟩ | ⟨found, unread⟩
      · refine .inl ⟨?_, read⟩
        simp only [slotReadAfter, located, bind, Except.bind, found]
        rfl
      · refine .inr ⟨?_, unread⟩
        simp only [slotReadAfter, located, bind, Except.bind, found]
        rfl

/-- The window rules, which ask without handles, get the same answer. -/
theorem slotReadAfter_eq (distinctLabels : (labels routine.instrs).Nodup)
    (distinctHandles : routine.handles.Nodup) {index : Nat} {entry : Entry}
    (here : routine.entries[index]? = some entry) (slot : Slot) :
    routine.slotReadAfter routine.labelHandles entry.handle slot =
      .ok (!unreadFrom routine.instrs slot
        (routine.instrs.drop (index + 1))) := by
  have unread := unreadFrom_drop_iff distinctLabels slot (index + 1)
  rcases slotReadAfter_exact distinctLabels distinctHandles here slot with
    ⟨answered, path⟩ | ⟨answered, noPath⟩
  · rw [answered, Bool.eq_false_iff.mpr fun quiet => unread.mp quiet path]
    rfl
  · rw [answered, unread.mpr noPath]
    rfl

/-- The search for reads is exact.  In a routine with distinct labels, ask
behind any instruction, by the routine's own table of labels,
whether a slot is read.  There is an answer.  It is yes exactly if some path
from the next instruction leads to a read of the slot, or to where control
passes on to an instruction that is not known.  The window rules, which ask
without handles, get the same answer. -/
theorem slotReadAfter_finds_paths (routine : NamedRoutine)
    (distinctLabels : (labels routine.instrs).Nodup)
    {index : Nat} {entry : Entry}
    (here : routine.entries[index]? = some entry) (slot : Slot) :
    ∃ answer,
      routine.slotReadAfter routine.labelHandles entry.handle slot =
          .ok answer ∧
        (answer = true ↔ MayBeRead routine.instrs slot (index + 1)) ∧
        unreadFrom routine.instrs slot (routine.instrs.drop (index + 1)) =
          !answer := by
  have unread := unreadFrom_drop_iff distinctLabels slot (index + 1)
  refine ⟨_, slotReadAfter_eq distinctLabels routine.nodup_handles here slot,
    ?_, (Bool.not_not _).symm⟩
  rw [Bool.not_eq_true', ← Bool.not_eq_true, unread, not_not]

/-- A loop that reads one slot on its next turn, and overwrites another one
before any read. -/
def looping : NamedRoutine where
  toRoutine := ofList [.label ⟨0⟩, .pushVar 1, .setVar4 1 5, .setVar4 2 7,
    .branch .zero (.label ⟨0⟩), .ret 0]
  nodup_handles := by decide

theorem slotReadAfter_finds_paths_looping :
    (labels looping.instrs).Nodup ∧
      looping.slotReadAfter looping.labelHandles ⟨2, 0⟩ 1 = .ok true ∧
      MayBeRead looping.instrs 1 3 ∧
      looping.slotReadAfter looping.labelHandles ⟨3, 0⟩ 2 = .ok false ∧
      ¬ MayBeRead looping.instrs 2 4 := by
  have distinctLabels : (labels looping.instrs).Nodup := by decide
  have read : looping.slotReadAfter looping.labelHandles ⟨2, 0⟩ 1 =
      .ok true := by cbv
  have unread : looping.slotReadAfter looping.labelHandles ⟨3, 0⟩ 2 =
      .ok false := by cbv
  have first : looping.entries[2]? = some ⟨⟨2, 0⟩, .setVar4 1 5, none⟩ := rfl
  have second : looping.entries[3]? = some ⟨⟨3, 0⟩, .setVar4 2 7, none⟩ := rfl
  obtain ⟨_, answered, path, -⟩ :=
    slotReadAfter_finds_paths looping distinctLabels first 1
  obtain rfl := Except.ok.inj (read.symm.trans answered)
  obtain ⟨_, denied, noPath, -⟩ :=
    slotReadAfter_finds_paths looping distinctLabels second 2
  obtain rfl := Except.ok.inj (unread.symm.trans denied)
  exact ⟨distinctLabels, read, path.mp rfl, unread,
    fun reached => Bool.noConfusion (noPath.mpr reached)⟩

end Queries

end Routine

end StackAssembler
