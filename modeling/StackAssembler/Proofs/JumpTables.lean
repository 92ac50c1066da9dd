import StackAssembler.Proofs.SettledCode
import Mathlib.Tactic.ByContra

/-!
# Jump tables

A jump table enters the instructions behind it by their number, so it depends on
every one of them staying in its place.  The depth analysis keeps all of them.
The steps after it do not know of tables: rewrites and the removal of entry
points and lines take instructions out of a table as out of any other code.

A table stays as it is if none of these steps applies to its entries.  Without
tightening that is so if no entry is an unwanted entry point or a line that
vanishes.  With tightening it is so if no entry is of a kind that a rule of the
window starts with, which holds for jumps, branches, calls and returns, and no
jump in the table names the label behind it.
-/

namespace StackAssembler

open Flow Layout StackDepth Relation

namespace Instr

/-- Instructions that a window of the rules can start with, jumps apart. -/
def startsWindow : Instr → Bool
  | pop _ | push _ | pushConst _ | pushConst8 _ | pushVar _ | pushFrameAddr _
  | pushVarRef _ | pushRegPtr | readStack4 | readStack8 | line .. | suspend
  | jitEntry _ | loadGlobal _ | loadVar _ | test _ => true
  | instr => instr.access.write?.isSome

theorem startsWindow_of_write? {instr : Instr} {slot : Slot}
    (writes : instr.access.write? = some slot) :
    instr.startsWindow = true := by
  cases instr <;> first | rfl | cases writes

end Instr

namespace Window

/-- Code that a rewrite can begin at. -/
inductive Changeable : List Instr → Prop
  | starts {instr : Instr} {rest : List Instr}
      (starts : instr.startsWindow = true) : Changeable (instr :: rest)
  | jumpNext {name : Label} {rest : List Instr} :
      Changeable (.jump (.label name) :: .label name :: rest)

section Rules

variable {scope : Scope} {window : List Instr} {patch : Patch}

theorem changeable_of_rule (rule : Rule scope window patch) :
    Changeable window := by
  cases rule with
  | unusedWrite writes => exact .starts (Instr.startsWindow_of_write? writes)
  | discardUnit pushes => cases pushes <;> exact .starts rfl
  | jumpNext => exact .jumpNext
  | _ => exact .starts rfl

/-- The places that a patch of a rule touches hold no jump table. -/
theorem exists_touched (rule : Rule scope window patch) :
    ∃ touched rest, window = touched ++ rest ∧
      patch.length = touched.length ∧
      ∀ slot fanOut, .jumpPtr slot fanOut ∉ touched := by
  cases rule with
  | unusedWrite writes =>
      refine ⟨[_], _, rfl, rfl, fun slot fanOut member => ?_⟩
      obtain rfl := List.mem_singleton.mp member
      cases writes
  | unusedGlobalRead | jitEntry | popNone | pushNone =>
      exact ⟨[_], _, rfl, rfl, by simp⟩
  | checkRead | checkFrame | checkVar =>
      exact ⟨[_, _, _], _, rfl, rfl, by simp⟩
  | discardUnit pushes =>
      refine ⟨[_, _], _, rfl, rfl, ?_⟩
      cases pushes <;> simp
  | _ => exact ⟨[_, _], _, rfl, rfl, by simp⟩

theorem length_le_of_rule (rule : Rule scope window patch)
    {ahead behind : List Instr} {slot : Slot} {fanOut : UInt32}
    (split : window = ahead ++ .jumpPtr slot fanOut :: behind) :
    patch.length ≤ ahead.length := by
  obtain ⟨touched, rest, rfl, size, noTable⟩ := exists_touched rule
  rcases List.append_eq_append_iff.mp split with
    ⟨between, rfl, -⟩ | ⟨between, rfl, later⟩
  · simp [size]
  · cases between with
    | nil => simp [size]
    | cons first between =>
        obtain ⟨rfl, -⟩ := List.cons.inj later
        exact absurd (by simp) (noTable slot fanOut)

theorem fill_append {entries : List Entry} (behind : List Entry)
    (covers : patch.length ≤ entries.length) :
    patch.fill (entries ++ behind) = patch.fill entries ++ behind := by
  induction patch generalizing entries with
  | nil => rfl
  | cons place patch ih =>
      cases entries with
      | nil => simp at covers
      | cons entry entries =>
          have later := @ih entries (by simpa using covers)
          cases place <;> simp [Patch.fill, later]

end Rules

/-- A rewrite begins at changeable code, and what stands behind a jump table
stays as it is when the rewrite begins before the table. -/
theorem Rewrite.exists_change {temporaries : SlotSet} {keepJitEntries : Bool}
    {before after : List Entry}
    (rewrite : Rewrite temporaries keepJitEntries before after) :
    ∃ front old new, before = front ++ old ∧ after = front ++ new ∧
      Changeable (old.map (·.instr)) ∧
      ∀ {ahead behind : List Entry} {pointer : Entry} {slot : Slot}
        {fanOut : UInt32}, old = ahead ++ pointer :: behind →
          pointer.instr = .jumpPtr slot fanOut →
            ∃ ahead', new = ahead' ++ pointer :: behind := by
  cases rewrite with
  | @patch front window patch rule =>
      refine ⟨front, window, _, rfl, rfl, changeable_of_rule rule, ?_⟩
      intro ahead behind pointer slot fanOut split isTable
      have covers := length_le_of_rule rule (by
        rw [split, List.map_append, List.map_cons, isTable])
      rw [List.length_map] at covers
      exact ⟨patch.fill ahead, by rw [split, fill_append _ covers]⟩
  | @postpone front skipped rest entry reader slot value constant _ passed =>
      have starts : entry.instr.startsWindow = true := by
        rw [constant]
        rfl
      refine ⟨front, _, _, rfl, rfl, .starts starts, ?_⟩
      intro ahead behind pointer _ _ split isTable
      cases ahead with
      | nil =>
          obtain ⟨rfl, -⟩ := List.cons.inj split
          cases constant.symm.trans isTable
      | cons first ahead =>
          obtain ⟨rfl, later⟩ := List.cons.inj split
          rcases List.append_eq_append_iff.mp later with
            ⟨between, rfl, onward⟩ | ⟨between, rfl, onward⟩
          · exact ⟨skipped ++ entry :: between, by simp [onward]⟩
          · cases between with
            | nil =>
                exact ⟨ahead ++ [entry], by simpa using onward.symm⟩
            | cons crossed between =>
                -- No write is moved across a jump table.
                obtain ⟨rfl, -⟩ := List.cons.inj onward
                have unbarred := (passed pointer (by simp)).unbarred
                simp [isTable, Instr.isBarrier, Instr.isJump] at unbarred
  | @exchange front rest first second swap firstPush secondPush swaps =>
      have starts : first.instr.startsWindow = true := by
        generalize first.instr = instr at firstPush
        cases instr <;> first | rfl | cases firstPush
      refine ⟨front, _, _, rfl, rfl, .starts starts, ?_⟩
      rintro (_ | ⟨one, _ | ⟨two, _ | ⟨three, ahead⟩⟩⟩) behind pointer slot
        fanOut split isTable
      · obtain ⟨rfl, -⟩ := List.cons.inj split
        simp [isTable, isPlainPush] at firstPush
      · obtain ⟨-, later⟩ := List.cons.inj split
        obtain ⟨rfl, -⟩ := List.cons.inj later
        simp [isTable, isPlainPush] at secondPush
      · obtain ⟨-, later⟩ := List.cons.inj split
        obtain ⟨-, later⟩ := List.cons.inj later
        obtain ⟨rfl, -⟩ := List.cons.inj later
        cases swaps.symm.trans isTable
      · simp only [List.cons_append, List.cons.injEq] at split
        obtain ⟨-, -, -, rfl⟩ := split
        exact ⟨second :: first :: ahead, rfl⟩

/-- Entries, followed by others, at none of which a rewrite can begin. -/
structure Firm (block rest : List Entry) : Prop where
  inert : ∀ entry ∈ block, entry.instr.startsWindow = false
  apart : ∀ {index : Nat} {name : Label},
    (block.map (·.instr))[index]? = some (.jump (.label name)) →
      (block.map (·.instr))[index + 1]? ≠ some (.label name)
  closed : rest = [] ∨ ∀ name,
    (block.map (·.instr)).getLast? ≠ some (.jump (.label name))

section Tables

variable {temporaries : SlotSet} {keepJitEntries : Bool}
  {block rest : List Entry} {pointer : Entry} {slot : Slot}
  {fanOut : UInt32} (isTable : pointer.instr = .jumpPtr slot fanOut)

theorem Firm.not_changeable (firm : Firm block rest)
    {front behind : List Entry} {entry : Entry}
    (split : block = front ++ entry :: behind) :
    ¬Changeable ((entry :: behind ++ rest).map (·.instr)) := by
  intro changeable
  generalize shape : (entry :: behind ++ rest).map (·.instr) = code
    at changeable
  cases changeable with
  | starts starts =>
      obtain ⟨rfl, -⟩ := List.cons.inj shape
      simp [firm.inert entry (by simp [split])] at starts
  | @jumpNext name later =>
      have jumps : entry.instr = .jump (.label name) :=
        (List.cons.inj shape).1
      have next := (List.cons.inj shape).2
      cases behind with
      | nil =>
          rcases firm.closed with rfl | notLast
          · cases next
          · exact notLast name (by simp [split, jumps])
      | cons marker behind =>
          have marks : marker.instr = .label name := (List.cons.inj next).1
          refine @Firm.apart _ _ firm front.length name ?_ ?_
          · simp [split, jumps]
          · simp [split, marks]

theorem Firm.of_rest (firm : Firm block rest) {rest' : List Entry}
    (ends : rest = [] → rest' = []) : Firm block rest' where
  inert := firm.inert
  apart := firm.apart
  closed := firm.closed.imp_left ends

include isTable

/-- A rewrite leaves a firm block behind a jump table as it is. -/
theorem Firm.rewritten (firm : Firm block rest) {front after : List Entry}
    (rewrite : Rewrite temporaries keepJitEntries
      (front ++ pointer :: (block ++ rest)) after) :
    ∃ front' rest', after = front' ++ pointer :: (block ++ rest') ∧
      (rest = [] → rest' = []) := by
  obtain ⟨ahead, old, new, split, rfl, changeable, across⟩ :=
    rewrite.exists_change
  rcases List.append_eq_append_iff.mp split with
    ⟨between, rfl, later⟩ | ⟨between, rfl, later⟩
  · cases between with
    | nil =>
        obtain ⟨ahead', rfl⟩ := @across [] _ _ _ _ later.symm isTable
        exact ⟨front ++ ahead', rest, by simp, id⟩
    | cons head between =>
        obtain ⟨rfl, onward⟩ := List.cons.inj later
        rcases List.append_eq_append_iff.mp onward with
          ⟨inner, rfl, rfl⟩ | ⟨inner, rfl, rfl⟩
        · refine ⟨front, inner ++ new, by simp, fun nothing => ?_⟩
          obtain ⟨-, rfl⟩ := List.append_eq_nil_iff.mp nothing
          cases changeable
        · cases inner with
          | nil =>
              refine ⟨front, new, by simp, ?_⟩
              rintro rfl
              cases changeable
          | cons entry inner =>
              exact absurd changeable (firm.not_changeable rfl)
  · obtain ⟨ahead', rfl⟩ := across later isTable
    exact ⟨ahead ++ ahead', rest, by simp, id⟩

theorem Firm.tightened (firm : Firm block rest) {front after : List Entry}
    (rewrites : ReflTransGen (Rewrite temporaries keepJitEntries)
      (front ++ pointer :: (block ++ rest)) after) :
    ∃ front' rest', after = front' ++ pointer :: (block ++ rest') := by
  suffices kept : ∃ front' rest',
      after = front' ++ pointer :: (block ++ rest') ∧ Firm block rest' by
    obtain ⟨front', rest', same, -⟩ := kept
    exact ⟨front', rest', same⟩
  induction rewrites with
  | refl => exact ⟨front, rest, rfl, firm⟩
  | tail _ rewrite ih =>
      obtain ⟨front', rest', rfl, firm'⟩ := ih
      obtain ⟨front'', rest'', same, ends⟩ := firm'.rewritten isTable rewrite
      exact ⟨front'', rest'', same, firm'.of_rest ends⟩

end Tables

end Window

open Window

/-- A finished walk that has been to a jump table has been to all of its
entries. -/
theorem StackDepth.Closed.recorded_of_table {code : List Instr} {walk : Walk}
    (closed : Closed code walk) (finished : walk.pending = [])
    (distinct : (labels code).Nodup) {front tail : List Entry}
    {pointer : Entry} {depth : Int} {slot : Slot} {fanOut : UInt32}
    (whole : walk.entries = front ++ pointer :: tail)
    (known : pointer.depth = some depth)
    (isTable : pointer.instr = .jumpPtr slot fanOut) :
    fanOut.toNat ≤ tail.length ∧
      ∀ entry ∈ tail.take fanOut.toNat, entry.depth.isSome = true := by
  have found : walk.entries[front.length]? = some pointer := by simp [whole]
  obtain ⟨instr, here, done⟩ := closed.tracks.anchored found known
  obtain rfl : instr = .jumpPtr slot fanOut := by
    rcases eq_or_frameAddr_of_anchor done with same | ⟨_, _, -, other⟩
    · exact same.symm.trans isTable
    · cases other.symm.trans isTable
  obtain ⟨-, places, successorsFound, -⟩ := closed.onward found known
  rw [isTable] at successorsFound
  have fits := ((exists_successors_iff distinct).mp
    ⟨places, successorsFound⟩).2 slot fanOut rfl
  have size := closed.tracks.length_eq
  rw [whole, List.length_append, List.length_cons] at size
  refine ⟨by omega, fun entry member => ?_⟩
  obtain ⟨index, inTable⟩ := List.getElem?_of_mem member
  obtain ⟨inside, -⟩ := List.getElem?_eq_some_iff.mp inTable
  rw [List.length_take] at inside
  rw [List.getElem?_take_of_lt (by omega)] at inTable
  have edge : Edge code front.length (front.length + 1 + index) :=
    .table here (by omega) (by omega) (by omega)
  obtain ⟨next, nextFound, nextKnown⟩ :=
    closed.recorded_of_edge finished distinct found known edge
  obtain rfl : entry = next := by
    rw [whole, List.getElem?_append_right (by omega)] at nextFound
    have offset : front.length + 1 + index - front.length = index + 1 := by
      omega
    rw [offset, List.getElem?_cons_succ, inTable] at nextFound
    exact Option.some.inj nextFound
  simp [nextKnown]

/-- The entries that the analysis leaves behind a jump table include all that
the table enters. -/
theorem fanOut_le_of_measureDepths {routine measured : Routine}
    {analysis : Analysis}
    (accepted : routine.measureDepths = (.ok analysis, measured))
    {front behind : List Entry} {pointer : Entry} {slot : Slot}
    {fanOut : UInt32} (split : measured.entries = front ++ pointer :: behind)
    (isTable : pointer.instr = .jumpPtr slot fanOut) :
    fanOut.toNat ≤ behind.length := by
  obtain ⟨distinct, final, ended, -, rfl⟩ := finished_of_measureDepthsBy accepted
  obtain ⟨closed, finished⟩ := closed_of_finished ended
  obtain ⟨before, after, whole, -, afterKept⟩ :=
    List.filter_eq_append_iff.mp split
  obtain ⟨skipped, tail, rfl, -, isKnown, tailKept⟩ :=
    List.filter_eq_cons_iff.mp afterKept
  rw [← List.append_assoc] at whole
  obtain ⟨depth, known⟩ := Option.isSome_iff_exists.mp isKnown
  obtain ⟨fits, recorded⟩ :=
    closed.recorded_of_table finished distinct whole known isTable
  calc fanOut.toNat = (tail.take fanOut.toNat).length := by
        rw [List.length_take, Nat.min_eq_left fits]
    _ = ((tail.take fanOut.toNat).filter (·.depth.isSome)).length := by
        rw [List.filter_eq_self.mpr recorded]
    _ ≤ (tail.filter (·.depth.isSome)).length :=
        ((List.take_sublist _ _).filter _).length_le
    _ = behind.length := by rw [tailKept]

/-- An instruction is neither an unwanted entry point nor a line that
vanishes. -/
def stays (options : Options) (instr : Instr) : Bool :=
  (options.jitEntries || !instr.isJitEntry) && !vanishes instr

/-- No step behind the analysis applies to the entries of a table, where `rest`
follows the table. -/
inductive Guarded (options : Options) (table rest : List Instr) : Prop
  | untightened (off : options.optimize = false)
      (kept : ∀ instr ∈ table, stays options instr = true)
  | inert (inert : ∀ instr ∈ table, instr.startsWindow = false)
      (apart : ∀ {index : Nat} {name : Label},
        table[index]? = some (.jump (.label name)) →
          (table ++ rest)[index + 1]? ≠ some (.label name))
      (last : ∀ {name : Label} {next : Instr},
        table.getLast? = some (.jump (.label name)) →
          rest.head? = some next → ∃ other, next = .label other)

section Guards

variable {options : Options} {table rest : List Entry}

theorem stays_of_inert {instr : Instr} (inert : instr.startsWindow = false) :
    stays options instr = true := by
  have plain : instr.isJitEntry = false ∧ vanishes instr = false := by
    cases instr <;> first | exact ⟨rfl, rfl⟩ | cases inert
  simp [stays, plain]

/-- A label behind a table closes it, also if it ends with a jump. -/
theorem firm_append_label {marker : Entry} {other : Label}
    (inert : ∀ entry ∈ table, entry.instr.startsWindow = false)
    (apart : ∀ {index : Nat} {name : Label},
      (table.map (·.instr))[index]? = some (.jump (.label name)) →
        ((table ++ [marker]).map (·.instr))[index + 1]? ≠
          some (.label name))
    (marks : marker.instr = .label other) :
    Firm (table ++ [marker]) rest where
  inert entry member := by
    rcases List.mem_append.mp member with inTable | isMarker
    · exact inert entry inTable
    · obtain rfl := List.mem_singleton.mp isMarker
      rw [marks]
      rfl
  apart := by
    intro index aimed here
    rw [List.map_append] at here
    have inTable : index < (table.map (·.instr)).length := by
      by_contra outside
      rw [List.getElem?_append_right (by omega)] at here
      have marker_eq := List.mem_singleton.mp (List.mem_of_getElem? here)
      cases marker_eq.trans marks
    rw [List.getElem?_append_left inTable] at here
    exact apart here
  closed := .inr fun aimed => by simp [marks]

/-- A table at which no rewrite can begin is a firm block, together with the
label behind it if it ends with a jump. -/
theorem exists_firm
    (inert : ∀ instr ∈ table.map (·.instr), instr.startsWindow = false)
    (apart : ∀ {index : Nat} {name : Label},
      (table.map (·.instr))[index]? = some (.jump (.label name)) →
        (table.map (·.instr) ++ rest.map (·.instr))[index + 1]? ≠
          some (.label name))
    (last : ∀ {name : Label} {next : Instr},
      (table.map (·.instr)).getLast? = some (.jump (.label name)) →
        (rest.map (·.instr)).head? = some next →
          ∃ other, next = .label other) :
    ∃ extra rest', rest = extra ++ rest' ∧ Firm (table ++ extra) rest' := by
  have inertEntry : ∀ entry ∈ table, entry.instr.startsWindow = false :=
    fun entry member => inert _ (List.mem_map_of_mem member)
  have apartInside {index : Nat} {name : Label}
      (here : (table.map (·.instr))[index]? = some (.jump (.label name))) :
      (table.map (·.instr))[index + 1]? ≠ some (.label name) := fun next =>
    apart here (List.getElem?_append_left
      (List.getElem?_eq_some_iff.mp next).1 ▸ next)
  by_cases jumps : ∃ name,
      (table.map (·.instr)).getLast? = some (.jump (.label name))
  · obtain ⟨name, ends⟩ := jumps
    cases rest with
    | nil =>
        refine ⟨[], [], rfl, ?_⟩
        rw [List.append_nil]
        exact ⟨inertEntry, apartInside, .inl rfl⟩
    | cons marker rest =>
        obtain ⟨other, marks⟩ : ∃ other, marker.instr = .label other :=
          last ends rfl
        refine ⟨[marker], rest, rfl, firm_append_label inertEntry ?_ marks⟩
        intro index aimed here next
        rw [List.map_append] at next
        refine apart here ?_
        rw [List.map_cons, List.append_cons]
        exact (List.getElem?_append_left
          (List.getElem?_eq_some_iff.mp next).1).trans next
  · refine ⟨[], rest, rfl, ?_⟩
    rw [List.append_nil]
    exact ⟨inertEntry, apartInside, .inr fun name same => jumps ⟨name, same⟩⟩

theorem Guarded.exists_table {temporaries : SlotSet} {tightened : List Entry}
    {front : List Entry} {pointer : Entry} {slot : Slot} {fanOut : UInt32}
    (guarded : Guarded options (table.map (·.instr)) (rest.map (·.instr)))
    (isTable : pointer.instr = .jumpPtr slot fanOut)
    (rewrites : ReflTransGen (Rewrite temporaries options.jitEntries)
      (front ++ pointer :: (table ++ rest)) tightened)
    (unchanged : options.optimize = false →
      tightened = front ++ pointer :: (table ++ rest)) :
    (∃ front' rest', tightened = front' ++ pointer :: (table ++ rest')) ∧
      ∀ entry ∈ table, stays options entry.instr = true := by
  cases guarded with
  | untightened off kept =>
      exact ⟨⟨front, rest, unchanged off⟩, fun entry member =>
        kept _ (List.mem_map_of_mem member)⟩
  | inert inert apart last =>
      refine ⟨?_, fun entry member =>
        stays_of_inert (inert _ (List.mem_map_of_mem member))⟩
      obtain ⟨extra, rest', rfl, firm⟩ := exists_firm inert apart last
      rw [← List.append_assoc] at rewrites
      obtain ⟨front', rest'', rfl⟩ := firm.tightened isTable rewrites
      exact ⟨front', extra ++ rest'', by simp⟩

end Guards

/-- The steps after the tightening keep the entries that stay, in order. -/
theorem Stages.handles_of_tightened {routine left measured reduced : Routine}
    {options : Options} {artifact : Artifact} {analysis : Analysis}
    (stages : Stages routine options artifact left analysis measured reduced)
    {tightened : List Entry}
    (dropped : reduced.entries = tightened.filter fun entry =>
      options.jitEntries || !entry.instr.isJitEntry) :
    left.handles = (tightened.filter fun entry =>
        stays options entry.instr).map (·.handle) ∧
      collected reduced.instrs = (tightened.filter fun entry =>
        stays options entry.instr).map (settleLine ·.instr) := by
  have both : (tightened.filter fun entry => stays options entry.instr) =
      reduced.entries.filter fun entry => !vanishes entry.instr := by
    rw [dropped, List.filter_filter]
    exact List.filter_congr fun entry _ => Bool.and_comm _ _
  rw [both]
  refine ⟨stages.handles_eq, ?_⟩
  simp [collected, Routine.instrs, List.filter_map, Function.comp_def]

/-- A routine that the depth analysis accepts is assembled, and each jump table
that the analysis leaves has all of its entries behind it.  If the table is
guarded, the same entries follow it in the same order in what the assembly
leaves. -/
theorem assemble_keeps_guarded_table {routine measured : Routine}
    {options : Options} {analysis : Analysis} {front behind : List Entry}
    {pointer : Entry} {slot : Slot} {fanOut : UInt32}
    (accepted : (routine.setCues options.lineCues).measureDepths =
      (.ok analysis, measured))
    (split : measured.entries = front ++ pointer :: behind)
    (isTable : pointer.instr = .jumpPtr slot fanOut)
    (guarded : Guarded options
      ((behind.take fanOut.toNat).map (·.instr))
      ((behind.drop fanOut.toNat).map (·.instr))) :
    fanOut.toNat ≤ behind.length ∧
      ∃ artifact left front' rest',
        routine.assemble options = (.ok artifact, left) ∧
        left.handles = front' ++ pointer.handle ::
          ((behind.take fanOut.toNat).map (·.handle) ++ rest') ∧
        left.instrs[front'.length]? = some (.jumpPtr slot fanOut) := by
  refine ⟨fanOut_le_of_measureDepths accepted split isTable, ?_⟩
  obtain ⟨artifact, left, reduced, assembled, stages⟩ :=
    stages_of_accepted accepted
  obtain ⟨tightened, rewrites, unchanged, dropped⟩ := stages.exists_tightened
  obtain ⟨handles, code⟩ := stages.handles_of_tightened dropped
  have whole : measured.entries = front ++ pointer ::
      (behind.take fanOut.toNat ++ behind.drop fanOut.toNat) := by
    rw [List.take_append_drop, split]
  rw [whole] at rewrites unchanged
  obtain ⟨⟨ahead, rest, rfl⟩, kept⟩ :=
    guarded.exists_table isTable rewrites unchanged
  have pointerStays : stays options pointer.instr = true := by
    rw [isTable]
    exact stays_of_inert rfl
  have settled : (ahead ++ pointer :: (behind.take fanOut.toNat ++
      rest)).filter (fun entry => stays options entry.instr) =
        ahead.filter (fun entry => stays options entry.instr) ++ pointer ::
          (behind.take fanOut.toNat ++
            rest.filter (fun entry => stays options entry.instr)) := by
    rw [List.filter_append, List.filter_cons, if_pos pointerStays,
      List.filter_append, List.filter_eq_self.mpr kept]
  rw [settled] at handles code
  refine ⟨artifact, left, _, _, assembled, by
    rw [handles, List.map_append, List.map_cons, List.map_append], ?_⟩
  have here : (collected reduced.instrs)[((ahead.filter fun entry =>
      stays options entry.instr).map (·.handle)).length]? =
        some (.jumpPtr slot fanOut) := by
    simp [code, isTable, settleLine]
  obtain ⟨new, there, outcome⟩ := stages.resolved.getElem? here
  cases outcome with
  | kept => exact there
  | turned named => cases named

/-- A table of two jumps. -/
def dispatching : Routine :=
  Routine.ofList [.setVar4 1 0, .jumpPtr 1 2, .jump (.label ⟨0⟩),
    .jump (.label ⟨1⟩), .label ⟨0⟩, .ret 0, .label ⟨1⟩, .ret 1]

theorem assemble_keeps_dispatching :
    ∃ artifact left front' rest',
      dispatching.assemble {} = (.ok artifact, left) ∧
      left.handles = front' ++ ⟨1, 0⟩ :: ([⟨2, 0⟩, ⟨3, 0⟩] ++ rest') ∧
      left.instrs[front'.length]? = some (.jumpPtr 1 2) := by
  have accepted : (dispatching.setCues true).measureDepths.1 =
      .ok ⟨0, 0, []⟩ := by cbv
  have split : (dispatching.setCues true).measureDepths.2.entries =
      [⟨⟨0, 0⟩, .setVar4 1 0, some 0⟩] ++ ⟨⟨1, 0⟩, .jumpPtr 1 2, some 0⟩ ::
        [⟨⟨2, 0⟩, .jump (.label ⟨0⟩), some 0⟩,
          ⟨⟨3, 0⟩, .jump (.label ⟨1⟩), some 0⟩,
          ⟨⟨4, 0⟩, .label ⟨0⟩, some 0⟩, ⟨⟨5, 0⟩, .ret 0, some 0⟩,
          ⟨⟨6, 0⟩, .label ⟨1⟩, some 0⟩, ⟨⟨7, 0⟩, .ret 1, some 0⟩] := by cbv
  have guarded : Guarded {} [.jump (.label ⟨0⟩), .jump (.label ⟨1⟩)]
      [.label ⟨0⟩, .ret 0, .label ⟨1⟩, .ret 1] := by
    refine .inert (by decide) ?_ ?_
    · rintro (_ | _ | index) name here next
      · cases here
        cases next
      · cases here
        cases next
      · cases here
    · rintro name next - follows
      exact ⟨⟨0⟩, (Option.some.inj follows).symm⟩
  obtain ⟨-, artifact, left, front', rest', assembled, handles, pointer⟩ :=
    @assemble_keeps_guarded_table dispatching _ {} _ _ _ _ 1 2
      (Prod.ext accepted rfl) split rfl guarded
  exact ⟨artifact, left, front', rest', assembled, handles, pointer⟩

/-- A table whose first entry reserves nothing. -/
def reservingNothing : Routine :=
  Routine.ofList [.jumpPtr 1 3, .push 0, .ret 0, .ret 1]

/-- The analysis keeps the table and its three entries.  Tightening removes the
first of them, so the second and third move up, and the analysis refuses what
is left. -/
theorem assemble_shrinks_table :
    (reservingNothing.setCues true).measureDepths.1 = .ok ⟨0, 0, []⟩ ∧
    (reservingNothing.setCues true).measureDepths.2.handles =
      [⟨0, 0⟩, ⟨1, 0⟩, ⟨2, 0⟩, ⟨3, 0⟩] ∧
    ∃ artifact left, reservingNothing.assemble {} = (.ok artifact, left) ∧
      artifact.code = [65655, 125, 65661] ∧
      left.handles = [⟨0, 0⟩, ⟨2, 0⟩, ⟨3, 0⟩] ∧
      left.instrs = [.jumpPtr 1 3, .ret 0, .ret 1] ∧
      left.measureDepths.1 = .error (.defect (.fanOutExceeded 3 2)) := by
  have accepted : (reservingNothing.setCues true).measureDepths.1 =
      .ok ⟨0, 0, []⟩ := by cbv
  have kept : (reservingNothing.setCues true).measureDepths.2.handles =
      [⟨0, 0⟩, ⟨1, 0⟩, ⟨2, 0⟩, ⟨3, 0⟩] := by cbv
  have assembled : (reservingNothing.assemble {}).1 =
      .ok ⟨[65655, 125, 65661], 0, ⟨[]⟩, [], []⟩ := by cbv
  have handles : (reservingNothing.assemble {}).2.handles =
      [⟨0, 0⟩, ⟨2, 0⟩, ⟨3, 0⟩] := by cbv
  have left : (reservingNothing.assemble {}).2.instrs =
      [.jumpPtr 1 3, .ret 0, .ret 1] := by cbv
  have refused : (reservingNothing.assemble {}).2.measureDepths.1 =
      .error (.defect (.fanOutExceeded 3 2)) := by cbv
  exact ⟨accepted, kept, _, _, Prod.ext assembled rfl, rfl, handles, left,
    refused⟩

end StackAssembler
