import StackAssembler.Proofs.LineLookup

/-!
# Line markers go to the line table

Lines are recorded front to back, so the table never refuses one.  What is left
of the code are the instructions that are no lines, and a suspend point for
every cue.
-/

namespace StackAssembler

namespace Layout

/-- What is left of code after its lines were collected. -/
def collected (code : List Instr) : List Instr :=
  (code.filter fun instr => !vanishes instr).map settleLine

theorem exists_collectLines (routine : Routine) :
    ∃ count left, routine.collectLines = .ok (count, left) ∧
      left.instrs = collected routine.instrs := by
  have empty : LineTable.EndsBy {} 0 := by simp [LineTable.EndsBy]
  obtain ⟨lines, recorded, -⟩ :=
    exists_lookup?_recordLines empty routine.instrs
  refine ⟨_, _, bind_eq_ok_iff.mpr ⟨lines, recorded, rfl⟩, ?_⟩
  simp [collected, Routine.instrs, Routine.mapInstrs, Routine.retain,
    List.filter_map, Function.comp_def]

theorem isLine_settleLine (instr : Instr) :
    isLine (settleLine instr) = false := by
  cases instr <;> rfl

theorem jumpLabel?_settleLine (instr : Instr) :
    (settleLine instr).jumpLabel? = instr.jumpLabel? := by
  cases instr <;> rfl

theorem mem_collected {code : List Instr} {instr : Instr}
    (member : instr ∈ collected code) :
    ∃ source ∈ code, instr = settleLine source := by
  obtain ⟨source, kept, rfl⟩ := List.mem_map.mp member
  exact ⟨source, (List.mem_filter.mp kept).1, rfl⟩

end Layout

end StackAssembler
