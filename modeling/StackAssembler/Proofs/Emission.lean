import StackAssembler.Encoding
import StackAssembler.Proofs.LineCollection

/-!
# What instructions leave in the code

Every instruction leaves as many units in the code as its size says: a label
none, a line a suspend point if it is a cue, and any other instruction the units
of its shape.  Encoding puts these units one after the other and notes where
entry points start.
-/

namespace StackAssembler

namespace Instr

open Layout

/-- The units that an instruction leaves in the code. -/
def emitted : Instr → List UInt32
  | label _ => []
  | line _ cue => if cue then [0x7E] else []
  | instr =>
      match instr.opcode? with
      | none => []
      | some opcode => pack instr.shape opcode instr.payload

theorem length_pack (shape : Shape) (opcode : Opcode) (payload : Payload) :
    (pack shape opcode payload).length = shape.size := by
  cases shape <;> rfl

theorem emitted_of_opcode? {instr : Instr} {opcode : Opcode}
    (coded : instr.opcode? = some opcode) :
    instr.emitted = pack instr.shape opcode instr.payload := by
  cases instr <;> simp_all [emitted, opcode?]

theorem exists_opcode? {instr : Instr} (noMarker : instr.isMarker = false) :
    ∃ opcode, instr.opcode? = some opcode := by
  cases instr with
  | label | line => simp [isMarker] at noMarker
  | _ => exact ⟨_, rfl⟩

theorem length_emitted (instr : Instr) :
    instr.emitted.length = instr.size := by
  cases marker : instr.isMarker with
  | true =>
      cases instr with
      | label => rfl
      | line pos cue => cases cue <;> rfl
      | _ => simp [isMarker] at marker
  | false =>
      obtain ⟨opcode, coded⟩ := exists_opcode? marker
      rw [emitted_of_opcode? coded]
      exact length_pack _ _ _

theorem length_flatMap_emitted (code : List Instr) :
    (code.flatMap emitted).length = codeSize code := by
  induction code with
  | nil => rfl
  | cons instr code ih => simp [length_emitted, ih]

theorem units_eq_ok {instr : Instr} (plain : isLine instr = false) :
    instr.units = .ok instr.emitted := by
  cases instr with
  | line => simp [isLine] at plain
  | _ => rfl

theorem emitted_of_vanishes {instr : Instr} (gone : vanishes instr = true) :
    instr.emitted = [] := by
  cases instr with
  | line pos cue => simpa [emitted, vanishes] using gone
  | _ => simp [vanishes] at gone

theorem emitted_suspend : suspend.emitted = [0x7E] := by decide

theorem emitted_settleLine {instr : Instr} (kept : vanishes instr = false) :
    (settleLine instr).emitted = instr.emitted := by
  cases instr with
  | line pos cue =>
      obtain rfl : cue = true := by simpa [vanishes] using kept
      exact emitted_suspend
  | _ => rfl

theorem flatMap_emitted_collected (code : List Instr) :
    (collected code).flatMap emitted = code.flatMap emitted := by
  induction code with
  | nil => rfl
  | cons instr code ih =>
      unfold collected at ih ⊢
      cases gone : vanishes instr with
      | true => simp [gone, ih, emitted_of_vanishes gone]
      | false => simp [gone, ih, emitted_settleLine gone]

def entryPoints : Nat → List Instr → List Nat
  | _, [] => []
  | position, instr :: rest =>
      (if instr.isJitEntry then [position] else []) ++
        entryPoints (position + instr.size) rest

theorem isJitEntry_iff {instr : Instr} :
    instr.isJitEntry = true ↔ ∃ number, instr = .jitEntry number := by
  cases instr <;> simp [isJitEntry]

theorem mem_entryPoints_iff {code : List Instr} {start place : Nat} :
    place ∈ entryPoints start code ↔
      ∃ (index : Nat) (number : UInt16),
        code[index]? = some (.jitEntry number) ∧
          place = start + Flow.position code index := by
  induction code generalizing start with
  | nil => simp [entryPoints]
  | cons instr code ih =>
      rw [entryPoints, List.mem_append, ih]
      constructor
      · rintro (first | ⟨index, number, here, rfl⟩)
        · split at first
          · rename_i entry
            obtain ⟨number, rfl⟩ := isJitEntry_iff.mp entry
            obtain rfl := List.mem_singleton.mp first
            exact ⟨0, number, rfl, by simp⟩
          · simp at first
        · refine ⟨index + 1, number, by simpa using here, ?_⟩
          rw [Flow.position_cons_succ, Nat.add_assoc]
      · rintro ⟨_ | index, number, here, rfl⟩
        · obtain rfl : instr = .jitEntry number := by simpa using here
          exact .inl (by simp [isJitEntry])
        · refine .inr ⟨index, number, by simpa using here, ?_⟩
          rw [Flow.position_cons_succ, Nat.add_assoc]

/-- Entry points are listed front to back, and no two start at one place. -/
theorem pairwise_entryPoints (code : List Instr) (start : Nat) :
    (entryPoints start code).Pairwise (· < ·) := by
  induction code generalizing start with
  | nil => exact .nil
  | cons instr code ih =>
      rw [entryPoints]
      split
      · rename_i entry
        obtain ⟨number, rfl⟩ := isJitEntry_iff.mp entry
        refine List.pairwise_cons.mpr ⟨?_, ih _⟩
        intro place later
        obtain ⟨index, other, -, rfl⟩ := mem_entryPoints_iff.mp later
        have oneUnit : (jitEntry number).size = 1 := rfl
        omega
      · exact ih _

theorem size_settleLine {instr : Instr} (kept : vanishes instr = false) :
    (settleLine instr).size = instr.size := by
  rw [← length_emitted, ← length_emitted, emitted_settleLine kept]

theorem entryPoints_collected (code : List Instr) (start : Nat) :
    entryPoints start (collected code) = entryPoints start code := by
  induction code generalizing start with
  | nil => rfl
  | cons instr code ih =>
      unfold collected at ih ⊢
      cases gone : vanishes instr with
      | true =>
          have noEntry : instr.isJitEntry = false := by
            cases instr <;> simp_all [vanishes, isJitEntry]
          have noUnit : instr.size = 0 := by
            rw [← length_emitted, emitted_of_vanishes gone]
            rfl
          simp [gone, ih, entryPoints, noEntry, noUnit]
      | false =>
          have sameEntry :
              (settleLine instr).isJitEntry = instr.isJitEntry := by
            cases instr <;> rfl
          simp [gone, ih, entryPoints, sameEntry, size_settleLine gone]

theorem entryPoints_of_resolvedFrom {code rest others : List Instr}
    {position start : Nat}
    (resolved : ResolvedFrom code position rest others) :
    entryPoints start others = entryPoints start rest := by
  induction resolved generalizing start with
  | nil => rfl
  | cons head _ ih =>
      obtain ⟨size, entry⟩ := head.size_eq
      rw [entryPoints, entryPoints, size, entry, ih]

theorem ofInstrs_eq_ok {code : List Instr} (encoded : Encoded)
    (plain : ∀ instr ∈ code,
      isLine instr = false ∧ instr.jumpLabel? = none) :
    Encoded.ofInstrs encoded code =
      .ok ⟨encoded.code ++ code.flatMap emitted,
        encoded.jitEntries ++ entryPoints encoded.code.length code⟩ := by
  induction code generalizing encoded with
  | nil => simp [Encoded.ofInstrs, entryPoints]
  | cons instr code ih =>
      obtain ⟨noLine, resolved⟩ := plain instr List.mem_cons_self
      have later := ih
        { code := encoded.code ++ instr.emitted
          jitEntries :=
            if instr.isJitEntry then
              encoded.jitEntries ++ [encoded.code.length]
            else encoded.jitEntries }
        fun other member => plain other (List.mem_cons_of_mem _ member)
      rw [Encoded.ofInstrs, resolved]
      simp only [units_eq_ok noLine, bind, Except.bind]
      rw [later]
      cases entry : instr.isJitEntry <;>
        simp [entryPoints, length_emitted, List.append_assoc, entry]

theorem encode_eq_ok {code : List Instr}
    (plain : ∀ instr ∈ code,
      isLine instr = false ∧ instr.jumpLabel? = none) :
    encode code = .ok ⟨code.flatMap emitted, entryPoints 0 code⟩ := by
  unfold encode
  rw [ofInstrs_eq_ok _ plain]
  simp only [bind, Except.bind, List.nil_append, length_flatMap_emitted,
    if_true, List.length_nil]
  rfl

end Instr

end StackAssembler
