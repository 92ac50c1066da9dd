import StackAssembler.Layout
import StackAssembler.Proofs.ControlGraph

/-!
# Jumps get their distances

A jump that names a label becomes a jump over the distance from its end to the
marker of the label; all other instructions stay as they are.  This succeeds
exactly if every label marks at most one place and the labels of all jumps are
marked.  The code that results has the same layout.
-/

namespace StackAssembler

theorem bind_eq_ok_iff {Error Value Result : Type}
    {first : Except Error Value} {next : Value → Except Error Result}
    {result : Result} :
    (first >>= next) = .ok result ↔
      ∃ value, first = .ok value ∧ next value = .ok result := by
  cases first with
  | error => simp [bind, Except.bind]
  | ok => simp [bind, Except.bind]

namespace Layout

open Flow

/-- What becomes of an instruction at a code position, where `code` is the
whole code. -/
inductive Resolved (code : List Instr) (position : Nat) :
    Instr → Instr → Prop
  | kept {instr : Instr} (unnamed : instr.jumpLabel? = none) :
      Resolved code position instr instr
  | turned {instr jump : Instr} {name : Label} {index : Nat}
      (named : instr.jumpLabel? = some name)
      (located : labelIndex? code name = some index)
      (turned : instr.retarget? (.offset (Int32.ofInt
        (Flow.position code index - (position + instr.size)))) = some jump) :
      Resolved code position instr jump

/-- What becomes of the code from a code position on. -/
inductive ResolvedFrom (code : List Instr) :
    Nat → List Instr → List Instr → Prop
  | nil {position : Nat} : ResolvedFrom code position [] []
  | cons {position : Nat} {instr new : Instr} {rest others : List Instr}
      (first : Resolved code position instr new)
      (onward : ResolvedFrom code (position + instr.size) rest others) :
      ResolvedFrom code position (instr :: rest) (new :: others)

/-- Code with distinct labels in which every jump finds its label. -/
structure Resolvable (code : List Instr) : Prop where
  distinct : (labels code).Nodup
  marked : ∀ {instr : Instr} {name : Label}, instr ∈ code →
    instr.jumpLabel? = some name → name ∈ labels code

section Instructions

variable {code : List Instr} {position : Nat} {instr new : Instr}

theorem retarget?_eq_some {target : Target}
    (turned : instr.retarget? target = some new) :
    (∃ old, instr = .jump old ∧ new = .jump target) ∨
      ∃ cond old, instr = .branch cond old ∧ new = .branch cond target := by
  cases instr with
  | jump old => exact .inl ⟨old, rfl, (Option.some.inj turned).symm⟩
  | branch cond old =>
      exact .inr ⟨cond, old, rfl, (Option.some.inj turned).symm⟩
  | _ => simp [Instr.retarget?] at turned

theorem exists_retarget? {name : Label}
    (named : instr.jumpLabel? = some name) (target : Target) :
    ∃ jump, instr.retarget? target = some jump := by
  rw [Instr.jumpLabel?_eq_some_iff] at named
  cases instr with
  | jump | branch => exact ⟨_, rfl⟩
  | _ => simp [Instr.target?] at named

theorem distance_eq_ok_iff {name : Label} {offset : Int32} :
    distance code position instr name = .ok offset ↔
      ∃ index, labelIndex? code name = some index ∧ offset =
        Int32.ofInt (Flow.position code index - (position + instr.size)) := by
  unfold distance
  cases labelIndex? code name with
  | none => simp
  | some index =>
      rw [Except.ok.injEq]
      constructor
      · rintro rfl
        exact ⟨index, rfl, rfl⟩
      · rintro ⟨_, ⟨⟩, rfl⟩
        rfl

theorem resolveInstr_eq_ok_iff :
    resolveInstr code position instr = .ok new ↔
      Resolved code position instr new := by
  unfold resolveInstr
  cases named : instr.jumpLabel? with
  | none =>
      constructor
      · rintro ⟨⟩
        exact .kept named
      · rintro (_ | ⟨other, -, -⟩)
        · rfl
        · simp [named] at other
  | some name =>
      simp only [bind_eq_ok_iff, distance_eq_ok_iff]
      constructor
      · rintro ⟨offset, ⟨index, located, rfl⟩, equal⟩
        obtain ⟨jump, turned⟩ := exists_retarget? named (.offset
          (Int32.ofInt (Flow.position code index - (position + instr.size))))
        rw [turned] at equal
        obtain rfl : jump = new := Except.ok.inj equal
        exact .turned named located turned
      · rintro (unnamed | ⟨other, located, turned⟩)
        · simp [named] at unnamed
        · obtain rfl := Option.some.inj (named.symm.trans other)
          refine ⟨_, ⟨_, located, rfl⟩, ?_⟩
          rw [turned]
          rfl

theorem exists_resolved (position : Nat)
    (marked : ∀ name, instr.jumpLabel? = some name → name ∈ labels code) :
    ∃ new, Resolved code position instr new := by
  cases named : instr.jumpLabel? with
  | none => exact ⟨instr, .kept named⟩
  | some name =>
      obtain ⟨index, located⟩ := Option.isSome_iff_exists.mp
        (labelIndex?_isSome_iff.mpr (marked name named))
      obtain ⟨jump, turned⟩ := exists_retarget? named _
      exact ⟨jump, .turned named located turned⟩

theorem Resolved.jumpLabel?_eq_none
    (resolved : Resolved code position instr new) :
    new.jumpLabel? = none := by
  cases resolved with
  | kept unnamed => exact unnamed
  | turned _ _ turned =>
      obtain ⟨_, -, rfl⟩ | ⟨_, _, -, rfl⟩ := retarget?_eq_some turned <;> rfl

/-- A distance changes neither the size of an instruction nor whether it is an
entry point. -/
theorem Resolved.size_eq (resolved : Resolved code position instr new) :
    new.size = instr.size ∧ new.isJitEntry = instr.isJitEntry := by
  cases resolved with
  | kept => exact ⟨rfl, rfl⟩
  | turned _ _ turned =>
      obtain ⟨_, rfl, rfl⟩ | ⟨_, _, rfl, rfl⟩ := retarget?_eq_some turned
      · exact ⟨rfl, rfl⟩
      · exact ⟨rfl, rfl⟩

end Instructions

section Runs

variable {code rest others : List Instr} {position : Nat}

theorem resolveFrom_eq_ok_iff :
    resolveFrom code position rest = .ok others ↔
      ResolvedFrom code position rest others := by
  induction rest generalizing position others with
  | nil =>
      constructor
      · intro equal
        obtain rfl := Except.ok.inj equal
        exact .nil
      · rintro ⟨⟩
        rfl
  | cons instr rest ih =>
      unfold resolveFrom
      simp only [bind_eq_ok_iff, resolveInstr_eq_ok_iff, ih]
      constructor
      · rintro ⟨new, first, later, onward, ⟨⟩⟩
        exact .cons first onward
      · rintro (_ | ⟨first, onward⟩)
        exact ⟨_, first, _, onward, rfl⟩

theorem exists_resolvedFrom (position : Nat)
    (marked : ∀ instr ∈ rest, ∀ name, instr.jumpLabel? = some name →
      name ∈ labels code) :
    ∃ others, ResolvedFrom code position rest others := by
  induction rest generalizing position with
  | nil => exact ⟨[], .nil⟩
  | cons instr rest ih =>
      obtain ⟨new, first⟩ :=
        exists_resolved position (marked instr List.mem_cons_self)
      obtain ⟨others, onward⟩ := ih (position + instr.size)
        fun other member => marked other (List.mem_cons_of_mem _ member)
      exact ⟨new :: others, .cons first onward⟩

theorem ResolvedFrom.getElem?
    (resolved : ResolvedFrom code position rest others) {index : Nat}
    {instr : Instr} (here : rest[index]? = some instr) :
    ∃ new, others[index]? = some new ∧
      Resolved code (position + Flow.position rest index) instr new := by
  induction resolved generalizing index with
  | nil => simp at here
  | @cons position first new rest others head onward ih =>
      cases index with
      | zero =>
          obtain rfl : first = instr := by simpa using here
          exact ⟨new, rfl, by simpa using head⟩
      | succ index =>
          obtain ⟨new, found, resolved⟩ := ih (by simpa using here)
          refine ⟨new, by simpa using found, ?_⟩
          rwa [position_cons_succ, ← Nat.add_assoc]

theorem ResolvedFrom.jumpLabel?_eq_none
    (resolved : ResolvedFrom code position rest others) :
    ∀ instr ∈ others, instr.jumpLabel? = none := by
  induction resolved with
  | nil => simp
  | cons head _ ih =>
      rintro instr (_ | ⟨_, later⟩)
      · exact head.jumpLabel?_eq_none
      · exact ih instr later

theorem ResolvedFrom.codeSize_eq
    (resolved : ResolvedFrom code position rest others) :
    Instr.codeSize others = Instr.codeSize rest := by
  induction resolved with
  | nil => rfl
  | cons head _ ih => simp [head.size_eq.1, ih]

theorem ResolvedFrom.length_eq
    (resolved : ResolvedFrom code position rest others) :
    others.length = rest.length := by
  induction resolved with
  | nil => rfl
  | cons _ _ ih => simp [ih]

end Runs

/-- Filling a routine with as many instructions as it has replaces all of
them. -/
theorem instrs_withInstrs {routine : Routine} {code : List Instr}
    (sameLength : code.length = routine.instrs.length) :
    (routine.withInstrs code).instrs = code := by
  unfold Routine.withInstrs Routine.instrs at *
  generalize routine.entries = entries at *
  induction entries generalizing code with
  | nil => simpa [eq_comm] using sameLength
  | cons entry entries ih =>
      cases code with
      | nil => simp at sameLength
      | cons instr code =>
          simp only [List.zipWith_cons_cons, List.map_cons]
          rw [ih (by simpa using sameLength)]

theorem exists_resolveJumps {routine : Routine}
    (resolvable : Resolvable routine.instrs) :
    ∃ count resolved, routine.resolveJumps = .ok (count, resolved) ∧
      ResolvedFrom routine.instrs 0 routine.instrs resolved.instrs := by
  obtain ⟨code, resolved⟩ := exists_resolvedFrom 0
    fun _ member _ => resolvable.marked member
  have done : resolve routine.instrs = .ok code := by
    rw [resolve, repeatedLabel?_eq_none_iff.mpr resolvable.distinct]
    exact resolveFrom_eq_ok_iff.mpr resolved
  have filled := instrs_withInstrs resolved.length_eq
  exact ⟨_, _, bind_eq_ok_iff.mpr ⟨code, done, rfl⟩, filled.symm ▸ resolved⟩

end Layout

end StackAssembler
