import StackAssembler.Proofs.StoredAssembly

/-!
# Bodies with a history

A body is built from a new one by edits and by the steps of assemblies, whether
they succeed or not, and by joining two bodies.  Whatever its history was, it
stores some routine.  So each step that is run on it has a result: no link leads
to a vacant place, no table lacks a key, and every loop ends.

Two bodies with the same instructions and temporaries may differ in the places,
generations and links of their instructions, in their vacant places, and in the
depths and lines of earlier steps.  Their assemblies come to the same outcome.
-/

namespace StackAssembler

open Flow Layout StackDepth Window

namespace Program

section Results

variable {routine : Routine} {front back : List Entry} {entry : Entry}

/-! ## Steps on code of any size -/

/-- A program has a result for every routine that a body can store. -/
def Lasts {α : Type} (program : Program α) : Prop :=
  ∀ routine : Routine, routine.Accounted →
    ∃ result, Performs program routine result

theorem lasts_edit (change : Edit) : Lasts (edit change) :=
  fun routine _ => ⟨_, performs_edit change routine⟩

theorem lasts_measureDepths : Lasts measureDepths := by
  intro routine _
  rcases Nat.lt_or_ge routine.codeSize positionLimit with small | large
  · exact ⟨_, performs_measureDepths small⟩
  · exact ⟨_, performs_measureDepths_of_large large⟩

theorem lasts_tighten (keepJitEntries : Bool) :
    Lasts (tighten keepJitEntries) :=
  fun _ _ => ⟨_, performs_tighten⟩

theorem lasts_resolveJumps : Lasts resolveJumps := by
  intro routine _
  rcases Nat.lt_or_ge routine.codeSize positionLimit with small | large
  · cases outcome : routine.resolveJumps with
    | error defect => exact ⟨_, performs_resolveJumps_of_error small outcome⟩
    | ok result => exact ⟨_, performs_resolveJumps small outcome⟩
  · cases repeated : repeatedLabel? routine.instrs with
    | some label =>
        exact ⟨_, (performs_listing routine).bind
          (performs_labelsOf_of_repeated repeated routine).bind_error⟩
    | none =>
        have distinct := repeatedLabel?_eq_none_iff.mp repeated
        exact ⟨_, (performs_listing routine).bind
          ((performs_labelsOf distinct routine).bind
            (performs_positionTable_of_large (by decide)
              (by rwa [Nat.zero_add]) routine).bind_error)⟩

/-- Whatever comes of a line marker, the code behind it stays. -/
theorem exists_collectAt (position : Nat)
    (split : routine.entries = front ++ entry :: back) :
    ∃ outcome left before, left.entries = before ++ back ∧
      Performs (collectAt position entry.handle) routine (outcome, left) := by
  have advanced (size markers : Nat) (left : Routine) : ∃ outcome,
      Performs (do return (← advance position size, markers)) left
        (outcome, left) := by
    rcases Nat.lt_or_ge (position + size) positionLimit with fits | tooFar
    · exact ⟨_, (performs_advance fits left).bind (performs_pure _ _)⟩
    · exact ⟨_, (performs_advance_of_overflow tooFar left).bind_error⟩
  have looked := performs_instrAt split
  cases line : isLine entry.instr with
  | false =>
      obtain ⟨outcome, added⟩ := advanced entry.instr.size 0 routine
      refine ⟨outcome, routine, front ++ [entry], by simp [split],
        looked.bind ?_⟩
      split
      · simp_all [isLine]
      · exact added
  | true =>
      obtain ⟨pos, cue, same⟩ := isLine_iff.mp line
      rw [same] at looked
      cases recorded : routine.lines.record position pos with
      | error fault =>
          exact ⟨_, routine, front ++ [entry], by simp [split], looked.bind
            (performs_recordLine_of_error recorded).bind_error⟩
      | ok lines =>
          have recording := performs_recordLine recorded
          have here : { routine with lines }.entries =
            front ++ entry :: back := split
          cases cue with
          | true =>
              obtain ⟨outcome, added⟩ := advanced (Instr.size .suspend) 1
                { routine with
                  entries := front ++ { entry with instr := .suspend } :: back
                  lines }
              exact ⟨outcome, _, front ++ [{ entry with instr := .suspend }],
                by simp, looked.bind (recording.bind
                  ((performs_replace here .suspend).bind added))⟩
          | false =>
              exact ⟨_, _, front, rfl, looked.bind (recording.bind
                ((performs_erase here).discard.bind (performs_pure _ _)))⟩

theorem exists_collectFrom (position count : Nat)
    (split : routine.entries = front ++ back) :
    ∃ result, Performs
      (Link.collectFrom position count (back.head?.map (·.handle))) routine
      result := by
  induction back generalizing routine front position count with
  | nil =>
      rw [List.head?_nil, Option.map_none, Link.collectFrom]
      exact ⟨_, performs_pure _ _⟩
  | cons entry back ih =>
      rw [List.head?_cons, Option.map_some, Link.collectFrom]
      obtain ⟨outcome, left, before, rest, collected⟩ :=
        exists_collectAt position split
      cases outcome with
      | error failure =>
          exact ⟨_, (performs_next split).bind collected.bind_error⟩
      | ok value =>
          obtain ⟨result, later⟩ := ih value.1 (count + value.2) rest
          exact ⟨result, (performs_next split).bind (collected.bind later)⟩

theorem lasts_collectLines : Lasts collectLines := by
  intro routine _
  obtain ⟨result, collected⟩ := @exists_collectFrom
    { routine with lines := {} } [] routine.entries 0 0 rfl
  exact ⟨result, (performs_setLines {} routine).bind
    ((performs_head _).bind collected)⟩

theorem lasts_assemble (options : Options) : Lasts (assemble options) := by
  intro routine _
  rcases Nat.lt_or_ge (routine.setCues options.lineCues).codeSize
    positionLimit with small | large
  · exact ⟨_, performs_assemble small⟩
  · exact ⟨_, (performs_analyze_of_large large).bind_error⟩

theorem performs_recordMoved (shift : Nat) (rows : List LineRow)
    (routine : Routine) :
    Performs (recordMoved shift rows) routine
      ((routine.lines.recordAll shift rows).1.mapError .fault,
        { routine with lines := (routine.lines.recordAll shift rows).2 }) := by
  induction rows generalizing routine with
  | nil => exact performs_pure _ _
  | cons row rows ih =>
      rw [LineTable.recordAll, LineTable.recordMoved]
      rcases Nat.lt_or_ge (shift + row.position) positionLimit with fits | tooFar
      · apply (performs_advance fits routine).bind
        rw [wordPosition, if_pos fits]
        cases recorded : routine.lines.record (shift + row.position)
            row.source with
        | error fault =>
            simp only [bind, Except.bind, recorded]
            exact (performs_recordLine_of_error recorded).bind_error
        | ok longer =>
            simp only [bind, Except.bind, recorded]
            exact (performs_recordLine recorded).bind
              (ih { routine with lines := longer })
      · rw [wordPosition, if_neg (Nat.not_lt.mpr tooFar)]
        exact (performs_advance_of_overflow tooFar routine).bind_error

theorem performs_pushAll (code : List Instr) (routine : Routine) :
    Performs (pushAll code) routine (.ok (), routine.pushAll code) := by
  induction code generalizing routine with
  | nil =>
      rw [Routine.pushAll_nil]
      exact performs_pure _ _
  | cons instr code ih =>
      rw [Routine.pushAll_cons]
      exact (performs_edit_of_ok (Routine.edit_push rfl instr)).discard.bind
        (ih (routine.push instr).2)

theorem performs_absorb {other : Body} {source : Routine}
    (stores : other.Stores source) (routine : Routine) :
    Performs (absorb other) routine
      ((routine.absorb source).1.mapError .fault,
        (routine.absorb source).2.1) := by
  have code : (rows routine.entries).map (·.2) = routine.instrs := by
    simp [rows, Routine.instrs, Function.comp_def]
  apply (performs_listing routine).bind
  rw [code, Routine.absorb]
  rcases Nat.lt_or_ge routine.codeSize positionLimit with small | large
  · apply (performs_advance (by rwa [Nat.zero_add]) routine).bind
    rw [Nat.zero_add, wordPosition, if_pos small, stores.lines_eq]
    have recorded := performs_recordMoved routine.codeSize source.lines.rows
      routine
    dsimp only
    rcases outcome : routine.lines.recordAll routine.codeSize
      source.lines.rows with ⟨fault | ⟨⟩, lines⟩
    · rw [outcome] at recorded
      exact recorded.bind_error
    · rw [outcome] at recorded
      apply recorded.bind
      rw [stores.code?_eq]
      apply (performs_pure _ _).bind
      apply (performs_pushAll _ _).bind
      rw [stores.temporaries_eq]
      exact performs_markTemporaries _ _
  · rw [wordPosition, if_neg (Nat.not_lt.mpr large)]
    exact (performs_advance_of_overflow (by rwa [Nat.zero_add])
      routine).bind_error

end Results

end Program

/-! ## Histories -/

/-- A body that was built from new ones. -/
inductive Built : Body → Prop
  | new : Built {}
  | edit {body left : Body} {reply : Except Failure Reply}
      (built : Built body) (change : Edit)
      (ran : Program.edit change body = some (reply, left)) : Built left
  | markTemporary {body : Body} (built : Built body) (slot : Slot) :
      Built { body with temporaries := body.temporaries.insert slot }
  | measureDepths {body left : Body} {outcome : Except Failure Analysis}
      (built : Built body)
      (ran : Program.measureDepths body = some (outcome, left)) : Built left
  | tighten {body left : Body} {outcome : Except Failure Nat}
      (built : Built body) (keepJitEntries : Bool)
      (ran : Program.tighten keepJitEntries body = some (outcome, left)) :
      Built left
  | resolveJumps {body left : Body} {outcome : Except Failure Nat}
      (built : Built body)
      (ran : Program.resolveJumps body = some (outcome, left)) : Built left
  | collectLines {body left : Body} {outcome : Except Failure Nat}
      (built : Built body)
      (ran : Program.collectLines body = some (outcome, left)) : Built left
  | assemble {body left : Body} {outcome : Except Failure Artifact}
      (built : Built body) (options : Options)
      (ran : Program.assemble options body = some (outcome, left)) :
      Built left
  | absorb {body other left : Body} {outcome : Except Failure Unit}
      (built : Built body) (source : Built other)
      (ran : Program.absorb other body = some (outcome, left)) : Built left

theorem Body.stores_new (temporaries : SlotSet) :
    Body.Stores { temporaries } { temporaries } where
  keeps := { Store.keeps_new with }
  accounted := { Routine.accounted_new with }
  temporaries_eq := rfl
  lines_eq := rfl
  maxDepth_eq := rfl

theorem Program.Performs.stores_of_ran {α : Type} {program : Program α}
    {body left : Body} {routine : Routine} {outcome : Except Failure α}
    {result : Except Failure α × Routine}
    (performs : Performs program routine result) (stores : body.Stores routine)
    (ran : program body = some (outcome, left)) :
    left.Stores result.2 := by
  obtain ⟨_, done, stored⟩ := performs body stores
  obtain ⟨-, rfl⟩ := Prod.mk.inj (Option.some.inj (ran.symm.trans done))
  exact stored

theorem Program.Lasts.stores_of_ran {α : Type} {program : Program α}
    (lasts : Lasts program) {body left : Body} {routine : Routine}
    {outcome : Except Failure α} (stores : body.Stores routine)
    (ran : program body = some (outcome, left)) :
    ∃ kept, left.Stores kept := by
  obtain ⟨result, performs⟩ := lasts routine stores.accounted
  exact ⟨result.2, performs.stores_of_ran stores ran⟩

theorem Built.stores {body : Body} (built : Built body) :
    ∃ routine, body.Stores routine := by
  induction built with
  | new => exact ⟨_, Body.stores_new {}⟩
  | edit _ change ran ih =>
      obtain ⟨routine, stores⟩ := ih
      exact (Program.lasts_edit change).stores_of_ran stores ran
  | @markTemporary body _ slot ih =>
      obtain ⟨routine, stores⟩ := ih
      exact ⟨_, (Program.performs_markTemporaries [slot] routine).stores_of_ran
        stores rfl⟩
  | measureDepths _ ran ih =>
      obtain ⟨routine, stores⟩ := ih
      exact Program.lasts_measureDepths.stores_of_ran stores ran
  | tighten _ keepJitEntries ran ih =>
      obtain ⟨routine, stores⟩ := ih
      exact (Program.lasts_tighten keepJitEntries).stores_of_ran stores ran
  | resolveJumps _ ran ih =>
      obtain ⟨routine, stores⟩ := ih
      exact Program.lasts_resolveJumps.stores_of_ran stores ran
  | collectLines _ ran ih =>
      obtain ⟨routine, stores⟩ := ih
      exact Program.lasts_collectLines.stores_of_ran stores ran
  | assemble _ options ran ih =>
      obtain ⟨routine, stores⟩ := ih
      exact (Program.lasts_assemble options).stores_of_ran stores ran
  | absorb _ _ ran ih ihOther =>
      obtain ⟨routine, stores⟩ := ih
      obtain ⟨source, sourceStores⟩ := ihOther
      exact ⟨_, (Program.performs_absorb sourceStores routine).stores_of_ran
        stores ran⟩

theorem Built.editAll {body left : Body} {changes : List Edit}
    {outcome : Except Failure Unit} (built : Built body)
    (ran : Program.editAll changes body = some (outcome, left)) :
    Built left := by
  induction changes generalizing body with
  | nil =>
      obtain ⟨-, rfl⟩ := Prod.mk.inj (Option.some.inj ran)
      exact built
  | cons change changes ih =>
      rw [Program.editAll, Program.discard_bind, Program.bind_apply] at ran
      cases edited : Program.edit change body with
      | none =>
          rw [edited] at ran
          cases ran
      | some result =>
          rw [edited] at ran
          obtain ⟨reply, middle⟩ := result
          have builtMiddle := built.edit change edited
          cases reply with
          | error failure =>
              obtain ⟨-, rfl⟩ := Prod.mk.inj (Option.some.inj ran)
              exact builtMiddle
          | ok reply => exact ih builtMiddle ran

/-! ## Equal instructions -/

/-- Two bodies come to the same outcome, and are left with the same instructions
and depths. -/
def SameOutcome (options : Options) (first second : Body) : Prop :=
  ∃ outcome contents left other,
    Program.assemble options first = some (outcome, left) ∧
    Program.assemble options second = some (outcome, other) ∧
    left.contents? = some contents ∧ other.contents? = some contents

section SameOutcome

variable {first second : Routine} {options : Options}

theorem contents_eq_zip (routine : Routine) :
    routine.entries.map (fun entry => (entry.instr, entry.depth)) =
      routine.instrs.zip (routine.entries.map (·.depth)) := by
  rw [Routine.instrs, List.zip_map']

theorem SameOutcome.of_performs {one two : Body}
    {outcome : Except Failure Artifact} {left other : Routine}
    (stores : one.Stores first) (storesToo : two.Stores second)
    (ran : Program.Performs (Program.assemble options) first (outcome, left))
    (ranToo : Program.Performs (Program.assemble options) second
      (outcome, other))
    (instrs_eq : left.instrs = other.instrs)
    (depths_eq : left.entries.map (·.depth) = other.entries.map (·.depth)) :
    SameOutcome options one two := by
  obtain ⟨end₁, done, kept⟩ := ran one stores
  obtain ⟨end₂, doneToo, keptToo⟩ := ranToo two storesToo
  refine ⟨outcome, _, end₁, end₂, done, doneToo, kept.contents?_eq, ?_⟩
  rw [keptToo.contents?_eq, contents_eq_zip, contents_eq_zip, instrs_eq,
    depths_eq]

/-- The assemblies of two routines with the same instructions and temporaries
agree, also if their code is too large. -/
theorem SameOutcome.of_stores {one two : Body}
    (stores : one.Stores first) (storesToo : two.Stores second)
    (sameCode : first.instrs = second.instrs)
    (sameTemporaries : ∀ slot,
      first.isTemporary slot = second.isTemporary slot) :
    SameOutcome options one two := by
  have cued : (first.setCues options.lineCues).instrs =
      (second.setCues options.lineCues).instrs := by
    rw [Routine.setCues, Routine.setCues, Routine.instrs_mapInstrs,
      Routine.instrs_mapInstrs, sameCode]
  have sizes : (first.setCues options.lineCues).codeSize =
      (second.setCues options.lineCues).codeSize := by
    rw [Routine.codeSize, Routine.codeSize, cued]
  rcases Nat.lt_or_ge (first.setCues options.lineCues).codeSize positionLimit
    with small | large
  · have same : Routine.SameAssembly options first second :=
      .of_instrs_eq sameCode sameTemporaries
    have ran := Program.performs_assemble small
    have ranToo := Program.performs_assemble (sizes ▸ small)
    rw [← Prod.eta (second.assemble options), ← same.outcome_eq] at ranToo
    exact .of_performs stores storesToo ran ranToo same.instrs_eq
      same.depths_eq
  · have ran := Program.performs_assemble_of_large large
    have ranToo := Program.performs_assemble_of_large (sizes ▸ large)
    rw [← cued] at ranToo
    apply SameOutcome.of_performs stores storesToo ran ranToo
    · rw [instrs_clearDepths, instrs_clearDepths, cued]
    · have lengths := congrArg List.length cued
      simpa [Routine.clearDepths, Routine.instrs, Function.comp_def,
        List.map_const'] using lengths

end SameOutcome

/-- An assembly sees the instructions and the temporaries of a body, and nothing
else.  Two bodies that have these in common come to the same artifact or the
same failure, and are left with the same instructions and depths, whatever
edits, analyses, collections of lines and assemblies they went through.  So does
the body that is built from the instructions in one go. -/
theorem assemble_sees_code_only {first second : Body}
    (built : Built first) (builtToo : Built second)
    (sameCode : first.code? = second.code?)
    (sameTemporaries : ∀ slot, first.temporaries.contains slot =
      second.temporaries.contains slot)
    (options : Options) :
    ∃ code fresh, first.code? = some code ∧
      Program.pushAll code { temporaries := first.temporaries } =
        some (.ok (), fresh) ∧
      SameOutcome options first second ∧ SameOutcome options first fresh := by
  obtain ⟨routine, stores⟩ := built.stores
  obtain ⟨other, storesToo⟩ := builtToo.stores
  obtain ⟨fresh, pushed, storesFresh⟩ :=
    Program.performs_pushAll routine.instrs _ _
      (Body.stores_new first.temporaries)
  rw [stores.code?_eq, storesToo.code?_eq] at sameCode
  rw [stores.temporaries_eq, storesToo.temporaries_eq] at sameTemporaries
  refine ⟨routine.instrs, fresh, stores.code?_eq, pushed,
    .of_stores stores storesToo (Option.some.inj sameCode) sameTemporaries,
    .of_stores stores storesFresh ?_ fun slot => ?_⟩
  · rw [Routine.instrs_pushAll]
    rfl
  · rw [stores.temporaries_eq]
    rfl

/-- Edits that take places again and leave one vacant. -/
def wearing : List Edit :=
  [.push (.ret 0), .push (.pop 3), .erase ⟨0, 0⟩, .pushFront (.pushVar 1),
    .pushFront (.push 2), .push .suspend, .push (.ret 0), .erase ⟨3, 0⟩]

/-- The routine that the edits make of a new one. -/
def wornRoutine : Routine :=
  (Routine.performAll {} wearing).2

theorem assemble_sees_code_only_worn :
    ∃ worn plain, Built worn ∧ Built plain ∧
      worn.store.head? = some ⟨2, 0⟩ ∧ plain.store.head? = some ⟨0, 0⟩ ∧
      worn.contents? = some [(.push 2, some 0), (.pushVar 1, some 2),
        (.pop 3, some 3), (.ret 0, some 0)] ∧
      plain.contents? = some [(.push 2, none), (.pushVar 1, none),
        (.pop 3, none), (.ret 0, none)] ∧
      SameOutcome {} worn plain := by
  obtain ⟨edited, wore, storesEdited⟩ :=
    @Program.performs_editAll {} wearing
      [.inserted ⟨0, 0⟩, .inserted ⟨1, 0⟩, .resume (some ⟨1, 0⟩),
        .inserted ⟨0, 1⟩, .inserted ⟨2, 0⟩, .inserted ⟨3, 0⟩,
        .inserted ⟨4, 0⟩, .resume (some ⟨1, 0⟩)] wornRoutine (by cbv) {}
      (Body.stores_new {})
  obtain ⟨worn, analyzed, storesWorn⟩ :=
    Program.performs_measureDepths (by decide) edited storesEdited
  obtain ⟨plain, pushed, storesPlain⟩ :=
    Program.performs_pushAll [.push 2, .pushVar 1, .pop 3, .ret 0] {} {}
      (Body.stores_new {})
  have builtWorn := (Built.new.editAll wore).measureDepths analyzed
  have builtPlain := Built.new.editAll pushed
  have wornContents : worn.contents? = some [(.push 2, some 0),
      (.pushVar 1, some 2), (.pop 3, some 3), (.ret 0, some 0)] := by
    rw [storesWorn.contents?_eq]
    cbv
  have plainContents : plain.contents? = some [(.push 2, none),
      (.pushVar 1, none), (.pop 3, none), (.ret 0, none)] := by
    rw [storesPlain.contents?_eq]
    cbv
  have temporaries : worn.temporaries = plain.temporaries := by
    rw [storesWorn.temporaries_eq, storesPlain.temporaries_eq]
    cbv
  refine ⟨worn, plain, builtWorn, builtPlain, ?_, ?_, wornContents,
    plainContents, ?_⟩
  · rw [storesWorn.keeps.head?_eq storesWorn.accounted]
    cbv
  · rw [storesPlain.keeps.head?_eq storesPlain.accounted]
    cbv
  · obtain ⟨-, -, -, -, same, -⟩ := assemble_sees_code_only builtWorn builtPlain
      (by rw [Body.code?, Body.code?, wornContents, plainContents]; rfl)
      (fun slot => by rw [temporaries]) {}
    exact same

end StackAssembler
