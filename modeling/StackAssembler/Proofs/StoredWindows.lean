import StackAssembler.Proofs.ControlSkeleton
import StackAssembler.Proofs.StoredReads

/-!
# The window rules in linked storage

A scan of linked code holds the handles of a window, asks the questions of a
rule only when their answers matter, and goes on two places before a change.  It
makes the changes of the scan of the sequence, so no handle that it holds becomes
stale, and the table of labels that it made at the start stays right.
-/

namespace StackAssembler

namespace Window

/-! ## What a rule needs to know -/

section Needs

variable {first second : Instr} {patch : Patch}

/-- Whether a value is handed over depends on the slot that the first
instruction writes. -/
theorem forward_congr {dead other : Slot → Bool}
    (same : ∀ slot, first.access.write? = some slot → dead slot = other slot)
    (second : Instr) :
    forward dead first second = forward other first second := by
  unfold forward
  split
  case h_10 => rfl
  all_goals rw [same _ rfl]

theorem forward_of_false
    (handed : forward (fun _ => false) first second = some patch) :
    forward (fun _ => true) first second = some patch := by
  revert handed
  fun_cases forward (fun _ => false) first second <;>
    simp_all [forward]

theorem throughRegister_of_none
    (apart : throughRegister false first second = none) (used : Bool) :
    throughRegister used first second = none := by
  cases used with
  | false => exact apart
  | true => 
    fun_cases throughRegister true first second <;> simp_all [throughRegister]

/-- A patch is not empty and has places for some entries only. -/
def Fits (count : Nat) (patch? : Option Patch) : Prop :=
  ∀ patch, patch? = some patch → patch ≠ [] ∧ patch.length ≤ count

theorem fits_dropWrite (used : Bool) (instr : Instr) :
    Fits 1 (some (dropWrite used instr)) := by
  rintro patch ⟨⟩
  fun_cases dropWrite used instr <;> simp

theorem fits_forward (dead : Slot → Bool) (first second : Instr) :
    Fits 2 (forward dead first second) := by
  intro patch
  fun_cases forward dead first second <;> rintro ⟨⟩ <;> simp

theorem fits_checks (window : List Instr) : Fits 3 (checks window) := by
  intro patch
  fun_cases checks window <;> rintro ⟨⟩ <;> simp

theorem fits_discard (first : Instr) (count : UInt16) :
    Fits 2 (discard first count) := by
  intro patch
  fun_cases discard first count <;> rintro ⟨⟩ <;> simp

theorem fits_throughRegister (used : Bool) (first second : Instr) :
    Fits 2 (throughRegister used first second) := by
  intro patch
  fun_cases throughRegister used first second <;> rintro ⟨⟩ <;> simp

theorem fits_merge (first second : Instr) : Fits 2 (merge first second) := by
  intro patch
  fun_cases merge first second <;> rintro ⟨⟩ <;> simp

theorem fits_fuse (used : Bool) (first second : Instr) :
    Fits 2 (fuse used first second) := by
  intro patch proposed
  unfold fuse at proposed
  split at proposed
  · exact fits_discard _ _ patch proposed
  · rcases Option.or_eq_some_iff.mp proposed with registered | ⟨-, merged⟩
    · exact fits_throughRegister _ _ _ patch registered
    · exact fits_merge _ _ patch merged

theorem checks_of_short {window : List Instr} (short : window.length < 3) :
    checks window = none := by
  unfold checks
  split
  case h_6 => rfl
  all_goals exact absurd short (by simp)

theorem checks_eq (first second third : Instr) (rest : List Instr) :
    checks (first :: second :: third :: rest) =
      checks [first, second, third] := by
  generalize same : first :: second :: third :: rest = window
  fun_cases checks window
  case case8 suspends lines reads frames vars =>
    subst same
    unfold checks
    split
    · rename_i shape
      cases shape
      exact absurd rfl (suspends _ _)
    · rename_i shape
      cases shape
      exact absurd rfl (lines _ _ _ _ _ _)
    · rename_i shape
      cases shape
      exact absurd rfl (reads _ _)
    · rename_i shape
      cases shape
      exact absurd rfl (frames _ _ _)
    · rename_i shape
      cases shape
      exact absurd rfl (vars _ _ _)
    · rfl
  all_goals cases same; simp_all [checks]

end Needs

end Window

namespace Program

open Flow Window

/-! ## Patches -/

section Patches

variable {routine : Routine} {before after front window : List Entry}
  {entry : Entry}

def handleAt (cursor : Cursor) : Option Handle :=
  cursor.after.head?.map (·.handle)

theorem performs_stepBack (count : Nat)
    (split : routine.entries = before.reverse ++ entry :: after) :
    ∃ handle, handleAt (Cursor.back count ⟨before, entry :: after⟩) =
        some handle ∧
      Performs (stepBack count entry.handle) routine (.ok handle, routine) := by
  induction count generalizing before entry after with
  | zero => exact ⟨entry.handle, rfl, performs_pure _ _⟩
  | succ count ih =>
      have looked := performs_previous split
      rw [List.getLast?_reverse] at looked
      cases before with
      | nil => exact ⟨entry.handle, rfl, looked.bind (performs_pure _ _)⟩
      | cons nearest before =>
          rw [List.reverse_cons, List.append_assoc] at split
          obtain ⟨handle, stands, performs⟩ := ih split
          exact ⟨handle, stands, looked.bind performs⟩

theorem performs_backTwo
    (split : routine.entries = before.reverse ++ entry :: after) :
    Performs (backTwo (some entry.handle)) routine
      (.ok (handleAt (Cursor.back 2 ⟨before, entry :: after⟩)), routine) := by
  obtain ⟨handle, stands, performs⟩ := performs_stepBack 2 split
  rw [stands]
  exact performs.bind (performs_pure _ _)

/-- Where a place was given up, the scan goes on from the place before it or, at
the front, from the one behind it. -/
theorem performs_backTwo_of_gap
    (split : routine.entries = before.reverse ++ after) :
    Performs (backTwo ((before.head?.or after.head?).map (·.handle))) routine
      (.ok (handleAt (Cursor.back 3 ⟨before, after⟩)), routine) := by
  cases before with
  | cons nearest before =>
      rw [List.reverse_cons, List.append_assoc] at split
      exact performs_backTwo split
  | nil =>
      cases after with
      | cons entry after => exact performs_backTwo split
      | nil =>
          have first := performs_head routine
          rw [split] at first
          exact first

/-- What a patch leaves at a place. -/
def patched (routine : Routine) (front : List Entry) (patch : Patch)
    (window : List Entry) : Routine :=
  { routine with
    entries := front ++ patch.fill window
    pool := routine.pool.retireAll (patch.vacated window) }

/-- A patch is applied to the places of a window.  The scan then stands at the
first place or, if that was given up, next to it. -/
theorem performs_applyPatch {patch : Patch} {count : Nat}
    (split : routine.entries = front ++ window)
    (enough : patch.length ≤ count) (there : count ≤ window.length) :
    ∃ resume, Performs
        (applyPatch patch ((window.take count).map (·.handle))) routine
        (.ok resume, patched routine front patch window) ∧
      (∀ instr rest, patch = some instr :: rest →
        resume = window.head?.map (·.handle)) ∧
      ∀ rest, patch = none :: rest →
        resume = (front.getLast?.or (patch.fill window).head?).map
          (·.handle) := by
  induction patch generalizing front window count with
  | nil =>
      refine ⟨((window.take count).map (·.handle)).head?, ?_, by simp,
        by simp⟩
      rw [patched, Patch.fill, ← split]
      exact performs_pure _ _
  | cons change patch ih =>
      obtain ⟨count, rfl⟩ := Nat.exists_eq_add_one_of_ne_zero
        (Nat.ne_of_gt (Nat.zero_lt_of_lt enough))
      cases window with
      | nil => cases there
      | cons entry window =>
          have onward := split
          rw [List.append_cons] at onward
          obtain ⟨_, later, -, -⟩ := ih onward (Nat.le_of_succ_le_succ enough)
            (Nat.le_of_succ_le_succ there)
          have here : (patched routine (front ++ [entry]) patch
              window).entries = front ++ entry :: Patch.fill patch window := by
            simp [patched]
          cases change with
          | some instr =>
              exact ⟨_, later.discard.bind
                ((performs_replace here instr).bind (performs_pure _ _)),
                fun _ _ _ => rfl, by simp⟩
          | none =>
              have erased := performs_erase here
              have left : { patched routine (front ++ [entry]) patch window with
                    entries := front ++ Patch.fill patch window
                    pool := (patched routine (front ++ [entry]) patch
                      window).pool.retire entry.handle } =
                  patched routine front (none :: patch) (entry :: window) := by
                simp [patched, Patch.fill, Patch.vacated,
                  HandlePool.retireAll]
              rw [left] at erased
              exact ⟨_, later.discard.bind erased, by simp, fun _ _ => rfl⟩

/-- A change of a sequence as a change of the routine. -/
def changed (routine : Routine) : Option Change → Except Failure Resume × Routine
  | none => (.ok none, routine)
  | some change =>
      (.ok (some (handleAt change.cursor)), { routine with
        entries := change.cursor.entries
        pool := routine.pool.retireAll change.vacated })

theorem performs_rewrite {cursor : Cursor} {patch? : Option Patch}
    {count : Nat} (split : routine.entries = cursor.entries)
    (fits : Fits count patch?) (there : count ≤ cursor.after.length) :
    Performs (rewrite ((cursor.after.take count).map (·.handle)) patch?)
      routine (changed routine (patch?.map (Window.applyPatch cursor))) := by
  cases patch? with
  | none => exact performs_pure _ _
  | some patch =>
  obtain ⟨proper, enough⟩ := fits patch rfl
  rw [Option.map_some]
  obtain ⟨resume, performs, kept, gap⟩ :=
    performs_applyPatch split enough there
  have left : (Window.applyPatch cursor patch).cursor.entries =
      cursor.before.reverse ++ patch.fill cursor.after := by
    rw [Window.applyPatch, Cursor.entries_back, Cursor.entries]
  rw [changed, left]
  refine performs.bind ?_
  cases patch with
  | nil => exact absurd rfl proper
  | cons change patch =>
      cases change with
      | some instr =>
          rw [kept instr patch rfl]
          obtain ⟨before, after⟩ := cursor
          cases after with
          | nil => exact absurd (Nat.le_trans enough there) (by simp)
          | cons entry after =>
              exact (@performs_backTwo _ before (Patch.fill patch after)
                { entry with instr } rfl).bind (performs_pure _ _)
      | none =>
          rw [gap patch rfl, List.getLast?_reverse]
          exact (performs_backTwo_of_gap rfl).bind (performs_pure _ _)

end Patches

/-! ## Rules -/

section Rules

variable {routine : Routine} {before after front back : List Entry}
  {entry other : Entry} (keepJitEntries : Bool)

theorem performs_dropWriteAt
    (split : routine.entries = front ++ entry :: back) :
    Performs (dropWriteAt entry.handle entry.instr) routine
      (.ok (dropWrite (Liveness.registerUsed (back.map (·.instr)))
        entry.instr), routine) := by
  unfold dropWriteAt
  split
  · exact (performs_registerUsedAfter split).bind (performs_pure _ _)
  · rename_i plain
    have same : ∀ used, dropWrite used entry.instr = [none] := by
      intro used
      unfold dropWrite
      split
      · exact absurd ‹_› (plain _ _)
      · rfl
    rw [same, same]
    exact performs_pure _ _

theorem performs_forwardAt (distinct : (labels routine.instrs).Nodup)
    (split : routine.entries = front ++ entry :: back) (first : Instr) :
    Performs (forwardAt routine.labelHandles entry.handle first entry.instr)
      routine
      (.ok (forward ((scopeOf routine.temporaries keepJitEntries
        routine.instrs).dead · (back.map (·.instr))) first entry.instr),
        routine) := by
  have asked := performs_deadAfter distinct keepJitEntries
    first.access.write? split
  generalize (scopeOf routine.temporaries keepJitEntries
    routine.instrs).dead = dead at asked ⊢
  rw [@forward_congr first (dead · (back.map (·.instr)))
    (fun _ => first.access.write?.any (dead · (back.map (·.instr))))
    (fun slot written => by rw [written, Option.any_some])]
  generalize first.access.write?.any (dead · (back.map (·.instr))) = answer
    at asked ⊢
  unfold forwardAt
  cases handed : forward (fun _ => false) first entry.instr with
  | some patch =>
      have always : forward (fun _ => answer) first entry.instr =
          some patch := by
        cases answer with
        | false => exact handed
        | true => exact forward_of_false handed
      rw [always]
      exact performs_pure _ _
  | none =>
      cases hoped : forward (fun _ => true) first entry.instr with
      | none =>
          have never : forward (fun _ => answer) first entry.instr = none := by
            cases answer with
            | false => exact handed
            | true => exact hoped
          rw [never]
          exact performs_pure _ _
      | some patch =>
          apply asked.bind
          cases answer with
          | false =>
              rw [handed]
              exact performs_pure _ _
          | true =>
              rw [hoped]
              exact performs_pure _ _

theorem performs_fuseAt (split : routine.entries = front ++ entry :: back)
    (first : Instr) :
    Performs (fuseAt entry.handle first entry.instr) routine
      (.ok (fuse (Liveness.registerUsed (back.map (·.instr))) first
        entry.instr), routine) := by
  unfold fuseAt
  cases met : throughRegister false first entry.instr with
  | some patch =>
      exact (performs_registerUsedAfter split).bind (performs_pure _ _)
  | none =>
      have same (used : Bool) :
          fuse used first entry.instr = fuse false first entry.instr := by
        unfold fuse
        split
        · rfl
        · rw [throughRegister_of_none met, throughRegister_of_none met]
      rw [same (Liveness.registerUsed _)]
      exact performs_pure _ _

theorem performs_nextTwo (split : routine.entries = front ++ entry :: back) :
    Performs (nextTwo entry.handle) routine
      (.ok (match back with
        | second :: third :: _ => some (second.handle, third.handle)
        | _ => none), routine) := by
  apply (performs_next split).bind
  cases back with
  | nil => exact performs_pure _ _
  | cons second back =>
      rw [List.append_cons] at split
      apply (performs_next split).bind
      cases back <;> exact performs_pure _ _

theorem performs_readerFrom (slot : Slot)
    (split : routine.entries = front ++ back) :
    Performs (Link.readerFrom slot (back.head?.map (·.handle))) routine
      (.ok ((splitAtRead? slot back).bind fun (_, found) =>
        found.head?.map (·.handle)), routine) := by
  induction back generalizing front with
  | nil =>
      rw [List.head?_nil, Option.map_none, Link.readerFrom]
      exact performs_pure _ _
  | cons entry back ih =>
      rw [List.head?_cons, Option.map_some, Link.readerFrom, splitAtRead?]
      apply (performs_instrAt split).bind
      split
      · exact performs_pure _ _
      · split
        · exact performs_pure _ _
        · apply (performs_next split).bind
          rw [List.append_cons] at split
          rw [Option.bind_map]
          exact ih split

section AtCursor

variable {cursor : Cursor} (split : routine.entries = cursor.entries)
  (window : cursor.after = entry :: after)

include split window

theorem performs_dropValue (distinct : (labels routine.instrs).Nodup) :
    Performs (dropValue routine.labelHandles entry.handle) routine
      (changed routine (Window.dropValue routine.temporaries keepJitEntries
        cursor)) := by
  have here : routine.entries = cursor.before.reverse ++ entry :: after := by
    rw [split, Cursor.entries, window]
  have code : cursor.code = routine.instrs := by
    rw [Cursor.code, ← split, Routine.instrs]
  rw [Window.dropValue, code, Cursor.window, window, List.map_cons]
  unfold unusedValue
  apply (performs_instrAt here).bind
  apply (performs_deadAfter distinct keepJitEntries _ here).bind
  dsimp only
  split
  · apply (performs_dropWriteAt here).bind
    have rewritten := @performs_rewrite _ _ _ 1 split
      (fits_dropWrite (Liveness.registerUsed (after.map (·.instr)))
        entry.instr) (by simp [window])
    rwa [window] at rewritten
  · apply (performs_next here).bind
    cases after with
    | nil => exact performs_pure _ _
    | cons other after =>
        rw [List.append_cons] at here
        apply (performs_instrAt here).bind
        apply (performs_forwardAt keepJitEntries distinct here _).bind
        have rewritten := @performs_rewrite _ _ _ 2 split
          (fits_forward ((scopeOf routine.temporaries keepJitEntries
            routine.instrs).dead · (after.map (·.instr))) entry.instr
              other.instr) (by simp [window])
        rwa [window] at rewritten

theorem performs_simplifyPair :
    Performs (simplifyPair keepJitEntries entry.handle) routine
      (changed routine (Window.simplifyPair routine.temporaries keepJitEntries
        cursor)) := by
  have here : routine.entries = cursor.before.reverse ++ entry :: after := by
    rw [split, Cursor.entries, window]
  rw [Window.simplifyPair, Cursor.window, window, List.map_cons]
  unfold simplify
  apply (performs_instrAt here).bind
  rw [show (scopeOf routine.temporaries keepJitEntries
    cursor.code).keepJitEntries = keepJitEntries from rfl]
  dsimp only
  by_cases quiet : idle keepJitEntries entry.instr
  · rw [if_pos quiet, if_pos quiet]
    have rewritten := @performs_rewrite _ _ (some [none]) 1 split
      (by rintro patch ⟨⟩; simp) (by simp [window])
    rwa [window] at rewritten
  · rw [if_neg quiet, if_neg quiet]
    apply (performs_next here).bind
    cases after with
    | nil => exact performs_pure _ _
    | cons other after =>
        rw [List.append_cons] at here
        apply (performs_instrAt here).bind
        apply (performs_fuseAt here _).bind
        have rewritten := @performs_rewrite _ _ _ 2 split
          (fits_fuse (Liveness.registerUsed (after.map (·.instr))) entry.instr
            other.instr) (by simp [window])
        rwa [window] at rewritten

theorem performs_simplifyChecks :
    Performs (simplifyChecks entry.handle) routine
      (changed routine (Window.simplifyChecks cursor)) := by
  have here : routine.entries = cursor.before.reverse ++ entry :: after := by
    rw [split, Cursor.entries, window]
  rw [Window.simplifyChecks, Cursor.window, window]
  apply (performs_nextTwo here).bind
  rcases after with _ | ⟨second, _ | ⟨third, after⟩⟩
  · rw [checks_of_short (by simp)]
    exact performs_pure _ _
  · rw [checks_of_short (by simp)]
    exact performs_pure _ _
  · have there := here
    rw [List.append_cons] at there
    have beyond := there
    rw [List.append_cons] at beyond
    rw [List.map_cons, List.map_cons, List.map_cons, checks_eq]
    apply (performs_instrAt here).bind
    apply (performs_instrAt there).bind
    apply (performs_instrAt beyond).bind
    have rewritten := @performs_rewrite _ _ _ 3 split
      (fits_checks [entry.instr, second.instr, third.instr])
      (by simp [window])
    rwa [window] at rewritten

theorem performs_exchangePushes :
    Performs (exchangePushes entry.handle) routine
      (changed routine (Window.exchangePushes cursor)) := by
  have here : routine.entries = cursor.before.reverse ++ entry :: after := by
    rw [split, Cursor.entries, window]
  rw [Window.exchangePushes, window]
  apply (performs_nextTwo here).bind
  rcases after with _ | ⟨second, _ | ⟨third, after⟩⟩
  · exact performs_pure _ _
  · exact performs_pure _ _
  · have there := here
    rw [List.append_cons] at there
    have beyond := there
    rw [List.append_cons] at beyond
    apply (performs_instrAt here).bind
    apply (performs_instrAt there).bind
    apply (performs_instrAt beyond).bind
    dsimp only
    split
    · apply (performs_erase beyond).discard.bind
      apply (@performs_moveBefore
        { routine with
          entries := cursor.before.reverse ++ [entry] ++ [second] ++ after
          pool := routine.pool.retire third.handle }
        cursor.before.reverse after second (cursor.before.reverse ++ [entry])
        after entry (by simp) (by simp)).bind
      rw [changed, Cursor.entries_back]
      exact (performs_backTwo rfl).bind (performs_pure _ _)
    · exact performs_pure _ _

omit window in
/-- A constant that cannot be removed below is moved back to its place. -/
theorem performs_dropValueBelow (distinct : (labels routine.instrs).Nodup)
    {moved : Cursor}
    (postponed : postponed? routine.temporaries cursor = some moved)
    {skipped rest : List Entry} {next reader : Entry}
    (stood : cursor.after = entry :: next :: (skipped ++ reader :: rest))
    (stands : moved =
      ⟨(next :: skipped).reverse ++ cursor.before, entry :: reader :: rest⟩) :
    Performs (dropValueBelow routine.labelHandles entry.handle next.handle
        reader.handle) routine
      (changed routine (Window.dropValue routine.temporaries keepJitEntries
        moved)) := by
  have before : routine.entries = cursor.before.reverse ++
      entry :: next :: (skipped ++ reader :: rest) := by
    rw [split, Cursor.entries, stood]
  have after : moved.entries =
      cursor.before.reverse ++ next :: skipped ++ entry :: reader :: rest := by
    rw [stands, Cursor.entries]
    simp
  have rewrite := @rewrite_postponed? _ keepJitEntries _ _ postponed
  have down := @performs_moveBefore routine
    (cursor.before.reverse ++ next :: skipped) rest entry
    cursor.before.reverse (next :: (skipped ++ reader :: rest)) reader before
    (by simp)
  rw [← after] at down
  have sameLabels := @labelHandles_of_rewrites _ _ routine
    { routine with entries := moved.entries } (by rw [split]; exact .single rewrite)
  have stillDistinct : (labels
      { routine with entries := moved.entries }.instrs).Nodup := by
    rw [Routine.instrs, (carries_of_rewrites (.single rewrite)).labels_eq,
      ← split]
    exact distinct
  have dropped := @performs_dropValue { routine with entries := moved.entries }
    (reader :: rest) entry keepJitEntries moved rfl (by rw [stands])
    stillDistinct
  rw [sameLabels] at dropped
  refine down.bind ?_
  cases changes : Window.dropValue routine.temporaries keepJitEntries moved with
  | some change =>
      rw [changes] at dropped
      exact dropped.bind (performs_pure _ _)
  | none =>
      rw [changes] at dropped
      have back := @performs_moveBefore { routine with entries := moved.entries }
        cursor.before.reverse (skipped ++ reader :: rest) entry
        (cursor.before.reverse ++ next :: skipped) (reader :: rest) next after
        (by simp)
      rw [← before] at back
      exact dropped.bind (back.bind (performs_pure _ _))

omit split window in
theorem postponeValue_of_stays
    (stays : postponed? routine.temporaries cursor = none) :
    Window.postponeValue routine.temporaries keepJitEntries cursor = none := by
  rw [Window.postponeValue, stays, Option.bind_none]

/-- A constant for a temporary goes down to the instruction that reads it,
unless that is the next one. -/
theorem performs_postponeValue_of_temporary
    (distinct : (labels routine.instrs).Nodup) {slot : Slot} {value : UInt32}
    (constant : entry.instr = .setVar4 slot value)
    (temporary : routine.temporaries.contains slot) :
    Performs (postponeValue routine.labelHandles entry.handle) routine
      (changed routine (Window.postponeValue routine.temporaries keepJitEntries
        cursor)) := by
  have here : routine.entries = cursor.before.reverse ++ entry :: after := by
    rw [split, Cursor.entries, window]
  refine performs_of_accounted fun accounted => ?_
  unfold postponeValue
  apply (performs_instrAt here).bind
  rw [constant]
  apply (performs_isTemporary slot routine).bind
  rw [if_pos temporary]
  apply (performs_next here).bind
  cases after with
  | nil =>
      rw [postponeValue_of_stays keepJitEntries (by
        simp [postponed?, window, constant, splitAtRead?])]
      exact performs_pure _ _
  | cons other after =>
      have there := here
      rw [List.append_cons] at there
      apply (performs_readerFrom slot there).bind
      cases reading : splitAtRead? slot (other :: after) with
      | none =>
          rw [postponeValue_of_stays keepJitEntries (by
            simp [postponed?, window, constant, reading])]
          exact performs_pure _ _
      | some found =>
          obtain ⟨skipped, found⟩ := found
          obtain ⟨passed, reader, rest, rfl, reads⟩ :=
            splitAtRead?_eq_some reading
          have behind := append_of_splitAtRead? reading
          dsimp only [Option.bind_some, List.head?_cons, Option.map_some]
          cases skipped with
          | nil =>
              obtain ⟨rfl, -⟩ := List.cons.inj behind
              rw [if_pos rfl, postponeValue_of_stays keepJitEntries (by
                simp [postponed?, window, constant, reading])]
              exact performs_pure _ _
          | cons next skipped =>
              obtain ⟨rfl, rfl⟩ := List.cons.inj behind
              have apart : reader.handle ≠ other.handle := by
                intro same
                have once := accounted.nodup_handles
                rw [Routine.handles, there, List.map_append,
                  List.nodup_append] at once
                simp [same] at once
              have postponed : postponed? routine.temporaries cursor =
                  some ⟨(other :: skipped).reverse ++ cursor.before,
                    entry :: reader :: rest⟩ := by
                simp only [postponed?, window, constant, reading,
                  if_pos temporary]
              rw [if_neg apart, Window.postponeValue, postponed,
                Option.bind_some]
              exact performs_dropValueBelow keepJitEntries split distinct
                postponed window rfl

theorem performs_postponeValue (distinct : (labels routine.instrs).Nodup) :
    Performs (postponeValue routine.labelHandles entry.handle) routine
      (changed routine (Window.postponeValue routine.temporaries keepJitEntries
        cursor)) := by
  have here : routine.entries = cursor.before.reverse ++ entry :: after := by
    rw [split, Cursor.entries, window]
  by_cases movable : ∃ slot value, entry.instr = .setVar4 slot value ∧
      routine.temporaries.contains slot
  · obtain ⟨slot, value, constant, temporary⟩ := movable
    exact performs_postponeValue_of_temporary keepJitEntries split window
      distinct constant temporary
  · rw [postponeValue_of_stays keepJitEntries (by
      rw [postponed?, window]
      grind)]
    unfold postponeValue
    apply (performs_instrAt here).bind
    split
    · rename_i slot value constant
      apply (performs_isTemporary slot routine).bind
      rw [if_neg fun temporary => movable ⟨slot, value, constant, temporary⟩]
      exact performs_pure _ _
    · exact performs_pure _ _

omit split window in
theorem performs_firstOf {rule : Program Resume} {rules : List (Program Resume)}
    {change other : Option Change}
    (first : Performs rule routine (changed routine change))
    (later : Performs (firstOf rules) routine (changed routine other)) :
    Performs (firstOf (rule :: rules)) routine
      (changed routine (change.or other)) := by
  cases change with
  | none => exact first.bind later
  | some change => exact first.bind (performs_pure _ _)

theorem performs_changeAt (distinct : (labels routine.instrs).Nodup) :
    Performs (changeAt routine.labelHandles keepJitEntries entry.handle)
      routine
      (changed routine (Window.changeAt routine.temporaries keepJitEntries
        cursor)) := by
  apply performs_firstOf (performs_dropValue _ split window distinct)
  apply performs_firstOf (performs_postponeValue _ split window distinct)
  apply performs_firstOf (performs_exchangePushes split window)
  apply performs_firstOf (performs_simplifyChecks split window)
  rw [← Option.or_none (o := Window.simplifyPair _ _ _)]
  exact performs_firstOf (performs_simplifyPair _ split window)
    (performs_pure _ _)

end AtCursor

end Rules

/-! ## The scan -/

section Scans

variable {routine : Routine} {keepJitEntries : Bool}

/-- A routine in the state of a scan. -/
def scanned (routine : Routine) (state : Scan) : Routine :=
  { routine with
    entries := state.cursor.entries
    pool := routine.pool.retireAll state.vacated.reverse }

theorem scanned_change {state : Scan} {change : Change} {count : Nat} :
    scanned routine
        { cursor := change.cursor
          changed := true
          changes := count
          vacated := change.vacated.reverse ++ state.vacated } =
      { scanned routine state with
        entries := change.cursor.entries
        pool := (scanned routine state).pool.retireAll change.vacated } := by
  simp [scanned, HandlePool.retireAll]

theorem scanned_advance {state : Scan} {entry : Entry} {rest : List Entry}
    (window : state.cursor.after = entry :: rest) :
    scanned routine
        { state with cursor := ⟨entry :: state.cursor.before, rest⟩ } =
      scanned routine state := by
  simp [scanned, Cursor.entries, window]

/-- The rest of the passes, from a state on in a pass that began with some number
of changes. -/
theorem performs_pass {labels : List (Label × Handle)} (state : Scan)
    (distinct : (Flow.labels (scanned routine state).instrs).Nodup)
    (table : (scanned routine state).labelHandles = labels)
    {start : Nat} (began : start ≤ state.changes)
    (moved : state.changed = decide (start ≠ state.changes)) :
    Performs (do
        let after ← LabelTable.pass labels keepJitEntries state.changes
          (handleAt state.cursor)
        if after = start then return after
        else LabelTable.passes labels keepJitEntries after)
      (scanned routine state)
      (.ok (scan routine.temporaries keepJitEntries state).changes,
        scanned routine (scan routine.temporaries keepJitEntries state)) := by
  fun_induction scan routine.temporaries keepJitEntries state generalizing start with
  | case1 state window again ih =>
      have more : state.changes ≠ start := by
        rw [again] at moved
        exact (of_decide_eq_true moved.symm).symm
      rw [handleAt, window, List.head?_nil, Option.map_none, LabelTable.pass, pure_bind,
        if_neg more, LabelTable.passes]
      exact (performs_head _).bind (ih distinct table (Nat.le_refl _) (by simp))
  | case2 state window again =>
      have same : state.changes = start := by
        by_contra more
        rw [decide_eq_true (Ne.symm more)] at moved
        exact again moved
      rw [handleAt, window, List.head?_nil, Option.map_none, LabelTable.pass, pure_bind,
        if_pos same]
      exact performs_pure _ _
  | case3 state entry rest window change changes ih =>
      have made := @performs_changeAt (scanned routine state) rest entry
        keepJitEntries state.cursor rfl window distinct
      rw [show (scanned routine state).temporaries = routine.temporaries
        from rfl, changes, table] at made
      rw [handleAt, window, List.head?_cons, Option.map_some, LabelTable.pass, bind_assoc]
      refine made.bind ?_
      rw [scanned_change] at ih
      have rewrites := rewrites_changeAt changes
      refine ih ?_ ?_ (Nat.le_succ_of_le began) ?_
      · rw [Routine.instrs, (carries_of_rewrites rewrites).labels_eq]
        exact distinct
      · rw [← table]
        exact labelHandles_of_rewrites rewrites
      · exact (decide_eq_true (Nat.ne_of_lt (Nat.lt_succ_of_le began))).symm
  | case4 state entry rest window unchanged ih =>
      have made := @performs_changeAt (scanned routine state) rest entry
        keepJitEntries state.cursor rfl window distinct
      rw [show (scanned routine state).temporaries = routine.temporaries
        from rfl, unchanged, table] at made
      have here : (scanned routine state).entries =
          state.cursor.before.reverse ++ entry :: rest := by
        rw [scanned, Cursor.entries, window]
      rw [handleAt, window, List.head?_cons, Option.map_some, LabelTable.pass, bind_assoc]
      refine made.bind ?_
      dsimp only
      rw [bind_assoc]
      rw [scanned_advance window] at ih
      exact (performs_next here).bind (ih distinct table began moved)

theorem performs_tighten :
    Performs (tighten keepJitEntries) routine
      (match routine.tighten keepJitEntries with
      | .ok (count, left) => (.ok count, left)
      | .error defect => (.error (.defect defect), routine)) := by
  apply (performs_listing routine).bind
  cases repeated : repeatedLabel? routine.instrs with
  | some label =>
      have refused : routine.tighten keepJitEntries =
          .error (.duplicateLabel label) := by
        rw [Routine.tighten, repeated]
      rw [refused]
      exact (performs_labelsOf_of_repeated repeated routine).bind_error
  | none =>
      have distinct := repeatedLabel?_eq_none_iff.mp repeated
      obtain ⟨result, scanning, done⟩ := tighten_eq_scan distinct keepJitEntries
      rw [done, ← scanning]
      apply (performs_labelsOf distinct routine).bind
      rw [LabelTable.passes]
      exact (performs_head routine).bind (performs_pass
        { cursor := ⟨[], routine.entries⟩ } distinct rfl (Nat.le_refl _)
        (by simp))

end Scans

end Program

end StackAssembler
