import StackAssembler.Proofs.HandleAccounting
import StackAssembler.Proofs.LineLookup
import StackAssembler.Proofs.SettledCode

/-!
# Source positions survive tightening

The line that an entry belongs to is the last line marker in front of it.
Tightening removes markers and moves constants across them.  But a marker goes
away only if another one follows with nothing between them, and no entry that
stays is moved across a marker unless it writes a constant to a slot.  So all
other entries that are left belong to the line they belonged to before, and
that is what the line table answers for their code.
-/

namespace StackAssembler

open Layout Relation Window

/-- Instructions that belong to no line: the markers themselves, and constants
on the way to the instructions that read them. -/
def Instr.isLoose : Instr → Bool
  | line .. | setVar4 .. => true
  | _ => false

theorem Instr.source?_of_isLoose {instr : Instr}
    (bound : instr.isLoose = false) : instr.source? = none := by
  cases instr with
  | line => cases bound
  | _ => rfl

/-- How an entry stands to the lines. -/
inductive Standing where
  | loose
  /-- The entry belongs to a line, or stands in front of all lines. -/
  | under (line : Option SourcePos)

def Standing.of (line : Option SourcePos) (instr : Instr) : Standing :=
  if instr.isLoose then loose else under line

def standings : Option SourcePos → List Entry → List (Handle × Standing)
  | _, [] => []
  | line, entry :: entries =>
      (entry.handle, .of line entry.instr) ::
        standings (entry.instr.source?.or line) entries

theorem standings_cons_of_noLine {entry : Entry}
    (noLine : entry.instr.source? = none) (line : Option SourcePos)
    (entries : List Entry) :
    standings line (entry :: entries) =
      (entry.handle, .of line entry.instr) :: standings line entries := by
  rw [standings, noLine, Option.none_or]

theorem standings_append (line : Option SourcePos) (front back : List Entry) :
    standings line (front ++ back) =
      standings line front ++
        standings ((lastLine? (front.map (·.instr))).or line) back := by
  induction front generalizing line with
  | nil => simp [standings]
  | cons entry front ih => simp [standings, ih, Option.or_assoc]

/-- Behind the same entries, only what follows matters. -/
theorem standings_append_subset {line : Option SourcePos}
    {front before after : List Entry}
    (subset : standings ((lastLine? (front.map (·.instr))).or line) after ⊆
      standings ((lastLine? (front.map (·.instr))).or line) before) :
    standings line (front ++ after) ⊆ standings line (front ++ before) := by
  rw [standings_append, standings_append]
  intro standing member
  exact List.mem_append.mpr ((List.mem_append.mp member).imp_right
    fun later => subset later)

theorem map_fst_standings (line : Option SourcePos) (entries : List Entry) :
    (standings line entries).map (·.1) = entries.map (·.handle) := by
  induction entries generalizing line with
  | nil => rfl
  | cons entry entries ih => simp [standings, ih]

namespace Window

/-- A patch takes no entry from its line: it puts no line where there was
another instruction or another line, and drops a line only if another one
comes next. -/
inductive LineSafe : List Instr → Patch → Prop
  | done (code : List Instr) : LineSafe code []
  | drop {instr : Instr} {code : List Instr} {patch : Patch}
      (noLine : instr.source? = none) (safe : LineSafe code patch) :
      LineSafe (instr :: code) (none :: patch)
  | put {old new : Instr} {code : List Instr} {patch : Patch}
      (sameLoose : new.isLoose = old.isLoose)
      (sameSource : new.source? = old.source?) (safe : LineSafe code patch) :
      LineSafe (old :: code) (some new :: patch)
  | dropLine {pos next : SourcePos} {cue nextCue : Bool}
      {code rest : List Instr} {patch : Patch} (safe : LineSafe code patch)
      (covered : patch.fillInstrs code = .line next nextCue :: rest) :
      LineSafe (.line pos cue :: code) (none :: patch)

theorem source?_of_write? {instr : Instr} {slot : Slot}
    (writes : instr.access.write? = some slot) : instr.source? = none := by
  cases instr with
  | line => cases writes
  | _ => rfl

theorem Rule.lineSafe {scope : Scope} {window : List Instr} {patch : Patch}
    (rule : Rule scope window patch) : LineSafe window patch := by
  cases rule with
  | unusedWrite writes => exact .drop (source?_of_write? writes) (.done _)
  | unusedGlobalRead => exact .put rfl rfl (.done _)
  | compareConst | arithConst | arithConstLeft | globalPush | constPush
  | constStore | discardConst8 | discardRead | discardRead8 | branchUnless
  | branchIf | popReturn | suspendTwice | jumpNext =>
      exact .drop rfl (.put rfl rfl (.done _))
  | arithCopy | arithImmCopy | constCopy | globalWrite | globalReadUsed
  | globalRead | increment | decrement | frameRead | pushTwice | constRef =>
      exact .put rfl rfl (.drop rfl (.done _))
  | registerBack | suspendBefore => exact .drop rfl (.drop rfl (.done _))
  | checkRead => exact .put rfl rfl (.put rfl rfl (.drop rfl (.done _)))
  | checkFrame | checkVar =>
      exact .put rfl rfl (.drop rfl (.put rfl rfl (.done _)))
  | jitEntry | popNone | pushNone => exact .drop rfl (.done _)
  | discardUnit pushes =>
      refine .drop ?_ (.put rfl rfl (.done _))
      cases pushes <;> rfl
  | lineBefore => exact .dropLine (.drop rfl (.done _)) rfl
  | lineTwice => exact .dropLine (.put rfl rfl (.done _)) rfl

theorem standings_congr {entries : List Entry} {pos : SourcePos} {cue : Bool}
    {rest : List Instr}
    (starts : entries.map (·.instr) = .line pos cue :: rest)
    (line other : Option SourcePos) :
    standings line entries = standings other entries := by
  cases entries with
  | nil => cases starts
  | cons entry entries =>
      have marker : entry.instr = .line pos cue := (List.cons.inj starts).1
      simp [standings, Standing.of, marker, Instr.isLoose, Instr.source?]

/-- Behind a patch there are only standings that there were before. -/
theorem LineSafe.standings_fill {code : List Instr} {patch : Patch}
    (safe : LineSafe code patch) {window : List Entry}
    (same : window.map (·.instr) = code) (line : Option SourcePos) :
    standings line (patch.fill window) ⊆ standings line window := by
  induction safe generalizing window line with
  | done code => exact List.Subset.refl _
  | drop noLine safe ih =>
      obtain ⟨entry, rest, rfl, rfl, rfl⟩ := List.map_eq_cons_iff.mp same
      rw [Patch.fill, standings_cons_of_noLine noLine]
      exact List.Subset.trans (ih rfl line) (List.subset_cons_self _ _)
  | put sameLoose sameSource safe ih =>
      obtain ⟨entry, rest, rfl, rfl, rfl⟩ := List.map_eq_cons_iff.mp same
      rw [Patch.fill, standings, standings, sameSource, Standing.of, sameLoose,
        ← Standing.of]
      exact List.cons_subset_cons _ (ih rfl _)
  | dropLine safe covered ih =>
      obtain ⟨entry, rest, rfl, marker, rfl⟩ := List.map_eq_cons_iff.mp same
      rw [Patch.fill, standings]
      -- The line that is dropped reaches as far as the one that comes next.
      rw [← Patch.map_instr_fill] at covered
      rw [standings_congr covered line (entry.instr.source?.or line)]
      exact List.Subset.trans (ih rfl _) (List.subset_cons_self _ _)

theorem source?_of_isPlainPush {instr : Instr}
    (pushes : isPlainPush instr = true) : instr.source? = none := by
  cases instr with
  | line => cases pushes
  | _ => rfl

theorem Rewrite.standings_subset {temporaries : SlotSet}
    {keepJitEntries : Bool} {before after : List Entry}
    (rewrite : Rewrite temporaries keepJitEntries before after)
    (line : Option SourcePos) :
    standings line after ⊆ standings line before := by
  cases rewrite with
  | patch rule =>
      exact standings_append_subset (rule.lineSafe.standings_fill rfl _)
  | @postpone front skipped rest entry reader slot value constant =>
      have noLine : entry.instr.source? = none := by rw [constant]; rfl
      have loose (line : Option SourcePos) :
          Standing.of line entry.instr = .loose := by rw [constant]; rfl
      apply standings_append_subset
      rw [standings_append, standings_cons_of_noLine noLine,
        standings_cons_of_noLine noLine, standings_append, loose, loose]
      intro standing member
      simp only [List.mem_append, List.mem_cons] at member ⊢
      tauto
  | @exchange front rest first second swap firstPush secondPush swaps =>
      have firstNoLine := source?_of_isPlainPush firstPush
      have secondNoLine := source?_of_isPlainPush secondPush
      have swapNoLine : swap.instr.source? = none := by rw [swaps]; rfl
      apply standings_append_subset
      simp only [standings_cons_of_noLine firstNoLine,
        standings_cons_of_noLine secondNoLine,
        standings_cons_of_noLine swapNoLine]
      intro standing member
      simp only [List.mem_cons] at member ⊢
      tauto

theorem standings_of_rewrites {temporaries : SlotSet} {keepJitEntries : Bool}
    {before after : List Entry}
    (rewrites : ReflTransGen (Rewrite temporaries keepJitEntries) before after)
    (line : Option SourcePos) :
    standings line after ⊆ standings line before :=
  @related_of_rewrites _ _ _ _ rewrites
    (fun before after => standings line after ⊆ standings line before)
    (fun _ => List.Subset.refl _)
    (fun early late => List.Subset.trans late early)
    (fun rewrite => rewrite.standings_subset line)

end Window

/-- Where standings are carried over, an entry that is not loose keeps its
line, and is not loose afterwards. -/
theorem line_eq_of_standings {before after front back front' back' : List Entry}
    {entry entry' : Entry} (distinct : (before.map (·.handle)).Nodup)
    (subset : standings none after ⊆ standings none before)
    (whole : before = front ++ entry :: back)
    (bound : entry.instr.isLoose = false)
    (left : after = front' ++ entry' :: back')
    (same : entry'.handle = entry.handle) :
    entry'.instr.isLoose = false ∧
      lastLine? (front'.map (·.instr)) = lastLine? (front.map (·.instr)) := by
  have member {entries ahead behind : List Entry} {place : Entry}
      (split : entries = ahead ++ place :: behind) :
      (place.handle,
          Standing.of (lastLine? (ahead.map (·.instr))) place.instr) ∈
        standings none entries := by
    rw [split, standings_append, standings, Option.or_none]
    simp
  have equal := List.inj_on_of_nodup_map
    (map_fst_standings none before ▸ distinct) (subset (member left))
    (member whole) same
  have standing := (Prod.mk.inj equal).2
  rw [Standing.of, Standing.of, bound] at standing
  cases bound' : entry'.instr.isLoose with
  | true => simp [bound'] at standing
  | false =>
      rw [bound'] at standing
      exact ⟨rfl, Standing.under.inj standing⟩

namespace Layout

/-- What is left of entries after their lines were collected. -/
def collectedEntries (entries : List Entry) : List Entry :=
  (entries.filter fun entry => !vanishes entry.instr).map fun entry =>
    { entry with instr := settleLine entry.instr }

theorem map_instr_collectedEntries (entries : List Entry) :
    (collectedEntries entries).map (·.instr) =
      collected (entries.map (·.instr)) := by
  simp [collectedEntries, collected, List.filter_map, Function.comp_def]

theorem collectedEntries_middle {front back : List Entry} {entry : Entry}
    (bound : entry.instr.isLoose = false) :
    collectedEntries (front ++ entry :: back) =
      collectedEntries front ++ entry :: collectedEntries back := by
  have stays : vanishes entry.instr = false ∧
      settleLine entry.instr = entry.instr := by
    cases same : entry.instr with
    | line => simp [same, Instr.isLoose] at bound
    | _ => exact ⟨rfl, rfl⟩
  simp [collectedEntries, stays]

/-- Collected lines answer as the code they were collected from says. -/
theorem exists_lookup?_collectLines (routine : Routine) :
    ∃ count left, routine.collectLines = .ok (count, left) ∧
      left.entries = collectedEntries routine.entries ∧
      ∀ limit, left.lines.lookup? limit = lineBy? limit 0 routine.instrs := by
  have empty : LineTable.EndsBy {} 0 := by simp [LineTable.EndsBy]
  obtain ⟨lines, recorded, lookups⟩ :=
    exists_lookup?_recordLines empty routine.instrs
  refine ⟨_, _, bind_eq_ok_iff.mpr ⟨lines, recorded, rfl⟩, rfl, ?_⟩
  intro limit
  rw [lookups]
  exact Option.or_none

end Layout

/-- A routine in which markers meet: two of them directly, two across an entry
point, and two once the code between them is gone. -/
def crowded : NamedRoutine where
  toRoutine := Routine.ofList [.line ⟨1, 1⟩ false, .line ⟨2, 5⟩ false,
    .pushVar 0, .line ⟨3, 1⟩ true, .jitEntry 0, .line ⟨4, 2⟩ true,
    .pushConst 7, .line ⟨5, 1⟩ false, .push 0, .line ⟨6, 3⟩ false, .ret 0]
  nodup_handles := by decide

/-- What tightening leaves of it in front of the return. -/
def uncrowded : List Entry :=
  [⟨⟨1, 0⟩, .line ⟨2, 5⟩ false, none⟩, ⟨⟨2, 0⟩, .pushVar 0, none⟩,
    ⟨⟨5, 0⟩, .line ⟨4, 2⟩ true, none⟩, ⟨⟨6, 0⟩, .pushConst 7, none⟩,
    ⟨⟨9, 0⟩, .line ⟨6, 3⟩ false, none⟩]

end StackAssembler
