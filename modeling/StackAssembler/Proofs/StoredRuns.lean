import StackAssembler.StackDepth
import StackAssembler.Proofs.StoreRefinement
import StackAssembler.Proofs.StoredPrograms

/-!
# What programs do to a routine

A body stores a routine if its links spell the entries of the routine and all
the rest agrees.  A program performs a change of a routine if, on every body
that stores the routine, it ends with the outcome of the change, and leaves a
body that stores what the change leaves.  Where the places, generations and
links of a body do not matter to the change, they do not matter to the program
then.
-/

namespace StackAssembler

/-- A body stores a routine. -/
structure Body.Stores (body : Body) (routine : Routine) : Prop where
  keeps : body.store.Keeps routine
  accounted : routine.Accounted
  temporaries_eq : body.temporaries = routine.temporaries
  lines_eq : body.lines = routine.lines
  maxDepth_eq : body.maxDepth = routine.maxDepth

namespace Store

/-! ## Depths in a store -/

section Depths

variable {store : Store} {routine : Routine}

theorem nodeAt?_clearDepths (store : Store) (index : Nat) :
    store.clearDepths.nodeAt? index =
      (store.nodeAt? index).map fun node => { node with depth := none } := by
  cases found : store.cells[index]? <;>
    simp [clearDepths, nodeAt?, Array.getElem?_map, found]

theorem generationAt?_clearDepths (store : Store) (index : Nat) :
    store.clearDepths.generationAt? index = store.generationAt? index := by
  simp [clearDepths, generationAt?, Array.getElem?_map, Function.comp_def]

theorem Linked.clearDepths {previous next : Option Nat} {entries : List Entry}
    (linked : Linked store.nodeAt? previous entries next) :
    Linked store.clearDepths.nodeAt? previous
      (entries.map fun entry => { entry with depth := none }) next := by
  induction entries generalizing previous with
  | nil => trivial
  | cons entry entries ih =>
      obtain ⟨here, rest⟩ := linked
      refine ⟨?_, ih rest⟩
      have first : firstPlace
          (entries.map fun entry => { entry with depth := none }) =
            firstPlace entries := by
        simp [firstPlace, Function.comp_def]
      rw [nodeAt?_clearDepths, here, first]
      rfl

theorem Keeps.clearDepths (keeps : store.Keeps routine) :
    store.clearDepths.Keeps routine.clearDepths where
  whole :=
    { linked := keeps.whole.linked.clearDepths
      head_eq := by
        refine keeps.whole.head_eq.trans ?_
        simp [Routine.clearDepths, firstPlace, Function.comp_def]
      tail_eq := by
        refine keeps.whole.tail_eq.trans ?_
        simp [Routine.clearDepths, lastPlace, Function.comp_def] }
  generation_eq index :=
    (generationAt?_clearDepths store index).trans (keeps.generation_eq index)
  vacant_eq := keeps.vacant_eq
  vacated index member := by
    rw [nodeAt?_clearDepths, keeps.vacated index member, Option.map_none]
  length_eq := keeps.length_eq.trans (by simp [Routine.clearDepths])

end Depths

end Store

namespace Program

open StackDepth

variable {α β : Type}

theorem bind_apply (program : Program α) (next : α → Program β)
    (body : Body) :
    (program >>= next) body = (program body).bind fun
      | (.ok value, left) => next value left
      | (.error failure, left) => some (.error failure, left) := by
  change (program body).bind _ = _
  congr 1
  funext result
  obtain ⟨outcome, left⟩ := result
  cases outcome <;> rfl

theorem bind_of_ok {program : Program α} {next : α → Program β}
    {body left : Body} {value : α}
    (ran : program body = some (.ok value, left)) :
    (program >>= next) body = next value left := by
  rw [bind_apply, ran]
  rfl

theorem bind_of_error {program : Program α} {next : α → Program β}
    {body left : Body} {failure : Failure}
    (ran : program body = some (.error failure, left)) :
    (program >>= next) body = some (.error failure, left) := by
  rw [bind_apply, ran]
  rfl

theorem discard_bind (program : Program α) (next : Unit → Program β) :
    (discard program >>= next) = program >>= fun _ => next () := by
  unfold Functor.discard
  rw [map_const, Function.comp_apply, bind_map_left]

/-- On every body that stores the routine, the program has the given outcome
and leaves a body that stores the given routine. -/
def Performs (program : Program α) (routine : Routine)
    (result : Except Failure α × Routine) : Prop :=
  ∀ body : Body, body.Stores routine →
    ∃ left, program body = some (result.1, left) ∧ left.Stores result.2

/-! ## Composition -/

section Composition

variable {program : Program α} {next : α → Program β}
  {routine middle : Routine} {result : Except Failure β × Routine}

theorem performs_pure (value : α) (routine : Routine) :
    Performs (pure value) routine (.ok value, routine) :=
  fun body stores => ⟨body, rfl, stores⟩

theorem performs_throw (failure : Failure) (routine : Routine) :
    Performs (throw failure : Program α) routine (.error failure, routine) :=
  fun body stores => ⟨body, rfl, stores⟩

theorem Performs.bind {value : α}
    (first : Performs program routine (.ok value, middle))
    (second : Performs (next value) middle result) :
    Performs (program >>= next) routine result := by
  intro body stores
  obtain ⟨between, done, kept⟩ := first body stores
  obtain ⟨left, finished, stored⟩ := second between kept
  exact ⟨left, (bind_of_ok done).trans finished, stored⟩

theorem Performs.bind_error {failure : Failure}
    (first : Performs program routine (.error failure, middle)) :
    Performs (program >>= next) routine (.error failure, middle) := by
  intro body stores
  obtain ⟨left, done, stored⟩ := first body stores
  exact ⟨left, bind_of_error done, stored⟩

theorem performs_get {next : Body → Program β}
    (performs : ∀ body : Body, body.Stores routine →
      Performs (next body) routine result) :
    Performs (get >>= next) routine result :=
  fun body stores => performs body stores body stores

theorem Performs.map {value : α} (change : α → β)
    (performs : Performs program routine (.ok value, middle)) :
    Performs (change <$> program) routine (.ok (change value), middle) := by
  rw [map_eq_pure_bind]
  exact performs.bind (performs_pure _ _)

/-- The value of a program does not matter. -/
theorem Performs.discard {value : α}
    (performs : Performs program routine (.ok value, middle)) :
    Performs (discard program) routine (.ok (), middle) :=
  performs.map _

/-- A body that stores a routine has the accounts of its handles in order. -/
theorem performs_of_accounted {result : Except Failure α × Routine}
    (performs : routine.Accounted → Performs program routine result) :
    Performs program routine result :=
  fun body stores => performs stores.accounted body stores

theorem performs_ofExcept (outcome : Except Failure α) (routine : Routine) :
    Performs (ofExcept outcome) routine (outcome, routine) := by
  cases outcome with
  | ok value => exact performs_pure value routine
  | error failure => exact performs_throw failure routine

end Composition

/-! ## Single operations -/

section Operations

variable {routine : Routine} {front back : List Entry} {entry : Entry}

theorem performs_query {question : Store → Except Fault α}
    {answer : Except Fault α}
    (answered : ∀ store : Store, store.Keeps routine → routine.Accounted →
      question store = answer) :
    Performs (query question) routine (answer.mapError .fault, routine) :=
  fun body stores => ⟨body, by
    rw [query, answered body.store stores.keeps stores.accounted], stores⟩

theorem performs_head (routine : Routine) :
    Performs head routine
      (.ok (routine.entries.head?.map (·.handle)), routine) :=
  performs_query fun _ keeps accounted =>
    congrArg Except.ok (keeps.head?_eq accounted)

theorem performs_next (split : routine.entries = front ++ entry :: back) :
    Performs (next entry.handle) routine
      (.ok (back.head?.map (·.handle)), routine) :=
  performs_query fun _ keeps accounted => keeps.next_of_split accounted split

theorem performs_previous (split : routine.entries = front ++ entry :: back) :
    Performs (previous entry.handle) routine
      (.ok (front.getLast?.map (·.handle)), routine) :=
  performs_query fun _ keeps accounted =>
    keeps.previous_of_split accounted split

theorem performs_look (split : routine.entries = front ++ entry :: back)
    (view : Store.Node → α) {value : α}
    (seen : ∀ previous next,
      view ⟨entry.instr, entry.depth, previous, next⟩ = value) :
    Performs (look entry.handle view) routine (.ok value, routine) := by
  refine @performs_query _ _ _ (.ok value) fun store keeps accounted => ?_
  simp only [keeps.node?_of_split accounted split, seen]

theorem performs_instrAt (split : routine.entries = front ++ entry :: back) :
    Performs (instrAt entry.handle) routine (.ok entry.instr, routine) :=
  performs_look split _ fun _ _ => rfl

theorem performs_depthAt (split : routine.entries = front ++ entry :: back) :
    Performs (depthAt entry.handle) routine (.ok entry.depth, routine) :=
  performs_look split _ fun _ _ => rfl

theorem performs_instrAt_of_stale {handle : Handle}
    (missing : handle ∉ routine.handles) :
    Performs (instrAt handle) routine
      (.error (.fault (.staleHandle handle)), routine) := by
  rw [instrAt, look]
  refine @performs_query _ _ _ (.error (.staleHandle handle))
    fun store keeps accounted => ?_
  simp only [keeps.node?_of_not_mem accounted missing]

theorem performs_edit (change : Edit) (routine : Routine) :
    Performs (edit change) routine
      ((routine.perform change).1.mapError .fault,
        (routine.perform change).2) := by
  intro body stores
  obtain ⟨store, performed, keeps⟩ :=
    stores.keeps.perform stores.accounted change
  refine ⟨{ body with store }, by simp [edit, performed], keeps,
    stores.accounted.perform change, ?_, ?_, ?_⟩
  all_goals
    rcases stores.accounted.perform_cases change with
      ⟨name, -, refused⟩ | ⟨-, reply, left, done, -, edits⟩
  · rw [refused]
    exact stores.temporaries_eq
  · rw [done]
    exact stores.temporaries_eq.trans edits.temporaries_eq.symm
  · rw [refused]
    exact stores.lines_eq
  · rw [done]
    exact stores.lines_eq.trans edits.lines_eq.symm
  · rw [refused]
    exact stores.maxDepth_eq
  · rw [done]
    exact stores.maxDepth_eq.trans edits.maxDepth_eq.symm

theorem performs_edit_of_ok {change : Edit} {reply : Reply} {left : Routine}
    (edited : routine.edit change = .ok (reply, left)) :
    Performs (edit change) routine (.ok reply, left) := by
  have performs := performs_edit change routine
  rwa [Routine.perform, edited] at performs

/-- Where handles are distinct, an entry is located by its handle. -/
theorem locate_of_split (accounted : routine.Accounted)
    (split : routine.entries = front ++ entry :: back) :
    routine.locate entry.handle = .ok (front, entry, back) := by
  have distinct := accounted.nodup_handles
  rw [Routine.handles, split] at distinct
  rw [Routine.locate_eq_ok_iff, split]
  exact Routine.splitAt?_middle distinct

theorem performs_replace (split : routine.entries = front ++ entry :: back)
    (instr : Instr) :
    Performs (replace entry.handle instr) routine
      (.ok (), { routine with
        entries := front ++ { entry with instr } :: back }) :=
  performs_of_accounted fun accounted =>
    (performs_edit_of_ok
      (Routine.edit_replace (locate_of_split accounted split) instr)).discard

theorem performs_erase (split : routine.entries = front ++ entry :: back) :
    Performs (erase entry.handle) routine
      (.ok ((front.getLast?.or back.head?).map (·.handle)),
        { routine with
          entries := front ++ back
          pool := routine.pool.retire entry.handle }) :=
  performs_of_accounted fun accounted =>
    (performs_edit_of_ok
      (Routine.edit_erase (locate_of_split accounted split))).bind
        (performs_pure _ _)

theorem performs_moveBefore {before after : List Entry} {target : Entry}
    (split : routine.entries = before ++ entry :: after)
    (rest : before ++ after = front ++ target :: back) :
    Performs (moveBefore entry.handle target.handle) routine
      (.ok (), { routine with
        entries := front ++ entry :: target :: back }) := by
  refine performs_of_accounted fun accounted => ?_
  have distinct := accounted.nodup_handles
  have reordered := (@perm_of_move before after front back entry target
    rest).map (·.handle)
  rw [Routine.handles, split, ← reordered.nodup_iff, List.map_append,
    List.map_cons, List.nodup_append, List.nodup_cons] at distinct
  obtain ⟨-, ⟨apart, restDistinct⟩, disjoint⟩ := distinct
  have found : Routine.splitAt? target.handle (before ++ after) =
      some (front, target, back) := by
    rw [rest, Routine.splitAt?_eq_some_iff]
    refine ⟨rfl, rfl, fun other member => ?_⟩
    exact disjoint _ (List.mem_map_of_mem member) _ (by simp)
  exact (performs_edit_of_ok (Routine.edit_moveBefore
    (fun same => apart (by simp [same]))
    (locate_of_split accounted split) found)).discard

theorem performs_setDepth (split : routine.entries = front ++ entry :: back)
    (depth : Int) :
    Performs (setDepth entry.handle depth) routine
      (.ok (), { routine with
        entries := front ++ { entry with depth := some depth } :: back }) := by
  intro body stores
  have accounted := stores.accounted
  have distinct := accounted.accounts.nodup
  have whole := stores.keeps.whole
  rw [split] at distinct whole
  obtain ⟨store, modified, left, relinked⟩ :=
    whole.modifyNode distinct (fun node => { node with depth := some depth })
      entry.instr (some depth) fun _ _ => rfl
  refine ⟨{ body with store }, ?_,
    stores.keeps.relinked accounted left (split ▸ relinked) (by simp [split]),
    ?_, stores.temporaries_eq, stores.lines_eq, stores.maxDepth_eq⟩
  · rw [setDepth, stores.keeps.node?_of_split accounted split]
    simp [modified]
  · apply accounted.of_perm_handles
    simp [Routine.handles, split]

theorem performs_clearDepths (routine : Routine) :
    Performs clearDepths routine (.ok (), routine.clearDepths) := by
  intro body stores
  refine ⟨_, rfl, stores.keeps.clearDepths, ?_, stores.temporaries_eq,
    stores.lines_eq, stores.maxDepth_eq⟩
  apply stores.accounted.of_perm_handles
  simp [Routine.handles, Function.comp_def]

theorem performs_isTemporary (slot : Slot) (routine : Routine) :
    Performs (isTemporary slot) routine
      (.ok (routine.temporaries.contains slot), routine) :=
  performs_get fun body stores => by
    rw [stores.temporaries_eq]
    exact performs_pure _ _

theorem performs_markTemporaries (slots : List Slot) (routine : Routine) :
    Performs (markTemporaries slots) routine (.ok (), { routine with
      temporaries := routine.temporaries.insertAll slots }) := by
  rintro body ⟨⟨whole, generations, vacant, vacated, length⟩, accounted,
    temporaries, lines, maxDepth⟩
  exact ⟨_, rfl, ⟨whole, generations, vacant, vacated, length⟩,
    ⟨accounted.accounts, accounted.current⟩,
    congrArg (·.insertAll slots) temporaries, lines, maxDepth⟩

theorem performs_setLines (lines : LineTable) (routine : Routine) :
    Performs (setLines lines) routine (.ok (), { routine with lines }) := by
  rintro body ⟨⟨whole, generations, vacant, vacated, length⟩, accounted,
    temporaries, -, maxDepth⟩
  exact ⟨_, rfl, ⟨whole, generations, vacant, vacated, length⟩,
    ⟨accounted.accounts, accounted.current⟩, temporaries, rfl, maxDepth⟩

theorem performs_recordLine {position : Nat} {source : SourcePos}
    {lines : LineTable}
    (recorded : routine.lines.record position source = .ok lines) :
    Performs (recordLine position source) routine
      (.ok (), { routine with lines }) := by
  refine performs_get fun body stores => ?_
  rw [stores.lines_eq, recorded]
  exact (performs_pure _ _).bind (performs_setLines lines routine)

theorem performs_recordLine_of_error {position : Nat} {source : SourcePos}
    {fault : Fault}
    (refused : routine.lines.record position source = .error fault) :
    Performs (recordLine position source) routine
      (.error (.fault fault), routine) := by
  refine performs_get fun body stores => ?_
  rw [stores.lines_eq, refused]
  exact (performs_throw _ _).bind_error

theorem performs_setMaxDepth (maxDepth : Nat) (routine : Routine) :
    Performs (setMaxDepth maxDepth) routine
      (.ok (), { routine with maxDepth }) := by
  rintro body ⟨⟨whole, generations, vacant, vacated, length⟩, accounted,
    temporaries, lines, -⟩
  exact ⟨_, rfl, ⟨whole, generations, vacant, vacated, length⟩,
    ⟨accounted.accounts, accounted.current⟩, temporaries, lines, rfl⟩

theorem performs_advance {position size : Nat}
    (fits : position + size < positionLimit) (routine : Routine) :
    Performs (advance position size) routine
      (.ok (position + size), routine) := by
  rw [advance, wordPosition, if_pos fits]
  exact performs_ofExcept (.ok (position + size)) routine

theorem performs_advance_of_overflow {position size : Nat}
    (tooFar : positionLimit ≤ position + size) (routine : Routine) :
    Performs (advance position size) routine
      (.error (.fault .overflow), routine) := by
  rw [advance, wordPosition, if_neg (Nat.not_lt.mpr tooFar)]
  exact performs_ofExcept (.error (.fault .overflow)) routine

end Operations

/-! ## Runs along the links -/

section Listing

variable {routine : Routine} {front back : List Entry}

/-- What is listed of entries. -/
def rows (entries : List Entry) : List (Handle × Instr) :=
  entries.map fun entry => (entry.handle, entry.instr)

theorem performs_listFrom (split : routine.entries = front ++ back) :
    Performs (Link.listFrom (back.head?.map (·.handle))) routine
      (.ok (rows back), routine) := by
  induction back generalizing front with
  | nil =>
      rw [List.head?_nil, Option.map_none, Link.listFrom]
      exact performs_pure _ _
  | cons entry back ih =>
      rw [List.head?_cons, Option.map_some, Link.listFrom]
      refine (performs_instrAt split).bind ((performs_next split).bind ?_)
      rw [List.append_cons] at split
      exact (ih split).bind (performs_pure _ _)

theorem performs_listing (routine : Routine) :
    Performs listing routine (.ok (rows routine.entries), routine) :=
  (performs_head routine).bind (performs_listFrom (List.nil_append _).symm)

theorem performs_surveyAll (split : routine.entries = front ++ back) :
    Performs (surveyAll (rows back)) routine
      (.ok (back.map fun entry => (entry.instr, entry.depth)), routine) := by
  induction back generalizing front with
  | nil => exact performs_pure _ _
  | cons entry back ih =>
      apply (performs_depthAt split).bind
      rw [List.append_cons] at split
      exact (ih split).bind (performs_pure _ _)

end Listing

end Program

namespace Body.Stores

variable {body : Body} {routine : Routine} (stores : body.Stores routine)

include stores

theorem contents?_eq : body.contents? = some
    (routine.entries.map fun entry => (entry.instr, entry.depth)) := by
  obtain ⟨left, read, -⟩ := ((Program.performs_listing routine).bind
    (Program.performs_surveyAll (List.nil_append _).symm)) body stores
  rw [contents?, read]

theorem code?_eq : body.code? = some routine.instrs := by
  rw [code?, stores.contents?_eq]
  simp [Routine.instrs, Function.comp_def]

end Body.Stores

end StackAssembler
