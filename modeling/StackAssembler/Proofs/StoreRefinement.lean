import StackAssembler.Proofs.LinkedStore
import Mathlib.Data.List.Induction
import Mathlib.Data.Nat.Basic

/-!
# Linked storage refines the sequence of entries

A linked store and the plain sequence of a routine's entries go in step.  From
an empty store and a new routine, every run of edits gets the same answers from
both, with the same handles refused.  No link ever leads to a vacant place, and
the links of the store spell the sequence in both directions.
-/

namespace StackAssembler

namespace Store

/-! ## A store and a routine in step -/

/-- A store keeps the entries of a routine in the places of its pool. -/
structure Keeps (store : Store) (routine : Routine) : Prop where
  whole : store.Whole routine.entries
  generation_eq : ∀ index,
    store.generationAt? index = routine.pool.generations[index]?
  vacant_eq : store.vacant = routine.pool.vacant
  vacated : ∀ index ∈ routine.pool.vacant, store.nodeAt? index = none
  length_eq : store.length = routine.entries.length

theorem keeps_new : Keeps {} {} where
  whole := ⟨trivial, rfl, rfl⟩
  generation_eq _ := rfl
  vacant_eq := rfl
  vacated := by simp
  length_eq := rfl

/-- A place has been taken for an instruction, as a handle is issued. -/
structure Took (store : Store) (instr : Instr) (handle : Handle)
    (pool : HandlePool) (left : Store) : Prop where
  node_eq : left.nodeAt? handle.index = some ⟨instr, none, none, none⟩
  other_eq : ∀ index, index ≠ handle.index →
    left.nodeAt? index = store.nodeAt? index
  generation_eq : ∀ index,
    left.generationAt? index = pool.generations[index]?
  vacant_eq : left.vacant = pool.vacant
  vacant_subset : pool.vacant ⊆ store.vacant
  head_eq : left.head = store.head
  tail_eq : left.tail = store.tail
  length_eq : left.length = store.length

section Vacate

variable (store : Store) (index : Nat)

theorem nodeAt?_vacate_self : (store.vacate index).nodeAt? index = none := by
  simp [vacate, nodeAt?, Array.getElem?_modify]

variable {index} in
theorem nodeAt?_vacate_of_ne {place : Nat} (apart : place ≠ index) :
    (store.vacate index).nodeAt? place = store.nodeAt? place := by
  simp [vacate, nodeAt?, Array.getElem?_modify, apart.symm]

theorem generationAt?_vacate (place : Nat) :
    (store.vacate index).generationAt? place =
      if index = place then (store.generationAt? place).map (· + 1)
      else store.generationAt? place := by
  by_cases same : index = place
  · simp [vacate, generationAt?, Array.getElem?_modify, same,
      Function.comp_def]
  · simp [vacate, generationAt?, Array.getElem?_modify, same]

end Vacate

section Keeps

variable {store : Store} {routine : Routine}

theorem Keeps.size_eq (keeps : store.Keeps routine) :
    store.cells.size = routine.pool.generations.size := by
  have same : ∀ index, index < store.cells.size ↔
      index < routine.pool.generations.size := by
    intro index
    rw [← not_iff_not, not_lt, not_lt, ← Array.getElem?_eq_none_iff,
      ← Array.getElem?_eq_none_iff, ← keeps.generation_eq, generationAt?,
      Option.map_eq_none_iff]
  have less := same store.cells.size
  have more := same routine.pool.generations.size
  omega

theorem Keeps.allocate (keeps : store.Keeps routine)
    (accounted : routine.Accounted) {handle : Handle} {pool : HandlePool}
    (issued : routine.pool.issue = (handle, pool)) (instr : Instr) :
    ∃ left, store.allocate instr = (handle.index, left) ∧
      Took store instr handle pool left := by
  have size_eq := keeps.size_eq
  have generation_eq := keeps.generation_eq
  have vacant_eq := keeps.vacant_eq
  cases vacant : routine.pool.vacant with
  | nil =>
      rw [HandlePool.issue, vacant] at issued
      obtain ⟨rfl, rfl⟩ := Prod.mk.inj issued
      rw [vacant] at vacant_eq
      have allocated : store.allocate instr = (store.cells.size,
          { store with
            cells := store.cells.push
              ⟨0, some ⟨instr, none, none, none⟩⟩ }) := by
        rw [Store.allocate, vacant_eq]
      rw [size_eq] at allocated
      refine ⟨_, allocated, ?_, ?_, ?_, ?_, ?_, rfl, rfl, rfl⟩
      · simp [nodeAt?, ← size_eq]
      · intro index apart
        simp [nodeAt?, Array.getElem?_push, size_eq, apart]
      · intro index
        have same := generation_eq index
        by_cases last : index = routine.pool.generations.size
        · simp only [generationAt?, Array.getElem?_push, size_eq, last, if_true,
            Option.map_some]
        · simpa [generationAt?, Array.getElem?_push, size_eq, last] using same
      · exact vacant_eq
      · exact List.nil_subset _
  | cons index rest =>
      rw [HandlePool.issue, vacant] at issued
      obtain ⟨rfl, rfl⟩ := Prod.mk.inj issued
      rw [vacant] at vacant_eq
      have inside : index < store.cells.size := by
        rw [size_eq, ← accounted.accounts.mem_or_vacant_iff, vacant]
        exact .inr List.mem_cons_self
      have allocated : store.allocate instr = (index,
          { store.putNode index ⟨instr, none, none, none⟩ with
            vacant := rest }) := by
        rw [Store.allocate, vacant_eq]
      refine ⟨_, allocated, nodeAt?_putNode_self inside _,
        fun place apart => nodeAt?_putNode_of_ne apart _,
        fun place => (generationAt?_putNode ..).trans (generation_eq place),
        rfl, ?_, rfl, rfl, rfl⟩
      rw [vacant_eq]
      exact List.subset_cons_self index rest

theorem Keeps.handleAt? (keeps : store.Keeps routine)
    (accounted : routine.Accounted) {found : Option Entry}
    (known : ∀ entry ∈ found, entry ∈ routine.entries) :
    store.handleAt? (found.map (·.handle.index)) =
      found.map (·.handle) := by
  cases found with
  | none => rfl
  | some entry =>
      have current := accounted.current entry (known entry rfl)
      rw [← keeps.generation_eq] at current
      simp [Store.handleAt?, current]

theorem Keeps.insert (keeps : store.Keeps routine)
    (accounted : routine.Accounted) {handle : Handle} {pool : HandlePool}
    (issued : routine.pool.issue = (handle, pool)) (instr : Instr)
    {front back : List Entry} (split : routine.entries = front ++ back) :
    ∃ left, store.insert instr (firstPlace back) = some (handle, left) ∧
      left.Keeps { routine with
        entries := front ++ ⟨handle, instr, none⟩ :: back, pool } := by
  obtain ⟨middle, allocated, took⟩ := keeps.allocate accounted issued instr
  obtain ⟨fresh, accountedLeft⟩ := accounted.insert issued instr split
  have distinct := accountedLeft.accounts.nodup
  have current := accountedLeft.current ⟨handle, instr, none⟩ (by simp)
  have middleWhole : middle.Whole (front ++ back) := by
    have whole := keeps.whole
    refine ⟨?_, took.head_eq.trans ?_, took.tail_eq.trans ?_⟩
    · rw [← split]
      refine whole.linked.congr fun index member => ?_
      exact took.other_eq index (ne_of_mem_of_not_mem member fresh)
    · rw [whole.head_eq, split]
    · rw [whole.tail_eq, split]
  obtain ⟨left, linked, leftWhole, relinked⟩ :=
    middleWhole.linkBefore distinct took.node_eq rfl rfl
  have generation_eq : ∀ index,
      left.generationAt? index = pool.generations[index]? := fun index =>
    (relinked.generation_eq index).trans (took.generation_eq index)
  refine ⟨left, ?_, leftWhole, generation_eq,
    relinked.vacant_eq.trans took.vacant_eq, ?_, ?_⟩
  · rw [Store.insert, allocated]
    simp [linked, Store.handleAt?, generation_eq, current]
  · intro index member
    have outside : index ∉ placesOf (front ++ ⟨handle, instr, none⟩ :: back) :=
      fun taken => accountedLeft.accounts.not_mem_vacant taken member
    have apart : index ≠ handle.index := by
      rintro rfl
      exact outside (by simp)
    rw [relinked.node_eq index outside]
    refine (took.other_eq index apart).trans (keeps.vacated index ?_)
    exact keeps.vacant_eq ▸ took.vacant_subset member
  · rw [relinked.length_eq]
    change middle.length + 1 = _
    rw [took.length_eq, keeps.length_eq, split]
    simp only [List.length_append, List.length_cons]
    omega

theorem Keeps.remove (keeps : store.Keeps routine)
    (accounted : routine.Accounted) {front back : List Entry} {entry : Entry}
    (split : routine.entries = front ++ entry :: back) :
    ∃ left, store.remove entry.handle.index =
        some ((front.getLast?.or back.head?).map (·.handle), left) ∧
      left.Keeps { routine with
        entries := front ++ back
        pool := routine.pool.retire entry.handle } := by
  have distinct := accounted.accounts.nodup
  rw [split] at distinct
  obtain ⟨outside, -⟩ := not_mem_rest distinct
  obtain ⟨middle, unlinked, middleWhole, relinked⟩ :=
    (split ▸ keeps.whole).unlink distinct
  have left : (middle.vacate entry.handle.index).Keeps { routine with
      entries := front ++ back
      pool := routine.pool.retire entry.handle } := by
    refine ⟨⟨?_, middleWhole.head_eq, middleWhole.tail_eq⟩, ?_, ?_, ?_, ?_⟩
    · refine middleWhole.linked.congr fun index member => ?_
      exact nodeAt?_vacate_of_ne middle (ne_of_mem_of_not_mem member outside)
    · intro index
      have same := (relinked.generation_eq index).trans
        (keeps.generation_eq index)
      rw [generationAt?_vacate, same, HandlePool.retire, Array.getElem?_modify]
    · exact congrArg _ (relinked.vacant_eq.trans keeps.vacant_eq)
    · intro index member
      by_cases same : index = entry.handle.index
      · rw [same]
        exact nodeAt?_vacate_self middle _
      · have old : index ∈ routine.pool.vacant :=
          (List.mem_cons.mp member).resolve_left same
        have apart : index ∉ placesOf (front ++ back) := by
          intro taken
          refine accounted.accounts.not_mem_vacant ?_ old
          rw [split]
          exact placesOf_subset_middle front entry back taken
        rw [nodeAt?_vacate_of_ne middle same, relinked.node_eq index apart]
        exact keeps.vacated index old
    · change middle.length = _
      rw [relinked.length_eq]
      change store.length - 1 = _
      rw [keeps.length_eq, split]
      simp only [List.length_append, List.length_cons]
      omega
  refine ⟨_, ?_, left⟩
  have answer := left.handleAt? (accounted.delete split)
    (show ∀ found ∈ front.getLast?.or back.head?, found ∈ front ++ back by
      intro found member
      rcases Option.or_eq_some_iff.mp member with last | ⟨-, first⟩
      · exact List.mem_append_left _ (List.mem_of_getLast? last)
      · exact List.mem_append_right _ (List.mem_of_head? first))
  rw [Option.map_or] at answer
  rw [Store.remove, unlinked]
  exact congrArg (fun handle? => some (handle?, _)) answer

theorem Keeps.move (keeps : store.Keeps routine)
    (accounted : routine.Accounted) {before after front back : List Entry}
    {entry target : Entry}
    (split : routine.entries = before ++ entry :: after)
    (rest : before ++ after = front ++ target :: back) :
    ∃ middle left,
      store.unlink entry.handle.index =
        some ((lastPlace before, firstPlace after), middle) ∧
      middle.linkBefore entry.handle.index (some target.handle.index) =
        some left ∧
      left.Keeps { routine with
        entries := front ++ entry :: target :: back } := by
  have accountedLeft := accounted.move split rest
  have distinct := accounted.accounts.nodup
  have whole := keeps.whole
  rw [split] at distinct whole
  obtain ⟨outside, -⟩ := not_mem_rest distinct
  obtain ⟨-, node⟩ := whole_middle_iff.mp whole
  obtain ⟨middle, unlinked, middleWhole, middleRelinked⟩ :=
    whole.unlink distinct
  rw [rest] at middleWhole
  have kept := (middleRelinked.node_eq _ outside).trans node
  obtain ⟨left, linked, leftWhole, leftRelinked⟩ :=
    middleWhole.linkBefore accountedLeft.accounts.nodup kept rfl rfl
  refine ⟨middle, left, unlinked, linked, leftWhole, ?_, ?_, ?_, ?_⟩
  · intro index
    exact (leftRelinked.generation_eq index).trans
      ((middleRelinked.generation_eq index).trans (keeps.generation_eq index))
  · exact leftRelinked.vacant_eq.trans
      (middleRelinked.vacant_eq.trans keeps.vacant_eq)
  · intro index member
    have apart : index ∉ placesOf (front ++ entry :: target :: back) :=
      fun taken => accountedLeft.accounts.not_mem_vacant taken member
    have apartMiddle : index ∉ placesOf (before ++ after) := by
      rw [rest]
      intro taken
      exact apart (placesOf_subset_middle front entry (target :: back) taken)
    exact (leftRelinked.node_eq index apart).trans
      ((middleRelinked.node_eq index apartMiddle).trans
        (keeps.vacated index member))
  · have lengths := congrArg List.length rest
    rw [leftRelinked.length_eq]
    change middle.length + 1 = _
    rw [middleRelinked.length_eq]
    change store.length - 1 + 1 = _
    rw [keeps.length_eq, split]
    simp only [List.length_append, List.length_cons] at lengths ⊢
    omega

theorem Keeps.relinked {left : Store} {entries : List Entry}
    (keeps : store.Keeps routine) (accounted : routine.Accounted)
    (whole : left.Whole entries)
    (relinked : Relinked store left (placesOf routine.entries))
    (sameLength : entries.length = routine.entries.length) :
    left.Keeps { routine with entries } where
  whole := whole
  generation_eq index :=
    (relinked.generation_eq index).trans (keeps.generation_eq index)
  vacant_eq := relinked.vacant_eq.trans keeps.vacant_eq
  vacated index member :=
    (relinked.node_eq index fun taken =>
        accounted.accounts.not_mem_vacant taken member).trans
      (keeps.vacated index member)
  length_eq :=
    relinked.length_eq.trans (keeps.length_eq.trans sameLength.symm)

theorem Keeps.node?_of_split (keeps : store.Keeps routine)
    (accounted : routine.Accounted) {front back : List Entry} {entry : Entry}
    (split : routine.entries = front ++ entry :: back) :
    store.node? entry.handle =
      some ⟨entry.instr, entry.depth, lastPlace front, firstPlace back⟩ := by
  have current := accounted.current entry (by simp [split])
  rw [Store.node?, keeps.generation_eq, if_pos current]
  exact (whole_middle_iff.mp (split ▸ keeps.whole)).2

theorem Keeps.mem_places_of_nodeAt? (keeps : store.Keeps routine)
    (accounted : routine.Accounted) {index : Nat} {node : Node}
    (found : store.nodeAt? index = some node) :
    index ∈ placesOf routine.entries := by
  have inside := lt_size_of_nodeAt? found
  rw [keeps.size_eq, ← accounted.accounts.mem_or_vacant_iff] at inside
  refine inside.resolve_right fun vacant => ?_
  rw [keeps.vacated index vacant] at found
  cases found

theorem Keeps.node?_of_not_mem (keeps : store.Keeps routine)
    (accounted : routine.Accounted) {handle : Handle}
    (missing : handle ∉ routine.handles) : store.node? handle = none := by
  rw [Store.node?, keeps.generation_eq]
  split
  · rename_i generation
    cases found : store.nodeAt? handle.index with
    | none => rfl
    | some node =>
        -- The entry in this place has the same generation, so it is named.
        have taken := keeps.mem_places_of_nodeAt? accounted found
        obtain ⟨entry, member, place⟩ := List.mem_map.mp taken
        have current := accounted.current entry member
        rw [place, generation] at current
        have same : entry.handle = handle := by
          obtain ⟨⟨index, own⟩, instr, depth⟩ := entry
          obtain rfl : index = handle.index := place
          obtain rfl : handle.generation = own := Option.some.inj current
          rfl
        exact absurd (same ▸ List.mem_map_of_mem member) missing
  · rfl

theorem Keeps.isNone_node? (keeps : store.Keeps routine)
    (accounted : routine.Accounted) (handle : Handle) :
    (store.node? handle).isNone = decide (handle ∉ routine.handles) := by
  by_cases known : handle ∈ routine.handles
  · obtain ⟨front, entry, back, split, rfl, -⟩ := Routine.exists_locate known
    simp [keeps.node?_of_split accounted split, known]
  · simp [keeps.node?_of_not_mem accounted known, known]

/-- Both look up the handles of an edit with the same outcome. -/
theorem Keeps.find?_stale (keeps : store.Keeps routine)
    (accounted : routine.Accounted) (edit : Edit) :
    (edit.names.find? fun name => (store.node? name).isNone) =
      edit.names.find? (· ∉ routine.handles) := by
  congr 1
  funext name
  exact keeps.isNone_node? accounted name

/-- An edit whose handles are known is made in the store as in the routine. -/
theorem Keeps.edit (keeps : store.Keeps routine)
    (accounted : routine.Accounted) {edit : Edit}
    (known : ∀ name ∈ edit.names, name ∈ routine.handles) :
    ∃ reply left kept, routine.edit edit = .ok (reply, left) ∧
      store.edit edit = some (reply, kept) ∧ kept.Keeps left := by
  cases edit with
  | push instr =>
      rcases issued : routine.pool.issue with ⟨handle, pool⟩
      obtain ⟨kept, inserted, left⟩ :=
        keeps.insert accounted issued instr (List.append_nil _).symm
      refine ⟨_, _, kept, Routine.edit_push issued instr, ?_, left⟩
      rw [firstPlace_nil] at inserted
      simp [Store.edit, inserted]
  | pushFront instr =>
      rcases issued : routine.pool.issue with ⟨handle, pool⟩
      obtain ⟨kept, inserted, left⟩ :=
        keeps.insert accounted issued instr (List.nil_append _).symm
      refine ⟨_, _, kept, Routine.edit_pushFront issued instr, ?_, left⟩
      simp [Store.edit, keeps.whole.head_eq, inserted]
  | insertBefore place instr =>
      rcases issued : routine.pool.issue with ⟨handle, pool⟩
      obtain ⟨front, entry, back, split, rfl, located⟩ :=
        Routine.exists_locate (known place (by simp [Edit.names]))
      obtain ⟨kept, inserted, left⟩ :=
        keeps.insert accounted issued instr split
      refine ⟨_, _, kept, Routine.edit_insertBefore located issued instr, ?_,
        left⟩
      rw [firstPlace_cons] at inserted
      simp [Store.edit, inserted]
  | moveBefore handle place =>
      by_cases same : handle = place
      · subst same
        exact ⟨_, _, store, Routine.edit_moveBefore_self, by simp [Store.edit],
          keeps⟩
      · rw [Edit.names, if_neg same] at known
        obtain ⟨before, entry, after, split, rfl, located⟩ :=
          Routine.exists_locate (known handle (by simp))
        obtain ⟨front, target, back, rest, rfl, found⟩ :=
          Routine.exists_split_rest split same (known place (by simp))
        obtain ⟨middle, kept, unlinked, linked, left⟩ :=
          keeps.move accounted split rest
        refine ⟨_, _, kept, Routine.edit_moveBefore same located found, ?_,
          left⟩
        simp [Store.edit, same, unlinked, linked]
  | erase handle =>
      obtain ⟨front, entry, back, split, rfl, located⟩ :=
        Routine.exists_locate (known handle (by simp [Edit.names]))
      obtain ⟨kept, removed, left⟩ := keeps.remove accounted split
      refine ⟨_, _, kept, Routine.edit_erase located, ?_, left⟩
      simp [Store.edit, removed]
  | popLast =>
      have tail_eq := keeps.whole.tail_eq
      rcases List.eq_nil_or_concat' routine.entries with
        empty | ⟨front, entry, split⟩
      · refine ⟨_, _, store, Routine.edit_popLast_of_nil empty, ?_, keeps⟩
        rw [empty] at tail_eq
        simp [Store.edit, tail_eq]
      · obtain ⟨kept, removed, left⟩ := keeps.remove accounted split
        obtain ⟨-, node⟩ := whole_middle_iff.mp (split ▸ keeps.whole)
        rw [List.append_nil] at left
        refine ⟨_, _, kept, Routine.edit_popLast split, ?_, left⟩
        rw [split] at tail_eq
        simp [Store.edit, tail_eq, node, removed]
  | replace handle instr =>
      obtain ⟨front, entry, back, split, rfl, located⟩ :=
        Routine.exists_locate (known handle (by simp [Edit.names]))
      have distinct := accounted.accounts.nodup
      have whole := keeps.whole
      rw [split] at distinct whole
      obtain ⟨-, node⟩ := whole_middle_iff.mp whole
      obtain ⟨kept, modified, changed, relinked⟩ :=
        whole.modifyNode distinct (fun node => { node with instr }) instr
          entry.depth fun _ _ => rfl
      refine ⟨_, _, kept, Routine.edit_replace located instr, ?_,
        keeps.relinked accounted changed (split ▸ relinked) (by simp [split])⟩
      simp [Store.edit, node, modified]
  | exchangeSlot old new =>
      have whole : store.Whole ([] ++ routine.entries) := keeps.whole
      obtain ⟨kept, changed, left, relinked⟩ :=
        whole.changeFrom
          (Instr.renameSlots fun slot => if slot = old then new else slot)
          accounted.accounts.nodup (Nat.le_of_eq keeps.length_eq.symm)
      refine ⟨_, _, kept, rfl, ?_,
        keeps.relinked accounted left relinked (by simp)⟩
      simp [Store.edit, keeps.whole.head_eq, changed]

/-- Every edit gets the same answer from the store and from the routine. -/
theorem Keeps.perform (keeps : store.Keeps routine)
    (accounted : routine.Accounted) (edit : Edit) :
    ∃ kept, store.perform edit = some ((routine.perform edit).1, kept) ∧
      kept.Keeps (routine.perform edit).2 := by
  have stale := keeps.find?_stale accounted edit
  rcases accounted.perform_cases edit with
    ⟨name, found, refused⟩ | ⟨known, reply, left, done, edited, -⟩
  · refine ⟨store, ?_, by rw [refused]; exact keeps⟩
    rw [Store.perform, stale, found, refused]
  · have none : edit.names.find? (· ∉ routine.handles) = none := by
      simpa using known
    obtain ⟨answer, result, kept, made, stored, leftKeeps⟩ :=
      keeps.edit accounted known
    obtain ⟨rfl, rfl⟩ := Prod.mk.inj (Except.ok.inj (made.symm.trans edited))
    refine ⟨kept, ?_, by rw [done]; exact leftKeeps⟩
    rw [Store.perform, stale, none, stored, done]
    rfl

theorem Keeps.performAll (keeps : store.Keeps routine)
    (accounted : routine.Accounted) (edits : List Edit) :
    (routine.performAll edits).2.Accounted ∧
      ∃ kept,
        store.performAll edits = some ((routine.performAll edits).1, kept) ∧
        kept.Keeps (routine.performAll edits).2 := by
  induction edits generalizing store routine with
  | nil => exact ⟨accounted, store, rfl, keeps⟩
  | cons edit edits ih =>
      obtain ⟨middle, performed, middleKeeps⟩ := keeps.perform accounted edit
      obtain ⟨left, kept, rest, leftKeeps⟩ :=
        ih middleKeeps (accounted.perform edit)
      refine ⟨left, kept, ?_, leftKeeps⟩
      rw [Store.performAll, performed]
      simp [rest, Routine.performAll]

end Keeps

/-! ## What a store represents -/

/-- Steps lead from a start along handles to the end. -/
def Trail (step : Handle → Except Fault (Option Handle)) :
    Option Handle → List Handle → Prop
  | start, [] => start = none
  | start, handle :: handles =>
      start = some handle ∧
        ∃ next, step handle = .ok next ∧ Trail step next handles

/-- A store represents a sequence of entries with distinct handles.  Its links
lead along the sequence in both directions, every occupied place belongs to it
once, every vacant place is listed once, and its handles are all that have an
instruction. -/
structure Represents (store : Store) (entries : List Entry) : Prop where
  distinct : (entries.map (·.handle)).Nodup
  forward : Trail store.next store.head? (entries.map (·.handle))
  backward : Trail store.previous store.last? (entries.map (·.handle)).reverse
  length_eq : store.length = entries.length
  count_places : ∀ index, (placesOf entries).count index =
    if (store.nodeAt? index).isSome then 1 else 0
  count_vacant : ∀ index, store.vacant.count index =
    if index < store.cells.size ∧ (store.nodeAt? index).isNone then 1 else 0
  instr?_eq_some_iff : ∀ handle instr, store.instr? handle = some instr ↔
    ∃ entry ∈ entries, entry.handle = handle ∧ entry.instr = instr

/-- A store answers questions as a routine does. -/
structure Agrees (store : Store) (routine : Routine) : Prop where
  head?_eq : store.head? = routine.head?
  last?_eq : store.last? = routine.last?
  next_eq : ∀ handle, store.next handle = routine.next handle
  previous_eq : ∀ handle, store.previous handle = routine.previous handle
  instr?_eq : ∀ handle,
    store.instr? handle = (routine.instrAt handle).toOption

section Represents

variable {store : Store} {routine : Routine} (keeps : store.Keeps routine)
  (accounted : routine.Accounted)

include keeps accounted

theorem Keeps.next_of_split {front back : List Entry} {entry : Entry}
    (split : routine.entries = front ++ entry :: back) :
    store.next entry.handle = .ok (back.head?.map (·.handle)) := by
  rw [Store.next, keeps.node?_of_split accounted split]
  refine congrArg Except.ok (keeps.handleAt? accounted fun found member => ?_)
  rw [split]
  simp [List.mem_of_head? member]

theorem Keeps.previous_of_split {front back : List Entry} {entry : Entry}
    (split : routine.entries = front ++ entry :: back) :
    store.previous entry.handle = .ok (front.getLast?.map (·.handle)) := by
  rw [Store.previous, keeps.node?_of_split accounted split]
  refine congrArg Except.ok (keeps.handleAt? accounted fun found member => ?_)
  rw [split]
  simp [List.mem_of_getLast? member]

theorem Keeps.head?_eq :
    store.head? = routine.entries.head?.map (·.handle) := by
  rw [Store.head?, keeps.whole.head_eq]
  exact keeps.handleAt? accounted fun found member =>
    List.mem_of_head? member

theorem Keeps.last?_eq :
    store.last? = routine.entries.getLast?.map (·.handle) := by
  rw [Store.last?, keeps.whole.tail_eq]
  exact keeps.handleAt? accounted fun found member =>
    List.mem_of_getLast? member

theorem Keeps.agrees : store.Agrees routine where
  head?_eq := by
    rw [keeps.head?_eq accounted, Routine.head?, Routine.handles,
      List.head?_map]
  last?_eq := by
    rw [keeps.last?_eq accounted, Routine.last?, Routine.handles,
      List.getLast?_map]
  next_eq handle := by
    by_cases known : handle ∈ routine.handles
    · obtain ⟨front, entry, back, split, rfl, located⟩ :=
        Routine.exists_locate known
      rw [keeps.next_of_split accounted split, Routine.next, located]
      rfl
    · rw [Store.next, keeps.node?_of_not_mem accounted known, Routine.next,
        Routine.locate_of_not_mem known]
      rfl
  previous_eq handle := by
    by_cases known : handle ∈ routine.handles
    · obtain ⟨front, entry, back, split, rfl, located⟩ :=
        Routine.exists_locate known
      rw [keeps.previous_of_split accounted split, Routine.previous, located]
      rfl
    · rw [Store.previous, keeps.node?_of_not_mem accounted known,
        Routine.previous, Routine.locate_of_not_mem known]
      rfl
  instr?_eq handle := by
    by_cases known : handle ∈ routine.handles
    · obtain ⟨front, entry, back, split, rfl, located⟩ :=
        Routine.exists_locate known
      rw [Store.instr?, keeps.node?_of_split accounted split, Routine.instrAt,
        located]
      rfl
    · rw [Store.instr?, keeps.node?_of_not_mem accounted known,
        Routine.instrAt, Routine.locate_of_not_mem known]
      rfl

/-- From any point on, the links lead along the rest of the sequence. -/
theorem Keeps.trail_next {front back : List Entry}
    (split : routine.entries = front ++ back) :
    Trail store.next (back.head?.map (·.handle)) (back.map (·.handle)) := by
  induction back generalizing front with
  | nil => rfl
  | cons entry back ih =>
      refine ⟨rfl, _, keeps.next_of_split accounted split, ?_⟩
      rw [List.append_cons] at split
      exact ih split

/-- The links backwards, from any point on. -/
theorem Keeps.trail_previous {front back : List Entry}
    (split : routine.entries = front ++ back) :
    Trail store.previous (front.getLast?.map (·.handle))
      (front.map (·.handle)).reverse := by
  induction front using List.reverseRecOn generalizing back with
  | nil => rfl
  | append_singleton front entry ih =>
      rw [List.append_assoc, List.singleton_append] at split
      rw [List.map_append, List.reverse_append, List.getLast?_concat]
      refine ⟨rfl, _, keeps.previous_of_split accounted split, ?_⟩
      exact ih split

theorem Keeps.mem_places_iff {index : Nat} :
    index ∈ placesOf routine.entries ↔ (store.nodeAt? index).isSome := by
  rw [Option.isSome_iff_exists]
  constructor
  · intro taken
    obtain ⟨entry, member, rfl⟩ := List.mem_map.mp taken
    obtain ⟨front, back, split⟩ := List.append_of_mem member
    exact ⟨_, (whole_middle_iff.mp (split ▸ keeps.whole)).2⟩
  · rintro ⟨node, found⟩
    exact keeps.mem_places_of_nodeAt? accounted found

theorem Keeps.mem_vacant_iff {index : Nat} :
    index ∈ store.vacant ↔
      index < store.cells.size ∧ (store.nodeAt? index).isNone := by
  have all : index ∈ placesOf routine.entries ∨ index ∈ routine.pool.vacant ↔
      index < routine.pool.generations.size :=
    accounted.accounts.mem_or_vacant_iff
  rw [keeps.vacant_eq, keeps.size_eq, ← all, Option.isNone_iff_eq_none]
  constructor
  · intro vacant
    exact ⟨.inr vacant, keeps.vacated index vacant⟩
  · rintro ⟨taken | vacant, empty⟩
    · rw [keeps.mem_places_iff accounted, empty] at taken
      cases taken
    · exact vacant

theorem Keeps.represents : store.Represents routine.entries where
  distinct := accounted.nodup_handles
  forward := by
    rw [keeps.head?_eq accounted]
    exact keeps.trail_next accounted (List.nil_append _).symm
  backward := by
    rw [keeps.last?_eq accounted]
    exact keeps.trail_previous accounted (List.append_nil _).symm
  length_eq := keeps.length_eq
  count_places index := by
    rw [accounted.accounts.nodup.count]
    simp only [keeps.mem_places_iff accounted]
  count_vacant index := by
    have distinct := accounted.accounts.nodup_vacant
    rw [← keeps.vacant_eq] at distinct
    rw [distinct.count]
    simp only [keeps.mem_vacant_iff accounted]
  instr?_eq_some_iff handle instr := by
    constructor
    · intro answer
      obtain ⟨node, found, rfl⟩ := Option.map_eq_some_iff.mp answer
      have known : handle ∈ routine.handles := by
        by_contra missing
        rw [keeps.node?_of_not_mem accounted missing] at found
        cases found
      obtain ⟨front, entry, back, split, rfl, -⟩ := Routine.exists_locate known
      rw [keeps.node?_of_split accounted split] at found
      refine ⟨entry, by simp [split], rfl, ?_⟩
      rw [← Option.some.inj found]
    · rintro ⟨entry, member, rfl, rfl⟩
      obtain ⟨front, back, split⟩ := List.append_of_mem member
      rw [Store.instr?, keeps.node?_of_split accounted split]
      rfl

end Represents

/-- A place is taken again under its next generation, the old handle is refused,
and the new entry moves in front of its neighbour. -/
example : Routine.handles (Routine.performAll {}
    [.push (.ret 0), .push (.ret 1), .erase ⟨0, 0⟩, .push (.ret 2),
      .erase ⟨0, 0⟩, .moveBefore ⟨0, 1⟩ ⟨1, 0⟩]).2 = [⟨0, 1⟩, ⟨1, 0⟩] := by
  decide

end Store

end StackAssembler
