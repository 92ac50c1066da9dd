import StackAssembler.Liveness

/-!
# Label markers

A label names the place behind its marker.  This file relates the ways in which
the assembler looks for that place: the list of all marked labels, the index of
a marker, and the code from a marker on.  Where no label is marked twice, they
all speak of the same place.
-/

namespace StackAssembler

namespace Instr

theorem marks?_eq_some_iff {instr : Instr} {name : Label} :
    instr.marks? = some name ↔ instr = label name := by
  cases instr <;> simp [marks?]

theorem jumpLabel?_eq_some_iff {instr : Instr} {name : Label} :
    instr.jumpLabel? = some name ↔ instr.target? = some (.label name) := by
  unfold jumpLabel?
  rw [Option.bind_eq_some_iff]
  constructor
  · rintro ⟨target, aimed, named⟩
    cases target with
    | label other => rw [aimed, ← Option.some.inj named]
    | offset distance => simp [Target.label?] at named
  · intro aimed
    exact ⟨.label name, aimed, rfl⟩

end Instr

namespace Flow

theorem firstRepeat?_eq_none_iff {α : Type} [DecidableEq α]
    {seen items : List α} :
    firstRepeat? seen items = none ↔
      items.Nodup ∧ ∀ item ∈ items, item ∉ seen := by
  induction items generalizing seen with
  | nil => simp [firstRepeat?]
  | cons item items ih =>
      by_cases known : item ∈ seen
      · simp [firstRepeat?, known]
      · rw [firstRepeat?, if_neg known, ih]
        simp only [List.mem_cons, not_or, List.nodup_cons, forall_eq_or_imp,
          known, not_false_eq_true, true_and]
        constructor
        · rintro ⟨distinct, apart⟩
          exact ⟨⟨fun member => (apart item member).1 rfl, distinct⟩,
            fun other member => (apart other member).2⟩
        · rintro ⟨⟨fresh, distinct⟩, apart⟩
          exact ⟨distinct, fun other member =>
            ⟨fun equal => fresh (equal ▸ member), apart other member⟩⟩

/-- No label is reported as repeated exactly if every label marks at most one
place. -/
theorem repeatedLabel?_eq_none_iff {code : List Instr} :
    repeatedLabel? code = none ↔ (labels code).Nodup := by
  simp [repeatedLabel?, firstRepeat?_eq_none_iff]

@[simp]
theorem labels_nil : labels [] = [] := rfl

@[simp]
theorem labels_append (first second : List Instr) :
    labels (first ++ second) = labels first ++ labels second := by
  simp [labels]

theorem labels_cons (instr : Instr) (code : List Instr) :
    labels (instr :: code) = instr.marks?.toList ++ labels code := by
  cases marked : instr.marks? <;> simp [labels, marked]

theorem mem_labels_iff {code : List Instr} {name : Label} :
    name ∈ labels code ↔ Instr.label name ∈ code := by
  simp [labels, List.mem_filterMap, Instr.marks?_eq_some_iff]

theorem labels_sublist {first second : List Instr}
    (sublist : first.Sublist second) :
    (labels first).Sublist (labels second) :=
  sublist.filterMap _

theorem labelIndex?_eq_some_iff {code : List Instr} {name : Label}
    {index : Nat} :
    labelIndex? code name = some index ↔
      code[index]? = some (.label name) ∧
        ∀ earlier < index, code[earlier]? ≠ some (.label name) := by
  simp only [labelIndex?, List.findIdx?_eq_some_iff_getElem,
    decide_eq_true_eq, Instr.marks?_eq_some_iff]
  constructor
  · rintro ⟨inside, marked, first⟩
    refine ⟨List.getElem?_eq_some_iff.mpr ⟨inside, marked⟩, ?_⟩
    intro earlier before found
    obtain ⟨_, equal⟩ := List.getElem?_eq_some_iff.mp found
    exact first earlier before equal
  · rintro ⟨marked, first⟩
    obtain ⟨inside, equal⟩ := List.getElem?_eq_some_iff.mp marked
    exact ⟨inside, equal, fun earlier before found =>
      first earlier before (List.getElem?_eq_some_iff.mpr ⟨_, found⟩)⟩

theorem labelIndex?_isSome_iff {code : List Instr} {name : Label} :
    (labelIndex? code name).isSome ↔ name ∈ labels code := by
  rw [mem_labels_iff]
  simp [labelIndex?, List.findIdx?_isSome, Instr.marks?_eq_some_iff]

/-- A label that marks one place only has the index of any of its markers. -/
theorem labelIndex?_of_getElem? {code : List Instr} {name : Label}
    {index : Nat} (distinct : (labels code).Nodup)
    (marked : code[index]? = some (.label name)) :
    labelIndex? code name = some index := by
  rw [labelIndex?_eq_some_iff]
  refine ⟨marked, ?_⟩
  intro earlier before found
  obtain ⟨inside, atIndex⟩ := List.getElem?_eq_some_iff.mp marked
  have split : code =
      code.take index ++ .label name :: code.drop (index + 1) := by
    rw [← atIndex, List.getElem_cons_drop, List.take_append_drop]
  have inFront : Instr.label name ∈ code.take index :=
    List.mem_of_getElem? (by rwa [List.getElem?_take_of_lt before])
  rw [split, labels_append, labels_cons] at distinct
  simp only [Instr.marks?, Option.toList_some, List.singleton_append,
    List.nodup_append] at distinct
  exact distinct.2.2 name (mem_labels_iff.mpr inFront) name (by simp) rfl

def codeBehind? : List Instr → Label → Option (List Instr)
  | [], _ => none
  | instr :: rest, name =>
      if instr.marks? = some name then some rest else codeBehind? rest name

@[simp]
theorem codeBehind?_cons_of_unmarked {instr : Instr}
    (plain : instr.marks? = none) (rest : List Instr) (name : Label) :
    codeBehind? (instr :: rest) name = codeBehind? rest name := by
  simp [codeBehind?, plain]

/-- The code behind a marker starts where the code from the marker on does. -/
theorem codeAtLabel?_eq_map (code : List Instr) (name : Label) :
    Liveness.codeAtLabel? code name =
      (codeBehind? code name).map (Instr.label name :: ·) := by
  induction code with
  | nil => rfl
  | cons instr rest ih =>
      rw [codeBehind?]
      unfold Liveness.codeAtLabel? at ih ⊢
      by_cases marked : instr.marks? = some name
      · obtain rfl := Instr.marks?_eq_some_iff.mp marked
        simp [Instr.marks?]
      · simpa [marked, List.dropWhile_cons] using ih

theorem codeBehind?_eq_some_split {code rest : List Instr} {name : Label}
    (behind : codeBehind? code name = some rest) :
    ∃ front, code = front ++ .label name :: rest := by
  induction code with
  | nil => simp [codeBehind?] at behind
  | cons instr code ih =>
      unfold codeBehind? at behind
      split at behind
      · rename_i marked
        obtain rfl := Option.some.inj behind
        exact ⟨[], by rw [Instr.marks?_eq_some_iff.mp marked]; rfl⟩
      · obtain ⟨front, rfl⟩ := ih behind
        exact ⟨instr :: front, rfl⟩

/-- Behind a marker that no other marker repeats stands what follows it. -/
theorem codeBehind?_append_label {front rest : List Instr} {name : Label}
    (distinct : (labels (front ++ .label name :: rest)).Nodup) :
    codeBehind? (front ++ .label name :: rest) name = some rest := by
  induction front with
  | nil => simp [codeBehind?, Instr.marks?]
  | cons instr front ih =>
      rw [List.cons_append, labels_cons] at distinct
      have unmarked : instr.marks? ≠ some name := by
        intro marked
        rw [marked] at distinct
        simp [labels_cons, Instr.marks?] at distinct
      rw [List.cons_append, codeBehind?, if_neg unmarked]
      exact ih (List.nodup_append.mp distinct).2.1

end Flow

end StackAssembler
