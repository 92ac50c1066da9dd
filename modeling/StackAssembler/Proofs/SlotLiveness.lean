import StackAssembler.Proofs.ControlGraph

/-!
# What the search for reads finds out

The search for reads of a slot follows destinations until none is left.  If it
finds no read, the destinations that it met are its certificate: none of the
straight lines from them reads the slot before it is overwritten, and all jumps
on these lines go to destinations that were met.  From the certificate follows
what a single step of control may rely on.
-/

namespace StackAssembler

namespace Liveness

open Flow

section Certificates

variable {α : Type} {labels : List (Label × α)} {slot : Slot}

/-- The straight line of the code does not read a slot, and jumps from it go to
places of a given set only.  The line ends where the slot is overwritten or the
temporaries are dropped. -/
inductive Quiet (labels : List (Label × α)) (slot : Slot)
    (closed : α → Prop) : List Instr → Prop
  | finish : Quiet labels slot closed []
  | stop {instr : Instr} {rest : List Instr}
      (unread : instr.access.reads slot = false)
      (ends : (instr.access.writes slot || instr.dropsTemporaries) = true) :
      Quiet labels slot closed (instr :: rest)
  | onward {instr : Instr} {rest : List Instr}
      (unread : instr.access.reads slot = false)
      (noTable : ∀ index fanOut, instr ≠ .jumpPtr index fanOut)
      (jumps : ∀ target, instr.target? = some target →
        ∃ place, placeOf? labels target = some place ∧ closed place)
      (falls : instr.fallsThrough → Quiet labels slot closed rest) :
      Quiet labels slot closed (instr :: rest)

theorem Quiet.mono {first second : α → Prop} {code : List Instr}
    (quiet : Quiet labels slot first code)
    (included : ∀ place, first place → second place) :
    Quiet labels slot second code := by
  induction quiet with
  | finish => exact .finish
  | stop unread ends => exact .stop unread ends
  | onward unread noTable jumps _ ih =>
      refine .onward unread noTable (fun target aimed => ?_) ih
      obtain ⟨place, found, member⟩ := jumps target aimed
      exact ⟨place, found, included place member⟩

/-- How a frontier has grown: nothing was forgotten, and what was newly met is
still pending. -/
structure Grows (before after : Frontier α) : Prop where
  met : ∀ place ∈ before.met, place ∈ after.met
  pending : ∀ place ∈ before.pending, place ∈ after.pending
  fresh : ∀ place ∈ after.met, place ∈ before.met ∨ place ∈ after.pending

theorem Grows.refl (frontier : Frontier α) : Grows frontier frontier :=
  ⟨fun _ member => member, fun _ member => member, fun _ => .inl⟩

theorem Grows.trans {first second third : Frontier α}
    (early : Grows first second) (late : Grows second third) :
    Grows first third where
  met place member := late.met place (early.met place member)
  pending place member := late.pending place (early.pending place member)
  fresh place member := by
    rcases late.fresh place member with old | waiting
    · exact (early.fresh place old).imp_right (late.pending place)
    · exact .inr waiting

variable [DecidableEq α]

theorem mem_met_meet (frontier : Frontier α) (place : α) :
    place ∈ (frontier.meet place).met := by
  unfold Frontier.meet
  split
  · assumption
  · simp

theorem grows_meet (frontier : Frontier α) (place : α) :
    Grows frontier (frontier.meet place) := by
  unfold Frontier.meet
  split
  · exact .refl frontier
  · refine ⟨?_, ?_, ?_⟩ <;> simp +contextual [or_comm]

/-- What it means to follow a straight line without a read. -/
theorem quiet_of_follow {code : List Instr} {frontier result : Frontier α}
    (followed : follow labels slot code frontier = some result) :
    Quiet labels slot (· ∈ result.met) code ∧ Grows frontier result := by
  fun_induction follow labels slot code frontier with
  | case1 frontier =>
      obtain rfl := Option.some.inj followed
      exact ⟨.finish, .refl _⟩
  | case2 => simp at followed
  | case3 instr rest frontier unread ends =>
      obtain rfl := Option.some.inj followed
      exact ⟨.stop (by simpa using unread) ends, .refl _⟩
  | case4 => simp at followed
  | case5 rest frontier target place found unread open_ =>
      obtain rfl := Option.some.inj followed
      refine ⟨.onward (by simpa using unread) (by simp) ?_ ?_,
        grows_meet _ _⟩
      · intro other aimed
        obtain rfl := Option.some.inj aimed
        exact ⟨place, found, mem_met_meet _ _⟩
      · simp [Instr.fallsThrough]
  | case6 => simp at followed
  | case7 rest frontier cond target place found unread open_ ih =>
      obtain ⟨quiet, grows⟩ := ih followed
      refine ⟨.onward (by simpa using unread) (by simp) ?_ fun _ => quiet,
        (grows_meet _ _).trans grows⟩
      intro other aimed
      obtain rfl := Option.some.inj aimed
      exact ⟨place, found, grows.met _ (mem_met_meet _ _)⟩
  | case8 => simp at followed
  | case9 instr rest frontier unread open_ noJump noBranch noTable ih =>
      obtain ⟨quiet, grows⟩ := ih followed
      refine ⟨.onward (by simpa using unread) noTable ?_ fun _ => quiet,
        grows⟩
      intro target aimed
      cases instr <;> simp_all [Instr.target?]

/-- A search without a read leaves a set of places with all that was met, in
which every place is quiet that the search has followed. -/
theorem closed_of_search {codeAt? : α → Option (List Instr)}
    {frontier : Frontier α}
    (searched : search labels slot codeAt? frontier = .unread) :
    ∃ closed : α → Prop, (∀ place ∈ frontier.met, closed place) ∧
      ∀ place, closed place →
        (place ∈ frontier.met ∧ place ∉ frontier.pending) ∨
          ∃ code, codeAt? place = some code ∧
            Quiet labels slot closed code := by
  fun_induction search labels slot codeAt? frontier with
  | case1 frontier order =>
      exact ⟨(· ∈ frontier.met), fun _ member => member,
        fun _ member => .inl ⟨member, by simp [order]⟩⟩
  | case2 => simp at searched
  | case3 => simp at searched
  | case4 frontier place pending order code located result followed ih =>
      obtain ⟨quiet, grows⟩ := quiet_of_follow followed
      -- The set comes from the rest of the search.  It has all that was met,
      -- so the line that was followed now is quiet in it as well.
      obtain ⟨closed, includes, certified⟩ := ih searched
      refine ⟨closed,
        fun other member => includes other (grows.met other member),
        fun other member => ?_⟩
      rcases certified other member with ⟨met, settled⟩ | certificate
      · by_cases here : other = place
        · subst here
          exact .inr ⟨code, located, quiet.mono includes⟩
        · refine .inl ⟨?_, ?_⟩
          · exact (grows.fresh other met).resolve_right settled
          · rw [order, List.mem_cons, not_or]
            exact ⟨here, fun waiting => settled (grows.pending other waiting)⟩
      · exact .inr certificate

theorem certificate_of_answerFrom {codeAt? : α → Option (List Instr)}
    {met : List α} {code : List Instr}
    (answered : answerFrom labels slot codeAt? met code = .unread) :
    ∃ closed : α → Prop, Quiet labels slot closed code ∧
      ∀ place, closed place → place ∈ met ∨
        ∃ code, codeAt? place = some code ∧
          Quiet labels slot closed code := by
  unfold answerFrom at answered
  split at answered
  · simp at answered
  · rename_i frontier followed
    obtain ⟨quiet, grows⟩ := quiet_of_follow followed
    obtain ⟨closed, includes, certified⟩ := closed_of_search answered
    refine ⟨closed, quiet.mono includes, fun place member => ?_⟩
    rcases certified place member with ⟨seen, settled⟩ | certificate
    · exact .inl ((grows.fresh place seen).resolve_right settled)
    · exact .inr certificate

end Certificates

/-- No path through the code that starts with `rest` reads the slot before it
is overwritten or the temporaries are dropped. -/
def Unread (code : List Instr) (slot : Slot) (rest : List Instr) : Prop :=
  ∃ closed : Label → Prop,
    Quiet ((labels code).map fun name => (name, name)) slot closed rest ∧
      ∀ name, closed name → ∃ line, codeAtLabel? code name = some line ∧
        Quiet ((labels code).map fun name => (name, name)) slot closed line

section Paths

variable {code rest : List Instr} {slot : Slot} {instr : Instr}

theorem unread_of_unreadFrom (answered : unreadFrom code slot rest = true) :
    Unread code slot rest := by
  unfold unreadFrom Answer.isUnread at answered
  split at answered
  · rename_i found
    obtain ⟨closed, quiet, certified⟩ := certificate_of_answerFrom found
    exact ⟨closed, quiet, fun name member =>
      (certified name member).resolve_left (by simp)⟩
  · simp at answered

theorem Unread.not_reads (unread : Unread code slot (instr :: rest)) :
    instr.access.reads slot = false := by
  obtain ⟨closed, quiet, -⟩ := unread
  cases quiet with
  | stop unread => exact unread
  | onward unread => exact unread

/-- Behind an instruction that keeps the slot, the slot is still not read. -/
theorem Unread.next (unread : Unread code slot (instr :: rest))
    (falls : instr.fallsThrough = true)
    (kept : (instr.access.writes slot || instr.dropsTemporaries) = false) :
    Unread code slot rest := by
  obtain ⟨closed, quiet, certified⟩ := unread
  cases quiet with
  | stop _ ends => simp [kept] at ends
  | onward _ _ _ onward => exact ⟨closed, onward falls, certified⟩

theorem placeOf?_self {names : List Label} {name place : Label}
    (found : placeOf? (names.map fun name => (name, name)) (.label name) =
      some place) : place = name := by
  simp only [placeOf?, Option.map_eq_some_iff] at found
  obtain ⟨row, located, rfl⟩ := found
  obtain ⟨other, -, rfl⟩ := List.mem_map.mp (List.mem_of_find?_eq_some located)
  simpa using List.find?_some located

/-- Behind the label that an instruction jumps to, the slot is not read
either. -/
theorem Unread.goto {name : Label} {behind : List Instr}
    (unread : Unread code slot (instr :: rest))
    (aimed : instr.target? = some (.label name))
    (located : codeBehind? code name = some behind) :
    Unread code slot behind := by
  obtain ⟨closed, quiet, certified⟩ := unread
  have target : closed name := by
    cases quiet with
    | stop _ ends => cases instr <;> simp_all [Instr.target?, Instr.access,
        Access.none, Access.writes, Instr.dropsTemporaries]
    | onward _ _ jumps _ =>
        obtain ⟨place, found, member⟩ := jumps _ aimed
        exact placeOf?_self found ▸ member
  obtain ⟨line, found, lineQuiet⟩ := certified name target
  rw [codeAtLabel?_eq_map, located] at found
  obtain rfl := Option.some.inj found
  have marker : Unread code slot (.label name :: behind) :=
    ⟨closed, lineQuiet, certified⟩
  exact marker.next rfl rfl

end Paths

/-- A register that is not used is not read by the next instruction. -/
theorem not_readsRegister {instr : Instr} {rest : List Instr}
    (unused : registerUsed (instr :: rest) = false) :
    instr.readsRegister = false := by
  unfold registerUsed at unused
  split at unused
  · simp at unused
  · simp_all

/-- A register that is not used and not replaced is not used behind the next
instruction. -/
theorem registerUsed_next {instr : Instr} {rest : List Instr}
    (unused : registerUsed (instr :: rest) = false)
    (kept : instr.endsRegisterScan = false) : registerUsed rest = false := by
  unfold registerUsed at unused
  simpa [kept, not_readsRegister (by rwa [registerUsed])] using unused

end Liveness

end StackAssembler
