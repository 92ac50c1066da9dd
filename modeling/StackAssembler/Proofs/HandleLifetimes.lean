import StackAssembler.Proofs.HandleTurnover

/-!
# How long a handle is good

A place that is taken again has a later generation, so a handle never comes
back: all handles that a routine gives out differ, and one whose instruction was
taken out is refused from then on.  The ledger of a run keeps all handles given
out so far.  Each of them is still in use, or its place has gone on to a later
generation.  Generations do not wrap around while fewer than `2 ^ 32`
instructions were taken out.

A routine that another one absorbs starts over as a new routine, and its places
with it.  It refuses all handles from before until it gives them out again.
-/

namespace StackAssembler

/-! ## The ledger of handles -/

namespace HandlePool

/-- The place of a handle has gone on to a later generation. -/
def Outdates (pool : HandlePool) (handle : Handle) : Prop :=
  ∃ generation, pool.generations[handle.index]? = some generation ∧
    handle.generation < generation

/-- The handles in use, all handles issued so far, and the number of handles
retired so far belong to a pool. -/
structure Ledger (pool : HandlePool) (handles issued : List Handle)
    (retired : Nat) : Prop where
  accounts : pool.Accounts (handles.map (·.index))
  current : ∀ handle ∈ handles,
    pool.generations[handle.index]? = some handle.generation
  generation_le : ∀ (index : Nat) (generation : UInt32),
    pool.generations[index]? = some generation → generation.toNat ≤ retired
  recorded : handles ⊆ issued
  distinct : issued.Nodup
  outdated : ∀ handle ∈ issued, handle ∈ handles ∨ pool.Outdates handle

section Ledger

variable {pool left : HandlePool} {handles issued : List Handle}
  {retired : Nat} {handle : Handle}

theorem ledger_new : Ledger {} [] [] 0 where
  accounts := List.Perm.refl []
  current := by simp
  generation_le := by simp
  recorded := List.Subset.refl []
  distinct := List.nodup_nil
  outdated := by simp

theorem Ledger.nodup (ledger : pool.Ledger handles issued retired) :
    handles.Nodup :=
  ledger.accounts.nodup.of_map _

theorem Ledger.of_perm {others : List Handle}
    (ledger : pool.Ledger handles issued retired)
    (reordered : others.Perm handles) :
    pool.Ledger others issued retired where
  accounts := ledger.accounts.of_perm (reordered.map _)
  current other member := ledger.current other (reordered.mem_iff.mp member)
  generation_le := ledger.generation_le
  recorded := List.Subset.trans reordered.subset ledger.recorded
  distinct := ledger.distinct
  outdated other member :=
    (ledger.outdated other member).imp_left reordered.mem_iff.mpr

/-- Issuing a handle changes no generation, and a new place has the first
one. -/
theorem getElem?_issue (drawn : pool.issue = (handle, left)) (index : Nat)
    (generation : UInt32) :
    left.generations[index]? = some generation ↔
      pool.generations[index]? = some generation ∨
        left.generations.size = pool.generations.size + 1 ∧
          index = pool.generations.size ∧ generation = 0 := by
  obtain ⟨generations, vacant⟩ := pool
  cases vacant with
  | nil =>
      obtain ⟨-, rfl⟩ := Prod.mk.inj drawn
      by_cases new : index = generations.size
      · simp [new, eq_comm]
      · simp [Array.getElem?_push, new]
  | cons place vacant =>
      obtain ⟨-, rfl⟩ := Prod.mk.inj drawn
      simp

theorem Outdates.issue {other : Handle} (outdates : pool.Outdates other)
    (drawn : pool.issue = (handle, left)) : left.Outdates other := by
  obtain ⟨generation, found, later⟩ := outdates
  exact ⟨generation, (getElem?_issue drawn _ _).mpr (.inl found), later⟩

theorem Ledger.issue (ledger : pool.Ledger handles issued retired)
    (drawn : pool.issue = (handle, left)) :
    left.Ledger (handle :: handles) (issued ++ [handle]) retired := by
  obtain ⟨accounts, drawnCurrent, unchanged⟩ := ledger.accounts.issue drawn
  have fresh : handle ∉ issued := by
    intro member
    rcases ledger.outdated handle member with inUse | outdates
    · exact (List.nodup_cons.mp accounts.nodup).1 (List.mem_map_of_mem inUse)
    · obtain ⟨generation, found, later⟩ := outdates.issue drawn
      obtain rfl := Option.some.inj (found.symm.trans drawnCurrent)
      exact UInt32.lt_irrefl _ later
  refine ⟨accounts, ?_, ?_, ?_, ?_, ?_⟩
  · intro other member
    rcases List.mem_cons.mp member with rfl | old
    · exact drawnCurrent
    · exact (unchanged _ (List.mem_map_of_mem old)).trans
        (ledger.current other old)
  · intro index generation found
    rcases (getElem?_issue drawn _ _).mp found with old | ⟨-, -, rfl⟩
    · exact ledger.generation_le index generation old
    · exact Nat.zero_le _
  · exact List.cons_subset.mpr ⟨by simp,
      List.Subset.trans ledger.recorded (List.subset_append_left _ _)⟩
  · exact (List.perm_append_singleton _ _).nodup_iff.mpr
      (List.nodup_cons.mpr ⟨fresh, ledger.distinct⟩)
  · intro other member
    rcases List.mem_append.mp member with old | new
    · exact (ledger.outdated other old).imp (List.mem_cons_of_mem _)
        fun outdates => outdates.issue drawn
    · rw [List.mem_singleton.mp new]
      exact .inl List.mem_cons_self

theorem getElem?_retire (pool : HandlePool) (handle : Handle) (index : Nat) :
    (pool.retire handle).generations[index]? =
      (pool.generations[index]?).map fun generation =>
        if handle.index = index then generation + 1 else generation := by
  rw [HandlePool.retire, Array.getElem?_modify]
  split <;> simp

/-- A place whose handle is retired has the next generation, which is later
while there is one. -/
theorem toNat_next {generation : UInt32}
    (few : generation.toNat + 1 < 2 ^ 32) :
    (generation + 1).toNat = generation.toNat + 1 := by
  rw [UInt32.toNat_add]
  exact Nat.mod_eq_of_lt few

theorem Outdates.retire {other : Handle} (outdates : pool.Outdates other)
    (handle : Handle)
    (room : ∀ generation, pool.generations[other.index]? = some generation →
      generation.toNat + 1 < 2 ^ 32) :
    (pool.retire handle).Outdates other := by
  obtain ⟨generation, found, later⟩ := outdates
  refine ⟨_, by rw [getElem?_retire, found, Option.map_some], ?_⟩
  split
  · rw [UInt32.lt_iff_toNat_lt] at later ⊢
    rw [toNat_next (room generation found)]
    omega
  · exact later

theorem outdates_retire
    (current : pool.generations[handle.index]? = some handle.generation)
    (room : handle.generation.toNat + 1 < 2 ^ 32) :
    (pool.retire handle).Outdates handle := by
  refine ⟨_, by rw [getElem?_retire, current, Option.map_some], ?_⟩
  rw [if_pos rfl, UInt32.lt_iff_toNat_lt, toNat_next room]
  omega

/-- A handle that is retired is out of date, and so are those that were
before. -/
theorem Ledger.retire (ledger : pool.Ledger (handle :: handles) issued retired)
    (few : retired + 1 < 2 ^ 32) :
    (pool.retire handle).Ledger handles issued (retired + 1) := by
  obtain ⟨accounts, unchanged⟩ := ledger.accounts.retire
  have room {index : Nat} {generation : UInt32}
      (found : pool.generations[index]? = some generation) :
      generation.toNat + 1 < 2 ^ 32 := by
    have bound := ledger.generation_le index generation found
    omega
  refine ⟨accounts, ?_, ?_, ?_, ledger.distinct, ?_⟩
  · intro other member
    exact (unchanged _ (List.mem_map_of_mem member)).trans
      (ledger.current other (List.mem_cons_of_mem _ member))
  · intro index generation found
    rw [getElem?_retire] at found
    obtain ⟨old, before, rfl⟩ := Option.map_eq_some_iff.mp found
    have bound := ledger.generation_le index old before
    split
    · rw [toNat_next (room before)]
      omega
    · omega
  · exact List.Subset.trans (List.subset_cons_self _ _) ledger.recorded
  · intro other member
    rcases ledger.outdated other member with inUse | outdates
    · rcases List.mem_cons.mp inUse with rfl | stays
      · have current := ledger.current _ List.mem_cons_self
        exact .inr (outdates_retire current (room current))
      · exact .inl stays
    · exact .inr (outdates.retire handle fun _ found => room found)

theorem Ledger.retireAll {removed : List Handle}
    (ledger : pool.Ledger (removed ++ handles) issued retired)
    (few : retired + removed.length < 2 ^ 32) :
    (pool.retireAll removed).Ledger handles issued
      (retired + removed.length) := by
  induction removed generalizing pool retired with
  | nil => exact ledger
  | cons handle removed ih =>
      rw [List.length_cons] at few ⊢
      have onward := ih (ledger.retire (by omega)) (by omega)
      rwa [Nat.add_assoc, Nat.add_comm 1] at onward

end Ledger

end HandlePool

/-! ## Runs of actions -/

namespace Routine

/-- Perform actions in turn.  The result are the handles of all instructions
that were put in, in that order, and the routine that is left. -/
def actAll (routine : Routine) : List Action → List Handle × Routine
  | [] => ([], routine)
  | action :: actions =>
      let (inserted, left) := routine.act action
      let (others, final) := left.actAll actions
      (inserted ++ others, final)

/-- How many instructions are taken out by actions. -/
def removals (routine : Routine) : List Action → Nat
  | [] => 0
  | action :: actions =>
      let left := (routine.act action).2
      routine.handles.countP (· ∉ left.handles) + left.removals actions

/-- The ledger of a routine's own pool and handles. -/
def Ledger (routine : Routine) (issued : List Handle) (retired : Nat) : Prop :=
  routine.pool.Ledger routine.handles issued retired

theorem ledger_new : Ledger {} [] 0 := HandlePool.ledger_new

section Runs

variable {routine left : Routine} {issued : List Handle} {retired : Nat}

theorem Ledger.gains {inserted : List Handle}
    (ledger : routine.Ledger issued retired)
    (gains : Gains routine inserted left) :
    left.Ledger (issued ++ inserted) retired := by
  induction gains generalizing issued with
  | none handles_eq pool_eq =>
      rwa [List.append_nil, Ledger, handles_eq, pool_eq]
  | @insert routine middle left handle inserted drawn placed _ ih =>
      have added : middle.Ledger (issued ++ [handle]) retired :=
        (HandlePool.Ledger.issue ledger drawn).of_perm placed
      simpa using ih added

theorem Ledger.sheds {removed : List Handle}
    (ledger : routine.Ledger issued retired)
    (sheds : Sheds routine removed left)
    (few : retired + removed.length < 2 ^ 32) :
    left.Ledger issued (retired + removed.length) := by
  rw [Ledger, sheds.pool_eq]
  exact (HandlePool.Ledger.of_perm ledger sheds.handles_perm).retireAll few

/-- No handle is lost where instructions are put in. -/
theorem Gains.handles_perm {inserted : List Handle}
    (gains : Gains routine inserted left) :
    left.handles.Perm (inserted ++ routine.handles) := by
  induction gains with
  | none handles_eq => rw [handles_eq, List.nil_append]
  | insert _ placed _ ih =>
      exact ih.trans ((placed.append_left _).trans List.perm_middle)

theorem countP_of_gains {inserted : List Handle}
    (gains : Gains routine inserted left) :
    routine.handles.countP (· ∉ left.handles) = 0 := by
  rw [List.countP_eq_zero]
  intro handle member
  simpa using gains.handles_perm.mem_iff.mpr (List.mem_append_right _ member)

theorem countP_of_sheds {removed : List Handle}
    (sheds : Sheds routine removed left) (distinct : routine.handles.Nodup) :
    routine.handles.countP (· ∉ left.handles) = removed.length := by
  have apart := List.nodup_append.mp (sheds.handles_perm.nodup_iff.mpr distinct)
  rw [← sheds.handles_perm.countP_eq, List.countP_append]
  have gone : removed.countP (· ∉ left.handles) = removed.length := by
    rw [List.countP_eq_length]
    intro handle member
    simpa using fun stays => apart.2.2 handle member handle stays rfl
  have kept : left.handles.countP (· ∉ left.handles) = 0 := by
    rw [List.countP_eq_zero]
    simp
  rw [gone, kept, Nat.add_zero]

theorem Ledger.act (ledger : routine.Ledger issued retired) (action : Action)
    (few : retired + routine.handles.countP
      (· ∉ (routine.act action).2.handles) < 2 ^ 32) :
    (routine.act action).2.Ledger (issued ++ (routine.act action).1)
      (retired + routine.handles.countP
        (· ∉ (routine.act action).2.handles)) := by
  have turnover := turnover_act routine action
  generalize routine.act action = outcome at turnover few ⊢
  cases turnover with
  | gains gains =>
      rw [countP_of_gains gains]
      exact ledger.gains gains
  | sheds sheds =>
      have counted := countP_of_sheds sheds (HandlePool.Ledger.nodup ledger)
      rw [counted] at few ⊢
      rw [List.append_nil]
      exact ledger.sheds sheds few

theorem Ledger.actAll (ledger : routine.Ledger issued retired)
    (actions : List Action)
    (few : retired + routine.removals actions < 2 ^ 32) :
    (routine.actAll actions).2.Ledger (issued ++ (routine.actAll actions).1)
      (retired + routine.removals actions) := by
  induction actions generalizing routine issued retired with
  | nil =>
      rw [Routine.actAll, removals, List.append_nil, Nat.add_zero]
      exact ledger
  | cons action actions ih =>
      rw [removals, ← Nat.add_assoc] at few ⊢
      have onward := ih (ledger.act action (by omega)) few
      rwa [List.append_assoc] at onward

theorem actAll_append (routine : Routine) (first second : List Action) :
    routine.actAll (first ++ second) =
      ((routine.actAll first).1 ++ ((routine.actAll first).2.actAll second).1,
        ((routine.actAll first).2.actAll second).2) := by
  induction first generalizing routine with
  | nil => rfl
  | cons action first ih => simp [Routine.actAll, ih]

theorem removals_append (routine : Routine) (first second : List Action) :
    routine.removals (first ++ second) =
      routine.removals first + (routine.actAll first).2.removals second := by
  induction first generalizing routine with
  | nil => simp [removals, Routine.actAll]
  | cons action first ih => simp [removals, Routine.actAll, ih, Nat.add_assoc]

theorem handles_act_subset (routine : Routine) (action : Action) :
    (routine.act action).2.handles ⊆
      routine.handles ++ (routine.act action).1 := by
  have turnover := turnover_act routine action
  generalize routine.act action = outcome at turnover ⊢
  cases turnover with
  | gains gains =>
      exact List.Subset.trans gains.handles_perm.subset
        List.perm_append_comm.subset
  | sheds sheds =>
      rw [List.append_nil]
      exact List.Subset.trans (List.subset_append_right _ _)
        sheds.handles_perm.subset

/-- What was there before a step or came in with it, and then came in later. -/
theorem subset_of_steps {early middle late inserted others : List Handle}
    (step : middle ⊆ early ++ inserted) (onward : late ⊆ middle ++ others) :
    late ⊆ early ++ (inserted ++ others) := by
  rw [← List.append_assoc]
  exact List.Subset.trans onward
    (List.append_subset.mpr ⟨List.subset_append_of_subset_left _ step,
      List.subset_append_right _ _⟩)

/-- Handles in use were in use before or came in. -/
theorem handles_actAll_subset (routine : Routine) (actions : List Action) :
    (routine.actAll actions).2.handles ⊆
      routine.handles ++ (routine.actAll actions).1 := by
  induction actions generalizing routine with
  | nil => exact List.subset_append_left _ _
  | cons action actions ih =>
      exact subset_of_steps (handles_act_subset routine action)
        (ih (routine.act action).2)

end Runs

/-- A routine takes a handle for none of its own: there is nothing to see behind
it, and every edit that names it is refused. -/
structure Refuses (routine : Routine) (handle : Handle) : Prop where
  entry?_eq : routine.entry? handle = none
  instrAt_eq : routine.instrAt handle = .error (.staleHandle handle)
  depthAt_eq : routine.depthAt handle = .error (.staleHandle handle)
  next_eq : routine.next handle = .error (.staleHandle handle)
  previous_eq : routine.previous handle = .error (.staleHandle handle)
  perform_eq : ∀ edit : Edit, handle ∈ edit.names →
    ∃ name, routine.perform edit = (.error (.staleHandle name), routine)

theorem refuses_of_not_mem {routine : Routine} {handle : Handle}
    (missing : handle ∉ routine.handles) : routine.Refuses handle := by
  have located := locate_of_not_mem missing
  refine ⟨?_, ?_, ?_, ?_, ?_, ?_⟩
  · rw [ entry?, Option.map_eq_none_iff, splitAt?_eq_none_iff]
    intro entry member same
    exact missing (same ▸ List.mem_map_of_mem member)
  · rw [instrAt, located]
    rfl
  · rw [depthAt, located]
    rfl
  · rw [next, located]
    rfl
  · rw [previous, located]
    rfl
  · intro edit named
    obtain ⟨name, stale⟩ : ∃ name,
        edit.names.find? (· ∉ routine.handles) = some name := by
      rw [← Option.isSome_iff_exists, List.find?_isSome]
      exact ⟨handle, named, by simpa using missing⟩
    exact ⟨name, by rw [perform, edit_of_stale stale]⟩

/-- A run in which one place is taken three times: for a push that is erased,
for a suspend point that is erased as well, and for a line. -/
def recycling : List Action :=
  [.edit (.push (.push 1))] ++
    [.edit (.push (.ret 0)), .edit (.erase ⟨0, 0⟩)] ++
    [.edit (.pushFront .suspend), .absorb (ofList [.ret 1]),
      .edit (.erase ⟨0, 1⟩), .emitLine ⟨4, 2⟩, .assemble {}]

end Routine

/-- What can be done with two routines: an action on one of them, or one of
them absorbs the other. -/
inductive PairAction where
  | onFirst (action : Action)
  | onSecond (action : Action)
  | firstAbsorbs
  | secondAbsorbs

namespace Routine

/-- Perform an action on two routines.  The result are the handles of the
instructions that were put into the second one, and what is left of both. -/
def actOnPair (first second : Routine) :
    PairAction → List Handle × Routine × Routine
  | .onFirst action => ([], (first.act action).2, second)
  | .onSecond action =>
      let (inserted, left) := second.act action
      (inserted, first, left)
  | .firstAbsorbs => ([], (first.absorb second).2)
  | .secondAbsorbs =>
      let (_, joined, drained) := second.absorb first
      (second.appended joined, drained, joined)

def actAllOnPair (first second : Routine) :
    List PairAction → List Handle × Routine × Routine
  | [] => ([], first, second)
  | action :: actions =>
      let (inserted, first, second) := first.actOnPair second action
      let (others, first, second) := first.actAllOnPair second actions
      (inserted ++ others, first, second)

/-- A joining leaves a new routine in the place of the other one, or the other
one as it was. -/
theorem drained_of_absorb (routine other : Routine) :
    ((routine.absorb other).1 = .ok () ∧ (routine.absorb other).2.2 = {}) ∨
      ((routine.absorb other).1 ≠ .ok () ∧
        (routine.absorb other).2.2 = other) := by
  unfold absorb
  split
  · exact .inr ⟨by simp, rfl⟩
  · split
    · exact .inr ⟨by simp, rfl⟩
    · exact .inl ⟨rfl, rfl⟩

theorem handles_actOnPair_subset (first second : Routine)
    (action : PairAction) :
    (first.actOnPair second action).2.2.handles ⊆
      second.handles ++ (first.actOnPair second action).1 := by
  cases action with
  | onFirst action => exact List.subset_append_left _ _
  | onSecond action => exact handles_act_subset second action
  | firstAbsorbs =>
      rw [actOnPair]
      rcases drained_of_absorb first second with ⟨-, drained⟩ | ⟨-, drained⟩
      · rw [drained]
        exact List.nil_subset _
      · rw [drained]
        exact List.subset_append_left _ _
  | secondAbsorbs => exact handles_act_subset second (.absorb first)

/-- Handles in use in the second routine were in use there before or came
in. -/
theorem handles_actAllOnPair_subset (first second : Routine)
    (actions : List PairAction) :
    (first.actAllOnPair second actions).2.2.handles ⊆
      second.handles ++ (first.actAllOnPair second actions).1 := by
  induction actions generalizing first second with
  | nil => exact List.subset_append_left _ _
  | cons action actions ih =>
      have step := handles_actOnPair_subset first second action
      rcases acted : first.actOnPair second action with ⟨inserted, left, right⟩
      rw [acted] at step
      simp only [actAllOnPair, acted]
      exact subset_of_steps step (ih left right)

/-- A routine that was absorbed refuses every handle from before, whatever is
done with both routines afterwards, until it gives out that handle again. -/
theorem drained_refuses_until_inserted
    {first second joined drained : Routine}
    (absorbed : first.absorb second = (.ok (), joined, drained))
    (actions : List PairAction) {handle : Handle}
    (fresh : handle ∉ (joined.actAllOnPair drained actions).1) :
    (joined.actAllOnPair drained actions).2.2.Refuses handle := by
  apply refuses_of_not_mem
  intro member
  have origin := handles_actAllOnPair_subset joined drained actions member
  have new : drained = {} := by
    simpa [absorbed] using drained_of_absorb first second
  rw [new] at origin fresh
  exact fresh origin

/-- Two pushes that another routine absorbs. -/
def drainage : Routine := ofList [.push 1, .push 2]

theorem drained_refuses_until_inserted_drainage :
    ∃ joined drained, absorb {} drainage = (.ok (), joined, drained) ∧
      drainage.handles = [⟨0, 0⟩, ⟨1, 0⟩] ∧
      (joined.actAllOnPair drained [.onSecond (.edit (.push (.ret 0)))]).1 =
        [⟨0, 0⟩] ∧
      (joined.actAllOnPair drained
        [.onSecond (.edit (.push (.ret 0)))]).2.2.Refuses ⟨1, 0⟩ := by
  have absorbed : absorb {} drainage = (.ok (), _, _) := rfl
  refine ⟨_, _, absorbed, rfl, rfl, ?_⟩
  exact drained_refuses_until_inserted absorbed _ (by decide)

/-- The first handle that is given out afterwards is the first one that was
given out before, and names another instruction now. -/
theorem absorb_revives_handle :
    ∃ joined drained, absorb {} drainage = (.ok (), joined, drained) ∧
      drainage.instrAt ⟨0, 0⟩ = .ok (.push 1) ∧
      (joined.actAllOnPair drained
        [.onSecond (.edit (.push (.ret 0)))]).2.2.instrAt ⟨0, 0⟩ =
          .ok (.ret 0) :=
  ⟨_, _, rfl, rfl, rfl⟩

end Routine

end StackAssembler
