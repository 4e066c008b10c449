import LuaTyping.Proofs.Guard

/-!
# What a guard knows of its history

A guard forgets: of all the cycles it has noticed it keeps one number, which is put aside and merged
as keys are entered and left. This file takes the whole history of a guard, every attempt with its
answer and every leave with its verdict, and shows that nothing is lost as long as keys are left in
the reverse order of entering.

* The active keys are those of the history that were entered and not left, each at its position.
* A key is reported as provisional exactly if, since it was entered, a cycle was noticed on a key
  that was entered before it.

The second statement is about one number and a stretch of the history of any length. The invariant
that carries it, `reaches_since`, speaks of all floors put aside since a key was entered at once:
one of them lies below the key exactly if a cycle has reached further out than the key.
-/

set_option autoImplicit false

namespace LuaTyping.Guard

variable {κ : Type}

/-! ## Histories -/

/-- What was asked of a guard and what it answered. -/
inductive Event (κ : Type) where
  | enter (key : κ) (answer : Admission)
  | leave (key : κ) (provisional : Bool)
deriving DecidableEq, Repr

/-- The keys that are entered and not left, innermost first. The last event comes first. -/
def active : List (Event κ) → List κ
  | [] => []
  | .enter key .entered :: past => key :: active past
  | .enter _ _ :: past => active past
  | .leave _ _ :: past => (active past).tail

/-- The guard has the given history, with keys left in the reverse order of entering: each leave
names the key that was entered last among those still active. -/
inductive Orderly [BEq κ] (maxDepth maxIterations : Nat) : List (Event κ) → Guard κ → Prop
  | start : Orderly maxDepth maxIterations [] (withLimits maxDepth maxIterations)
  | enter {past : List (Event κ)} {guard : Guard κ} (key : κ)
      (run : Orderly maxDepth maxIterations past guard) :
      Orderly maxDepth maxIterations (.enter key (guard.enter key).1 :: past) (guard.enter key).2
  | leave {past : List (Event κ)} {guard : Guard κ} {key : κ} {outer : List κ}
      (run : Orderly maxDepth maxIterations past guard) (top : active past = key :: outer) :
      Orderly maxDepth maxIterations (.leave key (guard.leave key).1 :: past) (guard.leave key).2

/-- The history splits at the entry of a key that is still active. -/
structure SinceEntry (key : κ) (past during before : List (Event κ)) : Prop where
  split : past = during ++ .enter key .entered :: before
  stays : ∀ provisional, .leave key provisional ∉ during

@[simp] theorem active_denied {key : κ} {answer : Admission} {past : List (Event κ)}
    (denied : answer ≠ .entered) : active (.enter key answer :: past) = active past := by
  cases answer with
  | entered => exact absurd rfl denied
  | cycle | depthExceeded | iterationExceeded => rfl

/-- An earlier split goes on through an event that does not leave the key. -/
theorem SinceEntry.cons {key : κ} {past during before : List (Event κ)} {event : Event κ}
    (since : SinceEntry key past during before)
    (other : ∀ provisional, event ≠ .leave key provisional) :
    SinceEntry key (event :: past) (event :: during) before where
  split := by rw [since.split, List.cons_append]
  stays provisional mem :=
    (List.mem_cons.mp mem).elim (fun h => other provisional h.symm) (since.stays provisional)

/-- A split of a longer history is at the last event or further back. -/
theorem SinceEntry.cases {key : κ} {past during before : List (Event κ)} {event : Event κ}
    (since : SinceEntry key (event :: past) during before) :
    (during = [] ∧ event = .enter key .entered ∧ past = before) ∨
    ∃ during', during = event :: during' ∧ SinceEntry key past during' before := by
  obtain ⟨split, stays⟩ := since
  cases during with
  | nil =>
    obtain ⟨hevent, hpast⟩ := List.cons.inj split
    exact .inl ⟨rfl, hevent, hpast⟩
  | cons first during' =>
    obtain ⟨rfl, hpast⟩ := List.cons.inj split
    exact .inr ⟨during', rfl, hpast, fun provisional mem =>
      stays provisional (List.mem_cons_of_mem _ mem)⟩

/-! ## Positions -/

/-- Keys with their positions, the outermost at position zero. -/
def numbered : List κ → List (κ × Nat)
  | [] => []
  | key :: outer => (key, outer.length) :: numbered outer

theorem map_fst_numbered (keys : List κ) : (numbered keys).map Prod.fst = keys := by
  induction keys with
  | nil => rfl
  | cons key outer ih => rw [numbered, List.map_cons, ih]

/-- The guard holds exactly the given keys, innermost first, each at its position. -/
structure Holds (guard : Guard κ) (keys : List κ) : Prop where
  visiting : guard.visiting = numbered keys
  frames : guard.frames.length = keys.length
  distinct : keys.Nodup
  bounded : keys.length ≤ guard.maxDepth

variable [BEq κ] [LawfulBEq κ]

theorem lookup_numbered {keys : List κ} (distinct : keys.Nodup) (key : κ) (index : Nat) :
    (numbered keys).lookup key = some index ↔ keys.reverse[index]? = some key := by
  induction keys with
  | nil => simp [numbered]
  | cons first outer ih =>
    obtain ⟨fresh, distinct⟩ := List.nodup_cons.mp distinct
    rw [numbered, List.lookup_cons, List.reverse_cons, List.getElem?_append, List.length_reverse]
    by_cases same : key = first
    · subst same
      have absent : ¬ outer.reverse[index]? = some key := fun h =>
        fresh (List.mem_reverse.mp (List.mem_of_getElem? h))
      rw [beq_self_eq_true]
      by_cases below : index < outer.length
      · rw [if_pos below]
        exact iff_of_false (fun h => absurd (Option.some.inj h) (Nat.ne_of_gt below)) absent
      · rw [if_neg below, List.getElem?_singleton]
        by_cases last : index - outer.length = 0
        · rw [if_pos last]
          exact iff_of_true (congrArg some (by omega)) rfl
        · rw [if_neg last]
          exact iff_of_false (fun h => last (by have := Option.some.inj h; omega)) nofun
    · rw [beq_false_of_ne same]
      dsimp only
      rw [ih distinct]
      by_cases below : index < outer.length
      · rw [if_pos below]
      · have out : outer.reverse[index]? = none := by
          rw [List.getElem?_eq_none_iff, List.length_reverse]
          omega
        rw [out, if_neg below, List.getElem?_singleton]
        split <;> simp [Ne.symm same]

namespace Holds

variable {guard : Guard κ} {keys : List κ}

theorem position?_iff (holds : guard.Holds keys) (key : κ) (index : Nat) :
    guard.position? key = some index ↔ keys.reverse[index]? = some key := by
  rw [position?, holds.visiting, lookup_numbered holds.distinct]

omit [BEq κ] [LawfulBEq κ] in
theorem keys_eq (holds : guard.Holds keys) : guard.keys = keys := by
  rw [Guard.keys, holds.visiting, map_fst_numbered]

/-- Of two stretches of the stack, the outer one holds the keys with the smaller positions. -/
theorem lt_iff_mem {key : κ} {index : Nat} {inner outer : List κ} (holds : guard.Holds keys)
    (hpos : guard.position? key = some index) (hkeys : keys = inner ++ outer) :
    index < outer.length ↔ key ∈ outer := by
  have outside {other : Nat} (below : other < outer.reverse.length) :
      keys.reverse[other]? = outer.reverse[other]? := by
    rw [hkeys, List.reverse_append, List.getElem?_append_left below]
  constructor
  · intro below
    rw [← List.length_reverse] at below
    have found := (holds.position?_iff key index).mp hpos
    rw [outside below] at found
    exact List.mem_reverse.mp (List.mem_of_getElem? found)
  · intro mem
    obtain ⟨other, below, hother⟩ := List.getElem_of_mem (List.mem_reverse.mpr mem)
    have found : keys.reverse[other]? = some key := by
      rw [outside below, List.getElem?_eq_getElem below, hother]
    -- a key has one position
    cases hpos.symm.trans ((holds.position?_iff key other).mpr found)
    rwa [List.length_reverse] at below

theorem enter (holds : guard.Holds keys) (key : κ) :
    (guard.enter key).2.Holds (if (guard.enter key).1 = .entered then key :: keys else keys) := by
  rcases guard.enter_cases key with
    ⟨-, why, notEntered, -, henter⟩ | ⟨-, index, -, henter⟩ | ⟨room, inactive, henter⟩
  · rw [henter, if_neg notEntered]
    exact ⟨holds.visiting, holds.frames, holds.distinct, holds.bounded⟩
  · rw [henter]
    exact ⟨holds.visiting, holds.frames, holds.distinct, holds.bounded⟩
  · rw [henter, if_pos rfl]
    have fresh : key ∉ keys := holds.keys_eq ▸ (guard.position?_eq_none_iff key).mp inactive
    have below : guard.frames.length < guard.maxDepth :=
      Nat.lt_of_not_le fun full => room (.inr full)
    refine ⟨?_, ?_, List.nodup_cons.mpr ⟨fresh, holds.distinct⟩, ?_⟩
    · show (key, guard.frames.length) :: guard.visiting = numbered (key :: keys)
      rw [numbered, holds.visiting, holds.frames]
    · exact congrArg (· + 1) holds.frames
    · show keys.length + 1 ≤ guard.maxDepth
      rw [← holds.frames]
      exact below

theorem leave_eq {key : κ} {outer : List κ} (holds : guard.Holds (key :: outer)) :
    guard.leave key
      = ((guard.cycleFloor.filter fun floor => decide (floor < outer.length)).isSome,
          { guard with
            visiting := numbered outer
            frames := guard.frames.tail
            cycleFloor := lowest (guard.frames.head?.getD none)
              (guard.cycleFloor.filter fun floor => decide (floor < outer.length)) }) :=
  leave_top holds.visiting

theorem leave {key : κ} {outer : List κ} (holds : guard.Holds (key :: outer)) :
    (guard.leave key).2.Holds outer := by
  rw [holds.leave_eq]
  refine ⟨rfl, ?_, (List.nodup_cons.mp holds.distinct).2, ?_⟩
  · show guard.frames.tail.length = outer.length
    rw [List.length_tail, holds.frames, List.length_cons, Nat.add_sub_cancel]
  · exact Nat.le_of_succ_le holds.bounded

end Holds

section Run

variable {maxDepth maxIterations : Nat} {past : List (Event κ)} {guard : Guard κ}

omit [LawfulBEq κ] in
theorem enter_maxDepth (guard : Guard κ) (key : κ) :
    (guard.enter key).2.maxDepth = guard.maxDepth := by
  rcases guard.enter_cases key with ⟨-, _, -, -, henter⟩ | ⟨-, _, -, henter⟩ | ⟨-, -, henter⟩ <;>
    rw [henter] <;> rfl

omit [LawfulBEq κ] in
theorem leave_maxDepth (guard : Guard κ) (key : κ) :
    (guard.leave key).2.maxDepth = guard.maxDepth := by
  rw [leave]
  cases guard.position? key <;> rfl

omit [LawfulBEq κ] in
theorem Orderly.maxDepth_eq (run : Orderly maxDepth maxIterations past guard) :
    guard.maxDepth = maxDepth := by
  induction run with
  | start => rfl
  | enter key _ ih => rw [enter_maxDepth, ih]
  | leave _ _ ih => rw [leave_maxDepth, ih]

/-- Through every orderly history the guard holds the active keys. -/
theorem Orderly.holds (run : Orderly maxDepth maxIterations past guard) :
    guard.Holds (active past) := by
  induction run with
  | start => exact ⟨rfl, rfl, List.nodup_nil, Nat.zero_le _⟩
  | @enter past guard key run ih =>
    have step := ih.enter key
    by_cases entered : (guard.enter key).1 = .entered
    · rw [if_pos entered] at step
      rw [entered]
      exact step
    · rw [if_neg entered] at step
      rw [active_denied entered]
      exact step
  | leave run top ih =>
    rw [top] at ih
    rw [active, top]
    exact ih.leave

/-! ## Cycles since a key was entered -/

/-- The entry of a key that is still active stands in the history. -/
theorem Orderly.exists_sinceEntry (run : Orderly maxDepth maxIterations past guard) {key : κ}
    (mem : key ∈ active past) : ∃ during before, SinceEntry key past during before := by
  induction run with
  | start => cases mem
  | @enter past guard key' run ih =>
    have go_on (h : key ∈ active past) :
        ∃ during before,
          SinceEntry key (.enter key' (guard.enter key').1 :: past) during before := by
      obtain ⟨during, before, since⟩ := ih h
      exact ⟨_, before, since.cons fun _ => nofun⟩
    by_cases entered : (guard.enter key').1 = .entered
    · rw [entered] at mem
      rcases List.mem_cons.mp mem with rfl | mem
      · exact ⟨[], past, by rw [entered]; rfl, fun _ => List.not_mem_nil⟩
      · exact go_on mem
    · rw [active_denied entered] at mem
      exact go_on mem
  | @leave past guard key' outer run top ih =>
    have distinct := run.holds.distinct
    rw [active, top] at mem
    rw [top] at distinct ih
    obtain ⟨during, before, since⟩ := ih (List.mem_cons_of_mem key' mem)
    refine ⟨_, before, since.cons fun _ h => ?_⟩
    -- keys are entered once at a time, so the key that is left is another one
    cases h
    exact (List.nodup_cons.mp distinct).1 mem

/-- The floors put aside by the innermost `count` frames, and the one in force. -/
def floors (guard : Guard κ) (count : Nat) : List (Option Nat) :=
  guard.cycleFloor :: guard.frames.take count

/-- Since a key was entered, the keys inside it came on top of it and those outside stayed; and a
floor in force since then lies below it exactly if a cycle was noticed on a key outside it. -/
theorem Orderly.reaches_since (run : Orderly maxDepth maxIterations past guard) {key : κ}
    {during before : List (Event κ)} (since : SinceEntry key past during before) :
    ∃ inner, active past = inner ++ key :: active before ∧
      ((∃ floor ∈ guard.floors inner.length, Reaches floor (active before).length) ↔
        ∃ outer ∈ active before, .enter outer .cycle ∈ during) := by
  induction run generalizing during with
  | start => simpa using since.split
  | @enter past guard key' run ih =>
    rcases guard.enter_cases key' with
      ⟨-, why, notEntered, notCycle, henter⟩ | ⟨-, index, hpos, henter⟩ | ⟨-, -, henter⟩
    · -- denied: the guard has not changed, and neither have its cycles
      rw [henter] at since ⊢
      rcases since.cases with ⟨-, hevent, -⟩ | ⟨during', rfl, since'⟩
      · exact absurd (Event.enter.inj hevent).2 notEntered
      · obtain ⟨inner, hactive, iff⟩ := ih since'
        refine ⟨inner, by rw [active_denied notEntered, hactive], iff.trans ?_⟩
        simp [Ne.symm notCycle]
    · -- a cycle: the floor is lowered to the position of the key
      rw [henter] at since ⊢
      rcases since.cases with ⟨-, hevent, -⟩ | ⟨during', rfl, since'⟩
      · cases hevent
      · obtain ⟨inner, hactive, iff⟩ := ih since'
        refine ⟨inner, hactive, ?_⟩
        have lowered : Reaches (some index) (active before).length ↔ key' ∈ active before := by
          rw [← run.holds.lt_iff_mem hpos (hactive.trans (List.append_cons ..))]
          simp [Reaches]
        simp only [floors, counted, Guard.lowered, List.mem_cons, exists_eq_or_imp, reaches_lowest,
          lowered, Event.enter.injEq, and_true, and_or_left, exists_or, exists_eq_right] at iff ⊢
        rw [or_assoc, or_left_comm, iff]
    · -- entered: the floor is put aside, and the key comes on top
      rw [henter] at since ⊢
      rcases since.cases with ⟨rfl, hevent, rfl⟩ | ⟨during', rfl, since'⟩
      · cases hevent
        refine ⟨[], rfl, ?_⟩
        simp [floors, pushed, not_reaches_none]
      · obtain ⟨inner, hactive, iff⟩ := ih since'
        refine ⟨key' :: inner, by rw [active, hactive, List.cons_append], ?_⟩
        simp only [floors, pushed, counted, List.length_cons, List.take_succ_cons, List.mem_cons,
          exists_eq_or_imp, not_reaches_none, false_or] at iff ⊢
        rw [iff]
        simp
  | @leave past guard key' outer run top ih =>
    rcases since.cases with ⟨-, hevent, -⟩ | ⟨during', rfl, since'⟩
    · cases hevent
    obtain ⟨inner, hactive, iff⟩ := ih since'
    rw [top] at hactive
    -- the key itself is not left, so there is one inside it that is
    cases inner with
    | nil =>
      cases (List.cons.inj hactive).1
      exact absurd List.mem_cons_self (since.stays _)
    | cons first inner =>
      obtain ⟨rfl, houter⟩ := List.cons.inj (hactive.trans List.cons_append)
      have holds := run.holds
      rw [top] at holds
      refine ⟨inner, by rw [active, top, List.tail_cons, houter], ?_⟩
      obtain ⟨saved, frames, hframes⟩ : ∃ saved frames, guard.frames = saved :: frames := by
        refine List.exists_cons_of_length_pos ?_
        rw [holds.frames]
        exact Nat.succ_pos _
      have beyond : (active before).length ≤ outer.length := by
        rw [houter, List.length_append, List.length_cons]
        omega
      rw [holds.leave_eq]
      simp only [floors, hframes, List.length_cons, List.take_succ_cons, List.mem_cons,
        exists_eq_or_imp, List.head?_cons, Option.getD_some, List.tail_cons, reaches_lowest,
        reaches_filter beyond, reduceCtorEq, false_or] at iff ⊢
      rw [or_assoc, or_left_comm, iff]

end Run

/-- What a guard tells through an orderly history, whatever its length: every active key has its
position on the stack, there are as many frames as active keys and no more than allowed, an attempt
within the limits is a cycle exactly if its key is active, and leaving the innermost key reports it
as provisional exactly if since its entry a cycle was noticed on a key entered before it. -/
theorem orderly_reports {maxDepth maxIterations : Nat} {past : List (Event κ)} {guard : Guard κ}
    (run : Orderly maxDepth maxIterations past guard) :
    (∀ key index,
      guard.position? key = some index ↔ (active past).reverse[index]? = some key) ∧
    guard.depth = (active past).length ∧ guard.depth ≤ maxDepth ∧
    (∀ key, ¬ guard.Spent → ((guard.enter key).1 = .cycle ↔ key ∈ active past)) ∧
    ∀ key outer, active past = key :: outer →
      (∃ during before, SinceEntry key past during before) ∧
      ∀ during before, SinceEntry key past during before →
        ((guard.leave key).1 = true ↔ ∃ target ∈ active before, .enter target .cycle ∈ during) := by
  have holds := run.holds
  refine ⟨holds.position?_iff, holds.frames, ?_, ?_, ?_⟩
  · rw [depth, holds.frames, ← run.maxDepth_eq]
    exact holds.bounded
  · intro key room
    rw [← holds.keys_eq, ← position?_isSome_iff]
    rcases guard.enter_cases key with ⟨spent, -⟩ | ⟨-, index, hpos, henter⟩ | ⟨-, hpos, henter⟩
    · exact absurd spent room
    · simp [henter, hpos]
    · simp [henter, hpos]
  · intro key outer top
    refine ⟨run.exists_sinceEntry (top ▸ List.mem_cons_self), fun during before since => ?_⟩
    obtain ⟨inner, hactive, iff⟩ := run.reaches_since since
    rw [top] at holds hactive
    -- the innermost key has nothing inside it
    have inside : inner = [] := by
      cases inner with
      | nil => rfl
      | cons first inner =>
        obtain ⟨rfl, rfl⟩ := List.cons.inj hactive
        exact absurd (List.mem_append_right _ List.mem_cons_self)
          (List.nodup_cons.mp holds.distinct).1
    subst inside
    obtain ⟨-, rfl⟩ := List.cons.inj hactive
    rw [holds.leave_eq, ← iff]
    simp [floors, Reaches, Option.isSome_filter, Option.any_eq_true]

/-- The guard after entering 0, then 1 in it, then 2 in that, and running into 1 from there. -/
def circling : Guard Nat :=
  (((((withLimits 4 9).enter 0).2.enter 1).2.enter 2).2.enter 1).2

/-- The innermost key is provisional then, and the key that the cycle reached is final once it is
left itself. -/
theorem orderly_reports_circling :
    Orderly 4 9 [.enter 1 .cycle, .enter 2 .entered, .enter 1 .entered, .enter 0 .entered]
      circling ∧
    (circling.leave 2).1 = true ∧ ¬ ((circling.leave 2).2.leave 1).1 = true := by
  have run : Orderly 4 9
      [.enter 1 .cycle, .enter 2 .entered, .enter 1 .entered, .enter 0 .entered] circling :=
    .enter 1 (.enter 2 (.enter 1 (.enter 0 .start)))
  have after : Orderly 4 9
      [.leave 2 true, .enter 1 .cycle, .enter 2 .entered, .enter 1 .entered, .enter 0 .entered]
      (circling.leave 2).2 := .leave run rfl
  obtain ⟨-, -, -, -, inner⟩ := orderly_reports run
  obtain ⟨-, -, -, -, outer⟩ := orderly_reports after
  refine ⟨run, ?_, ?_⟩
  · exact ((inner 2 [1, 0] rfl).2 [.enter 1 .cycle] [.enter 1 .entered, .enter 0 .entered]
      ⟨rfl, by simp⟩).mpr ⟨1, by simp [active], by simp⟩
  · rw [(outer 1 [0] rfl).2 [.leave 2 true, .enter 1 .cycle, .enter 2 .entered]
      [.enter 0 .entered] ⟨rfl, by simp⟩]
    simp [active]

end LuaTyping.Guard
