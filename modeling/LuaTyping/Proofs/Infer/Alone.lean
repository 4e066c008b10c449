import LuaTyping.Proofs.Infer.Balance
import LuaTyping.Proofs.Infer.Globals

/-!
# What is kept does not depend on what was in progress

A declaration can be needed while others are being inferred, and what is in progress around it
changes what it sees: a cycle through an outer frame is cut. A type is kept only if no such cut was
made. This file proves that this is enough: the type is the one that the declaration gets when it is
inferred alone, with the same cache and class values.

The proof runs the two side by side. `Aligned base` relates a state of the run on the stack to the
state of the run alone: the stack of the first is the stack of the second, moved up by the `base`
frames that are outside. What the two have put aside in their outermost frames may differ. The two
stay aligned, step by step, unless the first run escapes the frame at `base`.
-/

set_option autoImplicit false

namespace LuaTyping.Infer

open Guard

/-- A position, or a floor, as it stands above `base` further frames. -/
def raise (base : Nat) (floor : Option Nat) : Option Nat := floor.map (· + base)

theorem raise_lowest (base : Nat) (a b : Option Nat) :
    raise base (lowest a b) = lowest (raise base a) (raise base b) := by
  cases a <;> cases b <;> simp [raise, lowest, Nat.add_min_add_right]

theorem raise_filter (base index : Nat) (floor : Option Nat) :
    raise base (floor.filter fun i => decide (i < index))
      = (raise base floor).filter fun i => decide (i < index + base) := by
  cases floor with
  | none => rfl
  | some i => by_cases h : i < index <;> simp [raise, Option.filter, h]

/-- The first state is the second one above `base` frames in which the keys `outer` are active. -/
structure Aligned (base : Nat) (outer : List (GuardKey × Nat)) (s t : State) : Prop where
  visiting : s.guard.visiting
    = t.guard.visiting.map (fun entry => (entry.1, entry.2 + base)) ++ outer
  frames : ∃ inner below last, s.guard.frames = inner.map (raise base) ++ below ∧
    below.length = base + last.length ∧ t.guard.frames = inner ++ last
  floor : s.guard.cycleFloor = raise base t.guard.cycleFloor
  maxDepth : t.guard.maxDepth = s.guard.maxDepth
  maxIterations : t.guard.maxIterations = s.guard.maxIterations
  iterations : t.guard.iterations ≤ s.guard.iterations
  nesting : t.depth.depth ≤ s.depth.depth
  maxNesting : t.depth.maxDepth = s.depth.maxDepth
  unlimited : s.limitMet = false ∧ t.limitMet = false
  classes : t.classes = s.classes
  entries : t.cache.entries = s.cache.entries

namespace Aligned

variable {base : Nat} {outer : List (GuardKey × Nat)} {s t s' t' : State}

theorem depth_eq (h : Aligned base outer s t) : s.guard.depth = t.guard.depth + base := by
  obtain ⟨inner, below, last, hs, len, ht⟩ := h.frames
  simp only [Guard.depth, hs, ht, List.length_append, List.length_map, len]
  omega

theorem noted (h : Aligned base outer s t) (hs : Noted s s') (ht : Noted t t') :
    Aligned base outer s' t' := by
  obtain ⟨sg, sd, sc, se⟩ := hs
  obtain ⟨tg, td, tc, te⟩ := ht
  constructor <;> simp only [sg, sd, sc, se, tg, td, tc, te, State.limitMet]
  · exact h.visiting
  · exact h.frames
  · exact h.floor
  · exact h.maxDepth
  · exact h.maxIterations
  · exact h.iterations
  · exact h.nesting
  · exact h.maxNesting
  · exact h.unlimited
  · exact h.classes
  · exact h.entries

/-- A key is active alone, or else further out, or nowhere. -/
theorem position?_eq (h : Aligned base outer s t) (key : GuardKey) :
    s.guard.position? key = ((t.guard.position? key).map (· + base)).or (outer.lookup key) := by
  have moved : (t.guard.visiting.map fun entry => (entry.1, entry.2 + base)).lookup key
      = (t.guard.visiting.lookup key).map (· + base) := by
    induction t.guard.visiting with
    | nil => rfl
    | cons entry rest ih =>
      obtain ⟨active, index⟩ := entry
      rw [List.map_cons, List.lookup_cons, List.lookup_cons, ih]
      by_cases hk : key == active <;> simp [hk]
  rw [position?, position?, h.visiting, List.lookup_append, moved]

theorem not_spent (h : Aligned base outer s t) (room : ¬ s.guard.Spent) : ¬ t.guard.Spent := by
  rw [Spent, Overrun, Full, not_or] at room ⊢
  have := h.depth_eq
  have := h.iterations
  rw [h.maxDepth, h.maxIterations]
  omega

theorem known?_eq (h : Aligned base outer s t) (ctx : Context) (task : Task) :
    task.known? ctx t = task.known? ctx s := task.known?_congr ctx h.classes h.entries

/-- The two are cut short at the same frame. -/
theorem lowered (h : Aligned base outer s t) (index : Nat) :
    Aligned base outer { s with guard := s.guard.counted.lowered (index + base) }
      { t with guard := t.guard.counted.lowered index } where
  visiting := h.visiting
  frames := h.frames
  floor := by
    show lowest s.guard.cycleFloor (some (index + base))
      = raise base (lowest t.guard.cycleFloor (some index))
    rw [raise_lowest, h.floor]
    rfl
  maxDepth := h.maxDepth
  maxIterations := h.maxIterations
  iterations := by
    have := h.iterations
    show min (t.guard.iterations + 1) _ ≤ min (s.guard.iterations + 1) _
    omega
  nesting := h.nesting
  maxNesting := h.maxNesting
  unlimited := h.unlimited
  classes := h.classes
  entries := h.entries

/-- The two open the same frame. -/
theorem pushed (h : Aligned base outer s t) (key : GuardKey) :
    Aligned base outer { s with guard := s.guard.counted.pushed key }
      { t with guard := t.guard.counted.pushed key } where
  visiting := by
    show (key, s.guard.depth) :: s.guard.visiting
      = (key, t.guard.depth + base) :: _ ++ outer
    rw [h.depth_eq, h.visiting]
    rfl
  frames := by
    obtain ⟨inner, below, last, hs, len, ht⟩ := h.frames
    refine ⟨t.guard.cycleFloor :: inner, below, last, ?_, len, ?_⟩
    · show s.guard.cycleFloor :: s.guard.frames = _
      rw [h.floor, hs]
      rfl
    · show t.guard.cycleFloor :: t.guard.frames = _
      rw [ht]
      rfl
  floor := rfl
  maxDepth := h.maxDepth
  maxIterations := h.maxIterations
  iterations := by
    have := h.iterations
    show min (t.guard.iterations + 1) _ ≤ min (s.guard.iterations + 1) _
    omega
  nesting := h.nesting
  maxNesting := h.maxNesting
  unlimited := h.unlimited
  classes := h.classes
  entries := h.entries

end Aligned

/-- Inside a frame that both have opened, once the rule has run: the two leave it alike. -/
theorem aligned_leave {base : Nat} {outer : List (GuardKey × Nat)} {key : GuardKey}
    {s t done done' : State} (before : Aligned base outer s t) (framed : Framed key s done)
    (framed' : Framed key t done') (h : Aligned base outer done done') :
    (done.guard.leave key).1 = (done'.guard.leave key).1 ∧
      Aligned base outer { done with guard := (done.guard.leave key).2 }
        { done' with guard := (done'.guard.leave key).2 } := by
  have carried : (done.guard.cycleFloor.filter fun floor => decide (floor < s.guard.depth))
      = raise base (done'.guard.cycleFloor.filter fun floor => decide (floor < t.guard.depth)) := by
    rw [raise_filter, ← before.depth_eq, h.floor]
  rw [framed.leave_eq, framed'.leave_eq, carried]
  refine ⟨by simp [raise], ?_⟩
  exact {
    visiting := before.visiting
    frames := before.frames
    floor := by
      show lowest s.guard.cycleFloor _ = raise base (lowest t.guard.cycleFloor _)
      rw [raise_lowest, before.floor]
    maxDepth := h.maxDepth
    maxIterations := h.maxIterations
    iterations := h.iterations
    nesting := h.nesting
    maxNesting := h.maxNesting
    unlimited := h.unlimited
    classes := h.classes
    entries := h.entries }

/-- Both keep the same answer and answer the same. -/
theorem aligned_store {base : Nat} {outer : List (GuardKey × Nat)} {s t : State}
    (h : Aligned base outer s t) (ctx : Context) (task : Task) (ty : Ty) :
    (task.store ctx ty s).1 = (task.store ctx ty t).1 ∧
      Aligned base outer (task.store ctx ty s).2 (task.store ctx ty t).2 := by
  cases task with
  | decl key =>
    simp only [Task.store, Cache.insert, h.entries]
    cases s.cache.entries[cacheKey ctx key]? with
    | some kept => exact ⟨rfl, { h with }⟩
    | none => exact ⟨rfl, { h with entries := by simp }⟩
  | classValue name =>
    exact ⟨rfl, { h with classes := by simp [Task.store, h.classes] }⟩
  | expr | expansion => exact ⟨rfl, h⟩

theorem aligned_close {base : Nat} {outer : List (GuardKey × Nat)} {key : GuardKey}
    {s t done done' : State} (before : Aligned base outer s t) (framed : Framed key s done)
    (framed' : Framed key t done') (h : Aligned base outer done done') (ctx : Context)
    (task : Task) (ty : Ty) :
    (task.close ctx key ty done).1 = (task.close ctx key ty done').1 ∧
      Aligned base outer (task.close ctx key ty done).2 (task.close ctx key ty done').2 := by
  obtain ⟨provisional, left⟩ := aligned_leave before framed framed' h
  rw [Task.close, Task.close, provisional, h.unlimited.1, h.unlimited.2]
  split
  · exact ⟨rfl, left⟩
  · exact aligned_store left ctx task _

/-! ## Side by side -/

/-- The run on the stack has escaped, or the two have answered the same and are still aligned. -/
def Agree {α : Type} (base : Nat) (outer : List (GuardKey × Nat)) (r r' : α × State) : Prop :=
  Escaped base r.2 ∨ r.1 = r'.1 ∧ Aligned base outer r.2 r'.2

/-- The two ways of answering agree from aligned states on. -/
def InStep {κ : Type} (ctx : Context) (base : Nat) (outer : List (GuardKey × Nat))
    (levels levels' : Nat) (answer answer' : κ → InferM Ty) : Prop :=
  ∀ question s t, Aligned base outer s t → Ready ctx levels s → Ready ctx levels' t →
    Agree base outer (exec (answer question) s) (exec (answer' question) t)

section InStep

variable {ctx : Context} {base : Nat} {outer : List (GuardKey × Nat)} {levels levels' : Nat}

theorem agree_run {κ α : Type} {answer answer' : κ → InferM Ty} (balanced : Balanced answer)
    (balanced' : Balanced answer') (inStep : InStep ctx base outer levels levels' answer answer')
    (plan : Plan κ α) {s t : State} (aligned : Aligned base outer s t)
    (ready : Ready ctx levels s) (ready' : Ready ctx levels' t) :
    Agree base outer (exec (plan.run answer) s) (exec (plan.run answer') t) := by
  induction plan generalizing s t with
  | done result => exact .inr ⟨rfl, aligned⟩
  | note name next ih =>
    have hs := noted_recordName s name
    have ht := noted_recordName t name
    exact ih (aligned.noted hs ht) (ready.kept (Kept.of_noted hs)) (ready'.kept (Kept.of_noted ht))
  | ask question next ih =>
    rcases inStep question s t aligned ready ready' with escaped | ⟨same, aligned'⟩
    · exact .inl (escaped.kept (kept_run balanced _ _))
    · rw [exec_run_ask, exec_run_ask, ← same]
      exact ih _ aligned' (ready.kept (balanced question s)) (ready'.kept (balanced' question t))

section Tasks

variable {deeper deeper' : Solver} (balanced : Balanced deeper) (balanced' : Balanced deeper')
  (inStep : InStep ctx base outer levels levels' deeper deeper') {task : Task} {s t : State}
  (aligned : Aligned base outer s t) (ready : Ready ctx (levels + 1) s)
  (ready' : Ready ctx (levels' + 1) t) (known : task.known? ctx s = none)
include balanced balanced' inStep aligned ready ready' known

theorem agree_guarded (below : ∀ entry ∈ outer, entry.2 < base) {key : GuardKey}
    (guarded : task.guardKey? = some key) :
    Agree base outer (exec (perform ctx deeper task) s) (exec (perform ctx deeper' task) t) := by
  have known' := (aligned.known?_eq ctx task).trans known
  have position := aligned.position?_eq key
  rcases perform_guarded ctx deeper known guarded with
    ⟨-, -, after, noted, hrun⟩ | ⟨room, -, index, hpos, after, noted, hrun⟩ |
    ⟨room, hpos, inside, -, hinside, done, hdone, hrun⟩
  · rw [hrun]
    exact .inl (.inl ((Kept.of_noted noted).limit rfl))
  · rw [hpos] at position
    rcases perform_guarded ctx deeper' known' guarded with
      ⟨spent, -⟩ | ⟨-, -, index', hpos', after', noted', hrun'⟩ | ⟨-, hpos', -⟩
    · exact absurd spent (aligned.not_spent room)
    · rw [hpos'] at position
      cases position
      rw [hrun, hrun']
      exact .inr ⟨rfl, (aligned.lowered index').noted noted noted'⟩
    · -- the key is active further out: the run on the stack is cut short there
      rw [hpos'] at position
      have far : index < base := by
        obtain ⟨first, rest, rfl, -⟩ := List.lookup_eq_some_iff.mp position.symm
        exact below (key, index) (by simp)
      rw [hrun]
      refine .inl (.inr (.inl ((Kept.of_noted noted).floor base ?_)))
      exact reaches_lowest.mpr (.inr ⟨index, rfl, far⟩)
  · rw [hpos] at position
    rcases perform_guarded ctx deeper' known' guarded with
      ⟨spent, -⟩ | ⟨-, -, index', hpos', -⟩ | ⟨-, -, inside', -, hinside', done', hdone', hrun'⟩
    · exact absurd spent (aligned.not_spent room)
    · rw [hpos'] at position
      cases position
    · -- both open a frame, and the rule inside it is the same one
      have opened := (aligned.pushed key).noted hinside hinside'
      have framed := framed_of_kept hinside (kept_run balanced _ _) hdone
      have framed' := framed_of_kept hinside' (kept_run balanced' _ _) hdone'
      rw [hrun, hrun']
      rcases agree_run balanced balanced' inStep (task.rule ctx) opened
          (ready.inside room hinside) (ready'.inside (aligned.not_spent room) hinside') with
        escaped | ⟨same, ran⟩
      · have inner : base ≤ s.guard.depth := by
          rw [aligned.depth_eq]
          exact Nat.le_add_left _ _
        exact .inl ((escaped.kept (Kept.of_noted hdone)).close framed inner ctx task _)
      · rw [same]
        exact .inr (aligned_close aligned framed framed' (ran.noted hdone hdone') ctx task _)

theorem agree_nested (counted : task.guardKey? = none) :
    Agree base outer (exec (perform ctx deeper task) s) (exec (perform ctx deeper' task) t) := by
  have known' := (aligned.known?_eq ctx task).trans known
  rcases perform_nested ctx deeper known counted with
    ⟨-, -, hrun⟩ | ⟨room, _, -, rfl, r, hr, hrun⟩
  · rw [hrun]
    exact .inl (.inl (by simp [State.limitMet]))
  · -- the run alone has nested less, so it is not at its limit either
    have room' : t.depth.depth < t.depth.maxDepth := by
      have := aligned.nesting
      rw [aligned.maxNesting]
      omega
    rcases perform_nested ctx deeper' known' counted with
      ⟨full, -⟩ | ⟨-, _, -, rfl, r', hr', hrun'⟩
    · exact absurd room' (Nat.not_lt.mpr full)
    · have deepened : Aligned base outer
          { s with depth := { s.depth with depth := s.depth.depth + 1 } }
          { t with depth := { t.depth with depth := t.depth.depth + 1 } } :=
        { aligned with nesting := Nat.succ_le_succ aligned.nesting }
      have ran := agree_run balanced balanced' inStep (task.rule ctx) deepened
        (ready.nested room) (ready'.nested room')
      rw [← hr, ← hr'] at ran
      rw [hrun, hrun']
      rcases ran with escaped | ⟨same, ran⟩
      · exact .inl escaped
      · exact .inr ⟨same, { ran with nesting := Nat.sub_le_sub_right ran.nesting 1 }⟩

end Tasks

theorem inStep_perform {deeper deeper' : Solver} (below : ∀ entry ∈ outer, entry.2 < base)
    (balanced : Balanced deeper) (balanced' : Balanced deeper')
    (inStep : InStep ctx base outer levels levels' deeper deeper') :
    InStep ctx base outer (levels + 1) (levels' + 1) (perform ctx deeper)
      (perform ctx deeper') := by
  intro task s t aligned ready ready'
  cases known : task.known? ctx s with
  | some ty =>
    obtain ⟨after, noted, hrun⟩ := perform_known ctx deeper known
    obtain ⟨after', noted', hrun'⟩ :=
      perform_known ctx deeper' ((aligned.known?_eq ctx task).trans known)
    rw [hrun, hrun']
    exact .inr ⟨rfl, aligned.noted noted noted'⟩
  | none =>
    cases guarded : task.guardKey? with
    | some key =>
      exact agree_guarded balanced balanced' inStep aligned ready ready' known below guarded
    | none => exact agree_nested balanced balanced' inStep aligned ready ready' known guarded

theorem inStep_solveWithin (below : ∀ entry ∈ outer, entry.2 < base) (levels levels' : Nat) :
    InStep ctx base outer levels levels' (solveWithin ctx levels) (solveWithin ctx levels') := by
  induction levels generalizing levels' with
  | zero => exact fun _ _ _ _ ready => absurd ready.pos (Nat.lt_irrefl 0)
  | succ levels ih =>
    cases levels' with
    | zero => exact fun _ _ _ _ _ ready' => absurd ready'.pos (Nat.lt_irrefl 0)
    | succ levels' =>
      have balanced := balanced_solveWithin ctx levels
      have balanced' := balanced_solveWithin ctx levels'
      intro goal s t aligned ready ready'
      exact agree_run (balanced_perform ctx balanced) (balanced_perform ctx balanced')
        (inStep_perform below balanced balanced' (ih levels')) (goal.plan ctx) aligned ready ready'

end InStep

/-! ## Reachable states -/

/-- The states in which goals may be solved with a number of levels left while a query runs: the
query starts with any cache and any class values, solves goals in any order, and goes inside the
frames that its tasks open. -/
inductive Reachable (ctx : Context) : (levels : Nat) → State → Prop
  | start (cache : Cache) (classes : Std.HashMap String Ty) :
      Reachable ctx (2 * ctx.options.maxDepth + 1) (State.idle ctx.options cache classes)
  | solved {levels : Nat} {s : State} (h : Reachable ctx levels s) (goal : Goal) :
      Reachable ctx levels (exec (solveWithin ctx levels goal) s).2
  | noted {levels : Nat} {s : State} (h : Reachable ctx levels s) (name : String) :
      Reachable ctx levels (exec (recordName name) s).2
  | inside {levels : Nat} {s inside : State} (h : Reachable ctx (levels + 1) s) (task : Task)
      (opened : task.inside? ctx s = some inside) : Reachable ctx levels inside

theorem known?_of_inside? {ctx : Context} {task : Task} {s inside : State}
    (opened : task.inside? ctx s = some inside) : task.known? ctx s = none := by
  cases known : task.known? ctx s with
  | none => rfl
  | some ty => simp [Task.inside?, known] at opened

theorem Ready.opened {ctx : Context} {levels : Nat} {s inside : State} {task : Task}
    (ready : Ready ctx (levels + 1) s) (opened : task.inside? ctx s = some inside) :
    Ready ctx levels inside := by
  have known := known?_of_inside? opened
  cases guarded : task.guardKey? with
  | some key =>
    rcases perform_guarded ctx (solveWithin ctx levels) known guarded with
      ⟨-, denied, -⟩ | ⟨-, denied, -⟩ | ⟨room, -, inside', opened', hinside, -⟩
    · simp [denied] at opened
    · simp [denied] at opened
    · cases opened.symm.trans opened'
      exact ready.inside room hinside
  | none =>
    rcases perform_nested ctx (solveWithin ctx levels) known guarded with
      ⟨-, denied, -⟩ | ⟨room, inside', opened', hinside, -⟩
    · simp [denied] at opened
    · cases opened.symm.trans opened'
      rw [hinside]
      exact ready.nested room

theorem Reachable.ready {ctx : Context} {levels : Nat} {s : State} (h : Reachable ctx levels s) :
    Ready ctx levels s := by
  induction h with
  | start cache classes => exact ready_idle ctx cache classes
  | solved _ goal ih => exact ih.kept (balanced_solveWithin ctx _ goal _)
  | noted _ name ih => exact ih.kept (Kept.of_noted (noted_recordName _ name))
  | inside _ task opened ih => exact ih.opened opened

/-! ## A kept type -/

/-- Opening the same frame on a stack and alone gives aligned states. -/
theorem aligned_opened {ctx : Context} {levels : Nat} {s : State} (ready : Ready ctx levels s)
    (unlimited : s.limitMet = false) (key : GuardKey) :
    Aligned s.guard.depth s.guard.visiting { s with guard := s.guard.counted.pushed key }
      { State.idle ctx.options s.cache s.classes with
        guard := (State.idle ctx.options s.cache s.classes).guard.counted.pushed key } where
  visiting := by
    show (key, s.guard.depth) :: s.guard.visiting = (key, 0 + s.guard.depth) :: s.guard.visiting
    rw [Nat.zero_add]
  frames := ⟨[], s.guard.cycleFloor :: s.guard.frames, [none], rfl, rfl, rfl⟩
  floor := rfl
  maxDepth := ready.guardLimit.symm
  maxIterations := ready.attempts.symm
  iterations := by
    show min (0 + 1) _ ≤ min (s.guard.iterations + 1) _
    omega
  nesting := Nat.zero_le _
  maxNesting := ready.depthLimit.symm
  unlimited := ⟨unlimited, rfl⟩
  classes := rfl
  entries := rfl

theorem not_spent_idle {ctx : Context} {levels : Nat} {s : State} (ready : Ready ctx levels s)
    (room : ¬ s.guard.Spent) :
    ¬ (State.idle ctx.options s.cache s.classes).guard.Spent := by
  rw [Spent, Overrun, Full, not_or, ready.guardLimit, ready.attempts] at room
  rintro (overrun | full)
  · have : Profile.declarationInference.maxIterations < min (0 + 1) Limits.counterMax := overrun
    omega
  · have : ctx.options.maxDepth ≤ 0 := full
    omega

/-- Nothing lies outside a frame that is opened alone. -/
theorem leave_alone {options : Options} {cache : Cache} {classes : Std.HashMap String Ty}
    {key : GuardKey} {done : State} (framed : Framed key (State.idle options cache classes) done) :
    (done.guard.leave key).1 = false := by
  rw [framed.leave_eq]
  have none_below : (done.guard.cycleFloor.filter fun floor => decide (floor < 0)) = none := by
    simp
  exact congrArg Option.isSome none_below

/-- A declaration is entered somewhere in a query, the guard does not report its result as
provisional and no limit has been met: then inferring it alone, with the same cache and class
values, gives the type that it has there. -/
theorem declType_eq_alone (ctx : Context) {levels : Nat} {s inside : State} (key : DeclKey)
    (reachable : Reachable ctx (levels + 1) s)
    (entered : (Task.decl key).inside? ctx s = some inside)
    (final : ((exec ((Rule.declType ctx key).run (solveWithin ctx levels)) inside).2.guard.leave
      (.decl key)).1 = false)
    (unlimited : (exec ((Rule.declType ctx key).run (solveWithin ctx levels)) inside).2.limitMet
      = false) :
    (exec (solve ctx (.decl key)) (State.idle ctx.options s.cache s.classes)).1
      = (exec (solveWithin ctx (levels + 1) (.decl key)) s).1 := by
  have ready := reachable.ready
  have known := known?_of_inside? entered
  rcases perform_guarded ctx (solveWithin ctx levels) known rfl with
    ⟨-, denied, -⟩ | ⟨-, denied, -⟩ | ⟨room, -, inside₂, opened, hinside, done, hdone, hrun⟩
  · simp [denied] at entered
  · simp [denied] at entered
  cases entered.symm.trans opened
  have room' := not_spent_idle ready room
  have known' : (Task.decl key).known? ctx (State.idle ctx.options s.cache s.classes) = none :=
    known
  obtain ⟨inside', -, hinside', done', hdone', hrun'⟩ :=
    perform_inactive ctx (solveWithin ctx (2 * ctx.options.maxDepth)) known' rfl room' rfl
  have framed := framed_of_kept hinside (kept_run (balanced_solveWithin ctx levels) _ _) hdone
  have framed' := framed_of_kept hinside' (kept_run (balanced_solveWithin ctx _) _ _) hdone'
  have final' : (done.guard.leave (.decl key)).1 = false := by
    rw [hdone.guard]
    exact final
  have unlimited' : done.limitMet = false := by
    rw [State.limitMet, hdone.guard, hdone.depth]
    exact unlimited
  have start : s.limitMet = false :=
    Bool.eq_false_iff.mpr fun met => by simp [framed.limit met] at unlimited'
  have aligned := (aligned_opened ready start (.decl key)).noted hinside hinside'
  rcases agree_run (balanced_solveWithin ctx _) (balanced_solveWithin ctx _)
      (inStep_solveWithin ready.positions _ _) (Rule.declType ctx key) aligned
      (ready.inside room hinside)
      ((ready_idle ctx s.cache s.classes).inside room' hinside') with escaped | ⟨same, ran⟩
  · exact absurd (escaped.kept (Kept.of_noted hdone)) (not_escaped framed final' unlimited')
  · have ran' := ran.noted hdone hdone'
    show (exec (perform ctx _ (.decl key)) _).1 = (exec (perform ctx _ (.decl key)) s).1
    rw [hrun, hrun', Task.close, Task.close, final', leave_alone framed', ran'.unlimited.1,
      ran'.unlimited.2]
    have rule_eq : (Task.decl key).rule ctx = Rule.declType ctx key := rfl
    rw [rule_eq, same]
    split
    · rfl
    · simp only [Task.store, Cache.insert, ran'.entries]
      cases done.cache.entries[cacheKey ctx key]? <;> rfl

/-! ### A circle inside another declaration -/

/-- The first two globals are lists of each other, and the third is a list of the first. -/
def circleBelow : Context := GlobalsProject.context
  [("a", .array (.name "b" [])), ("b", .array (.name "a" [])), ("c", .array (.name "a" []))]

namespace CircleBelow

def key (i : Nat) : DeclKey := ⟨⟨1⟩, i⟩

/-- The guard inside the third global, inside the first one in it and the second one in that. -/
def outer : Guard GuardKey :=
  (State.idle Options.standard .empty ∅).guard.counted.pushed (.decl (key 2))

def middle : Guard GuardKey := outer.counted.pushed (.decl (key 0))

def inner : Guard GuardKey := middle.counted.pushed (.decl (key 1))

/-- The first global is met again inside the second one, whose type is provisional then. -/
theorem leads_first (levels : Nat) (depth : DepthCounter) :
    Leads ((Rule.declType circleBelow (key 0)).run (solveWithin circleBelow (levels + 2))) middle
      depth ∅ (.array (.array .unknown)) ((inner.counted.lowered 1).leave (.decl (key 1))).2 ∅ := by
  have unkept (i : Nat) : (∅ : Std.HashMap CacheKey Ty)[cacheKey circleBelow (key i)]? = none :=
    Std.HashMap.getElem?_empty
  have cut : Leads (perform circleBelow (solveWithin circleBelow levels) (.decl (key 0))) inner
      depth ∅ .unknown (inner.counted.lowered 1) ∅ :=
    leads_cut rfl (unkept 0) (by decide) (by decide)
  have second : Leads (perform circleBelow (solveWithin circleBelow (levels + 1)) (.decl (key 1)))
      middle depth ∅ (.array .unknown) ((inner.counted.lowered 1).leave (.decl (key 1))).2 ∅ :=
    leads_provisional rfl (unkept 1) (by decide) (by decide)
      (leads_list (GlobalsProject.entry?_eq rfl) rfl rfl rfl (GlobalsProject.namesGlobal rfl) cut)
      (by decide) rfl
  exact leads_list (GlobalsProject.entry?_eq rfl) rfl rfl rfl (GlobalsProject.namesGlobal rfl)
    second

end CircleBelow

open CircleBelow in
/-- The first global, needed while the third one is inferred. It is met again below its own frame,
the second one is provisional, and the frame is final: its type is kept. -/
theorem declType_eq_alone_circle :
    ∃ s inside, s.guard.visiting = [(.decl (key 2), 0)] ∧
      (Task.decl (key 0)).inside? circleBelow s = some inside ∧
      (exec ((Rule.declType circleBelow (key 0)).run (solveWithin circleBelow 999))
        inside).2.guard.cycleFloor = some 1 ∧
      (exec (solveWithin circleBelow 1000 (.decl (key 0))) s).2.cache.entries[
        cacheKey circleBelow (key 0)]? = some (.array (.array .unknown)) ∧
      (exec (solve circleBelow (.decl (key 0)))
          (State.idle circleBelow.options s.cache s.classes)).1
        = (exec (solveWithin circleBelow 1000 (.decl (key 0))) s).1 := by
  have unkept (i : Nat) : (∅ : Std.HashMap CacheKey Ty)[cacheKey circleBelow (key i)]? = none :=
    Std.HashMap.getElem?_empty
  have unknown : (Task.decl (key 2)).known? circleBelow (State.idle circleBelow.options .empty ∅)
      = none := unkept 2
  obtain ⟨s, opened, noted, -⟩ := perform_inactive circleBelow (solveWithin circleBelow 1000)
    unknown rfl (by decide) rfl
  have at_s : At outer (State.idle circleBelow.options .empty ∅).depth ∅ s :=
    ⟨noted.guard, noted.depth, noted.entries⟩
  have unknown' : (Task.decl (key 0)).known? circleBelow s = none :=
    (at_s.known?_eq rfl _).trans (unkept 0)
  obtain ⟨inside, opened', noted', -⟩ := perform_inactive circleBelow (solveWithin circleBelow 999)
    unknown' rfl (at_s.guard_eq ▸ by decide) (at_s.guard_eq ▸ by decide)
  have at_inside : At middle (State.idle circleBelow.options .empty ∅).depth ∅ inside :=
    (at_s.withGuard (·.counted.pushed _)).noted noted'
  obtain ⟨done, hrun, reached⟩ := leads_first 997 _ inside at_inside
  obtain ⟨after, hperform, kept⟩ := leads_decl rfl (unkept 0) (by decide) (by decide)
    (leads_first 997 _) (unkept 0) (by decide) rfl (by decide) rfl s at_s
  have hsolve : exec (solveWithin circleBelow 1000 (.decl (key 0))) s = (_, after) := hperform
  have reachable : Reachable circleBelow 1000 s := (Reachable.start .empty ∅).inside _ opened
  refine ⟨s, inside, by rw [at_s.guard_eq]; rfl, opened', ?_, ?_,
    declType_eq_alone circleBelow (key 0) reachable opened' ?_ ?_⟩
  · rw [hrun, reached.guard_eq]
    rfl
  · rw [hsolve, kept.entries_eq]
    exact Std.HashMap.getElem?_insert_self
  · rw [hrun, reached.guard_eq]
    rfl
  · rw [hrun]
    exact reached.unlimited (by decide) rfl

end LuaTyping.Infer
