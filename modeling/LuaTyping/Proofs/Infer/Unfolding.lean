import LuaTyping.Proofs.Decl.Snapshot
import LuaTyping.Proofs.Decl.Steps
import LuaTyping.Proofs.Infer.Balance
import LuaTyping.Proofs.Ty.Arguments

/-!
# Aliases without circles

An alias stands for its target with the arguments filled in, and a type is *unfolded* by putting in
for each reference what it stands for, again and again. Nothing watches over that, so it need not
end; but if the aliases can be ordered such that each one names earlier ones only, it does.

A query unfolds under its guard, which knows an alias by name only. The same alias may stand in its
own arguments and many times in one target, and none of that is a circle: arguments are unfolded
before the alias is entered, and what is put in for them has no name in it. So within its limits the
guard never shows, and a query answers with the unfolded type.

There are two limits, on how deep aliases are inside one another and on how many are entered in all.
The last part has a few short aliases that keep within the first and not the second.
-/

set_option autoImplicit false

namespace LuaTyping

/-! ## Unfolding -/

/-- What comes of putting in types for references: the answer, for how many references a target was
put in, and how deep inside one another. -/
structure Unfolded (α : Type) where
  answer : α
  expansions : Nat
  nesting : Nat

namespace Unfolded

variable {α β : Type}

instance : Monad Unfolded where
  pure answer := ⟨answer, 0, 0⟩
  bind first next :=
    let second := next first.answer
    ⟨second.answer, first.expansions + second.expansions, max first.nesting second.nesting⟩

theorem ext {a b : Unfolded α} (answer : a.answer = b.answer)
    (expansions : a.expansions = b.expansions) (nesting : a.nesting = b.nesting) : a = b := by
  cases a
  cases b
  simp_all

theorem pure_bind (answer : α) (next : α → Unfolded β) : (pure answer >>= next) = next answer :=
  ext rfl (Nat.zero_add _) (Nat.zero_max _)

theorem bind_assoc {γ : Type} (first : Unfolded α) (second : α → Unfolded β)
    (third : β → Unfolded γ) :
    (first >>= second >>= third) = first >>= fun answer => second answer >>= third :=
  ext rfl (Nat.add_assoc ..) (Nat.max_assoc ..)

theorem bind_eq (first : Unfolded α) (next : α → Unfolded β) :
    first >>= next = ⟨(next first.answer).answer,
      first.expansions + (next first.answer).expansions,
      max first.nesting (next first.answer).nesting⟩ := rfl

/-- The answer can be followed through, whatever was counted on the way. -/
theorem follows : Follows Unfolded fun good unfolded => good unfolded.answer where
  pure h := h
  bind h next := next _ h
  map h imp := imp _ h
  weaken h imp := imp _ h
  any _ := trivial

/-- The same as the target of one more reference. -/
def inside (unfolded : Unfolded α) : Unfolded α :=
  ⟨unfolded.answer, unfolded.expansions + 1, unfolded.nesting + 1⟩

end Unfolded

namespace Snapshot

/-- The parameters and the target of an alias, by its first declaration. -/
def aliasTarget? (snapshot : Snapshot) (name : String) : Option (List String × Ty) :=
  ((snapshot.aliasDecls name).head?.bind snapshot.entry?).map fun entry =>
    (entry.generics, entry.declared.getD .unknown)

/-- What a reference stands for: the target of the alias with its arguments filled in, unfolded in
turn. A name that is no alias stands for nothing known. -/
def unfoldRef (snapshot : Snapshot) (unfold : Ty → Unfolded Ty) (name : String)
    (args : Unfolded (List Ty)) : Unfolded Ty :=
  match snapshot.aliasTarget? name with
  | none => pure .unknown
  | some (params, target) => do
    let args ← args
    (unfold (target.fillIn params args)).inside

/-- The type unfolded, where at most `levels` aliases may be inside one another. -/
def unfoldWithin (snapshot : Snapshot) : (levels : Nat) → Ty → Unfolded Ty
  | 0 => fun _ => pure .unknown
  | levels + 1 => fun ty => ty.expandM (snapshot.unfoldRef (snapshot.unfoldWithin levels))

/-- The type unfolded with no limit: what it comes to as soon as enough levels are allowed. -/
def UnfoldsTo (snapshot : Snapshot) (ty : Ty) (unfolded : Unfolded Ty) : Prop :=
  ∃ enough, ∀ levels, enough ≤ levels → snapshot.unfoldWithin levels ty = unfolded

end Snapshot

namespace Infer

/-! ## Following a plan without a guard -/

/-- What a plan comes to if every alias it asks for is unfolded in its place. The aliases on the way
to the plan are `active`, and no alias is met inside itself. -/
inductive Unfolds (ctx : Context) : List String → {α : Type} → Plan Task α → Unfolded α → Prop
  | done {active : List String} {α : Type} (answer : α) :
      Unfolds ctx active (.done answer) (pure answer)
  | note {active : List String} {α : Type} {next : Plan Task α} {unfolded : Unfolded α}
      (name : String) (h : Unfolds ctx active next unfolded) :
      Unfolds ctx active (.note name next) unfolded
  | ask {active : List String} {α : Type} {name : String} {file : FileId} {target : Ty}
      {next : Ty → Plan Task α} {first : Unfolded Ty} {rest : Unfolded α} (fresh : name ∉ active)
      (inner : Unfolds ctx (name :: active) ((Goal.resolve target).plan ctx) first)
      (later : Unfolds ctx active (next first.answer) rest) :
      Unfolds ctx active (.ask (.expansion name file target) next) (first.inside >>= fun _ => rest)

namespace Unfolds

variable {ctx : Context} {active : List String} {α β : Type}

theorem bind {plan : Plan Task α} {next : α → Plan Task β} {first : Unfolded α}
    {second : α → Unfolded β} (h : Unfolds ctx active plan first)
    (h' : Unfolds ctx active (next first.answer) (second first.answer)) :
    Unfolds ctx active (plan >>= next) (first >>= second) := by
  induction h with
  | done answer => rw [Unfolded.pure_bind]; exact h'
  | note name _ ih => exact .note name (ih h')
  | ask fresh inner _ _ ih =>
    rw [Unfolded.bind_assoc]
    exact .ask fresh inner (ih h')

/-- There is one way to follow a plan. -/
theorem unique {plan : Plan Task α} {unfolded unfolded' : Unfolded α}
    (h : Unfolds ctx active plan unfolded) (h' : Unfolds ctx active plan unfolded') :
    unfolded = unfolded' := by
  induction h with
  | done answer => cases h'; rfl
  | note name _ ih => 
    cases h' with
    | note _ h' => exact ih h'
  | ask fresh _ _ inner later =>
    cases h' with
    | ask _ inner' later' =>
      cases inner inner'
      cases later later'
      rfl

end Unfolds

/-! ## Plans for references -/

section Expansion

variable {ctx : Context} {active : List String} {allowed : String → Prop}
  {expand : String → Plan Task (List Ty) → Plan Task Ty}
  {expand' : String → Unfolded (List Ty) → Unfolded Ty}
  (each : ∀ name, allowed name → ∀ plan args, Unfolds ctx active plan args →
    (∀ arg ∈ args.answer, arg.Resolved) → Unfolds ctx active (expand name plan) (expand' name args))
  (resolves : ∀ name args, (expand' name args).answer.Resolved)

open Ty in
theorem unfolds_expandRefsListM {tys : List Ty}
    (parts : ∀ ty ∈ tys, Unfolds ctx active (expandRefsM expand ty) (expandRefsM expand' ty)) :
    Unfolds ctx active (expandRefsListM expand tys) (expandRefsListM expand' tys) := by
  induction tys with
  | nil => exact .done _
  | cons ty rest ih =>
    rw [expandRefsListM, expandRefsListM]
    obtain ⟨first, others⟩ := List.forall_mem_cons.mp parts
    exact .bind first (.bind (ih others) (.done _))

open Ty in
theorem unfolds_expandRefsMembersM {members : List (Member Ty)}
    (parts : ∀ ty ∈ members.map (·.ty),
      Unfolds ctx active (expandRefsM expand ty) (expandRefsM expand' ty)) :
    Unfolds ctx active (expandRefsMembersM expand members)
      (expandRefsMembersM expand' members) := by
  induction members with
  | nil => exact .done _
  | cons member rest ih =>
    rw [expandRefsMembersM, expandRefsMembersM]
    obtain ⟨first, others⟩ := List.forall_mem_cons.mp parts
    exact .bind first (.bind (ih others) (.done _))

include resolves

open Ty in
theorem unfolds_expandArgsM {tys : List Ty}
    (parts : ∀ ty ∈ tys, Unfolds ctx active (expandRefsM expand ty) (expandRefsM expand' ty)) :
    Unfolds ctx active (expandArgsM expand tys) (expandArgsM expand' tys) ∧
      ∀ arg ∈ (expandArgsM expand' tys).answer, arg.Resolved := by
  induction tys with
  | nil => exact ⟨.done _, nofun⟩
  | cons ty rest ih =>
    rw [expandArgsM, expandArgsM]
    obtain ⟨first, others⟩ := List.forall_mem_cons.mp parts
    obtain ⟨unfolds, resolved⟩ := ih others
    by_cases contained : ty.containsAlias = true
    · rw [if_pos contained, if_pos contained]
      refine ⟨.bind first (.bind unfolds (.done _)), ?_⟩
      exact List.forall_mem_cons.mpr ⟨holds_expandRefsM Unfolded.follows resolves ty, resolved⟩
    · rw [if_neg contained, if_neg contained]
      refine ⟨.bind (.done ty) (.bind unfolds (.done _)), ?_⟩
      exact List.forall_mem_cons.mpr ⟨Bool.eq_false_iff.mpr contained, resolved⟩

include each

open Ty in
theorem unfolds_expandRefsM {ty : Ty} (h : ty.MentionsOnly allowed) :
    Unfolds ctx active (expandRefsM expand ty) (expandRefsM expand' ty) := by
  induction ty using induction_on_parts with
  | step ty ih =>
    have parts : ∀ part ∈ ty.parts,
        Unfolds ctx active (expandRefsM expand part) (expandRefsM expand' part) :=
      fun part mem => ih part mem (h.part mem)
    cases ty with
    | function =>
      obtain ⟨returned, given⟩ := List.forall_mem_cons.mp parts
      rw [expandRefsM, expandRefsM]
      exact .bind (unfolds_expandRefsListM given) (.bind returned (.done _))
    | named | record =>
      rw [expandRefsM, expandRefsM]
      exact .bind (unfolds_expandRefsMembersM parts) (.done _)
    | union | tuple =>
      rw [expandRefsM, expandRefsM]
      exact .bind (unfolds_expandRefsListM parts) (.done _)
    | aliasRef name =>
      rw [expandRefsM, expandRefsM]
      obtain ⟨args, resolved⟩ := unfolds_expandArgsM resolves parts
      exact each name ((mentionsOnly_iff.mp h).1 _ _ rfl) _ _ args resolved
    | array element =>
      rw [expandRefsM, expandRefsM]
      exact .bind (parts element List.mem_cons_self) (.done _)
    | _ => exact .done _

theorem unfolds_expandM {ty : Ty} (h : ty.MentionsOnly allowed) :
    Unfolds ctx active (ty.expandM expand) (ty.expandM expand') := by
  unfold Ty.expandM
  split
  · exact unfolds_expandRefsM each resolves h
  · exact .done ty

end Expansion

/-! ## Aliases in an order -/

/-- The name is not that of a class, and if it is not that of an alias it is not taken for a global
either. -/
structure Context.Plain (ctx : Context) (name : String) : Prop where
  noClass : ctx.snapshot.isClass name = false
  noGlobal : ctx.snapshot.aliasDecls name = [] →
    ctx.options.globalNamesAsTypes = false ∨ ctx.snapshot.globalDecls name = []

/-- Every name in the type is plain, and every alias it names ranks below `bound`. -/
def NamesBelow (ctx : Context) (rank : String → Nat) (bound : Nat) (ty : Ty) : Prop :=
  ty.MentionsOnly fun name =>
    ctx.Plain name ∧ ((ctx.snapshot.aliasTarget? name).isSome → rank name < bound)

/-- The target of every alias names aliases of a lower rank only. -/
def Ranked (ctx : Context) (rank : String → Nat) : Prop :=
  ∀ name params target, ctx.snapshot.aliasTarget? name = some (params, target) →
    NamesBelow ctx rank (rank name) target

section Order

variable {ctx : Context} {rank : String → Nat}

theorem NamesBelow.mono {ty : Ty} {bound bound' : Nat} (h : NamesBelow ctx rank bound ty)
    (le : bound ≤ bound') : NamesBelow ctx rank bound' ty :=
  fun name occurs =>
    ⟨(h name occurs).1, fun found => Nat.lt_of_lt_of_le ((h name occurs).2 found) le⟩

/-- There are finitely many names in a type, so all of them are below some bound. -/
theorem exists_namesBelow (rank : String → Nat) {ty : Ty} (plain : ty.MentionsOnly ctx.Plain) :
    ∃ bound, NamesBelow ctx rank bound ty := by
  induction ty using Ty.induction_on_parts with
  | step ty ih =>
    have common (parts : List Ty) (each : ∀ part ∈ parts, ∃ bound, NamesBelow ctx rank bound part) :
        ∃ bound, ∀ part ∈ parts, NamesBelow ctx rank bound part := by
      induction parts with
      | nil => exact ⟨0, nofun⟩
      | cons part parts ih =>
        obtain ⟨⟨first, hfirst⟩, rest⟩ := List.forall_mem_cons.mp each
        obtain ⟨others, hothers⟩ := ih rest
        refine ⟨max first others, List.forall_mem_cons.mpr ⟨hfirst.mono (by omega), ?_⟩⟩
        exact fun part mem => (hothers part mem).mono (by omega)
    obtain ⟨bound, inner⟩ := common ty.parts fun part mem => ih part mem (plain.part mem)
    have outer : ∃ own, ∀ name args, ty = .aliasRef name args → rank name < own := by
      cases ty with
      | aliasRef name args => exact ⟨rank name + 1, by rintro _ _ ⟨⟩; omega⟩
      | _ => exact ⟨0, nofun⟩
    obtain ⟨own, houter⟩ := outer
    refine ⟨max bound own, Ty.mentionsOnly_iff.mpr ⟨fun name args same => ⟨?_, fun _ => ?_⟩, ?_⟩⟩
    · exact (Ty.mentionsOnly_iff.mp plain).1 name args same
    · have := houter name args same
      omega
    · exact fun part mem => (inner part mem).mono (by omega)

theorem resolved_unfoldRef {snapshot : Snapshot} {unfold : Ty → Unfolded Ty}
    (resolves : ∀ ty, (unfold ty).answer.Resolved) (name : String) (args : Unfolded (List Ty)) :
    (snapshot.unfoldRef unfold name args).answer.Resolved := by
  unfold Snapshot.unfoldRef
  split
  · rfl
  · exact resolves _

theorem resolved_unfoldWithin (snapshot : Snapshot) (levels : Nat) (ty : Ty) :
    (snapshot.unfoldWithin levels ty).answer.Resolved := by
  induction levels generalizing ty with
  | zero => rfl
  | succ levels ih => exact Ty.holds_expandM Unfolded.follows (resolved_unfoldRef ih) ty

/-- The plan for a reference to a plain name. -/
theorem expandRef_plain (running : ctx.cancelled = false) {name : String} (plain : ctx.Plain name)
    (args : Plan Task (List Ty)) :
    (ctx.snapshot.aliasTarget? name = none ∧
      expandRef ctx name args = .note name (.done .unknown)) ∨
    ∃ params target file, ctx.snapshot.aliasTarget? name = some (params, target) ∧
      expandRef ctx name args = .note name (args >>= fun args =>
        Plan.question (.expansion name file (target.fillIn params args))) := by
  simp only [expandRef, running, plain.noClass, Bool.false_eq_true, if_false,
    Ty.instantiate_ofArgs]
  cases decls : ctx.snapshot.aliasDecls name with
  | nil =>
    refine .inl ⟨by simp [Snapshot.aliasTarget?, decls], ?_⟩
    have untaken :
        (ctx.options.globalNamesAsTypes && !(ctx.snapshot.globalDecls name).isEmpty) = false := by
      rcases plain.noGlobal decls with off | none
      · rw [off, Bool.false_and]
      · rw [none, List.isEmpty_nil, Bool.not_true, Bool.and_false]
    simp only [untaken, Bool.false_eq_true, if_false]
    rfl
  | cons key rest =>
    cases entry : ctx.snapshot.entry? key with
    | none =>
      refine .inl ⟨by simp [Snapshot.aliasTarget?, decls, entry], ?_⟩
      simp only [entry]
      rfl
    | some entry' =>
      refine .inr ⟨entry'.generics, entry'.declared.getD .unknown, key.file, ?_, ?_⟩
      · simp [Snapshot.aliasTarget?, decls, entry]
      · simp only [entry]
        rfl

/-- Unfolding a reference follows its plan. The induction is on the ranks: what is put in for the
parameters has no name in it, so all names in the target with its arguments filled in rank below the
alias, and every alias on the way to it ranks at least as high. -/
theorem unfolds_expandRef (running : ctx.cancelled = false) (ranked : Ranked ctx rank)
    {bound levels : Nat} {active : List String} (enough : bound ≤ levels)
    (above : ∀ name ∈ active, bound ≤ rank name) (name : String)
    (allowed : ctx.Plain name ∧ ((ctx.snapshot.aliasTarget? name).isSome → rank name < bound))
    (plan : Plan Task (List Ty)) (args : Unfolded (List Ty))
    (unfolded : Unfolds ctx active plan args) (resolved : ∀ arg ∈ args.answer, arg.Resolved) :
    Unfolds ctx active (expandRef ctx name plan)
      (ctx.snapshot.unfoldRef (ctx.snapshot.unfoldWithin levels) name args) := by
  induction bound using Nat.strongRecOn generalizing levels active name plan args with
  | ind bound ih =>
    obtain ⟨plain, lower⟩ := allowed
    rcases expandRef_plain running plain plan with
      ⟨missing, hplan⟩ | ⟨params, target, file, found, hplan⟩ <;> rw [hplan]
    · rw [Snapshot.unfoldRef, missing]
      exact .note name (.done _)
    · rw [Snapshot.unfoldRef, found]
      have lower := lower (by rw [found]; rfl)
      have filled : NamesBelow ctx rank (rank name) (target.fillIn params args.answer) :=
        (Ty.rebuilds_mentionsOnly _).fillIn (ranked name params target found) params
          fun arg mem => (resolved arg mem).mentionsOnly
      have fresh : name ∉ active := fun mem => Nat.not_lt.mpr (above name mem) lower
      have above : ∀ other ∈ name :: active, rank name ≤ rank other := by
        refine List.forall_mem_cons.mpr ⟨Nat.le_refl _, fun other mem => ?_⟩
        exact Nat.le_trans (Nat.le_of_lt lower) (above other mem)
      obtain ⟨levels, rfl⟩ : ∃ fewer, levels = fewer + 1 := ⟨levels - 1, by omega⟩
      have inner := unfolds_expandM (ih _ lower (by omega) above)
        (resolved_unfoldRef (resolved_unfoldWithin ctx.snapshot levels)) filled
      exact .note name (.bind unfolded (.ask fresh inner (.done _)))

theorem unfolds_resolve (running : ctx.cancelled = false) (ranked : Ranked ctx rank) {ty : Ty}
    {bound levels : Nat} (below : NamesBelow ctx rank bound ty) (enough : bound < levels) :
    Unfolds ctx [] ((Goal.resolve ty).plan ctx) (ctx.snapshot.unfoldWithin levels ty) := by
  obtain ⟨levels, rfl⟩ : ∃ fewer, levels = fewer + 1 := ⟨levels - 1, by omega⟩
  exact unfolds_expandM (unfolds_expandRef running ranked (Nat.le_of_lt_succ enough)
    (List.forall_mem_nil _))
    (resolved_unfoldRef (resolved_unfoldWithin ctx.snapshot levels)) below

end Order

/-! ## Attempts -/

/-- More attempts to enter were made than the guard allows, and its counter can show it. -/
def Exhausted (guard : Guard GuardKey) : Prop :=
  guard.maxIterations < guard.iterations ∧ guard.maxIterations < Limits.counterMax

namespace Exhausted

variable {guard : Guard GuardKey} {s s' : State}

theorem counted (h : Exhausted guard) : Exhausted guard.counted := by
  obtain ⟨passed, counts⟩ := h
  exact ⟨Nat.lt_min.mpr ⟨Nat.lt_succ_of_lt passed, counts⟩, counts⟩

theorem leave (h : Exhausted guard) (key : GuardKey) : Exhausted (guard.leave key).2 := by
  rw [Guard.leave]
  cases guard.position? key <;> exact h

theorem noted (h : Exhausted s.guard) (noted : Noted s s') : Exhausted s'.guard :=
  noted.guard ▸ h

theorem close (h : Exhausted s.guard) (ctx : Context) (task : Task) (key : GuardKey) (ty : Ty) :
    Exhausted (task.close ctx key ty s).2.guard := by
  rw [Task.close]
  split
  · exact h.leave key
  · cases task <;> exact h.leave key

theorem run {κ α : Type} {answer : κ → InferM Ty}
    (persists : ∀ question s, Exhausted s.guard → Exhausted (exec (answer question) s).2.guard)
    (plan : Plan κ α) (h : Exhausted s.guard) : Exhausted (exec (plan.run answer) s).2.guard := by
  induction plan generalizing s with
  | done result => exact h
  | note name next ih => exact ih (h.noted (noted_recordName s name))
  | ask question next ih => exact ih _ (persists question s h)

theorem perform {ctx : Context} {deeper : Solver}
    (persists : ∀ goal s, Exhausted s.guard → Exhausted (exec (deeper goal) s).2.guard)
    (task : Task) (s : State) (h : Exhausted s.guard) :
    Exhausted (exec (perform ctx deeper task) s).2.guard := by
  cases known : task.known? ctx s with
  | some ty =>
    obtain ⟨after, noted, hrun⟩ := perform_known ctx deeper known
    rw [hrun]
    exact h.noted noted
  | none =>
    cases guarded : task.guardKey? with
    | some key =>
      rcases perform_guarded ctx deeper known guarded with
        ⟨-, -, after, noted, hrun⟩ | ⟨-, -, index, -, after, noted, hrun⟩ |
        ⟨-, -, inside, -, hinside, done, hdone, hrun⟩ <;> rw [hrun]
      · exact noted.guard ▸ h.counted
      · exact noted.guard ▸ h.counted
      · have entered : Exhausted inside.guard := hinside.guard ▸ h.counted
        exact ((run persists (task.rule ctx) entered).noted hdone).close ctx task key _
    | none =>
      rcases perform_nested ctx deeper known guarded with
        ⟨-, -, hrun⟩ | ⟨-, inside, -, hinside, _, rfl, hrun⟩ <;> rw [hrun]
      · exact h
      · have deepened : Exhausted inside.guard := hinside ▸ h
        exact run persists (task.rule ctx) deepened

theorem solveWithin (ctx : Context) (levels : Nat) (goal : Goal) (s : State)
    (h : Exhausted s.guard) : Exhausted (exec (solveWithin ctx levels goal) s).2.guard := by
  induction levels generalizing goal s with
  | zero => exact h
  | succ levels ih => exact run (perform ih) (goal.plan ctx) h

end Exhausted

/-! ## Following a plan under the guard -/

/-- No active alias is missing from `active`, and the limits and levels leave room for so many more
inside one another. -/
structure HasRoom (active : List String) (nesting levels : Nat) (s : State) : Prop where
  counts : s.guard.maxIterations < Limits.counterMax
  outer : ∀ name, .aliasName name ∈ s.guard.keys → name ∈ active
  depth : s.guard.depth + nesting ≤ s.guard.maxDepth
  enough : nesting ≤ levels

namespace HasRoom

variable {active : List String} {nesting nesting' levels : Nat} {s s' : State}

theorem kept (h : HasRoom active nesting levels s) (kept : Kept s s') (le : nesting' ≤ nesting) :
    HasRoom active nesting' levels s' := by
  have depth : s'.guard.depth = s.guard.depth := congrArg List.length kept.frames
  have room := h.depth
  have enough := h.enough
  refine ⟨?_, ?_, ?_, by omega⟩
  · rw [kept.maxIterations]
    exact h.counts
  · rw [Guard.keys, kept.visiting]
    exact h.outer
  · rw [depth, kept.maxDepth]
    omega

theorem inside (h : HasRoom active (nesting + 1) (levels + 1) s) {name : String}
    (noted : Noted { s with guard := s.guard.counted.pushed (.aliasName name) } s') :
    HasRoom (name :: active) nesting levels s' := by
  have pushed : HasRoom (name :: active) nesting levels
      { s with guard := s.guard.counted.pushed (.aliasName name) } := by
    refine ⟨h.counts, fun other mem => ?_, ?_, Nat.le_of_succ_le_succ h.enough⟩
    · rcases List.mem_cons.mp mem with same | mem
      · cases same
        exact List.mem_cons_self
      · exact List.mem_cons_of_mem name (h.outer other mem)
    · have room := h.depth
      show s.guard.depth + 1 + nesting ≤ s.guard.maxDepth
      omega
  exact pushed.kept (Kept.of_noted noted) (Nat.le_refl nesting)

end HasRoom

/-- While attempts last, the answer is that of unfolding and every reference was one attempt;
otherwise the attempts are used up. -/
structure Arrives {α : Type} (unfolded : Unfolded α) (s : State) (result : α × State) : Prop where
  within : s.guard.iterations + unfolded.expansions ≤ s.guard.maxIterations →
    result.1 = unfolded.answer ∧
      result.2.guard.iterations = s.guard.iterations + unfolded.expansions
  beyond : s.guard.maxIterations < s.guard.iterations + unfolded.expansions →
    Exhausted result.2.guard

/-- What an alias stands for is not kept, so its frame is closed in one way. -/
theorem close_expansion (ctx : Context) (name : String) (file : FileId) (target ty : Ty)
    (key : GuardKey) (s : State) :
    (Task.expansion name file target).close ctx key ty s
      = (ty, { s with guard := (s.guard.leave key).2 }) := by
  rw [Task.close]
  split <;> rfl

/-- An alias is entered, its target is unfolded inside, and it is left. -/
theorem arrives_expansion {ctx : Context} {active : List String} {name : String} {file : FileId}
    {target : Ty} {unfolded : Unfolded Ty} (fresh : name ∉ active) {levels : Nat} {s : State}
    (room : HasRoom active (unfolded.nesting + 1) (levels + 1) s)
    (inner : ∀ inside, HasRoom (name :: active) unfolded.nesting levels inside →
      Arrives unfolded inside
        (exec (((Goal.resolve target).plan ctx).run (perform ctx (solveWithin ctx levels)))
          inside)) :
    Arrives unfolded.inside s
      (exec (perform ctx (solveWithin ctx (levels + 1)) (.expansion name file target)) s) := by
  have counts := room.counts
  have deep := room.depth
  have unknown : (Task.expansion name file target).known? ctx s = none := rfl
  rcases perform_guarded ctx (solveWithin ctx (levels + 1)) unknown rfl with
    ⟨spent, -, after, noted, hrun⟩ | ⟨-, -, index, position, -⟩ |
    ⟨free, -, inside, -, hinside, done, hdone, hrun⟩
  · -- there is room inside, so it is the attempts that have come to an end
    have overrun : s.guard.maxIterations < min (s.guard.iterations + 1) Limits.counterMax := by
      refine spent.resolve_right fun full => ?_
      have : s.guard.maxDepth ≤ s.guard.depth := full
      omega
    have exhausted : Exhausted after.guard := noted.guard ▸ ⟨overrun, counts⟩
    rw [hrun]
    refine ⟨fun few => ?_, fun _ => exhausted⟩
    have : s.guard.iterations + (unfolded.expansions + 1) ≤ s.guard.maxIterations := few
    omega
  · have mem : .aliasName name ∈ s.guard.keys := by
      rw [← Guard.position?_isSome_iff, position]
      rfl
    exact absurd (room.outer name mem) fresh
  · have entered : inside.guard.iterations = s.guard.iterations + 1 := by
      have notOverrun : ¬ s.guard.maxIterations < min (s.guard.iterations + 1) Limits.counterMax :=
        fun overrun => free (.inl overrun)
      have attempt : inside.guard.iterations = min (s.guard.iterations + 1) Limits.counterMax := by
        rw [hinside.guard]
        rfl
      omega
    have limit : inside.guard.maxIterations = s.guard.maxIterations := by
      rw [hinside.guard]
      rfl
    obtain ⟨within, beyond⟩ := inner inside (room.inside hinside)
    rw [entered, limit] at within beyond
    rw [hrun, close_expansion]
    refine ⟨fun few => ?_, fun many => ?_⟩
    · obtain ⟨answer, attempts⟩ := within (by simp only [Unfolded.inside] at few; omega)
      refine ⟨answer, ?_⟩
      show (done.guard.leave _).2.iterations = s.guard.iterations + (unfolded.expansions + 1)
      rw [Guard.leave_iterations, hdone.guard]
      exact attempts.trans (by omega)
    · have exhausted := beyond (by simp only [Unfolded.inside] at many; omega)
      exact (Exhausted.noted exhausted hdone).leave _

theorem Unfolds.run {ctx : Context} {active : List String} {α : Type} {plan : Plan Task α}
    {unfolded : Unfolded α} (h : Unfolds ctx active plan unfolded) {levels : Nat} {s : State}
    (room : HasRoom active unfolded.nesting levels s) :
    Arrives unfolded s (exec (plan.run (perform ctx (solveWithin ctx levels))) s) := by
  induction h generalizing levels s with
  | done answer => exact ⟨fun _ => ⟨rfl, rfl⟩, fun many => ⟨many, room.counts⟩⟩
  | note name _ ih =>
    have noted := noted_recordName s name
    have arrives := ih (room.kept (Kept.of_noted noted) (Nat.le_refl _))
    exact ⟨noted.guard ▸ arrives.within, noted.guard ▸ arrives.beyond⟩
  | @ask active α name file target next first rest fresh _ _ ihInner ihLater =>
    have nested : first.nesting + 1 ≤ max (first.nesting + 1) rest.nesting := Nat.le_max_left ..
    have after : rest.nesting ≤ max (first.nesting + 1) rest.nesting := Nat.le_max_right ..
    obtain ⟨levels, rfl⟩ : ∃ fewer, levels = fewer + 1 :=
      ⟨levels - 1, by have : max (first.nesting + 1) rest.nesting ≤ levels := room.enough; omega⟩
    have here : Arrives first.inside s
        (exec (perform ctx (solveWithin ctx (levels + 1)) (.expansion name file target)) s) :=
      arrives_expansion fresh (room.kept (Kept.refl s) nested) fun inside room => ihInner room
    have keeps := balanced_perform ctx (balanced_solveWithin ctx (levels + 1))
      (.expansion name file target) s
    have total : (first.inside >>= fun _ => rest).expansions
        = first.inside.expansions + rest.expansions := rfl
    rw [exec_run_ask]
    by_cases few : s.guard.iterations + first.inside.expansions ≤ s.guard.maxIterations
    · obtain ⟨answer, attempts⟩ := here.within few
      obtain ⟨within, beyond⟩ := ihLater (room.kept keeps after)
      rw [attempts, keeps.maxIterations] at within beyond
      rw [answer]
      refine ⟨fun few => ?_, fun many => beyond (by omega)⟩
      obtain ⟨answer, attempts⟩ := within (by omega)
      exact ⟨answer, attempts.trans (by omega)⟩
    · have exhausted := here.beyond (Nat.lt_of_not_le few)
      refine ⟨fun few => absurd few (by omega), fun _ => ?_⟩
      exact Exhausted.run (Exhausted.perform (Exhausted.solveWithin ctx (levels + 1))) _ exhausted

/-- Where the aliases of a project can be put in an order in which each names earlier ones only, a
type that names nothing but aliases unfolds to one type, and a query gives that type for it, unless
aliases are deeper inside one another or more in number than the guard admits. -/
theorem solve_unfolded {ctx : Context} (running : ctx.cancelled = false) {rank : String → Nat}
    (ranked : Ranked ctx rank) {ty : Ty} (plain : ty.MentionsOnly ctx.Plain) :
    ∃ unfolded, ctx.snapshot.UnfoldsTo ty unfolded ∧
      (unfolded.nesting ≤ ctx.options.maxDepth →
        unfolded.expansions ≤ Profile.declarationInference.maxIterations →
        ∀ s : State, s.guard = .withLimits ctx.options.maxDepth
            Profile.declarationInference.maxIterations →
          (exec (solve ctx (.resolve ty)) s).1 = unfolded.answer) := by
  obtain ⟨bound, below⟩ := exists_namesBelow rank plain
  have unfolds (levels : Nat) (enough : bound < levels) :
      Unfolds ctx [] ((Goal.resolve ty).plan ctx) (ctx.snapshot.unfoldWithin levels ty) :=
    unfolds_resolve running ranked below enough
  have settled : ctx.snapshot.UnfoldsTo ty (ctx.snapshot.unfoldWithin (bound + 1) ty) := by
    refine ⟨bound + 1, fun levels enough => ?_⟩
    exact (unfolds levels enough).unique (unfolds (bound + 1) (Nat.lt_succ_self bound))
  refine ⟨_, settled, fun nesting few s fresh => ?_⟩
  have room : HasRoom [] (ctx.snapshot.unfoldWithin (bound + 1) ty).nesting
      (2 * ctx.options.maxDepth) s := by
    refine ⟨?_, ?_, ?_, by omega⟩ <;> rw [fresh]
    · show 1000000 < Limits.counterMax
      decide
    · exact nofun
    · exact (Nat.zero_add _).symm ▸ nesting
  have arrives := (unfolds (bound + 1) (Nat.lt_succ_self bound)).run room
  refine (arrives.within ?_).1
  rw [fresh]
  exact (Nat.zero_add _).symm ▸ few

/-! ## Many references in few words -/

/-- Where attempts are used up, an alias is not entered. -/
theorem perform_exhausted {s : State} (h : Exhausted s.guard) (ctx : Context) (deeper : Solver)
    (name : String) (file : FileId) (target : Ty) :
    (exec (perform ctx deeper (.expansion name file target)) s).1 = .unknown := by
  have unknown : (Task.expansion name file target).known? ctx s = none := rfl
  have spent : s.guard.Spent := .inl h.counted.1
  rcases perform_guarded ctx deeper unknown rfl with
    ⟨-, -, after, -, hrun⟩ | ⟨free, -⟩ | ⟨free, -⟩
  · rw [hrun]
    rfl
  · exact absurd spent free
  · exact absurd spent free

open Ty in
/-- The same argument many times over. -/
theorem expandArgsM_replicate {expand : String → Unfolded (List Ty) → Unfolded Ty} {ty : Ty}
    {unfolded : Unfolded Ty} (contained : ty.containsAlias = true)
    (h : expandRefsM expand ty = unfolded) (count : Nat) :
    expandArgsM expand (.replicate (count + 1) ty)
      = ⟨.replicate (count + 1) unfolded.answer, (count + 1) * unfolded.expansions,
          unfolded.nesting⟩ := by
  have first (rest : List Ty) : expandArgsM expand (ty :: rest)
      = (do let ty ← unfolded; let rest ← expandArgsM expand rest; pure (ty :: rest)) := by
    rw [expandArgsM, if_pos contained, h]
  induction count with
  | zero =>
    rw [List.replicate_one, first]
    exact Unfolded.ext rfl (by simp [expandArgsM, bind, pure]) (by simp [expandArgsM, bind, pure])
  | succ count ih =>
    rw [List.replicate_succ, first, ih]
    refine Unfolded.ext rfl ?_ (by simp [bind, pure])
    show unfolded.expansions + ((count + 1) * unfolded.expansions + 0) = _
    rw [Nat.add_zero, Nat.succ_mul (count + 1), Nat.add_comm]

theorem unfoldWithin_succ (snapshot : Snapshot) (levels : Nat) {ty : Ty}
    (contained : ty.containsAlias = true) :
    snapshot.unfoldWithin (levels + 1) ty
      = ty.expandRefsM (snapshot.unfoldRef (snapshot.unfoldWithin levels)) :=
  if_pos contained

namespace CrowdedAliases

/-- A reference with many equal arguments to an alias that stands for the first of them. -/
abbrev first (count : Nat) (arg : Ty) : Ty := .aliasRef "First" (.replicate count arg)

/-- The same twice over, with a thousand arguments in all. -/
abbrev crowd (arg : Ty) : Ty := first 40 (first 25 arg)

/-- A file that declares an alias for its own parameter, and another alias. -/
def tree (target : TypeExpr) : Tree where
  nodes := #[⟨.docOnly, ⟨0, 1⟩, some 1⟩, ⟨.block [some 0], ⟨0, 3⟩, some 2⟩,
    ⟨.chunk (some 1), ⟨0, 5⟩, none⟩]
  docs := .ofList [(0, ⟨[.aliasTag "First" [⟨"T", none⟩] (.name "T" []),
    .aliasTag "Crowd" [] target]⟩)]
  root := some 2

def entry (id : Nat) (name : String) (params : List String) (target : Ty) : Entry :=
  { Entry.plain id .aliasDecl name (some 0) (some 0) ⟨0, 1⟩ with
    declared := some target
    generics := params
    hoisted := true }

theorem entries_eq (target : TypeExpr) : (Collect.run (tree target)).table.entries
    = #[entry 0 "First" ["T"] (.generic "T"), entry 1 "Crowd" [] (target.lower [])] := by
  have doc : (tree target).doc? (some 0) = some ⟨_⟩ :=
    Std.HashMap.getElem?_ofList_of_mem (k := 0) rfl (by simp) List.mem_cons_self
  rw [Collect.run_docOnly rfl rfl rfl doc]
  rfl

theorem lowerList_replicate (generics : List String) (expr : TypeExpr) (count : Nat) :
    TypeExpr.lowerList generics (.replicate count expr)
      = .replicate count (expr.lower generics) := by
  induction count with
  | zero => rfl
  | succ count ih => rw [List.replicate_succ, TypeExpr.lowerList, ih, List.replicate_succ]

/-- The target of the second alias, which refers to the first one a thousand times. -/
def target : TypeExpr :=
  .name "First" (.replicate 40 (.name "First" (.replicate 25 (.name "First" [.name "number" []]))))

theorem lower_target : target.lower [] = crowd (.aliasRef "First" [.number]) := by
  rw [target, TypeExpr.lower, lowerList_replicate, TypeExpr.lower, lowerList_replicate]
  rfl

def indexed : IndexedFile := ⟨⟨1⟩, 1, tree target, .ofTree ⟨1⟩ (tree target)⟩

def context : Context := .make (.ofFiles [indexed]) .standard .empty false

theorem listed_eq (kind : DeclKind) (name : String) :
    indexed.listed (Entry.nameIf kind) name
      = if kind = .aliasDecl then
          if name = "First" then [⟨⟨1⟩, 0⟩] else if name = "Crowd" then [⟨⟨1⟩, 1⟩] else []
        else [] := by
  have entries : indexed.decls.table.entries
      = #[entry 0 "First" ["T"] (.generic "T"), entry 1 "Crowd" [] (target.lower [])] :=
    entries_eq target
  rw [IndexedFile.listed_eq, entries]
  generalize target.lower [] = lowered
  by_cases declares : kind = .aliasDecl
  · subst declares
    by_cases h : name = "First"
    · subst h; rfl
    by_cases h' : name = "Crowd"
    · subst h'; rfl
    simp [h, h', Entry.nameIf, entry, Entry.plain, Ne.symm h, Ne.symm h']
  · rw [if_neg declares]
    simp [Entry.nameIf, entry, Entry.plain, Ne.symm declares]

theorem entry?_eq (decl : Nat) : context.snapshot.entry? ⟨⟨1⟩, decl⟩
    = #[entry 0 "First" ["T"] (.generic "T"), entry 1 "Crowd" [] (target.lower [])][decl]? := by
  refine (Snapshot.entry?_of_file? (Snapshot.file?_singleton indexed) decl).trans ?_
  show (Collect.run (tree target)).table.entries[decl]? = _
  rw [entries_eq]

theorem plain (name : String) : context.Plain name := by
  constructor
  · show (Snapshot.ofFiles [indexed]).isClass name = false
    rw [Snapshot.isClass_ofFiles, Snapshot.classDecls_ofFiles, List.flatMap_singleton, listed_eq]
    rfl
  · intro _
    refine .inr ?_
    show (Snapshot.ofFiles [indexed]).globalDecls name = []
    rw [Snapshot.globalDecls_ofFiles, List.flatMap_singleton, listed_eq]
    rfl

theorem aliasTarget?_eq (name : String) : context.snapshot.aliasTarget? name
    = if name = "First" then some (["T"], .generic "T")
      else if name = "Crowd" then some ([], crowd (.aliasRef "First" [.number]))
      else none := by
  have decls : context.snapshot.aliasDecls name = _ := Snapshot.aliasDecls_ofFiles [indexed] name
  rw [List.flatMap_singleton, listed_eq] at decls
  rw [Snapshot.aliasTarget?, decls, ← lower_target]
  by_cases h : name = "First"
  · subst h
    simp [entry?_eq, entry]
  by_cases h' : name = "Crowd"
  · subst h'
    simp [entry?_eq, entry]
  simp [h, h']

/-- The alias that stands for its parameter comes first. -/
theorem ranked : Ranked context fun name => if name = "Crowd" then 1 else 0 := by
  have nowhere : (Ty.generic "T").MentionsOnly fun _ => False :=
    (Ty.resolved_generic "T").mentionsOnly
  have around {count : Nat} {arg : Ty} (h : arg.MentionsOnly (· = "First")) :
      (first count arg).MentionsOnly (· = "First") := by
    refine Ty.mentionsOnly_iff.mpr ⟨?_, fun _ mem => List.eq_of_mem_replicate mem ▸ h⟩
    rintro _ _ ⟨⟩
    rfl
  have outer : (crowd (first 1 .number)).MentionsOnly (· = "First") :=
    around (around (around Ty.resolved_number.mentionsOnly))
  intro name params target found other occurs
  refine ⟨plain other, fun _ => ?_⟩
  rw [aliasTarget?_eq] at found
  split at found
  · cases found
    exact absurd occurs (nowhere other)
  · split at found
    · rename_i crowd
      cases found
      cases outer other occurs
      subst crowd
      decide
    · cases found

/-- A reference to the first alias, after its arguments. -/
theorem unfoldRef_first {unfold : Ty → Unfolded Ty} {args : Unfolded (List Ty)} {arg : Ty}
    (head : args.answer.headD .unknown = arg) (h : unfold arg = pure arg) :
    context.snapshot.unfoldRef unfold "First" args
      = ⟨arg, args.expansions + 1, max args.nesting 1⟩ := by
  have filled : (Ty.generic "T").fillIn ["T"] args.answer = args.answer.headD .unknown := rfl
  have step : context.snapshot.unfoldRef unfold "First" args
      = (do let args ← args; (unfold ((Ty.generic "T").fillIn ["T"] args)).inside) := by
    rw [Snapshot.unfoldRef, aliasTarget?_eq]
    rfl
  rw [step, Unfolded.bind_eq, filled, head, h]
  rfl

/-- All the arguments are unfolded, although only the first one matters. -/
theorem unfoldWithin_first (count : Nat) {levels expansions nesting : Nat} {arg : Ty}
    (contained : arg.containsAlias = true)
    (h : context.snapshot.unfoldWithin (levels + 2) arg = ⟨.number, expansions, nesting⟩) :
    context.snapshot.unfoldWithin (levels + 2) (first (count + 1) arg)
      = ⟨.number, (count + 1) * expansions + 1, max nesting 1⟩ := by
  have number : context.snapshot.unfoldWithin (levels + 1) .number = pure .number := rfl
  rw [unfoldWithin_succ _ _ contained] at h
  have args := expandArgsM_replicate contained h count
  have outer : context.snapshot.unfoldWithin (levels + 2) (first (count + 1) arg) = _ :=
    unfoldRef_first (by rw [args]; rfl) number
  rw [outer, args]

/-- The second alias: a thousand references, those around them, and the alias itself. -/
theorem unfoldWithin_crowd (levels : Nat) :
    context.snapshot.unfoldWithin (levels + 3) (.aliasRef "Crowd" []) = ⟨.number, 1042, 2⟩ := by
  have number : context.snapshot.unfoldWithin (levels + 1) .number = pure .number := rfl
  have one : context.snapshot.unfoldWithin (levels + 2) (.aliasRef "First" [.number])
      = ⟨.number, 1, 1⟩ := unfoldRef_first rfl number
  have step : context.snapshot.unfoldWithin (levels + 3) (.aliasRef "Crowd" [])
      = (context.snapshot.unfoldWithin (levels + 2)
          (crowd (.aliasRef "First" [.number]))).inside := by
    have found := aliasTarget?_eq "Crowd"
    show context.snapshot.unfoldRef _ "Crowd" (pure []) = _
    rw [Snapshot.unfoldRef, found]
    exact Unfolded.pure_bind _ _
  rw [step, unfoldWithin_first 39 rfl (unfoldWithin_first 24 rfl one)]
  rfl

theorem unfoldsTo_crowd :
    context.snapshot.UnfoldsTo (crowd (.aliasRef "Crowd" [])) ⟨.number, 1042041, 2⟩ := by
  refine ⟨3, fun levels enough => ?_⟩
  obtain ⟨levels, rfl⟩ : ∃ fewer, levels = fewer + 3 := ⟨levels - 3, by omega⟩
  exact unfoldWithin_first 39 rfl (unfoldWithin_first 24 rfl (unfoldWithin_crowd levels))

/-- The arguments alone use up the attempts. -/
theorem exhausted_args {s : State} (fresh : s.guard = .withLimits 500 1000000) :
    Exhausted (exec ((Ty.expandArgsM (expandRef context)
      (.replicate 40 (first 25 (.aliasRef "Crowd" [])))).run
        (perform context (solveWithin context 1000))) s).2.guard := by
  have names : ∀ ty ∈ List.replicate 40 (first 25 (.aliasRef "Crowd" [])),
      ty.MentionsOnly fun name => context.Plain name ∧
        ((context.snapshot.aliasTarget? name).isSome → (if name = "Crowd" then 1 else 0) < 2) := by
    intro ty _ name _
    exact ⟨plain name, fun _ => by split <;> decide⟩
  have resolves (name : String) (args : Unfolded (List Ty)) :
      (context.snapshot.unfoldRef (context.snapshot.unfoldWithin 2) name args).answer.Resolved :=
    resolved_unfoldRef (resolved_unfoldWithin context.snapshot 2) name args
  have unfolds := (unfolds_expandArgsM resolves fun ty mem => unfolds_expandRefsM
    (unfolds_expandRef rfl ranked (Nat.le_refl 2) (List.forall_mem_nil _)) resolves
    (names ty mem)).1
  have arg := unfoldWithin_first 24 rfl (unfoldWithin_crowd 0)
  rw [unfoldWithin_succ _ _ rfl] at arg
  rw [expandArgsM_replicate rfl arg 39] at unfolds
  have room : HasRoom [] 2 1000 s := by
    refine ⟨?_, ?_, ?_, by decide⟩ <;> rw [fresh]
    · decide
    · exact nofun
    · decide
  refine (unfolds.run room).beyond ?_
  rw [fresh]
  decide

/-- Unfolding the type takes more references than the guard admits attempts, and so it is answered
with nothing known although aliases are never more than two inside one another. -/
theorem solve_crowd :
    Ranked context (fun name => if name = "Crowd" then 1 else 0) ∧
    (crowd (.aliasRef "Crowd" [])).MentionsOnly context.Plain ∧
    context.snapshot.UnfoldsTo (crowd (.aliasRef "Crowd" [])) ⟨.number, 1042041, 2⟩ ∧
    2 ≤ context.options.maxDepth ∧
    (exec (solve context (.resolve (crowd (.aliasRef "Crowd" []))))
      (.start .standard .empty)).1 = .unknown := by
  refine ⟨ranked, fun name _ => plain name, unfoldsTo_crowd, by decide, ?_⟩
  rcases expandRef_plain rfl (plain "First")
      (Ty.expandArgsM (expandRef context) (.replicate 40 (first 25 (.aliasRef "Crowd" [])))) with
    ⟨missing, -⟩ | ⟨params, target, file, -, hplan⟩
  · rw [aliasTarget?_eq] at missing
    cases missing
  · show (exec ((expandRef context "First" _).run _) _).1 = _
    rw [hplan, exec_run_note, exec_run_bind]
    have noted := noted_recordName (.start .standard .empty) "First"
    exact perform_exhausted (exhausted_args noted.guard) context _ "First" file _

/-- An alias in its own arguments, one that lacks its argument, and a name that is no alias. -/
def mixed : Ty := .tuple [.aliasRef "First" [.aliasRef "First" [.aliasRef "Crowd" []]],
  .aliasRef "First" [], .aliasRef "Missing" []]

theorem unfoldWithin_mixed (levels : Nat) : context.snapshot.unfoldWithin (levels + 3) mixed
    = ⟨.tuple [.number, .unknown, .unknown], 1045, 2⟩ := by
  have known (levels : Nat) (ty : Ty) (h : ty.Resolved) :
      context.snapshot.unfoldWithin (levels + 1) ty = pure ty :=
    if_neg (Bool.eq_false_iff.mp h)
  have crowd := unfoldWithin_crowd levels
  rw [unfoldWithin_succ _ _ rfl] at crowd
  generalize expands : context.snapshot.unfoldRef (context.snapshot.unfoldWithin (levels + 2))
    = expand at crowd
  have inner : Ty.expandRefsM expand (.aliasRef "First" [.aliasRef "Crowd" []])
      = ⟨.number, 1043, 2⟩ := by
    have arg : Ty.expandArgsM expand [.aliasRef "Crowd" []] = _ :=
      expandArgsM_replicate rfl crowd 0
    rw [Ty.expandRefsM, arg, ← expands]
    exact unfoldRef_first rfl (known _ _ rfl)
  have outer : Ty.expandRefsM expand (.aliasRef "First" [.aliasRef "First" [.aliasRef "Crowd" []]])
      = ⟨.number, 1044, 2⟩ := by
    have arg : Ty.expandArgsM expand [.aliasRef "First" [.aliasRef "Crowd" []]] = _ :=
      expandArgsM_replicate rfl inner 0
    rw [Ty.expandRefsM, arg, ← expands]
    exact unfoldRef_first rfl (known _ _ rfl)
  have lacking : Ty.expandRefsM expand (.aliasRef "First" []) = ⟨.unknown, 1, 1⟩ := by
    rw [← expands]
    exact unfoldRef_first rfl (known _ _ rfl)
  have missing : Ty.expandRefsM expand (.aliasRef "Missing" []) = ⟨.unknown, 0, 0⟩ := by
    rw [Ty.expandRefsM, ← expands, Snapshot.unfoldRef, aliasTarget?_eq]
    rfl
  rw [unfoldWithin_succ _ _ rfl, expands, mixed]
  simp only [Ty.expandRefsM, Ty.expandRefsListM] at outer lacking missing ⊢
  rw [outer, lacking, missing]
  rfl

/-- None of this is taken for a circle. -/
theorem solve_unfolded_mixed :
    (Ranked context (fun name => if name = "Crowd" then 1 else 0) ∧
      mixed.MentionsOnly context.Plain) ∧
    (exec (solve context (.resolve mixed)) (.start .standard .empty)).1
      = .tuple [.number, .unknown, .unknown] := by
  have names : mixed.MentionsOnly context.Plain := fun name _ => plain name
  refine ⟨⟨ranked, names⟩, ?_⟩
  obtain ⟨unfolded, ⟨enough, settled⟩, answered⟩ := solve_unfolded rfl ranked names
  have result := (settled (enough + 3) (by omega)).symm.trans (unfoldWithin_mixed enough)
  subst result
  exact answered (by decide) (by decide) _ rfl

end CrowdedAliases

end Infer

end LuaTyping
