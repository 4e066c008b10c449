import LuaTyping.Proofs.Infer.Inheritance
import LuaTyping.Proofs.Infer.Resolved

/-!
# Class values without inheritance cycles

The supertypes that a project declares may run in circles. A class value leaves out the supertypes
that lead back to its class, which a search over the declared links finds out; each class does so by
itself. The links that are left form no circle (`not_transGen_supersLink`): the first link of a
circle would belong to a class that lies above its own supertype, and such a link is left out.

The values themselves are the same wherever they come from: built now, kept from an earlier goal of
the query, or given without members because the class is being built or a limit was met. All of
these list the supertypes that `acyclicSupertypes` leaves (`classContract`).
-/

set_option autoImplicit false

namespace LuaTyping

/-- The direct supertypes that a class value lists. -/
def Ty.supers : Ty → List String
  | .named _ supers _ => supers
  | _ => []

namespace Infer

/-! ## What a class value lists -/

/-- The searches for circles among the supertypes of a project come to an end by themselves. -/
def SearchedOut (snapshot : Snapshot) : Prop :=
  ∀ name, ∀ candidate ∈ snapshot.supertypes name,
    givesUp snapshot.supertypes .breadthFirst name Limits.supertypeChain [] [candidate] = false

/-- A supertype is left out if it leads back to the class, and only then. -/
theorem Rule.mem_acyclicSupertypes {snapshot : Snapshot} (searched : SearchedOut snapshot)
    {name candidate : String} :
    candidate ∈ Rule.acyclicSupertypes snapshot name
      ↔ candidate ∈ snapshot.supertypes name ∧ ¬ Ancestor snapshot.supertypes candidate name := by
  rw [Rule.acyclicSupertypes, List.mem_filter]
  refine and_congr_right ?_
  intro declared
  rw [← meets_iff_ancestor .breadthFirst (searched name candidate declared)]
  simp

/-- The answer to a task is the value of a class with the supertypes that lead nowhere back, if it
is a class that is asked for. -/
def Task.Listed (ctx : Context) : Task → Ty → Prop
  | .classValue name, ty =>
    ∃ members, ty = .named name (Rule.acyclicSupertypes ctx.snapshot name) members
  | _, _ => True

/-- Whatever a query does, the class values that it gives and keeps list the same supertypes. -/
def classContract (ctx : Context) : Contract ctx where
  task := Task.Listed ctx
  goal _ _ := True
  state s := ∀ (name : String) (ty : Ty), s.classes[name]? = some ty →
    Task.Listed ctx (.classValue name) ty
  of_eq classes _ kept name ty found := kept name ty (classes ▸ found)
  known := by
    intro asked s ty kept known
    cases asked with
    | classValue name => exact kept name ty known
    | decl | expr | expansion => trivial
  fallback asked := by
    cases asked with
    | classValue name => exact ⟨[], rfl⟩
    | decl | expr | expansion => trivial
  unsolved _ := trivial
  rule asked := by
    cases asked with
    | classValue name => exact (Plan.Yields.any _).bind fun members _ => .pure ⟨members, rfl⟩
    | decl | expr | expansion => exact Plan.Yields.any _
  plan _ := Plan.Yields.any _
  finished := by
    intro asked ty listed
    cases asked with
    | classValue name => exact listed
    | decl | expr | expansion => trivial
  store := by
    intro asked key ty s guarded listed kept
    cases asked with
    | classValue name =>
      refine ⟨listed, ?_⟩
      intro other found hfound
      simp only [Task.store, Std.HashMap.getElem?_insert] at hfound
      split at hfound
      · rename_i same
        cases eq_of_beq same
        cases hfound
        exact listed
      · exact kept other found hfound
    | decl | expansion => exact ⟨trivial, kept⟩
    | expr => cases guarded

/-- The value that a query gives for a class after it has been asked for other things. -/
def classValueAfter (ctx : Context) (cache : Cache) (earlier : List Goal) (name : String) : Ty :=
  (exec (solve ctx (.classValue name)) (afterGoals ctx earlier (.start ctx.options cache))).1

theorem classValueAfter_eq (ctx : Context) (cache : Cache) (earlier : List Goal) (name : String) :
    ∃ members, classValueAfter ctx cache earlier name
      = .named name (Rule.acyclicSupertypes ctx.snapshot name) members := by
  have start : (classContract ctx).state (.start ctx.options cache) := by
    intro name ty found
    simp [State.start] at found
  have before := (classContract ctx).state_afterGoals earlier start
  have reliable := (classContract ctx).reliable_solveWithin (2 * ctx.options.maxDepth)
  -- the goal is the task itself, one level further in
  exact (Contract.reliable_perform reliable (.classValue name) _ before).answer

/-! ## All classes together -/

/-- Some query over the project gives a class a value with the second class among its
supertypes. -/
def SupersLink (snapshot : Snapshot) (name above : String) : Prop :=
  ∃ ctx cache earlier, ctx.snapshot = snapshot ∧
    above ∈ (classValueAfter ctx cache earlier name).supers

theorem supersLink_iff (snapshot : Snapshot) (name above : String) :
    SupersLink snapshot name above ↔ above ∈ Rule.acyclicSupertypes snapshot name := by
  have supers_eq (ctx : Context) (cache : Cache) (earlier : List Goal) :
      (classValueAfter ctx cache earlier name).supers
        = Rule.acyclicSupertypes ctx.snapshot name := by
    obtain ⟨members, value⟩ := classValueAfter_eq ctx cache earlier name
    rw [value, Ty.supers]
  constructor
  · rintro ⟨ctx, cache, earlier, rfl, link⟩
    rwa [supers_eq] at link
  · intro link
    let ctx := Context.make snapshot .standard .empty false
    refine ⟨ctx, .empty, [], rfl, ?_⟩
    rwa [supers_eq]

/-- Following the supertypes of class values from a class, one never comes back to it. -/
theorem not_transGen_supersLink {snapshot : Snapshot} (searched : SearchedOut snapshot)
    (name : String) : ¬ Relation.TransGen (SupersLink snapshot) name name := by
  intro circle
  obtain ⟨above, first, back⟩ := Relation.TransGen.head'_iff.mp circle
  have kept := (Rule.mem_acyclicSupertypes searched).mp ((supersLink_iff _ _ _).mp first)
  refine kept.2 (back.lift id ?_)
  intro below above link
  exact ((Rule.mem_acyclicSupertypes searched).mp ((supersLink_iff _ _ _).mp link)).1

/-- If no search for a circle stops short, the supertypes of class values form no circle, whichever
queries the values come from. And the value of a class lists every supertype that is declared for
it, unless the declared links lead from there back to the class. -/
theorem supers_acyclic (snapshot : Snapshot) (searched : SearchedOut snapshot) :
    (∀ name, ¬ Relation.TransGen (SupersLink snapshot) name name) ∧
    ∀ (ctx : Context) (cache : Cache) (earlier : List Goal) (name : String),
      ctx.snapshot = snapshot →
      ∃ supers members, classValueAfter ctx cache earlier name = .named name supers members ∧
        ∀ above, above ∈ supers ↔
          above ∈ snapshot.supertypes name ∧ ¬ Ancestor snapshot.supertypes above name := by
  refine ⟨not_transGen_supersLink searched, ?_⟩
  rintro ctx cache earlier name rfl
  obtain ⟨members, value⟩ := classValueAfter_eq ctx cache earlier name
  exact ⟨_, members, value, fun above => Rule.mem_acyclicSupertypes searched⟩

/-- Two classes that extend each other, and one that extends the first of them. -/
def circular : List (String × List String) := [("A", ["B"]), ("B", ["A"]), ("C", ["A"])]

theorem supertypes_circular :
    (Hierarchy.context circular).snapshot.supertypes = Hierarchy.direct circular :=
  Hierarchy.supertypes_eq (by decide)

/-- The two classes leave out each other. The third one keeps its supertype. -/
theorem supers_acyclic_circular :
    let ctx := Hierarchy.context circular
    SearchedOut ctx.snapshot ∧
    (∀ name, ¬ Relation.TransGen (SupersLink ctx.snapshot) name name) ∧
    ∃ supers members, classValueAfter ctx .empty [.classValue "A"] "C" = .named "C" supers members ∧
      "A" ∈ supers := by
  intro ctx
  have searched : SearchedOut ctx.snapshot := by
    have listed : ∀ name ∈ ["A", "B", "C"], ∀ candidate ∈ Hierarchy.direct circular name,
        givesUp (Hierarchy.direct circular) .breadthFirst name Limits.supertypeChain []
          [candidate] = false := by decide +kernel
    rw [SearchedOut, supertypes_circular]
    intro name candidate declared
    refine listed name ?_ candidate declared
    by_contra other
    simp only [List.mem_cons, List.not_mem_nil, or_false, not_or] at other
    simp [Hierarchy.direct, circular, Ne.symm other.1, Ne.symm other.2.1,
      Ne.symm other.2.2] at declared
  obtain ⟨acyclic, values⟩ := supers_acyclic ctx.snapshot searched
  obtain ⟨supers, members, value, lists⟩ := values ctx .empty [.classValue "A"] "C" rfl
  refine ⟨searched, acyclic, supers, members, value, (lists "A").mpr ⟨?_, ?_⟩⟩
  · rw [supertypes_circular]
    decide +kernel
  · intro back
    -- the two classes that extend each other lead only to each other
    have closed : ∀ name ∈ ["A", "B"], ctx.snapshot.supertypes name ⊆ ["A", "B"] := by
      rw [supertypes_circular]
      decide +kernel
    exact absurd (back.mem_of_closed closed (by decide)) (by decide)

end Infer

end LuaTyping
