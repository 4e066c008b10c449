import LuaTyping.Proofs.Ty.Renaming

/-!
# Comparing renamed types

A comparison goes the same way when the type parameters of both types are renamed. The guard then
holds the keys of the renamed types, in the same places; since renaming keeps outlines apart and
alike, a key is active on one side just if its counterpart is on the other. So the two comparisons
enter and leave in step, count the same attempts and give the same answers. A union of renamed types
is therefore the renamed union, whichever alternatives the limits of the guard let it drop.
-/

set_option autoImplicit false
namespace LuaTyping.Subtyping

open Guard Ty

variable {names : String → String}

/-! ## Guards in step -/

/-- The second key is that of the same comparison with the types renamed. -/
def Corresponds (names : String → String) (key key' : Key) : Prop :=
  ∃ a b : Ty, key = (a.outline, b.outline) ∧
    key' = ((a.renamed names).outline, (b.renamed names).outline)

theorem Corresponds.beq {key key' other other' : Key} (involutive : names.Involutive)
    (h : Corresponds names key key') (h' : Corresponds names other other') :
    (key' == other') = (key == other) := by
  obtain ⟨a, b, rfl, rfl⟩ := h
  obtain ⟨c, d, rfl, rfl⟩ := h'
  rw [Bool.eq_iff_iff, beq_iff_eq, beq_iff_eq, Prod.mk.injEq, Prod.mk.injEq,
    outline_renamed_iff involutive, outline_renamed_iff involutive]

/-- The active keys correspond to each other one by one, at the same positions. -/
abbrev Entries (names : String → String) : List (Key × Nat) → List (Key × Nat) → Prop :=
  List.Forall₂ fun entry entry' => Corresponds names entry.1 entry'.1 ∧ entry'.2 = entry.2

/-- The second guard is the first with the keys of renamed types in place of the keys. -/
structure InStep (names : String → String) (guard guard' : Guard Key) : Prop where
  visiting : Entries names guard.visiting guard'.visiting
  others : guard' = { guard with visiting := guard'.visiting }

namespace InStep

variable {guard guard' : Guard Key} {key key' : Key}

theorem fresh (names : String → String) : InStep names freshGuard freshGuard := ⟨.nil, rfl⟩

theorem maxDepth (h : InStep names guard guard') : guard'.maxDepth = guard.maxDepth := by
  rw [h.others]

theorem position? (involutive : names.Involutive) (h : InStep names guard guard')
    (same : Corresponds names key key') : guard'.position? key' = guard.position? key := by
  have found {entries entries' : List (Key × Nat)}
      (visiting : Entries names entries entries') : entries'.lookup key' = entries.lookup key := by
    induction visiting with
    | nil => rfl
    | cons first _ ih =>
      rw [List.lookup_cons, List.lookup_cons, same.beq involutive first.1, first.2, ih]
  exact found h.visiting

theorem enter (involutive : names.Involutive) (h : InStep names guard guard')
    (same : Corresponds names key key') :
    (guard'.enter key').1 = (guard.enter key).1 ∧
      InStep names (guard.enter key).2 (guard'.enter key').2 := by
  have place := h.position? involutive same
  have visiting := h.visiting
  rw [h.others] at place ⊢
  simp only [Guard.enter, Guard.position?] at place ⊢
  rw [place]
  split
  · exact ⟨rfl, visiting, rfl⟩
  · split
    · exact ⟨rfl, visiting, rfl⟩
    · split
      · exact ⟨rfl, visiting, rfl⟩
      · exact ⟨rfl, .cons ⟨same, rfl⟩ visiting, rfl⟩

theorem leave (involutive : names.Involutive) (h : InStep names guard guard')
    (same : Corresponds names key key') :
    InStep names (guard.leave key).2 (guard'.leave key').2 := by
  have place := h.position? involutive same
  have erased {entries entries' : List (Key × Nat)} (visiting : Entries names entries entries') :
      Entries names (entries.eraseP fun entry => entry.1 == key)
        (entries'.eraseP fun entry => entry.1 == key') := by
    induction visiting with
    | nil => exact .nil
    | @cons entry entry' rest rest' first others ih =>
      rw [List.eraseP_cons, List.eraseP_cons, first.1.beq involutive same]
      cases entry.1 == key with
      | true => exact others
      | false => exact .cons first ih
  have visiting := h.visiting
  rw [h.others] at place ⊢
  simp only [Guard.leave] at place ⊢
  rw [place]
  split
  · exact ⟨visiting, rfl⟩
  · exact ⟨erased visiting, rfl⟩

end InStep

/-! ## Comparisons in step -/

/-- From guards in step the two computations give the same answer and leave guards in step. -/
structure Parallel (names : String → String) (run run' : CompareM Id Bool) : Prop where
  step : ∀ {guard guard' : Guard Key}, InStep names guard guard' →
    (outcome guard' run').1 = (outcome guard run).1 ∧
      InStep names (outcome guard run).2 (outcome guard' run').2

namespace Parallel

variable {run run' yes yes' no no' : CompareM Id Bool}

theorem pure (answer : Bool) : Parallel names (Pure.pure answer) (Pure.pure answer) :=
  ⟨fun h => ⟨rfl, h⟩⟩

theorem branch (first : Parallel names run run') (hyes : Parallel names yes yes')
    (hno : Parallel names no no') :
    Parallel names (do if ← run then yes else no) (do if ← run' then yes' else no') := by
  refine ⟨fun {guard guard'} h => ?_⟩
  obtain ⟨answer, h⟩ := first.step h
  rw [outcome_branch, outcome_branch, answer]
  cases (outcome guard run).1 with
  | true => exact hyes.step h
  | false => exact hno.step h

theorem not (h : Parallel names run run') :
    Parallel names (do return !(← run)) (do return !(← run')) :=
  ⟨fun inStep => ⟨congrArg (!·) (h.step inStep).1, (h.step inStep).2⟩⟩

theorem guarded (involutive : names.Involutive) {key key' : Key}
    (same : Corresponds names key key') (body : Parallel names run run') :
    Parallel names (guarded key run) (guarded key' run') := by
  refine ⟨fun {guard guard'} h => ?_⟩
  obtain ⟨answer, inside⟩ := h.enter involutive same
  rcases entered : guard.enter key with ⟨admission, after⟩
  rcases entered' : guard'.enter key' with ⟨admission', after'⟩
  rw [entered, entered'] at answer inside
  cases answer
  by_cases opened : admission = .entered
  · have run_inside {guard after : Guard Key} {key : Key} {run : CompareM Id Bool}
        (entered : guard.enter key = (admission, after)) :
        outcome guard (Subtyping.guarded key run)
          = ((outcome after run).1, ((outcome after run).2.leave key).2) := by
      simp [outcome, Subtyping.guarded, entered, opened]
    obtain ⟨answer, inside⟩ := body.step inside
    rw [run_inside entered, run_inside entered']
    exact ⟨answer, inside.leave involutive same⟩
  · have stays {guard after : Guard Key} {key : Key} {run : CompareM Id Bool}
        (entered : guard.enter key = (admission, after)) :
        outcome guard (Subtyping.guarded key run) = (admission == .cycle, after) := by
      cases admission <;> simp_all [outcome, Subtyping.guarded]
    rw [stays entered, stays entered']
    exact ⟨rfl, inside⟩

theorem allM {α β : Type} {test : α → CompareM Id Bool} {test' : β → CompareM Id Bool}
    {change : α → β} (xs : List α) (each : ∀ x, Parallel names (test x) (test' (change x))) :
    Parallel names (xs.allM test) ((xs.map change).allM test') := by
  induction xs with
  | nil => exact pure true
  | cons x xs ih =>
    rw [List.map_cons, allM_cons, allM_cons]
    exact branch (each x) ih (pure false)

theorem anyM {α β : Type} {test : α → CompareM Id Bool} {test' : β → CompareM Id Bool}
    {change : α → β} (xs : List α) (each : ∀ x, Parallel names (test x) (test' (change x))) :
    Parallel names (xs.anyM test) ((xs.map change).anyM test') := by
  induction xs with
  | nil => exact pure false
  | cons x xs ih =>
    rw [List.map_cons, anyM_cons, anyM_cons]
    exact branch (each x) (pure true) ih

end Parallel

section Levels

variable (involutive : names.Involutive) {rules : Rules Id}
  (blind : rules.resolver = Resolver.blind) {deeper : Ty → Ty → CompareM Id Bool}
  (parts : ∀ a b, Parallel names (deeper a b) (deeper (a.renamed names) (b.renamed names)))

include blind parts in
theorem parallel_hasMembers (className : Option String) (members expected : List (Member Ty)) :
    Parallel names (hasMembers rules deeper className members expected)
      (hasMembers rules deeper className (members.map (renamedMember names))
        (expected.map (renamedMember names))) := by
  refine .allM expected fun wanted => ?_
  have asked (ms : List (Member Ty)) (name : String) :
      memberOf rules.resolver className ms name = Pure.pure ((findMember? ms name).map (·.ty)) := by
    unfold memberOf
    rw [blind]
    cases findMember? ms name <;> cases className <;> rfl
  rw [asked, asked, renamedMember_name, findMember?_renamed]
  cases findMember? members wanted.name with
  | some found => exact parts found.ty wanted.ty
  | none => exact .pure false

include parts in
theorem parallel_acceptsParams (params expected : List Ty) (variadic : Bool) :
    Parallel names (acceptsParams deeper params expected variadic)
      (acceptsParams deeper (params.map (renamed names)) (expected.map (renamed names))
        variadic) := by
  rw [acceptsParams, acceptsParams, List.zip_map]
  refine .branch (.allM _ fun pair => parts pair.1 pair.2) ?_ (.pure false)
  cases variadic with
  | true => exact .pure true
  | false =>
    rw [List.length_map, ← List.map_drop]
    exact .allM _ fun param => parts .nil param

include blind parts in
theorem parallel_compareShapes (a b : Ty) :
    Parallel names (compareShapes rules deeper a b)
      (compareShapes rules deeper (a.renamed names) (b.renamed names)) := by
  cases a <;> cases b
  case named.record =>
    rw [renamed_named, renamed_record]
    exact parallel_hasMembers blind parts _ _ _
  case record.record =>
    rw [renamed_record, renamed_record]
    exact parallel_hasMembers blind parts _ _ _
  case array.record =>
    rw [renamed_record]
    simp only [compareShapes, renamed, List.isEmpty_map]
    exact .pure _
  case tuple.record =>
    rw [renamed_record]
    simp only [compareShapes, renamed, List.isEmpty_map]
    exact .pure _
  case array.array => exact parts _ _
  case tuple.array =>
    rw [renamed_tuple]
    exact .allM _ fun element => parts element _
  case tuple.tuple =>
    rw [renamed_tuple, renamed_tuple, compareShapes, compareShapes, List.length_map,
      List.length_map, List.zip_map]
    split
    · exact .allM _ fun pair => parts pair.1 pair.2
    · exact .pure false
  case function.function =>
    rw [renamed_function, renamed_function]
    exact .branch (parallel_acceptsParams parts _ _ _) (parts _ _) (.pure false)
  all_goals exact .pure _

include involutive blind parts

theorem parallel_belowSimple_definite (a : Ty) {b : Ty} (definite : b.isDefinite = true) :
    Parallel names (belowSimple rules deeper a b)
      (belowSimple rules deeper (a.renamed names) (b.renamed names)) := by
  rw [belowSimple_definite rules deeper definite,
    belowSimple_definite rules deeper ((isDefinite_renamed names b).trans definite),
    eqv_renamed involutive, isUnknown_renamed, isNil_renamed]
  split
  · exact .pure true
  · split
    · exact .pure false
    · split
      · exact .pure true
      · exact .guarded involutive ⟨a, b, rfl, rfl⟩ (parallel_compareShapes blind parts a b)

omit involutive blind parts in
theorem parallel_belowAny (a : Ty) {bs : List Ty}
    (each : ∀ b ∈ bs, Parallel names (belowSimple rules deeper a b)
      (belowSimple rules deeper (a.renamed names) (b.renamed names))) :
    Parallel names (belowAny rules deeper a bs)
      (belowAny rules deeper (a.renamed names) (bs.map (renamed names))) := by
  induction bs with
  | nil => exact .pure false
  | cons b rest ih =>
    obtain ⟨first, others⟩ := List.forall_mem_cons.mp each
    exact .branch first (.pure true) (ih others)

theorem parallel_belowSimple (a b : Ty) :
    Parallel names (belowSimple rules deeper a b)
      (belowSimple rules deeper (a.renamed names) (b.renamed names)) := by
  induction b using induction_on_parts with
  | step b ih =>
    cases b with
    | unknown => exact .pure true
    | union alts =>
      rw [renamed_union, belowSimple, belowSimple, isUnknown_renamed, isNil_renamed]
      split
      · exact .pure false
      · split
        · exact .pure true
        · exact parallel_belowAny a ih
    | _ => exact parallel_belowSimple_definite involutive blind parts a rfl

omit involutive blind parts in
theorem parallel_belowAll {as : List Ty} (b : Ty)
    (each : ∀ a ∈ as, Parallel names (below rules deeper a b)
      (below rules deeper (a.renamed names) (b.renamed names))) :
    Parallel names (belowAll rules deeper as b)
      (belowAll rules deeper (as.map (renamed names)) (b.renamed names)) := by
  induction as with
  | nil => exact .pure true
  | cons a rest ih =>
    obtain ⟨first, others⟩ := List.forall_mem_cons.mp each
    exact .branch first (ih others) (.pure false)

theorem parallel_below (a b : Ty) :
    Parallel names (below rules deeper a b)
      (below rules deeper (a.renamed names) (b.renamed names)) := by
  induction a using induction_on_parts with
  | step a ih =>
    cases a with
    | union alts =>
      have same := eqv_renamed involutive (.union alts) b
      rw [renamed_union] at same ⊢
      rw [below, below, same, isUnknown_renamed]
      split
      · exact .pure true
      · exact parallel_belowAll b ih
    | _ => exact parallel_belowSimple involutive blind parts _ b

end Levels

theorem parallel_compareWithin (involutive : names.Involutive) {rules : Rules Id}
    (blind : rules.resolver = Resolver.blind) (levels : Nat) (a b : Ty) :
    Parallel names (compareWithin rules levels a b)
      (compareWithin rules levels (a.renamed names) (b.renamed names)) := by
  induction levels generalizing a b with
  | zero => exact .pure false
  | succ levels ih => exact parallel_below involutive blind ih a b

theorem parallel_compare (involutive : names.Involutive) {rules : Rules Id}
    (blind : rules.resolver = Resolver.blind) (a b : Ty) :
    Parallel names (compare rules a b) (compare rules (a.renamed names) (b.renamed names)) := by
  refine ⟨fun {guard guard'} h => ?_⟩
  have opened (guard : Guard Key) (a b : Ty) : outcome guard (compare rules a b)
      = outcome guard (compareWithin rules (guard.maxDepth + 1) a b) := rfl
  rw [opened, opened, h.maxDepth]
  exact (parallel_compareWithin involutive blind _ a b).step h

end LuaTyping.Subtyping

/-! ## Unions -/

namespace LuaTyping.Union

open Guard Subtyping Ty

variable {names : String → String} (involutive : names.Involutive)
include involutive

theorem foldl_pushUnique_renamed (seen tys : List Ty) :
    (tys.map (renamed names)).foldl pushUnique (seen.map (renamed names))
      = (tys.foldl pushUnique seen).map (renamed names) := by
  induction tys generalizing seen with
  | nil => rfl
  | cons ty tys ih =>
    have pushed : pushUnique (seen.map (renamed names)) (ty.renamed names)
        = (pushUnique seen ty).map (renamed names) := by
      rw [pushUnique, memOf_renamed involutive, pushUnique]
      split
      · rfl
      · rw [List.map_append, List.map_singleton]
    rw [List.map_cons, List.foldl_cons, List.foldl_cons, pushed, ih]

theorem flatten_renamed (tys : List Ty) :
    flatten (tys.map (renamed names)) = (flatten tys).map (renamed names) := by
  have alternatives : (tys.map (renamed names)).flatMap alternatives
      = (tys.flatMap Ty.alternatives).map (renamed names) := by
    rw [List.flatMap_map, List.map_flatMap]
    exact List.flatMap_congr fun ty _ => alternatives_renamed names ty
  rw [flatten, alternatives]
  exact foldl_pushUnique_renamed involutive [] _

omit involutive in
theorem dropUnknown_renamed (tys : List Ty) :
    dropUnknown (tys.map (renamed names)) = (dropUnknown tys).map (renamed names) := by
  have known : isKnown ∘ renamed names = isKnown := funext (isKnown_renamed names)
  rw [dropUnknown, List.any_map, List.filter_map, known, dropUnknown]
  split <;> rfl

theorem parallel_covered (kept later : List Ty) (ty : Ty) :
    Parallel names (covered ⟨Resolver.blind, true⟩ kept later ty)
      (covered ⟨Resolver.blind, true⟩ (kept.map (renamed names)) (later.map (renamed names))
        (ty.renamed names)) := by
  have compared := @parallel_compare names involutive ⟨Resolver.blind, true⟩ rfl
  refine .branch (.anyM kept fun other => compared ty other) (.pure true) ?_
  refine .anyM later fun other => ?_
  exact .branch (compared ty other) (.not (compared other ty)) (.pure false)

theorem collapsed_renamed {guard guard' : Guard Key} (h : InStep names guard guard')
    (kept tys : List Ty) :
    (collapsed Resolver.blind (kept.map (renamed names)) (tys.map (renamed names)) guard').1
      = (collapsed Resolver.blind kept tys guard).1.map (renamed names) := by
  induction tys generalizing kept guard guard' with
  | nil => rfl
  | cons ty later ih =>
    obtain ⟨answer, h⟩ := (parallel_covered involutive kept later ty).step h
    rw [List.map_cons, collapsed_cons, collapsed_cons, answer]
    split
    · exact ih h kept
    · rw [← List.map_singleton, ← List.map_append]
      exact ih h (kept ++ [ty])

omit involutive in
theorem ofAlternatives_renamed (tys : List Ty) :
    ofAlternatives (tys.map (renamed names)) = (ofAlternatives tys).renamed names := by
  match tys with
  | [] => rfl
  | [ty] => rfl
  | first :: second :: rest => exact (renamed_union names (first :: second :: rest)).symm

theorem unionOf_renamed (tys : List Ty) :
    unionOf (tys.map (renamed names)) = (unionOf tys).renamed names := by
  have flat : dropUnknown (flatten (tys.map (renamed names)))
      = (dropUnknown (flatten tys)).map (renamed names) := by
    rw [flatten_renamed involutive, dropUnknown_renamed]
  by_cases nonempty : dropUnknown (flatten tys) = []
  · rw [unionOf, unionOf, unionWith, unionWith, flat, nonempty]
    rfl
  · rw [unionOf, unionOf, unionWith_eq_ofAlternatives nonempty, unionWith_eq_ofAlternatives, flat,
      ← ofAlternatives_renamed]
    · exact congrArg ofAlternatives (collapsed_renamed involutive (.fresh names) [] _)
    · rw [flat]
      exact mt List.map_eq_nil_iff.mp nonempty

end LuaTyping.Union
