import LuaTyping.Proofs.Subtyping.Replays
import LuaTyping.Proofs.Ty.Binding
import LuaTyping.Proofs.Ty.Irredundant
import Mathlib.Logic.Relation

/-!
# Normal types

Rebuilding a type takes its unions apart and builds them again, from the inside out and each under a
guard of its own. Where every union is what building one came to, that gives the type back, with its
alternatives in their order: so a replacement that replaces nothing changes nothing, the union of a
type with itself is the type, and putting types in for parameters that do not occur leaves it alone.

A union is built again from the alternatives that were kept. Each of them was compared with all the
others that were kept, and nothing covered it; so it is enough that these comparisons come out the
same. They are made again in the same order, only without those that involved an alternative that
was dropped, and hence under a guard that has counted no more attempts than the first one had at
that point (`Fresher`). As long as that one did not run out of attempts, the answers are the same.
-/

set_option autoImplicit false

namespace LuaTyping

open Ty Subtyping Guard

namespace Union

/-! ## Collapsing what was kept -/

section Collapse

variable {resolver : Resolver Id} {kept later part tys : List Ty} {ty : Ty}
  {guard used fresh : Guard Key}

theorem replays_strictly (resolver : Resolver Id) (ty other : Ty) :
    Replays (do
      if ← compare ⟨resolver, true⟩ ty other then pure !(← compare ⟨resolver, true⟩ other ty)
      else pure false) :=
  (replays_compare _ ty other).branch (replays_compare _ other ty).not (.pure false)

theorem replays_covered (resolver : Resolver Id) (kept later : List Ty) (ty : Ty) :
    Replays (covered ⟨resolver, true⟩ kept later ty) :=
  (Replays.anyM (replays_compare _ ty) kept).branch (.pure true)
    (.anyM (replays_strictly resolver ty) later)

/-- What nothing covers is not covered either when only some of the later types are there. -/
theorem uncovered_sublist (sub : part.Sublist later)
    (small : used.maxIterations < Limits.counterMax) (bounded : used.iterations ≤ Limits.counterMax)
    (fresher : Fresher used fresh)
    (uncovered : (outcome used (covered ⟨resolver, true⟩ kept later ty)).1 = false)
    (unspent : (outcome used (covered ⟨resolver, true⟩ kept later ty)).2.Unspent) :
    (outcome fresh (covered ⟨resolver, true⟩ kept part ty)).1 = false ∧
      Fresher (outcome used (covered ⟨resolver, true⟩ kept later ty)).2
        (outcome fresh (covered ⟨resolver, true⟩ kept part ty)).2 := by
  have before := Replays.anyM (replays_compare ⟨resolver, true⟩ ty) kept
  have strict := replays_strictly resolver ty
  have steady := before.repeats.steady used small
  obtain ⟨-, bounded⟩ := before.climbs used bounded
  rw [covered, outcome_branch] at uncovered unspent ⊢
  rw [covered, outcome_branch]
  cases answer : (outcome used (kept.anyM (compare ⟨resolver, true⟩ ty))).1 with
  | true => rw [answer] at uncovered; cases uncovered
  | false =>
    rw [answer, if_neg Bool.false_ne_true] at uncovered unspent
    have rest := (Replays.anyM strict later).repeats.steady _ (steady.small small)
    obtain ⟨same, fresher⟩ := before.repeats.again used fresh small fresher (rest.unspent unspent)
    rw [same, answer, if_neg Bool.false_ne_true, if_neg Bool.false_ne_true]
    exact Replays.anyM_sublist strict sub (steady.small small) bounded fresher uncovered unspent

/-- Collapsing keeps some of the types, and if only these are collapsed under a fresher guard, all
of them are kept. -/
theorem collapsed_again (idle : Idle guard) (bounded : guard.iterations ≤ Limits.counterMax)
    (unspent : (collapsed resolver kept tys guard).2.Unspent) :
    ∃ left, left.Sublist tys ∧ (collapsed resolver kept tys guard).1 = kept ++ left ∧
      ∀ fresh, Fresher guard fresh → (collapsed resolver kept left fresh).1 = kept ++ left := by
  induction tys generalizing kept guard with
  | nil =>
    have none (guard : Guard Key) : (collapsed resolver kept [] guard).1 = kept ++ [] :=
      (List.append_nil kept).symm
    exact ⟨[], .slnil, none guard, fun fresh _ => none fresh⟩
  | cons ty later ih =>
    have steady := (replays_covered resolver kept later ty).repeats.steady guard idle.small
    obtain ⟨more, bounded'⟩ := (replays_covered resolver kept later ty).climbs guard bounded
    have idle' := idle.steady steady
    rw [collapsed_cons] at unspent ⊢
    cases isCovered : (outcome guard (covered ⟨resolver, true⟩ kept later ty)).1 with
    | true =>
      rw [isCovered, if_pos rfl] at unspent
      rw [if_pos rfl]
      obtain ⟨left, sub, result, again⟩ := ih idle' bounded' unspent
      exact ⟨left, sub.cons ty, result, fun fresh h => again fresh (h.steady steady more)⟩
    | false =>
      rw [isCovered, if_neg Bool.false_ne_true] at unspent
      rw [if_neg Bool.false_ne_true]
      obtain ⟨left, sub, result, again⟩ := ih idle' bounded' unspent
      have joined : kept ++ ty :: left = kept ++ [ty] ++ left := List.append_cons kept ty left
      refine ⟨ty :: left, sub.cons_cons ty, result.trans joined.symm, fun fresh fresher => ?_⟩
      -- the type is compared with fewer later ones than before, and still none covers it
      obtain ⟨uncovered, fresher⟩ := uncovered_sublist sub idle.small bounded fresher isCovered
        ((steady_collapsed idle').unspent unspent)
      rw [collapsed_cons, uncovered, if_neg Bool.false_ne_true, joined]
      exact again _ fresher

end Collapse

/-- A union built from the alternatives of a union is the same. -/
theorem unionOf_again {tys alts : List Ty} (proper : ∀ ty ∈ tys, ty.Proper)
    (limits : WithinLimits Resolver.blind tys) (built : unionOf tys = .union alts) :
    unionOf alts = .union alts := by
  have union : (Ty.union alts).Proper := built ▸ rebuilds_proper.unionOf proper
  have definite (alt : Ty) (mem : alt ∈ alts) := union.toWellFormed.alternative_definite mem
  have flat : dropUnknown (flatten alts) = alts :=
    dropUnknown_flatten_eq definite union.tidy.alternatives_pairwise
  have nonempty : alts ≠ [] := by
    rintro rfl
    cases ((proper_iff _).mp union).1.2.2
  have some : knownAlternatives tys ≠ [] := by
    intro none
    have unknown : unionOf tys = .unknown := congrArg Id.run (unionWith_unknown _ none)
    rw [unknown] at built
    cases built
  have kept := alternatives_unionOf proper some
  obtain ⟨left, -, result, again⟩ := @collapsed_again Resolver.blind [] _ freshGuard idle_freshGuard
    (by decide) (.inl limits)
  obtain rfl : alts = left := by
    rw [built, result] at kept
    exact kept
  calc unionOf alts
    _ = ofAlternatives (collapsed Resolver.blind [] (dropUnknown (flatten alts)) freshGuard).1 :=
      unionWith_eq_ofAlternatives (flat.symm ▸ nonempty)
    _ = ofAlternatives alts := by
      rw [flat, again freshGuard idle_freshGuard]
      rfl
    _ = .union alts := ofAlternatives_alternatives union

/-- A type that is there already is not added. -/
theorem foldl_pushUnique_present {seen tys : List Ty} (present : ∀ ty ∈ tys, ty.memOf seen = true) :
    tys.foldl pushUnique seen = seen := by
  induction tys with
  | nil => rfl
  | cons ty later ih =>
    obtain ⟨first, rest⟩ := List.forall_mem_cons.mp present
    rw [List.foldl_cons, pushUnique, if_pos first]
    exact ih rest

/-- A type adds no alternatives to its own. -/
theorem flatten_pair {ty : Ty} (proper : ty.Proper) :
    flatten [ty, ty] = flatten ty.alternatives := by
  have single (alt : Ty) (mem : alt ∈ ty.alternatives) : alt.alternatives = [alt] := by
    rcases (proper.alternatives alt mem).2 with definite | rfl
    · cases alt with
      | union => cases definite
      | _ => rfl
    · rfl
  have once : ty.alternatives.flatMap alternatives = ty.alternatives := by
    rw [List.flatMap_congr single]
    exact List.flatMap_singleton' _
  have twice : [ty, ty].flatMap alternatives = ty.alternatives ++ ty.alternatives := by
    simp
  rw [flatten, flatten, once, twice, List.foldl_append]
  refine foldl_pushUnique_present fun alt mem => ?_
  have self := eqv_refl (proper.alternatives alt mem).1.tidy
  obtain ⟨found, found_mem, same⟩ := @exists_mem_foldl_pushUnique _ [] _ (.inr ⟨mem, self⟩)
  exact List.any_eq_true.mpr ⟨found, found_mem, same⟩

theorem unionOf_pair {ty : Ty} (proper : ty.Proper) :
    unionOf [ty, ty] = unionOf ty.alternatives := by
  rw [unionOf, unionOf, unionWith, unionWith, flatten_pair proper]

end Union

/-! ## Normal types -/

namespace Ty

/-- The first type is the second or stands anywhere inside it. -/
def NodeOf : Ty → Ty → Prop := Relation.ReflTransGen fun part whole => part ∈ whole.parts

/-- Every union in the type is what the union of some proper types came to, and no comparison made
for it met a limit. -/
inductive Normal : Ty → Prop
  | node {ty : Ty}
      (built : ∀ alts, ty = .union alts → ∃ tys : List Ty, (∀ source ∈ tys, source.Proper) ∧
        Union.WithinLimits Resolver.blind tys ∧ unionOf tys = ty)
      (parts : ∀ part ∈ ty.parts, part.Normal) : Normal ty

theorem Normal.part {ty part : Ty} (h : ty.Normal) (mem : part ∈ ty.parts) : part.Normal := by
  cases h with
  | node _ parts => exact parts part mem

theorem Normal.alternatives {ty : Ty} (h : ty.Normal) : ∀ alt ∈ ty.alternatives, alt.Normal := by
  cases ty with
  | union alts => exact fun alt mem => h.part mem
  | _ => exact List.forall_mem_singleton.mpr h

/-- A type that is no union is normal if its parts are. -/
theorem normal_of_parts {ty : Ty} (notUnion : ∀ alts, ty ≠ .union alts)
    (parts : ∀ part ∈ ty.parts, part.Normal) : ty.Normal :=
  .node (fun alts same => absurd same (notUnion alts)) parts

/-- The union of normal types is normal, unless a limit is met on the way. -/
theorem normal_unionOf {tys : List Ty} (proper : ∀ ty ∈ tys, ty.Proper)
    (normal : ∀ ty ∈ tys, ty.Normal) (limits : Union.WithinLimits Resolver.blind tys) :
    (unionOf tys).Normal := by
  by_cases none : Union.knownAlternatives tys = []
  · have unknown : unionOf tys = .unknown := congrArg Id.run (Union.unionWith_unknown _ none)
    rw [unknown]
    exact normal_of_parts nofun nofun
  have inside : ∀ alt ∈ (unionOf tys).alternatives, alt.Normal := by
    intro alt mem
    rw [Union.alternatives_unionOf proper none] at mem
    have flat := (Union.sublist_collapsed Resolver.blind [] _ freshGuard).mem mem
    obtain ⟨source, source_mem, mem⟩ := Union.mem_flatten (Union.mem_dropUnknown flat)
    exact (normal source source_mem).alternatives alt mem
  by_cases isUnion : ∃ alts, unionOf tys = .union alts
  · obtain ⟨alts, built⟩ := isUnion
    rw [built] at inside
    rw [built]
    exact .node (fun _ _ => ⟨tys, proper, limits, built⟩) inside
  · have alone : (unionOf tys).alternatives = [unionOf tys] := by
      cases built : unionOf tys with
      | union alts => exact absurd ⟨alts, built⟩ isUnion
      | _ => rfl
    exact inside _ (alone ▸ List.mem_cons_self)

/-- Building a normal type again from its alternatives gives it back. -/
theorem Normal.unionOf_alternatives {ty : Ty} (h : ty.Normal) : unionOf ty.alternatives = ty := by
  cases h with
  | node built parts =>
    cases ty with
    | union alts =>
      obtain ⟨tys, proper, limits, same⟩ := built alts rfl
      exact Union.unionOf_again proper limits same
    | _ => rfl

/-! ## Replacing nothing -/

section Replacing

variable {m : Type → Type} [Monad m] {holds : {α : Type} → (α → Prop) → m α → Prop}
  (follows : Follows m holds) {replace? : Ty → m (Option Ty)}
include follows

theorem holds_replaceListM_eq {tys : List Ty}
    (each : ∀ ty ∈ tys, holds (· = ty) (replaceM replace? ty)) :
    holds (· = tys) (replaceListM replace? tys) := by
  induction tys with
  | nil => exact follows.pure rfl
  | cons ty rest ih =>
    obtain ⟨first, rest⟩ := List.forall_mem_cons.mp each
    refine follows.bind first ?_
    rintro _ rfl
    refine follows.bind (ih rest) ?_
    rintro _ rfl
    exact follows.pure rfl

theorem holds_replaceMembersM_eq {members : List (Member Ty)}
    (each : ∀ member ∈ members, holds (· = member.ty) (replaceM replace? member.ty)) :
    holds (· = members) (replaceMembersM replace? members) := by
  induction members with
  | nil => exact follows.pure rfl
  | cons member rest ih =>
    obtain ⟨first, rest⟩ := List.forall_mem_cons.mp each
    refine follows.bind first ?_
    rintro _ rfl
    refine follows.bind (ih rest) ?_
    rintro _ rfl
    exact follows.pure rfl

/-- A normal type in which no node is replaced is rebuilt as it was. -/
theorem Normal.holds_replaceM {ty : Ty} (normal : ty.Normal)
    (quiet : ∀ node, NodeOf node ty → holds (· = none) (replace? node)) :
    holds (· = ty) (replaceM replace? ty) := by
  have whole := normal.unionOf_alternatives
  induction normal with
  | @node ty _ normal ih =>
    have each (part : Ty) (mem : part ∈ ty.parts) : holds (· = part) (replaceM replace? part) :=
      ih part mem (fun node inside => quiet node (inside.tail mem))
        (normal part mem).unionOf_alternatives
    have passed {rebuilt : m Ty} (h : holds (· = ty) rebuilt) :
        holds (· = ty) (replaceOr replace? ty rebuilt) := by
      refine follows.bind (quiet ty .refl) ?_
      rintro _ rfl
      exact h
    cases ty with
    | function params ret variadic generics =>
      obtain ⟨result, params⟩ := List.forall_mem_cons.mp each
      refine passed (follows.bind (holds_replaceListM_eq follows params) ?_)
      rintro _ rfl
      refine follows.bind result ?_
      rintro _ rfl
      exact follows.pure rfl
    | named name supers members =>
      have same := holds_replaceMembersM_eq follows (List.forall_mem_map.mp each)
      refine passed (follows.bind same ?_)
      rintro _ rfl
      exact follows.pure rfl
    | record supers members =>
      have same := holds_replaceMembersM_eq follows (List.forall_mem_map.mp each)
      refine passed (follows.bind same ?_)
      rintro _ rfl
      exact follows.pure rfl
    | union alts =>
      refine passed (follows.bind (holds_replaceListM_eq follows each) ?_)
      rintro _ rfl
      exact follows.pure whole
    | aliasRef name args =>
      refine passed (follows.bind (holds_replaceListM_eq follows each) ?_)
      rintro _ rfl
      exact follows.pure rfl
    | array element =>
      refine passed (follows.bind (each element List.mem_cons_self) ?_)
      rintro _ rfl
      exact follows.pure rfl
    | tuple elements =>
      refine passed (follows.bind (holds_replaceListM_eq follows each) ?_)
      rintro _ rfl
      exact follows.pure rfl
    | _ => exact passed (follows.pure rfl)

end Replacing

/-- A normal type is not changed by rebuilding it: a replacement that replaces none of its nodes, in
whatever state `σ` it keeps, gives the type back, and so do taking the union with itself and putting
types in for parameters that do not occur. -/
theorem replaceM_normal {ty : Ty} (proper : ty.Proper) (normal : ty.Normal) :
    (∀ (σ : Type) (replace? : Ty → StateM σ (Option Ty)),
      (∀ node s, NodeOf node ty → ((replace? node).run s).1 = none) →
        ∀ s, ((replaceM replace? ty).run s).1 = ty) ∧
    unionOf [ty, ty] = ty ∧
    ∀ bindings : Bindings, (ty.ParamsAll fun name => bindings.get? name = none) →
      ty.instantiate bindings = ty := by
  refine ⟨fun σ replace? quiet => ?_, ?_, fun bindings unbound => ?_⟩
  · exact normal.holds_replaceM (follows_state σ) fun node inside s => quiet node s inside
  · exact (Union.unionOf_pair proper).trans normal.unionOf_alternatives
  · unfold Ty.instantiate
    split
    · rfl
    · refine normal.holds_replaceM follows_id fun node inside => ?_
      have unbound : node.ParamsAll fun name => bindings.get? name = none := by
        induction inside using Relation.ReflTransGen.head_induction_on with
        | refl => exact unbound
        | head mem _ ih => exact ih.part mem
      cases node with
      | generic name => exact (paramsAll_iff.mp unbound).1 name rfl
      | _ => rfl

/-- A union inside a record inside a union, in a function that mentions the parameter `T`, with a
callback that counts the nodes and a binding for another parameter. -/
theorem replaceM_normal_optional :
    let optional : Ty := unionOf [.generic "T", .nil]
    let holder : Ty := .record [] [.ofTy "y" optional]
    let mixed : Ty := unionOf [.literal "x", holder, .string, .unknown, optional]
    let ty : Ty := .function [mixed] (.array optional) false ["T"]
    let count : Ty → StateM Nat (Option Ty) := fun _ => modifyGet fun seen => (none, seen + 1)
    let bindings : Bindings := Bindings.empty.insert "U" .number
    ty.Proper ∧ ty.Normal ∧ mixed.alternatives.length = 4 ∧
      (∀ node s, NodeOf node ty → ((count node).run s).1 = none) ∧
      ((replaceM count ty).run 0).1 = ty ∧ unionOf [ty, ty] = ty ∧
      (ty.ParamsAll fun name => bindings.get? name = none) ∧ ty.instantiate bindings = ty := by
  intro optional holder mixed ty count bindings
  have plain : ∀ source ∈ [Ty.generic "T", .nil], source.Normal := by
    simpa using ⟨normal_of_parts nofun nofun, normal_of_parts nofun nofun⟩
  have hoptional : optional.Normal := normal_unionOf (by decide) plain (by decide +kernel)
  have sources : ∀ source ∈ [Ty.literal "x", holder, .string, .unknown, optional],
      source.Normal := by
    have hholder : holder.Normal :=
      normal_of_parts nofun (List.forall_mem_singleton.mpr hoptional)
    simpa using ⟨normal_of_parts nofun nofun, hholder, normal_of_parts nofun nofun,
      normal_of_parts nofun nofun, hoptional⟩
  have hmixed : mixed.Normal := normal_unionOf (by decide +kernel) sources (by decide +kernel)
  have normal : ty.Normal := by
    have result : (Ty.array optional).Normal :=
      normal_of_parts nofun (List.forall_mem_singleton.mpr hoptional)
    refine normal_of_parts nofun (List.forall_mem_cons.mpr ⟨result, ?_⟩)
    exact List.forall_mem_singleton.mpr hmixed
  have proper : ty.Proper := by decide +kernel
  have unbound : ty.ParamsAll fun name => bindings.get? name = none := by
    have rebuilds := rebuilds_paramsAll fun name => bindings.get? name = none
    have param : (Ty.generic "T").ParamsAll fun name => bindings.get? name = none :=
      paramsAll_iff.mpr ⟨fun _ same => by cases same; rfl, nofun⟩
    have hoptional : optional.ParamsAll fun name => bindings.get? name = none := by
      refine rebuilds.unionOf ?_
      simpa using ⟨param, paramsAll_of_containsGeneric rfl⟩
    have hholder : holder.ParamsAll fun name => bindings.get? name = none :=
      paramsAll_of_parts nofun (List.forall_mem_singleton.mpr hoptional)
    have hmixed : mixed.ParamsAll fun name => bindings.get? name = none := by
      refine rebuilds.unionOf ?_
      simpa using ⟨paramsAll_of_containsGeneric rfl, hholder, paramsAll_of_containsGeneric rfl,
        paramsAll_of_containsGeneric rfl, hoptional⟩
    exact rebuilds.function false ["T"] (List.forall_mem_singleton.mpr hmixed)
      (rebuilds.array hoptional)
  obtain ⟨replaced, paired, instantiated⟩ := replaceM_normal proper normal
  have quiet (node : Ty) (s : Nat) (_ : NodeOf node ty) : ((count node).run s).1 = none := rfl
  exact ⟨proper, normal, by decide +kernel, quiet, replaced Nat count quiet 0, paired, unbound,
    instantiated bindings unbound⟩

end Ty

end LuaTyping
