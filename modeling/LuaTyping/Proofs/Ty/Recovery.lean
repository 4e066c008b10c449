import LuaTyping.Proofs.Ty.Binding
import Mathlib.Logic.Function.Iterate

/-!
# Binding recovers what was put in

Types are put in for the type parameters of a parameter type, and the result is given as the
argument. Binding then finds for each type parameter what was put in for it
(`infer_instantiate`). The walk goes side by side through the parameter type and its instance, which
has the same shape down to the type parameters; there it meets what was put in, each time the same,
and joining a type with itself gives the type again.

A type that contains a union is another matter, since its instance may have been collapsed; and the
walk does not look inside named classes. It goes 50 levels deep, and one level more is lost
(`infer_arrays`).
-/

set_option autoImplicit false

namespace LuaTyping

namespace Ty

def isUnion : Ty → Bool
  | .union _ => true
  | _ => false

/-- Whether a union occurs anywhere in the type. -/
def containsUnion (ty : Ty) : Bool := ty.anyNode isUnion

/-- Whether a type parameter occurs inside a named class. -/
def hidesParam (ty : Ty) : Bool :=
  ty.anyNode fun node => node.className?.isSome && node.containsGeneric

/-- How many levels a type without unions has: its own, and those of the most deeply nested of its
parts. -/
def levels (ty : Ty) : Nat := ty.nesting + 1

theorem isUnknown_of_isDefinite {ty : Ty} (definite : ty.isDefinite = true) :
    ty.isUnknown = false := by
  cases ty with
  | unknown => cases definite
  | _ => rfl

/-- Joining a type that is no union with itself gives the type again. -/
theorem unionOf_self {ty : Ty} (definite : ty.isDefinite = true) (tidy : ty.Tidy) :
    unionOf [ty, ty] = ty := by
  have alternatives : ty.alternatives = [ty] := by
    cases ty with
    | union alts => cases definite
    | _ => rfl
  have flat : Union.flatten [ty, ty] = [ty] := by
    simp [Union.flatten, alternatives, Union.pushUnique, memOf, eqv_refl tidy]
  have known : Union.dropUnknown [ty] = [ty] := by
    simp [Union.dropUnknown, isKnown, isUnknown_of_isDefinite definite]
  rw [unionOf, unionWith, flat, known]
  rfl

/-! ## Instances -/

theorem instantiate_of_isEmpty {bindings : Bindings} (empty : bindings.isEmpty = true) :
    instantiate bindings = id := by
  funext ty
  rw [instantiate, if_pos empty]
  rfl

theorem instantiate_of_not_isEmpty {bindings : Bindings} (some_bound : ¬ bindings.isEmpty = true) :
    instantiate bindings = replace (atParams bindings.get?) := by
  funext ty
  rw [instantiate, if_neg some_bound]
  rfl

theorem instantiate_generic (bindings : Bindings) (name : String) :
    (generic name).instantiate bindings = (bindings.get? name).getD (.generic name) := by
  by_cases empty : bindings.isEmpty = true
  · have unbound : bindings.get? name = none := by
      rw [Bindings.get?, List.isEmpty_iff.mp empty, List.lookup_nil]
    rw [instantiate_of_isEmpty empty, unbound]
    rfl
  · rw [instantiate_of_not_isEmpty empty, replace_generic]

/-- The instance of a type that is neither a type parameter nor a union has the same shape. -/
theorem instantiate_eq_mapParts (bindings : Bindings) {ty : Ty}
    (notGeneric : ∀ name, ty ≠ .generic name) (notUnion : ty.isUnion = false) :
    ty.instantiate bindings = ty.mapParts (instantiate bindings) := by
  by_cases empty : bindings.isEmpty = true
  · rw [instantiate_of_isEmpty empty, mapParts_id]
    rfl
  · rw [instantiate_of_not_isEmpty empty, replace_eq_mapParts _ notGeneric]
    rintro alts rfl
    cases notUnion

theorem hasParam_generic (name other : String) :
    (generic name).hasParam other = (name == other) := rfl

/-- In any other type a type parameter occurs if it occurs in one of the parts. -/
theorem hasParam_eq_any {ty : Ty} (notGeneric : ∀ name, ty ≠ .generic name) (name : String) :
    ty.hasParam name = ty.parts.any (hasParam name) := by
  rw [hasParam, anyNode_eq]
  cases ty with
  | generic other => exact absurd rfl (notGeneric other)
  | _ => rfl

end Ty

open Ty Unify

/-! ## What a walk adds -/

namespace Bindings

/-- What is bound is bound as in the substitution. -/
def Agrees (s bindings : Bindings) : Prop :=
  ∀ name ty, bindings.get? name = some ty → s.get? name = some ty

/-- The names that occur are bound as in the substitution, and the others as before. -/
def Adds (s : Bindings) (occurs : String → Bool) (before after : Bindings) : Prop :=
  ∀ name, after.get? name = if occurs name then s.get? name else before.get? name

variable {s before middle after : Bindings} {occurs occurs' : String → Bool}

theorem Adds.agrees (h : Adds s occurs before after) (agrees : Agrees s before) :
    Agrees s after := by
  intro name ty found
  rw [h name] at found
  split at found
  · exact found
  · exact agrees name ty found

theorem Adds.trans (h : Adds s occurs before middle) (h' : Adds s occurs' middle after) :
    Adds s (fun name => occurs name || occurs' name) before after := by
  intro name
  rw [h' name, h name]
  cases here : occurs name <;> cases here' : occurs' name <;> simp [here, here']

theorem Adds.congr (h : Adds s occurs before after) (same : ∀ name, occurs' name = occurs name) :
    Adds s occurs' before after := by
  intro name
  rw [h name, same name]

theorem adds_refl (none : ∀ name, occurs name = false) : Adds s occurs before before := by
  intro name
  rw [none name]
  rfl

/-- A type parameter is met again with the type that it is bound to. -/
theorem adds_bind {name : String} {ty : Ty} (bound : s.get? name = some ty)
    (definite : ty.isDefinite = true) (tidy : ty.Tidy) (agrees : Agrees s before) :
    Adds s (fun other => other == name) before (Unify.bind before name ty) := by
  have joined : Unify.bind before name ty = before.insert name ty := by
    unfold Unify.bind
    split
    · rename_i kept found
      cases (agrees name kept found).symm.trans bound
      rw [unionOf_self definite tidy]
    · rfl
  intro other
  rw [joined, get?_insert]
  split
  · rename_i same
    rw [eq_of_beq same, bound]
  · rfl

end Bindings

/-! ## The walk -/

/-- A parameter type that binding can take apart with so many levels to go. -/
structure Ty.Recoverable (generics : List String) (s : Bindings) (levels : Nat) (ty : Ty) :
    Prop where
  unionFree : ty.containsUnion = false
  exposed : ty.hidesParam = false
  tidy : ty.Tidy
  among : ty.ParamsAll fun name => name ∈ generics
  bound : ty.ParamsAll fun name =>
    ∃ found, s.get? name = some found ∧ found.isDefinite = true ∧ found.Tidy
  nested : ty.nesting < levels

namespace Ty.Recoverable

variable {generics : List String} {s : Bindings} {levels : Nat} {ty inside : Ty}

theorem notUnion (h : ty.Recoverable generics s levels) : ty.isUnion = false := by
  have unionFree := h.unionFree
  rw [containsUnion, anyNode_eq, Bool.or_eq_false_iff] at unionFree
  exact unionFree.1

theorem part (h : ty.Recoverable generics s (levels + 1)) (definite : ty.isDefinite = true)
    (mem : inside ∈ ty.parts) : inside.Recoverable generics s levels where
  unionFree := anyNode_part mem h.unionFree
  exposed := anyNode_part mem h.exposed
  tidy := h.tidy.part mem
  among := h.among.part mem
  bound := h.bound.part mem
  nested := Nat.lt_of_lt_of_le (nesting_part definite mem) (Nat.le_of_lt_succ h.nested)

/-- The walk does not look inside a named class, and it would find nothing there. -/
theorem unnamed (h : ty.Recoverable generics s levels) (isNamed : ty.className?.isSome = true)
    (name : String) : ty.hasParam name = false := by
  have exposed := h.exposed
  rw [hidesParam, anyNode_eq, Bool.or_eq_false_iff, isNamed, Bool.true_and] at exposed
  have none : ty.ParamsAll fun _ => False := paramsAll_of_containsGeneric exposed.1
  exact Bool.eq_false_iff.mpr (none name)

end Ty.Recoverable

section Walk

variable {generics : List String} {s : Bindings} {levels : Nat} {bindings : Bindings}

section Level

-- one level further in, binding is known to recover what was put in
variable (inner : ∀ {bindings : Bindings} (ty : Ty), ty.Recoverable generics s levels →
  s.Agrees bindings → s.Adds (fun name => ty.hasParam name) bindings
    (unify generics levels ty (ty.instantiate s) bindings))
include inner

theorem adds_unifyList {params : List Ty}
    (each : ∀ param ∈ params, param.Recoverable generics s levels) (agrees : s.Agrees bindings) :
    s.Adds (fun name => params.any (hasParam name)) bindings
      (unifyList generics levels params (params.map (instantiate s)) bindings) := by
  induction params generalizing bindings with
  | nil => exact Bindings.adds_refl fun _ => rfl
  | cons param params ih =>
    obtain ⟨first, rest⟩ := List.forall_mem_cons.mp each
    have added := inner param first agrees
    exact (added.trans (ih rest (added.agrees agrees))).congr fun name => List.any_cons

/-- The members still to be compared are among all members, and each is found under its name. -/
theorem adds_unifyMembers {all members : List (Member Ty)} (among : members ⊆ all)
    (distinct : (all.map (·.name)).Nodup)
    (each : ∀ member ∈ members, member.ty.Recoverable generics s levels)
    (agrees : s.Agrees bindings) :
    s.Adds (fun name => (members.map (·.ty)).any (hasParam name)) bindings
      (unifyMembers generics levels members
        (all.map fun member => member.withTy (member.ty.instantiate s)) bindings) := by
  induction members generalizing bindings with
  | nil => exact Bindings.adds_refl fun _ => rfl
  | cons member members ih =>
    obtain ⟨first, rest⟩ := List.forall_mem_cons.mp each
    obtain ⟨mem, among⟩ := List.cons_subset.mp among
    have added := inner member.ty first agrees
    have found : findMember? (all.map fun member => member.withTy (member.ty.instantiate s))
        member.name = some (member.withTy (member.ty.instantiate s)) := by
      have here := findMember?_of_mem distinct mem
      rw [findMember?] at here ⊢
      rw [List.find?_map]
      exact congrArg (Option.map _) here
    have step : unifyMembers generics levels (member :: members)
          (all.map fun member => member.withTy (member.ty.instantiate s)) bindings
        = unifyMembers generics levels members
          (all.map fun member => member.withTy (member.ty.instantiate s))
          (unify generics levels member.ty (member.ty.instantiate s) bindings) := by
      rw [unifyMembers, found]
      rfl
    rw [step]
    exact (added.trans (ih among rest (added.agrees agrees))).congr fun name => List.any_cons

end Level

theorem unify_named (generics : List String) (levels : Nat) (name : String) (supers : List String)
    (members : List (Member Ty)) (arg : Ty) (bindings : Bindings) :
    unify generics levels (.named name supers members) arg bindings = bindings := by
  cases levels with
  | zero => rfl
  | succ levels => cases arg <;> rfl

/-- Binding adds what was put in for the type parameters that occur, and nothing else. -/
theorem adds_unify (ty : Ty) (h : ty.Recoverable generics s levels)
    (agrees : s.Agrees bindings) : s.Adds (fun name => ty.hasParam name) bindings
      (unify generics levels ty (ty.instantiate s) bindings) := by
  induction levels generalizing ty bindings with
  | zero => exact absurd h.nested (Nat.not_lt_zero _)
  | succ levels ih =>
    rcases generic_or ty with ⟨name, rfl⟩ | notGeneric
    · have here : (generic name).hasParam name = true := beq_self_eq_true name
      obtain ⟨found, bound, definite, tidy⟩ := h.bound name here
      have known : ¬ found.isUnknown = true := by
        rw [isUnknown_of_isDefinite definite]
        exact Bool.false_ne_true
      rw [instantiate_generic, bound, Option.getD_some,
        unify_generic generics levels name known,
        if_pos (List.contains_iff_mem.mpr (h.among name here))]
      refine (Bindings.adds_bind bound definite tidy agrees).congr fun other => ?_
      rw [hasParam_generic, BEq.comm]
    · have within {part : Ty} (definite : ty.isDefinite = true) (mem : part ∈ ty.parts) :=
        h.part definite mem
      rw [instantiate_eq_mapParts s notGeneric h.notUnion]
      have occurs := hasParam_eq_any notGeneric
      cases ty with
      | generic name => exact absurd rfl (notGeneric name)
      | union alts => cases h.notUnion
      | named name supers members =>
        rw [unify_named]
        exact Bindings.adds_refl (h.unnamed rfl)
      | array element =>
        have added := ih element (within rfl (List.mem_singleton_self _)) agrees
        exact added.congr fun name => (occurs name).trans (Bool.or_false _)
      | tuple elements =>
        exact (adds_unifyList ih (fun _ => within rfl) agrees).congr occurs
      | aliasRef name args =>
        have opened : unify generics (levels + 1) (.aliasRef name args)
              ((Ty.aliasRef name args).mapParts (instantiate s)) bindings
            = unifyList generics levels args (args.map (instantiate s)) bindings := by
          show (if name == name then _ else bindings) = _
          rw [if_pos (beq_self_eq_true name)]
        rw [opened]
        exact (adds_unifyList ih (fun _ => within rfl) agrees).congr occurs
      | function params ret variadic own =>
        have first := adds_unifyList ih
          (fun _ mem => within rfl (List.mem_cons_of_mem _ mem)) agrees
        have second := ih ret (within rfl List.mem_cons_self) (first.agrees agrees)
        refine (first.trans second).congr fun name => (occurs name).trans ?_
        exact List.any_cons.trans (Bool.or_comm _ _)
      | record supers members =>
        refine (adds_unifyMembers ih (List.Subset.refl _) h.tidy.names_nodup ?_ agrees).congr occurs
        intro member mem
        exact within rfl (List.mem_map_of_mem mem)
      | _ => exact Bindings.adds_refl occurs

end Walk

/-- Binding the type parameters of a type from its instance gives the types that were put in, for
the type parameters that occur and no others. The type may have 50 levels; it has no union in it, no
type parameter inside a named class, and none that is not to be bound; and what was put in are known
types that are no unions. -/
theorem infer_instantiate (generics : List String) (s : Bindings) (ty : Ty)
    (unionFree : ty.containsUnion = false) (exposed : ty.hidesParam = false) (tidy : ty.Tidy)
    (among : ty.ParamsAll fun name => name ∈ generics)
    (bound : ty.ParamsAll fun name =>
      ∃ found, s.get? name = some found ∧ found.isDefinite = true ∧ found.Tidy)
    (levels : ty.levels ≤ 50) (name : String) :
    (Bindings.infer generics [ty] [ty.instantiate s]).get? name
      = if ty.hasParam name then s.get? name else none := by
  have recoverable : ty.Recoverable generics s Profile.unification.maxDepth :=
    ⟨unionFree, exposed, tidy, among, bound, levels⟩
  have nothing : s.Agrees .empty := nofun
  exact adds_unify ty recoverable nothing name

/-- A callback that is given a list and a class, with two type parameters. -/
def callback : Ty :=
  .function [.array (.generic "T"), .classRef "Point"]
    (.record [] [.ofTy "key" (.generic "U"), .ofTy "value" (.aliasRef "Maybe" [.generic "T"])])
    false ["T", "U"]

/-- Types for the two type parameters, and for one that does not occur. -/
def chosen : Bindings := ⟨[("T", .record [] [.ofTy "x" .number]), ("U", .string), ("V", .nil)]⟩

theorem infer_instantiate_callback :
    (callback.containsUnion = false ∧ callback.hidesParam = false ∧ callback.Tidy ∧
      callback.ParamsAll (fun name => name ∈ ["T", "U"]) ∧
      callback.ParamsAll (fun name =>
        ∃ found, chosen.get? name = some found ∧ found.isDefinite = true ∧ found.Tidy) ∧
      callback.levels ≤ 50) ∧
    ∀ name, (Bindings.infer ["T", "U"] [callback] [callback.instantiate chosen]).get? name
      = if callback.hasParam name then chosen.get? name else none := by
  have among : callback.ParamsAll fun name => name ∈ ["T", "U"] := by
    intro name occurs
    have listed : "T" = name ∨ "U" = name ∨ "T" = name := by
      simpa [callback, classRef, hasParam, anyNode, anyNodeList, anyNodeMembers, Member.ofTy]
        using occurs
    obtain rfl | rfl | rfl := listed <;> decide
  have bound : callback.ParamsAll fun name =>
      ∃ found, chosen.get? name = some found ∧ found.isDefinite = true ∧ found.Tidy := by
    refine among.mono fun name listed => ?_
    rcases List.mem_cons.mp listed with rfl | listed
    · exact ⟨_, rfl, rfl, by decide⟩
    · cases List.mem_singleton.mp listed
      exact ⟨_, rfl, rfl, by decide⟩
  exact ⟨⟨rfl, rfl, by decide, among, bound, by decide⟩,
    infer_instantiate ["T", "U"] chosen callback rfl rfl (by decide) among bound (by decide)⟩

/-! ## The last level -/

theorem unify_arrays {generics : List String} {name : String} (listed : name ∈ generics) {ty : Ty}
    (known : ty.isKnown = true) (levels n : Nat) (bindings : Bindings) :
    unify generics levels (array^[n] (.generic name)) (array^[n] ty) bindings
      = if n < levels then Unify.bind bindings name ty else bindings := by
  induction n generalizing levels with
  | zero =>
    cases levels with
    | zero => rfl
    | succ levels =>
      have known' : ¬ ty.isUnknown = true := by simpa [isKnown] using known
      rw [if_pos (Nat.succ_pos levels)]
      exact (unify_generic generics levels name known' bindings).trans
        (if_pos (List.contains_iff_mem.mpr listed))
  | succ n ih =>
    rw [Function.iterate_succ_apply', Function.iterate_succ_apply']
    cases levels with
    | zero => rfl
    | succ levels =>
      refine (ih levels).trans ?_
      simp only [Nat.succ_lt_succ_iff]

/-- A type parameter inside 49 arrays is the last that is bound. -/
theorem infer_arrays {name : String} {ty : Ty} (known : ty.isKnown = true) (n : Nat) :
    (Bindings.infer [name] [array^[n] (.generic name)] [array^[n] ty]).get? name
      = if n < 50 then some ty else none := by
  have walked : Bindings.infer [name] [array^[n] (.generic name)] [array^[n] ty]
      = if n < 50 then Unify.bind .empty name ty else .empty :=
    unify_arrays (List.mem_singleton_self name) known Profile.unification.maxDepth n .empty
  rw [walked]
  by_cases inside : n < 50
  · rw [if_pos inside, if_pos inside]
    exact (Bindings.get?_insert .empty name name ty).trans (if_pos (beq_self_eq_true name))
  · rw [if_neg inside, if_neg inside]
    rfl

end LuaTyping
