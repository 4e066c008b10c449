import LuaTyping.Proofs.Subtyping.Renaming

/-!
# Binding renamed type parameters

Putting types in for type parameters commutes with renaming, if what is put in for a renamed
parameter is what was put in for it before, renamed. It is so for the types that arguments bind the
parameters to: walking through the renamed parameter and argument types meets the renamed parameters
in the same places, and joins what it finds to the renamed union.
-/

set_option autoImplicit false

namespace LuaTyping

namespace Ty

/-! ## Replacing type parameters -/

/-- Replaces type parameters by the types given for them, and nothing else. -/
def atParams (put : String → Option Ty) : Ty → Option Ty
  | .generic name => put name
  | _ => none

section Replacing

variable {put put' : String → Option Ty} {names names' : String → String}

theorem replaceListM_id (replace? : Ty → Id (Option Ty)) (tys : List Ty) :
    replaceListM replace? tys = tys.map (replaceM replace?) := by
  induction tys with
  | nil => rfl
  | cons ty rest ih => exact congrArg _ ih

theorem replaceMembersM_id (replace? : Ty → Id (Option Ty)) (members : List (Member Ty)) :
    replaceMembersM replace? members
      = members.map fun member => member.withTy (replaceM replace? member.ty) := by
  induction members with
  | nil => rfl
  | cons member rest ih =>
    cases member
    exact congrArg _ ih

theorem replace_generic (put : String → Option Ty) (name : String) :
    (generic name).replace (atParams put) = (put name).getD (.generic name) := by
  have opened : (generic name).replace (atParams put)
      = Id.run (replaceOr (fun node => pure (atParams put node)) (.generic name)
        (pure (.generic name))) := rfl
  rw [opened]
  cases found : put name <;> simp [replaceOr, atParams, found]

theorem replace_union (put : String → Option Ty) (alts : List Ty) :
    (union alts).replace (atParams put) = unionOf (alts.map (replace (atParams put))) :=
  congrArg unionOf (replaceListM_id _ alts)

/-- A type that is neither a type parameter nor a union is rebuilt around its parts. -/
theorem replace_eq_mapParts (put : String → Option Ty) {ty : Ty}
    (notGeneric : ∀ name, ty ≠ .generic name) (notUnion : ∀ alts, ty ≠ .union alts) :
    ty.replace (atParams put) = ty.mapParts (replace (atParams put)) := by
  cases ty with
  | generic name => exact absurd rfl (notGeneric name)
  | union alts => exact absurd rfl (notUnion alts)
  | function params ret variadic generics =>
    exact congrArg (function · _ variadic generics) (replaceListM_id _ params)
  | named name supers members => exact congrArg (named name supers) (replaceMembersM_id _ members)
  | record supers members => exact congrArg (record supers) (replaceMembersM_id _ members)
  | aliasRef name args => exact congrArg (aliasRef name) (replaceListM_id _ args)
  | tuple elements => exact congrArg tuple (replaceListM_id _ elements)
  | _ => rfl

theorem mapParts_ne_union {ty : Ty} (notUnion : ∀ alts, ty ≠ .union alts) (change : Ty → Ty) :
    ∀ alts, ty.mapParts change ≠ .union alts := by
  cases ty with
  | union alts => exact absurd rfl (notUnion alts)
  | _ => exact nofun

/-- Replacing in a renamed type gives the type with its type parameters replaced, renamed in another
way, if this is so for each type parameter: what is put in for it is renamed that way, and where
nothing is put in, the two ways agree. -/
theorem replace_renamed (involutive : names'.Involutive) {ty : Ty}
    (agree : ty.ParamsAll fun name => put' (names name) = (put name).map (renamed names') ∧
      (put name = none → names name = names' name)) :
    (ty.renamed names).replace (atParams put') = (ty.replace (atParams put)).renamed names' := by
  induction ty using induction_on_parts with
  | step ty ih =>
    have inside (part : Ty) (mem : part ∈ ty.parts) := ih part mem (agree.part mem)
    rcases generic_or ty with ⟨name, rfl⟩ | notGeneric
    · obtain ⟨same, other⟩ := (paramsAll_iff.mp agree).1 name rfl
      rw [renamed, replace_generic, replace_generic, same]
      cases found : put name with
      | some ty => rfl
      | none => exact congrArg generic (other found)
    · by_cases isUnion : ∃ alts, ty = .union alts
      · obtain ⟨alts, rfl⟩ := isUnion
        rw [renamed_union, replace_union, replace_union, ← Union.unionOf_renamed involutive,
          List.map_map, List.map_map]
        exact congrArg unionOf (List.map_congr_left inside)
      · have notUnion : ∀ alts, ty ≠ .union alts := fun alts same => isUnion ⟨alts, same⟩
        rw [renamed_eq_mapParts names notGeneric,
          replace_eq_mapParts put' (mapParts_ne_generic notGeneric _)
            (mapParts_ne_union notUnion _),
          replace_eq_mapParts put notGeneric notUnion,
          renamed_eq_mapParts names' (mapParts_ne_generic notGeneric _), mapParts_mapParts,
          mapParts_mapParts]
        exact mapParts_congr inside

end Replacing

end Ty

/-! ## Binding type parameters -/

open Ty Unify

/-- The second bindings bind the renamed type parameters to the renamed types. -/
def Bindings.RenamedTo (names : String → String) (bindings bindings' : Bindings) : Prop :=
  ∀ name, bindings'.get? (names name) = (bindings.get? name).map (renamed names)

section Binding

variable {names : String → String} (involutive : names.Involutive) {bindings bindings' : Bindings}

theorem contains_map_names {names : String → String} (injective : names.Injective)
    (generics : List String) (name : String) :
    (generics.map names).contains (names name) = generics.contains name := by
  rw [Bool.eq_iff_iff, List.contains_iff_mem, List.contains_iff_mem]
  exact List.mem_map_of_injective injective

include involutive

theorem Bindings.RenamedTo.insert (h : bindings.RenamedTo names bindings') (name : String)
    (ty : Ty) : (bindings.insert name ty).RenamedTo names
      (bindings'.insert (names name) (ty.renamed names)) := by
  intro other
  have same : (names other == names name) = (other == name) := by
    rw [Bool.eq_iff_iff, beq_iff_eq, beq_iff_eq, involutive.injective.eq_iff]
  rw [Bindings.get?_insert, Bindings.get?_insert, same]
  split
  · rfl
  · exact h other

theorem Bindings.RenamedTo.bind (h : bindings.RenamedTo names bindings') (name : String)
    (ty : Ty) : (Unify.bind bindings name ty).RenamedTo names
      (Unify.bind bindings' (names name) (ty.renamed names)) := by
  unfold Unify.bind
  rw [h name]
  cases bindings.get? name with
  | none => exact h.insert involutive name ty
  | some bound =>
    have joined := Union.unionOf_renamed involutive [bound, ty]
    rw [List.map_cons, List.map_singleton] at joined
    simp only [Option.map_some, joined]
    exact h.insert involutive name _

theorem remainder?_renamed (params : List Ty) (arg : Ty) :
    remainder? (params.map (renamed names)) (arg.renamed names)
      = (remainder? params arg).map (renamed names) := by
  have concrete : (params.map (renamed names)).filter (fun param => !param.containsGeneric)
      = (params.filter fun param => !param.containsGeneric).map (renamed names) := by
    rw [List.filter_map]
    congr 2
    exact funext fun param => congrArg (!·) (containsGeneric_renamed names param)
  have rest : (arg.renamed names).alternatives.filter (fun alt =>
        !alt.memOf ((params.map (renamed names)).filter fun param => !param.containsGeneric))
      = (arg.alternatives.filter fun alt =>
        !alt.memOf (params.filter fun param => !param.containsGeneric)).map (renamed names) := by
    rw [alternatives_renamed, concrete, List.filter_map]
    congr 2
    exact funext fun alt => congrArg (!·) (memOf_renamed involutive alt _)
  simp only [remainder?, rest]
  cases arg.alternatives.filter fun alt =>
      !alt.memOf (params.filter fun param => !param.containsGeneric) with
  | nil => rfl
  | cons alt alts => exact congrArg some (Union.unionOf_renamed involutive (alt :: alts))

omit involutive in
theorem unify_unknown (generics : List String) (levels : Nat) (param : Ty) (bindings : Bindings) :
    unify generics levels param .unknown bindings = bindings := by
  cases levels <;> cases param <;> rfl

omit involutive in
theorem unify_generic (generics : List String) (levels : Nat) (name : String) {arg : Ty}
    (known : ¬ arg.isUnknown = true) (bindings : Bindings) :
    unify generics (levels + 1) (.generic name) arg bindings
      = if generics.contains name then Unify.bind bindings name arg else bindings :=
  if_neg known

omit involutive in
theorem unify_union (generics : List String) (levels : Nat) (alts : List Ty) {arg : Ty}
    (known : ¬ arg.isUnknown = true) (bindings : Bindings) :
    unify generics (levels + 1) (.union alts) arg bindings
      = match remainder? alts arg with
        | some rest => unifyAlternatives generics levels alts rest bindings
        | none => bindings :=
  if_neg known

section Level

-- one level further in, binding is known to commute with renaming
variable {generics : List String} {levels : Nat}
  (inner : ∀ {bindings bindings' : Bindings} (param arg : Ty), bindings.RenamedTo names bindings' →
    (unify generics levels param arg bindings).RenamedTo names
      (unify (generics.map names) levels (param.renamed names) (arg.renamed names) bindings'))
include inner
omit involutive

theorem unifyList_renamed (params args : List Ty) (h : bindings.RenamedTo names bindings') :
    (unifyList generics levels params args bindings).RenamedTo names
      (unifyList (generics.map names) levels (params.map (renamed names))
        (args.map (renamed names)) bindings') := by
  induction params generalizing args bindings bindings' with
  | nil => exact h
  | cons param params ih =>
    cases args with
    | nil => exact h
    | cons arg args => exact ih args (inner param arg h)

theorem unifyEach_renamed (param : Ty) (args : List Ty) (h : bindings.RenamedTo names bindings') :
    (args.foldl (fun bindings arg => unify generics levels param arg bindings)
        bindings).RenamedTo names
      ((args.map (renamed names)).foldl (fun bindings arg =>
        unify (generics.map names) levels (param.renamed names) arg bindings) bindings') := by
  induction args generalizing bindings bindings' with
  | nil => exact h
  | cons arg args ih => exact ih (inner param arg h)

theorem unifyMembers_renamed (members others : List (Member Ty))
    (h : bindings.RenamedTo names bindings') :
    (unifyMembers generics levels members others bindings).RenamedTo names
      (unifyMembers (generics.map names) levels (members.map (renamedMember names))
        (others.map (renamedMember names)) bindings') := by
  induction members generalizing bindings bindings' with
  | nil => exact h
  | cons member rest ih =>
    rw [List.map_cons, Unify.unifyMembers]
    refine ih ?_
    rw [findMember?_renamed]
    cases findMember? others member.name with
    | none => exact h
    | some other => exact inner member.ty other.ty h

theorem unifyAlternatives_renamed (params : List Ty) (arg : Ty)
    (h : bindings.RenamedTo names bindings') :
    (unifyAlternatives generics levels params arg bindings).RenamedTo names
      (unifyAlternatives (generics.map names) levels (params.map (renamed names))
        (arg.renamed names) bindings') := by
  induction params generalizing bindings bindings' with
  | nil => exact h
  | cons param params ih =>
    rw [List.map_cons, Unify.unifyAlternatives, Unify.unifyAlternatives, containsGeneric_renamed]
    refine ih ?_
    split
    · exact inner param arg h
    · exact h

end Level

theorem unify_renamed (generics : List String) (levels : Nat) (param arg : Ty)
    (h : bindings.RenamedTo names bindings') :
    (unify generics levels param arg bindings).RenamedTo names
      (unify (generics.map names) levels (param.renamed names) (arg.renamed names) bindings') := by
  induction levels generalizing param arg bindings bindings' with
  | zero => cases param <;> exact h
  | succ levels ih =>
    by_cases known : arg.isUnknown = true
    · obtain rfl : arg = .unknown := by
        cases arg with
        | unknown => rfl
        | _ => cases known
      rw [renamed_unknown, unify_unknown, unify_unknown]
      exact h
    · have known' : ¬ (arg.renamed names).isUnknown = true := by rwa [isUnknown_renamed]
      cases param with
      | generic name =>
        rw [renamed, unify_generic generics levels name known, unify_generic _ _ _ known',
          contains_map_names involutive.injective]
        split
        · exact h.bind involutive name arg
        · exact h
      | union alts =>
        rw [renamed_union, unify_union generics levels alts known, unify_union _ _ _ known',
          remainder?_renamed involutive]
        cases remainder? alts arg with
        | none => exact h
        | some rest => exact unifyAlternatives_renamed ih alts rest h
      | array element =>
        cases arg with
        | array element' => exact ih element element' h
        | tuple elements' =>
          rw [renamed_tuple]
          exact unifyEach_renamed ih element elements' h
        | _ => exact h
      | tuple elements =>
        rw [renamed_tuple]
        cases arg with
        | tuple elements' =>
          rw [renamed_tuple]
          exact unifyList_renamed ih elements elements' h
        | _ => exact h
      | function params ret variadic own =>
        rw [renamed_function]
        cases arg with
        | function params' ret' variadic' own' =>
          rw [renamed_function]
          exact ih ret ret' (unifyList_renamed ih params params' h)
        | _ => exact h
      | record supers members =>
        rw [renamed_record]
        cases arg with
        | named name supers' members' =>
          rw [renamed_named]
          exact unifyMembers_renamed ih members members' h
        | record supers' members' =>
          rw [renamed_record]
          exact unifyMembers_renamed ih members members' h
        | _ => exact h
      | aliasRef name args =>
        rw [renamed_aliasRef]
        cases arg with
        | aliasRef name' args' =>
          rw [renamed_aliasRef]
          unfold unify
          simp only [isUnknown, Bool.false_eq_true, if_false]
          split
          · exact unifyList_renamed ih args args' h
          · exact h
        | _ => exact h
      | _ => cases arg <;> exact h

theorem infer_renamed (generics : List String) (params args : List Ty) :
    (Bindings.infer generics params args).RenamedTo names
      (Bindings.infer (generics.map names) (params.map (renamed names))
        (args.map (renamed names))) :=
  unifyList_renamed (unify_renamed involutive generics _) params args fun _ => rfl

theorem Bindings.RenamedTo.isEmpty (h : bindings.RenamedTo names bindings') :
    bindings'.isEmpty = bindings.isEmpty := by
  have empty_iff (bindings : Bindings) :
      bindings.isEmpty = true ↔ ∀ name, bindings.get? name = none := by
    rw [Bindings.isEmpty, List.isEmpty_iff]
    refine ⟨fun none name => by rw [Bindings.get?, none]; rfl, fun none => ?_⟩
    refine List.eq_nil_iff_forall_not_mem.mpr fun entry mem => ?_
    exact bne_iff_ne.mp (List.lookup_eq_none_iff.mp (none entry.1) entry mem) rfl
  rw [Bool.eq_iff_iff, empty_iff, empty_iff]
  constructor
  · intro none name
    have := h name
    rw [none (names name)] at this
    exact Option.map_eq_none_iff.mp this.symm
  · intro none name
    have := h (names name)
    rwa [none (names name), involutive name] at this

theorem instantiate_renamed (h : bindings.RenamedTo names bindings') (ty : Ty) :
    (ty.renamed names).instantiate bindings' = (ty.instantiate bindings).renamed names := by
  have opened (bindings : Bindings) (ty : Ty) : ty.instantiate bindings
      = if bindings.isEmpty then ty else ty.replace (atParams bindings.get?) := rfl
  rw [opened, opened, h.isEmpty involutive]
  split
  · rfl
  · exact replace_renamed involutive fun name _ => ⟨h name, fun _ => rfl⟩

/-- Erasing the renamed type parameters from a renamed type gives what erasing them before gives, if
no others were renamed. -/
theorem eraseOnly_renamed (generics : List String) {ty : Ty}
    (others : ty.ParamsAll fun name => name ∈ generics ∨ names name = name) :
    (ty.renamed names).eraseOnly (generics.map names) = ty.eraseOnly generics := by
  have opened (generics : List String) (ty : Ty) : ty.eraseOnly generics
      = if generics.isEmpty || !ty.containsGeneric then ty
        else ty.replace (atParams fun name =>
          if generics.contains name then some .unknown else none) := rfl
  rw [opened, opened, List.isEmpty_map, containsGeneric_renamed]
  split
  · rename_i untouched
    refine renamed_eq_self ?_
    rcases Bool.or_eq_true_iff.mp untouched with empty | none
    · cases List.isEmpty_iff.mp empty
      exact others.mono fun name either => either.resolve_left List.not_mem_nil
    · exact paramsAll_of_containsGeneric (by simpa using none)
  · have involutive' : Function.Involutive (id : String → String) := fun _ => rfl
    refine (replace_renamed involutive' fun name occurs => ?_).trans (renamed_id _)
    simp only [contains_map_names involutive.injective]
    split
    · exact ⟨rfl, nofun⟩
    · rename_i other
      refine ⟨rfl, fun _ => (others name occurs).resolve_left ?_⟩
      exact mt List.contains_iff_mem.mpr other

end Binding

end LuaTyping
