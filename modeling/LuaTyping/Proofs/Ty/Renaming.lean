import LuaTyping.Proofs.Ty.Arguments
import LuaTyping.Proofs.Ty.Maximal
import LuaTyping.Proofs.Ty.Outline

/-!
# Renaming type parameters

A type parameter is a name and nothing more, so what is computed from types should not depend on how
the parameters are called. Here they are all renamed at once, by a renaming that is its own inverse,
such as one that swaps names; then two types have equal outlines, or are equal, just if they were so
before. All that is done with types follows: comparing them, building unions, replacing parameters
and binding them from arguments commute with renaming.

The names that a function declares are not touched. They are compared as they stand, on both sides
of every comparison the same.
-/

set_option autoImplicit false
namespace LuaTyping

namespace Ty

/-! ## Changing the parts of a type -/

/-- The type with each of its parts changed. -/
def mapParts (change : Ty → Ty) : Ty → Ty
  | .function params ret variadic generics =>
    .function (params.map change) (change ret) variadic generics
  | .named name supers members =>
    .named name supers (members.map fun member => member.withTy (change member.ty))
  | .record supers members =>
    .record supers (members.map fun member => member.withTy (change member.ty))
  | .union alts => .union (alts.map change)
  | .aliasRef name args => .aliasRef name (args.map change)
  | .array element => .array (change element)
  | .tuple elements => .tuple (elements.map change)
  | ty => ty

theorem mapParts_congr {change change' : Ty → Ty} {ty : Ty}
    (same : ∀ part ∈ ty.parts, change part = change' part) :
    ty.mapParts change = ty.mapParts change' := by
  have members {members : List (Member Ty)}
      (same : ∀ part ∈ members.map (·.ty), change part = change' part) :
      members.map (fun member => member.withTy (change member.ty))
        = members.map fun member => member.withTy (change' member.ty) :=
    List.map_congr_left fun member mem =>
      congrArg member.withTy (same member.ty (List.mem_map_of_mem mem))
  cases ty with
  | function params ret variadic generics =>
    obtain ⟨result, params⟩ := List.forall_mem_cons.mp same
    rw [mapParts, mapParts, result, List.map_congr_left params]
  | named name supers ms => rw [mapParts, mapParts, members same]
  | record supers ms => rw [mapParts, mapParts, members same]
  | union alts => exact congrArg union (List.map_congr_left same)
  | aliasRef name args => exact congrArg (aliasRef name) (List.map_congr_left same)
  | array element => exact congrArg array (same element List.mem_cons_self)
  | tuple elements => exact congrArg tuple (List.map_congr_left same)
  | _ => rfl

theorem mapParts_mapParts (change change' : Ty → Ty) (ty : Ty) :
    (ty.mapParts change).mapParts change' = ty.mapParts fun part => change' (change part) := by
  cases ty <;> simp [mapParts, Member.withTy]

theorem mapParts_id (ty : Ty) : ty.mapParts id = ty := by
  cases ty <;> simp [mapParts, Member.withTy]

theorem parts_mapParts (change : Ty → Ty) (ty : Ty) :
    (ty.mapParts change).parts = ty.parts.map change := by
  cases ty <;> simp [mapParts, parts, Member.withTy]

theorem generic_or (ty : Ty) : (∃ name, ty = .generic name) ∨ ∀ name, ty ≠ .generic name := by
  cases ty with
  | generic name => exact .inl ⟨name, rfl⟩
  | _ => exact .inr nofun

theorem mapParts_ne_generic {ty : Ty} (notGeneric : ∀ name, ty ≠ .generic name)
    (change : Ty → Ty) : ∀ name, ty.mapParts change ≠ .generic name := by
  cases ty with
  | generic name => exact absurd rfl (notGeneric name)
  | _ => exact nofun

/-! ## Renaming -/

mutual

/-- The type with every type parameter that occurs in it renamed. -/
def renamed (names : String → String) : Ty → Ty
  | .generic name => .generic (names name)
  | .function params ret variadic generics =>
    .function (renamedList names params) (renamed names ret) variadic generics
  | .named name supers members => .named name supers (renamedMembers names members)
  | .record supers members => .record supers (renamedMembers names members)
  | .union alts => .union (renamedList names alts)
  | .aliasRef name args => .aliasRef name (renamedList names args)
  | .array element => .array (renamed names element)
  | .tuple elements => .tuple (renamedList names elements)
  | ty => ty
termination_by structural ty => ty

/-- `renamed` over a list of types. -/
def renamedList (names : String → String) : List Ty → List Ty
  | [] => []
  | ty :: rest => renamed names ty :: renamedList names rest
termination_by structural tys => tys

/-- `renamed` over the types of members. -/
def renamedMembers (names : String → String) : List (Member Ty) → List (Member Ty)
  | [] => []
  | ⟨name, ty, visibility, deprecated, site⟩ :: rest =>
    ⟨name, renamed names ty, visibility, deprecated, site⟩ :: renamedMembers names rest
termination_by structural members => members

end

/-- The member with the type parameters in its type renamed. -/
def renamedMember (names : String → String) (member : Member Ty) : Member Ty :=
  member.withTy (member.ty.renamed names)

section Equations

variable (names : String → String)

@[simp] theorem renamedMember_name (member : Member Ty) :
    (renamedMember names member).name = member.name := rfl

@[simp] theorem renamedMember_ty (member : Member Ty) :
    (renamedMember names member).ty = member.ty.renamed names := rfl

theorem renamedList_eq (tys : List Ty) : renamedList names tys = tys.map (renamed names) := by
  induction tys with
  | nil => rfl
  | cons ty rest ih => exact congrArg _ ih

theorem renamedMembers_eq (members : List (Member Ty)) :
    renamedMembers names members = members.map (renamedMember names) := by
  induction members with
  | nil => rfl
  | cons member rest ih =>
    cases member
    exact congrArg _ ih

@[simp] theorem renamed_unknown : unknown.renamed names = .unknown := rfl

@[simp] theorem renamed_function (params : List Ty) (ret : Ty) (variadic : Bool)
    (generics : List String) : (function params ret variadic generics).renamed names
      = .function (params.map (renamed names)) (ret.renamed names) variadic generics := by
  rw [← renamedList_eq]
  rfl

@[simp] theorem renamed_named (name : String) (supers : List String) (members : List (Member Ty)) :
    (named name supers members).renamed names
      = .named name supers (members.map (renamedMember names)) := by
  rw [← renamedMembers_eq]
  rfl

@[simp] theorem renamed_record (supers : List String) (members : List (Member Ty)) :
    (record supers members).renamed names
      = .record supers (members.map (renamedMember names)) := by
  rw [← renamedMembers_eq]
  rfl

@[simp] theorem renamed_union (alts : List Ty) :
    (union alts).renamed names = .union (alts.map (renamed names)) := by
  rw [← renamedList_eq]
  rfl

@[simp] theorem renamed_aliasRef (name : String) (args : List Ty) :
    (aliasRef name args).renamed names = .aliasRef name (args.map (renamed names)) := by
  rw [← renamedList_eq]
  rfl

@[simp] theorem renamed_tuple (elements : List Ty) :
    (tuple elements).renamed names = .tuple (elements.map (renamed names)) := by
  rw [← renamedList_eq]
  rfl

/-- A type that is no type parameter is renamed by renaming its parts. -/
theorem renamed_eq_mapParts {ty : Ty} (notGeneric : ∀ name, ty ≠ .generic name) :
    ty.renamed names = ty.mapParts (renamed names) := by
  cases ty with
  | generic name => exact absurd rfl (notGeneric name)
  | function => exact renamed_function names _ _ _ _
  | named => exact renamed_named names _ _ _
  | record => exact renamed_record names _ _
  | union => exact renamed_union names _
  | aliasRef => exact renamed_aliasRef names _ _
  | tuple => exact renamed_tuple names _
  | _ => rfl

theorem parts_renamed (ty : Ty) : (ty.renamed names).parts = ty.parts.map (renamed names) := by
  rcases generic_or ty with ⟨name, rfl⟩ | notGeneric
  · rfl
  · rw [renamed_eq_mapParts names notGeneric, parts_mapParts]

@[simp] theorem isUnknown_renamed (ty : Ty) : (ty.renamed names).isUnknown = ty.isUnknown := by
  cases ty <;> rfl

@[simp] theorem isKnown_renamed (ty : Ty) : (ty.renamed names).isKnown = ty.isKnown := by
  rw [isKnown, isUnknown_renamed, isKnown]

@[simp] theorem isNil_renamed (ty : Ty) : (ty.renamed names).isNil = ty.isNil := by
  cases ty <;> rfl

@[simp] theorem isDefinite_renamed (ty : Ty) : (ty.renamed names).isDefinite = ty.isDefinite := by
  cases ty <;> rfl

theorem alternatives_renamed (ty : Ty) :
    (ty.renamed names).alternatives = ty.alternatives.map (renamed names) := by
  cases ty with
  | union alts => exact renamedList_eq names alts
  | _ => rfl

theorem containsGeneric_renamed (ty : Ty) :
    (ty.renamed names).containsGeneric = ty.containsGeneric := by
  induction ty using induction_on_parts with
  | step ty ih =>
    rw [containsGeneric, containsGeneric, anyNode_eq, anyNode_eq, parts_renamed, List.any_map]
    congr 1
    · cases ty <;> rfl
    · rw [Bool.eq_iff_iff, List.any_eq_true, List.any_eq_true]
      refine exists_congr fun part => and_congr_right fun mem => ?_
      exact iff_of_eq (congrArg (· = true) (ih part mem))

theorem findMember?_renamed (members : List (Member Ty)) (name : String) :
    findMember? (members.map (renamedMember names)) name
      = (findMember? members name).map (renamedMember names) := by
  rw [findMember?, List.find?_map]
  rfl

end Equations

/-! ## Which parameters occur -/

/-- Whether a type parameter of that name occurs anywhere in the type. -/
def hasParam (name : String) (ty : Ty) : Bool :=
  ty.anyNode fun
    | .generic other => other == name
    | _ => false

/-- Every type parameter that occurs in the type has the property. -/
def ParamsAll (holds : String → Prop) (ty : Ty) : Prop :=
  ∀ name, ty.hasParam name = true → holds name

section Params

variable {holds holds' : String → Prop} {ty : Ty}

theorem paramsAll_iff : ty.ParamsAll holds ↔
    (∀ name, ty = .generic name → holds name) ∧ ∀ part ∈ ty.parts, part.ParamsAll holds := by
  have here (name : String) : ty.hasParam name = true ↔
      ty = .generic name ∨ ∃ part ∈ ty.parts, part.hasParam name = true := by
    rw [hasParam, anyNode_eq, Bool.or_eq_true, List.any_eq_true]
    refine or_congr_left ?_
    cases ty <;> simp
  constructor
  · refine fun h => ⟨fun name same => h name ((here name).mpr (.inl same)), ?_⟩
    exact fun part mem name inside => h name ((here name).mpr (.inr ⟨part, mem, inside⟩))
  · rintro ⟨outer, inner⟩ name occurs
    rcases (here name).mp occurs with same | ⟨part, mem, inside⟩
    · exact outer name same
    · exact inner part mem name inside

theorem ParamsAll.part {part : Ty} (h : ty.ParamsAll holds) (mem : part ∈ ty.parts) :
    part.ParamsAll holds :=
  (paramsAll_iff.mp h).2 part mem

theorem ParamsAll.mono (h : ty.ParamsAll holds) (imp : ∀ name, holds name → holds' name) :
    ty.ParamsAll holds' :=
  fun name occurs => imp name (h name occurs)

theorem paramsAll_of_parts (notGeneric : ∀ name, ty ≠ .generic name)
    (parts : ∀ part ∈ ty.parts, part.ParamsAll holds) : ty.ParamsAll holds :=
  paramsAll_iff.mpr ⟨fun name same => absurd same (notGeneric name), parts⟩

theorem paramsAll_of_containsGeneric (none : ty.containsGeneric = false) : ty.ParamsAll holds := by
  induction ty using induction_on_parts with
  | step ty ih =>
    refine paramsAll_iff.mpr ⟨?_, fun part mem => ih part mem (anyNode_part mem none)⟩
    rintro name rfl
    cases none

/-- Rebuilding a type brings no type parameter in. -/
theorem rebuilds_paramsAll (holds : String → Prop) : Rebuilds (ParamsAll holds) where
  part h mem := h.part mem
  unknown := paramsAll_of_parts nofun nofun
  string := paramsAll_of_parts nofun nofun
  function _ _ params ret := paramsAll_of_parts nofun (List.forall_mem_cons.mpr ⟨ret, params⟩)
  named _ _ members := paramsAll_of_parts nofun (List.forall_mem_map.mpr members)
  record _ _ members := paramsAll_of_parts nofun (List.forall_mem_map.mpr members)
  aliasRef _ args := paramsAll_of_parts nofun args
  array h := paramsAll_of_parts nofun (List.forall_mem_singleton.mpr h)
  tuple h := paramsAll_of_parts nofun h
  collapsed {tys kept} h only _ := by
    have each : ∀ ty ∈ kept, ty.ParamsAll holds := by
      intro ty mem
      obtain ⟨source, source_mem, mem⟩ := Union.mem_flatten (Union.mem_dropUnknown (only.mem mem))
      have hsource := h source source_mem
      cases source with
      | union alts => exact hsource.part mem
      | _ => exact List.mem_singleton.mp mem ▸ hsource
    unfold Union.ofAlternatives
    split
    · exact each _ List.mem_cons_self
    · exact paramsAll_of_parts nofun each

end Params

/-- Two renamings that agree on the type parameters of a type rename it alike. -/
theorem renamed_congr {names names' : String → String} {ty : Ty}
    (same : ty.ParamsAll fun name => names name = names' name) :
    ty.renamed names = ty.renamed names' := by
  induction ty using induction_on_parts with
  | step ty ih =>
    rcases generic_or ty with ⟨name, rfl⟩ | notGeneric
    · exact congrArg generic ((paramsAll_iff.mp same).1 name rfl)
    · rw [renamed_eq_mapParts _ notGeneric, renamed_eq_mapParts _ notGeneric]
      exact mapParts_congr fun part mem => ih part mem (same.part mem)

theorem renamed_id (ty : Ty) : ty.renamed id = ty := by
  induction ty using induction_on_parts with
  | step ty ih =>
    rcases generic_or ty with ⟨name, rfl⟩ | notGeneric
    · rfl
    · rw [renamed_eq_mapParts _ notGeneric]
      exact (mapParts_congr ih).trans (mapParts_id ty)

/-- A renaming of type parameters that do not occur changes nothing. -/
theorem renamed_eq_self {names : String → String} {ty : Ty}
    (fixed : ty.ParamsAll fun name => names name = name) : ty.renamed names = ty :=
  (renamed_congr fixed).trans (renamed_id ty)

theorem renamed_renamed {names : String → String} (involutive : names.Involutive) (ty : Ty) :
    (ty.renamed names).renamed names = ty := by
  induction ty using induction_on_parts with
  | step ty ih =>
    rcases generic_or ty with ⟨name, rfl⟩ | notGeneric
    · exact congrArg generic (involutive name)
    · rw [renamed_eq_mapParts names notGeneric,
        renamed_eq_mapParts names (mapParts_ne_generic notGeneric _), mapParts_mapParts]
      exact (mapParts_congr ih).trans (mapParts_id ty)

/-! ## Outlines and equality -/

section Comparable

variable {names : String → String} {a b : Ty}

theorem outline_renamed_of_eq (names : String → String) (same : a.outline = b.outline) :
    (a.renamed names).outline = (b.renamed names).outline := by
  induction a using induction_on_parts generalizing b with
  | step a ih =>
    have listed {as bs : List Ty} (within : as ⊆ a.parts)
        (h : List.Forall₂ (fun x y => x.outline = y.outline) as bs) :
        List.Forall₂ (fun x y => x.outline = y.outline) (as.map (renamed names))
          (bs.map (renamed names)) := by
      rw [List.forall₂_map_left_iff, List.forall₂_map_right_iff, List.forall₂_iff_zip] at *
      exact ⟨h.1, fun mem => ih _ (within (List.of_mem_zip mem).1) (h.2 mem)⟩
    cases outline_eq_iff.mp same with
    | refl childless => rfl
    | function h result =>
      rw [renamed_function, renamed_function, outline_eq_iff]
      exact .function (listed (List.subset_cons_self _ _) h) (ih _ List.mem_cons_self result)
    | named name => rfl
    | record _ _ len =>
      rw [renamed_record, renamed_record, outline_eq_iff]
      exact .record _ _ (by rw [List.length_map, List.length_map, len])
    | union perm h =>
      rw [renamed_union, renamed_union, outline_eq_iff]
      exact .union (perm.map _) (listed (List.Subset.refl _) h)
    | aliasRef h =>
      rw [renamed_aliasRef, renamed_aliasRef, outline_eq_iff]
      exact .aliasRef (listed (List.Subset.refl _) h)
    | array h =>
      rw [renamed, renamed, outline_eq_iff]
      exact .array (ih _ (List.mem_singleton_self _) h)
    | tuple h =>
      rw [renamed_tuple, renamed_tuple, outline_eq_iff]
      exact .tuple (listed (List.Subset.refl _) h)

theorem outline_renamed_iff (involutive : names.Involutive) :
    (a.renamed names).outline = (b.renamed names).outline ↔ a.outline = b.outline := by
  refine ⟨fun same => ?_, outline_renamed_of_eq names⟩
  have back := outline_renamed_of_eq names same
  rwa [renamed_renamed involutive, renamed_renamed involutive] at back

theorem eqv_renamed_of_eqv (names : String → String) (same : a.eqv b = true) :
    (a.renamed names).eqv (b.renamed names) = true := by
  induction a using induction_on_parts generalizing b with
  | step a ih =>
    have listed {as bs : List Ty} (within : as ⊆ a.parts)
        (h : ∀ pair ∈ as.zip bs, pair.1.eqv pair.2 = true) :
        ∀ pair ∈ (as.map (renamed names)).zip (bs.map (renamed names)),
          pair.1.eqv pair.2 = true := by
      rw [List.zip_map]
      refine List.forall_mem_map.mpr fun pair mem => ?_
      exact ih _ (within (List.of_mem_zip mem).1) (h pair mem)
    cases eqv_iff.mp same with
    | refl childless =>
      refine eqv_iff.mpr (.refl ?_)
      rw [parts_renamed, childless]
      rfl
    | function len h result =>
      rw [renamed_function, renamed_function, eqv_iff]
      exact .function (by simpa using len) (listed (List.subset_cons_self _ _) h)
        (ih _ List.mem_cons_self result)
    | named name => exact beq_self_eq_true name
    | record len h =>
      rw [renamed_record, renamed_record, eqv_iff]
      refine .record (by simpa using len) (List.forall_mem_map.mpr fun member mem => ?_)
      obtain ⟨other, found, same⟩ := h member mem
      refine ⟨renamedMember names other, ?_, ih _ (List.mem_map_of_mem mem) same⟩
      exact (findMember?_renamed names _ _).trans (congrArg _ found)
    | union len h =>
      rw [renamed_union, renamed_union, eqv_iff]
      refine .union (by simpa using len) (List.forall_mem_map.mpr fun alt mem => ?_)
      obtain ⟨other, found, same⟩ := h alt mem
      exact ⟨other.renamed names, List.mem_map_of_mem found, ih alt mem same⟩
    | aliasRef len h =>
      rw [renamed_aliasRef, renamed_aliasRef, eqv_iff]
      exact .aliasRef (by simpa using len) (listed (List.Subset.refl _) h)
    | array h => exact ih _ (List.mem_singleton_self _) h
    | tuple len h =>
      rw [renamed_tuple, renamed_tuple, eqv_iff]
      exact .tuple (by simpa using len) (listed (List.Subset.refl _) h)

theorem eqv_renamed (involutive : names.Involutive) (a b : Ty) :
    (a.renamed names).eqv (b.renamed names) = a.eqv b := by
  refine Bool.eq_iff_iff.mpr ⟨fun same => ?_, eqv_renamed_of_eqv names⟩
  have back := eqv_renamed_of_eqv names same
  rwa [renamed_renamed involutive, renamed_renamed involutive] at back

theorem memOf_renamed (involutive : names.Involutive) (ty : Ty) (tys : List Ty) :
    (ty.renamed names).memOf (tys.map (renamed names)) = ty.memOf tys := by
  rw [memOf, List.any_map, memOf]
  exact congrArg tys.any (funext fun other => eqv_renamed involutive other ty)

end Comparable

end Ty

end LuaTyping
