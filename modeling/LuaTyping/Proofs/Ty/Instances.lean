import LuaTyping.Proofs.Ty.Recovery

/-!
# Which type parameters an instance has

Types are put in for all type parameters at once. So a type parameter of the result was there before
and nothing is put in for it, or it belongs to a type that was put in for one that was there before;
it stays even if something is put in for it elsewhere. Conversely no such type parameter is lost,
except where a union is built again and an alternative has come to be covered by another one. Both
follow from one statement about replacing, by induction on the parts of a type
(`paramsAll_replace`, `hasParam_replace`).
-/

set_option autoImplicit false

namespace LuaTyping.Ty

/-! ## Types without type parameters -/

theorem containsGeneric_eq_false_iff {ty : Ty} :
    ty.containsGeneric = false ↔ ty.ParamsAll fun _ => False := by
  refine ⟨paramsAll_of_containsGeneric, fun none => ?_⟩
  induction ty using induction_on_parts with
  | step ty ih =>
    rw [containsGeneric, anyNode_eq, Bool.or_eq_false_iff, List.any_eq_false]
    obtain ⟨outer, inner⟩ := paramsAll_iff.mp none
    refine ⟨?_, fun part mem => Bool.eq_false_iff.mp (ih part mem (inner part mem))⟩
    cases ty with
    | generic name => exact (outer name rfl).elim
    | _ => rfl

/-! ## Replacing type parameters -/

/-- What is put in for a type parameter, which is the parameter itself where there is nothing. -/
def putAt (put : String → Option Ty) (name : String) : Ty := (put name).getD (.generic name)

/-- What holds of the type parameters of all that is put in holds of those of the result. -/
theorem paramsAll_replace {put : String → Option Ty} {holds : String → Prop} {ty : Ty}
    (each : ty.ParamsAll fun name => (putAt put name).ParamsAll holds) :
    (ty.replace (atParams put)).ParamsAll holds := by
  induction ty using induction_on_parts with
  | step ty ih =>
    obtain ⟨outer, inner⟩ := paramsAll_iff.mp each
    have parts : ∀ part ∈ ty.parts, (part.replace (atParams put)).ParamsAll holds :=
      fun part mem => ih part mem (inner part mem)
    rcases generic_or ty with ⟨name, rfl⟩ | notGeneric
    · rw [replace_generic]
      exact outer name rfl
    · by_cases isUnion : ∃ alts, ty = .union alts
      · obtain ⟨alts, rfl⟩ := isUnion
        rw [replace_union]
        exact (rebuilds_paramsAll holds).unionOf (List.forall_mem_map.mpr parts)
      · have notUnion : ∀ alts, ty ≠ .union alts := fun alts same => isUnion ⟨alts, same⟩
        rw [replace_eq_mapParts put notGeneric notUnion]
        refine paramsAll_of_parts (mapParts_ne_generic notGeneric _) ?_
        rw [parts_mapParts]
        exact List.forall_mem_map.mpr parts

/-- In a type without unions, every type parameter of what is put in is one of the result. -/
theorem hasParam_replace {put : String → Option Ty} {source name : String} {ty : Ty}
    (flat : ty.containsUnion = false) (occurs : ty.hasParam source = true)
    (inside : (putAt put source).hasParam name = true) :
    (ty.replace (atParams put)).hasParam name = true := by
  induction ty using induction_on_parts with
  | step ty ih =>
    rcases generic_or ty with ⟨other, rfl⟩ | notGeneric
    · obtain rfl : other = source := eq_of_beq occurs
      rw [replace_generic]
      exact inside
    · have notUnion : ∀ alts, ty ≠ .union alts := by
        rintro alts rfl
        cases flat
      rw [hasParam_eq_any notGeneric, List.any_eq_true] at occurs
      obtain ⟨part, mem, occurs⟩ := occurs
      rw [replace_eq_mapParts put notGeneric notUnion,
        hasParam_eq_any (mapParts_ne_generic notGeneric _), parts_mapParts, List.any_map,
        List.any_eq_true]
      exact ⟨part, mem, ih part mem (anyNode_part mem flat) occurs⟩

/-! ## Putting types in -/

theorem paramsAll_generic {holds : String → Prop} {name : String} :
    (generic name).ParamsAll holds ↔ holds name := by
  rw [paramsAll_iff]
  simp [parts]

/-- Where no type parameter is bound, each is put in for itself. -/
theorem putAt_of_isEmpty {bindings : Bindings} (empty : bindings.isEmpty = true) (name : String) :
    putAt bindings.get? name = .generic name := by
  rw [putAt, Bindings.get?, List.isEmpty_iff.mp empty, List.lookup_nil]
  rfl

theorem paramsAll_instantiate {bindings : Bindings} {holds : String → Prop} {ty : Ty}
    (each : ty.ParamsAll fun name => (putAt bindings.get? name).ParamsAll holds) :
    (ty.instantiate bindings).ParamsAll holds := by
  by_cases empty : bindings.isEmpty = true
  · rw [instantiate_of_isEmpty empty]
    refine each.mono fun name all => ?_
    rwa [putAt_of_isEmpty empty, paramsAll_generic] at all
  · rw [instantiate_of_not_isEmpty empty]
    exact paramsAll_replace each

theorem hasParam_instantiate {bindings : Bindings} {source name : String} {ty : Ty}
    (flat : ty.containsUnion = false) (occurs : ty.hasParam source = true)
    (inside : (putAt bindings.get? source).hasParam name = true) :
    (ty.instantiate bindings).hasParam name = true := by
  by_cases empty : bindings.isEmpty = true
  · rw [putAt_of_isEmpty empty, hasParam_generic] at inside
    rw [instantiate_of_isEmpty empty, ← eq_of_beq inside]
    exact occurs
  · rw [instantiate_of_not_isEmpty empty]
    exact hasParam_replace flat occurs inside

/-- The type parameter is in what is put in for one of the type: that one itself, where nothing is
bound to it, or else the type bound to it. -/
def BroughtBy (bindings : Bindings) (ty : Ty) (name : String) : Prop :=
  (ty.hasParam name = true ∧ bindings.get? name = none) ∨
    ∃ source bound, ty.hasParam source = true ∧ bindings.get? source = some bound ∧
      bound.hasParam name = true

theorem broughtBy_iff {bindings : Bindings} {ty : Ty} {name : String} :
    ty.BroughtBy bindings name ↔
      ∃ source, ty.hasParam source = true ∧ (putAt bindings.get? source).hasParam name = true := by
  constructor
  · rintro (⟨occurs, unbound⟩ | ⟨source, bound, occurs, found, inside⟩)
    · refine ⟨name, occurs, ?_⟩
      rw [putAt, unbound]
      exact beq_self_eq_true name
    · refine ⟨source, occurs, ?_⟩
      rw [putAt, found]
      exact inside
  · rintro ⟨source, occurs, inside⟩
    cases found : bindings.get? source with
    | none =>
      rw [putAt, found] at inside
      obtain rfl : source = name := eq_of_beq inside
      exact .inl ⟨occurs, found⟩
    | some bound =>
      rw [putAt, found] at inside
      exact .inr ⟨source, bound, occurs, found, inside⟩

/-- No type parameter is left when all are erased. -/
theorem containsGeneric_eraseGenerics (ty : Ty) : ty.eraseGenerics.containsGeneric = false := by
  unfold eraseGenerics
  split
  · have erased : (ty.replace (atParams fun _ => some .unknown)).ParamsAll fun _ => False :=
      paramsAll_replace fun _ _ => paramsAll_of_containsGeneric rfl
    exact containsGeneric_eq_false_iff.mpr erased
  · rename_i none
    exact Bool.eq_false_iff.mpr none

/-- Types are put in for all type parameters at once and everywhere. A type parameter of the result
is one of the type with nothing bound to it, or is in a type bound to one of the type, and without
unions all these are in the result; erasing leaves none, nor does putting in types without any for
all of them. -/
theorem instantiate_simultaneous (bindings : Bindings) (ty : Ty) :
    (∀ name, (ty.instantiate bindings).hasParam name = true → ty.BroughtBy bindings name) ∧
      (ty.containsUnion = false → ∀ name, ty.BroughtBy bindings name →
        (ty.instantiate bindings).hasParam name = true) ∧
      ty.eraseGenerics.containsGeneric = false ∧
      ((∀ name, ty.hasParam name = true →
          ∃ bound, bindings.get? name = some bound ∧ bound.containsGeneric = false) →
        (ty.instantiate bindings).containsGeneric = false) := by
  refine ⟨?_, fun flat name brought => ?_, containsGeneric_eraseGenerics ty, fun closed => ?_⟩
  · refine paramsAll_instantiate fun source occurs name inside => ?_
    exact broughtBy_iff.mpr ⟨source, occurs, inside⟩
  · obtain ⟨source, occurs, inside⟩ := broughtBy_iff.mp brought
    exact hasParam_instantiate flat occurs inside
  · rw [containsGeneric_eq_false_iff]
    refine paramsAll_instantiate fun name occurs => ?_
    obtain ⟨bound, found, none⟩ := closed name occurs
    rw [putAt, found]
    exact paramsAll_of_containsGeneric none

/-- A type in which `T`, `U` and `V` occur, `U` twice. -/
def pairing : Ty :=
  .function [.generic "T", .tuple [.generic "U", .generic "V"]]
    (.record [] [.ofTy "all" (.array (.generic "U"))]) false []

/-- `U` is put in with what is bound to `T`, and stays although it is itself bound; nothing is bound
to `V`. Where all three are bound to types without type parameters, none is left. -/
theorem instantiate_simultaneous_pairing :
    let swapped := Bindings.ofList [("T", .array (.generic "U")), ("U", .number)]
    let closed := Bindings.ofList [("T", .string), ("U", .number), ("V", .nil)]
    ((pairing.instantiate swapped).hasParam "U" = true ∧ pairing.BroughtBy swapped "U") ∧
      (pairing.containsUnion = false ∧ pairing.BroughtBy swapped "V" ∧
        (pairing.instantiate swapped).hasParam "V" = true) ∧
      (∀ name, pairing.hasParam name = true →
        ∃ bound, closed.get? name = some bound ∧ bound.containsGeneric = false) ∧
      (pairing.instantiate closed).containsGeneric = false := by
  intro swapped closed
  have unbound : pairing.BroughtBy swapped "V" := .inl ⟨by decide, by rfl⟩
  have all_closed (name : String) (occurs : pairing.hasParam name = true) :
      ∃ bound, closed.get? name = some bound ∧ bound.containsGeneric = false := by
    have listed : ("T" = name ∨ "U" = name ∨ "V" = name) ∨ "U" = name := by
      simpa [pairing, hasParam, anyNode, anyNodeList, anyNodeMembers, Member.ofTy] using occurs
    rcases listed with (rfl | rfl | rfl) | rfl
    · exact ⟨.string, by rfl, rfl⟩
    · exact ⟨.number, by rfl, rfl⟩
    · exact ⟨.nil, by rfl, rfl⟩
    · exact ⟨.number, by rfl, rfl⟩
  obtain ⟨brought, brings, -, -⟩ := instantiate_simultaneous swapped pairing
  obtain ⟨-, -, -, without⟩ := instantiate_simultaneous closed pairing
  have stays : (pairing.instantiate swapped).hasParam "U" = true := by decide +kernel
  have flat : pairing.containsUnion = false := by decide
  exact ⟨⟨stays, brought "U" stays⟩, ⟨flat, unbound, brings flat "V" unbound⟩, all_closed,
    without all_closed⟩

end LuaTyping.Ty
