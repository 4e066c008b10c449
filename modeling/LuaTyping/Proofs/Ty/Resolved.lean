import LuaTyping.Proofs.Ty.Rebuild

/-!
# Types without references

A type is *resolved* if no reference that is still to be looked up stands anywhere in it. The
operations on types bring no reference in: a union holds alternatives of what it is built from, a
replacement puts in what it is given, and binding type parameters from arguments binds them to parts
of the arguments. All of this is `rebuilds_resolved`; expanding references, which takes a type that
is not resolved to one that is, has its own induction.
-/

set_option autoImplicit false

namespace LuaTyping

namespace Ty

/-- No reference stands anywhere in the type. -/
def Resolved (ty : Ty) : Prop := ty.containsAlias = false

/-- A type is resolved if it is no reference itself and its parts are resolved. -/
theorem resolved_iff (ty : Ty) :
    ty.Resolved ↔ (∀ name args, ty ≠ .aliasRef name args) ∧ ∀ part ∈ ty.parts, part.Resolved := by
  rw [Resolved, containsAlias, anyNode_eq, Bool.or_eq_false_iff, List.any_eq_false]
  refine and_congr ?_ (forall₂_congr fun part _ => Bool.not_eq_true _ ▸ Iff.rfl)
  cases ty <;> simp

@[simp] theorem resolved_unknown : unknown.Resolved := rfl
@[simp] theorem resolved_nil : nil.Resolved := rfl
@[simp] theorem resolved_boolean : boolean.Resolved := rfl
@[simp] theorem resolved_number : number.Resolved := rfl
@[simp] theorem resolved_string : string.Resolved := rfl
@[simp] theorem resolved_literal (text : String) : (literal text).Resolved := rfl
@[simp] theorem resolved_generic (name : String) : (generic name).Resolved := rfl

@[simp] theorem resolved_function {params : List Ty} {ret : Ty} {variadic : Bool}
    {generics : List String} : (function params ret variadic generics).Resolved ↔
      (∀ param ∈ params, param.Resolved) ∧ ret.Resolved := by
  simp [resolved_iff (.function _ _ _ _), parts, and_comm]

@[simp] theorem resolved_named {name : String} {supers : List String} {members : List (Member Ty)} :
    (named name supers members).Resolved ↔ ∀ member ∈ members, member.ty.Resolved := by
  simp [resolved_iff (.named _ _ _), parts]

@[simp] theorem resolved_record {supers : List String} {members : List (Member Ty)} :
    (record supers members).Resolved ↔ ∀ member ∈ members, member.ty.Resolved := by
  simp [resolved_iff (.record _ _), parts]

@[simp] theorem resolved_union {alts : List Ty} :
    (union alts).Resolved ↔ ∀ alt ∈ alts, alt.Resolved := by
  simp [resolved_iff (.union _), parts]

@[simp] theorem resolved_array {element : Ty} : (array element).Resolved ↔ element.Resolved := by
  simp [resolved_iff (.array _), parts]

@[simp] theorem resolved_tuple {elements : List Ty} :
    (tuple elements).Resolved ↔ ∀ element ∈ elements, element.Resolved := by
  simp [resolved_iff (.tuple _), parts]

/-- Erasing references changes nothing in a resolved type. -/
theorem Resolved.eraseRefs_eq {ty : Ty} (h : ty.Resolved) : ty.eraseRefs = ty :=
  if_neg (Bool.eq_false_iff.mp h)

/-! ## Parts of values -/

theorem Resolved.alternatives {ty : Ty} (h : ty.Resolved) :
    ∀ alt ∈ ty.alternatives, alt.Resolved := by
  cases ty with
  | union alts => exact resolved_union.mp h
  | _ => exact List.forall_mem_singleton.mpr h

theorem Resolved.getD {ty : Option Ty} {default : Ty}
    (h : ∀ found, ty = some found → found.Resolved) (hdefault : default.Resolved) :
    (ty.getD default).Resolved := by
  cases ty with
  | none => exact hdefault
  | some found => exact h found rfl

theorem Resolved.nthValue {ty : Ty} (h : ty.Resolved) (index : Nat) :
    (ty.nthValue index).Resolved := by
  cases ty with
  | tuple elements =>
    refine .getD (fun found at_index => ?_) rfl
    exact resolved_tuple.mp h found (List.mem_of_getElem? at_index)
  | _ =>
    rw [Ty.nthValue]
    · split
      · exact h
      · rfl
    · nofun

theorem Resolved.firstValue {ty : Ty} (h : ty.Resolved) : ty.firstValue.Resolved := by
  cases ty with
  | tuple elements =>
    refine .getD (fun found first => ?_) rfl
    exact resolved_tuple.mp h found (List.mem_of_head? first)
  | _ => exact h

theorem Resolved.params? {ty : Ty} (h : ty.Resolved) {params : List Ty}
    (hp : ty.params? = some params) : ∀ param ∈ params, param.Resolved := by
  cases ty with
  | function params' ret variadic generics =>
    cases hp
    exact (resolved_function.mp h).1
  | _ => cases hp

theorem Resolved.firstFunction? {ty : Ty} (h : ty.Resolved) {params : List Ty}
    {generics : List String} (hf : ty.firstFunction? = some (params, generics)) :
    ∀ param ∈ params, param.Resolved := by
  obtain ⟨alt, mem, halt⟩ := List.exists_of_findSome?_eq_some hf
  have resolved := h.alternatives alt mem
  cases alt with
  | function params' ret variadic generics' =>
    cases halt
    exact (resolved_function.mp resolved).1
  | _ => cases halt

end Ty

/-! ## Operations on types -/

namespace Ty

theorem rebuilds_resolved : Rebuilds Resolved where
  part h mem := ((resolved_iff _).mp h).2 _ mem
  unknown := rfl
  string := rfl
  function _ _ params ret := resolved_function.mpr ⟨params, ret⟩
  named _ _ members := resolved_named.mpr members
  record _ _ members := resolved_record.mpr members
  aliasRef h _ := absurd rfl (((resolved_iff _).mp h).1 _ _)
  array := resolved_array.mpr
  tuple := resolved_tuple.mpr
  collapsed {tys kept} h only _ := by
    have resolved : ∀ ty ∈ kept, ty.Resolved := by
      intro ty mem
      obtain ⟨source, source_mem, mem⟩ := Union.mem_flatten (Union.mem_dropUnknown (only.mem mem))
      exact (h source source_mem).alternatives ty mem
    unfold Union.ofAlternatives
    split
    · exact resolved _ List.mem_cons_self
    · exact resolved_union.mpr resolved

/-- A union of resolved types is resolved, over the classes of whatever project. -/
theorem holds_unionWith {m : Type → Type} [Monad m] {holds : {α : Type} → (α → Prop) → m α → Prop}
    (follows : Follows m holds) (resolver : Resolver m) {tys : List Ty}
    (h : ∀ ty ∈ tys, ty.Resolved) : holds Resolved (unionWith resolver tys) :=
  rebuilds_resolved.holds_unionWith follows resolver h

theorem resolved_unionOf {tys : List Ty} (h : ∀ ty ∈ tys, ty.Resolved) : (unionOf tys).Resolved :=
  rebuilds_resolved.unionOf h

theorem Resolved.withoutNil {ty : Ty} (h : ty.Resolved) : ty.withoutNil.Resolved :=
  rebuilds_resolved.withoutNil h

theorem Resolved.widen {ty : Ty} (h : ty.Resolved) : ty.widen.Resolved := rebuilds_resolved.widen h

section Expansion

variable {m : Type → Type} [Monad m] {holds : {α : Type} → (α → Prop) → m α → Prop}
  (follows : Follows m holds) {expand : String → m (List Ty) → m Ty}
  (resolves : ∀ name args, holds Resolved (expand name args))
include follows

theorem holds_expandRefsListM {tys : List Ty}
    (each : ∀ ty ∈ tys, holds Resolved (expandRefsM expand ty)) :
    holds (fun tys => ∀ ty ∈ tys, ty.Resolved) (expandRefsListM expand tys) := by
  induction tys with
  | nil => exact follows.pure nofun
  | cons ty rest ih =>
    rw [expandRefsListM]
    obtain ⟨first, others⟩ := List.forall_mem_cons.mp each
    refine follows.bind first fun ty hty => ?_
    refine follows.bind (ih others) fun tys htys => ?_
    exact follows.pure (List.forall_mem_cons.mpr ⟨hty, htys⟩)

theorem holds_expandRefsMembersM {members : List (Member Ty)}
    (each : ∀ ty ∈ members.map (·.ty), holds Resolved (expandRefsM expand ty)) :
    holds (fun members => ∀ member ∈ members, member.ty.Resolved)
      (expandRefsMembersM expand members) := by
  induction members with
  | nil => exact follows.pure nofun
  | cons member rest ih =>
    rw [expandRefsMembersM]
    obtain ⟨first, others⟩ := List.forall_mem_cons.mp each
    refine follows.bind first fun ty hty => ?_
    refine follows.bind (ih others) fun members hmembers => ?_
    exact follows.pure (List.forall_mem_cons.mpr ⟨hty, hmembers⟩)

include resolves

/-- Expanding leaves no reference behind if what a reference expands to has none. -/
theorem holds_expandRefsM (ty : Ty) : holds Resolved (expandRefsM expand ty) := by
  induction ty using induction_on_parts with
  | step ty ih =>
    cases ty with
    | function params ret =>
      obtain ⟨returned, given⟩ := List.forall_mem_cons.mp ih
      rw [expandRefsM]
      refine follows.bind (holds_expandRefsListM follows given) fun params hparams => ?_
      refine follows.bind returned fun ret hret => ?_
      exact follows.pure (resolved_function.mpr ⟨hparams, hret⟩)
    | named =>
      rw [expandRefsM]
      refine follows.bind (holds_expandRefsMembersM follows ih) fun members hmembers => ?_
      exact follows.pure (resolved_named.mpr hmembers)
    | record =>
      rw [expandRefsM]
      refine follows.bind (holds_expandRefsMembersM follows ih) fun members hmembers => ?_
      exact follows.pure (resolved_record.mpr hmembers)
    | union =>
      rw [expandRefsM]
      refine follows.bind (holds_expandRefsListM follows ih) fun alts halts => ?_
      exact follows.pure (resolved_unionOf halts)
    | aliasRef name => exact resolves name _
    | array element =>
      rw [expandRefsM]
      refine follows.bind (ih element List.mem_cons_self) fun element helement => ?_
      exact follows.pure (resolved_array.mpr helement)
    | tuple =>
      rw [expandRefsM]
      refine follows.bind (holds_expandRefsListM follows ih) fun elements helements => ?_
      exact follows.pure (resolved_tuple.mpr helements)
    | _ => exact follows.pure rfl

theorem holds_expandM (ty : Ty) : holds Resolved (ty.expandM expand) := by
  unfold expandM
  split
  · exact holds_expandRefsM follows resolves ty
  · rename_i h
    exact follows.pure (Bool.eq_false_iff.mpr h)

end Expansion

theorem Resolved.eraseGenerics {ty : Ty} (h : ty.Resolved) : ty.eraseGenerics.Resolved :=
  rebuilds_resolved.eraseGenerics h

theorem Resolved.eraseOnly {ty : Ty} (h : ty.Resolved) (generics : List String) :
    (ty.eraseOnly generics).Resolved :=
  rebuilds_resolved.eraseOnly h generics

end Ty

/-! ## Bindings -/

namespace Bindings

/-- Every type parameter is bound to a resolved type. -/
def Resolved (bindings : Bindings) : Prop := ∀ entry ∈ bindings.entries, entry.2.Resolved

theorem resolved_empty : empty.Resolved := nofun

/-- From resolved arguments type parameters are bound to resolved types. -/
theorem resolved_infer (generics : List String) (params : List Ty) {args : List Ty}
    (hargs : ∀ arg ∈ args, arg.Resolved) : (Bindings.infer generics params args).Resolved :=
  Ty.rebuilds_resolved.infer generics params hargs

end Bindings

theorem Ty.Resolved.instantiate {ty : Ty} (h : ty.Resolved) {bindings : Bindings}
    (bound : bindings.Resolved) : (ty.instantiate bindings).Resolved :=
  rebuilds_resolved.instantiate h bound

end LuaTyping
