import LuaTyping.Decl.Lower
import LuaTyping.Proofs.Subtyping.Transitivity
import LuaTyping.Proofs.Ty.Rebuild

/-!
# Proper types

A type is *proper* if every union in it deserves the name: it has at least two alternatives, none of
them a union or unknown, and no two of them equal. Equality is an equivalence only where the members
of a record have distinct names, as they have if the record was put together member by member, so
that is asked for as well. Types come from annotations and from the operations on types, and all of
these yield proper types.

Unions are the only nodes that take work. Flattening proper types puts pairwise unequal types in a
list, none of them a union. A list like that has at most one unknown type, so if two or more remain
once the unknown type has given way to known ones, they are all known. Collapsing then drops some
of them, but never all.
-/

set_option autoImplicit false

namespace LuaTyping

namespace Ty

/-- Whether the type, if it is a union, has two alternatives or more. -/
def isPlural : Ty → Bool
  | .union alts => 2 ≤ alts.length
  | _ => true

/-- Every union inside has two alternatives or more, none of them a union or unknown and no two of
them equal, and the members of every record have distinct names. -/
structure Proper (ty : Ty) : Prop extends WellFormed ty where
  plural : ty.anyNode (fun node => !node.isPlural) = false

instance (ty : Ty) : Decidable ty.Proper :=
  decidable_of_iff (ty.WellFormed ∧ ty.anyNode (fun node => !node.isPlural) = false)
    ⟨fun h => ⟨h.1, h.2⟩, fun h => ⟨h.toWellFormed, h.plural⟩⟩

/-- A type is proper if its parts are and it is well built itself. -/
theorem proper_iff (ty : Ty) :
    ty.Proper ↔ (ty.hasDistinctParts = true ∧ ty.isFlat = true ∧ ty.isPlural = true) ∧
      ∀ part ∈ ty.parts, part.Proper := by
  have each (test : Ty → Bool) : ty.anyNode (fun node => !test node) = false ↔
      test ty = true ∧ ∀ part ∈ ty.parts, part.anyNode (fun node => !test node) = false := by
    simp [anyNode_eq _ ty]
  constructor
  · intro h
    have tidy := (each hasDistinctParts).mp h.tidy
    have flat := (each isFlat).mp h.flat
    have plural := (each isPlural).mp h.plural
    refine ⟨⟨tidy.1, flat.1, plural.1⟩, fun part mem => ?_⟩
    exact ⟨⟨tidy.2 part mem, flat.2 part mem⟩, plural.2 part mem⟩
  · rintro ⟨⟨distinct, flat, plural⟩, parts⟩
    refine ⟨⟨?_, ?_⟩, ?_⟩
    · exact (each hasDistinctParts).mpr ⟨distinct, fun part mem => (parts part mem).tidy⟩
    · exact (each isFlat).mpr ⟨flat, fun part mem => (parts part mem).flat⟩
    · exact (each isPlural).mpr ⟨plural, fun part mem => (parts part mem).plural⟩

theorem Proper.part {ty part : Ty} (h : ty.Proper) (mem : part ∈ ty.parts) : part.Proper :=
  ((proper_iff ty).mp h).2 part mem

/-- What a union needs to be proper. -/
theorem proper_union {alts : List Ty} (two : 2 ≤ alts.length)
    (definite : ∀ alt ∈ alts, alt.isDefinite = true)
    (apart : alts.Pairwise fun alt other => alt.eqv other = false)
    (proper : ∀ alt ∈ alts, alt.Proper) : (Ty.union alts).Proper := by
  refine (proper_iff _).mpr ⟨⟨?_, ?_, ?_⟩, proper⟩
  · simpa [hasDistinctParts] using apart
  · simpa [isFlat] using definite
  · simpa [isPlural] using two

theorem Proper.alternatives {ty : Ty} (h : ty.Proper) :
    ∀ alt ∈ ty.alternatives, alt.Proper ∧ (alt.isDefinite = true ∨ alt = .unknown) := by
  intro alt mem
  cases ty with
  | union alts => exact ⟨h.part mem, .inl (h.toWellFormed.alternative_definite mem)⟩
  | unknown =>
    cases List.mem_singleton.mp mem
    exact ⟨h, .inr rfl⟩
  | _ =>
    cases List.mem_singleton.mp mem
    exact ⟨h, .inl rfl⟩

end Ty

/-! ## Flattened alternatives -/

theorem Ty.eq_unknown_of_not_isKnown {ty : Ty} (h : ty.isKnown = false) : ty = .unknown := by
  cases ty with
  | unknown => rfl
  | _ => cases h

namespace Union

open Ty

theorem pairwise_foldl_pushUnique {tys seen : List Ty}
    (apart : seen.Pairwise fun ty other => ty.eqv other = false) :
    (tys.foldl pushUnique seen).Pairwise fun ty other => ty.eqv other = false := by
  induction tys generalizing seen with
  | nil => exact apart
  | cons first rest ih =>
    apply ih
    unfold pushUnique
    split
    · exact apart
    · rename_i fresh
      refine List.pairwise_append.mpr ⟨apart, List.pairwise_singleton _ _, ?_⟩
      intro ty mem other hother
      cases List.mem_singleton.mp hother
      simpa using List.any_eq_false.mp (Bool.eq_false_iff.mpr fresh) ty mem

theorem pairwise_flatten (tys : List Ty) :
    (flatten tys).Pairwise fun ty other => ty.eqv other = false :=
  pairwise_foldl_pushUnique List.Pairwise.nil

theorem dropUnknown_sublist (tys : List Ty) : (dropUnknown tys).Sublist tys := by
  unfold dropUnknown
  split
  · exact List.filter_sublist
  · exact List.Sublist.refl tys

theorem two_le_length {tys : List Ty} (nonempty : tys ≠ []) (several : ∀ ty, tys ≠ [ty]) :
    2 ≤ tys.length := by
  match tys, nonempty, several with
  | [ty], _, several => exact absurd rfl (several ty)
  | _ :: _ :: _, _, _ => simp

/-- Where two unequal types remain, neither is the unknown type. -/
theorem isKnown_of_mem_dropUnknown {tys : List Ty} {ty : Ty}
    (apart : tys.Pairwise fun ty other => ty.eqv other = false)
    (two : 2 ≤ (dropUnknown tys).length) (mem : ty ∈ dropUnknown tys) : ty.isKnown = true := by
  unfold dropUnknown at two mem
  split at mem
  · exact (List.mem_filter.mp mem).2
  · rename_i none
    rw [if_neg none] at two
    simp only [Bool.not_eq_true, List.any_eq_false] at none
    -- two unknown types would be equal
    have unknown (other : Ty) (mem : other ∈ tys) : other = .unknown :=
      eq_unknown_of_not_isKnown (none other mem)
    match tys, apart, two with
    | first :: second :: rest, apart, _ =>
      have differ := (List.pairwise_cons.mp apart).1 second List.mem_cons_self
      rw [unknown first List.mem_cons_self,
        unknown second (List.mem_cons_of_mem _ List.mem_cons_self)] at differ
      cases differ

end Union

/-! ## The operations on types -/

namespace Ty

/-- What is left of flattened proper types makes a proper type. -/
theorem proper_ofAlternatives {tys kept : List Ty} (h : ∀ ty ∈ tys, ty.Proper)
    (only : kept.Sublist (Union.dropUnknown (Union.flatten tys))) (nonempty : kept ≠ []) :
    (Union.ofAlternatives kept).Proper := by
  have good (ty : Ty) (mem : ty ∈ kept) :
      ty.Proper ∧ (ty.isDefinite = true ∨ ty = .unknown) := by
    obtain ⟨source, source_mem, mem⟩ := Union.mem_flatten (Union.mem_dropUnknown (only.mem mem))
    exact (h source source_mem).alternatives ty mem
  unfold Union.ofAlternatives
  split
  · exact (good _ List.mem_cons_self).1
  · rename_i several
    have two := Union.two_le_length nonempty several
    have apart := Union.pairwise_flatten tys
    refine proper_union two ?_ ?_ fun ty mem => (good ty mem).1
    · intro ty mem
      have known := Union.isKnown_of_mem_dropUnknown apart (Nat.le_trans two only.length_le)
        (only.mem mem)
      rcases (good ty mem).2 with definite | rfl
      · exact definite
      · cases known
    · exact (apart.sublist (Union.dropUnknown_sublist _)).sublist only

theorem rebuilds_proper : Rebuilds Proper where
  part h mem := h.part mem
  unknown := by decide
  string := by decide
  function _ _ params ret :=
    (proper_iff _).mpr ⟨⟨rfl, rfl, rfl⟩, List.forall_mem_cons.mpr ⟨ret, params⟩⟩
  named _ _ members := (proper_iff _).mpr ⟨⟨rfl, rfl, rfl⟩, List.forall_mem_map.mpr members⟩
  record {supers old new} h names members := by
    have distinct : (new.map (·.name)).Nodup := names ▸ h.tidy.names_nodup
    refine (proper_iff _).mpr ⟨⟨?_, rfl, rfl⟩, List.forall_mem_map.mpr members⟩
    exact decide_eq_true distinct
  aliasRef _ args := (proper_iff _).mpr ⟨⟨rfl, rfl, rfl⟩, args⟩
  array element := (proper_iff _).mpr ⟨⟨rfl, rfl, rfl⟩, List.forall_mem_singleton.mpr element⟩
  tuple elements := (proper_iff _).mpr ⟨⟨rfl, rfl, rfl⟩, elements⟩
  collapsed h only nonempty := proper_ofAlternatives h only nonempty

end Ty

/-! ## Annotations -/

theorem nodup_putMember {members : List (Member Ty)} (added : Member Ty)
    (distinct : (members.map (·.name)).Nodup) :
    ((putMember members added).map (·.name)).Nodup := by
  induction members with
  | nil => exact List.pairwise_singleton _ _
  | cons first rest ih =>
    rw [List.map_cons, List.nodup_cons] at distinct
    rw [putMember]
    split
    · rename_i same
      rw [List.map_cons, List.nodup_cons, ← beq_iff_eq.mp same]
      exact distinct
    · rename_i other
      rw [List.map_cons, List.nodup_cons]
      refine ⟨fun mem => ?_, ih distinct.2⟩
      obtain ⟨member, mem, same⟩ := List.mem_map.mp mem
      rcases mem_putMember mem with rfl | mem
      · exact other (beq_iff_eq.mpr same.symm)
      · exact distinct.1 (same ▸ List.mem_map_of_mem mem)

namespace TypeExpr

open Ty

/-- A record is proper if it is put together from members with proper types. -/
theorem proper_record_foldl {fields : List (String × Ty)} {members : List (Member Ty)}
    (h : ∀ field ∈ fields, field.2.Proper) (sofar : (Ty.record [] members).Proper) :
    (Ty.record [] (fields.foldl (fun members field =>
      putMember members (Member.ofTy field.1 field.2)) members)).Proper := by
  induction fields generalizing members with
  | nil => exact sofar
  | cons field rest ih =>
    obtain ⟨first, rest⟩ := List.forall_mem_cons.mp h
    refine ih rest ((proper_iff _).mpr ⟨⟨?_, rfl, rfl⟩, ?_⟩)
    · exact decide_eq_true (nodup_putMember _ sofar.tidy.names_nodup)
    · refine List.forall_mem_map.mpr fun member mem => ?_
      rcases mem_putMember mem with rfl | mem
      · exact first
      · exact sofar.part (List.mem_map_of_mem mem)

theorem proper_ofReturns {tys : List Ty} (h : ∀ ty ∈ tys, ty.Proper) :
    (Ty.ofReturns tys).Proper := by
  unfold Ty.ofReturns
  split
  · decide
  · exact h _ List.mem_cons_self
  · exact rebuilds_proper.tuple h

theorem proper_lowerName (generics : List String) (text : String) {args : List Ty}
    (h : ∀ arg ∈ args, arg.Proper) : (lowerName generics text args).Proper := by
  unfold lowerName
  split
  case h_13 =>
    split
    · exact (proper_iff _).mpr ⟨⟨rfl, rfl, rfl⟩, nofun⟩
    · exact (proper_iff _).mpr ⟨⟨rfl, rfl, rfl⟩, h⟩
  all_goals decide

mutual

theorem proper_lower (generics : List String) : ∀ expr, (lower generics expr).Proper
  | .name text args => proper_lowerName generics text (proper_lowerList generics args)
  | .array element => rebuilds_proper.array (proper_lower generics element)
  | .union alts => rebuilds_proper.unionOf (proper_lowerList generics alts)
  | .function params returns variadic => by
    refine rebuilds_proper.function variadic [] ?_ (proper_ofReturns ?_)
    · exact List.forall_mem_map.mpr (proper_lowerFields generics params)
    · exact proper_lowerList generics returns
  | .table fields => proper_record_foldl (proper_lowerFields generics fields) (by decide)
  | .literal text => (proper_iff _).mpr ⟨⟨rfl, rfl, rfl⟩, nofun⟩
  | .tuple elements => rebuilds_proper.tuple (proper_lowerList generics elements)
  | .missing => rebuilds_proper.unknown
termination_by structural expr => expr

theorem proper_lowerList (generics : List String) :
    ∀ exprs, ∀ ty ∈ lowerList generics exprs, ty.Proper
  | [] => nofun
  | expr :: rest => by
    rw [lowerList]
    exact List.forall_mem_cons.mpr ⟨proper_lower generics expr, proper_lowerList generics rest⟩
termination_by structural exprs => exprs

theorem proper_lowerFields (generics : List String) :
    ∀ fields, ∀ field ∈ lowerFields generics fields, field.2.Proper
  | [] => nofun
  | (_, expr) :: rest => by
    rw [lowerFields]
    exact List.forall_mem_cons.mpr ⟨proper_lower generics expr, proper_lowerFields generics rest⟩
termination_by structural fields => fields

end

end TypeExpr

/-- Types are proper wherever they come from. Replacements and look-ups of members may keep a state
`σ` and answer differently each time they are asked. -/
theorem Ty.proper_throughout (σ : Type) :
    (∀ tys, (∀ ty ∈ tys, ty.Proper) → (unionOf tys).Proper) ∧
    (∀ (resolver : Resolver (StateM σ)) tys (s : σ), (∀ ty ∈ tys, ty.Proper) →
      ((unionWith resolver tys).run s).1.Proper) ∧
    (∀ (replace? : Ty → StateM σ (Option Ty)) (ty : Ty) (s : σ), ty.Proper →
      (∀ node s put, ((replace? node).run s).1 = some put → put.Proper) →
        ((replaceM replace? ty).run s).1.Proper) ∧
    (∀ (ty : Ty) (bindings : Bindings), ty.Proper → bindings.All Proper →
      (ty.instantiate bindings).Proper) ∧
    (∀ ty : Ty, ty.Proper → ty.eraseGenerics.Proper ∧ ty.withoutNil.Proper ∧ ty.widen.Proper) ∧
    (∀ generics expr, (TypeExpr.lower generics expr).Proper) ∧
    (∀ generics params args, (∀ arg ∈ args, arg.Proper) →
      (Bindings.infer generics params args).All Proper) := by
  refine ⟨?_, ?_, ?_, ?_, ?_, ?_, ?_⟩
  · intro tys h
    exact rebuilds_proper.unionOf h
  · intro resolver tys s h
    exact rebuilds_proper.holds_unionWith (follows_state σ) resolver h s
  · intro replace? ty s h puts
    exact rebuilds_proper.holds_replaceM (follows_state σ) puts h s
  · intro ty bindings h bound
    exact rebuilds_proper.instantiate h bound
  · intro ty h
    exact ⟨rebuilds_proper.eraseGenerics h, rebuilds_proper.withoutNil h, rebuilds_proper.widen h⟩
  · exact TypeExpr.proper_lower
  · intro generics params args h
    exact rebuilds_proper.infer generics params h

/-- With a resolver that finds a member every other time it is asked, and a replacement that counts
what it replaces. -/
theorem Ty.proper_throughout_fickle :
    let fickle : Resolver (StateM Nat) :=
      ⟨fun _ => ["Up", "Down"],
        fun _ _ => modifyGet fun asked => (if asked % 2 = 0 then some .number else none, asked + 1)⟩
    let optional : Ty := .union [.generic "T", .nil]
    let tys : List Ty := [.classRef "Down", .record [] [.ofTy "x" .number], optional, .unknown]
    let count : Ty → StateM Nat (Option Ty) := fun
      | .generic _ => modifyGet fun done => (some (if done = 0 then optional else .nil), done + 1)
      | _ => pure none
    (∀ ty ∈ tys, ty.Proper) ∧
      (unionOf tys).Proper ∧ ((unionWith fickle tys).run 0).1.Proper ∧
      (∀ node s put, ((count node).run s).1 = some put → put.Proper) ∧
      ((replaceM count (.array optional)).run 0).1.Proper ∧
      (Bindings.empty.insert "T" optional).All Proper ∧
      (optional.instantiate (Bindings.empty.insert "T" optional)).Proper ∧
      (optional.eraseGenerics.Proper ∧ optional.withoutNil.Proper ∧ optional.widen.Proper) ∧
      (Bindings.infer ["T"] [.generic "T", .generic "T"] [optional, .string]).All Proper := by
  intro fickle optional tys count
  obtain ⟨unionOf, unionWith, replaceM, instantiate, rest, -, infer⟩ := Ty.proper_throughout Nat
  have proper : optional.Proper := by decide
  have all : ∀ ty ∈ tys, ty.Proper := by decide
  have puts (node : Ty) (s : Nat) (put : Ty) (h : ((count node).run s).1 = some put) :
      put.Proper := by
    cases node with
    | generic name =>
      cases h
      split <;> decide
    | _ => cases h
  have bound : (Bindings.empty.insert "T" optional).All Proper := by
    intro entry mem
    cases List.mem_singleton.mp mem
    exact proper
  refine ⟨all, unionOf tys all, unionWith fickle tys 0 all, puts, ?_, bound, ?_, rest _ proper, ?_⟩
  · exact replaceM count _ 0 (by decide) puts
  · exact instantiate _ _ proper bound
  · exact infer _ _ _ (by decide)

end LuaTyping
