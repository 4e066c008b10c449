import LuaTyping.Proofs.Ty.Outline
import LuaTyping.Ty.Bindings

/-!
# What fingerprints tell apart

A fingerprint keeps the names of bound type parameters and the outlines of their types. An outline
says all there is to say about a type, up to equality, with one exception: of a record it keeps only
the number of members. So bindings that differ have different fingerprints as long as no record with
members occurs in the types on one of the two sides. Inside named classes records do no harm, since
a named class is known by its name.
-/

set_option autoImplicit false

namespace LuaTyping

namespace Ty

mutual

/-- Whether a record with members occurs in the type outside named classes, so that its outline does
not show all of it. -/
def hidesMembers : Ty → Bool
  | .record _ members => !members.isEmpty
  | .function params ret _ _ => hidesMembers ret || hidesMembersList params
  | .union alts => hidesMembersList alts
  | .aliasRef _ args => hidesMembersList args
  | .array element => hidesMembers element
  | .tuple elements => hidesMembersList elements
  | _ => false
termination_by structural ty => ty

/-- `hidesMembers` for some type of a list. -/
def hidesMembersList : List Ty → Bool
  | [] => false
  | ty :: rest => hidesMembers ty || hidesMembersList rest
termination_by structural tys => tys

end

theorem hidesMembersList_eq_false {tys : List Ty} :
    hidesMembersList tys = false ↔ ∀ ty ∈ tys, ty.hidesMembers = false := by
  induction tys with
  | nil => simp [hidesMembersList]
  | cons ty rest ih => rw [hidesMembersList, Bool.or_eq_false_iff, ih, List.forall_mem_cons]

/-- Where nothing is hidden in a type, nothing is hidden in the parts its outline shows. -/
theorem hidesMembers_part {ty part : Ty} (shown : ty.isTransparent = true)
    (plain : ty.hidesMembers = false) (mem : part ∈ ty.parts) : part.hidesMembers = false := by
  have listed {tys : List Ty} (none : hidesMembersList tys = false) (mem : part ∈ tys) :
      part.hidesMembers = false := hidesMembersList_eq_false.mp none part mem
  cases ty with
  | function params ret variadic generics =>
    rw [hidesMembers, Bool.or_eq_false_iff] at plain
    rcases List.mem_cons.mp mem with rfl | mem
    · exact plain.1
    · exact listed plain.2 mem
  | union alts => exact listed plain mem
  | aliasRef name args => exact listed plain mem
  | array element =>
    cases List.mem_singleton.mp mem
    exact plain
  | tuple elements => exact listed plain mem
  | named | record => cases shown
  | _ => cases mem

theorem exists_outline_eq {as bs : List Ty} {b : Ty}
    (paired : List.Forall₂ (fun x y => x.outline = y.outline) as bs) (mem : b ∈ bs) :
    ∃ a ∈ as, a.outline = b.outline := by
  obtain ⟨a, pair⟩ := exists_mem_zip mem (Nat.le_of_eq paired.length_eq.symm)
  have pair := mem_zip_comm pair
  exact ⟨a, (List.of_mem_zip pair).1, (List.forall₂_iff_zip.mp paired).2 pair⟩

/-- Whether something is hidden can be told from the outline, as the number of members is shown. -/
theorem hidesMembers_of_outline_eq {a b : Ty} (plain : a.hidesMembers = false)
    (same : a.outline = b.outline) : b.hidesMembers = false := by
  induction a using induction_on_parts generalizing b with
  | step a ih =>
    have shown {part part' : Ty} (transparent : a.isTransparent = true) (mem : part ∈ a.parts)
        (h : part.outline = part'.outline) : part'.hidesMembers = false :=
      ih part mem (hidesMembers_part transparent plain mem) h
    have listed {as bs : List Ty} (transparent : a.isTransparent = true) (within : as ⊆ a.parts)
        (h : List.Forall₂ (fun x y => x.outline = y.outline) as bs) :
        ∀ part' ∈ bs, part'.hidesMembers = false := by
      intro part' mem'
      obtain ⟨part, mem, outline⟩ := exists_outline_eq h mem'
      exact shown transparent (within mem) outline
    cases outline_eq_iff.mp same with
    | refl => exact plain
    | function h result =>
      rw [hidesMembers, Bool.or_eq_false_iff, hidesMembersList_eq_false]
      exact ⟨shown rfl List.mem_cons_self result, listed rfl (List.subset_cons_self _ _) h⟩
    | named => rfl
    | @record members members' _ _ len =>
      have none : members = [] := by simpa [hidesMembers] using plain
      have none' : members' = [] := List.eq_nil_of_length_eq_zero (by rw [← len, none]; rfl)
      rw [none']
      rfl
    | @union alts alts' paired perm h =>
      rw [hidesMembers, hidesMembersList_eq_false]
      exact fun alt mem => listed rfl (List.Subset.refl _) h alt (perm.mem_iff.mpr mem)
    | aliasRef h =>
      rw [hidesMembers, hidesMembersList_eq_false]
      exact listed rfl (List.Subset.refl _) h
    | array h =>
      rw [hidesMembers]
      exact shown rfl (List.mem_singleton_self _) h
    | tuple h =>
      rw [hidesMembers, hidesMembersList_eq_false]
      exact listed rfl (List.Subset.refl _) h

/-- A type whose outline shows all of it is equal to every type with that outline. -/
theorem eqv_of_outline_eq {a b : Ty} (plain : a.hidesMembers = false)
    (same : a.outline = b.outline) : a.eqv b = true := by
  induction a using induction_on_parts generalizing b with
  | step a ih =>
    have listed {as bs : List Ty} (shown : a.isTransparent = true) (within : as ⊆ a.parts)
        (h : List.Forall₂ (fun x y => x.outline = y.outline) as bs) :
        ∀ pair ∈ as.zip bs, pair.1.eqv pair.2 = true := by
      intro pair mem
      have part := within (List.of_mem_zip mem).1
      exact ih pair.1 part (hidesMembers_part shown plain part) ((List.forall₂_iff_zip.mp h).2 mem)
    rw [eqv_iff]
    cases outline_eq_iff.mp same with
    | refl childless => exact .refl childless
    | function h result =>
      refine .function h.length_eq (listed rfl (List.subset_cons_self _ _) h) ?_
      exact ih _ List.mem_cons_self (hidesMembers_part rfl plain List.mem_cons_self) result
    | named name => exact .named _ _ _ _ _
    | @record members members' _ _ len =>
      have none : members = [] := by simpa [hidesMembers] using plain
      refine .record len fun member mem => ?_
      rw [none] at mem
      cases mem
    | @union alts alts' paired perm h =>
      refine .union (h.length_eq.trans perm.length_eq) fun alt mem => ?_
      obtain ⟨other, pair⟩ := exists_mem_zip mem (Nat.le_of_eq h.length_eq)
      exact ⟨other, perm.mem_iff.mp (List.of_mem_zip pair).2,
        listed rfl (List.Subset.refl _) h _ pair⟩
    | aliasRef h => exact .aliasRef h.length_eq (listed rfl (List.Subset.refl _) h)
    | @array element element' h =>
      have mem : element ∈ (Ty.array element).parts := List.mem_singleton_self element
      exact .array (ih element mem (hidesMembers_part rfl plain mem) h)
    | tuple h => exact .tuple h.length_eq (listed rfl (List.Subset.refl _) h)

end Ty

namespace Bindings

/-- No record with members is bound, on its own or as part of a type, outside named classes. -/
def Plain (bindings : Bindings) : Prop := ∀ entry ∈ bindings.entries, entry.2.hidesMembers = false

instance (bindings : Bindings) : Decidable bindings.Plain :=
  inferInstanceAs (Decidable (∀ entry ∈ bindings.entries, _ = false))

variable {s t : Bindings}

theorem map_fst_fingerprint (bindings : Bindings) :
    bindings.fingerprint.map Prod.fst = bindings.entries.map Prod.fst := by
  rw [fingerprint, List.map_map]
  rfl

theorem map_snd_fingerprint (bindings : Bindings) :
    bindings.fingerprint.map Prod.snd = Ty.outlines (bindings.entries.map Prod.snd) := by
  rw [fingerprint, Ty.outlines_eq_map, List.map_map, List.map_map]
  rfl

theorem outlines_eq_of_fingerprint_eq (same : s.fingerprint = t.fingerprint) :
    Ty.outlines (s.entries.map Prod.snd) = Ty.outlines (t.entries.map Prod.snd) := by
  rw [← map_snd_fingerprint, same, map_snd_fingerprint]

/-- Bindings that hide nothing are equal to all bindings with their fingerprint. -/
theorem eqv_of_fingerprint_eq (plain : s.Plain) (same : s.fingerprint = t.fingerprint) :
    s.eqv t = true := by
  have names : s.entries.map Prod.fst = t.entries.map Prod.fst := by
    rw [← map_fst_fingerprint, same, map_fst_fingerprint]
  have paired := Ty.outlines_eq_iff.mp (outlines_eq_of_fingerprint_eq same)
  rw [eqv, Bool.and_eq_true, beq_iff_eq, Ty.eqvList_iff]
  refine ⟨names, paired.length_eq, fun pair mem => ?_⟩
  obtain ⟨entry, entry_mem, hentry⟩ := List.mem_map.mp (List.of_mem_zip mem).1
  refine Ty.eqv_of_outline_eq ?_ ((List.forall₂_iff_zip.mp paired).2 mem)
  rw [← hentry]
  exact plain entry entry_mem

theorem plain_of_fingerprint_eq (plain : s.Plain) (same : s.fingerprint = t.fingerprint) :
    t.Plain := by
  intro entry mem
  have paired := Ty.outlines_eq_iff.mp (outlines_eq_of_fingerprint_eq same)
  obtain ⟨ty, mem, outline⟩ := Ty.exists_outline_eq paired (List.mem_map_of_mem mem)
  obtain ⟨entry', mem', rfl⟩ := List.mem_map.mp mem
  exact Ty.hidesMembers_of_outline_eq (plain entry' mem') outline

/-- Bindings that differ have different fingerprints, unless both hide members. -/
theorem fingerprint_ne (plain : s.Plain ∨ t.Plain) (differ : s.eqv t = false) :
    s.fingerprint ≠ t.fingerprint := by
  intro same
  have plain : s.Plain := plain.elim id fun plain => plain_of_fingerprint_eq plain same.symm
  rw [eqv_of_fingerprint_eq plain same] at differ
  cases differ

end Bindings

end LuaTyping
