import LuaTyping.Proofs.Subtyping.Reuse
import LuaTyping.Proofs.Ty.Proper
import Mathlib.Data.List.Pairwise

/-!
# Unions keep the topmost alternatives

Collapsing goes through the alternatives once. It drops one that is below an alternative kept
before, or strictly below one that comes later, and the comparisons all run under one guard. Where
the order on the alternatives is a partial one, what remains are the alternatives that are below no
other; so neither the order in which the types come nor taking unions of some of them first makes a
difference.

The argument needs two facts about what remains, which the loop maintains: no two of the types kept
are comparable, and every type that went in is below one of them (`Summits`). Such a list is unique
up to equality of its types, and it stays one if the list it belongs to is thinned out to another
that reaches as high.
-/

set_option autoImplicit false

namespace LuaTyping

open Ty Subtyping

namespace Union

/-! ## Orders on lists of types -/

/-- On the given types the relation is transitive, and it holds both ways between equal types
only. -/
structure Ordered (below : Ty → Ty → Prop) (tys : List Ty) : Prop where
  trans : ∀ x ∈ tys, ∀ y ∈ tys, ∀ z ∈ tys, below x y → below y z → below x z
  antisymm : ∀ x ∈ tys, ∀ y ∈ tys, below x y → below y x → x.eqv y = true

/-- The type is one of the given ones and below no other. -/
def Topmost (below : Ty → Ty → Prop) (tys : List Ty) (ty : Ty) : Prop :=
  ty ∈ tys ∧ ∀ other ∈ tys, below ty other → ty.eqv other = true

/-- Some of the types, no two of them comparable, with every type below one of them. -/
structure Summits (below : Ty → Ty → Prop) (tys kept : List Ty) : Prop where
  within : ∀ ty ∈ kept, ty ∈ tys
  above : ∀ ty ∈ tys, ∃ top ∈ kept, below ty top
  apart : kept.Pairwise fun x y => ¬ below x y ∧ ¬ below y x

section Order

variable {below : Ty → Ty → Prop} {tys kept kept' : List Ty}

theorem Ordered.mono {others : List Ty} (ordered : Ordered below tys) (sub : others ⊆ tys) :
    Ordered below others :=
  ⟨fun x hx y hy z hz => ordered.trans x (sub hx) y (sub hy) z (sub hz),
    fun x hx y hy => ordered.antisymm x (sub hx) y (sub hy)⟩

theorem Summits.topmost (summits : Summits below tys kept) (ordered : Ordered below tys) {ty : Ty}
    (mem : ty ∈ kept) : Topmost below tys ty := by
  refine ⟨summits.within ty mem, fun other hother le => ?_⟩
  obtain ⟨top, top_mem, le'⟩ := summits.above other hother
  have inside := summits.within
  have through := ordered.trans ty (inside ty mem) other hother top (inside top top_mem) le le'
  -- the type kept above the other one is comparable with `ty`, so it is `ty`
  have same : top = ty := by
    by_contra differ
    have symm : Std.Symm fun x y => ¬ below x y ∧ ¬ below y x := ⟨fun _ _ h => ⟨h.2, h.1⟩⟩
    exact (summits.apart.forall mem top_mem (Ne.symm differ)).1 through
  exact ordered.antisymm ty (inside ty mem) other hother le (same ▸ le')

theorem Summits.exists_eqv (summits : Summits below tys kept) {ty : Ty}
    (topmost : Topmost below tys ty) : ∃ top ∈ kept, ty.eqv top = true := by
  obtain ⟨top, mem, le⟩ := summits.above ty topmost.1
  exact ⟨top, mem, topmost.2 top (summits.within top mem) le⟩

/-- The summits of a part of the types that reaches as high as all of them. -/
theorem Summits.of_cofinal {others : List Ty} (ordered : Ordered below tys)
    (summits : Summits below others kept) (sub : others ⊆ tys)
    (cofinal : ∀ ty ∈ tys, ∃ other ∈ others, below ty other) : Summits below tys kept := by
  refine ⟨fun ty mem => sub (summits.within ty mem), fun ty mem => ?_, summits.apart⟩
  obtain ⟨other, hother, le⟩ := cofinal ty mem
  obtain ⟨top, htop, le'⟩ := summits.above other hother
  refine ⟨top, htop, ?_⟩
  exact ordered.trans ty mem other (sub hother) top (sub (summits.within top htop)) le le'

/-- There are as many summits whichever are chosen. -/
theorem Summits.length_le (tidy : ∀ ty ∈ tys, ty.Tidy)
    (of_eqv : ∀ x y : Ty, x.eqv y = true → below x y) (ordered : Ordered below tys)
    (summits : Summits below tys kept) (summits' : Summits below tys kept') :
    kept.length ≤ kept'.length := by
  have apart : kept.Pairwise fun x y => ∀ top, x.eqv top = true → ¬ y.eqv top = true := by
    refine summits.apart.imp_of_mem fun {x y} _ hy incomparable top hx hother => ?_
    have back := eqv_symm (tidy y (summits.within y hy)) hother
    exact incomparable.1 (of_eqv x y (eqv_trans hx back))
  obtain ⟨taken, within, paired⟩ := exists_subperm_of_partners _ apart fun ty mem =>
    summits'.exists_eqv (summits.topmost ordered mem)
  rw [paired.length_eq]
  exact within.length_le

end Order

/-! ## The alternatives of a list -/

/-- The known alternatives of all the types, with repetitions. -/
def knownAlternatives (tys : List Ty) : List Ty := (tys.flatMap alternatives).filter isKnown

theorem mem_knownAlternatives {tys : List Ty} {alt : Ty} :
    alt ∈ knownAlternatives tys ↔ (∃ ty ∈ tys, alt ∈ ty.alternatives) ∧ alt.isKnown = true := by
  rw [knownAlternatives, List.mem_filter, List.mem_flatMap]

theorem knownAlternatives_mono {tys others : List Ty} (sub : others ⊆ tys) :
    knownAlternatives others ⊆ knownAlternatives tys := by
  intro alt mem
  obtain ⟨⟨ty, ty_mem, alt_mem⟩, known⟩ := mem_knownAlternatives.mp mem
  exact mem_knownAlternatives.mpr ⟨⟨ty, sub ty_mem, alt_mem⟩, known⟩

theorem proper_of_mem_knownAlternatives {tys : List Ty} (proper : ∀ ty ∈ tys, ty.Proper) {alt : Ty}
    (mem : alt ∈ knownAlternatives tys) : alt.Proper ∧ alt.isDefinite = true := by
  obtain ⟨⟨ty, ty_mem, alt_mem⟩, known⟩ := mem_knownAlternatives.mp mem
  obtain ⟨halt, definite | rfl⟩ := (proper ty ty_mem).alternatives alt alt_mem
  · exact ⟨halt, definite⟩
  · cases known

theorem exists_mem_foldl_pushUnique {tys seen : List Ty} {ty : Ty}
    (h : (∃ found ∈ seen, found.eqv ty = true) ∨ ty ∈ tys ∧ ty.eqv ty = true) :
    ∃ found ∈ tys.foldl pushUnique seen, found.eqv ty = true := by
  induction tys generalizing seen with
  | nil => exact h.resolve_right fun ⟨mem, _⟩ => absurd mem List.not_mem_nil
  | cons first rest ih =>
    apply ih
    unfold pushUnique
    rcases h with ⟨found, mem, same⟩ | ⟨mem, self⟩
    · left
      split
      · exact ⟨found, mem, same⟩
      · exact ⟨found, List.mem_append_left _ mem, same⟩
    · rcases List.mem_cons.mp mem with rfl | mem
      · left
        split
        · rename_i present
          obtain ⟨found, mem, same⟩ := List.any_eq_true.mp present
          exact ⟨found, mem, same⟩
        · exact ⟨ty, List.mem_append_right _ (List.mem_singleton_self ty), self⟩
      · exact .inr ⟨mem, self⟩

/-- Every known alternative has an equal one in the flattened list. -/
theorem exists_mem_flatten {tys : List Ty} (proper : ∀ ty ∈ tys, ty.Proper) {alt : Ty}
    (mem : alt ∈ knownAlternatives tys) :
    ∃ found ∈ flatten tys, found.eqv alt = true ∧ found.isKnown = true := by
  have self := eqv_refl (proper_of_mem_knownAlternatives proper mem).1.tidy
  obtain ⟨listed, known⟩ := mem_knownAlternatives.mp mem
  obtain ⟨found, found_mem, same⟩ :=
    @exists_mem_foldl_pushUnique _ [] _ (.inr ⟨List.mem_flatMap.mpr listed, self⟩)
  refine ⟨found, found_mem, same, ?_⟩
  cases found with
  | unknown =>
    cases eqv_iff.mp same
    cases known
  | _ => rfl

/-- What is compared: the known alternatives, each once. -/
theorem dropUnknown_flatten {tys : List Ty} (proper : ∀ ty ∈ tys, ty.Proper)
    (some : knownAlternatives tys ≠ []) :
    (∀ ty ∈ dropUnknown (flatten tys), ty ∈ knownAlternatives tys) ∧
      ∀ alt ∈ knownAlternatives tys, ∃ ty ∈ dropUnknown (flatten tys), ty.eqv alt = true := by
  obtain ⟨alt, alt_mem⟩ := List.exists_mem_of_ne_nil _ some
  obtain ⟨found, found_mem, -, known⟩ := exists_mem_flatten proper alt_mem
  have filtered : dropUnknown (flatten tys) = (flatten tys).filter isKnown :=
    if_pos (List.any_eq_true.mpr ⟨found, found_mem, known⟩)
  rw [filtered]
  refine ⟨fun ty mem => ?_, fun alt mem => ?_⟩
  · obtain ⟨mem, known⟩ := List.mem_filter.mp mem
    exact mem_knownAlternatives.mpr ⟨mem_flatten mem, known⟩
  · obtain ⟨found, found_mem, same, known⟩ := exists_mem_flatten proper mem
    exact ⟨found, List.mem_filter.mpr ⟨found_mem, known⟩, same⟩

/-- Where no alternative is known, the union is unknown. -/
theorem unionWith_unknown {m : Type → Type} [Monad m] (resolver : Resolver m) {tys : List Ty}
    (none : knownAlternatives tys = []) : unionWith resolver tys = pure .unknown := by
  have unknown (ty : Ty) (mem : ty ∈ dropUnknown (flatten tys)) : ty.isKnown = false := by
    by_contra known
    rw [Bool.not_eq_false] at known
    have listed := mem_knownAlternatives.mpr ⟨mem_flatten (mem_dropUnknown mem), known⟩
    exact List.not_mem_nil (none ▸ listed)
  unfold unionWith
  split
  · rfl
  · rename_i ty one
    rw [eq_unknown_of_not_isKnown (unknown ty (one ▸ List.mem_cons_self))]
  · rename_i nonempty several
    -- two unknown alternatives would be equal
    obtain ⟨ty, mem⟩ := List.exists_mem_of_ne_nil _ nonempty
    have known := isKnown_of_mem_dropUnknown (pairwise_flatten tys)
      (two_le_length nonempty several) mem
    rw [unknown ty mem] at known
    cases known

/-! ## The order that a resolver gives -/

/-- Whether the first type is below the second for a new checker, where `nil` is a type like any
other. -/
def IsBelow (resolver : Resolver Id) (a b : Ty) : Prop :=
  Id.run (decideFresh ⟨resolver, true⟩ a b) = true

instance (resolver : Resolver Id) (a b : Ty) : Decidable (IsBelow resolver a b) :=
  inferInstanceAs (Decidable (_ = true))

theorem isBelow_of_eqv (resolver : Resolver Id) {a b : Ty} (same : a.eqv b = true) :
    IsBelow resolver a b := by
  have simple (deeper : Ty → Ty → CompareM Id Bool) (alone : ∀ alts, a ≠ .union alts) :
      belowSimple ⟨resolver, true⟩ deeper a b = pure true := by
    cases b with
    | unknown => rfl
    | union alts =>
      cases eqv_iff.mp same with
      | refl => exact absurd rfl (alone alts)
      | union => exact absurd rfl (alone _)
    | _ =>
      rw [belowSimple_definite _ _ rfl, if_pos same]
  have start : below ⟨resolver, true⟩ (compareWithin ⟨resolver, true⟩ freshGuard.maxDepth) a b
      = pure true := by
    cases a with
    | union alts => rw [below, if_pos (by rw [same, Bool.true_or])]
    | _ => exact simple _ nofun
  have whole : compare ⟨resolver, true⟩ a b freshGuard = pure (true, freshGuard) :=
    congrFun start freshGuard
  rw [IsBelow, decideFresh, StateT.run', whole]
  rfl

/-! ## Collapsing -/

section Collapse

variable (resolver : Resolver Id)

/-- What collapsing keeps, and the guard it leaves. -/
def collapsed (kept tys : List Ty) (guard : Guard Key) : List Ty × Guard Key :=
  Id.run ((collapse ⟨resolver, true⟩ kept tys).run guard)

/-- No comparison made for the union meets a limit of the guard that they share. -/
def WithinLimits (tys : List Ty) : Prop :=
  (collapsed resolver [] (dropUnknown (flatten tys)) freshGuard).2.exceeded = false

instance (tys : List Ty) : Decidable (WithinLimits resolver tys) :=
  inferInstanceAs (Decidable (_ = false))

variable {resolver} {kept later tys known : List Ty} {ty : Ty} {guard : Guard Key}

theorem collapsed_cons :
    collapsed resolver kept (ty :: later) guard =
      collapsed resolver
        (if (outcome guard (covered ⟨resolver, true⟩ kept later ty)).1 then kept else kept ++ [ty])
        later (outcome guard (covered ⟨resolver, true⟩ kept later ty)).2 := by
  have opened : collapsed resolver kept (ty :: later) guard =
      Id.run ((if (outcome guard (covered ⟨resolver, true⟩ kept later ty)).1
        then collapse ⟨resolver, true⟩ kept later
        else collapse ⟨resolver, true⟩ (kept ++ [ty]) later).run
          (outcome guard (covered ⟨resolver, true⟩ kept later ty)).2) := rfl
  rw [opened]
  split <;> rfl

theorem settles_covered (idle : Idle guard) :
    Settles guard False (covered ⟨resolver, true⟩ kept later ty)
      ((∃ other ∈ kept, IsBelow resolver ty other) ∨
        ∃ other ∈ later, IsBelow resolver ty other ∧ ¬ IsBelow resolver other ty) := by
  have compared (a b : Ty) (g : Guard Key) (steady : guard.Steady g) :
      Settles g False (compare ⟨resolver, true⟩ a b) (IsBelow resolver a b) :=
    (idle.steady steady).settles_compare _ a b
  refine Settles.or (Settles.anyM fun other _ g hg => compared ty other g hg) fun g hg => ?_
  refine Settles.anyM fun other _ g' hg' => ?_
  refine Settles.and (compared ty other g' (hg.trans hg')) fun g'' hg'' => Settles.not ?_
  exact compared other ty g'' ((hg.trans hg').trans hg'')

theorem steady_collapsed (idle : Idle guard) :
    guard.Steady (collapsed resolver kept tys guard).2 := by
  induction tys generalizing kept guard with
  | nil => exact .refl guard
  | cons ty later ih =>
    have first := (@settles_covered resolver kept later ty guard idle).steady
    rw [collapsed_cons]
    exact first.trans (ih (idle.steady first))

/-- Once the types before have been dealt with: no two of the types kept are comparable, and none is
below a type that is still to come. -/
structure Sorted (resolver : Resolver Id) (kept tys : List Ty) : Prop where
  apart : kept.Pairwise fun x y => ¬ IsBelow resolver x y ∧ ¬ IsBelow resolver y x
  later : ∀ x ∈ kept, ∀ y ∈ tys, ¬ IsBelow resolver x y

/-- A type that nothing covers joins the ones that are kept. -/
theorem Sorted.keep (sorted : Sorted resolver kept (ty :: later))
    (ordered : Ordered (IsBelow resolver) known)
    (within : ∀ x ∈ ty :: later, x ∈ known) (unequal : ∀ x ∈ later, ty.eqv x = false)
    (uncovered : ¬ ((∃ other ∈ kept, IsBelow resolver ty other) ∨
      ∃ other ∈ later, IsBelow resolver ty other ∧ ¬ IsBelow resolver other ty)) :
    Sorted resolver (kept ++ [ty]) later := by
  obtain ⟨notBefore, notAfter⟩ := not_or.mp uncovered
  refine ⟨?_, fun x mem y hy le => ?_⟩
  · refine List.pairwise_append.mpr ⟨sorted.apart, List.pairwise_singleton _ _, ?_⟩
    intro x hx y hy
    cases List.mem_singleton.mp hy
    exact ⟨sorted.later x hx ty List.mem_cons_self, fun le => notBefore ⟨x, hx, le⟩⟩
  · rcases List.mem_append.mp mem with mem | mem
    · exact sorted.later x mem y (List.mem_cons_of_mem ty hy) le
    · cases List.mem_singleton.mp mem
      -- below each other they would be equal
      have back : IsBelow resolver y ty := by
        by_contra strict
        exact notAfter ⟨y, hy, le, strict⟩
      have same := ordered.antisymm ty (within ty List.mem_cons_self) y
        (within y (List.mem_cons_of_mem ty hy)) le back
      rw [unequal y hy] at same
      cases same

/-- Collapsing keeps the summits of the types it is given. -/
theorem summits_collapsed (idle : Idle guard) (ordered : Ordered (IsBelow resolver) known)
    (self : ∀ x ∈ known, IsBelow resolver x x) (within : ∀ x ∈ kept ++ tys, x ∈ known)
    (unequal : tys.Pairwise fun x y => x.eqv y = false) (sorted : Sorted resolver kept tys)
    (unexceeded : (collapsed resolver kept tys guard).2.exceeded = false) :
    Summits (IsBelow resolver) (kept ++ tys) (collapsed resolver kept tys guard).1 := by
  induction tys generalizing kept guard with
  | nil =>
    rw [List.append_nil] at within ⊢
    exact ⟨fun x mem => mem, fun x mem => ⟨x, mem, self x (within x mem)⟩, sorted.apart⟩
  | cons ty later ih =>
    have first := @settles_covered resolver kept later ty guard idle
    have idle' := idle.steady first.steady
    obtain ⟨unequal_ty, unequal_later⟩ := List.pairwise_cons.mp unequal
    rw [collapsed_cons] at unexceeded ⊢
    have answer := first.answer ((steady_collapsed idle').unexceeded unexceeded)
    cases isCovered : (outcome guard (covered ⟨resolver, true⟩ kept later ty)).1 with
    | false =>
      rw [isCovered, if_neg Bool.false_ne_true] at unexceeded
      rw [if_neg Bool.false_ne_true]
      have uncovered := mt answer.mpr (by rw [isCovered]; exact Bool.false_ne_true)
      have joined : kept ++ ty :: later = kept ++ [ty] ++ later := List.append_cons kept ty later
      have sorted' := sorted.keep ordered
        (fun x mem => within x (List.mem_append_right kept mem)) unequal_ty uncovered
      rw [joined] at within ⊢
      exact ih idle' within unequal_later sorted' unexceeded
    | true =>
      rw [isCovered, if_pos rfl] at unexceeded
      rw [if_pos rfl]
      -- what covers the type stays in the list, so nothing is lost without it
      have others : kept ++ later ⊆ kept ++ ty :: later :=
        ((List.sublist_cons_self ty later).append_left kept).subset
      have sorted' : Sorted resolver kept later :=
        ⟨sorted.apart, fun x hx y hy => sorted.later x hx y (List.mem_cons_of_mem ty hy)⟩
      have summits := ih idle' (fun x mem => within x (others mem)) unequal_later sorted' unexceeded
      refine summits.of_cofinal (ordered.mono within) others fun x mem => ?_
      rcases List.mem_append.mp mem with mem' | mem'
      · exact ⟨x, List.mem_append_left later mem', self x (within x mem)⟩
      · rcases List.mem_cons.mp mem' with rfl | mem'
        · rcases answer.mp isCovered with ⟨other, hother, le⟩ | ⟨other, hother, le, -⟩
          · exact ⟨other, List.mem_append_left later hother, le⟩
          · exact ⟨other, List.mem_append_right kept hother, le⟩
        · exact ⟨x, List.mem_append_right kept mem', self x (within x mem)⟩

end Collapse

/-! ## Types as lists of alternatives -/

theorem alternatives_ofAlternatives {tys : List Ty} (definite : ∀ ty ∈ tys, ty.isDefinite = true) :
    (ofAlternatives tys).alternatives = tys := by
  unfold ofAlternatives
  split
  · rename_i ty
    have definite := definite ty List.mem_cons_self
    cases ty with
    | union => cases definite
    | _ => rfl
  · rfl

theorem ofAlternatives_alternatives {ty : Ty} (proper : ty.Proper) :
    ofAlternatives ty.alternatives = ty := by
  cases ty with
  | union alts =>
    have plural := ((proper_iff _).mp proper).1.2.2
    match alts, plural with
    | _ :: _ :: _, _ => rfl
  | _ => rfl

theorem eqv_ofAlternatives {xs ys : List Ty} (len : xs.length = ys.length)
    (partner : ∀ x ∈ xs, ∃ y ∈ ys, x.eqv y = true) :
    (ofAlternatives xs).eqv (ofAlternatives ys) = true := by
  match xs, ys, len with
  | [], [], _ => rfl
  | [x], [y], _ =>
    obtain ⟨_, mem, same⟩ := partner x List.mem_cons_self
    cases List.mem_singleton.mp mem
    exact same
  | _ :: _ :: _, _ :: _ :: _, len => exact eqv_iff.mpr (.union len partner)

/-- A proper type is unknown or has known alternatives only. -/
theorem knownAlternatives_singleton {ty : Ty} (proper : ty.Proper) :
    ty = .unknown ∧ knownAlternatives [ty] = [] ∨
      knownAlternatives [ty] = ty.alternatives ∧ ty.alternatives ≠ [] := by
  have single : knownAlternatives [ty] = ty.alternatives.filter isKnown := by
    rw [knownAlternatives, List.flatMap_singleton]
  rw [single]
  cases ty with
  | unknown => exact .inl ⟨rfl, rfl⟩
  | union alts =>
    refine .inr ⟨List.filter_eq_self.mpr fun alt mem => ?_, ?_⟩
    · have definite := proper.toWellFormed.alternative_definite mem
      cases alt with
      | unknown => cases definite
      | _ => rfl
    · have plural := ((proper_iff _).mp proper).1.2.2
      rintro rfl
      cases plural
  | _ => exact .inr ⟨rfl, List.cons_ne_nil _ _⟩

/-! ## Unions -/

section Unions

variable {resolver : Resolver Id} {tys : List Ty}

theorem unionWith_eq_ofAlternatives (nonempty : dropUnknown (flatten tys) ≠ []) :
    Id.run (unionWith resolver tys) =
      ofAlternatives (collapsed resolver [] (dropUnknown (flatten tys)) freshGuard).1 := by
  unfold unionWith
  split
  · rename_i none
    exact absurd none nonempty
  · rename_i one
    rw [one]
    rfl
  · rfl

theorem proper_unionWith (resolver : Resolver Id) (proper : ∀ ty ∈ tys, ty.Proper) :
    (Id.run (unionWith resolver tys)).Proper :=
  rebuilds_proper.holds_unionWith follows_id resolver proper

/-- The alternatives of a union are summits of the alternatives it is built from. -/
theorem summits_unionWith (proper : ∀ ty ∈ tys, ty.Proper)
    (ordered : Ordered (IsBelow resolver) (knownAlternatives tys))
    (limits : WithinLimits resolver tys) :
    Summits (IsBelow resolver) (knownAlternatives tys)
      (knownAlternatives [Id.run (unionWith resolver tys)]) := by
  by_cases none : knownAlternatives tys = []
  · rw [unionWith_unknown resolver none, none]
    exact ⟨List.forall_mem_nil _, List.forall_mem_nil _, List.Pairwise.nil⟩
  obtain ⟨within, covers⟩ := dropUnknown_flatten proper none
  have good {alt : Ty} := @proper_of_mem_knownAlternatives tys proper alt
  have self (alt : Ty) (mem : alt ∈ knownAlternatives tys) : IsBelow resolver alt alt :=
    isBelow_of_eqv resolver (eqv_refl (good mem).1.tidy)
  have unequal := (pairwise_flatten tys).sublist (dropUnknown_sublist _)
  have summits := summits_collapsed idle_freshGuard ordered self within unequal
    ⟨List.Pairwise.nil, List.forall_mem_nil _⟩ limits
  have summits := summits.of_cofinal ordered within fun alt mem => by
    obtain ⟨found, found_mem, same⟩ := covers alt mem
    have back := eqv_symm (good (within found found_mem)).1.tidy same
    exact ⟨found, found_mem, isBelow_of_eqv resolver back⟩
  have nonempty : dropUnknown (flatten tys) ≠ [] := by
    obtain ⟨alt, mem⟩ := List.exists_mem_of_ne_nil _ none
    obtain ⟨found, found_mem, -⟩ := covers alt mem
    exact List.ne_nil_of_mem found_mem
  -- the result has the types kept for its alternatives, and these are known
  have all : knownAlternatives [Id.run (unionWith resolver tys)] =
      (collapsed resolver [] (dropUnknown (flatten tys)) freshGuard).1 := by
    rw [unionWith_eq_ofAlternatives nonempty, knownAlternatives, List.flatMap_singleton,
      alternatives_ofAlternatives fun alt mem => (good (summits.within alt mem)).2]
    exact List.filter_eq_self.mpr fun alt mem =>
      (mem_knownAlternatives.mp (summits.within alt mem)).2
  rw [all]
  exact summits

/-- Types with the summits of one list for their alternatives are equal. -/
theorem eqv_of_summits {known : List Ty} {a b : Ty} (ha : a.Proper) (hb : b.Proper)
    (tidy : ∀ ty ∈ known, ty.Tidy) (ordered : Ordered (IsBelow resolver) known)
    (summits : Summits (IsBelow resolver) known (knownAlternatives [a]))
    (summits' : Summits (IsBelow resolver) known (knownAlternatives [b])) : a.eqv b = true := by
  have of_eqv (x y : Ty) (same : x.eqv y = true) := isBelow_of_eqv resolver same
  have len : (knownAlternatives [a]).length = (knownAlternatives [b]).length :=
    Nat.le_antisymm (summits.length_le tidy of_eqv ordered summits')
      (summits'.length_le tidy of_eqv ordered summits)
  have partner (alt : Ty) (mem : alt ∈ knownAlternatives [a]) :=
    summits'.exists_eqv (summits.topmost ordered mem)
  rcases knownAlternatives_singleton ha with ⟨rfl, noneA⟩ | ⟨someA, nonemptyA⟩ <;>
    rcases knownAlternatives_singleton hb with ⟨rfl, noneB⟩ | ⟨someB, nonemptyB⟩
  · rfl
  · rw [noneA, someB] at len
    exact absurd (List.eq_nil_of_length_eq_zero len.symm) nonemptyB
  · rw [someA, noneB] at len
    exact absurd (List.eq_nil_of_length_eq_zero len) nonemptyA
  · rw [someA, someB] at len
    rw [someA, someB] at partner
    rw [← ofAlternatives_alternatives ha, ← ofAlternatives_alternatives hb]
    exact eqv_ofAlternatives len partner

/-! ## Order and grouping -/

/-- The type stands for a list of types that were put together in some order and in groups, of which
unions were taken first, groups of groups included. -/
inductive Grouped (resolver : Resolver Id) : List Ty → Ty → Prop
  | single (ty : Ty) : Grouped resolver [ty] ty
  | union {groups : List (List Ty × Ty)} {tys : List Ty}
      (each : ∀ group ∈ groups, Grouped resolver group.1 group.2)
      (order : (groups.flatMap (·.1)).Perm tys)
      (limits : WithinLimits resolver (groups.map (·.2))) :
      Grouped resolver tys (Id.run (unionWith resolver (groups.map (·.2))))

/-- The second list holds some of the known alternatives of the first and reaches as high. -/
structure Represents (resolver : Resolver Id) (tys others : List Ty) : Prop where
  proper : ∀ ty ∈ others, ty.Proper
  within : knownAlternatives others ⊆ knownAlternatives tys
  above : ∀ alt ∈ knownAlternatives tys, ∃ other ∈ knownAlternatives others,
    IsBelow resolver alt other

theorem Represents.summits {others : List Ty} (represents : Represents resolver tys others)
    (ordered : Ordered (IsBelow resolver) (knownAlternatives tys))
    (limits : WithinLimits resolver others) :
    Summits (IsBelow resolver) (knownAlternatives tys)
      (knownAlternatives [Id.run (unionWith resolver others)]) :=
  (summits_unionWith represents.proper (ordered.mono represents.within) limits).of_cofinal ordered
    represents.within represents.above

theorem represents_single (resolver : Resolver Id) {ty : Ty} (proper : ty.Proper) :
    Represents resolver [ty] [ty] := by
  have all : ∀ other ∈ [ty], other.Proper := List.forall_mem_singleton.mpr proper
  refine ⟨all, List.Subset.refl _, fun alt mem => ⟨alt, mem, ?_⟩⟩
  exact isBelow_of_eqv resolver (eqv_refl (proper_of_mem_knownAlternatives all mem).1.tidy)

/-- Groups represent the list they were formed from if each represents its part. -/
theorem represents_groups {groups : List (List Ty × Ty)}
    (order : (groups.flatMap (·.1)).Perm tys)
    (each : ∀ group ∈ groups, group.1 ⊆ tys → Represents resolver group.1 [group.2]) :
    Represents resolver tys (groups.map (·.2)) := by
  have part (group : List Ty × Ty) (mem : group ∈ groups) : group.1 ⊆ tys := fun source hsource =>
    order.mem_iff.mp (List.mem_flatMap.mpr ⟨group, mem, hsource⟩)
  refine ⟨List.forall_mem_map.mpr fun group mem => ?_, fun alt mem => ?_, fun alt mem => ?_⟩
  · exact (each group mem (part group mem)).proper group.2 (List.mem_singleton_self _)
  · obtain ⟨⟨ty, ty_mem, alt_mem⟩, known⟩ := mem_knownAlternatives.mp mem
    obtain ⟨group, group_mem, rfl⟩ := List.mem_map.mp ty_mem
    have own := mem_knownAlternatives.mpr ⟨⟨group.2, List.mem_singleton_self _, alt_mem⟩, known⟩
    have sub := part group group_mem
    exact knownAlternatives_mono sub ((each group group_mem sub).within own)
  · obtain ⟨⟨source, source_mem, alt_mem⟩, known⟩ := mem_knownAlternatives.mp mem
    obtain ⟨group, group_mem, source_mem⟩ := List.mem_flatMap.mp (order.mem_iff.mpr source_mem)
    have own := mem_knownAlternatives.mpr ⟨⟨source, source_mem, alt_mem⟩, known⟩
    obtain ⟨other, other_mem, le⟩ := (each group group_mem (part group group_mem)).above alt own
    refine ⟨other, knownAlternatives_mono ?_ other_mem, le⟩
    exact List.cons_subset.mpr ⟨List.mem_map_of_mem group_mem, List.nil_subset _⟩

theorem Grouped.represents {ty : Ty} (grouped : Grouped resolver tys ty)
    (proper : ∀ ty ∈ tys, ty.Proper)
    (ordered : Ordered (IsBelow resolver) (knownAlternatives tys)) :
    Represents resolver tys [ty] := by
  induction grouped with
  | single ty => exact represents_single resolver (proper ty (List.mem_singleton_self ty))
  | union _ order limits ih =>
    have represents := represents_groups order fun group mem sub =>
      ih group mem (fun source hsource => proper source (sub hsource))
        (ordered.mono (knownAlternatives_mono sub))
    have summits := represents.summits ordered limits
    exact ⟨List.forall_mem_singleton.mpr (proper_unionWith resolver represents.proper),
      summits.within, summits.above⟩

/-- A union consists of the alternatives that are below no other, whatever the order in which the
types come and however they are grouped. -/
theorem unionWith_topmost (resolver : Resolver Id) {tys : List Ty}
    (proper : ∀ ty ∈ tys, ty.Proper)
    (ordered : Ordered (IsBelow resolver) (knownAlternatives tys))
    (limits : WithinLimits resolver tys) :
    (knownAlternatives tys = [] → Id.run (unionWith resolver tys) = .unknown) ∧
    (knownAlternatives tys ≠ [] →
      (∀ alt ∈ (Id.run (unionWith resolver tys)).alternatives,
        Topmost (IsBelow resolver) (knownAlternatives tys) alt) ∧
      ∀ alt, Topmost (IsBelow resolver) (knownAlternatives tys) alt →
        ∃ kept ∈ (Id.run (unionWith resolver tys)).alternatives, alt.eqv kept = true) ∧
    (∀ others : List Ty, others.Perm tys → WithinLimits resolver others →
      (Id.run (unionWith resolver others)).eqv (Id.run (unionWith resolver tys)) = true) ∧
    ∀ groups : List (List Ty × Ty), (∀ group ∈ groups, Grouped resolver group.1 group.2) →
      (groups.flatMap (·.1)).Perm tys → WithinLimits resolver (groups.map (·.2)) →
      (Id.run (unionWith resolver (groups.map (·.2)))).eqv (Id.run (unionWith resolver tys))
        = true := by
  have summits := summits_unionWith proper ordered limits
  have tidy (alt : Ty) (mem : alt ∈ knownAlternatives tys) :=
    (proper_of_mem_knownAlternatives proper mem).1.tidy
  have equal {others : List Ty} (represents : Represents resolver tys others)
      (limits : WithinLimits resolver others) :=
    eqv_of_summits (proper_unionWith resolver represents.proper) (proper_unionWith resolver proper)
      tidy ordered (represents.summits ordered limits) summits
  refine ⟨fun none => ?_, fun some => ?_, fun others order limits => ?_, ?_⟩
  · rw [unionWith_unknown resolver none]
    rfl
  · rcases knownAlternatives_singleton (proper_unionWith resolver proper) with
      ⟨-, nothing⟩ | ⟨all, -⟩
    · rw [nothing] at summits
      obtain ⟨alt, mem⟩ := List.exists_mem_of_ne_nil _ some
      obtain ⟨_, absurd, -⟩ := summits.above alt mem
      cases absurd
    · rw [all] at summits
      exact ⟨fun alt mem => summits.topmost ordered mem, fun alt => summits.exists_eqv⟩
  · have same := order.subset
    refine equal ⟨fun ty mem => proper ty (same mem), knownAlternatives_mono same, ?_⟩ limits
    intro alt mem
    refine ⟨alt, knownAlternatives_mono order.symm.subset mem, ?_⟩
    exact isBelow_of_eqv resolver (eqv_refl (tidy alt mem))
  · intro groups each order limits
    refine equal (represents_groups order fun group mem sub => ?_) limits
    exact (each group mem).represents (fun ty hty => proper ty (sub hty))
      (ordered.mono (knownAlternatives_mono sub))

/-- Dogs are animals and a literal is a string; the rest stays, in any order, also when some of the
types are put together first. -/
theorem unionWith_topmost_pets :
    let resolver : Resolver Id :=
      ⟨fun name => if name = "Dog" then ["Animal"] else [], fun _ _ => none⟩
    let optional : Ty := .union [.string, .nil]
    let tys : List Ty := [.classRef "Dog", optional, .unknown, .classRef "Animal", .literal "x"]
    let groups : List (List Ty × Ty) :=
      [([.literal "x", .classRef "Dog"],
          Id.run (unionWith resolver [.literal "x", .classRef "Dog"])),
        ([optional], optional), ([.unknown], .unknown), ([.classRef "Animal"], .classRef "Animal")]
    ((∀ ty ∈ tys, ty.Proper) ∧ Ordered (IsBelow resolver) (knownAlternatives tys) ∧
      WithinLimits resolver tys) ∧
    (∀ alt ∈ (Id.run (unionWith resolver tys)).alternatives,
      Topmost (IsBelow resolver) (knownAlternatives tys) alt) ∧
    (Id.run (unionWith resolver tys.reverse)).eqv (Id.run (unionWith resolver tys)) = true ∧
    (∀ group ∈ groups, Grouped resolver group.1 group.2) ∧
    (Id.run (unionWith resolver (groups.map (·.2)))).eqv (Id.run (unionWith resolver tys))
      = true := by
  intro resolver optional tys groups
  have proper : ∀ ty ∈ tys, ty.Proper := by decide
  have ordered : Ordered (IsBelow resolver) (knownAlternatives tys) :=
    ⟨by decide +kernel, by decide +kernel⟩
  have limits : WithinLimits resolver tys := by decide +kernel
  have each : ∀ group ∈ groups, Grouped resolver group.1 group.2 := by
    let pair : List (List Ty × Ty) :=
      [([.literal "x"], .literal "x"), ([.classRef "Dog"], .classRef "Dog")]
    have singles : ∀ group ∈ pair, Grouped resolver group.1 group.2 := by
      simpa [pair] using ⟨.single (.literal "x"), .single (.classRef "Dog")⟩
    have first := Grouped.union singles (List.Perm.refl _) (by decide +kernel)
    refine List.forall_mem_cons.mpr ⟨first, ?_⟩
    simpa using ⟨.single optional, .single .unknown, .single (.classRef "Animal")⟩
  obtain ⟨-, topmost, permuted, grouped⟩ := unionWith_topmost resolver proper ordered limits
  refine ⟨⟨proper, ordered, limits⟩, (topmost (by decide)).1, ?_, each, ?_⟩
  · exact permuted tys.reverse (List.reverse_perm tys) (by decide +kernel)
  · refine grouped groups each ?_ (by decide +kernel)
    exact (List.perm_append_singleton (Ty.literal "x") _).symm

end Unions

end Union

end LuaTyping
