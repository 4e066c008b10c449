import LuaTyping.Proofs.Ty.Equality
import Mathlib.Data.List.Forall2

/-!
# What two types with one outline have in common

The alternatives of a union are sorted when its outline is taken, so two unions have one outline if
their alternatives have the same outlines in any order. That takes a sort whose result depends on
nothing but the elements, hence an order in which only equal outlines tie: the first part proves
that the order of labels and of outlines is such an order.

`Resembles` then says what equal outlines say of two types, by shape and over the relation that
compares the parts, as `Matches` does for equality. The rules differ in two places. Records resemble
each other as soon as they have equally many members, whatever these are. And the alternatives of
resembling unions are paired off one by one, where equality only looks each of them up on the other
side; the count in `exists_perm_of_partners` makes a pairing of that.
-/

set_option autoImplicit false

namespace LuaTyping

/-! ## The order of labels -/

namespace Label

theorem compareTexts_eq (as bs : List String) : compareTexts as bs = as.compareLex compare bs := by
  induction as generalizing bs with
  | nil => cases bs <;> rfl
  | cons a as ih =>
    cases bs with
    | nil => rfl
    | cons b bs => rw [compareTexts, ih, List.compareLex_cons_cons]

theorem order_eq : order = compareLex (compareLex (compareOn rank) (compareOn size))
    (fun a b => a.texts.compareLex compare b.texts) := by
  funext a b
  simp only [order, compareTexts_eq]
  rfl

instance : Std.TransCmp (fun a b : Label => a.texts.compareLex compare b.texts) where
  eq_swap {_ _} := @Std.OrientedCmp.eq_swap _ (List.compareLex compare) _ _ _
  isLE_trans {_ _ _} := @Std.TransCmp.isLE_trans _ (List.compareLex compare) _ _ _ _

instance : Std.TransCmp order := order_eq ▸ inferInstance

theorem order_swap (a b : Label) : order a b = (order b a).swap := Std.OrientedCmp.eq_swap

theorem eq_of_fields {a b : Label} (hrank : a.rank = b.rank) (hsize : a.size = b.size)
    (htexts : a.texts = b.texts) : a = b := by
  -- the rank of a function depends on whether it is variadic, so that is split as well
  rcases a with _ | _ | _ | _ | _ | _ | _ | _ | _ | _ | _ | _ | _ | ⟨_ | _, _⟩ <;>
    rcases b with _ | _ | _ | _ | _ | _ | _ | _ | _ | _ | _ | _ | _ | ⟨_ | _, _⟩ <;>
    cases hrank <;> first | rfl | cases hsize; rfl | cases htexts; rfl

theorem eq_of_order {a b : Label} (h : order a b = .eq) : a = b := by
  simp only [order, Ordering.then_eq_eq, compareTexts_eq] at h
  obtain ⟨⟨hrank, hsize⟩, htexts⟩ := h
  apply eq_of_fields
  · exact Std.LawfulEqCmp.eq_of_compare hrank
  · exact Std.LawfulEqCmp.eq_of_compare hsize
  · exact @Std.LawfulEqCmp.eq_of_compare _ (List.compareLex compare) _ _ _ htexts

end Label

/-! ## The order of outlines -/

namespace Outline

mutual

theorem order_swap : ∀ a b : Outline, order a b = (order b a).swap
  | .node label parts, .node label' parts' => by
    rw [order, order, Ordering.swap_then, ← Label.order_swap, ← orderParts_swap parts parts']
termination_by structural a => a

theorem orderParts_swap : ∀ as bs : List Outline, orderParts as bs = (orderParts bs as).swap
  | [], [] | [], _ :: _ | _ :: _, [] => rfl
  | a :: as, b :: bs => by
    rw [orderParts, orderParts, Ordering.swap_then, ← order_swap a b, ← orderParts_swap as bs]
termination_by structural as => as

end

mutual

theorem eq_of_order : ∀ {a b : Outline}, order a b = .eq → a = b
  | .node label parts, .node label' parts', h => by
    rw [order, Ordering.then_eq_eq] at h
    rw [Label.eq_of_order h.1, eq_of_orderParts h.2]
termination_by structural a => a

theorem eq_of_orderParts : ∀ {as bs : List Outline}, orderParts as bs = .eq → as = bs
  | [], [], _ => rfl
  | a :: as, b :: bs, h => by
    rw [orderParts, Ordering.then_eq_eq] at h
    rw [eq_of_order h.1, eq_of_orderParts h.2]
termination_by structural as => as

end

/-- If the outer ones of three in ascending order are the same, all three are. -/
theorem eq_eq_of_outer {α : Type} {cmp : α → α → Ordering} (swap : ∀ a b, cmp a b = (cmp b a).swap)
    (same : ∀ {a b}, cmp a b = .eq → a = b) {a b c : α} (hab : (cmp a b).isLE)
    (hbc : (cmp b c).isLE) (hac : cmp a c = .eq) : cmp a b = .eq ∧ cmp b c = .eq := by
  cases same hac
  rw [swap b a] at hbc ⊢
  cases h : cmp a b
  · rw [h] at hbc
    cases hbc
  · exact ⟨rfl, rfl⟩
  · rw [h] at hab
    cases hab

/-- Ascending by a first criterion, and by a second one where the first does not decide. -/
theorem isLE_then_trans {x y z x' y' z' : Ordering} (le : x.isLE → y.isLE → z.isLE)
    (eq : x.isLE → y.isLE → z = .eq → x = .eq ∧ y = .eq) (le' : x'.isLE → y'.isLE → z'.isLE)
    (hx : (x.then x').isLE) (hy : (y.then y').isLE) : (z.then z').isLE := by
  cases x <;> cases y <;> cases z <;> simp_all

mutual

theorem order_trans : ∀ {a b c : Outline}, (order a b).isLE → (order b c).isLE →
    (order a c).isLE
  | .node label parts, .node label' parts', .node label'' parts'', hab, hbc => by
    rw [order] at hab hbc ⊢
    exact isLE_then_trans Std.TransCmp.isLE_trans
      (eq_eq_of_outer Label.order_swap Label.eq_of_order) orderParts_trans hab hbc
termination_by structural a => a

theorem orderParts_trans : ∀ {as bs cs : List Outline}, (orderParts as bs).isLE →
    (orderParts bs cs).isLE → (orderParts as cs).isLE
  | [], _, [], _, _ | [], _, _ :: _, _, _ => rfl
  | _ :: _, [], _, h, _ | _ :: _, _ :: _, [], _, h => nomatch h
  | a :: as, b :: bs, c :: cs, hab, hbc => by
    rw [orderParts] at hab hbc ⊢
    exact isLE_then_trans order_trans (eq_eq_of_outer order_swap eq_of_order) orderParts_trans
      hab hbc
termination_by structural as => as

end

theorem sorted_sortParts (parts : List Outline) :
    (sortParts parts).Pairwise fun a b => (order a b).isLE = true := by
  refine List.pairwise_mergeSort ?_ ?_ parts
  · intro a b c
    exact order_trans
  · intro a b
    rw [order_swap b a]
    cases order a b <;> rfl

theorem sortParts_perm (parts : List Outline) : (sortParts parts).Perm parts :=
  List.mergeSort_perm parts _

/-- Sorting forgets the order and nothing else. -/
theorem sortParts_eq_iff {as bs : List Outline} : sortParts as = sortParts bs ↔ as.Perm bs := by
  constructor
  · intro same
    exact (sortParts_perm as).symm.trans (same ▸ sortParts_perm bs)
  · intro perm
    refine List.Perm.eq_of_pairwise ?_ (sorted_sortParts as) (sorted_sortParts bs)
      ((sortParts_perm as).trans (perm.trans (sortParts_perm bs).symm))
    intro a b _ _ hab hba
    rw [order_swap b a] at hba
    apply eq_of_order
    cases h : order a b <;> simp_all

end Outline

/-! ## Resemblance -/

namespace Ty

/-- The rules of having one outline, where `part` compares the parts of the two types. -/
inductive Resembles (part : Ty → Ty → Prop) : Ty → Ty → Prop
  | refl {a : Ty} (childless : a.parts = []) : Resembles part a a
  | function {params params' : List Ty} {ret ret' : Ty} {variadic : Bool} {generics : List String}
      (h : List.Forall₂ part params params') (result : part ret ret') :
      Resembles part (.function params ret variadic generics)
        (.function params' ret' variadic generics)
  | named (name : String) (supers supers' : List String) (members members' : List (Member Ty)) :
      Resembles part (.named name supers members) (.named name supers' members')
  | record {members members' : List (Member Ty)} (supers supers' : List String)
      (len : members.length = members'.length) :
      Resembles part (.record supers members) (.record supers' members')
  | union {alts alts' paired : List Ty} (perm : paired.Perm alts')
      (h : List.Forall₂ part alts paired) : Resembles part (.union alts) (.union alts')
  | aliasRef {name : String} {args args' : List Ty} (h : List.Forall₂ part args args') :
      Resembles part (.aliasRef name args) (.aliasRef name args')
  | array {element element' : Ty} (h : part element element') :
      Resembles part (.array element) (.array element')
  | tuple {elements elements' : List Ty} (h : List.Forall₂ part elements elements') :
      Resembles part (.tuple elements) (.tuple elements')

theorem outlines_eq_iff {as bs : List Ty} :
    outlines as = outlines bs ↔ List.Forall₂ (fun a b => a.outline = b.outline) as bs := by
  rw [outlines_eq_map, outlines_eq_map, ← List.forall₂_eq_eq_eq, List.forall₂_map_left_iff,
    List.forall₂_map_right_iff]

theorem outlines_perm_iff {as bs : List Ty} :
    (outlines as).Perm (outlines bs) ↔
      ∃ paired : List Ty, paired.Perm bs ∧
        List.Forall₂ (fun a b => a.outline = b.outline) as paired := by
  constructor
  · intro perm
    have named : List.Forall₂ (fun (o : Outline) (b : Ty) => o = b.outline) (outlines bs) bs := by
      rw [outlines_eq_map, List.forall₂_map_left_iff]
      exact List.forall₂_same.mpr fun _ _ => rfl
    obtain ⟨paired, h, perm⟩ := List.perm_comp_forall₂ perm named
    rw [outlines_eq_map, List.forall₂_map_left_iff] at h
    exact ⟨paired, perm, h⟩
  · rintro ⟨paired, perm, h⟩
    rw [outlines_eq_iff.mpr h, outlines_eq_map, outlines_eq_map]
    exact perm.map outline

/-- Two types have one outline just if they resemble each other, with parts that have one outline
each. -/
theorem outline_eq_iff {a b : Ty} :
    a.outline = b.outline ↔ Resembles (fun x y => x.outline = y.outline) a b := by
  constructor
  · intro h
    cases a <;> cases b <;>
      simp only [outline, Outline.node.injEq, Label.literal.injEq, Label.generic.injEq,
        Label.named.injEq, Label.aliasRef.injEq, Label.record.injEq, Label.function.injEq,
        reduceCtorEq, false_and, List.cons.injEq, outlines_eq_iff, Outline.sortParts_eq_iff,
        outlines_perm_iff, and_true, true_and] at h
    case function.function =>
      obtain ⟨⟨rfl, rfl⟩, result, params⟩ := h
      exact .function params result
    case named.named => exact h ▸ .named _ _ _ _ _
    case record.record => exact .record _ _ h
    case union.union =>
      obtain ⟨paired, perm, h⟩ := h
      exact .union perm h
    case aliasRef.aliasRef => exact h.1 ▸ .aliasRef h.2
    case array.array => exact .array h
    case tuple.tuple => exact .tuple h
    case literal.literal | generic.generic => exact h ▸ .refl rfl
    all_goals exact .refl rfl
  · intro h
    cases h with
    | refl childless => rfl
    | function h result => simp only [outline, outlines_eq_iff.mpr h, result]
    | named name => rfl
    | record _ _ len => simp only [outline, len]
    | union perm h =>
      rw [outline, outline, Outline.sortParts_eq_iff.mpr (outlines_perm_iff.mpr ⟨_, perm, h⟩)]
    | aliasRef h => rw [outline, outline, outlines_eq_iff.mpr h]
    | array h => simp only [outline, h]
    | tuple h => rw [outline, outline, outlines_eq_iff.mpr h]

/-- Equal types have one outline. -/
theorem outline_eq_of_eqv {a b : Ty} (tidy : a.Tidy) (same : a.eqv b = true) :
    a.outline = b.outline := by
  induction a using induction_on_parts generalizing b with
  | step a ih =>
    have ih {x y : Ty} (mem : x ∈ a.parts) (h : x.eqv y = true) : x.outline = y.outline :=
      ih x mem (tidy.part mem) h
    have listed {as bs : List Ty} (within : as ⊆ a.parts) (len : as.length = bs.length)
        (h : ∀ pair ∈ as.zip bs, pair.1.eqv pair.2 = true) :
        List.Forall₂ (fun x y => x.outline = y.outline) as bs :=
      List.forall₂_iff_zip.mpr ⟨len, fun mem => ih (within (List.of_mem_zip mem).1) (h _ mem)⟩
    rw [outline_eq_iff]
    cases eqv_iff.mp same with
    | refl childless => exact .refl childless
    | function len h result =>
      exact .function (listed (List.subset_cons_self _ _) len h) (ih List.mem_cons_self result)
    | named name => exact .named _ _ _ _ _
    | record len h => exact .record _ _ len
    | @union alts alts' len h =>
      obtain ⟨paired, perm, h⟩ :=
        exists_perm_of_partners _ (Nat.le_of_eq len.symm) tidy.alternatives_apart h
      refine .union perm (List.forall₂_iff_zip.mpr ⟨h.length_eq, fun mem => ?_⟩)
      exact ih (List.of_mem_zip mem).1 ((List.forall₂_iff_zip.mp h).2 mem)
    | aliasRef len h => exact .aliasRef (listed (List.Subset.refl _) len h)
    | array h => exact .array (ih (List.mem_singleton_self _) h)
    | tuple len h => exact .tuple (listed (List.Subset.refl _) len h)

end Ty

end LuaTyping
