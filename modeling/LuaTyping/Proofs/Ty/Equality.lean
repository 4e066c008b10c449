import LuaTyping.Proofs.Subtyping.Nesting
import Mathlib.Data.List.Forall2
import Mathlib.Data.List.Perm.Subperm
import Mathlib.Data.List.Zip

/-!
# Laws of equality

Equality of types goes by shape, as the order does: `Matches` has one rule for each pair of shapes
that can be equal, stated over the relation that compares the parts, and `eqv_iff` says that
equality is the relation that these rules determine.

Equality is transitive on all types. It is symmetric where lists that stand for sets hold nothing
twice: the tests look from the first type into the second only, and it takes a count to come back.
`Tidy` says that a type is built of such lists, as every type in use is.
-/

set_option autoImplicit false

namespace LuaTyping

/-! ## Lists in step -/

/-- Two lists in step can be compared through a third one that is as long as one of them. -/
theorem mem_zip_through {α : Type} {as bs cs : List α} {x z : α} (mem : (x, z) ∈ as.zip cs)
    (long : as.length ≤ bs.length ∨ cs.length ≤ bs.length) :
    ∃ y, (x, y) ∈ as.zip bs ∧ (y, z) ∈ bs.zip cs := by
  obtain ⟨i, hi, at_i⟩ := List.mem_iff_getElem.mp mem
  rw [List.length_zip, Nat.lt_min] at hi
  rw [List.getElem_zip, Prod.mk.injEq] at at_i
  have hb : i < bs.length := by omega
  refine ⟨bs[i], ?_, ?_⟩
  · refine List.mem_iff_getElem.mpr ⟨i, ?_, ?_⟩
    · rw [List.length_zip]
      omega
    · rw [List.getElem_zip, at_i.1]
  · refine List.mem_iff_getElem.mpr ⟨i, ?_, ?_⟩
    · rw [List.length_zip]
      omega
    · rw [List.getElem_zip, at_i.2]

theorem exists_mem_zip {α : Type} {as bs : List α} {x : α} (mem : x ∈ as)
    (long : as.length ≤ bs.length) : ∃ y, (x, y) ∈ as.zip bs := by
  rw [← List.map_fst_zip long] at mem
  obtain ⟨⟨_, y⟩, pair, rfl⟩ := List.mem_map.mp mem
  exact ⟨y, pair⟩

theorem mem_zip_comm {α : Type} {as bs : List α} {x y : α} (mem : (x, y) ∈ as.zip bs) :
    (y, x) ∈ bs.zip as := by
  rw [← List.zip_swap]
  exact List.mem_map.mpr ⟨(x, y), mem, rfl⟩

/-- If no two items of a list share a partner, the items can be given one partner each. -/
theorem exists_subperm_of_partners {α β : Type} (rel : α → β → Prop) {as : List α} {bs : List β}
    (apart : as.Pairwise fun x y => ∀ b, rel x b → ¬ rel y b)
    (partner : ∀ a ∈ as, ∃ b ∈ bs, rel a b) :
    ∃ taken, taken.Subperm bs ∧ List.Forall₂ rel as taken := by
  induction as generalizing bs with
  | nil => exact ⟨[], List.nil_subperm, .nil⟩
  | cons first rest ih =>
    obtain ⟨apartFirst, apartRest⟩ := List.pairwise_cons.mp apart
    obtain ⟨own, own_mem, howned⟩ := partner first List.mem_cons_self
    obtain ⟨before, after, rfl⟩ := List.append_of_mem own_mem
    -- the others have their partners among what is left when the first one's is removed
    have left (a : α) (mem : a ∈ rest) : ∃ b ∈ before ++ after, rel a b := by
      obtain ⟨b, b_mem, hb⟩ := partner a (List.mem_cons_of_mem _ mem)
      have other : b ≠ own := fun same => apartFirst a mem own howned (same ▸ hb)
      refine ⟨b, ?_, hb⟩
      simpa [other] using b_mem
    obtain ⟨taken, within, paired⟩ := ih apartRest left
    refine ⟨own :: taken, ?_, .cons howned paired⟩
    exact ((List.subperm_cons own).mpr within).trans List.perm_middle.symm.subperm

/-- If moreover there are no more partners than items, then every partner is taken. -/
theorem exists_perm_of_partners {α β : Type} (rel : α → β → Prop) {as : List α} {bs : List β}
    (len : bs.length ≤ as.length) (apart : as.Pairwise fun x y => ∀ b, rel x b → ¬ rel y b)
    (partner : ∀ a ∈ as, ∃ b ∈ bs, rel a b) :
    ∃ taken, taken.Perm bs ∧ List.Forall₂ rel as taken := by
  obtain ⟨taken, within, paired⟩ := exists_subperm_of_partners rel apart partner
  exact ⟨taken, within.perm_of_length_le (paired.length_eq ▸ len), paired⟩

theorem exists_of_partners {α β : Type} (rel : α → β → Prop) {as : List α} {bs : List β}
    (len : bs.length ≤ as.length) (apart : as.Pairwise fun x y => ∀ b, rel x b → ¬ rel y b)
    (partner : ∀ a ∈ as, ∃ b ∈ bs, rel a b) : ∀ b ∈ bs, ∃ a ∈ as, rel a b := by
  obtain ⟨taken, perm, paired⟩ := exists_perm_of_partners rel len apart partner
  intro b mem
  obtain ⟨i, hi, rfl⟩ := List.mem_iff_getElem.mp (perm.mem_iff.mpr mem)
  have hi' : i < as.length := paired.length_eq ▸ hi
  exact ⟨as[i], List.getElem_mem hi', paired.get hi' hi⟩

theorem findMember?_name {α : Type} {members : List (Member α)} {name : String} {found : Member α}
    (h : findMember? members name = some found) : found.name = name := by
  simpa using List.find?_some h

/-- Where names are distinct, a member is the one that is found under its name. -/
theorem findMember?_of_mem {α : Type} {members : List (Member α)} {member : Member α}
    (distinct : (members.map (·.name)).Nodup) (mem : member ∈ members) :
    findMember? members member.name = some member := by
  induction members with
  | nil => exact absurd mem List.not_mem_nil
  | cons first rest ih =>
    rw [List.map_cons, List.nodup_cons] at distinct
    rcases List.mem_cons.mp mem with rfl | mem
    · simp [findMember?]
    · have other : first.name ≠ member.name := fun same =>
        distinct.1 (same ▸ List.mem_map_of_mem mem)
      rw [findMember?, List.find?_cons_of_neg (by simpa using other)]
      exact ih distinct.2 mem

namespace Ty

/-! ## Equality by shape -/

/-- The rules of equality, where `part` compares the parts of the two types. -/
inductive Matches (part : Ty → Ty → Prop) : Ty → Ty → Prop
  | refl {a : Ty} (childless : a.parts = []) : Matches part a a
  | function {params params' : List Ty} {ret ret' : Ty} {variadic : Bool} {generics : List String}
      (len : params.length = params'.length)
      (h : ∀ pair ∈ params.zip params', part pair.1 pair.2) (result : part ret ret') :
      Matches part (.function params ret variadic generics)
        (.function params' ret' variadic generics)
  | named (name : String) (supers supers' : List String) (members members' : List (Member Ty)) :
      Matches part (.named name supers members) (.named name supers' members')
  | record {supers supers' : List String} {members members' : List (Member Ty)}
      (len : members.length = members'.length)
      (h : ∀ member ∈ members, ∃ other, findMember? members' member.name = some other ∧
        part member.ty other.ty) :
      Matches part (.record supers members) (.record supers' members')
  | union {alts alts' : List Ty} (len : alts.length = alts'.length)
      (h : ∀ alt ∈ alts, ∃ alt' ∈ alts', part alt alt') : Matches part (.union alts) (.union alts')
  | aliasRef {name : String} {args args' : List Ty} (len : args.length = args'.length)
      (h : ∀ pair ∈ args.zip args', part pair.1 pair.2) :
      Matches part (.aliasRef name args) (.aliasRef name args')
  | array {element element' : Ty} (h : part element element') :
      Matches part (.array element) (.array element')
  | tuple {elements elements' : List Ty} (len : elements.length = elements'.length)
      (h : ∀ pair ∈ elements.zip elements', part pair.1 pair.2) :
      Matches part (.tuple elements) (.tuple elements')

theorem eqvList_iff (as bs : List Ty) :
    eqvList as bs = true ↔
      as.length = bs.length ∧ ∀ pair ∈ as.zip bs, pair.1.eqv pair.2 = true := by
  induction as generalizing bs with
  | nil => cases bs <;> simp [eqvList]
  | cons a rest ih =>
    cases bs with
    | nil => simp [eqvList]
    | cons b rest' =>
      rw [eqvList, Bool.and_eq_true, ih, List.zip_cons_cons, List.forall_mem_cons,
        List.length_cons, List.length_cons, Nat.succ.injEq]
      exact and_left_comm

theorem allWithin_iff (as bs : List Ty) :
    allWithin as bs = true ↔ ∀ a ∈ as, ∃ b ∈ bs, a.eqv b = true := by
  induction as with
  | nil => simp [allWithin]
  | cons a rest ih => rw [allWithin, Bool.and_eq_true, ih, List.any_eq_true, List.forall_mem_cons]

theorem membersWithin_iff (members others : List (Member Ty)) :
    membersWithin members others = true ↔ ∀ member ∈ members, ∃ other,
      findMember? others member.name = some other ∧ member.ty.eqv other.ty = true := by
  induction members with
  | nil => simp [membersWithin]
  | cons member rest ih =>
    rw [membersWithin, Bool.and_eq_true, ih, List.forall_mem_cons]
    refine and_congr_left fun _ => ?_
    cases findMember? others member.name <;> simp

/-- Equality is what its rules say. -/
theorem eqv_iff {a b : Ty} : a.eqv b = true ↔ Matches (fun x y => x.eqv y = true) a b := by
  constructor
  · intro h
    unfold eqv at h
    split at h
    case h_6 => exact beq_iff_eq.mp h ▸ .refl rfl
    case h_7 =>
      simp only [Bool.and_eq_true, eqvList_iff, beq_iff_eq] at h
      obtain ⟨⟨⟨⟨len, params⟩, ret⟩, rfl⟩, rfl⟩ := h
      exact .function len params ret
    case h_8 => exact beq_iff_eq.mp h ▸ .named _ _ _ _ _
    case h_9 =>
      rw [Bool.and_eq_true, membersWithin_iff, beq_iff_eq] at h
      exact .record h.1 h.2
    case h_10 =>
      rw [Bool.and_eq_true, allWithin_iff, beq_iff_eq] at h
      exact .union h.1 h.2
    case h_11 => exact beq_iff_eq.mp h ▸ .refl rfl
    case h_12 =>
      rw [Bool.and_eq_true, eqvList_iff, beq_iff_eq] at h
      obtain ⟨rfl, len, args⟩ := h
      exact .aliasRef len args
    case h_13 => exact .array h
    case h_14 =>
      rw [eqvList_iff] at h
      exact .tuple h.1 h.2
    case h_15 => cases h
    all_goals exact .refl rfl
  · intro h
    cases h with
    | refl childless => cases a <;> simp_all [parts, eqv, eqvList, allWithin, membersWithin]
    | function len params ret =>
      simp only [eqv, Bool.and_eq_true, eqvList_iff, beq_self_eq_true, and_true]
      exact ⟨⟨len, params⟩, ret⟩
    | named name => exact beq_self_eq_true name
    | record len h =>
      rw [eqv, Bool.and_eq_true, membersWithin_iff, beq_iff_eq]
      exact ⟨len, h⟩
    | union len h =>
      rw [eqv, Bool.and_eq_true, allWithin_iff, beq_iff_eq]
      exact ⟨len, h⟩
    | aliasRef len h =>
      rw [eqv, Bool.and_eq_true, eqvList_iff, beq_iff_eq]
      exact ⟨rfl, len, h⟩
    | array h => exact h
    | tuple len h => exact (eqvList_iff _ _).mpr ⟨len, h⟩

/-! ## The laws -/

theorem eqv_trans {a b c : Ty} (hab : a.eqv b = true) (hbc : b.eqv c = true) :
    a.eqv c = true := by
  induction a using induction_on_parts generalizing b c with
  | step a ih =>
    have listed {as bs cs : List Ty} (within : as ⊆ a.parts) (len : as.length = bs.length)
        (h : ∀ pair ∈ as.zip bs, pair.1.eqv pair.2 = true)
        (h' : ∀ pair ∈ bs.zip cs, pair.1.eqv pair.2 = true) :
        ∀ pair ∈ as.zip cs, pair.1.eqv pair.2 = true := by
      rintro ⟨x, z⟩ mem
      obtain ⟨y, left, right⟩ := mem_zip_through mem (.inl (Nat.le_of_eq len))
      exact ih x (within (List.of_mem_zip mem).1) (h _ left) (h' _ right)
    rw [eqv_iff] at hbc ⊢
    cases eqv_iff.mp hab with
    | refl childless => exact hbc
    | function len h result =>
      cases hbc with
      | refl childless => cases childless
      | function len' h' result' =>
        exact .function (len.trans len') (listed (List.subset_cons_self _ _) len h h')
          (ih _ List.mem_cons_self result result')
    | named name =>
      cases hbc with
      | refl childless => exact .named _ _ _ _ _
      | named _ => exact .named _ _ _ _ _
    | record len h =>
      cases hbc with
      | refl childless => exact .record len h
      | record len' h' =>
        refine .record (len.trans len') fun member mem => ?_
        obtain ⟨other, found, same⟩ := h member mem
        obtain ⟨third, found', same'⟩ := h' other (List.mem_of_find?_eq_some found)
        rw [findMember?_name found] at found'
        exact ⟨third, found', ih _ (List.mem_map_of_mem mem) same same'⟩
    | union len h =>
      cases hbc with
      | refl childless => exact .union len h
      | union len' h' =>
        refine .union (len.trans len') fun alt mem => ?_
        obtain ⟨alt', mem', same⟩ := h alt mem
        obtain ⟨alt'', mem'', same'⟩ := h' alt' mem'
        exact ⟨alt'', mem'', ih alt mem same same'⟩
    | aliasRef len h =>
      cases hbc with
      | refl childless => exact .aliasRef len h
      | aliasRef len' h' => exact .aliasRef (len.trans len') (listed (List.Subset.refl _) len h h')
    | array h =>
      cases hbc with
      | refl childless => cases childless
      | array h' => exact .array (ih _ (List.mem_singleton_self _) h h')
    | tuple len h =>
      cases hbc with
      | refl childless => exact .tuple len h
      | tuple len' h' => exact .tuple (len.trans len') (listed (List.Subset.refl _) len h h')

/-- Whether the members of a record have distinct names and the alternatives of a union are
distinct. -/
def hasDistinctParts : Ty → Bool
  | .record _ members => decide (members.map (·.name)).Nodup
  | .union alts => decide (alts.Pairwise fun alt other => alt.eqv other = false)
  | _ => true

/-- Wherever a list in the type stands for a set, it holds nothing twice. -/
def Tidy (ty : Ty) : Prop := ty.anyNode (fun node => !node.hasDistinctParts) = false

instance (ty : Ty) : Decidable ty.Tidy := inferInstanceAs (Decidable (_ = false))

theorem Tidy.part {ty part : Ty} (h : ty.Tidy) (mem : part ∈ ty.parts) : part.Tidy :=
  anyNode_part mem h

theorem Tidy.hasDistinctParts {ty : Ty} (h : ty.Tidy) : ty.hasDistinctParts = true := by
  rw [Tidy, anyNode_eq, Bool.or_eq_false_iff] at h
  simpa using h.1

theorem Tidy.names_nodup {supers : List String} {members : List (Member Ty)}
    (h : (Ty.record supers members).Tidy) : (members.map (·.name)).Nodup :=
  of_decide_eq_true h.hasDistinctParts

theorem Tidy.alternatives_pairwise {alts : List Ty} (h : (Ty.union alts).Tidy) :
    alts.Pairwise fun alt other => alt.eqv other = false :=
  of_decide_eq_true h.hasDistinctParts

/-- Members of equal records correspond to each other, in both directions. -/
theorem exists_eqv_member {members members' : List (Member Ty)}
    (distinct : (members.map (·.name)).Nodup) (len : members.length = members'.length)
    (h : ∀ member ∈ members, ∃ other, findMember? members' member.name = some other ∧
      member.ty.eqv other.ty = true) :
    ∀ other ∈ members', ∃ member, findMember? members other.name = some member ∧
      member.ty.eqv other.ty = true := by
  let rel (member other : Member Ty) : Prop :=
    findMember? members' member.name = some other ∧ member.ty.eqv other.ty = true
  have apart : members.Pairwise fun x y => ∀ other, rel x other → ¬ rel y other := by
    refine (List.pairwise_map.mp distinct).imp fun {x y} differ other hx hy => differ ?_
    rw [← findMember?_name hx.1, ← findMember?_name hy.1]
  have partner (member : Member Ty) (mem : member ∈ members) :
      ∃ other ∈ members', rel member other := by
    obtain ⟨other, found, same⟩ := h member mem
    exact ⟨other, List.mem_of_find?_eq_some found, found, same⟩
  intro other mem
  obtain ⟨member, member_mem, found, same⟩ :=
    exists_of_partners rel (Nat.le_of_eq len.symm) apart partner other mem
  refine ⟨member, ?_, same⟩
  rw [findMember?_name found]
  exact findMember?_of_mem distinct member_mem

theorem eqv_symm {a b : Ty} (tidy : a.Tidy) (hab : a.eqv b = true) : b.eqv a = true := by
  induction a using induction_on_parts generalizing b with
  | step a ih =>
    have back {x y : Ty} (mem : x ∈ a.parts) (same : x.eqv y = true) : y.eqv x = true :=
      ih x mem (tidy.part mem) same
    have listed {as bs : List Ty} (within : as ⊆ a.parts)
        (h : ∀ pair ∈ as.zip bs, pair.1.eqv pair.2 = true) :
        ∀ pair ∈ bs.zip as, pair.1.eqv pair.2 = true := by
      rintro ⟨y, x⟩ mem
      have mem' := mem_zip_comm mem
      exact back (within (List.of_mem_zip mem').1) (h _ mem')
    rw [eqv_iff]
    cases eqv_iff.mp hab with
    | refl childless => exact .refl childless
    | function len h result =>
      exact .function len.symm (listed (List.subset_cons_self _ _) h)
        (back List.mem_cons_self result)
    | named name => exact .named _ _ _ _ _
    | record len h =>
      refine .record len.symm fun other mem => ?_
      obtain ⟨member, found, same⟩ := exists_eqv_member tidy.names_nodup len h other mem
      exact ⟨member, found, back (List.mem_map_of_mem (List.mem_of_find?_eq_some found)) same⟩
    | @union alts alts' len h =>
      -- two alternatives with an equal one in common are equal themselves
      have apart : alts.Pairwise fun x y => ∀ other, x.eqv other = true → ¬ y.eqv other = true := by
        refine tidy.alternatives_pairwise.imp_of_mem fun {x y} _ hy differ other hx hother => ?_
        rw [eqv_trans hx (back hy hother)] at differ
        cases differ
      refine .union len.symm fun other mem => ?_
      obtain ⟨alt, alt_mem, same⟩ :=
        exists_of_partners _ (Nat.le_of_eq len.symm) apart h other mem
      exact ⟨alt, alt_mem, back alt_mem same⟩
    | aliasRef len h => exact .aliasRef len.symm (listed (List.Subset.refl _) h)
    | array h => exact .array (back (List.mem_singleton_self _) h)
    | tuple len h => exact .tuple len.symm (listed (List.Subset.refl _) h)

theorem eqv_refl {a : Ty} (tidy : a.Tidy) : a.eqv a = true := by
  induction a using induction_on_parts with
  | step a ih =>
    have same {part : Ty} (mem : part ∈ a.parts) : part.eqv part = true :=
      ih part mem (tidy.part mem)
    have listed {parts : List Ty} (within : parts ⊆ a.parts) :
        ∀ pair ∈ parts.zip parts, pair.1.eqv pair.2 = true := by
      rintro ⟨x, y⟩ mem
      obtain ⟨i, hi, at_i⟩ := List.mem_iff_getElem.mp mem
      rw [List.getElem_zip, Prod.mk.injEq] at at_i
      obtain ⟨rfl, rfl⟩ := at_i
      exact same (within (List.getElem_mem _))
    rw [eqv_iff]
    cases a with
    | function params ret variadic generics =>
      exact .function rfl (listed (List.subset_cons_self _ _)) (same List.mem_cons_self)
    | named name supers members => exact .named _ _ _ _ _
    | record supers members =>
      refine .record rfl fun member mem => ?_
      exact ⟨member, findMember?_of_mem tidy.names_nodup mem, same (List.mem_map_of_mem mem)⟩
    | union alts => exact .union rfl fun alt mem => ⟨alt, mem, same mem⟩
    | aliasRef name args => exact .aliasRef rfl (listed (List.Subset.refl _))
    | array element => exact .array (same (List.mem_singleton_self _))
    | tuple elements => exact .tuple rfl (listed (List.Subset.refl _))
    | _ => exact .refl rfl

/-- No type is equal to two alternatives of a union. -/
theorem Tidy.alternatives_apart {alts : List Ty} (tidy : (Ty.union alts).Tidy) :
    alts.Pairwise fun x y => ∀ other, x.eqv other = true → ¬ y.eqv other = true := by
  refine tidy.alternatives_pairwise.imp_of_mem fun {x y} _ hy differ other hx hother => ?_
  rw [eqv_trans hx (eqv_symm (tidy.part hy) hother)] at differ
  cases differ

end Ty

end LuaTyping
