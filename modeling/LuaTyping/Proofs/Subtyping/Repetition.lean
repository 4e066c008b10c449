import LuaTyping.Proofs.Subtyping.Comparison

/-!
# When keys repeat

A finite type is no part of itself, so a comparison of finite types should never meet a pair it is
already comparing. Outlines spoil this: the outline of a record is its size and nothing else, so a
record inside a record can have the outline of the record around it, and a pair that was never
compared is taken to hold.

This is the only way in which it happens. If one of the two types has no record inside a record,
then no pair repeats. Outside records every step to the parts makes a pair lighter, so its outlines
are new. A step into two records passes a pair whose outlines both mention a record, and beyond it
one of the two types is free of records, so that pair cannot come back, and the pairs after it get
lighter again. `Clear` is this invariant.
-/

set_option autoImplicit false

namespace LuaTyping.Ty

open Subtyping

/-! ## Parts that the outline shows -/

theorem weight_part {ty part : Ty} (h : ty.isTransparent = true) (mem : part ∈ ty.parts) :
    part.weight < ty.weight := by
  cases ty with
  | function params ret variadic generics =>
    rw [weight_function]
    rcases List.mem_cons.mp mem with rfl | mem
    · omega
    · have := weight_le_outlines mem
      omega
  | union alts =>
    rw [weight_union]
    exact Nat.lt_succ_of_le (weight_le_outlines mem)
  | aliasRef name args => exact Nat.lt_succ_of_le (weight_le_outlines mem)
  | array element =>
    rw [weight_array, List.mem_singleton.mp mem]
    exact Nat.lt_succ_self _
  | tuple elements =>
    rw [weight_tuple]
    exact Nat.lt_succ_of_le (weight_le_outlines mem)
  | named | record => exact absurd h (by simp [isTransparent])
  | _ => exact absurd mem (by simp [parts])

theorem mentionsRecord_eq (ty : Ty) :
    ty.mentionsRecord
      = (ty.isRecord || (ty.isTransparent && ty.parts.any mentionsRecord)) := by
  have inside (tys : List Ty) :
      Outline.partsMentionRecord (outlines tys) = tys.any mentionsRecord := by
    rw [Outline.partsMentionRecord_eq_any, outlines_eq_map, List.any_map]
    rfl
  cases ty with
  | function params ret variadic generics =>
    rw [mentionsRecord_function, inside]
    rfl
  | union alts =>
    rw [mentionsRecord_union, inside]
    rfl
  | aliasRef name args => exact inside args
  | array element => exact inside [element]
  | tuple elements => exact inside elements
  | _ => rfl

theorem mentionsRecord_part {ty part : Ty} (h : ty.isTransparent = true) (mem : part ∈ ty.parts)
    (hp : part.mentionsRecord = true) : ty.mentionsRecord = true := by
  rw [mentionsRecord_eq, h, Bool.true_and, Bool.or_eq_true, List.any_eq_true]
  exact .inr ⟨part, mem, hp⟩

/-- Only a type that contains a record has an outline that mentions one. -/
theorem mentionsRecord_eq_false (ty : Ty) (h : ty.containsRecord = false) :
    ty.mentionsRecord = false := by
  induction ty using induction_on_parts with
  | step ty ih =>
    have inside : ty.parts.any mentionsRecord = false := by
      rw [List.any_eq_false]
      intro part mem
      simp [ih part mem (anyNode_part mem h)]
    rw [containsRecord, anyNode_eq, Bool.or_eq_false_iff] at h
    simp [mentionsRecord_eq, h.1, inside]

/-! ## Pairs further in -/

/-- The pair `c`, `d` lies further in than the pair `a`, `b`, with no record between them. -/
structure Narrower (c d a b : Ty) : Prop where
  weight : c.weight + d.weight < a.weight + b.weight
  mention : c.mentionsRecord = true → d.mentionsRecord = true →
    a.mentionsRecord = true ∧ b.mentionsRecord = true
  free : a.containsRecord = false ∨ b.containsRecord = false →
    c.containsRecord = false ∨ d.containsRecord = false
  flat : a.nestsRecords = false ∨ b.nestsRecords = false →
    c.nestsRecords = false ∨ d.nestsRecords = false

theorem Narrower.symm {c d a b : Ty} (h : Narrower c d a b) : Narrower d c a b :=
  ⟨by have := h.weight; omega, fun hd hc => h.mention hc hd, fun hf => (h.free hf).symm,
    fun hf => (h.flat hf).symm⟩

theorem Narrower.swap {c d a b : Ty} (h : Narrower c d a b) : Narrower d c b a :=
  ⟨by have := h.weight; omega, fun hd hc => (h.mention hc hd).symm,
    fun hf => (h.free hf.symm).symm, fun hf => (h.flat hf.symm).symm⟩

theorem Narrower.left {a b c : Ty} (ha : a.isTransparent = true) (mem : c ∈ a.parts) :
    Narrower c b a b where
  weight := Nat.add_lt_add_right (weight_part ha mem) _
  mention hc hb := ⟨mentionsRecord_part ha mem hc, hb⟩
  free h := h.imp_left (anyNode_part mem)
  flat h := h.imp_left (anyNode_part mem)

theorem Narrower.trans {c d a b x y : Ty} (h : Narrower c d a b) (h' : Narrower a b x y) :
    Narrower c d x y where
  weight := Nat.lt_trans h.weight h'.weight
  mention hc hd := (h.mention hc hd).elim h'.mention
  free hf := h.free (h'.free hf)
  flat hf := h.flat (h'.flat hf)

theorem Narrower.parts {a b c d : Ty} (ha : a.isTransparent = true) (hb : b.isTransparent = true)
    (left : c ∈ a.parts) (right : d ∈ b.parts) : Narrower c d a b :=
  (Narrower.left hb right).swap.trans (Narrower.left ha left)

/-- `nil` weighs no more than any other type and mentions nothing. -/
theorem Narrower.missing {a b d : Ty} (ha : a.isTransparent = true) (right : d ∈ a.parts) :
    Narrower .nil d a b where
  weight := by
    have nil : Ty.nil.weight = 1 := rfl
    have := weight_part ha right
    have := b.weight_pos
    omega
  mention h _ := absurd h (by decide)
  free _ := .inl rfl
  flat _ := .inl rfl

/-! ## No pair repeats -/

/-- No pair of outlines in `seen` is met on the way in from `a` and `b`. -/
inductive Clear (seen : List Key) (a b : Ty) : Prop
  /-- Every pair so far was heavier, and none has left a record behind. -/
  | outside (flat : a.nestsRecords = false ∨ b.nestsRecords = false)
      (heavier : ∀ key ∈ seen, a.weight + b.weight < key.1.weight + key.2.weight)
      (mention : a.mentionsRecord = true → b.mentionsRecord = true →
        ∀ key ∈ seen, key.1.mentionsRecord = true ∧ key.2.mentionsRecord = true)
  /-- Every pair so far has a record on both sides or was heavier; there are no more records on one
  of the sides. -/
  | inside (free : a.containsRecord = false ∨ b.containsRecord = false)
      (passed : ∀ key ∈ seen, (key.1.mentionsRecord = true ∧ key.2.mentionsRecord = true) ∨
        a.weight + b.weight < key.1.weight + key.2.weight)

theorem Clear.not_mem {seen : List Key} {a b : Ty} (h : Clear seen a b) :
    (a.outline, b.outline) ∉ seen := by
  intro mem
  cases h with
  | outside _ heavier _ => exact Nat.lt_irrefl _ (heavier _ mem)
  | inside free passed =>
    rcases passed _ mem with ⟨left, right⟩ | heavier
    -- a pair of records cannot be met again where one side has no record left
    · rcases free with free | free
      · exact absurd left (by simp [show a.outline.mentionsRecord = false from
          mentionsRecord_eq_false a free])
      · exact absurd right (by simp [show b.outline.mentionsRecord = false from
          mentionsRecord_eq_false b free])
    · exact Nat.lt_irrefl _ heavier

theorem Clear.narrow {seen : List Key} {a b c d : Ty} (h : Clear seen a b)
    (narrower : Narrower c d a b) : Clear seen c d := by
  have lighter := narrower.weight
  cases h with
  | outside flat heavier mention =>
    refine .outside (narrower.flat flat) (fun key mem => ?_) (fun hc hd key mem => ?_)
    · exact Nat.lt_trans lighter (heavier key mem)
    · obtain ⟨ha, hb⟩ := narrower.mention hc hd
      exact mention ha hb key mem
  | inside free passed =>
    refine .inside (narrower.free free) fun key mem => ?_
    exact (passed key mem).imp_right (Nat.lt_trans lighter)

/-- The pair itself can be added to what was seen when going further in. -/
theorem Clear.push {seen : List Key} {a b c d : Ty} (h : Clear seen a b)
    (narrower : Narrower c d a b) : Clear ((a.outline, b.outline) :: seen) c d := by
  have lighter : c.weight + d.weight < a.outline.weight + b.outline.weight := narrower.weight
  cases h.narrow narrower with
  | outside flat heavier mention =>
    refine .outside flat (List.forall_mem_cons.mpr ⟨lighter, heavier⟩) fun hc hd => ?_
    exact List.forall_mem_cons.mpr ⟨narrower.mention hc hd, mention hc hd⟩
  | inside free passed =>
    exact .inside free (List.forall_mem_cons.mpr ⟨.inr lighter, passed⟩)

theorem containsRecord_part {ty part : Ty} (record : ty.isRecord = true)
    (flat : ty.nestsRecords = false) (mem : part ∈ ty.parts) : part.containsRecord = false := by
  rw [nestsRecords, anyNode_eq, Bool.or_eq_false_iff, record, Bool.true_and,
    List.any_eq_false] at flat
  simpa using flat.1 part mem

theorem containsRecord_of_isRecord {ty : Ty} (record : ty.isRecord = true) :
    ty.containsRecord = true := by
  rw [containsRecord, anyNode_eq, record, Bool.true_or]

theorem mentionsRecord_of_isRecord {ty : Ty} (record : ty.isRecord = true) :
    ty.mentionsRecord = true := by
  rw [mentionsRecord_eq, record, Bool.true_or]

/-- Going into two records leaves every pair so far behind for good. -/
theorem Clear.members {seen : List Key} {a b c d : Ty} (h : Clear seen a b)
    (ha : a.isRecord = true) (hb : b.isRecord = true) (left : c ∈ a.parts) (right : d ∈ b.parts) :
    Clear ((a.outline, b.outline) :: seen) c d := by
  have ma := mentionsRecord_of_isRecord ha
  have mb := mentionsRecord_of_isRecord hb
  cases h with
  | outside flat _ mention =>
    -- weights say nothing across a record; from here on its absence tells the pairs apart
    refine .inside ?_ (List.forall_mem_cons.mpr ⟨.inl ⟨ma, mb⟩, fun key mem => ?_⟩)
    · exact flat.imp (containsRecord_part ha · left) (containsRecord_part hb · right)
    · exact .inl (mention ma mb key mem)
  | inside free _ =>
    simp [containsRecord_of_isRecord ha, containsRecord_of_isRecord hb] at free

/-- One application of the rules by shape keeps the pairs clear. -/
theorem Clear.partPair {seen : List Key} {a b c d : Ty} (h : Clear seen a b)
    (pair : PartPair a b c d) : Clear ((a.outline, b.outline) :: seen) c d := by
  cases pair with
  | members ha hb left right => exact h.members ha hb left right
  | straight ha hb left right => exact h.push (.parts ha hb left right)
  | crossed ha hb left right => exact h.push (Narrower.parts ha hb right left).symm
  | missing ha hb right => exact h.push (.missing ha right)

/-- Where no pair can repeat, assumptions add nothing. -/
theorem BelowAssuming.toBelow {seen : List Key} {a b : Ty} (h : BelowAssuming seen a b)
    (clear : Clear seen a b) : Below a b := by
  -- by induction on the derivation; the rule for assumed pairs is the one that cannot be used
  induction h with
  | equal h => exact .equal h
  | top a => exact .top a
  | unionLeft _ ih =>
    exact .unionLeft fun alt mem => ih alt mem (clear.narrow (.left rfl mem))
  | unionRight definite mem _ ih =>
    exact .unionRight definite mem (ih (clear.narrow (Narrower.left rfl mem).swap))
  | assumed _ _ mem => exact absurd mem clear.not_mem
  | shape h _ ih =>
    exact .shape (h.mono_parts fun c d pair hp => ih c d hp (clear.partPair pair))

/-! ## What the checker decides -/

/-- On types without named classes, nested less deeply than the guard admits and compared within its
attempts, the checker decides the relation in which a pair with the outlines of a pair around it is
taken to hold. It finds everything that plain structural recursion finds; and if one of the types
has no record inside a record it finds nothing else. -/
theorem isSubtypeOf_iff_structural (a b : Ty) (unnamedLeft : a.containsNamed = false)
    (unnamedRight : b.containsNamed = false)
    (nestedLeft : a.nesting < Profile.subtypeCheck.maxDepth)
    (nestedRight : b.nesting < Profile.subtypeCheck.maxDepth)
    (within : (finalGuard a b).iterations ≤ Profile.subtypeCheck.maxIterations) :
    (a.isSubtypeOf b = true ↔ BelowAssuming [] a b) ∧
    (Below a b → a.isSubtypeOf b = true) ∧
    (a.nestsRecords = false ∨ b.nestsRecords = false →
      (a.isSubtypeOf b = true ↔ Below a b)) := by
  have decided : a.isSubtypeOf b = true ↔ BelowAssuming [] a b :=
    isSubtypeOf_iff_belowAssuming ⟨unnamedLeft, nestedLeft⟩ ⟨unnamedRight, nestedRight⟩ within
  refine ⟨decided, fun h => decided.mpr (h.assuming []), fun flat => ?_⟩
  have clear : Clear [] a b := .outside flat (by simp) (by simp)
  rw [decided]
  exact ⟨fun h => h.toBelow clear, fun h => h.assuming []⟩

theorem isSubtypeOf_iff_structural_record :
    Below (.record [] [.ofTy "x" .number]) (.record [] [.ofTy "x" (.union [.number, .nil])]) := by
  have spec := isSubtypeOf_iff_structural (.record [] [.ofTy "x" .number])
    (.record [] [.ofTy "x" (.union [.number, .nil])]) (by decide) (by decide) (by decide)
    (by decide) (by decide)
  exact (spec.2.2 (.inl (by decide))).mp (by decide)

/-- A table whose only member `x` is a table whose only member `y` has the given type. -/
def wrappedTwice (ty : Ty) : Ty := .record [] [.ofTy "x" (.record [] [.ofTy "y" ty])]

theorem Below.member {name : String} {a b : Ty}
    (h : Below (.record [] [.ofTy name a]) (.record [] [.ofTy name b])) :
    (Ty.record [] [.ofTy name a]).eqv (.record [] [.ofTy name b]) = true ∨ Below a b := by
  cases h with
  | equal h => exact .inl h
  | shape h =>
    cases h with
    | record _ h => exact .inr (h (.ofTy name b) List.mem_cons_self (.ofTy name a) (by
        simp [findMember?, Member.ofTy]))

/-- The checker says yes here without comparing `number` with `string`: the inner tables have the
outlines of the outer ones. -/
theorem isSubtypeOf_wrappedTwice :
    (wrappedTwice .number).isSubtypeOf (wrappedTwice .string) = true ∧
      ¬ Below (wrappedTwice .number) (wrappedTwice .string) := by
  refine ⟨by decide, fun h => ?_⟩
  rcases h.member with h | h
  · exact absurd h (by decide)
  · rcases h.member with h | h
    · exact absurd h (by decide)
    · cases h with
      | equal h => exact absurd h (by decide)
      | shape h => cases h

end LuaTyping.Ty
