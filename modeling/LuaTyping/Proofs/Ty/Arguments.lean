import LuaTyping.Proofs.Ty.Resolved

/-!
# Names and arguments of references

A reference names an alias and gives it arguments. Which names occur in a type is what decides which
aliases have to be looked up, and rebuilding a type brings no name in. The arguments go to the
parameters by position, all at once: `instantiate_ofArgs` says which type each parameter becomes.
-/

set_option autoImplicit false

namespace LuaTyping

namespace Ty

/-! ## Names -/

/-- Whether a reference to `name` occurs anywhere in the type. -/
def mentions (name : String) (ty : Ty) : Bool :=
  ty.anyNode fun
    | .aliasRef other _ => other == name
    | _ => false

/-- Every name that occurs in the type is allowed. -/
def MentionsOnly (allowed : String → Prop) (ty : Ty) : Prop :=
  ∀ name, ty.mentions name = true → allowed name

theorem mentionsOnly_iff {allowed : String → Prop} {ty : Ty} :
    ty.MentionsOnly allowed ↔ (∀ name args, ty = .aliasRef name args → allowed name) ∧
      ∀ part ∈ ty.parts, part.MentionsOnly allowed := by
  have here (name : String) : ty.mentions name = true ↔
      (∃ args, ty = .aliasRef name args) ∨ ∃ part ∈ ty.parts, part.mentions name = true := by
    rw [mentions, anyNode_eq, Bool.or_eq_true, List.any_eq_true]
    refine or_congr_left ?_
    cases ty <;> simp
  constructor
  · refine fun h => ⟨fun name args same => h name ((here name).mpr (.inl ⟨args, same⟩)), ?_⟩
    exact fun part mem name inside => h name ((here name).mpr (.inr ⟨part, mem, inside⟩))
  · rintro ⟨outer, inner⟩ name occurs
    rcases (here name).mp occurs with ⟨args, same⟩ | ⟨part, mem, inside⟩
    · exact outer name args same
    · exact inner part mem name inside

theorem MentionsOnly.part {allowed : String → Prop} {ty part : Ty} (h : ty.MentionsOnly allowed)
    (mem : part ∈ ty.parts) : part.MentionsOnly allowed :=
  (mentionsOnly_iff.mp h).2 part mem

theorem Resolved.mentionsOnly {allowed : String → Prop} {ty : Ty} (h : ty.Resolved) :
    ty.MentionsOnly allowed := by
  induction ty using induction_on_parts with
  | step ty ih =>
    obtain ⟨none, parts⟩ := (resolved_iff ty).mp h
    refine mentionsOnly_iff.mpr ⟨fun name args same => absurd same (none name args), ?_⟩
    exact fun part mem => ih part mem (parts part mem)

/-- Rebuilding a type brings no name in. -/
theorem rebuilds_mentionsOnly (allowed : String → Prop) : Rebuilds (MentionsOnly allowed) where
  part h mem := h.part mem
  unknown := resolved_unknown.mentionsOnly
  string := resolved_string.mentionsOnly
  function _ _ params ret :=
    mentionsOnly_iff.mpr ⟨nofun, List.forall_mem_cons.mpr ⟨ret, params⟩⟩
  named _ _ members := mentionsOnly_iff.mpr ⟨nofun, List.forall_mem_map.mpr members⟩
  record _ _ members := mentionsOnly_iff.mpr ⟨nofun, List.forall_mem_map.mpr members⟩
  aliasRef h args := by
    refine mentionsOnly_iff.mpr ⟨?_, args⟩
    rintro _ _ ⟨⟩
    exact (mentionsOnly_iff.mp h).1 _ _ rfl
  array h := mentionsOnly_iff.mpr ⟨nofun, List.forall_mem_singleton.mpr h⟩
  tuple h := mentionsOnly_iff.mpr ⟨nofun, h⟩
  collapsed {tys kept} h only _ := by
    have each : ∀ ty ∈ kept, ty.MentionsOnly allowed := by
      intro ty mem
      obtain ⟨source, source_mem, mem⟩ := Union.mem_flatten (Union.mem_dropUnknown (only.mem mem))
      have hsource := h source source_mem
      cases source with
      | union alts => exact hsource.part mem
      | _ => exact List.mem_singleton.mp mem ▸ hsource
    unfold Union.ofAlternatives
    split
    · exact each _ List.mem_cons_self
    · exact mentionsOnly_iff.mpr ⟨nofun, each⟩

end Ty

/-! ## Arguments -/

namespace Bindings

theorem get?_insert (bindings : Bindings) (name other : String) (ty : Ty) :
    (bindings.insert name ty).get? other
      = if other == name then some ty else bindings.get? other := by
  have placed (entries : List (String × Ty)) : (place name ty entries).lookup other
      = if other == name then some ty else entries.lookup other := by
    induction entries with
    | nil => rw [place, List.lookup_cons, List.lookup_nil]; split <;> simp_all
    | cons entry rest ih =>
      obtain ⟨first, bound⟩ := entry
      rw [place]
      split
      · rename_i same
        rw [List.lookup_cons, List.lookup_cons, eq_of_beq same]
        split <;> simp_all
      · split
        · rw [List.lookup_cons]
          split <;> simp_all
        · rename_i differ _
          rw [List.lookup_cons, List.lookup_cons, ih]
          cases found : other == first with
          | true => simp_all
          | false => rfl
  exact placed bindings.entries

/-- The argument in the place of a parameter, or unknown where the arguments have come to an end. Of
two parameters with one name the later one counts. -/
def argumentOf : (params : List String) → (args : List Ty) → (name : String) → Option Ty
  | [], _, _ => none
  | param :: params, args, name =>
    (argumentOf params args.tail name).or
      (if name == param then some (args.headD .unknown) else none)

theorem get?_ofArgs (params : List String) (args : List Ty) (name : String) :
    (ofArgs params args).get? name = argumentOf params args name := by
  have from_bindings (bindings : Bindings) :
      (bindings.insertAll (params.zip
          (args ++ List.replicate (params.length - args.length) .unknown))).get? name
        = (argumentOf params args name).or (bindings.get? name) := by
    induction params generalizing args bindings with
    | nil => rfl
    | cons param params ih =>
      have padded : args ++ List.replicate ((param :: params).length - args.length) Ty.unknown
          = args.headD .unknown
            :: (args.tail ++ List.replicate (params.length - args.tail.length) .unknown) := by
        cases args with
        | nil => simp [List.replicate_succ]
        | cons arg args => simp
      rw [padded, List.zip_cons_cons, insertAll, List.foldl_cons, ← insertAll, ih, get?_insert,
        argumentOf, Option.or_assoc]
      congr 1
      split <;> rfl
  exact (from_bindings empty).trans (Option.or_none ..)

/-- Parameters without arguments are bound, too, so only an alias without parameters binds none. -/
theorem isEmpty_ofArgs (params : List String) (args : List Ty) :
    (ofArgs params args).isEmpty = params.isEmpty := by
  cases params with
  | nil => rfl
  | cons param params =>
    have bound : ((ofArgs (param :: params) args).get? param).isSome := by
      rw [get?_ofArgs, argumentOf]
      simp
    rw [isEmpty]
    cases entries : (ofArgs (param :: params) args).entries with
    | nil => simp [get?, entries] at bound
    | cons => rfl

theorem argumentOf_good {good : Ty → Prop} (unknown : good .unknown) {params : List String}
    {args : List Ty} (each : ∀ arg ∈ args, good arg) {name : String} {ty : Ty}
    (found : argumentOf params args name = some ty) : good ty := by
  induction params generalizing args with
  | nil => cases found
  | cons param params ih =>
    rw [argumentOf, Option.or_eq_some_iff] at found
    rcases found with later | ⟨-, here⟩
    · exact ih (fun arg mem => each arg (List.mem_of_mem_tail mem)) later
    · split at here
      · cases here
        cases args with
        | nil => exact unknown
        | cons arg args => exact each arg List.mem_cons_self
      · cases here

end Bindings

/-- The type with parameters replaced by arguments, all at once: what is put in is not looked at
again. -/
def Ty.fillIn (params : List String) (args : List Ty) (ty : Ty) : Ty :=
  if params.isEmpty then ty
  else
    ty.replace fun
      | .generic name => Bindings.argumentOf params args name
      | _ => none

theorem Ty.instantiate_ofArgs (params : List String) (args : List Ty) (ty : Ty) :
    ty.instantiate (.ofArgs params args) = ty.fillIn params args := by
  rw [instantiate, fillIn, Bindings.isEmpty_ofArgs]
  refine if_congr Iff.rfl rfl (congrArg (ty.replace ·) (funext fun node => ?_))
  cases node with
  | generic name => exact Bindings.get?_ofArgs params args name
  | _ => rfl

theorem Ty.Rebuilds.fillIn {good : Ty → Prop} (rebuilds : Rebuilds good) {ty : Ty} (h : good ty)
    (params : List String) {args : List Ty} (each : ∀ arg ∈ args, good arg) :
    good (ty.fillIn params args) := by
  unfold Ty.fillIn
  split
  · exact h
  · refine rebuilds.replace h fun node put hput => ?_
    split at hput
    · exact Bindings.argumentOf_good rebuilds.unknown each hput
    · cases hput

end LuaTyping
