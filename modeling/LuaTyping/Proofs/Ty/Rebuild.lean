import LuaTyping.Proofs.Subtyping.Nesting
import LuaTyping.Ty.Unify

/-!
# Properties that survive rebuilding

The operations on types take a type apart and build it again: replacing and instantiating rebuild
every node around new parts, widening and the removal of `nil` rebuild unions, and binding type
parameters hands out parts of the arguments and unions of them. `Rebuilds` collects what a property
of types needs so that all of these keep it. It is stated for unions in terms of the alternatives
that remain after collapsing, because which ones remain is up to the comparisons; all that is known
is that some of the flattened alternatives do, in order, and never none.

A union is built in a monad, because comparing classes may have to look up members. What is proved
of a union must not depend on the monad; `Follows` lists what the argument needs of one.
-/

set_option autoImplicit false

namespace LuaTyping

/-- Predicates on answers can be followed through the computations of a monad. -/
structure Follows (m : Type → Type) [Monad m] (holds : {α : Type} → (α → Prop) → m α → Prop) :
    Prop where
  pure : ∀ {α : Type} {good : α → Prop} {a : α}, good a → holds good (Pure.pure a)
  bind : ∀ {α β : Type} {good : α → Prop} {good' : β → Prop} {x : m α} {f : α → m β},
    holds good x → (∀ a, good a → holds good' (f a)) → holds good' (x >>= f)
  map : ∀ {α β : Type} {good : α → Prop} {good' : β → Prop} {x : m α} {f : α → β},
    holds good x → (∀ a, good a → good' (f a)) → holds good' (f <$> x)
  weaken : ∀ {α : Type} {good good' : α → Prop} {x : m α},
    holds good x → (∀ a, good a → good' a) → holds good' x
  any : ∀ {α : Type} (x : m α), holds (fun _ => True) x

theorem follows_id : Follows Id fun good x => good x.run where
  pure h := h
  bind h next := next _ h
  map h imp := imp _ h
  weaken h imp := imp _ h
  any _ := trivial

/-- A computation with a state of its own, from whatever state it starts. -/
theorem follows_state (σ : Type) : Follows (StateM σ) fun good x => ∀ s, good (x.run s).1 where
  pure h _ := h
  bind h next s := next _ (h s) _
  map h imp s := imp _ (h s)
  weaken h imp s := imp _ (h s)
  any _ _ := trivial

/-! ## Members -/

theorem mem_putMember {members : List (Member Ty)} {added member : Member Ty}
    (mem : member ∈ putMember members added) : member = added ∨ member ∈ members := by
  induction members with
  | nil => exact .inl (List.mem_singleton.mp mem)
  | cons first rest ih =>
    rw [putMember] at mem
    split at mem
    · exact (List.mem_cons.mp mem).imp_right (List.mem_cons_of_mem first)
    · rcases List.mem_cons.mp mem with rfl | mem
      · exact .inr List.mem_cons_self
      · exact (ih mem).imp_right (List.mem_cons_of_mem first)

/-! ## What is left of a union -/

namespace Union

theorem mem_foldl_pushUnique {tys seen : List Ty} {ty : Ty} (mem : ty ∈ tys.foldl pushUnique seen) :
    ty ∈ seen ∨ ty ∈ tys := by
  induction tys generalizing seen with
  | nil => exact .inl mem
  | cons first rest ih =>
    rcases ih mem with mem | mem
    · rw [pushUnique] at mem
      split at mem
      · exact .inl mem
      · rcases List.mem_append.mp mem with mem | mem
        · exact .inl mem
        · exact .inr (List.mem_singleton.mp mem ▸ List.mem_cons_self)
    · exact .inr (List.mem_cons_of_mem first mem)

theorem mem_flatten {tys : List Ty} {ty : Ty} (mem : ty ∈ flatten tys) :
    ∃ source ∈ tys, ty ∈ source.alternatives :=
  (mem_foldl_pushUnique mem).elim (fun none => absurd none List.not_mem_nil) List.mem_flatMap.mp

theorem mem_dropUnknown {tys : List Ty} {ty : Ty} (mem : ty ∈ dropUnknown tys) : ty ∈ tys := by
  rw [dropUnknown] at mem
  split at mem
  · exact (List.mem_filter.mp mem).1
  · exact mem

variable {m : Type → Type} [Monad m] {holds : {α : Type} → (α → Prop) → m α → Prop}
  (follows : Follows m holds)
include follows

/-- A type is only covered where there is another one. -/
theorem holds_covered (rules : Subtyping.Rules m) (kept later : List Ty) (ty : Ty)
    (guard : Guard Subtyping.Key) :
    holds (fun answer => answer.1 = true → kept ≠ [] ∨ later ≠ [])
      (covered rules kept later ty guard) := by
  by_cases others : kept ≠ [] ∨ later ≠ []
  · exact follows.weaken (follows.any _) fun _ _ _ => others
  · obtain ⟨rfl, rfl⟩ : kept = [] ∧ later = [] := by simpa using others
    have nothing : holds (fun answer : Bool × Guard Subtyping.Key => answer.1 = false)
        (Pure.pure (false, guard)) := follows.pure rfl
    refine follows.bind nothing fun ⟨answer, guard⟩ none => ?_
    cases none
    exact follows.pure nofun

/-- Whatever the comparisons say, collapsing drops some of the types and never all of them. -/
theorem holds_collapse (rules : Subtyping.Rules m) (kept tys : List Ty)
    (guard : Guard Subtyping.Key) :
    holds (fun answer => answer.1.Sublist (kept ++ tys) ∧ (kept ++ tys ≠ [] → answer.1 ≠ []))
      (collapse rules kept tys guard) := by
  induction tys generalizing kept guard with
  | nil =>
    rw [List.append_nil]
    exact follows.pure ⟨List.Sublist.refl kept, id⟩
  | cons first later ih =>
    refine follows.bind (holds_covered follows rules kept later first guard) ?_
    rintro ⟨isCovered, guard⟩ others
    cases isCovered with
    | true =>
      refine follows.weaken (ih kept guard) fun answer ⟨only, left⟩ => ⟨?_, fun _ => left ?_⟩
      · exact only.trans ((List.sublist_cons_self first later).append_left kept)
      · simpa [imp_iff_not_or] using others rfl
    | false =>
      refine follows.weaken (ih (kept ++ [first]) guard) fun answer ⟨only, left⟩ => ?_
      rw [List.append_assoc, List.singleton_append] at only left
      exact ⟨only, left⟩

end Union

/-! ## The property and what it needs -/

namespace Ty

/-- A property of types that passes to parts, and that a type has if it is rebuilt around parts that
have it. -/
structure Rebuilds (good : Ty → Prop) : Prop where
  part : ∀ {ty part : Ty}, good ty → part ∈ ty.parts → good part
  unknown : good .unknown
  string : good .string
  function : ∀ {params : List Ty} {ret : Ty} (variadic : Bool) (generics : List String),
    (∀ param ∈ params, good param) → good ret → good (.function params ret variadic generics)
  named : ∀ {name : String} {supers : List String} {members members' : List (Member Ty)},
    good (.named name supers members) → members'.map (·.name) = members.map (·.name) →
      (∀ member ∈ members', good member.ty) → good (.named name supers members')
  record : ∀ {supers : List String} {members members' : List (Member Ty)},
    good (.record supers members) → members'.map (·.name) = members.map (·.name) →
      (∀ member ∈ members', good member.ty) → good (.record supers members')
  aliasRef : ∀ {name : String} {args args' : List Ty}, good (.aliasRef name args) →
    (∀ arg ∈ args', good arg) → good (.aliasRef name args')
  array : ∀ {element : Ty}, good element → good (.array element)
  tuple : ∀ {elements : List Ty}, (∀ element ∈ elements, good element) → good (.tuple elements)
  /-- What is left when alternatives are dropped, but not all of them. -/
  collapsed : ∀ {tys kept : List Ty}, (∀ ty ∈ tys, good ty) →
    kept.Sublist (Union.dropUnknown (Union.flatten tys)) → kept ≠ [] →
      good (Union.ofAlternatives kept)

namespace Rebuilds

variable {good : Ty → Prop} (rebuilds : Rebuilds good)
include rebuilds

theorem alternatives {ty : Ty} (h : good ty) : ∀ alt ∈ ty.alternatives, good alt := by
  cases ty with
  | union alts => exact fun alt mem => rebuilds.part h mem
  | _ => exact List.forall_mem_singleton.mpr h

theorem members {ty : Ty} {members : List (Member Ty)} (h : good ty)
    (parts : ty.parts = members.map (·.ty)) : ∀ member ∈ members, good member.ty := by
  intro member mem
  exact rebuilds.part h (parts ▸ List.mem_map_of_mem mem)

/-! ## Unions -/

/-- A union has the property if the types it is built from have it, over the classes of whatever
project. -/
theorem holds_unionWith {m : Type → Type} [Monad m]
    {holds : {α : Type} → (α → Prop) → m α → Prop} (follows : Follows m holds)
    (resolver : Resolver m) {tys : List Ty} (h : ∀ ty ∈ tys, good ty) :
    holds good (unionWith resolver tys) := by
  unfold unionWith
  split
  · exact follows.pure rebuilds.unknown
  · rename_i ty one
    have alone : good (Union.ofAlternatives [ty]) :=
      rebuilds.collapsed h (one ▸ List.Sublist.refl [ty]) (List.cons_ne_nil ty [])
    exact follows.pure alone
  · rename_i nonempty _
    refine follows.bind ?_ fun kept collapsed => follows.pure collapsed
    refine follows.map (Union.holds_collapse follows _ [] _ _) fun answer ⟨only, left⟩ => ?_
    exact rebuilds.collapsed h only (left nonempty)

theorem unionOf {tys : List Ty} (h : ∀ ty ∈ tys, good ty) : good (unionOf tys) :=
  rebuilds.holds_unionWith follows_id Resolver.blind h

theorem withoutNil {ty : Ty} (h : good ty) : good ty.withoutNil := by
  cases ty with
  | nil => exact rebuilds.unknown
  | union alts =>
    exact rebuilds.unionOf fun alt mem => rebuilds.part h (List.mem_filter.mp mem).1
  | _ => exact h

omit rebuilds in
theorem widenList {tys : List Ty} (each : ∀ ty ∈ tys, good ty.widen) :
    ∀ ty ∈ Ty.widenList tys, good ty := by
  induction tys with
  | nil => nofun
  | cons ty rest ih =>
    obtain ⟨first, others⟩ := List.forall_mem_cons.mp each
    exact List.forall_mem_cons.mpr ⟨first, ih others⟩

theorem widen {ty : Ty} (h : good ty) : good ty.widen := by
  induction ty using induction_on_parts with
  | step ty ih =>
    cases ty with
    | union alts =>
      exact rebuilds.unionOf (widenList fun alt mem => ih alt mem (rebuilds.part h mem))
    | literal text => exact rebuilds.string
    | _ => exact h

/-! ## Replacing -/

section Replacing

variable {m : Type → Type} [Monad m] {holds : {α : Type} → (α → Prop) → m α → Prop}
  (follows : Follows m holds) {replace? : Ty → m (Option Ty)}
  (puts : ∀ node, holds (fun put => ∀ ty, put = some ty → good ty) (replace? node))
include follows

omit rebuilds in
include puts in
theorem holds_replaceOr {node : Ty} {rebuilt : m Ty} (h : holds good rebuilt) :
    holds good (replaceOr replace? node rebuilt) := by
  refine follows.bind (puts node) fun put given => ?_
  cases put with
  | some ty => exact follows.pure (given ty rfl)
  | none => exact h

omit rebuilds in
theorem holds_replaceListM {tys : List Ty} (each : ∀ ty ∈ tys, holds good (replaceM replace? ty)) :
    holds (fun tys => ∀ ty ∈ tys, good ty) (replaceListM replace? tys) := by
  induction tys with
  | nil => exact follows.pure nofun
  | cons ty rest ih =>
    rw [replaceListM]
    obtain ⟨first, others⟩ := List.forall_mem_cons.mp each
    refine follows.bind first fun ty hty => ?_
    refine follows.bind (ih others) fun tys htys => ?_
    exact follows.pure (List.forall_mem_cons.mpr ⟨hty, htys⟩)

omit rebuilds in
theorem holds_replaceMembersM {members : List (Member Ty)}
    (each : ∀ ty ∈ members.map (·.ty), holds good (replaceM replace? ty)) :
    holds (fun rebuilt => rebuilt.map (·.name) = members.map (·.name) ∧
      ∀ member ∈ rebuilt, good member.ty) (replaceMembersM replace? members) := by
  induction members with
  | nil => exact follows.pure ⟨rfl, nofun⟩
  | cons member rest ih =>
    obtain ⟨name, ty, visibility, deprecated, site⟩ := member
    rw [replaceMembersM]
    obtain ⟨first, others⟩ := List.forall_mem_cons.mp each
    refine follows.bind first fun ty hty => ?_
    refine follows.bind (ih others) fun members ⟨names, hmembers⟩ => ?_
    exact follows.pure ⟨congrArg (name :: ·) names, List.forall_mem_cons.mpr ⟨hty, hmembers⟩⟩

include puts

theorem holds_replaceM {ty : Ty} (h : good ty) : holds good (replaceM replace? ty) := by
  induction ty using induction_on_parts with
  | step ty ih =>
    have each : ∀ part ∈ ty.parts, holds good (replaceM replace? part) :=
      fun part mem => ih part mem (rebuilds.part h mem)
    cases ty with
    | function params ret variadic generics =>
      obtain ⟨returned, given⟩ := List.forall_mem_cons.mp each
      rw [replaceM]
      apply holds_replaceOr follows puts
      refine follows.bind (holds_replaceListM follows given) fun params hparams => ?_
      refine follows.bind returned fun ret hret => ?_
      exact follows.pure (rebuilds.function variadic generics hparams hret)
    | named =>
      rw [replaceM]
      apply holds_replaceOr follows puts
      refine follows.bind (holds_replaceMembersM follows each) fun members ⟨names, hmembers⟩ => ?_
      exact follows.pure (rebuilds.named h names hmembers)
    | record =>
      rw [replaceM]
      apply holds_replaceOr follows puts
      refine follows.bind (holds_replaceMembersM follows each) fun members ⟨names, hmembers⟩ => ?_
      exact follows.pure (rebuilds.record h names hmembers)
    | union =>
      rw [replaceM]
      apply holds_replaceOr follows puts
      refine follows.bind (holds_replaceListM follows each) fun alts halts => ?_
      exact follows.pure (rebuilds.unionOf halts)
    | aliasRef =>
      rw [replaceM]
      apply holds_replaceOr follows puts
      refine follows.bind (holds_replaceListM follows each) fun args hargs => ?_
      exact follows.pure (rebuilds.aliasRef h hargs)
    | array element =>
      rw [replaceM]
      apply holds_replaceOr follows puts
      refine follows.bind (each element List.mem_cons_self) fun element helement => ?_
      exact follows.pure (rebuilds.array helement)
    | tuple =>
      rw [replaceM]
      apply holds_replaceOr follows puts
      refine follows.bind (holds_replaceListM follows each) fun elements helements => ?_
      exact follows.pure (rebuilds.tuple helements)
    | _ => exact holds_replaceOr follows puts (follows.pure h)

end Replacing

theorem replace {ty : Ty} (h : good ty) {replace? : Ty → Option Ty}
    (puts : ∀ node ty, replace? node = some ty → good ty) : good (ty.replace replace?) :=
  rebuilds.holds_replaceM follows_id puts h

theorem eraseGenerics {ty : Ty} (h : good ty) : good ty.eraseGenerics := by
  unfold Ty.eraseGenerics
  split
  · refine rebuilds.replace h fun node put hput => ?_
    split at hput <;> cases hput
    exact rebuilds.unknown
  · exact h

theorem eraseOnly {ty : Ty} (h : good ty) (generics : List String) :
    good (ty.eraseOnly generics) := by
  unfold Ty.eraseOnly
  split
  · exact h
  · refine rebuilds.replace h fun node put hput => ?_
    split at hput
    · split at hput <;> cases hput
      exact rebuilds.unknown
    · cases hput

end Rebuilds

end Ty

/-! ## Bindings -/

namespace Bindings

/-- Every type parameter is bound to a type with the property. -/
def All (good : Ty → Prop) (bindings : Bindings) : Prop := ∀ entry ∈ bindings.entries, good entry.2

theorem mem_place {name : String} {ty : Ty} {entries : List (String × Ty)} {entry : String × Ty}
    (mem : entry ∈ place name ty entries) : entry = (name, ty) ∨ entry ∈ entries := by
  induction entries with
  | nil => exact .inl (List.mem_singleton.mp mem)
  | cons first rest ih =>
    rw [place] at mem
    split at mem
    · exact (List.mem_cons.mp mem).imp_right (List.mem_cons_of_mem first)
    · split at mem
      · exact List.mem_cons.mp mem
      · rcases List.mem_cons.mp mem with rfl | mem
        · exact .inr List.mem_cons_self
        · exact (ih mem).imp_right (List.mem_cons_of_mem first)

variable {good : Ty → Prop} {bindings : Bindings}

theorem All.insert (h : bindings.All good) (name : String) {ty : Ty} (hty : good ty) :
    (bindings.insert name ty).All good := by
  intro entry mem
  rcases mem_place mem with rfl | mem
  · exact hty
  · exact h entry mem

theorem All.get? (h : bindings.All good) {name : String} {ty : Ty}
    (found : bindings.get? name = some ty) : good ty := by
  rw [Bindings.get?, List.lookup_eq_some_iff] at found
  obtain ⟨before, after, hentries, -⟩ := found
  exact h (name, ty) (hentries ▸ List.mem_append_right before List.mem_cons_self)

end Bindings

namespace Ty.Rebuilds

variable {good : Ty → Prop} (rebuilds : Rebuilds good) {bindings : Bindings}
include rebuilds

theorem instantiate {ty : Ty} (h : good ty) (bound : bindings.All good) :
    good (ty.instantiate bindings) := by
  unfold Ty.instantiate
  split
  · exact h
  · refine rebuilds.replace h fun node put hput => ?_
    split at hput
    · exact bound.get? hput
    · cases hput

/-! ## Binding type parameters -/

open Unify

theorem bind (h : bindings.All good) (name : String) {ty : Ty} (hty : good ty) :
    (bind bindings name ty).All good := by
  unfold Unify.bind
  split
  · rename_i bound found
    refine h.insert name (rebuilds.unionOf ?_)
    exact List.forall_mem_cons.mpr ⟨h.get? found, List.forall_mem_singleton.mpr hty⟩
  · exact h.insert name hty

theorem remainder? {params : List Ty} {arg rest : Ty} (h : good arg)
    (hrest : remainder? params arg = some rest) : good rest := by
  unfold Unify.remainder? at hrest
  dsimp only at hrest
  split at hrest
  · cases hrest
  · cases hrest
    exact rebuilds.unionOf fun alt mem => rebuilds.alternatives h alt (List.mem_filter.mp mem).1

section Level

-- one level further in, binding is known to keep to types with the property
variable {generics : List String} {levels : Nat}
  (inner : ∀ (param : Ty) {arg : Ty} {bindings : Bindings}, good arg → bindings.All good →
    (unify generics levels param arg bindings).All good)
include inner
omit rebuilds

theorem unifyList (params : List Ty) {args : List Ty} {bindings : Bindings}
    (hargs : ∀ arg ∈ args, good arg) (h : bindings.All good) :
    (unifyList generics levels params args bindings).All good := by
  induction params generalizing args bindings with
  | nil => exact h
  | cons param params ih =>
    cases args with
    | nil => exact h
    | cons arg args =>
      obtain ⟨first, rest⟩ := List.forall_mem_cons.mp hargs
      exact ih rest (inner param first h)

theorem unifyMembers (members : List (Member Ty)) {others : List (Member Ty)}
    {bindings : Bindings} (hothers : ∀ other ∈ others, good other.ty) (h : bindings.All good) :
    (unifyMembers generics levels members others bindings).All good := by
  induction members generalizing bindings with
  | nil => exact h
  | cons member rest ih =>
    rw [Unify.unifyMembers]
    apply ih
    split
    · rename_i other found
      exact inner member.ty (hothers other (List.mem_of_find?_eq_some found)) h
    · exact h

theorem unifyAlternatives (params : List Ty) {arg : Ty} {bindings : Bindings} (harg : good arg)
    (h : bindings.All good) : (unifyAlternatives generics levels params arg bindings).All good := by
  induction params generalizing bindings with
  | nil => exact h
  | cons param params ih =>
    rw [Unify.unifyAlternatives]
    apply ih
    split
    · exact inner param harg h
    · exact h

theorem unifyEach (param : Ty) {args : List Ty} {bindings : Bindings}
    (hargs : ∀ arg ∈ args, good arg) (h : bindings.All good) :
    (args.foldl (fun bindings arg => unify generics levels param arg bindings)
      bindings).All good := by
  induction args generalizing bindings with
  | nil => exact h
  | cons arg args ih =>
    obtain ⟨first, rest⟩ := List.forall_mem_cons.mp hargs
    exact ih rest (inner param first h)

end Level

/-- Type parameters are bound to types with the property if the arguments have it. -/
theorem unify (generics : List String) (levels : Nat) (param : Ty) {arg : Ty}
    {bindings : Bindings} (harg : good arg) (h : bindings.All good) :
    (unify generics levels param arg bindings).All good := by
  induction levels generalizing param arg bindings with
  | zero =>
    unfold Unify.unify
    exact h
  | succ levels ih =>
    have parts {args : List Ty} (within : args ⊆ arg.parts) : ∀ part ∈ args, good part :=
      fun part mem => rebuilds.part harg (within mem)
    unfold Unify.unify
    dsimp only
    split
    · exact h
    split
    case h_1 =>
      split
      · exact rebuilds.bind h _ harg
      · exact h
    case h_2 => exact ih _ (rebuilds.part harg List.mem_cons_self) h
    case h_3 => exact unifyEach ih _ (parts (List.Subset.refl _)) h
    case h_4 => exact unifyList ih _ (parts (List.Subset.refl _)) h
    case h_5 =>
      refine ih _ (rebuilds.part harg List.mem_cons_self) (unifyList ih _ (parts ?_) h)
      exact List.subset_cons_self _ _
    case h_6 | h_7 => exact unifyMembers ih _ (rebuilds.members harg rfl) h
    case h_8 =>
      split
      · exact unifyList ih _ (parts (List.Subset.refl _)) h
      · exact h
    case h_9 =>
      split
      · rename_i rest hrest
        exact unifyAlternatives ih _ (rebuilds.remainder? harg hrest) h
      · exact h
    case h_10 => exact h

theorem infer (generics : List String) (params : List Ty) {args : List Ty}
    (hargs : ∀ arg ∈ args, good arg) : (Bindings.infer generics params args).All good :=
  unifyList (rebuilds.unify generics _) params hargs nofun

end Ty.Rebuilds

end LuaTyping
