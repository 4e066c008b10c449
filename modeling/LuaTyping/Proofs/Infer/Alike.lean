import LuaTyping.Infer.Solve
import LuaTyping.Proofs.Subtyping.Congruence

/-!
# Plans that agree as far as they are noted

A rule reads the project directly, between its questions. Two versions of a project give two plans
for the same rule, and these are the same up to the point where something is read in which the
versions differ. If the name behind that reading was noted before, then nothing that is not noted
tells the two apart. `Plan.Alike` says this of two plans: they note the same names, ask the same
questions and give the same answers, but after a name for which the versions may differ they may go
different ways.

Comparing types and expanding references are written for any monad. They carry likeness over from
the look-ups that they are given.
-/

set_option autoImplicit false

namespace LuaTyping

namespace Infer

/-- The two plans are the same, up to what follows a name that is not among `names`. All of their
questions are `valid`. -/
inductive Plan.Alike {κ : Type} (names : String → Prop) (valid : κ → Prop) {α : Type} :
    Plan κ α → Plan κ α → Prop
  | done (answer : α) : Alike names valid (.done answer) (.done answer)
  | note (name : String) {next next' : Plan κ α} (h : names name → Alike names valid next next') :
      Alike names valid (.note name next) (.note name next')
  | ask {question : κ} {next next' : Ty → Plan κ α} (asked : valid question)
      (h : ∀ ty, Alike names valid (next ty) (next' ty)) :
      Alike names valid (.ask question next) (.ask question next')

instance {κ : Type} : LawfulMonad (Plan κ) := by
  refine LawfulMonad.mk' (Plan κ) ?_ (fun _ _ => rfl) ?_
  · intro α plan
    show Plan.bind plan (fun answer => .done (id answer)) = plan
    induction plan with
    | done answer => rfl
    | note name next ih => exact congrArg (Plan.note name) ih
    | ask question next ih => exact congrArg (Plan.ask question) (funext ih)
  · intro α β γ plan f g
    show Plan.bind (Plan.bind plan f) g = Plan.bind plan fun answer => Plan.bind (f answer) g
    induction plan with
    | done answer => rfl
    | note name next ih => exact congrArg (Plan.note name) ih
    | ask question next ih => exact congrArg (Plan.ask question) (funext ih)

namespace Plan.Alike

variable {κ α β : Type} {names : String → Prop} {valid : κ → Prop}

theorem pure (answer : α) : Alike names valid (Pure.pure answer) (Pure.pure answer) := .done answer

theorem bind {p q : Plan κ α} {f g : α → Plan κ β} (h : Alike names valid p q)
    (next : ∀ answer, Alike names valid (f answer) (g answer)) :
    Alike names valid (p >>= f) (q >>= g) := by
  induction h with
  | done answer => exact next answer
  | note name _ ih => exact .note name ih
  | ask asked _ ih => exact .ask asked ih

theorem map {p q : Plan κ α} (h : Alike names valid p q) (f : α → β) :
    Alike names valid (f <$> p) (f <$> q) := by
  rw [map_eq_pure_bind, map_eq_pure_bind]
  exact h.bind fun answer => .done (f answer)

theorem question {asked : κ} (h : valid asked) :
    Alike names valid (Plan.question asked) (Plan.question asked) := .ask h .done

theorem noteName {name : String} {p q : Plan κ α} (h : names name → Alike names valid p q) :
    Alike names valid (do Plan.noteName name; p) (do Plan.noteName name; q) := .note name h

theorem ite {p q p' q' : Plan κ α} (c : Prop) [Decidable c] (yes : c → Alike names valid p q)
    (no : ¬ c → Alike names valid p' q') :
    Alike names valid (if c then p else p') (if c then q else q') := by
  split
  · exact yes ‹_›
  · exact no ‹_›

theorem mapM {γ : Type} {f g : γ → Plan κ α} (xs : List γ)
    (h : ∀ x ∈ xs, Alike names valid (f x) (g x)) : Alike names valid (xs.mapM f) (xs.mapM g) := by
  induction xs with
  | nil => exact .pure []
  | cons x rest ih =>
    rw [List.mapM_cons, List.mapM_cons]
    refine (h x List.mem_cons_self).bind fun a => ?_
    exact (ih fun y mem => h y (List.mem_cons_of_mem x mem)).bind fun as => .pure _

theorem foldlM {γ : Type} {f g : α → γ → Plan κ α} (xs : List γ)
    (h : ∀ a x, x ∈ xs → Alike names valid (f a x) (g a x)) (init : α) :
    Alike names valid (xs.foldlM f init) (xs.foldlM g init) := by
  induction xs generalizing init with
  | nil => exact .pure init
  | cons x rest ih =>
    rw [List.foldlM_cons, List.foldlM_cons]
    refine (h init x List.mem_cons_self).bind fun a => ?_
    exact ih (fun a y mem => h a y (List.mem_cons_of_mem x mem)) a

end Plan.Alike

/-! ## Comparing types -/

section Compare

open Subtyping

variable {κ α β : Type} {names : String → Prop} {valid : κ → Prop}

/-- The two comparisons are alike under every guard. -/
def AlikeUnderGuard (names : String → Prop) (valid : κ → Prop) (x y : CompareM (Plan κ) α) : Prop :=
  ∀ guard, (x guard).Alike names valid (y guard)

namespace AlikeUnderGuard

theorem pure (answer : α) :
    AlikeUnderGuard names valid (Pure.pure answer : CompareM (Plan κ) α) (Pure.pure answer) :=
  fun guard => .done (answer, guard)

theorem bind {x y : CompareM (Plan κ) α} {f g : α → CompareM (Plan κ) β}
    (h : AlikeUnderGuard names valid x y)
    (next : ∀ answer, AlikeUnderGuard names valid (f answer) (g answer)) :
    AlikeUnderGuard names valid (x >>= f) (y >>= g) :=
  fun guard => (h guard).bind fun r => next r.1 r.2

theorem of_state (f : Guard Key → α × Guard Key) :
    AlikeUnderGuard names valid (fun guard => (.done (f guard) : Plan κ _))
      (fun guard => .done (f guard)) :=
  fun guard => .done (f guard)

theorem lift {p q : Plan κ α} (h : p.Alike names valid q) :
    AlikeUnderGuard names valid (liftM p : CompareM (Plan κ) α) (liftM q) :=
  fun guard => h.bind fun answer => .done (answer, guard)

theorem branch {c x y : CompareM (Plan κ) Bool} {c' x' y' : CompareM (Plan κ) Bool}
    (condition : AlikeUnderGuard names valid c c') (yes : AlikeUnderGuard names valid x x')
    (no : AlikeUnderGuard names valid y y') :
    AlikeUnderGuard names valid (do if ← c then x else y) (do if ← c' then x' else y') := by
  refine condition.bind fun answer => ?_
  cases answer with
  | true => exact yes
  | false => exact no

theorem anyM {γ : Type} {f g : γ → CompareM (Plan κ) Bool} (xs : List γ)
    (h : ∀ x, AlikeUnderGuard names valid (f x) (g x)) :
    AlikeUnderGuard names valid (xs.anyM f) (xs.anyM g) := by
  induction xs with
  | nil => exact .pure false
  | cons x rest ih =>
    refine (h x).bind fun answer => ?_
    cases answer with
    | true => exact .pure true
    | false => exact ih

theorem guarded (key : Key) {x y : CompareM (Plan κ) Bool} (h : AlikeUnderGuard names valid x y) :
    AlikeUnderGuard names valid (Subtyping.guarded key x) (Subtyping.guarded key y) := by
  refine bind (of_state fun guard => (guard, guard)) fun guard => ?_
  rcases guard.enter key with ⟨_ | _ | _ | _, after⟩
  · refine bind (of_state fun _ => ((), after)) fun _ => h.bind fun answer => ?_
    exact bind (of_state fun guard => ((), (guard.leave key).2)) fun _ => .pure answer
  · exact bind (of_state fun _ => ((), after)) fun _ => .pure true
  · exact bind (of_state fun _ => ((), after)) fun _ => .pure false
  · exact bind (of_state fun _ => ((), after)) fun _ => .pure false

end AlikeUnderGuard

variable {rules rules' : Rules (Plan κ)}

/-- The two projects look alike to a comparison. -/
structure AlikeRules (names : String → Prop) (valid : κ → Prop) (rules rules' : Rules (Plan κ)) :
    Prop where
  nilStrict : rules'.nilStrict = rules.nilStrict
  supertypes : rules'.resolver.supertypes = rules.resolver.supertypes
  lookupMember : ∀ className member,
    (rules.resolver.lookupMember className member).Alike names valid
      (rules'.resolver.lookupMember className member)

theorem congruence_alike (alike : AlikeRules names valid rules rules') :
    Congruence rules rules' (AlikeUnderGuard names valid) where
  nilStrict := alike.nilStrict
  supertypes := alike.supertypes
  answer := .pure
  branch h hyes hno := .branch h hyes hno
  member className members name _ _ h := by
    refine AlikeUnderGuard.bind (.lift ?_) h
    unfold memberOf
    split
    · exact .pure _
    · exact alike.lookupMember _ name
    · exact .pure none

section Union

variable (alike : AlikeRules names valid rules rules')
include alike

theorem alike_compareWithin (levels : Nat) (a b : Ty) :
    AlikeUnderGuard names valid (compareWithin rules levels a b)
      (compareWithin rules' levels a b) :=
  (congruence_alike alike).compareWithin (.guarded _) levels a b

theorem alike_compare (a b : Ty) :
    AlikeUnderGuard names valid (compare rules a b) (compare rules' a b) :=
  .bind (.of_state fun guard => (guard, guard)) fun _ => alike_compareWithin alike _ a b

theorem alike_covered (kept later : List Ty) (ty : Ty) :
    AlikeUnderGuard names valid (Union.covered rules kept later ty)
      (Union.covered rules' kept later ty) := by
  refine .branch (.anyM _ fun other => alike_compare alike ty other) (.pure true) ?_
  refine .anyM _ fun other => ?_
  refine .branch (alike_compare alike ty other) ?_ (.pure false)
  exact (alike_compare alike other ty).bind fun answer => .pure !answer

theorem alike_collapse (kept tys : List Ty) :
    AlikeUnderGuard names valid (Union.collapse rules kept tys)
      (Union.collapse rules' kept tys) := by
  induction tys generalizing kept with
  | nil => exact .pure kept
  | cons ty later ih =>
    refine (alike_covered alike kept later ty).bind fun answer => ?_
    cases answer with
    | true => exact ih kept
    | false => exact ih (kept ++ [ty])

end Union

/-- A union over the classes of a project reads the project through its look-ups only. -/
theorem alike_unionWith {resolver resolver' : Resolver (Plan κ)}
    (supertypes : resolver'.supertypes = resolver.supertypes)
    (lookupMember : ∀ className member, (resolver.lookupMember className member).Alike names valid
      (resolver'.lookupMember className member)) (tys : List Ty) :
    (Ty.unionWith resolver tys).Alike names valid (Ty.unionWith resolver' tys) := by
  have alike : AlikeRules names valid ⟨resolver, true⟩ ⟨resolver', true⟩ :=
    ⟨rfl, supertypes, lookupMember⟩
  unfold Ty.unionWith
  split
  · exact .pure _
  · exact .pure _
  · refine Plan.Alike.bind ?_ fun kept => .pure _
    exact (alike_collapse alike [] _ freshGuard).map Prod.fst

end Compare

/-! ## Expanding references -/

section Expand

variable {κ : Type} {names : String → Prop} {valid : κ → Prop}
  {expand expand' : String → Plan κ (List Ty) → Plan κ Ty}
  (alike : ∀ name args args', args.Alike names valid args' →
    (expand name args).Alike names valid (expand' name args'))

theorem alike_expandRefsListM {tys : List Ty}
    (each : ∀ ty ∈ tys, (ty.expandRefsM expand).Alike names valid (ty.expandRefsM expand')) :
    (Ty.expandRefsListM expand tys).Alike names valid (Ty.expandRefsListM expand' tys) := by
  induction tys with
  | nil => exact .pure _
  | cons ty rest ih =>
    obtain ⟨first, others⟩ := List.forall_mem_cons.mp each
    exact .bind first fun _ => .bind (ih others) fun _ => .pure _

theorem alike_expandRefsMembersM {members : List (Member Ty)}
    (each : ∀ ty ∈ members.map (·.ty),
      (ty.expandRefsM expand).Alike names valid (ty.expandRefsM expand')) :
    (Ty.expandRefsMembersM expand members).Alike names valid
      (Ty.expandRefsMembersM expand' members) := by
  induction members with
  | nil => exact .pure _
  | cons member rest ih =>
    obtain ⟨first, others⟩ := List.forall_mem_cons.mp each
    exact .bind first fun _ => .bind (ih others) fun _ => .pure _

theorem alike_expandArgsM {tys : List Ty}
    (each : ∀ ty ∈ tys, (ty.expandRefsM expand).Alike names valid (ty.expandRefsM expand')) :
    (Ty.expandArgsM expand tys).Alike names valid (Ty.expandArgsM expand' tys) := by
  induction tys with
  | nil => exact .pure _
  | cons ty rest ih =>
    obtain ⟨first, others⟩ := List.forall_mem_cons.mp each
    rw [Ty.expandArgsM, Ty.expandArgsM]
    split
    · exact .bind first fun _ => .bind (ih others) fun _ => .pure _
    · exact .bind (.pure ty) fun _ => .bind (ih others) fun _ => .pure _

include alike

theorem alike_expandRefsM (ty : Ty) :
    (ty.expandRefsM expand).Alike names valid (ty.expandRefsM expand') := by
  induction ty using Ty.induction_on_parts with
  | step ty ih =>
    cases ty with
    | function params ret variadic generics =>
      obtain ⟨returned, given⟩ := List.forall_mem_cons.mp ih
      exact .bind (alike_expandRefsListM given) fun _ => .bind returned fun _ => .pure _
    | named | record => exact .bind (alike_expandRefsMembersM ih) fun _ => .pure _
    | union | tuple => exact .bind (alike_expandRefsListM ih) fun _ => .pure _
    | aliasRef name args => exact alike name _ _ (alike_expandArgsM ih)
    | array element => exact .bind (ih element List.mem_cons_self) fun _ => .pure _
    | _ => exact .pure _

theorem alike_expandM (ty : Ty) : (ty.expandM expand).Alike names valid (ty.expandM expand') :=
  .ite _ (fun _ => alike_expandRefsM alike ty) fun _ => .pure ty

end Expand

end Infer

end LuaTyping
