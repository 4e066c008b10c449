import LuaTyping.Proofs.Ty.Maximal
import Mathlib.Logic.Relation

/-!
# What becomes of the alternatives of a union

A union drops an alternative because of another one, and that one may be dropped in its turn. What
was dropped is still accounted for: from every alternative a chain of comparisons leads to one that
stays, each of them made on the way and answered with yes. It ends because a type kept before stays
for good, and otherwise the chain moves on to a later type.

Nothing is assumed of the comparisons. They may run out of attempts, and the look-up of members may
answer differently each time, so it does not do to say that one type is below the next: the chain is
made of answers that were given. To speak of them, collapsing is carried out with any test in place
of the comparison, and the test is then made to note its answers (`noting`). Dropping the notes
gives the plain run back.
-/

set_option autoImplicit false

namespace LuaTyping

open Ty Subtyping

namespace Union

/-! ## Collapsing with any test -/

section Test

variable {n : Type → Type} [Monad n] (test : Ty → Ty → n Bool)

/-- `covered`, with a test in place of the comparison. -/
def coveredBy (kept later : List Ty) (ty : Ty) : n Bool := do
  if ← kept.anyM fun other => test ty other then pure true
  else
    later.anyM fun other => do
      if ← test ty other then pure !(← test other ty) else pure false

/-- `collapse`, with a test in place of the comparison. -/
def collapseBy (kept : List Ty) : List Ty → n (List Ty)
  | [] => pure kept
  | ty :: later => do
    if ← coveredBy test kept later ty then collapseBy kept later
    else collapseBy (kept ++ [ty]) later

end Test

theorem collapseBy_compare {m : Type → Type} [Monad m] (rules : Rules m) (kept tys : List Ty) :
    collapseBy (compare rules) kept tys = collapse rules kept tys := by
  induction tys generalizing kept with
  | nil => rfl
  | cons ty later ih =>
    rw [collapseBy, collapse, ih, ih]
    rfl

/-! ## Noting the answers -/

/-- A comparison that was made, and whether the first type was found to be below the second. -/
structure Answer where
  lower : Ty
  upper : Ty
  holds : Bool

/-- The test, with each answer noted after the earlier ones. -/
def noting {n : Type → Type} [Monad n] (test : Ty → Ty → n Bool) (a b : Ty) :
    StateT (List Answer) n Bool := fun answers => do
  let holds ← test a b
  pure (holds, answers ++ [⟨a, b, holds⟩])

/-- The union of the types, and the comparisons made for it in order. -/
def unionNoting {m : Type → Type} [Monad m] (resolver : Resolver m) (tys : List Ty) :
    m (Ty × List Answer) :=
  match dropUnknown (flatten tys) with
  | [] => pure (.unknown, [])
  | [ty] => pure (ty, [])
  | flat => do
    let (kept, answers) ←
      ((collapseBy (noting (compare ⟨resolver, true⟩)) [] flat).run []).run' freshGuard
    pure (ofAlternatives kept, answers)

/-- Without its notes, the first computation is the second. -/
def Erases {n : Type → Type} [Monad n] {α : Type} (noted : StateT (List Answer) n α) (plain : n α) :
    Prop :=
  ∀ answers, Prod.fst <$> noted.run answers = plain

section Erases

variable {n : Type → Type} [Monad n] [LawfulMonad n] {test : Ty → Ty → n Bool}

theorem Erases.pure {α : Type} (a : α) : Erases (n := n) (Pure.pure a) (Pure.pure a) := by
  intro answers
  rw [StateT.run_pure, map_pure]

theorem Erases.bind {α β : Type} {noted : StateT (List Answer) n α} {plain : n α}
    {next : α → StateT (List Answer) n β} {next' : α → n β} (h : Erases noted plain)
    (later : ∀ a, Erases (next a) (next' a)) : Erases (noted >>= next) (plain >>= next') := by
  intro answers
  rw [StateT.run_bind, map_bind, ← h answers, bind_map_left]
  exact bind_congr fun a => later a.1 a.2

theorem Erases.branch {noted yes no : StateT (List Answer) n Bool} {plain yes' no' : n Bool}
    (h : Erases noted plain) (hyes : Erases yes yes') (hno : Erases no no') :
    Erases (do if ← noted then yes else no) (do if ← plain then yes' else no') := by
  refine h.bind fun answer => ?_
  cases answer with
  | true => exact hyes
  | false => exact hno

theorem Erases.anyM {noted : Ty → StateT (List Answer) n Bool} {plain : Ty → n Bool} (tys : List Ty)
    (each : ∀ ty, Erases (noted ty) (plain ty)) : Erases (tys.anyM noted) (tys.anyM plain) := by
  induction tys with
  | nil => exact .pure false
  | cons ty rest ih =>
    refine (each ty).bind fun answer => ?_
    cases answer with
    | true => exact .pure true
    | false => exact ih

theorem erases_noting (a b : Ty) : Erases (noting test a b) (test a b) := by
  intro answers
  simp [StateT.run, noting]

theorem erases_collapseBy (kept tys : List Ty) :
    Erases (collapseBy (noting test) kept tys) (collapseBy test kept tys) := by
  induction tys generalizing kept with
  | nil => exact .pure kept
  | cons ty later ih =>
    have covered : Erases (coveredBy (noting test) kept later ty)
        (coveredBy test kept later ty) := by
      refine .branch (.anyM kept fun other => erases_noting ty other) (.pure true) ?_
      refine .anyM later fun other => .branch (erases_noting ty other) ?_ (.pure false)
      exact (erases_noting other ty).bind fun answer => .pure _
    refine covered.bind fun answer => ?_
    cases answer with
    | true => exact ih kept
    | false => exact ih (kept ++ [ty])

theorem erases_unionNoting {m : Type → Type} [Monad m] [LawfulMonad m] (resolver : Resolver m)
    (tys : List Ty) : Prod.fst <$> unionNoting resolver tys = unionWith resolver tys := by
  unfold unionNoting unionWith
  generalize dropUnknown (flatten tys) = flat
  match flat with
  | [] | [_] => exact map_pure _ _
  | first :: second :: rest =>
    have plain := @erases_collapseBy (CompareM m) _ _ (compare ⟨resolver, true⟩) []
      (first :: second :: rest)
    simp only [← collapseBy_compare, ← plain []]
    simp [StateT.run'_eq]

end Erases

/-! ## Chains of answers -/

/-- A chain of comparisons between the given types leads from the first type to the second, and all
were answered with yes. -/
def Linked (tys : List Ty) (answers : List Answer) : Ty → Ty → Prop :=
  Relation.ReflTransGen fun a b => a ∈ tys ∧ b ∈ tys ∧ ⟨a, b, true⟩ ∈ answers

theorem Linked.mono {tys tys' : List Ty} {answers answers' : List Answer} {a b : Ty}
    (linked : Linked tys answers a b) (sub : tys ⊆ tys') (more : answers ⊆ answers') :
    Linked tys' answers' a b :=
  Relation.ReflTransGen.mono (fun _ _ ⟨ha, hb, yes⟩ => ⟨sub ha, sub hb, more yes⟩) _ _ linked

section Ensures

variable {m : Type → Type} [Monad m] {holds : {α : Type} → (α → Prop) → m α → Prop}

/-- Whatever was noted before, and whatever the guard, the computation only adds to the notes, and
its result agrees with them. -/
def Ensures (holds : {α : Type} → (α → Prop) → m α → Prop) {α : Type}
    (run : StateT (List Answer) (CompareM m) α) (good : α → List Answer → Prop) : Prop :=
  ∀ answers guard,
    holds (fun out => answers ⊆ out.1.2 ∧ good out.1.1 out.1.2) (run answers guard)

variable (follows : Follows m holds)
include follows

theorem Ensures.pure {α : Type} {good : α → List Answer → Prop} {a : α}
    (h : ∀ answers, good a answers) : Ensures holds (Pure.pure a) good :=
  fun answers _ => follows.pure ⟨List.Subset.refl answers, h answers⟩

/-- What the first computation has noted is still there after the second. -/
theorem Ensures.bind {α β : Type} {run : StateT (List Answer) (CompareM m) α}
    {next : α → StateT (List Answer) (CompareM m) β} {good : α → List Answer → Prop}
    {good' : β → List Answer → Prop} (first : Ensures holds run good)
    (grows : ∀ a answers more, answers ⊆ more → good a answers → good a more)
    (later : ∀ a, Ensures holds (next a) fun b answers => good a answers → good' b answers) :
    Ensures holds (run >>= next) good' := by
  intro answers guard
  refine follows.bind (first answers guard) ?_
  rintro ⟨⟨a, between⟩, guard⟩ ⟨added, is_good⟩
  refine follows.weaken (later a between guard) ?_
  rintro ⟨⟨b, after⟩, guard⟩ ⟨added', good_if⟩
  exact ⟨List.Subset.trans added added', good_if (grows a _ _ added' is_good)⟩

variable {test : Ty → Ty → CompareM m Bool}

theorem Ensures.weaken {α : Type} {run : StateT (List Answer) (CompareM m) α}
    {good good' : α → List Answer → Prop} (h : Ensures holds run good)
    (imp : ∀ a answers, good a answers → good' a answers) : Ensures holds run good' :=
  fun answers guard => follows.weaken (h answers guard) fun _ ⟨added, is_good⟩ =>
    ⟨added, imp _ _ is_good⟩

theorem ensures_noting (a b : Ty) :
    Ensures holds (noting test a b) fun answer answers => ⟨a, b, answer⟩ ∈ answers := by
  intro answers guard
  refine follows.bind (follows.any (test a b guard)) fun ⟨answer, guard⟩ _ => ?_
  exact follows.pure ⟨List.subset_append_left _ _, List.mem_append_right _ List.mem_cons_self⟩

/-- A test that says yes of one of the types has noted that one is below another. -/
theorem Ensures.anyM {tester : Ty → StateT (List Answer) (CompareM m) Bool} {ty : Ty}
    (others : List Ty) (each : ∀ other, Ensures holds (tester other) fun answer answers =>
      answer = true → ⟨ty, other, true⟩ ∈ answers) :
    Ensures holds (others.anyM tester) fun answer answers =>
      answer = true → ∃ other ∈ others, ⟨ty, other, true⟩ ∈ answers := by
  induction others with
  | nil => exact .pure follows fun _ => nofun
  | cons other rest ih =>
    refine (each other).bind follows (fun _ _ _ more noted yes => more (noted yes)) ?_
    rintro (_ | _)
    · refine ih.weaken follows fun _ _ imp _ yes => ?_
      obtain ⟨found, mem, noted⟩ := imp yes
      exact ⟨found, List.mem_cons_of_mem other mem, noted⟩
    · exact .pure follows fun _ noted _ => ⟨other, List.mem_cons_self, noted rfl⟩

/-- A type that is covered was found to be below another one. -/
theorem ensures_coveredBy (kept later : List Ty) (ty : Ty) :
    Ensures holds (coveredBy (noting test) kept later ty) fun answer answers =>
      answer = true → ∃ other ∈ kept ++ later, ⟨ty, other, true⟩ ∈ answers := by
  have before := Ensures.anyM follows kept fun other =>
    (@ensures_noting m _ holds follows test ty other).weaken follows
      fun _ _ noted yes => yes ▸ noted
  have strictly (other : Ty) : Ensures holds (do
        if ← noting test ty other then pure !(← noting test other ty) else pure false)
      fun answer answers => answer = true → ⟨ty, other, true⟩ ∈ answers := by
    refine (ensures_noting follows ty other).bind follows (fun _ _ _ more noted => more noted) ?_
    rintro (_ | _)
    · exact .pure follows fun _ _ => nofun
    · refine (ensures_noting follows other ty).bind follows (fun _ _ _ more noted => more noted) ?_
      exact fun _ => .pure follows fun _ _ noted _ => noted
  refine before.bind follows (fun _ _ _ more imp yes => ?_) ?_
  · obtain ⟨other, mem, noted⟩ := imp yes
    exact ⟨other, mem, more noted⟩
  rintro (_ | _)
  · refine (Ensures.anyM follows later strictly).weaken follows fun _ _ imp _ yes => ?_
    obtain ⟨other, mem, noted⟩ := imp yes
    exact ⟨other, List.mem_append_right kept mem, noted⟩
  · refine .pure follows fun _ imp _ => ?_
    obtain ⟨other, mem, noted⟩ := imp rfl
    exact ⟨other, List.mem_append_left later mem, noted⟩

/-- From every type a chain of answers leads to one that is kept. -/
theorem ensures_collapseBy (kept tys : List Ty) :
    Ensures holds (collapseBy (noting test) kept tys) fun out answers =>
      out ⊆ kept ++ tys ∧ ∀ ty ∈ kept ++ tys, ∃ top ∈ out, Linked (kept ++ tys) answers ty top := by
  induction tys generalizing kept with
  | nil =>
    rw [List.append_nil]
    exact .pure follows fun _ => ⟨List.Subset.refl kept, fun ty mem => ⟨ty, mem, .refl⟩⟩
  | cons ty later ih =>
    refine (ensures_coveredBy follows kept later ty).bind follows ?_ ?_
    · intro _ _ _ more imp yes
      obtain ⟨other, mem, noted⟩ := imp yes
      exact ⟨other, mem, more noted⟩
    rintro (_ | _)
    · refine (ih (kept ++ [ty])).weaken follows fun out answers linked _ => ?_
      rwa [List.append_assoc, List.singleton_append] at linked
    · -- the type is dropped; from what it was found to be below, a chain leads on
      refine (ih kept).weaken follows fun out answers ⟨within, linked⟩ imp => ?_
      obtain ⟨other, other_mem, noted⟩ := imp rfl
      have others : kept ++ later ⊆ kept ++ ty :: later :=
        ((List.sublist_cons_self ty later).append_left kept).subset
      have chain {x : Ty} (mem : x ∈ kept ++ later) :
          ∃ top ∈ out, Linked (kept ++ ty :: later) answers x top := by
        obtain ⟨top, top_mem, chain⟩ := linked x mem
        exact ⟨top, top_mem, chain.mono others (List.Subset.refl _)⟩
      refine ⟨List.Subset.trans within others, fun x mem => ?_⟩
      rcases List.mem_append.mp mem with mem | mem
      · exact chain (List.mem_append_left later mem)
      · rcases List.mem_cons.mp mem with rfl | mem
        · obtain ⟨top, top_mem, rest⟩ := chain other_mem
          have here : x ∈ kept ++ x :: later := List.mem_append_right kept List.mem_cons_self
          exact ⟨top, top_mem, .head ⟨here, others other_mem, noted⟩ rest⟩
        · exact chain (List.mem_append_right kept mem)

/-- Where some alternative is known, chains lead from those that are compared to those that make up
the union. -/
theorem ensures_unionNoting (resolver : Resolver m) {tys : List Ty}
    (proper : ∀ ty ∈ tys, ty.Proper) (some : knownAlternatives tys ≠ []) :
    holds (fun out => out.1.alternatives ⊆ dropUnknown (flatten tys) ∧
        ∀ alt ∈ dropUnknown (flatten tys), ∃ top ∈ out.1.alternatives,
          Linked (dropUnknown (flatten tys)) out.2 alt top)
      (unionNoting resolver tys) := by
  obtain ⟨within, covers⟩ := dropUnknown_flatten proper some
  have definite (alt : Ty) (mem : alt ∈ dropUnknown (flatten tys)) :=
    (proper_of_mem_knownAlternatives proper (within alt mem)).2
  unfold unionNoting
  split
  · rename_i nothing
    obtain ⟨alt, mem⟩ := List.exists_mem_of_ne_nil _ some
    obtain ⟨found, found_mem, -⟩ := covers alt mem
    exact absurd (nothing ▸ found_mem) List.not_mem_nil
  · rename_i ty one
    rw [one] at definite ⊢
    have alone : ty.alternatives = [ty] := alternatives_ofAlternatives definite
    refine follows.pure ⟨alone ▸ List.Subset.refl _, fun alt mem => ?_⟩
    exact ⟨alt, alone ▸ mem, .refl⟩
  · have run := @ensures_collapseBy m _ holds follows (compare ⟨resolver, true⟩) []
      (dropUnknown (flatten tys)) [] freshGuard
    have collapsed : holds (fun out => out.1 ⊆ dropUnknown (flatten tys) ∧
          ∀ alt ∈ dropUnknown (flatten tys), ∃ top ∈ out.1,
            Linked (dropUnknown (flatten tys)) out.2 alt top)
        (((collapseBy (noting (compare ⟨resolver, true⟩)) []
          (dropUnknown (flatten tys))).run []).run' freshGuard) :=
      follows.map run fun _ ⟨_, linked⟩ => linked
    refine follows.bind collapsed ?_
    rintro ⟨kept, answers⟩ ⟨inside, linked⟩
    have parts : (ofAlternatives kept).alternatives = kept :=
      alternatives_ofAlternatives fun alt mem => definite alt (inside mem)
    refine follows.pure ?_
    simp only [parts]
    exact ⟨inside, linked⟩

end Ensures

/-- Every alternative of a union is a known one of the types it is made of, unless none is known;
and from each known alternative a chain of comparisons that were answered with yes leads to one of
the union's. Equal alternatives count as one. -/
theorem unionWith_linked {σ : Type} (resolver : Resolver (StateM σ)) (s : σ) {tys : List Ty}
    (proper : ∀ ty ∈ tys, ty.Proper) :
    let run := (unionNoting resolver tys).run s
    (run.1.1, run.2) = (unionWith resolver tys).run s ∧
    (knownAlternatives tys = [] → run.1.1 = .unknown) ∧
    (knownAlternatives tys ≠ [] → run.1.1.alternatives ⊆ knownAlternatives tys) ∧
    ∀ alt ∈ knownAlternatives tys, ∃ first ∈ knownAlternatives tys, first.eqv alt = true ∧
      ∃ top ∈ run.1.1.alternatives, Linked (knownAlternatives tys) run.1.2 first top := by
  intro run
  have same : (run.1.1, run.2) = (unionWith resolver tys).run s := by
    rw [← erases_unionNoting]
    rfl
  refine ⟨same, fun none => ?_, fun some => ?_, fun alt mem => ?_⟩
  · rw [unionWith_unknown resolver none] at same
    exact congrArg Prod.fst same
  · obtain ⟨within, -⟩ := dropUnknown_flatten proper some
    obtain ⟨inside, -⟩ := ensures_unionNoting (follows_state σ) resolver proper some s
    exact fun alt mem => within alt (inside mem)
  · have some : knownAlternatives tys ≠ [] := List.ne_nil_of_mem mem
    obtain ⟨within, covers⟩ := dropUnknown_flatten proper some
    obtain ⟨-, linked⟩ := ensures_unionNoting (follows_state σ) resolver proper some s
    obtain ⟨first, first_mem, equal⟩ := covers alt mem
    obtain ⟨top, top_mem, chain⟩ := linked first first_mem
    exact ⟨first, within first first_mem, equal, top, top_mem,
      chain.mono within (List.Subset.refl _)⟩

/-- A puppy is dropped for a dog, and the dog for an animal. -/
theorem unionWith_linked_puppy :
    let resolver : Resolver (StateM Nat) :=
      ⟨fun name =>
          if name = "Puppy" then ["Dog"] else if name = "Dog" then ["Animal"] else [],
        fun _ _ => modifyGet fun asked => (none, asked + 1)⟩
    let tys : List Ty := [.classRef "Puppy", .union [.classRef "Dog", .nil], .unknown,
      .classRef "Animal"]
    (∀ ty ∈ tys, ty.Proper) ∧
      eqvList ((unionNoting resolver tys).run 0).1.1.alternatives [.nil, .classRef "Animal"]
        = true ∧
      ∃ first ∈ knownAlternatives tys, first.eqv (.classRef "Puppy") = true ∧
        ∃ top ∈ ((unionNoting resolver tys).run 0).1.1.alternatives,
          Linked (knownAlternatives tys) ((unionNoting resolver tys).run 0).1.2 first top := by
  intro resolver tys
  have proper : ∀ ty ∈ tys, ty.Proper := by decide
  have listed : Ty.classRef "Puppy" ∈ knownAlternatives tys :=
    mem_knownAlternatives.mpr ⟨⟨_, List.mem_cons_self, List.mem_cons_self⟩, rfl⟩
  refine ⟨proper, by decide +kernel, ?_⟩
  exact (unionWith_linked resolver 0 proper).2.2.2 (.classRef "Puppy") listed

end Union

end LuaTyping
