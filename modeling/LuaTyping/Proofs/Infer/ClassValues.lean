import LuaTyping.Proofs.Infer.Ground
import LuaTyping.Proofs.Infer.Resolved
import Mathlib.Data.List.Induction

/-!
# Class values show what a lookup finds

There are two ways to the type of a member of a class. It can be looked up by name, in the class and
then in the classes above it; or it is read off the value of the class, which carries the members of
the class itself. For a lookup the declarations of the name are picked out of all members of the
class; for the value all members are grouped by name. In both only the declarations that count most
make up the type, and `filter_groupMembers` says that they are the same ones.

The types of these declarations need not be the same in both ways, for inside the value the class is
being built: a declaration that needs the value of the class is cut short there. Where the rules
determine what the lookup finds, this cannot happen. For if a declaration of a member needed the
value of the class, the value would need the declaration, and the rules would run in a circle. So
the value shows whatever the rules determine for a lookup (`solve_classValue`).
-/

set_option autoImplicit false

namespace LuaTyping.Infer

/-! ## Following plans -/

section Eval

variable {κ α β γ : Type} {answer answer' : κ → Option Ty}

theorem Plan.eval_bind (plan : Plan κ α) (next : α → Plan κ β) :
    (plan >>= next).eval answer
      = (plan.eval answer).bind fun result => (next result).eval answer := by
  induction plan with
  | done result => rfl
  | note name plan ih => exact ih
  | ask question plan ih =>
    show (answer question).bind (fun ty => (plan ty >>= next).eval answer) = _
    rw [Plan.eval, Option.bind_assoc]
    exact congrArg (Option.bind _) (funext ih)

theorem Plan.eval_mapM_cons (f : γ → Plan κ α) (x : γ) (xs : List γ) :
    ((x :: xs).mapM f).eval answer
      = ((f x).eval answer).bind fun a =>
          ((xs.mapM f).eval answer).bind fun as => some (a :: as) := by
  rw [List.mapM_cons, Plan.eval_bind]
  exact congrArg (Option.bind _) (funext fun a => Plan.eval_bind _ _)

theorem Plan.eval_question (asked : κ) : (Plan.question asked).eval answer = answer asked := by
  rw [Plan.question, Plan.eval]
  cases answer asked <;> rfl

/-- All of the plans come to something if going through them does. -/
theorem Plan.exists_eval_of_mapM {f : γ → Plan κ α} {xs : List γ} {as : List α}
    (eval : (xs.mapM f).eval answer = some as) {x : γ} (mem : x ∈ xs) :
    ∃ a, (f x).eval answer = some a := by
  induction xs generalizing as with
  | nil => cases mem
  | cons first rest ih =>
    rw [Plan.eval_mapM_cons] at eval
    obtain ⟨a, here, eval⟩ := Option.bind_eq_some_iff.mp eval
    obtain ⟨as', there, -⟩ := Option.bind_eq_some_iff.mp eval
    rcases List.mem_cons.mp mem with rfl | mem
    · exact ⟨a, here⟩
    · exact ih there mem

theorem Plan.eval_mapM_mono {f : γ → Plan κ α} {xs : List γ}
    (h : ∀ x ∈ xs, ∀ a, (f x).eval answer = some a → (f x).eval answer' = some a) {as : List α}
    (eval : (xs.mapM f).eval answer = some as) : (xs.mapM f).eval answer' = some as := by
  induction xs generalizing as with
  | nil => exact eval
  | cons first rest ih =>
    rw [Plan.eval_mapM_cons] at eval ⊢
    obtain ⟨a, here, eval⟩ := Option.bind_eq_some_iff.mp eval
    obtain ⟨as', there, eval⟩ := Option.bind_eq_some_iff.mp eval
    rw [h first List.mem_cons_self a here, Option.bind_some,
      ih (fun x mem => h x (List.mem_cons_of_mem first mem)) there]
    exact eval

/-- A plan that is given the determined answers, where there are any, gives what it comes to. -/
theorem Plan.yields_eval {ι : Type} (ideal : ι → κ → Option Ty) (plan : Plan κ α) :
    plan.Yields (fun question ty => ∀ i found, ideal i question = some found → ty = found)
      fun result => ∀ i found, plan.eval (ideal i) = some found → result = found := by
  induction plan with
  | done result => exact fun i found eval => Option.some.inj eval
  | note name next ih => exact ih
  | ask question next ih =>
    intro ty answered
    refine (ih ty).weaken fun result determined i found eval => ?_
    obtain ⟨given, asked, rest⟩ := Option.bind_eq_some_iff.mp eval
    rw [← answered i given asked] at rest
    exact determined i found rest

end Eval

theorem groundWithin_task (ctx : Context) (levels : Nat) (path : List GuardKey) (task : Task) :
    groundWithin ctx (levels + 1) path (.task task)
      = task.ground ctx (groundWithin ctx levels) path :=
  Plan.eval_question task

namespace Rule

/-! ## The declarations that count most -/

section Worth

variable {snapshot : Snapshot}

/-- How much the declarations that count most do count. -/
def bestWorth (snapshot : Snapshot) (keys : List DeclKey) : Nat :=
  (keys.map (worthOf snapshot)).foldl max 0

theorem bestWorth_concat (keys : List DeclKey) (key : DeclKey) :
    bestWorth snapshot (keys ++ [key]) = max (bestWorth snapshot keys) (worthOf snapshot key) := by
  simp [bestWorth]

theorem worthOf_le_bestWorth {keys : List DeclKey} {key : DeclKey} (mem : key ∈ keys) :
    worthOf snapshot key ≤ bestWorth snapshot keys := by
  induction keys using List.reverseRecOn with
  | nil => cases mem
  | append_singleton keys last ih =>
    rw [bestWorth_concat]
    rcases List.mem_append.mp mem with mem | mem
    · exact Nat.le_trans (ih mem) (Nat.le_max_left _ _)
    · rw [List.mem_singleton.mp mem]
      exact Nat.le_max_right _ _

/-- The declarations that are there and count just so much. -/
def counting (snapshot : Snapshot) (worth : Nat) (keys : List DeclKey) : List DeclKey :=
  keys.filter fun key => (snapshot.entry? key).isSome && worthOf snapshot key == worth

theorem bestOf_eq (keys : List DeclKey) :
    bestOf snapshot keys = counting snapshot (bestWorth snapshot keys) keys := by
  refine List.filter_congr fun key _ => ?_
  rw [worthOf]
  cases snapshot.entry? key <;> rfl

theorem counting_eq_nil {keys : List DeclKey} {worth : Nat}
    (more : bestWorth snapshot keys < worth) : counting snapshot worth keys = [] := by
  refine List.filter_eq_nil_iff.mpr fun key mem => ?_
  have most : worthOf snapshot key ≤ bestWorth snapshot keys := worthOf_le_bestWorth mem
  have other : worthOf snapshot key ≠ worth := by omega
  simp [other]

theorem entry?_of_mem_bestOf {keys : List DeclKey} {key : DeclKey}
    (mem : key ∈ bestOf snapshot keys) : ∃ entry, snapshot.entry? key = some entry := by
  rw [bestOf_eq] at mem
  have there := (List.mem_filter.mp mem).2
  simp only [Bool.and_eq_true] at there
  exact Option.isSome_iff_exists.mp there.1

/-- One more declaration takes over, joins the others or is dropped. -/
theorem bestOf_concat (keys : List DeclKey) {key : DeclKey}
    (there : (snapshot.entry? key).isSome = true) :
    bestOf snapshot (keys ++ [key])
      = if bestWorth snapshot keys < worthOf snapshot key then [key]
        else if bestWorth snapshot keys = worthOf snapshot key then bestOf snapshot keys ++ [key]
        else bestOf snapshot keys := by
  have split (worth : Nat) : counting snapshot worth (keys ++ [key])
      = counting snapshot worth keys ++ if worthOf snapshot key = worth then [key] else [] := by
    rw [counting, List.filter_append]
    congr 1
    simp [List.filter_cons, there]
  rw [bestOf_eq, bestOf_eq, bestWorth_concat, split]
  by_cases more : bestWorth snapshot keys < worthOf snapshot key
  · rw [if_pos more, Nat.max_eq_right (Nat.le_of_lt more), if_pos rfl, counting_eq_nil more]
    rfl
  · rw [if_neg more, Nat.max_eq_left (Nat.not_lt.mp more)]
    by_cases equal : bestWorth snapshot keys = worthOf snapshot key
    · rw [if_pos equal, if_pos equal.symm]
    · rw [if_neg equal, if_neg (Ne.symm equal), List.append_nil]

end Worth

/-! ## Groups -/

section Groups

variable {name other : String} {worth : Nat} {key : DeclKey} (groups : List MemberGroup)

theorem filter_addToGroup_self :
    (addToGroup name worth key groups).filter (fun group => group.name == name)
      = addToGroup name worth key (groups.filter fun group => group.name == name) := by
  induction groups with
  | nil => simp [addToGroup]
  | cons group rest ih =>
    by_cases same : group.name = name
    · simp only [addToGroup, same, beq_self_eq_true, if_true, List.filter_cons]
      split
      · simp
      · split <;> simp [same]
    · simp [addToGroup, same, ih]

theorem filter_addToGroup_of_ne (differ : name ≠ other) :
    (addToGroup name worth key groups).filter (fun group => group.name == other)
      = groups.filter fun group => group.name == other := by
  induction groups with
  | nil => simp [addToGroup, differ]
  | cons group rest ih =>
    by_cases same : group.name = name
    · simp only [addToGroup, same, beq_self_eq_true, if_true]
      split
      · simp [same, differ]
      · split <;> simp [same, differ]
    · simp [addToGroup, same, List.filter_cons, ih]

end Groups

/-- The group that declarations of one name make up, if there are any. -/
def groupOf (snapshot : Snapshot) (name : String) (keys : List DeclKey) : List MemberGroup :=
  if keys = [] then [] else [⟨name, bestWorth snapshot keys, bestOf snapshot keys⟩]

theorem addToGroup_groupOf {snapshot : Snapshot} (name : String) (keys : List DeclKey)
    {key : DeclKey} (there : (snapshot.entry? key).isSome = true) :
    addToGroup name (worthOf snapshot key) key (groupOf snapshot name keys)
      = groupOf snapshot name (keys ++ [key]) := by
  have declared : keys ++ [key] ≠ [] := by simp
  rw [groupOf, groupOf, if_neg declared, bestWorth_concat, bestOf_concat keys there]
  by_cases none_yet : keys = []
  · rw [if_pos none_yet, none_yet]
    by_cases worthless : worthOf snapshot key = 0
    · simp [addToGroup, bestWorth, worthless, bestOf]
    · simp [addToGroup, bestWorth, Nat.pos_of_ne_zero worthless]
  · simp only [if_neg none_yet, addToGroup, beq_self_eq_true, if_true, beq_iff_eq]
    split
    · rename_i more
      rw [Nat.max_eq_right (Nat.le_of_lt more)]
    · rename_i most
      rw [Nat.max_eq_left (Nat.not_lt.mp most)]
      split <;> rfl

section Members

variable {snapshot : Snapshot} (keys : List DeclKey) {key : DeclKey}

theorem groupMembers_concat {entry : Entry} (found : snapshot.entry? key = some entry) :
    groupMembers snapshot (keys ++ [key])
      = addToGroup entry.name (worthOf snapshot key) key (groupMembers snapshot keys) := by
  rw [groupMembers, List.foldl_append, worthOf, found]
  simp only [List.foldl_cons, List.foldl_nil, found]
  rfl

theorem groupMembers_concat_of_missing (missing : snapshot.entry? key = none) :
    groupMembers snapshot (keys ++ [key]) = groupMembers snapshot keys := by
  rw [groupMembers, List.foldl_append]
  simp only [List.foldl_cons, List.foldl_nil, missing]
  rfl

/-- There is one group for each name that is declared, with the declarations that count most. -/
theorem filter_groupMembers (name : String) :
    (groupMembers snapshot keys).filter (fun group => group.name == name)
      = groupOf snapshot name (keys.filter (snapshot.isNamed name)) := by
  induction keys using List.reverseRecOn with
  | nil => rfl
  | append_singleton keys key ih =>
    rw [List.filter_append]
    cases found : snapshot.entry? key with
    | none =>
      have unnamed : [key].filter (snapshot.isNamed name) = [] := by simp [Snapshot.isNamed, found]
      rw [groupMembers_concat_of_missing keys found, unnamed, List.append_nil, ih]
    | some entry =>
      rw [groupMembers_concat keys found]
      by_cases same : entry.name = name
      · have named : [key].filter (snapshot.isNamed name) = [key] := by
          simp [Snapshot.isNamed, found, same]
        have there : (snapshot.entry? key).isSome = true := by rw [found]; rfl
        rw [same, filter_addToGroup_self, ih, named, addToGroup_groupOf name _ there]
      · have unnamed : [key].filter (snapshot.isNamed name) = [] := by
          simp [Snapshot.isNamed, found, same]
        rw [filter_addToGroup_of_ne _ same, ih, unnamed, List.append_nil]

end Members

theorem keys_of_mem_groupMembers {snapshot : Snapshot} {keys : List DeclKey} {group : MemberGroup}
    (mem : group ∈ groupMembers snapshot keys) :
    keys.filter (snapshot.isNamed group.name) ≠ [] ∧
      group.keys = bestOf snapshot (keys.filter (snapshot.isNamed group.name)) := by
  have listed : group ∈ (groupMembers snapshot keys).filter fun other => other.name == group.name :=
    List.mem_filter.mpr ⟨mem, beq_self_eq_true _⟩
  rw [filter_groupMembers, groupOf] at listed
  split at listed
  · cases listed
  · rename_i declared
    exact ⟨declared, congrArg MemberGroup.keys (List.mem_singleton.mp listed)⟩

/-- A lookup of a member that the class itself has. -/
theorem eval_classMember_own {ctx : Context} {name member : String}
    (own : (ctx.snapshot.classMembers name).filter (ctx.snapshot.isNamed member) ≠ [])
    (answer : Goal → Option Ty) :
    (classMember ctx name member).eval answer
      = ((declTypes (bestOf ctx.snapshot
          ((ctx.snapshot.classMembers name).filter (ctx.snapshot.isNamed member)))).eval
            answer).map Ty.unionOf := by
  obtain ⟨above, chain⟩ : ∃ above, ctx.snapshot.classChain name = name :: above := ⟨_, rfl⟩
  rw [classMember, chain, classMember.search]
  split
  · contradiction
  · rw [Option.map_eq_bind]
    exact Plan.eval_bind (declTypes _) _

end Rule

/-! ## A class inside its own value -/

section Circle

variable {ctx : Context} {name : String} {group : Rule.MemberGroup} {key : DeclKey}
  (grouped : group ∈ Rule.groupMembers ctx.snapshot (ctx.snapshot.classMembers name))
  (mem : key ∈ group.keys)
include grouped mem

/-- The value of a class needs every declaration that makes up one of its members. -/
theorem exists_decl_of_eval_classValue {answer : Goal → Option Ty} {ty : Ty}
    (eval : (Rule.classValue ctx name).eval answer = some ty) :
    ∃ found, answer (.decl key) = some found := by
  rw [Rule.classValue, Plan.eval_bind] at eval
  obtain ⟨members, eval, -⟩ := Option.bind_eq_some_iff.mp eval
  rw [Rule.memberList, Plan.eval_bind] at eval
  obtain ⟨found, eval, -⟩ := Option.bind_eq_some_iff.mp eval
  obtain ⟨member, eval⟩ := Plan.exists_eval_of_mapM eval grouped
  obtain ⟨first, rest, keys⟩ := List.exists_cons_of_ne_nil (List.ne_nil_of_mem mem)
  have best : first ∈ group.keys := keys ▸ List.mem_cons_self
  rw [(Rule.keys_of_mem_groupMembers grouped).2] at best
  obtain ⟨entry, there⟩ := Rule.entry?_of_mem_bestOf best
  have head : group.keys.head? = some first := by rw [keys]; rfl
  simp only [Rule.groupMember, head, Option.bind_some, there, Plan.eval_bind] at eval
  obtain ⟨tys, eval, -⟩ := Option.bind_eq_some_iff.mp eval
  obtain ⟨found, eval⟩ := Plan.exists_eval_of_mapM eval mem
  exact ⟨found, (Plan.eval_question _).symm.trans eval⟩

/-- Below such a declaration the class is not needed, wherever the rules come to something. -/
theorem groundWithin_inside {levels : Nat} {path : List GuardKey} {goal : Goal} {ty : Ty}
    (active : .decl key ∈ path) (ground : groundWithin ctx levels path goal = some ty) :
    groundWithin ctx levels (.className name :: path) goal = some ty := by
  induction levels generalizing path goal ty with
  | zero => cases ground
  | succ levels ih =>
    refine Plan.eval_mono (fun task ty given => ?_) _ ground
    rw [Task.ground] at given ⊢
    cases guarded : task.guardKey? with
    | none =>
      simp only [guarded] at given ⊢
      exact Plan.eval_mono (fun goal ty => ih active) _ given
    | some taskKey =>
      simp only [guarded] at given ⊢
      split at given
      · cases given
      · rename_i inactive
        obtain ⟨computed, eval, finished⟩ := Option.map_eq_some_iff.mp given
        have active' : GuardKey.decl key ∈ taskKey :: path := List.mem_cons_of_mem _ active
        have other : taskKey ≠ .className name := by
          rintro rfl
          cases task with
          | classValue className =>
            cases guarded
            -- the value would ask for the declaration, which is being computed
            obtain ⟨found, asked⟩ := exists_decl_of_eval_classValue grouped mem eval
            cases levels with
            | zero => cases asked
            | succ levels => simp [groundWithin_task, Task.ground, Task.guardKey?, active] at asked
          | decl | expr | expansion => cases guarded
        rw [if_neg (by simp [other, inactive])]
        refine Option.map_eq_some_iff.mpr ⟨computed, Plan.eval_mono ?_ _ eval, finished⟩
        intro goal ty given
        exact groundWithin_mono ctx (Nat.le_refl levels) _ _ goal ty (by simp) (ih active' given)

/-- Seen from inside the value of the class, such a declaration is what it is by itself. -/
theorem groundWithin_decl_inside {levels : Nat} {ty : Ty}
    (ground : groundWithin ctx levels [] (.decl key) = some ty) :
    groundWithin ctx levels [.className name] (.decl key) = some ty := by
  cases levels with
  | zero => cases ground
  | succ levels =>
    rw [groundWithin_task] at ground ⊢
    simp only [Task.ground, Task.guardKey?, List.not_mem_nil, if_false] at ground ⊢
    obtain ⟨computed, eval, finished⟩ := Option.map_eq_some_iff.mp ground
    rw [if_neg (by simp)]
    refine Option.map_eq_some_iff.mpr ⟨computed, Plan.eval_mono ?_ _ eval, finished⟩
    intro goal ty given
    exact groundWithin_mono ctx (Nat.le_refl levels) _ _ goal ty (by simp)
      (groundWithin_inside grouped mem List.mem_cons_self given)

end Circle

/-! ## The value shows what a lookup finds -/

/-- Whatever the rules determine for a lookup, a member that is listed has it. -/
def Rule.Shows (ctx : Context) (name : String) (members : List (Member Ty)) : Prop :=
  ∀ member ∈ members, ∀ levels ty,
    (Rule.classMember ctx name member.name).eval (groundWithin ctx levels []) = some ty →
    member.ty = ty

/-- An answer to a question that is asked inside the value of a class. -/
def AnswersInside (ctx : Context) (name : String) (goal : Goal) (ty : Ty) : Prop :=
  ∀ levels found, groundWithin ctx levels [.className name] goal = some found → ty = found

theorem yields_memberList_shows (ctx : Context) (name : String) :
    Plan.Yields (AnswersInside ctx name) (Rule.Shows ctx name)
      (Rule.memberList ctx (ctx.snapshot.classMembers name)) := by
  let groups := Rule.groupMembers ctx.snapshot (ctx.snapshot.classMembers name)
  have grouped : ∀ group ∈ groups,
      Plan.Yields (AnswersInside ctx name)
        (fun found : Option (Member Ty) => Rule.Shows ctx name found.toList)
        (Rule.groupMember ctx group) := by
    intro group mem
    obtain ⟨own, keys⟩ := Rule.keys_of_mem_groupMembers mem
    unfold Rule.groupMember
    split
    · refine (Plan.yields_eval _ (Rule.declTypes group.keys)).bind fun tys inside => ?_
      refine .pure fun member hmember levels ty eval => ?_
      obtain rfl := List.mem_singleton.mp hmember
      rw [Rule.eval_classMember_own own, ← keys] at eval
      obtain ⟨alone, decls, rfl⟩ := Option.map_eq_some_iff.mp eval
      refine congrArg Ty.unionOf (inside levels alone (Plan.eval_mapM_mono ?_ decls))
      intro key mem_key ty ground
      rw [Rule.ask, Plan.eval_question] at ground ⊢
      exact groundWithin_decl_inside mem mem_key ground
    · exact .pure nofun
  refine (Plan.Yields.mapM _ _ grouped).bind fun found shown => .pure fun member mem => ?_
  obtain ⟨listed, listed_mem, hlisted⟩ := List.mem_filterMap.mp mem
  exact shown listed listed_mem member (by rw [show listed = some member from hlisted]; simp)

theorem yields_run {κ α : Type} {ctx : Context} {levels base : Nat} {path : List GuardKey}
    {answer : κ → InferM Ty} {ideal : Nat → List GuardKey → κ → Option Ty}
    (balanced : Balanced answer) (faithful : Faithful ctx levels answer ideal) {good : α → Prop}
    {plan : Plan κ α}
    (yields : plan.Yields
      (fun question ty => ∀ depth found, ideal depth path question = some found → ty = found) good)
    {s : State} (ready : Ready ctx levels s) (sound : Sound ctx s) (inner : Inner base path s) :
    Escaped base (exec (plan.run answer) s).2 ∨ good (exec (plan.run answer) s).1 := by
  induction plan generalizing s with
  | done result => exact .inr yields
  | note name next ih =>
    have noted := noted_recordName s name
    have kept := Kept.of_noted noted
    exact ih yields (ready.kept kept) (sound.noted noted) (inner.kept kept)
  | ask question next ih =>
    obtain ⟨sound', answered⟩ := faithful question s ready sound
    have kept := balanced question s
    by_cases escaped : Escaped base (exec (answer question) s).2
    · exact .inl (escaped.kept (kept_run balanced _ _))
    · have determined (depth : Nat) (found : Ty) (given : ideal depth path question = some found) :
          (exec (answer question) s).1 = found := (answered inner given).resolve_left escaped
      exact ih _ (yields _ determined) (ready.kept kept) sound' (inner.kept kept)

theorem yields_classValue_shows (ctx : Context) (name : String) :
    Plan.Yields (AnswersInside ctx name)
      (fun ty => ∃ members, Rule.Shows ctx name members ∧
        ty = .named name (Rule.acyclicSupertypes ctx.snapshot name) members)
      (Rule.classValue ctx name) :=
  (yields_memberList_shows ctx name).bind fun members shows => .pure ⟨members, shows, rfl⟩

/-- Closing the frame of a class gives the value that was built in it. -/
theorem close_classValue (ctx : Context) (name : String) (ty : Ty) (done : State) :
    ∃ after, (Task.classValue name).close ctx (.className name) ty done = (ty, after) ∧
      after.limitMet = done.limitMet := by
  rw [Task.close]
  split <;> exact ⟨_, rfl, by simp [State.limitMet, Guard.leave_exceeded]⟩

/-- Asked for by itself, the value of a class has its name and supertypes, and shows what the rules
determine for lookups, unless a limit is met. -/
theorem solve_classValue {ctx : Context} (running : ctx.cancelled = false) {cache : Cache}
    (sound : Sound ctx (State.start ctx.options cache)) (name : String)
    (unlimited : (exec (solve ctx (.classValue name))
      (State.start ctx.options cache)).2.limitMet = false) :
    ∃ members, Rule.Shows ctx name members ∧
      (exec (solve ctx (.classValue name)) (State.start ctx.options cache)).1
        = .named name (Rule.acyclicSupertypes ctx.snapshot name) members := by
  let levels := 2 * ctx.options.maxDepth
  have ready : Ready ctx (levels + 1) (State.start ctx.options cache) := ready_idle ctx cache ∅
  have balanced := balanced_solveWithin ctx levels
  have unknown : (Task.classValue name).known? ctx (State.start ctx.options cache) = none :=
    Std.HashMap.getElem?_empty
  have solve_eq : exec (solve ctx (.classValue name)) (State.start ctx.options cache)
      = exec (perform ctx (solveWithin ctx levels) (.classValue name))
          (State.start ctx.options cache) := rfl
  rw [solve_eq] at unlimited ⊢
  rcases perform_guarded ctx (solveWithin ctx levels) unknown rfl with
    ⟨-, -, after, noted, hrun⟩ | ⟨-, -, index, position, -⟩ |
    ⟨room, -, inside, -, hinside, done, hdone, hrun⟩
  · have limit := (Kept.of_noted noted).limit rfl
    rw [hrun] at unlimited
    cases limit.symm.trans unlimited
  · cases position
  · have start : Inner 0 [] (State.start ctx.options cache) := ⟨Nat.zero_le _, nofun⟩
    have inner := (start.pushed (.className name)).kept (Kept.of_noted hinside)
    obtain ⟨after, closed, limit⟩ := close_classValue ctx name
      (exec ((Rule.classValue ctx name).run (solveWithin ctx levels)) inside).1 done
    have hrun := hrun.trans closed
    rw [hrun] at unlimited ⊢
    refine (yields_run balanced (faithful_solveWithin running levels)
      (yields_classValue_shows ctx name) (ready.inside room hinside)
      (sound.of_eq hinside.classes hinside.entries) inner).resolve_left fun escaped => ?_
    have met := (escaped.kept (Kept.of_noted hdone)).limitMet
    cases met.symm.trans (limit.symm.trans unlimited)

end LuaTyping.Infer
