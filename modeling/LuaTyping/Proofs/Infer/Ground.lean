import LuaTyping.Proofs.Infer.Balance
import LuaTyping.Proofs.Infer.Dependencies

/-!
# What the rules determine by themselves

The rules say what a type is in terms of other types. Followed as they stand, with no cache, no
class values and no limits, they determine a type unless following them leads back to something that
is being computed already. `Task.ground` and `groundWithin` follow the rules in this way and give no
answer on a circle.

The engine does keep types, and where it cuts a circle its answer depends on where it came from.
This file proves that none of this shows where there is no circle: if everything that is kept is
what the rules determine, wherever they determine it, then so is every answer and everything that is
kept afterwards, until a limit is met.

A kept type may have been computed inside other frames. What makes it right is that its frame was
not escaped (`LuaTyping.Proofs.Infer.Balance`). So the invariant is carried for every frame at once:
answers are right as seen from `base` unless the frames from `base` on have been escaped.
-/

set_option autoImplicit false

namespace LuaTyping.Infer

open Guard

/-! ## Following the rules -/

/-- Follows a plan where some questions may have no answer. -/
def Plan.eval {κ α : Type} (answer : κ → Option Ty) : Plan κ α → Option α
  | .done result => some result
  | .note _ next => next.eval answer
  | .ask question next => (answer question).bind fun ty => (next ty).eval answer

/-- What a task comes to by its rule, while the tasks on `path` are being computed. -/
def Task.ground (ctx : Context) (deeper : List GuardKey → Goal → Option Ty)
    (path : List GuardKey) (task : Task) : Option Ty :=
  match task.guardKey? with
  | some key =>
    if key ∈ path then none
    else ((task.rule ctx).eval (deeper (key :: path))).map fun ty => task.finished ctx ty
  | none => (task.rule ctx).eval (deeper path)

/-- What a goal comes to by the rules, if that takes no more than `levels` of tasks inside each
other. -/
def groundWithin (ctx : Context) : (levels : Nat) → List GuardKey → Goal → Option Ty
  | 0 => fun _ _ => none
  | levels + 1 => fun path goal =>
    (goal.plan ctx).eval (Task.ground ctx (groundWithin ctx levels) path)

/-- Following the rules never leads back to what is being computed, and gives the answer. -/
def Rule.Determines {α : Type} (ctx : Context) (rule : Rule α) (answer : α) : Prop :=
  ∃ levels, rule.eval (groundWithin ctx levels []) = some answer

/-! ## More levels and fewer tasks in progress -/

/-- Whatever the first gives, the second gives with no more in progress. -/
def Extends {κ : Type} (ideal ideal' : List GuardKey → κ → Option Ty) : Prop :=
  ∀ path path' question ty, path' ⊆ path → ideal path question = some ty →
    ideal' path' question = some ty

theorem Plan.eval_mono {κ α : Type} {answer answer' : κ → Option Ty}
    (h : ∀ question ty, answer question = some ty → answer' question = some ty)
    (plan : Plan κ α) {result : α} (eval : plan.eval answer = some result) :
    plan.eval answer' = some result := by
  induction plan with
  | done _ => exact eval
  | note _ next ih => exact ih eval
  | ask question next ih =>
    obtain ⟨ty, answered, rest⟩ := Option.bind_eq_some_iff.mp eval
    exact Option.bind_eq_some_iff.mpr ⟨ty, h question ty answered, ih ty rest⟩

theorem Task.ground_mono {ctx : Context} {deeper deeper' : List GuardKey → Goal → Option Ty}
    (h : Extends deeper deeper') : Extends (Task.ground ctx deeper) (Task.ground ctx deeper') := by
  intro path path' task ty fewer given
  rw [Task.ground] at given ⊢
  cases guarded : task.guardKey? with
  | some key =>
    simp only [guarded] at given ⊢
    by_cases active : key ∈ path
    · simp [active] at given
    · rw [if_neg active] at given
      rw [if_neg fun mem => active (fewer mem)]
      obtain ⟨computed, eval, hty⟩ := Option.map_eq_some_iff.mp given
      refine Option.map_eq_some_iff.mpr ⟨computed, Plan.eval_mono ?_ _ eval, hty⟩
      exact fun question ty => h _ _ question ty (List.cons_subset_cons key fewer)
  | none =>
    simp only [guarded] at given ⊢
    exact Plan.eval_mono (fun question ty => h _ _ question ty fewer) _ given

theorem groundWithin_mono (ctx : Context) {levels levels' : Nat} (h : levels ≤ levels') :
    Extends (groundWithin ctx levels) (groundWithin ctx levels') := by
  induction levels generalizing levels' with
  | zero =>
    intro path path' goal ty _ given
    cases given
  | succ levels ih =>
    obtain ⟨levels', rfl⟩ : ∃ n, levels' = n + 1 := ⟨levels' - 1, by omega⟩
    intro path path' goal ty fewer given
    refine Plan.eval_mono (fun task ty => ?_) _ given
    exact Task.ground_mono (ih (Nat.le_of_succ_le_succ h)) _ _ task ty fewer

theorem Rule.Determines.unique {α : Type} {ctx : Context} {rule : Rule α} {answer answer' : α}
    (h : rule.Determines ctx answer) (h' : rule.Determines ctx answer') : answer = answer' := by
  have more {levels levels' : Nat} {answer : α} (le : levels ≤ levels')
      (eval : rule.eval (groundWithin ctx levels []) = some answer) :
      rule.eval (groundWithin ctx levels' []) = some answer :=
    Plan.eval_mono (fun goal ty => groundWithin_mono ctx le _ _ goal ty (List.nil_subset _)) _ eval
  obtain ⟨levels, eval⟩ := h
  obtain ⟨levels', eval'⟩ := h'
  have both := more (Nat.le_max_right levels levels') eval'
  exact Option.some.inj ((more (Nat.le_max_left levels levels') eval).symm.trans both)

/-- With nothing in progress around it a task comes to what it comes to with something. -/
theorem Task.ground_alone {ctx : Context} {levels : Nat} {path : List GuardKey} {task : Task}
    {ty : Ty} (h : task.ground ctx (groundWithin ctx levels) path = some ty) :
    task.ground ctx (groundWithin ctx levels) [] = some ty :=
  Task.ground_mono (groundWithin_mono ctx (Nat.le_refl levels)) _ _ task ty (List.nil_subset _) h

/-! ## What is kept -/

/-- Everything that is kept is what the rules determine, wherever they do. -/
def Sound (ctx : Context) (s : State) : Prop :=
  ∀ (task : Task) (kept : Ty) (levels : Nat) (ty : Ty), task.known? ctx s = some kept →
    task.ground ctx (groundWithin ctx levels) [] = some ty → kept = ty

theorem Sound.of_eq {ctx : Context} {s s' : State} (h : Sound ctx s)
    (classes : s'.classes = s.classes) (entries : s'.cache.entries = s.cache.entries) :
    Sound ctx s' := by
  intro task kept levels ty known
  exact h task kept levels ty (task.known?_congr ctx classes entries ▸ known)

theorem Sound.noted {ctx : Context} {s s' : State} (h : Sound ctx s) (noted : Noted s s') :
    Sound ctx s' := h.of_eq noted.classes noted.entries

theorem cacheKey_inj {ctx : Context} {key key' : DeclKey} :
    cacheKey ctx key = cacheKey ctx key' ↔ key = key' :=
  ⟨fun h => congrArg CacheKey.decl h, fun h => h ▸ rfl⟩

/-- Keeping the type of another declaration does not make this one known. -/
theorem unkept_insert {ctx : Context} {entries : Std.HashMap CacheKey Ty} {key other : DeclKey}
    (apart : other ≠ key) (unkept : entries[cacheKey ctx key]? = none) (ty : Ty) :
    (entries.insert (cacheKey ctx other) ty)[cacheKey ctx key]? = none := by
  rw [Std.HashMap.getElem?_insert, beq_false_of_ne (mt cacheKey_inj.mp apart)]
  exact unkept

section Store

variable {ctx : Context} (running : ctx.cancelled = false)
include running

theorem known?_store {task other : Task} {ty kept : Ty} {s : State}
    (h : other.known? ctx (task.store ctx ty s).2 = some kept) :
    other.known? ctx s = some kept ∨ other = task ∧ kept = ty := by
  cases task with
  | decl key =>
    cases other with
    | decl key' =>
      simp only [Task.known?, Task.store, running, Bool.false_eq_true, if_false,
        Cache.insert] at h ⊢
      split at h
      · exact .inl h
      · rw [Std.HashMap.getElem?_insert] at h
        split at h
        · rename_i same
          cases h
          exact .inr ⟨by rw [cacheKey_inj.mp (eq_of_beq same)], rfl⟩
        · exact .inl h
    | expr | classValue | expansion => exact .inl h
  | classValue name =>
    cases other with
    | classValue name' =>
      simp only [Task.known?, Task.store, Std.HashMap.getElem?_insert] at h ⊢
      split at h
      · rename_i same
        cases h
        exact .inr ⟨by rw [eq_of_beq same], rfl⟩
      · exact .inl h
    | decl | expr | expansion => exact .inl h
  | expr | expansion => exact .inl h

theorem store_answer (task : Task) (ty : Ty) (s : State) :
    (task.store ctx ty s).1 = ty ∨ task.known? ctx s = some (task.store ctx ty s).1 := by
  cases task with
  | decl key =>
    simp only [Task.known?, Task.store, running, Bool.false_eq_true, if_false, Cache.insert]
    split
    · rename_i kept found
      exact .inr found
    · exact .inl rfl
  | expr | classValue | expansion => exact .inl rfl

end Store

/-! ## The engine follows the rules -/

/-- The active keys from `base` on are on the path. -/
structure Inner (base : Nat) (path : List GuardKey) (s : State) : Prop where
  base_le : base ≤ s.guard.depth
  active : ∀ key index, s.guard.position? key = some index → base ≤ index → key ∈ path

theorem Inner.kept {base : Nat} {path : List GuardKey} {s s' : State} (h : Inner base path s)
    (kept : Kept s s') : Inner base path s' := by
  refine ⟨?_, fun key index => ?_⟩
  · rw [Guard.depth, kept.frames]
    exact h.base_le
  · rw [position?, kept.visiting]
    exact h.active key index

theorem Inner.pushed {base : Nat} {path : List GuardKey} {s : State} (h : Inner base path s)
    (key : GuardKey) :
    Inner base (key :: path) { s with guard := s.guard.counted.pushed key } := by
  refine ⟨Nat.le_succ_of_le h.base_le, fun other index position le => ?_⟩
  by_cases same : other = key
  · exact same ▸ List.mem_cons_self
  · have below : s.guard.position? other = some index := by
      rw [← position]
      show _ = List.lookup other ((key, s.guard.depth) :: s.guard.visiting)
      rw [List.lookup_cons, beq_false_of_ne same]
      rfl
    exact List.mem_cons_of_mem key (h.active other index below le)

/-- From a frame that has just been opened nothing but its own key is active. -/
theorem inner_opened {ctx : Context} {levels : Nat} {s : State} (ready : Ready ctx levels s)
    (key : GuardKey) :
    Inner s.guard.depth [key] { s with guard := s.guard.counted.pushed key } := by
  have outside : Inner s.guard.depth [] s := by
    refine ⟨Nat.le_refl _, fun other index position le => ?_⟩
    obtain ⟨first, rest, hvisiting, -⟩ := List.lookup_eq_some_iff.mp position
    have := ready.positions (other, index) (by simp [hvisiting])
    exact absurd le (Nat.not_le.mpr this)
  exact outside.pushed key

/-- The answer is the one that the rules determine, unless the frames from `base` on have been
escaped; and what is kept afterwards is sound. -/
structure Tracks {α : Type} (ctx : Context) (ideal : Nat → List GuardKey → Option α) (s : State)
    (r : α × State) : Prop where
  sound : Sound ctx r.2
  answer : ∀ {base levels : Nat} {path : List GuardKey} {result : α}, Inner base path s →
    ideal levels path = some result → Escaped base r.2 ∨ r.1 = result

/-- Answering questions follows the rules as long as there are levels. -/
def Faithful {κ : Type} (ctx : Context) (levels : Nat) (answer : κ → InferM Ty)
    (ideal : Nat → List GuardKey → κ → Option Ty) : Prop :=
  ∀ question s, Ready ctx levels s → Sound ctx s →
    Tracks ctx (fun depth path => ideal depth path question) s (exec (answer question) s)

section Faithful

variable {ctx : Context} {levels : Nat}

theorem tracks_run {κ α : Type} {answer : κ → InferM Ty}
    {ideal : Nat → List GuardKey → κ → Option Ty} (balanced : Balanced answer)
    (faithful : Faithful ctx levels answer ideal) (plan : Plan κ α) {s : State}
    (ready : Ready ctx levels s) (sound : Sound ctx s) :
    Tracks ctx (fun depth path => plan.eval (ideal depth path)) s
      (exec (plan.run answer) s) := by
  induction plan generalizing s with
  | done result =>
    refine ⟨sound, fun _ eval => ?_⟩
    cases eval
    exact .inr rfl
  | note name next ih =>
    have noted := noted_recordName s name
    have kept := Kept.of_noted noted
    obtain ⟨sound', answer'⟩ := ih (ready.kept kept) (sound.noted noted)
    exact ⟨sound', fun inner eval => answer' (inner.kept kept) eval⟩
  | ask question next ih =>
    obtain ⟨sound', answered⟩ := faithful question s ready sound
    have kept := balanced question s
    obtain ⟨sound'', rest⟩ := ih (exec (answer question) s).1 (ready.kept kept) sound'
    refine ⟨sound'', fun inner eval => ?_⟩
    obtain ⟨ty, given, eval⟩ := Option.bind_eq_some_iff.mp eval
    rcases answered inner given with escaped | same
    · exact .inl (escaped.kept (kept_run balanced _ _))
    · rw [← same] at eval
      exact rest (inner.kept kept) eval

variable (running : ctx.cancelled = false)
include running

/-- Closing a frame whose rule has followed the rules. -/
theorem tracks_close {task : Task} {key : GuardKey} {s inside done : State} {computed : Ty}
    (ready : Ready ctx (levels + 1) s) (guarded : task.guardKey? = some key)
    (hinside : Noted { s with guard := s.guard.counted.pushed key } inside)
    (framed : Framed key s done)
    (tracks : Tracks ctx
      (fun depth path => (task.rule ctx).eval (groundWithin ctx depth path)) inside
      (computed, done)) :
    Tracks ctx (fun depth path => task.ground ctx (groundWithin ctx depth) path) s
      (task.close ctx key computed done) := by
  have ground_eq {depth : Nat} {path : List GuardKey} {ty : Ty}
      (ground : task.ground ctx (groundWithin ctx depth) path = some ty) :
      ∃ ty', (task.rule ctx).eval (groundWithin ctx depth (key :: path)) = some ty' ∧
        task.finished ctx ty' = ty := by
    simp only [Task.ground, guarded] at ground
    split at ground
    · cases ground
    · exact Option.map_eq_some_iff.mp ground
  by_cases refused : ((done.guard.leave key).1 || ctx.cancelled || done.limitMet) = true
  · rw [Task.close, if_pos refused]
    refine ⟨tracks.sound.of_eq rfl rfl, fun inner ground => ?_⟩
    obtain ⟨ty', eval, rfl⟩ := ground_eq ground
    rcases tracks.answer ((inner.pushed key).kept (Kept.of_noted hinside)) eval with
      escaped | same
    · exact .inl (escaped.leave framed inner.base_le)
    · exact .inr (congrArg (task.finished ctx) same)
  · rw [Task.close, if_neg refused]
    simp only [Bool.or_eq_true, not_or, Bool.not_eq_true] at refused
    obtain ⟨⟨final, -⟩, unlimited⟩ := refused
    -- seen from the frame itself nothing has been escaped, so the type is right everywhere
    have right {depth : Nat} {ty : Ty}
        (ground : task.ground ctx (groundWithin ctx depth) [] = some ty) :
        task.finished ctx computed = ty := by
      obtain ⟨ty', eval, rfl⟩ := ground_eq ground
      have opened := (inner_opened ready key).kept (Kept.of_noted hinside)
      rcases tracks.answer opened eval with escaped | same
      · exact absurd escaped (not_escaped framed final unlimited)
      · exact congrArg (task.finished ctx) same
    have left : Sound ctx { done with guard := (done.guard.leave key).2 } :=
      tracks.sound.of_eq rfl rfl
    refine ⟨fun other kept depth ty known ground => ?_, fun _ ground => .inr ?_⟩
    · rcases known?_store running known with before | ⟨rfl, rfl⟩
      · exact left other kept depth ty before ground
      · exact right ground
    · have alone := Task.ground_alone ground
      rcases store_answer running task (task.finished ctx computed)
          { done with guard := (done.guard.leave key).2 } with stored | known
      · exact stored.trans (right alone)
      · exact left task _ _ _ known alone

/-- A guarded question that is not kept. The guard may be full, the question may be under way
further out, or its frame is opened; only the last follows the rules, the others escape. -/
theorem tracks_guarded {deeper : Solver} (balanced : Balanced deeper)
    (faithful : Faithful ctx levels deeper (groundWithin ctx)) {task : Task} {key : GuardKey}
    {s : State} (ready : Ready ctx (levels + 1) s) (sound : Sound ctx s)
    (known : task.known? ctx s = none) (guarded : task.guardKey? = some key) :
    Tracks ctx (fun depth path => task.ground ctx (groundWithin ctx depth) path) s
      (exec (perform ctx deeper task) s) := by
  rcases perform_guarded ctx deeper known guarded with
    ⟨-, -, after, noted, hrun⟩ | ⟨-, -, index, position, after, noted, hrun⟩ |
    ⟨room, -, inside, -, hinside, done, hdone, hrun⟩
  · rw [hrun]
    refine ⟨sound.of_eq noted.classes noted.entries, fun _ _ => .inl (.inl ?_)⟩
    exact (Kept.of_noted noted).limit rfl
  · rw [hrun]
    refine ⟨sound.of_eq noted.classes noted.entries, ?_⟩
    refine fun {base _ path _} inner ground => .inl ?_
    -- the rules answered, so the key is not on their path: the frame met is outside the base
    have inactive : key ∉ path := by
      intro active
      simp [Task.ground, guarded, active] at ground
    have far : index < base :=
      Nat.lt_of_not_le fun le => inactive (inner.active key index position le)
    refine .inr (.inl ((Kept.of_noted noted).floor base ?_))
    exact reaches_lowest.mpr (.inr ⟨index, rfl, far⟩)
  · have kept := kept_run balanced (task.rule ctx) inside
    have ran := tracks_run balanced faithful (task.rule ctx) (ready.inside room hinside)
      (sound.of_eq hinside.classes hinside.entries)
    rw [hrun]
    refine tracks_close running ready guarded hinside (framed_of_kept hinside kept hdone) ?_
    refine ⟨ran.sound.noted hdone, fun inner eval => ?_⟩
    exact (ran.answer inner eval).imp_left (·.kept (Kept.of_noted hdone))

omit running in
/-- An expression, which opens no frame. -/
theorem tracks_nested {deeper : Solver} (balanced : Balanced deeper)
    (faithful : Faithful ctx levels deeper (groundWithin ctx)) {task : Task}
    {s : State} (ready : Ready ctx (levels + 1) s) (sound : Sound ctx s)
    (known : task.known? ctx s = none) (guarded : task.guardKey? = none) :
    Tracks ctx (fun depth path => task.ground ctx (groundWithin ctx depth) path) s
      (exec (perform ctx deeper task) s) := by
  rcases perform_nested ctx deeper known guarded with
    ⟨-, -, hrun⟩ | ⟨room, _, -, rfl, r, hr, hrun⟩
  · rw [hrun]
    exact ⟨sound.of_eq rfl rfl, fun _ _ => .inl (.inl (by simp [State.limitMet]))⟩
  · have ran := tracks_run balanced faithful (task.rule ctx) (ready.nested room)
      (sound.of_eq rfl rfl)
    rw [← hr] at ran
    rw [hrun]
    refine ⟨ran.sound.of_eq rfl rfl, fun inner ground => ?_⟩
    simp only [Task.ground, guarded] at ground
    exact ran.answer ⟨inner.base_le, inner.active⟩ ground

theorem faithful_perform {deeper : Solver} (balanced : Balanced deeper)
    (faithful : Faithful ctx levels deeper (groundWithin ctx)) :
    Faithful ctx (levels + 1) (perform ctx deeper)
      (fun depth path task => task.ground ctx (groundWithin ctx depth) path) := by
  intro task s ready sound
  cases known : task.known? ctx s with
  | some kept =>
    obtain ⟨after, noted, hrun⟩ := perform_known ctx deeper known
    rw [hrun]
    exact ⟨sound.noted noted, fun _ ground =>
      .inr (sound task kept _ _ known (Task.ground_alone ground))⟩
  | none =>
    cases guarded : task.guardKey? with
    | some key => exact tracks_guarded running balanced faithful ready sound known guarded
    | none => exact tracks_nested balanced faithful ready sound known guarded

theorem faithful_solveWithin (levels : Nat) :
    Faithful ctx levels (solveWithin ctx levels) (groundWithin ctx) := by
  induction levels with
  | zero => exact fun _ _ ready => absurd ready.pos (Nat.lt_irrefl 0)
  | succ levels ih =>
    intro goal s ready sound
    have balanced := balanced_solveWithin ctx levels
    have ran := tracks_run (balanced_perform ctx balanced) (faithful_perform running balanced ih)
      (goal.plan ctx) ready sound
    refine ⟨ran.sound, fun {_ depth _ _} inner ground => ?_⟩
    cases depth with
    | zero => cases ground
    | succ depth => exact ran.answer inner ground

end Faithful

/-! ## Queries -/

/-- A query that starts from a sound cache ends with one, and answers what the rules determine
unless it meets a limit. -/
theorem tracks_query {α : Type} {ctx : Context} (running : ctx.cancelled = false)
    (rule : Rule α) {cache : Cache} (sound : Sound ctx (State.start ctx.options cache)) :
    Sound ctx (exec (rule.run (solve ctx)) (State.start ctx.options cache)).2 ∧
    ∀ answer, rule.Determines ctx answer →
      (exec (rule.run (solve ctx)) (State.start ctx.options cache)).2.limitMet = false →
      (exec (rule.run (solve ctx)) (State.start ctx.options cache)).1 = answer := by
  have ran := tracks_run (balanced_solveWithin ctx _) (faithful_solveWithin running _) rule
    (ready_idle ctx cache ∅) sound
  refine ⟨ran.sound, fun answer ⟨levels, eval⟩ unlimited => ?_⟩
  have inner : Inner 0 [] (State.start ctx.options cache) := ⟨Nat.zero_le _, nofun⟩
  rcases ran.answer inner eval with escaped | same
  · exact absurd (unlimited.symm.trans escaped.limitMet) Bool.false_ne_true
  · exact same

end LuaTyping.Infer
