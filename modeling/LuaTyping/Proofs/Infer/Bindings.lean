import LuaTyping.Proofs.Decl.Snapshot
import LuaTyping.Proofs.Decl.Steps
import LuaTyping.Proofs.Infer.Contracts
import LuaTyping.Proofs.Infer.Dependencies
import LuaTyping.Proofs.Infer.Trace
import LuaTyping.Proofs.Ty.Fingerprint

/-!
# Queries under different bindings

Queries share a cache, and a query runs under bindings of its own. Types are kept under the
fingerprint of the bindings, so a query looks only at types that were kept under its fingerprint,
and keeps types only there. It follows that queries under other fingerprints make no difference to
it: it takes the same course and gives the same answer as if they had not been made.

Each half is one invariant of the engine. `SameView` relates two states that a query under a given
fingerprint cannot tell apart, and solving a goal in both leads to two such states. `Untouched` says
that nothing kept under a given fingerprint has changed.

Bindings that differ may have one fingerprint if records are bound, because a fingerprint does not
show the members of a record. The last part has the smallest project in which a query is then
answered with the type that another one was after.
-/

set_option autoImplicit false

namespace LuaTyping

namespace Infer

/-! ## What a query sees -/

/-- The two states differ at most in types that are not kept under the fingerprint, and in
bookkeeping. -/
structure SameView (fingerprint : Fingerprint) (s t : State) : Prop where
  guard : t.guard = s.guard
  depth : t.depth = s.depth
  classes : t.classes = s.classes
  entries : ∀ key : CacheKey, key.fingerprint = fingerprint →
    t.cache.entries[key]? = s.cache.entries[key]?

namespace SameView

variable {fingerprint : Fingerprint} {s s' t t' : State}

theorem noted (same : SameView fingerprint s t) (hs : Noted s s') (ht : Noted t t') :
    SameView fingerprint s' t' := by
  refine ⟨?_, ?_, ?_, fun key own => ?_⟩
  · rw [hs.guard, ht.guard, same.guard]
  · rw [hs.depth, ht.depth, same.depth]
  · rw [hs.classes, ht.classes, same.classes]
  · rw [hs.entries, ht.entries, same.entries key own]

theorem withGuard (same : SameView fingerprint s t)
    (change : Guard GuardKey → Guard GuardKey) :
    SameView fingerprint { s with guard := change s.guard } { t with guard := change t.guard } :=
  ⟨congrArg change same.guard, same.depth, same.classes, same.entries⟩

theorem withDepth (same : SameView fingerprint s t) (change : DepthCounter → DepthCounter) :
    SameView fingerprint { s with depth := change s.depth } { t with depth := change t.depth } :=
  ⟨same.guard, congrArg change same.depth, same.classes, same.entries⟩

theorem limitMet (same : SameView fingerprint s t) : t.limitMet = s.limitMet := by
  rw [State.limitMet, State.limitMet, same.guard, same.depth]

end SameView

/-! ## The same course -/

section Course

variable {ctx : Context} {s t : State}

theorem SameView.known? (same : SameView ctx.fingerprint s t) (task : Task) :
    task.known? ctx t = task.known? ctx s := by
  cases task with
  | decl key => rw [Task.known?, Task.known?, same.entries (cacheKey ctx key) rfl]
  | expr => rfl
  | classValue name => rw [Task.known?, Task.known?, same.classes]
  | expansion => rfl

/-- The two runs give the same answer and lead to states with the same view. -/
structure Agrees {α : Type} (fingerprint : Fingerprint) (r r' : α × State) : Prop where
  answer : r'.1 = r.1
  view : SameView fingerprint r.2 r'.2

theorem SameView.store (same : SameView ctx.fingerprint s t) (task : Task) (ty : Ty) :
    Agrees ctx.fingerprint (task.store ctx ty s) (task.store ctx ty t) := by
  cases task with
  | decl key =>
    have kept := same.entries (cacheKey ctx key) rfl
    simp only [Task.store, Cache.insert, kept]
    cases s.cache.entries[cacheKey ctx key]? with
    | some found => exact ⟨rfl, same⟩
    | none =>
      refine ⟨rfl, same.guard, same.depth, same.classes, fun key' own => ?_⟩
      simp only [Std.HashMap.getElem?_insert, same.entries key' own]
  | expr | expansion => exact ⟨rfl, same⟩
  | classValue name =>
    refine ⟨rfl, same.guard, same.depth, ?_, same.entries⟩
    simp only [Task.store, same.classes]

theorem SameView.close (same : SameView ctx.fingerprint s t) (task : Task) (key : GuardKey)
    (ty : Ty) : Agrees ctx.fingerprint (task.close ctx key ty s) (task.close ctx key ty t) := by
  have left := same.withGuard fun guard => (guard.leave key).2
  rw [Task.close, Task.close, same.limitMet, same.guard]
  rw [same.guard] at left
  split
  · exact ⟨rfl, left⟩
  · exact left.store task _

/-- A way to answer questions that answers alike in states with the same view. -/
def Confined {κ : Type} (fingerprint : Fingerprint) (answer : κ → InferM Ty) : Prop :=
  ∀ (question : κ) (s t : State), SameView fingerprint s t →
    Agrees fingerprint (exec (answer question) s) (exec (answer question) t)

theorem Confined.run {κ α : Type} {fingerprint : Fingerprint} {answer : κ → InferM Ty}
    (confined : Confined fingerprint answer) (plan : Plan κ α) {s t : State}
    (same : SameView fingerprint s t) :
    Agrees fingerprint (exec (plan.run answer) s) (exec (plan.run answer) t) := by
  induction plan generalizing s t with
  | done result => exact ⟨rfl, same⟩
  | note name next ih =>
    exact ih (same.noted (noted_recordName s name) (noted_recordName t name))
  | ask question next ih =>
    obtain ⟨answer_eq, view⟩ := confined question s t same
    rw [exec_run_ask, exec_run_ask, answer_eq]
    exact ih _ view

section Tasks

variable {deeper : Solver} (confined : Confined ctx.fingerprint deeper) {task : Task}
  (same : SameView ctx.fingerprint s t) (known : task.known? ctx s = none)
include confined same known

theorem agrees_guarded {key : GuardKey} (guarded : task.guardKey? = some key) :
    Agrees ctx.fingerprint (exec (perform ctx deeper task) s)
      (exec (perform ctx deeper task) t) := by
  have known' := (same.known? task).trans known
  rcases perform_guarded ctx deeper known guarded with
    ⟨spent, -, after, noted, hrun⟩ | ⟨room, -, index, hpos, after, noted, hrun⟩ |
    ⟨room, hpos, inside, -, hinside, done, hdone, hrun⟩
  · -- the guards are the same, so the other run is refused as well
    rw [← same.guard] at spent
    rcases perform_guarded ctx deeper known' guarded with
      ⟨-, -, after', noted', hrun'⟩ | ⟨room, -⟩ | ⟨room, -⟩
    · rw [hrun, hrun']
      exact ⟨rfl, (same.withGuard (·.counted.markExceeded)).noted noted noted'⟩
    · exact absurd spent room
    · exact absurd spent room
  · rw [← same.guard] at room hpos
    obtain ⟨after', noted', hrun'⟩ := perform_active ctx deeper known' guarded room hpos
    rw [hrun, hrun']
    exact ⟨rfl, (same.withGuard (·.counted.lowered index)).noted noted noted'⟩
  · rw [← same.guard] at room hpos
    obtain ⟨inside', -, hinside', done', hdone', hrun'⟩ :=
      perform_inactive ctx deeper known' guarded room hpos
    have opened := (same.withGuard (·.counted.pushed key)).noted hinside hinside'
    obtain ⟨answer, view⟩ := confined.run (task.rule ctx) opened
    rw [hrun, hrun', answer]
    exact (view.noted hdone hdone').close task key _

theorem agrees_nested (counted : task.guardKey? = none) :
    Agrees ctx.fingerprint (exec (perform ctx deeper task) s)
      (exec (perform ctx deeper task) t) := by
  have known' := (same.known? task).trans known
  rcases perform_nested ctx deeper known counted with
    ⟨full, -, hrun⟩ | ⟨room, _, -, rfl, _, rfl, hrun⟩
  · rw [← same.depth] at full
    rcases perform_nested ctx deeper known' counted with ⟨-, -, hrun'⟩ | ⟨room, -⟩
    · rw [hrun, hrun']
      exact ⟨rfl, same.withDepth fun depth => { depth with exceeded := true }⟩
    · exact absurd full (Nat.not_le.mpr room)
  · rw [← same.depth] at room
    rcases perform_nested ctx deeper known' counted with ⟨full, -⟩ | ⟨-, _, -, rfl, _, rfl, hrun'⟩
    · exact absurd full (Nat.not_le.mpr room)
    · have deepened := same.withDepth fun depth => { depth with depth := depth.depth + 1 }
      obtain ⟨answer, view⟩ := confined.run (task.rule ctx) deepened
      rw [hrun, hrun']
      exact ⟨answer, view.withDepth DepthCounter.leave⟩

end Tasks

theorem confined_perform {deeper : Solver} (confined : Confined ctx.fingerprint deeper) :
    Confined ctx.fingerprint (perform ctx deeper) := by
  intro task s t same
  cases known : task.known? ctx s with
  | some ty =>
    obtain ⟨after, noted, hrun⟩ := perform_known ctx deeper known
    obtain ⟨after', noted', hrun'⟩ := perform_known ctx deeper ((same.known? task).trans known)
    rw [hrun, hrun']
    exact ⟨rfl, same.noted noted noted'⟩
  | none =>
    cases guarded : task.guardKey? with
    | some key => exact agrees_guarded confined same known guarded
    | none => exact agrees_nested confined same known guarded

theorem confined_solveWithin (ctx : Context) (levels : Nat) :
    Confined ctx.fingerprint (solveWithin ctx levels) := by
  induction levels with
  | zero => exact fun _ _ _ same => ⟨rfl, same⟩
  | succ levels ih => exact fun goal _ _ same => (confined_perform ih).run (goal.plan ctx) same

end Course

/-! ## What a query leaves alone -/

/-- Nothing that is kept under the fingerprint has changed. -/
def Untouched (fingerprint : Fingerprint) (before after : State) : Prop :=
  ∀ key : CacheKey, key.fingerprint = fingerprint →
    after.cache.entries[key]? = before.cache.entries[key]?

section Others

variable {ctx : Context} {fingerprint : Fingerprint} (other : ctx.fingerprint ≠ fingerprint)
include other

theorem untouched_store (task : Task) (ty : Ty) (s : State) :
    Untouched fingerprint s (task.store ctx ty s).2 := by
  intro key own
  cases task with
  | decl declKey =>
    have differ : cacheKey ctx declKey ≠ key := fun same =>
      other ((congrArg CacheKey.fingerprint same).trans own)
    simp only [Task.store, Cache.insert]
    cases s.cache.entries[cacheKey ctx declKey]? with
    | some found => rfl
    | none => rw [Std.HashMap.getElem?_insert, beq_false_of_ne differ]; rfl
  | expr | classValue | expansion => rfl

/-- A query under another fingerprint leaves what was kept at first as it was. -/
def untouchedContract (start : State) : Contract ctx where
  task _ _ := True
  goal _ _ := True
  state := Untouched fingerprint start
  of_eq _ entries untouched key own := by
    rw [entries]
    exact untouched key own
  known _ _ := trivial
  fallback _ := trivial
  unsolved _ := trivial
  rule _ := .any _
  plan _ := .any _
  finished _ := trivial
  store {asked _ ty s} _ _ untouched :=
    ⟨trivial, fun key own =>
      (untouched_store other asked ty s key own).trans (untouched key own)⟩

theorem untouched_run {α : Type} (rule : Rule α) (s : State) :
    Untouched fingerprint s (exec (rule.run (solve ctx)) s).2 := by
  exact (Contract.gives_run (untouchedContract other s).reliable_solve (.any rule)
    fun _ _ => rfl).state

end Others

/-! ## Histories -/

/-- A query of its own: where it runs, under which bindings, and what it asks for. -/
structure Inquiry where
  snapshot : Snapshot
  options : Options
  bindings : Bindings
  cancelled : Bool
  rule : Rule Unit

namespace Inquiry

def context (inquiry : Inquiry) : Context :=
  .make inquiry.snapshot inquiry.options inquiry.bindings inquiry.cancelled

/-- The cache after the query. -/
def cacheAfter (cache : Cache) (inquiry : Inquiry) : Cache :=
  (exec (inquiry.rule.run (solve inquiry.context)) (State.start inquiry.options cache)).2.cache

/-- Queries under other fingerprints change nothing that is kept under a fingerprint. -/
theorem entries_cacheAfter {fingerprint : Fingerprint} (history : List Inquiry)
    (others : ∀ inquiry ∈ history, inquiry.bindings.fingerprint ≠ fingerprint) (cache : Cache)
    {key : CacheKey} (own : key.fingerprint = fingerprint) :
    (history.foldl cacheAfter cache).entries[key]? = cache.entries[key]? := by
  induction history generalizing cache with
  | nil => rfl
  | cons inquiry rest ih =>
    obtain ⟨first, rest⟩ := List.forall_mem_cons.mp others
    have other : inquiry.context.fingerprint ≠ fingerprint := first
    have untouched := untouched_run other inquiry.rule (State.start inquiry.options cache)
    exact (ih rest _).trans (untouched key own)

end Inquiry

/-- Queries under bindings that differ from those of a query make no difference to its answer,
unless records with members are bound on both sides. -/
theorem exec_run_apart (snapshot : Snapshot) (options : Options) (cancelled : Bool) {s : Bindings}
    {history : List Inquiry} (plain : ∀ inquiry ∈ history, s.Plain ∨ inquiry.bindings.Plain)
    (differ : ∀ inquiry ∈ history, s.eqv inquiry.bindings = false) :
    (∀ inquiry ∈ history, s.fingerprint ≠ inquiry.bindings.fingerprint) ∧
    ∀ {α : Type} (rule : Rule α) (cache : Cache),
      (exec (rule.run (solve (.make snapshot options s cancelled)))
          (State.start options (history.foldl Inquiry.cacheAfter cache))).1
        = (exec (rule.run (solve (.make snapshot options s cancelled)))
            (State.start options cache)).1 := by
  have apart (inquiry : Inquiry) (mem : inquiry ∈ history) :
      s.fingerprint ≠ inquiry.bindings.fingerprint :=
    Bindings.fingerprint_ne (plain inquiry mem) (differ inquiry mem)
  refine ⟨apart, fun rule cache => ?_⟩
  have others (inquiry : Inquiry) (mem : inquiry ∈ history) := (apart inquiry mem).symm
  have same : SameView s.fingerprint (State.start options cache)
      (State.start options (history.foldl Inquiry.cacheAfter cache)) :=
    ⟨rfl, rfl, rfl, fun _ own => Inquiry.entries_cacheAfter history others cache own⟩
  exact ((confined_solveWithin (.make snapshot options s cancelled) _).run rule same).answer

/-! ## Records with members -/

/-- A file that declares nothing but an alias for its own type parameter. -/
def aliasTree : Tree where
  nodes := #[⟨.docOnly, ⟨0, 1⟩, some 1⟩, ⟨.block [some 0], ⟨0, 3⟩, some 2⟩,
    ⟨.chunk (some 1), ⟨0, 5⟩, none⟩]
  docs := .ofList [(0, ⟨[.aliasTag "Id" [⟨"T", none⟩] (.name "T" [])]⟩)]
  root := some 2

namespace AliasProject

def indexed : IndexedFile := ⟨⟨1⟩, 1, aliasTree, .ofTree ⟨1⟩ aliasTree⟩

def snapshot : Snapshot := .ofFiles [indexed]

def key : DeclKey := ⟨⟨1⟩, 0⟩

/-- A query for the alias with the given type for its parameter. -/
def inquiry (ty : Ty) : Inquiry where
  snapshot := snapshot
  options := .standard
  bindings := ⟨[("T", ty)]⟩
  cancelled := false
  rule := do
    let _ ← Rule.ask (.decl key)

/-- What the query is answered with. -/
def aliasType (ty : Ty) (cache : Cache) : Ty :=
  (exec ((Rule.ask (.decl key)).run (solve (inquiry ty).context)) (State.start .standard cache)).1

/-- What the walk records of the alias. -/
def entry : Entry :=
  { Entry.plain 0 .aliasDecl "Id" (some 0) (some 0) ⟨0, 1⟩ with
    declared := some (.generic "T")
    generics := ["T"]
    hoisted := true }

theorem entries_eq : (Collect.run aliasTree).table.entries = #[entry] := by
  have doc : aliasTree.doc? (some 0) = some ⟨[.aliasTag "Id" [⟨"T", none⟩] (.name "T" [])]⟩ :=
    Std.HashMap.getElem?_ofList_of_mem (k := 0) rfl (by simp) (by simp)
  rw [Collect.run_docOnly rfl rfl rfl doc]
  rfl

theorem entry?_eq (ty : Ty) : (inquiry ty).context.snapshot.entry? key = some entry := by
  refine (Snapshot.entry?_of_file? (Snapshot.file?_singleton indexed) 0).trans ?_
  show (Collect.run aliasTree).table.entries[0]? = _
  rw [entries_eq]
  rfl

/-- The rule of the alias gives its parameter, which names nothing that could be looked up. -/
theorem leads_rule (ty : Ty) (levels : Nat) (guard : Guard GuardKey) (depth : DepthCounter)
    (entries : Std.HashMap CacheKey Ty) :
    Leads ((Rule.declType (inquiry ty).context key).run
        (solveWithin (inquiry ty).context (levels + 1)))
      guard depth entries (.generic "T") guard entries := by
  have rule : Rule.declType (inquiry ty).context key = Rule.ask (.resolve (.generic "T")) := by
    rw [Rule.declType, entry?_eq]
    rfl
  have plan : (Goal.resolve (.generic "T")).plan (inquiry ty).context = .done (.generic "T") := rfl
  rw [rule]
  refine leads_ask (fun s start => ?_) leads_done
  simp only [solveWithin, plan]
  exact ⟨s, rfl, start⟩

/-- Asked for first, the alias is the type of its parameter, and that is kept. -/
theorem first_run (ty : Ty) :
    ∃ after,
      exec (solve (inquiry ty).context (.decl key)) (.start .standard .empty) = (ty, after) ∧
      after.cache.entries
        = (∅ : Std.HashMap CacheKey Ty).insert (cacheKey (inquiry ty).context key) ty := by
  have unkept : (∅ : Std.HashMap CacheKey Ty)[cacheKey (inquiry ty).context key]? = none :=
    Std.HashMap.getElem?_empty
  have bound : (Ty.generic "T").instantiate (inquiry ty).bindings = ty := rfl
  obtain ⟨after, hrun, reached⟩ := leads_decl rfl unkept (by decide) rfl
    (leads_rule ty 999 _ _ _) unkept (by decide) rfl (by decide) bound _ (.start .standard .empty)
  exact ⟨after, hrun, reached.entries_eq⟩

theorem aliasType_empty (ty : Ty) : aliasType ty .empty = ty := by
  obtain ⟨after, hrun, -⟩ := first_run ty
  exact congrArg Prod.fst hrun

/-- After a query with the same fingerprint the alias is what that query was after. -/
theorem aliasType_cacheAfter {ty ty' : Ty} (same : ty.outline = ty'.outline) :
    aliasType ty ((inquiry ty').cacheAfter .empty) = ty' := by
  obtain ⟨after, hfirst, entries⟩ := first_run ty'
  have cache : (inquiry ty').cacheAfter .empty = after.cache :=
    congrArg (fun run => run.2.cache) hfirst
  have cacheKey_eq : cacheKey (inquiry ty).context key = cacheKey (inquiry ty').context key :=
    congrArg (fun outline => CacheKey.mk key (snapshot.generation ⟨1⟩) [("T", outline)]) same
  have known : (Task.decl key).known? (inquiry ty).context (.start .standard after.cache)
      = some ty' := by
    rw [(At.start .standard after.cache).known?_eq rfl, entries, cacheKey_eq]
    exact Std.HashMap.getElem?_insert_self
  obtain ⟨later, -, hlater⟩ :=
    perform_known (inquiry ty).context (solveWithin (inquiry ty).context 1000) known
  rw [aliasType, cache]
  exact congrArg Prod.fst hlater

end AliasProject

open AliasProject in
/-- Records with one member each have the same outline, so the record that was asked for first is
answered for the other one as well. -/
theorem aliasType_records :
    let label : Ty := .record [] [.ofTy "x" .string]
    let count : Ty := .record [] [.ofTy "x" .number]
    (inquiry label).bindings.eqv (inquiry count).bindings = false ∧
    (inquiry label).bindings.fingerprint = (inquiry count).bindings.fingerprint ∧
    aliasType label .empty = label ∧
    aliasType label ((inquiry count).cacheAfter .empty) = count :=
  ⟨by decide, rfl, aliasType_empty _, aliasType_cacheAfter rfl⟩

open AliasProject in
/-- Queries for other types, among them a class that has the record as a member, make no difference
for a record. -/
theorem exec_run_apart_record :
    let label : Ty := .record [] [.ofTy "x" .string]
    let history := [inquiry .number, inquiry (.array .string),
      inquiry (.named "Box" [] [.ofTy "label" label])]
    aliasType label (history.foldl Inquiry.cacheAfter .empty) = label := by
  intro label history
  have plain : ∀ asked ∈ history, (inquiry label).bindings.Plain ∨ asked.bindings.Plain := by
    simp only [history, List.forall_mem_cons]
    decide
  have differ : ∀ asked ∈ history, (inquiry label).bindings.eqv asked.bindings = false := by
    simp only [history, List.forall_mem_cons]
    decide
  obtain ⟨-, same⟩ := exec_run_apart snapshot .standard false plain differ
  exact (same (Rule.ask (.decl key)) .empty).trans (aliasType_empty label)

end Infer

end LuaTyping
