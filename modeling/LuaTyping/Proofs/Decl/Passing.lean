import LuaTyping.Proofs.Decl.Lookup

/-!
# Steps before and after a decision

When the walk comes to a name that is assigned to, it decides from what it has recorded so far
whether the name is a global. A part of the walk that passes the name by (`Passes`) declares no
global for it and changes neither the innermost scope at the name nor what is looked up from scopes
with smaller numbers. A part that comes to the name (`Settles`) leaves a table in which a lookup
from the innermost scope tells what was decided. What is passed after that must declare nothing that
the name sees.
-/

set_option autoImplicit false

namespace LuaTyping

/-- A name node with its place in the text. -/
structure Mention where
  node : Nat
  pos : Nat
  name : String

/-- A reference by the name at that place sees the declaration. -/
def Mention.Sees (mention : Mention) (entry : Entry) : Prop :=
  entry.binds mention.name ∧ entry.isVisibleAt mention.pos

namespace ScopeTable

variable {table : ScopeTable}

/-- A global is declared at the node. -/
def DeclaresGlobal (table : ScopeTable) (n : Nat) : Prop :=
  ∃ d entry, table.entry? d = some entry ∧ entry.kind = .global ∧ entry.node = some n

theorem DeclaresGlobal.mono {new : ScopeTable} {n : Nat} (grows : table.Grows new)
    (h : table.DeclaresGlobal n) : new.DeclaresGlobal n := by
  obtain ⟨d, entry, found, is_global⟩ := h
  exact ⟨d, entry, grows.entry d entry found, is_global⟩

theorem declaresGlobal_declare {entry : Entry} {n : Nat} :
    (table.declare entry).DeclaresGlobal n ↔
      table.DeclaresGlobal n ∨ entry.kind = .global ∧ entry.node = some n := by
  constructor
  · rintro ⟨d, known, found, is_global⟩
    rw [entry?_declare] at found
    split at found
    · cases found
      exact .inr is_global
    · exact .inl ⟨d, known, found, is_global⟩
  · rintro (old | is_global)
    · exact old.mono (table.grows_declare entry)
    · exact ⟨table.entries.size, entry, by rw [entry?_declare, if_pos rfl], is_global⟩

theorem Grows.size_le {new : ScopeTable} (grows : table.Grows new) :
    table.scopes.size ≤ new.scopes.size := by
  refine Nat.le_of_not_lt fun less => ?_
  obtain ⟨_, found, -⟩ := grows.scope _ _ (Array.getElem?_eq_getElem less)
  exact Nat.lt_irrefl _ (Array.getElem?_eq_some_iff.mp found).1

end ScopeTable

/-! ## Passing by -/

/-- Scopes with smaller numbers do not see what is declared: not in the scope the walk is in, or, if
nothing visible is declared there, not in the scopes that it opens. -/
def Collector.limit (quiet : Bool) (c : Collector) : Nat :=
  if quiet then c.table.scopes.size else c.scope.getD 0

/-- From the first state to the second nothing has changed for the mention, as it is looked up from
the scopes with numbers below `bound`. -/
structure Collector.Spares (mention : Mention) (bound : Nat) (c c' : Collector) : Prop where
  sound : c'.Sound
  since : c.Since c'
  global : c'.table.DeclaresGlobal mention.node → c.table.DeclaresGlobal mention.node
  lookup : ∀ s < bound, c'.table.lookup mention.name mention.pos (some s)
    = c.table.lookup mention.name mention.pos (some s)
  innermost : c'.table.innermost mention.pos = c.table.innermost mention.pos

namespace Collector

variable {mention : Mention} {quiet : Bool} {bound : Nat} {c c' c'' : Collector}

theorem Since.limit_le (since : c.Since c') : c.limit quiet ≤ c'.limit quiet := by
  rw [limit, limit, since.scope]
  split
  · exact since.grows.size_le
  · exact Nat.le_refl _

theorem Sound.limit_le (sound : c.Sound) : c.limit quiet ≤ c.table.scopes.size := by
  obtain ⟨s, is_scope, there⟩ := sound.current
  rw [limit, is_scope]
  split
  · exact Nat.le_refl _
  · exact Nat.le_of_lt there

namespace Spares

theorem refl (sound : c.Sound) : c.Spares mention bound c :=
  ⟨sound, .refl c, id, fun _ _ => rfl, rfl⟩

theorem trans {bound' : Nat} (first : c.Spares mention bound c')
    (second : c'.Spares mention bound' c'') (le : bound ≤ bound') :
    c.Spares mention bound c'' where
  sound := second.sound
  since := first.since.trans second.since
  global declared := first.global (second.global declared)
  lookup s less := (second.lookup s (Nat.lt_of_lt_of_le less le)).trans (first.lookup s less)
  innermost := second.innermost.trans first.innermost

theorem mono {bound' : Nat} (h : c.Spares mention bound c') (le : bound' ≤ bound) :
    c.Spares mention bound' c' :=
  ⟨h.sound, h.since, h.global, fun s less => h.lookup s (Nat.lt_of_lt_of_le less le), h.innermost⟩

end Spares

end Collector

namespace Collect

variable {mention : Mention} {quiet : Bool} {α β : Type}

/-- The step passes the mention by, and is `quiet` if it declares nothing visible to the mention in
the scope it is in. -/
def Passes (mention : Mention) (quiet : Bool) (step : CollectM α) : Prop :=
  ∀ c : Collector, c.Sound → c.Spares mention (c.limit quiet) (step c).2

namespace Passes

theorem pure (a : α) : Passes mention quiet (Pure.pure a : CollectM α) := fun _ sound => .refl sound

/-- What follows a step may rest on what the step gives. -/
theorem bind_of (given : α → Collector → Prop) {step : CollectM α} {next : α → CollectM β}
    (first : Passes mention quiet step) (gives : ∀ c, given (step c).1 (step c).2)
    (then_ : ∀ a c, c.Sound → given a c → c.Spares mention (c.limit quiet) (next a c).2) :
    Passes mention quiet (step >>= next) := by
  intro c sound
  have before := first c sound
  exact before.trans (then_ _ _ before.sound (gives c)) before.since.limit_le

theorem bind {step : CollectM α} {next : α → CollectM β} (first : Passes mention quiet step)
    (then_ : ∀ a, Passes mention quiet (next a)) : Passes mention quiet (step >>= next) :=
  first.bind_of (fun _ _ => True) (fun _ => trivial) fun a c sound _ => then_ a c sound

theorem forM {list : List α} {step : α → CollectM Unit}
    (each : ∀ a ∈ list, Passes mention quiet (step a)) : Passes mention quiet (list.forM step) := by
  induction list with
  | nil => exact pure ()
  | cons a rest ih =>
    exact (each a List.mem_cons_self).bind fun _ =>
      ih fun b mem => each b (List.mem_cons_of_mem a mem)

theorem of_quiet {step : CollectM α} (h : Passes mention true step) : Passes mention quiet step :=
  fun c sound => (h c sound).mono sound.limit_le

end Passes

/-- A declaration that the mention does not see may stand anywhere; another one is seen from no
scope with a smaller number. -/
theorem spares_declare {c : Collector} (sound : c.Sound) {entry : Entry}
    (fresh : entry.Fresh c) (other : entry.kind = .global → entry.node ≠ some mention.node)
    (unseen : quiet → ¬ mention.Sees entry) :
    c.Spares mention (c.limit quiet) (declare entry c).2 where
  sound := sound_declare sound fresh
  since := since_declare entry c
  global declared := by
    refine (ScopeTable.declaresGlobal_declare.mp declared).resolve_right fun is_global => ?_
    exact other is_global.1 is_global.2
  lookup s less := by
    cases quiet with
    | true => exact sound.table.lookup_declare_of_hidden fresh.id (unseen rfl)
    | false =>
      obtain ⟨home, is_scope, -⟩ := sound.current
      rw [Collector.limit, is_scope] at less
      exact sound.table.lookup_declare_of_lt fresh.id (fresh.scope.trans is_scope) less
  innermost := ScopeTable.innermost_declare entry

theorem Declares.passes {ok : Entry → Prop} {step : CollectM α} (h : Declares ok step)
    (other : ∀ entry, ok entry → entry.kind = .global → entry.node ≠ some mention.node)
    (unseen : ∀ entry, ok entry → quiet → ¬ mention.Sees entry) : Passes mention quiet step := by
  intro c sound
  refine h (c.Spares mention (c.limit quiet) ·) (fun c' entry before here is_ok => ?_) c
    (.refl sound)
  exact before.trans
    (spares_declare before.sound here (other entry is_ok) (unseen entry is_ok))
    before.since.limit_le

theorem Declares.passes_of_hidden {step : CollectM α} (h : Declares Entry.Hidden step) :
    Passes mention quiet step :=
  h.passes (fun _ hidden is_global => absurd is_global hidden.not_global)
    fun _ hidden _ sees => hidden.unbound _ sees.1

/-- What is noted of functions does not matter. -/
theorem spares_notes {tree : Tree} {c c' : Collector} {bound : Nat} (sound : c.Sound)
    (notes : c.Notes tree c') : c.Spares mention bound c' where
  sound := sound_notes sound notes
  since := since_notes notes
  global declared := notes.table ▸ declared
  lookup s _ := by rw [notes.table]
  innermost := by rw [notes.table]

theorem passes_note (tree : Tree) {f : Collector → Collector}
    (notes : ∀ c : Collector, c.Notes tree (f c)) :
    Passes mention quiet (modify f : CollectM Unit) := fun c sound => spares_notes sound (notes c)

/-- Whatever is declared in a new scope, no scope that was there sees it. -/
theorem spares_inScope {c : Collector} (sound : c.Sound) (kind : ScopeKind) {span : Span}
    (function : NodeRef)
    (other : ¬ span.contains mention.pos ∨ c.scope ≠ some (c.table.innermost mention.pos))
    {body : CollectM Unit} (inside : Passes mention false body) :
    c.Spares mention c.table.scopes.size (inScope kind span function body c).2 := by
  obtain ⟨outer, is_scope, there⟩ := sound.current
  have opened := sound_openScope sound kind span function
  have spares := inside _ opened
  have limit : (openScope kind span function c).2.limit false = c.table.scopes.size := rfl
  have table : (openScope kind span function c).2.table
      = (c.table.openScope (some outer) kind span function).2 := by rw [← is_scope]; rfl
  obtain ⟨since, closed⟩ := since_closeScope spares.since
  have sound_after := sound_closeScope sound spares.since spares.sound
  show c.Spares mention _ (closeScope (body (openScope kind span function c).2).2).2
  rw [closed] at since sound_after ⊢
  refine ⟨sound_after, since, spares.global, fun s less => ?_, spares.innermost.trans ?_⟩
  · refine (spares.lookup s (limit ▸ less)).trans ?_
    rw [table]
    exact sound.table.lookup_openScope _ kind span function less
  · rw [table]
    refine sound.table.ordered.innermost_openScope_of_other there ?_
    exact other.symm.imp_left fun elsewhere same => elsewhere (same ▸ is_scope)

theorem passes_inScope (kind : ScopeKind) {span : Span} (function : NodeRef)
    (other : ¬ span.contains mention.pos) {body : CollectM Unit}
    (inside : Passes mention false body) :
    Passes mention quiet (inScope kind span function body) :=
  .of_quiet fun _ sound => spares_inScope sound kind function (.inl other) inside

/-! ## Deciding -/

end Collect

namespace Collector

variable {mention : Mention} {c c' c'' : Collector}

/-- The walk is in the innermost scope at the mention, and has not decided yet. -/
structure Awaits (mention : Mention) (c : Collector) : Prop where
  sound : c.Sound
  innermost : c.scope = some (c.table.innermost mention.pos)
  fresh : ¬ c.table.DeclaresGlobal mention.node

/-- From the first state to the second the walk has decided, and a lookup from the innermost scope
tells how. That scope is new, or if it need not be `deeper`, the one the walk is in. -/
structure Decides (mention : Mention) (deeper : Bool) (c c' : Collector) : Prop where
  sound : c'.Sound
  since : c.Since c'
  valid : c'.table.innermost mention.pos < c'.table.scopes.size
  place : deeper = false ∧ c.scope = some (c'.table.innermost mention.pos) ∨
    c.table.scopes.size ≤ c'.table.innermost mention.pos
  global : c'.table.DeclaresGlobal mention.node ↔
    c'.table.lookup mention.name mention.pos (some (c'.table.innermost mention.pos)) = none

theorem Awaits.spared {bound : Nat} (awaits : c.Awaits mention) (h : c.Spares mention bound c') :
    c'.Awaits mention where
  sound := h.sound
  innermost := by rw [h.since.scope, h.innermost, awaits.innermost]
  fresh declared := awaits.fresh (h.global declared)

namespace Decides

variable {deeper : Bool}

/-- Something was passed before. -/
theorem after {bound : Nat} (before : c.Spares mention bound c')
    (h : c'.Decides mention deeper c'') : c.Decides mention deeper c'' where
  sound := h.sound
  since := before.since.trans h.since
  valid := h.valid
  place := h.place.imp (fun here => ⟨here.1, before.since.scope ▸ here.2⟩)
    (Nat.le_trans before.since.grows.size_le)
  global := h.global

/-- Something is passed afterwards. -/
theorem spared (h : c.Decides mention deeper c')
    (after : c'.Spares mention c'.table.scopes.size c'') : c.Decides mention deeper c'' := by
  obtain ⟨sound, since, valid, place, global⟩ := h
  have grows := after.since.grows
  rw [← after.innermost] at valid place global
  refine ⟨after.sound, since.trans after.since, Nat.lt_of_lt_of_le valid grows.size_le, place, ?_⟩
  rw [after.lookup _ valid, ← global]
  exact ⟨after.global, fun declared => declared.mono grows⟩

theorem of_deeper (h : c.Decides mention true c') : c.Decides mention deeper c' :=
  ⟨h.sound, h.since, h.valid, h.place.imp_left (nomatch ·.1), h.global⟩

end Decides

end Collector

namespace Collect

variable {mention : Mention} {quiet deeper : Bool} {α β : Type}

/-- The step comes to the mention. -/
def Settles (mention : Mention) (deeper : Bool) (step : CollectM α) : Prop :=
  ∀ c : Collector, c.Awaits mention → c.Decides mention deeper (step c).2

namespace Settles

theorem after {step : CollectM α} {next : α → CollectM β} (first : Passes mention quiet step)
    (then_ : ∀ a, Settles mention deeper (next a)) : Settles mention deeper (step >>= next) := by
  intro c awaits
  have before := first c awaits.sound
  exact (then_ _ _ (awaits.spared before)).after before

theorem bind {step : CollectM α} {next : α → CollectM β} (first : Settles mention deeper step)
    (then_ : ∀ a, Passes mention true (next a)) : Settles mention deeper (step >>= next) := by
  intro c awaits
  have decided := first c awaits
  exact decided.spared (then_ _ _ decided.sound)

theorem of_deeper {step : CollectM α} (h : Settles mention true step) :
    Settles mention deeper step := fun c awaits => (h c awaits).of_deeper

/-- Of several steps one comes to the mention. -/
theorem forM {list before after : List α} {a : α} (split : list = before ++ a :: after)
    {step : α → CollectM Unit} (passed : ∀ b ∈ before, Passes mention quiet (step b))
    (settles : Settles mention deeper (step a))
    (later : ∀ b ∈ after, Passes mention true (step b)) :
    Settles mention deeper (list.forM step) := by
  subst split
  induction before with
  | nil => exact settles.bind fun _ => .forM later
  | cons b before ih =>
    exact .after (passed b List.mem_cons_self) fun _ =>
      ih fun b' mem => passed b' (List.mem_cons_of_mem b mem)

end Settles

/-- Inside a new scope that holds the mention. -/
theorem settles_inScope (kind : ScopeKind) {span : Span} (function : NodeRef)
    (holds : span.contains mention.pos) {body : CollectM Unit}
    (inside : Settles mention false body) :
    Settles mention deeper (inScope kind span function body) := by
  intro c awaits
  obtain ⟨outer, is_scope, there⟩ := awaits.sound.current
  have table : (openScope kind span function c).2.table
      = (c.table.openScope (some outer) kind span function).2 := by rw [← is_scope]; rfl
  have innermost : (openScope kind span function c).2.table.innermost mention.pos
      = c.table.scopes.size := by
    rw [table]
    refine awaits.sound.table.ordered.innermost_openScope there ?_ holds
    exact Option.some.inj (awaits.innermost.symm.trans is_scope)
  have opened : (openScope kind span function c).2.Awaits mention :=
    ⟨sound_openScope awaits.sound kind span function, by rw [innermost]; rfl, awaits.fresh⟩
  obtain ⟨sound, since, valid, place, global⟩ := inside _ opened
  obtain ⟨since_after, closed⟩ := since_closeScope since
  have sound_after := sound_closeScope awaits.sound since sound
  show c.Decides mention deeper (closeScope (body (openScope kind span function c).2).2).2
  rw [closed] at since_after sound_after ⊢
  refine ⟨sound_after, since_after, valid, .inr ?_, global⟩
  rcases place with ⟨-, here⟩ | deeper
  · exact Nat.le_of_eq (Option.some.inj here)
  · rw [table, ScopeTable.size_scopes_openScope] at deeper
    exact Nat.le_of_succ_le deeper

/-- The scope of the mention is already there when another one that holds it is opened. -/
theorem Settles.bind_inScope {header body : CollectM Unit} (first : Settles mention true header)
    (kind : ScopeKind) (span : Span) (function : NodeRef) (inside : Passes mention false body) :
    Settles mention deeper (header >>= fun _ => inScope kind span function body) := by
  intro c awaits
  have decided := first c awaits
  refine (decided.spared (spares_inScope decided.sound kind function (.inr ?_) inside)).of_deeper
  obtain ⟨outer, is_scope, there⟩ := awaits.sound.current
  rw [decided.since.scope, is_scope]
  have deeper := decided.place.resolve_left nofun
  exact fun same => Nat.not_le_of_lt there (Option.some.inj same ▸ deeper)

/-- A name that is assigned to is declared as a global if it is not bound. -/
theorem snd_declareGlobal (tree : Tree) (stmt target : NodeRef) (name : String)
    (initializer : Option Initializer) (doc : Option DocComment) (className : Option String)
    (c : Collector) :
    ∃ entry : Entry, entry.Fresh c ∧ entry.kind = .global ∧ entry.node = target ∧
      (declareGlobal tree stmt target name initializer doc className c).2
        = if (c.table.lookup name (tree.span target).start c.scope).isSome then c
          else (declare entry c).2 := by
  refine ⟨documented
    { Entry.plain c.table.entries.size .global name c.scope target (tree.span target) with
      visibleFrom := (tree.span stmt).stop, initializer } doc className,
    ⟨documented_id _ _ _, documented_scope _ _ _⟩, by simp [Entry.plain], by simp [Entry.plain], ?_⟩
  have read : localBinding? tree name target c
      = (c.table.lookup name (tree.span target).start c.scope, c) := rfl
  cases found : c.table.lookup name (tree.span target).start c.scope with
  | some d =>
    rw [found] at read
    simp only [declareGlobal, bind, StateT.bind, read, Option.isSome_some, ↓reduceIte]
    rfl
  | none =>
    rw [found] at read
    simp only [declareGlobal, bind, StateT.bind, read, Option.isSome_none, Bool.false_eq_true,
      ↓reduceIte]
    rfl

/-- The name itself. What is declared for it is a global, which no lookup sees. -/
theorem settles_declareGlobal {tree : Tree}
    (start : (tree.span (some mention.node)).start = mention.pos) (stmt : NodeRef)
    (initializer : Option Initializer) (doc : Option DocComment) (className : Option String) :
    Settles mention false (declareGlobal tree stmt (some mention.node) mention.name initializer doc
      className) := by
  intro c awaits
  have sound := awaits.sound
  obtain ⟨outer, is_scope, there⟩ := sound.current
  have innermost : c.table.innermost mention.pos = outer :=
    Option.some.inj (awaits.innermost.symm.trans is_scope)
  obtain ⟨entry, fresh, kind, node, after⟩ :=
    snd_declareGlobal tree stmt (some mention.node) mention.name initializer doc className c
  rw [after, start, awaits.innermost]
  split
  · rename_i bound
    refine ⟨sound, .refl c, innermost ▸ there, .inl ⟨rfl, awaits.innermost⟩, ?_⟩
    rw [← Option.not_isSome_iff_eq_none]
    exact iff_of_false awaits.fresh (not_not_intro bound)
  · rename_i unbound
    have hidden : ¬ (entry.binds mention.name ∧ entry.isVisibleAt mention.pos) := by
      simp [Entry.binds, DeclKind.isLexical, kind]
    have since := since_declare entry c
    refine ⟨sound_declare sound fresh, since, ?_, .inl ⟨rfl, ?_⟩, ?_⟩
    · rw [show (declare entry c).2.table.innermost mention.pos = _ from
        ScopeTable.innermost_declare entry, innermost]
      exact Nat.lt_of_lt_of_le there since.grows.size_le
    · rw [awaits.innermost]
      exact congrArg some (ScopeTable.innermost_declare entry).symm
    · refine iff_of_true (ScopeTable.declaresGlobal_declare.mpr (.inr ⟨kind, node⟩)) ?_
      rw [show (declare entry c).2.table.innermost mention.pos = _ from
        ScopeTable.innermost_declare entry]
      refine (sound.table.lookup_declare_of_hidden fresh.id hidden).trans ?_
      exact Option.not_isSome_iff_eq_none.mp unbound

/-! ## Functions -/

section Closure

variable {tree : Tree} {visit : Visit → CollectM Unit} {n : Nat} {params : List NodeRef}
  {variadic : Bool} {body : NodeRef}
  (found : tree.form? (some n) = some (.closure params variadic body))
include found

/-- A function is noted with its parameters before its body is walked. -/
theorem visitClosure_eq_inScope (doc : Option DocComment) (owner : Option Owner) (method : Bool) :
    ∃ entering : CollectM Unit, Passes mention false entering ∧
      visitClosure tree visit (some n) doc owner method
        = inScope .function (tree.span (some n)) (some n) (do
            entering
            visit (.stmts body)
            modify fun c => { c with closures := c.closures.tail }) := by
  obtain ⟨prelude, declares, describes, -, eq⟩ := visitClosure_eq visit found doc owner method
  let note (info : FunctionInfo) : CollectM Unit := modify fun c =>
    { c with functions := c.functions.insert n info, closures := n :: c.closures }
  refine ⟨prelude >>= note, ?_, by rw [eq, bind_assoc]⟩
  have params : Passes mention false prelude :=
    declares.passes (fun _ kind is_global => by simp [kind] at is_global) (by simp)
  refine params.bind_of (fun info c => c.table.Describes tree n info) describes ?_
  exact fun info c sound described => spares_notes sound (.insert c n _ described)

theorem passes_visitClosure (other : ¬ (tree.span (some n)).contains mention.pos)
    (inside : Passes mention false (visit (.stmts body))) (doc : Option DocComment)
    (owner : Option Owner) (method : Bool) :
    Passes mention quiet (visitClosure tree visit (some n) doc owner method) := by
  obtain ⟨entering, enters, eq⟩ := visitClosure_eq_inScope found doc owner method
  rw [eq]
  exact passes_inScope .function _ other (enters.bind fun _ =>
    inside.bind fun _ => passes_note tree fun c => .closures c _)

theorem settles_visitClosure (holds : (tree.span (some n)).contains mention.pos)
    (inside : Settles mention false (visit (.stmts body))) (doc : Option DocComment)
    (owner : Option Owner) (method : Bool) :
    Settles mention deeper (visitClosure tree visit (some n) doc owner method) := by
  obtain ⟨entering, enters, eq⟩ := visitClosure_eq_inScope found doc owner method
  rw [eq]
  exact settles_inScope .function _ holds (.after enters fun _ =>
    inside.bind fun _ => passes_note tree fun c => .closures c _)

end Closure

end Collect

end LuaTyping
