import LuaTyping.Decl.FileDecls
import LuaTyping.Proofs.Decl.Course
import LuaTyping.Proofs.Decl.Scopes
import Mathlib.Data.List.Nodup

/-!
# The functions of a file

In a tree that follows the grammar the walk records every function expression once, opens one scope
for it, and notes with it the return statements that belong to it and to no function inside it. The
functions and return statements under a node are listed in the order of the text; a visit of the
node records just those (`Records`), and visits of parts that have nothing in common add up.
-/

set_option autoImplicit false

namespace LuaTyping

def Form.isReturn : Form → Bool
  | .ret _ => true
  | _ => false

namespace Tree

def IsClosure (tree : Tree) (n : Nat) : Prop :=
  ∃ params variadic body, tree.form? (some n) = some (.closure params variadic body)

def IsReturn (tree : Tree) (n : Nat) : Prop := ∃ exprs, tree.form? (some n) = some (.ret exprs)

/-- The node lies in the function `c`, and in no function inside `c`. -/
def Within (tree : Tree) (c n : Nat) : Prop :=
  ∃ p, tree.ChildOf p c ∧
    Relation.ReflTransGen (fun child whole => tree.ChildOf child whole ∧ ¬ tree.IsClosure whole) n p

/-- These are the return statements of the function `c`, each once and in the order of the text. -/
structure Returns (tree : Tree) (c : Nat) (stmts : List Nat) : Prop where
  nodup : stmts.Nodup
  mem_iff : ∀ n, n ∈ stmts ↔ tree.IsReturn n ∧ tree.Within c n
  ordered : stmts.Pairwise tree.Precedes

/-- The functions under a node. -/
def closures (tree : Tree) : Nat → NodeRef → List Nat := tree.listing Form.isClosure fun _ => true

/-- The return statements under a node that are in no function under it. -/
def returns (tree : Tree) : Nat → NodeRef → List Nat :=
  tree.listing Form.isReturn fun form => !form.isClosure

variable {tree : Tree} {height : Nat}

theorem isClosure_iff {n : Nat} :
    (∃ form, tree.form? (some n) = some form ∧ form.isClosure) ↔ tree.IsClosure n := by
  constructor
  · rintro ⟨form, found, is_closure⟩
    cases form with
    | closure params variadic body => exact ⟨params, variadic, body, found⟩
    | _ => cases is_closure
  · rintro ⟨params, variadic, body, found⟩
    exact ⟨_, found, rfl⟩

theorem isReturn_iff {n : Nat} :
    (∃ form, tree.form? (some n) = some form ∧ form.isReturn) ↔ tree.IsReturn n := by
  constructor
  · rintro ⟨form, found, is_return⟩
    cases form with
    | ret exprs => exact ⟨exprs, found⟩
    | _ => cases is_return
  · rintro ⟨exprs, found⟩
    exact ⟨_, found, rfl⟩

theorem closures_of_form? {n : Nat} {form : Form} (found : tree.form? (some n) = some form) :
    tree.closures (height + 1) (some n)
      = (if form.isClosure then [n] else []) ++ form.parts.flatMap (tree.closures height) :=
  listing_of_form? found

theorem returns_of_form? {n : Nat} {form : Form} (found : tree.form? (some n) = some form)
    (no_closure : form.isClosure = false) :
    tree.returns (height + 1) (some n)
      = (if form.isReturn then [n] else []) ++ form.parts.flatMap (tree.returns height) := by
  refine (listing_of_form? found).trans ?_
  rw [no_closure]
  rfl

theorem closures_of_absent {ref : NodeRef} (absent : tree.form? ref = none) :
    tree.closures height ref = [] := listing_of_absent absent

theorem returns_of_absent {ref : NodeRef} (absent : tree.form? ref = none) :
    tree.returns height ref = [] := listing_of_absent absent

theorem closures_of_bare {ref : NodeRef} (bare : tree.Bare ref) : tree.closures height ref = [] :=
  listing_of_bare (fun _ => rfl) (fun _ _ => rfl) bare height

theorem returns_of_bare {ref : NodeRef} (bare : tree.Bare ref) : tree.returns height ref = [] :=
  listing_of_bare (fun _ => rfl) (fun _ _ => rfl) bare height

theorem entered_iff {child whole : Nat} :
    tree.Entered (fun form => !form.isClosure) child whole ↔
      tree.ChildOf child whole ∧ ¬ tree.IsClosure whole := by
  rw [Entered, ← isClosure_iff]
  refine and_congr_right fun part => ?_
  obtain ⟨form, found, -⟩ := exists_form_of_childOf part
  simp [found]

/-- The return statements listed under the parts of a function are its own. -/
theorem Rooted.returns_flatMap (rooted : tree.Rooted) {c : Nat} {form : Form}
    (reached : tree.Reached c) (h : tree.HeightLE c (height + 1))
    (found : tree.form? (some c) = some form) :
    tree.Returns c (form.parts.flatMap (tree.returns height)) := by
  have listed : (form.parts.flatMap (tree.returns height)).Pairwise
      fun a b => tree.Precedes a b ∧ a ≠ b :=
    rooted.pairwise_flatMap_listing reached found h fun p part =>
      have child := (childOf_iff found).mpr part
      rooted.pairwise_listing (reached.of_childOf child) (h p child)
  refine ⟨listed.imp And.right, fun n => ?_, listed.imp And.left⟩
  have path : tree.Entered (fun form => !form.isClosure)
      = fun child whole => tree.ChildOf child whole ∧ ¬ tree.IsClosure whole := by
    funext child whole
    exact propext entered_iff
  exact (mem_flatMap_listing_iff h found).trans (and_congr isReturn_iff (by rw [path, Within]))

end Tree

/-! ## Scopes of functions -/

/-- The functions that have a scope, in the order in which the scopes were opened. -/
def ScopeTable.functionScopes (table : ScopeTable) : List NodeRef :=
  table.scopes.toList.filterMap fun scope =>
    if scope.kind = .function then some scope.function else none

theorem filterMap_modify {α β : Type} {f : α → Option β} {g : α → α}
    (same : ∀ a, f (g a) = f a) (list : List α) (i : Nat) :
    (list.modify i g).filterMap f = list.filterMap f := by
  induction list generalizing i with
  | nil => cases i <;> simp
  | cons a rest ih => cases i <;> simp [List.filterMap_cons, same, ih]

namespace ScopeTable

variable (table : ScopeTable)

theorem functionScopes_declare (entry : Entry) :
    (table.declare entry).functionScopes = table.functionScopes := by
  rw [declare]
  cases entry.scope with
  | none => rfl
  | some home =>
    simp only [functionScopes, Array.toList_modify]
    refine filterMap_modify ?_ _ home
    exact fun _ => rfl

theorem functionScopes_openScope (parent : Option Nat) (kind : ScopeKind) (span : Span)
    (function : NodeRef) :
    (table.openScope parent kind span function).2.functionScopes
      = table.functionScopes ++ if kind = .function then [function] else [] := by
  have pushed : (table.scopes.push ⟨kind, parent, span, #[], #[], function⟩).toList.filterMap
      (fun scope => if scope.kind = .function then some scope.function else none)
      = table.functionScopes ++ if kind = .function then [function] else [] := by
    by_cases is_function : kind = .function <;> simp [functionScopes, is_function]
  cases parent with
  | none => exact pushed
  | some outer =>
    rw [← pushed]
    simp only [openScope, functionScopes, Array.toList_modify]
    refine filterMap_modify ?_ _ outer
    exact fun _ => rfl

end ScopeTable

/-! ## What a step records -/

/-- With some more return statements. -/
def FunctionInfo.noting (info : FunctionInfo) (stmts : List Nat) : FunctionInfo :=
  { info with returnStmts := info.returnStmts ++ stmts.toArray }

@[simp]
theorem FunctionInfo.noting_nil (info : FunctionInfo) : info.noting [] = info := by simp [noting]

@[simp]
theorem FunctionInfo.noting_noting (info : FunctionInfo) (stmts more : List Nat) :
    (info.noting stmts).noting more = info.noting (stmts ++ more) := by
  simp [noting, Array.append_assoc]

/-- The second state has the functions in `found` besides those of the first, each with its own
return statements, and the innermost function the walk is in has those in `stmts` besides its
others. -/
structure Collector.Gains (tree : Tree) (found stmts : List Nat) (c c' : Collector) : Prop where
  closures : c'.closures = c.closures
  scopes : c'.table.functionScopes = c.table.functionScopes ++ found.map some
  made : ∀ i ∈ found, ∃ info, c'.functions[i]? = some info ∧
    tree.Returns i info.returnStmts.toList
  kept : ∀ i ∉ found, c'.functions[i]?
    = (c.functions[i]?).map fun info =>
        info.noting (if c.closures.head? = some i then stmts else [])

namespace Collector.Gains

variable {tree : Tree} {found found' stmts stmts' : List Nat} {c c' c'' : Collector}

theorem refl (c : Collector) : c.Gains tree [] [] c :=
  ⟨rfl, by simp, by simp, fun i _ => by simp⟩

theorem trans (first : c.Gains tree found stmts c') (second : c'.Gains tree found' stmts' c'')
    (apart : ∀ i ∈ found, i ∉ found') (inside : ∀ i ∈ c.closures.head?, i ∉ found) :
    c.Gains tree (found ++ found') (stmts ++ stmts') c'' where
  closures := second.closures.trans first.closures
  scopes := by rw [second.scopes, first.scopes]; simp
  made i mem := by
    rcases List.mem_append.mp mem with mem | mem
    · obtain ⟨info, made, returns⟩ := first.made i mem
      have other : c'.closures.head? ≠ some i := by
        rw [first.closures]
        exact fun head => inside i head mem
      refine ⟨info, ?_, returns⟩
      rw [second.kept i (apart i mem), made]
      simp [other]
    · exact second.made i mem
  kept i other := by
    rw [List.mem_append, not_or] at other
    rw [second.kept i other.2, first.kept i other.1, Option.map_map, first.closures]
    congr 1
    funext info
    by_cases head : c.closures.head? = some i <;> simp [head]

end Collector.Gains

namespace Collect

variable {tree : Tree} {α β : Type} {found found' stmts stmts' : List Nat}

/-- The step records the functions in `found`, and notes the return statements in `stmts`. -/
def Records (tree : Tree) (found stmts : List Nat) (step : CollectM α) : Prop :=
  ∀ c : Collector, (∀ i ∈ c.closures.head?, i ∉ found) → c.Gains tree found stmts (step c).2

namespace Records

theorem pure (a : α) : Records tree [] [] (Pure.pure a : CollectM α) := fun c _ => .refl c

theorem bind {step : CollectM α} {next : α → CollectM β} (first : Records tree found stmts step)
    (then_ : ∀ a, Records tree found' stmts' (next a)) (apart : ∀ i ∈ found, i ∉ found') :
    Records tree (found ++ found') (stmts ++ stmts') (step >>= next) := by
  intro c inside
  have before := first c fun i head mem => inside i head (List.mem_append_left _ mem)
  refine before.trans (then_ _ _ fun i head mem => ?_) apart fun i head mem =>
    inside i head (List.mem_append_left _ mem)
  rw [before.closures] at head
  exact inside i head (List.mem_append_right _ mem)

theorem forM {list : List α} {made noted : α → List Nat} {step : α → CollectM Unit}
    (each : ∀ a ∈ list, Records tree (made a) (noted a) (step a))
    (nodup : (list.flatMap made).Nodup) :
    Records tree (list.flatMap made) (list.flatMap noted) (list.forM step) := by
  induction list with
  | nil => exact pure ()
  | cons a rest ih =>
    rw [List.flatMap_cons] at nodup ⊢
    rw [List.flatMap_cons]
    obtain ⟨-, nodup, apart⟩ := List.nodup_append.mp nodup
    exact (each a List.mem_cons_self).bind
      (fun _ => ih (fun b mem => each b (List.mem_cons_of_mem a mem)) nodup)
      fun i mem mem' => apart i mem i mem' rfl

end Records

/-- Declaring says nothing of functions. -/
theorem Declares.records {ok : Entry → Prop} {step : CollectM α} (h : Declares ok step) :
    Records tree [] [] step := by
  intro c _
  refine h (c.Gains tree [] []) (fun c' entry gains _ _ => ?_) c (.refl c)
  exact ⟨gains.closures, (c'.table.functionScopes_declare entry).trans gains.scopes, by simp,
    gains.kept⟩

theorem Records.after {ok : Entry → Prop} {step : CollectM α} {next : α → CollectM β}
    (declares : Declares ok step) (then_ : ∀ a, Records tree found stmts (next a)) :
    Records tree found stmts (step >>= next) := declares.records.bind then_ (by simp)

/-- Going out of a scope changes nothing but the scope the walk is in. -/
theorem exists_closeScope (c : Collector) : ∃ s, (closeScope c).2 = { c with scope := s } := by
  rw [closeScope, snd_modify]
  split
  · exact ⟨_, rfl⟩
  · exact ⟨c.scope, rfl⟩

theorem records_inScope {kind : ScopeKind} (other : kind ≠ .function) (span : Span)
    (function : NodeRef) {body : CollectM Unit} (inside : Records tree found stmts body) :
    Records tree found stmts (inScope kind span function body) := by
  intro c head
  have gains := inside (openScope kind span function c).2 head
  obtain ⟨s, closed⟩ := exists_closeScope (body (openScope kind span function c).2).2
  have opened : (openScope kind span function c).2.table.functionScopes
      = c.table.functionScopes := by
    refine (c.table.functionScopes_openScope c.scope kind span function).trans ?_
    rw [if_neg other, List.append_nil]
  have scopes := gains.scopes
  rw [opened] at scopes
  show c.Gains tree found stmts (closeScope (body (openScope kind span function c).2).2).2
  rw [closed]
  exact ⟨gains.closures, scopes, gains.made, gains.kept⟩

theorem records_noteReturn (n : Nat) : Records tree [] [n] (noteReturn (some n)) := by
  rintro ⟨table, tables, functions, scope, closures⟩ _
  rw [noteReturn, snd_modify]
  cases closures with
  | nil => exact ⟨rfl, by simp, by simp, fun i _ => by simp⟩
  | cons closure rest =>
    refine ⟨rfl, by simp, by simp, fun i _ => ?_⟩
    dsimp only
    rw [Std.HashMap.getElem?_modify]
    by_cases same : closure = i
    · simp [same, FunctionInfo.noting]
    · simp [same]

/-- A function is recorded with the return statements that are noted while its body is walked. -/
theorem records_visitClosure {visit : Visit → CollectM Unit} {index : Nat}
    {params : List NodeRef} {variadic : Bool} {body : NodeRef}
    (is_closure : tree.form? (some index) = some (.closure params variadic body))
    (inside : Records tree found stmts (visit (.stmts body))) (fresh : index ∉ found)
    (returns : tree.Returns index stmts) (doc : Option DocComment) (owner : Option Owner)
    (method : Bool) :
    Records tree (index :: found) [] (visitClosure tree visit (some index) doc owner method) := by
  obtain ⟨prelude, declares, -, empty, eq⟩ := visitClosure_eq visit is_closure doc owner method
  rintro c -
  rw [eq]
  -- the states after the scope is opened, before the body is walked, and after it
  let opened := (openScope .function (tree.span (some index)) (some index) c).2
  let entered : Collector :=
    { (prelude opened).2 with
      functions := (prelude opened).2.functions.insert index (prelude opened).1
      closures := index :: (prelude opened).2.closures }
  let walked := (visit (.stmts body) entered).2
  obtain ⟨s, closed⟩ := exists_closeScope { walked with closures := walked.closures.tail }
  have declared : opened.Gains tree [] [] (prelude opened).2 :=
    declares.records opened (by simp)
  have gains : entered.Gains tree found stmts walked :=
    inside entered (by simpa [entered] using fresh)
  show c.Gains tree (index :: found) []
    (closeScope { walked with closures := walked.closures.tail }).2
  rw [closed]
  have kept (i : Nat) (other : i ≠ index) : entered.functions[i]? = c.functions[i]? := by
    have before : opened.functions = c.functions := rfl
    have same := declared.kept i (by simp)
    simpa [entered, Std.HashMap.getElem?_insert, Ne.symm other, before] using same
  refine ⟨?_, ?_, fun i mem => ?_, fun i other => ?_⟩
  · show walked.closures.tail = c.closures
    rw [gains.closures]
    exact declared.closures
  · show walked.table.functionScopes = _
    rw [gains.scopes]
    show (prelude opened).2.table.functionScopes ++ _ = _
    rw [declared.scopes]
    show (c.table.openScope c.scope .function _ (some index)).2.functionScopes ++ _ ++ _ = _
    simp [ScopeTable.functionScopes_openScope]
  · by_cases same : i = index
    · refine ⟨(prelude opened).1.noting stmts, ?_, ?_⟩
      · show walked.functions[i]? = _
        rw [gains.kept i (same ▸ fresh)]
        simp [entered, same]
      · simpa [FunctionInfo.noting, empty, same] using returns
    · exact gains.made i ((List.mem_cons.mp mem).resolve_left same)
  · rw [List.mem_cons, not_or] at other
    show walked.functions[i]? = _
    rw [gains.kept i other.2, kept i other.1]
    simp [entered, Ne.symm other.1]

/-! ## The walk -/

section Walk

variable {role : Nat → Role} {visit : Visit → CollectM Unit} {height : Nat}

/-- A visit of a node of bounded height records what is under it. -/
def Recorded (tree : Tree) : (role : Nat → Role) → (Visit → CollectM Unit) → Nat → Prop :=
  (Each tree · fun height v step =>
    Records tree (tree.closures height v.node) (tree.returns height v.node) step)

variable (rooted : tree.Rooted) (grammatical : tree.GrammaticalAs role)
include rooted grammatical

theorem records_closure (recorded : Recorded tree role visit height) {n : Nat}
    {params : List NodeRef} {variadic : Bool} {body : NodeRef} (reached : tree.Reached n)
    (h : tree.HeightLE n (height + 1))
    (found : tree.form? (some n) = some (.closure params variadic body))
    (doc : Option DocComment) (owner : Option Owner) (method : Bool) :
    Records tree (tree.closures (height + 1) (some n)) (tree.returns (height + 1) (some n))
      (visitClosure tree visit (some n) doc owner method) := by
  have plays := plays_parts grammatical reached found
  have bare (ref : NodeRef) (mem : ref ∈ params) : tree.Bare ref :=
    bare_of_plays grammatical reached h found (plays (.name, ref) (by simp [Form.roles, mem]))
      (by simp [Form.parts, mem]) (.inl rfl)
  have closures_eq : tree.closures (height + 1) (some n) = n :: tree.closures height body := by
    have none_in : params.flatMap (tree.closures height) = [] :=
      List.flatMap_eq_nil_iff.mpr fun ref mem => Tree.closures_of_bare (bare ref mem)
    rw [Tree.closures_of_form? found, Form.parts, List.flatMap_append, none_in]
    simp [Form.isClosure]
  have returns_eq : tree.returns (height + 1) (some n) = [] :=
    (Tree.listing_of_form? found).trans rfl
  have own : tree.Returns n (tree.returns height body) := by
    have none_in : params.flatMap (tree.returns height) = [] :=
      List.flatMap_eq_nil_iff.mpr fun ref mem => Tree.returns_of_bare (bare ref mem)
    simpa [Form.parts, none_in] using rooted.returns_flatMap reached h found
  have nodup : (tree.closures (height + 1) (some n)).Nodup :=
    (rooted.pairwise_listing reached h).imp And.right
  have reaches : Reaches tree height body := .of_part reached h found (by simp [Form.parts])
  have plays_body : Plays tree role .body body := plays (.body, body) (by simp [Form.roles])
  have inside := recorded (.stmts body) (suits_stmts grammatical reaches plays_body) reaches
  rw [closures_eq] at nodup ⊢
  rw [returns_eq]
  exact records_visitClosure found inside (List.nodup_cons.mp nodup).1 own doc owner method

/-- The induction is on the way in which the parts are dealt with. -/
theorem records_course {n : Nat} {α : Type} {xs : List NodeRef} {step : CollectM α}
    (course : Course tree role visit n xs step)
    (recorded : ∀ lower ≤ height, Recorded tree role visit lower)
    (reaches : ∀ ref ∈ xs, Reaches tree height ref)
    (nodup : (xs.flatMap (tree.closures height)).Nodup) :
    Records tree (xs.flatMap (tree.closures height)) (xs.flatMap (tree.returns height)) step := by
  induction course generalizing height with
  | declares declares => exact declares.records
  | bind _ _ first_ih then_ih =>
    rw [List.flatMap_append] at nodup ⊢
    rw [List.flatMap_append]
    obtain ⟨nodup, nodup', apart⟩ := List.nodup_append.mp nodup
    refine .bind
      (first_ih recorded (fun ref mem => reaches ref (List.mem_append_left _ mem)) nodup)
      (fun a =>
        then_ih a recorded (fun ref mem => reaches ref (List.mem_append_right _ mem)) nodup')
      fun i mem mem' => apart i mem i mem' rfl
  | skip bare _ rest ih =>
    rw [List.flatMap_cons, Tree.closures_of_bare bare, List.nil_append] at nodup ⊢
    rw [List.flatMap_cons, Tree.returns_of_bare bare, List.nil_append]
    exact ih recorded (fun ref mem => reaches ref (List.mem_cons_of_mem _ mem)) nodup
  | target _ _ found initializer doc className =>
    simp only [List.flatMap_singleton, Tree.closures_of_bare (.name found),
      Tree.returns_of_bare (.name found)]
    exact (declares_declareGlobal _ _ _ _ _ _).records
  | expr plays _ doc =>
    simp only [List.flatMap_singleton]
    exact recorded height (Nat.le_refl _) (.expr _ doc) plays (reaches _ List.mem_cons_self)
  | @closure n ref plays doc owner method =>
    simp only [List.flatMap_singleton]
    have reaches := reaches ref List.mem_cons_self
    cases found : tree.form? ref with
    | none =>
      rw [Tree.closures_of_absent found, Tree.returns_of_absent found]
      simp only [visitClosure, found]
      exact .pure ()
    | some form =>
      cases ref with
      | none => cases found
      | some p =>
        have admits := grammatical.admits p form (reaches p rfl).1 found
        rw [plays p form rfl found] at admits
        cases form with
        | closure params variadic body =>
          cases height with
          | zero => exact (reaches p rfl).2.elim
          | succ height =>
            exact records_closure rooted grammatical (recorded height (Nat.le_succ _))
              (reaches p rfl).1 (reaches p rfl).2 found doc owner method
        | _ => simp [Role.admits] at admits
  | @block n ref plays _ kind other =>
    simp only [List.flatMap_singleton]
    have reaches := reaches ref List.mem_cons_self
    cases ref with
    | none =>
      rw [Tree.closures_of_absent rfl, Tree.returns_of_absent rfl]
      exact .pure ()
    | some p =>
      exact records_inScope other _ _ (recorded height (Nat.le_refl _) (.stmts (some p))
        (suits_stmts grammatical reaches plays) reaches)
  | @inner n p form step found no_stmt no_closure _ parts ih =>
    simp only [List.flatMap_singleton] at nodup ⊢
    have reaches := reaches (some p) List.mem_cons_self p rfl
    cases height with
    | zero => exact reaches.2.elim
    | succ height =>
      have no_return : form.isReturn = false := by cases form <;> first | rfl | cases no_stmt
      simp only [Tree.closures_of_form? found, Tree.returns_of_form? found no_closure, no_closure,
        no_return, Bool.false_eq_true, ↓reduceIte, List.nil_append] at nodup ⊢
      exact ih (fun lower le => recorded lower (Nat.le_succ_of_le le))
        (fun ref part => .of_part reaches.1 reaches.2 found part) nodup

/-- What a statement declares is no function expression, and neither are the variables of a loop. -/
theorem records_progress {n : Nat} {xs : List NodeRef} {step : CollectM Unit}
    (progress : Progress tree role visit n xs step)
    (recorded : ∀ lower ≤ height, Recorded tree role visit lower)
    (reaches : ∀ ref ∈ xs, Reaches tree height ref)
    (nodup : (xs.flatMap (tree.closures height)).Nodup) :
    Records tree (xs.flatMap (tree.closures height)) (xs.flatMap (tree.returns height)) step := by
  have course {α : Type} {xs : List NodeRef} {step : CollectM α}
      (course : Course tree role visit n xs step) :=
    records_course rooted grammatical course recorded
  cases progress with
  | plain declares parts => exact .after declares fun _ => course parts reaches nodup
  | @loop xs ys body header fresh rest _ before declares plays after =>
    simp only [List.flatMap_append, List.flatMap_cons] at nodup ⊢
    obtain ⟨nodup, nodup', apart⟩ := List.nodup_append.mp nodup
    obtain ⟨-, nodup'', apart'⟩ := List.nodup_append.mp nodup'
    have reaches_body : Reaches tree height body := reaches body (by simp)
    have first := course before (fun ref mem => reaches ref (by simp [mem])) nodup
    have inside := recorded height (Nat.le_refl _) (.stmts body)
      (suits_stmts grammatical reaches_body plays) reaches_body
    have last := course after (fun ref mem => reaches ref (by simp [mem])) nodup''
    refine first.bind (fun _ => records_inScope (by simp) _ _ ?_) fun i mem mem' =>
      apart i mem i mem' rfl
    exact .after declares fun _ => inside.bind (fun _ => last) fun i mem mem' =>
      apart' i mem i mem' rfl

omit grammatical in
theorem nodup_closures {n : Nat} (reached : tree.Reached n) (h : tree.HeightLE n height) :
    (tree.closures height (some n)).Nodup := (rooted.pairwise_listing reached h).imp And.right

/-- A block is walked statement by statement. -/
theorem records_block (recorded : Recorded tree role visit height) {n : Nat}
    {stmts : List NodeRef} (reached : tree.Reached n) (h : tree.HeightLE n (height + 1))
    (found : tree.form? (some n) = some (.block stmts)) :
    Records tree (tree.closures (height + 1) (some n)) (tree.returns (height + 1) (some n))
      (visitStep tree visit (.stmts (some n))) := by
  have nodup := nodup_closures rooted reached h
  have plays := plays_parts grammatical reached found
  simp only [visitStep, found, Tree.closures_of_form? found, Tree.returns_of_form? found rfl,
    Form.isClosure, Form.isReturn, Bool.false_eq_true, ↓reduceIte, List.nil_append] at nodup ⊢
  refine .forM (fun ref mem => recorded (.stmt ref) (plays (.stmt, ref) ?_) ?_) nodup
  · exact List.mem_map_of_mem mem
  · exact .of_part reached h found mem

/-- What is under a node is recorded by dealing with its parts. -/
theorem records_parts (recorded : ∀ lower ≤ height, Recorded tree role visit lower) {n : Nat}
    {form : Form} (reached : tree.Reached n) (h : tree.HeightLE n (height + 1))
    (found : tree.form? (some n) = some form) (no_closure : form.isClosure = false)
    {step : CollectM Unit} (progress : Progress tree role visit n form.parts step) :
    Records tree (tree.closures (height + 1) (some n)) (form.parts.flatMap (tree.returns height))
      step := by
  have nodup := nodup_closures rooted reached h
  simp only [Tree.closures_of_form? found, no_closure, Bool.false_eq_true, ↓reduceIte,
    List.nil_append] at nodup ⊢
  exact records_progress rooted grammatical progress recorded
    (fun ref part => .of_part reached h found part) nodup

/-- An expression is recorded with what is under it. -/
theorem records_expr (recorded : ∀ lower ≤ height, Recorded tree role visit lower) {n : Nat}
    {form : Form} (reached : tree.Reached n) (h : tree.HeightLE n (height + 1))
    (found : tree.form? (some n) = some form) (is_expr : role n = .expr)
    (doc : Option DocComment) :
    Records tree (tree.closures (height + 1) (some n)) (tree.returns (height + 1) (some n))
      (visitStep tree visit (.expr (some n) doc)) := by
  cases is_closure : form.isClosure with
  | true =>
    obtain ⟨params, variadic, body, found⟩ := Tree.isClosure_iff.mp ⟨form, found, is_closure⟩
    simp only [visitStep, visitExpr, found]
    exact records_closure rooted grammatical (recorded height (Nat.le_refl _)) reached h found doc
      none false
  | false =>
    have admits := grammatical.admits n form reached found
    have no_return : form.isReturn = false := by
      rw [is_expr] at admits
      cases form <;> first | rfl | simp [Role.admits, Form.isStatement] at admits
    rw [Tree.returns_of_form? found is_closure, no_return]
    exact records_parts rooted grammatical recorded reached h found is_closure
      (.of_course (course_visitExpr grammatical reached found is_expr is_closure doc))

/-- A statement is recorded with what is under it. A block is gone into once more, and a `return`
statement is noted first. -/
theorem records_stmt (recorded : ∀ lower ≤ height, Recorded tree role visit lower)
    {n : Nat} {form : Form} (reached : tree.Reached n) (h : tree.HeightLE n (height + 1))
    (found : tree.form? (some n) = some form) (is_stmt : role n = .stmt)
    (again : ∀ stmts, form = .block stmts →
      Records tree (tree.closures (height + 1) (some n)) (tree.returns (height + 1) (some n))
        (visit (.stmts (some n)))) :
    Records tree (tree.closures (height + 1) (some n)) (tree.returns (height + 1) (some n))
      (visitStep tree visit (.stmt (some n))) := by
  obtain ⟨_, declares, eq⟩ := visitStep_stmt visit found
  rw [eq]
  refine .after declares fun _ => ?_
  have admits := grammatical.admits n form reached found
  have no_closure : form.isClosure = false := by
    rw [is_stmt] at admits
    cases form <;> first | rfl | simp [Role.admits, Form.isStatement] at admits
  cases form with
  | block stmts => exact records_inScope (by simp) _ _ (again stmts rfl)
  | ret exprs =>
    have plays := plays_parts grammatical reached found
    have course : Course tree role visit n (Form.ret exprs).parts (visitExprs visit exprs) :=
      .exprs (fun ref mem => plays (.expr, ref) (List.mem_map_of_mem mem))
        fun ref _ => unassigned_of_targets (by simp [found, Form.targets]) ref
    rw [Tree.returns_of_form? found rfl]
    exact (records_noteReturn n).bind
      (fun _ => records_parts rooted grammatical recorded reached h found rfl (.of_course course))
      (by simp)
  | _ =>
    rw [Tree.returns_of_form? found no_closure]
    exact records_parts rooted grammatical recorded reached h found no_closure
      (progress_visitForm grammatical reached (rooted.once n) found is_stmt h (by simp) (by simp) _)

/-- A visit with levels enough records what is under its node. -/
theorem recorded_visitWithin {depth : Nat} (enough : 3 * height ≤ depth) :
    Recorded tree role (visitWithin tree depth) height := by
  refine each_visitWithin (fun height v absent => ?_)
    (fun height visit recorded n form reached bounded found is_expr doc =>
      records_expr rooted grammatical recorded reached bounded found is_expr doc)
    (fun height visit recorded n stmts reached bounded found =>
      records_block rooted grammatical recorded reached bounded found)
    (fun height visit recorded n form reached bounded found is_stmt again =>
      records_stmt rooted grammatical recorded reached bounded found is_stmt again) enough
  rw [Tree.closures_of_absent absent, Tree.returns_of_absent absent]
  exact .pure ()

/-- The whole walk records the functions under the root. -/
theorem gains_run : ∃ stmts,
    start.Gains tree (tree.closures (tree.size + 1) tree.root) stmts (run tree) := by
  cases found : tree.form? tree.root with
  | none =>
    rw [Tree.closures_of_absent found, run, found]
    exact ⟨[], .refl start⟩
  | some form =>
    cases is_root : tree.root with
    | none => simp [is_root, Tree.form?, Tree.node?] at found
    | some root =>
      rw [is_root] at found
      have reached : tree.Reached root := ⟨root, is_root, .refl⟩
      have bounded := rooted.heightLE_of_reached reached
      have admits := grammatical.admits root form reached found
      rw [grammatical.root root is_root] at admits
      cases form with
      | chunk block =>
        have reaches : Reaches tree tree.size block :=
          .of_part reached bounded found (by simp [Form.parts])
        have plays : Plays tree role .body block :=
          plays_parts grammatical reached found (.body, block) (by simp [Form.roles])
        have walked : Records tree (tree.closures tree.size block) (tree.returns tree.size block)
            (visitWithin tree (depthBound tree) (.stmts block)) :=
          recorded_visitWithin rooted grammatical (by rw [depthBound]; omega) (.stmts block)
            (suits_stmts grammatical reaches plays) reaches
        have same : tree.closures (tree.size + 1) (some root) = tree.closures tree.size block := by
          simp [Tree.closures_of_form? found, Form.isClosure, Form.parts]
        rw [same]
        simp only [run, is_root, found]
        exact ⟨_, records_inScope (by simp) _ _ walked start (by simp [start])⟩
      | _ => simp [Role.admits] at admits

end Walk

end Collect

namespace Tree

variable {tree : Tree}

/-- The functions listed from the root are those that are reached. -/
theorem Rooted.mem_closures_iff (rooted : tree.Rooted) {c : Nat} :
    c ∈ tree.closures (tree.size + 1) tree.root ↔ tree.Reached c ∧ tree.IsClosure c := by
  have path : tree.Entered (fun _ => true) = tree.ChildOf := by
    funext child whole
    refine propext ⟨And.left, fun part => ⟨part, ?_⟩⟩
    obtain ⟨form, found, -⟩ := exists_form_of_childOf part
    exact ⟨form, found, rfl⟩
  cases is_root : tree.root with
  | none => simp [closures, Reached, is_root]
  | some root =>
    have bounded := rooted.heightLE_of_reached ⟨root, is_root, .refl⟩
    rw [closures, mem_listing_iff bounded, isClosure_iff, path, and_comm]
    simp [Reached, Below, is_root]

end Tree

/-! ## The functions of a file -/

/-- The functions recorded for a file are the function expressions of its tree: each is recorded,
has one scope, and is noted with the return statements that are its own. -/
structure FileDecls.BindsFunctions (decls : FileDecls) (tree : Tree) : Prop where
  functions : ∀ c, (∃ info, decls.function? (some c) = some info) ↔
    tree.Reached c ∧ tree.IsClosure c
  one_scope : ∀ c, tree.Reached c → tree.IsClosure c →
    decls.table.functionScopes.count (some c) = 1
  no_other_scope : ∀ ref ∈ decls.table.functionScopes,
    ∃ c, ref = some c ∧ tree.Reached c ∧ tree.IsClosure c
  returns : ∀ c info, decls.function? (some c) = some info →
    tree.Returns c info.returnStmts.toList

/-- In a tree that follows the grammar, where no node is a part of two others, every function is
recorded once and with its own return statements. -/
theorem FileDecls.bindsFunctions_ofTree (file : FileId) {tree : Tree} (branching : tree.Branching)
    (grammatical : tree.Grammatical) : (ofTree file tree).BindsFunctions tree := by
  obtain ⟨role, grammatical⟩ := grammatical
  have rooted := grammatical.rooted branching
  obtain ⟨stmts, gains⟩ := Collect.gains_run rooted grammatical
  have scopes : (Collect.run tree).table.functionScopes
      = (tree.closures (tree.size + 1) tree.root).map some := gains.scopes
  have nodup : (tree.closures (tree.size + 1) tree.root).Nodup := by
    cases is_root : tree.root with
    | none => simp [Tree.closures]
    | some root =>
      have reached : tree.Reached root := ⟨root, is_root, .refl⟩
      exact Collect.nodup_closures rooted reached (rooted.heightLE_of_reached reached)
  have recorded (c : Nat) (info : FunctionInfo)
      (found : (ofTree file tree).function? (some c) = some info) :
      c ∈ tree.closures (tree.size + 1) tree.root := by
    refine Decidable.byContradiction fun other => ?_
    have none_there := gains.kept c other
    simp only [Collect.start, Std.HashMap.getElem?_empty, Option.map_none] at none_there
    cases none_there.symm.trans found
  refine ⟨fun c => ?_, fun c reached is_closure => ?_, fun ref mem => ?_, fun c info found => ?_⟩
  · rw [← rooted.mem_closures_iff]
    constructor
    · rintro ⟨info, found⟩
      exact recorded c info found
    · intro mem
      obtain ⟨info, found, -⟩ := gains.made c mem
      exact ⟨info, found⟩
  · have mem := rooted.mem_closures_iff.mpr ⟨reached, is_closure⟩
    show (Collect.run tree).table.functionScopes.count (some c) = 1
    rw [scopes]
    exact List.count_eq_one_of_mem (nodup.map fun _ _ => Option.some.inj) (List.mem_map_of_mem mem)
  · change ref ∈ (Collect.run tree).table.functionScopes at mem
    rw [scopes] at mem
    obtain ⟨c, listed, rfl⟩ := List.mem_map.mp mem
    exact ⟨c, rfl, rooted.mem_closures_iff.mp listed⟩
  · obtain ⟨info', found', returns⟩ := gains.made c (recorded c info found)
    cases found'.symm.trans found
    exact returns

/-- The file `local function f() if g(function() return end) then return else return {function()
return end} end end`. -/
def FileDecls.nestedFunctions : Tree :=
  let forms : List Form := [
    .name "f", .name "g", .ret [], .block [some 2], .closure [] false (some 3),
    .call (some 1) none [some 4], .ret [], .block [some 6],
    .ret [], .block [some 8], .closure [] false (some 9), .tableField .positional (some 10),
    .table [some 11], .ret [some 12], .block [some 13],
    .ifElse [⟨some 5, some 7⟩] (some 14), .block [some 15], .closure [] false (some 16),
    .localFunction (some 0) (some 17), .block [some 18], .chunk (some 19)]
  ⟨(forms.map fun form => ⟨form, ⟨0, 0⟩, none⟩).toArray, ∅, some 20⟩

theorem FileDecls.bindsFunctions_nestedFunctions :
    nestedFunctions.Branching ∧ nestedFunctions.Grammatical ∧
      (ofTree ⟨1⟩ nestedFunctions).BindsFunctions nestedFunctions := by
  have branching : nestedFunctions.Branching := Tree.branching_of_nodup (by decide)
  have grammatical : nestedFunctions.Grammatical := by
    let roles : List Role := [.name, .expr, .stmt, .body, .expr, .expr, .stmt, .body, .stmt, .body,
      .expr, .field, .expr, .stmt, .body, .stmt, .body, .func, .stmt, .body, .chunk]
    refine ⟨fun n => roles.getD n .stmt, Tree.grammaticalAs_of_all ?_ ?_⟩
    · decide
    · decide
  exact ⟨branching, grammatical, bindsFunctions_ofTree ⟨1⟩ branching grammatical⟩

end LuaTyping
