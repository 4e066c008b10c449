import LuaTyping.Proofs.Decl.Steps
import LuaTyping.Proofs.Tree.Grammar

/-!
# The course of the walk

In a tree that follows the grammar the walk deals with each part of a node once and in the order of
the text, whatever form the node has: it visits the part, or there is nothing under the part but
names (`Course`). A statement declares something before that, and a loop goes on in a scope of its
own after its header (`Progress`). What a visit of the parts does is so known for a node if it is
known for each way of dealing with a part.
-/

set_option autoImplicit false

namespace LuaTyping

/-- What a statement declares before its parts are walked: variables that are visible after the
statement, a local function, and what no name leads to. -/
inductive Tree.DeclaredAt (tree : Tree) (n : Nat) (entry : Entry) : Prop
  | hidden (hidden : entry.Hidden)
  | localVar (kind : entry.kind = .localVar) (hoisted : entry.hoisted = false)
      (visible : entry.visibleFrom = (tree.span (some n)).stop)
  | localFunction {node func : NodeRef}
      (found : tree.form? (some n) = some (.localFunction node func))
      (kind : entry.kind = .function) (named : tree.nameText? node = some entry.name)

/-- The part is no name that the node `n` assigns to. -/
def Tree.Unassigned (tree : Tree) (n : Nat) (ref : NodeRef) : Prop :=
  ∀ form, tree.form? (some n) = some form → ref ∈ form.targets →
    ∀ text, tree.form? ref ≠ some (.name text)

/-- The node that is visited. -/
def Visit.node : Visit → NodeRef
  | .stmt node => node
  | .stmts block => block
  | .expr node _ => node

namespace Collect

/-- If the node is there, it has the role. -/
def Plays (tree : Tree) (role : Nat → Role) (own : Role) (ref : NodeRef) : Prop :=
  ∀ p form, ref = some p → tree.form? (some p) = some form → role p = own

/-- The node is visited as its role demands. A block may stand for a statement too. -/
def Suits (tree : Tree) (role : Nat → Role) : Visit → Prop
  | .stmt ref => Plays tree role .stmt ref
  | .stmts ref => ∀ form, tree.form? ref = some form → ∃ stmts, form = .block stmts
  | .expr ref _ => Plays tree role .expr ref

/-- The step deals with the given parts of the node `n`, one after another. -/
inductive Course (tree : Tree) (role : Nat → Role) (visit : Visit → CollectM Unit) :
    Nat → {α : Type} → List NodeRef → CollectM α → Prop
  | declares {n : Nat} {α : Type} {step : CollectM α} (declares : Declares Entry.Hidden step) :
      Course tree role visit n [] step
  | bind {n : Nat} {α β : Type} {xs ys : List NodeRef} {step : CollectM α}
      {next : α → CollectM β} (first : Course tree role visit n xs step)
      (then_ : ∀ a, Course tree role visit n ys (next a)) :
      Course tree role visit n (xs ++ ys) (step >>= next)
  /-- There are only names in the part. -/
  | skip {n : Nat} {α : Type} {ref : NodeRef} {xs : List NodeRef} {step : CollectM α}
      (bare : tree.Bare ref) (other : tree.Unassigned n ref)
      (rest : Course tree role visit n xs step) : Course tree role visit n (ref :: xs) step
  /-- A name that is assigned to may be declared as a global. -/
  | target {n : Nat} {form : Form} {ref : NodeRef} {text : String}
      (assigns : tree.form? (some n) = some form) (mem : ref ∈ form.targets)
      (found : tree.form? ref = some (.name text)) (initializer : Option Initializer)
      (doc : Option DocComment) (className : Option String) :
      Course tree role visit n [ref]
        (declareGlobal tree (some n) ref text initializer doc className)
  | expr {n : Nat} {ref : NodeRef} (plays : Plays tree role .expr ref)
      (other : tree.Unassigned n ref) (doc : Option DocComment) :
      Course tree role visit n [ref] (visit (.expr ref doc))
  | closure {n : Nat} {ref : NodeRef} (plays : Plays tree role .func ref) (doc : Option DocComment)
      (owner : Option Owner) (method : Bool) :
      Course tree role visit n [ref] (visitClosure tree visit ref doc owner method)
  | block {n : Nat} {ref : NodeRef} (plays : Plays tree role .body ref)
      (no_repeat : ∀ body cond, tree.form? (some n) ≠ some (.repeatLoop body cond))
      {kind : ScopeKind} (other : kind ≠ .function) :
      Course tree role visit n [ref] (visitBlock tree visit kind ref)
  /-- A part that is no statement and no function itself is dealt with by dealing with its own
  parts. -/
  | inner {n p : Nat} {form : Form} {step : CollectM Unit}
      (found : tree.form? (some p) = some form) (no_stmt : form.isStatement = false)
      (no_closure : form.isClosure = false) (other : tree.Unassigned n (some p))
      (parts : Course tree role visit p form.parts step) :
      Course tree role visit n [some p] step

/-- The step deals with the given parts of the statement `n`. -/
inductive Progress (tree : Tree) (role : Nat → Role) (visit : Visit → CollectM Unit) (n : Nat) :
    List NodeRef → CollectM Unit → Prop
  | plain {xs : List NodeRef} {declarations rest : CollectM Unit}
      (declares : Declares (tree.DeclaredAt n) declarations)
      (parts : Course tree role visit n xs rest) :
      Progress tree role visit n xs (declarations >>= fun _ => rest)
  /-- The body of a loop and what follows it are walked in the scope of the loop. -/
  | loop {xs ys : List NodeRef} {body : NodeRef} {header fresh rest : CollectM Unit}
      (untargeted : ∀ form, tree.form? (some n) = some form → form.targets = [])
      (before : Course tree role visit n xs header)
      (declares : Declares (fun entry => entry.kind = .localVar) fresh)
      (plays : Plays tree role .body body) (after : Course tree role visit n ys rest) :
      Progress tree role visit n (xs ++ body :: ys)
        (header >>= fun _ => inScope .loop (tree.span (some n)) none (do
          fresh
          visit (.stmts body)
          rest))

section Courses

variable {tree : Tree} {role : Nat → Role} {visit : Visit → CollectM Unit} {n : Nat}

namespace Course

theorem cast {α : Type} {xs ys : List NodeRef} {step : CollectM α}
    (h : Course tree role visit n xs step) (same : xs = ys) : Course tree role visit n ys step :=
  same ▸ h

/-- First something is declared. -/
theorem after {α β : Type} {ys : List NodeRef} {step : CollectM α} {next : α → CollectM β}
    (declares : Declares Entry.Hidden step)
    (then_ : ∀ a, Course tree role visit n ys (next a)) :
    Course tree role visit n ys (step >>= next) := .bind (.declares declares) then_

theorem done : Course tree role visit n [] (pure () : CollectM Unit) := .declares (.pure ())

theorem forM {α : Type} {list : List α} {parts : α → List NodeRef} {step : α → CollectM Unit}
    (each : ∀ a ∈ list, Course tree role visit n (parts a) (step a)) :
    Course tree role visit n (list.flatMap parts) (list.forM step) := by
  induction list with
  | nil => exact done
  | cons a rest ih =>
    exact .bind (each a List.mem_cons_self) fun _ =>
      ih fun b mem => each b (List.mem_cons_of_mem a mem)

theorem exprs {exprs : List NodeRef} (plays : ∀ ref ∈ exprs, Plays tree role .expr ref)
    (other : ∀ ref ∈ exprs, tree.Unassigned n ref) :
    Course tree role visit n exprs (visitExprs visit exprs) :=
  (forM fun ref mem => .expr (plays ref mem) (other ref mem) none).cast (by simp)

theorem documented {exprs : List NodeRef} (plays : ∀ ref ∈ exprs, Plays tree role .expr ref)
    (other : ∀ ref ∈ exprs, tree.Unassigned n ref) (doc : Option DocComment) :
    Course tree role visit n exprs (visitDocumented visit exprs doc) := by
  cases exprs with
  | nil => exact done
  | cons first rest =>
    exact .bind (.expr (plays first List.mem_cons_self) (other first List.mem_cons_self) doc)
      fun _ => .exprs (fun ref mem => plays ref (List.mem_cons_of_mem first mem))
        fun ref mem => other ref (List.mem_cons_of_mem first mem)

/-- Absent parts are left out. -/
theorem children {parts : List NodeRef} (plays : ∀ ref ∈ parts, Plays tree role .expr ref)
    (other : ∀ ref, tree.Unassigned n ref) :
    Course tree role visit n parts
      ((parts.filterMap id).forM fun child => visit (.expr (some child) none)) := by
  induction parts with
  | nil => exact done
  | cons ref rest ih =>
    have later := ih fun ref mem => plays ref (List.mem_cons_of_mem _ mem)
    cases ref with
    | none => exact .skip (.absent rfl) (other none) later
    | some p =>
      exact .bind (.expr (plays (some p) List.mem_cons_self) (other (some p)) none) fun _ => later

theorem names {α : Type} {names xs : List NodeRef} {step : CollectM α}
    (bare : ∀ ref ∈ names, tree.Bare ref) (other : ∀ ref, tree.Unassigned n ref)
    (rest : Course tree role visit n xs step) : Course tree role visit n (names ++ xs) step := by
  induction names with
  | nil => exact rest
  | cons ref names ih =>
    refine .skip (bare ref List.mem_cons_self) (other ref) ?_
    exact ih fun ref mem => bare ref (List.mem_cons_of_mem _ mem)

end Course

namespace Progress

theorem of_course {xs : List NodeRef} {step : CollectM Unit}
    (course : Course tree role visit n xs step) : Progress tree role visit n xs step := by
  simpa using plain (.pure ()) course

theorem forLoop {xs : List NodeRef} {body : NodeRef} {header fresh : CollectM Unit}
    (untargeted : ∀ form, tree.form? (some n) = some form → form.targets = [])
    (before : Course tree role visit n xs header)
    (declares : Declares (fun entry => entry.kind = .localVar) fresh)
    (plays : Plays tree role .body body) :
    Progress tree role visit n (xs ++ [body])
      (header >>= fun _ => inScope .loop (tree.span (some n)) none
        (fresh >>= fun _ => visit (.stmts body))) := by
  simpa using loop untargeted before declares plays .done

theorem repeatLoop {body cond : NodeRef}
    (untargeted : ∀ form, tree.form? (some n) = some form → form.targets = [])
    (plays : Plays tree role .body body) (plays_cond : Plays tree role .expr cond)
    (other : tree.Unassigned n cond) :
    Progress tree role visit n [body, cond]
      (inScope .loop (tree.span (some n)) none do
        visit (.stmts body)
        visit (.expr cond none)) := by
  simpa using loop untargeted .done (.pure ()) plays (.expr plays_cond other none)

end Progress

theorem unassigned_of_targets
    (untargeted : ∀ form, tree.form? (some n) = some form → form.targets = []) (ref : NodeRef) :
    tree.Unassigned n ref := by
  intro form found mem
  simp [untargeted form found] at mem

theorem unassigned_of_form? {ref : NodeRef}
    (other : ∀ text, tree.form? ref ≠ some (.name text)) : tree.Unassigned n ref :=
  fun _ _ _ => other

/-! ## Expressions and statements -/

variable (grammatical : tree.GrammaticalAs role) (reached : tree.Reached n)
include grammatical reached

/-- The parts of a node play the roles that its form gives them. -/
theorem plays_parts {form : Form} (found : tree.form? (some n) = some form) :
    ∀ part ∈ form.roles (role n), Plays tree role part.1 part.2 :=
  fun part mem p _ is_part _ => grammatical.parts n form reached found part mem p is_part

omit reached in
/-- A field of a table constructor is walked by walking its key and its value. -/
theorem course_field {field : NodeRef} (plays : Plays tree role .field field)
    (part : ∀ p, field = some p → tree.Reached p) :
    Course tree role visit n [field]
      (match tree.form? field with
      | some (.tableField key value) => do
        visitExprs visit key.parts
        visit (.expr value (tree.doc? field))
      | _ => pure ()) := by
  cases found : tree.form? field with
  | none => exact .skip (.absent found) (unassigned_of_form? (by simp [found])) .done
  | some form =>
    cases field with
    | none => cases found
    | some p =>
      have admits := grammatical.admits p form (part p rfl) found
      rw [plays p form rfl found] at admits
      cases form with
      | tableField key value =>
        have plays := plays_parts grammatical (part p rfl) found
        have other : ∀ ref, tree.Unassigned p ref :=
          unassigned_of_targets (by simp [found, Form.targets])
        refine .inner found rfl rfl (unassigned_of_form? (by simp [found]))
          (.bind (.exprs (fun ref mem => ?_) fun ref _ => other ref) fun _ =>
            .expr ?_ (other value) _)
        · exact plays (.expr, ref) (by simp [Form.roles, mem])
        · exact plays (.expr, value) (by simp [Form.roles])
      | _ => simp [Role.admits] at admits

/-- An expression other than a function is walked by walking its parts. -/
theorem course_visitExpr {form : Form} (found : tree.form? (some n) = some form)
    (is_expr : role n = .expr) (no_closure : form.isClosure = false) (doc : Option DocComment) :
    Course tree role visit n form.parts (visitExpr tree visit (some n) doc) := by
  have admits := grammatical.admits n form reached found
  have plays := plays_parts grammatical reached found
  rw [is_expr] at admits plays
  have other : ∀ ref, tree.Unassigned n ref := by
    refine unassigned_of_targets fun form' found' => ?_
    cases found.symm.trans found'
    cases form <;> first | rfl | simp [Role.admits, Form.isStatement] at admits
  cases form with
  | table fields =>
    simp only [visitExpr, found]
    refine (Course.forM fun field mem => ?_).cast (List.flatMap_singleton' fields)
    refine course_field grammatical (plays (.field, field) ?_) fun p is_field => ?_
    · simp [Form.roles, mem]
    · exact reached.of_childOf ((Tree.childOf_iff found).mpr (is_field ▸ mem))
  | closure params variadic body => cases no_closure
  | _ =>
    simp only [visitExpr, found]
    refine .children (fun ref mem => ?_) other
    rw [← Form.map_snd_roles .expr] at mem
    obtain ⟨part, part_mem, rfl⟩ := List.mem_map.mp mem
    exact Form.role_eq_expr admits no_closure (by simp) part_mem ▸ plays part part_mem

/-- Names that are declared. -/
theorem bare_of_plays {own : Role} {height : Nat} (h : tree.HeightLE n (height + 1)) {form : Form}
    (found : tree.form? (some n) = some form) {ref : NodeRef} (plays : Plays tree role own ref)
    (part : ref ∈ form.parts) (is_path : own = .name ∨ own = .path) : tree.Bare ref := by
  cases ref with
  | none => exact .absent rfl
  | some p =>
    cases found_p : tree.form? (some p) with
    | none => exact .absent found_p
    | some _ =>
      have child := (Tree.childOf_iff found).mpr part
      refine grammatical.bare_of_role (reached.of_childOf child) (h p child) ?_
      rwa [plays p _ rfl found_p]

omit grammatical reached in
/-- An assignment to a field walks the table the field is in, unless that is a name the field is
declared under: such a name is left out. -/
theorem course_visitMember {p : Nat} {base : NodeRef} {member : String}
    (found : tree.form? (some p) = some (.index base (.named member)))
    (plays_base : Plays tree role .expr base) (stmt : NodeRef) (exprs : List NodeRef)
    (doc : Option DocComment) (index : Nat) :
    Course tree role visit n [some p] (visitTarget tree visit stmt exprs doc (some p) index) := by
  obtain ⟨_, declares, eq⟩ := visitTarget_of_index tree visit found stmt exprs doc index
  rw [eq]
  have other : ∀ ref, tree.Unassigned p ref :=
    unassigned_of_targets (by simp [found, Form.targets])
  refine .inner found rfl rfl (unassigned_of_form? (by simp [found])) ?_
  cases named : tree.nameText? base with
  | none =>
    simp only [ownerOf?, named, pure_bind]
    exact .expr plays_base (other base) none
  | some text =>
    have is_name : tree.form? base = some (.name text) := by
      obtain ⟨form, found, is_name⟩ := Option.bind_eq_some_iff.mp named
      cases form <;> simp_all [Form.nameText?]
    refine .after (declares_ownerOf base) fun owner => ?_
    cases owner with
    | none => exact .expr plays_base (other base) none
    | some owner => exact .skip (.name is_name) (other base) (.declares (declares owner))

theorem course_visitTarget {targets exprs : List NodeRef}
    (found : tree.form? (some n) = some (.assign targets exprs)) (doc : Option DocComment)
    {target : NodeRef} (mem : target ∈ targets) (index : Nat) :
    Course tree role visit n [target]
      (visitTarget tree visit (some n) exprs doc target index) := by
  have plays : Plays tree role .expr target :=
    plays_parts grammatical reached found (.expr, target) (by simp [Form.roles, mem])
  cases found_target : tree.form? target with
  | none =>
    simp only [visitTarget, found_target]
    exact .expr plays (unassigned_of_form? (by simp [found_target])) none
  | some form =>
    cases form with
    | name text =>
      obtain ⟨_, _, fields, declares, eq⟩ :=
        visitTarget_of_name tree visit found_target (some n) exprs doc index
      rw [eq]
      exact .bind (.target found mem found_target _ _ _) fun made => .declares (declares made)
    | index base key =>
      cases key with
      | named member =>
        cases target with
        | none => cases found_target
        | some p =>
          have child : tree.ChildOf p n := (Tree.childOf_iff found).mpr (by simp [Form.parts, mem])
          have plays_base : Plays tree role .expr base := by
            have parts := plays_parts grammatical (reached.of_childOf child) found_target
            simpa [Form.roles, plays p _ rfl found_target, IndexKey.parts] using parts
          exact course_visitMember found_target plays_base (some n) exprs doc index
      | expr key =>
        simp only [visitTarget, found_target]
        exact .expr plays (unassigned_of_form? (by simp [found_target])) none
    | _ =>
      simp only [visitTarget, found_target]
      exact .expr plays (unassigned_of_form? (by simp [found_target])) none

/-- An assignment is walked by walking its targets, then its expressions. No expression is a target
as well, since no node is two children of one node. -/
theorem course_visitAssign {targets exprs : List NodeRef}
    (found : tree.form? (some n) = some (.assign targets exprs)) (is_stmt : role n = .stmt)
    (once : (tree.children (some n)).Nodup) (doc : Option DocComment) :
    Course tree role visit n (targets ++ exprs)
      (visitAssign tree visit (some n) targets exprs doc) := by
  have plays := plays_parts grammatical reached found
  rw [is_stmt] at plays
  have each : ∀ x ∈ targets.zipIdx, Course tree role visit n [x.1]
      (visitTarget tree visit (some n) exprs doc x.1 x.2) := fun x mem =>
    course_visitTarget grammatical reached found doc (List.fst_mem_of_mem_zipIdx mem) x.2
  refine .bind ((Course.forM each).cast ?_) fun _ => .documented ?_ ?_ _
  · rw [← List.map_eq_flatMap, List.zipIdx_map_fst]
  · exact fun ref mem => plays (.expr, ref) (by simp [Form.roles, mem])
  · intro ref mem form found' target text is_name
    cases found.symm.trans found'
    cases ref with
    | none => cases is_name
    | some p =>
      simp only [Tree.children, found, Option.map_some, Option.getD_some, Form.children,
        Form.parts, List.filterMap_append, List.nodup_append] at once
      exact once.2.2 p (by simpa [Form.targets] using target) p (by simpa using mem) rfl

theorem course_visitFunctionStat {target func : NodeRef} {method : Bool} {height : Nat}
    (found : tree.form? (some n) = some (.functionStat target method func))
    (h : tree.HeightLE n (height + 1)) (doc : Option DocComment) :
    Course tree role visit n [target, func]
      (visitFunctionStat tree visit (some n) target method func doc) := by
  have plays := plays_parts grammatical reached found
  have plays_func : Plays tree role .func func := plays (.func, func) (by simp [Form.roles])
  have plays_target : Plays tree role .path target := plays (.path, target) (by simp [Form.roles])
  have bare : tree.Bare target :=
    bare_of_plays grammatical reached h found plays_target (by simp [Form.parts]) (.inr rfl)
  cases id bare with
  | absent absent =>
    simp only [visitFunctionStat, absent]
    refine .bind (.expr (fun p form is_target found => ?_)
      (unassigned_of_form? (by simp [absent])) none) fun _ => .closure plays_func _ _ _
    rw [is_target, found] at absent
    cases absent
  | name is_name =>
    simp only [visitFunctionStat, is_name]
    exact .bind (.target found (by simp [Form.targets]) is_name _ _ _) fun _ =>
      .closure plays_func _ _ _
  | member is_index _ =>
    obtain ⟨_, declares, eq⟩ :=
      visitFunctionStat_of_index tree visit is_index (some n) method func doc
    rw [eq]
    refine .skip bare (unassigned_of_form? (by simp [is_index])) ?_
    exact .after declares fun owner => .closure plays_func _ _ _

/-- A statement is walked by walking its parts, after what it declares. A block and a `return`
statement are themselves noted in other ways. -/
theorem progress_visitForm (once : (tree.children (some n)).Nodup) {form : Form} {height : Nat}
    (found : tree.form? (some n) = some form) (is_stmt : role n = .stmt)
    (h : tree.HeightLE n (height + 1)) (no_block : ∀ stmts, form ≠ .block stmts)
    (no_return : ∀ exprs, form ≠ .ret exprs) (doc : Option DocComment) :
    Progress tree role visit n form.parts (visitForm tree visit (some n) doc form) := by
  have admits := grammatical.admits n form reached found
  have plays := plays_parts grammatical reached found
  rw [is_stmt] at admits plays
  have bare {ref : NodeRef} (mem : (.name, ref) ∈ form.roles .stmt) : tree.Bare ref := by
    refine bare_of_plays grammatical reached h found (plays _ mem) ?_ (.inl rfl)
    rw [← form.map_snd_roles .stmt]
    exact List.mem_map_of_mem mem
  have untargeted (empty : form.targets = []) :
      ∀ form', tree.form? (some n) = some form' → form'.targets = [] := by
    intro form' found'
    cases found.symm.trans found'
    exact empty
  have other (empty : form.targets = []) : ∀ ref, tree.Unassigned n ref :=
    unassigned_of_targets (untargeted empty)
  cases form with
  | localVars names exprs =>
    obtain ⟨_, declares, eq⟩ := visitLocals_eq tree visit (some n) names exprs doc
    rw [visitForm, eq]
    refine .plain (declares.mono fun entry is_ok => ?_)
      (.names (fun ref mem => bare (by simp [Form.roles, mem])) (other rfl)
        (.documented ?_ (fun ref _ => other rfl ref) doc))
    · rcases is_ok with hidden | ⟨kind, hoisted, visible⟩
      · exact .hidden hidden
      · exact .localVar kind hoisted visible
    · exact fun ref mem => plays (.expr, ref) (by simp [Form.roles, mem])
  | localFunction node func =>
    obtain ⟨_, declares, eq⟩ := visitLocalFunction_eq tree visit node func doc
    rw [visitForm, eq]
    refine .plain (declares.mono fun _ is_ok => .localFunction found is_ok.1 is_ok.2)
      (.skip (bare (by simp [Form.roles])) (other rfl node) ?_)
    exact .closure (plays (.func, func) (by simp [Form.roles])) _ _ _
  | functionStat target method func =>
    exact .of_course (course_visitFunctionStat grammatical reached found h doc)
  | assign targets exprs =>
    exact .of_course (course_visitAssign grammatical reached found is_stmt once doc)
  | ret exprs => exact absurd rfl (no_return exprs)
  | ifElse arms elseBlock =>
    have no_repeat : ∀ body cond, tree.form? (some n) ≠ some (.repeatLoop body cond) := by
      simp [found]
    refine .of_course (.bind (.forM fun arm mem => ?_) fun _ => .block ?_ no_repeat (by simp))
    · refine .bind (.expr (plays (.expr, arm.cond) ?_) (other rfl _) none) fun _ =>
        .block (plays (.body, arm.block) ?_) no_repeat (by simp)
      · simp only [Form.roles, List.mem_append, List.mem_flatMap]
        exact .inl ⟨arm, mem, by simp⟩
      · simp only [Form.roles, List.mem_append, List.mem_flatMap]
        exact .inl ⟨arm, mem, by simp⟩
    · exact plays (.body, elseBlock) (by simp [Form.roles])
  | whileLoop cond block =>
    have plays_cond := plays (.expr, cond) (by simp [Form.roles])
    exact .of_course (.bind (.expr plays_cond (other rfl cond) none) fun _ =>
      .block (plays (.body, block) (by simp [Form.roles])) (by simp [found]) (by simp))
  | repeatLoop block cond =>
    exact .repeatLoop (untargeted rfl) (plays (.body, block) (by simp [Form.roles]))
      (plays (.expr, cond) (by simp [Form.roles])) (other rfl cond)
  | numericFor var start limit step block =>
    have exprs : ∀ ref ∈ [start, limit, step], Plays tree role .expr ref := by
      intro ref mem
      refine plays (.expr, ref) ?_
      simp only [List.mem_cons, List.not_mem_nil, or_false] at mem
      simpa [Form.roles] using mem
    have header : Course tree role visit n [var, start, limit, step]
        (visitExprs visit [start, limit, step]) :=
      .skip (bare (by simp [Form.roles])) (other rfl var) (.exprs exprs fun ref _ => other rfl ref)
    exact .forLoop (untargeted rfl) header
      ((declares_declareLoopVar _ _ _ _ _).mono fun _ => And.left)
      (plays (.body, block) (by simp [Form.roles]))
  | genericFor names exprs block =>
    have header : Course tree role visit n (names ++ exprs) (visitExprs visit exprs) :=
      .names (fun ref mem => bare (by simp [Form.roles, mem])) (other rfl)
        (.exprs (fun ref mem => plays (.expr, ref) (by simp [Form.roles, mem]))
          fun ref _ => other rfl ref)
    exact .forLoop (untargeted rfl) header
      (.forM fun _ _ => (declares_declareLoopVar _ _ _ _ _).mono fun _ => And.left)
      (plays (.body, block) (by simp [Form.roles]))
  | doBlock block =>
    exact .of_course
      (.block (plays (.body, block) (by simp [Form.roles])) (by simp [found]) (by simp))
  | block stmts => exact absurd rfl (no_block stmts)
  | exprStat expr =>
    exact .of_course (.expr (plays (.expr, expr) (by simp [Form.roles])) (other rfl expr) none)
  | breakStat | docOnly => exact .of_course .done
  | _ => simp [Role.admits, Form.isStatement] at admits

omit grammatical reached in
/-- The comment at a statement declares classes, fields and aliases before all else. -/
theorem visitStep_stmt (visit : Visit → CollectM Unit) {form : Form}
    (found : tree.form? (some n) = some form) :
    ∃ tags : CollectM Unit, Declares Entry.Hidden tags ∧
      visitStep tree visit (.stmt (some n))
        = tags >>= fun _ => visitForm tree visit (some n) (tree.doc? (some n)) form := by
  simp only [visitStep, found]
  cases tree.doc? (some n) with
  | none => exact ⟨pure (), .pure (), rfl⟩
  | some doc => exact ⟨_, (declares_declareTags_go _ _ _ _).mono fun _ => And.left, rfl⟩

end Courses

theorem visitWithin_of_absent {tree : Tree} {v : Visit} (absent : tree.form? v.node = none)
    (depth : Nat) : visitWithin tree depth v = pure () := by
  cases depth with
  | zero => rfl
  | succ depth =>
    cases v <;> simp only [Visit.node] at absent <;>
      simp [visitWithin, visitStep, visitExpr, absent]

/-! ## Whole walks -/

section Walk

variable {tree : Tree} {role : Nat → Role} {visit : Visit → CollectM Unit} {height : Nat}

/-- The nodes that the references lead to are reached, and of bounded height. -/
def Reaches (tree : Tree) (height : Nat) (ref : NodeRef) : Prop :=
  ∀ p, ref = some p → tree.Reached p ∧ tree.HeightLE p height

theorem Reaches.of_part {n : Nat} {form : Form} (reached : tree.Reached n)
    (h : tree.HeightLE n (height + 1)) (found : tree.form? (some n) = some form) {ref : NodeRef}
    (part : ref ∈ form.parts) : Reaches tree height ref := by
  rintro p rfl
  have child := (Tree.childOf_iff found).mpr part
  exact ⟨reached.of_childOf child, h p child⟩

/-- The body of a function, branch or loop is a block. -/
theorem suits_stmts (grammatical : tree.GrammaticalAs role) {ref : NodeRef}
    (reaches : Reaches tree height ref) (plays : Plays tree role .body ref) :
    Suits tree role (.stmts ref) := by
  intro form found
  cases ref with
  | none => cases found
  | some p =>
    have admits := grammatical.admits p form (reaches p rfl).1 found
    rw [plays p form rfl found] at admits
    cases form with
    | block stmts => exact ⟨stmts, rfl⟩
    | _ => simp [Role.admits] at admits

/-- Every visit of a node of bounded height does what is wanted. -/
def Each (tree : Tree) (role : Nat → Role) (wanted : Nat → Visit → CollectM Unit → Prop)
    (visit : Visit → CollectM Unit) (height : Nat) : Prop :=
  ∀ v, Suits tree role v → Reaches tree height v.node → wanted height v (visit v)

/-- A visit with levels enough does what is wanted, if one does whenever the visits inside it do: a
node is gone into at most three times before its parts are. A block that stands for a statement is
gone into once more than others. -/
theorem each_visitWithin {wanted : Nat → Visit → CollectM Unit → Prop}
    (absent : ∀ height v, tree.form? v.node = none → wanted height v (pure ()))
    (expr : ∀ (height : Nat) visit, (∀ lower ≤ height, Each tree role wanted visit lower) →
      ∀ n form, tree.Reached n → tree.HeightLE n (height + 1) → tree.form? (some n) = some form →
        role n = .expr → ∀ doc,
          wanted (height + 1) (.expr (some n) doc) (visitStep tree visit (.expr (some n) doc)))
    (stmts : ∀ (height : Nat) visit, Each tree role wanted visit height →
      ∀ n inner, tree.Reached n → tree.HeightLE n (height + 1) →
        tree.form? (some n) = some (.block inner) →
          wanted (height + 1) (.stmts (some n)) (visitStep tree visit (.stmts (some n))))
    (stmt : ∀ (height : Nat) visit, (∀ lower ≤ height, Each tree role wanted visit lower) →
      ∀ n form, tree.Reached n → tree.HeightLE n (height + 1) → tree.form? (some n) = some form →
        role n = .stmt →
        (∀ inner, form = .block inner →
          wanted (height + 1) (.stmts (some n)) (visit (.stmts (some n)))) →
          wanted (height + 1) (.stmt (some n)) (visitStep tree visit (.stmt (some n))))
    {depth : Nat} (enough : 3 * height ≤ depth) :
    Each tree role wanted (visitWithin tree depth) height := by
  induction height using Nat.strongRecOn generalizing depth with
  | ind height ih =>
    intro v suits reaches
    cases found : tree.form? v.node with
    | none =>
      rw [visitWithin_of_absent found]
      exact absent height v found
    | some form =>
      obtain ⟨n, is_node⟩ : ∃ n, v.node = some n := by
        cases is_node : v.node with
        | none => simp [is_node, Tree.form?, Tree.node?] at found
        | some n => exact ⟨n, rfl⟩
      rw [is_node] at found
      obtain ⟨reached, bounded⟩ := reaches n is_node
      -- the node has a height, so there are levels below this one
      cases height with
      | zero => exact bounded.elim
      | succ height =>
        obtain ⟨d, rfl⟩ : ∃ d, depth = d + 2 := ⟨depth - 2, by omega⟩
        have each (l : Nat) (le : l ≤ height) :
            Each tree role wanted (visitWithin tree (d + 1)) l := ih l (by omega) (by omega)
        cases v with
        | expr ref doc =>
          cases is_node
          exact expr height _ each n form reached bounded found (suits n form rfl found) doc
        | stmts ref =>
          cases is_node
          obtain ⟨inner, rfl⟩ := suits form found
          exact stmts height _ (each height (Nat.le_refl _)) n inner reached bounded found
        | stmt ref =>
          cases is_node
          refine stmt height _ each n form reached bounded found (suits n form rfl found) ?_
          rintro inner rfl
          exact stmts height _ (ih height (by omega) (by omega)) n inner reached bounded found

end Walk

end Collect

end LuaTyping
