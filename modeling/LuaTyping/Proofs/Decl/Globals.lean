import LuaTyping.Decl.FileDecls
import LuaTyping.Proofs.Decl.Course
import LuaTyping.Proofs.Decl.Passing
import LuaTyping.Proofs.Tree.SourceOrder

/-!
# The globals of a file

A name that is assigned to is a global if no binding of it is visible. The walk that collects the
declarations decides this from the scope it is in and what it has declared so far; a reader of the
finished table looks from the scope at the position of the name. In a tree that is built in source
order both come to the same result, unless the position lies in the span of another part of an `if`
statement or the name is declared by a local function after it, which is visible before it is
declared.

The walk passes the parts of the tree in which the name is not, comes to it in one statement, and
passes what follows. Of what is declared afterwards only local functions reach back.
-/

set_option autoImplicit false

namespace LuaTyping

namespace Tree

/-- The reference leads to a node around `n`, or to `n` itself. -/
def Has (tree : Tree) (ref : NodeRef) (n : Nat) : Prop := ∃ p, ref = some p ∧ tree.Below n p

/-- The node starts in the span of a part of an `if` statement only if it lies in that part. -/
def InOwnBranch (tree : Tree) (n : Nat) : Prop :=
  ∀ whole arms elseBlock m, tree.form? (some whole) = some (.ifElse arms elseBlock) →
    tree.ChildOf m whole → (tree.span (some m)).contains (tree.span (some n)).start →
    tree.Below n m

/-- A block around the node declares a local function of that name in a later statement. -/
def FunctionFollows (tree : Tree) (n : Nat) (name : String) : Prop :=
  ∃ block stmts a b node func, tree.form? (some block) = some (.block stmts) ∧
    [a, b].Sublist (tree.children (some block)) ∧ tree.Below n a ∧
    tree.form? (some b) = some (.localFunction node func) ∧ tree.nameText? node = some name

/-- A name that is assigned to in a tree built in source order, where the walk and a reader of the
finished table agree. -/
structure Target (tree : Tree) (role : Nat → Role) (mention : Mention) : Prop where
  nested : tree.Nested
  grammatical : tree.GrammaticalAs role
  named : tree.form? (some mention.node) = some (.name mention.name)
  start : (tree.span (some mention.node)).start = mention.pos
  assigned : ∃ stmt form, tree.form? (some stmt) = some form ∧ some mention.node ∈ form.targets
  own_branch : tree.InOwnBranch mention.node
  first : ¬ tree.FunctionFollows mention.node mention.name

variable {tree : Tree}

theorem eq_of_below_name {n p : Nat} {text : String}
    (found : tree.form? (some p) = some (.name text)) (below : tree.Below n p) : p = n := by
  rcases Relation.ReflTransGen.cases_tail below with rfl | ⟨q, -, part⟩
  · rfl
  · simp [childOf_iff found, Form.parts] at part

theorem eq_of_below_absent {n p : Nat} (absent : tree.form? (some p) = none)
    (below : tree.Below n p) : p = n := by
  rcases Relation.ReflTransGen.cases_tail below with rfl | ⟨q, -, part⟩
  · rfl
  · obtain ⟨form, found, -⟩ := exists_form_of_childOf part
    cases absent.symm.trans found

/-- A node lies in one of the parts of a node around it. -/
theorem exists_has_part {n t : Nat} {form : Form} (found : tree.form? (some n) = some form)
    (has : tree.Has (some n) t) (other : n ≠ t) : ∃ ref ∈ form.parts, tree.Has ref t := by
  obtain ⟨_, ⟨⟩, below⟩ := has
  rcases Relation.ReflTransGen.cases_tail below with rfl | ⟨p, below, part⟩
  · exact absurd rfl other
  · exact ⟨some p, (childOf_iff found).mp part, p, rfl, below⟩

theorem not_has_part {n t : Nat} {form : Form} (found : tree.form? (some n) = some form)
    (other : ¬ tree.Has (some n) t) {ref : NodeRef} (mem : ref ∈ form.parts) :
    ¬ tree.Has ref t := by
  rintro ⟨p, rfl, below⟩
  exact other ⟨n, rfl, below.tail ((childOf_iff found).mpr mem)⟩

end Tree

namespace Tree.Nested

variable {tree : Tree} (nested : tree.Nested)
include nested

theorem childOf_iff_partOf {child whole : Nat} :
    tree.ChildOf child whole ↔ tree.PartOf child whole :=
  ⟨nested.linked whole child, nested.listed child whole⟩

theorem below_of_under {n m : Nat} (under : tree.Under n m) : tree.Below n m :=
  Relation.ReflTransGen.mono (fun _ _ => nested.childOf_iff_partOf.mpr) _ _ under

theorem branching : tree.Branching where
  once := nested.once
  unique child whole whole' part part' := by
    have part := nested.childOf_iff_partOf.mp part
    have part' := nested.childOf_iff_partOf.mp part'
    exact Option.some.inj (part.symm.trans part')

theorem le_of_below {n m : Nat} (below : tree.Below n m) :
    n ≤ m ∧ (tree.span (some m)).start ≤ (tree.span (some n)).start := by
  induction below with
  | refl => exact ⟨Nat.le_refl _, Nat.le_refl _⟩
  | tail _ part ih =>
    obtain ⟨less, start⟩ := nested.inner _ _ part
    exact ⟨Nat.le_trans ih.1 (Nat.le_of_lt less), Nat.le_trans start ih.2⟩

/-- The span of a node holds the names in it. -/
theorem contains_of_below {n m : Nat} (named : tree.IsName n) (there : m < tree.size)
    (below : tree.Below n m) : (tree.span (some m)).contains (tree.span (some n)).start := by
  obtain ⟨le, start⟩ := nested.le_of_below below
  have stop := nested.stop m there
  have at_n := nested.name n named
  simp only [Span.contains, Bool.and_eq_true, decide_eq_true_eq]
  omega

end Tree.Nested

namespace Tree.Target

variable {tree : Tree} {role : Nat → Role} {mention : Mention}
  (target : tree.Target role mention)
include target

theorem isName : tree.IsName mention.node := ⟨mention.name, target.named⟩

theorem rooted : tree.Rooted := target.grammatical.rooted target.nested.branching

/-- The statement that assigns to the name is the only node that the name is a part of. -/
theorem mem_targets {n : Nat} {form : Form} (part : tree.ChildOf mention.node n)
    (found : tree.form? (some n) = some form) : some mention.node ∈ form.targets := by
  obtain ⟨stmt, form', found', mem⟩ := target.assigned
  have part' : tree.ChildOf mention.node stmt :=
    (childOf_iff found').mpr (Form.mem_parts_of_targets mem)
  cases target.rooted.unique _ _ _ part part'
  cases found.symm.trans found'
  exact mem

theorem ne_of_unassigned {n p : Nat} (part : tree.ChildOf p n)
    (other : tree.Unassigned n (some p)) : p ≠ mention.node := by
  rintro rfl
  obtain ⟨form, found, -⟩ := exists_form_of_childOf part
  exact other form found (target.mem_targets part found) mention.name target.named

/-- A member of something is not assigned to by the expression for the member. -/
theorem eq_of_bare {ref : NodeRef} (bare : tree.Bare ref) {p : Nat} (is_part : ref = some p)
    (below : tree.Below mention.node p) : p = mention.node := by
  induction bare generalizing p with
  | absent found =>
    subst is_part
    exact eq_of_below_absent found below
  | name found =>
    subst is_part
    exact eq_of_below_name found below
  | @member ref base text found _ ih =>
    subst is_part
    rcases Relation.ReflTransGen.cases_tail below with rfl | ⟨q, below, part⟩
    · rfl
    · have is_base : base = some q := by
        simpa [Form.parts, IndexKey.parts, eq_comm] using (childOf_iff found).mp part
      cases ih is_base below
      have mem := target.mem_targets part found
      simp [Form.targets] at mem

theorem not_has_of_bare {n : Nat} {ref : NodeRef} (bare : tree.Bare ref)
    (part : ∀ p, ref = some p → tree.ChildOf p n) (other : tree.Unassigned n ref) :
    ¬ tree.Has ref mention.node := by
  rintro ⟨p, rfl, below⟩
  exact target.ne_of_unassigned (part p rfl) other (target.eq_of_bare bare rfl below)

/-- What opens a scope holds the place of the name only if the name lies in it. -/
theorem not_contains {m : Nat} (opens : tree.Opens m) (other : ¬ tree.Has (some m) mention.node) :
    ¬ (tree.span (some m)).contains mention.pos := by
  rw [← target.start]
  intro contains
  rcases target.nested.held m mention.node target.isName opens.1 contains with under | into
  · exact other ⟨m, rfl, target.nested.below_of_under under⟩
  · obtain ⟨whole, form, stmts, block, part, found, late, -⟩ := into
    cases form with
    | ifElse arms elseBlock =>
      have child : tree.ChildOf m whole := target.nested.childOf_iff_partOf.mpr part
      exact other ⟨m, rfl, target.own_branch whole arms elseBlock m found child contains⟩
    | repeatLoop body cond => exact opens.2 ⟨whole, stmts, body, cond, block, part, found⟩
    | _ => cases late

theorem contains {m : Nat} {form : Form} (found : tree.form? (some m) = some form)
    (has : tree.Has (some m) mention.node) : (tree.span (some m)).contains mention.pos := by
  obtain ⟨_, ⟨⟩, below⟩ := has
  rw [← target.start]
  exact target.nested.contains_of_below target.isName (lt_size_of_form? found) below

theorem not_has_of_absent {ref : NodeRef} (absent : tree.form? ref = none) :
    ¬ tree.Has ref mention.node := by
  rintro ⟨p, rfl, below⟩
  cases eq_of_below_absent absent below
  cases absent.symm.trans target.named

theorem ne_of_form? {n : Nat} {form : Form} (found : tree.form? (some n) = some form)
    (no_name : ∀ text, form ≠ .name text) : n ≠ mention.node := by
  rintro rfl
  exact no_name mention.name (Option.some.inj (found.symm.trans target.named))

theorem pairwise_parts {n : Nat} {form : Form} (reached : tree.Reached n)
    (found : tree.form? (some n) = some form) :
    form.parts.Pairwise fun ref ref' =>
      tree.Has ref mention.node → ¬ tree.Has ref' mention.node := by
  have once := target.rooted.once n
  simp only [Tree.children, found, Option.map_some, Option.getD_some, Form.children] at once
  have apart : (form.parts.filterMap id).Pairwise fun p q =>
      tree.Below mention.node p → ¬ tree.Below mention.node q := by
    refine once.imp_of_mem fun {p q} mem mem' other below => ?_
    have part {p : Nat} (mem : p ∈ form.parts.filterMap id) : tree.ChildOf p n := by
      simpa [childOf_iff found] using mem
    exact target.rooted.apart reached (part mem) (part mem') other below
  refine (List.pairwise_filterMap.mp apart).imp fun {ref ref'} h => ?_
  rintro ⟨p, rfl, below⟩ ⟨q, rfl, below'⟩
  exact h p rfl q rfl below below'

end Tree.Target

/-! ## The walk -/

def Visit.isExpr : Visit → Bool
  | .expr _ _ => true
  | _ => false

namespace Collect

/-- In the scope it is in, the visit declares nothing that the mention sees. -/
def Silent (tree : Tree) (mention : Mention) : Visit → Prop
  | .stmt ref => ∀ n form, ref = some n → tree.form? (some n) = some form →
      ∀ entry, tree.DeclaredAt n entry → ¬ mention.Sees entry
  | .stmts _ => False
  | .expr _ _ => True

/-- The visit passes the mention by if it is elsewhere, and comes to it if it lies in the node. -/
structure Meets (tree : Tree) (mention : Mention) (v : Visit) (step : CollectM Unit) : Prop where
  passes : ¬ tree.Has v.node mention.node → ∀ quiet : Bool, (quiet → Silent tree mention v) →
    Passes mention quiet step
  settles : tree.Has v.node mention.node → v.node ≠ some mention.node →
    Settles mention v.isExpr step

/-- The step passes the mention by or comes to it in a scope that it opens for the node. -/
structure Encloses (tree : Tree) (mention : Mention) (ref : NodeRef) (step : CollectM Unit) :
    Prop where
  passes : ¬ tree.Has ref mention.node → ∀ quiet, Passes mention quiet step
  settles : tree.Has ref mention.node → ∀ deeper, Settles mention deeper step

/-- Every visit of a node of bounded height passes the mention by or comes to it. -/
def Met (tree : Tree) (role : Nat → Role) (mention : Mention) :
    (Visit → CollectM Unit) → Nat → Prop :=
  Each tree role fun _ => Meets tree mention

/-- The references lead to parts of the node `n`, which are of bounded height. -/
def Among (tree : Tree) (height n : Nat) (xs : List NodeRef) : Prop :=
  ∀ ref ∈ xs, Reaches tree height ref ∧ ∀ p, ref = some p → tree.ChildOf p n

namespace Among

variable {tree : Tree} {height n : Nat} {xs ys : List NodeRef}

theorem sub (among : Among tree height n ys) (sub : xs ⊆ ys) : Among tree height n xs :=
  fun ref mem => among ref (sub mem)

theorem of_parts {form : Form} (reached : tree.Reached n) (h : tree.HeightLE n (height + 1))
    (found : tree.form? (some n) = some form) : Among tree height n form.parts := by
  refine fun ref mem => ⟨.of_part reached h found mem, ?_⟩
  rintro p rfl
  exact (Tree.childOf_iff found).mpr mem

theorem inner (among : Among tree height n xs) {p : Nat} {form : Form} (mem : some p ∈ xs)
    (found : tree.form? (some p) = some form) :
    ∃ lower < height, Among tree lower p form.parts := by
  obtain ⟨reached, h⟩ := (among _ mem).1 p rfl
  cases height with
  | zero => exact h.elim
  | succ height => exact ⟨height, Nat.lt_succ_self _, of_parts reached h found⟩

end Among

section Walk

variable {tree : Tree} {role : Nat → Role} {mention : Mention}
  (target : tree.Target role mention) {visit : Visit → CollectM Unit} {height : Nat}
include target

/-- A block is no name. -/
theorem ne_of_suits {ref : NodeRef} (suits : Suits tree role (.stmts ref)) :
    ref ≠ some mention.node := by
  rintro rfl
  obtain ⟨_, is_block⟩ := suits _ target.named
  cases is_block

/-- The body of a function, with a scope of its own. -/
theorem encloses_closure (met : Met tree role mention visit height) {n : Nat}
    {params : List NodeRef} {variadic : Bool} {body : NodeRef} (reached : tree.Reached n)
    (h : tree.HeightLE n (height + 1))
    (found : tree.form? (some n) = some (.closure params variadic body))
    (doc : Option DocComment) (owner : Option Owner) (method : Bool) :
    Encloses tree mention (some n) (visitClosure tree visit (some n) doc owner method) := by
  have grammatical := target.grammatical
  have plays := plays_parts grammatical reached found
  have reaches : Reaches tree height body := .of_part reached h found (by simp [Form.parts])
  have suits := suits_stmts grammatical reaches (plays (.body, body) (by simp [Form.roles]))
  have inside := met (.stmts body) suits reaches
  refine ⟨fun other quiet => ?_, fun has deeper => ?_⟩
  · have opens := (Tree.hosts_of_form found (by simp) (by simp)).1
    have other_body : ¬ tree.Has body mention.node :=
      Tree.not_has_part found other (by simp [Form.parts])
    exact passes_visitClosure found (target.not_contains opens other)
      (inside.passes other_body false (by simp)) doc owner method
  · -- the parameters are declared, not assigned to
    obtain ⟨ref, mem, has_ref⟩ :=
      Tree.exists_has_part found has (target.ne_of_form? found (by simp))
    have is_body : ref = body := by
      rcases List.mem_append.mp mem with mem | mem
      · have bare : tree.Bare ref := bare_of_plays grammatical reached h found
          (plays (.name, ref) (by simp [Form.roles, mem])) (by simp [Form.parts, mem]) (.inl rfl)
        have part (p : Nat) (is_part : ref = some p) : tree.ChildOf p n :=
          (Tree.childOf_iff found).mpr (by simp [Form.parts, ← is_part, mem])
        exact absurd has_ref (target.not_has_of_bare bare part
          (unassigned_of_targets (by simp [found, Form.targets]) ref))
      · exact List.mem_singleton.mp mem
    rw [is_body] at has_ref
    exact settles_visitClosure found (target.contains found has)
      (inside.settles has_ref (ne_of_suits target suits)) doc owner method

/-- A block with a scope of its own. -/
theorem encloses_block {p : Nat} (suits : Suits tree role (.stmts (some p)))
    (inside : Meets tree mention (.stmts (some p)) (visit (.stmts (some p))))
    (opens : tree.Opens p) (kind : ScopeKind) :
    Encloses tree mention (some p) (visitBlock tree visit kind (some p)) := by
  refine ⟨fun other quiet => ?_, fun has deeper => ?_⟩
  · exact passes_inScope kind none (target.not_contains opens other)
      (inside.passes other false (by simp))
  · obtain ⟨form, found⟩ : ∃ form, tree.form? (some p) = some form :=
      Option.ne_none_iff_exists'.mp fun absent => target.not_has_of_absent absent has
    exact settles_inScope kind none (target.contains found has)
      (inside.settles has (ne_of_suits target suits))

/-- The function of a statement. -/
theorem encloses_func (met : ∀ lower ≤ height, Met tree role mention visit lower) {ref : NodeRef}
    (reaches : Reaches tree height ref) (plays : Plays tree role .func ref)
    (doc : Option DocComment) (owner : Option Owner) (method : Bool) :
    Encloses tree mention ref (visitClosure tree visit ref doc owner method) := by
  cases found : tree.form? ref with
  | none =>
    simp only [visitClosure, found]
    exact ⟨fun _ _ => .pure (), fun has => absurd has (target.not_has_of_absent found)⟩
  | some form =>
    cases ref with
    | none => cases found
    | some p =>
      obtain ⟨reached, h⟩ := reaches p rfl
      have admits := target.grammatical.admits p form reached found
      rw [plays p form rfl found] at admits
      cases form with
      | closure params variadic body =>
        cases height with
        | zero => exact h.elim
        | succ height =>
          exact encloses_closure target (met height (Nat.le_succ _)) reached h found doc owner
            method
      | _ => simp [Role.admits] at admits

/-- The body of a branch or loop, other than `repeat`. -/
theorem encloses_body (met : Met tree role mention visit height) {n : Nat} {ref : NodeRef}
    (among : Reaches tree height ref ∧ ∀ p, ref = some p → tree.ChildOf p n)
    (plays : Plays tree role .body ref)
    (no_repeat : ∀ body cond, tree.form? (some n) ≠ some (.repeatLoop body cond))
    (kind : ScopeKind) : Encloses tree mention ref (visitBlock tree visit kind ref) := by
  cases ref with
  | none => exact ⟨fun _ _ => .pure (), fun has => absurd has (target.not_has_of_absent rfl)⟩
  | some p =>
    obtain ⟨reaches, part⟩ := among
    have suits := suits_stmts target.grammatical reaches plays
    obtain ⟨form, found, child⟩ := Tree.exists_form_of_childOf (part p rfl)
    have other (body cond : NodeRef) : form ≠ .repeatLoop body cond := by
      rintro rfl
      exact no_repeat body cond found
    have opens := Tree.opens_of_child target.nested.linked found other child
    exact encloses_block target suits (met (.stmts (some p)) suits reaches) opens kind

/-- The name is in none of the parts. The induction is on the way in which they are dealt with. -/
theorem passes_course {n : Nat} {α : Type} {xs : List NodeRef} {step : CollectM α}
    (course : Course tree role visit n xs step)
    (met : ∀ lower ≤ height, Met tree role mention visit lower) (among : Among tree height n xs)
    (others : ∀ ref ∈ xs, ¬ tree.Has ref mention.node) : Passes mention true step := by
  induction course generalizing height with
  | declares declares => exact declares.passes_of_hidden
  | @bind n α β xs ys step next _ _ first_ih then_ih =>
    refine .bind (first_ih met (among.sub (List.subset_append_left xs ys)) ?_) fun a =>
      then_ih a met (among.sub (List.subset_append_right xs ys)) ?_
    · exact fun ref mem => others ref (List.mem_append_left ys mem)
    · exact fun ref mem => others ref (List.mem_append_right xs mem)
  | @skip n α ref xs step _ _ rest ih =>
    exact ih met (among.sub (List.subset_cons_self ref xs)) fun ref' mem =>
      others ref' (List.mem_cons_of_mem ref mem)
  | @target n form ref text assigns mem found initializer doc className =>
    have other : ref ≠ some mention.node := by
      rintro rfl
      exact others _ (List.mem_singleton_self _) ⟨mention.node, rfl, .refl⟩
    refine (declares_declareGlobal _ _ _ _ _ _).passes (fun entry is_ok _ => is_ok.2 ▸ other) ?_
    rintro entry ⟨kind, -⟩ - ⟨binds, -⟩
    simp [Entry.binds, DeclKind.isLexical, kind] at binds
  | @expr n ref plays _ doc =>
    have mem := List.mem_singleton_self ref
    exact (met height (Nat.le_refl _) (.expr ref doc) plays (among ref mem).1).passes
      (others ref mem) true fun _ => trivial
  | @closure n ref plays doc owner method =>
    have mem := List.mem_singleton_self ref
    exact (encloses_func target met (among ref mem).1 plays doc owner method).passes
      (others ref mem) true
  | @block n ref plays no_repeat kind _ =>
    have mem := List.mem_singleton_self ref
    exact (encloses_body target (met height (Nat.le_refl _)) (among ref mem) plays
      no_repeat kind).passes (others ref mem) true
  | @inner n p form step found _ _ _ inner ih =>
    have mem := List.mem_singleton_self (some p)
    obtain ⟨lower, less, among⟩ := among.inner mem found
    exact ih (fun l le => met l (by omega)) among fun ref part =>
      Tree.not_has_part found (others _ mem) part

/-- The name is in one of the parts. If it is not that part itself, a function is around it and the
scope it is in is new. -/
theorem settles_course {n : Nat} {α : Type} {xs : List NodeRef} {step : CollectM α}
    (course : Course tree role visit n xs step)
    (met : ∀ lower ≤ height, Met tree role mention visit lower) (among : Among tree height n xs)
    (apart : xs.Pairwise fun ref ref' => tree.Has ref mention.node → ¬ tree.Has ref' mention.node)
    (here : ∃ ref ∈ xs, tree.Has ref mention.node) {deeper : Bool}
    (untargeted : deeper → ∀ form, tree.form? (some n) = some form → form.targets = []) :
    Settles mention deeper step := by
  induction course generalizing height deeper with
  | declares _ =>
    obtain ⟨_, mem, -⟩ := here
    cases mem
  | @bind n α β xs ys step next first then_ first_ih then_ih =>
    obtain ⟨apart, apart', between⟩ := List.pairwise_append.mp apart
    have among_xs := among.sub (List.subset_append_left xs ys)
    have among_ys := among.sub (List.subset_append_right xs ys)
    obtain ⟨ref, mem, has⟩ := here
    rcases List.mem_append.mp mem with mem | mem
    · exact (first_ih met among_xs apart ⟨ref, mem, has⟩ untargeted).bind fun a =>
        passes_course target (then_ a) met among_ys fun ref' mem' => between ref mem ref' mem' has
    · exact .after (passes_course target first met among_xs fun ref' mem' has' =>
        between ref' mem' ref mem has' has) fun a =>
          then_ih a met among_ys apart' ⟨ref, mem, has⟩ untargeted
  | @skip n α ref xs step bare other rest ih =>
    obtain ⟨ref', mem, has⟩ := here
    rcases List.mem_cons.mp mem with rfl | later
    · exact absurd has (target.not_has_of_bare bare (among ref' mem).2 other)
    · exact ih met (among.sub (List.subset_cons_self ref xs)) (List.pairwise_cons.mp apart).2
        ⟨ref', later, has⟩ untargeted
  | @target n form ref text assigns mem found initializer doc className =>
    obtain ⟨_, is_ref, p, rfl, below⟩ := here
    cases List.mem_singleton.mp is_ref
    cases Tree.eq_of_below_name found below
    cases found.symm.trans target.named
    cases deeper with
    | false => exact settles_declareGlobal target.start _ _ _ _
    | true => simp [untargeted rfl form assigns] at mem
  | @expr n ref plays other doc =>
    obtain ⟨_, is_ref, has⟩ := here
    cases List.mem_singleton.mp is_ref
    obtain ⟨p, rfl, below⟩ := has
    have outer := target.ne_of_unassigned ((among _ is_ref).2 p rfl) other
    exact ((met height (Nat.le_refl _) (.expr (some p) doc) plays (among _ is_ref).1).settles
      ⟨p, rfl, below⟩ fun same => outer (Option.some.inj same)).of_deeper
  | @closure n ref plays doc owner method =>
    obtain ⟨_, is_ref, has⟩ := here
    cases List.mem_singleton.mp is_ref
    exact (encloses_func target met (among _ is_ref).1 plays doc owner method).settles has deeper
  | @block n ref plays no_repeat kind _ =>
    obtain ⟨_, is_ref, has⟩ := here
    cases List.mem_singleton.mp is_ref
    exact (encloses_body target (met height (Nat.le_refl _)) (among _ is_ref) plays
      no_repeat kind).settles has deeper
  | @inner n p form step found no_stmt _ other inner ih =>
    obtain ⟨_, is_ref, has⟩ := here
    cases List.mem_singleton.mp is_ref
    have outer := target.ne_of_unassigned ((among _ is_ref).2 p rfl) other
    have apart := target.pairwise_parts ((among _ is_ref).1 p rfl).1 found
    obtain ⟨lower, less, among⟩ := among.inner is_ref found
    have settles : Settles mention true step :=
      ih (fun l le => met l (by omega)) among apart (Tree.exists_has_part found has outer)
        fun _ form' found' => by
          cases found.symm.trans found'
          cases form <;> first | rfl | cases no_stmt
    exact settles.of_deeper

/-! ## Statements -/

/-- The header of a loop is walked in the scope around the loop, the rest in its own. If the name is
in the header, a function is around it, whose scope is there when that of the loop is opened. -/
theorem meets_loop (met : ∀ lower ≤ height, Met tree role mention visit lower) {n : Nat}
    {form : Form} (found : tree.form? (some n) = some form)
    (no_block : ∀ stmts, form ≠ .block stmts) (no_name : ∀ text, form ≠ .name text)
    {xs ys : List NodeRef} {body : NodeRef} {header fresh rest : CollectM Unit}
    (untargeted : ∀ form, tree.form? (some n) = some form → form.targets = [])
    (before : Course tree role visit n xs header)
    (declares : Declares (fun entry => entry.kind = .localVar) fresh)
    (plays : Plays tree role .body body) (after : Course tree role visit n ys rest)
    (among : Among tree height n (xs ++ body :: ys))
    (apart : (xs ++ body :: ys).Pairwise fun ref ref' =>
      tree.Has ref mention.node → ¬ tree.Has ref' mention.node)
    (others : ¬ tree.Has (some n) mention.node →
      ∀ ref ∈ xs ++ body :: ys, ¬ tree.Has ref mention.node)
    (here : tree.Has (some n) mention.node → ∃ ref ∈ xs ++ body :: ys, tree.Has ref mention.node) :
    Meets tree mention (.stmt (some n)) (header >>= fun _ =>
      inScope .loop (tree.span (some n)) none (do
        fresh
        visit (.stmts body)
        rest)) := by
  have among_xs := among.sub (List.subset_append_left xs (body :: ys))
  have among_ys : Among tree height n ys := among.sub fun ref mem => by simp [mem]
  have reaches := (among body (by simp)).1
  have suits := suits_stmts target.grammatical reaches plays
  have walked := met height (Nat.le_refl _) (.stmts body) suits reaches
  have declared : Passes mention false fresh :=
    declares.passes (fun _ kind is_global => by simp [kind] at is_global) (by simp)
  have inside (others : ∀ ref ∈ body :: ys, ¬ tree.Has ref mention.node) :
      Passes mention false (fresh >>= fun _ => visit (.stmts body) >>= fun _ => rest) := by
    refine declared.bind fun _ => .bind (walked.passes ?_ false (by simp)) fun _ =>
      .of_quiet (passes_course target after met among_ys ?_)
    · exact others body List.mem_cons_self
    · exact fun ref mem => others ref (List.mem_cons_of_mem body mem)
  obtain ⟨apart_xs, apart_inside, between⟩ := List.pairwise_append.mp apart
  obtain ⟨apart_body, apart_ys⟩ := List.pairwise_cons.mp apart_inside
  refine ⟨fun other quiet _ => ?_, fun has _ => ?_⟩
  · have opens := (Tree.hosts_of_form found no_block no_name).1
    refine .bind (.of_quiet (passes_course target before met among_xs ?_)) fun _ =>
      passes_inScope .loop none (target.not_contains opens other) (inside ?_)
    · exact fun ref mem => others other ref (List.mem_append_left _ mem)
    · exact fun ref mem => others other ref (List.mem_append_right xs mem)
  · obtain ⟨ref, mem, has_ref⟩ := here has
    rcases List.mem_append.mp mem with mem | mem
    · have first : Settles mention true header := settles_course target before met among_xs apart_xs
        ⟨ref, mem, has_ref⟩ fun _ => untargeted
      exact first.bind_inScope .loop _ none
        (inside fun ref' mem' => between ref mem ref' mem' has_ref)
    · have first : Passes mention true header := passes_course target before met among_xs
        fun ref' mem' has' => between ref' mem' ref mem has' has_ref
      refine .after first fun _ => settles_inScope .loop none (target.contains found has)
        (.after declared fun _ => ?_)
      rcases List.mem_cons.mp mem with rfl | mem
      · refine Settles.bind (walked.settles has_ref (ne_of_suits target suits)) fun _ => ?_
        exact passes_course target after met among_ys fun ref' mem' => apart_body ref' mem' has_ref
      · have passed : Passes mention false (visit (.stmts body)) :=
          walked.passes (fun has_body => apart_body ref mem has_body has_ref) false (by simp)
        exact .after passed fun _ => settles_course target after met among_ys apart_ys
          ⟨ref, mem, has_ref⟩ nofun

/-- A statement other than a block. -/
theorem meets_progress (met : ∀ lower ≤ height, Met tree role mention visit lower) {n : Nat}
    {form : Form} (reached : tree.Reached n) (h : tree.HeightLE n (height + 1))
    (found : tree.form? (some n) = some form) (no_block : ∀ stmts, form ≠ .block stmts)
    (no_name : ∀ text, form ≠ .name text) {step : CollectM Unit}
    (progress : Progress tree role visit n form.parts step) :
    Meets tree mention (.stmt (some n)) step := by
  have among : Among tree height n form.parts := .of_parts reached h found
  have apart := target.pairwise_parts reached found
  have others (other : ¬ tree.Has (some n) mention.node) (ref : NodeRef) (mem : ref ∈ form.parts) :=
    Tree.not_has_part found other mem
  have here (has : tree.Has (some n) mention.node) :=
    Tree.exists_has_part found has (target.ne_of_form? found no_name)
  generalize form.parts = xs at progress among apart others here
  cases progress with
  | @plain xs declarations rest declares course =>
    have not_global (entry : Entry) (is_ok : tree.DeclaredAt n entry)
        (is_global : entry.kind = .global) : entry.node ≠ some mention.node := by
      cases is_ok with
      | hidden hidden => exact absurd is_global hidden.not_global
      | localVar kind => simp [kind] at is_global
      | localFunction _ kind => simp [kind] at is_global
    refine ⟨fun other quiet silent => ?_, fun has _ => ?_⟩
    · refine .bind (declares.passes not_global fun entry is_ok is_quiet => ?_) fun _ =>
        .of_quiet (passes_course target course met among (others other))
      exact silent is_quiet n form rfl found entry is_ok
    · have passed : Passes mention false declarations := declares.passes not_global (by simp)
      exact .after passed fun _ => settles_course target course met among apart (here has) nofun
  | loop untargeted before declares plays after =>
    exact meets_loop target met found no_block no_name untargeted before declares plays after among
      apart others here

/-- Of what a later statement declares the mention sees nothing. -/
theorem not_sees_of_later {block a b : Nat} {stmts : List NodeRef}
    (found : tree.form? (some block) = some (.block stmts))
    (ordered : [a, b].Sublist (tree.children (some block))) (below : tree.Below mention.node a)
    {form : Form} (found_b : tree.form? (some b) = some form) {entry : Entry}
    (declared : tree.DeclaredAt b entry) : ¬ mention.Sees entry := by
  rintro ⟨binds, visible⟩
  cases declared with
  | hidden hidden => exact hidden.unbound _ binds
  | localVar kind hoisted visibleFrom =>
    have nested := target.nested
    have less : a < b := by simpa using (nested.block block stmts found).sublist ordered
    have le := (nested.le_of_below below).1
    have stop := nested.stop b (Tree.lt_size_of_form? found_b)
    have start := nested.name mention.node target.isName
    rw [target.start] at start
    simp only [Entry.isVisibleAt, hoisted, Bool.false_or, decide_eq_true_eq] at visible
    omega
  | localFunction is_function kind named =>
    have same : entry.name = mention.name := by
      simp only [Entry.binds, Bool.and_eq_true, beq_iff_eq] at binds
      exact binds.2
    exact target.first ⟨block, stmts, a, b, _, _, found, ordered, below, is_function, same ▸ named⟩

/-- A block is walked statement by statement. -/
theorem meets_block (met : Met tree role mention visit height) {n : Nat} {stmts : List NodeRef}
    (reached : tree.Reached n) (h : tree.HeightLE n (height + 1))
    (found : tree.form? (some n) = some (.block stmts)) :
    Meets tree mention (.stmts (some n)) (visitStep tree visit (.stmts (some n))) := by
  have plays (ref : NodeRef) (mem : ref ∈ stmts) : Plays tree role .stmt ref :=
    plays_parts target.grammatical reached found (.stmt, ref) (List.mem_map_of_mem mem)
  have each (ref : NodeRef) (mem : ref ∈ stmts) :
      Meets tree mention (.stmt ref) (visit (.stmt ref)) :=
    met (.stmt ref) (plays ref mem) (.of_part reached h found mem)
  simp only [visitStep, found]
  refine ⟨fun other quiet silent => .forM fun ref mem => ?_, fun has _ => ?_⟩
  · exact (each ref mem).passes (Tree.not_has_part found other mem) quiet fun is_quiet =>
      (silent is_quiet).elim
  · obtain ⟨ref, mem, has_ref⟩ :=
      Tree.exists_has_part found has (target.ne_of_form? found (by simp))
    have mem : ref ∈ stmts := mem
    obtain ⟨before, after, split⟩ := List.append_of_mem mem
    have apart : stmts.Pairwise _ := target.pairwise_parts reached found
    rw [split] at apart
    obtain ⟨-, apart, between⟩ := List.pairwise_append.mp apart
    obtain ⟨a, rfl, below⟩ := has_ref
    have outer : some a ≠ some mention.node := by
      rintro ⟨⟩
      have admits := target.grammatical.admits _ _
        (reached.of_childOf ((Tree.childOf_iff found).mpr mem)) target.named
      rw [plays _ mem _ _ rfl target.named] at admits
      cases admits
    have earlier (ref : NodeRef) (mem' : ref ∈ before) :
        Passes mention false (visit (.stmt ref)) := by
      refine (each ref (by simp [split, mem'])).passes (fun has' => ?_) false (by simp)
      exact between ref mem' (some a) List.mem_cons_self has' ⟨a, rfl, below⟩
    have later (ref : NodeRef) (mem' : ref ∈ after) : Passes mention true (visit (.stmt ref)) := by
      refine (each ref (by simp [split, mem'])).passes
        ((List.pairwise_cons.mp apart).1 ref mem' ⟨a, rfl, below⟩) true fun _ => ?_
      rintro b form rfl found_b entry declared
      have sub : [some a, some b].Sublist stmts := by
        rw [split]
        exact (List.Sublist.cons_cons _ (List.singleton_sublist.mpr mem')).trans
          (List.sublist_append_right before _)
      have ordered : [a, b].Sublist (tree.children (some n)) := by
        simpa [Tree.children, found, Form.children, Form.parts] using sub.filterMap id
      exact not_sees_of_later target found ordered below found_b declared
    exact .forM split earlier ((each _ mem).settles ⟨a, rfl, below⟩ outer) later

/-- A block that stands for a statement is no body of a loop. -/
theorem opens_of_stmt {n : Nat} {form : Form} (reached : tree.Reached n)
    (found : tree.form? (some n) = some form) (is_stmt : role n = .stmt) : tree.Opens n := by
  refine ⟨Tree.lt_size_of_form? found, ?_⟩
  rintro ⟨whole, _, body, cond, -, part, found_whole⟩
  have part := target.nested.childOf_iff_partOf.mpr part
  obtain ⟨root, is_root, below⟩ := reached
  rcases Relation.ReflTransGen.cases_head below with rfl | ⟨whole', part', below⟩
  · cases is_stmt.symm.trans (target.grammatical.root n is_root)
  · cases target.rooted.unique _ _ _ part part'
    have parts := target.grammatical.parts whole _ ⟨root, is_root, below⟩ found_whole
    have mem := (Tree.childOf_iff found_whole).mp part
    simp only [Form.parts, List.mem_cons, List.not_mem_nil, or_false] at mem
    rcases mem with is_part | is_part
    · cases is_stmt.symm.trans (parts (.body, body) (by simp [Form.roles]) n is_part.symm)
    · cases is_stmt.symm.trans (parts (.expr, cond) (by simp [Form.roles]) n is_part.symm)

omit target in
theorem Meets.after {v : Visit} {first rest : CollectM Unit}
    (passes : ∀ quiet, Passes mention quiet first) (h : Meets tree mention v rest) :
    Meets tree mention v (first >>= fun _ => rest) where
  passes other quiet silent := (passes quiet).bind fun _ => h.passes other quiet silent
  settles has outer := .after (passes false) fun _ => h.settles has outer

theorem meets_stmt (met : ∀ lower ≤ height, Met tree role mention visit lower) {n : Nat}
    {form : Form} (reached : tree.Reached n) (h : tree.HeightLE n (height + 1))
    (found : tree.form? (some n) = some form) (is_stmt : role n = .stmt)
    (again : ∀ stmts, form = .block stmts →
      Meets tree mention (.stmts (some n)) (visit (.stmts (some n)))) :
    Meets tree mention (.stmt (some n)) (visitStep tree visit (.stmt (some n))) := by
  obtain ⟨_, declares, eq⟩ := visitStep_stmt visit found
  rw [eq]
  refine .after (fun _ => declares.passes_of_hidden) ?_
  have grammatical := target.grammatical
  have no_name (text : String) : form ≠ .name text := by
    rintro rfl
    have admits := grammatical.admits n _ reached found
    rw [is_stmt] at admits
    cases admits
  cases form with
  | block stmts =>
    have suits : Suits tree role (.stmts (some n)) := fun form found' =>
      ⟨stmts, Option.some.inj (found'.symm.trans found)⟩
    have encloses := encloses_block target suits (again stmts rfl)
      (opens_of_stmt target reached found is_stmt) .block
    exact ⟨fun other quiet _ => encloses.passes other quiet, fun has _ => encloses.settles has _⟩
  | ret exprs =>
    have plays := plays_parts grammatical reached found
    have course : Course tree role visit n (Form.ret exprs).parts (visitExprs visit exprs) :=
      .exprs (fun ref mem => plays (.expr, ref) (List.mem_map_of_mem mem))
        fun ref _ => unassigned_of_targets (by simp [found, Form.targets]) ref
    refine .after (fun _ => passes_note tree fun c => ?_)
      (meets_progress target met reached h found (by simp) no_name (.of_course course))
    split
    · exact .modify c _ fun _ => ⟨rfl, rfl⟩
    · exact .refl c
  | _ =>
    exact meets_progress target met reached h found (by simp) no_name
      (progress_visitForm grammatical reached (target.rooted.once n) found is_stmt h (by simp)
        (by simp) _)

theorem meets_expr (met : ∀ lower ≤ height, Met tree role mention visit lower) {n : Nat}
    {form : Form} (reached : tree.Reached n) (h : tree.HeightLE n (height + 1))
    (found : tree.form? (some n) = some form) (is_expr : role n = .expr)
    (doc : Option DocComment) :
    Meets tree mention (.expr (some n) doc) (visitStep tree visit (.expr (some n) doc)) := by
  have grammatical := target.grammatical
  by_cases is_closure : ∃ params variadic body, form = .closure params variadic body
  · obtain ⟨params, variadic, body, rfl⟩ := is_closure
    simp only [visitStep, visitExpr, found]
    have encloses := encloses_closure target (met height (Nat.le_refl _)) reached h found doc none
      false
    exact ⟨fun other quiet _ => encloses.passes other quiet, fun has _ => encloses.settles has _⟩
  · have no_closure : form.isClosure = false := by
      cases form <;> first | rfl | simp at is_closure
    have course : Course tree role visit n form.parts (visitExpr tree visit (some n) doc) :=
      course_visitExpr grammatical reached found is_expr no_closure doc
    have among : Among tree height n form.parts := .of_parts reached h found
    have untargeted (form' : Form) (found' : tree.form? (some n) = some form') :
        form'.targets = [] := by
      have admits := grammatical.admits n form' reached found'
      rw [is_expr] at admits
      cases form' <;> first | rfl | simp [Role.admits, Form.isStatement] at admits
    refine ⟨fun other quiet _ => .of_quiet (passes_course target course met among ?_),
      fun has outer => settles_course target course met among
        (target.pairwise_parts reached found) ?_ fun _ => untargeted⟩
    · exact fun ref mem => Tree.not_has_part found other mem
    · exact Tree.exists_has_part found has fun same => outer (congrArg some same)

/-- A visit with levels enough. -/
theorem met_visitWithin {depth : Nat} (enough : 3 * height ≤ depth) :
    Met tree role mention (visitWithin tree depth) height :=
  each_visitWithin
    (fun _ _ absent =>
      ⟨fun _ _ _ => .pure (), fun has => absurd has (target.not_has_of_absent absent)⟩)
    (fun _ _ met _ _ reached bounded found is_expr doc =>
      meets_expr target met reached bounded found is_expr doc)
    (fun _ _ met _ _ reached bounded found => meets_block target met reached bounded found)
    (fun _ _ met _ _ reached bounded found is_stmt again =>
      meets_stmt target met reached bounded found is_stmt again) enough

/-- In the finished table a lookup from the innermost scope at the name tells what was decided. -/
theorem declaresGlobal_run_iff :
    (run tree).table.DeclaresGlobal mention.node ↔
      (run tree).table.lookup mention.name mention.pos ((run tree).table.scopeAt mention.pos)
        = none := by
  have rooted := target.rooted
  have grammatical := target.grammatical
  obtain ⟨root, is_root, there, under⟩ := target.nested.rooted
  have has_root : tree.Has (some root) mention.node :=
    ⟨root, rfl, target.nested.below_of_under (under mention.node target.isName)⟩
  have reached : tree.Reached root := ⟨root, is_root, .refl⟩
  have bounded := rooted.heightLE_of_reached reached
  obtain ⟨form, found⟩ : ∃ form, tree.form? (some root) = some form :=
    Option.ne_none_iff_exists'.mp fun absent => target.not_has_of_absent absent has_root
  have admits := grammatical.admits root form reached found
  rw [grammatical.root root is_root] at admits
  cases form with
  | chunk block =>
    have reaches : Reaches tree tree.size block :=
      .of_part reached bounded found (by simp [Form.parts])
    have suits := suits_stmts grammatical reaches
      (plays_parts grammatical reached found (.body, block) (by simp [Form.roles]))
    have has_block : tree.Has block mention.node := by
      have part := Tree.exists_has_part found has_root (target.ne_of_form? found (by simp))
      simpa [Form.parts] using part
    have enough : 3 * tree.size ≤ depthBound tree := by
      rw [depthBound]
      omega
    have settles := (met_visitWithin target enough (.stmts block) suits reaches).settles has_block
      (ne_of_suits target suits)
    let opened := (openScope .file (tree.span (some root)) none start).2
    have awaits : opened.Awaits mention := by
      refine ⟨sound_file _, rfl, ?_⟩
      rintro ⟨d, entry, found, -⟩
      simp [opened, openScope, snd_modify, start, ScopeTable.openScope, ScopeTable.empty,
        ScopeTable.entry?] at found
    have decided := settles opened awaits
    obtain ⟨-, closed⟩ := since_closeScope decided.since
    have table : (run tree).table
        = (visitWithin tree (depthBound tree) (.stmts block) opened).2.table := by
      have same := congrArg Collector.table closed
      simp only [run, is_root, found]
      exact same
    obtain ⟨scope, found_scope, -, span⟩ := decided.since.grows.scope 0 _ rfl
    have holds : scope.span.contains mention.pos := by
      rw [span]
      exact target.contains found has_root
    rw [table, ScopeTable.scopeAt_eq_innermost found_scope holds]
    exact decided.global
  | _ => simp [Role.admits] at admits

end Walk

end Collect

/-! ## The globals of a file -/

namespace FileDecls

/-- In a tree that is built in source order and follows the grammar, a global is recorded for a name
that is assigned to just if no binding of the name is found from the scope at its start, provided
that the start lies in no other part of an `if` statement and that no block around the name declares
a local function of that name later on. -/
theorem global_iff_unbound (file : FileId) {tree : Tree} (composed : tree.Composed)
    (grammatical : tree.Grammatical) {stmt t : Nat} {form : Form} {name : String}
    (found : tree.form? (some stmt) = some form) (assigned : some t ∈ form.targets)
    (named : tree.form? (some t) = some (.name name)) (own_branch : tree.InOwnBranch t)
    (first : ¬ tree.FunctionFollows t name) :
    (∃ d entry, entry? (ofTree file tree) d = some entry ∧ entry.kind = .global ∧
        entry.node = some t) ↔
      (ofTree file tree).table.lookup name (tree.span (some t)).start
        ((ofTree file tree).table.scopeAt (tree.span (some t)).start) = none := by
  obtain ⟨role, grammatical⟩ := grammatical
  have target : tree.Target role ⟨t, (tree.span (some t)).start, name⟩ :=
    ⟨composed.nested, grammatical, named, rfl, ⟨stmt, form, found, assigned⟩, own_branch, first⟩
  exact Collect.declaresGlobal_run_iff target

namespace LateFunction

/-- The calls for `if a then x = 1 local function x() end x = 2 else x = 3 end`. -/
def calls : List Construct :=
  [.plain (.name "a"), .plain (.name "x"), .plain .number, .plain (.assign [some 1] [some 2]),
    .closure [] false [], .localFunction "x" (some 5), .plain (.name "x"), .plain .number,
    .plain (.assign [some 8] [some 9]), .plain (.name "x"), .plain .number,
    .plain (.assign [some 11] [some 12]),
    .ifStat [(some 0, [some 3, some 7, some 10])] (some [some 13])]

def builder : Builder := calls.foldl (fun builder call => (call.make builder).2) .empty

/-- The names that are assigned to are the nodes 1, 8 and 11. The first two are in the block 14, the
third is in the block 15. -/
def tree : Tree := (BuildM.finish [some 16] builder).2.tree

theorem composed_tree : tree.Composed := by
  have cond := @InSourceOrder.make _ [] (.plain (.name "a")) .empty
  have name := @InSourceOrder.make _ [0] (.plain (.name "x")) cond
  have value := @InSourceOrder.make _ [0, 1] (.plain .number) name
  have first := @InSourceOrder.make _ [0] (.plain (.assign [some 1] [some 2])) value
  have closure := @InSourceOrder.make _ [0, 3] (.closure [] false []) first
  have function := @InSourceOrder.make _ [0, 3] (.localFunction "x" (some 5)) closure
  have name := @InSourceOrder.make _ [0, 3, 7] (.plain (.name "x")) function
  have value := @InSourceOrder.make _ [0, 3, 7, 8] (.plain .number) name
  have second := @InSourceOrder.make _ [0, 3, 7] (.plain (.assign [some 8] [some 9])) value
  have name := @InSourceOrder.make _ [0, 3, 7, 10] (.plain (.name "x")) second
  have value := @InSourceOrder.make _ [0, 3, 7, 10, 11] (.plain .number) name
  have third := @InSourceOrder.make _ [0, 3, 7, 10] (.plain (.assign [some 11] [some 12])) value
  refine ⟨builder, [some 16], ?_, rfl⟩
  exact @InSourceOrder.make _ []
    (.ifStat [(some 0, [some 3, some 7, some 10])] (some [some 13])) third

theorem grammatical_tree : tree.Grammatical := by
  let roles : List Role := [.expr, .expr, .expr, .stmt, .body, .func, .name, .stmt, .expr, .expr,
    .stmt, .expr, .expr, .stmt, .body, .body, .stmt, .body, .chunk]
  refine ⟨fun n => roles.getD n .stmt, Tree.grammaticalAs_of_all ?_ ?_⟩
  · rfl
  · decide +kernel

theorem inOwnBranch_tree : tree.InOwnBranch 8 := by
  have only : ∀ n < 19, (tree.form? (some n)).any Form.isLateWrapping → n = 16 := by decide
  intro whole arms elseBlock m found part contains
  obtain rfl : whole = 16 :=
    only whole (Tree.lt_size_of_form? found) (by simp [found, Form.isLateWrapping])
  have mem : m ∈ [0, 14, 15] := part
  simp only [List.mem_cons, List.not_mem_nil, or_false] at mem
  rcases mem with rfl | rfl | rfl
  · cases contains
  · have in_stmt : tree.ChildOf 8 10 := .head _
    have in_block : tree.ChildOf 10 14 := .tail _ (.tail _ (.head _))
    exact .tail (.single in_stmt) in_block
  · cases contains

theorem not_functionFollows_tree : ¬ tree.FunctionFollows 8 "x" := by
  have nested := composed_tree.nested
  have only : ∀ n < 19, 8 < n → ¬ (tree.form? (some n)).any (fun form =>
      (form.roles .stmt).any fun part => part.1 = .func) := by decide
  rintro ⟨block, stmts, a, b, node, func, found, ordered, below, is_function, -⟩
  have before : a < b := by simpa using (nested.block block stmts found).sublist ordered
  have le := (nested.le_of_below below).1
  refine only b (Tree.lt_size_of_form? is_function) (by omega) ?_
  simp [is_function, Form.roles]

/-- What is recorded, and for which nodes. The function is found wherever the name is assigned to:
before it, because it is visible in all of its block, and in the other block, because the span of
its own runs on to the offset 29. -/
theorem collect_tree :
    (Collect.run tree).table.entries.map (fun entry => (entry.kind, entry.node))
        = #[(.global, some 1), (.function, some 6), (.global, some 11)] ∧
      ∀ pos ∈ [2, 16, 22],
        (Collect.run tree).table.lookup "x" pos ((Collect.run tree).table.scopeAt pos)
          = some 1 := by
  have root : tree.form? tree.root = some (.chunk (some 17)) := rfl
  have depth : Collect.depthBound tree = 63 := rfl
  -- comments are kept in a map that does not evaluate, but here there are none
  have doc (node : Nat) : tree.doc? (some node) = none := Std.HashMap.getElem?_empty
  have whole := @Collect.visitWithin_stmts tree 17 [some 16] rfl
  have branches :=
    @Collect.visitWithin_stmt tree 16 (.ifElse [⟨some 0, some 14⟩] (some 15)) rfl (doc _)
  have block := @Collect.visitWithin_stmts tree 14 [some 3, some 7, some 10] rfl
  have block' := @Collect.visitWithin_stmts tree 15 [some 13] rfl
  have first := @Collect.visitWithin_stmt tree 3 (.assign [some 1] [some 2]) rfl (doc _)
  have function := @Collect.visitWithin_stmt tree 7 (.localFunction (some 6) (some 5)) rfl (doc _)
  have second := @Collect.visitWithin_stmt tree 10 (.assign [some 8] [some 9]) rfl (doc _)
  have third := @Collect.visitWithin_stmt tree 13 (.assign [some 11] [some 12]) rfl (doc _)
  simp only [Collect.run, root, depth, whole, branches, Collect.visitForm, Collect.visitBlock,
    block, block', first, function, second, third, List.forM_eq_forM, List.forM_cons,
    List.forM_nil]
  decide +kernel

theorem exists_global {t : Nat} (listed : t = 1 ∨ t = 11) :
    ∃ d entry, entry? (ofTree ⟨1⟩ tree) d = some entry ∧ entry.kind = .global ∧
      entry.node = some t := by
  have mem : (DeclKind.global, some t)
      ∈ (Collect.run tree).table.entries.map fun entry => (entry.kind, entry.node) := by
    rw [collect_tree.1]
    rcases listed with rfl | rfl <;> simp
  obtain ⟨entry, mem, same⟩ := Array.mem_map.mp mem
  obtain ⟨d, found⟩ := Array.mem_iff_getElem?.mp mem
  obtain ⟨kind, node⟩ := Prod.mk.inj same
  exact ⟨d, entry, found, kind, node⟩

end LateFunction

open LateFunction in
/-- The name after the function is no global. -/
theorem global_iff_unbound_lateFunction :
    tree.Composed ∧ tree.Grammatical ∧ tree.InOwnBranch 8 ∧ ¬ tree.FunctionFollows 8 "x" ∧
      (ofTree ⟨1⟩ tree).table.lookup "x" (tree.span (some 8)).start
          ((ofTree ⟨1⟩ tree).table.scopeAt (tree.span (some 8)).start) = some 1 ∧
      ¬ ∃ d entry, entry? (ofTree ⟨1⟩ tree) d = some entry ∧ entry.kind = .global ∧
        entry.node = some 8 := by
  have found : tree.form? (some 10) = some (.assign [some 8] [some 9]) := rfl
  have bound : (ofTree ⟨1⟩ tree).table.lookup "x" (tree.span (some 8)).start
      ((ofTree ⟨1⟩ tree).table.scopeAt (tree.span (some 8)).start) = some 1 :=
    collect_tree.2 16 (by simp)
  have decided := global_iff_unbound ⟨1⟩ composed_tree grammatical_tree found (.head _) rfl
    inOwnBranch_tree not_functionFollows_tree
  refine ⟨composed_tree, grammatical_tree, inOwnBranch_tree, not_functionFollows_tree, bound, ?_⟩
  rw [decided, bound]
  simp

open LateFunction in
/-- The name before the function and the one in the other block are recorded as globals, although a
lookup from the scope at their start finds the function. -/
theorem not_global_iff_unbound :
    tree.Composed ∧ tree.Grammatical ∧ ∀ t ∈ [1, 11],
      tree.form? (some t) = some (.name "x") ∧
      (∃ stmt form, tree.form? (some stmt) = some form ∧ some t ∈ form.targets) ∧
      (∃ d entry, entry? (ofTree ⟨1⟩ tree) d = some entry ∧ entry.kind = .global ∧
        entry.node = some t) ∧
      (ofTree ⟨1⟩ tree).table.lookup "x" (tree.span (some t)).start
        ((ofTree ⟨1⟩ tree).table.scopeAt (tree.span (some t)).start) = some 1 := by
  refine ⟨composed_tree, grammatical_tree, fun t listed => ?_⟩
  simp only [List.mem_cons, List.not_mem_nil, or_false] at listed
  have recorded := exists_global listed
  rcases listed with rfl | rfl
  · exact ⟨rfl, ⟨3, _, rfl, .head _⟩, recorded, collect_tree.2 2 (by simp)⟩
  · exact ⟨rfl, ⟨13, _, rfl, .head _⟩, recorded, collect_tree.2 22 (by simp)⟩

end FileDecls

end LuaTyping
