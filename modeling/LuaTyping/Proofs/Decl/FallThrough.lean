import LuaTyping.Proofs.Decl.Functions
import LuaTyping.Proofs.Tree.Outcomes

/-!
# Functions whose end is not reached

With each function the walk notes whether control can reach the end of its body. The check behind
this looks for a statement that returns on every path. Where it finds one, control does not reach
the end, whatever stands around the statement (`not_ends_of_blockReturns`).

It misses loops that cannot be left, breaks, and blocks that stand directly among statements.
Without these, control that cannot reach the end has to return, and following it down the tree leads
to such a statement (`stmtReturns_of_not_ends`). The induction is on the height of the statement,
and the steps of the check are enough because no part is higher than the whole.
-/

set_option autoImplicit false

namespace LuaTyping

/-! ## What is noted -/

/-- Whether control can reach the end of a function that is noted is as the check on its body has
it. -/
def Collector.Judges (tree : Tree) (c : Collector) : Prop :=
  ∀ (n : Nat) info, c.functions[n]? = some info → ∃ params variadic body,
    tree.form? (some n) = some (.closure params variadic body) ∧
      info.fallsThrough = !Collect.blockReturns tree body

namespace Collect

variable {tree : Tree}

theorem judges_inScope (kind : ScopeKind) (span : Span) (function : NodeRef)
    {body : CollectM Unit} (inside : Keeps (Collector.Judges tree) body) :
    Keeps (Collector.Judges tree) (inScope kind span function body) := by
  intro c judges
  obtain ⟨s, closed⟩ := exists_closeScope (body (openScope kind span function c).2).2
  have after : (body (openScope kind span function c).2).2.Judges tree := inside _ judges
  show (closeScope (body (openScope kind span function c).2).2).2.Judges tree
  rw [closed]
  exact after

theorem lasting_judges : Lasting tree fun _ : Unit => Collector.Judges tree where
  declare judges _ := judges
  note judges notes n info found := by
    rcases notes.functions n info found with ⟨before, was, -, same⟩ | describes
    · rw [same]
      exact judges n before was
    · exact describes.fallsThrough
  enclosed _ _ _ kind function _ inside _ := judges_inScope kind _ function (inside ())

theorem judges_run (tree : Tree) : (run tree).Judges tree := by
  have start_judges : start.Judges tree := fun n info found => by simp [start] at found
  unfold run
  split
  · exact judges_inScope _ _ _ (lasting_judges.visitWithin
      (fun kind span function _ inside _ => judges_inScope kind span function (inside ()))
      _ _ ()) start start_judges
  · exact start_judges

/-! ## The check -/

/-- Whether a block holds a statement that returns on every path, looking so many statements
deep. -/
def blockReturnsWithin (tree : Tree) (steps : Nat) (block : NodeRef) : Bool :=
  match tree.form? block with
  | some (.block stmts) => stmts.any fun stmt => stmtReturns tree steps stmt
  | _ => false

theorem blockReturns_eq (block : NodeRef) :
    blockReturns tree block = blockReturnsWithin tree (tree.size + 1) block := rfl

/-- Whether a statement of the form returns on every path. -/
def formReturns (tree : Tree) (steps : Nat) : Form → Bool
  | .ret _ => true
  | .doBlock body => blockReturnsWithin tree steps body
  | .ifElse arms elseBlock =>
    elseBlock.isSome && blockReturnsWithin tree steps elseBlock &&
      arms.all fun arm => blockReturnsWithin tree steps arm.block
  | _ => false

theorem stmtReturns_succ (steps : Nat) {stmt : NodeRef} {form : Form}
    (found : tree.form? stmt = some form) :
    stmtReturns tree (steps + 1) stmt = formReturns tree steps form := by
  rw [stmtReturns, found]
  cases form <;> rfl

/-- Control never reaches the end of a block that holds a statement whose end it never reaches. -/
theorem not_ends_block {steps : Nat} {block : NodeRef}
    (stmts : ∀ stmt, stmtReturns tree steps stmt = true → ¬ tree.Ends stmt .completes)
    (returns : blockReturnsWithin tree steps block = true) : ¬ tree.Ends block .completes := by
  rw [blockReturnsWithin] at returns
  split at returns
  · rename_i found
    obtain ⟨stmt, mem, returns⟩ := List.any_eq_true.mp returns
    exact fun ends => stmts stmt returns ((Tree.completes_iff found).mp ends stmt mem)
  · cases returns

/-- Control never reaches the end of a statement that returns on every path. -/
theorem not_ends_of_stmtReturns {steps : Nat} {stmt : NodeRef}
    (returns : stmtReturns tree steps stmt = true) : ¬ tree.Ends stmt .completes := by
  induction steps generalizing stmt with
  | zero => cases returns
  | succ steps ih =>
    have block {body : NodeRef} (returns : blockReturnsWithin tree steps body = true) :
        ¬ tree.Ends body .completes := not_ends_block (fun _ => ih) returns
    cases found : tree.form? stmt with
    | none => simp [stmtReturns, found] at returns
    | some form =>
      rw [stmtReturns_succ steps found] at returns
      rw [Tree.completes_iff found]
      cases form with
      | ret exprs => simp [Tree.Completes, Form.passes, Form.mayRunNever]
      | doBlock body => exact block returns
      | ifElse arms elseBlock =>
        simp only [formReturns, Bool.and_eq_true, List.all_eq_true] at returns
        obtain ⟨⟨-, last⟩, each⟩ := returns
        rintro (⟨taken, mem, inside⟩ | inside)
        · exact block (each taken mem) inside
        · exact block last inside
      | _ => cases returns

theorem not_ends_of_blockReturns {block : NodeRef} (returns : blockReturns tree block = true) :
    ¬ tree.Ends block .completes :=
  not_ends_block (fun _ => not_ends_of_stmtReturns) returns

end Collect

/-! ## Straight functions -/

/-- In the function, apart from functions inside it, there is no loop and no break, and no block
stands directly among the statements of another one. -/
structure Tree.Straight (tree : Tree) (c : Nat) : Prop where
  no_loop : ∀ n form, tree.Within c n → tree.form? (some n) = some form → form.loopBlock? = none
  no_break : ∀ n, tree.Within c n → tree.form? (some n) ≠ some .breakStat
  no_bare_block : ∀ n stmts, tree.Within c n → tree.form? (some n) = some (.block stmts) →
    ∀ stmt ∈ stmts, ∀ inner, tree.form? stmt ≠ some (.block inner)

/-- The statements of a block. -/
def Form.stmts? : Form → Option (List NodeRef)
  | .block stmts => some stmts
  | _ => none

/-- That a function is straight can be checked node by node. -/
theorem Tree.straight_of_all {tree : Tree}
    (all : (List.range tree.size).all fun n => (tree.form? (some n)).all fun form =>
      form.loopBlock?.isNone && form != .breakStat && form.stmts?.all fun stmts =>
        stmts.all fun stmt => (tree.form? stmt).all fun inner => inner.stmts?.isNone) (c : Nat) :
    tree.Straight c := by
  have node {n : Nat} {form : Form} (found : tree.form? (some n) = some form) :=
    (List.all_eq_true.mp all) n (List.mem_range.mpr (lt_size_of_form? found))
  refine ⟨fun n form _ found => ?_, fun n _ found => ?_,
    fun n stmts _ found stmt mem inner block => ?_⟩
  · have checked := node found
    simp only [found, Option.all_some, Bool.and_eq_true] at checked
    exact Option.isNone_iff_eq_none.mp checked.1.1
  · have checked := node found
    simp [found] at checked
  · have checked := node found
    simp only [found, Option.all_some, Bool.and_eq_true] at checked
    have plain := List.all_eq_true.mp checked.2 stmt mem
    simp [block, Form.stmts?] at plain

theorem Tree.Within.of_part {tree : Tree} {c n p : Nat} {form : Form} (within : tree.Within c n)
    (found : tree.form? (some n) = some form) (no_closure : form.isClosure = false)
    (part : some p ∈ form.parts) : tree.Within c p := by
  obtain ⟨top, of_c, path⟩ := within
  refine ⟨top, of_c, .head ⟨(childOf_iff found).mpr part, ?_⟩ path⟩
  rw [← isClosure_iff]
  rintro ⟨form', found', is_closure⟩
  cases found.symm.trans found'
  cases no_closure.symm.trans is_closure

namespace Collect

/-- The reference leads to nothing, or to a node of bounded height that has the role and lies in
the function, but in no function inside it. -/
structure Lies (tree : Tree) (role : Nat → Role) (c height : Nat) (own : Role) (ref : NodeRef) :
    Prop where
  reaches : Reaches tree height ref
  plays : Plays tree role own ref
  within : ∀ n, ref = some n → tree.Within c n

section Straight

variable {tree : Tree} {role : Nat → Role} (grammatical : tree.GrammaticalAs role) {c : Nat}
  (straight : tree.Straight c) {height : Nat}

/-- Where control never reaches the end, there is a node, and its height is not zero. -/
theorem Lies.exists_form {own : Role} {ref : NodeRef} (lies : Lies tree role c height own ref)
    (never : ¬ tree.Ends ref .completes) :
    ∃ n form lower, ref = some n ∧ tree.form? (some n) = some form ∧ height = lower + 1 := by
  cases ref with
  | none => exact absurd (.absent rfl) never
  | some n =>
    cases found : tree.form? (some n) with
    | none => exact absurd (.absent found) never
    | some form =>
      cases height with
      | zero => exact (lies.reaches n rfl).2.elim
      | succ lower => exact ⟨n, form, lower, rfl, found, rfl⟩

include grammatical in
theorem Lies.of_part {own : Role} {n : Nat} {form : Form}
    (lies : Lies tree role c (height + 1) own (some n)) (found : tree.form? (some n) = some form)
    (no_closure : form.isClosure = false) {part : Role × NodeRef} (mem : part ∈ form.roles own) :
    Lies tree role c height part.1 part.2 := by
  obtain ⟨reached, bounded⟩ := lies.reaches n rfl
  have is_part : part.2 ∈ form.parts := by
    rw [← form.map_snd_roles own]
    exact List.mem_map_of_mem mem
  refine ⟨.of_part reached bounded found is_part, ?_, fun p is_p => ?_⟩
  · rw [← lies.plays n form rfl found] at mem
    exact plays_parts grammatical reached found part mem
  · exact (lies.within n rfl).of_part found no_closure (is_p ▸ is_part)

include grammatical straight

theorem blockReturnsWithin_of_not_ends {steps : Nat}
    (stmts : ∀ height stmt, height ≤ steps → Lies tree role c height .stmt stmt →
      (∀ inner, tree.form? stmt ≠ some (.block inner)) → ¬ tree.Ends stmt .completes →
      stmtReturns tree steps stmt = true)
    {body : NodeRef} (lies : Lies tree role c height .body body) (enough : height ≤ steps + 1)
    (never : ¬ tree.Ends body .completes) : blockReturnsWithin tree steps body = true := by
  obtain ⟨n, form, lower, rfl, found, rfl⟩ := lies.exists_form never
  obtain ⟨inner, rfl⟩ := suits_stmts grammatical lies.reaches lies.plays form found
  rw [Tree.completes_iff found, Tree.Completes, not_forall] at never
  obtain ⟨stmt, never⟩ := never
  obtain ⟨mem, never⟩ := Classical.not_imp.mp never
  have inside : Lies tree role c lower .stmt stmt :=
    lies.of_part grammatical found rfl (List.mem_map.mpr ⟨stmt, mem, rfl⟩)
  rw [blockReturnsWithin, found]
  exact List.any_eq_true.mpr ⟨stmt, mem, stmts lower stmt (by omega) inside
    (straight.no_bare_block n inner (lies.within n rfl) found stmt mem) never⟩

/-- In a straight function, a statement whose end control never reaches returns on every path. -/
theorem stmtReturns_of_not_ends {steps : Nat} {stmt : NodeRef}
    (lies : Lies tree role c height .stmt stmt) (enough : height ≤ steps)
    (no_block : ∀ inner, tree.form? stmt ≠ some (.block inner))
    (never : ¬ tree.Ends stmt .completes) : stmtReturns tree steps stmt = true := by
  induction steps generalizing height stmt with
  | zero =>
    obtain ⟨_, _, lower, -, -, rfl⟩ := lies.exists_form never
    exact absurd enough (Nat.not_succ_le_zero lower)
  | succ steps ih =>
    obtain ⟨n, form, lower, rfl, found, rfl⟩ := lies.exists_form never
    have admits := grammatical.admits n form (lies.reaches n rfl).1 found
    rw [lies.plays n form rfl found] at admits
    have no_loop := straight.no_loop n form (lies.within n rfl) found
    have no_break := straight.no_break n (lies.within n rfl)
    have no_closure : form.isClosure = false := by
      cases form <;> simp_all [Role.admits, Form.isStatement, Form.isClosure]
    have block {body : NodeRef} (part : (Role.body, body) ∈ form.roles .stmt)
        (never : ¬ tree.Ends body .completes) : blockReturnsWithin tree steps body = true :=
      blockReturnsWithin_of_not_ends grammatical straight
        (fun _ _ enough lies no_block never => ih lies enough no_block never)
        (lies.of_part grammatical found no_closure part) (by omega) never
    rw [stmtReturns_succ steps found]
    rw [Tree.completes_iff found] at never
    cases form with
    | ret exprs => rfl
    | doBlock body => exact block (by simp [Form.roles]) never
    | ifElse arms elseBlock =>
      rw [Tree.Completes, not_or] at never
      obtain ⟨no_arm, no_else⟩ := never
      have there : elseBlock.isSome = true := by
        cases elseBlock with
        | none => exact absurd (.absent rfl) no_else
        | some n => rfl
      have last := block (by simp [Form.roles]) no_else
      simp only [formReturns, there, last, Bool.true_and, List.all_eq_true]
      refine fun taken mem => block ?_ fun ends => no_arm ⟨taken, mem, ends⟩
      exact List.mem_append_left _ (List.mem_flatMap.mpr ⟨taken, mem, by simp⟩)
    | block inner => exact absurd found (no_block inner)
    | breakStat => exact absurd found no_break
    | localVars | localFunction | functionStat | assign | exprStat | docOnly =>
      exact absurd (.inl rfl) never
    | whileLoop | repeatLoop | numericFor | genericFor => cases no_loop
    | _ => simp [Role.admits, Form.isStatement] at admits

/-- The check finds every straight function whose end control never reaches. -/
theorem blockReturns_of_not_ends (rooted : tree.Rooted) {params : List NodeRef} {variadic : Bool}
    {body : NodeRef} (reached : tree.Reached c)
    (is_closure : tree.form? (some c) = some (.closure params variadic body))
    (never : ¬ tree.Ends body .completes) : blockReturns tree body = true := by
  have bounded := rooted.heightLE_of_reached reached
  have part : body ∈ (Form.closure params variadic body).parts := by simp [Form.parts]
  have lies : Lies tree role c tree.size .body body :=
    ⟨.of_part reached bounded is_closure part,
      plays_parts grammatical reached is_closure (.body, body) (by simp [Form.roles]),
      fun n is_body => ⟨n, (Tree.childOf_iff is_closure).mpr (is_body ▸ part), .refl⟩⟩
  rw [blockReturns_eq]
  exact blockReturnsWithin_of_not_ends grammatical straight
    (fun _ _ enough lies no_block never =>
      stmtReturns_of_not_ends grammatical straight lies enough no_block never)
    lies (by omega) never

end Straight

end Collect

/-! ## The functions of a file -/

/-- In a tree that follows the grammar, where no node is a part of two others, something is noted of
every function. If it is that control does not reach the end of the body, control does not; and in a
straight function it is noted just then. -/
theorem FileDecls.fallsThrough_ofTree (file : FileId) {tree : Tree} (branching : tree.Branching)
    (grammatical : tree.Grammatical) {c : Nat} {params : List NodeRef} {variadic : Bool}
    {body : NodeRef} (reached : tree.Reached c)
    (is_closure : tree.form? (some c) = some (.closure params variadic body)) :
    ∃ info, (ofTree file tree).function? (some c) = some info ∧
      (info.fallsThrough = false → ¬ tree.Ends body .completes) ∧
      (tree.Straight c → ¬ tree.Ends body .completes → info.fallsThrough = false) := by
  obtain ⟨role, grammatical⟩ := grammatical
  have rooted := grammatical.rooted branching
  obtain ⟨stmts, gains⟩ := Collect.gains_run rooted grammatical
  obtain ⟨info, found, -⟩ :=
    gains.made c (rooted.mem_closures_iff.mpr ⟨reached, params, variadic, body, is_closure⟩)
  obtain ⟨_, _, _, is_closure', noted⟩ := Collect.judges_run tree c info found
  cases is_closure.symm.trans is_closure'
  refine ⟨info, found, fun never => ?_, fun straight never => ?_⟩
  · rw [noted, Bool.not_eq_false'] at never
    exact Collect.not_ends_of_blockReturns never
  · rw [noted, Bool.not_eq_false']
    exact Collect.blockReturns_of_not_ends grammatical straight rooted reached is_closure never

namespace FileDecls.TwoEnds

/-- The file `local function f() if a then return else do return end end end local function g() if a
then return end end`. The functions are the nodes 10 and 18. -/
def tree : Tree :=
  let forms : List Form := [
    .name "f", .name "a", .ret [], .block [some 2], .ret [], .block [some 4], .doBlock (some 5),
    .block [some 6], .ifElse [⟨some 1, some 3⟩] (some 7), .block [some 8],
    .closure [] false (some 9), .localFunction (some 0) (some 10),
    .name "g", .name "a", .ret [], .block [some 14], .ifElse [⟨some 13, some 15⟩] none,
    .block [some 16], .closure [] false (some 17), .localFunction (some 12) (some 18),
    .block [some 11, some 19], .chunk (some 20)]
  ⟨(forms.map fun form => ⟨form, ⟨0, 0⟩, none⟩).toArray, ∅, some 21⟩

theorem branching : tree.Branching := Tree.branching_of_nodup (by decide)

theorem grammatical : tree.Grammatical := by
  let roles : List Role := [.name, .expr, .stmt, .body, .stmt, .body, .stmt, .body, .stmt, .body,
    .func, .stmt, .name, .expr, .stmt, .body, .stmt, .body, .func, .stmt, .body, .chunk]
  refine ⟨fun n => roles.getD n .stmt, Tree.grammaticalAs_of_all ?_ ?_⟩
  · decide
  · decide

theorem reached : tree.Reached 10 ∧ tree.Reached 18 := by
  have block : tree.Below 20 21 := .single (.head _)
  have first : tree.Below 11 20 := .single (.head _)
  have second : tree.Below 19 20 := .single (.tail _ (.head _))
  have in_first : tree.Below 10 11 := .single (.tail _ (.head _))
  have in_second : tree.Below 18 19 := .single (.tail _ (.head _))
  exact ⟨⟨21, rfl, in_first.trans (first.trans block)⟩,
    ⟨21, rfl, in_second.trans (second.trans block)⟩⟩

theorem straight (c : Nat) : tree.Straight c := Tree.straight_of_all (by decide) c

theorem not_ends : ¬ tree.Ends (some 9) .completes := by
  intro ends
  have branches : tree.Ends (some 8) .completes := (Tree.completes_iff rfl).mp ends _ (.head _)
  rcases (Tree.completes_iff rfl).mp branches with ⟨taken, mem, inside⟩ | inside
  · obtain rfl := List.mem_singleton.mp mem
    have returns : tree.Ends (some 2) .completes := (Tree.completes_iff rfl).mp inside _ (.head _)
    cases (Tree.completes_iff rfl).mp returns <;> contradiction
  · have inner : tree.Ends (some 6) .completes := (Tree.completes_iff rfl).mp inside _ (.head _)
    have block : tree.Completes (.doBlock (some 5)) := (Tree.completes_iff rfl).mp inner
    have returns : tree.Ends (some 4) .completes := (Tree.completes_iff rfl).mp block _ (.head _)
    cases (Tree.completes_iff rfl).mp returns <;> contradiction

end FileDecls.TwoEnds

open FileDecls.TwoEnds in
/-- Control does not reach the end of the first function, and may reach that of the second. -/
theorem FileDecls.fallsThrough_twoEnds :
    tree.Branching ∧ tree.Grammatical ∧ tree.Straight 10 ∧
      (∃ info, (ofTree ⟨1⟩ tree).function? (some 10) = some info ∧ info.fallsThrough = false) ∧
      ∃ info, (ofTree ⟨1⟩ tree).function? (some 18) = some info ∧ info.fallsThrough = true := by
  refine ⟨branching, grammatical, straight 10, ?_, ?_⟩
  · obtain ⟨info, found, -, complete⟩ :=
      fallsThrough_ofTree ⟨1⟩ branching grammatical reached.1 rfl
    exact ⟨info, found, complete (straight 10) not_ends⟩
  · obtain ⟨info, found, sound, -⟩ :=
      fallsThrough_ofTree ⟨1⟩ branching grammatical reached.2 rfl
    have ends : tree.Ends (some 17) .completes := by
      refine .through rfl fun stmt mem => ?_
      obtain rfl := List.mem_singleton.mp mem
      exact .otherwise rfl (.absent rfl)
    refine ⟨info, found, ?_⟩
    cases told : info.fallsThrough with
    | true => rfl
    | false => exact absurd ends (sound told)

end LuaTyping
