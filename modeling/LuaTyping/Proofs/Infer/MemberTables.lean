import LuaTyping.Proofs.Decl.Snapshot
import LuaTyping.Proofs.Infer.ClassValues
import Mathlib.Data.List.Basic

/-!
# Member tables

Which declarations of a member count is decided in two ways. A lookup takes the greatest worth among
the declarations of the name and then picks out those that have it. A table of members is made in
one pass over the declarations of all names, and a group gives way whenever a declaration that
counts more turns up. However the names are mixed and the worths rise and fall, the table shows of
each name what a lookup among the declarations of that name finds (`memberList_agrees`).

Both only ask for the types of declarations. So they can be compared for any way to answer that
gives a declaration the same type whenever it is asked, and `exec_mapM` follows such questions.
-/

set_option autoImplicit false

namespace LuaTyping.Infer

/-! ## Answers that do not change -/

/-- Plans that come to the same whatever has been asked before do so in a row. -/
theorem exec_mapM {κ α β : Type} {answer : κ → InferM Ty} {plan : α → Plan κ β} {result : α → β}
    (each : ∀ x s, (exec ((plan x).run answer) s).1 = result x) (xs : List α) (s : State) :
    (exec ((xs.mapM plan).run answer) s).1 = xs.map result := by
  induction xs generalizing s with
  | nil => rfl
  | cons x xs ih =>
    rw [List.mapM_cons, exec_run_bind, exec_run_bind, List.map_cons, ← each x s]
    exact congrArg (List.cons _) (ih _)

namespace Rule

section Fixed

variable {answer : Solver} {types : DeclKey → Ty}
  (fixed : ∀ key s, (exec (answer (.decl key)) s).1 = types key)
include fixed

theorem exec_declTypes (keys : List DeclKey) (s : State) :
    (exec ((declTypes keys).run answer) s).1 = keys.map types := by
  have each (key : DeclKey) (s : State) :
      (exec ((ask (.decl key)).run answer) s).1 = types key := fixed key s
  exact exec_mapM each keys s

theorem exec_bestType (ctx : Context) (keys : List DeclKey) (s : State) :
    (exec ((bestType ctx keys).run answer) s).1
      = Ty.unionOf ((bestOf ctx.snapshot keys).map types) := by
  rw [bestType, exec_run_bind, exec_declTypes fixed]
  rfl

end Fixed

/-! ## The first declaration that counts most -/

section Best

variable {snapshot : Snapshot}

/-- Of the declarations that count most, the first one in the list. -/
def FirstBest (snapshot : Snapshot) (keys : List DeclKey) (first : DeclKey) : Prop :=
  ∃ before after, keys = before ++ first :: after ∧
    (∀ key ∈ before, worthOf snapshot key < worthOf snapshot first) ∧
    ∀ key ∈ after, worthOf snapshot key ≤ worthOf snapshot first

theorem isSome_of_mem_named {name : String} {keys : List DeclKey} {key : DeclKey}
    (mem : key ∈ keys.filter (snapshot.isNamed name)) : (snapshot.entry? key).isSome = true := by
  have named := (List.mem_filter.mp mem).2
  rw [Snapshot.isNamed] at named
  cases found : snapshot.entry? key with
  | none => simp [found] at named
  | some entry => rfl

theorem bestOf_ne_nil {keys : List DeclKey} (declared : keys ≠ [])
    (there : ∀ key ∈ keys, (snapshot.entry? key).isSome = true) : bestOf snapshot keys ≠ [] := by
  induction keys using List.reverseRecOn with
  | nil => exact absurd rfl declared
  | append_singleton keys key ih =>
    rw [bestOf_concat keys (there key (by simp))]
    by_cases first : keys = []
    · subst first
      by_cases worthless : worthOf snapshot key = 0
      · simp [bestWorth, worthless]
      · simp [bestWorth, Nat.pos_of_ne_zero worthless]
    · have before := ih first fun key mem => there key (List.mem_append_left _ mem)
      split
      · simp
      · split <;> simp [before]

theorem firstBest_of_bestOf {keys rest : List DeclKey} {first : DeclKey}
    (there : ∀ key ∈ keys, (snapshot.entry? key).isSome = true)
    (best : bestOf snapshot keys = first :: rest) : FirstBest snapshot keys first := by
  rw [bestOf_eq, counting, List.filter_eq_cons_iff] at best
  obtain ⟨before, after, rfl, passed, most, -⟩ := best
  have most : worthOf snapshot first = bestWorth snapshot (before ++ first :: after) := by
    simpa [there first (by simp)] using most
  refine ⟨before, after, rfl, fun key mem => ?_, fun key mem => ?_⟩
  · have mem : key ∈ before ++ first :: after := List.mem_append_left _ mem
    have other : worthOf snapshot key ≠ bestWorth snapshot (before ++ first :: after) := by
      simpa [there key mem] using passed key ‹_›
    rw [most]
    exact Nat.lt_of_le_of_ne (worthOf_le_bestWorth mem) other
  · rw [most]
    exact worthOf_le_bestWorth (by simp [mem])

end Best

/-! ## Names -/

section Names

variable {snapshot : Snapshot}

theorem map_name_addToGroup (name : String) (worth : Nat) (key : DeclKey)
    (groups : List MemberGroup) :
    (addToGroup name worth key groups).map MemberGroup.name
      = if name ∈ groups.map MemberGroup.name then groups.map MemberGroup.name
        else groups.map MemberGroup.name ++ [name] := by
  induction groups with
  | nil => rfl
  | cons group rest ih =>
    by_cases same : group.name = name
    · simp only [addToGroup, same, beq_self_eq_true, if_true, List.map_cons, List.mem_cons,
        true_or]
      split
      · rfl
      · split <;> simp [same]
    · have differ : ¬ name = group.name := Ne.symm same
      simp only [addToGroup, beq_iff_eq, same, if_false, List.map_cons, ih, List.mem_cons, differ,
        false_or]
      split <;> rfl

theorem eraseDups_concat {α : Type} [DecidableEq α] (xs : List α) (x : α) :
    (xs ++ [x]).eraseDups = if x ∈ xs.eraseDups then xs.eraseDups else xs.eraseDups ++ [x] := by
  rw [List.eraseDups_append]
  by_cases listed : x ∈ xs
  · rw [if_pos (List.mem_eraseDups.mpr listed)]
    simp [List.removeAll, listed]
  · rw [if_neg (mt List.mem_eraseDups.mp listed)]
    simp [List.removeAll, listed, List.eraseDups_cons]

/-- The names of declarations in order, each where it first appears. -/
def firstNames (snapshot : Snapshot) (keys : List DeclKey) : List String :=
  (keys.filterMap fun key => (snapshot.entry? key).map Entry.name).eraseDups

theorem map_name_groupMembers (keys : List DeclKey) :
    (groupMembers snapshot keys).map MemberGroup.name = firstNames snapshot keys := by
  induction keys using List.reverseRecOn with
  | nil => rfl
  | append_singleton keys key ih =>
    rw [firstNames, List.filterMap_append]
    cases found : snapshot.entry? key with
    | none =>
      rw [groupMembers_concat_of_missing keys found, ih]
      simp [firstNames, found]
    | some entry =>
      have last : [key].filterMap (fun key => (snapshot.entry? key).map Entry.name)
          = [entry.name] := by simp [found]
      rw [groupMembers_concat keys found, map_name_addToGroup, ih, last, eraseDups_concat]
      rfl

end Names

/-! ## The table and the lookup -/

/-- What a group shows where declarations have the given types. -/
def memberOf (snapshot : Snapshot) (types : DeclKey → Ty) (group : MemberGroup) :
    Option (Member Ty) :=
  group.keys.head?.bind fun first =>
    (snapshot.entry? first).map fun entry =>
      { name := group.name
        ty := Ty.unionOf (group.keys.map types)
        visibility := entry.visibility
        deprecated := group.keys.any fun key =>
          ((snapshot.entry? key).map Entry.deprecated).getD false
        site := some ⟨first.file, entry.span⟩ }

/-- A member shows what a lookup among declarations finds. Who may see it and where it stands are
those of the first declaration that counts most. -/
structure Reflects (ctx : Context) (answer : Solver) (keys : List DeclKey) (member : Member Ty) :
    Prop where
  ty : ∀ s, member.ty = (exec ((bestType ctx keys).run answer) s).1
  deprecated : member.deprecated = true ↔
    ∃ key ∈ bestOf ctx.snapshot keys, ∃ entry, ctx.snapshot.entry? key = some entry ∧
      entry.deprecated = true
  first : ∃ first entry, FirstBest ctx.snapshot keys first ∧
    ctx.snapshot.entry? first = some entry ∧ member.visibility = entry.visibility ∧
      member.site = some ⟨first.file, entry.span⟩

section Table

variable {ctx : Context} {answer : Solver} {types : DeclKey → Ty}
  (fixed : ∀ key s, (exec (answer (.decl key)) s).1 = types key)
include fixed

theorem exec_groupMember (group : MemberGroup) (s : State) :
    (exec ((groupMember ctx group).run answer) s).1 = memberOf ctx.snapshot types group := by
  rw [groupMember, memberOf]
  cases group.keys.head? with
  | none => rfl
  | some first =>
    simp only [Option.bind_some]
    cases ctx.snapshot.entry? first with
    | none => rfl
    | some entry =>
      simp only [exec_run_bind, exec_declTypes fixed]
      rfl

theorem exec_memberList (keys : List DeclKey) (s : State) :
    (exec ((memberList ctx keys).run answer) s).1
      = (groupMembers ctx.snapshot keys).filterMap (memberOf ctx.snapshot types) := by
  rw [memberList, exec_run_bind, exec_mapM (exec_groupMember fixed)]
  exact List.filterMap_map.trans rfl

/-- Every group shows something, and what it shows is what a lookup among all declarations of its
name finds. -/
theorem reflects_of_mem_groupMembers {keys : List DeclKey} {group : MemberGroup}
    (grouped : group ∈ groupMembers ctx.snapshot keys) :
    ∃ member, memberOf ctx.snapshot types group = some member ∧ member.name = group.name ∧
      Reflects ctx answer (keys.filter (ctx.snapshot.isNamed member.name)) member := by
  obtain ⟨declared, best⟩ := keys_of_mem_groupMembers grouped
  have there : ∀ key ∈ keys.filter (ctx.snapshot.isNamed group.name),
      (ctx.snapshot.entry? key).isSome = true := fun _ => isSome_of_mem_named
  obtain ⟨first, rest, counted⟩ := List.exists_cons_of_ne_nil (bestOf_ne_nil declared there)
  obtain ⟨entry, found⟩ := entry?_of_mem_bestOf (counted ▸ List.mem_cons_self : first ∈ _)
  have head : group.keys.head? = some first := by rw [best, counted]; rfl
  rw [memberOf, head, Option.bind_some, found]
  refine ⟨_, rfl, rfl, ⟨fun s => ?_, ?_, first, entry, firstBest_of_bestOf there counted, found,
    rfl, rfl⟩⟩
  · rw [exec_bestType fixed, best]
  · simp only [best, List.any_eq_true]
    refine exists_congr fun key => and_congr_right fun _ => ?_
    cases ctx.snapshot.entry? key <;> simp

end Table

/-- Where the types of declarations do not change while a table of members is made, the table has
each name once, in the order in which the names first appear, and of each name it shows what a
lookup among the declarations of that name finds. -/
theorem memberList_agrees (ctx : Context) {answer : Solver} {types : DeclKey → Ty}
    (fixed : ∀ key s, (exec (answer (.decl key)) s).1 = types key) (keys : List DeclKey)
    (s : State) :
    let members := (exec ((memberList ctx keys).run answer) s).1
    members.map Member.name = firstNames ctx.snapshot keys ∧
      ∀ member ∈ members,
        Reflects ctx answer (keys.filter (ctx.snapshot.isNamed member.name)) member := by
  intro members
  have members_eq : members = _ := exec_memberList fixed keys s
  have shown {group : MemberGroup} (grouped : group ∈ groupMembers ctx.snapshot keys) :=
    reflects_of_mem_groupMembers fixed grouped
  rw [members_eq]
  constructor
  · rw [← map_name_groupMembers, List.map_filterMap]
    refine List.filterMap_eq_map_iff_forall_eq_some.mpr fun group grouped => ?_
    obtain ⟨member, shows, name, -⟩ := shown grouped
    rw [shows, Option.map_some, name]
  · intro member mem
    obtain ⟨group, grouped, listed⟩ := List.mem_filterMap.mp mem
    obtain ⟨other, shows, -, reflects⟩ := shown grouped
    cases shows.symm.trans listed
    exact reflects

namespace Mixed

/-- A declaration of a member. -/
def declare (id : Nat) (name : String) (worth : Worth) : Entry :=
  { Entry.plain id .field name (some 0) (some 0) ⟨0, 1⟩ with
    owner := some (.ofClass "Point"), worth }

/-- One member that counts more and less in turn, among declarations of another one. -/
def entries : Array Entry :=
  #[declare 0 "x" .assignment, declare 1 "y" .documented, declare 2 "x" .method,
    declare 3 "y" .assignment, declare 4 "x" .method, declare 5 "x" .tableField]

def file : IndexedFile :=
  ⟨⟨1⟩, 1, default, { (default : FileDecls) with table := { (default : ScopeTable) with entries } }⟩

def ctx : Context := .make (.ofFiles [file]) .standard .empty false

def keys : List DeclKey := (List.range 6).map fun decl => ⟨⟨1⟩, decl⟩

/-- Every declaration has a type of its own. -/
def answer : Solver
  | .task (.decl key) => pure (.literal (toString key.decl))
  | _ => pure .unknown

theorem entry?_entries (decl : Nat) : ctx.snapshot.entry? ⟨⟨1⟩, decl⟩ = entries[decl]? :=
  Snapshot.entry?_of_file? (Snapshot.file?_singleton file) decl

end Mixed

open Mixed in
/-- Both names are listed once, and each shows what a lookup finds. -/
theorem memberList_agrees_mixed :
    let members := (exec ((memberList ctx keys).run answer) (.start .standard .empty)).1
    members.map Member.name = ["x", "y"] ∧
      ∀ member ∈ members,
        Reflects ctx answer (keys.filter (ctx.snapshot.isNamed member.name)) member := by
  have names : firstNames ctx.snapshot keys = ["x", "y"] := by
    rw [firstNames, keys, List.filterMap_map]
    simp only [Function.comp_def, entry?_entries]
    decide
  exact names ▸ memberList_agrees ctx (fun _ _ => rfl) keys (.start .standard .empty)

end Rule

end LuaTyping.Infer
