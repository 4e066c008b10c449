import LuaTyping.Infer.Solve
import LuaTyping.Proofs.Decl.GlobalFiles

/-!
# Runs of the index

The index of a project is changed and asked for snapshots in any order. Whatever came before, a
snapshot is that of the files as they were last set, and how they came to be so cannot be told from
its lists: they depend on the contents of the files alone. What does remember the past are the
generations. They only ever grow, so a file that has the generation it had at an earlier time has
not been touched since.
-/

set_option autoImplicit false

namespace LuaTyping

theorem DeclKey.Before.asymm {a b : DeclKey} (first : a.Before b) : ¬ b.Before a := by
  rintro second
  rcases first with first | ⟨same, first⟩ <;> rcases second with second | ⟨same', second⟩
  · omega
  · rw [same'] at first
    omega
  · rw [same] at second
    omega
  · omega

/-- Only one list holds given declarations in ascending order. -/
theorem Snapshot.Lists.unique {a b : Snapshot} {matching matching' : Entry → Prop}
    {list list' : List DeclKey} (lists : a.Lists matching list) (lists' : b.Lists matching' list')
    (same : ∀ key, (∃ entry, a.entry? key = some entry ∧ matching entry) ↔
      ∃ entry, b.entry? key = some entry ∧ matching' entry) : list = list' := by
  have perm : list.Perm list' := (List.perm_ext_iff_of_nodup lists.nodup lists'.nodup).mpr
    fun key => (lists.mem_iff key).trans ((same key).trans (lists'.mem_iff key).symm)
  refine perm.eq_of_pairwise (fun a b _ _ first second => ?_) lists.ascending lists'.ascending
  exact absurd second first.asymm

/-! ## Calls -/

namespace Index

/-- A call on the index. -/
inductive Call where
  | setFile (file : FileId) (tree : Tree)
  | removeFile (file : FileId)
  | snapshot

/-- The index after a call. -/
def afterCall (index : Index) : Call → Index
  | .setFile file tree => (index.setFile file tree).2
  | .removeFile file => (index.removeFile file).2
  | .snapshot => index.snapshot.2

/-- The index of a new project after the calls. -/
def afterCalls (calls : List Call) : Index := calls.foldl afterCall .empty

/-- The generations that the calls give out, in order. -/
def generationsGiven (index : Index) : List Call → List Nat
  | [] => []
  | .setFile file tree :: rest =>
    (index.setFile file tree).1 :: generationsGiven (index.afterCall (.setFile file tree)) rest
  | call :: rest => generationsGiven (index.afterCall call) rest

/-- What the files contain after a call. -/
def Call.edit (contents : FileId → Option Tree) : Call → FileId → Option Tree
  | .setFile file tree => fun other => if file = other then some tree else contents other
  | .removeFile file => fun other => if file = other then none else contents other
  | .snapshot => contents

/-- What the files of a new project contain after the calls: each what it was last set to, unless
it was removed since. -/
def contentsAfter (calls : List Call) : FileId → Option Tree :=
  calls.foldl Call.edit fun _ => none

end Index

/-! ## Contents -/

/-- The snapshot is that of files with the given contents: it has them with what they declare, and
each of its lists holds exactly the matching declarations in ascending order. -/
structure Snapshot.Merges (snapshot : Snapshot) (contents : FileId → Option Tree) : Prop where
  tree : ∀ file, snapshot.tree? file = contents file
  entry : ∀ key, snapshot.entry? key
    = (contents key.file).bind fun tree => FileDecls.entry? (.ofTree key.file tree) key.decl
  classes : ∀ name, snapshot.Lists
    (fun entry => entry.kind = .classDecl ∧ entry.name = name) (snapshot.classDecls name)
  aliases : ∀ name, snapshot.Lists
    (fun entry => entry.kind = .aliasDecl ∧ entry.name = name) (snapshot.aliasDecls name)
  globals : ∀ name, snapshot.Lists
    (fun entry => entry.kind = .global ∧ entry.name = name) (snapshot.globalDecls name)
  attachedToClass : ∀ name, snapshot.Lists
    (fun entry => entry.memberOwner? = some (.ofClass name)) (snapshot.attachedToClass.list name)
  globalMembers : ∀ name, snapshot.Lists
    (fun entry => entry.memberOwner? = some (.ofGlobal name)) (snapshot.globalMembers name)
  classMembers : ∀ name, snapshot.Lists (snapshot.IsMemberOf name) (snapshot.classMembers name)

/-- The two snapshots list the same declarations in the same order under every name. -/
structure Snapshot.SameLists (a b : Snapshot) : Prop where
  classes : ∀ name, a.classDecls name = b.classDecls name
  aliases : ∀ name, a.aliasDecls name = b.aliasDecls name
  globals : ∀ name, a.globalDecls name = b.globalDecls name
  attachedToClass : ∀ name, a.attachedToClass.list name = b.attachedToClass.list name
  globalMembers : ∀ name, a.globalMembers name = b.globalMembers name
  classMembers : ∀ name, a.classMembers name = b.classMembers name

/-- The lists depend on the contents of the files alone. -/
theorem Snapshot.Merges.sameLists {a b : Snapshot} {contents : FileId → Option Tree}
    (first : a.Merges contents) (second : b.Merges contents) : a.SameLists b := by
  have entries (key : DeclKey) : a.entry? key = b.entry? key := by rw [first.entry, second.entry]
  have same (matching : Entry → Prop) (key : DeclKey) :
      (∃ entry, a.entry? key = some entry ∧ matching entry) ↔
        ∃ entry, b.entry? key = some entry ∧ matching entry := by rw [entries]
  have members (name : String) : a.IsMemberOf name = b.IsMemberOf name := by
    funext entry
    simp only [IsMemberOf, HoldsClass, entries]
  exact {
    classes name := (first.classes name).unique (second.classes name) (same _)
    aliases name := (first.aliases name).unique (second.aliases name) (same _)
    globals name := (first.globals name).unique (second.globals name) (same _)
    attachedToClass name :=
      (first.attachedToClass name).unique (second.attachedToClass name) (same _)
    globalMembers name := (first.globalMembers name).unique (second.globalMembers name) (same _)
    classMembers name := (first.classMembers name).unique (second.classMembers name)
      (members name ▸ same _) }

namespace Index

/-- The index has files with the given contents, each with what it declares and a generation that
has been given out. -/
structure Has (index : Index) (contents : FileId → Option Tree) : Prop where
  valid : index.Valid
  tree : ∀ file, (index.file? file).map IndexedFile.tree = contents file
  collected : ∀ indexed ∈ index.files, indexed.Collected
  generation : ∀ indexed ∈ index.files,
    0 < indexed.generation ∧ indexed.generation ≤ index.lastGeneration

theorem find?_place (added : IndexedFile) (files : List IndexedFile) (file : FileId) :
    (place added files).find? (fun indexed => indexed.file == file)
      = if added.file = file then some added
        else files.find? fun indexed => indexed.file == file := by
  induction files with
  | nil => by_cases same : added.file = file <;> simp [place, same]
  | cons first rest ih =>
    rw [place]
    split
    · rename_i same
      have same : first.file = added.file := by simpa using same
      by_cases here : added.file = file <;> simp [here, same]
    · rename_i other
      have other : first.file ≠ added.file := by simpa using other
      split
      · by_cases here : added.file = file <;> simp [here]
      · by_cases here : first.file = file
        · have : added.file ≠ file := fun same => other (here.trans same.symm)
          simp [here, this]
        · simp [here, ih]

variable {index : Index} {contents : FileId → Option Tree}

theorem file?_setFile (file : FileId) (tree : Tree) (other : FileId) :
    (index.setFile file tree).2.file? other
      = if file = other then some ⟨file, index.lastGeneration + 1, tree, .ofTree file tree⟩
        else index.file? other := find?_place _ _ _

theorem file?_removeFile (file other : FileId) :
    (index.removeFile file).2.file? other = if file = other then none else index.file? other := by
  rw [removeFile]
  split
  · rw [Index.file?, Index.file?, List.find?_filter]
    split
    · rename_i same
      simp [same]
    · rename_i different
      congr 1
      funext indexed
      by_cases same : indexed.file = other
      · simp [same, Ne.symm different]
      · simp [same]
  · rename_i missing
    split
    · rename_i same
      simpa [same] using missing
    · rfl

theorem lastGeneration_removeFile (file : FileId) :
    (index.removeFile file).2.lastGeneration = index.lastGeneration := by
  rw [removeFile]
  split <;> rfl

theorem lastGeneration_snapshot : index.snapshot.2.lastGeneration = index.lastGeneration := by
  rw [snapshot]
  split
  · split <;> rfl
  · rfl

theorem has_empty : Index.empty.Has fun _ => none :=
  ⟨valid_empty, fun _ => rfl, by simp [empty], by simp [empty]⟩

/-- A call changes the index as it changes the contents. -/
theorem Has.afterCall (has : index.Has contents) (call : Call) :
    (index.afterCall call).Has (call.edit contents) := by
  cases call with
  | setFile file tree =>
    refine ⟨has.valid.setFile file tree, fun other => ?_, fun indexed mem => ?_,
      fun indexed mem => ?_⟩
    · simp only [Index.afterCall, file?_setFile, Call.edit]
      split
      · rfl
      · exact has.tree other
    · rcases mem_place mem with rfl | mem
      · rfl
      · exact has.collected indexed mem
    · rcases mem_place mem with rfl | mem
      · exact ⟨Nat.succ_pos _, Nat.le_refl _⟩
      · exact ⟨(has.generation indexed mem).1, Nat.le_succ_of_le (has.generation indexed mem).2⟩
  | removeFile file =>
    have files : ∀ indexed ∈ (index.removeFile file).2.files, indexed ∈ index.files := by
      rw [removeFile]
      split
      · exact fun indexed mem => (List.mem_filter.mp mem).1
      · exact fun indexed mem => mem
    refine ⟨has.valid.removeFile file, fun other => ?_,
      fun indexed mem => has.collected indexed (files indexed mem), fun indexed mem =>
        (lastGeneration_removeFile file).symm ▸ has.generation indexed (files indexed mem)⟩
    simp only [Index.afterCall, file?_removeFile, Call.edit]
    split
    · rfl
    · exact has.tree other
  | snapshot =>
    have files : index.snapshot.2.files = index.files := index.files_snapshot
    refine ⟨has.valid.snapshot, fun other => ?_,
      fun indexed mem => has.collected indexed (files ▸ mem), fun indexed mem =>
        lastGeneration_snapshot.symm ▸ has.generation indexed (files ▸ mem)⟩
    rw [Index.afterCall, Index.file?, files]
    exact has.tree other

theorem has_afterCalls (calls : List Call) : (afterCalls calls).Has (contentsAfter calls) := by
  have from_index {index : Index} {contents : FileId → Option Tree} (has : index.Has contents) :
      (calls.foldl Index.afterCall index).Has (calls.foldl Call.edit contents) := by
    induction calls generalizing index contents with
    | nil => exact has
    | cons call rest ih => exact ih (has.afterCall call)
  exact from_index has_empty

theorem Has.file? (has : index.Has contents) (file : FileId) :
    (Snapshot.ofFiles index.files).file? file = index.file? file :=
  Snapshot.file?_ofFiles has.valid.distinct file

theorem Has.merges (has : index.Has contents) : (Snapshot.ofFiles index.files).Merges contents := by
  have ascending := has.valid.ascending
  refine ⟨fun file => ?_, fun key => ?_, Snapshot.lists_classDecls ascending,
    Snapshot.lists_aliasDecls ascending, Snapshot.lists_globalDecls ascending,
    Snapshot.lists_attachedToClass ascending, Snapshot.lists_globalMembers ascending,
    Snapshot.lists_classMembers ascending⟩
  · rw [Snapshot.tree?, has.file?]
    exact has.tree file
  · rw [Snapshot.entry?, Snapshot.decls?, has.file?, ← has.tree key.file]
    cases found : index.file? key.file with
    | none => rfl
    | some indexed =>
      have same : indexed.file = key.file := by simpa using List.find?_some found
      have decls : indexed.decls = .ofTree indexed.file indexed.tree :=
        has.collected indexed (List.mem_of_find?_eq_some found)
      rw [Option.map_some, Option.map_some, Option.bind_some, Option.bind_some, decls, same]

/-! ## Generations -/

/-- The second index comes after the first: a file with a generation that the first could have is
the file that the first has. -/
structure Precedes (index later : Index) : Prop where
  lastGeneration : index.lastGeneration ≤ later.lastGeneration
  file : ∀ file indexed, later.file? file = some indexed →
    indexed.generation ≤ index.lastGeneration → index.file? file = some indexed

theorem Precedes.refl (index : Index) : index.Precedes index :=
  ⟨Nat.le_refl _, fun _ _ found _ => found⟩

theorem Precedes.trans {a b c : Index} (first : a.Precedes b) (second : b.Precedes c) :
    a.Precedes c where
  lastGeneration := Nat.le_trans first.lastGeneration second.lastGeneration
  file file indexed found old :=
    first.file file indexed
      (second.file file indexed found (Nat.le_trans old first.lastGeneration)) old

theorem precedes_afterCall (index : Index) (call : Call) :
    index.Precedes (index.afterCall call) := by
  cases call with
  | setFile file tree =>
    refine ⟨Nat.le_succ _, fun other indexed found old => ?_⟩
    rw [afterCall, file?_setFile] at found
    split at found
    · cases found
      exact absurd old (Nat.not_succ_le_self _)
    · exact found
  | removeFile file =>
    refine ⟨Nat.le_of_eq (lastGeneration_removeFile file).symm, fun other indexed found _ => ?_⟩
    rw [afterCall, file?_removeFile] at found
    split at found
    · cases found
    · exact found
  | snapshot =>
    refine ⟨Nat.le_of_eq lastGeneration_snapshot.symm, fun other indexed found _ => ?_⟩
    rw [afterCall, Index.file?, files_snapshot] at found
    exact found

theorem precedes_foldl (calls : List Call) (index : Index) :
    index.Precedes (calls.foldl afterCall index) := by
  induction calls generalizing index with
  | nil => exact .refl index
  | cons call rest ih => exact (precedes_afterCall index call).trans (ih _)

/-- Generations that are given out are new, and each is greater than those before it. -/
theorem generationsGiven_ascending (calls : List Call) (index : Index) :
    (∀ generation ∈ index.generationsGiven calls, index.lastGeneration < generation) ∧
      (index.generationsGiven calls).Pairwise (· < ·) := by
  induction calls generalizing index with
  | nil => exact ⟨nofun, .nil⟩
  | cons call rest ih =>
    obtain ⟨above, ordered⟩ := ih (index.afterCall call)
    cases call with
    | setFile file tree =>
      refine ⟨List.forall_mem_cons.mpr ⟨Nat.lt_succ_self _, fun generation mem => ?_⟩,
        List.pairwise_cons.mpr ⟨above, ordered⟩⟩
      exact Nat.lt_trans (Nat.lt_succ_self _) (above generation mem)
    | removeFile file =>
      have last := (precedes_afterCall index (.removeFile file)).lastGeneration
      exact ⟨fun generation mem => Nat.lt_of_le_of_lt last (above generation mem), ordered⟩
    | snapshot =>
      have last := (precedes_afterCall index .snapshot).lastGeneration
      exact ⟨fun generation mem => Nat.lt_of_le_of_lt last (above generation mem), ordered⟩

/-- A file that has the generation it had is the file it was. -/
theorem Precedes.file?_eq {later : Index} {contents' : FileId → Option Tree}
    (precedes : index.Precedes later) (has : index.Has contents) (hasLater : later.Has contents')
    {file : FileId}
    (same : (Snapshot.ofFiles later.files).generation file
      = (Snapshot.ofFiles index.files).generation file) : later.file? file = index.file? file := by
  have positive {index : Index} {contents : FileId → Option Tree} (has : index.Has contents)
      {indexed : IndexedFile} (found : index.file? file = some indexed) :=
    has.generation indexed (List.mem_of_find?_eq_some found)
  rw [Snapshot.generation, Snapshot.generation, has.file?, hasLater.file?] at same
  cases found : later.file? file with
  | some indexed =>
    cases before : index.file? file with
    | some old =>
      have generation : indexed.generation = old.generation := by simpa [found, before] using same
      have known := precedes.file file indexed found (generation ▸ (positive has before).2)
      exact before.symm.trans known ▸ rfl
    | none =>
      have : indexed.generation = 0 := by simpa [found, before] using same
      have := (positive hasLater found).1
      omega
  | none =>
    cases before : index.file? file with
    | some old =>
      have : old.generation = 0 := by simpa [found, before] using same.symm
      have := (positive has before).1
      omega
    | none => rfl

/-- After any calls a snapshot is that of the files as they are, its lists hold exactly what the
files declare and are the same for every way to the same contents, generations ascend, and a cached
type is found again only where the file of the declaration has not been touched since. -/
theorem snapshot_afterCalls (calls : List Call) :
    (afterCalls calls).snapshot.1 = .ofFiles (afterCalls calls).files ∧
    (afterCalls calls).snapshot.1.Merges (contentsAfter calls) ∧
    (∀ others, contentsAfter others = contentsAfter calls →
      (afterCalls others).snapshot.1.SameLists (afterCalls calls).snapshot.1) ∧
    (Index.empty.generationsGiven calls).Pairwise (· < ·) ∧
    ∀ (more : List Call) (ctx later : Infer.Context),
      ctx.snapshot = (afterCalls calls).snapshot.1 →
      later.snapshot = (afterCalls (calls ++ more)).snapshot.1 →
      ∀ key : DeclKey, Infer.cacheKey later key = Infer.cacheKey ctx key →
        later.snapshot.file? key.file = ctx.snapshot.file? key.file := by
  have current (calls : List Call) :
      (afterCalls calls).snapshot.1 = .ofFiles (afterCalls calls).files :=
    (has_afterCalls calls).valid.snapshot_eq
  have merges (calls : List Call) : (afterCalls calls).snapshot.1.Merges (contentsAfter calls) :=
    current calls ▸ (has_afterCalls calls).merges
  refine ⟨current calls, merges calls, fun others same => ?_,
    (generationsGiven_ascending calls .empty).2, fun more ctx later is_ctx is_later key same => ?_⟩
  · exact (same ▸ merges others).sameLists (merges calls)
  · have precedes : (afterCalls calls).Precedes (afterCalls (calls ++ more)) := by
      rw [afterCalls, afterCalls, List.foldl_append]
      exact precedes_foldl more _
    have generation := congrArg CacheKey.generation same
    simp only [Infer.cacheKey, is_ctx, is_later, current] at generation
    rw [is_ctx, is_later, current, current, (has_afterCalls calls).file?,
      (has_afterCalls (calls ++ more)).file?]
    exact precedes.file?_eq (has_afterCalls calls) (has_afterCalls _) generation

/-- Two files that share names, added in either order, one of them over a version that is gone: the
lists are the same, and the lower file comes first. -/
theorem snapshot_afterCalls_swapped :
    let one := globalsTree [("a", .name "number" []), ("b", .name "string" [])]
    let two := globalsTree [("b", .name "number" []), ("a", .name "string" [])]
    let old := globalsTree [("b", .name "boolean" [])]
    let swapped := (afterCalls [.setFile ⟨2⟩ old, .snapshot, .removeFile ⟨2⟩, .setFile ⟨1⟩ one,
      .setFile ⟨2⟩ two]).snapshot.1
    swapped.SameLists (afterCalls [.setFile ⟨2⟩ two, .setFile ⟨1⟩ one]).snapshot.1 ∧
      swapped.globalDecls "b" = [⟨⟨1⟩, 1⟩, ⟨⟨2⟩, 0⟩] := by
  intro one two old swapped
  refine ⟨(snapshot_afterCalls _).2.2.1 _ ?_, ?_⟩
  · funext file
    simp only [contentsAfter, List.foldl_cons, List.foldl_nil, Call.edit]
    by_cases second : (⟨2⟩ : FileId) = file
    · subst second
      rfl
    · simp [second]
  · have files : swapped = .ofFiles [GlobalsTree.indexed ⟨1⟩ 2 _, GlobalsTree.indexed ⟨2⟩ 3 _] :=
      (snapshot_afterCalls _).1
    rw [files, Snapshot.globalDecls_ofFiles]
    simp only [List.flatMap_cons, List.flatMap_nil, GlobalsTree.listed_eq]
    rfl

end Index

end LuaTyping
