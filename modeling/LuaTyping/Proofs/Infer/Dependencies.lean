import LuaTyping.Infer.Cache
import LuaTyping.Proofs.Subtyping.Outline

/-!
# Recorded dependencies

What a cache has recorded of a file is the other files it depends on and the names it has looked up.
Recording adds to this one thing at a time and loses nothing.
-/

set_option autoImplicit false

namespace LuaTyping

instance : LawfulBEq CacheKey where
  rfl {key} := by
    obtain ⟨decl, generation, fingerprint⟩ := key
    show (decl == decl && (generation == generation && fingerprint == fingerprint)) = true
    simp
  eq_of_beq {a b} h := by
    obtain ⟨decl, generation, fingerprint⟩ := a
    obtain ⟨decl', generation', fingerprint'⟩ := b
    change (decl == decl' && (generation == generation' && fingerprint == fingerprint')) = true at h
    simpa using h

namespace Cache

/-- Types of `file` were read from declarations of `other`. -/
def DependsOn (cache : Cache) (file other : FileId) : Prop := other ∈ cache.fileDeps.getD file ∅

/-- The name was looked up for types of `file`. -/
def Reads (cache : Cache) (file : FileId) (name : String) : Prop :=
  name ∈ cache.nameDeps.getD file ∅

variable {cache : Cache} {file other dependent dependency : FileId} {name noted : String}

theorem dependsOn_recordFile :
    (cache.recordFile dependent dependency).DependsOn file other
      ↔ cache.DependsOn file other
        ∨ dependent ≠ dependency ∧ file = dependent ∧ other = dependency := by
  by_cases own : dependent = dependency
  · simp [recordFile, own]
  · rw [recordFile, if_neg (by simpa using own), DependsOn, DependsOn, Std.HashMap.getD_alter]
    by_cases same : dependent = file
    · subst same
      simp only [beq_self_eq_true, if_true, Option.getD_some, Std.HashSet.mem_insert, beq_iff_eq,
        ← Std.HashMap.getD_eq_getD_getElem?]
      grind
    · simp [same, Ne.symm same]

theorem reads_recordName :
    (cache.recordName dependent noted).Reads file name
      ↔ cache.Reads file name ∨ file = dependent ∧ name = noted := by
  rw [recordName, Reads, Reads, Std.HashMap.getD_alter]
  by_cases same : dependent = file
  · subst same
    simp only [beq_self_eq_true, if_true, Option.getD_some, Std.HashSet.mem_insert, beq_iff_eq,
      ← Std.HashMap.getD_eq_getD_getElem?]
    grind
  · simp [same, Ne.symm same]

/-- Whatever the first cache has recorded, the second one has, too. -/
structure Grows (before after : Cache) : Prop where
  dependsOn : ∀ file other, before.DependsOn file other → after.DependsOn file other
  reads : ∀ file name, before.Reads file name → after.Reads file name

namespace Grows

theorem refl (cache : Cache) : Grows cache cache := ⟨fun _ _ => id, fun _ _ => id⟩

theorem trans {c₁ c₂ c₃ : Cache} (h : Grows c₁ c₂) (h' : Grows c₂ c₃) : Grows c₁ c₃ :=
  ⟨fun file other => h'.dependsOn file other ∘ h.dependsOn file other,
    fun file name => h'.reads file name ∘ h.reads file name⟩

theorem of_eq {c c' : Cache} (fileDeps : c'.fileDeps = c.fileDeps)
    (nameDeps : c'.nameDeps = c.nameDeps) : Grows c c' := by
  constructor
  · intro file other h
    rwa [DependsOn, fileDeps]
  · intro file name h
    rwa [Reads, nameDeps]

theorem recordFile (cache : Cache) (dependent dependency : FileId) :
    Grows cache (cache.recordFile dependent dependency) := by
  refine ⟨fun _ _ h => dependsOn_recordFile.mpr (.inl h), fun _ _ h => ?_⟩
  rw [Cache.recordFile]
  split <;> exact h

theorem recordName (cache : Cache) (dependent : FileId) (name : String) :
    Grows cache (cache.recordName dependent name) :=
  ⟨fun _ _ h => h, fun _ _ h => reads_recordName.mpr (.inl h)⟩

end Grows

/-- What the files outside an affected set have recorded stays outside. -/
structure Covered (files : FileId → Prop) (names : String → Prop) (cache : Cache) : Prop where
  dependsOn : ∀ file other, files file → cache.DependsOn file other → files other
  reads : ∀ file name, files file → cache.Reads file name → names name

theorem Covered.of_grows {files : FileId → Prop} {names : String → Prop} {before after : Cache}
    (h : Covered files names after) (grows : Grows before after) : Covered files names before :=
  ⟨fun file other mem dep => h.dependsOn file other mem (grows.dependsOn file other dep),
    fun file name mem read => h.reads file name mem (grows.reads file name read)⟩

end Cache

end LuaTyping
