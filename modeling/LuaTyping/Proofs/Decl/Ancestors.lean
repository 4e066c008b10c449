import LuaTyping.Decl.Resolve
import LuaTyping.Ty.Ancestry
import Mathlib.Algebra.GroupWithZero.Nat
import Mathlib.Data.List.Perm.Subperm
import Mathlib.Data.List.TakeWhile
import Mathlib.Logic.Relation

/-!
# Searches for ancestors

The ancestors of a class are what its supertype links lead to, in any number of steps. Two searches
look for them. `meets` looks for one class and counts every class that it takes from those still to
be looked at, also one that it has expanded before. `chainWithin` lists the ancestors and counts
each of them once. Both find nothing but ancestors; and each finds all of them if its count is large
enough, whatever the order in which it goes. Whether the count was large enough can be seen from the
search itself: the first then does not stop short (`givesUp`), and the second has room left.

What carries both proofs is that the supertypes of a class that was expanded are either expanded
themselves or still to be looked at (`Frontier`).
-/

set_option autoImplicit false

namespace LuaTyping

/-- The first class has the second one as an ancestor, or is that class. -/
def Ancestor (supertypes : String → List String) : String → String → Prop :=
  Relation.ReflTransGen fun name above => above ∈ supertypes name

/-- Every link from a class in `visited` leads to one that is there as well or in `pending`. -/
def Frontier (supertypes : String → List String) (visited pending : List String) : Prop :=
  ∀ name ∈ visited, ∀ above ∈ supertypes name, above ∈ visited ∨ above ∈ pending

variable {supertypes : String → List String} {visited pending rest : List String}
  {name target : String}

/-- What lies above another class lies above one of its direct supertypes. -/
theorem Ancestor.exists_supertype (h : Ancestor supertypes name target) (other : name ≠ target) :
    ∃ above ∈ supertypes name, Ancestor supertypes above target := by
  rcases Relation.ReflTransGen.cases_head h with same | ⟨above, mem, rest⟩
  · exact absurd same other
  · exact ⟨above, mem, rest⟩

/-- No link leads out of a set of classes that holds the supertypes of its own. -/
theorem Ancestor.mem_of_closed {classes : List String} (h : Ancestor supertypes name target)
    (closed : ∀ name ∈ classes, supertypes name ⊆ classes) (mem : name ∈ classes) :
    target ∈ classes := by
  induction h with
  | refl => exact mem
  | tail _ link ih => exact closed _ ih link

namespace Frontier

/-- The way out of the visited classes goes through a pending one. -/
theorem reach (frontier : Frontier supertypes visited pending) (mem : name ∈ visited)
    (above : Ancestor supertypes name target) :
    target ∈ visited ∨ ∃ first ∈ pending, Ancestor supertypes first target := by
  induction above using Relation.ReflTransGen.head_induction_on with
  | refl => exact .inl mem
  | head link rest ih =>
    rcases frontier _ mem _ link with inside | waiting
    · exact ih inside
    · exact .inr ⟨_, waiting, rest⟩

/-- A pending class that was expanded before can be passed over. -/
theorem skip (frontier : Frontier supertypes visited (name :: rest)) (seen : name ∈ visited) :
    Frontier supertypes visited rest := by
  intro other mem above link
  rcases frontier other mem above link with inside | waiting
  · exact .inl inside
  · rcases List.mem_cons.mp waiting with rfl | later
    · exact .inl seen
    · exact .inr later

/-- A pending class is expanded: its supertypes join the pending ones. -/
theorem expand (frontier : Frontier supertypes visited (name :: rest))
    (joined : ∀ other, other ∈ pending ↔ other ∈ rest ∨ other ∈ supertypes name) :
    Frontier supertypes (name :: visited) pending := by
  intro other mem above link
  rcases List.mem_cons.mp mem with rfl | mem
  · exact .inr ((joined above).mpr (.inr link))
  · rcases frontier other mem above link with inside | waiting
    · exact .inl (List.mem_cons_of_mem _ inside)
    · rcases List.mem_cons.mp waiting with rfl | later
      · exact .inl List.mem_cons_self
      · exact .inr ((joined above).mpr (.inl later))

end Frontier

theorem SearchOrder.mem_extend (order : SearchOrder) (found pending : List String) (name : String) :
    name ∈ order.extend found pending ↔ name ∈ pending ∨ name ∈ found := by
  cases order <;> simp [extend, or_comm]

theorem SearchOrder.length_extend (order : SearchOrder) (found pending : List String) :
    (order.extend found pending).length = pending.length + found.length := by
  cases order <;> simp [extend, Nat.add_comm]

/-- What lies above a class that is expanded lies above its supertypes, if it is another one. -/
theorem exists_pending (other : name ≠ target)
    (joined : ∀ other, other ∈ pending ↔ other ∈ rest ∨ other ∈ supertypes name)
    (reached : ∃ first ∈ name :: rest, Ancestor supertypes first target) :
    ∃ first ∈ pending, Ancestor supertypes first target := by
  obtain ⟨first, mem, above⟩ := reached
  rcases List.mem_cons.mp mem with rfl | later
  · obtain ⟨next, link, above⟩ := above.exists_supertype other
    exact ⟨next, (joined next).mpr (.inr link), above⟩
  · exact ⟨first, (joined first).mpr (.inl later), above⟩

/-! ## Looking for one class -/

/-- The search finds only what lies above a class that it starts from. -/
theorem ancestor_of_meets (order : SearchOrder) {steps : Nat}
    (h : meets supertypes order target steps visited pending = true) :
    ∃ first ∈ pending, Ancestor supertypes first target := by
  induction steps generalizing visited pending with
  | zero =>
    cases pending with
    | nil => simp [meets] at h
    | cons name rest =>
      have same : name = target := by simpa [meets] using h
      exact ⟨name, List.mem_cons_self, same ▸ .refl⟩
  | succ steps ih =>
    cases pending with
    | nil => simp [meets] at h
    | cons name rest =>
      rw [meets, Bool.or_eq_true, beq_iff_eq] at h
      rcases h with rfl | h
      · exact ⟨name, List.mem_cons_self, .refl⟩
      · split at h
        · obtain ⟨first, mem, above⟩ := ih h
          exact ⟨first, List.mem_cons_of_mem _ mem, above⟩
        · obtain ⟨first, mem, above⟩ := ih h
          rcases (order.mem_extend _ _ _).mp mem with later | link
          · exact ⟨first, List.mem_cons_of_mem _ later, above⟩
          · exact ⟨name, List.mem_cons_self, .head link above⟩

/-- What the classes outside `visited` weigh together. -/
def weightOutside (weight : String → Nat) (classes visited : List String) : Nat :=
  (classes.map fun name => if name ∈ visited then 0 else weight name).sum

/-- The links that are followed when the classes outside `visited` are expanded. -/
abbrev linksOutside (supertypes : String → List String) (classes visited : List String) : Nat :=
  weightOutside (fun name => (supertypes name).length) classes visited

theorem weightOutside_anti (weight : String → Nat) (classes : List String) :
    weightOutside weight classes (name :: visited) ≤ weightOutside weight classes visited := by
  induction classes with
  | nil => exact Nat.le_refl _
  | cons other rest ih =>
    simp only [weightOutside, List.map_cons, List.sum_cons] at ih ⊢
    have first : (if other ∈ name :: visited then 0 else weight other)
        ≤ if other ∈ visited then 0 else weight other := by
      by_cases seen : other ∈ visited
      · simp [seen]
      · simp only [seen, if_false]
        split
        · exact Nat.zero_le _
        · exact Nat.le_refl _
    exact Nat.add_le_add first ih

/-- Visiting a class takes its weight off. -/
theorem weightOutside_cons (weight : String → Nat) {classes : List String} (mem : name ∈ classes)
    (unseen : name ∉ visited) :
    weight name + weightOutside weight classes (name :: visited)
      ≤ weightOutside weight classes visited := by
  induction classes with
  | nil => cases mem
  | cons other rest ih =>
    have rest_le : weightOutside weight rest (name :: visited)
        ≤ weightOutside weight rest visited := weightOutside_anti weight rest
    simp only [weightOutside, List.map_cons, List.sum_cons] at rest_le ih ⊢
    by_cases same : other = name
    · rw [same, if_pos List.mem_cons_self, if_neg unseen, Nat.zero_add]
      exact Nat.add_le_add_left rest_le _
    · have later := ih (List.mem_of_ne_of_mem (Ne.symm same) mem)
      have first : (other ∈ name :: visited) = (other ∈ visited) := by simp [same]
      simp only [first]
      omega

/-- What lies above the pending classes of a search lies above those that are pending after a step
that does not meet it. -/
theorem reach_next (order : SearchOrder) (frontier : Frontier supertypes visited (name :: rest))
    (unseen : target ∉ visited) (other : name ≠ target)
    (reached : ∃ first ∈ name :: rest, Ancestor supertypes first target) :
    ∃ first ∈ if name ∈ visited then rest else order.extend (supertypes name) rest,
      Ancestor supertypes first target := by
  split
  · rename_i seen
    obtain ⟨first, mem, above⟩ := reached
    rcases List.mem_cons.mp mem with rfl | later
    · exact ((frontier.skip seen).reach seen above).resolve_left unseen
    · exact ⟨first, later, above⟩
  · exact exists_pending other (order.mem_extend _ _) reached

/-- One step of a search that has not met its target: what lies above the pending classes lies above
those that are pending next, and their count goes down. -/
theorem exists_next (order : SearchOrder) {steps : Nat} {classes : List String}
    (frontier : Frontier supertypes visited (name :: rest)) (unseen : target ∉ visited)
    (other : name ≠ target) (known : name ∈ classes)
    (room : (name :: rest).length + linksOutside supertypes classes visited ≤ steps + 1)
    (reached : ∃ first ∈ name :: rest, Ancestor supertypes first target) :
    if name ∈ visited then
      (∃ first ∈ rest, Ancestor supertypes first target) ∧
        rest.length + linksOutside supertypes classes visited ≤ steps
    else
      (∃ first ∈ order.extend (supertypes name) rest, Ancestor supertypes first target) ∧
        (order.extend (supertypes name) rest).length
          + linksOutside supertypes classes (name :: visited) ≤ steps := by
  rw [List.length_cons] at room
  have next := reach_next order frontier unseen other reached
  by_cases seen : name ∈ visited
  · rw [if_pos seen] at next ⊢
    exact ⟨next, by omega⟩
  · rw [if_neg seen] at next ⊢
    refine ⟨next, ?_⟩
    have fewer : (supertypes name).length + linksOutside supertypes classes (name :: visited)
        ≤ linksOutside supertypes classes visited :=
      weightOutside_cons (fun name => (supertypes name).length) known seen
    rw [order.length_extend]
    omega

/-- The search finds every class above those it starts from, if it may take as many classes as there
are pending ones and links outside the visited ones. -/
theorem meets_of_ancestor (order : SearchOrder) {steps : Nat} {classes : List String}
    (frontier : Frontier supertypes visited pending) (unseen : target ∉ visited)
    (known : ∀ first ∈ pending, ∀ name, Ancestor supertypes first name → name ∈ classes)
    (room : pending.length + linksOutside supertypes classes visited ≤ steps + 1)
    (reached : ∃ first ∈ pending, Ancestor supertypes first target) :
    meets supertypes order target steps visited pending = true := by
  induction steps generalizing visited pending with
  | zero =>
    cases pending with
    | nil => simp at reached
    | cons name rest =>
      by_cases same : name = target
      · simp [meets, same]
      have next := exists_next order frontier unseen same (known name List.mem_cons_self name .refl)
        room reached
      -- no class may be taken any more, so none is pending
      split at next
      all_goals
        obtain ⟨⟨first, mem, -⟩, none_left⟩ := next
        have := List.length_pos_of_mem mem
        omega
  | succ steps ih =>
    cases pending with
    | nil => simp at reached
    | cons name rest =>
      by_cases same : name = target
      · simp [meets, same]
      have next := exists_next order frontier unseen same (known name List.mem_cons_self name .refl)
        room reached
      rw [meets, Bool.or_eq_true]
      refine .inr ?_
      by_cases seen : name ∈ visited
      · rw [if_pos seen] at next
        rw [if_pos (List.contains_iff_mem.mpr seen)]
        exact ih (frontier.skip seen) unseen
          (fun first mem => known first (List.mem_cons_of_mem _ mem)) next.2 next.1
      · rw [if_neg seen] at next
        rw [if_neg (by simpa using seen)]
        refine ih (frontier.expand (order.mem_extend _ _)) ?_ ?_ next.2 next.1
        · simp [unseen, Ne.symm same]
        · intro first mem ancestor above
          rcases (order.mem_extend _ _ _).mp mem with later | link
          · exact known first (List.mem_cons_of_mem _ later) ancestor above
          · exact known name List.mem_cons_self ancestor (.head link above)

/-- Whether the search stops short: it has expanded as many classes as it may, and takes one more
that is not its target. -/
def givesUp (supertypes : String → List String) (order : SearchOrder) (target : String) :
    (steps : Nat) → (visited pending : List String) → Bool
  | _, _, [] => false
  | 0, _, name :: _ => name != target
  | steps + 1, visited, name :: rest =>
    name != target &&
      if visited.contains name then givesUp supertypes order target steps visited rest
      else
        givesUp supertypes order target steps (name :: visited)
          (order.extend (supertypes name) rest)

/-- A search that does not stop short finds every class above those it starts from. -/
theorem meets_of_not_givesUp (order : SearchOrder) {steps : Nat}
    (frontier : Frontier supertypes visited pending) (unseen : target ∉ visited)
    (uncut : givesUp supertypes order target steps visited pending = false)
    (reached : ∃ first ∈ pending, Ancestor supertypes first target) :
    meets supertypes order target steps visited pending = true := by
  induction steps generalizing visited pending with
  | zero =>
    cases pending with
    | nil => simp at reached
    | cons name rest => simpa [givesUp, meets] using uncut
  | succ steps ih =>
    cases pending with
    | nil => simp at reached
    | cons name rest =>
      by_cases same : name = target
      · simp [meets, same]
      have next := reach_next order frontier unseen same reached
      rw [givesUp, Bool.and_eq_false_iff] at uncut
      have uncut := uncut.resolve_left (by simpa using same)
      rw [meets, Bool.or_eq_true]
      refine .inr ?_
      by_cases seen : name ∈ visited
      · have seen' := List.contains_iff_mem.mpr seen
        rw [if_pos seen] at next
        rw [if_pos seen'] at uncut ⊢
        exact ih (frontier.skip seen) unseen uncut next
      · have seen' : ¬ visited.contains name = true := by simpa using seen
        rw [if_neg seen] at next
        rw [if_neg seen'] at uncut ⊢
        refine ih (frontier.expand (order.mem_extend _ _)) ?_ uncut next
        simp [unseen, Ne.symm same]

/-- A search from one class that does not stop short finds its ancestors and nothing else. -/
theorem meets_iff_ancestor (order : SearchOrder) {steps : Nat}
    (uncut : givesUp supertypes order target steps [] [name] = false) :
    meets supertypes order target steps [] [name] = true ↔ Ancestor supertypes name target := by
  constructor
  · intro met
    obtain ⟨first, mem, above⟩ := ancestor_of_meets order met
    exact List.mem_singleton.mp mem ▸ above
  · intro above
    exact meets_of_not_givesUp order (fun _ mem => absurd mem List.not_mem_nil) List.not_mem_nil
      uncut ⟨name, List.mem_singleton_self name, above⟩

/-! ## Listing the ancestors -/

/-- The first pending class that was not visited is listed next, if there is one. -/
theorem chainWithin_succ (supertypes : String → List String) (room : Nat)
    (visited pending : List String) :
    (pending.dropWhile (fun name => visited.contains name) = [] ∧
      Snapshot.chainWithin supertypes (room + 1) visited pending = []) ∨
    ∃ current rest,
      pending.dropWhile (fun name => visited.contains name) = current :: rest ∧
      current ∉ visited ∧ current :: rest ⊆ pending ∧
      Snapshot.chainWithin supertypes (room + 1) visited pending
        = current :: Snapshot.chainWithin supertypes room (current :: visited)
            (rest ++ supertypes current) := by
  rw [Snapshot.chainWithin]
  cases left : pending.dropWhile fun name => visited.contains name with
  | nil => exact .inl ⟨rfl, rfl⟩
  | cons current rest =>
    refine .inr ⟨current, rest, rfl, ?_, left ▸ List.dropWhile_subset _, rfl⟩
    have := List.head?_dropWhile_not (fun name => visited.contains name) pending
    rw [left] at this
    simpa using this

/-- Only what lies above a pending class is listed. -/
theorem ancestor_of_mem_chainWithin {room : Nat}
    (h : target ∈ Snapshot.chainWithin supertypes room visited pending) :
    ∃ first ∈ pending, Ancestor supertypes first target := by
  induction room generalizing visited pending with
  | zero => simp [Snapshot.chainWithin] at h
  | succ room ih =>
    obtain ⟨-, none⟩ | ⟨current, rest, -, -, sub, next⟩ :=
      chainWithin_succ supertypes room visited pending
    · rw [none] at h
      cases h
    · rw [next] at h
      rcases List.mem_cons.mp h with rfl | h
      · exact ⟨target, sub List.mem_cons_self, .refl⟩
      · obtain ⟨first, mem, above⟩ := ih h
        rcases List.mem_append.mp mem with later | link
        · exact ⟨first, sub (List.mem_cons_of_mem _ later), above⟩
        · exact ⟨current, sub List.mem_cons_self, .head link above⟩

/-- No class is listed that was visited before. -/
theorem notMem_of_mem_chainWithin {room : Nat}
    (h : target ∈ Snapshot.chainWithin supertypes room visited pending) : target ∉ visited := by
  induction room generalizing visited pending with
  | zero => simp [Snapshot.chainWithin] at h
  | succ room ih =>
    obtain ⟨-, none⟩ | ⟨current, rest, -, fresh, -, next⟩ :=
      chainWithin_succ supertypes room visited pending
    · rw [none] at h
      cases h
    · rw [next] at h
      rcases List.mem_cons.mp h with rfl | h
      · exact fresh
      · intro seen
        exact ih h (List.mem_cons_of_mem _ seen)

theorem nodup_chainWithin (supertypes : String → List String) (room : Nat)
    (visited pending : List String) :
    (Snapshot.chainWithin supertypes room visited pending).Nodup := by
  induction room generalizing visited pending with
  | zero => exact List.nodup_nil
  | succ room ih =>
    obtain ⟨-, none⟩ | ⟨current, rest, -, -, -, next⟩ :=
      chainWithin_succ supertypes room visited pending
    · rw [none]
      exact List.nodup_nil
    · rw [next]
      refine List.nodup_cons.mpr ⟨?_, ih _ _⟩
      intro again
      exact notMem_of_mem_chainWithin again List.mem_cons_self

theorem length_chainWithin_le (supertypes : String → List String) (room : Nat)
    (visited pending : List String) :
    (Snapshot.chainWithin supertypes room visited pending).length ≤ room := by
  induction room generalizing visited pending with
  | zero => exact Nat.le_refl _
  | succ room ih =>
    obtain ⟨-, none⟩ | ⟨current, rest, -, -, -, next⟩ :=
      chainWithin_succ supertypes room visited pending
    · rw [none]
      exact Nat.zero_le _
    · rw [next]
      exact Nat.succ_le_succ (ih _ _)

/-- Visited classes at the front of the pending ones can be passed over. -/
theorem Frontier.skipWhile (frontier : Frontier supertypes visited pending) :
    Frontier supertypes visited (pending.dropWhile fun name => visited.contains name) := by
  induction pending with
  | nil => exact frontier
  | cons name rest ih =>
    rw [List.dropWhile_cons]
    split
    · rename_i seen
      exact ih (frontier.skip (List.contains_iff_mem.mp seen))
    · exact frontier

/-- What has not been visited is still to be reached after they are passed over. -/
theorem Frontier.reach_skipWhile (frontier : Frontier supertypes visited pending)
    (unseen : target ∉ visited) (reached : ∃ first ∈ pending, Ancestor supertypes first target) :
    ∃ first ∈ pending.dropWhile fun name => visited.contains name,
      Ancestor supertypes first target := by
  obtain ⟨first, mem, above⟩ := reached
  by_cases seen : first ∈ visited
  · exact (frontier.skipWhile.reach seen above).resolve_left unseen
  · refine ⟨first, ?_, above⟩
    have parts : pending.takeWhile (fun name => visited.contains name)
        ++ pending.dropWhile (fun name => visited.contains name) = pending :=
      List.takeWhile_append_dropWhile
    rw [← parts, List.mem_append] at mem
    exact mem.resolve_left fun taken => seen (by simpa using List.mem_takeWhile_imp taken)

/-- Everything above a pending class is listed, if room is left in the end. -/
theorem mem_chainWithin_of_length_lt {room : Nat} (frontier : Frontier supertypes visited pending)
    (unseen : target ∉ visited)
    (left : (Snapshot.chainWithin supertypes room visited pending).length < room)
    (reached : ∃ first ∈ pending, Ancestor supertypes first target) :
    target ∈ Snapshot.chainWithin supertypes room visited pending := by
  induction room generalizing visited pending with
  | zero => exact absurd left (Nat.not_lt_zero _)
  | succ room ih =>
    have skipped := frontier.skipWhile
    have reached' := frontier.reach_skipWhile unseen reached
    obtain ⟨nothing, -⟩ | ⟨current, rest, front, -, -, next⟩ :=
      chainWithin_succ supertypes room visited pending
    · rw [nothing] at reached'
      obtain ⟨first, mem, -⟩ := reached'
      cases mem
    · rw [front] at skipped reached'
      rw [next] at left ⊢
      by_cases same : current = target
      · simp [same]
      have joined (other : String) : other ∈ rest ++ supertypes current
          ↔ other ∈ rest ∨ other ∈ supertypes current := List.mem_append
      refine List.mem_cons_of_mem _ (ih (skipped.expand joined) ?_ (Nat.lt_of_succ_lt_succ left)
        (exists_pending same joined reached'))
      simp [unseen, Ne.symm same]

/-- Every ancestor of a class is listed, if there is room for all of them. -/
theorem mem_chainWithin_of_ancestor {room : Nat} {classes : List String}
    (known : ∀ ancestor, Ancestor supertypes name ancestor → ancestor ∈ classes)
    (enough : classes.length ≤ room) (above : Ancestor supertypes name target) :
    target ∈ Snapshot.chainWithin supertypes room [] [name] := by
  by_contra missing
  -- the listed classes are among the known ones, and so is the one that is missing
  have fewer : (Snapshot.chainWithin supertypes room [] [name]).length < classes.length := by
    have distinct : (target :: Snapshot.chainWithin supertypes room [] [name]).Nodup :=
      List.nodup_cons.mpr ⟨missing, nodup_chainWithin _ _ _ _⟩
    refine (distinct.subperm ?_).length_le
    intro other mem
    rcases List.mem_cons.mp mem with rfl | listed
    · exact known other above
    · obtain ⟨first, mem, further⟩ := ancestor_of_mem_chainWithin listed
      exact known other (List.mem_singleton.mp mem ▸ further)
  exact missing (mem_chainWithin_of_length_lt (fun _ mem => absurd mem List.not_mem_nil)
    List.not_mem_nil (fewer.trans_le enough) ⟨name, List.mem_singleton_self name, above⟩)

namespace Snapshot

variable {snapshot : Snapshot}

theorem ancestor_of_mem_classChain (h : target ∈ snapshot.classChain name) :
    Ancestor snapshot.supertypes name target := by
  obtain ⟨first, mem, above⟩ := ancestor_of_mem_chainWithin h
  exact List.mem_singleton.mp mem ▸ above

theorem nodup_classChain (snapshot : Snapshot) (name : String) :
    (snapshot.classChain name).Nodup :=
  nodup_chainWithin _ _ _ _

/-- The chain for members lists every ancestor if there are no more than it has room for. -/
theorem mem_classChain_of_ancestor {classes : List String}
    (known : ∀ ancestor, Ancestor snapshot.supertypes name ancestor → ancestor ∈ classes)
    (few : classes.length ≤ Limits.supertypeChain)
    (above : Ancestor snapshot.supertypes name target) : target ∈ snapshot.classChain name :=
  mem_chainWithin_of_ancestor known few above

end Snapshot

end LuaTyping
