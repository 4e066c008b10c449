import LuaTyping.Proofs.Decl.Ancestors
import Mathlib.Order.Lattice.Nat
import Mathlib.Data.Set.Card

/-!
# The nearest class first

The distance of an ancestor is the length of the shortest path of supertype links up to it. The
chain of a class lists its ancestors by distance, so a member is taken from a nearest class that
declares it.

The pending classes of the search fall into two layers: those so many links away, and behind them
those one link further. All that is nearer has been visited, and nothing at the distance of the
first layer is missing from it (`Layered`). Expanding a class of the first layer adds to the second
one, and the second takes over when the first is used up. Cutting the search off does no harm to the
order: what it has listed by then is nearer than anything that it has not, or as near.
-/

set_option autoImplicit false

namespace LuaTyping

/-- A path of so many links leads from one class up to another. -/
inductive LinkedIn (supertypes : String → List String) (name : String) : Nat → String → Prop where
  | refl : LinkedIn supertypes name 0 name
  | step {links : Nat} {below above : String} (path : LinkedIn supertypes name links below)
      (link : above ∈ supertypes below) : LinkedIn supertypes name (links + 1) above

/-- The length of the shortest path from a class up to one of its ancestors. -/
noncomputable def distance (supertypes : String → List String) (name target : String) : Nat :=
  sInf {links | LinkedIn supertypes name links target}

variable {supertypes : String → List String} {name target : String}

theorem ancestor_iff_exists_linkedIn :
    Ancestor supertypes name target ↔ ∃ links, LinkedIn supertypes name links target := by
  constructor
  · intro above
    induction above with
    | refl => exact ⟨0, .refl⟩
    | tail _ link ih =>
      obtain ⟨links, path⟩ := ih
      exact ⟨links + 1, path.step link⟩
  · rintro ⟨links, path⟩
    induction path with
    | refl => exact .refl
    | step _ link ih => exact .tail ih link

theorem LinkedIn.distance_le {links : Nat} (path : LinkedIn supertypes name links target) :
    distance supertypes name target ≤ links :=
  Nat.sInf_le path

theorem Ancestor.linkedIn_distance (above : Ancestor supertypes name target) :
    LinkedIn supertypes name (distance supertypes name target) target :=
  Nat.sInf_mem (ancestor_iff_exists_linkedIn.mp above)

/-! ## Layers -/

/-- A search upwards from `name` that has come to the classes `links` links away: `now` holds those
that are left of them, and `next` those one link further that were found so far. -/
structure Layered (supertypes : String → List String) (name : String) (links : Nat)
    (visited now next : List String) : Prop where
  nearer : ∀ {fewer other}, fewer < links → LinkedIn supertypes name fewer other → other ∈ visited
  first : ∀ {other}, other ∈ now → LinkedIn supertypes name links other
  second : ∀ {other}, other ∈ next → LinkedIn supertypes name (links + 1) other
  layer : ∀ {other}, LinkedIn supertypes name links other → other ∈ visited ∨ other ∈ now
  frontier : Frontier supertypes visited (now ++ next)

namespace Layered

variable {links : Nat} {visited now next : List String} {current : String}

theorem start (supertypes : String → List String) (name : String) :
    Layered supertypes name 0 [] [name] [] where
  nearer few := absurd few (Nat.not_lt_zero _)
  first mem := List.mem_singleton.mp mem ▸ .refl
  second mem := absurd mem List.not_mem_nil
  layer path := by
    cases path
    exact .inr (List.mem_singleton_self name)
  frontier := fun _ mem => absurd mem List.not_mem_nil

/-- Visited classes at the front of the layer can be passed over. -/
theorem skip (h : Layered supertypes name links visited (current :: now) next)
    (seen : current ∈ visited) : Layered supertypes name links visited now next where
  nearer := h.nearer
  first mem := h.first (List.mem_cons_of_mem _ mem)
  second := h.second
  layer path := by
    rcases h.layer path with before | here
    · exact .inl before
    · rcases List.mem_cons.mp here with rfl | later
      · exact .inl seen
      · exact .inr later
  frontier := h.frontier.skip seen

theorem skipWhile (h : Layered supertypes name links visited now next) :
    Layered supertypes name links visited (now.dropWhile fun name => visited.contains name)
      next := by
  induction now with
  | nil => exact h
  | cons first rest ih =>
    rw [List.dropWhile_cons]
    split
    · rename_i seen
      exact ih (h.skip (List.contains_iff_mem.mp seen))
    · exact h

/-- The second layer takes over when the first one is used up. -/
theorem turn (h : Layered supertypes name links visited [] next) :
    Layered supertypes name (links + 1) visited next [] where
  nearer := by
    intro fewer other few path
    rcases Nat.lt_succ_iff_lt_or_eq.mp few with less | rfl
    · exact h.nearer less path
    · exact (h.layer path).resolve_right List.not_mem_nil
  first := h.second
  second mem := absurd mem List.not_mem_nil
  layer path := by
    cases path with
    | step path link =>
      have below := (h.layer path).resolve_right List.not_mem_nil
      exact h.frontier _ below _ link
  frontier := by
    rw [List.append_nil]
    exact h.frontier

/-- A class of the first layer is expanded: its supertypes join the second one. -/
theorem expand (h : Layered supertypes name links visited (current :: now) next) :
    Layered supertypes name links (current :: visited) now (next ++ supertypes current) where
  nearer few path := List.mem_cons_of_mem _ (h.nearer few path)
  first mem := h.first (List.mem_cons_of_mem _ mem)
  second mem := by
    rcases List.mem_append.mp mem with before | link
    · exact h.second before
    · exact (h.first List.mem_cons_self).step link
  layer path := by
    rcases h.layer path with before | here
    · exact .inl (List.mem_cons_of_mem _ before)
    · rcases List.mem_cons.mp here with rfl | later
      · exact .inl List.mem_cons_self
      · exact .inr later
  frontier := by
    have frontier : Frontier supertypes visited (current :: (now ++ next)) := h.frontier
    refine frontier.expand ?_
    intro other
    rw [← List.append_assoc, List.mem_append]

/-- The class that is taken next heads a layer. -/
theorem exists_front {rest : List String} (h : Layered supertypes name links visited now next)
    (front : (now ++ next).dropWhile (fun name => visited.contains name) = current :: rest) :
    ∃ links now' next', rest = now' ++ next' ∧
      Layered supertypes name links visited (current :: now') next' := by
  have skipped := h.skipWhile
  rw [List.dropWhile_append] at front
  cases left : now.dropWhile fun name => visited.contains name with
  | nil =>
    rw [left] at front skipped
    have turned := skipped.turn.skipWhile
    rw [show next.dropWhile (fun name => visited.contains name) = current :: rest by
      simpa using front] at turned
    exact ⟨links + 1, rest, [], (List.append_nil rest).symm, turned⟩
  | cons first later =>
    rw [left] at front skipped
    obtain ⟨rfl, rfl⟩ : first = current ∧ later ++ next = rest := by simpa using front
    exact ⟨links, later, next, rfl, skipped⟩

/-- No ancestor that was not visited is nearer than a class of the first layer. -/
theorem distance_le (h : Layered supertypes name links visited (current :: now) next)
    (unseen : target ∉ visited) (above : Ancestor supertypes name target) :
    distance supertypes name current ≤ distance supertypes name target := by
  refine (h.first List.mem_cons_self).distance_le.trans ?_
  by_contra nearer
  exact unseen (h.nearer (Nat.lt_of_not_le nearer) above.linkedIn_distance)

/-- A class is listed before every ancestor that is further away. What is not listed at all counts
as coming last. -/
theorem distance_le_of_chainWithin (h : Layered supertypes name links visited now next)
    {room : Nat} {before after : List String}
    (chain : Snapshot.chainWithin supertypes room visited (now ++ next)
      = before ++ current :: after)
    (unseen : target ∉ visited) (later : target ∉ before)
    (above : Ancestor supertypes name target) :
    distance supertypes name current ≤ distance supertypes name target := by
  induction room generalizing links visited now next before with
  | zero => simp [Snapshot.chainWithin] at chain
  | succ room ih =>
    obtain ⟨-, none⟩ | ⟨first, rest, front, -, -, listed⟩ :=
      chainWithin_succ supertypes room visited (now ++ next)
    · simp [none] at chain
    · obtain ⟨links, now', next', rfl, layered⟩ := h.exists_front front
      rw [listed] at chain
      cases before with
      | nil =>
        obtain ⟨rfl, -⟩ := List.cons.inj chain
        exact layered.distance_le unseen above
      | cons _ before =>
        obtain ⟨rfl, tail⟩ := List.cons.inj chain
        rw [List.append_assoc] at tail
        refine ih layered.expand tail ?_ ?_
        · intro seen
          rcases List.mem_cons.mp seen with rfl | seen
          · exact later List.mem_cons_self
          · exact unseen seen
        · intro mem
          exact later (List.mem_cons_of_mem _ mem)

end Layered

namespace Snapshot

variable {snapshot : Snapshot} {current : String} {before after : List String}

theorem distance_le_of_classChain (chain : snapshot.classChain name = before ++ current :: after)
    (later : target ∉ before) (above : Ancestor snapshot.supertypes name target) :
    distance snapshot.supertypes name current ≤ distance snapshot.supertypes name target :=
  (Layered.start snapshot.supertypes name).distance_le_of_chainWithin chain List.not_mem_nil later
    above

/-- The chain of a class lists its ancestors by distance. -/
theorem pairwise_classChain (snapshot : Snapshot) (name : String) :
    (snapshot.classChain name).Pairwise fun first second =>
      distance snapshot.supertypes name first ≤ distance snapshot.supertypes name second := by
  rw [List.pairwise_iff_getElem]
  intro i j hi hj less
  have split : snapshot.classChain name
      = (snapshot.classChain name).take i ++ (snapshot.classChain name)[i]
        :: (snapshot.classChain name).drop (i + 1) := by
    rw [List.getElem_cons_drop, List.take_append_drop]
  refine distance_le_of_classChain split ?_ (ancestor_of_mem_classChain (List.getElem_mem hj))
  intro mem
  obtain ⟨k, hk, same⟩ := List.mem_take_iff_getElem.mp mem
  have := (List.Nodup.getElem_inj_iff (snapshot.nodup_classChain name)).mp same
  omega

/-- The chain is cut off only if it is full. -/
theorem mem_classChain_or_length (above : Ancestor snapshot.supertypes name target) :
    target ∈ snapshot.classChain name ∨
      (snapshot.classChain name).length = Limits.supertypeChain := by
  rcases (length_chainWithin_le snapshot.supertypes Limits.supertypeChain [] [name]).lt_or_eq with
    room | full
  · exact .inl (mem_chainWithin_of_length_lt (fun _ mem => absurd mem List.not_mem_nil)
      List.not_mem_nil room ⟨name, List.mem_singleton_self name, above⟩)
  · exact .inr full

/-- Up to 64 ancestors are all listed. -/
theorem mem_classChain_of_encard_le
    (few : {cls | Ancestor snapshot.supertypes name cls}.encard ≤ 64)
    (above : Ancestor snapshot.supertypes name target) : target ∈ snapshot.classChain name := by
  have finite : {cls | Ancestor snapshot.supertypes name cls}.Finite :=
    Set.finite_of_encard_le_coe few
  have known (ancestor : String) (above : Ancestor snapshot.supertypes name ancestor) :
      ancestor ∈ finite.toFinset.toList :=
    Finset.mem_toList.mpr (finite.mem_toFinset.mpr above)
  have short : finite.toFinset.toList.length ≤ 64 := by
    rw [Finset.length_toList, ← ENat.natCast_le_natCast, ← finite.encard_eq_coe_toFinset_card]
    exact few
  exact mem_classChain_of_ancestor known short above

/-- Of more than 64 ancestors, 64 are listed. -/
theorem length_classChain_of_lt_encard
    (many : 64 < {cls | Ancestor snapshot.supertypes name cls}.encard) :
    (snapshot.classChain name).length = 64 := by
  by_contra short
  have all : {cls | Ancestor snapshot.supertypes name cls}
      ⊆ {cls | cls ∈ (snapshot.classChain name).toFinset} := by
    intro cls above
    simpa using (mem_classChain_or_length above).resolve_right short
  have few : (snapshot.classChain name).length ≤ 64 := length_chainWithin_le _ _ _ _
  refine absurd many (not_lt_of_ge ?_)
  calc {cls | Ancestor snapshot.supertypes name cls}.encard
    _ ≤ ((snapshot.classChain name).toFinset : Set String).encard := Set.encard_le_encard all
    _ = (snapshot.classChain name).toFinset.card := Set.encard_coe_eq_coe_finsetCard _
    _ ≤ 64 := by exact_mod_cast (snapshot.classChain name).toFinset_card_le.trans few

/-! ## Members -/

/-- A class declares a member of the given name itself. -/
def Declares (snapshot : Snapshot) (cls member : String) : Prop :=
  ∃ key ∈ snapshot.classMembers cls, snapshot.isNamed member key = true

theorem named_ne_nil_iff (snapshot : Snapshot) (cls member : String) :
    snapshot.named (snapshot.classMembers cls) member ≠ [] ↔ snapshot.Declares cls member := by
  have considered : Limits.candidates ≠ 0 := by decide
  simp [named, Declares, List.take_eq_nil_iff, considered]

/-- A member is looked up in the first class of the chain that declares it. -/
theorem resolveClassMember_cases (snapshot : Snapshot) (name member : String) :
    ((∀ cls ∈ snapshot.classChain name, ¬ snapshot.Declares cls member) ∧
      snapshot.resolveClassMember name member = []) ∨
    ∃ before nearest after,
      snapshot.classChain name = before ++ nearest :: after ∧
      (∀ cls ∈ before, ¬ snapshot.Declares cls member) ∧ snapshot.Declares nearest member ∧
      snapshot.resolveClassMember name member
        = snapshot.named (snapshot.classMembers nearest) member := by
  rw [resolveClassMember]
  generalize search : (snapshot.classChain name).findSome? _ = found
  cases found with
  | none =>
    refine .inl ⟨?_, rfl⟩
    intro cls mem declares
    have nothing := List.findSome?_eq_none_iff.mp search cls mem
    split at nothing
    · rename_i empty
      exact (snapshot.named_ne_nil_iff cls member).mpr declares empty
    · cases nothing
  | some found =>
    obtain ⟨before, nearest, after, chain, here, earlier⟩ := List.findSome?_eq_some_iff.mp search
    refine .inr ⟨before, nearest, after, chain, ?_, ?_⟩
    · intro cls mem declares
      have nothing := earlier cls mem
      split at nothing
      · rename_i empty
        exact (snapshot.named_ne_nil_iff cls member).mpr declares empty
      · cases nothing
    · split at here
      · cases here
      · rename_i declared
        obtain rfl := Option.some.inj here
        exact ⟨(snapshot.named_ne_nil_iff nearest member).mp declared, rfl⟩

/-- The chain of a class starts with the class, lists ancestors only, each once and by distance, and
all of them unless there are more than 64: it then lists 64. So a member comes from a class that
declares it at the least distance, and none is found only if no class of the chain declares it. -/
theorem classChain_nearestFirst (snapshot : Snapshot) (name : String) :
    let distance := distance snapshot.supertypes name
    let ancestors := {cls | Ancestor snapshot.supertypes name cls}
    let chain := snapshot.classChain name
    chain.head? = some name ∧ chain.Nodup ∧ (∀ cls ∈ chain, cls ∈ ancestors) ∧
    chain.Pairwise (fun first second => distance first ≤ distance second) ∧
    (ancestors.encard ≤ 64 → ∀ cls ∈ ancestors, cls ∈ chain) ∧
    (64 < ancestors.encard → chain.length = 64) ∧
    ∀ member : String,
      ((∀ cls ∈ chain, ¬ snapshot.Declares cls member) ∧
        snapshot.resolveClassMember name member = []) ∨
      ∃ nearest ∈ chain, snapshot.Declares nearest member ∧
        snapshot.resolveClassMember name member
          = snapshot.named (snapshot.classMembers nearest) member ∧
        ∀ cls ∈ ancestors, snapshot.Declares cls member → distance nearest ≤ distance cls := by
  intro distance ancestors chain
  refine ⟨rfl, snapshot.nodup_classChain name, fun _ => ancestor_of_mem_classChain,
    snapshot.pairwise_classChain name, fun few _ => mem_classChain_of_encard_le few,
    length_classChain_of_lt_encard, ?_⟩
  intro member
  obtain none | ⟨before, nearest, after, split, earlier, declares, found⟩ :=
    snapshot.resolveClassMember_cases name member
  · exact .inl none
  · refine .inr ⟨nearest, by simp [chain, split], declares, found, ?_⟩
    intro cls above declares
    exact distance_le_of_classChain split (fun mem => earlier cls mem declares) above

end Snapshot

end LuaTyping
