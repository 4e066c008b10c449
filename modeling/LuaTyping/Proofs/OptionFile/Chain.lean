import LuaTyping.OptionFile.Load
import Mathlib.Data.List.Perm.Subperm

/-!
# Loading a chain of option files

A file names the file it extends, that file the next one, and so on. `stage` follows these names
from the start without any memory, and `Meets` says what is wrong with the file at a stage: it
cannot be read, its text is no option file, or it is a file that an earlier stage has come to.
Loading fails with the first thing that is wrong; and if nothing is, each option has the value of
the first file of the chain that sets it (`loadOptions_iff`).

The files passed are different ones of the volume, so a chain that comes back to none of them ends
before the bound does (`Passing.length_le`).
-/

set_option autoImplicit false

namespace LuaTyping

/-- The text of the file that a path leads to. -/
def Volume.text? (volume : Volume) (path : OptionPath) : Option String :=
  (volume.place? path).bind volume.read?

/-- The content of the file that a path leads to, if there is one and it is an option file. -/
def Volume.open? (volume : Volume) (path : OptionPath) : Option OptionFile :=
  (volume.text? path).bind fun text => (OptionFile.parse text).toOption

/-- The path of a file has a directory. -/
theorem Volume.exists_parent? (volume : Volume) {path : OptionPath} {place : List String}
    {text : String} (placed : volume.place? path = some place)
    (read : volume.text? path = some text) :
    ∃ directory, path.parent? = some directory := by
  rw [Volume.text?, placed] at read
  exact Option.isSome_iff_exists.mp
    (volume.housed path place placed (Option.isSome_of_eq_some read))

namespace OptionFile

/-! ## Following a chain -/

/-- The path of the file that a file extends, given its own path. -/
def basePath? (path : OptionPath) (file : OptionFile) : Option OptionPath :=
  file.base.bind fun base =>
    path.parent?.map fun directory => directory.within (OptionPath.ofText base).withExtension

/-- The path that is come to after following so many files. -/
def stage (volume : Volume) (start : OptionPath) : Nat → Option OptionPath
  | 0 => some start
  | n + 1 => (stage volume start n).bind fun path => (volume.open? path).bind (basePath? path)

/-- What is wrong with the file at a stage. -/
inductive Meets (volume : Volume) (start : OptionPath) (n : Nat) : LoadError → Prop
  | missing {path : OptionPath} (here : stage volume start n = some path)
      (missing : volume.text? path = none) :
      Meets volume start n (.unreadable path)
  | malformed {path : OptionPath} {text : String} {cause : JsonText.Fault}
      (here : stage volume start n = some path)
      (read : volume.text? path = some text)
      (malformed : parse text = .error cause) : Meets volume start n (.malformed path cause)
  | cycle {path earlier : OptionPath} {place : List String} {m : Nat}
      (here : stage volume start n = some path) (placed : volume.place? path = some place)
      (before : m < n) (there : stage volume start m = some earlier)
      (same : volume.place? earlier = some place) : Meets volume start n (.cycle place)

variable {volume : Volume} {start path : OptionPath} {k n : Nat}

theorem open?_eq_some_iff {file : OptionFile} :
    volume.open? path = some file ↔
      ∃ text, volume.text? path = some text ∧ parse text = .ok file := by
  rw [Volume.open?, Option.bind_eq_some_iff]
  refine exists_congr fun text => and_congr_right fun _ => ?_
  cases parse text <;> simp [Except.toOption]

/-- The files before a stage have been opened. -/
theorem exists_open?_of_stage (here : stage volume start n = some path) {m : Nat} (before : m < n) :
    ∃ earlier file, stage volume start m = some earlier ∧ volume.open? earlier = some file := by
  induction n generalizing path with
  | zero => cases before
  | succ n ih =>
    obtain ⟨last, is_last, opened⟩ := Option.bind_eq_some_iff.mp here
    obtain ⟨file, opened, -⟩ := Option.bind_eq_some_iff.mp opened
    rcases Nat.lt_succ_iff_lt_or_eq.mp before with earlier | rfl
    · exact ih is_last earlier
    · exact ⟨last, file, is_last, opened⟩

/-- A file that is come back to is an option file. -/
theorem exists_open?_of_place {earlier : OptionPath} {m : Nat}
    (here : stage volume start n = some path) (before : m < n)
    (there : stage volume start m = some earlier)
    (same : volume.place? earlier = volume.place? path) :
    ∃ file, volume.open? path = some file := by
  obtain ⟨other, file, is_other, opened⟩ := exists_open?_of_stage here before
  cases there.symm.trans is_other
  refine ⟨file, ?_⟩
  rw [Volume.open?, Volume.text?, ← same]
  exact opened

/-- What is wrong with a file that is no option file is read off the file itself. -/
theorem Meets.of_not_open {e : LoadError} (meets : Meets volume start n e)
    (here : stage volume start n = some path) (unopened : volume.open? path = none) :
    volume.text? path = none ∧ e = .unreadable path ∨
      ∃ text cause, volume.text? path = some text ∧ parse text = .error cause ∧
        e = .malformed path cause := by
  cases meets with
  | missing here' absent =>
    cases here.symm.trans here'
    exact .inl ⟨absent, rfl⟩
  | malformed here' read malformed =>
    cases here.symm.trans here'
    exact .inr ⟨_, _, read, malformed, rfl⟩
  | cycle here' placed before there same =>
    cases here.symm.trans here'
    obtain ⟨file, opened⟩ := exists_open?_of_place here before there (same.trans placed.symm)
    cases unopened.symm.trans opened

/-- An option file is only wrong where it is one that was passed before. -/
theorem Meets.of_open {e : LoadError} {file : OptionFile} (meets : Meets volume start n e)
    (here : stage volume start n = some path) (opened : volume.open? path = some file) :
    ∃ place earlier m, volume.place? path = some place ∧ m < n ∧
      stage volume start m = some earlier ∧ volume.place? earlier = some place ∧
      e = .cycle place := by
  obtain ⟨text, is_text, parsed⟩ := open?_eq_some_iff.mp opened
  cases meets with
  | missing here' absent =>
    cases here.symm.trans here'
    cases is_text.symm.trans absent
  | malformed here' read malformed =>
    cases here.symm.trans here'
    cases is_text.symm.trans read
    cases parsed.symm.trans malformed
  | cycle here' placed before there same =>
    cases here.symm.trans here'
    exact ⟨_, _, _, placed, before, there, same, rfl⟩

theorem Meets.exists_stage {e : LoadError} (meets : Meets volume start n e) :
    ∃ path, stage volume start n = some path := by
  cases meets <;> exact ⟨_, ‹_›⟩

/-- At a stage at most one thing is wrong. -/
theorem Meets.unique {e e' : LoadError} (meets : Meets volume start n e)
    (meets' : Meets volume start n e') : e = e' := by
  obtain ⟨path, here⟩ := meets.exists_stage
  cases opened : volume.open? path with
  | none =>
    rcases meets.of_not_open here opened with ⟨absent, rfl⟩ | ⟨_, _, read, malformed, rfl⟩
    · rcases meets'.of_not_open here opened with ⟨-, rfl⟩ | ⟨_, _, read, -, -⟩
      · rfl
      · cases absent.symm.trans read
    · rcases meets'.of_not_open here opened with ⟨absent, -⟩ | ⟨_, _, read', malformed', rfl⟩
      · cases absent.symm.trans read
      · cases read.symm.trans read'
        cases malformed.symm.trans malformed'
        rfl
  | some file =>
    obtain ⟨place, -, -, placed, -, -, -, rfl⟩ := meets.of_open here opened
    obtain ⟨place', -, -, placed', -, -, -, rfl⟩ := meets'.of_open here opened
    cases placed.symm.trans placed'
    rfl

/-! ## The files passed -/

/-- Loading has come to `path` after `k` files of the volume, all of them different, and nothing has
been wrong so far. -/
structure Passing (volume : Volume) (start : OptionPath) (k : Nat) (path : OptionPath)
    (passed : List (List String)) : Prop where
  here : stage volume start k = some path
  clear : ∀ m < k, ∀ e, ¬ Meets volume start m e
  nodup : passed.Nodup
  length : passed.length = k
  known : ∀ place ∈ passed, place ∈ volume.files.map Prod.fst
  places : ∀ place, place ∈ passed ↔
    ∃ m < k, ∃ earlier, stage volume start m = some earlier ∧ volume.place? earlier = some place

namespace Passing

variable {passed : List (List String)}

theorem start_nil (volume : Volume) (start : OptionPath) : Passing volume start 0 start [] where
  here := rfl
  clear := nofun
  nodup := .nil
  length := rfl
  known := nofun
  places _ := ⟨nofun, fun ⟨_, less, _⟩ => nomatch less⟩

/-- No more files are passed than there are. -/
theorem length_le (h : Passing volume start k path passed) : k ≤ volume.files.length := by
  have all := (List.subperm_of_subset h.nodup h.known).length_le
  rw [h.length, List.length_map] at all
  exact all

theorem not_meets (h : Passing volume start k path passed) {place : List String}
    {file : OptionFile} (placed : volume.place? path = some place) (new : place ∉ passed)
    (opened : volume.open? path = some file) (e : LoadError) : ¬ Meets volume start k e := by
  intro meets
  obtain ⟨place', earlier, m, placed', before, there, same, -⟩ := meets.of_open h.here opened
  cases placed.symm.trans placed'
  exact new ((h.places place).mpr ⟨m, before, earlier, there, same⟩)

theorem next (h : Passing volume start k path passed) {place : List String} {file : OptionFile}
    (placed : volume.place? path = some place) (new : place ∉ passed)
    (opened : volume.open? path = some file) {target : OptionPath}
    (base : basePath? path file = some target) :
    Passing volume start (k + 1) target (place :: passed) where
  here := by rw [stage, h.here, Option.bind_some, opened, Option.bind_some, base]
  clear m less e := by
    rcases Nat.lt_succ_iff_lt_or_eq.mp less with before | rfl
    · exact h.clear m before e
    · exact h.not_meets placed new opened e
  nodup := List.nodup_cons.mpr ⟨new, h.nodup⟩
  length := congrArg Nat.succ h.length
  known other mem := by
    rcases List.mem_cons.mp mem with rfl | mem
    · obtain ⟨text, read, -⟩ := open?_eq_some_iff.mp opened
      rw [Volume.text?, placed] at read
      obtain ⟨before, after, files, -⟩ := List.lookup_eq_some_iff.mp read
      simp [files]
    · exact h.known other mem
  places other := by
    rw [List.mem_cons, h.places]
    constructor
    · rintro (rfl | ⟨m, before, earlier, there, same⟩)
      · exact ⟨k, Nat.lt_succ_self k, path, h.here, placed⟩
      · exact ⟨m, Nat.lt_succ_of_lt before, earlier, there, same⟩
    · rintro ⟨m, less, earlier, there, same⟩
      rcases Nat.lt_succ_iff_lt_or_eq.mp less with before | rfl
      · exact .inr ⟨m, before, earlier, there, same⟩
      · cases h.here.symm.trans there
        exact .inl (Option.some.inj (same.symm.trans placed))

/-- At a stage either something is wrong and loading fails with it, or the file is opened and the
one it extends is loaded first. -/
theorem loadFrom_succ (h : Passing volume start k path passed) (bound : Nat) :
    (∃ e, Meets volume start k e ∧ loadFrom volume (bound + 1) passed path = .error e) ∨
    ∃ place file, volume.place? path = some place ∧ place ∉ passed ∧
      volume.open? path = some file ∧
      loadFrom volume (bound + 1) passed path
        = match basePath? path file with
          | none => .ok file
          | some target => (loadFrom volume bound (place :: passed) target).map file.extending := by
  rw [loadFrom]
  cases placed : volume.place? path with
  | none =>
    have absent : volume.text? path = none := by rw [Volume.text?, placed]; rfl
    exact .inl ⟨_, .missing h.here absent, rfl⟩
  | some place =>
    have text_eq : volume.text? path = volume.read? place := by rw [Volume.text?, placed]; rfl
    by_cases known : place ∈ passed
    · obtain ⟨m, before, earlier, there, same⟩ := (h.places place).mp known
      refine .inl ⟨_, .cycle h.here placed before there same, ?_⟩
      simp only [List.contains_iff_mem.mpr known, if_true]
      rfl
    · have new : passed.contains place = false := by simpa using known
      simp only [new, Bool.false_eq_true, if_false]
      cases read : volume.read? place with
      | none => exact .inl ⟨_, .missing h.here (text_eq.trans read), rfl⟩
      | some text =>
        have read := text_eq.trans read
        dsimp only
        cases parsed : parse text with
        | error cause => exact .inl ⟨_, .malformed h.here read parsed, rfl⟩
        | ok file =>
          refine .inr ⟨place, file, rfl, known, open?_eq_some_iff.mpr ⟨text, read, parsed⟩, ?_⟩
          dsimp only
          rw [basePath?]
          cases file.base with
          | none => rfl
          | some base =>
            obtain ⟨directory, found⟩ := volume.exists_parent? placed read
            simp only [found, Option.bind_some, Option.map_some]
            cases loadFrom volume bound (place :: passed) _ <;> rfl

end Passing

/-! ## Options along a chain -/

/-- What the nearest file of a chain that sets an option sets it to. -/
def nearest {α : Type} (chain : List OptionFile) (key : InferenceKeys → Option α) : Option α :=
  chain.findSome? fun file => file.inference.bind key

/-- The options that a chain of files amounts to: each as the nearest file sets it, and otherwise as
it is in the standard options. A depth of zero also gives the standard one. -/
def optionsAlong (chain : List OptionFile) : Options :=
  let standard := Options.standard
  { nilStrict := (nearest chain InferenceKeys.nilStrict).getD standard.nilStrict
    globalNamesAsTypes :=
      (nearest chain InferenceKeys.globalNamesAsTypes).getD standard.globalNamesAsTypes
    genericsEnabled := (nearest chain InferenceKeys.genericsEnabled).getD standard.genericsEnabled
    constructorNames :=
      (nearest chain InferenceKeys.constructorNames).getD standard.constructorNames
    maxDepth := ((nearest chain InferenceKeys.maxDepth).filter (0 < ·)).getD standard.maxDepth }

/-- Where a file does not set the option, it is handed down. -/
def HandsDown {α : Type} (key : InferenceKeys → Option α) : Prop :=
  ∀ own base : InferenceKeys, key (own.inheriting base) = (key own <|> key base)

/-- One file has taken over the options of a whole chain. -/
def Amounts (file : OptionFile) (chain : List OptionFile) : Prop :=
  ∀ {α : Type} (key : InferenceKeys → Option α), HandsDown key →
    file.inference.bind key = nearest chain key

theorem Amounts.extending {file base : OptionFile} {chain : List OptionFile}
    (h : Amounts base chain) : Amounts (file.extending base) (file :: chain) := by
  intro α key hands
  rw [nearest, List.findSome?_cons, ← nearest, ← h key hands, OptionFile.extending]
  cases file.inference with
  | none => rfl
  | some own =>
    cases base.inference with
    | none =>
      show key own = _
      simp only [Option.bind_some, Option.bind_none]
      cases key own <;> rfl
    | some inherited =>
      simp only [Option.bind_some, hands own inherited]
      cases key own <;> rfl

theorem Amounts.singleton (file : OptionFile) : Amounts file [file] := by
  intro α key _
  rw [nearest, List.findSome?_cons]
  cases file.inference.bind key <;> rfl

theorem Amounts.options_eq {file : OptionFile} {chain : List OptionFile} (h : Amounts file chain) :
    file.options = optionsAlong chain := by
  have given {α : Type} (key : InferenceKeys → Option α) (hands : HandsDown key)
      (nothing : key {} = none) : key (file.inference.getD {}) = nearest chain key := by
    rw [← h key hands]
    cases file.inference with
    | none => exact nothing
    | some keys => rfl
  rw [options, InferenceKeys.resolve, optionsAlong,
    given InferenceKeys.nilStrict (fun _ _ => rfl) rfl,
    given InferenceKeys.globalNamesAsTypes (fun _ _ => rfl) rfl,
    given InferenceKeys.genericsEnabled (fun _ _ => rfl) rfl,
    given InferenceKeys.constructorNames (fun _ _ => rfl) rfl,
    given InferenceKeys.maxDepth (fun _ _ => rfl) rfl]

/-! ## Loading -/

/-- The files from a stage on, in order, up to the end of the chain. -/
def IsChain (volume : Volume) (start : OptionPath) (k : Nat) (chain : List OptionFile) : Prop :=
  ∀ i, chain[i]? = (stage volume start (k + i)).bind volume.open?

theorem stage_eq_none (ended : stage volume start n = none) {m : Nat} (after : n ≤ m) :
    stage volume start m = none := by
  induction after with
  | refl => exact ended
  | step _ ih => rw [stage, ih, Option.bind_none]

theorem IsChain.last {file : OptionFile} (here : stage volume start k = some path)
    (opened : volume.open? path = some file) (ended : stage volume start (k + 1) = none) :
    IsChain volume start k [file] := by
  rintro (_ | i)
  · rw [Nat.add_zero, here, Option.bind_some, opened]
    rfl
  · rw [stage_eq_none ended (by omega)]
    rfl

theorem IsChain.cons {file : OptionFile} {chain : List OptionFile}
    (here : stage volume start k = some path) (opened : volume.open? path = some file)
    (rest : IsChain volume start (k + 1) chain) : IsChain volume start k (file :: chain) := by
  rintro (_ | i)
  · rw [Nat.add_zero, here, Option.bind_some, opened]
    rfl
  · rw [List.getElem?_cons_succ, rest i, Nat.add_assoc, Nat.add_comm 1 i]

/-- Loading fails with the first thing that is wrong, or takes over the options of the whole
chain. -/
theorem Passing.loadFrom_cases {passed : List (List String)} {bound : Nat}
    (h : Passing volume start k path passed) (enough : bound + k = volume.files.length + 1) :
    (∃ n e, n ≤ volume.files.length ∧ Meets volume start n e ∧
      (∀ m < n, ∀ e', ¬ Meets volume start m e') ∧
      loadFrom volume bound passed path = .error e) ∨
    (∀ n e, ¬ Meets volume start n e) ∧ ∃ file chain, IsChain volume start k chain ∧
      Amounts file chain ∧ loadFrom volume bound passed path = .ok file := by
  induction bound generalizing k path passed with
  | zero =>
    have room := h.length_le
    omega
  | succ bound ih =>
    rcases h.loadFrom_succ bound with
      ⟨e, meets, failed⟩ | ⟨place, file, placed, new, opened, loaded⟩
    · exact .inl ⟨k, e, h.length_le, meets, h.clear, failed⟩
    · cases base : basePath? path file with
      | none =>
        have ended : stage volume start (k + 1) = none := by
          rw [stage, h.here, Option.bind_some, opened, Option.bind_some, base]
        refine .inr ⟨fun n e meets => ?_, file, [file], IsChain.last h.here opened ended,
          Amounts.singleton file, by rw [loaded, base]⟩
        rcases Nat.lt_trichotomy n k with before | rfl | after
        · exact h.clear n before e meets
        · exact h.not_meets placed new opened e meets
        · obtain ⟨later, there⟩ := meets.exists_stage
          cases there.symm.trans (stage_eq_none ended after)
      | some target =>
        rw [loaded, base]
        dsimp only
        rcases ih (h.next placed new opened base) (by omega) with
          ⟨n, e, bounded, meets, first, failed⟩ | ⟨clear, rest, chain, is_chain, amounts, done⟩
        · exact .inl ⟨n, e, bounded, meets, first, by rw [failed]; rfl⟩
        · exact .inr ⟨clear, file.extending rest, file :: chain, is_chain.cons h.here opened,
            amounts.extending, by rw [done]; rfl⟩

/-- Loading options ends whatever files there are, and goes no further than there are files. It
fails with the first thing that is wrong on the chain from the start; and it gives options just if
nothing is, those that the whole chain amounts to. -/
theorem loadOptions_iff (volume : Volume) (start : OptionPath) :
    (∀ e, loadOptions volume start = .error e ↔ ∃ n ≤ volume.files.length,
      Meets volume start n e ∧ ∀ m < n, ∀ e', ¬ Meets volume start m e') ∧
    ∀ options, loadOptions volume start = .ok options ↔ (∀ n e, ¬ Meets volume start n e) ∧
      ∃ chain : List OptionFile, (∀ n, chain[n]? = (stage volume start n).bind volume.open?) ∧
        options = optionsAlong chain := by
  rcases (Passing.start_nil volume start).loadFrom_cases rfl with
    ⟨n, e, bounded, meets, first, failed⟩ | ⟨clear, file, chain, is_chain, amounts, done⟩
  · have failed : loadOptions volume start = .error e := by rw [loadOptions, load, failed]; rfl
    refine ⟨fun e' => ⟨fun fails => ?_, fun ⟨n', _, meets', first'⟩ => ?_⟩, fun options => ?_⟩
    · cases failed.symm.trans fails
      exact ⟨n, bounded, meets, first⟩
    · rcases Nat.lt_trichotomy n n' with before | rfl | after
      · exact absurd meets (first' n before e)
      · rw [failed, meets.unique meets']
      · exact absurd meets' (first n' after e')
    · rw [failed]
      exact ⟨nofun, fun ⟨clear, _⟩ => absurd meets (clear n e)⟩
  · have done : loadOptions volume start = .ok (optionsAlong chain) := by
      rw [loadOptions, load, done, ← amounts.options_eq]
      rfl
    have whole (n : Nat) : chain[n]? = (stage volume start n).bind volume.open? := by
      rw [is_chain n, Nat.zero_add]
    refine ⟨fun e => ?_, fun options => ⟨fun gives => ?_, fun ⟨_, chain', whole', same⟩ => ?_⟩⟩
    · rw [done]
      exact ⟨nofun, fun ⟨n, _, meets, _⟩ => absurd meets (clear n e)⟩
    · cases done.symm.trans gives
      exact ⟨clear, chain, whole, rfl⟩
    · have same_chain : chain' = chain := List.ext_getElem? fun n => (whole' n).trans (whole n).symm
      rw [done, same, same_chain]

/-- Two files in the topmost directory, of which the first extends the second without saying where
it is. -/
def topmost : Volume where
  place?
    | .below _ => none
    | .absolute segments => some segments
  files :=
    [(["a.json"], "\x7b\"extends\": \"b\", \"inference\": \x7b\"nilStrict\": true\x7d\x7d"),
      (["b.json"], "\x7b\"inference\": \x7b\"maxInferenceDepth\": 7, \"nilStrict\": false\x7d\x7d")]
  housed := by
    rintro (segments | segments) place leads file
    · cases leads
    · cases leads
      rcases eq_or_ne segments ["a.json"] with rfl | other
      · decide
      rcases eq_or_ne segments ["b.json"] with rfl | another
      · decide
      rw [List.lookup_cons, beq_false_of_ne other, List.lookup_cons,
        beq_false_of_ne another] at file
      cases file

example :
    (stage topmost (.ofText "/a.json") 1).map (OptionPath.render "root") = some "/b.json" := by
  cbv

example :
    (loadOptions topmost (.ofText "/a.json")).toOption
      = some { Options.standard with maxDepth := 7, nilStrict := true } := by
  cbv

end OptionFile

end LuaTyping
