import LuaTyping.Proofs.Text.Quoted
import LuaTyping.Ty.Format
import LuaTyping.Ty.Union

/-!
# Reading types back

The text of a type says which type it is. Records apart, which are shown by one word, and type
parameters of functions, which are not shown, nothing is lost but the contents of classes.

The proof is a reader for the texts. It never looks ahead further than the next mark: a group in
parentheses is read as a list of types first, and only the arrow after it tells that the list was
the parameters of a function; brackets after a type make it an array, and bars join alternatives. A
name alone does not tell a class from an alias or a type parameter, so the reader is told which
names are which.
-/

set_option autoImplicit false

namespace LuaTyping.Ty

/-- What a name in a type stands for. -/
inductive NameKind where
  | ofClass
  | ofAlias
  | ofGeneric

/-- The characters that stand between names in the text of a type. -/
def isPunctuation (c : Char) : Bool :=
  ['(', ')', '[', ']', '<', '>', '|', ',', '.', ' ', '"'].contains c

/-- There is no punctuation in the name. -/
def Unbroken (name : String) : Prop := name.toList.any isPunctuation = false

/-- The name is not empty, has no punctuation in it and is not that of a basic type. Every
identifier that is no basic type is such a name. -/
structure IsWord (name : String) : Prop where
  nonempty : name ≠ ""
  unbroken : Unbroken name
  free : name ∉ ["unknown", "nil", "boolean", "number", "string"]

/-- The types whose text can be read back, where every name is used for what `kind` says. -/
inductive Legible (kind : String → NameKind) : Ty → Prop
  | unknown : Legible kind .unknown
  | nil : Legible kind .nil
  | boolean : Legible kind .boolean
  | number : Legible kind .number
  | string : Legible kind .string
  | literal (text : String) : Legible kind (.literal text)
  | named {name : String} (supers : List String) (members : List (Member Ty)) (word : IsWord name)
      (use : kind name = .ofClass) : Legible kind (.named name supers members)
  | generic {name : String} (word : IsWord name) (use : kind name = .ofGeneric) :
      Legible kind (.generic name)
  | aliasRef {name : String} {args : List Ty} (word : IsWord name) (use : kind name = .ofAlias)
      (each : ∀ arg ∈ args, Legible kind arg) : Legible kind (.aliasRef name args)
  | array {element : Ty} (h : Legible kind element) : Legible kind (.array element)
  | tuple {elements : List Ty} (each : ∀ element ∈ elements, Legible kind element) :
      Legible kind (.tuple elements)
  | function {params : List Ty} {ret : Ty} (variadic : Bool)
      (each : ∀ param ∈ params, Legible kind param) (result : Legible kind ret) :
      Legible kind (.function params ret variadic [])
  | union {alts : List Ty} (several : 2 ≤ alts.length) (shown : alts.length ≤ defaultShown)
      (each : ∀ alt ∈ alts, Legible kind alt) : Legible kind (.union alts)

mutual

/-- The type with nothing of its classes but their names. -/
def bare : Ty → Ty
  | .function params ret variadic generics =>
    .function (bareList params) (bare ret) variadic generics
  | .named name _ _ => classRef name
  | .union alts => .union (bareList alts)
  | .aliasRef name args => .aliasRef name (bareList args)
  | .array element => .array (bare element)
  | .tuple elements => .tuple (bareList elements)
  | ty => ty
termination_by structural ty => ty

/-- `bare` over a list of types. -/
def bareList : List Ty → List Ty
  | [] => []
  | ty :: rest => bare ty :: bareList rest
termination_by structural tys => tys

end

/-! ## The reader -/

/-- Takes something off the front of a text, and gives it with what is left. -/
abbrev Reader (α : Type) := List Char → Option (α × List Char)

/-- The array types that pairs of brackets make of a type. -/
def suffixed : Ty → List Char → Ty × List Char
  | ty, '[' :: ']' :: rest => suffixed (.array ty) rest
  | ty, rest => (ty, rest)

/-- The type that a name without arguments stands for. -/
def ofWord (kind : String → NameKind) (name : String) : Ty :=
  if name = "unknown" then .unknown
  else if name = "nil" then .nil
  else if name = "boolean" then .boolean
  else if name = "number" then .number
  else if name = "string" then .string
  else
    match kind name with
    | .ofClass => classRef name
    | .ofAlias => .aliasRef name []
    | .ofGeneric => .generic name

section Reader

variable (kind : String → NameKind)

mutual

/-- Reads a type up to the next bar. -/
def readTight : (steps : Nat) → Reader Ty
  | 0, _ => none
  | steps + 1, '(' :: rest =>
    match readItems steps rest with
    | some ((params, variadic), ')' :: ' ' :: '-' :: '>' :: ' ' :: rest) =>
      (readFree steps rest).map fun (ret, rest) => (.function params ret variadic [], rest)
    | some (([ty], false), ')' :: rest) => some (suffixed ty rest)
    | _ => none
  | steps + 1, '[' :: rest =>
    match readItems steps rest with
    | some ((elements, _), ']' :: rest) => some (suffixed (.tuple elements) rest)
    | _ => none
  | _ + 1, '"' :: rest =>
    (Text.unquote none rest).map fun (text, rest) =>
      suffixed (.literal (String.ofList text)) rest
  | steps + 1, text =>
    let name := String.ofList (text.takeWhile fun c => !isPunctuation c)
    match text.dropWhile fun c => !isPunctuation c with
    | '<' :: rest =>
      match readItems steps rest with
      | some ((args, _), '>' :: rest) => some (suffixed (.aliasRef name args) rest)
      | _ => none
    | rest => some (suffixed (ofWord kind name) rest)

/-- Reads a type, all alternatives of a union. -/
def readFree : (steps : Nat) → Reader Ty
  | 0, _ => none
  | steps + 1, text =>
    match readTight steps text with
    | none => none
    | some (first, rest) =>
      (readBars steps rest).map fun (others, rest) =>
        (Union.ofAlternatives (first :: others), rest)

/-- Reads the alternatives after the first one. -/
def readBars : (steps : Nat) → Reader (List Ty)
  | 0, _ => none
  | steps + 1, '|' :: rest =>
    match readTight steps rest with
    | none => none
    | some (ty, rest) =>
      (readBars steps rest).map fun (others, rest) => (ty :: others, rest)
  | _ + 1, rest => some ([], rest)

/-- Reads a list of types up to the mark that closes it, and says whether it ends in an
ellipsis. -/
def readItems : (steps : Nat) → Reader (List Ty × Bool)
  | 0, _ => none
  | _ + 1, ')' :: rest => some (([], false), ')' :: rest)
  | _ + 1, ']' :: rest => some (([], false), ']' :: rest)
  | _ + 1, '>' :: rest => some (([], false), '>' :: rest)
  | _ + 1, '.' :: '.' :: '.' :: rest => some (([], true), rest)
  | steps + 1, text =>
    match readFree steps text with
    | some (ty, ',' :: ' ' :: rest) =>
      (readItems steps rest).map fun ((tys, variadic), rest) => ((ty :: tys, variadic), rest)
    | some (ty, rest) => some (([ty], false), rest)
    | none => none

end

end Reader

theorem bareList_eq_map (tys : List Ty) : bareList tys = tys.map bare := by
  induction tys with
  | nil => rfl
  | cons ty tys ih => rw [bareList, ih, List.map_cons]

theorem textsAt_eq_map (shown : Nat) (position : Position) (tys : List Ty) :
    textsAt shown position tys = tys.map (textAt shown position) := by
  induction tys with
  | nil => rfl
  | cons ty tys ih => rw [textsAt, ih, List.map_cons]

/-! ## What may follow a text -/

/-- The text of a type in a tight position is followed by one of these. -/
def Bounded (rest : List Char) : Prop :=
  ∀ c ∈ rest.head?, c ∈ [')', ',', '>', ']', '[', '|']

/-- The text of a type in a free position is followed by one of these. -/
def Ended (rest : List Char) : Prop :=
  ∀ c ∈ rest.head?, c ∈ [')', ',', '>', ']']

/-- A list of types is followed by one of these. -/
def Closed (rest : List Char) : Prop :=
  ∃ c tail, rest = c :: tail ∧ c ∈ [')', '>', ']']

/-- The text can stand in a list of types: it begins with nothing that would end the list. -/
def Opening (text : List Char) : Prop :=
  ∃ c tail, text = c :: tail ∧ c ∉ [')', ']', '>', '.']

theorem Ended.bounded {rest : List Char} (ended : Ended rest) : Bounded rest := by
  intro c first
  have := ended c first
  simp only [List.mem_cons] at this ⊢
  tauto

theorem Closed.ended {rest : List Char} (closed : Closed rest) : Ended rest := by
  obtain ⟨c, tail, rfl, mark⟩ := closed
  intro d first
  obtain rfl : c = d := by simpa using first
  simp only [List.mem_cons] at mark ⊢
  tauto

theorem Opening.append {text : List Char} (opening : Opening text) (rest : List Char) :
    Opening (text ++ rest) := by
  obtain ⟨c, tail, rfl, other⟩ := opening
  exact ⟨c, tail ++ rest, rfl, other⟩

theorem Ended.head_ne {rest : List Char} (ended : Ended rest) : rest.head? ≠ some '[' :=
  fun first => by simpa using ended '[' first

theorem suffixed_of_head_ne {rest : List Char} (other : rest.head? ≠ some '[') (ty : Ty) :
    suffixed ty rest = (ty, rest) := by
  rw [suffixed.eq_def]
  split
  · simp at other
  · rfl

/-- With enough steps the reader gives `found`, a value and what is left of the text. -/
def Reads {α : Type} (reader : Nat → Reader α) (text : List Char) (found : α × List Char) : Prop :=
  ∃ least, ∀ steps, least ≤ steps → reader (steps + 1) text = some found

theorem Reads.later {α : Type} {reader : Nat → Reader α} {text : List Char}
    {found : α × List Char} {least : Nat}
    (h : ∀ steps, least ≤ steps → reader (steps + 2) text = some found) :
    Reads reader text found := by
  refine ⟨least + 1, fun steps enough => ?_⟩
  obtain ⟨steps, rfl⟩ : ∃ n, steps = n + 1 := ⟨steps - 1, by omega⟩
  exact h steps (by omega)

/-! ## One step of the reader -/

section Steps

variable {kind : String → NameKind}

theorem readItems_opening {text : List Char} (opening : Opening text) (steps : Nat) :
    readItems kind (steps + 1) text
      = match readFree kind steps text with
        | some (ty, ',' :: ' ' :: rest) =>
          (readItems kind steps rest).map fun ((tys, variadic), rest) =>
            ((ty :: tys, variadic), rest)
        | some (ty, rest) => some (([ty], false), rest)
        | none => none := by
  obtain ⟨c, tail, rfl, other⟩ := opening
  simp only [List.mem_cons, List.not_mem_nil, or_false, not_or] at other
  obtain ⟨round, square, angle, dot⟩ := other
  rw [readItems.eq_6]
  · rintro rest h; exact round (List.cons.inj h).1
  · rintro rest h; exact square (List.cons.inj h).1
  · rintro rest h; exact angle (List.cons.inj h).1
  · rintro rest h; exact dot (List.cons.inj h).1

/-- One type up to the mark that ends the list. -/
theorem reads_last {text rest : List Char} {ty : Ty} (opening : Opening text)
    (closed : Closed rest) (h : Reads (readFree kind) text (ty, rest)) :
    Reads (readItems kind) text (([ty], false), rest) := by
  obtain ⟨least, read⟩ := h
  obtain ⟨c, tail, rfl, mark⟩ := closed
  refine .later fun steps (enough : least ≤ steps) => ?_
  rw [readItems_opening opening, read steps (by omega)]
  split
  · simp_all
  · simp_all
  · simp_all

theorem reads_more {text rest : List Char} {ty : Ty} {found : (List Ty × Bool) × List Char}
    (opening : Opening text) (first : Reads (readFree kind) text (ty, ',' :: ' ' :: rest))
    (others : Reads (readItems kind) rest found) :
    Reads (readItems kind) text ((ty :: found.1.1, found.1.2), found.2) := by
  obtain ⟨least, read⟩ := first
  obtain ⟨least', read'⟩ := others
  refine .later fun steps (enough : max least least' ≤ steps) => ?_
  rw [readItems_opening opening, read steps (by omega)]
  simp [read' steps (by omega)]

theorem reads_none {rest : List Char} (closed : Closed rest) :
    Reads (readItems kind) rest (([], false), rest) := by
  obtain ⟨c, tail, rfl, mark⟩ := closed
  refine ⟨0, fun steps _ => ?_⟩
  simp only [List.mem_cons, List.not_mem_nil, or_false] at mark
  obtain rfl | rfl | rfl := mark <;> rw [readItems]

theorem reads_ellipsis (rest : List Char) :
    Reads (readItems kind) ('.' :: '.' :: '.' :: rest) (([], true), rest) :=
  ⟨0, fun steps _ => by rw [readItems]⟩

theorem readBars_ended {rest : List Char} (ended : Ended rest) (steps : Nat) :
    readBars kind (steps + 1) rest = some ([], rest) := by
  rw [readBars.eq_def]
  split
  · contradiction
  · simpa using ended '|' (by simp)
  · rfl

theorem reads_alone {text rest : List Char} {ty : Ty} (ended : Ended rest)
    (h : Reads (readTight kind) text (suffixed ty rest)) :
    Reads (readFree kind) text (ty, rest) := by
  obtain ⟨least, read⟩ := h
  refine .later fun steps (enough : least ≤ steps) => ?_
  rw [readFree, read steps enough, suffixed_of_head_ne ended.head_ne]
  simp [readBars_ended ended, Union.ofAlternatives]

/-- Parentheses around a type, which nothing follows that would make it a list of parameters. -/
theorem reads_grouped {text rest : List Char} {ty : Ty} (bounded : Bounded rest)
    (h : Reads (readItems kind) (text ++ ')' :: rest) (([ty], false), ')' :: rest)) :
    Reads (readTight kind) ('(' :: text ++ ')' :: rest) (suffixed ty rest) := by
  obtain ⟨least, read⟩ := h
  refine .later fun steps (enough : least ≤ steps) => ?_
  rw [List.cons_append, readTight, read steps (by omega)]
  split
  · rename_i heq
    simp only [Option.some.injEq, Prod.mk.injEq, List.cons.injEq, true_and] at heq
    simpa [heq.2] using bounded ' '
  · simp_all
  · simp_all

theorem reads_function {text result rest : List Char} {params : List Ty} {ret : Ty}
    {variadic : Bool}
    (list : Reads (readItems kind) (text ++ ')' :: ' ' :: '-' :: '>' :: ' ' :: (result ++ rest))
      ((params, variadic), ')' :: ' ' :: '-' :: '>' :: ' ' :: (result ++ rest)))
    (value : Reads (readFree kind) (result ++ rest) (ret, rest)) :
    Reads (readTight kind) ('(' :: text ++ ')' :: ' ' :: '-' :: '>' :: ' ' :: (result ++ rest))
      (.function params ret variadic [], rest) := by
  obtain ⟨least, read⟩ := list
  obtain ⟨least', read'⟩ := value
  refine .later fun steps (enough : max least least' ≤ steps) => ?_
  rw [List.cons_append, readTight, read steps (by omega)]
  simp [read' steps (by omega)]

theorem reads_tuple {text rest : List Char} {elements : List Ty}
    (list : Reads (readItems kind) (text ++ ']' :: rest) ((elements, false), ']' :: rest)) :
    Reads (readTight kind) ('[' :: text ++ ']' :: rest) (suffixed (.tuple elements) rest) := by
  obtain ⟨least, read⟩ := list
  refine .later fun steps (enough : least ≤ steps) => ?_
  rw [List.cons_append, readTight, read steps (by omega)]
  rfl

theorem reads_literal (text : String) (rest : List Char) :
    Reads (readTight kind) ((Text.quoted text).toList ++ rest) (suffixed (.literal text) rest) := by
  refine ⟨0, fun steps _ => ?_⟩
  have shape : (Text.quoted text).toList ++ rest
      = '"' :: (text.toList.flatMap Text.quoteChar ++ '"' :: rest) := by
    simp [Text.quoted]
  rw [shape, readTight, Text.unquote_quoted]
  simp

theorem Unbroken.of_mem {name : String} (unbroken : Unbroken name) {c : Char}
    (mem : c ∈ name.toList) : isPunctuation c = false := by
  simpa using List.any_eq_false.mp unbroken c mem

theorem span_word {name : String} (unbroken : Unbroken name) {rest : List Char}
    (stop : ∀ c ∈ rest.head?, isPunctuation c = true) :
    (name.toList ++ rest).takeWhile (fun c => !isPunctuation c) = name.toList ∧
      (name.toList ++ rest).dropWhile (fun c => !isPunctuation c) = rest := by
  have inside : ∀ c ∈ name.toList, (!isPunctuation c) = true := by
    intro c mem
    rw [unbroken.of_mem mem, Bool.not_false]
  rw [List.takeWhile_append_of_pos inside, List.dropWhile_append_of_pos inside]
  cases rest with
  | nil => simp
  | cons c tail => simp [stop c rfl]

theorem readTight_word {name : String} (nonempty : name ≠ "")
    (unbroken : Unbroken name) (rest : List Char) (steps : Nat) :
    (∀ c ∈ rest.head?, isPunctuation c = true) →
    readTight kind (steps + 1) (name.toList ++ rest)
      = match rest with
        | '<' :: rest =>
          match readItems kind steps rest with
          | some ((args, _), '>' :: rest) => some (suffixed (.aliasRef name args) rest)
          | _ => none
        | rest => some (suffixed (ofWord kind name) rest) := by
  intro stop
  obtain ⟨before, after⟩ := span_word unbroken stop
  obtain ⟨c, tail, shape⟩ : ∃ c tail, name.toList = c :: tail :=
    List.exists_cons_of_ne_nil (by simpa using nonempty)
  have plain : isPunctuation c = false := unbroken.of_mem (by simp [shape])
  rw [readTight.eq_5, before, after, String.ofList_toList]
  all_goals
    intro text same
    rw [shape] at same
    rw [(List.cons.inj same).1] at plain
    simp [isPunctuation] at plain

theorem reads_word {name : String} (nonempty : name ≠ "")
    (unbroken : Unbroken name) {rest : List Char}
    (bounded : Bounded rest) :
    Reads (readTight kind) (name.toList ++ rest) (suffixed (ofWord kind name) rest) := by
  have stop : ∀ c ∈ rest.head?, isPunctuation c = true := by
    intro c first
    have mark := bounded c first
    simp only [List.mem_cons, List.not_mem_nil, or_false] at mark
    obtain rfl | rfl | rfl | rfl | rfl | rfl := mark <;> rfl
  refine ⟨0, fun steps _ => ?_⟩
  rw [readTight_word nonempty unbroken rest steps stop]
  split
  · simpa using bounded '<' rfl
  · rfl

theorem reads_applied {name : String} (word : IsWord name) {text rest : List Char}
    {args : List Ty}
    (list : Reads (readItems kind) (text ++ '>' :: rest) ((args, false), '>' :: rest)) :
    Reads (readTight kind) (name.toList ++ '<' :: text ++ '>' :: rest)
      (suffixed (.aliasRef name args) rest) := by
  obtain ⟨least, read⟩ := list
  refine .later fun steps (enough : least ≤ steps) => ?_
  rw [List.append_assoc, List.cons_append,
    readTight_word word.nonempty word.unbroken _ _ (by simp [isPunctuation])]
  simp [read steps enough]

end Steps

/-! ## Whole texts -/

/-- The characters of the text of a type. -/
def charsAt (position : Position) (ty : Ty) : List Char :=
  (textAt defaultShown position ty).toList

/-- The reader gets the type back from its text in either position. -/
structure ReadsBack (kind : String → NameKind) (ty : Ty) : Prop where
  opening : ∀ position, Opening (charsAt position ty)
  tight : ∀ rest, Bounded rest →
    Reads (readTight kind) (charsAt .tight ty ++ rest) (suffixed ty.bare rest)
  free : ∀ rest, Ended rest → Reads (readFree kind) (charsAt .free ty ++ rest) (ty.bare, rest)

section Whole

variable {kind : String → NameKind}

theorem ReadsBack.ofTight {ty : Ty} (same : charsAt .free ty = charsAt .tight ty)
    (opening : Opening (charsAt .tight ty))
    (tight : ∀ rest, Bounded rest →
      Reads (readTight kind) (charsAt .tight ty ++ rest) (suffixed ty.bare rest)) :
    ReadsBack kind ty where
  opening
    | .free => same ▸ opening
    | .tight => opening
  tight := tight
  free rest ended := same ▸ reads_alone ended (tight rest ended.bounded)

theorem ReadsBack.ofFree {ty : Ty} (grouped : charsAt .tight ty = '(' :: charsAt .free ty ++ [')'])
    (opening : Opening (charsAt .free ty))
    (free : ∀ rest, Ended rest → Reads (readFree kind) (charsAt .free ty ++ rest) (ty.bare, rest)) :
    ReadsBack kind ty where
  opening
    | .free => opening
    | .tight => grouped ▸ ⟨_, _, rfl, by decide⟩
  tight rest bounded := by
    have closed : Closed (')' :: rest) := ⟨')', rest, rfl, by decide⟩
    have inner := reads_last (opening.append _) closed (free (')' :: rest) closed.ended)
    have read := reads_grouped bounded inner
    rwa [grouped, List.append_assoc, List.singleton_append]
  free := free

/-- The texts of a list of types with commas between them, and an ellipsis at the end of some. -/
theorem reads_items {tys : List Ty} (each : ∀ ty ∈ tys, ReadsBack kind ty) (variadic : Bool)
    {rest : List Char} (closed : Closed rest) :
    Reads (readItems kind)
      ((", ".intercalate (textsAt defaultShown .free tys
        ++ if variadic then ["..."] else [])).toList ++ rest)
      ((bareList tys, variadic), rest) := by
  rw [textsAt_eq_map, bareList_eq_map, String.toList_intercalate]
  induction tys with
  | nil =>
    cases variadic with
    | false => exact reads_none closed
    | true => exact reads_ellipsis rest
  | cons ty tys ih =>
    have head := each ty List.mem_cons_self
    have tail := ih fun ty mem => each ty (List.mem_cons_of_mem _ mem)
    generalize texts : tys.map (textAt defaultShown .free) ++ (if variadic then ["..."] else [])
      = others at tail
    rw [List.map_cons, List.cons_append, texts]
    cases others with
    | nil =>
      obtain ⟨none, plain⟩ : tys = [] ∧ variadic = false := by
        cases variadic <;> simp_all
      subst none plain
      have last := reads_last ((head.opening .free).append rest) closed
        (head.free rest closed.ended)
      rwa [List.map_cons, List.map_nil, List.intercalate_singleton]
    | cons next others =>
      have comma : Ended (", ".toList ++ (", ".toList.intercalate
          ((next :: others).map String.toList) ++ rest)) := by
        simp [Ended]
      have more := reads_more ((head.opening .free).append _) (head.free _ comma) tail
      rwa [List.map_cons, List.map_cons, List.intercalate_cons_cons, List.append_assoc,
        List.append_assoc, List.map_cons]

/-- The alternatives after the first one as they are written, each behind a bar. -/
def barred (alts : List Ty) : List Char := alts.flatMap fun alt => '|' :: charsAt .tight alt

theorem ReadsBack.alternative {alt : Ty} (h : ReadsBack kind alt) (later : List Ty)
    {rest : List Char} (ended : Ended rest) :
    Reads (readTight kind) (charsAt .tight alt ++ (barred later ++ rest))
      (alt.bare, barred later ++ rest) := by
  cases later with
  | nil =>
    have read := h.tight rest ended.bounded
    rwa [suffixed_of_head_ne ended.head_ne] at read
  | cons next later =>
    have read := h.tight (barred (next :: later) ++ rest) (by simp [Bounded, barred])
    rwa [suffixed_of_head_ne (by simp [barred])] at read

theorem reads_bars {alts : List Ty} (each : ∀ alt ∈ alts, ReadsBack kind alt) {rest : List Char}
    (ended : Ended rest) :
    Reads (readBars kind) (barred alts ++ rest)
      (alts.map bare, rest) := by
  induction alts with
  | nil => exact ⟨0, fun steps _ => readBars_ended ended steps⟩
  | cons alt alts ih =>
    have others := ih fun ty mem => each ty (List.mem_cons_of_mem _ mem)
    have first := (each alt List.mem_cons_self).alternative alts ended
    obtain ⟨least, read⟩ := first
    obtain ⟨least', read'⟩ := others
    refine .later fun steps (enough : max least least' ≤ steps) => ?_
    rw [barred, List.flatMap_cons, List.append_assoc, List.cons_append, readBars, ← barred,
      read steps (by omega)]
    simp [read' steps (by omega)]

theorem reads_union {first : Ty} {others : List Ty} (head : ReadsBack kind first)
    (each : ∀ alt ∈ others, ReadsBack kind alt) {rest : List Char} (ended : Ended rest) :
    Reads (readFree kind)
      (charsAt .tight first ++ (barred others ++ rest))
      (Union.ofAlternatives (first.bare :: others.map bare), rest) := by
  obtain ⟨least, read⟩ := head.alternative others ended
  obtain ⟨least', read'⟩ := reads_bars each ended
  refine .later fun steps (enough : max least least' ≤ steps) => ?_
  rw [readFree, read steps (by omega)]
  simp [read' steps (by omega)]

theorem opening_word {name : String} (nonempty : name ≠ "")
    (unbroken : Unbroken name) : Opening name.toList := by
  obtain ⟨c, tail, shape⟩ : ∃ c tail, name.toList = c :: tail :=
    List.exists_cons_of_ne_nil (by simpa using nonempty)
  have plain : isPunctuation c = false := unbroken.of_mem (by simp [shape])
  refine ⟨c, tail, shape, fun mark => ?_⟩
  simp only [List.mem_cons, List.not_mem_nil, or_false] at mark
  obtain rfl | rfl | rfl | rfl := mark <;> simp [isPunctuation] at plain

/-- A type whose text is a name, which stands for it. -/
theorem ReadsBack.ofWord {ty : Ty} (name : String)
    (text : ∀ position, charsAt position ty = name.toList) (nonempty : name ≠ "")
    (unbroken : Unbroken name)
    (meaning : Ty.ofWord kind name = ty.bare) : ReadsBack kind ty := by
  refine .ofTight (by rw [text, text]) ?_ fun rest bounded => ?_
  · rw [text]
    exact opening_word nonempty unbroken
  · rw [text, ← meaning]
    exact reads_word nonempty unbroken bounded

theorem ofWord_of_isWord {name : String} (word : IsWord name) :
    Ty.ofWord kind name
      = match kind name with
        | .ofClass => classRef name
        | .ofAlias => .aliasRef name []
        | .ofGeneric => .generic name := by
  have free := word.free
  simp only [List.mem_cons, List.not_mem_nil, or_false, not_or] at free
  simp [Ty.ofWord, free]

theorem ReadsBack.ofApplied {name : String} {arg : Ty} {args : List Ty} (word : IsWord name)
    (each : ∀ ty ∈ arg :: args, ReadsBack kind ty) :
    ReadsBack kind (.aliasRef name (arg :: args)) := by
  have text : ∀ position, charsAt position (.aliasRef name (arg :: args))
      = name.toList ++ '<' ::
          (", ".intercalate (textsAt defaultShown .free (arg :: args))).toList ++ ['>'] := by
    intro position
    simp [charsAt, textAt]
  refine .ofTight (by rw [text, text]) ?_ fun rest bounded => ?_
  · rw [text, List.append_assoc]
    exact (opening_word word.nonempty word.unbroken).append _
  · have closed : Closed ('>' :: rest) := ⟨'>', rest, rfl, by decide⟩
    have list := reads_items each false closed
    have read := reads_applied word list
    rw [text, bare, List.append_assoc, List.singleton_append]
    simpa using read

theorem ReadsBack.ofTuple {elements : List Ty} (each : ∀ ty ∈ elements, ReadsBack kind ty) :
    ReadsBack kind (.tuple elements) := by
  have text : ∀ position, charsAt position (.tuple elements)
      = '[' :: (", ".intercalate (textsAt defaultShown .free elements)).toList ++ [']'] := by
    intro position
    simp [charsAt, textAt]
  refine .ofTight (by rw [text, text]) ?_ fun rest bounded => ?_
  · rw [text]
    exact ⟨_, _, rfl, by decide⟩
  · have closed : Closed (']' :: rest) := ⟨']', rest, rfl, by decide⟩
    have list := reads_items each false closed
    have read := reads_tuple list
    rw [text, bare, List.append_assoc, List.singleton_append]
    simpa using read

theorem ReadsBack.ofArray {element : Ty} (h : ReadsBack kind element) :
    ReadsBack kind (.array element) := by
  have text : ∀ position, charsAt position (.array element)
      = charsAt .tight element ++ ['[', ']'] := by
    intro position
    simp [charsAt, textAt]
  refine .ofTight (by rw [text, text]) ?_ fun rest bounded => ?_
  · rw [text]
    exact (h.opening .tight).append _
  · have read := h.tight ('[' :: ']' :: rest) (by simp [Bounded])
    rw [text, bare, List.append_assoc]
    exact read

theorem ReadsBack.ofFunction {params : List Ty} {ret : Ty} (variadic : Bool)
    (each : ∀ ty ∈ params, ReadsBack kind ty) (result : ReadsBack kind ret) :
    ReadsBack kind (.function params ret variadic []) := by
  have text : charsAt .free (.function params ret variadic [])
      = '(' :: (", ".intercalate (textsAt defaultShown .free params
          ++ if variadic then ["..."] else [])).toList
        ++ ')' :: ' ' :: '-' :: '>' :: ' ' :: charsAt .free ret := by
    simp [charsAt, textAt, parenthesize]
  refine .ofFree (by simp [charsAt, textAt, parenthesize]) ?_ fun rest ended => ?_
  · rw [text]
    exact ⟨_, _, rfl, by decide⟩
  · have closed : Closed (')' :: ' ' :: '-' :: '>' :: ' ' :: (charsAt .free ret ++ rest)) :=
      ⟨')', _, rfl, by decide⟩
    have list := reads_items each variadic closed
    have read := reads_function list (result.free rest ended)
    rw [← suffixed_of_head_ne ended.head_ne] at read
    have whole := reads_alone ended read
    rw [text, bare]
    simpa using whole

theorem toList_intercalate_bar (alt : Ty) (alts : List Ty) :
    ("|".intercalate (textsAt defaultShown .tight (alt :: alts))).toList
      = charsAt .tight alt ++ barred alts := by
  rw [textsAt_eq_map, String.toList_intercalate]
  induction alts generalizing alt with
  | nil => simp [barred, charsAt]
  | cons next alts ih =>
    rw [List.map_cons, List.map_cons, List.map_cons, List.map_cons, List.intercalate_cons_cons,
      ← List.map_cons, ← List.map_cons, ih next]
    simp [barred, charsAt]

theorem ReadsBack.ofUnion {first second : Ty} {others : List Ty}
    (shown : (first :: second :: others).length ≤ defaultShown)
    (each : ∀ ty ∈ first :: second :: others, ReadsBack kind ty) :
    ReadsBack kind (.union (first :: second :: others)) := by
  have head := each first List.mem_cons_self
  have whole : joinAlternatives defaultShown
      (textsAt defaultShown .tight (first :: second :: others))
        = "|".intercalate (textsAt defaultShown .tight (first :: second :: others)) :=
    if_neg (by rw [textsAt_eq_map, List.length_map]; omega)
  have text : charsAt .free (.union (first :: second :: others))
      = charsAt .tight first ++ barred (second :: others) := by
    rw [charsAt, textAt, whole]
    exact toList_intercalate_bar first (second :: others)
  refine .ofFree (by simp [charsAt, textAt, parenthesize]) ?_ fun rest ended => ?_
  · rw [text]
    exact (head.opening .tight).append _
  · have read := reads_union head (fun ty mem => each ty (List.mem_cons_of_mem _ mem)) ended
    rw [text, bare, bareList_eq_map, List.append_assoc]
    exact read

/-- Every legible type is read back from its text. -/
theorem Legible.readsBack {ty : Ty} (h : Legible kind ty) : ReadsBack kind ty := by
  induction h with
  | unknown => exact .ofWord "unknown" (fun _ => rfl) (by decide) rfl rfl
  | nil => exact .ofWord "nil" (fun _ => rfl) (by decide) rfl rfl
  | boolean => exact .ofWord "boolean" (fun _ => rfl) (by decide) rfl rfl
  | number => exact .ofWord "number" (fun _ => rfl) (by decide) rfl rfl
  | string => exact .ofWord "string" (fun _ => rfl) (by decide) rfl rfl
  | literal text =>
    refine .ofTight rfl ⟨_, _, String.toList_ofList, by decide⟩ fun rest bounded => ?_
    exact reads_literal text rest
  | named supers members word use =>
    refine .ofWord _ (fun _ => rfl) word.nonempty word.unbroken ?_
    rw [ofWord_of_isWord word, use]
    rfl
  | generic word use =>
    refine .ofWord _ (fun _ => rfl) word.nonempty word.unbroken ?_
    rw [ofWord_of_isWord word, use]
    rfl
  | @aliasRef name args word use _ ih =>
    cases args with
    | nil =>
      refine .ofWord _ (fun _ => rfl) word.nonempty word.unbroken ?_
      rw [ofWord_of_isWord word, use]
      rfl
    | cons arg args => exact .ofApplied word ih
  | array _ ih => exact .ofArray ih
  | tuple _ ih => exact .ofTuple ih
  | function variadic _ _ each result => exact .ofFunction variadic each result
  | @union alts several shown _ ih =>
    match alts, several with
    | first :: second :: others, _ => exact .ofUnion shown ih

/-- Two legible types with one text are the same type, but for what their classes hold. -/
theorem bare_eq_of_format_eq {a b : Ty} (ha : Legible kind a) (hb : Legible kind b)
    (same : a.format = b.format) : a.bare = b.bare := by
  obtain ⟨least, read⟩ := ha.readsBack.free [] (by simp [Ended])
  obtain ⟨least', read'⟩ := hb.readsBack.free [] (by simp [Ended])
  have chars : charsAt .free a = charsAt .free b := congrArg String.toList same
  have readA := read (max least least') (by omega)
  have readB := read' (max least least') (by omega)
  rw [chars, readB] at readA
  simpa using readA.symm

end Whole

/-- A variadic function from points, as an element of an array and beside a text with a quote in
it. -/
def pointCallbacks (supers : List String) : Ty :=
  .union [.array (.function [.named "Point" supers [], .aliasRef "Pair" [.generic "T", .nil]]
    (.union [.number, .tuple []]) true []), .literal "a\"|b"]

/-- The name of a point is that of a class, a pair is an alias, and the rest are type parameters. -/
def pointNames (name : String) : NameKind :=
  if name = "Point" then .ofClass else if name = "Pair" then .ofAlias else .ofGeneric

theorem legible_pointCallbacks (supers : List String) :
    Legible pointNames (pointCallbacks supers) := by
  have point : IsWord "Point" := ⟨by decide, rfl, by decide⟩
  have pair : IsWord "Pair" := ⟨by decide, rfl, by decide⟩
  have parameter : IsWord "T" := ⟨by decide, rfl, by decide⟩
  have args : ∀ arg ∈ [.generic "T", .nil], Legible pointNames arg := by
    simpa using ⟨.generic parameter rfl, .nil⟩
  have params : ∀ param ∈ [.named "Point" supers [], .aliasRef "Pair" [.generic "T", .nil]],
      Legible pointNames param := by
    simpa using ⟨.named supers [] point rfl, .aliasRef pair rfl args⟩
  have results : ∀ alt ∈ [.number, .tuple []], Legible pointNames alt := by
    simpa using ⟨.number, .tuple (by simp)⟩
  have result : Legible pointNames (.union [.number, .tuple []]) :=
    .union (by decide) (by decide) results
  refine .union (by simp) (by simp [defaultShown]) ?_
  simpa using ⟨.array (.function true params result), .literal _⟩

theorem pointCallbacks_bare_eq :
    (pointCallbacks ["Base"]).format = "((Point, Pair<T, nil>, ...) -> number|[])[]|\"a\\\"|b\"" ∧
      (pointCallbacks []).format = (pointCallbacks ["Base"]).format ∧
      (pointCallbacks []).bare = (pointCallbacks ["Base"]).bare :=
  ⟨by decide +kernel, by decide +kernel, bare_eq_of_format_eq (legible_pointCallbacks [])
    (legible_pointCallbacks ["Base"]) (by decide +kernel)⟩

end LuaTyping.Ty
