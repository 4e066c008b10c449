import LuaTyping.OptionFile.Comments
import Mathlib.Data.List.Chain

/-!
# What stripping leaves of a laid out JSON text

A JSON value is written as a sequence of tokens, and an option file lays the tokens out: blanks and
comments may stand anywhere between them, and an extra comma before a closing bracket. Stripping the
text leaves the tokens as they are, with nothing but blanks around them (`strip_layout`).

Two scanners have to agree for that. One drops the comments, the other looks ahead from a comma for
the next significant character. Both run the same automaton over a comment, so where the comment
ends is said once (`Comment.Ends`), and each of them passes over any filler in one step. A comma is
then dropped just if the next token closes a bracket, which in a JSON value the token after a comma
never does.
-/

set_option autoImplicit false

namespace LuaTyping.OptionFile

/-! ## JSON as a sequence of tokens -/

/-- One character of a string literal, or a backslash with the character that it escapes. -/
inductive Piece where
  | plain (c : Char) (unmarked : c ≠ '"' ∧ c ≠ '\\')
  | escaped (c : Char)

def Piece.chars : Piece → List Char
  | .plain c _ => [c]
  | .escaped c => ['\\', c]

/-- The characters that numbers, truth values and null are made of. -/
def isWordChar (c : Char) : Bool :=
  c.isAlphanum || c == '+' || c == '-' || c == '.'

structure Word where
  first : Char
  others : List Char
  made : ∀ c ∈ first :: others, isWordChar c = true

inductive Bracket where
  | square
  | curly

inductive Token where
  | opening (bracket : Bracket)
  | closing (bracket : Bracket)
  | colon
  | comma
  | scalar (word : Word)
  | text (pieces : List Piece)

namespace Token

def chars : Token → List Char
  | .opening .square => ['[']
  | .opening .curly => ['\x7b']
  | .closing .square => [']']
  | .closing .curly => ['\x7d']
  | .colon => [':']
  | .comma => [',']
  | .scalar word => word.first :: word.others
  | .text pieces => '"' :: (pieces.flatMap Piece.chars ++ ['"'])

def isClosing : Token → Bool
  | .closing _ => true
  | _ => false

end Token

inductive JsonValue where
  | scalar (word : Word)
  | text (pieces : List Piece)
  | array (items : List JsonValue)
  | object (members : List (List Piece × JsonValue))

namespace JsonValue

mutual

/-- The tokens that a value is written with. -/
def tokens : JsonValue → List Token
  | .scalar word => [.scalar word]
  | .text pieces => [.text pieces]
  | .array [] => [.opening .square, .closing .square]
  | .array (item :: items) =>
    .opening .square :: (item.tokens ++ (itemTokens items ++ [.closing .square]))
  | .object [] => [.opening .curly, .closing .curly]
  | .object ((key, value) :: members) =>
    .opening .curly :: .text key :: .colon ::
      (value.tokens ++ (memberTokens members ++ [.closing .curly]))

/-- The items after the first, each with the comma before it. -/
def itemTokens : List JsonValue → List Token
  | [] => []
  | item :: items => .comma :: (item.tokens ++ itemTokens items)

/-- The members after the first, each with the comma before it. -/
def memberTokens : List (List Piece × JsonValue) → List Token
  | [] => []
  | (key, value) :: members =>
    .comma :: .text key :: .colon :: (value.tokens ++ memberTokens members)

end

end JsonValue

/-! ## Laying tokens out -/

/-- What may stand between tokens. -/
inductive Filler where
  | blank (c : Char) (isBlank : Text.isBlank c = true)
  /-- A comment up to the end of its line. -/
  | line (body : List Char) (oneLine : '\n' ∉ body)
  /-- A comment up to the first `*/` after it begins. -/
  | block (body : List Char) (unclosed : ¬ ['*', '/'] <:+: body)

namespace Filler

def chars : Filler → List Char
  | .blank c _ => [c]
  | .line body _ => '/' :: '/' :: (body ++ ['\n'])
  | .block body _ => '/' :: '*' :: (body ++ ['*', '/'])

/-- What is left of the filler: a blank stays, and of a comment the line breaks. -/
def left : Filler → List Char
  | .blank c _ => [c]
  | .line _ _ => ['\n']
  | .block body _ => body.filter (· = '\n')

end Filler

/-- A token with what stands before it. -/
structure Slot where
  before : List Filler
  /-- An extra comma before a closing bracket, given by what stands between the two. -/
  extra : Option (List Filler)
  token : Token
  extraCloses : extra.isSome = true → token.isClosing = true

namespace Slot

def chars (slot : Slot) : List Char :=
  slot.before.flatMap Filler.chars ++
    match slot.extra with
    | some between => ',' :: (between.flatMap Filler.chars ++ slot.token.chars)
    | none => slot.token.chars

def left (slot : Slot) : List Char :=
  slot.before.flatMap Filler.left ++ (slot.extra.getD []).flatMap Filler.left ++ slot.token.chars

end Slot

/-- A text made of tokens and what stands around them. -/
structure Layout where
  slots : List Slot
  after : List Filler
  /-- The body of a line comment at the very end, where no line break follows. -/
  last : Option { body : List Char // '\n' ∉ body }

namespace Layout

def tokens (layout : Layout) : List Token :=
  layout.slots.map Slot.token

/-- The line comment that the end of the text cuts off, if there is one. -/
def cutOff (layout : Layout) : List Char :=
  match layout.last with
  | some body => '/' :: '/' :: body.val
  | none => []

def source (layout : Layout) : String :=
  String.ofList
    (layout.slots.flatMap Slot.chars ++ (layout.after.flatMap Filler.chars ++ layout.cutOff))

/-- The text with everything dropped that is neither token nor blank, line breaks apart. -/
def left (layout : Layout) : List Char :=
  layout.slots.flatMap Slot.left ++ layout.after.flatMap Filler.left

end Layout

/-- The text is made of the tokens in their order, with nothing but blanks around them. -/
inductive Spells : List Token → List Char → Prop
  | done {blanks : List Char} (isBlank : ∀ c ∈ blanks, Text.isBlank c = true) : Spells [] blanks
  | token {blanks : List Char} (isBlank : ∀ c ∈ blanks, Text.isBlank c = true) (token : Token)
      {tokens : List Token} {rest : List Char} (others : Spells tokens rest) :
      Spells (token :: tokens) (blanks ++ token.chars ++ rest)

/-! ## Passing over a comment -/

/-- The comment ends with the last of the characters and not before. -/
inductive Comment.Ends : Comment → List Char → Prop
  | last {comment : Comment} {c : Char} (ended : comment.next? c = none) : Ends comment [c]
  | next {comment within : Comment} {c : Char} {cs : List Char}
      (goesOn : comment.next? c = some within) (ends : Ends within cs) : Ends comment (c :: cs)

theorem Comment.ends_line {body : List Char} (oneLine : '\n' ∉ body) :
    Comment.Ends .line (body ++ ['\n']) := by
  induction body with
  | nil => exact .last rfl
  | cons c body ih =>
    obtain ⟨other, oneLine⟩ := not_or.mp (mt List.mem_cons.mpr oneLine)
    exact .next (if_neg (Ne.symm other)) (ih oneLine)

theorem Comment.ends_block {body : List Char} {afterStar : Bool}
    (unclosed : ¬ ['*', '/'] <:+: (if afterStar then ['*'] else []) ++ body) :
    Comment.Ends (.block afterStar) (body ++ ['*', '/']) := by
  induction body generalizing afterStar with
  | nil =>
    have goesOn : (Comment.block afterStar).next? '*' = some (.block true) := by
      cases afterStar <;> rfl
    exact .next goesOn (.last rfl)
  | cons c body ih =>
    have unended : (afterStar && decide (c = '/')) = false := by
      refine Bool.eq_false_iff.mpr fun closes => unclosed ?_
      obtain ⟨rfl, rfl⟩ : afterStar = true ∧ c = '/' := by simpa using closes
      exact ⟨[], body, rfl⟩
    have goesOn : (Comment.block afterStar).next? c = some (.block (c = '*')) := by
      simp [Comment.next?, unended]
    refine .next goesOn (ih fun inside => unclosed ?_)
    have inBody : ['*', '/'] <:+: c :: body := by
      by_cases star : c = '*'
      · rw [star]
        rwa [decide_eq_true star, if_pos rfl] at inside
      · simp only [star, decide_false, Bool.false_eq_true, if_false, List.nil_append] at inside
        exact inside.trans (List.suffix_cons c body).isInfix
    exact inBody.trans (List.suffix_append _ _).isInfix

theorem stripFrom_comment {comment : Comment} {cs : List Char} (ends : comment.Ends cs)
    (rest : List Char) :
    stripFrom (.comment comment) (cs ++ rest) = cs.filter (· = '\n') ++ stripFrom .plain rest := by
  induction ends with
  | @last comment c ended =>
    simp only [List.singleton_append, stripFrom, ended]
    by_cases newline : c = '\n' <;> simp [newline]
  | @next comment within c cs goesOn _ ih =>
    simp only [List.cons_append, stripFrom, goesOn, ih]
    by_cases newline : c = '\n' <;> simp [newline]

theorem nextSignificant?_comment {comment : Comment} {cs : List Char} (ends : comment.Ends cs)
    (rest : List Char) :
    nextSignificant? (some comment) (cs ++ rest) = nextSignificant? none rest := by
  induction ends with
  | last ended => simp [nextSignificant?, ended]
  | next goesOn _ ih => simp [nextSignificant?, goesOn, ih]

/-- A line comment that is cut off by the end of the text leaves nothing. -/
theorem stripFrom_line {body : List Char} (oneLine : '\n' ∉ body) :
    stripFrom (.comment .line) body = [] := by
  induction body with
  | nil => rfl
  | cons c body ih =>
    obtain ⟨other, oneLine⟩ := not_or.mp (mt List.mem_cons.mpr oneLine)
    simp [stripFrom, Comment.next?, Ne.symm other, ih oneLine]

theorem nextSignificant?_line {body : List Char} (oneLine : '\n' ∉ body) :
    nextSignificant? (some .line) body = none := by
  induction body with
  | nil => rfl
  | cons c body ih =>
    obtain ⟨other, oneLine⟩ := not_or.mp (mt List.mem_cons.mpr oneLine)
    simp [nextSignificant?, Comment.next?, Ne.symm other, ih oneLine]

/-! ## Passing over a character, a filler and a token -/

/-- The character opens no comment and no string, and is no comma. -/
structure Ordinary (c : Char) : Prop where
  noSlash : c ≠ '/'
  noQuote : c ≠ '"'
  noComma : c ≠ ','

theorem Comment.opened?_eq_none {c : Char} (noSlash : c ≠ '/') (d : Char) :
    Comment.opened? c d = none := by
  unfold Comment.opened?
  split
  · exact absurd rfl noSlash
  · exact absurd rfl noSlash
  · rfl

theorem stripFrom_ordinary {c : Char} (ordinary : Ordinary c) (rest : List Char) :
    stripFrom .plain (c :: rest) = c :: stripFrom .plain rest := by
  cases rest with
  | nil => rfl
  | cons d rest =>
    simp [stripFrom, Comment.opened?_eq_none ordinary.noSlash, ordinary.noQuote, ordinary.noComma]

theorem stripFrom_comma (rest : List Char) :
    stripFrom .plain (',' :: rest)
      = if closesNext rest then stripFrom .plain rest else ',' :: stripFrom .plain rest := by
  cases rest with
  | nil => rfl
  | cons d rest => simp [stripFrom, Comment.opened?_eq_none (c := ',') (by decide)]

theorem stripFrom_quote (rest : List Char) :
    stripFrom .plain ('"' :: rest) = '"' :: stripFrom (.quoted false) rest := by
  cases rest with
  | nil => rfl
  | cons d rest => simp [stripFrom, Comment.opened?_eq_none (c := '"') (by decide)]

theorem ordinary_of_isBlank {c : Char} (isBlank : Text.isBlank c = true) : Ordinary c := by
  refine ⟨?_, ?_, ?_⟩ <;> rintro rfl <;> cases isBlank

theorem ordinary_of_isWordChar {c : Char} (isWordChar : isWordChar c = true) : Ordinary c := by
  refine ⟨?_, ?_, ?_⟩ <;> rintro rfl <;> cases isWordChar

namespace Filler

theorem isBlank_left (filler : Filler) : ∀ c ∈ filler.left, Text.isBlank c = true := by
  intro c mem
  cases filler with
  | blank d isBlank => rwa [List.mem_singleton.mp mem]
  | line body oneLine => rw [List.mem_singleton.mp mem]; rfl
  | block body unclosed =>
    obtain ⟨-, newline⟩ := List.mem_filter.mp mem
    rw [of_decide_eq_true newline]
    rfl

theorem ends_block {body : List Char} (unclosed : ¬ ['*', '/'] <:+: body) :
    (Comment.block false).Ends (body ++ ['*', '/']) :=
  Comment.ends_block unclosed

theorem stripFrom_chars (filler : Filler) (rest : List Char) :
    stripFrom .plain (filler.chars ++ rest) = filler.left ++ stripFrom .plain rest := by
  cases filler with
  | blank c isBlank => exact stripFrom_ordinary (ordinary_of_isBlank isBlank) rest
  | line body oneLine =>
    have none : body.filter (· = '\n') = [] :=
      List.filter_eq_nil_iff.mpr fun c mem newline => oneLine (of_decide_eq_true newline ▸ mem)
    refine (stripFrom_comment (Comment.ends_line oneLine) rest).trans ?_
    rw [List.filter_append, none]
    rfl
  | block body unclosed =>
    refine (stripFrom_comment (ends_block unclosed) rest).trans ?_
    rw [List.filter_append]
    simp [left]

theorem nextSignificant?_chars (filler : Filler) (rest : List Char) :
    nextSignificant? none (filler.chars ++ rest) = nextSignificant? none rest := by
  cases filler with
  | blank c isBlank => cases rest <;> simp [chars, nextSignificant?, isBlank]
  | line body oneLine => exact nextSignificant?_comment (Comment.ends_line oneLine) rest
  | block body unclosed => exact nextSignificant?_comment (ends_block unclosed) rest

end Filler

theorem stripFrom_fillers (fillers : List Filler) (rest : List Char) :
    stripFrom .plain (fillers.flatMap Filler.chars ++ rest)
      = fillers.flatMap Filler.left ++ stripFrom .plain rest := by
  induction fillers with
  | nil => rfl
  | cons filler fillers ih =>
    rw [List.flatMap_cons, List.append_assoc, filler.stripFrom_chars, ih, List.flatMap_cons,
      List.append_assoc]

theorem closesNext_fillers (fillers : List Filler) (rest : List Char) :
    closesNext (fillers.flatMap Filler.chars ++ rest) = closesNext rest := by
  induction fillers with
  | nil => rfl
  | cons filler fillers ih =>
    rw [List.flatMap_cons, List.append_assoc, closesNext, filler.nextSignificant?_chars]
    exact ih

theorem isBlank_fillers {fillers : List Filler} :
    ∀ c ∈ fillers.flatMap Filler.left, Text.isBlank c = true := by
  intro c mem
  obtain ⟨filler, -, mem⟩ := List.mem_flatMap.mp mem
  exact filler.isBlank_left c mem

theorem stripFrom_pieces (pieces : List Piece) (rest : List Char) :
    stripFrom (.quoted false) (pieces.flatMap Piece.chars ++ '"' :: rest)
      = pieces.flatMap Piece.chars ++ '"' :: stripFrom .plain rest := by
  induction pieces with
  | nil => rfl
  | cons piece pieces ih =>
    cases piece with
    | plain c unmarked =>
      simp [Piece.chars, stripFrom, unmarked.1, unmarked.2, ih]
    | escaped c => simp [Piece.chars, stripFrom, ih]

theorem stripFrom_word {cs : List Char} (made : ∀ c ∈ cs, isWordChar c = true)
    (rest : List Char) : stripFrom .plain (cs ++ rest) = cs ++ stripFrom .plain rest := by
  induction cs with
  | nil => rfl
  | cons c cs ih =>
    obtain ⟨first, others⟩ := List.forall_mem_cons.mp made
    rw [List.cons_append, stripFrom_ordinary (ordinary_of_isWordChar first), ih others]
    rfl

theorem closesNext_significant {c : Char} (notBlank : Text.isBlank c = false) (noSlash : c ≠ '/')
    (rest : List Char) : closesNext (c :: rest) = (c == '\x7d' || c == ']') := by
  cases rest with
  | nil => simp [closesNext, nextSignificant?, notBlank]
  | cons d rest =>
    simp [closesNext, nextSignificant?, notBlank, Comment.opened?_eq_none noSlash]

theorem toNat_of_isWordChar {c : Char} (isWordChar : isWordChar c = true) :
    43 ≤ c.toNat ∧ c.toNat ≤ 122 := by
  have upper : c.isUpper = decide (65 ≤ c.val ∧ c.val ≤ 90) := rfl
  have lower : c.isLower = (decide (97 ≤ c.val) && decide (c.val ≤ 122)) := rfl
  have alpha : c.isAlpha = (c.isUpper || c.isLower) := rfl
  simp only [OptionFile.isWordChar, Char.isAlphanum, alpha, upper, lower, Char.isDigit,
    Bool.or_eq_true, Bool.and_eq_true, decide_eq_true_eq, beq_iff_eq, ge_iff_le,
    UInt32.le_iff_toNat_le] at isWordChar
  have value : c.toNat = c.val.toNat := rfl
  rcases isWordChar with (((⟨low, high⟩ | ⟨low, high⟩) | ⟨low, high⟩) | rfl | rfl) | rfl
  all_goals simp at *
  all_goals omega

theorem isWordChar_significant {c : Char} (isWordChar : isWordChar c = true) :
    Text.isBlank c = false ∧ (c == '\x7d' || c == ']') = false := by
  refine ⟨?_, Bool.eq_false_iff.mpr fun closes => ?_⟩
  · have range := toNat_of_isWordChar isWordChar
    simp only [Text.isBlank, Bool.or_eq_false_iff, Bool.and_eq_false_iff, decide_eq_false_iff_not,
      beq_eq_false_iff_ne]
    omega
  · rcases Bool.or_eq_true_iff.mp closes with same | same <;>
      cases eq_of_beq same <;> cases isWordChar

namespace Token

/-- A token stays as it is, unless it is a comma with a closing bracket next. -/
theorem stripFrom_chars {token : Token} {rest : List Char}
    (separates : token = .comma → closesNext rest = false) :
    stripFrom .plain (token.chars ++ rest) = token.chars ++ stripFrom .plain rest := by
  match token with
  | .opening .square | .opening .curly | .closing .square | .closing .curly | .colon =>
    exact stripFrom_ordinary ⟨by decide, by decide, by decide⟩ rest
  | .comma =>
    refine (stripFrom_comma rest).trans ?_
    rw [separates rfl]
    rfl
  | .scalar word => exact stripFrom_word word.made rest
  | .text pieces =>
    simp only [chars, List.cons_append, List.append_assoc, List.nil_append]
    rw [stripFrom_quote, stripFrom_pieces]

theorem closesNext_chars (token : Token) (rest : List Char) :
    closesNext (token.chars ++ rest) = token.isClosing := by
  match token with
  | .opening .square | .opening .curly | .closing .square | .closing .curly | .colon | .comma
  | .text _ => exact closesNext_significant (by decide) (by decide) _
  | .scalar word =>
    have first := word.made _ List.mem_cons_self
    obtain ⟨notBlank, notClosing⟩ := isWordChar_significant first
    have noSlash := (ordinary_of_isWordChar first).noSlash
    exact (closesNext_significant notBlank noSlash _).trans notClosing

end Token

/-! ## Passing over a layout -/

/-- The tokens may follow one another: no bracket is closed right after a comma. -/
def Follows (token next : Token) : Prop :=
  token = .comma → next.isClosing = false

namespace Slot

theorem closesNext_chars {slot : Slot} (rest : List Char)
    (notClosing : slot.token.isClosing = false) : closesNext (slot.chars ++ rest) = false := by
  have none : slot.extra = none :=
    Option.not_isSome_iff_eq_none.mp fun some => by
      rw [slot.extraCloses some] at notClosing
      cases notClosing
  rw [chars, none, List.append_assoc, closesNext_fillers, Token.closesNext_chars, notClosing]

theorem stripFrom_chars {slot : Slot} {rest : List Char}
    (separates : slot.token = .comma → closesNext rest = false) :
    stripFrom .plain (slot.chars ++ rest) = slot.left ++ stripFrom .plain rest := by
  rw [chars, List.append_assoc, stripFrom_fillers, left]
  cases extra : slot.extra with
  | none =>
    simp only [Option.getD_none, List.flatMap_nil, List.append_nil, List.append_assoc]
    rw [Token.stripFrom_chars separates]
  | some between =>
    have closing : slot.token.isClosing = true := slot.extraCloses (by rw [extra]; rfl)
    have next : closesNext (between.flatMap Filler.chars ++ (slot.token.chars ++ rest)) = true := by
      rw [closesNext_fillers, Token.closesNext_chars, closing]
    simp only [Option.getD_some, List.cons_append, List.append_assoc]
    rw [stripFrom_comma, next, if_pos rfl, stripFrom_fillers, Token.stripFrom_chars separates]

theorem stripFrom_slots {slots : List Slot} {rest : List Char}
    (chain : (slots.map token).IsChain Follows) (ended : closesNext rest = false) :
    stripFrom .plain (slots.flatMap chars ++ rest)
      = slots.flatMap left ++ stripFrom .plain rest := by
  induction slots with
  | nil => rfl
  | cons slot slots ih =>
    rw [List.flatMap_cons, List.flatMap_cons, List.append_assoc, stripFrom_chars, ih chain.tail,
      List.append_assoc]
    intro comma
    cases slots with
    | nil => exact ended
    | cons next slots =>
      rw [List.flatMap_cons, List.append_assoc]
      exact closesNext_chars _ ((List.isChain_cons_cons.mp chain).1 comma)

end Slot

namespace Layout

theorem closesNext_cutOff (layout : Layout) : closesNext layout.cutOff = false := by
  rw [cutOff]
  split
  · rename_i body _
    have none : nextSignificant? none ('/' :: '/' :: body.val) = none :=
      nextSignificant?_line body.property
    rw [closesNext, none]
  · rfl

theorem stripFrom_cutOff (layout : Layout) : stripFrom .plain layout.cutOff = [] := by
  rw [cutOff]
  split
  · rename_i body _
    exact stripFrom_line body.property
  · rfl

theorem strip_source {layout : Layout} (chain : layout.tokens.IsChain Follows) :
    strip layout.source = String.ofList layout.left := by
  have ended : closesNext (layout.after.flatMap Filler.chars ++ layout.cutOff) = false := by
    rw [closesNext_fillers, closesNext_cutOff]
  have last : stripFrom .plain (layout.after.flatMap Filler.chars ++ layout.cutOff)
      = layout.after.flatMap Filler.left := by
    rw [stripFrom_fillers, stripFrom_cutOff, List.append_nil]
  rw [strip, source, String.toList_ofList, Slot.stripFrom_slots chain ended, last, left]

theorem spells_left (layout : Layout) : Spells layout.tokens layout.left := by
  rw [tokens, left]
  induction layout.slots with
  | nil => exact .done isBlank_fillers
  | cons slot slots ih =>
    rw [List.flatMap_cons, List.append_assoc, Slot.left, List.map_cons]
    refine .token (fun c mem => ?_) slot.token ih
    rcases List.mem_append.mp mem with mem | mem <;> exact isBlank_fillers c mem

end Layout

/-! ## JSON values -/

theorem chain_cons {token : Token} {rest : List Token} (notComma : token ≠ .comma)
    (chain : rest.IsChain Follows) : (token :: rest).IsChain Follows :=
  chain.cons fun _ _ comma => absurd comma notComma

theorem chain_before {token next : Token} {rest : List Token} (notClosing : next.isClosing = false)
    (chain : (next :: rest).IsChain Follows) : (token :: next :: rest).IsChain Follows :=
  List.isChain_cons_cons.mpr ⟨fun _ => notClosing, chain⟩

namespace JsonValue

mutual

/-- A value may stand after any token and before any other tokens: it begins with no closing bracket
and ends with no comma. -/
theorem chain_tokens : (value : JsonValue) → ∀ (token : Token) {rest : List Token},
    rest.IsChain Follows → (token :: (value.tokens ++ rest)).IsChain Follows
  | .scalar word, token, rest, chain => by
    rw [tokens]
    exact chain_before rfl (chain_cons nofun chain)
  | .text pieces, token, rest, chain => by
    rw [tokens]
    exact chain_before rfl (chain_cons nofun chain)
  | .array [], token, rest, chain => by
    rw [tokens]
    exact chain_before rfl (chain_cons nofun (chain_cons nofun chain))
  | .array (item :: items), token, rest, chain => by
    rw [tokens, List.cons_append, List.append_assoc, List.append_assoc]
    exact chain_before rfl
      (chain_tokens item _ (chain_itemTokens items (chain_cons nofun chain)))
  | .object [], token, rest, chain => by
    rw [tokens]
    exact chain_before rfl (chain_cons nofun (chain_cons nofun chain))
  | .object ((key, value) :: members), token, rest, chain => by
    rw [tokens, List.cons_append, List.cons_append, List.cons_append, List.append_assoc,
      List.append_assoc]
    exact chain_before rfl (chain_cons nofun (chain_cons nofun
      (chain_tokens value _ (chain_memberTokens members (chain_cons nofun chain)))))

theorem chain_itemTokens : (items : List JsonValue) → ∀ {rest : List Token},
    rest.IsChain Follows → (itemTokens items ++ rest).IsChain Follows
  | [], _, chain => by rwa [itemTokens]
  | item :: items, _, chain => by
    rw [itemTokens, List.cons_append, List.append_assoc]
    exact chain_tokens item _ (chain_itemTokens items chain)

theorem chain_memberTokens : (members : List (List Piece × JsonValue)) → ∀ {rest : List Token},
    rest.IsChain Follows → (memberTokens members ++ rest).IsChain Follows
  | [], _, chain => by rwa [memberTokens]
  | (key, value) :: members, _, chain => by
    rw [memberTokens, List.cons_append, List.cons_append, List.cons_append, List.append_assoc]
    exact chain_before rfl (chain_cons nofun
      (chain_tokens value _ (chain_memberTokens members chain)))

end

theorem isChain_tokens (value : JsonValue) : value.tokens.IsChain Follows := by
  have chain := (value.chain_tokens .colon .nil).tail
  rwa [List.append_nil] at chain

end JsonValue

/-- Stripping the text of a layout of a JSON value leaves its tokens, in their order and as they
are, with the blanks and the line breaks that stood around them. -/
theorem strip_layout {value : JsonValue} {layout : Layout} (same : layout.tokens = value.tokens) :
    strip layout.source = String.ofList layout.left ∧ Spells value.tokens layout.left := by
  refine ⟨Layout.strip_source ?_, ?_⟩
  · rw [same]
    exact value.isChain_tokens
  · rw [← same]
    exact layout.spells_left

/-- A list of a number and a string that holds the end of a comment, a comma and a quote. -/
def listed : JsonValue :=
  .array [.scalar ⟨'1', [], List.forall_mem_singleton.mpr rfl⟩,
    .text [.plain '*' (by decide), .plain '/' (by decide), .plain ',' (by decide), .escaped '"']]

/-- The list with a comment between its items, an extra comma with a comment after it, and a line
comment that the text ends in. -/
def commented : Layout where
  slots := [
    ⟨[.blank '\n' rfl], none, .opening .square, nofun⟩,
    ⟨[], none, .scalar ⟨'1', [], List.forall_mem_singleton.mpr rfl⟩, nofun⟩,
    ⟨[], none, .comma, nofun⟩,
    ⟨[.line ['"'] (by decide)], none, .text [.plain '*' (by decide), .plain '/' (by decide),
      .plain ',' (by decide), .escaped '"'], nofun⟩,
    ⟨[], some [.block [']', '*', '\n', '*'] (by decide)], .closing .square, fun _ => rfl⟩]
  after := [.blank ' ' rfl]
  last := some ⟨[',', ']'], by decide⟩

theorem strip_layout_commented :
    commented.tokens = listed.tokens ∧
      commented.source = "\n[1,//\"\n\"*/,\\\"\",/*]*\n**/] //,]" ∧
      strip commented.source = "\n[1,\n\"*/,\\\"\"\n] " ∧
      Spells listed.tokens commented.left := by
  have same : commented.tokens = listed.tokens := by
    simp [commented, listed, Layout.tokens, JsonValue.tokens, JsonValue.itemTokens]
  obtain ⟨stripped, spells⟩ := strip_layout same
  exact ⟨same, rfl, stripped.trans rfl, spells⟩

end LuaTyping.OptionFile
