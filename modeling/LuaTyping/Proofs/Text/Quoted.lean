import LuaTyping.Text.Quoted
import Mathlib.Data.Nat.Digits.Defs

/-!
# Reading quoted text back

The quoted form of a text says where it ends and what it is. A reader that looks at one character at
a time gets back the text and leaves what follows the closing quote: an escape is known by the
character after the backslash, and a code point by the brace that closes it.
-/

set_option autoImplicit false

namespace LuaTyping.Text

/-- The value of a digit of a code point. -/
def hexValue (c : Char) : Nat :=
  if c.isDigit then c.toNat - '0'.toNat else c.toNat - 'a'.toNat + 10

/-- The character that an escape of two characters stands for. -/
def unescaped (c : Char) : Char :=
  if c == 'n' then '\n'
  else if c == 'r' then '\r'
  else if c == 't' then '\t'
  else if c == '0' then '\x00'
  else c

/-- Reads on to the closing quote, and gives the text and what follows it. `code` is what has been
read of a code point, inside the braces of one. -/
def unquote : (code : Option Nat) → List Char → Option (List Char × List Char)
  | _, [] => none
  | some code, c :: cs =>
    if c == '\x7d' then (unquote none cs).map fun (text, rest) => (Char.ofNat code :: text, rest)
    else unquote (some (16 * code + hexValue c)) cs
  | none, '"' :: cs => some ([], cs)
  | none, '\\' :: 'u' :: '\x7b' :: cs => unquote (some 0) cs
  | none, '\\' :: c :: cs => (unquote none cs).map fun (text, rest) => (unescaped c :: text, rest)
  | none, c :: cs => (unquote none cs).map fun (text, rest) => (c :: text, rest)

/-! ## Code points -/

theorem hexValue_digitChar : ∀ digit < 16,
    hexValue digit.digitChar = digit ∧ digit.digitChar ≠ '\x7d' := by decide

theorem foldl_hexDigits (code : Nat) :
    (hexDigits code).foldl (fun code c => 16 * code + hexValue c) 0 = code := by
  induction code using Nat.strongRecOn with
  | ind code ih =>
    rw [hexDigits, Nat.toDigits_eq_if (by decide)]
    split
    · rename_i small
      simp [(hexValue_digitChar code small).1]
    · have shorter := ih (code / 16) (by omega)
      have last := (hexValue_digitChar (code % 16) (Nat.mod_lt _ (by decide))).1
      rw [hexDigits] at shorter
      rw [List.foldl_append, shorter, List.foldl_cons, List.foldl_nil, last]
      exact Nat.div_add_mod code 16

theorem not_mem_hexDigits (code : Nat) : '\x7d' ∉ hexDigits code := by
  induction code using Nat.strongRecOn with
  | ind code ih =>
    rw [hexDigits, Nat.toDigits_eq_if (by decide)]
    split
    · rename_i small
      simp [(hexValue_digitChar code small).2.symm]
    · have shorter := ih (code / 16) (by omega)
      have last := (hexValue_digitChar (code % 16) (Nat.mod_lt _ (by decide))).2
      rw [hexDigits] at shorter
      simp [shorter, last.symm]

theorem unquote_digits (digits rest : List Char) (code : Nat) (inside : '\x7d' ∉ digits) :
    unquote (some code) (digits ++ '\x7d' :: rest)
      = (unquote none rest).map fun (text, rest) =>
          (Char.ofNat (digits.foldl (fun code c => 16 * code + hexValue c) code) :: text,
            rest) := by
  induction digits generalizing code with
  | nil => simp [unquote]
  | cons c digits ih =>
    have other : c ≠ '\x7d' := fun same => inside (same ▸ List.mem_cons_self)
    have inside : '\x7d' ∉ digits := fun mem => inside (List.mem_cons_of_mem c mem)
    have step : unquote (some code) (c :: (digits ++ '\x7d' :: rest))
        = unquote (some (16 * code + hexValue c)) (digits ++ '\x7d' :: rest) := by
      rw [unquote, if_neg (by simpa using other)]
    rw [List.cons_append, step, ih _ inside, List.foldl_cons]

/-! ## Characters and texts -/

theorem unquote_quoteChar (c : Char) (rest : List Char) :
    unquote none (quoteChar c ++ rest)
      = (unquote none rest).map fun (text, rest) => (c :: text, rest) := by
  by_cases quote : c = '"'
  · subst quote; rfl
  by_cases backslash : c = '\\'
  · subst backslash; rfl
  by_cases newline : c = '\n'
  · subst newline; rfl
  by_cases carriage : c = '\r'
  · subst carriage; rfl
  by_cases tab : c = '\t'
  · subst tab; rfl
  by_cases null : c = '\x00'
  · subst null; rfl
  simp only [quoteChar, beq_iff_eq, quote, backslash, newline, carriage, tab, null, if_false]
  split
  · have code := unquote_digits (hexDigits c.toNat) rest 0 (not_mem_hexDigits c.toNat)
    rw [foldl_hexDigits, Char.ofNat_toNat] at code
    simpa [unquote] using code
  · rw [List.singleton_append, unquote.eq_def]
    split <;> simp_all

theorem unquote_quoted (text rest : List Char) :
    unquote none (text.flatMap quoteChar ++ '"' :: rest) = some (text, rest) := by
  induction text with
  | nil => rfl
  | cons c text ih => rw [List.flatMap_cons, List.append_assoc, unquote_quoteChar, ih]; rfl

end LuaTyping.Text
