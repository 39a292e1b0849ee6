import TsnController.Lib.Decimal
import TsnController.Lib.Readers

/-!
# Words and signs

How a statement of a query language is read before its grammar comes into play: white space
separates, letters, digits and underscores make words as long as possible, and every other character
is a sign of its own. Quotes and comments are not among what is read here, so that a text with a
quote in it is a text with a sign.

Two texts that meet at a place where no word can run over are read one after the other
(`tokens_append`, `tokens_append_of_last`). That is all that is needed to read a text that was
printed from a format.
-/

set_option autoImplicit false

namespace TsnController
namespace Lib

inductive Token
  | word (w : List Char)
  | sign (c : Char)
  deriving DecidableEq

def wordChar (c : Char) : Bool := c.isAlphanum || c == '_'

/-- The word that has been read so far, if any. -/
def flush (pending : List Char) : List Token := if pending = [] then [] else [.word pending]

def tokensFrom (pending : List Char) : List Char → List Token
  | [] => flush pending
  | c :: cs =>
    if wordChar c = true then tokensFrom (pending ++ [c]) cs
    else if c.isWhitespace = true then flush pending ++ tokensFrom [] cs
    else flush pending ++ .sign c :: tokensFrom [] cs

def tokens (text : List Char) : List Token := tokensFrom [] text

/-! ## Reading in pieces -/

/-- No word goes on at the start of the text. -/
def Ends (text : List Char) : Prop := ∀ c ∈ text.head?, wordChar c = false

theorem ends_cons {c : Char} {cs : List Char} (hc : wordChar c = false) : Ends (c :: cs) := by
  rintro d ⟨⟩
  exact hc

theorem tokensFrom_append {v : List Char} (hv : Ends v) : ∀ (u pending : List Char),
    tokensFrom pending (u ++ v) = tokensFrom pending u ++ tokens v
  | [], pending => by
    cases v with
    | nil => exact (List.append_nil _).symm
    | cons c cs =>
      have hc : wordChar c = false := hv c rfl
      unfold tokens
      rw [List.nil_append, tokensFrom, tokensFrom, tokensFrom, hc]
      simp only [Bool.false_eq_true, if_false]
      split <;> rfl
  | c :: cs, pending => by
    rw [List.cons_append, tokensFrom, tokensFrom, tokensFrom_append hv cs, tokensFrom_append hv cs]
    split
    · rfl
    · split
      · rw [List.append_assoc]
      · rw [List.append_assoc, List.cons_append]

theorem tokens_append {u v : List Char} (hv : Ends v) : tokens (u ++ v) = tokens u ++ tokens v :=
  tokensFrom_append hv u []

theorem tokens_cons {c : Char} (hc : wordChar c = false) (v : List Char) :
    tokens (c :: v) = tokens [c] ++ tokens v := by
  unfold tokens
  rw [tokensFrom, tokensFrom, hc]
  simp only [Bool.false_eq_true, if_false]
  split <;> rfl

/-- The first text may also end with what is not part of a word. -/
theorem tokens_append_of_last {u v : List Char} {c : Char} (hlast : u.getLast? = some c)
    (hc : wordChar c = false) : tokens (u ++ v) = tokens u ++ tokens v := by
  obtain ⟨init, rfl⟩ := List.getLast?_eq_some_iff.mp hlast
  rw [List.append_assoc, List.singleton_append, tokens_append (ends_cons hc), tokens_cons hc,
    tokens_append (ends_cons hc), List.append_assoc]

theorem tokensFrom_word {w : List Char} (hw : ∀ c ∈ w, wordChar c = true) (pending : List Char) :
    tokensFrom pending w = flush (pending ++ w) := by
  induction w generalizing pending with
  | nil => rw [List.append_nil]; rfl
  | cons c cs ih =>
    rw [tokensFrom, if_pos (hw c List.mem_cons_self),
      ih (fun d hd => hw d (List.mem_cons_of_mem c hd)), List.append_assoc, List.singleton_append]

/-- Nothing, or one word. -/
theorem tokens_word {w : List Char} (hw : ∀ c ∈ w, wordChar c = true) : tokens w = flush w :=
  tokensFrom_word hw []

/-! ## Readers -/

def readWord : List Token → Option (List Char × List Token)
  | .word w :: ts => some (w, ts)
  | _ => none

/-- A whole number in its canonical form, with a sign if it is negative. -/
def readNumber : List Token → Option (Int × List Token)
  | .word w :: ts => (decimal w).map fun n => ((n : Int), ts)
  | .sign c :: .word w :: ts => if c = '-' then (decimal w).map fun n => (-(n : Int), ts) else none
  | _ => none

/-- A whole number as it is written. -/
def numberTokens (n : Int) : List Token :=
  if n < 0 then [.sign '-', .word (Nat.toDigits 10 n.natAbs)]
  else [.word (Nat.toDigits 10 n.natAbs)]

@[simp] theorem readNumber_numberTokens (n : Int) (ts : List Token) :
    readNumber (numberTokens n ++ ts) = some (n, ts) := by
  unfold numberTokens
  split
  · have habs : -(n.natAbs : Int) = n := by omega
    rw [List.cons_append, List.singleton_append, readNumber, if_pos rfl, decimal_toDigits]
    exact congrArg (fun m => some (m, ts)) habs
  · have habs : (n.natAbs : Int) = n := by omega
    rw [List.singleton_append, readNumber, decimal_toDigits]
    exact congrArg (fun m => some (m, ts)) habs

theorem tokens_toDigits (n : Nat) : tokens (Nat.toDigits 10 n) = [.word (Nat.toDigits 10 n)] := by
  have hdigit : ∀ c ∈ Nat.toDigits 10 n, wordChar c = true := by
    intro c hc
    have hc : c.isDigit = true := Nat.isDigit_of_mem_toDigits (by decide) (by decide) hc
    simp [wordChar, Char.isAlphanum, hc]
  rw [tokens_word hdigit, flush, if_neg Nat.toDigits_ne_nil]

theorem tokens_minus (n : Nat) :
    tokens ('-' :: Nat.toDigits 10 n) = [.sign '-', .word (Nat.toDigits 10 n)] := by
  have hsign : tokens ['-'] = [.sign '-'] := by decide
  rw [tokens_cons (by decide), hsign, tokens_toDigits]
  rfl

end Lib
end TsnController
