import TsnController.CLib.Text

/-!
# `json.c`: the scanner and the copier

The two character machines of the parser. `json_scan` runs from a position to the next entity
(`{ [ : , ] }`) or to the end of the text, and leaves `left` and `right` on the first and last
character on the way that is not white space. `json_copy` then takes such a stretch of text into
fresh memory, dropping the quotes and resolving the escapes.

Both count quotes instead of keeping a flag, and both ask the count two questions: its parity
(inside a string or not) and whether it is zero (no string seen yet). The counts are kept as they
are in the source for that reason.
-/

set_option autoImplicit false

namespace TsnController
namespace Json

open CLib

/-- `json_istoken`: the entities of JSON. -/
def jsonIsToken (c : Char) : Bool :=
  c == '{' || c == '[' || c == ':' || c == ',' || c == ']' || c == '}'

/-- `json_isescape`: what may follow a backslash. -/
def jsonIsEscape (c : Char) : Bool :=
  c == '\\' || c == '/' || c == '"' ||
    c == 'b' || c == 'f' || c == 'n' || c == 'r' || c == 't'

/-- `*str`. -/
def deref : Text → Char
  | [] => '\x00'
  | c :: _ => c

/-! ## `json_scan` -/

/-- Where `json_scan` leaves its three pointers. -/
structure Scan where
  left : Text
  right : Text
  token : Text
  deriving DecidableEq, Repr

/-- The two out-parameters, `NULL` together or set together: `left` keeps the first character
that is not white space, `right` follows. -/
def mark (str : Text) (marks : Option (Text × Text)) : Option (Text × Text) :=
  if isspace (deref str) then marks
  else match marks with
    | none => some (str, str)
    | some (left, _) => some (left, str)

/-- After the loop: open quotes are an error, and with nothing on the way all pointers meet. -/
def scanEnd (quotes : Nat) (marks : Option (Text × Text)) (str : Text) : Option Scan :=
  if quotes % 2 = 1 then none
  else match marks with
    | none => some ⟨str, str, str⟩
    | some (left, right) => some ⟨left, right, str⟩

def scanLoop (quotes : Nat) (marks : Option (Text × Text)) : Text → Option Scan
  | [] => scanEnd quotes marks []
  | c :: cs =>
    if c = '\\' then
      match cs with
      | [] => none
      | e :: es =>
        -- `!(quotes & 1) || !json_isescape(*(++str))`; the pointer now stands on the escape.
        if quotes % 2 = 1 ∧ jsonIsEscape e then scanLoop quotes (mark (e :: es) marks) es
        else none
    else if c = '"' then scanLoop (quotes + 1) (mark (c :: cs) marks) cs
    else if quotes % 2 = 0 then
      if jsonIsToken c then scanEnd quotes marks (c :: cs)
      -- text between strings, e.g. <"abc" 123 "def">
      else if 0 < quotes ∧ isspace c = false then none
      else scanLoop quotes (mark (c :: cs) marks) cs
    else scanLoop quotes (mark (c :: cs) marks) cs

def jsonScan (str : Text) : Option Scan := scanLoop 0 none str

theorem scanLoop_plain {quotes : Nat} {marks : Option (Text × Text)} {c : Char} {cs : Text}
    (h : c ≠ '\\') : scanLoop quotes marks (c :: cs) =
      if c = '"' then scanLoop (quotes + 1) (mark (c :: cs) marks) cs
      else if quotes % 2 = 0 then
        if jsonIsToken c then scanEnd quotes marks (c :: cs)
        else if 0 < quotes ∧ isspace c = false then none
        else scanLoop quotes (mark (c :: cs) marks) cs
      else scanLoop quotes (mark (c :: cs) marks) cs := by
  rw [scanLoop.eq_def]
  simp only [h, if_false]

theorem scanLoop_escape {quotes : Nat} {marks : Option (Text × Text)} {e : Char} {es : Text} :
    scanLoop quotes marks ('\\' :: e :: es) =
      if quotes % 2 = 1 ∧ jsonIsEscape e then scanLoop quotes (mark (e :: es) marks) es
      else none := by
  rw [scanLoop.eq_def]
  simp only [if_true]

/-! ## `json_copy` -/

/-- The character an escape stands for; `none` is the `default` of the `switch`, which skips. -/
def unescape (c : Char) : Option Char :=
  if c = '\\' ∨ c = '/' ∨ c = '"' then some c
  else if c = 'b' then some '\x08'
  else if c = 'f' then some '\x0c'
  else if c = 'n' then some '\n'
  else if c = 'r' then some '\r'
  else if c = 't' then some '\t'
  else none

/-- The loop of `json_copy` from `str + i` on, with `size - i` characters to go. -/
def copyLoop (quotes : Nat) : Text → Nat → Text
  | [], _ => []
  | _ :: _, 0 => []
  | c :: cs, n + 1 =>
    if c = '\\' then
      match cs with
      | [] => []
      | e :: es => (unescape e).toList ++ copyLoop quotes es (n - 1)
    else if c = '"' then copyLoop (quotes + 1) cs n
    -- what stands between two strings is skipped
    else if quotes = 0 ∨ quotes % 2 = 1 then c :: copyLoop quotes cs n
    else copyLoop quotes cs n

def jsonCopy (str : Text) (size : Nat) : Text := copyLoop 0 str size

end Json
end TsnController
