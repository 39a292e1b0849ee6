import TsnController.Json.Items

/-!
# `json.c`: writing a string

`json_encode` is the only writer the repository has, and it writes one thing: a quoted string. Its
`switch` is the third table of escapes in the file, after the scanner's and the copier's, and it is
the only one of the three that works on characters rather than on their codes. What ties them
together is `encoding`: the encoder writes exactly the string of the grammar whose characters are
the ones it was given, and a string of the grammar is what the other two were proved to read.

The caller provides the memory. What the encoder leaves there is modelled as the characters from
`dst` on, the terminator included, next to the pointer it counts its answer with.
-/

set_option autoImplicit false

namespace TsnController
namespace Json

open CLib

/-! ## `json_encode` -/

/-- What has been written from `dst` on, and how far `ptr` is from there. -/
structure Encoder where
  dst : Text
  ptr : Nat
  deriving DecidableEq, Repr

/-- `JSON_CONCAT(c)`. -/
def Encoder.concat (e : Encoder) (c : Char) : Encoder := ⟨e.dst ++ [c], e.ptr + 1⟩

/-- `JSON_ENCODE(c)`. -/
def Encoder.encode (e : Encoder) (c : Char) : Encoder := (e.concat '\\').concat c

/-- The `switch`. -/
def Encoder.put (e : Encoder) (c : Char) : Encoder :=
  if c = '\\' then e.encode '\\'
  else if c = '/' then e.encode '/'
  else if c = '"' then e.encode '"'
  else if c = '\x08' then e.encode 'b'
  else if c = '\x0c' then e.encode 'f'
  else if c = '\n' then e.encode 'n'
  else if c = '\r' then e.encode 'r'
  else if c = '\t' then e.encode 't'
  else e.concat c

/-- The `while`. -/
def encodeLoop (e : Encoder) : Text → Encoder
  | [] => e
  | c :: src => if c = '\x00' then e else encodeLoop (e.put c) src

/-- The memory at `dst` afterwards and the size returned. -/
def jsonEncode (src : Text) : Text × Nat :=
  let e := (encodeLoop (Encoder.concat ⟨[], 0⟩ '"') src).concat '"'
  (e.dst ++ ['\x00'], e.ptr)

/-- The string at the start of some memory. -/
def cString (memory : Text) : Text := memory.takeWhile (· ≠ '\x00')

/-! ## The string it writes -/

/-- How a character is written. -/
def encoding (c : Char) : StrChar :=
  if hb : c = '\\' then .escape .backslash
  else if c = '/' then .escape .slash
  else if hq : c = '"' then .escape .quote
  else if c = '\x08' then .escape .b
  else if c = '\x0c' then .escape .f
  else if c = '\n' then .escape .n
  else if c = '\r' then .escape .r
  else if c = '\t' then .escape .t
  else .plain c ⟨hq, hb⟩

/-- The string of the grammar with the given characters. -/
def encoded (s : Text) : Str := s.map encoding

/-- The characters that are escaped. -/
theorem encoding_cases (c : Char) : (∃ x : Escape, encoding c = .escape x ∧ x.char = c ∧
      ∀ e : Encoder, e.put c = e.encode x.code) ∨
    (∃ h, encoding c = .plain c h ∧ ∀ e : Encoder, e.put c = e.concat c) := by
  by_cases h₁ : c = '\\'
  · subst h₁
    exact .inl ⟨.backslash, rfl, rfl, fun _ => rfl⟩
  by_cases h₂ : c = '/'
  · subst h₂
    exact .inl ⟨.slash, rfl, rfl, fun _ => rfl⟩
  by_cases h₃ : c = '"'
  · subst h₃
    exact .inl ⟨.quote, rfl, rfl, fun _ => rfl⟩
  by_cases h₄ : c = '\x08'
  · subst h₄
    exact .inl ⟨.b, rfl, rfl, fun _ => rfl⟩
  by_cases h₅ : c = '\x0c'
  · subst h₅
    exact .inl ⟨.f, rfl, rfl, fun _ => rfl⟩
  by_cases h₆ : c = '\n'
  · subst h₆
    exact .inl ⟨.n, rfl, rfl, fun _ => rfl⟩
  by_cases h₇ : c = '\r'
  · subst h₇
    exact .inl ⟨.r, rfl, rfl, fun _ => rfl⟩
  by_cases h₈ : c = '\t'
  · subst h₈
    exact .inl ⟨.t, rfl, rfl, fun _ => rfl⟩
  refine .inr ⟨⟨h₃, h₁⟩, ?_, ?_⟩
  · unfold encoding
    rw [dif_neg h₁, if_neg h₂, dif_neg h₃, if_neg h₄, if_neg h₅, if_neg h₆, if_neg h₇, if_neg h₈]
  · intro e
    unfold Encoder.put
    rw [if_neg h₁, if_neg h₂, if_neg h₃, if_neg h₄, if_neg h₅, if_neg h₆, if_neg h₇, if_neg h₈]

theorem encoding_char (c : Char) : (encoding c).char = c := by
  rcases encoding_cases c with ⟨x, hx, hchar, _⟩ | ⟨_, hx, _⟩
  · rw [hx]
    exact hchar
  · rw [hx]
    rfl

theorem encoded_chars (s : Text) : (encoded s).chars = s := by
  rw [Str.chars, encoded, List.map_map]
  exact (List.map_congr_left fun c _ => encoding_char c).trans (List.map_id s)

theorem put_eq (e : Encoder) (c : Char) :
    e.put c = ⟨e.dst ++ (encoding c).text, e.ptr + (encoding c).text.length⟩ := by
  rcases encoding_cases c with ⟨x, hx, _, hput⟩ | ⟨_, hx, hput⟩
  · rw [hx, hput, Encoder.encode, Encoder.concat, Encoder.concat, List.append_assoc]
    rfl
  · rw [hx, hput]
    rfl

theorem encodeLoop_eq (s : Text) (hs : '\x00' ∉ s) : ∀ e : Encoder,
    encodeLoop e s = ⟨e.dst ++ (encoded s).body, e.ptr + (encoded s).body.length⟩ := by
  induction s with
  | nil => intro e; simp [encodeLoop, encoded, Str.body]
  | cons c s ih =>
    intro e
    have hc : c ≠ '\x00' := fun h => hs (by simp [h])
    have hrest : '\x00' ∉ s := fun h => hs (List.mem_cons_of_mem c h)
    rw [encodeLoop, if_neg hc, ih hrest, put_eq]
    simp [encoded, Str.body, Nat.add_assoc]

/-- **The encoder writes a string of the grammar**, and counts it. -/
theorem jsonEncode_eq {s : Text} (hs : '\x00' ∉ s) :
    jsonEncode s = ((encoded s).text ++ ['\x00'], (encoded s).text.length) := by
  rw [jsonEncode, encodeLoop_eq s hs]
  simp [Encoder.concat, Str.text]
  omega

/-! ## What stands in memory -/

theorem nul_not_mem_encoding {c : Char} (hc : c ≠ '\x00') : '\x00' ∉ (encoding c).text := by
  rcases encoding_cases c with ⟨x, hx, _⟩ | ⟨_, hx, _⟩
  · rw [hx]
    cases x <;> decide
  · rw [hx]
    exact fun hmem => hc (List.mem_singleton.mp hmem).symm

theorem nul_not_mem_encoded {s : Text} (hs : '\x00' ∉ s) : '\x00' ∉ (encoded s).text := by
  intro hmem
  have hbody : '\x00' ∈ (encoded s).body := by simpa [Str.text] using hmem
  obtain ⟨x, hx, hnul⟩ := List.mem_flatMap.mp hbody
  obtain ⟨c, hc, rfl⟩ := List.mem_map.mp hx
  exact nul_not_mem_encoding (fun h => hs (h ▸ hc)) hnul

theorem cString_append {u : Text} (hu : '\x00' ∉ u) : cString (u ++ ['\x00']) = u := by
  have hall : ∀ c ∈ u, decide (c ≠ '\x00') = true := by
    intro c hc
    exact decide_eq_true fun h => hu (h ▸ hc)
  rw [cString, List.takeWhile_append_of_pos hall, List.takeWhile_cons_of_neg (by simp),
    List.append_nil]

/-- The text the encoder leaves. -/
theorem cString_jsonEncode {s : Text} (hs : '\x00' ∉ s) :
    cString (jsonEncode s).1 = (encoded s).text := by
  rw [jsonEncode_eq hs]
  exact cString_append (nul_not_mem_encoded hs)

theorem length_encoding (c : Char) :
    1 ≤ (encoding c).text.length ∧ (encoding c).text.length ≤ 2 := by
  cases encoding c <;> simp [StrChar.text]

theorem length_body_encoded (s : Text) :
    s.length ≤ (encoded s).body.length ∧ (encoded s).body.length ≤ 2 * s.length := by
  induction s with
  | nil => exact ⟨le_refl _, le_refl _⟩
  | cons c s ih =>
    have hc := length_encoding c
    have hbody : (encoded (c :: s)).body = (encoding c).text ++ (encoded s).body := rfl
    rw [hbody, List.length_append, List.length_cons]
    omega

/-! ## Reading it back -/

/-- The token is the encoder's text for `s`. -/
def Quoted.IsEncoding (q : Quoted) (s : Text) : Prop := q.tokens = [cString (jsonEncode s).1]

theorem isEncoding_encoded {s : Text} (hs : '\x00' ∉ s) :
    (⟨encoded s, []⟩ : Quoted).IsEncoding s := by
  rw [Quoted.IsEncoding, cString_jsonEncode hs]
  rfl

theorem content_encoded (s : Text) : (⟨encoded s, []⟩ : Quoted).content = s := by
  show (encoded s).chars ++ [] = s
  rw [List.append_nil, encoded_chars]

/-- `json_copy` computes the content of a token from its text, so that any string with the
encoder's text has the characters that were encoded. -/
theorem Quoted.IsEncoding.content_eq {q : Quoted} {s : Text} (h : q.IsEncoding s)
    (hs : '\x00' ∉ s) : q.content = s := by
  let q' : Quoted := ⟨encoded s, []⟩
  have hq : Padded q.tokens (encoded s).text := by
    rw [h, cString_jsonEncode hs]
    exact padded_singleton _
  have hq' : Padded q'.tokens (encoded s).text := padded_singleton _
  calc q.content
      = jsonCopy ((encoded s).text ++ []) (encoded s).text.length := (jsonCopy_quoted hq rfl).symm
    _ = q'.content := jsonCopy_quoted hq' rfl
    _ = s := content_encoded s

/-- The encoder's text is a document of its own. -/
theorem writes_encoded {s : Text} (hs : '\x00' ∉ s) :
    Writes (.scalar (.strings ⟨encoded s, []⟩)) (cString (jsonEncode s).1) := by
  rw [cString_jsonEncode hs]
  exact padded_singleton _

theorem Located.jsonName_eq {v : Value} {e : Entry} {n : JsonTree} (h : Located v e n) :
    jsonName n = e.name.map Quoted.content := by
  obtain ⟨right, rfl⟩ := h.eq_node
  exact Value.data_name _ _

theorem Located.of_strings {v : Value} {e : Entry} {n : JsonTree} {q : Quoted}
    (h : Located v e n) (hq : e.value = .scalar (.strings q)) :
    jsonIsString n = true ∧ jsonString n = some q.content := by
  obtain ⟨right, rfl⟩ := h.eq_node
  rw [Entry.node, hq]
  exact ⟨rfl, rfl⟩

/-- **Encoding and parsing are inverse to each other.** The text written for a string is parsed
to one node with that string, and its size is counted right. In a larger document every name and
every element written that way comes back from its node. -/
theorem jsonParse_jsonEncode :
    (∀ s, '\x00' ∉ s →
      jsonParse (cString (jsonEncode s).1) = some (.node ⟨.string, none, some s⟩ .nil .nil) ∧
      (jsonEncode s).2 = (cString (jsonEncode s).1).length ∧
      s.length + 2 ≤ (jsonEncode s).2 ∧ (jsonEncode s).2 ≤ 2 * s.length + 2) ∧
    ∀ (v : Value) (t : Text), Writes v t → ∃ root, jsonParse t = some root ∧
      ∀ (e : Entry) (n : JsonTree), Located v e n → n ∈ preorder root ∧
        ∀ s, '\x00' ∉ s →
          (∀ q, e.name = some q → q.IsEncoding s → jsonName n = some s) ∧
          (∀ q, e.value = .scalar (.strings q) → q.IsEncoding s →
            jsonIsString n = true ∧ jsonString n = some s) := by
  have hparse : ∀ {v : Value} {t : Text}, Writes v t → jsonParse t = some v.tree := by
    intro v t h
    exact (Cursor.accepts_of_writes h).jsonParse_eq
  constructor
  · intro s hs
    have hsize : (jsonEncode s).2 = (encoded s).body.length + 2 := by
      rw [jsonEncode_eq hs]
      simp [Str.text]
    have hbounds := length_body_encoded s
    refine ⟨?_, ?_, by omega, by omega⟩
    · have htree : (Value.scalar (.strings ⟨encoded s, []⟩)).tree = .node
          ⟨.string, none, some (⟨encoded s, []⟩ : Quoted).content⟩ .nil .nil := rfl
      rw [hparse (writes_encoded hs), htree, content_encoded]
    · rw [cString_jsonEncode hs, jsonEncode_eq hs]
  · intro v t h
    refine ⟨v.tree, hparse h, ?_⟩
    intro e n hn
    refine ⟨hn.mem_preorder, ?_⟩
    intro s hs
    constructor
    · intro q hq henc
      rw [hn.jsonName_eq, hq, Option.map_some, henc.content_eq hs]
    · intro q hq henc
      obtain ⟨hstring, hvalue⟩ := hn.of_strings hq
      exact ⟨hstring, by rw [hvalue, henc.content_eq hs]⟩

/-- A string with a quote in it, and a document with a name and a value that need escapes. -/
theorem jsonParse_jsonEncode_member :
    jsonParse (cString (jsonEncode "a\"b".toList).1)
      = some (.node ⟨.string, none, some "a\"b".toList⟩ .nil .nil) ∧
    ∃ root, jsonParse "\x7b \"n\\/\" : \"\\\\\" \x7d".toList = some root ∧
      ∃ n ∈ preorder root, jsonName n = some "n/".toList ∧ jsonString n = some "\\".toList := by
  obtain ⟨halone, hwithin⟩ := jsonParse_jsonEncode
  refine ⟨(halone _ (by decide)).1, ?_⟩
  let name : Quoted := ⟨encoded "n/".toList, []⟩
  let value : Quoted := ⟨encoded "\\".toList, []⟩
  obtain ⟨root, hroot, hall⟩ := hwithin (.object [(name, .scalar (.strings value))])
    "\x7b \"n\\/\" : \"\\\\\" \x7d".toList (padded_of_spells (by decide +kernel))
  obtain ⟨hmem, hencoded⟩ := hall ⟨some name, .scalar (.strings value)⟩ _
    (@Located.elem _ _ _ [] [] _ .root rfl)
  refine ⟨root, hroot, _, hmem, ?_, ?_⟩
  · exact (hencoded _ (by decide)).1 name rfl (isEncoding_encoded (by decide))
  · exact ((hencoded _ (by decide)).2 value rfl (isEncoding_encoded (by decide))).2

end Json
end TsnController
