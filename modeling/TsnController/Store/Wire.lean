import TsnController.Client.Emit
import TsnController.Lib.Tokens
import TsnController.Lib.Wire
import TsnController.Store.Interleave
import TsnController.Store.Select
import TsnController.Store.Versions

/-!
# `ReadFile.c`: statements as text

A statement reaches the server as text. `InsertConfigInDB` prints it into a buffer of 200 bytes,
with the switch number as it stands in the configuration, and the server makes a statement of it
again. How the server reads is not ours to say. All that is asked of it is that it goes by words and
signs: a text that has those of a statement is read as that statement (`ReadsTokens`).

Where a switch number is one word that is not too long, every statement fits into its buffer and has
the words and signs of what it was meant to be, so that a table that is filled through texts is the
table of `Store.Interleave`, whatever the runs and the order of their statements are
(`wire_transparent`).

The query of `Select_args` has two words from the command line in it. They are made of letters and
digits, because `ReadArgumentValue` copies nothing else: whatever is typed, the server is asked one
question with at most a word in each of two places (`select_one_question`).
-/

set_option autoImplicit false

namespace TsnController
namespace Store

open CLib Lib Client

/-! ## Printing -/

def insertHead : Text :=
  "INSERT INTO info(switch_number,port_number,list_number,index_,period,gates_state) VALUES(".toList

def selectHead : Text :=
  ("select list_number, switch_number from info group by switch_number, list_number "
    ++ "HAVING switch_number=").toList

def selectTail : Text := " order by list_number DESC".toList

/-- A value behind the first. -/
def printValue (n : Int) : Text := ", ".toList ++ formatD n

/-- The two `sprintf` of `InsertConfigInDB`. -/
def Statement.text : Statement → Text
  | .select w => selectHead ++ (w ++ selectTail)
  | .insert w port list index period gates =>
    insertHead ++ (w ++ (printValue port.toInt ++ (printValue list.toInt ++
      (printValue index.toInt ++ (printValue period ++ (printValue gates.toInt ++ [')']))))))

/-- The switch it is about. -/
def Statement.number : Statement → Text
  | .select w => w
  | .insert w _ _ _ _ _ => w

/-- `malloc(sizeof(char)*200)`. -/
def querySize : Nat := 200

def printQuery (q : Statement) : Except Halt Text :=
  if q.text.length < querySize then .ok q.text else .error .undefined

/-! ## Words and signs -/

/-- A keyword, or the name of a table or a column. -/
def name (s : String) : Token := .word s.toList

/-- `INSERT INTO info(…) VALUES(`, up to the first value. -/
def insertTokens : List Token :=
  [name "INSERT", name "INTO", name "info", .sign '(',
    name "switch_number", .sign ',', name "port_number", .sign ',', name "list_number", .sign ',',
    name "index_", .sign ',', name "period", .sign ',', name "gates_state", .sign ')',
    name "VALUES", .sign '(']

/-- The `select`, up to the switch number. -/
def selectTokens : List Token :=
  [name "select", name "list_number", .sign ',', name "switch_number", name "from", name "info",
    name "group", name "by", name "switch_number", .sign ',', name "list_number",
    name "HAVING", name "switch_number", .sign '=']

def orderTokens : List Token := [name "order", name "by", name "list_number", name "DESC"]

def valueTokens (n : Int) : List Token := .sign ',' :: numberTokens n

/-- A statement, word by word and sign by sign. -/
def Statement.tokens : Statement → List Token
  | .select w => selectTokens ++ .word w :: orderTokens
  | .insert w port list index period gates =>
    insertTokens ++ .word w :: (valueTokens port.toInt ++ (valueTokens list.toInt ++
      (valueTokens index.toInt ++ (valueTokens period ++ (valueTokens gates.toInt ++
        [.sign ')'])))))

/-- The server reads by words and signs, as far as these statements go: two texts that differ in
white space only are the same to it. -/
def ReadsTokens (read : Text → Option Statement) : Prop :=
  ∀ (q : Statement) (text : Text), tokens text = q.tokens → read text = some q

/-- A switch number that is one word. -/
def IsWord (w : Text) : Prop := w ≠ [] ∧ ∀ c ∈ w, isalnum c = true

theorem wordChar_of_isalnum {c : Char} (h : isalnum c = true) : wordChar c = true := by
  simpa [isalnum, wordChar, Char.isAlphanum] using Or.inl (by simpa [isalnum] using h)

theorem tokens_of_isWord {w : Text} (hw : IsWord w) : tokens w = [.word w] := by
  rw [tokens_word fun c hc => wordChar_of_isalnum (hw.2 c hc), flush, if_neg hw.1]

theorem tokens_formatD (n : Int) : tokens (formatD n) = numberTokens n := by
  unfold formatD numberTokens
  split
  · exact tokens_minus n.natAbs
  · exact tokens_toDigits n.natAbs

theorem tokens_printValue (n : Int) : tokens (printValue n) = valueTokens n := by
  have hcomma : tokens ", ".toList = [.sign ','] := by decide
  have hlast : ", ".toList.getLast? = some ' ' := rfl
  rw [printValue, tokens_append_of_last hlast (by decide), hcomma, tokens_formatD]
  rfl

theorem ends_printValue (n : Int) (rest : Text) : Ends (printValue n ++ rest) :=
  ends_cons (by decide)

theorem tokens_insert {w : Text} (hw : IsWord w) (port list index : Int32) (period : Int)
    (gates : Int32) : tokens (Statement.insert w port list index period gates).text =
      (Statement.insert w port list index period gates).tokens := by
  have hhead : tokens insertHead = insertTokens := by decide +kernel
  have hclose : Ends [')'] := ends_cons (by decide)
  have hsign : tokens [')'] = [.sign ')'] := by decide
  have hlast : insertHead.getLast? = some '(' := by decide +kernel
  rw [Statement.text, tokens_append_of_last hlast (by decide),
    tokens_append (ends_printValue _ _), tokens_of_isWord hw, tokens_append (ends_printValue _ _),
    tokens_append (ends_printValue _ _), tokens_append (ends_printValue _ _),
    tokens_append (ends_printValue _ _), tokens_append hclose, hsign, hhead]
  simp only [tokens_printValue]
  rfl

theorem tokens_select {w : Text} (hw : IsWord w) :
    tokens (Statement.select w).text = (Statement.select w).tokens := by
  have hhead : tokens selectHead = selectTokens := by decide +kernel
  have horder : tokens selectTail = orderTokens := by decide +kernel
  have htail : Ends selectTail := ends_cons (by decide)
  have hlast : selectHead.getLast? = some '=' := by decide +kernel
  rw [Statement.text, tokens_append_of_last hlast (by decide), tokens_append htail,
    tokens_of_isWord hw, hhead, horder]
  rfl

/-- What is printed has the words and signs of the statement. -/
theorem tokens_text (q : Statement) (hw : IsWord q.number) : tokens q.text = q.tokens := by
  cases q with
  | select w => exact tokens_select hw
  | insert w port list index period gates => exact tokens_insert hw port list index period gates

/-! ## Room -/

theorem length_printNat {n k : Nat} (hk : 0 < k) (h : n < 10 ^ k) :
    (printValue n).length ≤ k + 2 := by
  have hdigits : (Nat.toDigits 10 n).length ≤ k :=
    (Nat.length_toDigits_le_iff (by decide) hk).mpr h
  rw [printValue, formatD_natCast, List.length_append, Nat.add_comm]
  exact Nat.add_le_add_right hdigits 2

/-- One place more for a sign. -/
theorem length_printValue {n : Int} {k : Nat} (hk : 0 < k) (h : n.natAbs < 10 ^ k) :
    (printValue n).length ≤ k + 3 := by
  have hdigits : (Nat.toDigits 10 n.natAbs).length ≤ k :=
    (Nat.length_toDigits_le_iff (by decide) hk).mpr h
  have hformat : (formatD n).length ≤ k + 1 := by
    unfold formatD
    split
    · exact Nat.succ_le_succ hdigits
    · exact Nat.le_succ_of_le hdigits
  rw [printValue, List.length_append, Nat.add_comm]
  exact Nat.add_le_add_right hformat 2

theorem length_printInt32 (c : Int32) : (printValue c.toInt).length ≤ 13 := by
  have hle := c.le_toInt
  have hlt := c.toInt_lt
  exact length_printValue (k := 10) (by decide) (by omega)

theorem length_printIndex {k : Nat} (hk : k < 0x80000000) :
    (printValue (Int32.ofNat k).toInt).length ≤ 12 := by
  have hindex : (Int32.ofNat k).toInt = k := Int32.toInt_ofNat_of_lt hk
  rw [hindex]
  exact length_printNat (k := 10) (by decide) (by omega)

theorem length_printPeriod (period : UInt64) : (printValue (formatLi period)).length ≤ 22 := by
  have hle : -(2 ^ 63 : Int) ≤ formatLi period := Int.le_bmod (by decide)
  have hlt : formatLi period < 2 ^ 63 := Int.bmod_lt (by decide)
  exact length_printValue (k := 19) (by decide) (by omega)

/-- The longest switch number for which there is always room. -/
def numberSize : Nat := 36

theorem length_select {w : Text} (hw : w.length ≤ numberSize) :
    (Statement.select w).text.length < querySize := by
  have hhead : selectHead.length = 101 := by decide +kernel
  have htail : selectTail.length = 26 := by decide +kernel
  rw [Statement.text, List.length_append, List.length_append, hhead, htail]
  unfold querySize numberSize at *
  omega

theorem length_request {sw : Switx} (hw : sw.number.length ≤ numberSize) (listNumber : Int32)
    {e : Int32 × Nat × Entry} (he : e.2.1 < 0x80000000) :
    (request sw listNumber e).text.length < querySize := by
  have hhead : insertHead.length = 89 := by decide +kernel
  have hport := length_printInt32 e.1
  have hlist := length_printInt32 listNumber
  have hindex := length_printIndex he
  have hperiod := length_printPeriod e.2.2.period
  have hgates := length_printInt32 e.2.2.gatesState
  rw [request, Statement.text]
  simp only [List.length_append, List.length_singleton, hhead]
  unfold querySize numberSize at *
  omega

/-! ## The runs -/

/-- A configuration whose switch numbers are words that are short enough. -/
def Printable (switches : List Switx) : Prop :=
  ∀ sw ∈ switches, IsWord sw.number ∧ sw.number.length ≤ numberSize

/-- A statement fits into its buffer and is read as what it was. -/
abbrev Arrives (read : Text → Option Statement) : Statement → Prop :=
  World.Arrives printQuery read

theorem ReadsTokens.arrives {read : Text → Option Statement} (hread : ReadsTokens read)
    {q : Statement} (hw : IsWord q.number) (hlength : q.text.length < querySize) :
    Arrives read q :=
  ⟨q.text, if_pos hlength, hread q q.text (tokens_text q hw)⟩

section Asks

variable {P : Statement → Prop}

theorem asks_insertSwitch {sw : Switx} (hselect : P (.select sw.number))
    (hinsert : ∀ n, ∀ e ∈ sw.entries, P (request sw n e)) : (insertSwitch sw).Asks P := by
  rw [insertSwitch_eq]
  refine ⟨hselect, ?_⟩
  intro answer
  cases answer with
  | error => trivial
  | done => trivial
  | lists numbers =>
    refine Proc.Asks.bind ?_ fun listNumber => Proc.Asks.bind ?_ fun _ => trivial
    · cases numbers with
      | nil => trivial
      | cons n rest =>
        rw [nextListNumber]
        split
        · trivial
        · trivial
    · refine Proc.asks_forM fun q hq => ?_
      obtain ⟨e, he, rfl⟩ := List.mem_map.mp hq
      refine ⟨hinsert listNumber e he, fun answer => ?_⟩
      cases answer with
      | error => trivial
      | done => trivial
      | lists numbers => trivial

theorem asks_insertConfigInDB {switches : List Switx}
    (hselect : ∀ sw ∈ switches, P (.select sw.number))
    (hinsert : ∀ sw ∈ switches, ∀ n, ∀ e ∈ sw.entries, P (request sw n e)) :
    (insertConfigInDB switches).Asks P := by
  induction switches with
  | nil => trivial
  | cons sw rest ih =>
    rw [List.forall_mem_cons] at hselect hinsert
    refine (asks_insertSwitch hselect.1 hinsert.1).bind fun listNumber => ?_
    exact (ih hselect.2 hinsert.2).bind fun _ => trivial

end Asks

theorem Printable.asks {switches : List Switx} (h : Printable switches)
    {read : Text → Option Statement} (hread : ReadsTokens read) :
    (insertConfigInDB switches).Asks (Arrives read) := by
  refine asks_insertConfigInDB (fun sw hsw => ?_) fun sw hsw n e he => ?_
  · exact hread.arrives (h sw hsw).1 (length_select (h sw hsw).2)
  · exact hread.arrives (h sw hsw).1 (length_request (h sw hsw).2 n (index_lt he))

/-- `InsertConfigInDB`, with its statements printed. -/
def insertConfigInDBText (switches : List Switx) : Proc Text Answer Halt (List Int32) :=
  (insertConfigInDB switches).send printQuery

/-- `mysql_query`, for a text. What cannot be read is an error. -/
def serveText (read : Text → Option Statement) (sqlInt : Text → Option Int) :
    Info → Text → Answer × Info :=
  receive read .error (serve sqlInt)

/-- **Texts are as good as statements**, to every server that reads by words and signs. If all
switch numbers are printable, then after any turns of any number of runs the table is the same,
every run has the same ahead of it, and what was sent is what the statements are printed as. -/
theorem wire_transparent {read : Text → Option Statement} (hread : ReadsTokens read)
    (sqlInt : Text → Option Int) {ι : Type} [DecidableEq ι] (switches : ι → List Switx)
    (h : ∀ i, Printable (switches i)) (t : Info) (turns : List ι) :
    World.Mirrors printQuery
      ((World.start (fun i => insertConfigInDB (switches i)) t).after (serve sqlInt) turns)
      ((World.start (fun i => insertConfigInDBText (switches i)) t).after (serveText read sqlInt)
        turns) := by
  have hstart : World.Mirrors printQuery (World.start (fun i => insertConfigInDB (switches i)) t)
      (World.start (fun i => insertConfigInDBText (switches i)) t) :=
    ⟨fun _ => rfl, rfl, rfl⟩
  exact World.after_send hstart (fun i => (h i).asks hread) turns

/-! ### The least reader

It reads the two statements and nothing else. -/

def readInteger (ts : List Token) : Option (Int × List Token) :=
  (expect [.sign ','] ts).bind readNumber

/-- … for a column whose values the client has as `int`. -/
def readColumn (ts : List Token) : Option (Int32 × List Token) := do
  let (n, ts) ← readInteger ts
  let c ← toColumn n
  some (c, ts)

def readInsert (ts : List Token) : Option Statement := do
  let ts ← expect insertTokens ts
  let (w, ts) ← readWord ts
  let (port, ts) ← readColumn ts
  let (list, ts) ← readColumn ts
  let (index, ts) ← readColumn ts
  let (period, ts) ← readInteger ts
  let (gates, ts) ← readColumn ts
  if ts = [Token.sign ')'] then some (.insert w port list index period gates) else none

def readSelect (ts : List Token) : Option Statement := do
  let ts ← expect selectTokens ts
  let (w, ts) ← readWord ts
  if ts = orderTokens then some (.select w) else none

def readStatement (text : Text) : Option Statement :=
  match readInsert (tokens text) with
  | some q => some q
  | none => readSelect (tokens text)

@[simp] theorem readInteger_valueTokens (n : Int) (ts : List Token) :
    readInteger (valueTokens n ++ ts) = some (n, ts) :=
  readNumber_numberTokens n ts

theorem toColumn_toInt (c : Int32) : toColumn c.toInt = some c := by
  have hle := c.le_toInt
  have hlt := c.toInt_lt
  rw [toColumn, if_pos (by omega), Int32.ofInt_toInt]

@[simp] theorem readColumn_valueTokens (c : Int32) (ts : List Token) :
    readColumn (valueTokens c.toInt ++ ts) = some (c, ts) := by
  rw [readColumn, readInteger_valueTokens]
  simp [toColumn_toInt]

theorem readInsert_insert (w : Text) (port list index : Int32) (period : Int) (gates : Int32) :
    readInsert (Statement.insert w port list index period gates).tokens =
      some (.insert w port list index period gates) := by
  rw [readInsert, Statement.tokens]
  simp [readWord]

/-- An INSERT starts with another word. -/
theorem readInsert_select (w : Text) : readInsert (Statement.select w).tokens = none := by
  have hne : name "INSERT" ≠ name "select" := by decide
  rw [readInsert, Statement.tokens, insertTokens, selectTokens, List.cons_append, expect,
    if_neg hne]
  rfl

theorem readSelect_select (w : Text) :
    readSelect (Statement.select w).tokens = some (.select w) := by
  rw [readSelect, Statement.tokens]
  simp [readWord]

theorem readsTokens_readStatement : ReadsTokens readStatement := by
  intro q text htext
  rw [readStatement, htext]
  cases q with
  | select w => rw [readInsert_select, readSelect_select]
  | insert w port list index period gates => rw [readInsert_insert]

/-- Two runs for one switch, with one entry each. -/
def sameSwitch (second : Bool) : List Switx :=
  [⟨"64".toList, [⟨if second then 2 else 1, [⟨200000, 128⟩], by decide⟩]⟩]

theorem wire_transparent_two : (∀ i, Printable (sameSwitch i)) ∧
    World.Mirrors printQuery
      ((World.start (fun i => insertConfigInDB (sameSwitch i)) Info.empty).after (serve decimal)
        [false, true, true, false])
      ((World.start (fun i => insertConfigInDBText (sameSwitch i)) Info.empty).after
        (serveText readStatement decimal) [false, true, true, false]) := by
  have halnum : "64".toList.all isalnum = true := by decide
  have hnumber : IsWord "64".toList ∧ "64".toList.length ≤ numberSize :=
    ⟨⟨by simp, List.all_eq_true.mp halnum⟩, by decide⟩
  have hprintable : ∀ i, Printable (sameSwitch i) := by
    intro i sw hsw
    rw [List.mem_singleton.mp hsw]
    exact hnumber
  exact ⟨hprintable,
    wire_transparent readsTokens_readStatement decimal sameSwitch hprintable Info.empty _⟩

/-! ## The query of `Select_args` -/

theorem isalnum_readValue (offset : Nat) (pos : Text) :
    ∀ c ∈ (readValue offset pos).appended, isalnum c = true := by
  induction pos generalizing offset with
  | nil => exact fun c hc => absurd hc (by simp [readValue])
  | cons d ds ih =>
    rw [readValue]
    split
    · rename_i hd
      intro c hc
      rcases List.mem_cons.mp hc with rfl | hc
      · exact hd
      · exact ih (offset + 1) c hc
    · exact fun c hc => absurd hc (by simp)

/-- Only letters and digits are copied. -/
theorem isalnum_readArgumentLoop (arg : Char) (n offset : Nat) (pos : Text) :
    ∀ c ∈ (readArgumentLoop arg n offset pos).appended, isalnum c = true := by
  induction n generalizing offset pos with
  | zero => exact fun c hc => absurd hc (by simp [readArgumentLoop])
  | succ n ih =>
    cases pos with
    | nil => exact fun c hc => absurd hc (by simp [readArgumentLoop])
    | cons d ds =>
      by_cases hd : d = '-'
      · subst hd
        cases ds with
        | nil => exact fun c hc => absurd hc (by simp [readArgumentLoop])
        | cons e es =>
          rw [readArgumentLoop_pair]
          split
          · exact isalnum_readValue (offset + 3) es.tail
          · exact ih (offset + 2) es
      · rw [readArgumentLoop_plain hd]
        exact ih (offset + 1) ds

def questionHead : Text :=
  "SELECT  port_number, index_, period, gates_state from info where switch_number = ".toList

def questionMiddle : Text := " and list_number = ".toList

def questionTail : Text := " order by port_number, index_ asc".toList

theorem tokens_question {s l : Text} (hs : ∀ c ∈ s, isalnum c = true)
    (hl : ∀ c ∈ l, isalnum c = true) :
    tokens (questionHead ++ s ++ questionMiddle ++ l ++ questionTail) =
      tokens questionHead ++ flush s ++ tokens questionMiddle ++ flush l ++
        tokens questionTail := by
  have hword : ∀ {w : Text}, (∀ c ∈ w, isalnum c = true) → tokens w = flush w :=
    fun hw => tokens_word fun c hc => wordChar_of_isalnum (hw c hc)
  have hmiddle : Ends (questionMiddle ++ (l ++ questionTail)) := ends_cons (by decide)
  have htail : Ends questionTail := ends_cons (by decide)
  have hhead : questionHead.getLast? = some ' ' := by decide +kernel
  have hlast : questionMiddle.getLast? = some ' ' := by decide +kernel
  simp only [List.append_assoc]
  rw [tokens_append_of_last hhead (by decide), tokens_append hmiddle,
    tokens_append_of_last hlast (by decide), tokens_append htail, hword hs, hword hl]

/-- **One question.** Whatever is typed, and whatever stands behind it in the buffer, what is sent
fits into its buffer and is the same statement with at most a word in each of two places, unless
reading the options has already gone wrong. -/
theorem select_one_question {line : CommandLine} (b : Buffer line) :
    selectArgsQuery b = .error .undefined ∨
    ∃ text, selectArgsQuery b = .ok text ∧ text.length < querySize ∧
      (∀ c ∈ (selectArgument 's' b).appended ++ (selectArgument 'l' b).appended,
        isalnum c = true) ∧
      tokens text = tokens questionHead ++ flush (selectArgument 's' b).appended ++
        tokens questionMiddle ++ flush (selectArgument 'l' b).appended ++ tokens questionTail := by
  have hs : ∀ c ∈ (selectArgument 's' b).appended, isalnum c = true :=
    isalnum_readArgumentLoop 's' _ 0 _
  have hl : ∀ c ∈ (selectArgument 'l' b).appended, isalnum c = true :=
    isalnum_readArgumentLoop 'l' _ 0 _
  unfold selectArgsQuery ArgumentRead.result
  generalize selectArgument 's' b = rs at hs ⊢
  generalize selectArgument 'l' b = rl at hl ⊢
  by_cases hswitch : rs.outside = true ∨ destSize ≤ rs.appended.length
  · left
    rw [if_pos hswitch]
    rfl
  · by_cases hlist : rl.outside = true ∨ destSize ≤ rl.appended.length
    · left
      rw [if_neg hswitch, if_pos hlist]
      rfl
    · right
      rw [if_neg hswitch, if_neg hlist]
      rw [not_or, Nat.not_le] at hswitch hlist
      refine ⟨_, rfl, ?_, List.forall_mem_append.mpr ⟨hs, hl⟩, tokens_question hs hl⟩
      have hfixed : questionHead.length + questionMiddle.length + questionTail.length = 133 := by
        decide +kernel
      show (questionHead ++ rs.appended ++ questionMiddle ++ rl.appended ++ questionTail).length < _
      simp only [List.length_append]
      unfold querySize
      unfold destSize at *
      omega

end Store
end TsnController
