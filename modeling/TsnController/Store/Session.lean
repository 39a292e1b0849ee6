import TsnController.Client.Emit
import TsnController.Store.Growth
import TsnController.Store.Select
import TsnController.Store.Versions

/-!
# `ReadFile.c`: the command loop

`main` reads a command, does what it says and starts over, for ever. One iteration is `iteration`:
it opens a connection (none is ever closed), reads a piece of the input into the 256-byte buffer,
compares the buffer with the commands and clears it. What is said about the loop is said about the
state after any number of iterations, so that it does not matter that the loop has no end. The end
of the input is none either: the loop goes on as long as it gets connections.

`fgets` takes at most 255 characters. A longer line is therefore several commands (`commands`).

The world around the loop is a `Setting`. What `ReadConfigFile` and `WriteXmlInstance` leave for a
`store` is taken from there, and so is whether the server gives a connection, what it makes of the
words that are pasted into its statements and the order in which it lists what `Show` asks for. Of
what is printed only the answers of `Show` and `Select_args` are kept.
-/

set_option autoImplicit false

namespace TsnController
namespace Store

open CLib Lib Client

/-! ## The buffer -/

/-- `char buffer[256]`. Nothing initialises it. It is declared inside the loop, and every iteration
finds it at the same place of the stack. -/
structure CommandBuffer where
  bytes : Text
  size : bytes.length = 256

/-- What `fgets` takes from the input: up to a newline, and at most `n` characters. -/
def takeLine : Nat → Text → Text
  | 0, _ => []
  | _ + 1, [] => []
  | n + 1, c :: cs => if c = '\n' then [c] else c :: takeLine n cs

theorem length_takeLine (n : Nat) (input : Text) : (takeLine n input).length ≤ n := by
  induction n generalizing input with
  | zero => exact Nat.le_refl 0
  | succ n ih =>
    cases input with
    | nil => exact Nat.zero_le _
    | cons c cs =>
      rw [takeLine]
      split
      · exact Nat.le_add_left 1 n
      · exact Nat.succ_le_succ (ih cs)

namespace CommandBuffer

/-- `fgets(buffer, sizeof buffer, stdin)`, when there is something to read. -/
def fgets (b : CommandBuffer) (stdin : Text) : CommandBuffer where
  bytes := takeLine 255 stdin ++ nul :: b.bytes.drop ((takeLine 255 stdin).length + 1)
  size := by
    have hle := length_takeLine 255 stdin
    have hsize := b.size
    rw [List.length_append, List.length_cons, List.length_drop]
    omega

/-- `buffer[strcspn(buffer, "\n")] = 0`. -/
def cutNewline (b : CommandBuffer) : CommandBuffer where
  bytes := b.bytes.set (b.bytes.takeWhile (fun c => c ≠ '\n' ∧ c ≠ nul)).length nul
  size := by rw [List.length_set, b.size]

/-- `memset(buffer, 0, strlen(buffer))`. -/
def clear (b : CommandBuffer) : CommandBuffer where
  bytes := List.replicate (strlen b.bytes) nul ++ b.bytes.drop (strlen b.bytes)
  size := by
    have hle : strlen b.bytes ≤ b.bytes.length := (List.takeWhile_sublist _).length_le
    have hsize := b.size
    rw [List.length_append, List.length_replicate, List.length_drop]
    omega

/-- The string in the buffer. -/
def text (b : CommandBuffer) : Text := b.bytes.takeWhile (· ≠ nul)

end CommandBuffer

/-- `strstr(haystack, needle) != NULL`. -/
def strstr (needle : Text) : Text → Bool
  | [] => needle.isEmpty
  | c :: cs => needle.isPrefixOf (c :: cs) || strstr needle cs

/-! ## The server and the files -/

/-- An answer to `select distinct list_number, switch_number from info order by switch_number`. The
rows of one switch may come in any order. -/
structure IsListing (t : Info) (rows : List (Int32 × Int32)) : Prop where
  nodup : rows.Nodup
  mem_iff : ∀ n s, (n, s) ∈ rows ↔ ∃ r ∈ t.rows, r.listNumber = n ∧ r.switchNumber = s
  sorted : rows.Pairwise fun a b => a.2.toInt ≤ b.2.toInt

/-- A number that fits into the ten bytes `Select_args` has for it. -/
def IsNumber (w : Text) : Prop := w ≠ [] ∧ Digits w ∧ w.length < destSize

instance : DecidablePred IsNumber := fun w =>
  decidable_of_iff (w ≠ [] ∧ w.all Char.isDigit = true ∧ w.length < destSize) (by
    rw [List.all_eq_true]
    rfl)

/-- What a session is run against. -/
structure Setting where
  /-- a switch number, in the statements of `InsertConfigInDB` -/
  sqlInt : Text → Option Int
  /-- a word in the `where` of `Select_args`: an error, or a value for every row -/
  sqlTerm : Text → Option (Row → Option Int)
  /-- the answer to the query of `Show` -/
  listing : Info → List (Int32 × Int32)
  /-- whether the `k`-th `mysql_real_connect` succeeds -/
  connects : Nat → Bool
  /-- what `ReadConfigFile` and `WriteXmlInstance` leave at the `k`-th `store` -/
  readConfigFile : Nat → Except Halt (List Switx)
  isListing : ∀ t, IsListing t (listing t)
  /-- `where switch_number =  and …` is not a statement -/
  sqlTerm_nil : sqlTerm [] = none
  sqlTerm_digits : ∀ w, IsNumber w →
    sqlTerm w = some fun _ => some (Int.ofNat (Nat.ofDigitChars 10 w 0))

/-- What `Show` asks for, computed. -/
def Info.listing (t : Info) : List (Int32 × Int32) :=
  (t.rows.map fun r => (r.listNumber, r.switchNumber)).dedup.insertionSort
    fun a b => a.2.toInt ≤ b.2.toInt

theorem Info.isListing_listing (t : Info) : IsListing t t.listing where
  nodup := (List.perm_insertionSort _ _).nodup_iff.mpr (List.nodup_dedup _)
  mem_iff n s := by
    rw [Info.listing, (List.perm_insertionSort _ _).mem_iff, List.mem_dedup, List.mem_map]
    exact exists_congr fun r => and_congr_right fun _ => Prod.mk.injEq _ _ _ _ ▸ Iff.rfl
  sorted :=
    haveI : Std.Total fun a b : Int32 × Int32 => a.2.toInt ≤ b.2.toInt :=
      ⟨fun a b => Int.le_total a.2.toInt b.2.toInt⟩
    haveI : IsTrans (Int32 × Int32) fun a b => a.2.toInt ≤ b.2.toInt :=
      ⟨fun _ _ _ => Int.le_trans⟩
    List.pairwise_insertionSort _ _

/-- A server that understands digits only, and never refuses a connection. -/
def Setting.plain (configs : Nat → List Switx) : Setting where
  sqlInt := decimal
  sqlTerm w := (decimal w).map fun n _ => some n
  listing := Info.listing
  connects _ := true
  readConfigFile k := .ok (configs k)
  isListing := Info.isListing_listing
  sqlTerm_nil := rfl
  sqlTerm_digits w hw := by
    rw [decimal, if_pos ⟨hw.1, List.all_eq_true.mpr hw.2.1⟩]
    rfl

/-- A column of a row, as the server sends it. -/
def columnText (n : Int32) : Text := formatD n.toInt

/-- What `Show` prints. -/
def showText (rows : List (Int32 × Int32)) : Text :=
  "   List ID    | Switch number\n".toList
  ++ "--------------|-------------\n".toList
  ++ rows.flatMap fun row =>
      "       ".toList ++ columnText row.1 ++ "           ".toList ++ columnText row.2 ++ ['\n']

/-- The answer to the query of `Select_args`, with the two words pasted into it. -/
def selectAnswer (env : Setting) (t : Info) (inputSwitch inputList : Text) : Option (List Row) :=
  match env.sqlTerm inputSwitch, env.sqlTerm inputList with
  | some switchTerm, some listTerm =>
    some ((t.rows.filter fun r => switchTerm r = some r.switchNumber.toInt ∧
      listTerm r = some r.listNumber.toInt).insertionSort Info.Ascending)
  | _, _ => none

/-- What `Select_args` prints before it sends its query, and after the answer. -/
def inputText (inputSwitch inputList : Text) : Text :=
  "S: ".toList ++ inputSwitch ++ ['\n'] ++ ("L: ".toList ++ inputList ++ ['\n'])

def selectText (rows : List Row) : Text :=
  "Port number | Index |    Period    | Gates state \n".toList
  ++ "------------|-------|--------------|-------------\n".toList
  ++ rows.flatMap fun r =>
      "    ".toList ++ columnText r.portNumber ++ "         ".toList ++ columnText r.index
      ++ "        ".toList ++ columnText r.period ++ "           ".toList
      ++ columnText r.gatesState ++ " \n".toList

/-! ## One iteration -/

structure Session where
  stdin : Text
  buffer : CommandBuffer
  table : Info
  /-- how many have been opened -/
  connections : Nat
  /-- how often `store` has been called -/
  stores : Nat
  /-- what `Show` and `Select_args` have printed -/
  printed : Text

/-- The program when it starts, with a buffer of zeros and an empty table. -/
def Session.start (stdin : Text) : Session where
  stdin := stdin
  buffer := ⟨List.replicate 256 nul, List.length_replicate⟩
  table := .empty
  connections := 0
  stores := 0
  printed := []

/-- The loop goes on, or the program has ended. -/
inductive Step
  | running (s : Session)
  | ended (halt : Halt) (s : Session)

namespace Step

def session : Step → Session
  | running s => s
  | ended _ s => s

def andThen : Step → (Session → Step) → Step
  | running s, f => f s
  | ended halt s, _ => ended halt s

end Step

/-- A connection for every iteration, which none of them closes. -/
def connect (env : Setting) (s : Session) : Step :=
  if env.connects s.connections = true then
    .running { s with connections := s.connections + 1 }
  else .ended (.exit 1) s

/-- `fgets`, and the newline cut off. -/
def readCommand (s : Session) : Session :=
  { s with
    buffer := (s.buffer.fgets s.stdin).cutNewline
    stdin := s.stdin.drop (takeLine 255 s.stdin).length }

def isStore (text : Text) : Prop := text = "store".toList ∨ text = "store-upload".toList

instance : DecidablePred isStore := fun _ => inferInstanceAs (Decidable (_ ∨ _))

/-- The first `if` of the loop. -/
def storeCommand (env : Setting) (s : Session) : Step :=
  if isStore s.buffer.text then
    match env.readConfigFile s.stores with
    | .error halt => .ended halt { s with stores := s.stores + 1 }
    | .ok switches =>
      match (insertConfigInDB switches).run (serve env.sqlInt) s.table with
      | (.error halt, t) => .ended halt { s with stores := s.stores + 1, table := t }
      | (.ok _, t) => .running { s with stores := s.stores + 1, table := t }
  else .running s

/-- The second, with `Show`. -/
def showCommand (env : Setting) (s : Session) : Step :=
  if s.buffer.text = "show".toList then
    .running { s with printed := s.printed ++ showText (env.listing s.table) }
  else .running s

/-- One of the two options of `Select_args`. -/
def selectOption (arg : Char) (b : CommandBuffer) : Except Halt Text :=
  (readArgumentValue arg b.bytes (strlen b.bytes)).result

/-- `Select_args`. -/
def selectArgsCommand (env : Setting) (s : Session) : Step :=
  match selectOption 's' s.buffer with
  | .error halt => .ended halt s
  | .ok inputSwitch =>
    match selectOption 'l' s.buffer with
    | .error halt => .ended halt s
    | .ok inputList =>
      match selectAnswer env s.table inputSwitch inputList with
      | none => .ended (.exit 1) { s with printed := s.printed ++ inputText inputSwitch inputList }
      | some rows =>
        .running { s with
          printed := s.printed ++ inputText inputSwitch inputList ++ selectText rows }

/-- The third. -/
def selectCommand (env : Setting) (s : Session) : Step :=
  if strstr "select ".toList s.buffer.text then selectArgsCommand env s else .running s

/-- The three `if`s. -/
def runCommand (env : Setting) (s : Session) : Step :=
  ((storeCommand env s).andThen (showCommand env)).andThen (selectCommand env)

/-- The end of the body. `strlen` needs a terminator, which a buffer that has never been read into
may lack. -/
def clearCommand (s : Session) : Step :=
  if nul ∈ s.buffer.bytes then .running { s with buffer := s.buffer.clear }
  else .ended .undefined s

/-- The body of the loop. Without input `fgets` returns `NULL`, and only the buffer is cleared. -/
def iteration (env : Setting) (s : Session) : Step :=
  ((connect env s).andThen fun s =>
    if s.stdin = [] then .running s else runCommand env (readCommand s)).andThen clearCommand

/-- The loop after some iterations. -/
def sessionAfter (env : Setting) (s : Session) : Nat → Step
  | 0 => .running s
  | n + 1 => (sessionAfter env s n).andThen (iteration env)

/-! ## What an iteration leaves alone -/

namespace Step

/-- A relation that both parts keep is kept by one after the other. -/
theorem rel_andThen {r : Session → Session → Prop}
    (htrans : ∀ {s s' s'' : Session}, r s s' → r s' s'' → r s s'') {s : Session} {x : Step}
    {f : Session → Step} (hx : r s x.session) (hf : ∀ s, r s (f s).session) :
    r s (x.andThen f).session := by
  cases x with
  | running s' => exact htrans hx (hf s')
  | ended halt s' => exact hx

theorem andThen_andThen (x : Step) (f g : Session → Step) :
    (x.andThen f).andThen g = x.andThen fun s => (f s).andThen g := by
  cases x with
  | running s => rfl
  | ended halt s => rfl

theorem andThen_eq_running {x : Step} {f : Session → Step} {s' : Session}
    (h : x.andThen f = .running s') : ∃ s, x = .running s ∧ f s = .running s' := by
  cases x with
  | running s => exact ⟨s, rfl, h⟩
  | ended halt s => exact absurd h (by simp [andThen])

end Step

section Commands

variable (env : Setting) (s : Session)

/-- Everything the first `if` can do. -/
theorem storeCommand_cases :
    (¬ isStore s.buffer.text ∧ storeCommand env s = .running s) ∨
    (∃ halt, storeCommand env s = .ended halt { s with stores := s.stores + 1 }) ∨
    (∃ switches halt t, (insertConfigInDB switches).run (serve env.sqlInt) s.table =
        (.error halt, t) ∧
      storeCommand env s = .ended halt { s with stores := s.stores + 1, table := t }) ∨
    (isStore s.buffer.text ∧ ∃ switches ns t, env.readConfigFile s.stores = .ok switches ∧
      (insertConfigInDB switches).run (serve env.sqlInt) s.table = (.ok ns, t) ∧
      storeCommand env s = .running { s with stores := s.stores + 1, table := t }) := by
  unfold storeCommand
  by_cases hstore : isStore s.buffer.text
  · rw [if_pos hstore]
    right
    cases hread : env.readConfigFile s.stores with
    | error halt => exact Or.inl ⟨halt, rfl⟩
    | ok switches =>
      right
      cases hrun : (insertConfigInDB switches).run (serve env.sqlInt) s.table with
      | mk result t =>
        cases result with
        | error halt => exact Or.inl ⟨switches, halt, t, hrun, by simp only [hrun]⟩
        | ok ns => exact Or.inr ⟨hstore, switches, ns, t, rfl, hrun, by simp only [hrun]⟩
  · rw [if_neg hstore]
    exact Or.inl ⟨hstore, rfl⟩

/-- The other two only print. -/
def OnlyPrints (s s' : Session) : Prop := ∃ text, s' = { s with printed := text }

theorem OnlyPrints.trans {s s' s'' : Session} (h : OnlyPrints s s') (h' : OnlyPrints s' s'') :
    OnlyPrints s s'' := by
  obtain ⟨text, rfl⟩ := h
  obtain ⟨text', rfl⟩ := h'
  exact ⟨text', rfl⟩

theorem onlyPrints_showCommand : OnlyPrints s (showCommand env s).session := by
  unfold showCommand
  split
  · exact ⟨_, rfl⟩
  · exact ⟨s.printed, rfl⟩

theorem onlyPrints_selectArgsCommand : OnlyPrints s (selectArgsCommand env s).session := by
  unfold selectArgsCommand
  cases selectOption 's' s.buffer with
  | error halt => exact ⟨s.printed, rfl⟩
  | ok inputSwitch =>
    cases selectOption 'l' s.buffer with
    | error halt => exact ⟨s.printed, rfl⟩
    | ok inputList =>
      dsimp only
      cases selectAnswer env s.table inputSwitch inputList with
      | none => exact ⟨_, rfl⟩
      | some rows => exact ⟨_, rfl⟩

theorem onlyPrints_selectCommand : OnlyPrints s (selectCommand env s).session := by
  unfold selectCommand
  split
  · exact onlyPrints_selectArgsCommand env s
  · exact ⟨s.printed, rfl⟩

/-- Show and select, one after the other. -/
theorem runCommand_eq : runCommand env s =
    (storeCommand env s).andThen fun s => (showCommand env s).andThen (selectCommand env) :=
  Step.andThen_andThen _ _ _

theorem onlyPrints_rest :
    OnlyPrints s ((showCommand env s).andThen (selectCommand env)).session :=
  Step.rel_andThen (r := OnlyPrints) OnlyPrints.trans (onlyPrints_showCommand env s)
    (onlyPrints_selectCommand env)

end Commands

/-! ## The table -/

/-- The table has grown. -/
def TableGrows (s s' : Session) : Prop := Grows s.table s'.table

theorem TableGrows.trans {s s' s'' : Session} (h : TableGrows s s') (h' : TableGrows s' s'') :
    TableGrows s s'' :=
  Grows.trans h h'

theorem OnlyPrints.tableGrows {s s' : Session} (h : OnlyPrints s s') : TableGrows s s' := by
  obtain ⟨text, rfl⟩ := h
  exact Grows.refl _

section Table

variable (env : Setting)

theorem tableGrows_storeCommand (s : Session) : TableGrows s (storeCommand env s).session := by
  have hgrows := fun switches => grows_insertConfigInDB env.sqlInt switches s.table
  rcases storeCommand_cases env s with ⟨_, h⟩ | ⟨halt, h⟩ | ⟨switches, halt, t, hrun, h⟩ |
    ⟨_, switches, ns, t, _, hrun, h⟩
  · rw [h]
    exact Grows.refl _
  · rw [h]
    exact Grows.refl _
  · have := hgrows switches
    rw [hrun] at this
    rw [h]
    exact this
  · have := hgrows switches
    rw [hrun] at this
    rw [h]
    exact this

theorem tableGrows_runCommand (s : Session) : TableGrows s (runCommand env s).session := by
  rw [runCommand_eq]
  exact Step.rel_andThen (r := TableGrows) TableGrows.trans (tableGrows_storeCommand env s)
    fun s => (onlyPrints_rest env s).tableGrows

theorem tableGrows_iteration (s : Session) : TableGrows s (iteration env s).session := by
  refine Step.rel_andThen (r := TableGrows) TableGrows.trans
    (Step.rel_andThen (r := TableGrows) TableGrows.trans ?_ ?_) ?_
  · unfold connect
    split
    · exact Grows.refl _
    · exact Grows.refl _
  · intro s
    by_cases hstdin : s.stdin = []
    · rw [if_pos hstdin]
      exact Grows.refl _
    · rw [if_neg hstdin]
      exact tableGrows_runCommand env (readCommand s)
  · intro s
    unfold clearCommand
    split
    · exact Grows.refl _
    · exact Grows.refl _

/-- A session goes on where it was. -/
theorem sessionAfter_add (s : Session) (n k : Nat) : sessionAfter env s (n + k) =
    (sessionAfter env s n).andThen fun s' => sessionAfter env s' k := by
  induction k with
  | zero => cases h : sessionAfter env s n <;> rfl
  | succ k ih =>
    rw [← Nat.add_assoc, sessionAfter, ih, Step.andThen_andThen]
    rfl

theorem tableGrows_sessionAfter (s : Session) (n : Nat) :
    TableGrows s (sessionAfter env s n).session := by
  induction n with
  | zero => exact Grows.refl _
  | succ n ih =>
    exact Step.rel_andThen (r := TableGrows) TableGrows.trans ih (tableGrows_iteration env)

theorem tableGrows_of_le (s : Session) {n m : Nat} (h : n ≤ m) :
    TableGrows (sessionAfter env s n).session (sessionAfter env s m).session := by
  obtain ⟨k, rfl⟩ := Nat.exists_eq_add_of_le h
  rw [sessionAfter_add]
  exact Step.rel_andThen (r := TableGrows) TableGrows.trans (Grows.refl _)
    fun s => tableGrows_sessionAfter env s k

/-- The answer for two numbers. -/
theorem selectAnswer_digits (t : Info) {inputSwitch inputList : Text}
    (hs : IsNumber inputSwitch) (hl : IsNumber inputList) :
    selectAnswer env t inputSwitch inputList =
      some ((t.numbered (Int.ofNat (Nat.ofDigitChars 10 inputSwitch 0))
        (Int.ofNat (Nat.ofDigitChars 10 inputList 0))).insertionSort Info.Ascending) := by
  unfold selectAnswer Info.numbered
  rw [env.sqlTerm_digits inputSwitch hs, env.sqlTerm_digits inputList hl]
  simp only [Option.some.injEq, eq_comm]

/-- **What has been shown once is shown ever after.** A list of a switch that `Select_args` has
found rows in has the same rows for every later `select`, and a list that `Show` has named is named
by every later `show`. -/
theorem answers_stable (s : Session) {n m : Nat} (h : n ≤ m) :
    (∀ inputSwitch inputList : Text, IsNumber inputSwitch → IsNumber inputList →
      ∀ rows, rows ≠ [] →
        selectAnswer env (sessionAfter env s n).session.table inputSwitch inputList = some rows →
        selectAnswer env (sessionAfter env s m).session.table inputSwitch inputList = some rows) ∧
    ∀ row ∈ env.listing (sessionAfter env s n).session.table,
      row ∈ env.listing (sessionAfter env s m).session.table := by
  have hgrows := tableGrows_of_le env s h
  unfold TableGrows at hgrows
  generalize (sessionAfter env s n).session.table = t at hgrows ⊢
  generalize (sessionAfter env s m).session.table = t' at hgrows ⊢
  refine ⟨?_, ?_⟩
  · intro inputSwitch inputList hs hl rows hne hrows
    rw [selectAnswer_digits env t hs hl, Option.some.injEq] at hrows
    rw [selectAnswer_digits env t' hs hl, Option.some.injEq, ← hrows]
    apply congrArg
    apply hgrows.numbered_of_used
    intro hnil
    rw [hnil] at hrows
    exact hne hrows.symm
  · intro row hrow
    obtain ⟨r, hr, hrn, hrs⟩ := ((env.isListing t).mem_iff row.1 row.2).mp hrow
    exact ((env.isListing t').mem_iff row.1 row.2).mpr
      ⟨r, hgrows.rows_prefix.subset hr, hrn, hrs⟩

/-- Two stores of one configuration. -/
def twoStores (n : Nat) : Info :=
  (sessionAfter (.plain fun _ => [onePeriod 10])
    (.start "store\nstore\n".toList) n).session.table

/-- The list that the first `store` has made, before and after the second. -/
theorem answers_stable_twoStores :
    selectAnswer (.plain fun _ => [onePeriod 10]) (twoStores 1) "64".toList "1".toList =
        some [⟨64, 1, 1, 0, 10, 3⟩] ∧
      selectAnswer (.plain fun _ => [onePeriod 10]) (twoStores 2) "64".toList "1".toList =
        some [⟨64, 1, 1, 0, 10, 3⟩] := by
  have hfirst : selectAnswer (.plain fun _ => [onePeriod 10]) (twoStores 1) "64".toList
      "1".toList = some [⟨64, 1, 1, 0, 10, 3⟩] := by
    decide +kernel
  exact ⟨hfirst, (answers_stable _ _ (Nat.le_succ 1)).1 _ _ (by decide +kernel)
    (by decide +kernel) _ (List.cons_ne_nil _ _) hfirst⟩

end Table

/-! ## The commands of an input -/

/-- A character of a command. -/
def inCommand (c : Char) : Bool := c ≠ '\n' ∧ c ≠ nul

/-- The command at the start of the input. -/
def firstCommand (stdin : Text) : Text := (takeLine 255 stdin).takeWhile inCommand

/-- The input behind it. -/
def afterCommand (stdin : Text) : Text := stdin.drop (takeLine 255 stdin).length

/-- The first commands of an input. -/
def commands : Nat → Text → List Text
  | 0, _ => []
  | _ + 1, [] => []
  | n + 1, c :: cs => firstCommand (c :: cs) :: commands n (afterCommand (c :: cs))

theorem takeWhile_append_nul {p : Char → Bool} (hp : p nul = false) (l r : Text) :
    (l ++ nul :: r).takeWhile p = l.takeWhile p := by
  rw [List.takeWhile_append, List.takeWhile_cons_of_neg (by rw [hp]; exact Bool.false_ne_true)]
  split
  · rename_i hall
    rw [List.append_nil, (List.takeWhile_sublist p).eq_of_length hall]
  · rfl

/-- The buffer with a command in it. -/
theorem bytes_readCommand (s : Session) : (readCommand s).buffer.bytes =
    firstCommand s.stdin ++ nul ::
      (takeLine 255 s.stdin ++ nul :: s.buffer.bytes.drop ((takeLine 255 s.stdin).length + 1)).drop
        ((firstCommand s.stdin).length + 1) := by
  have htake : (s.buffer.fgets s.stdin).bytes.takeWhile (fun c => c ≠ '\n' ∧ c ≠ nul) =
      firstCommand s.stdin :=
    takeWhile_append_nul (p := inCommand) rfl _ _
  have hlt : (firstCommand s.stdin).length < (s.buffer.fgets s.stdin).bytes.length := by
    rw [CommandBuffer.size]
    exact Nat.lt_succ_of_le (Nat.le_trans (List.takeWhile_sublist _).length_le
      (length_takeLine 255 s.stdin))
  have hpre : (s.buffer.fgets s.stdin).bytes.take (firstCommand s.stdin).length =
      firstCommand s.stdin := by
    rw [← htake]
    exact (List.prefix_iff_eq_take.mp (List.takeWhile_prefix _)).symm
  show (s.buffer.fgets s.stdin).bytes.set _ nul = _
  rw [htake, List.set_eq_take_append_cons_drop, if_pos hlt, hpre]
  rfl

theorem ne_nul_of_mem_firstCommand {stdin : Text} {c : Char} (h : c ∈ firstCommand stdin) :
    c ≠ nul := by
  have hin : inCommand c = true := List.mem_takeWhile_imp h
  exact (of_decide_eq_true hin).2

theorem text_readCommand (s : Session) : (readCommand s).buffer.text = firstCommand s.stdin := by
  unfold CommandBuffer.text
  rw [bytes_readCommand, takeWhile_append_nul (by simp)]
  apply List.takeWhile_eq_self_iff.mpr
  intro c hc
  exact decide_eq_true (ne_nul_of_mem_firstCommand hc)

section Running

variable {env : Setting} {s s' : Session}

theorem connect_eq_running (h : connect env s = .running s') :
    s' = { s with connections := s.connections + 1 } := by
  unfold connect at h
  split at h
  · cases h
    rfl
  · exact absurd h (by simp)

theorem clearCommand_eq_running (h : clearCommand s = .running s') :
    nul ∈ s.buffer.bytes ∧ s' = { s with buffer := s.buffer.clear } := by
  unfold clearCommand at h
  split at h
  · rename_i hmem
    cases h
    exact ⟨hmem, rfl⟩
  · exact absurd h (by simp)

/-- Without input nothing happens but that the buffer is cleared. -/
theorem iteration_of_eof (h : iteration env s = .running s') (hstdin : s.stdin = []) :
    s'.stdin = [] ∧ s'.buffer = s.buffer.clear ∧ s'.stores = s.stores ∧ s'.table = s.table := by
  obtain ⟨s₂, h₂, hclear⟩ := Step.andThen_eq_running h
  obtain ⟨s₁, hconnect, h₂⟩ := Step.andThen_eq_running h₂
  cases connect_eq_running hconnect
  rw [if_pos hstdin] at h₂
  cases h₂
  rw [(clearCommand_eq_running hclear).2]
  exact ⟨hstdin, rfl, rfl, rfl⟩

/-- **What an iteration has done** if the loop goes on. -/
theorem iteration_of_input (h : iteration env s = .running s') (hstdin : s.stdin ≠ []) :
    s'.stdin = afterCommand s.stdin ∧ s'.buffer = (readCommand s).buffer.clear ∧
    ((¬ isStore (firstCommand s.stdin) ∧ s'.stores = s.stores ∧ s'.table = s.table) ∨
      (isStore (firstCommand s.stdin) ∧ s'.stores = s.stores + 1 ∧ ∃ switches ns,
        env.readConfigFile s.stores = .ok switches ∧
        (insertConfigInDB switches).run (serve env.sqlInt) s.table = (.ok ns, s'.table))) := by
  obtain ⟨s₂, h₂, hclear⟩ := Step.andThen_eq_running h
  obtain ⟨s₁, hconnect, h₂⟩ := Step.andThen_eq_running h₂
  cases connect_eq_running hconnect
  rw [if_neg hstdin, runCommand_eq] at h₂
  obtain ⟨s₃, h₃, h₂⟩ := Step.andThen_eq_running h₂
  -- the two commands behind the first one have only printed
  have hprints : OnlyPrints s₃ s₂ := by
    have hrest := onlyPrints_rest env s₃
    rw [h₂] at hrest
    exact hrest
  obtain ⟨text, rfl⟩ := hprints
  rw [(clearCommand_eq_running hclear).2]
  have htext := text_readCommand { s with connections := s.connections + 1 }
  rcases storeCommand_cases env (readCommand { s with connections := s.connections + 1 }) with
    ⟨hno, heq⟩ | ⟨_, heq⟩ | ⟨_, _, _, _, heq⟩ | ⟨hstore, switches, ns, t, hread, hrun, heq⟩
  · rw [heq] at h₃
    cases h₃
    exact ⟨rfl, rfl, Or.inl ⟨htext ▸ hno, rfl, rfl⟩⟩
  · rw [heq] at h₃
    exact absurd h₃ (by simp)
  · rw [heq] at h₃
    exact absurd h₃ (by simp)
  · rw [heq] at h₃
    cases h₃
    exact ⟨rfl, rfl, Or.inr ⟨htext ▸ hstore, rfl, switches, ns, hread, hrun⟩⟩

theorem sessionAfter_succ (env : Setting) (s : Session) (n : Nat) : sessionAfter env s (n + 1) =
    (iteration env s).andThen fun s' => sessionAfter env s' n := by
  rw [Nat.add_comm, sessionAfter_add]
  rfl

/-- A session that is still running has called `store` once for every such command, and the table
is what these calls have made of it. -/
theorem storeCalls_of_sessionAfter {n : Nat} : ∀ {s : Session},
    sessionAfter env s n = .running s' → ∃ calls ns,
      (List.range' s.stores calls.length).map env.readConfigFile = calls.map Except.ok ∧
      calls.length = ((commands n s.stdin).filter isStore).length ∧
      storeCalls env.sqlInt calls s.table = (.ok ns, s'.table) := by
  induction n with
  | zero =>
    intro s h
    cases h
    exact ⟨[], [], rfl, rfl, rfl⟩
  | succ n ih =>
    intro s h
    rw [sessionAfter_succ] at h
    obtain ⟨s₁, h₁, h⟩ := Step.andThen_eq_running h
    obtain ⟨calls, ns, hcalls, hlength, hstores⟩ := ih h
    cases hstdin : s.stdin with
    | nil =>
      obtain ⟨hrest, _, hcount, htable⟩ := iteration_of_eof h₁ hstdin
      have hnone : commands n ([] : Text) = [] := by cases n <;> rfl
      rw [hrest, hnone] at hlength
      rw [hcount] at hcalls
      rw [htable] at hstores
      exact ⟨calls, ns, hcalls, hlength, hstores⟩
    | cons c cs =>
      obtain ⟨hrest, _, hcase⟩ :=
        iteration_of_input h₁ (by rw [hstdin]; exact List.cons_ne_nil c cs)
      rw [hrest, hstdin] at hlength
      rw [hstdin] at hcase
      rw [commands]
      rcases hcase with ⟨hno, hcount, htable⟩ | ⟨hstore, hcount, switches, ms, hread, hrun⟩
      · rw [List.filter_cons_of_neg (by simpa using hno)]
        rw [hcount] at hcalls
        rw [htable] at hstores
        exact ⟨calls, ns, hcalls, hlength, hstores⟩
      · rw [List.filter_cons_of_pos (by simpa using hstore)]
        refine ⟨switches :: calls, ms ++ ns, ?_, ?_, ?_⟩
        · rw [List.length_cons, List.range'_succ, List.map_cons, List.map_cons, hread, ← hcount,
            hcalls]
        · rw [List.length_cons, List.length_cons, hlength]
        · unfold storeCalls
          rw [hrun]
          simp only [hstores]

end Running

/-! ## At the end of the input -/

namespace CommandBuffer

variable {b : CommandBuffer}

theorem clear_starts (h : nul ∈ b.bytes) : ∃ rest, b.clear.bytes = nul :: rest := by
  show ∃ rest, List.replicate (strlen b.bytes) nul ++ b.bytes.drop (strlen b.bytes) = nul :: rest
  cases hlen : strlen b.bytes with
  | succ k => exact ⟨_, rfl⟩
  | zero =>
    obtain ⟨c, cs, hbytes⟩ := List.exists_cons_of_ne_nil (List.ne_nil_of_mem h)
    have hc : c = nul := by
      by_contra hne
      simp [hbytes, strlen, hne] at hlen
    exact ⟨cs, hbytes.trans (hc ▸ rfl)⟩

theorem clear_eq_self {rest : Text} (h : b.bytes = nul :: rest) : b.clear = b := by
  obtain ⟨bytes, size⟩ := b
  cases h
  rfl

end CommandBuffer

/-- There is nothing more to read, and the empty string is in the buffer. -/
structure Idle (s : Session) : Prop where
  stdin : s.stdin = []
  buffer : ∃ rest, s.buffer.bytes = nul :: rest

section Idle

variable {env : Setting} {s s' : Session}

/-- All that is left of the body is its connection. -/
theorem Idle.iteration_eq (h : Idle s) (env : Setting) : iteration env s = connect env s := by
  obtain ⟨rest, hrest⟩ := h.buffer
  have hmem : nul ∈ s.buffer.bytes := hrest ▸ List.mem_cons_self
  unfold iteration connect
  split
  · -- `fgets` returns `NULL`, and there is nothing to clear
    simp only [Step.andThen, if_pos h.stdin, clearCommand, if_pos hmem,
      CommandBuffer.clear_eq_self hrest]
  · rfl

theorem Idle.connected (h : Idle s) (n : Nat) : Idle { s with connections := n } :=
  ⟨h.stdin, h.buffer⟩

theorem Idle.sessionAfter_eq (h : Idle s) {m : Nat}
    (hconnects : ∀ k < m, env.connects (s.connections + k) = true) :
    sessionAfter env s m = .running { s with connections := s.connections + m } := by
  induction m with
  | zero => rfl
  | succ m ih =>
    rw [sessionAfter, ih fun k hk => hconnects k (Nat.lt_succ_of_lt hk), Step.andThen,
      (h.connected _).iteration_eq, connect, if_pos (hconnects m (Nat.lt_succ_self m))]
    rfl

theorem Idle.sessionAfter_refused (h : Idle s) {k m : Nat}
    (hconnects : ∀ j < k, env.connects (s.connections + j) = true)
    (hrefused : env.connects (s.connections + k) = false) (hkm : k < m) :
    sessionAfter env s m = .ended (.exit 1) { s with connections := s.connections + k } := by
  obtain ⟨d, rfl⟩ := Nat.exists_eq_add_of_lt hkm
  rw [Nat.add_assoc, sessionAfter_add, h.sessionAfter_eq hconnects, Step.andThen,
    sessionAfter_succ, (h.connected _).iteration_eq, connect, if_neg (by simp [hrefused])]
  rfl

theorem length_afterCommand {stdin : Text} (h : stdin ≠ []) :
    (afterCommand stdin).length < stdin.length := by
  obtain ⟨c, cs, rfl⟩ := List.exists_cons_of_ne_nil h
  have hpos : 0 < (takeLine 255 (c :: cs)).length := by
    rw [takeLine]
    split
    · exact Nat.one_pos
    · exact Nat.succ_pos _
  rw [afterCommand, List.length_drop]
  exact Nat.sub_lt (Nat.succ_pos _) hpos

/-- Every iteration takes something off the input. -/
theorem length_stdin_sessionAfter {n : Nat} : ∀ {s' : Session},
    sessionAfter env s n = .running s' → s'.stdin.length ≤ s.stdin.length - n := by
  induction n with
  | zero =>
    intro s' h
    cases h
    exact Nat.le_refl _
  | succ n ih =>
    intro s' h
    obtain ⟨s₁, h₁, h⟩ := Step.andThen_eq_running h
    have hle := ih h₁
    by_cases hstdin : s₁.stdin = []
    · rw [(iteration_of_eof h hstdin).1]
      exact Nat.zero_le _
    · have hlt := length_afterCommand hstdin
      rw [(iteration_of_input h hstdin).1]
      omega

/-- An iteration ends with the buffer cleared. -/
theorem idle_of_iteration (h : iteration env s = .running s') (hstdin : s'.stdin = []) :
    Idle s' := by
  obtain ⟨s₁, _, hclear⟩ := Step.andThen_eq_running h
  obtain ⟨hmem, rfl⟩ := clearCommand_eq_running hclear
  exact ⟨hstdin, CommandBuffer.clear_starts hmem⟩

end Idle

/-- **The end of the input is not the end of the program.** What has been typed is used up after as
many iterations as it has characters, and from then on nothing ends the loop but the server: the
program opens one connection after the other and does nothing else, for as long as it gets them,
and exits with 1 at the first one that it does not get. The table stays as it was. -/
theorem session_outlives_input (env : Setting) (s : Session) :
    (∀ n s', sessionAfter env s n = .running s' → s.stdin.length ≤ n → s'.stdin = []) ∧
    ∀ n s', sessionAfter env s (n + 1) = .running s' → s'.stdin = [] →
      (∀ m, (∀ k < m, env.connects (s'.connections + k) = true) →
        sessionAfter env s (n + 1 + m) =
          .running { s' with connections := s'.connections + m }) ∧
      ∀ k, (∀ j < k, env.connects (s'.connections + j) = true) →
        env.connects (s'.connections + k) = false → ∀ m, k < m →
        sessionAfter env s (n + 1 + m) =
          .ended (.exit 1) { s' with connections := s'.connections + k } := by
  refine ⟨?_, ?_⟩
  · intro n s' h hn
    have hle := length_stdin_sessionAfter h
    exact List.eq_nil_of_length_eq_zero (by omega)
  · intro n s' h hstdin
    obtain ⟨s₁, _, hlast⟩ := Step.andThen_eq_running h
    have hidle : Idle s' := idle_of_iteration hlast hstdin
    refine ⟨?_, ?_⟩
    · intro m hconnects
      rw [sessionAfter_add, h]
      exact hidle.sessionAfter_eq hconnects
    · intro k hconnects hrefused m hkm
      rw [sessionAfter_add, h]
      exact hidle.sessionAfter_refused hconnects hrefused hkm

/-- A server that gives out four connections. -/
def fourConnections : Setting :=
  { Setting.plain (fun _ => [onePeriod 10]) with connects := fun k => decide (k < 4) }

/-- The session of two commands, after the second. -/
def storeThenSelect : Session :=
  (sessionAfter fourConnections (.start "store\nselect -s 64 -l 1\n".toList) 2).session

/-- Two commands take two connections, the end of the input takes the other two. -/
theorem session_outlives_input_two :
    storeThenSelect.connections = 2 ∧ storeThenSelect.table.rows = [⟨64, 1, 1, 0, 10, 3⟩] ∧
    sessionAfter fourConnections (.start "store\nselect -s 64 -l 1\n".toList) 4 =
      .running { storeThenSelect with connections := 4 } ∧
    sessionAfter fourConnections (.start "store\nselect -s 64 -l 1\n".toList) 9 =
      .ended (.exit 1) { storeThenSelect with connections := 4 } := by
  have hrun : sessionAfter fourConnections (.start "store\nselect -s 64 -l 1\n".toList) 2 =
      .running storeThenSelect := rfl
  have hcount : storeThenSelect.connections = 2 := by decide +kernel
  obtain ⟨hon, hout⟩ := (session_outlives_input _ _).2 1 _ hrun (by decide +kernel)
  rw [hcount] at hon hout
  exact ⟨hcount, by decide +kernel, hon 2 (by decide), hout 2 (by decide) (by decide) 7 (by decide)⟩

/-! ## Commands as lines -/

/-- A line that is read as one command. -/
def IsLine (text : Text) : Prop := text.length < 255 ∧ '\n' ∉ text ∧ nul ∉ text

instance : DecidablePred IsLine := fun _ => inferInstanceAs (Decidable (_ ∧ _))

theorem takeLine_append_newline {text : Text} (hnewline : '\n' ∉ text) (rest : Text) :
    ∀ {n : Nat}, text.length < n → takeLine n (text ++ '\n' :: rest) = text ++ ['\n'] := by
  induction text with
  | nil =>
    intro n hn
    obtain ⟨m, rfl⟩ := Nat.exists_eq_add_one_of_ne_zero (Nat.ne_of_gt hn)
    rfl
  | cons c text ih =>
    intro n hn
    obtain ⟨m, rfl⟩ := Nat.exists_eq_add_one_of_ne_zero (Nat.ne_of_gt (Nat.zero_lt_of_lt hn))
    rw [List.mem_cons, not_or] at hnewline
    rw [List.cons_append, takeLine, if_neg (Ne.symm hnewline.1),
      ih hnewline.2 (Nat.lt_of_succ_lt_succ hn), List.cons_append]

/-- A line is taken off the input as a whole. -/
theorem IsLine.firstCommand_eq {text : Text} (h : IsLine text) (rest : Text) :
    firstCommand (text ++ '\n' :: rest) = text ∧ afterCommand (text ++ '\n' :: rest) = rest := by
  have hall : ∀ c ∈ text, inCommand c = true := by
    intro c hc
    refine decide_eq_true ⟨fun heq => h.2.1 (heq ▸ hc), fun heq => h.2.2 (heq ▸ hc)⟩
  have htake := takeLine_append_newline h.2.1 rest h.1
  refine ⟨?_, ?_⟩
  · rw [firstCommand, htake, List.takeWhile_append_of_pos hall,
      List.takeWhile_cons_of_neg (by simp [inCommand]), List.append_nil]
  · have happend : text ++ '\n' :: rest = (text ++ ['\n']) ++ rest := by
      rw [List.append_assoc]
      rfl
    rw [afterCommand, htake, happend, List.drop_left]

theorem commands_lines {lines : List Text} (h : ∀ text ∈ lines, IsLine text) (rest : Text) :
    commands lines.length (lines.flatMap (· ++ ['\n']) ++ rest) = lines := by
  induction lines with
  | nil => rfl
  | cons text lines ih =>
    obtain ⟨hfirst, hafter⟩ := (h text List.mem_cons_self).firstCommand_eq
      (lines.flatMap (· ++ ['\n']) ++ rest)
    have hinput : (text :: lines).flatMap (· ++ ['\n']) ++ rest =
        text ++ '\n' :: (lines.flatMap (· ++ ['\n']) ++ rest) := by
      rw [List.flatMap_cons, List.append_assoc, List.append_assoc]
      rfl
    have hstep : ∀ n (t : Text), t ≠ [] →
        commands (n + 1) t = firstCommand t :: commands n (afterCommand t) := by
      intro n t ht
      cases t with
      | nil => exact absurd rfl ht
      | cons c cs => rfl
    rw [hinput, List.length_cons, hstep _ _ (by simp), hfirst, hafter,
      ih fun t ht => h t (List.mem_cons_of_mem text ht)]

/-- **A session is the history of its stores.** After as many iterations as lines have been typed,
if the program is still running, the table has gone through one call of `InsertConfigInDB` for every
line that reads `store` or `store-upload`, in order; no other line has changed it. Every switch of
every call has been stored as a version with the next list number of its own, and at the end every
version still reads back exactly just in case the configurations were storable. -/
theorem session_history (env : Setting) (s : Session) {s' : Session} {lines : List Text}
    {rest : Text} (hlines : ∀ text ∈ lines, IsLine text)
    (hstdin : s.stdin = lines.flatMap (· ++ ['\n']) ++ rest)
    (h : sessionAfter env s lines.length = .running s') :
    ∃ (calls : List (List Switx)) (vs : List (Version env.sqlInt)),
      calls.length = (lines.filter isStore).length ∧
      (List.range' s.stores calls.length).map env.readConfigFile = calls.map Except.ok ∧
      vs.map (·.sw) = calls.flatten ∧ History env.sqlInt s.table vs s'.table ∧
      (∀ v ∈ vs, IsNext v.before v.number v.list) ∧
      ((∀ v ∈ vs, Exact s'.table v) ↔ Storable env.sqlInt calls.flatten) := by
  obtain ⟨calls, ns, hread, hlength, hstores⟩ := storeCalls_of_sessionAfter h
  obtain ⟨vs, hvs, hsws, _⟩ := history_of_storeCalls hstores
  rw [hstdin, commands_lines hlines] at hlength
  refine ⟨calls, vs, hlength, hread, hsws, hvs, fun v _ => v.next, ?_⟩
  rw [hvs.exact_iff, hsws]

/-- Three lines, of which one is a `store`. -/
def threeLines : List Text := ["show".toList, "store".toList, "select -s 64 -l 1".toList]

theorem session_history_threeLines :
    ∃ (calls : List (List Switx)) (vs : List (Version decimal)), calls.length = 1 ∧
      vs.map (·.sw) = calls.flatten ∧ ∀ v ∈ vs, IsNext v.before v.number v.list := by
  have hlines : ∀ text ∈ threeLines, IsLine text := by decide +kernel
  have hrun : ∃ s', sessionAfter (.plain fun _ => [onePeriod 10])
      (.start (threeLines.flatMap (· ++ ['\n']) ++ [])) 3 = .running s' := ⟨_, rfl⟩
  obtain ⟨s', hs'⟩ := hrun
  obtain ⟨calls, vs, hlength, _, hsws, _, hnext, _⟩ := session_history _ _ hlines rfl hs'
  exact ⟨calls, vs, hlength.trans (by decide +kernel), hsws, hnext⟩

end Store
end TsnController
