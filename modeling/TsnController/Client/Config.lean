import Mathlib.Data.List.Induction
import Mathlib.Tactic.Ring
import TsnController.Client.Emit
import TsnController.Json.Completeness

/-!
# Configurations

What a configuration is meant to say, and what the client has in memory after reading it.

`IsConfig` relates a JSON value to the switches it configures. It is stated over the language of
`Json.Grammar` and not over the parser's trees: a member is the first one of its name, a number is a
string of digits, gates are read in base two. Members the client does not look for are allowed as
long as they do not contain something it would take for a switch (`Quiet`); the client looks for
switches at any depth, so a nested one *would* be configured.

`held_readAll` is the other half: the list in memory holds these switches, ports and values, in
order, nothing else.
-/

set_option autoImplicit false

namespace TsnController
namespace Client

open CLib Lib Json

/-! ## Digits -/

/-- Zeros and ones only. -/
def BinaryDigits (w : Text) : Prop := ∀ c ∈ w, c = '0' ∨ c = '1'

theorem BinaryDigits.digits {w : Text} (h : BinaryDigits w) : Digits w := by
  intro c hc
  rcases h c hc with rfl | rfl <;> decide

theorem digit_lt {c : Char} (h : c.isDigit = true) : c.toNat - '0'.toNat < 10 := by
  have hc : c.toNat ≤ '9'.toNat := (Char.isDigit_iff_toNat.mp h).2
  have h9 : '9'.toNat = 57 := rfl
  have h0 : '0'.toNat = 48 := rfl
  omega

/-- Read in base ten, zeros and ones stay below the number of that many ones. -/
theorem ofDigitChars_binary_lt {w : Text} (h : BinaryDigits w) :
    9 * Nat.ofDigitChars 10 w 0 < 10 ^ w.length := by
  induction w using List.reverseRecOn with
  | nil => decide
  | append_singleton w c ih =>
    have hih := ih fun d hd => h d (List.mem_append_left _ hd)
    have hc : c.toNat - '0'.toNat ≤ 1 := by
      rcases h c (by simp) with rfl | rfl <;> decide
    rw [Nat.ofDigitChars_append, Nat.ofDigitChars_cons, Nat.ofDigitChars_nil, List.length_append,
      List.length_singleton, Nat.pow_succ]
    omega

/-- Leading zeros do not count. -/
theorem ofDigitChars_dropWhile (b : Nat) (w : Text) :
    Nat.ofDigitChars b (w.dropWhile (· = '0')) 0 = Nat.ofDigitChars b w 0 := by
  induction w with
  | nil => rfl
  | cons c w ih =>
    by_cases hc : c = '0'
    · rw [List.dropWhile_cons_of_pos (by simpa using hc), ih, Nat.ofDigitChars_cons, hc,
        Nat.sub_self, Nat.mul_zero]
    · rw [List.dropWhile_cons_of_neg (by simpa using hc)]

/-- Ten significant digits fit an `int`. -/
theorem ofDigitChars_gates_lt {w : Text} (h : BinaryDigits w)
    (hlen : (w.dropWhile (· = '0')).length ≤ 10) : Nat.ofDigitChars 10 w 0 < 0x80000000 := by
  have hlt := ofDigitChars_binary_lt (w := w.dropWhile (· = '0'))
    fun c hc => h c ((List.dropWhile_suffix _).subset hc)
  have hpow : 10 ^ (w.dropWhile (· = '0')).length ≤ 10 ^ 10 :=
    Nat.pow_le_pow_right (by decide) hlen
  rw [ofDigitChars_dropWhile] at hlt
  omega

/-- The loop of `binaryToDecimal`, on a number given by its digits. Which end the digits come
from does not matter to `strtoul` but to the loop, hence the induction from the right. -/
theorem binaryToDecimalLoop_eq {w : Text} (h : Digits w) : ∀ (n : Nat) (decValue base : Int),
    Nat.ofDigitChars 10 w 0 ≤ n →
    binaryToDecimalLoop n (Nat.ofDigitChars 10 w 0 : Nat) decValue base =
      decValue + (Nat.ofDigitChars 2 w 0 : Nat) * base := by
  induction w using List.reverseRecOn with
  | nil =>
    intro n decValue base _
    cases n <;> simp [binaryToDecimalLoop]
  | append_singleton w c ih =>
    intro n decValue base hn
    have hih := ih fun d hd => h d (List.mem_append_left _ hd)
    have hd := digit_lt (h c (by simp))
    simp only [Nat.ofDigitChars_append, Nat.ofDigitChars_cons, Nat.ofDigitChars_nil] at hn ⊢
    generalize c.toNat - '0'.toNat = d at hn hd ⊢
    generalize Nat.ofDigitChars 10 w 0 = m at hn hih ⊢
    generalize Nat.ofDigitChars 2 w 0 = k at hih ⊢
    by_cases h0 : 10 * m + d = 0
    · obtain ⟨rfl, rfl⟩ : m = 0 ∧ d = 0 := by omega
      -- nothing is left, so there were only zeros
      have hk : k = 0 := by
        have hzero := hih 0 0 1 (Nat.le_refl 0)
        simp only [binaryToDecimalLoop] at hzero
        omega
      subst hk
      cases n <;> simp [binaryToDecimalLoop]
    · obtain ⟨n, rfl⟩ : ∃ n', n = n' + 1 := ⟨n - 1, by omega⟩
      have hmod : Int.tmod (10 * m + d : Nat) 10 = d := by
        rw [Int.tmod_eq_emod_of_nonneg (by omega)]
        omega
      have hdiv : Int.tdiv (10 * m + d : Nat) 10 = m := by
        rw [Int.tdiv_eq_ediv_of_nonneg (by omega)]
        omega
      unfold binaryToDecimalLoop
      rw [if_neg (by omega)]
      simp only [hmod, hdiv]
      rw [hih n _ _ (by omega)]
      push_cast
      ring

/-- **`binaryToDecimal` reads the digits of its argument in base two.** -/
theorem binaryToDecimal_eq {w : Text} (h : Digits w) :
    binaryToDecimal (Nat.ofDigitChars 10 w 0 : Nat) = (Nat.ofDigitChars 2 w 0 : Nat) := by
  unfold binaryToDecimal
  rw [Int.natAbs_natCast, binaryToDecimalLoop_eq h _ 0 1 (Nat.le_refl _)]
  omega

/-! ## What a configuration is -/

/-- The first member of a name. -/
def member : Value → Text → Option Value
  | .object ms, name => (ms.find? fun m => m.1.content = name).map (·.2)
  | _, _ => none

/-- The value is an object that `read_json` would take for a switch. -/
def Selected (v : Value) : Prop := ∃ q, member v "switch".toList = some (.scalar (.strings q))

/-- There is no such object in the value, at any depth. -/
inductive Quiet : Value → Prop
  | scalar (s : Scalar) : Quiet (.scalar s)
  | array (vs : List Value) : (∀ v ∈ vs, Quiet v) → Quiet (.array vs)
  | object (ms : List (Quoted × Value)) : ¬ Selected (.object ms) → (∀ m ∈ ms, Quiet m.2) →
      Quiet (.object ms)

/-- A port: its number, and periods with gates. -/
structure PortConfig where
  number : Nat
  pairs : List (Nat × Nat)

structure SwitchConfig where
  name : Text
  ports : List PortConfig

/-- `[period, gates]`. -/
def IsPair (v : Value) (pair : Nat × Nat) : Prop :=
  ∃ period gates hp hg,
    v = .array [.scalar (.number period hp), .scalar (.number gates hg)] ∧
    Digits period ∧ Nat.ofDigitChars 10 period 0 = pair.1 ∧ pair.1 ≤ ulongMax ∧
    BinaryDigits gates ∧ (gates.dropWhile (· = '0')).length ≤ 10 ∧
    Nat.ofDigitChars 2 gates 0 = pair.2

/-- An object with a `port_number`, quoted or not, and `values`. -/
def IsPort (v : Value) (port : PortConfig) : Prop :=
  (∃ s, member v "port_number".toList = some (.scalar s) ∧ Digits s.value ∧
    Nat.ofDigitChars 10 s.value 0 = port.number ∧ port.number < 0x80000000) ∧
  ∃ vs, member v "values".toList = some (.array vs) ∧ vs ≠ [] ∧ List.Forall₂ IsPair vs port.pairs

/-- An object with a `switch` and a `port_list`, and no switch inside. -/
structure IsSwitch (v : Value) (sw : SwitchConfig) : Prop where
  name : ∃ q, member v "switch".toList = some (.scalar (.strings q)) ∧ q.content = sw.name
  short : sw.name.length ≤ 19
  ports : ∃ ps, member v "port_list".toList = some (.array ps) ∧ ps ≠ [] ∧
    List.Forall₂ IsPort ps sw.ports
  quiet : ∀ ms, v = .object ms → ∀ m ∈ ms, Quiet m.2

/-- A non-empty array of switches. -/
def IsConfig (v : Value) (config : List SwitchConfig) : Prop :=
  ∃ vs, v = .array vs ∧ vs ≠ [] ∧ List.Forall₂ IsSwitch vs config

/-! ## Values in the parser's tree -/

theorem jsonNodeLoop_chain_some {name : Text} {n : JsonData × JsonTree} :
    ∀ {ns : List (JsonData × JsonTree)}, ns.find? (fun n => n.1.name = some name) = some n →
    ∃ r, jsonNodeLoop name (chain ns) = .node n.1 n.2 r
  | m :: ns, h => by
    show ∃ r, (if m.1.name = some name then _ else jsonNodeLoop name (chain ns)) = _
    by_cases hm : m.1.name = some name
    · rw [List.find?_cons_of_pos (by simpa using hm)] at h
      cases h
      exact ⟨_, if_pos hm⟩
    · rw [List.find?_cons_of_neg (by simpa using hm)] at h
      rw [if_neg hm]
      exact jsonNodeLoop_chain_some h

theorem jsonNodeLoop_chain_none {name : Text} :
    ∀ {ns : List (JsonData × JsonTree)}, (∀ n ∈ ns, n.1.name ≠ some name) →
    jsonNodeLoop name (chain ns) = .nil
  | [], _ => rfl
  | m :: ns, h => by
    show (if m.1.name = some name then _ else jsonNodeLoop name (chain ns)) = _
    rw [if_neg (h m List.mem_cons_self)]
    exact jsonNodeLoop_chain_none fun n hn => h n (List.mem_cons_of_mem m hn)

theorem groupTree_eq_chain {ns : List (JsonData × JsonTree)} (h : ns ≠ []) :
    groupTree ns = chain ns := by
  cases ns with
  | nil => exact absurd rfl h
  | cons n ns => rfl

theorem children_array (vs : List Value) :
    (Value.array vs).children = groupTree (elemNodes vs) := by
  rw [Value.children]

theorem children_object (ms : List (Quoted × Value)) :
    (Value.object ms).children = groupTree (memberNodes ms) := by
  rw [Value.children]

/-- `json_node` finds the first member of the name … -/
theorem jsonNodeLoop_member {v w : Value} {name : Text} (h : member v name = some w) :
    ∃ r, jsonNodeLoop name v.children = .node (w.data (some name)) w.children r := by
  cases v with
  | scalar s => exact absurd h (by simp [member])
  | array vs => exact absurd h (by simp [member])
  | object ms =>
    obtain ⟨m, hm, rfl⟩ := Option.map_eq_some_iff.mp h
    have hname : m.1.content = name := by simpa using List.find?_some hm
    have hne : memberNodes ms ≠ [] := by
      rw [memberNodes_eq_map]
      exact mt List.map_eq_nil_iff.mp (List.ne_nil_of_mem (List.mem_of_find?_eq_some hm))
    rw [children_object, groupTree_eq_chain hne]
    apply jsonNodeLoop_chain_some (n := (m.2.data (some name), m.2.children))
    rw [memberNodes_eq_map, List.find?_map]
    have hpred : ((fun n : JsonData × JsonTree => decide (n.1.name = some name)) ∘
        fun m : Quoted × Value => (m.2.data (some m.1.content), m.2.children)) =
        fun m => decide (m.1.content = name) := by
      funext m
      simp [Value.data_name]
    rw [hpred, hm, ← hname]
    rfl

/-- … and nothing if there is none. -/
theorem jsonNodeLoop_no_member {v : Value} {name : Text} (h : member v name = none) :
    jsonNodeLoop name v.children = .nil := by
  cases v with
  | scalar s => rfl
  | array vs =>
    rw [children_array]
    by_cases hne : elemNodes vs = []
    · rw [hne]
      rfl
    · rw [groupTree_eq_chain hne, elemNodes_eq_map]
      apply jsonNodeLoop_chain_none
      intro n hn
      obtain ⟨v, _, rfl⟩ := List.mem_map.mp hn
      simp [Value.data_name]
  | object ms =>
    rw [children_object]
    by_cases hne : memberNodes ms = []
    · rw [hne]
      rfl
    · rw [groupTree_eq_chain hne, memberNodes_eq_map]
      apply jsonNodeLoop_chain_none
      intro n hn
      obtain ⟨m, hm, rfl⟩ := List.mem_map.mp hn
      have hfind := List.find?_eq_none.mp (Option.map_eq_none_iff.mp h) m hm
      simpa [Value.data_name] using hfind

/-- Selection looks at the children only, and finds what it is meant to find. -/
theorem isSwitch_iff {v : Value} {a : JsonData} {r : JsonTree} :
    isSwitch (.node a v.children r) = true ↔ Selected v := by
  unfold isSwitch jsonNode Selected
  show jsonIsString (jsonNodeLoop _ v.children) = true ↔ _
  cases h : member v "switch".toList with
  | none =>
    rw [jsonNodeLoop_no_member h]
    simp [jsonIsString, jsonType]
  | some w =>
    obtain ⟨r', hr'⟩ := jsonNodeLoop_member h
    rw [hr']
    cases w with
    | scalar s => cases s <;> simp [jsonIsString, jsonType, Value.data, Scalar.type]
    | array vs => simp [jsonIsString, jsonType, Value.data]
    | object ms => simp [jsonIsString, jsonType, Value.data]

/-- What hangs below the switches of a tree, in the order of the document. -/
def switchNodes (t : JsonTree) : List JsonTree := ((preorder t).filter isSwitch).map (·.left)

theorem switchNodes_node (a : JsonData) (l r : JsonTree) : switchNodes (.node a l r) =
    (if isSwitch (.node a l r) then [l] else []) ++ (switchNodes l ++ switchNodes r) := by
  unfold switchNodes
  rw [preorder, List.filter_cons, List.filter_append]
  split <;> simp

/-- The nodes of a chain, one after the other. -/
theorem switchNodes_chain {f : JsonData × JsonTree → List JsonTree} :
    ∀ {ns : List (JsonData × JsonTree)},
    (∀ n ∈ ns, ∀ r, switchNodes (.node n.1 n.2 r) = f n ++ switchNodes r) →
    switchNodes (chain ns) = ns.flatMap f
  | [], _ => rfl
  | n :: ns, h => by
    show switchNodes (.node n.1 n.2 (chain ns)) = _
    rw [h n List.mem_cons_self, switchNodes_chain fun m hm => h m (List.mem_cons_of_mem n hm),
      List.flatMap_cons]

theorem switchNodes_group {f : JsonData × JsonTree → List JsonTree}
    {ns : List (JsonData × JsonTree)}
    (h : ∀ n ∈ ns, ∀ r, switchNodes (.node n.1 n.2 r) = f n ++ switchNodes r) :
    switchNodes (groupTree ns) = ns.flatMap f := by
  cases ns with
  | nil => rfl
  | cons n ns => exact switchNodes_chain h

theorem switchNodes_group_nil {ns : List (JsonData × JsonTree)}
    (h : ∀ n ∈ ns, ∀ r, switchNodes (.node n.1 n.2 r) = switchNodes r) :
    switchNodes (groupTree ns) = [] := by
  rw [switchNodes_group (f := fun _ => []) h]
  exact List.flatMap_eq_nil_iff.mpr fun _ _ => rfl

theorem not_selected_array (vs : List Value) : ¬ Selected (.array vs) := by
  intro h
  obtain ⟨q, hq⟩ := h
  exact absurd hq (by simp [member])

/-- Nothing in the value is selected, given that nothing in its parts is. -/
theorem switchNodes_of_quiet (v : Value) (h : Quiet v) : ∀ (a : JsonData) (r : JsonTree),
    switchNodes (.node a v.children r) = switchNodes r := by
  induction v using Value.induct with
  | scalar s => intro a r; rfl
  | array vs ih =>
    cases h with | array _ hvs =>
    intro a r
    have hbelow : switchNodes (Value.array vs).children = [] := by
      rw [children_array, elemNodes_eq_map]
      apply switchNodes_group_nil
      intro n hn
      obtain ⟨w, hw, rfl⟩ := List.mem_map.mp hn
      exact ih w hw (hvs w hw) _
    rw [switchNodes_node, if_neg (mt isSwitch_iff.mp (not_selected_array vs)), hbelow]
    rfl
  | object ms ih =>
    cases h with | object _ hno hms =>
    intro a r
    have hbelow : switchNodes (Value.object ms).children = [] := by
      rw [children_object, memberNodes_eq_map]
      apply switchNodes_group_nil
      intro n hn
      obtain ⟨m, hm, rfl⟩ := List.mem_map.mp hn
      exact ih m hm (hms m hm) _
    rw [switchNodes_node, if_neg (mt isSwitch_iff.mp hno), hbelow]
    rfl

theorem IsSwitch.selected {v : Value} {sw : SwitchConfig} (h : IsSwitch v sw) : Selected v := by
  obtain ⟨q, hq, _⟩ := h.name
  exact ⟨q, hq⟩

/-- A selected object with nothing selected in it. -/
theorem switchNodes_of_selected {v : Value} (h : Selected v)
    (hquiet : ∀ ms, v = .object ms → ∀ m ∈ ms, Quiet m.2) (a : JsonData) (r : JsonTree) :
    switchNodes (.node a v.children r) = v.children :: switchNodes r := by
  have hbelow : switchNodes v.children = [] := by
    cases v with
    | scalar s => rfl
    | array vs => exact absurd h (not_selected_array vs)
    | object ms =>
      rw [children_object, memberNodes_eq_map]
      apply switchNodes_group_nil
      intro n hn
      obtain ⟨m, hm, rfl⟩ := List.mem_map.mp hn
      exact switchNodes_of_quiet m.2 (hquiet ms rfl m hm) _
  rw [switchNodes_node, if_pos (isSwitch_iff.mpr h), hbelow]
  rfl

/-- In an array of such objects the selected nodes are its elements. -/
theorem switchNodes_array {vs : List Value}
    (h : ∀ v ∈ vs, Selected v ∧ ∀ ms, v = .object ms → ∀ m ∈ ms, Quiet m.2) :
    switchNodes (Value.array vs).tree = vs.map Value.children := by
  have hbelow : switchNodes (Value.array vs).children = vs.map Value.children := by
    rw [children_array, elemNodes_eq_map, switchNodes_group (f := fun n => [n.2]), List.flatMap_map]
    · exact (List.map_eq_flatMap).symm
    · intro n hn r
      obtain ⟨w, hw, rfl⟩ := List.mem_map.mp hn
      exact switchNodes_of_selected (h w hw).1 (h w hw).2 _ r
  unfold Value.tree
  rw [switchNodes_node, if_neg (mt isSwitch_iff.mp (not_selected_array vs)), hbelow]
  exact List.append_nil _

/-- In the tree of a configuration the selected nodes are its switches. -/
theorem switchNodes_config {vs : List Value} (h : ∀ v ∈ vs, ∃ sw, IsSwitch v sw) :
    switchNodes (Value.array vs).tree = vs.map Value.children := by
  refine switchNodes_array fun v hv => ?_
  obtain ⟨sw, hsw⟩ := h v hv
  exact ⟨hsw.selected, hsw.quiet⟩

/-! ## What is in memory afterwards -/

/-- The gates are kept as they are written and only read in base two when they are printed. -/
def HoldsPair (values : PortValues) (pair : Nat × Nat) : Prop :=
  values.period = pair.1 ∧ binaryToDecimal values.gateStates = pair.2

def HoldsPort (port : Port) (config : PortConfig) : Prop :=
  port.number = config.number ∧ List.Forall₂ HoldsPair port.values.values config.pairs

def HoldsSwitch (sw : Switch) (config : SwitchConfig) : Prop :=
  sw.name = config.name ∧ List.Forall₂ HoldsPort sw.portList.values config.ports

/-- The chain of an array's elements. -/
def elemChain (vs : List Value) : JsonTree := chain (vs.map fun v => (v.data none, v.children))

theorem children_of_ne_nil {vs : List Value} (h : vs ≠ []) :
    (Value.array vs).children = elemChain vs := by
  rw [children_array, elemNodes_eq_map, groupTree_eq_chain (mt List.map_eq_nil_iff.mp h)]
  rfl

theorem forall₂_mapIdx {α β γ : Type} {R : α → γ → Prop} {S : β → γ → Prop} {xs : List α}
    {ys : List γ} (h : List.Forall₂ R xs ys) : ∀ {f : Nat → α → β},
    (∀ i x y, R x y → S (f i x) y) → List.Forall₂ S (xs.mapIdx f) ys := by
  induction h with
  | nil => exact fun _ => .nil
  | cons hxy _ ih =>
    intro f hf
    rw [List.mapIdx_cons]
    exact .cons (hf 0 _ _ hxy) (ih fun i => hf (i + 1))

/-- An array is read element by element, by a function that does not look at what follows. -/
theorem forall₂_siblings {β γ : Type} {R : Value → γ → Prop} {S : β → γ → Prop}
    {F : Nat → JsonTree → β} {vs : List Value} {cs : List γ} (h : List.Forall₂ R vs cs)
    (hF : ∀ i v c r, R v c → S (F i (.node (v.data none) v.children r)) c) :
    List.Forall₂ S ((siblings (elemChain vs)).mapIdx F) cs := by
  have hnodes : List.Forall₂ (fun n c => ∃ v r, R v c ∧ n = .node (v.data none) v.children r)
      (siblings (elemChain vs)) cs := by
    induction h with
    | nil => exact .nil
    | cons hvc _ ih => exact .cons ⟨_, _, hvc, rfl⟩ ih
  refine forall₂_mapIdx hnodes fun i n c hn => ?_
  obtain ⟨v, r, hvc, rfl⟩ := hn
  exact hF i v c r hvc

theorem jsonIsReal_of_digits {w : Text} (h : Digits w) (name : Option Text) (l r : JsonTree) :
    jsonIsReal (.node ⟨.number, name, some w⟩ l r) = true := by
  have hdot : '.' ∉ w := fun hm => absurd (h _ hm) (by decide)
  have hminus : '-' ∉ w := fun hm => absurd (h _ hm) (by decide)
  unfold jsonIsReal
  simp [hdot, hminus]

/-- One pair: both fields of the local record are set. -/
theorem readValuesLoop_pair {v : Value} {pair : Nat × Nat} (h : IsPair v pair) (a : JsonData)
    (r : JsonTree) (current : PortValues) (list : CellList PortValues) :
    ∃ values, HoldsPair values pair ∧ readValuesLoop (.node a v.children r) current list =
      readValuesLoop r values (portValuesPush list values) := by
  obtain ⟨period, gates, hp, hg, rfl, hdp, hperiod, hle, hbin, hlen, hgates⟩ := h
  have hlt := ofDigitChars_gates_lt hbin hlen
  refine ⟨⟨strtoul period, toInt (strtoul gates)⟩, ⟨?_, ?_⟩, ?_⟩
  · rw [← hperiod] at hle
    rw [strtoul_of_digits hdp hle, hperiod]
  · have hle' : Nat.ofDigitChars 10 gates 0 ≤ ulongMax := by
      unfold ulongMax
      omega
    rw [strtoul_of_digits hbin.digits hle', toInt_of_lt hlt, binaryToDecimal_eq hbin.digits, hgates]
  · rw [children_of_ne_nil (by simp)]
    have hfirst : jsonItem (.node a (elemChain [.scalar (.number period hp),
        .scalar (.number gates hg)]) r) 0 = .node ⟨.number, none, some period⟩ .nil
          (.node ⟨.number, none, some gates⟩ .nil .nil) := rfl
    have hsecond : jsonItem (.node a (elemChain [.scalar (.number period hp),
        .scalar (.number gates hg)]) r) 1 = .node ⟨.number, none, some gates⟩ .nil .nil := rfl
    rw [readValuesLoop]
    simp only [hfirst, hsecond, jsonIsReal_of_digits hdp, jsonIsReal_of_digits hbin.digits, if_true]
    rfl

theorem readValuesLoop_pairs {vs : List Value} {pairs : List (Nat × Nat)}
    (h : List.Forall₂ IsPair vs pairs) : ∀ (current : PortValues) (list : CellList PortValues)
    (before : List (Nat × Nat)), List.Forall₂ HoldsPair list.held before →
    List.Forall₂ HoldsPair (readValuesLoop (elemChain vs) current list).held (before ++ pairs) := by
  induction h with
  | nil =>
    intro current list before hb
    rw [List.append_nil]
    exact hb
  | @cons v pair vs pairs hv _ ih =>
    intro current list before hb
    obtain ⟨values, hvalues, hloop⟩ :=
      readValuesLoop_pair hv (v.data none) (elemChain vs) current list
    show List.Forall₂ _ (readValuesLoop (.node (v.data none) v.children (elemChain vs)) _ _).held _
    rw [hloop, List.append_cons]
    apply ih
    rw [portValuesPush, CellList.held_push]
    exact List.rel_append hb (.cons hvalues .nil)

theorem values_of_forall₂ {α γ : Type} {S : α → γ → Prop} {list : CellList α} {cs : List γ}
    (h : List.Forall₂ S list.held cs) (hne : cs ≠ []) : List.Forall₂ S list.values cs := by
  rwa [CellList.values_eq_held]
  intro hnil
  rw [hnil] at h
  exact hne (List.forall₂_nil_left_iff.mp h)

theorem ne_nil_of_forall₂ {α β : Type} {R : α → β → Prop} {xs : List α} {ys : List β}
    (h : List.Forall₂ R xs ys) (hne : xs ≠ []) : ys ≠ [] := by
  intro hnil
  rw [hnil] at h
  exact hne (List.forall₂_nil_right_iff.mp h)

theorem holdsPort_readPort (junk : ValuesJunk) {v : Value} {config : PortConfig}
    (h : IsPort v config) (a : JsonData) (r : JsonTree) :
    HoldsPort (readPort junk (.node a v.children r)) config := by
  obtain ⟨⟨s, hs, hdigits, hnumber, hlt⟩, vs, hvs, hne, hpairs⟩ := h
  refine ⟨?_, ?_⟩
  · obtain ⟨r', hr'⟩ := jsonNodeLoop_member hs
    have hreal : jsonReal (jsonNode (.node a v.children r) "port_number".toList) =
        strtoul s.value := by
      rw [show jsonNode (.node a v.children r) "port_number".toList = _ from hr']
      rfl
    have hle : Nat.ofDigitChars 10 s.value 0 ≤ ulongMax := by
      unfold ulongMax
      omega
    unfold readPort
    rw [hreal, strtoul_of_digits hdigits hle, hnumber, toInt_of_lt hlt]
  · obtain ⟨r', hr'⟩ := jsonNodeLoop_member hvs
    show List.Forall₂ _ (readValues junk (jsonNodeLoop "values".toList v.children) _).values _
    apply values_of_forall₂ _ (ne_nil_of_forall₂ hpairs hne)
    rw [hr', children_of_ne_nil hne]
    have hitem : jsonItem
        (.node ((Value.array vs).data (some "values".toList)) (elemChain vs) r') 0 =
          elemChain vs := by
      cases vs with
      | nil => rfl
      | cons v vs => rfl
    unfold readValues
    rw [hitem]
    exact readValuesLoop_pairs hpairs junk.current (switchCreatePortValuesList junk) [] .nil

theorem holdsSwitch_switchOf (junk : PortsJunk) {v : Value} {config : SwitchConfig}
    (h : IsSwitch v config) {n : JsonTree} (hn : n.left = v.children) :
    HoldsSwitch (switchOf junk n) config := by
  obtain ⟨q, hq, hname⟩ := h.name
  obtain ⟨ps, hps, hne, hports⟩ := h.ports
  refine ⟨?_, ?_⟩
  · obtain ⟨r', hr'⟩ := jsonNodeLoop_member hq
    show (jsonString (jsonNodeLoop "switch".toList n.left)).getD [] = _
    rw [hn, hr', ← hname]
    rfl
  · obtain ⟨r', hr'⟩ := jsonNodeLoop_member hps
    show List.Forall₂ _ (readPorts junk (jsonNodeLoop "port_list".toList n.left)).values _
    apply values_of_forall₂ _ (ne_nil_of_forall₂ hports hne)
    rw [held_readPorts, hn, hr', children_of_ne_nil hne]
    exact forall₂_siblings hports fun i v c r hvc =>
      holdsPort_readPort (junk.values i) hvc (v.data none) r

theorem shortName_of_isSwitch {v : Value} {config : SwitchConfig} (h : IsSwitch v config)
    {n : JsonTree} (hn : n.left = v.children) : ShortName n := by
  obtain ⟨q, hq, hname⟩ := h.name
  obtain ⟨r', hr'⟩ := jsonNodeLoop_member hq
  intro name hmem
  rw [show jsonNode n "switch".toList = jsonNodeLoop "switch".toList n.left from rfl, hn,
    hr'] at hmem
  cases hmem
  show q.content.length ≤ 19
  rw [hname]
  exact h.short

theorem hasPorts_of_isSwitch {v : Value} {config : SwitchConfig} (h : IsSwitch v config)
    {n : JsonTree} (hn : n.left = v.children) : hasPorts n = true := by
  obtain ⟨ps, hps, _, _⟩ := h.ports
  obtain ⟨r', hr'⟩ := jsonNodeLoop_member hps
  unfold hasPorts
  rw [show jsonNode n "port_list".toList = jsonNodeLoop "port_list".toList n.left from rfl, hn, hr']
  rfl

theorem exists_of_forall₂ {α β : Type} {R : α → β → Prop} {xs : List α} {ys : List β}
    (h : List.Forall₂ R xs ys) : ∀ x ∈ xs, ∃ y, R x y := by
  induction h with
  | nil => intro x hx; exact absurd hx (by simp)
  | cons hxy _ ih =>
    intro x hx
    rcases List.mem_cons.mp hx with rfl | hx
    · exact ⟨_, hxy⟩
    · exact ih x hx

/-- **The list in memory is the configuration.** -/
theorem readAll_config (junk : Junk) {t : Text} {v : Value} {config : List SwitchConfig}
    (hparse : jsonParse t = some v.tree) (h : IsConfig v config) :
    ∃ list, readAll junk v.tree = .ok list ∧ List.Forall₂ HoldsSwitch list.values config := by
  obtain ⟨vs, rfl, hne, hswitches⟩ := h
  have hsel := switchNodes_config (exists_of_forall₂ hswitches)
  have hnode : ∀ n ∈ preorder (Value.array vs).tree, isSwitch n = true →
      ∃ v sw, IsSwitch v sw ∧ n.left = v.children := by
    intro n hn hs
    have hmem : n.left ∈ vs.map Value.children :=
      hsel ▸ List.mem_map_of_mem (List.mem_filter.mpr ⟨hn, hs⟩)
    obtain ⟨v, hv, hleft⟩ := List.mem_map.mp hmem
    obtain ⟨sw, hsw⟩ := exists_of_forall₂ hswitches v hv
    exact ⟨v, sw, hsw, hleft.symm⟩
  have hname : ∀ n ∈ preorder (Value.array vs).tree, isSwitch n = true → ShortName n := by
    intro n hn hs
    obtain ⟨v, sw, hsw, hleft⟩ := hnode n hn hs
    exact shortName_of_isSwitch hsw hleft
  have hports : ∀ n ∈ preorder (Value.array vs).tree, isSwitch n = true → hasPorts n = true := by
    intro n hn hs
    obtain ⟨v, sw, hsw, hleft⟩ := hnode n hn hs
    exact hasPorts_of_isSwitch hsw hleft
  obtain ⟨list, hread, hheld⟩ := readAll_held junk hparse hname hports
  refine ⟨list, hread, ?_⟩
  apply values_of_forall₂ _ (ne_nil_of_forall₂ hswitches hne)
  have hleft : List.Forall₂ (fun l config => ∃ v, IsSwitch v config ∧ l = v.children)
      (vs.map Value.children) config :=
    List.forall₂_map_left_iff.mpr (hswitches.imp fun v sw hsw => ⟨v, hsw, rfl⟩)
  rw [← hsel, switchNodes, List.forall₂_map_left_iff] at hleft
  rw [hheld]
  refine forall₂_mapIdx hleft fun k n sw hn => ?_
  obtain ⟨v, hsw, hl⟩ := hn
  exact holdsSwitch_switchOf (junk.ports k) hsw hl

end Client
end TsnController
