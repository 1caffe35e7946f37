import Slizen.Proxy.Spelling
import Slizen.Proxy.Handle

namespace Slizen.Proxy
set_option autoImplicit true

/-- The options whose operand `setUsesGetOption` skips. -/
def expiryWords : List Bytes := [ascii "EX", ascii "PX", ascii "EXAT", ascii "PXAT"]

/-- An item of the option list of `SET` as an origin parses it: its name in any letter case, and
its operand. -/
inductive SetOption where
  | flag (name : Bytes) (h : name.map upperASCII ∈ [ascii "NX", ascii "XX", ascii "KEEPTTL"])
  | get (name : Bytes) (h : name.map upperASCII = ascii "GET")
  | expiry (name operand : Bytes) (h : name.map upperASCII ∈ expiryWords)
  | ifeq (name operand : Bytes) (h : name.map upperASCII = ascii "IFEQ")

namespace SetOption

def words : SetOption → List Bytes
  | .flag name _ => [name]
  | .get name _ => [name]
  | .expiry name operand _ => [name, operand]
  | .ifeq name operand _ => [name, operand]

def isGet : SetOption → Bool
  | .get _ _ => true
  | _ => false

def arguments (items : List SetOption) : List Bytes := items.flatMap words

def hasGet (items : List SetOption) : Bool := items.any isGet

/-- An item with an operand that spells an expiry option, so that a scan which takes the operand for
an option skips the word after it. -/
def Lures : SetOption → Prop
  | .expiry _ operand _ => operand.map upperASCII ∈ expiryWords
  | .ifeq _ operand _ => operand.map upperASCII ∈ expiryWords
  | _ => False

def IsIfeq : SetOption → Prop
  | .ifeq _ _ _ => True
  | _ => False

/-- The items end with an `IFEQ` and items with an expiry after it, if any, whose operands all spell
expiry options. -/
def Shifted (before : List SetOption) : Prop :=
  ∃ front item run, before = front ++ item :: run ∧ item.IsIfeq ∧ item.Lures ∧
    ∀ x ∈ run, x.Lures ∧ ¬ x.IsIfeq

/-- What is taken for the option `GET` after the items `before`: the option itself, unless these
items shift the scan, and an operand that spells it, of an `IFEQ` or, after a shift, of an expiry.
-/
def ReadAsGet (before : List SetOption) : SetOption → Prop
  | .flag _ _ => False
  | .get _ _ => ¬ Shifted before
  | .expiry _ operand _ => Shifted before ∧ operand.map upperASCII = ascii "GET"
  | .ifeq _ operand _ => operand.map upperASCII = ascii "GET"

def ReadsGet (before items : List SetOption) : Prop :=
  ∃ mid item after, items = mid ++ item :: after ∧ item.ReadAsGet (before ++ mid)

/-- No value of an `IFEQ` before the first `GET` spells `GET` or an expiry option. -/
def Plain (items : List SetOption) : Prop :=
  ∀ before name operand h after, items = before ++ .ifeq name operand h :: after →
    hasGet before = false → operand.map upperASCII ∉ ascii "GET" :: expiryWords

end SetOption

section

variable (table : CaseTable)

theorem toUpper_get (option : Bytes) :
    table.letters.toUpper option = ascii "GET" ↔ option.map upperASCII = ascii "GET" :=
  table.toUpper_plain option (lt_of_all (by decide)) (by decide) (by decide)

theorem takesOperand_iff (option : Bytes) :
    takesOperand table.letters option = true ↔ option.map upperASCII ∈ expiryWords := by
  have hword : ∀ w ∈ expiryWords,
      table.letters.toUpper option = w ↔ option.map upperASCII = w := by
    intro w hw
    have hplain : ∀ w ∈ expiryWords, w.all (· < 128) = true ∧ 0x49 ∉ w ∧ 0x53 ∉ w := by decide
    obtain ⟨hascii, hi, hs⟩ := hplain w hw
    exact table.toUpper_plain option (lt_of_all hascii) hi hs
  rw [takesOperand, decide_eq_true_eq]
  constructor
  · intro h
    rwa [(hword _ h).1 rfl]
  · intro h
    change _ ∈ expiryWords
    rwa [(hword _ h).2 rfl]

theorem setUsesGetOption_cons (option : Bytes) (options : List Bytes) :
    setUsesGetOption table.letters (option :: options) =
      if option.map upperASCII = ascii "GET" then true
      else setUsesGetOption table.letters
        (if option.map upperASCII ∈ expiryWords then options.drop 1 else options) := by
  cases options with
  | nil =>
    rw [setUsesGetOption, List.drop_nil, ite_self]
    by_cases hget : option.map upperASCII = ascii "GET"
    · rw [if_pos hget, decide_eq_true_eq]
      exact (toUpper_get table option).2 hget
    · rw [if_neg hget, setUsesGetOption, decide_eq_false_iff_not]
      exact mt (toUpper_get table option).1 hget
  | cons operand options =>
    rw [setUsesGetOption, List.drop_one, List.tail_cons]
    simp only [toUpper_get, takesOperand_iff, apply_ite (setUsesGetOption table.letters)]

namespace SetOption

theorem flag_ignored {w : Bytes} (h : w ∈ [ascii "NX", ascii "XX", ascii "KEEPTTL"]) :
    w ≠ ascii "GET" ∧ w ∉ expiryWords := by
  have hall : ∀ w ∈ [ascii "NX", ascii "XX", ascii "KEEPTTL"],
      w ≠ ascii "GET" ∧ w ∉ expiryWords := by decide
  exact hall w h

theorem expiry_ne_get {w : Bytes} (h : w ∈ expiryWords) : w ≠ ascii "GET" := by
  rintro rfl
  exact absurd h (by decide)

theorem shifted_snoc (before : List SetOption) (item : SetOption) : Shifted (before ++ [item]) ↔
    item.Lures ∧ (item.IsIfeq ∨ Shifted before) := by
  constructor
  · rintro ⟨front, first, run, heq, hifeq, hlures, hrun⟩
    rcases List.eq_nil_or_concat run with rfl | ⟨run, last, rfl⟩
    · obtain ⟨-, hlast⟩ := List.append_inj' heq rfl
      cases hlast
      exact ⟨hlures, .inl hifeq⟩
    · rw [List.concat_eq_append] at heq hrun
      rw [← List.cons_append, ← List.append_assoc] at heq
      obtain ⟨rfl, hlast⟩ := List.append_inj' heq rfl
      cases hlast
      obtain ⟨hrun, hlast⟩ := List.forall_mem_append.1 hrun
      exact ⟨(hlast _ (List.mem_singleton_self _)).1,
        .inr ⟨front, first, run, rfl, hifeq, hlures, hrun⟩⟩
  · rintro ⟨hlures, hifeq | ⟨front, first, run, rfl, hifeq, hfirst, hrun⟩⟩
    · exact ⟨before, item, [], rfl, hifeq, hlures, by simp⟩
    · by_cases hitem : item.IsIfeq
      · exact ⟨_, item, [], rfl, hitem, hlures, by simp⟩
      · refine ⟨front, first, run ++ [item], by simp, hifeq, hfirst, ?_⟩
        rw [List.forall_mem_append]
        exact ⟨hrun, by simpa using ⟨hlures, hitem⟩⟩

theorem readsGet_nil (before : List SetOption) : ¬ ReadsGet before [] := by
  rintro ⟨mid, item, after, heq, -⟩
  simp at heq

theorem readsGet_cons {before rest : List SetOption} {item : SetOption} :
    ReadsGet before (item :: rest) ↔ item.ReadAsGet before ∨ ReadsGet (before ++ [item]) rest := by
  constructor
  · rintro ⟨mid, found, after, heq, hfound⟩
    cases mid with
    | nil =>
      cases heq
      rw [List.append_nil] at hfound
      exact .inl hfound
    | cons x mid =>
      cases heq
      exact .inr ⟨mid, found, after, rfl, by rwa [List.append_assoc]⟩
  · rintro (hitem | ⟨mid, found, after, rfl, hfound⟩)
    · exact ⟨[], item, rest, rfl, by rwa [List.append_nil]⟩
    · exact ⟨item :: mid, found, after, rfl, by rwa [List.append_assoc] at hfound⟩

/-- What the scan finds among the items after `before`: a shifted scan has lost the first word. -/
structure Scans (before rest : List SetOption) : Prop where
  straight : ¬ Shifted before →
    (setUsesGetOption table.letters (arguments rest) = true ↔ ReadsGet before rest)
  shifted : Shifted before →
    (setUsesGetOption table.letters ((arguments rest).drop 1) = true ↔ ReadsGet before rest)

variable {table}

theorem Scans.operand {before rest : List SetOption} {operand : Bytes}
    (h : Scans table before rest) (hshift : Shifted before ↔ operand.map upperASCII ∈ expiryWords) :
    setUsesGetOption table.letters (operand :: arguments rest) = true ↔
      operand.map upperASCII = ascii "GET" ∨ ReadsGet before rest := by
  rw [setUsesGetOption_cons]
  by_cases hget : operand.map upperASCII = ascii "GET"
  · rw [if_pos hget]
    exact iff_of_true rfl (.inl hget)
  · rw [if_neg hget, or_iff_right hget]
    by_cases hexpiry : operand.map upperASCII ∈ expiryWords
    · rw [if_pos hexpiry]
      exact h.shifted (hshift.2 hexpiry)
    · rw [if_neg hexpiry]
      exact h.straight (mt hshift.1 hexpiry)

variable (table)

theorem scans (before rest : List SetOption) : Scans table before rest := by
  induction rest generalizing before with
  | nil => exact ⟨fun _ => iff_of_false (by simp [arguments, setUsesGetOption]) (readsGet_nil _),
      fun _ => iff_of_false (by simp [arguments, setUsesGetOption]) (readsGet_nil _)⟩
  | cons item rest ih =>
    have hrest := ih (before ++ [item])
    have hnext := shifted_snoc before item
    cases item with
    | flag name h =>
      have hstraight := hrest.straight fun hs => (hnext.1 hs).1
      obtain ⟨hget, hexpiry⟩ := flag_ignored h
      constructor
      · intro _
        change setUsesGetOption table.letters (name :: arguments rest) = true ↔ _
        rw [setUsesGetOption_cons, if_neg hget, if_neg hexpiry, hstraight, readsGet_cons]
        exact (or_iff_right id).symm
      · intro _
        change setUsesGetOption table.letters (arguments rest) = true ↔ _
        rw [hstraight, readsGet_cons]
        exact (or_iff_right id).symm
    | get name h =>
      have hstraight := hrest.straight fun hs => (hnext.1 hs).1
      constructor
      · intro hs
        change setUsesGetOption table.letters (name :: arguments rest) = true ↔ _
        rw [setUsesGetOption_cons, if_pos h, readsGet_cons]
        exact iff_of_true rfl (.inl hs)
      · intro hs
        change setUsesGetOption table.letters (arguments rest) = true ↔ _
        rw [hstraight, readsGet_cons]
        exact (or_iff_right (not_not.2 hs)).symm
    | expiry name operand h =>
      constructor
      · intro hs
        change setUsesGetOption table.letters (name :: operand :: arguments rest) = true ↔ _
        rw [setUsesGetOption_cons, if_neg (expiry_ne_get h), if_pos h, List.drop_one,
          List.tail_cons, hrest.straight fun hs' => hs ((hnext.1 hs').2.resolve_left id),
          readsGet_cons]
        exact (or_iff_right fun hread => hs hread.1).symm
      · intro hs
        change setUsesGetOption table.letters (operand :: arguments rest) = true ↔ _
        rw [hrest.operand (hnext.trans (and_iff_left (.inr hs))), readsGet_cons]
        exact or_congr_left (and_iff_right hs).symm
    | ifeq name operand h =>
      have hoperand := hrest.operand (hnext.trans (and_iff_left (.inl trivial)))
      constructor
      · intro _
        change setUsesGetOption table.letters (name :: operand :: arguments rest) = true ↔ _
        rw [setUsesGetOption_cons, h, if_neg (by decide), if_neg (by decide), hoperand,
          readsGet_cons]
        exact Iff.rfl
      · intro _
        change setUsesGetOption table.letters (operand :: arguments rest) = true ↔ _
        rw [hoperand, readsGet_cons]
        exact Iff.rfl

theorem scan_iff (items : List SetOption) :
    setUsesGetOption table.letters (arguments items) = true ↔ ReadsGet [] items := by
  apply (scans table [] items).straight
  rintro ⟨front, item, run, heq, -⟩
  simp at heq

variable {table}

theorem Plain.not_shifted {items before after : List SetOption} (h : Plain items)
    (heq : items = before ++ after) (hno : hasGet before = false) : ¬ Shifted before := by
  rintro ⟨front, item, run, rfl, hifeq, hlures, -⟩
  cases item with
  | ifeq name operand hname =>
    rw [hasGet, List.any_append, Bool.or_eq_false_iff] at hno
    rw [List.append_assoc] at heq
    exact h front name operand hname (run ++ after) heq hno.1 (List.mem_cons_of_mem _ hlures)
  | _ => exact hifeq

theorem Plain.reads_iff {items : List SetOption} (h : Plain items) :
    ReadsGet [] items ↔ hasGet items = true := by
  constructor
  · rintro ⟨before, item, after, rfl, hread⟩
    rw [List.nil_append] at hread
    by_contra hno
    rw [Bool.not_eq_true, hasGet, List.any_append, List.any_cons, Bool.or_eq_false_iff,
      Bool.or_eq_false_iff] at hno
    obtain ⟨hbefore, hitem, -⟩ := hno
    cases item with
    | flag name hname => exact hread
    | get name hname => cases hitem
    | expiry name operand hname => exact h.not_shifted rfl hbefore hread.1
    | ifeq name operand hname =>
      exact h before name operand hname after rfl hbefore (hread ▸ List.mem_cons_self)
  · intro hget
    obtain ⟨item, hfind⟩ :=
      Option.isSome_iff_exists.1 (List.find?_isSome.2 (List.any_eq_true.1 hget))
    obtain ⟨hitem, before, after, rfl, hbefore⟩ := List.find?_eq_some_iff_append.1 hfind
    refine ⟨before, item, after, rfl, ?_⟩
    cases item with
    | get name hname =>
      apply h.not_shifted rfl
      rw [hasGet, List.any_eq_false]
      intro x hx
      simpa using hbefore x hx
    | _ => cases hitem

end SetOption

end

/-- `SET` with its options as the origin reads them: refused with the option `GET`, and forwarded
without it. -/
def setAsOrigin (srv : Server) (command key value : Bytes) (items : List SetOption)
    (state : Option ConnectionState) : Run Handled :=
  if SetOption.hasGet items then refuse command rejectedSetGet state
  else srv.forwardWrite command (key :: value :: SetOption.arguments items) [key] state

theorem refuse_ne_forwardWrite (srv : Server) (command msg : Bytes) (args keys : List Bytes)
    (state : Option ConnectionState) :
    refuse command msg state ≠ srv.forwardWrite command args keys state := by
  intro h
  cases h

/-- The scan of the options finds `GET` exactly where an item is taken for it, and so `handle`
refuses and forwards what it should exactly if this is so for the lists with the option. It is so
where no value of an `IFEQ` before the first `GET` spells `GET` or an expiry option, and so for
every list without `IFEQ`. -/
theorem set_get_detected_iff (table : CaseTable) (cfg : ProxyConfig) (items : List SetOption)
    (command name key value : Bytes) (state : Option ConnectionState) :
    let srv : Server := ⟨cfg, table.letters⟩
    let args := SetOption.arguments items
    (setUsesGetOption srv.letters args = true ↔ SetOption.ReadsGet [] items) ∧
      (srv.handleSet command (name :: key :: value :: args) state =
          setAsOrigin srv command key value items state ↔
        (SetOption.ReadsGet [] items ↔ SetOption.hasGet items = true)) ∧
      (SetOption.Plain items → setUsesGetOption srv.letters args = SetOption.hasGet items ∧
        srv.handleSet command (name :: key :: value :: args) state =
          setAsOrigin srv command key value items state) := by
  intro srv args
  have hscan : setUsesGetOption srv.letters args = true ↔ SetOption.ReadsGet [] items :=
    SetOption.scan_iff table items
  have hhandle : srv.handleSet command (name :: key :: value :: args) state =
      setAsOrigin srv command key value items state ↔
        (SetOption.ReadsGet [] items ↔ SetOption.hasGet items = true) := by
    rw [← hscan, Server.handleSet, setAsOrigin]
    cases setUsesGetOption srv.letters args with
    | false =>
      cases SetOption.hasGet items with
      | false => exact iff_of_true rfl Iff.rfl
      | true => exact iff_of_false (refuse_ne_forwardWrite _ _ _ _ _ _).symm (by simp)
    | true =>
      cases SetOption.hasGet items with
      | false => exact iff_of_false (refuse_ne_forwardWrite _ _ _ _ _ _) (by simp)
      | true => exact iff_of_true rfl Iff.rfl
  refine ⟨hscan, hhandle, fun hplain => ⟨?_, hhandle.2 hplain.reads_iff⟩⟩
  exact Bool.eq_iff_iff.2 (hscan.trans hplain.reads_iff)

/-- A value that spells `EX` hides the option after it, and one that spells `GET` makes up for that;
after the option `GET` the values do not matter. -/
theorem set_get_detected_sample :
    let srv : Server := ⟨(Config.default "secret").proxy, asciiCase.letters⟩
    let ifeq (operand : Bytes) : SetOption := .ifeq (ascii "ifeq") operand (by decide)
    let get : SetOption := .get (ascii "Get") (by decide)
    let hidden := [ifeq (ascii "ex"), get, ifeq (ascii "get")]
    let first := [get, ifeq (ascii "get")]
    srv.handleSet [] ([] :: [] :: [] :: SetOption.arguments hidden) none =
        setAsOrigin srv [] [] [] hidden none ∧
      SetOption.Plain first ∧
      setUsesGetOption srv.letters (SetOption.arguments first) = SetOption.hasGet first := by
  intro srv ifeq get hidden first
  have hplain : SetOption.Plain first := by
    intro before name operand h after heq hno
    cases before with
    | nil => exact absurd (List.cons.inj heq).1 (by simp [get])
    | cons x before =>
      cases (List.cons.inj heq).1
      cases hno
  refine ⟨?_, hplain, ?_⟩
  · refine (set_get_detected_iff asciiCase _ hidden [] [] [] [] none).2.1.2 (iff_of_true ?_ rfl)
    refine ⟨[ifeq (ascii "ex"), get], ifeq (ascii "get"), [], rfl, ?_⟩
    show (ascii "get").map upperASCII = ascii "GET"
    decide
  · exact ((set_get_detected_iff asciiCase (Config.default "secret").proxy first [] [] [] []
      none).2.2 hplain).1

/-- `IFEQ GET` is refused although it does not have the option, and `IFEQ EX GET` is forwarded
although it has. -/
theorem set_get_misread :
    let ifeq (operand : Bytes) : SetOption := .ifeq (ascii "IFEQ") operand (by decide)
    let get : SetOption := .get (ascii "GET") (by decide)
    let scan (items : List SetOption) : Bool :=
      setUsesGetOption asciiCase.letters (SetOption.arguments items)
    (scan [ifeq (ascii "GET")] = true ∧ SetOption.hasGet [ifeq (ascii "GET")] = false) ∧
      scan [ifeq (ascii "EX"), get] = false ∧ SetOption.hasGet [ifeq (ascii "EX"), get] = true := by
  decide

end Slizen.Proxy
