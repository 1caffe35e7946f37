import Mathlib.Algebra.GroupWithZero.Nat
import Slizen.Utf8

namespace Slizen.Json
set_option autoImplicit true

open Utf8

/-- The character that stands for what cannot be decoded. -/
def replacement : Char := Char.ofNat 0xFFFD

def simpleEscape (b : UInt8) : Option Char :=
  if b = 0x22 then some '"'
  else if b = 0x5C then some '\\'
  else if b = 0x2F then some '/'
  else if b = 0x62 then some (Char.ofNat 0x08)
  else if b = 0x66 then some (Char.ofNat 0x0C)
  else if b = 0x6E then some (Char.ofNat 0x0A)
  else if b = 0x72 then some (Char.ofNat 0x0D)
  else if b = 0x74 then some (Char.ofNat 0x09)
  else none

def hexDigit (b : UInt8) : Option Nat :=
  if 0x30 ≤ b ∧ b ≤ 0x39 then some (b.toNat - 0x30)
  else if 0x61 ≤ b ∧ b ≤ 0x66 then some (b.toNat - 0x61 + 10)
  else if 0x41 ≤ b ∧ b ≤ 0x46 then some (b.toNat - 0x41 + 10)
  else none

def readHex4 : List UInt8 → Option (Nat × List UInt8)
  | a :: b :: c :: d :: s =>
    match hexDigit a, hexDigit b, hexDigit c, hexDigit d with
    | some a, some b, some c, some d => some (((a * 16 + b) * 16 + c) * 16 + d, s)
    | _, _, _, _ => none
  | _ => none

def readLow : List UInt8 → Option (Nat × List UInt8)
  | 0x5C :: 0x75 :: s => (readHex4 s).filter fun low => 0xDC00 ≤ low.1 ∧ low.1 < 0xE000
  | _ => none

/-- What follows the `u` of an escape. A surrogate that is not the first half of a pair stands for
the replacement character. -/
def readUnicode (s : List UInt8) : Option (Char × List UInt8) :=
  match readHex4 s with
  | none => none
  | some (high, s) =>
    if 0xD800 ≤ high ∧ high < 0xE000 then
      match readLow s with
      | some (low, s') =>
        if high < 0xDC00 then
          some (Char.ofNat (0x10000 + (high - 0xD800) * 0x400 + (low - 0xDC00)), s')
        else some (replacement, s)
      | none => some (replacement, s)
    else some (Char.ofNat high, s)

/-- One character of a string. A byte that is not part of well-formed UTF-8 stands for the
replacement character. -/
def readChar : List UInt8 → Option (Char × List UInt8)
  | [] => none
  | b :: s =>
    if b = 0x5C then
      match s with
      | [] => none
      | e :: s => if e = 0x75 then readUnicode s else (simpleEscape e).map (·, s)
    else if b < 0x20 ∨ b = 0x22 then none
    else
      match decodeRune (b :: s) with
      | some c => some (c, (b :: s).drop c.utf8Size)
      | none => some (replacement, s)

def hexChar (n : Nat) : UInt8 := if n < 10 then UInt8.ofNat (0x30 + n) else UInt8.ofNat (0x57 + n)

def shortEscape (c : Char) : Option UInt8 :=
  if c.toNat = 0x22 then some 0x22
  else if c.toNat = 0x5C then some 0x5C
  else if c.toNat = 0x08 then some 0x62
  else if c.toNat = 0x09 then some 0x74
  else if c.toNat = 0x0A then some 0x6E
  else if c.toNat = 0x0C then some 0x66
  else if c.toNat = 0x0D then some 0x72
  else none

def quoteChar (c : Char) : List UInt8 :=
  match shortEscape c with
  | some e => [0x5C, e]
  | none =>
    if c.toNat < 0x20 then
      [0x5C, 0x75, 0x30, 0x30, hexChar (c.toNat / 16), hexChar (c.toNat % 16)]
    else if c = replacement then [0xFF]
    else String.utf8EncodeChar c

def quotedSize (c : Char) : Nat := (quoteChar c).length

theorem quotedSize_bounds (c : Char) : 0 < quotedSize c ∧ quotedSize c ≤ 6 := by
  have hpos := c.utf8Size_pos
  have hle := c.utf8Size_le_four
  rw [quotedSize, quoteChar]
  split
  · exact ⟨Nat.two_pos, Nat.le_add_left 2 4⟩
  split
  · exact ⟨Nat.succ_pos 5, Nat.le_refl 6⟩
  split
  · exact ⟨Nat.one_pos, Nat.le_add_left 1 5⟩
  · rw [String.length_utf8EncodeChar]
    omega

theorem readHex4_length (h : readHex4 s = some (n, rest)) : s.length = rest.length + 4 := by
  match s with
  | [] | [_] | [_, _] | [_, _, _] => cases h
  | a :: b :: c :: d :: s =>
    rw [readHex4] at h
    split at h
    · cases h
      rfl
    · cases h

theorem readLow_length (h : readLow s = some (n, rest)) : s.length = rest.length + 6 := by
  rw [readLow.eq_def] at h
  split at h
  · next s =>
    have := readHex4_length (Option.filter_eq_some_iff.1 h).1
    rw [List.length_cons, List.length_cons, this]
  · cases h

theorem readUnicode_length (h : readUnicode s = some (c, rest)) : rest.length + 4 ≤ s.length := by
  rw [readUnicode] at h
  split at h
  · cases h
  · next high s' hhigh =>
    have hlen := readHex4_length hhigh
    split at h
    · split at h
      · next low s'' hlow =>
        have hlen' := readLow_length hlow
        split at h
        all_goals
          obtain ⟨-, rfl⟩ := Prod.mk.inj (Option.some.inj h)
          omega
      · obtain ⟨-, rfl⟩ := Prod.mk.inj (Option.some.inj h)
        omega
    · obtain ⟨-, rfl⟩ := Prod.mk.inj (Option.some.inj h)
      omega

theorem simpleEscape_size (h : simpleEscape b = some c) : quotedSize c ≤ 2 := by
  rw [simpleEscape] at h
  repeat' split at h
  all_goals
    cases h
    try decide

theorem shortEscape_none (h : 0x20 ≤ c.toNat) (hquote : c.toNat ≠ 0x22) (hslash : c.toNat ≠ 0x5C) :
    shortEscape c = none := by
  rw [shortEscape, if_neg hquote, if_neg hslash, if_neg (by omega), if_neg (by omega),
    if_neg (by omega), if_neg (by omega), if_neg (by omega)]

theorem decodeRune_plain (h : decodeRune (b :: s) = some c) :
    (b ≠ 0x5C ∧ ¬(b < 0x20 ∨ b = 0x22)) ↔ 0x20 ≤ c.toNat ∧ c.toNat ≠ 0x22 ∧ c.toNat ≠ 0x5C := by
  by_cases hc : c.toNat < 128
  · obtain ⟨a, ha, rfl⟩ := exists_byte hc
    have heq := eq_of_decodeRune h
    rw [utf8EncodeChar_ascii ha] at heq
    obtain rfl : b = a := (List.cons.inj heq).1
    rw [toNat_ofNat_ascii ha, UInt8.lt_iff_toNat_lt, ← UInt8.toNat_inj, ne_eq, ← UInt8.toNat_inj]
    change ¬b.toNat = 0x5C ∧ ¬(b.toNat < 0x20 ∨ b.toNat = 0x22) ↔ _
    omega
  · obtain ⟨a, bs, hbytes, ha⟩ := head_nonascii (Nat.le_of_not_lt hc)
    have heq := eq_of_decodeRune h
    rw [hbytes] at heq
    obtain rfl : b = a := (List.cons.inj heq).1
    refine ⟨fun _ => ⟨by omega, by omega, by omega⟩, fun _ => ⟨?_, ?_⟩⟩
    · rintro rfl
      exact ha (by decide)
    · rintro (hlt | rfl)
      · exact ha (UInt8.lt_trans hlt (by decide))
      · exact ha (by decide)

theorem quotedSize_plain (h : 0x20 ≤ c.toNat ∧ c.toNat ≠ 0x22 ∧ c.toNat ≠ 0x5C) :
    quotedSize c ≤ c.utf8Size := by
  rw [quotedSize, quoteChar, shortEscape_none h.1 h.2.1 h.2.2]
  simp only
  rw [if_neg (by omega)]
  split
  · exact c.utf8Size_pos
  · exact Nat.le_of_eq (String.length_utf8EncodeChar c)

theorem readChar_size (h : readChar s = some (c, rest)) :
    rest.length + quotedSize c ≤ s.length := by
  match s with
  | [] => cases h
  | b :: s =>
    rw [readChar.eq_def] at h
    simp only at h
    split at h
    · split at h
      · cases h
      · next e s =>
        simp only [List.length_cons]
        split at h
        · have := readUnicode_length h
          have := (quotedSize_bounds c).2
          omega
        · obtain ⟨c', hescape, hpair⟩ := Option.map_eq_some_iff.1 h
          obtain ⟨rfl, rfl⟩ := Prod.mk.inj hpair
          have := simpleEscape_size hescape
          omega
    · next hslash =>
      split at h
      · cases h
      · next hb =>
        split at h
        · next c' hdecode =>
          obtain ⟨rfl, rfl⟩ := Prod.mk.inj (Option.some.inj h)
          have hsize := quotedSize_plain ((decodeRune_plain hdecode).1 ⟨hslash, hb⟩)
          have hlen := congrArg List.length (eq_of_decodeRune hdecode)
          rw [List.length_append, String.length_utf8EncodeChar] at hlen
          omega
        · obtain ⟨rfl, rfl⟩ := Prod.mk.inj (Option.some.inj h)
          exact Nat.le_refl _

theorem readChar_lt (h : readChar s = some (c, rest)) : rest.length < s.length := by
  have := readChar_size h
  have := (quotedSize_bounds c).1
  omega

def readString (s : List UInt8) : Option (List Char × List UInt8) :=
  match s with
  | 0x22 :: rest => some ([], rest)
  | s =>
    match _h : readChar s with
    | none => none
    | some (c, rest) => (readString rest).map fun r => (c :: r.1, r.2)
termination_by s.length
decreasing_by exact readChar_lt _h

theorem readString_quote (rest : List UInt8) : readString (0x22 :: rest) = some ([], rest) := by
  rw [readString]

theorem readString_char (h : readChar s = some (c, rest)) :
    readString s = (readString rest).map fun r => (c :: r.1, r.2) := by
  rw [readString.eq_def]
  split
  · cases h
  · split
    · next hnone =>
      rw [h] at hnone
      cases hnone
    · next hsome =>
      rw [h] at hsome
      cases hsome
      rfl

theorem readString_invalid (h : readChar s = none) (hquote : ∀ rest, s ≠ 0x22 :: rest) :
    readString s = none := by
  rw [readString.eq_def]
  split
  · next rest => exact absurd rfl (hquote rest)
  · split
    · rfl
    · next hsome =>
      rw [h] at hsome
      cases hsome

theorem readString_size (h : readString s = some (cs, rest)) :
    rest.length + (cs.map quotedSize).sum + 1 ≤ s.length := by
  induction s using readString.induct generalizing cs with
  | case1 rest' =>
    rw [readString_quote] at h
    cases h
    exact Nat.le_refl _
  | case2 s hquote hnone =>
    rw [readString_invalid hnone fun rest => hquote rest] at h
    cases h
  | case3 s hquote c rest' hchar ih =>
    rw [readString_char hchar] at h
    obtain ⟨⟨cs', rest''⟩, hrest, hpair⟩ := Option.map_eq_some_iff.1 h
    obtain ⟨rfl, rfl⟩ := Prod.mk.inj hpair
    have := ih hrest
    have := readChar_size hchar
    rw [List.map_cons, List.sum_cons]
    dsimp only at *
    omega

theorem decodeRune_invalid (s : List UInt8) : decodeRune (0xFF :: s) = none := by
  rw [decodeRune, ByteArray.utf8DecodeChar?]
  have hsize : 0 < (List.toByteArray (0xFF :: s)).size := by simp
  have hget : (List.toByteArray (0xFF :: s))[0] = 0xFF := by
    simp
  rw [dif_pos hsize, hget]
  rfl

theorem hexDigit_hexChar (h : n < 16) : hexDigit (hexChar n) = some n := by
  have hall : ∀ n : Fin 16, hexDigit (hexChar n) = some n.val := by decide
  exact hall ⟨n, h⟩

theorem simpleEscape_shortEscape (h : shortEscape c = some e) :
    e ≠ 0x75 ∧ simpleEscape e = some c := by
  have hchar : ∀ n, c.toNat = n → c = Char.ofNat n := by
    rintro _ rfl
    exact (Char.ofNat_toNat c).symm
  rw [shortEscape] at h
  repeat' split at h
  all_goals
    cases h
    try rw [hchar _ ‹_›]
    try decide

theorem readChar_control (h : c.toNat < 0x20) (s : List UInt8) :
    readChar
      (0x5C :: 0x75 :: 0x30 :: 0x30 :: hexChar (c.toNat / 16) :: hexChar (c.toNat % 16) :: s) =
      some (c, s) := by
  have hhigh := hexDigit_hexChar (n := c.toNat / 16) (by omega)
  have hlow := hexDigit_hexChar (n := c.toNat % 16) (by omega)
  have hzero : hexDigit 0x30 = some 0 := by decide
  have hnat : ((0 * 16 + 0) * 16 + c.toNat / 16) * 16 + c.toNat % 16 = c.toNat := by omega
  have hread : readHex4 (0x30 :: 0x30 :: hexChar (c.toNat / 16) :: hexChar (c.toNat % 16) :: s) =
      some (c.toNat, s) := by
    rw [readHex4, hzero, hhigh, hlow]
    simp only [hnat]
  change readUnicode _ = _
  rw [readUnicode, hread]
  simp only
  rw [if_neg (by omega), Char.ofNat_toNat]

theorem readChar_plain (h : decodeRune s = some c)
    (hc : 0x20 ≤ c.toNat ∧ c.toNat ≠ 0x22 ∧ c.toNat ≠ 0x5C) :
    readChar s = some (c, s.drop c.utf8Size) := by
  cases s with
  | nil => cases h
  | cons b s =>
    obtain ⟨hslash, hb⟩ := (decodeRune_plain h).2 hc
    rw [readChar.eq_def]
    simp only
    rw [if_neg hslash, if_neg hb, h]

theorem readChar_quoteChar (c : Char) (s : List UInt8) :
    readChar (quoteChar c ++ s) = some (c, s) := by
  rw [quoteChar]
  split
  · next e hshort =>
    obtain ⟨hu, hescape⟩ := simpleEscape_shortEscape hshort
    change (if e = 0x75 then readUnicode s else (simpleEscape e).map (·, s)) = _
    rw [if_neg hu, hescape]
    rfl
  · next hshort =>
    split
    · next hctl => exact readChar_control hctl s
    split
    · next hrep =>
      subst hrep
      change readChar (0xFF :: s) = _
      rw [readChar.eq_def]
      simp only
      rw [if_neg (by decide), if_neg (by decide), decodeRune_invalid]
    · next hctl hrep =>
      have hplain : c.toNat ≠ 0x22 ∧ c.toNat ≠ 0x5C := by
        constructor
        · intro hquote
          rw [shortEscape, if_pos hquote] at hshort
          cases hshort
        · intro hslash
          rw [shortEscape, if_neg (by omega), if_pos hslash] at hshort
          cases hshort
      rw [readChar_plain (decodeRune_encode c s) ⟨by omega, hplain⟩,
        List.drop_left' (String.length_utf8EncodeChar c)]

def quote (cs : List Char) : List UInt8 := cs.flatMap quoteChar

theorem length_quote (cs : List Char) : (quote cs).length = (cs.map quotedSize).sum := by
  rw [quote, List.length_flatMap]
  rfl

theorem readString_quoted (cs : List Char) (s : List UInt8) :
    readString (quote cs ++ 0x22 :: s) = some (cs, s) := by
  induction cs with
  | nil => exact readString_quote s
  | cons c cs ih =>
    rw [quote, List.flatMap_cons, List.append_assoc, readString_char (readChar_quoteChar c _)]
    rw [quote] at ih
    rw [ih]
    rfl

end Slizen.Json
