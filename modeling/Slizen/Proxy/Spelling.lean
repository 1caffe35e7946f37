import Slizen.Proxy.Commands

namespace Slizen.Proxy
set_option autoImplicit true

open Utf8

def upperASCII (b : UInt8) : UInt8 := if 97 ≤ b ∧ b ≤ 122 then b - 32 else b

/-- Simple case mapping, and what a comparison with an ASCII word depends on: how it maps ASCII, and
that of the other letters it maps only the dotless i and the long s to ASCII. -/
structure CaseTable where
  toUpper : Char → Char
  toLower : Char → Char
  upper_ascii : ∀ b : UInt8, b < 128 →
    toUpper (Char.ofNat b.toNat) = Char.ofNat (upperASCII b).toNat
  upper_dotlessI : toUpper (Char.ofNat 0x131) = 'I'
  upper_longS : toUpper (Char.ofNat 0x17F) = 'S'
  upper_other : ∀ c : Char, 128 ≤ c.toNat → c ≠ Char.ofNat 0x131 → c ≠ Char.ofNat 0x17F →
    128 ≤ (toUpper c).toNat

/-- A case table that knows no other letters. -/
def asciiCase : CaseTable where
  toUpper c :=
    if c.toNat < 128 then Char.ofNat (upperASCII (UInt8.ofNat c.toNat)).toNat
    else if c = Char.ofNat 0x131 then 'I'
    else if c = Char.ofNat 0x17F then 'S'
    else c
  toLower c := if c.toNat < 128 then Char.ofNat (lowerASCII (UInt8.ofNat c.toNat)).toNat else c
  upper_ascii b hb := by
    have hlt : b.toNat < 128 := UInt8.lt_iff_toNat_lt.1 hb
    rw [toNat_ofNat_ascii hb, if_pos hlt, UInt8.ofNat_toNat]
  upper_dotlessI := by decide
  upper_longS := by decide
  upper_other c hc hi hs := by
    rw [if_neg (Nat.not_lt.2 hc), if_neg hi, if_neg hs]
    exact hc

/-- `strings.Map`: a byte that is not part of a character becomes `U+FFFD`. -/
def mapRunes (mapping : Char → Char) (s : Bytes) : Bytes :=
  (runes s).flatMap fun
    | some c => String.utf8EncodeChar (mapping c)
    | none => String.utf8EncodeChar (Char.ofNat 0xFFFD)

/-- `strings.ToUpper` and `strings.ToLower`. -/
def CaseTable.letters (table : CaseTable) : Letters where
  toUpper s := if s.all (· < 128) then s.map upperASCII else mapRunes table.toUpper s
  toLower s := if s.all (· < 128) then s.map lowerASCII else mapRunes table.toLower s

/-- The byte sequences that upper-casing takes to a word of ASCII letters. -/
inductive Spells : Bytes → Bytes → Prop where
  | nil : Spells [] []
  | ascii (h : b < 128) : Spells s w → Spells (b :: s) (upperASCII b :: w)
  | dotlessI : Spells s w → Spells (0xC4 :: 0xB1 :: s) (0x49 :: w)
  | longS : Spells s w → Spells (0xC5 :: 0xBF :: s) (0x53 :: w)

theorem upperASCII_lt (h : b < 128) : upperASCII b < 128 := by
  rw [upperASCII]
  split
  · next hb =>
    rw [UInt8.lt_iff_toNat_lt, UInt8.toNat_sub_of_le _ _ (UInt8.le_trans (by decide) hb.1)]
    have := UInt8.le_iff_toNat_le.1 hb.2
    change b.toNat ≤ 122 at this
    change b.toNat - 32 < 128
    omega
  · exact h

theorem lt_of_upperASCII_lt (h : upperASCII b < 128) : b < 128 := by
  rw [upperASCII] at h
  split at h
  · next hb => exact UInt8.lt_of_le_of_lt hb.2 (by decide)
  · exact h

theorem upper_lowerASCII (b : UInt8) : upperASCII (lowerASCII b) = upperASCII b := by
  have hall : ∀ n : Fin 256, upperASCII (lowerASCII (.ofFin n)) = upperASCII (.ofFin n) := by
    decide +kernel
  exact hall b.toFin

theorem lower_upperASCII (b : UInt8) : lowerASCII (upperASCII b) = lowerASCII b := by
  have hall : ∀ n : Fin 256, lowerASCII (upperASCII (.ofFin n)) = lowerASCII (.ofFin n) := by
    decide +kernel
  exact hall b.toFin

theorem mapRunes_char (mapping : Char → Char) (c : Char) (s : Bytes) :
    mapRunes mapping (String.utf8EncodeChar c ++ s) =
      String.utf8EncodeChar (mapping c) ++ mapRunes mapping s := by
  rw [mapRunes, runes_char, List.flatMap_cons, mapRunes]

theorem CaseTable.mapRunes_ascii (table : CaseTable) (h : b < 128) (s : Bytes) :
    mapRunes table.toUpper (b :: s) = upperASCII b :: mapRunes table.toUpper s := by
  have hchar := mapRunes_char table.toUpper (Char.ofNat b.toNat) s
  rwa [utf8EncodeChar_ascii h, table.upper_ascii b h, utf8EncodeChar_ascii (upperASCII_lt h)]
    at hchar

theorem CaseTable.toUpper_eq (table : CaseTable) (s : Bytes) :
    table.letters.toUpper s = mapRunes table.toUpper s := by
  change (if s.all (· < 128) then s.map upperASCII else mapRunes table.toUpper s) = _
  split
  · next hall =>
    induction s with
    | nil => rfl
    | cons b s ih =>
      rw [List.all_cons, Bool.and_eq_true, decide_eq_true_eq] at hall
      rw [table.mapRunes_ascii hall.1, List.map_cons, ih hall.2]
  · rfl

theorem CaseTable.toUpper_iff (table : CaseTable) (s w : Bytes) (hw : ∀ b ∈ w, b < 128) :
    table.letters.toUpper s = w ↔ Spells s w := by
  rw [table.toUpper_eq]
  constructor
  · intro h
    induction s using rune_induction generalizing w with
    | nil =>
      cases h
      exact .nil
    | char c s ih =>
      rw [mapRunes_char] at h
      by_cases hc : c.toNat < 128
      · obtain ⟨b, hb, rfl⟩ := exists_byte hc
        rw [table.upper_ascii b hb, utf8EncodeChar_ascii (upperASCII_lt hb)] at h
        subst h
        rw [utf8EncodeChar_ascii hb]
        exact .ascii hb (ih _ (fun b hb => hw b (List.mem_cons_of_mem _ hb)) rfl)
      · by_cases hi : c = Char.ofNat 0x131
        · subst hi
          rw [table.upper_dotlessI] at h
          subst h
          exact .dotlessI (ih _ (fun b hb => hw b (List.mem_cons_of_mem _ hb)) rfl)
        · by_cases hs : c = Char.ofNat 0x17F
          · subst hs
            rw [table.upper_longS] at h
            subst h
            exact .longS (ih _ (fun b hb => hw b (List.mem_cons_of_mem _ hb)) rfl)
          · obtain ⟨b, bs, hbytes, hb⟩ :=
              head_nonascii (table.upper_other c (Nat.le_of_not_lt hc) hi hs)
            rw [hbytes] at h
            subst h
            exact absurd (hw b List.mem_cons_self) hb
    | invalid b s hnone _ =>
      rw [mapRunes, runes_invalid hnone, List.flatMap_cons] at h
      subst h
      exact absurd (hw 0xEF List.mem_cons_self) (by decide)
  · intro h
    induction h with
    | nil => rfl
    | ascii hb _ ih =>
      rw [table.mapRunes_ascii hb, ih fun b hb => hw b (List.mem_cons_of_mem _ hb)]
    | @dotlessI s w _ ih =>
      have hchar := mapRunes_char table.toUpper (Char.ofNat 0x131) s
      rw [table.upper_dotlessI, ih fun b hb => hw b (List.mem_cons_of_mem _ hb)] at hchar
      exact hchar
    | @longS s w _ ih =>
      have hchar := mapRunes_char table.toUpper (Char.ofNat 0x17F) s
      rw [table.upper_longS, ih fun b hb => hw b (List.mem_cons_of_mem _ hb)] at hchar
      exact hchar

theorem Spells.word_ascii (h : Spells s w) : ∀ b ∈ w, b < 128 := by
  induction h with
  | nil => exact fun b hb => absurd hb List.not_mem_nil
  | ascii hb _ ih => exact List.forall_mem_cons.2 ⟨upperASCII_lt hb, ih⟩
  | dotlessI _ ih => exact List.forall_mem_cons.2 ⟨by decide, ih⟩
  | longS _ ih => exact List.forall_mem_cons.2 ⟨by decide, ih⟩

theorem Spells.ascii_iff (h : Spells s w) : s.map upperASCII = w ↔ ∀ b ∈ s, b < 128 := by
  constructor
  · intro heq b hb
    apply lt_of_upperASCII_lt
    apply h.word_ascii
    rw [← heq]
    exact List.mem_map_of_mem hb
  · intro hs
    induction h with
    | nil => rfl
    | ascii _ _ ih => rw [List.map_cons, ih (List.forall_mem_cons.1 hs).2]
    | dotlessI _ _ => exact absurd (hs 0xC4 List.mem_cons_self) (by decide)
    | longS _ _ => exact absurd (hs 0xC5 List.mem_cons_self) (by decide)

theorem spells_ascii (h : ∀ b ∈ s, b < 128) : Spells s (s.map upperASCII) := by
  induction s with
  | nil => exact .nil
  | cons b s ih =>
    exact .ascii (h b List.mem_cons_self) (ih fun c hc => h c (List.mem_cons_of_mem _ hc))

theorem Spells.map_upperASCII (h : Spells s w) (hi : 0x49 ∉ w) (hs : 0x53 ∉ w) :
    s.map upperASCII = w := by
  induction h with
  | nil => rfl
  | ascii _ _ ih =>
    rw [List.map_cons, ih (fun h => hi (List.mem_cons_of_mem _ h))
      (fun h => hs (List.mem_cons_of_mem _ h))]
  | dotlessI _ _ => exact absurd List.mem_cons_self hi
  | longS _ _ => exact absurd List.mem_cons_self hs

theorem CaseTable.toUpper_plain (table : CaseTable) (s : Bytes) {w : Bytes}
    (hw : ∀ b ∈ w, b < 128) (hi : 0x49 ∉ w) (hs : 0x53 ∉ w) :
    table.letters.toUpper s = w ↔ s.map upperASCII = w := by
  rw [table.toUpper_iff s w hw]
  constructor
  · exact fun h => h.map_upperASCII hi hs
  · rintro rfl
    exact spells_ascii fun b hb => lt_of_upperASCII_lt (hw _ (List.mem_map_of_mem hb))

theorem CaseTable.equalFold_iff (table : CaseTable) (s : Bytes) {lower upper : Bytes}
    (hlower : upper.map lowerASCII = lower) (hupper : lower.map upperASCII = upper)
    (hw : ∀ b ∈ upper, b < 128) (hk : 0x6B ∉ lower) (hs : 0x73 ∉ lower) (hI : 0x49 ∉ upper)
    (hS : 0x53 ∉ upper) : equalFold s lower = true ↔ table.letters.toUpper s = upper := by
  rw [equalFold_plain s lower hk hs, table.toUpper_plain s hw hI hS]
  constructor
  · rintro rfl
    rw [← hupper, List.map_map]
    exact List.map_congr_left fun b _ => (upper_lowerASCII b).symm
  · rintro rfl
    rw [← hlower, List.map_map]
    exact List.map_congr_left fun b _ => (lower_upperASCII b).symm

theorem CaseTable.equalFold_get (table : CaseTable) (s : Bytes) :
    equalFold s wordGET = true ↔ table.letters.toUpper s = ascii "GET" :=
  table.equalFold_iff s (by decide) (by decide) (lt_of_all (by decide)) (by decide) (by decide)
    (by decide) (by decide)

theorem CaseTable.equalFold_mget (table : CaseTable) (s : Bytes) :
    equalFold s wordMGET = true ↔ table.letters.toUpper s = ascii "MGET" :=
  table.equalFold_iff s (by decide) (by decide) (lt_of_all (by decide)) (by decide) (by decide)
    (by decide) (by decide)

end Slizen.Proxy
