import Mathlib.Data.List.Basic

namespace Slizen.Utf8
set_option autoImplicit true

/-- The character that a byte sequence starts with, if it starts with well-formed UTF-8. -/
def decodeRune (s : List UInt8) : Option Char := s.toByteArray.utf8DecodeChar? 0

/-- The characters of a byte sequence from the given offset on; `none` stands for a byte at which no
well-formed sequence starts. -/
def runesFrom : Nat → List UInt8 → List (Option Char)
  | _, [] => []
  | skip + 1, _ :: s => runesFrom skip s
  | 0, b :: s =>
    match decodeRune (b :: s) with
    | some c => some c :: runesFrom (c.utf8Size - 1) s
    | none => none :: runesFrom 0 s

def runes (s : List UInt8) : List (Option Char) := runesFrom 0 s

def encode (cs : List Char) : List UInt8 := cs.flatMap String.utf8EncodeChar

theorem decodeRune_encode (c : Char) (s : List UInt8) :
    decodeRune (String.utf8EncodeChar c ++ s) = some c := by
  have hsingle : (String.utf8EncodeChar c).toByteArray = [c].utf8Encode := by
    simp [List.utf8Encode]
  rw [decodeRune, List.toByteArray_append, hsingle]
  exact ByteArray.utf8DecodeChar?_append_eq_some List.utf8DecodeChar?_utf8Encode_singleton _

theorem eq_of_decodeRune (h : decodeRune s = some c) :
    s = String.utf8EncodeChar c ++ s.drop c.utf8Size := by
  have heq := ByteArray.eq_of_utf8DecodeChar?_eq_some h
  have hlist := congrArg (fun b : ByteArray => b.data.toList) heq
  have htake : (s.drop c.utf8Size).take (s.length - c.utf8Size) = s.drop c.utf8Size :=
    List.take_of_length_le (List.length_drop ▸ Nat.le_refl _)
  simpa [htake] using hlist

theorem runesFrom_eq (skip : Nat) (s : List UInt8) : runesFrom skip s = runes (s.drop skip) := by
  induction s generalizing skip with
  | nil =>
    cases skip with
    | zero => rfl
    | succ skip => rfl
  | cons b s ih =>
    cases skip with
    | zero => rfl
    | succ skip => exact ih skip

theorem runes_char (c : Char) (s : List UInt8) :
    runes (String.utf8EncodeChar c ++ s) = some c :: runes s := by
  have hlength := String.length_utf8EncodeChar c
  have hpos := c.utf8Size_pos
  cases hbytes : String.utf8EncodeChar c with
  | nil =>
    rw [hbytes, List.length_nil] at hlength
    omega
  | cons b bs =>
    have hdecode := decodeRune_encode c s
    rw [hbytes, List.cons_append] at hdecode
    rw [hbytes, List.length_cons] at hlength
    rw [List.cons_append, runes, runesFrom, hdecode]
    simp only
    rw [runesFrom_eq, ← hlength, Nat.add_sub_cancel, List.drop_left]

theorem runes_invalid (h : decodeRune (b :: s) = none) : runes (b :: s) = none :: runes s := by
  rw [runes, runesFrom, h]
  rfl

theorem runes_encode (cs : List Char) : runes (encode cs) = cs.map some := by
  induction cs with
  | nil => rfl
  | cons c cs ih => rw [encode, List.flatMap_cons, runes_char, List.map_cons, ← ih, encode]

theorem encode_injective (h : encode cs = encode cs') : cs = cs' := by
  have hrunes := congrArg runes h
  rw [runes_encode, runes_encode] at hrunes
  exact List.map_injective_iff.2 (fun _ _ => Option.some.inj) hrunes

/-- Every byte sequence is read from the left, one character or one stray byte at a time. -/
theorem rune_induction {motive : List UInt8 → Prop} (nil : motive [])
    (char : ∀ c s, motive s → motive (String.utf8EncodeChar c ++ s))
    (invalid : ∀ b s, decodeRune (b :: s) = none → motive s → motive (b :: s)) (s : List UInt8) :
    motive s := by
  induction hn : s.length using Nat.strongRecOn generalizing s with
  | ind n ih =>
    cases s with
    | nil => exact nil
    | cons b s =>
      cases hdecode : decodeRune (b :: s) with
      | none =>
        exact invalid b s hdecode (ih s.length (by rw [← hn]; exact Nat.lt_succ_self _) s rfl)
      | some c =>
        have hpos := c.utf8Size_pos
        rw [eq_of_decodeRune hdecode]
        apply char c
        apply ih _ _ _ rfl
        rw [← hn, List.length_drop, List.length_cons]
        omega

theorem toNat_ofNat_ascii {b : UInt8} (h : b < 128) : (Char.ofNat b.toNat).toNat = b.toNat := by
  have hb : b.toNat < 128 := UInt8.lt_iff_toNat_lt.1 h
  have hvalid : b.toNat.isValidChar := Or.inl (by omega)
  rw [Char.ofNat, dif_pos hvalid]
  rfl

theorem utf8EncodeChar_ascii {b : UInt8} (h : b < 128) :
    String.utf8EncodeChar (Char.ofNat b.toNat) = [b] := by
  have hb : b.toNat < 128 := UInt8.lt_iff_toNat_lt.1 h
  have hnat := toNat_ofNat_ascii h
  have hsize : (Char.ofNat b.toNat).utf8Size = 1 := by
    rw [Char.utf8Size_eq_one_iff, UInt32.le_iff_toNat_le]
    change (Char.ofNat b.toNat).toNat ≤ 127
    omega
  rw [String.utf8EncodeChar_eq_singleton hsize]
  congr 1
  apply UInt8.toNat_inj.1
  rw [UInt32.toNat_toUInt8]
  change (Char.ofNat b.toNat).toNat % 2 ^ 8 = b.toNat
  omega

theorem runes_ascii {b : UInt8} (h : b < 128) (s : List UInt8) :
    runes (b :: s) = some (Char.ofNat b.toNat) :: runes s := by
  have hchar := runes_char (Char.ofNat b.toNat) s
  rwa [utf8EncodeChar_ascii h] at hchar

theorem exists_byte {c : Char} (h : c.toNat < 128) :
    ∃ b : UInt8, b < 128 ∧ c = Char.ofNat b.toNat := by
  have hnat : (UInt8.ofNat c.toNat).toNat = c.toNat := by
    rw [UInt8.toNat_ofNat']
    omega
  refine ⟨UInt8.ofNat c.toNat, ?_, ?_⟩
  · rw [UInt8.lt_iff_toNat_lt, hnat]
    exact h
  · rw [hnat, Char.ofNat_toNat]

theorem head_nonascii {c : Char} (h : 128 ≤ c.toNat) :
    ∃ b bs, String.utf8EncodeChar c = b :: bs ∧ ¬b < 128 := by
  have hlength := String.length_utf8EncodeChar c
  have hpos := c.utf8Size_pos
  cases hbytes : String.utf8EncodeChar c with
  | nil =>
    rw [hbytes, List.length_nil] at hlength
    omega
  | cons b bs =>
    refine ⟨b, bs, rfl, fun hb => ?_⟩
    have hrunes := runes_char c []
    rw [hbytes, List.cons_append, runes_ascii hb, List.cons.injEq, Option.some.injEq] at hrunes
    rw [← hrunes.1, toNat_ofNat_ascii hb] at h
    exact absurd (UInt8.lt_iff_toNat_lt.1 hb) (Nat.not_lt.2 h)

end Slizen.Utf8
