import Slizen.Utf8

namespace Slizen
set_option autoImplicit true

/-- Go strings and byte slices are byte sequences. -/
abbrev Bytes := List UInt8

abbrev Key := Bytes

instance : LawfulBEq Bytes := inferInstance

/-- Instants and durations in nanoseconds; `time.Time{}` is `0`. -/
abbrev Time := Int

/-- Where a payload comes from: the upstream read with its ticket, the version of the origin it
saw and the PTTL reported with it, or a write-through with the number of tickets issued before its
dispatch and the version the write made. It is a history variable: no function of the program
looks at it. -/
inductive Source where
  | read (ticket version : Nat) (pttl : Time)
  | write (ticket version : Nat)
  deriving DecidableEq

def Source.version : Source → Nat
  | .read _ v _ => v
  | .write _ v => v

/-- The PTTL that `writeThroughSet` gives to a value is the one of a key without expiry. -/
def Source.pttl : Source → Time
  | .read _ _ p => p
  | .write _ _ => -1

/-- A byte slice as the service passes it on, with its source. -/
structure Blob where
  bytes : Bytes
  source : Source
  deriving DecidableEq

/-- `upstream.Value`. -/
structure Value where
  data : Blob
  exists? : Bool
  pttl : Time
  deriving DecidableEq

inductive Error where
  | keyRequired
  | canceled
  | deadlineExceeded
  | upstream (message : String)
  deriving DecidableEq

def lowerASCII (b : UInt8) : UInt8 := if 65 ≤ b ∧ b ≤ 90 then b + 32 else b

/-- `strings.EqualFold` against a lower-case ASCII word. Besides the two ASCII cases, simple
folding maps the Kelvin sign (`E2 84 AA`) to `k` and the long s (`C5 BF`) to `s`. -/
def equalFold : Bytes → Bytes → Bool
  | [], [] => true
  | 0xE2 :: 0x84 :: 0xAA :: s, 0x6B :: w => equalFold s w
  | 0xC5 :: 0xBF :: s, 0x73 :: w => equalFold s w
  | b :: s, c :: w => lowerASCII b == c && equalFold s w
  | _, _ => false

def wordOK : Bytes := [0x6F, 0x6B]

def wordSET : Bytes := [0x73, 0x65, 0x74]

example : equalFold [0x4F, 0x4B] wordOK = true := by decide

example : equalFold [0xC5, 0xBF, 0x45, 0x54] wordSET = true := by decide

open Utf8

theorem equalFold_plain (s w : Bytes) (hk : 0x6B ∉ w) (hs : 0x73 ∉ w) :
    equalFold s w = true ↔ s.map lowerASCII = w := by
  fun_induction equalFold s w with
  | case1 => exact ⟨fun _ => rfl, fun _ => rfl⟩
  | case2 s w _ => exact absurd List.mem_cons_self hk
  | case3 s w _ => exact absurd List.mem_cons_self hs
  | case4 b s c w _ _ ih =>
    rw [Bool.and_eq_true, beq_iff_eq, List.map_cons, List.cons.injEq,
      ih (fun h => hk (List.mem_cons_of_mem _ h)) (fun h => hs (List.mem_cons_of_mem _ h))]
  | case5 s w hnil _ _ hcons =>
    refine ⟨fun h => absurd h Bool.false_ne_true, ?_⟩
    rintro rfl
    cases s with
    | nil => exact (hnil rfl rfl).elim
    | cons b s => exact (hcons b s _ _ rfl rfl).elim

theorem lt_of_lowerASCII_lt (h : lowerASCII b < 128) : b < 128 := by
  rw [lowerASCII] at h
  split at h
  · next hb => exact UInt8.lt_of_le_of_lt hb.2 (by decide)
  · exact h

theorem lt_of_all {w : Bytes} (h : w.all (· < 128) = true) : ∀ b ∈ w, b < 128 := by
  intro b hb
  exact of_decide_eq_true (List.all_eq_true.1 h b hb)

theorem runes_of_equalFold (s w : Bytes) (hw : ∀ c ∈ w, c < 128) (h : equalFold s w = true) :
    (runes s).length = w.length := by
  fun_induction equalFold s w with
  | case1 => rfl
  | case2 s w ih =>
    have hchar := runes_char (Char.ofNat 0x212A) s
    rw [show String.utf8EncodeChar (Char.ofNat 0x212A) = [0xE2, 0x84, 0xAA] by decide] at hchar
    exact (congrArg List.length hchar).trans
      (congrArg (· + 1) (ih (List.forall_mem_cons.1 hw).2 h))
  | case3 s w ih =>
    have hchar := runes_char (Char.ofNat 0x17F) s
    rw [show String.utf8EncodeChar (Char.ofNat 0x17F) = [0xC5, 0xBF] by decide] at hchar
    exact (congrArg List.length hchar).trans
      (congrArg (· + 1) (ih (List.forall_mem_cons.1 hw).2 h))
  | case4 b s c w _ _ ih =>
    rw [Bool.and_eq_true, beq_iff_eq] at h
    obtain ⟨hc, hw⟩ := List.forall_mem_cons.1 hw
    rw [← h.1] at hc
    rw [runes_ascii (lt_of_lowerASCII_lt hc), List.length_cons, List.length_cons, ih hw h.2]
  | case5 => cases h

end Slizen
