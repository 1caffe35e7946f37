import Mathlib.Algebra.Group.Nat.Defs
import Slizen.Basic

namespace Slizen.Benchmark
set_option autoImplicit true

/-- `[sha256.Size]byte`. -/
abbrev Digest := Vector UInt8 32

/-- `copy(dst[offset:], src)`. -/
def copyAt (dst : Bytes) (offset : Nat) (src : Bytes) : Bytes :=
  dst.mapIdx fun position b => if offset ≤ position then src[position - offset]?.getD b else b

/-- The bytes of `binary.LittleEndian.PutUint64`. -/
def putUint64 (n : UInt64) : Bytes :=
  (List.range 8).map fun i => UInt8.ofNat (n.toNat / 256 ^ i)

/-- `binary.LittleEndian.Uint64`. -/
def uint64 (b : Bytes) : UInt64 :=
  UInt64.ofNat (b.foldr (fun x n => x.toNat + 256 * n) 0)

structure WorkloadValues where
  size : Nat
  digests : List Digest

def newWorkloadValues (sum256 : Bytes → Digest) (keys : List Key) (size : Nat) : WorkloadValues :=
  ⟨size, keys.map sum256⟩

namespace WorkloadValues

variable (sum256 : Bytes → Digest) (v : WorkloadValues)

def versionDigest (keyIndex : Fin v.digests.length) (version : UInt64) : Digest :=
  sum256 ((v.digests.get keyIndex).toList ++ putUint64 version)

/-- The loop of `Fill`, over a buffer of length `n`. -/
def fillDigest (digest : Digest) (n offset : Nat) (dst : Bytes) : Bytes :=
  if offset < n then fillDigest digest n (offset + 32) (copyAt dst offset digest.toList) else dst
termination_by n - offset

/-- `Fill`: `dst` holds the bytes of the given slice up to its capacity, and the answer those of
the returned slice up to its length. -/
def fill (keyIndex : Fin v.digests.length) (version : UInt64) (dst : Bytes) : Bytes :=
  let buffer := if dst.length < v.size then List.replicate v.size 0 else dst.take v.size
  let buffer := fillDigest (v.versionDigest sum256 keyIndex version) buffer.length 0 buffer
  let buffer := copyAt buffer 0 (putUint64 version)
  copyAt buffer 8 ((v.digests.get keyIndex).toList.take 8)

/-- The loop of `Matches` over the bytes from a position on. -/
def matchesDigest (digest : Digest) (position : Nat) : Bytes → Bool
  | [] => true
  | b :: rest =>
    if b ≠ digest[position % 32] then false else matchesDigest digest (position + 1) rest

def «matches» (keyIndex : Fin v.digests.length) (version : UInt64) (value : Bytes) : Bool :=
  if value.length ≠ v.size then false
  else if uint64 (value.take 8) ≠ version ∨
      (value.drop 8).take 8 ≠ (v.digests.get keyIndex).toList.take 8 then false
  else matchesDigest (v.versionDigest sum256 keyIndex version) 16 (value.drop 16)

end WorkloadValues

theorem length_copyAt (dst src : Bytes) (offset : Nat) :
    (copyAt dst offset src).length = dst.length := List.length_mapIdx

theorem getElem?_copyAt (dst src : Bytes) (offset p : Nat) :
    (copyAt dst offset src)[p]? = if offset ≤ p ∧ p < offset + src.length ∧ p < dst.length then
      src[p - offset]? else dst[p]? := by
  rw [copyAt, List.getElem?_mapIdx]
  by_cases hp : p < dst.length
  · rw [List.getElem?_eq_getElem hp, Option.map_some]
    by_cases ho : offset ≤ p
    · by_cases hs : p < offset + src.length
      · have hlt : p - offset < src.length := by omega
        rw [if_pos ho, if_pos ⟨ho, hs, hp⟩, List.getElem?_eq_getElem hlt]
        rfl
      · have hge : src.length ≤ p - offset := by omega
        rw [if_pos ho, if_neg (fun h => hs h.2.1), List.getElem?_eq_none_iff.2 hge]
        rfl
    · rw [if_neg ho, if_neg (fun h => ho h.1)]
  · rw [List.getElem?_eq_none_iff.2 (Nat.le_of_not_lt hp), if_neg (fun h => hp h.2.2)]
    rfl

theorem length_putUint64 (n : UInt64) : (putUint64 n).length = 8 := by
  rw [putUint64, List.length_map, List.length_range]

theorem uint64_putUint64 (n : UInt64) : uint64 (putUint64 n) = n := by
  have hn := n.toNat_lt
  apply UInt64.toNat_inj.1
  simp only [uint64, putUint64, List.range, List.range.loop, List.map, List.foldr,
    UInt64.toNat_ofNat', UInt8.toNat_ofNat']
  omega

theorem putUint64_uint64 : (b : Bytes) → b.length = 8 → putUint64 (uint64 b) = b
  | [b₀, b₁, b₂, b₃, b₄, b₅, b₆, b₇], _ => by
    have h₀ := b₀.toNat_lt
    have h₁ := b₁.toNat_lt
    have h₂ := b₂.toNat_lt
    have h₃ := b₃.toNat_lt
    have h₄ := b₄.toNat_lt
    have h₅ := b₅.toNat_lt
    have h₆ := b₆.toNat_lt
    have h₇ := b₇.toNat_lt
    simp only [uint64, putUint64, List.range, List.range.loop, List.map, List.foldr,
      UInt64.toNat_ofNat', List.cons.injEq, and_true, ← UInt8.toNat_inj, UInt8.toNat_ofNat']
    omega

/-- The bytes of a digest repeated from offset 0, from a position on. -/
def tile (digest : Digest) (position : Nat) : Nat → Bytes
  | 0 => []
  | n + 1 => digest[position % 32] :: tile digest (position + 1) n

theorem length_tile (digest : Digest) (position n : Nat) : (tile digest position n).length = n := by
  induction n generalizing position with
  | zero => rfl
  | succ n ih => rw [tile, List.length_cons, ih]

theorem getElem?_tile (digest : Digest) (position n i : Nat) :
    (tile digest position n)[i]? =
      if i < n then some digest[(position + i) % 32] else none := by
  induction n generalizing position i with
  | zero => rfl
  | succ n ih =>
    cases i with
    | zero => rfl
    | succ i =>
      have hpos : position + 1 + i = position + (i + 1) := by omega
      rw [tile, List.getElem?_cons_succ, ih]
      simp only [hpos, Nat.add_lt_add_iff_right]

namespace WorkloadValues

theorem matchesDigest_iff (digest : Digest) (position : Nat) (value : Bytes) :
    matchesDigest digest position value = true ↔ value = tile digest position value.length := by
  induction value generalizing position with
  | nil => exact ⟨fun _ => rfl, fun _ => rfl⟩
  | cons b rest ih =>
    rw [matchesDigest, List.length_cons, tile, List.cons.injEq, ← ih (position + 1)]
    by_cases hb : b = digest[position % 32]
    · rw [if_neg (not_not.2 hb)]
      exact ⟨fun h => ⟨hb, h⟩, fun h => h.2⟩
    · rw [if_pos hb]
      exact ⟨fun h => absurd h (by decide), fun h => absurd h.1 hb⟩

-- What the loop has left behind at an offset is a whole number of digests; the rest of the buffer
-- is still the caller's.
theorem fillDigest_spec (digest : Digest) (n offset : Nat) (dst : Bytes) (hn : dst.length = n)
    (ho : offset % 32 = 0) (p : Nat) :
    (fillDigest digest n offset dst)[p]? =
      if offset ≤ p ∧ p < n then some digest[p % 32] else dst[p]? := by
  induction offset, dst using fillDigest.induct digest n with
  | case1 offset dst hlt ih =>
    rw [fillDigest, if_pos hlt, ih ((length_copyAt ..).trans hn) (by omega), getElem?_copyAt,
      Vector.length_toList]
    by_cases hlow : offset ≤ p ∧ p < n
    · rw [if_pos hlow]
      by_cases hhigh : offset + 32 ≤ p
      · rw [if_pos ⟨hhigh, hlow.2⟩]
      · have hp : p - offset = p % 32 := by omega
        have hb : p % 32 < digest.toList.length := by rw [Vector.length_toList]; omega
        rw [if_neg (fun h => hhigh h.1), if_pos ⟨hlow.1, by omega, by omega⟩, hp,
          List.getElem?_eq_getElem hb, Vector.getElem_toList]
    · rw [if_neg hlow, if_neg (fun h => hlow ⟨by omega, h.2⟩),
        if_neg (fun h => hlow ⟨h.1, by omega⟩)]
  | case2 offset dst hge =>
    rw [fillDigest, if_neg hge, if_neg (fun h => hge (by omega))]

theorem fillDigest_eq (digest : Digest) (dst : Bytes) :
    fillDigest digest dst.length 0 dst = tile digest 0 dst.length := by
  apply List.ext_getElem?
  intro p
  rw [fillDigest_spec digest dst.length 0 dst rfl rfl, getElem?_tile]
  by_cases hp : p < dst.length
  · rw [if_pos ⟨Nat.zero_le p, hp⟩, if_pos hp]
    simp only [Nat.zero_add]
  · rw [if_neg (fun h => hp h.2), if_neg hp, List.getElem?_eq_none_iff.2 (Nat.le_of_not_lt hp)]

variable (sum256 : Bytes → Digest) (v : WorkloadValues)

/-- The value of a key at a version: the version, the head of the key's digest, and the digest of
both repeated to the end. -/
def payload (keyIndex : Fin v.digests.length) (version : UInt64) : Bytes :=
  putUint64 version ++ ((v.digests.get keyIndex).toList.take 8 ++
    tile (v.versionDigest sum256 keyIndex version) 16 (v.size - 16))

theorem length_head (keyIndex : Fin v.digests.length) :
    ((v.digests.get keyIndex).toList.take 8).length = 8 := by
  rw [List.length_take, Vector.length_toList]
  rfl

theorem length_payload (hsize : 16 ≤ v.size) (keyIndex : Fin v.digests.length)
    (version : UInt64) : (v.payload sum256 keyIndex version).length = v.size := by
  rw [payload, List.length_append, List.length_append, length_putUint64, length_head, length_tile]
  omega

theorem header_tile (digest : Digest) (head tail : Bytes) (size : Nat) (hsize : 16 ≤ size)
    (hhead : head.length = 8) (htail : tail.length = 8) :
    copyAt (copyAt (tile digest 0 size) 0 head) 8 tail =
      head ++ (tail ++ tile digest 16 (size - 16)) := by
  apply List.ext_getElem?
  intro p
  rw [getElem?_copyAt, getElem?_copyAt, length_copyAt, length_tile, hhead, htail]
  by_cases hlow : p < 8
  · rw [if_neg (fun h => absurd h.1 (by omega)), if_pos ⟨Nat.zero_le p, by omega, by omega⟩,
      List.getElem?_append_left (by omega)]
    rfl
  rw [List.getElem?_append_right (by omega), hhead]
  by_cases hmid : p < 16
  · rw [if_pos ⟨by omega, hmid, by omega⟩, List.getElem?_append_left (by omega)]
  rw [if_neg (fun h => hmid h.2.1), if_neg (fun h => hlow (by omega)),
    List.getElem?_append_right (by omega), htail]
  have hp : 16 + (p - 8 - 8) = 0 + p := by omega
  have hlt : p - 8 - 8 < size - 16 ↔ p < size := by omega
  rw [getElem?_tile, getElem?_tile]
  simp only [hp, hlt]

theorem fill_eq (hsize : 16 ≤ v.size) (keyIndex : Fin v.digests.length) (version : UInt64)
    (dst : Bytes) : v.fill sum256 keyIndex version dst = v.payload sum256 keyIndex version := by
  have hbuffer : (if dst.length < v.size then List.replicate v.size 0
      else dst.take v.size).length = v.size := by
    split
    · exact List.length_replicate
    · rw [List.length_take]; omega
  rw [fill, fillDigest_eq, hbuffer]
  exact header_tile _ _ _ _ hsize (length_putUint64 version) (v.length_head keyIndex)

theorem eq_header_iff (value head tail rest : Bytes) (hhead : head.length = 8)
    (htail : tail.length = 8) :
    value = head ++ (tail ++ rest) ↔
      value.take 8 = head ∧ (value.drop 8).take 8 = tail ∧ value.drop 16 = rest := by
  constructor
  · rintro rfl
    have hdrop : (head ++ (tail ++ rest)).drop 8 = tail ++ rest := List.drop_left' hhead
    have hrest : (head ++ (tail ++ rest)).drop 16 = ((head ++ (tail ++ rest)).drop 8).drop 8 := by
      rw [List.drop_drop]
    exact ⟨List.take_left' hhead, by rw [hdrop, List.take_left' htail],
      by rw [hrest, hdrop, List.drop_left' htail]⟩
  · rintro ⟨rfl, rfl, rfl⟩
    have hrest : value.drop 16 = (value.drop 8).drop 8 := by rw [List.drop_drop]
    rw [hrest, List.take_append_drop, List.take_append_drop]

theorem matches_iff (hsize : 16 ≤ v.size) (keyIndex : Fin v.digests.length) (version : UInt64)
    (value : Bytes) :
    v.matches sum256 keyIndex version value = true ↔
      value = v.payload sum256 keyIndex version := by
  rw [«matches»]
  by_cases hlength : value.length = v.size
  · have htake : (value.take 8).length = 8 := by rw [List.length_take]; omega
    have hdrop : (value.drop 16).length = v.size - 16 := by rw [List.length_drop]; omega
    have hversion : uint64 (value.take 8) = version ↔ value.take 8 = putUint64 version :=
      ⟨fun h => h ▸ (putUint64_uint64 _ htake).symm, fun h => h ▸ uint64_putUint64 version⟩
    rw [if_neg (not_not.2 hlength), payload,
      eq_header_iff _ _ _ _ (length_putUint64 version) (v.length_head keyIndex), ← hdrop,
      ← matchesDigest_iff, ← hversion]
    by_cases hheader : uint64 (value.take 8) = version ∧
        (value.drop 8).take 8 = (v.digests.get keyIndex).toList.take 8
    · rw [if_neg (fun h => h.elim (absurd hheader.1) (absurd hheader.2))]
      exact ⟨fun h => ⟨hheader.1, hheader.2, h⟩, fun h => h.2.2⟩
    · rw [if_pos (not_and_or.1 hheader)]
      exact ⟨fun h => absurd h (by decide), fun h => absurd ⟨h.1, h.2.1⟩ hheader⟩
  · rw [if_pos hlength]
    constructor
    · intro h
      cases h
    · rintro rfl
      exact absurd (v.length_payload sum256 hsize keyIndex version) hlength

theorem payload_version (i j : Fin v.digests.length) (version written : UInt64)
    (h : v.payload sum256 i version = v.payload sum256 j written) : version = written := by
  have hhead : putUint64 version = putUint64 written :=
    List.append_inj_left h ((length_putUint64 _).trans (length_putUint64 _).symm)
  rw [← uint64_putUint64 version, hhead, uint64_putUint64]

end WorkloadValues

/-- The payload check of the benchmark accepts exactly what the writer produces for a key and a
version, whatever buffer it reuses, and nothing of another write generation. -/
theorem payload_check_exact (sum256 : Bytes → Digest) (keys : List Key) (size : Nat)
    (hsize : 16 ≤ size) (i : Fin (newWorkloadValues sum256 keys size).digests.length)
    (version : UInt64) (dst : Bytes) :
    let v := newWorkloadValues sum256 keys size
    (∀ x, v.matches sum256 i version x = true ↔ x = v.fill sum256 i version dst) ∧
      (∀ dst', v.fill sum256 i version dst' = v.fill sum256 i version dst) ∧
      ∀ j written, v.matches sum256 i version (v.fill sum256 j written dst) = true →
        version = written := by
  intro v
  have hfill := fun j written buffer => v.fill_eq sum256 hsize j written buffer
  refine ⟨fun x => ?_, fun dst' => ?_, fun j written h => ?_⟩
  · rw [hfill]
    exact v.matches_iff sum256 hsize i version x
  · rw [hfill, hfill]
  · rw [hfill] at h
    exact (v.payload_version sum256 j i written version
      ((v.matches_iff sum256 hsize i version _).1 h)).symm

/-- A value of 40 bytes in a fresh buffer: one tile and a truncated one. -/
theorem payload_check_exact_forty :
    let sum256 : Bytes → Digest := fun b => Vector.ofFn fun i => UInt8.ofNat (b.length + i)
    let v := newWorkloadValues sum256 [[1]] 40
    (16 ≤ 40) ∧ (v.fill sum256 ⟨0, Nat.one_pos⟩ 1 []).length = 40 ∧
      ∀ x, v.matches sum256 ⟨0, Nat.one_pos⟩ 1 x = true ↔
        x = v.fill sum256 ⟨0, Nat.one_pos⟩ 1 [] := by
  intro sum256 v
  refine ⟨by decide, ?_, (payload_check_exact sum256 [[1]] 40 (by decide) ⟨0, Nat.one_pos⟩ 1 []).1⟩
  rw [v.fill_eq sum256 (by decide)]
  exact v.length_payload sum256 (by decide) _ 1

end Slizen.Benchmark
