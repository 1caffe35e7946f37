import Slizen.JsonString
import Slizen.Service.Runs

namespace Slizen.Admin
set_option autoImplicit true

open Utf8 Json

def maxPurgeBodyBytes : Nat := 1024

def wordKey : Bytes := [0x6B, 0x65, 0x79]

def skipSpace (s : Bytes) : Bytes := s.dropWhile fun b => b ∈ [0x20, 0x09, 0x0A, 0x0D]

/-- The value of the field `Key`; `null` leaves the field as it is, and a value of another type is
an error. -/
def readValue (key : List Char) : Bytes → Option (List Char × Bytes)
  | 0x22 :: s => readString s
  | 0x6E :: 0x75 :: 0x6C :: 0x6C :: s => some (key, s)
  | _ => none

/-- A name and its value. `encoding/json` matches the name up to case folding, and the decoder
disallows other names. -/
def readField (key : List Char) (s : Bytes) : Option (List Char × Bytes) :=
  match skipSpace s with
  | 0x22 :: s =>
    match readString s with
    | none => none
    | some (name, s) =>
      if equalFold (encode name) wordKey then
        match skipSpace s with
        | 0x3A :: s => (readValue key (skipSpace s)).map fun r => (r.1, skipSpace r.2)
        | _ => none
      else none
  | _ => none

theorem length_skipSpace (s : Bytes) : (skipSpace s).length ≤ s.length :=
  (List.dropWhile_suffix _).length_le

/-- The length of the shortest string for these characters, its quotes not counted. -/
def quotedLength (cs : List Char) : Nat := (cs.map quotedSize).sum

theorem length_le_quotedLength (cs : List Char) : cs.length ≤ quotedLength cs := by
  induction cs with
  | nil => exact Nat.le_refl 0
  | cons c cs ih =>
    have := (quotedSize_bounds c).1
    rw [quotedLength] at ih ⊢
    rw [List.length_cons, List.map_cons, List.sum_cons]
    omega

theorem readValue_size (h : readValue key s = some (key', rest)) :
    (key' = key ∧ rest.length + 4 ≤ s.length) ∨
      rest.length + quotedLength key' + 2 ≤ s.length := by
  rw [readValue.eq_def] at h
  split at h
  · next s =>
    have := readString_size h
    refine .inr ?_
    rw [quotedLength, List.length_cons]
    omega
  · obtain ⟨rfl, rfl⟩ := Prod.mk.inj (Option.some.inj h)
    exact .inl ⟨rfl, Nat.le_refl _⟩
  · cases h

theorem readField_size (h : readField key s = some (key', rest)) :
    (key' = key ∧ rest.length + 10 ≤ s.length) ∨
      rest.length + quotedLength key' + 8 ≤ s.length := by
  rw [readField] at h
  split at h
  · next s' hs' =>
    split at h
    · cases h
    · next name s'' hname =>
      split at h
      · next hfold =>
        split at h
        · next t ht =>
          obtain ⟨⟨key'', rest'⟩, hvalue, hpair⟩ := Option.map_eq_some_iff.1 h
          obtain ⟨rfl, rfl⟩ := Prod.mk.inj hpair
          have hlength : name.length = 3 := by
            have := runes_of_equalFold _ wordKey (lt_of_all rfl) hfold
            rwa [runes_encode, List.length_map] at this
          have h₁ := length_skipSpace s
          have h₂ := readString_size hname
          have h₃ := length_le_quotedLength name
          have h₄ := length_skipSpace s''
          have h₅ := length_skipSpace t
          have h₆ := length_skipSpace rest'
          rw [hs', List.length_cons] at h₁
          rw [ht, List.length_cons] at h₄
          rw [quotedLength] at h₃
          dsimp only at *
          rcases readValue_size hvalue with ⟨rfl, hsize⟩ | hsize
          · exact .inl ⟨rfl, by omega⟩
          · exact .inr (by omega)
        · cases h
      · cases h
  · cases h

theorem readField_lt (h : readField key s = some (key', rest)) : rest.length < s.length := by
  rcases readField_size h with ⟨_, hsize⟩ | hsize <;> omega

/-- The fields of an object up to its closing brace; what follows is not read. -/
def readFields (key : List Char) (s : Bytes) : Option (List Char) :=
  match _h : readField key s with
  | some (key, 0x2C :: rest) => readFields key rest
  | some (key, 0x7D :: _) => some key
  | _ => none
termination_by s.length
decreasing_by
  have := readField_lt _h
  rw [List.length_cons] at this
  omega

def readObject (s : Bytes) : Option (List Char) :=
  match skipSpace s with
  | 0x7D :: _ => some []
  | s => readFields [] s

/-- What `Decode` makes of the request body. -/
inductive Decoded where
  | eof
  | invalid
  | key (cs : List Char)

/-- `Decode` into the struct with the field `Key`. `ended` says that the stream ends with `io.EOF`,
not with the error of `MaxBytesReader`. The decoder stops at the end of the first value; the scalar
`null` needs a byte after it, or the end of the stream. -/
def decode (stream : Bytes) (ended : Bool) : Decoded :=
  match skipSpace stream with
  | [] => if ended then .eof else .invalid
  | 0x7B :: s =>
    match readObject s with
    | some key => .key key
    | none => .invalid
  | 0x6E :: 0x75 :: 0x6C :: 0x6C :: rest =>
    if rest = [] ∧ ended = false then .invalid else .key []
  | _ => .invalid

structure PurgeRequest where
  method : String
  contentLength : Int
  body : Bytes

/-- What the handler does: an error with its text, or a call of `PurgeCache`, whose result it
returns. -/
inductive PurgeResponse where
  | methodNotAllowed
  | badRequest (text : String)
  | purgeCache (key : Key)

def handleCachePurge (r : PurgeRequest) : PurgeResponse :=
  if r.method ≠ "POST" then .methodNotAllowed
  else if r.contentLength ≠ 0 then
    match decode (r.body.take maxPurgeBodyBytes) (r.body.length ≤ maxPurgeBodyBytes) with
    | .eof => .purgeCache []
    | .invalid => .badRequest "invalid purge request"
    | .key cs =>
      if (encode cs).length > 512 then .badRequest "key is too long" else .purgeCache (encode cs)
  else .purgeCache []

theorem readFields_comma (h : readField key s = some (key', 0x2C :: rest)) :
    readFields key s = readFields key' rest := by
  rw [readFields.eq_def]
  split
  · next hfield =>
    cases h.symm.trans hfield
    rfl
  · next hfield => cases h.symm.trans hfield
  · next hcomma _ => exact (hcomma _ _ h).elim

theorem readFields_brace (h : readField key s = some (key', 0x7D :: rest)) :
    readFields key s = some key' := by
  rw [readFields.eq_def]
  split
  · next hfield => cases h.symm.trans hfield
  · next hfield =>
    cases h.symm.trans hfield
    rfl
  · next hbrace => exact (hbrace _ _ h).elim

theorem readFields_size (h : readFields key s = some key') :
    key' = key ∨ quotedLength key' + 9 ≤ s.length := by
  induction key, s using readFields.induct with
  | case1 key s key₁ rest hfield ih =>
    rw [readFields_comma hfield] at h
    have hsize := readField_size hfield
    rw [List.length_cons] at hsize
    rcases ih h with rfl | hrest
    · rcases hsize with ⟨rfl, _⟩ | hsize
      · exact .inl rfl
      · exact .inr (by omega)
    · exact .inr (by omega)
  | case2 key s key₁ rest hfield =>
    rw [readFields_brace hfield] at h
    cases h
    have hsize := readField_size hfield
    rw [List.length_cons] at hsize
    rcases hsize with ⟨rfl, _⟩ | hsize
    · exact .inl rfl
    · exact .inr (by omega)
  | case3 key s hcomma hbrace =>
    rw [readFields.eq_def] at h
    split at h
    · next hfield => exact (hcomma _ _ hfield).elim
    · next hfield => exact (hbrace _ _ hfield).elim
    · cases h

theorem decode_size (h : decode stream ended = .key cs) :
    cs = [] ∨ quotedLength cs + 10 ≤ stream.length := by
  have hspace := length_skipSpace stream
  rw [decode] at h
  split at h
  · split at h <;> cases h
  · next s hs =>
    rw [hs, List.length_cons] at hspace
    split at h
    · next key hobject =>
      cases h
      rw [readObject] at hobject
      split at hobject
      · cases hobject
        exact .inl rfl
      · have hinner := length_skipSpace s
        rcases readFields_size hobject with rfl | hsize
        · exact .inl rfl
        · exact .inr (by omega)
    · cases h
  · split at h
    · cases h
    · cases h
      exact .inl rfl
  · cases h

def purgeBody (cs : List Char) : Bytes :=
  0x7B :: 0x22 :: 0x6B :: 0x65 :: 0x79 :: 0x22 :: 0x3A :: 0x22 :: (quote cs ++ [0x22, 0x7D])

theorem length_purgeBody (cs : List Char) : (purgeBody cs).length = quotedLength cs + 10 := by
  simp only [purgeBody, List.length_cons, List.length_append, length_quote, quotedLength,
    List.length_nil]

theorem skipSpace_cons (h : b ∉ [0x20, 0x09, 0x0A, 0x0D]) (s : Bytes) :
    skipSpace (b :: s) = b :: s :=
  List.dropWhile_cons_of_neg (by rwa [decide_eq_true_eq])

theorem decode_purgeBody (cs : List Char) (ended : Bool) :
    decode (purgeBody cs) ended = .key cs := by
  have hname : readString (0x6B :: 0x65 :: 0x79 :: 0x22 :: 0x3A :: 0x22 ::
      (quote cs ++ [0x22, 0x7D])) =
      some (['k', 'e', 'y'], 0x3A :: 0x22 :: (quote cs ++ [0x22, 0x7D])) :=
    readString_quoted ['k', 'e', 'y'] _
  have hvalue : readValue [] (0x22 :: (quote cs ++ [0x22, 0x7D])) = some (cs, [0x7D]) :=
    readString_quoted cs [0x7D]
  have hfield : readField [] (0x22 :: 0x6B :: 0x65 :: 0x79 :: 0x22 :: 0x3A :: 0x22 ::
      (quote cs ++ [0x22, 0x7D])) = some (cs, [0x7D]) := by
    rw [readField, skipSpace_cons (by decide)]
    simp only [hname]
    rw [if_pos (by decide), skipSpace_cons (by decide)]
    simp only
    rw [skipSpace_cons (by decide), hvalue]
    rfl
  have hobject : readObject (0x22 :: 0x6B :: 0x65 :: 0x79 :: 0x22 :: 0x3A :: 0x22 ::
      (quote cs ++ [0x22, 0x7D])) = some cs := by
    rw [readObject, skipSpace_cons (by decide)]
    exact readFields_brace hfield
  rw [decode, purgeBody, skipSpace_cons (by decide)]
  simp only [hobject]

theorem handleCachePurge_key (hne : cs ≠ [])
    (h : handleCachePurge r = .purgeCache (encode cs)) :
    (encode cs).length ≤ 512 ∧ quotedLength cs + 10 ≤ maxPurgeBodyBytes := by
  have hempty : PurgeResponse.purgeCache [] ≠ .purgeCache (encode cs) := by
    intro heq
    apply hne
    apply encode_injective
    exact (PurgeResponse.purgeCache.inj heq).symm
  rw [handleCachePurge] at h
  split at h
  · cases h
  split at h
  · split at h
    · exact absurd h hempty
    · cases h
    · next cs' hdecode =>
      split at h
      · cases h
      · next hlength =>
        obtain rfl := encode_injective (PurgeResponse.purgeCache.inj h)
        refine ⟨Nat.le_of_not_lt hlength, ?_⟩
        rcases decode_size hdecode with rfl | hsize
        · exact absurd rfl hne
        · exact Nat.le_trans hsize (List.length_take_le _ _)
  · exact absurd h hempty

theorem handleCachePurge_body (hlength : (encode cs).length ≤ 512)
    (hbody : quotedLength cs + 10 ≤ maxPurgeBodyBytes) :
    handleCachePurge ⟨"POST", (purgeBody cs).length, purgeBody cs⟩ = .purgeCache (encode cs) := by
  have hsize := length_purgeBody cs
  have hcontent : ((purgeBody cs).length : Int) ≠ 0 := by omega
  have htake : (purgeBody cs).take maxPurgeBodyBytes = purgeBody cs :=
    List.take_of_length_le (by omega)
  rw [handleCachePurge, if_neg (not_not.2 rfl), if_pos hcontent]
  simp only [htake, decode_purgeBody]
  exact if_neg (Nat.not_lt.2 hlength)

/-- A key can be purged by a request of its own exactly if it is not longer than the handler allows
and the shortest request for it fits into the body that the handler reads. -/
theorem purgeable_iff (cs : List Char) (hne : cs ≠ []) :
    (∃ r, handleCachePurge r = .purgeCache (encode cs)) ↔
      (encode cs).length ≤ 512 ∧ quotedLength cs + 10 ≤ maxPurgeBodyBytes := by
  constructor
  · rintro ⟨r, h⟩
    exact handleCachePurge_key hne h
  · rintro ⟨hlength, hbody⟩
    exact ⟨_, handleCachePurge_body hlength hbody⟩

/-- A key of 512 bytes, the first `n` of which are to be escaped. -/
def quotedKey (n : Nat) : List Char := List.replicate n '"' ++ List.replicate (512 - n) 'a'

/-- The longest key with as many escapes as the body has room for, and one more. -/
theorem purgeable_iff_bounds : (∃ r, handleCachePurge r = .purgeCache (encode (quotedKey 502))) ∧
    ¬ ∃ r, handleCachePurge r = .purgeCache (encode (quotedKey 503)) := by
  constructor
  · rw [purgeable_iff (quotedKey 502) (by decide)]
    decide +kernel
  · rw [purgeable_iff (quotedKey 503) (by decide)]
    decide +kernel

/-- A key of 513 bytes that has been read once. -/
def longKey : List Char := List.replicate 513 'a'

def longKeyRead : Service.sample.machine.Config :=
  ((((Service.sampleStart.spawn (Service.sample.call (.get (encode longKey)))).drive
    Service.pick 0 100).drive Service.pick 1 100).drive Service.pick 0 100)

/-- It is resident, and no request purges it. -/
theorem long_key_not_purgeable :
    Service.sample.Reachable false (fun _ => some [0]) longKeyRead ∧
      (longKeyRead.state.find .probationary (encode longKey)).isSome = true ∧
      ∀ r, handleCachePurge r ≠ .purgeCache (encode longKey) := by
  refine ⟨?_, by decide +kernel, fun r h => ?_⟩
  · apply Service.Reachable.go _ 0 100
    exact ((Service.Reachable.call .refl (.get (encode longKey)) nofun).go 0 100).go 1 100
  · have hne : longKey ≠ [] := by decide
    have hlength : (encode longKey).length = 513 := by decide +kernel
    have hle := (handleCachePurge_key hne h).1
    omega

end Slizen.Admin
