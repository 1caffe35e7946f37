import Slizen.Scorer
import Slizen.Selection

namespace Slizen.Hotness
set_option autoImplicit true

open Selection

theorem bytesLess_iff (left right : Bytes) :
    bytesLess left right = true ↔ left.map UInt8.toNat < right.map UInt8.toNat := by
  induction left generalizing right with
  | nil =>
    cases right with
    | nil => exact ⟨fun h => absurd h (by decide), fun h => absurd h (lt_irrefl _)⟩
    | cons b bs => exact ⟨fun _ => List.nil_lt_cons _ _, fun _ => rfl⟩
  | cons a as ih =>
    cases right with
    | nil => exact ⟨fun h => absurd h Bool.false_ne_true, fun h => absurd h (List.not_lt_nil _)⟩
    | cons b bs =>
      rw [bytesLess, List.map_cons, List.map_cons, List.cons_lt_cons_iff, ← ih bs,
        UInt8.toNat_inj, ← UInt8.lt_iff_toNat_lt]
      by_cases hab : a < b
      · rw [if_pos hab]
        exact ⟨fun _ => .inl hab, fun _ => rfl⟩
      · rw [if_neg hab]
        by_cases hba : b < a
        · rw [if_pos hba]
          refine ⟨fun h => absurd h (by decide), ?_⟩
          rintro (h | ⟨rfl, _⟩)
          · exact absurd h hab
          · exact absurd hba hab
        · rw [if_neg hba]
          have heq : a = b := by
            apply UInt8.toNat_inj.1
            rw [UInt8.lt_iff_toNat_lt] at hab hba
            omega
          exact ⟨fun h => .inr ⟨heq, h⟩, fun h => h.elim (absurd · hab) And.right⟩

/-- What `snapshotBetter` compares, in its order: hot before the rest, the higher score, the
smaller key. -/
def Snapshot.rank (s : Snapshot) : Bool ×ₗ (ℚᵒᵈ ×ₗ List Nat) :=
  toLex (decide (s.state ≠ .hot), toLex (OrderDual.toDual s.score, s.key.map UInt8.toNat))

theorem snapshotBetter_iff (left right : Snapshot) :
    snapshotBetter left right = true ↔ left.rank < right.rank := by
  rw [snapshotBetter, Snapshot.rank, Snapshot.rank, Prod.Lex.toLex_lt_toLex,
    Prod.Lex.toLex_lt_toLex, ← bytesLess_iff]
  by_cases hl : left.state = .hot <;> by_cases hr : right.state = .hot <;>
    by_cases hs : left.score = right.score <;> simp [hl, hr, hs]

theorem Snapshot.rank_key {left right : Snapshot} (h : left.rank = right.rank) :
    left.key = right.key := by
  have hkey : left.key.map UInt8.toNat = right.key.map UInt8.toNat :=
    congrArg (fun r => (ofLex (ofLex r).2).2) h
  exact List.map_injective_iff.2 (fun a b => UInt8.toNat_inj.1) hkey

theorem snapshotBetter_false (left right : Snapshot) :
    snapshotBetter left right = false ↔ right.rank ≤ left.rank :=
  better_false snapshotBetter_iff

/-- `topSnapshots` over any heap and any sort that keep what `container/heap` and `sort` promise. -/
def topSnapshotsWith (heap : Heap fun left right => snapshotBetter right left)
    (sorter : Sorter snapshotBetter) (entries : List Entry) (now : Time) (limit : Int) :
    List Snapshot :=
  let snapshots := entries.map fun e => e.snapshot now
  if limit ≤ 0 ∨ limit ≥ snapshots.length then sorter.sort snapshots
  else sorter.sort (snapshots.foldl (keep snapshotBetter heap limit.toNat) [])

/-- The worst snapshot first: no snapshot is better than a later one. -/
def WorstFirst (l : List Snapshot) : Prop :=
  l.Pairwise fun left right => snapshotBetter left right = false

theorem WorstFirst.isHeap (h : WorstFirst l) :
    IsHeap (fun left right => snapshotBetter right left) l := by
  intro i j a b hij ha hb
  obtain ⟨hi, rfl⟩ := List.getElem?_eq_some_iff.1 ha
  obtain ⟨hj, rfl⟩ := List.getElem?_eq_some_iff.1 hb
  exact List.pairwise_iff_getElem.1 h i j hi hj (by omega)

theorem heapPush_perm (s : Snapshot) (l : List Snapshot) : (heapPush s l).Perm (s :: l) := by
  induction l with
  | nil => exact List.Perm.refl _
  | cons worst rest ih =>
    rw [heapPush]
    split
    · exact List.Perm.refl _
    · exact (ih.cons worst).trans (List.Perm.swap s worst rest)

theorem WorstFirst.heapPush (s : Snapshot) (h : WorstFirst l) : WorstFirst (heapPush s l) := by
  induction l with
  | nil => exact List.pairwise_singleton _ _
  | cons worst rest ih =>
    obtain ⟨hworst, hrest⟩ := List.pairwise_cons.1 h
    rw [Hotness.heapPush]
    split
    · next hbetter =>
      have hlt := (snapshotBetter_iff worst s).1 hbetter
      apply List.pairwise_cons.2
      refine ⟨fun a ha => (snapshotBetter_false s a).2 ?_, h⟩
      rcases List.mem_cons.1 ha with rfl | ha
      · exact hlt.le
      · exact ((snapshotBetter_false worst a).1 (hworst a ha)).trans hlt.le
    · next hbetter =>
      apply List.pairwise_cons.2
      refine ⟨fun a ha => ?_, ih hrest⟩
      rcases List.mem_cons.1 ((heapPush_perm s rest).mem_iff.1 ha) with rfl | ha
      · exact Bool.eq_false_iff.2 hbetter
      · exact hworst a ha

/-- The arrangement of the tracker's model is one of those that the heap may keep. -/
def worstFirstHeap : Heap fun left right => snapshotBetter right left where
  Arranged := WorstFirst
  isHeap := WorstFirst.isHeap
  nil := List.Pairwise.nil
  push selected snapshot := heapPush snapshot selected
  push_perm _ := heapPush_perm _ _
  push_arranged h := h.heapPush _
  fix
    | [] => []
    | snapshot :: rest => heapPush snapshot rest
  fix_perm _ := heapPush_perm _ _
  fix_arranged h := WorstFirst.heapPush _ (List.pairwise_cons.1 h).2

instance : Std.Total fun left right : Snapshot => (!snapshotBetter right left) = true where
  total left right := by
    rw [Bool.not_eq_true', Bool.not_eq_true', snapshotBetter_false, snapshotBetter_false]
    exact le_total _ _

instance : IsTrans Snapshot fun left right => (!snapshotBetter right left) = true where
  trans a b c := by
    rw [Bool.not_eq_true', Bool.not_eq_true', Bool.not_eq_true', snapshotBetter_false,
      snapshotBetter_false, snapshotBetter_false]
    exact le_trans

def snapshotSorter : Sorter snapshotBetter where
  sort := sortSnapshots
  perm l := List.perm_insertionSort _ l
  sorted l := (List.pairwise_insertionSort _ l).imp (Bool.not_eq_true' _).mp

theorem selectTop_eq (limit : Nat) (selected : List Snapshot) (snapshot : Snapshot) :
    selectTop limit selected snapshot =
      keep snapshotBetter worstFirstHeap limit selected snapshot := by
  cases selected with
  | nil => rfl
  | cons worst rest => rfl

theorem topSnapshots_with (entries : List Entry) (now : Time) (limit : Int) :
    topSnapshots entries now limit =
      topSnapshotsWith worstFirstHeap snapshotSorter entries now limit := by
  have hselect : selectTop limit.toNat = keep snapshotBetter worstFirstHeap limit.toNat := by
    funext selected snapshot
    exact selectTop_eq limit.toNat selected snapshot
  rw [topSnapshots, topSnapshotsWith, hselect]
  rfl

theorem rank_injective {entries : List Entry} (hkeys : (entries.map Entry.key).Nodup) (now : Time)
    (a : Snapshot) (ha : a ∈ entries.map fun e => e.snapshot now) (b : Snapshot)
    (hb : b ∈ entries.map fun e => e.snapshot now) (h : a.rank = b.rank) : a = b := by
  obtain ⟨e, he, rfl⟩ := List.mem_map.1 ha
  obtain ⟨e', he', rfl⟩ := List.mem_map.1 hb
  rw [List.inj_on_of_nodup_map hkeys he he' (Snapshot.rank_key h)]

/-- The head of the full order, whichever way the entries come and whatever heap and sort are
used. -/
theorem topSnapshotsWith_eq (heap : Heap fun left right => snapshotBetter right left)
    (sorter sorter' : Sorter snapshotBetter) {entries entries' : List Entry}
    (hkeys : (entries.map Entry.key).Nodup) (hperm : entries.Perm entries') (now : Time)
    (limit : Int) :
    topSnapshotsWith heap sorter entries now limit =
      if limit ≤ 0 then sorter'.sort (entries'.map fun e => e.snapshot now)
      else (sorter'.sort (entries'.map fun e => e.snapshot now)).take
        (min limit.toNat entries'.length) := by
  have hinj := rank_injective hkeys now
  have hsort : sorter.sort (entries.map fun e => e.snapshot now) =
      sorter'.sort (entries'.map fun e => e.snapshot now) := by
    have hmap := hperm.map fun e => e.snapshot now
    have hmem := fun a => (sorter.perm (entries.map fun e => e.snapshot now)).mem_iff (a := a)
    exact sorted_unique snapshotBetter_iff
      (fun a ha b hb => hinj a ((hmem a).1 ha) b ((hmem b).1 hb)) (sorter.sorted _)
      (sorter'.sorted _) ((sorter.perm _).trans (hmap.trans (sorter'.perm _).symm))
  have hlength := ((sorter'.perm (entries'.map fun e => e.snapshot now)).length_eq)
  rw [List.length_map] at hlength
  rw [topSnapshotsWith, List.length_map]
  by_cases hlimit : limit ≤ 0
  · rw [if_pos (.inl hlimit), if_pos hlimit, hsort]
  · rw [if_neg hlimit]
    have hcount := hperm.length_eq
    by_cases hall : limit ≥ entries.length
    · rw [if_pos (.inr hall), hsort, List.take_of_length_le (by omega)]
    · rw [if_neg (fun h => h.elim hlimit hall),
        sort_selected snapshotBetter_iff heap sorter sorter _ _ hinj, hsort]
      congr 1
      omega

theorem sortSnapshots_strict {entries : List Entry} (hkeys : (entries.map Entry.key).Nodup)
    (now : Time) : (sortSnapshots (entries.map fun e => e.snapshot now)).Pairwise
      fun left right => snapshotBetter left right = true := by
  have hperm := snapshotSorter.perm (entries.map fun e => e.snapshot now)
  have hkey : ((entries.map fun e => e.snapshot now).map Snapshot.key).Nodup := by
    rw [List.map_map]
    exact hkeys
  have hne : (sortSnapshots (entries.map fun e => e.snapshot now)).Pairwise
      fun left right => left.key ≠ right.key :=
    List.pairwise_map.1 ((hperm.map Snapshot.key).nodup_iff.2 hkey)
  refine ((snapshotSorter.sorted _).and hne).imp ?_
  rintro left right ⟨hsorted, hne⟩
  apply (snapshotBetter_iff left right).2
  exact lt_of_le_of_ne ((snapshotBetter_false right left).1 hsorted)
    (fun h => hne (Snapshot.rank_key h))

/-- A limited view is the head of the full one: `snapshotBetter` orders snapshots of different
keys, and what the bounded heap selects from the entries, in any order of iteration, is what
sorting all of them puts first. -/
theorem topSnapshots_head (entries : List Entry) (hkeys : (entries.map Entry.key).Nodup)
    (now : Time) (limit : Int) :
    let all := sortSnapshots (entries.map fun e => e.snapshot now)
    let head := if limit ≤ 0 then all else all.take (min limit.toNat entries.length)
    (∀ s, snapshotBetter s s = false) ∧
      (∀ s₁ s₂ s₃, snapshotBetter s₁ s₂ = true → snapshotBetter s₂ s₃ = true →
        snapshotBetter s₁ s₃ = true) ∧
      (∀ s₁ s₂ : Snapshot, s₁.key ≠ s₂.key →
        snapshotBetter s₁ s₂ = true ∨ snapshotBetter s₂ s₁ = true) ∧
      all.Perm (entries.map fun e => e.snapshot now) ∧
      all.Pairwise (fun left right => snapshotBetter left right = true) ∧
      ∀ order, order.Perm entries → topSnapshots order now limit = head ∧
        ∀ heap sorter, topSnapshotsWith heap sorter order now limit = head := by
  intro all head
  refine ⟨fun s => ?_, fun s₁ s₂ s₃ h₁ h₂ => ?_, fun s₁ s₂ hne => ?_, snapshotSorter.perm _,
    sortSnapshots_strict hkeys now, fun order hperm => ?_⟩
  · exact (snapshotBetter_false s s).2 le_rfl
  · rw [snapshotBetter_iff] at h₁ h₂ ⊢
    exact h₁.trans h₂
  · rw [snapshotBetter_iff, snapshotBetter_iff]
    exact lt_or_gt_of_ne fun h => hne (Snapshot.rank_key h)
  · have hnodup := (hperm.map Entry.key).nodup_iff.2 hkeys
    constructor
    · rw [topSnapshots_with]
      exact topSnapshotsWith_eq _ _ snapshotSorter hnodup hperm now limit
    · intro heap sorter
      exact topSnapshotsWith_eq heap sorter snapshotSorter hnodup hperm now limit

/-- Two warm keys of one score: the smaller key is the one selected. -/
theorem topSnapshots_head_two :
    let entry (key : Key) : Entry := ⟨key, .warm, 5, 0, 0, 0, 0, 0, 0⟩
    ([entry [2], entry [1]].map Entry.key).Nodup ∧
      (topSnapshots [entry [2], entry [1]] 0 1).map Snapshot.key = [[1]] ∧
      ∀ heap sorter, (topSnapshotsWith heap sorter [entry [2], entry [1]] 0 1).map Snapshot.key =
        [[1]] := by
  intro entry
  have hkeys : ([entry [2], entry [1]].map Entry.key).Nodup := by decide
  obtain ⟨-, -, -, -, -, hall⟩ := topSnapshots_head [entry [2], entry [1]] hkeys 0 1
  have hsort : (sortSnapshots ([entry [2], entry [1]].map fun e => e.snapshot 0)).map
      Snapshot.key = [[1], [2]] := by decide +kernel
  obtain ⟨htop, hwith⟩ := hall _ (List.Perm.refl _)
  refine ⟨hkeys, ?_, fun heap sorter => ?_⟩
  · rw [htop, if_neg (by decide), List.map_take, hsort]
    rfl
  · rw [hwith, if_neg (by decide), List.map_take, hsort]
    rfl

end Slizen.Hotness
