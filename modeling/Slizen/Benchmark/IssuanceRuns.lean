import Mathlib.Data.List.Nodup
import Slizen.Benchmark.Issuance
import Slizen.Interleaving.Totals

namespace Slizen.Benchmark.Issuance
set_option autoImplicit true

/-- The worker has taken index `i` and not executed the operation yet. -/
def Point.claims (i : Nat) : Point n → Nat
  | .wait index _ _ => if index.toNat = i then 1 else 0
  | .reading index _ => if index.toNat = i then 1 else 0
  | .expecting index _ _ => if index.toNat = i then 1 else 0
  | .writing index _ => if index.toNat = i then 1 else 0
  | .filled index _ _ _ => if index.toNat = i then 1 else 0
  | .panicked index => if index.toNat = i then 1 else 0
  | _ => 0

/-- The worker holds the read lock of `key`. -/
def Point.reads (key : Fin n) : Point n → Nat
  | .reading _ key' => if key' = key then 1 else 0
  | .expecting _ key' _ => if key' = key then 1 else 0
  | .compared key' _ _ => if key' = key then 1 else 0
  | _ => 0

/-- The worker holds the write lock of `key`. -/
def Point.writes (key : Fin n) : Point n → Nat
  | .writing _ key' => if key' = key then 1 else 0
  | .filled _ key' _ _ => if key' = key then 1 else 0
  | .answered key' _ _ => if key' = key then 1 else 0
  | .stored key' _ => if key' = key then 1 else 0
  | _ => 0

/-- The worker has written to `key` and not stored the version yet. -/
def Point.ahead (key : Fin n) : Point n → Nat
  | .answered key' _ false => if key' = key then 1 else 0
  | _ => 0

def Point.uncounted : Point n → Nat
  | .compared _ _ _ => 1
  | .answered _ _ _ => 1
  | .stored _ _ => 1
  | _ => 0

def Point.ended : Point n → Nat
  | .returned => 1
  | _ => 0

def WorkloadWorkerResult.attempts (r : WorkloadWorkerResult) : Nat :=
  r.reads + r.writes + r.failures

theorem WorkloadWorkerResult.attempts_count (r : WorkloadWorkerResult)
    (read failed mismatch : Bool) : (r.count read failed mismatch).attempts = r.attempts + 1 := by
  unfold count attempts
  split
  · exact rfl
  · split
    · simp only
      omega
    · simp only
      omega

theorem Point.ahead_le_writes (key : Fin n) (p : Point n) : p.ahead key ≤ p.writes key := by
  cases p with
  | answered key' version failed =>
    cases failed with
    | false => exact le_rfl
    | true => exact Nat.zero_le _
  | _ => exact Nat.zero_le _

section

variable {n t : Nat} {key : Fin n} {p : Point n} {e : Event n} {h : List (Event n)}

theorem written_length_le (key : Fin n) (h : List (Event n)) :
    (written key h).length ≤ (executed h).length := by
  induction h with
  | nil => exact le_rfl
  | cons e h ih =>
    cases e with
    | rlock t k => exact ih
    | get t index k expected reply => exact Nat.le_succ_of_le ih
    | set t index k version value failed =>
      have hexec : executed (.set t index k version value failed :: h) = index :: executed h := rfl
      rw [hexec, List.length_cons, written, List.filterMap_cons]
      split
      · exact Nat.le_succ_of_le ih
      · exact Nat.succ_le_succ ih

/-- The successful writes to `key` carry the versions from 1 on. -/
def Numbered (key : Fin n) (h : List (Event n)) : Prop :=
  (written key h).reverse.map UInt64.toNat = List.range' 1 (written key h).length

theorem Numbered.cons (hn : Numbered key h) (e : Event n)
    (he : ∀ version, e.wrote key = some version → version.toNat = (written key h).length + 1) :
    Numbered key (e :: h) := by
  cases hw : e.wrote key with
  | none => rwa [Numbered, written, List.filterMap_cons_none hw]
  | some version =>
    have hcons : written key (e :: h) = version :: written key h := List.filterMap_cons_some hw
    rw [Numbered, hcons, List.reverse_cons, List.map_append, hn, List.length_cons,
      List.range'_concat, List.map_singleton, he version hw]
    congr 2
    omega

theorem Numbered.lastVersion (hn : Numbered key h) :
    (lastVersion key h).toNat = (written key h).length := by
  cases hw : written key h with
  | nil => rw [Issuance.lastVersion, hw]; rfl
  | cons version rest =>
    rw [Numbered, hw, List.reverse_cons, List.map_append, List.length_cons, List.range'_concat]
      at hn
    have hlast := (List.append_inj' hn rfl).2
    rw [List.map_singleton, List.singleton_inj] at hlast
    rw [Issuance.lastVersion, hw, List.headD_cons, hlast, List.length_cons]
    omega

theorem lastVersion_cons (hw : e.wrote key = none) :
    lastVersion key (e :: h) = lastVersion key h := by
  rw [lastVersion, written, List.filterMap_cons_none hw]
  rfl

theorem lastLock_other (he : e.worker ≠ t) : lastLock t (e :: h) = lastLock t h := by
  cases e with
  | rlock u key => exact if_neg he
  | get => rfl
  | set => rfl

/-- Worker `t` holds the read lock of `key`, to which nothing has been written since. -/
def LockedAt (h : List (Event n)) (t : Nat) (key : Fin n) : Prop :=
  ∃ past, lastLock t h = some (key, past) ∧ lastVersion key past = lastVersion key h

theorem LockedAt.other (hl : LockedAt h t key) (he : e.worker ≠ t) (hw : e.wrote key = none) :
    LockedAt (e :: h) t key := by
  obtain ⟨past, hlock, hlast⟩ := hl
  exact ⟨past, (lastLock_other he).trans hlock, hlast.trans (lastVersion_cons hw).symm⟩

def Fact (h : List (Event n)) (t : Nat) : Point n → Prop
  | .reading _ key => LockedAt h t key
  | .expecting _ key version => LockedAt h t key ∧ version = lastVersion key h
  | .filled _ key version _ => version.toNat = (written key h).length + 1
  | .answered key version failed => failed = false → version.toNat = (written key h).length
  | _ => True

theorem Fact.other (hf : Fact h t p) (he : e.worker ≠ t)
    (hw : ∀ key, 0 < p.reads key + p.writes key → e.wrote key = none) : Fact (e :: h) t p := by
  have hwritten : ∀ key, e.wrote key = none → written key (e :: h) = written key h :=
    fun key hn => List.filterMap_cons_none hn
  cases p with
  | reading index key => exact hf.other he (hw key (by simp [Point.reads]))
  | expecting index key version =>
    have hn := hw key (by simp [Point.reads])
    exact ⟨hf.1.other he hn, hf.2.trans (lastVersion_cons hn).symm⟩
  | filled index key version value =>
    have hn := hw key (by simp [Point.writes])
    rwa [Fact, hwritten key hn]
  | answered key version failed =>
    have hn := hw key (by simp [Point.writes])
    rwa [Fact, hwritten key hn]
  | _ => trivial

end

section

open Interleaving

variable {w : Workload}

def limit (w : Workload) : Nat := (toUint64 w.cfg.maxRequests).toNat

/-- Index `i` has been handed out to a worker that goes on with it. -/
def handed (w : Workload) (issued : UInt64) (i : Nat) : Nat :=
  if i < min issued.toNat (limit w) then 1 else 0

def State.total (s : State w) (f : Point w.keys.length → Nat) : Nat :=
  (s.workers.map fun x => f x.point).sum

/-- What holds at all times of the workers, the key states and the history. -/
structure Inv (s : State w) : Prop where
  length : s.workers.length = w.cfg.concurrency.toNat
  issue : ∀ i, ((executed s.history).map UInt64.toNat).count i + s.total (·.claims i) =
    handed w s.shared.issued i
  bound : s.shared.issued.toNat ≤ limit w + s.total Point.ended
  attempts : (s.workers.map fun x => x.result.attempts).sum + s.total Point.uncounted =
    (executed s.history).length
  readers : ∀ key, s.total (·.reads key) = (s.shared.keyStates key).readers
  writers : ∀ key, s.total (·.writes key) = (s.shared.keyStates key).writing.toNat
  apart : ∀ key, (s.shared.keyStates key).writing = true → (s.shared.keyStates key).readers = 0
  numbered : ∀ key, Numbered key s.history
  stored : ∀ key, (s.shared.keyStates key).version.toNat + s.total (·.ahead key) =
    (written key s.history).length
  facts : ∀ t x, s.workers[t]? = some x → Fact s.history t x.point
  compared : ∀ later past t index key version reply,
    s.history = later ++ .get t index key version reply :: past → LockedAt past t key ∧
      version = lastVersion key past

theorem inv_start (w : Workload) : Inv (start w) := by
  have hsum : ∀ f : Worker w.keys.length → Nat, f ⟨.top, List.replicate w.values.size 0, {}⟩ = 0 →
      ((start w).workers.map f).sum = 0 := by
    intro f hf
    simp [start, List.map_replicate, hf]
  have htotal : ∀ f : Point w.keys.length → Nat, f .top = 0 → (start w).total f = 0 :=
    fun f hf => hsum _ hf
  constructor
  · exact List.length_replicate
  · intro i
    rw [htotal _ rfl]
    rfl
  · exact Nat.zero_le _
  · rw [hsum _ rfl, htotal _ rfl]
    rfl
  · exact fun key => htotal _ rfl
  · exact fun key => htotal _ rfl
  · exact fun key => nofun
  · exact fun key => rfl
  · intro key
    rw [htotal _ rfl]
    rfl
  · intro t x hx
    have hmem := List.eq_of_mem_replicate (List.mem_of_getElem? hx)
    rw [hmem]
    trivial
  · intro later past t index key version reply hh
    cases later <;> cases hh

structure Moved (s : State w) (t : Nat) (x : Worker w.keys.length) (sh : Shared w.keys.length)
    (y : Worker w.keys.length) (e : Option (Event w.keys.length)) : Prop where
  issue : ∀ i, ((executed e.toList).map UInt64.toNat).count i + y.point.claims i +
    handed w s.shared.issued i = x.point.claims i + handed w sh.issued i
  bound : sh.issued.toNat ≤ limit w ∨
    sh.issued.toNat + x.point.ended ≤ s.shared.issued.toNat + y.point.ended
  ended : x.point.ended = 0
  attempts : y.result.attempts + y.point.uncounted =
    x.result.attempts + x.point.uncounted + (executed e.toList).length
  readers : ∀ key, y.point.reads key + (s.shared.keyStates key).readers =
    x.point.reads key + (sh.keyStates key).readers
  writers : ∀ key, y.point.writes key + (s.shared.keyStates key).writing.toNat =
    x.point.writes key + (sh.keyStates key).writing.toNat
  apart : ∀ key, (sh.keyStates key).writing = true → (sh.keyStates key).readers = 0
  versions : ∀ event, e = some event → ∀ key version, event.wrote key = some version →
    version.toNat = (written key s.history).length + 1
  stored : ∀ key, (sh.keyStates key).version.toNat + y.point.ahead key +
    (written key s.history).length = (s.shared.keyStates key).version.toNat +
      x.point.ahead key + (written key (e.toList ++ s.history)).length
  fact : Fact (e.toList ++ s.history) t y.point
  worker : ∀ event, e = some event → event.worker = t
  writing : ∀ event, e = some event → ∀ key, event.wrote key ≠ none → x.point.writes key = 1
  compared : ∀ event, e = some event →
    ∀ u index key version reply, event = .get u index key version reply →
    LockedAt s.history u key ∧ version = lastVersion key s.history

theorem Inv.moved {s : State w} (hi : Inv s) {t : Nat} {x : Worker w.keys.length}
    (hx : s.workers[t]? = some x) {sh : Shared w.keys.length} {y : Worker w.keys.length}
    {e : Option (Event w.keys.length)} (hm : Moved s t x sh y e) :
    Inv (w := w) ⟨sh, s.workers.set t y, e.toList ++ s.history⟩ := by
  have hset : ∀ f : Point w.keys.length → Nat,
      ((s.workers.set t y).map fun z => f z.point).sum + f x.point = s.total f + f y.point :=
    fun f => Pool.sum_map_set hx y fun z => f z.point
  constructor
  · exact List.length_set.trans hi.length
  · intro i
    have hold := hi.issue i
    have hmove := hm.issue i
    have hsum := hset (·.claims i)
    rw [State.total, executed, List.filterMap_append, List.map_append, List.count_append]
    simp only [executed] at hmove hold ⊢
    omega
  · have hold := hi.bound
    have hmove := hm.bound
    have hended := hm.ended
    have hsum := hset Point.ended
    rw [State.total]
    simp only
    omega
  · have hold := hi.attempts
    have hmove := hm.attempts
    have hsum := hset Point.uncounted
    have hcount := Pool.sum_map_set hx y fun z => z.result.attempts
    rw [State.total, executed, List.filterMap_append, List.length_append]
    simp only [executed] at hmove hold hcount ⊢
    omega
  · intro key
    have hold := hi.readers key
    have hmove := hm.readers key
    have hsum := hset (·.reads key)
    rw [State.total]
    simp only
    omega
  · intro key
    have hold := hi.writers key
    have hmove := hm.writers key
    have hsum := hset (·.writes key)
    rw [State.total]
    simp only
    omega
  · exact hm.apart
  · intro key
    cases e with
    | none => exact hi.numbered key
    | some event => exact (hi.numbered key).cons event (hm.versions event rfl key)
  · intro key
    have hold := hi.stored key
    have hmove := hm.stored key
    have hsum := hset (·.ahead key)
    rw [State.total]
    simp only
    omega
  · intro u z hz
    by_cases htu : t = u
    · subst htu
      have ht := (List.getElem?_eq_some_iff.1 hx).1
      rw [List.getElem?_set_self ht] at hz
      cases hz
      exact hm.fact
    · rw [List.getElem?_set_ne htu] at hz
      cases e with
      | none => exact hi.facts u z hz
      | some event =>
        apply (hi.facts u z hz).other
        · rw [hm.worker event rfl]
          exact htu
        · -- whoever writes to a key is the only one that has it locked
          intro key hhold
          by_contra hwrote
          have hwx := hm.writing event rfl key hwrote
          have hpair := Pool.pair_le_sum_map hx hz (Ne.symm htu) fun z => z.point.writes key
          have hread := Pool.le_sum_map hz fun z => z.point.reads key
          have hwriters := hi.writers key
          have hreaders := hi.readers key
          have hle := Bool.toNat_le (s.shared.keyStates key).writing
          rw [State.total] at hwriters hreaders
          have hwriting : (s.shared.keyStates key).writing = true := by
            rw [← Bool.toNat_eq_one]
            omega
          have hzero := hi.apart key hwriting
          omega
  · intro later past u index key version reply hh
    cases e with
    | none => exact hi.compared later past u index key version reply hh
    | some event =>
      cases later with
      | nil =>
        obtain ⟨rfl, rfl⟩ := List.cons.inj hh
        exact hm.compared _ rfl u index key version reply rfl
      | cons first later =>
        exact hi.compared later past u index key version reply (List.cons.inj hh).2

@[simp] theorem Shared.update_issued (sh : Shared n) (key : Fin n)
    (f : WorkloadKeyState → WorkloadKeyState) : (sh.update key f).issued = sh.issued := rfl

@[simp] theorem Shared.update_same (sh : Shared n) (key : Fin n)
    (f : WorkloadKeyState → WorkloadKeyState) :
    (sh.update key f).keyStates key = f (sh.keyStates key) := Function.update_self ..

theorem Shared.update_other (sh : Shared n) {key other : Fin n} (hne : key ≠ other)
    (f : WorkloadKeyState → WorkloadKeyState) :
    (sh.update key f).keyStates other = sh.keyStates other := Function.update_of_ne hne.symm ..

section

variable {s : State w} {t : Nat} {x y : Worker w.keys.length} {sh : Shared w.keys.length}

theorem Moved.quiet (hissued : sh.issued = s.shared.issued)
    (hclaims : ∀ i, y.point.claims i = x.point.claims i) (hended : x.point.ended = 0)
    (hattempts : y.result.attempts + y.point.uncounted = x.result.attempts + x.point.uncounted)
    (hreaders : ∀ key, y.point.reads key + (s.shared.keyStates key).readers =
      x.point.reads key + (sh.keyStates key).readers)
    (hwriters : ∀ key, y.point.writes key + (s.shared.keyStates key).writing.toNat =
      x.point.writes key + (sh.keyStates key).writing.toNat)
    (hapart : ∀ key, (sh.keyStates key).writing = true → (sh.keyStates key).readers = 0)
    (hstored : ∀ key, (sh.keyStates key).version.toNat + y.point.ahead key =
      (s.shared.keyStates key).version.toNat + x.point.ahead key)
    (hfact : Fact s.history t y.point) : Moved s t x sh y none := by
  constructor
  · intro i
    rw [hclaims, hissued]
    exact congrArg (· + _) (Nat.zero_add _)
  · right
    rw [hissued, hended]
    exact Nat.add_le_add_left (Nat.zero_le _) _
  · exact hended
  · exact hattempts
  · exact hreaders
  · exact hwriters
  · exact hapart
  · nofun
  · intro key
    rw [hstored key]
    rfl
  · exact hfact
  · nofun
  · nofun
  · nofun

theorem Moved.update (hi : Inv s) {key : Fin w.keys.length}
    {f : WorkloadKeyState → WorkloadKeyState}
    (hclaims : ∀ i, y.point.claims i = x.point.claims i) (hended : x.point.ended = 0)
    (hattempts : y.result.attempts + y.point.uncounted = x.result.attempts + x.point.uncounted)
    (hothers : ∀ other, key ≠ other → y.point.reads other = x.point.reads other ∧
      y.point.writes other = x.point.writes other ∧ y.point.ahead other = x.point.ahead other)
    (hreaders : y.point.reads key + (s.shared.keyStates key).readers =
      x.point.reads key + (f (s.shared.keyStates key)).readers)
    (hwriters : y.point.writes key + (s.shared.keyStates key).writing.toNat =
      x.point.writes key + (f (s.shared.keyStates key)).writing.toNat)
    (hapart : (f (s.shared.keyStates key)).writing = true →
      (f (s.shared.keyStates key)).readers = 0)
    (hstored : (f (s.shared.keyStates key)).version.toNat + y.point.ahead key =
      (s.shared.keyStates key).version.toNat + x.point.ahead key)
    (hfact : Fact s.history t y.point) : Moved s t x (s.shared.update key f) y none := by
  apply Moved.quiet (Shared.update_issued ..) hclaims hended hattempts
  · intro other
    by_cases hk : key = other
    · rwa [← hk, Shared.update_same]
    · rw [Shared.update_other _ hk, (hothers other hk).1]
  · intro other
    by_cases hk : key = other
    · rwa [← hk, Shared.update_same]
    · rw [Shared.update_other _ hk, (hothers other hk).2.1]
  · intro other
    by_cases hk : key = other
    · rwa [← hk, Shared.update_same]
    · rw [Shared.update_other _ hk]
      exact hi.apart other
  · intro other
    by_cases hk : key = other
    · rwa [← hk, Shared.update_same]
    · rw [Shared.update_other _ hk, (hothers other hk).2.2]
  · exact hfact

theorem Inv.executed_le (hi : Inv s) : (executed s.history).length ≤ limit w := by
  have hcount : ∀ i, ((executed s.history).map UInt64.toNat).count i ≤ handed w s.shared.issued i :=
    fun i => hi.issue i ▸ Nat.le_add_right _ _
  have hnodup : ((executed s.history).map UInt64.toNat).Nodup := by
    rw [List.nodup_iff_count_le_one]
    intro i
    apply (hcount i).trans
    unfold handed
    split
    · exact le_rfl
    · exact Nat.zero_le _
  have hsub : (executed s.history).map UInt64.toNat ⊆ List.range (limit w) := by
    intro i hmem
    have hpos := (List.count_pos_iff.2 hmem).trans_le (hcount i)
    unfold handed at hpos
    split at hpos
    case isTrue hlt => exact List.mem_range.2 (hlt.trans_le (Nat.min_le_right _ _))
    case isFalse => cases hpos
  simpa using (hnodup.subperm hsub).length_le

theorem Inv.version_reading (hi : Inv s) (hx : s.workers[t]? = some x) {key : Fin w.keys.length}
    (hreads : x.point.reads key = 1) :
    (s.shared.keyStates key).version = lastVersion key s.history := by
  have hread := Pool.le_sum_map hx fun z => z.point.reads key
  have hreaders := hi.readers key
  have hwriters := hi.writers key
  rw [State.total] at hreaders
  have hwriting : (s.shared.keyStates key).writing = false := by
    by_contra hne
    have := hi.apart key (Bool.eq_true_of_not_eq_false hne)
    omega
  have hahead : s.total (·.ahead key) ≤ s.total (·.writes key) :=
    List.sum_le_sum fun z _ => Point.ahead_le_writes key z.point
  have hstored := hi.stored key
  rw [hwriting, Bool.toNat_false] at hwriters
  apply UInt64.toNat_inj.1
  rw [(hi.numbered key).lastVersion, ← hstored]
  omega

theorem Inv.ahead_writing (hi : Inv s) (hx : s.workers[t]? = some x) {key : Fin w.keys.length}
    (hwrites : x.point.writes key = 1) :
    s.total (·.ahead key) = x.point.ahead key := by
  have hle := Pool.le_sum_map hx fun z => z.point.ahead key
  have hdiff := Pool.sum_map_diff hx fun z : Worker w.keys.length =>
    Point.ahead_le_writes key z.point
  have hwriters := hi.writers key
  have hbool := Bool.toNat_le (s.shared.keyStates key).writing
  rw [State.total] at hwriters ⊢
  omega

section

variable {buffer : Bytes} {result : WorkloadWorkerResult} {index version : UInt64}
  {key : Fin w.keys.length}

theorem Inv.moved_top (hi : Inv s) :
    Moved s t ⟨.top, buffer, result⟩ s.shared
      ⟨if s.shared.expired then .returned else .issue, buffer, result⟩ none := by
  have hpoint : ∀ f : Point w.keys.length → Nat, f .returned = 0 → f .issue = 0 →
      f (if s.shared.expired then .returned else .issue) = 0 := by
    intro f hr hi
    split
    · exact hr
    · exact hi
  apply Moved.quiet rfl
  · exact fun i => hpoint _ rfl rfl
  · rfl
  · exact congrArg (_ + ·) (hpoint _ rfl rfl)
  · exact fun key => congrArg (· + _) (hpoint _ rfl rfl)
  · exact fun key => congrArg (· + _) (hpoint _ rfl rfl)
  · exact hi.apart
  · exact fun key => congrArg (_ + ·) (hpoint _ rfl rfl)
  · simp only
    split
    · trivial
    · trivial

theorem limit_le_iff : toUint64 w.cfg.maxRequests ≤ index ↔ limit w ≤ index.toNat :=
  UInt64.le_iff_toNat_le

theorem request_cases (w : Workload) (index : UInt64) :
    (limit w ≤ index.toNat ∧ request w index = .returned) ∨
    (index.toNat < limit w ∧ request w index = .panicked index) ∨
    ∃ key read, index.toNat < limit w ∧ request w index = .wait index key read := by
  unfold request
  split
  case isTrue hle => exact .inl ⟨limit_le_iff.1 hle, rfl⟩
  case isFalse hlt =>
    have hlt : index.toNat < limit w := Nat.lt_of_not_le fun hle => hlt (limit_le_iff.2 hle)
    right
    split
    · exact .inl ⟨hlt, rfl⟩
    · split
      · exact .inr ⟨_, _, hlt, rfl⟩
      · exact .inl ⟨hlt, rfl⟩

theorem Inv.moved_issue (hi : Inv s) (hlt : s.shared.issued.toNat + 1 < 2 ^ 64) :
    Moved s t ⟨.issue, buffer, result⟩ { s.shared with issued := s.shared.issued + 1 }
      ⟨request w s.shared.issued, buffer, result⟩ none := by
  have hsucc : (s.shared.issued + 1).toNat = s.shared.issued.toNat + 1 := by
    rw [UInt64.toNat_add]
    exact Nat.mod_eq_of_lt hlt
  have hpoint : ∀ f : Point w.keys.length → Nat, f .returned = 0 →
      (∀ index, f (.panicked index) = 0) → (∀ index key read, f (.wait index key read) = 0) →
      f (request w s.shared.issued) = 0 := by
    intro f hr hp hw
    rcases request_cases w s.shared.issued with ⟨-, h⟩ | ⟨-, h⟩ | ⟨key, read, -, h⟩
    · rw [h, hr]
    · rw [h, hp]
    · rw [h, hw]
  have hclaims : ∀ i, (request w s.shared.issued).claims i + handed w s.shared.issued i =
      handed w (s.shared.issued + 1) i := by
    intro i
    unfold handed
    rw [hsucc]
    rcases request_cases w s.shared.issued with ⟨hle, h⟩ | ⟨hlt, h⟩ | ⟨key, read, hlt, h⟩
    · simp only [h, Point.claims, Nat.min_eq_right hle,
        Nat.min_eq_right (hle.trans (Nat.le_succ _)), Nat.zero_add]
    all_goals
      simp only [h, Point.claims, Nat.min_eq_left hlt.le, Nat.min_eq_left hlt]
      split <;> split <;> split <;> omega
  constructor
  · intro i
    exact (congrArg (· + _) (Nat.zero_add _)).trans ((hclaims i).trans (Nat.zero_add _).symm)
  · rcases request_cases w s.shared.issued with ⟨-, h⟩ | ⟨hlt, -⟩ | ⟨-, -, hlt, -⟩
    · right
      simp only [h, hsucc, Point.ended]
      omega
    · exact .inl (hsucc ▸ hlt)
    · exact .inl (hsucc ▸ hlt)
  · rfl
  · exact congrArg (_ + ·) (hpoint _ rfl (fun _ => rfl) fun _ _ _ => rfl)
  · exact fun key => congrArg (· + _) (hpoint _ rfl (fun _ => rfl) fun _ _ _ => rfl)
  · exact fun key => congrArg (· + _) (hpoint _ rfl (fun _ => rfl) fun _ _ _ => rfl)
  · exact hi.apart
  · nofun
  · intro key
    exact congrArg (_ + · + _) (hpoint _ rfl (fun _ => rfl) fun _ _ _ => rfl)
  · simp only
    rcases request_cases w s.shared.issued with ⟨-, h⟩ | ⟨-, h⟩ | ⟨key, read, -, h⟩ <;>
      rw [h] <;> trivial
  · nofun
  · nofun
  · nofun

theorem Inv.moved_rlock (hi : Inv s) (hfree : ¬(s.shared.keyStates key).writing = true) :
    Moved s t ⟨.wait index key true, buffer, result⟩
      (s.shared.update key fun st => { st with readers := st.readers + 1 })
      ⟨.reading index key, buffer, result⟩ (some (.rlock t key)) := by
  constructor
  · exact fun i => congrArg (· + _) (Nat.zero_add _)
  · exact .inr le_rfl
  · rfl
  · rfl
  · intro other
    by_cases hk : key = other
    · subst hk
      simp [Point.reads, Nat.add_comm]
    · simp [Point.reads, hk, Shared.update_other]
  · intro other
    by_cases hk : key = other
    · subst hk
      simp [Point.writes]
    · simp [Point.writes, Shared.update_other _ hk]
  · intro other hw
    by_cases hk : key = other
    · subst hk
      rw [Shared.update_same] at hw
      exact absurd hw hfree
    · rw [Shared.update_other _ hk] at hw ⊢
      exact hi.apart other hw
  · rintro event ⟨⟩ other version hwrote
    cases hwrote
  · intro other
    by_cases hk : key = other
    · subst hk
      rw [Shared.update_same]
      rfl
    · rw [Shared.update_other _ hk]
      rfl
  · exact ⟨s.history, if_pos rfl, rfl⟩
  · rintro event ⟨⟩
    rfl
  · rintro event ⟨⟩ other hne
    exact absurd rfl hne
  · rintro event ⟨⟩ u index key version reply he
    cases he

theorem Inv.moved_get (hi : Inv s)
    (hf : Fact s.history t (.expecting index key version)) (reply : Option Bytes)
    (failed mismatch : Bool) :
    Moved s t ⟨.expecting index key version, buffer, result⟩ s.shared
      ⟨.compared key failed mismatch, buffer, result⟩
      (some (.get t index key version reply)) := by
  constructor
  · intro i
    simp [executed, Event.index, Point.claims, List.count_singleton]
  · exact .inr le_rfl
  · rfl
  · rfl
  · intro other
    rfl
  · intro other
    rfl
  · exact hi.apart
  · rintro event ⟨⟩ other version hwrote
    cases hwrote
  · intro other
    rfl
  · trivial
  · rintro event ⟨⟩
    rfl
  · rintro event ⟨⟩ other hne
    exact absurd rfl hne
  · rintro event ⟨⟩ u index key version reply he
    cases he
    exact hf

theorem Inv.moved_set (hi : Inv s) {value : Bytes}
    (hf : Fact s.history t (.filled index key version value)) (failed : Bool) :
    Moved s t ⟨.filled index key version value, buffer, result⟩ s.shared
      ⟨.answered key version failed, buffer, result⟩
      (some (.set t index key version value failed)) := by
  have hwritten : ∀ other, (written other
      (Event.set t index key version value failed :: s.history)).length =
      (written other s.history).length + (Point.answered key version failed).ahead other := by
    intro other
    cases failed with
    | true => rfl
    | false =>
      by_cases hk : key = other
      · simp [written, Event.wrote, Point.ahead, hk]
      · simp [written, Event.wrote, Point.ahead, hk]
  constructor
  · intro i
    simp [executed, Event.index, Point.claims, List.count_singleton]
  · exact .inr le_rfl
  · rfl
  · rfl
  · intro other
    rfl
  · intro other
    rfl
  · exact hi.apart
  · rintro event ⟨⟩ other version' hwrote
    cases failed with
    | true => cases hwrote
    | false =>
      by_cases hk : key = other
      · subst hk
        simp only [Event.wrote, if_pos, Option.some.injEq] at hwrote
        exact hwrote ▸ hf
      · simp [Event.wrote, hk] at hwrote
  · intro other
    have hlen := hwritten other
    simp only [Option.toList_some, List.singleton_append, hlen, Point.ahead]
    omega
  · intro hok
    have hlen := hwritten key
    subst hok
    simp only [Option.toList_some, List.singleton_append, hlen, Point.ahead, if_pos]
    exact hf
  · rintro event ⟨⟩
    rfl
  · rintro event ⟨⟩ other hne
    by_cases hk : key = other
    · exact if_pos hk
    · cases failed <;> simp [Event.wrote, hk] at hne
  · rintro event ⟨⟩ u index key version reply he
    cases he

theorem Inv.moved_version (hi : Inv s)
    (hx : s.workers[t]? = some ⟨.reading index key, buffer, result⟩) :
    Moved s t ⟨.reading index key, buffer, result⟩ s.shared
      ⟨.expecting index key (s.shared.keyStates key).version, buffer, result⟩ none := by
  apply Moved.quiet
  · rfl
  · exact fun i => rfl
  · rfl
  · rfl
  · exact fun key => rfl
  · exact fun key => rfl
  · exact hi.apart
  · exact fun key => rfl
  · exact ⟨hi.facts t _ hx, hi.version_reading hx (if_pos rfl)⟩

theorem Inv.moved_fill (hi : Inv s) (hlt : limit w + 1 < 2 ^ 64)
    (hx : s.workers[t]? = some ⟨.writing index key, buffer, result⟩) (value : Bytes) :
    Moved s t ⟨.writing index key, buffer, result⟩ s.shared
      ⟨.filled index key ((s.shared.keyStates key).version + 1) value, value, result⟩ none := by
  have hahead : s.total (·.ahead key) = 0 := hi.ahead_writing hx (if_pos rfl)
  have hstored := hi.stored key
  have hle := (written_length_le key s.history).trans hi.executed_le
  apply Moved.quiet
  · rfl
  · exact fun i => rfl
  · rfl
  · rfl
  · exact fun key => rfl
  · exact fun key => rfl
  · exact hi.apart
  · exact fun key => rfl
  · rw [hahead, Nat.add_zero] at hstored
    rw [Fact, UInt64.toNat_add, hstored]
    apply Nat.mod_eq_of_lt
    exact (Nat.succ_le_succ hle).trans_lt hlt

theorem Inv.moved_runlock (hi : Inv s) {failed mismatch : Bool}
    (hx : s.workers[t]? = some ⟨.compared key failed mismatch, buffer, result⟩) :
    Moved s t ⟨.compared key failed mismatch, buffer, result⟩
      (s.shared.update key fun st => { st with readers := st.readers - 1 })
      ⟨.top, buffer, result.count true failed mismatch⟩ none := by
  have hread : (Point.compared key failed mismatch).reads key ≤ s.total (·.reads key) :=
    Pool.le_sum_map hx fun z => z.point.reads key
  rw [hi.readers key] at hread
  apply Moved.update hi
  · exact fun i => rfl
  · rfl
  · exact WorkloadWorkerResult.attempts_count ..
  · exact fun other hk => ⟨(if_neg hk).symm, rfl, rfl⟩
  · simp only [Point.reads, if_pos] at hread ⊢
    omega
  · rfl
  · intro hw
    simp only [hi.apart key hw]
  · rfl
  · trivial

theorem Inv.moved_lock (hi : Inv s) (hfree : ¬((s.shared.keyStates key).writing = true ∨
      (s.shared.keyStates key).readers ≠ 0)) :
    Moved s t ⟨.wait index key false, buffer, result⟩
      (s.shared.update key fun st => { st with writing := true })
      ⟨.writing index key, buffer, result⟩ none := by
  obtain ⟨hwriting, hreaders⟩ := not_or.1 hfree
  apply Moved.update hi
  · exact fun i => rfl
  · rfl
  · rfl
  · exact fun other hk => ⟨rfl, if_neg hk, rfl⟩
  · rfl
  · simp [Point.writes, Bool.eq_false_of_not_eq_true hwriting]
  · exact fun _ => not_not.1 hreaders
  · rfl
  · trivial

theorem Inv.moved_store (hi : Inv s) {failed : Bool}
    (hx : s.workers[t]? = some ⟨.answered key version failed, buffer, result⟩) :
    Moved s t ⟨.answered key version failed, buffer, result⟩
      (s.shared.update key fun st => if failed then st else { st with version := version })
      ⟨.stored key failed, buffer, result⟩ none := by
  cases failed with
  | true =>
    exact Moved.update hi (fun i => rfl) rfl rfl (fun other hk => ⟨rfl, rfl, rfl⟩) rfl rfl
      (hi.apart key) rfl trivial
  | false =>
    have hahead : s.total (·.ahead key) = _ := hi.ahead_writing hx (if_pos rfl)
    have hstored := hi.stored key
    rw [hahead] at hstored
    exact Moved.update hi (fun i => rfl) rfl rfl (fun other hk => ⟨rfl, rfl, (if_neg hk).symm⟩)
      rfl rfl (hi.apart key) ((hi.facts t _ hx rfl).trans hstored.symm) trivial

theorem Inv.moved_unlock (hi : Inv s) {failed : Bool}
    (hx : s.workers[t]? = some ⟨.stored key failed, buffer, result⟩) :
    Moved s t ⟨.stored key failed, buffer, result⟩
      (s.shared.update key fun st => { st with writing := false })
      ⟨.top, buffer, result.count false failed false⟩ none := by
  have hwrite : (Point.stored key failed).writes key ≤ s.total (·.writes key) :=
    Pool.le_sum_map hx fun z => z.point.writes key
  have hwriting : (s.shared.keyStates key).writing.toNat = 1 := by
    rw [hi.writers key] at hwrite
    simp only [Point.writes, if_pos] at hwrite
    exact le_antisymm (Bool.toNat_le _) hwrite
  apply Moved.update hi
  · exact fun i => rfl
  · rfl
  · exact WorkloadWorkerResult.attempts_count ..
  · exact fun other hk => ⟨rfl, (if_neg hk).symm, rfl⟩
  · rfl
  · simp [Point.writes, hwriting]
  · nofun
  · rfl
  · trivial

theorem Inv.moved_step (hi : Inv s) (hlimit : limit w < 2 ^ 63)
    (hconcurrency : w.cfg.concurrency < 2 ^ 63) (hx : s.workers[t]? = some x)
    {reply : Option Bytes} {e : Option (Event w.keys.length)}
    (hs : x.step w t reply s.shared = some (sh, y, e)) : Moved s t x sh y e := by
  have hf := hi.facts t x hx
  obtain ⟨point, buffer, result⟩ := x
  cases point with
  | top =>
    cases hs
    exact hi.moved_top
  | issue =>
    have hended : s.total Point.ended ≤ s.workers.length := by
      rw [State.total]
      apply (List.sum_le_card_nsmul _ 1 _).trans
      · simp
      · intro n hn
        obtain ⟨z, -, rfl⟩ := List.mem_map.1 hn
        cases z.point <;> simp [Point.ended]
    have hlt : s.shared.issued.toNat + 1 < 2 ^ 64 := by
      have hbound := hi.bound
      have hlength := hi.length
      omega
    have hindex : s.shared.issued + 1 - 1 = s.shared.issued := by
      rw [UInt64.add_sub_cancel]
    simp only [Worker.step, hindex, Option.some.injEq, Prod.mk.injEq] at hs
    obtain ⟨rfl, rfl, rfl⟩ := hs
    exact hi.moved_issue hlt
  | wait index key read =>
    cases read with
    | true =>
      simp only [Worker.step] at hs
      split at hs
      · cases hs
      case isFalse hfree =>
        cases hs
        exact hi.moved_rlock hfree
    | false =>
      simp only [Worker.step] at hs
      split at hs
      · cases hs
      case isFalse hfree =>
        cases hs
        exact hi.moved_lock hfree
  | reading index key =>
    cases hs
    exact hi.moved_version hx
  | expecting index key version =>
    cases hs
    exact hi.moved_get hf reply _ _
  | compared key failed mismatch =>
    cases hs
    exact hi.moved_runlock hx
  | writing index key =>
    cases hs
    exact hi.moved_fill (by omega) hx _
  | filled index key version value =>
    cases hs
    exact hi.moved_set hf _
  | answered key version failed =>
    cases hs
    exact hi.moved_store hx
  | stored key failed =>
    cases hs
    exact hi.moved_unlock hx
  | returned => cases hs
  | panicked index => cases hs

theorem run_invariant {J : State w → Prop} (moves : List Move) (h₀ : J (start w))
    (hexpire : ∀ s, J s → J (s.step .expire))
    (hwork : ∀ {s t x reply sh y e}, J s → s.workers[t]? = some x →
      x.step w t reply s.shared = some (sh, y, e) →
      J ⟨sh, s.workers.set t y, e.toList ++ s.history⟩) : J (run w moves) := by
  have hstep : ∀ s m, J s → J (s.step m) := by
    intro s m hs
    cases m with
    | expire => exact hexpire s hs
    | work t reply =>
      rw [State.step]
      split
      · exact hs
      case h_2 x hx =>
        split
        · exact hs
        case h_2 sh y e he => exact hwork hs hx he
  unfold run
  generalize start w = s at h₀
  induction moves generalizing s with
  | nil => exact h₀
  | cons m moves ih => exact ih _ (hstep s m h₀)

theorem inv_run (w : Workload) (hlimit : limit w < 2 ^ 63)
    (hconcurrency : w.cfg.concurrency < 2 ^ 63) (moves : List Move) : Inv (run w moves) := by
  apply run_invariant moves (inv_start w)
  · exact fun s hi => ⟨hi.1, hi.2, hi.3, hi.4, hi.5, hi.6, hi.7, hi.8, hi.9, hi.10, hi.11⟩
  · exact fun hi hx hs => hi.moved hx (hi.moved_step hlimit hconcurrency hx hs)

end

/-- The counters with the operation that the worker is about to count. -/
def Worker.due (x : Worker n) : WorkloadWorkerResult :=
  match x.point with
  | .compared _ failed mismatch => x.result.count true failed mismatch
  | .answered _ _ failed => x.result.count false failed false
  | .stored _ failed => x.result.count false failed false
  | _ => x.result

def Point.Filled {w : Workload} : Point w.keys.length → Prop
  | .filled _ key version value => Issuance.Filled w key version value
  | _ => True

def Event.Filled {w : Workload} : Event w.keys.length → Prop
  | .set _ _ key version value _ => Issuance.Filled w key version value
  | _ => True

theorem due_request (x : Worker w.keys.length) (index : UInt64) :
    Worker.due { x with point := request w index } = x.result ∧ (request w index).Filled := by
  unfold request
  split
  · exact ⟨rfl, trivial⟩
  · split
    · exact ⟨rfl, trivial⟩
    · split <;> exact ⟨rfl, trivial⟩

theorem Worker.step_counts {x y : Worker w.keys.length} {e : Option (Event w.keys.length)}
    (hx : x.point.Filled) (hs : x.step w t reply sh = some (sh', y, e)) :
    y.due = (e.bind (Event.outcome w)).elim x.due x.due.add ∧ y.point.Filled ∧
      ∀ e' ∈ e, e'.worker = t ∧ e'.Filled := by
  obtain ⟨point, buffer, result⟩ := x
  cases point with
  | top =>
    cases hs
    simp only
    split <;> exact ⟨rfl, trivial, by simp⟩
  | issue =>
    cases hs
    obtain ⟨hdue, hfilled⟩ := due_request ⟨.issue, buffer, result⟩ (sh.issued + 1 - 1)
    exact ⟨hdue, hfilled, by simp⟩
  | wait index key read =>
    cases read with
    | true =>
      simp only [Worker.step] at hs
      split at hs
      · cases hs
      · cases hs
        exact ⟨rfl, trivial, by simp [Event.worker, Event.Filled]⟩
    | false =>
      simp only [Worker.step] at hs
      split at hs
      · cases hs
      · cases hs
        exact ⟨rfl, trivial, by simp⟩
  | expecting index key version =>
    cases hs
    refine ⟨?_, trivial, by simp [Event.worker, Event.Filled]⟩
    cases reply with
    | none => rfl
    | some value =>
      cases hm : w.values.matches w.sum256 (key.cast w.aligned.symm) version value
      all_goals simp [Worker.due, mismatch, Event.outcome, hm, WorkloadWorkerResult.count,
        WorkloadWorkerResult.add]
  | writing index key =>
    cases hs
    exact ⟨rfl, ⟨buffer, rfl⟩, by simp⟩
  | filled index key version value =>
    cases hs
    refine ⟨?_, trivial, ?_⟩
    · cases reply <;> rfl
    · rintro e' ⟨⟩
      exact ⟨rfl, hx⟩
  | returned => cases hs
  | panicked index => cases hs
  | _ =>
    cases hs
    exact ⟨rfl, trivial, by simp⟩

/-- The counters of every worker are those of its commands so far, and what is written was made for
its version. -/
structure Tallied (s : State w) : Prop where
  due : ∀ t x, s.workers[t]? = some x → x.due = tally w t s.history
  filled : ∀ x ∈ s.workers, x.point.Filled
  events : ∀ e ∈ s.history, e.Filled

theorem tally_other {e : Event w.keys.length} (he : e.worker ≠ t) (h : List (Event w.keys.length)) :
    tally w t (e :: h) = tally w t h := if_neg he

theorem Tallied.work {s : State w} (hi : Tallied s) (hx : s.workers[t]? = some x)
    {e : Option (Event w.keys.length)} (hs : x.step w t reply s.shared = some (sh, y, e)) :
    Tallied ⟨sh, s.workers.set t y, e.toList ++ s.history⟩ := by
  obtain ⟨hdue, hfilled, he⟩ := Worker.step_counts (hi.filled x (List.mem_of_getElem? hx)) hs
  constructor
  · intro u z hz
    rcases eq_or_ne u t with rfl | hu
    · have hlt : u < s.workers.length := (List.getElem?_eq_some_iff.1 hx).1
      rw [List.getElem?_set_self hlt] at hz
      cases hz
      rw [hdue, hi.due u x hx]
      cases e with
      | none => rfl
      | some e => exact (if_pos (he e rfl).1).symm
    · rw [List.getElem?_set_ne hu.symm] at hz
      rw [hi.due u z hz]
      cases e with
      | none => rfl
      | some e =>
        exact (tally_other (fun h => hu (h.symm.trans (he e rfl).1)) s.history).symm
  · intro z hz
    rcases List.mem_or_eq_of_mem_set hz with hz | rfl
    · exact hi.filled z hz
    · exact hfilled
  · intro e' he'
    rcases List.mem_append.1 he' with he' | he'
    · exact (he e' (Option.mem_toList.1 he')).2
    · exact hi.events e' he'

theorem tallied (w : Workload) (moves : List Move) : Tallied (run w moves) := by
  apply run_invariant moves
  · constructor
    · intro t x hx
      rw [List.eq_of_mem_replicate (List.mem_of_getElem? hx)]
      rfl
    · intro x hx
      rw [List.eq_of_mem_replicate hx]
      trivial
    · simp [start]
  · exact fun s hi => ⟨hi.due, hi.filled, hi.events⟩
  · exact fun hi hx hs => hi.work hx hs

theorem request_ne_panicked (hacc : Accepted w.cfg) (hsel : Selected w.scenario w.cfg)
    (hkeys : (w.keys.length : Int) = w.cfg.keyCount) (index i : UInt64) :
    request w index ≠ .panicked i := by
  have hlimit : limit w = w.cfg.maxRequests.toNat :=
    toNat_toUint64 (by have := hacc.requests; omega) (by have := hacc.requests; omega)
  unfold request
  split
  · nofun
  case isFalse hlt =>
    have hlt : index.toNat < limit w := Nat.lt_of_not_le fun hle => hlt (limit_le_iff.2 hle)
    obtain ⟨key, hkey, h₀, hbound⟩ := workloadKeyAt_bounds hacc hsel (i := index) (by omega)
    rw [workloadRequestAt_key, hkey, Option.map_some]
    simp only
    rw [dif_pos ⟨h₀, by omega⟩]
    nofun

theorem step_ne_panicked (hacc : Accepted w.cfg) (hsel : Selected w.scenario w.cfg)
    (hkeys : (w.keys.length : Int) = w.cfg.keyCount) {reply : Option Bytes}
    {sh₀ : Shared w.keys.length} {e : Option (Event w.keys.length)}
    (hs : x.step w t reply sh₀ = some (sh, y, e)) (i : UInt64) : y.point ≠ .panicked i := by
  obtain ⟨point, buffer, result⟩ := x
  cases point with
  | top =>
    cases hs
    simp only
    split <;> nofun
  | issue =>
    cases hs
    exact request_ne_panicked hacc hsel hkeys _ i
  | wait index key read =>
    cases read with
    | true =>
      simp only [Worker.step] at hs
      split at hs
      · cases hs
      · cases hs
        nofun
    | false =>
      simp only [Worker.step] at hs
      split at hs
      · cases hs
      · cases hs
        nofun
  | returned => cases hs
  | panicked index => cases hs
  | _ =>
    cases hs
    nofun

theorem run_not_panicked (hacc : Accepted w.cfg) (hsel : Selected w.scenario w.cfg)
    (hkeys : (w.keys.length : Int) = w.cfg.keyCount) (moves : List Move) :
    ∀ x ∈ (run w moves).workers, ∀ i, x.point ≠ .panicked i := by
  apply run_invariant (J := fun s => ∀ x ∈ s.workers, ∀ i, x.point ≠ .panicked i) moves
  · intro x hx i
    rw [List.eq_of_mem_replicate hx]
    nofun
  · exact fun s hs => hs
  · intro s t x reply sh y e hs hx hstep z hz i
    rcases List.mem_or_eq_of_mem_set hz with hz | rfl
    · exact hs z hz i
    · exact step_ne_panicked hacc hsel hkeys hstep i

theorem Inv.executed_perm (hi : Inv s) (hr : ∀ x ∈ s.workers, x.point = .returned) :
    ((executed s.history).map UInt64.toNat).Perm
      (List.range (min s.shared.issued.toNat (limit w))) := by
  rw [List.perm_iff_count]
  intro i
  have hissue := hi.issue i
  have hclaims : s.total (·.claims i) = 0 := by
    apply List.sum_eq_zero
    intro n hn
    obtain ⟨x, hx, rfl⟩ := List.mem_map.1 hn
    rw [hr x hx]
    rfl
  rw [hclaims, Nat.add_zero] at hissue
  rw [hissue, List.nodup_range.count, handed]
  simp only [List.mem_range]

theorem Inv.attempts_returned (hi : Inv s) (hr : ∀ x ∈ s.workers, x.point = .returned) :
    (s.workers.map fun x => x.result.attempts).sum = (executed s.history).length := by
  have hattempts := hi.attempts
  have huncounted : s.total Point.uncounted = 0 := by
    apply List.sum_eq_zero
    intro n hn
    obtain ⟨x, hx, rfl⟩ := List.mem_map.1 hn
    rw [hr x hx]
    rfl
  rwa [huncounted, Nat.add_zero] at hattempts

end

end

theorem report_operationAttempts (cfg : WorkloadConfig) (workers : List WorkloadWorkerResult)
    (validation : WorkloadWorkerResult) (validationReads : Nat) :
    (report cfg workers validation validationReads).operationAttempts =
      (workers.map WorkloadWorkerResult.attempts).sum := by
  unfold report
  simp only [← List.sum_map_add]
  rfl

theorem report_terminationReason (cfg : WorkloadConfig) (workers : List WorkloadWorkerResult)
    (validation : WorkloadWorkerResult) (validationReads : Nat) :
    (report cfg workers validation validationReads).terminationReason = workloadTerminationReason
      (report cfg workers validation validationReads).operationAttempts cfg.maxRequests := rfl

theorem workloadTerminationReason_eq_iff (operationAttempts : Nat) (maxRequests : Int) :
    workloadTerminationReason operationAttempts maxRequests = "request_limit" ↔
      (toUint64 maxRequests).toNat ≤ operationAttempts := by
  unfold workloadTerminationReason
  split
  case isTrue hle => simpa using hle
  case isFalse hlt => simpa using hlt

/-- The workers issue operations exactly. When all have returned, the operations they have executed
are the first `N` ones, each once, for an `N` within the limit; `N` is the number of successes and
failures and the reported number of attempts, and the reported reason is the request limit if `N`
is the limit. At all times the successful writes to a key carry the versions from 1 on, with the
content made for them, and a reply to a read is compared with the version of the last successful
write to the key before the worker took the read lock. A worker that has returned has counted its
commands, and a read as a mismatch exactly if its reply does not match at that version. -/
theorem workload_issuance (w : Workload) (h₀ : 0 ≤ w.cfg.maxRequests)
    (hmax : FixedWidth.Fits 64 w.cfg.maxRequests)
    (hconcurrency : FixedWidth.Fits 64 w.cfg.concurrency) (moves : List Move) :
    let s := run w moves
    ((∀ x ∈ s.workers, x.point = .returned) → ∃ N : Nat,
      (N : Int) ≤ w.cfg.maxRequests ∧
      ((executed s.history).map UInt64.toNat).Perm (List.range N) ∧
      (s.workers.map fun x => x.result.reads + x.result.writes).sum +
        (s.workers.map fun x => x.result.failures).sum = N ∧
      ∀ validation validationReads,
        (report w.cfg (s.workers.map (·.result)) validation validationReads).operationAttempts =
          N ∧
        ((report w.cfg (s.workers.map (·.result)) validation validationReads).terminationReason =
          "request_limit" ↔ (N : Int) = w.cfg.maxRequests)) ∧
    (∀ key, (written key s.history).reverse.map UInt64.toNat =
      List.range' 1 (written key s.history).length) ∧
    (∀ t index key version value failed, .set t index key version value failed ∈ s.history →
      Filled w key version value) ∧
    (∀ later past t index key version reply,
      s.history = later ++ .get t index key version reply :: past →
      ∃ before, lastLock t past = some (key, before) ∧ version = lastVersion key before) ∧
    ∀ t x, s.workers[t]? = some x → x.point = .returned → x.result = tally w t s.history := by
  intro s
  have hlimit : limit w = w.cfg.maxRequests.toNat := toNat_toUint64 h₀ (by have := hmax.2; omega)
  have hi : Inv s := by
    refine inv_run w ?_ hconcurrency.2 moves
    have := hmax.2
    omega
  have htally : Tallied s := tallied w moves
  refine ⟨?_, hi.numbered, ?_, ?_, ?_⟩
  · intro hr
    have hperm := hi.executed_perm hr
    have hlength : (executed s.history).length = min s.shared.issued.toNat (limit w) := by
      simpa using hperm.length_eq
    have hattempts := hi.attempts_returned hr
    refine ⟨min s.shared.issued.toNat (limit w), ?_, hperm, ?_, ?_⟩
    · omega
    · rw [← hlength, ← hattempts, ← List.sum_map_add]
      rfl
    · intro validation validationReads
      have hreport := report_operationAttempts w.cfg (s.workers.map (·.result)) validation
        validationReads
      rw [List.map_map] at hreport
      have hN := hreport.trans (hattempts.trans hlength)
      refine ⟨hN, ?_⟩
      rw [report_terminationReason, workloadTerminationReason_eq_iff, hN, ← limit]
      omega
  · exact fun t index key version value failed he => htally.events _ he
  · intro later past t index key version reply hh
    obtain ⟨⟨before, hlock, hlast⟩, hversion⟩ := hi.compared later past t index key version reply hh
    exact ⟨before, hlock, hversion.trans hlast.symm⟩
  · intro t x hx hreturned
    rw [← htally.due t x hx, Worker.due, hreturned]

def sample : Workload where
  scenario := workloadScenarioUniform
  cfg := { sampleConfig with keyCount := 2, readRatio := 50, maxRequests := 8 }
  keys := [[97], [98]]
  values := newWorkloadValues (fun _ => Vector.replicate 32 0) [[97], [98]] 16
  sum256 := fun _ => Vector.replicate 32 0
  aligned := rfl

def sampleMoves : List Move :=
  (List.range 100).map fun i => .work (i % 2)
    (if i % 5 = 0 then none else if i % 3 = 0 then some [] else some (List.replicate 16 0))

theorem workload_issuance_sample :
    let s := run sample sampleMoves
    (∀ x ∈ s.workers, x.point = .returned) ∧ executed s.history = [7, 6, 5, 4, 3, 2, 1, 0] ∧
    (report sample.cfg (s.workers.map (·.result)) {} 0).terminationReason = "request_limit" ∧
    (∀ x ∈ s.workers[0]?, x.result = ⟨1, 2, 1, 1⟩) ∧
    (∀ x ∈ s.workers[1]?, x.result = ⟨0, 1, 3, 2⟩) ∧
    ∃ (key : Fin 2) (value : Bytes), .set 0 4 key 3 value false ∈ s.history ∧
      Filled sample key 3 value := by
  intro s
  have hr : ∀ x ∈ s.workers, x.point = .returned := by decide +kernel
  obtain ⟨hexact, -, hfilled, -, hcounts⟩ := workload_issuance sample (by decide) (by decide)
    (by decide) sampleMoves
  obtain ⟨N, -, hperm, -, hreport⟩ := hexact hr
  have hexecuted : executed s.history = [7, 6, 5, 4, 3, 2, 1, 0] := by decide +kernel
  have htally : tally sample 0 s.history = ⟨1, 2, 1, 1⟩ ∧
      tally sample 1 s.history = ⟨0, 1, 3, 2⟩ := by decide +kernel
  have hset : .set 0 4 (1 : Fin 2) 3 (3 :: List.replicate 15 0) false ∈ s.history := by
    decide +kernel
  refine ⟨hr, hexecuted, (hreport {} 0).2.2 ?_, fun x hx => ?_, fun x hx => ?_,
    _, _, hset, hfilled _ _ _ _ _ _ hset⟩
  · rw [hexecuted] at hperm
    have hN : 8 = N := by simpa using hperm.length_eq
    rw [← hN]
    rfl
  · exact (hcounts 0 x hx (hr x (List.mem_of_getElem? hx))).trans htally.1
  · exact (hcounts 1 x hx (hr x (List.mem_of_getElem? hx))).trans htally.2

/-- No worker of a run with an accepted configuration panics: no operation divides by zero or
indexes a key that is not there, whatever the replies are and whenever the duration ends. -/
theorem workers_never_panic (w : Workload) (hcfg : validateWorkloadConfig w.cfg = none)
    (hscenario : w.scenario ∈ selectedWorkloadScenarios w.cfg.scenario)
    (hkeys : (w.keys.length : Int) = w.cfg.keyCount) (moves : List Move) :
    ∀ x ∈ (run w moves).workers, ∀ i, x.point ≠ .panicked i := by
  have hacc := accepted_of_validate hcfg
  exact run_not_panicked hacc (hacc.selected hscenario) hkeys moves

theorem workers_never_panic_sample :
    let w : Workload := { sample with cfg := { sample.cfg with scenario := "uniform" } }
    ∀ x ∈ (run w sampleMoves).workers, ∀ i, x.point ≠ .panicked i :=
  workers_never_panic _ (by decide +kernel) (by decide +kernel) (by decide +kernel) sampleMoves

end Slizen.Benchmark.Issuance
