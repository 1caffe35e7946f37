import Slizen.Service.Footprint
import Slizen.Service.Runs

namespace Slizen
set_option autoImplicit true

open Interleaving Machine

/-- What is kept of an action for the accounts of the requests: the start of a call, a Get that
has passed its checks, the outcome of a local lookup, an upstream read and its metric, and a
flight that is started. -/
inductive Booking where
  | call (job : Job)
  | passed
  | hit
  | miss (reason : CacheMissReason)
  | issue
  | upstream (isGet : Bool)
  | lead
  deriving DecidableEq

namespace Booking

def isMiss : Booking → Bool
  | miss _ => true
  | _ => false

def of : (Σ a, Action.Resp a) → Option Booking
  | ⟨.note (.start job), _⟩ => some (.call job)
  | ⟨.ctxErr, none⟩ => some .passed
  | ⟨.record .cacheHit, _⟩ => some .hit
  | ⟨.record (.cacheMissWithReason reason), _⟩ => some (.miss reason)
  | ⟨.record (.observeUpstream isGet _), _⟩ => some (.upstream isGet)
  | ⟨.upstream (.issue _), _⟩ => some .issue
  | ⟨.group (.doChan _ _ _), j⟩ => if j.leader then some .lead else none
  | _ => none

theorem of_local {a : Action} (ha : a.Local) (b : a.Resp) : of ⟨a, b⟩ = none := by
  cases a with
  | record m => cases m <;> first | rfl | exact ha.elim
  | note n => cases n <;> first | rfl | exact ha.elim
  | tracker op => rfl
  | cache tier op => rfl
  | stripe σ op => rfl
  | _ => exact ha.elim

theorem of_unrecorded {a : Action} {b : a.Resp} (ha : ∀ m, a ≠ .record m)
    (h : of ⟨a, b⟩ = some x) : x ≠ .hit ∧ x.isMiss = false ∧ ∀ isGet, x ≠ .upstream isGet := by
  cases a with
  | record m => exact absurd rfl (ha m)
  | note n => cases n <;> cases h; exact ⟨nofun, rfl, nofun⟩
  | ctxErr => cases b <;> cases h; exact ⟨nofun, rfl, nofun⟩
  | upstream op => cases op <;> cases h; exact ⟨nofun, rfl, nofun⟩
  | group op =>
    cases op with
    | doChan key epoch policy =>
      simp only [of] at h
      split at h <;> cases h
      exact ⟨nofun, rfl, nofun⟩
    | _ => cases h
  | _ => cases h

end Booking

def booksOf (l : List (Σ a, Action.Resp a)) : List Booking := l.filterMap Booking.of

@[simp] theorem booksOf_nil : booksOf [] = [] := rfl

@[simp] theorem booksOf_append (l l' : List (Σ a, Action.Resp a)) :
    booksOf (l ++ l') = booksOf l ++ booksOf l' := List.filterMap_append

@[simp] theorem booksOf_cons (x : Σ a, Action.Resp a) (l : List (Σ a, Action.Resp a)) :
    booksOf (x :: l) = (Booking.of x).toList ++ booksOf l := by
  rw [booksOf, List.filterMap_cons]
  cases Booking.of x <;> rfl

namespace Service

variable {svc : Service} {l : List (Σ a, Action.Resp a)}

theorem booksOf_local {p q : Run α} (hp : p.Uses Action.Local) (h : p.After l q) :
    booksOf l = [] := by
  rw [booksOf, List.filterMap_eq_nil_iff]
  intro x hx
  exact Booking.of_local (h.uses hp x hx) x.2

/-- One lookup for each of `n` keys, with `m` misses among them. -/
structure Lookups (l : List Booking) (n m : Nat) : Prop where
  length : l.length = n
  each : ∀ b ∈ l, b = .hit ∨ b.isMiss = true
  misses : l.countP Booking.isMiss = m

theorem Lookups.hit {l : List Booking} (h : Lookups l n m) : Lookups (.hit :: l) (n + 1) m where
  length := congrArg (· + 1) h.length
  each := List.forall_mem_cons.2 ⟨.inl rfl, h.each⟩
  misses := h.misses

theorem Lookups.miss {l : List Booking} (h : Lookups l n m) (reason : CacheMissReason) :
    Lookups (.miss reason :: l) (n + 1) (m + 1) where
  length := congrArg (· + 1) h.length
  each := List.forall_mem_cons.2 ⟨.inr rfl, h.each⟩
  misses := (List.countP_cons_of_pos rfl).trans (congrArg (· + 1) h.misses)

/-- The books of a finished call, after the note of its start. -/
inductive Books (svc : Service) : Job → List Booking → Prop
  | refused (key : Key) : Books svc (.get key) []
  | hit (key : Key) : Books svc (.get key) [.passed, .hit]
  | bypassed (key : Key) (reason : CacheMissReason) (hp : (svc.policy key).mode ≠ .cache) :
      Books svc (.get key) [.passed, .miss reason, .issue, .upstream true]
  | joined (key : Key) (reason : CacheMissReason) (leader : Bool)
      (hp : (svc.policy key).mode = .cache) :
      Books svc (.get key) (.passed :: .miss reason :: if leader then [.lead] else [])
  | mget (keys : List Key) (l : List Booking) {n : Nat} (hl : Lookups l keys.length n) :
      Books svc (.mget keys) (l ++ if 0 < n then [.issue, .upstream false] else [])
  | flight (f : Nat) (key : Key) : Books svc (.flight f key) [.issue, .upstream true]

theorem booksOf_fetchUpstream (h : (fetchUpstream isGet keys).After l (.ret r)) :
    booksOf l = [.issue, .upstream isGet] := by
  obtain ⟨l₁, i, l₂, rfl, h₁, h⟩ := h.bind_ret
  obtain ⟨l₂, r', l₃, rfl, h₂, h⟩ := h.bind_ret
  obtain ⟨l₃, _, l₄, rfl, h₃, h⟩ := h.bind_ret
  rw [h₁.perform, h₂.perform, h₃.perform, h.ret.1]
  rfl

theorem booksOf_fetchUpstreamGet (h : (fetchUpstreamGet key).After l (.ret r)) :
    booksOf l = [.issue, .upstream true] := by
  obtain ⟨l₁, r', l₂, rfl, h₁, h⟩ := h.bind_ret
  rw [h.ret.1, List.append_nil]
  exact booksOf_fetchUpstream h₁

theorem booksOf_getAwait (h : (svc.getAwait key f deadline).After l (.ret r)) :
    booksOf l = [] := by
  obtain ⟨l₁, waited, l₂, rfl, h₁, h⟩ := h.bind_ret
  have hrest : booksOf l₂ = [] := by
    cases waited with
    | done e => rw [h.ret.1, booksOf_nil]
    | result r' shared =>
      refine booksOf_local (Prog.Uses.bind ?_ fun _ => ?_) h
      · exact uses_when ⟨trivial, fun _ => trivial⟩
      · cases r' with
        | error e => exact svc.local_getFallback key e
        | ok value => exact svc.local_observeCache.bind fun _ => trivial
  rw [h₁.perform, booksOf_append, hrest]
  rfl

theorem booksOf_getMissed {policy : Decision} (h : (svc.getMissed key policy).After l (.ret r)) :
    if policy.mode = .cache then ∃ leader : Bool, booksOf l = if leader then [.lead] else []
    else booksOf l = [.issue, .upstream true] := by
  obtain ⟨l₁, now, l₂, rfl, h₁, h⟩ := h.bind_ret
  rw [h₁.perform]
  split
  · rename_i hmode
    rw [if_pos hmode] at h
    obtain ⟨l₂, epoch, l₃, rfl, h₂, h⟩ := h.bind_ret
    obtain ⟨l₃, j, l₄, rfl, h₃, h⟩ := h.bind_ret
    refine ⟨j.leader, ?_⟩
    rw [h₂.perform, h₃.perform]
    simp only [booksOf_append, booksOf_cons, booksOf_nil, booksOf_getAwait h, List.append_nil]
    cases hj : j.leader with
    | true => simp only [Booking.of, hj]; rfl
    | false => simp only [Booking.of, hj]; rfl
  · rename_i hmode
    rw [if_neg hmode] at h
    obtain ⟨l₂, r', l₃, rfl, h₂, h⟩ := h.bind_ret
    have hrest : booksOf l₃ = [] := by
      refine booksOf_local (svc.local_observeCache.bind fun _ => ?_) h
      cases r' with
      | ok value => trivial
      | error e => trivial
    rw [booksOf_append, booksOf_append, booksOf_fetchUpstreamGet h₂, hrest]
    rfl

theorem books_get (h : (svc.get key).After l (.ret r)) : svc.Books (.get key) (booksOf l) := by
  rw [get] at h
  split at h
  · rw [h.ret.1]
    exact .refused key
  · obtain ⟨l₁, err, l₂, rfl, h₁, h⟩ := h.bind_ret
    rw [h₁.perform]
    cases err with
    | some e =>
      rw [h.ret.1]
      exact .refused key
    | none =>
      obtain ⟨l₂, state, l₃, rfl, h₂, h⟩ := h.bind_ret
      obtain ⟨l₃, item, l₄, rfl, h₃, h⟩ := h.bind_ret
      rw [booksOf_append, booksOf_append, booksOf_append,
        booksOf_local (svc.local_observeRead _ _) h₂,
        booksOf_local (svc.local_getCached _ _ _) h₃, List.nil_append, List.nil_append]
      cases item with
      | some item =>
        obtain ⟨l₄, _, l₅, rfl, h₄, h⟩ := h.bind_ret
        rw [h₄.perform, h.ret.1]
        exact .hit key
      | none =>
        obtain ⟨l₄, _, l₅, rfl, h₄, h⟩ := h.bind_ret
        rw [h₄.perform, booksOf_append]
        have hmissed := booksOf_getMissed h
        split at hmissed
        · rename_i hmode
          obtain ⟨leader, hmissed⟩ := hmissed
          rw [hmissed]
          exact .joined key (cacheMissReason (svc.policy key) state) leader hmode
        · rename_i hmode
          rw [hmissed]
          exact .bypassed key (cacheMissReason (svc.policy key) state) hmode

theorem lookups_mgetLocal {out out' : List Answer} {missing missing' : List MissingRead}
    (h : (svc.mgetLocal out missing position keys).After l (.ret (out', missing'))) :
    ∃ n, missing'.length = missing.length + n ∧ Lookups (booksOf l) keys.length n := by
  induction keys generalizing out missing position l with
  | nil =>
    obtain ⟨rfl, hr⟩ := h.ret
    cases hr
    exact ⟨0, rfl, rfl, nofun, rfl⟩
  | cons key keys ih =>
    obtain ⟨l₁, state, l₂, rfl, h₁, h⟩ := h.bind_ret
    obtain ⟨l₂, item, l₃, rfl, h₂, h⟩ := h.bind_ret
    rw [booksOf_append, booksOf_append, booksOf_local (svc.local_observeRead _ _) h₁,
      booksOf_local (svc.local_getCached _ _ _) h₂, List.nil_append, List.nil_append]
    cases item with
    | some item =>
      obtain ⟨l₃, _, l₄, rfl, h₃, h⟩ := h.bind_ret
      obtain ⟨n, hn, hlookups⟩ := ih h
      rw [h₃.perform]
      exact ⟨n, hn, hlookups.hit⟩
    | none =>
      obtain ⟨l₃, _, l₄, rfl, h₃, h⟩ := h.bind_ret
      rw [h₃.perform]
      -- Whatever epoch is noted with it, the key is appended to the reads that are left.
      have hstep : ∀ {l epoch}, (svc.mgetLocal out
          (missing ++ [⟨position, key, epoch, svc.policy key⟩]) (position + 1) keys).After l
            (.ret (out', missing')) →
          ∃ n, missing'.length = missing.length + (n + 1) ∧ Lookups (booksOf l) keys.length n := by
        intro l epoch h
        obtain ⟨n, hn, hlookups⟩ := ih h
        refine ⟨n, ?_, hlookups⟩
        rw [hn, List.length_append, List.length_singleton]
        omega
      obtain ⟨n, hn, hlookups⟩ : ∃ n, missing'.length = missing.length + (n + 1) ∧
          Lookups (booksOf l₄) keys.length n := by
        split at h
        · obtain ⟨l₄, epoch, l₅, rfl, h₄, h⟩ := h.bind_ret
          rw [h₄.perform, booksOf_append]
          exact hstep h
        · exact hstep h
      exact ⟨n + 1, hn, hlookups.miss _⟩

theorem booksOf_mgetMissing (h : (svc.mgetMissing out missing).After l (.ret r)) :
    booksOf l = [.issue, .upstream false] := by
  obtain ⟨l₁, r', l₂, rfl, h₁, h⟩ := h.bind_ret
  have hrest : booksOf l₂ = [] := by
    cases r' with
    | error e =>
      refine booksOf_local (uses_ite (Prog.Uses.bind ?_ fun _ => ?_) ?_) h
      · exact svc.local_mgetStale _ _ _
      · trivial
      · trivial
    | ok values =>
      refine booksOf_local ?_ h
      exact (svc.local_mgetStore _ _).bind fun _ => svc.local_observeCache.bind fun _ => trivial
  rw [booksOf_append, booksOf_fetchUpstream h₁, hrest, List.append_nil]

theorem books_mget (h : (svc.mget keys).After l (.ret r)) : svc.Books (.mget keys) (booksOf l) := by
  obtain ⟨l₁, ⟨out, missing⟩, l₂, rfl, h₁, h⟩ := h.bind_ret
  obtain ⟨n, hn, hlookups⟩ := lookups_mgetLocal h₁
  rw [List.length_nil, Nat.zero_add] at hn
  rw [booksOf_append]
  have hrest : booksOf l₂ = if 0 < n then [.issue, .upstream false] else [] := by
    cases missing with
    | nil =>
      rw [if_neg (by rw [← hn]; simp), h.ret.1, booksOf_nil]
    | cons x missing =>
      rw [if_pos (by rw [← hn]; simp)]
      exact booksOf_mgetMissing h
  rw [hrest]
  exact .mget keys (booksOf l₁) hlookups

theorem books_flight {policy : Decision} (h : (svc.flight key epoch policy f).After l (.ret ())) :
    ∃ books, booksOf l = .call (.flight f key) :: books ∧ svc.Books (.flight f key) books := by
  obtain ⟨l₁, _, l₂, rfl, h₁, h⟩ := h.bind_ret
  obtain ⟨l₂, r, l₃, rfl, h₂, h⟩ := h.bind_ret
  obtain ⟨l₃, _, l₄, rfl, h₃, h₄⟩ := h.bind_ret
  obtain ⟨l₂, r', l₅, rfl, h₂, h₅⟩ := h₂.bind_ret
  have hrest : booksOf l₅ = [] := by
    cases r' with
    | error e => rw [h₅.ret.1, booksOf_nil]
    | ok value =>
      refine booksOf_local (Prog.Uses.bind ?_ fun _ => ?_) h₅
      · exact svc.local_reconcileLocalIfCurrent _ _ _ _
      · trivial
  refine ⟨_, ?_, .flight f key⟩
  rw [h₁.perform, h₃.perform, h₄.perform]
  simp only [booksOf_append, booksOf_fetchUpstreamGet h₂, hrest]
  rfl

theorem Lookups.not_mem {l : List Booking} (h : Lookups l n m) {b : Booking} (hb : b ≠ .hit)
    (hb' : b.isMiss = false) : b ∉ l := by
  intro hm
  rcases h.each b hm with he | he
  · exact hb he
  · rw [hb'] at he
    cases he

theorem Lookups.total {l : List Booking} (h : Lookups l n m) : l.count .hit + m = n := by
  obtain ⟨rfl, hall, rfl⟩ := h
  induction l with
  | nil => rfl
  | cons b l ih =>
    obtain ⟨hb, hl⟩ := List.forall_mem_cons.1 hall
    have := ih hl
    rw [List.length_cons, List.count_cons, List.countP_cons]
    rcases hb with rfl | hb
    · simp [Booking.isMiss]
      omega
    · have hne : b ≠ .hit := by
        rintro rfl
        cases hb
      simp [hb, hne]
      omega

def asked : List Booking → Nat
  | .call (.get _) :: l => if .passed ∈ l then 1 else 0
  | .call (.mget keys) :: _ => keys.length
  | _ => 0

def getMisses : List Booking → Nat
  | .call (.get _) :: l => l.countP Booking.isMiss
  | _ => 0

def mgetMisses : List Booking → Bool
  | .call (.mget _) :: l => l.any Booking.isMiss
  | _ => false

def isFlight : List Booking → Bool
  | .call (.flight _ _) :: _ => true
  | _ => false

/-- What the books of a finished call add up to. -/
structure Sums (svc : Service) (l : List Booking) : Prop where
  asked : l.count .hit + l.countP Booking.isMiss = asked l
  gets : l.count (.upstream true) + l.count .lead ≤ getMisses l + if isFlight l then 1 else 0
  mgets : l.count (.upstream false) = if mgetMisses l then 1 else 0
  bypassed : ∀ key rest, l = .call (.get key) :: rest → (svc.policy key).mode ≠ .cache →
    l.count .issue = getMisses l
  batch : ∀ keys rest, l = .call (.mget keys) :: rest →
    l.count .issue = if mgetMisses l then 1 else 0

theorem Books.sums {l : List Booking} (h : svc.Books job l) : svc.Sums (.call job :: l) := by
  cases h with
  | refused key => exact ⟨rfl, Nat.le_refl _, rfl, fun _ _ _ _ => rfl, nofun⟩
  | hit key => exact ⟨rfl, Nat.le_refl _, rfl, fun _ _ _ _ => rfl, nofun⟩
  | bypassed key reason hp => exact ⟨rfl, Nat.le_refl _, rfl, fun _ _ _ _ => rfl, nofun⟩
  | joined key reason leader hp =>
    refine ⟨?_, ?_, ?_, ?_, nofun⟩
    · cases leader <;> rfl
    · cases leader <;> exact Nat.le_of_ble_eq_true rfl
    · cases leader <;> rfl
    · intro key' rest he hne
      cases he
      exact absurd hp hne
  | @mget keys l n hl =>
    have hany : l.any Booking.isMiss = decide (0 < n) := by
      rw [← hl.misses, Bool.eq_iff_iff, List.any_eq_true, decide_eq_true_eq, List.countP_pos_iff]
    have hgets : l.count (.upstream true) = 0 := List.count_eq_zero.2 (hl.not_mem nofun rfl)
    have hmgets : l.count (.upstream false) = 0 := List.count_eq_zero.2 (hl.not_mem nofun rfl)
    have hleads : l.count .lead = 0 := List.count_eq_zero.2 (hl.not_mem nofun rfl)
    have hissues : l.count .issue = 0 := List.count_eq_zero.2 (hl.not_mem nofun rfl)
    have htotal := hl.total
    have hmisses := hl.misses
    refine ⟨?_, ?_, ?_, nofun, ?_⟩
    · split <;> simp [asked, Booking.isMiss, hmisses, htotal]
    · split <;> simp [getMisses, isFlight, hgets, hleads]
    · split <;> simp [mgetMisses, Booking.isMiss, *]
    · intro _ _ _
      split <;> simp [mgetMisses, Booking.isMiss, *]
  | flight f key => exact ⟨rfl, Nat.le_refl _, rfl, nofun, nofun⟩

def reads (svc : Service) : svc.machine.Rules where
  entry := fun p => (∃ key, p = svc.call (.get key)) ∨ ∃ keys, p = svc.call (.mget keys)
  allow := fun _ _ _ => True
  external := fun _ _ => True

def threadBooks (tr : List svc.machine.Event) (t : Nat) : List Booking := booksOf (threadActs tr t)

theorem books_call (h : (svc.call job).After l (.ret ()))
    (hp : ∀ {l r}, (svc.perform job).After l (.ret r) → svc.Books job (booksOf l)) :
    ∃ books, booksOf l = .call job :: books ∧ svc.Books job books := by
  obtain ⟨l₁, _, l₂, rfl, h₁, h⟩ := h.bind_ret
  obtain ⟨l₂, r, l₃, rfl, h₂, h₃⟩ := h.bind_ret
  refine ⟨booksOf l₂, ?_, hp h₂⟩
  rw [h₁.perform, h₃.perform]
  simp [Booking.of]

theorem books_thread {tr : List svc.machine.Event} {g : svc.machine.Config}
    (h : Threads svc.reads tr begun g) (hq : g.Quiescent) (ht : t < g.pool.length) :
    ∃ forked p job books, begun[t]? = some (forked, p) ∧
      threadBooks tr t = .call job :: books ∧ svc.Books job books ∧
      isFlight (threadBooks tr t) = forked := by
  obtain ⟨x, hx⟩ := hq.ret ht
  obtain ⟨⟨forked, p⟩, hp, hafter⟩ := h.after t _ hx
  have hmem := List.mem_of_getElem? hp
  cases forked with
  | false =>
    rcases h.entry p hmem with ⟨key, rfl⟩ | ⟨keys, rfl⟩
    · obtain ⟨books, hb, hbooks⟩ := books_call hafter fun h => by
        obtain ⟨l₁, r, l₂, rfl, h₁, h₂⟩ := h.bind_ret
        rw [h₂.ret.1, List.append_nil]
        exact books_get h₁
      have hb : threadBooks tr t = .call (.get key) :: books := hb
      exact ⟨false, _, _, books, hp, hb, hbooks, by rw [hb]; rfl⟩
    · obtain ⟨books, hb, hbooks⟩ := books_call hafter fun h => by
        obtain ⟨l₁, r, l₂, rfl, h₁, h₂⟩ := h.bind_ret
        rw [h₂.ret.1, List.append_nil]
        exact books_mget h₁
      have hb : threadBooks tr t = .call (.mget keys) :: books := hb
      exact ⟨false, _, _, books, hp, hb, hbooks, by rw [hb]; rfl⟩
  | true =>
    obtain ⟨e, -, he⟩ := h.fork hmem
    obtain ⟨key, epoch, policy, f, rfl⟩ := fork_flight he
    obtain ⟨books, hb, hbooks⟩ := books_flight hafter
    have hb : threadBooks tr t = .call (.flight f key) :: books := hb
    exact ⟨true, _, _, books, hp, hb, hbooks, by rw [hb]; rfl⟩

structure Recorded (r : Recorder) (l : List Booking) : Prop where
  hits : r.cacheHits = l.count .hit
  misses : r.cacheMisses = l.countP Booking.isMiss
  reasons : ∀ reason, r.cacheMissesByReason reason = l.count (.miss reason)
  gets : r.upstreamGets = l.count (.upstream true)
  reqs : r.upstreamReqs = l.count (.upstream true) + l.count (.upstream false)

theorem Recorded.same {l l' : List Booking} (h : Recorded r l)
    (hl : ∀ b ∈ l', b ≠ .hit ∧ b.isMiss = false ∧ ∀ isGet, b ≠ .upstream isGet) :
    Recorded r (l ++ l') := by
  have hzero : ∀ b, b = .hit ∨ b.isMiss = true ∨ (∃ isGet, b = .upstream isGet) →
      l'.count b = 0 := by
    intro b hb
    rw [List.count_eq_zero]
    intro hm
    obtain ⟨h₁, h₂, h₃⟩ := hl b hm
    rcases hb with hb | hb | ⟨isGet, hb⟩
    · exact h₁ hb
    · rw [h₂] at hb
      cases hb
    · exact h₃ isGet hb
  have hmiss : l'.countP Booking.isMiss = 0 := by
    rw [List.countP_eq_zero]
    intro b hb
    rw [(hl b hb).2.1]
    exact Bool.false_ne_true
  constructor
  · rw [List.count_append, hzero _ (.inl rfl), h.hits, Nat.add_zero]
  · rw [List.countP_append, hmiss, h.misses, Nat.add_zero]
  · intro reason
    rw [List.count_append, hzero _ (.inr (.inl rfl)), h.reasons, Nat.add_zero]
  · rw [List.count_append, hzero _ (.inr (.inr ⟨_, rfl⟩)), h.gets, Nat.add_zero]
  · rw [List.count_append, List.count_append, hzero _ (.inr (.inr ⟨_, rfl⟩)),
      hzero _ (.inr (.inr ⟨_, rfl⟩)), h.reqs, Nat.add_zero, Nat.add_zero]

theorem Recorded.record {l : List Booking} (h : Recorded r l) (m : Metric) :
    Recorded (r.record m) (l ++ booksOf [⟨.record m, ()⟩]) := by
  obtain ⟨h₁, h₂, h₃, h₄, h₅⟩ := h
  cases m with
  | cacheHit => constructor <;> simp [Recorder.record, Booking.of, Booking.isMiss, *]
  | cacheMissWithReason reason =>
    constructor
    case reasons =>
      intro x
      by_cases hx : x = reason
      · simp [Recorder.record, Booking.of, hx, h₃]
      · simp [Recorder.record, Booking.of, hx, h₃, Ne.symm hx]
    all_goals simp [Recorder.record, Booking.of, Booking.isMiss, *]
  | observeUpstream isGet failed =>
    constructor
    case reqs =>
      cases isGet
      · simp [Recorder.record, Booking.of, h₅]
        omega
      · simp [Recorder.record, Booking.of, h₅]
        omega
    all_goals cases isGet <;> simp [Recorder.record, Booking.of, Booking.isMiss, *]
  | _ => constructor <;> simp [Recorder.record, Booking.of, *]

theorem Recorded.exec {l : List Booking} (h : Recorded s.recorder l)
    (he : World.exec t a c s = some (b, s')) : Recorded s'.recorder (l ++ booksOf [⟨a, b⟩]) := by
  by_cases hm : ∃ m, a = .record m
  · obtain ⟨m, rfl⟩ := hm
    rw [World.exec_record he]
    exact h.record m
  · obtain ⟨s₁, hs, rfl⟩ := World.exec_eq_some.1 he
    have hm : ∀ m, a ≠ .record m := fun m ha => hm ⟨m, ha⟩
    rw [show ({ s₁ with past := Past.record s₁ t a b } : World).recorder = s.recorder from
      (World.step_frame hs).recorder hm]
    apply h.same
    intro x hx
    rw [booksOf_cons, booksOf_nil, List.append_nil, Option.mem_toList] at hx
    exact Booking.of_unrecorded hm hx

def runBooks (tr : List svc.machine.Event) : List Booking :=
  tr.filterMap fun e => Booking.of ⟨e.action, e.answer⟩

theorem runBooks_concat (tr : List svc.machine.Event) (e : svc.machine.Event) :
    runBooks (tr ++ [e]) = runBooks tr ++ booksOf [⟨e.action, e.answer⟩] :=
  List.filterMap_append

theorem runBooks_cons (e : svc.machine.Event) (tr : List svc.machine.Event) :
    runBooks (e :: tr) = (Booking.of ⟨e.action, e.answer⟩).toList ++ runBooks tr := by
  rw [runBooks, List.filterMap_cons]
  cases Booking.of ⟨e.action, e.answer⟩ <;> rfl

theorem recorded_trail {P : svc.machine.Rules} {tr : List svc.machine.Event}
    (h : Trail P ⟨svc.init content, p⟩ tr g) : Recorded g.state.recorder (runBooks tr) := by
  apply h.invariant (J := fun tr (s : World) => Recorded s.recorder (runBooks tr))
  · exact ⟨rfl, rfl, fun _ => rfl, rfl, rfl⟩
  · intro tr g t a k c b s _ _ hr he
    rw [runBooks_concat]
    exact hr.exec he
  · intro tr e s s' hr he
    rw [World.env_eq he]
    exact hr

theorem countP_threadBooks {tr : List svc.machine.Event} (q : Booking → Bool)
    (h : ∀ e ∈ tr, e.thread < n) :
    (runBooks tr).countP q = ∑ t ∈ Finset.range n, (threadBooks tr t).countP q := by
  have hrun : (runBooks tr).countP q =
      (tr.map fun e => (Booking.of e.act).toList.countP q).sum := by
    clear h
    induction tr with
    | nil => rfl
    | cons e tr ih => rw [runBooks_cons, List.countP_append, ih]; rfl
  have hthread : ∀ l, (booksOf l).countP q =
      (l.map fun x => (Booking.of x).toList.countP q).sum := by
    intro l
    induction l with
    | nil => rfl
    | cons x l ih => rw [booksOf_cons, List.countP_append, ih, List.map_cons, List.sum_cons]
  rw [hrun, sum_acts (fun x => (Booking.of x).toList.countP q) h]
  exact Finset.sum_congr rfl fun t _ => (hthread _).symm

theorem length_fork {a : Action} (b : a.Resp) :
    (svc.fork a b).toList.length = (Booking.of ⟨a, b⟩).toList.count .lead := by
  cases a with
  | record m => cases m <;> rfl
  | note n => cases n <;> rfl
  | ctxErr => cases b <;> rfl
  | upstream op => cases op <;> rfl
  | group op =>
    cases op with
    | doChan key epoch policy =>
      simp only [fork, Booking.of]
      split <;> rfl
    | _ => rfl
  | _ => rfl

theorem count_lead {tr : List svc.machine.Event} :
    (tr.filterMap fun e => svc.machine.fork e.action e.answer).length =
      (runBooks tr).count .lead := by
  induction tr with
  | nil => rfl
  | cons e tr ih =>
    have hfork : (svc.machine.fork e.action e.answer).toList.length =
        (Booking.of ⟨e.action, e.answer⟩).toList.count .lead := length_fork (a := e.action) e.answer
    rw [runBooks_cons, List.count_append, ← ih, ← hfork, List.filterMap_cons]
    cases svc.machine.fork e.action e.answer with
    | none => simp
    | some p => simp [Nat.add_comm]

theorem countP_isMiss (l : List Booking) : l.countP Booking.isMiss =
    l.count (.miss .unclassified) + l.count (.miss .policyBypass) +
      l.count (.miss .notAdmitted) + l.count (.miss .notPresent) := by
  induction l with
  | nil => rfl
  | cons b l ih =>
    rw [List.countP_cons, ih]
    cases b with
    | miss reason =>
      cases reason <;> simp [Booking.isMiss] <;> omega
    | _ => simp [Booking.isMiss]

/-- Request accounting is conserved: once the calls and flights of any run of reads have finished,
the recorder's totals are those of the calls, whatever was cancelled or failed upstream. -/
theorem request_accounting {tr : List svc.machine.Event}
    (h : Trail svc.reads ⟨svc.init content, []⟩ tr g) (hq : g.Quiescent) :
    let r := g.state.recorder
    let books := threadBooks tr
    let threads := Finset.range g.pool.length
    (∀ t ∈ threads, ∃ job rest, books t = .call job :: rest) ∧
      r.cacheHits + r.cacheMisses = ∑ t ∈ threads, asked (books t) ∧
      r.cacheMisses = r.cacheMissesByReason .unclassified + r.cacheMissesByReason .policyBypass +
        r.cacheMissesByReason .notAdmitted + r.cacheMissesByReason .notPresent ∧
      r.upstreamGets ≤ ∑ t ∈ threads, getMisses (books t) ∧
      (∀ t ∈ threads, ∀ key rest, books t = .call (.get key) :: rest →
        (svc.policy key).mode ≠ .cache → (books t).count .issue = getMisses (books t)) ∧
      r.upstreamReqs = r.upstreamGets + ∑ t ∈ threads, (if mgetMisses (books t) then 1 else 0) ∧
      ∀ t ∈ threads, ∀ keys rest, books t = .call (.mget keys) :: rest →
        (books t).count .issue = if mgetMisses (books t) then 1 else 0 := by
  intro r books threads
  obtain ⟨begun, hthreads⟩ := h.threads
  have hr := recorded_trail h
  have hbooks : ∀ t ∈ threads, ∃ job rest, books t = .call job :: rest ∧ svc.Books job rest ∧
      isFlight (books t) = (begun[t]?.map Prod.fst).getD false := by
    intro t ht
    obtain ⟨forked, p, job, rest, hb, ht, hrest, hf⟩ :=
      books_thread hthreads hq (Finset.mem_range.1 ht)
    exact ⟨job, rest, ht, hrest, by rw [hb]; exact hf⟩
  have hsums : ∀ t ∈ threads, svc.Sums (books t) := by
    intro t ht
    obtain ⟨job, rest, hb, hrest, -⟩ := hbooks t ht
    rw [hb]
    exact hrest.sums
  have htotal : ∀ b, (runBooks tr).count b = ∑ t ∈ threads, (books t).count b :=
    fun b => countP_threadBooks _ hthreads.thread
  have hmisses := countP_threadBooks Booking.isMiss hthreads.thread
  have hflights : ∑ t ∈ threads, (if isFlight (books t) then 1 else 0) =
      ∑ t ∈ threads, (books t).count .lead := by
    rw [← htotal, ← count_lead, ← hthreads.sum_forked]
    refine Finset.sum_congr rfl fun t ht => ?_
    obtain ⟨-, -, -, -, hf⟩ := hbooks t ht
    rw [hf]
  refine ⟨?_, ?_, ?_, ?_, ?_, ?_, ?_⟩
  · intro t ht
    obtain ⟨job, rest, hb, -⟩ := hbooks t ht
    exact ⟨job, rest, hb⟩
  · rw [hr.hits, hr.misses, htotal, hmisses, ← Finset.sum_add_distrib]
    exact Finset.sum_congr rfl fun t ht => (hsums t ht).asked
  · rw [hr.misses, hr.reasons, hr.reasons, hr.reasons, hr.reasons]
    exact countP_isMiss _
  · -- Each flight has one leader, whose miss pays for the upstream read of the flight.
    have hle := Finset.sum_le_sum fun t ht => (hsums t ht).gets
    rw [Finset.sum_add_distrib, Finset.sum_add_distrib, hflights, ← htotal] at hle
    rw [hr.gets]
    exact Nat.le_of_add_le_add_right hle
  · exact fun t ht => (hsums t ht).bypassed
  · rw [hr.reqs, hr.gets, htotal (.upstream false)]
    exact congrArg _ (Finset.sum_congr rfl fun t ht => (hsums t ht).mgets)
  · exact fun t ht => (hsums t ht).batch

def sampleReads : sample.machine.Config :=
  (sampleRead.spawn (sample.call (.mget [[7], [8], [9]]))).drive pick 2 300

theorem request_accounting_sample : ∃ tr : List sample.machine.Event,
    sampleReads.state.recorder.cacheHits = 1 ∧ sampleReads.state.recorder.cacheMisses = 3 ∧
      sampleReads.state.recorder.cacheHits + sampleReads.state.recorder.cacheMisses =
        ∑ t ∈ Finset.range 3, asked (threadBooks tr t) := by
  have hallow : ∀ t a s, sample.reads.allow t a s := fun _ _ _ => trivial
  have hget : Reach sample.reads sampleStart (sampleStart.spawn (sample.call (.get [7]))) :=
    .step (.spawn _) .refl (.inl ⟨[7], rfl⟩) rfl
  have hread : Reach sample.reads sampleStart sampleRead :=
    ((hget.drive hallow pick 0 100).drive hallow pick 1 100).drive hallow pick 0 100
  have hmget : Reach sample.reads sampleStart
      (sampleRead.spawn (sample.call (.mget [[7], [8], [9]]))) :=
    .step (.spawn _) hread (.inr ⟨_, rfl⟩) rfl
  obtain ⟨tr, htr⟩ := (hmget.drive hallow pick 2 300).trail
  have hq : sampleReads.Quiescent := by decide +kernel
  refine ⟨tr, by decide +kernel, by decide +kernel, ?_⟩
  rw [← show sampleReads.pool.length = 3 by decide +kernel]
  exact (request_accounting htr hq).2.1

end Service
end Slizen
