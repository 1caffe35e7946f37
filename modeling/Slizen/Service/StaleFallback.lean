import Slizen.Service.Batch
import Slizen.Service.Telemetry

namespace Slizen.Fallback
set_option autoImplicit true

open Interleaving Machine

open Service (threadActs Finished)

/-- The end of a failed upstream read, or of the wait for it. -/
def Fails : (Σ a, Action.Resp a) → Prop
  | ⟨.group (.wait _ _), .done _⟩ => True
  | ⟨.group (.wait _ _), .result (.error _) _⟩ => True
  | ⟨.upstream (.answer _ _), .error _⟩ => True
  | _ => False

/-- The failure has come as a reply: a `select` has not taken the end of the read context. -/
def Heard : (Σ a, Action.Resp a) → Prop
  | ⟨.group (.wait _ _), .done _⟩ => False
  | _ => True

def Calm : Action → Prop
  | .group (.wait _ _) => False
  | .upstream (.answer _ _) => False
  | _ => True

theorem Calm.not_fails {a : Action} (h : Calm a) (b : a.Resp) : ¬ Fails ⟨a, b⟩ := by
  cases a with
  | group op => cases op <;> first | exact h.elim | exact id
  | upstream op => cases op <;> first | exact h.elim | exact id
  | _ => exact id

theorem calm_of_local {a : Action} (h : a.Local) : Calm a := by
  cases a with
  | group op => exact h.elim
  | upstream op => exact h.elim
  | _ => trivial

variable {svc : Service} {k : Key} {x : Σ a, Action.Resp a} {l l₁ l₂ : List (Σ a, Action.Resp a)}

theorem not_fails_mem {p q : Run α} (hp : p.Uses Calm) (h : p.After l q) (hx : Fails x) : x ∉ l :=
  fun hmem => (h.uses hp x hmem).not_fails x.2 hx

theorem skip {p : Run α} {f : α → Run β} (hp : p.Uses Calm)
    (h : (p >>= f).After (l₁ ++ x :: l₂) (.ret r)) (hx : Fails x) :
    ∃ y l₁', (f y).After (l₁' ++ x :: l₂) (.ret r) := by
  obtain ⟨m₁, y, m₂, heq, h₁, h₂⟩ := h.bind_ret
  rcases List.append_eq_append_iff.1 heq with ⟨rest, rfl, hrest⟩ | ⟨rest, rfl, rfl⟩
  · cases rest with
    | nil =>
      rw [List.nil_append] at hrest
      exact ⟨y, [], hrest ▸ h₂⟩
    | cons z rest =>
      obtain ⟨rfl, -⟩ := List.cons.inj hrest
      exact absurd (List.mem_append_right _ List.mem_cons_self) (not_fails_mem hp h₁ hx)
  · exact ⟨y, rest, h₂⟩

theorem skip_local {p : Run α} {f : α → Run β} (hp : p.Uses Action.Local)
    (h : (p >>= f).After (l₁ ++ x :: l₂) (.ret r)) (hx : Fails x) :
    ∃ y l₁', (f y).After (l₁' ++ x :: l₂) (.ret r) :=
  skip (hp.mono fun _ => calm_of_local) h hx

theorem skip_do {a : Action} {f : a.Resp → Run β} (ha : Calm a)
    (h : (Run.do a >>= f).After (l₁ ++ x :: l₂) (.ret r)) (hx : Fails x) :
    ∃ y l₁', (f y).After (l₁' ++ x :: l₂) (.ret r) :=
  skip (p := Run.do a) (And.intro ha fun _ => trivial) h hx

theorem at_failure {a : Action} {f : a.Resp → Run β} {C : Prop}
    (h : (Run.do a >>= f).After (l₁ ++ x :: l₂) (.ret r)) (hx : Fails x)
    (hf : ∀ b, (f b).Uses Calm) (hC : ∀ b, x = ⟨a, b⟩ → (f b).After l₂ (.ret r) → C) : C := by
  rcases Prog.After.act h with ⟨hnil, -⟩ | ⟨b, l, heq, hrest⟩
  · cases (List.append_eq_nil_iff.1 hnil).2
  · cases l₁ with
    | nil =>
      obtain ⟨rfl, rfl⟩ := List.cons.inj heq
      exact hC b rfl hrest
    | cons y l₁ =>
      obtain ⟨-, rfl⟩ := List.cons.inj heq
      exact absurd (List.mem_append_right _ List.mem_cons_self) (not_fails_mem (hf b) hrest hx)

abbrev lookup (svc : Service) (k : Key) : Action :=
  .cache .cache (.getStale k svc.cfg.cache.staleGrace)

/-- How a read of one key ends from its failure on: it gives up at the end of its read context, or
it looks for a retained value and answers with what it finds. -/
inductive Ends (svc : Service) (k : Key) (job : Job) (reply : Reply) :
    (Σ a, Action.Resp a) → List (Σ a, Action.Resp a) → Prop
  | left {f : Nat} {deadline : Time} {e : Error} (hreply : reply = .get (.error e)) :
      Ends svc k job reply ⟨.group (.wait f deadline), .done e⟩ []
  | asked {x : Σ a, Action.Resp a} {item : Option EntrySnapshot} (metrics : List Metric)
      (hx : Heard x)
      (hanswers : job.answers reply = item.toList.map fun item => (k, ⟨item.toValue, .tier⟩)) :
      Ends svc k job reply x (metrics.map (fun m => ⟨.record m, ()⟩) ++ [⟨lookup svc k, item⟩])

/-- The policy lets the key be cached, and values are retained for a while. -/
structure Retaining (svc : Service) (k : Key) : Prop where
  allowed : svc.cfg.cache.allowStaleOnUpstreamError = true
  grace : 0 < svc.cfg.cache.staleGrace
  mode : (svc.policy k).mode = .cache

section

variable (hr : Retaining svc k)
include hr

theorem ends_getFallback {e : Error} (metrics : List Metric) (hx : Heard x)
    (h : (svc.getFallback k e).After l (.ret r)) :
    Ends svc k (.get k) (.get r) x (metrics.map (fun m => ⟨.record m, ()⟩) ++ l) := by
  rw [Service.getFallback, if_pos hr.allowed] at h
  obtain ⟨m₁, item, m₂, rfl, h₁, h₂⟩ := h.bind_ret
  rw [h₁.perform]
  cases item with
  | none =>
    obtain ⟨rfl, hret⟩ := h₂.ret
    cases hret
    exact .asked metrics hx rfl
  | some item =>
    obtain ⟨rfl, hret⟩ := h₂.ret
    cases hret
    exact .asked metrics hx rfl

theorem ends_getAwait {f : Nat} {deadline : Time}
    (h : (svc.getAwait k f deadline).After (l₁ ++ x :: l₂) (.ret r)) (hx : Fails x) :
    Ends svc k (.get k) (.get r) x l₂ := by
  have hcoalesced {shared : Bool} : (Run.when shared (Service.record .coalesced)).Uses Calm :=
    Service.uses_when ⟨trivial, fun _ => trivial⟩
  refine at_failure h hx (fun waited => ?_) fun waited heq hrest => ?_
  · cases waited with
    | done e => trivial
    | result result shared =>
      apply hcoalesced.bind
      intro _
      cases result with
      | error e => exact (svc.local_getFallback k e).mono fun _ => calm_of_local
      | ok value => exact (svc.local_observeCache.mono fun _ => calm_of_local).bind fun _ => trivial
  · subst heq
    cases waited with
    | done e =>
      obtain ⟨rfl, hret⟩ := hrest.ret
      cases hret
      exact .left rfl
    | result result shared =>
      cases result with
      | ok value => exact hx.elim
      | error e =>
        obtain ⟨m₁, _, m₂, rfl, h₁, h₂⟩ := hrest.bind_ret
        cases shared with
        | false =>
          obtain ⟨rfl, -⟩ := h₁.ret
          exact ends_getFallback hr [] trivial h₂
        | true =>
          rw [Prog.After.perform h₁]
          exact ends_getFallback hr [.coalesced] trivial h₂

theorem ends_get (h : (svc.get k).After (l₁ ++ x :: l₂) (.ret r)) (hx : Fails x) :
    Ends svc k (.get k) (.get r) x l₂ := by
  rw [Service.get] at h
  split at h
  · cases (List.append_eq_nil_iff.1 h.ret.1).2
  · obtain ⟨err, _, h⟩ := skip_do (a := .ctxErr) trivial h hx
    cases err with
    | some e => cases (List.append_eq_nil_iff.1 h.ret.1).2
    | none =>
      obtain ⟨state, _, h⟩ := skip_local (svc.local_observeRead _ _) h hx
      obtain ⟨item, _, h⟩ := skip_local (svc.local_getCached _ _ _) h hx
      cases item with
      | some item =>
        obtain ⟨_, _, h⟩ := skip_do (a := .record .cacheHit) trivial h hx
        cases (List.append_eq_nil_iff.1 h.ret.1).2
      | none =>
        obtain ⟨_, _, h⟩ := skip_do (a := .record _) trivial h hx
        obtain ⟨now, _, h⟩ := skip_do (a := .now) trivial h hx
        rw [if_pos hr.mode] at h
        obtain ⟨epoch, _, h⟩ := skip_do (a := .stripe _ .epochLoad) trivial h hx
        obtain ⟨j, _, h⟩ := skip_do (a := .group (.doChan _ _ _)) trivial h hx
        exact ends_getAwait hr h hx

theorem ends_mgetMissing {epoch : Nat} (h : (svc.mgetMissing [Service.zeroAnswer]
      [⟨0, k, epoch, svc.policy k⟩]).After (l₁ ++ x :: l₂) (.ret r)) (hx : Fails x) :
    Ends svc k (.mget [k]) (.mget r) x l₂ := by
  obtain ⟨i, _, h⟩ := skip_do (a := .upstream (.issue [k])) trivial h hx
  refine at_failure (a := .upstream (.answer i [k])) h hx (fun reply => ?_)
    fun reply heq hrest => ?_
  · refine ⟨trivial, fun _ => ?_⟩
    cases reply with
    | error e =>
      apply Service.uses_ite
      · exact ((svc.local_mgetStale _ _ _).mono fun _ => calm_of_local).bind fun _ => trivial
      · trivial
    | ok values =>
      apply ((svc.local_mgetStore _ _).mono fun _ => calm_of_local).bind
      intro _
      exact (svc.local_observeCache.mono fun _ => calm_of_local).bind fun _ => trivial
  · subst heq
    cases reply with
    | ok values => exact hx.elim
    | error e =>
      obtain ⟨m₁, _, m₂, rfl, h₁, h₂⟩ :=
        Prog.After.bind_ret (p := Run.do (.record (.observeUpstream false true))) hrest
      dsimp only at h₂
      rw [if_pos hr.allowed, Service.mgetStale, if_pos hr.mode, Prog.bind_assoc] at h₂
      obtain ⟨m₂, item, m₃, rfl, h₃, h₄⟩ := h₂.bind_ret
      rw [h₁.perform, h₃.perform]
      cases item with
      | none =>
        obtain ⟨rfl, hret⟩ := Prog.After.ret h₄
        cases hret
        exact .asked [_] trivial rfl
      | some item =>
        obtain ⟨rfl, hret⟩ := Prog.After.ret h₄
        cases hret
        exact .asked [_] trivial rfl

theorem ends_mget (h : (svc.mget [k]).After (l₁ ++ x :: l₂) (.ret r)) (hx : Fails x) :
    Ends svc k (.mget [k]) (.mget r) x l₂ := by
  rw [Service.mget, Service.mgetLocal] at h
  simp only [Prog.bind_assoc] at h
  obtain ⟨state, _, h⟩ := skip_local (svc.local_observeRead _ _) h hx
  obtain ⟨item, _, h⟩ := skip_local (svc.local_getCached _ _ _) h hx
  cases item with
  | some item =>
    obtain ⟨_, _, h⟩ := skip_do (a := .record .cacheHit) trivial h hx
    cases (List.append_eq_nil_iff.1 (Prog.After.ret h).1).2
  | none =>
    obtain ⟨_, _, h⟩ := skip_do (a := .record _) trivial h hx
    rw [if_pos hr.mode] at h
    obtain ⟨epoch, _, h⟩ := skip_do (a := .stripe _ .epochLoad) trivial h hx
    exact ends_mgetMissing hr h hx

theorem ends_perform (hjob : job = .get k ∨ job = .mget [k])
    (h : (svc.perform job).After (l₁ ++ x :: l₂) (.ret reply)) (hx : Fails x) :
    Ends svc k job reply x l₂ := by
  rcases hjob with rfl | rfl
  all_goals
    obtain ⟨m₁, r, m₂, heq, h₁, h₂⟩ := Prog.After.bind_ret h
    obtain ⟨rfl, hret⟩ := Prog.After.ret h₂
    cases hret
    rw [List.append_nil] at heq
    subst heq
  · exact ends_get hr h₁ hx
  · exact ends_mget hr h₁ hx

end

theorem Fails.not_note {n : Note} {b : Action.Resp (.note n)} (hx : Fails x) :
    x ≠ ⟨.note n, b⟩ := by
  rintro rfl
  exact hx

theorem Fails.not_cache {op : CacheOp} (hx : Fails x) : x.1 ≠ .cache tier op := by
  obtain ⟨a, b⟩ := x
  rintro rfl
  exact hx

theorem ends_of_finished {past later : List svc.machine.Event} {x : svc.machine.Event}
    (hr : Retaining svc k) (hjob : job = .get k ∨ job = .mget [k])
    (h : Trail (svc.calls direct) ⟨svc.init content, []⟩ (past ++ x :: later) g)
    (hf : Finished (past ++ x :: later) x.thread job reply) (hx : Fails x.act) :
    ∃ l, Ends svc k job reply x.act l ∧
      threadActs later x.thread = l ++ [⟨.note (.finish reply), ()⟩] := by
  have hflight : ∀ f key, job ≠ .flight f key := by
    rintro f key rfl
    simp at hjob
  have hclose : job ≠ .close := by
    rintro rfl
    simp at hjob
  obtain ⟨l₁, l₂, hl, hlater⟩ := hf.around h hflight
    (Service.inner_of_ordinary (Service.ordinary_perform hclose)) rfl fun _ _ => hx.not_note
  exact ⟨l₂, ends_perform hr hjob hl hx, hlater⟩

theorem getStale_within {c : Cache} {e : Entry} (hf : c.find k = some e) (hgrace : 0 < grace)
    (hnow : now < e.expiresAt + grace) :
    ∃ item, (c.getStale k grace now).1 = some item ∧ item.value = e.value := by
  have hlimit : e.expiryLimit grace true = e.expiresAt + grace := if_pos ⟨rfl, hgrace⟩
  rw [Cache.getStale, Cache.getLocked, hf]
  dsimp only
  rw [hlimit, if_neg (not_not.2 hnow)]
  exact ⟨_, rfl, rfl⟩

/-- The protected tier holds this entry of the key, which has expired and is within the grace. -/
structure Within (svc : Service) (k : Key) (e : Entry) (s : World) : Prop where
  found : s.find .cache k = some e
  expired : e.expiresAt ≤ s.clock
  grace : s.clock < e.expiresAt + svc.cfg.cache.staleGrace

/-- The call of a goroutine learns in this event that its upstream read of the key does not succeed,
while the context of its caller lives on and the entry of the key is within the grace. -/
structure Detected (svc : Service) (k : Key) (t : Nat) (x : svc.machine.Event) (e : Entry) :
    Prop where
  thread : x.thread = t
  fails : Fails x.act
  live : World.contexts x.before t = none
  within : Within svc k e x.before

def Looks (svc : Service) (k : Key) (t : Nat) (y : svc.machine.Event) : Prop :=
  y.thread = t ∧ y.action = lookup svc k

def Kept (svc : Service) (k : Key) (e : Entry) (s : World) : Prop :=
  ∃ e', s.find .cache k = some e' ∧ e'.value = e.value ∧
    s.clock < e'.expiresAt + svc.cfg.cache.staleGrace

def Returns (k : Key) (e : Entry) (job : Job) (reply : Reply) : Prop :=
  ∃ answer, job.answers reply = [(k, answer)] ∧ answer.value.exists? = true ∧
    answer.value.data = e.value

theorem kept_iff (grace : 0 < svc.cfg.cache.staleGrace) {item : Option EntrySnapshot}
    (he : World.exec t (lookup svc k) c s = some (item, s')) :
    Kept svc k e s ↔ ∃ y, item = some y ∧ y.value = e.value := by
  have hitem : item = ((s.tiers .cache).getStale k svc.cfg.cache.staleGrace s.clock).1 :=
    (World.exec_cache he).1
  constructor
  · rintro ⟨e', hf, hvalue, hnow⟩
    obtain ⟨y, hy, hyvalue⟩ := getStale_within hf grace hnow
    exact ⟨y, hitem.trans hy, hyvalue.trans hvalue⟩
  · rintro ⟨y, rfl, hvalue⟩
    obtain ⟨e', hf, rfl, hnow⟩ := Cache.getLocked_hit hitem.symm
    have hlimit : e'.expiryLimit svc.cfg.cache.staleGrace true = _ := if_pos ⟨rfl, grace⟩
    rw [hlimit] at hnow
    exact ⟨e', hf, hvalue, hnow⟩

theorem find_exec {a : Action} {b : a.Resp} (he : World.exec t a c s = some (b, s'))
    (hno : ∀ op, a ≠ .cache .cache op) : s'.find .cache k = s.find .cache k := by
  cases a with
  | cache tier op =>
    obtain ⟨-, rfl⟩ := World.exec_cache he
    have hne : Tier.cache ≠ tier := by
      rintro rfl
      exact hno op rfl
    show (Function.update s.tiers tier _ .cache).find k = _
    rw [Function.update_of_ne hne]
  | _ =>
    obtain ⟨s₁, hs, rfl⟩ := World.exec_eq_some.1 he
    exact congrArg (fun tiers => (tiers .cache).find k) ((World.step_frame hs).tiers (by simp))

theorem find_undisturbed {g₀ : svc.machine.Config} {tr : List svc.machine.Event}
    (h : Trail P g₀ tr g) (hno : ∀ z ∈ tr, ∀ op, z.action ≠ .cache .cache op) :
    World.find g.state .cache k = World.find g₀.state .cache k := by
  induction h with
  | nil => rfl
  | run _ _ _ he ih =>
    obtain ⟨htr, hlast⟩ := List.forall_mem_append.1 hno
    rw [← ih htr]
    exact find_exec he (hlast _ (List.mem_singleton_self _))
  | spawn _ _ ih => exact ih hno
  | env _ _ he ih =>
    rw [← ih hno, World.env_eq he]

theorem done_of_live {err : Error}
    (he : World.exec t (.group (.wait f deadline)) c s = some (.done err, s'))
    (hlive : s.contexts t = none) : err = .deadlineExceeded := by
  obtain ⟨s₁, hs, -⟩ := World.exec_group he
  obtain ⟨-, ⟨err', hw, hdone⟩ | ⟨_, _, _, _, hw⟩⟩ := World.stepGroup_wait hs
  · cases hw
    rw [World.doneErr, hlive] at hdone
    dsimp only at hdone
    split at hdone
    · exact (Option.some.inj hdone).symm
    · cases hdone
  · cases hw

theorem returns_iff {item : Option EntrySnapshot}
    (h : job.answers reply = item.toList.map fun item => (k, ⟨item.toValue, .tier⟩)) :
    Returns k e job reply ↔ ∃ i, item = some i ∧ i.value = e.value := by
  rw [Returns, h]
  cases item with
  | none => simp
  | some i =>
    constructor
    · rintro ⟨answer, hanswer, -, hdata⟩
      cases hanswer
      exact ⟨i, rfl, hdata⟩
    · rintro ⟨i', hi, hvalue⟩
      cases hi
      exact ⟨_, rfl, rfl, hvalue⟩

theorem looks_unique {later : List svc.machine.Event} {y : svc.machine.Event}
    {item : Option EntrySnapshot} {metrics : List Metric}
    (h : threadActs later t = (metrics.map (fun m => ⟨.record m, ()⟩) ++ [⟨lookup svc k, item⟩]) ++
      [⟨.note (.finish reply), ()⟩]) (hy : y ∈ later) (hl : Looks svc k t y) :
    y.act = ⟨lookup svc k, item⟩ := by
  have hmem : y.act ∈ threadActs later t := mem_acts.2 ⟨y, hy, hl.1, rfl⟩
  obtain ⟨u, s, a, b⟩ := y
  obtain ⟨rfl, rfl⟩ := hl
  rw [h] at hmem
  rcases List.mem_append.1 hmem with hmem | hmem
  · rcases List.mem_append.1 hmem with hmem | hmem
    · obtain ⟨m, -, hm⟩ := List.mem_map.1 hmem
      cases hm
    · exact List.mem_singleton.1 hmem
  · cases List.mem_singleton.1 hmem

/-- The stale fallback. A `Get` or `MGet` of a key that may be cached learns that its upstream read
does not succeed while its caller's context lives on and the entry is within the grace. It returns
the retained value exactly if the failure has come to it as a reply, and the value is still retained
when it then looks for it. After such a reply it does look for it; so it returns the value if nobody
has used the tier meanwhile and the grace has not run out. Else it is a `Get` whose own wait has
ended with the time for reads, and it returns that. -/
theorem stale_fallback {past later : List svc.machine.Event} {x : svc.machine.Event} {e : Entry}
    (hr : Retaining svc k) (hjob : job = .get k ∨ job = .mget [k])
    (h : Trail (svc.calls direct) ⟨svc.init content, []⟩ (past ++ x :: later) g)
    (hf : Finished (past ++ x :: later) t job reply) (hx : Detected svc k t x e) :
    (Returns k e job reply ↔
      Heard x.act ∧ ∃ y ∈ later, Looks svc k t y ∧ Kept svc k e y.before) ∧
    (Heard x.act → ∃ between y after, later = between ++ y :: after ∧ Looks svc k t y ∧
      ((∀ z ∈ between, ∀ op, z.action ≠ .cache .cache op) →
        World.clock y.before < e.expiresAt + svc.cfg.cache.staleGrace → Returns k e job reply)) ∧
    (¬ Heard x.act → reply = .get (.error .deadlineExceeded)) := by
  obtain ⟨rfl, hfails, hlive, hfound, -, -⟩ := hx
  obtain ⟨l, hends, hlater⟩ := ends_of_finished hr hjob h hf hfails
  obtain ⟨g₁, g₂, c, p, -, -, -, -, hexec, htrail⟩ := h.split rfl
  obtain ⟨t, before, a, b⟩ := x
  cases hends with
  | left hreply =>
    cases done_of_live hexec hlive
    subst hreply
    refine ⟨⟨?_, fun hh => hh.1.elim⟩, fun hh => hh.elim, fun _ => rfl⟩
    rintro ⟨answer, hanswer, -⟩
    rcases hjob with rfl | rfl <;> cases hanswer
  | @asked _ item metrics hheard hanswers =>
    have hmem : ⟨lookup svc k, item⟩ ∈ threadActs later t := by
      rw [hlater]
      simp
    obtain ⟨y, hy, hyt, hyact⟩ := mem_acts.1 hmem
    have hkept {y} (hy : y ∈ later) (hl : Looks svc k t y) :
        Kept svc k e y.before ↔ Returns k e job reply := by
      obtain ⟨c', s', hexec'⟩ := htrail.exec hy
      have hyact := looks_unique hlater hy hl
      obtain ⟨u, s, a, b⟩ := y
      cases hyact
      have hexec' : World.exec u (lookup svc k) c' s = some (b, s') := hexec'
      rw [returns_iff hanswers]
      exact kept_iff hr.grace hexec'
    have hlooks : Looks svc k t y := ⟨hyt, congrArg Sigma.fst hyact⟩
    refine ⟨⟨fun hret => ⟨hheard, y, hy, hlooks, (hkept hy hlooks).2 hret⟩, ?_⟩, fun _ => ?_,
      fun hno => absurd hheard hno⟩
    · rintro ⟨-, y', hy', hlooks', hk⟩
      exact (hkept hy' hlooks').1 hk
    · obtain ⟨between, after, rfl⟩ := List.append_of_mem hy
      refine ⟨between, y, after, rfl, hlooks, fun hno hnow => (hkept hy hlooks).1 ?_⟩
      obtain ⟨g₃, _, _, _, hbetween, hstate, -⟩ := htrail.split rfl
      rw [← hstate] at hnow ⊢
      have hfind := (find_undisturbed (k := k) hbetween hno).trans
        (find_exec hexec fun _ => hfails.not_cache)
      exact ⟨e, hfind.trans hfound, rfl, hnow⟩

/-- The default settings with stale values retained for a minute, short local lives and a short
time for reads. -/
def lenient : Service :=
  let base := Config.default "secret"
  { Service.sample with
    cfg := { base with
      mode := "cache"
      upstream := { base.upstream with readTimeout := 1000 }
      cache := { base.cache with
        maxLocalTTL := 1000, allowStaleOnUpstreamError := true, staleGrace := 60000000000 } } }

/-- The origin fails after some time, and a wait is given up where it can be. -/
def failing (s : World) : Action → Choice
  | .upstream (.answer i keys) =>
    if 2000 ≤ s.clock then .fail (.upstream "down")
    else Service.pick s (.upstream (.answer i keys))
  | .group (.wait _ deadline) => if deadline ≤ s.clock then .done else .any
  | a => Service.pick s a

def beginning : List Service.Cue :=
  [.call (.get [7]), .go 0 100, .go 1 100, .go 0 100, .call (.get [7]), .go 2 100,
    .env (.tick 2000), .call (.get [7]), .go 3 100]

def failedRead : lenient.machine.Config × List lenient.machine.Event :=
  lenient.schedule (fun _ => some [0]) failing (beginning ++ [.go 4 100, .go 3 100])

def lateRead : lenient.machine.Config × List lenient.machine.Event :=
  lenient.schedule (fun _ => some [0]) failing (beginning ++ [.env (.tick 1000), .go 3 100])

def isFailure : (Σ a, Action.Resp a) → Bool
  | ⟨.group (.wait _ _), .done _⟩ => true
  | ⟨.group (.wait _ _), .result (.error _) _⟩ => true
  | _ => false

theorem fails_of_isFailure (h : isFailure x = true) : Fails x := by
  unfold isFailure at h
  split at h
  · trivial
  · trivial
  · cases h

def inGrace (svc : Service) (k : Key) (s : World) : Option Entry :=
  (s.find .cache k).filter fun e =>
    decide (e.expiresAt ≤ s.clock ∧ s.clock < e.expiresAt + svc.cfg.cache.staleGrace)

theorem within_of_inGrace {s : World} (h : inGrace svc k s = some e) : Within svc k e s := by
  obtain ⟨hf, hgrace⟩ := Option.filter_eq_some_iff.1 h
  obtain ⟨hexpired, hgrace⟩ := of_decide_eq_true hgrace
  exact ⟨hf, hexpired, hgrace⟩

/-- The value of the entry within the grace, where the call of the goroutine learns of a failure. -/
def detected (svc : Service) (k : Key) (t : Nat) (x : svc.machine.Event) : Option Blob :=
  if x.thread = t ∧ isFailure x.act = true ∧ (World.contexts x.before t).isNone = true then
    (inGrace svc k x.before).map (·.value)
  else none

theorem detected_eq_some {x : svc.machine.Event} (h : detected svc k t x = some v) :
    ∃ e, Detected svc k t x e ∧ e.value = v := by
  unfold detected at h
  split at h
  · rename_i hx
    obtain ⟨e, he, hv⟩ := Option.map_eq_some_iff.1 h
    exact ⟨e, ⟨hx.1, fails_of_isFailure hx.2.1, Option.isNone_iff_eq_none.1 hx.2.2,
      within_of_inGrace he⟩, hv⟩
  · cases h

def held : Blob := ⟨[0], .read 0 0 (-1)⟩

theorem lenient_retaining : Retaining lenient [7] := ⟨rfl, by decide +kernel, by decide +kernel⟩

def read : Job × Reply → Option (Job × Bool × Blob)
  | (job, .get (.ok answer)) => some (job, answer.value.exists?, answer.value.data)
  | _ => none

theorem stale_fallback_sample : ∃ past x later e reply, failedRead.2 = past ++ x :: later ∧
    Finished failedRead.2 3 (.get [7]) reply ∧ Detected lenient [7] 3 x e ∧
    Returns [7] e (.get [7]) reply ∧ Heard x.act ∧
    ∃ y ∈ later, Looks lenient [7] 3 y ∧ Kept lenient [7] e y.before := by
  have hrun : failedRead.2.any (fun x => detected lenient [7] 3 x = some held) = true ∧
      (Service.callOf (threadActs failedRead.2 3)).bind read =
        some (Job.get [7], true, held) := by decide +kernel
  obtain ⟨hdetected, hread⟩ := hrun
  obtain ⟨x, hx, hdetected⟩ := List.any_eq_true.1 hdetected
  obtain ⟨e, hdetected, hvalue⟩ := detected_eq_some (of_decide_eq_true hdetected)
  obtain ⟨past, later, htr⟩ := List.append_of_mem hx
  obtain ⟨⟨job, reply⟩, hcall, hread⟩ := Option.bind_eq_some_iff.1 hread
  have hf := Service.finished_of_callOf hcall
  have hreturns : job = .get [7] ∧ Returns [7] e (.get [7]) reply := by
    unfold read at hread
    split at hread
    · rename_i answer heq
      cases heq
      simp only [Option.some.injEq, Prod.mk.injEq] at hread
      obtain ⟨rfl, hexists, hdata⟩ := hread
      exact ⟨rfl, answer, rfl, hexists, hdata.trans hvalue.symm⟩
    · cases hread
  obtain ⟨rfl, hreturns⟩ := hreturns
  have h : Trail (lenient.calls false) ⟨lenient.init fun _ => some [0], []⟩ failedRead.2
      failedRead.1 := Service.schedule_trail failing (by decide)
  refine ⟨past, x, later, e, reply, htr, hf, hdetected, hreturns, ?_⟩
  rw [htr] at h hf
  exact (stale_fallback lenient_retaining (.inl rfl) h hf hdetected).1.1 hreturns

def timedOut : Reply → Bool
  | .get (.error .deadlineExceeded) => true
  | _ => false

/-- A `Get` whose shared read takes longer than the time for reads returns an error, though its
caller's context lives on and a retained value is there all the time. -/
theorem timeout_without_fallback : ∃ (svc : Service) (k : Key) (content : Key → Option Bytes)
    (tr : List svc.machine.Event) (g : svc.machine.Config) (t : Nat) (m : Moment),
    svc.cfg.validate = [] ∧ Retaining svc k ∧
    Trail (svc.calls false) ⟨svc.init content, []⟩ tr g ∧ (g.state.trace t).call = some (.get k) ∧
    g.state.contexts t = none ∧ (∃ x ∈ tr, ∃ e, Detected svc k t x e) ∧
    (∃ e, Within svc k e g.state) ∧
    (g.state.trace t).done = some (m, .get (.error .deadlineExceeded)) := by
  have hrun : lateRead.2.any (fun x => detected lenient [7] 3 x = some held) = true ∧
      (lateRead.1.state.trace 3).call = some (.get [7]) ∧
      lateRead.1.state.contexts 3 = none ∧ (inGrace lenient [7] lateRead.1.state).isSome = true ∧
      (lateRead.1.state.trace 3).done.isSome = true ∧
      (lateRead.1.state.trace 3).done.all (fun x => timedOut x.2) = true := by decide +kernel
  obtain ⟨hdetected, hcall, hctx, hgrace, hsome, hreply⟩ := hrun
  obtain ⟨⟨m, reply⟩, hd⟩ := Option.isSome_iff_exists.1 hsome
  obtain ⟨x, hx, hdetected⟩ := List.any_eq_true.1 hdetected
  obtain ⟨e, hdetected, -⟩ := detected_eq_some (of_decide_eq_true hdetected)
  obtain ⟨e', he'⟩ := Option.isSome_iff_exists.1 hgrace
  have hd' : reply = .get (.error .deadlineExceeded) := by
    rw [hd, Option.all_some] at hreply
    dsimp only [timedOut] at hreply
    split at hreply
    · rfl
    · cases hreply
  subst hd'
  exact ⟨lenient, [7], _, lateRead.2, lateRead.1, 3, m, by decide +kernel, lenient_retaining,
    Service.schedule_trail failing (by decide), hcall, hctx, ⟨x, hx, e, hdetected⟩,
    ⟨e', within_of_inGrace he'⟩, hd⟩

end Slizen.Fallback
