import Slizen.Service.Recency

namespace Slizen.Service
set_option autoImplicit true

open Interleaving Machine

variable {svc : Service} {direct : Bool} {content : Key → Option Bytes} {g g₁ : svc.machine.Config}
  {s s' : World} {t u v f : Nat} {k : Key} {a : Action} {b : a.Resp} {c : Choice} {d m : Moment}
  {x : Seen}

/-- What a goroutine has seen, compared with a call `t` that has returned and with a point `m` of
the run: a payload from a tier is newer than what `t` has cleared, everything else comes from an
upstream read that was sent at `m` or later. -/
structure Recent (s : World) (t : Nat) (m : Moment) (x : Seen) : Prop where
  held : Vouched s x.key x.value
  issued : x.via ≠ .tier → x.value.data.source.Issued m
  writes : x.via = .tier → ∀ d, (s.trace t).dispatched = some d → x.key ∈ (s.trace t).cleared →
    d.version ≤ x.value.data.source.version
  purges : x.via = .tier → s.Purged t x.key → s.Since t x.key x.value.data

theorem Recent.act (h : Recent s t m x) (hs : Chronicle s) (hd : (s.trace t).done ≠ none)
    (hp : svc.Pre v a s) (he : World.exec v a c s = some (b, s')) : Recent s' t m x := by
  have hfrozen := frozen hs.toOrderly hp he hd
  refine ⟨h.held.later (origin_later he), h.issued, ?_, ?_⟩
  · intro hvia d hdisp hk
    rw [hfrozen.dispatched] at hdisp
    rw [hfrozen.cleared] at hk
    exact h.writes hvia d hdisp hk
  · intro hvia hpurged
    have hpurged₀ : s.Purged t x.key := by
      unfold World.Purged at hpurged ⊢
      rw [hfrozen.call, hfrozen.clearedAll, hfrozen.cleared] at hpurged
      exact hpurged
    exact since_act hs hp he hpurged₀ (h.purges hvia hpurged₀)

theorem recent_entry (h : Coherent s) (hf : s.find tier k = some e) (ttl : Time) :
    Recent s t m ⟨.tier, k, ⟨e.value, true, ttl⟩⟩ := by
  have hfresh := h.entry tier k e hf
  exact ⟨⟨hfresh.version, hfresh.held⟩, fun hvia => absurd rfl hvia,
    fun _ d hd hk => hfresh.writes t d hd hk, fun _ hp => hfresh.purges t hp⟩

theorem recent_issued (hh : Vouched s x.key x.value) (hi : x.value.data.source.Issued m)
    (hvia : x.via ≠ .tier) : Recent s t m x :=
  ⟨hh, fun _ => hi, fun h => absurd h hvia, fun h => absurd h hvia⟩

theorem answers_seen (hret : svc.Returns s u job reply) (ha : (k, answer) ∈ job.answers reply) :
    ⟨answer.via, k, answer.value⟩ ∈ (s.trace u).seen := by
  unfold Job.answers at ha
  split at ha
  · rw [List.mem_singleton] at ha
    cases ha
    exact hret.1
  · obtain ⟨i, hi⟩ := List.mem_iff_getElem?.1 ha
    obtain ⟨hkey, hvalue⟩ := List.getElem?_zip_eq_some.1 hi
    exact (hret.2 i k answer hkey hvalue).1
  · cases ha

/-- The state after a call `t` has returned at or after the point `m`, as far as it matters to a
goroutine `u` that starts later: the flights of the key that can be joined are not older than `m`,
and what `u` sees of the key is recent. -/
structure After (t u : Nat) (k : Key) (m : Moment) (s : World) : Prop extends Shared s where
  ended : (s.trace t).done ≠ none
  point : m.Le s.moment
  open_ : ∀ f, s.group k = some f → m.Le (s.past.born f)
  reader : (s.trace u).call ≠ none → m.Le (s.trace u).started
  joined : ∀ f, (s.trace u).joined = some f →
    ∃ key, s.FlightOf f key ∧ (key = k → m.Le (s.past.born f))
  seen : ∀ x ∈ (s.trace u).seen, x.key = k → Recent s t m x
  answers : ∀ m' reply job a, (s.trace u).done = some (m', reply) → (s.trace u).call = some job →
    (k, a) ∈ job.answers reply →
      Recent s t m ⟨a.via, k, a.value⟩ ∧ a.value.data.source.version ≤ m'.version

namespace After

section

variable (hi : svc.Base s) (hp : svc.Pre v a s) (he : World.exec v a c s = some (b, s'))
  (h : After t u k m s)
include hi hp he h

theorem open_act (hg : s'.group k = some f) : m.Le (s'.past.born f) := by
  rcases group_cases he hg with ⟨hg₀, -⟩ | ⟨hborn, -⟩
  · rw [born_eq he (hi.group k f hg₀)]
    exact h.open_ f hg₀
  · rw [hborn]
    exact now_le (grows hi hp he v) m h.point

theorem reader_act (hcall : (s'.trace u).call ≠ none) : m.Le (s'.trace u).started := by
  rcases trace_cases hp he u with hsame | ⟨rfl, hc⟩
  · rw [hsame] at hcall ⊢
    exact h.reader hcall
  · rcases hc.call_cases with ⟨hcall', hstarted⟩ | ⟨-, job, -, hnew⟩
    · rw [hcall'] at hcall
      rw [hstarted]
      exact h.reader hcall
    · rw [hnew]
      exact now_le (grows hi hp he u) m h.point

theorem joined_act (hj : (s'.trace u).joined = some f) :
    ∃ key, s'.FlightOf f key ∧ (key = k → m.Le (s'.past.born f)) := by
  have hold : (s.trace u).joined = some f →
      ∃ key, s'.FlightOf f key ∧ (key = k → m.Le (s'.past.born f)) := by
    intro hj₀
    obtain ⟨key, hf, hborn⟩ := h.joined f hj₀
    rw [born_eq he hf]
    exact ⟨key, (grows hi hp he v).flights f key hf, hborn⟩
  rcases trace_cases hp he u with hsame | ⟨rfl, hc⟩
  · rw [hsame] at hj
    exact hold hj
  · rcases hc.joined_cases hj with hj₀ | ⟨key, epoch, policy, rfl⟩
    · exact hold hj₀
    · -- Whoever joins finds the flight in the group, or has just put it there.
      have hflight : s'.group key = some f := by
        rw [World.exec_trace he] at hj
        cases hj
        obtain ⟨s₁, hs, rfl⟩ := World.exec_group he
        rcases World.stepGroup_doChan hs with ⟨hg, -, rfl⟩ | ⟨-, rfl, rfl⟩
        · exact hg
        · exact Function.update_self ..
      refine ⟨key, (hi.of_exec he).group key f hflight, ?_⟩
      rintro rfl
      exact h.open_act hi hp he hflight

theorem seen_act (hx : x ∈ (s'.trace u).seen) (hk : x.key = k) : Recent s' t m x := by
  have hkeep : Recent s t m x → Recent s' t m x := fun hr => hr.act h.toChronicle h.ended hp he
  rcases seen_cases hp he hx with hx₀ | ⟨rfl, hsees⟩
  · exact hkeep (h.seen x hx₀ hk)
  · cases hsees with
    | tier hf ttl => exact hkeep (recent_entry h.toCoherent hf ttl)
    | flight hj hf =>
      apply hkeep
      obtain ⟨hheld, hissued⟩ := h.result _ _ _ _ hf
      obtain ⟨key, hflight, hborn⟩ := h.joined _ hj
      have hkey : key = k := (flightOf_unique hflight ⟨_, hf, rfl⟩).symm.trans hk
      exact recent_issued hheld (hissued.mono (hborn hkey)) nofun
    | upstream ticket version pttl key hs hv hq =>
      obtain ⟨hcall, hissued⟩ := h.sent_act hp he hx rfl
      exact recent_issued (h.replies_act hp he hx rfl)
        (hissued.mono (h.reader_act hi hp he hcall)) nofun

end

theorem answers_act {answer : Answer} {m' : Moment} {reply : Reply} {job : Job}
    (h : After t u k m s) (hp : svc.Pre v a s) (he : World.exec v a c s = some (b, s'))
    (hd : (s'.trace u).done = some (m', reply)) (hcall : (s'.trace u).call = some job)
    (ha : (k, answer) ∈ job.answers reply) :
    Recent s' t m ⟨answer.via, k, answer.value⟩ ∧
      answer.value.data.source.version ≤ m'.version := by
  have hkeep : ∀ {x}, Recent s t m x → Recent s' t m x :=
    fun hr => hr.act h.toChronicle h.ended hp he
  by_cases hd₀ : (s.trace u).done = none
  · obtain ⟨hret, rfl⟩ := returned_now h.toOrderly hp he hd₀ hd hcall
    have hrecent := h.seen _ (answers_seen hret ha) rfl
    exact ⟨hkeep hrecent, hrecent.held.version.trans (origin_later he).version⟩
  · have hfrozen := frozen h.toOrderly hp he hd₀
    rw [hfrozen.done] at hd
    rw [hfrozen.call] at hcall
    exact (h.answers m' reply job answer hd hcall ha).imp_left hkeep

theorem act (h : After t u k m s) (hi : svc.Base s) (hp : svc.Pre v a s)
    (he : World.exec v a c s = some (b, s')) : After t u k m s' where
  toShared := h.toShared.act hi hp he
  ended := by
    rw [(frozen h.toOrderly hp he h.ended).done]
    exact h.ended
  point := (now_le (grows hi hp he v) m h.point).trans (now_moment he).1
  open_ := fun _ hg => h.open_act hi hp he hg
  reader := h.reader_act hi hp he
  joined := fun _ hj => h.joined_act hi hp he hj
  seen := fun _ hx hk => h.seen_act hi hp he hx hk
  answers := fun _ _ _ _ hd hcall ha => h.answers_act hp he hd hcall ha

theorem env (h : After t u k m s) (he : s.env e = some s') : After t u k m s' := by
  have hshared := h.toShared.env he
  obtain ⟨clock, contexts, origin, hl, rfl⟩ := World.env_later he
  have hrecent : ∀ {x}, Recent s t m x →
      Recent { s with clock := clock, contexts := contexts, origin := origin } t m x :=
    fun hr => ⟨hr.held.later hl, hr.issued, hr.writes, hr.purges⟩
  exact
    { toShared := hshared
      ended := h.ended
      point := ⟨h.point.time, h.point.version.trans hl.version, h.point.reqs⟩
      open_ := h.open_
      reader := h.reader
      joined := h.joined
      seen := fun x hx hk => hrecent (h.seen x hx hk)
      answers := fun m' reply job a hd hcall ha =>
        (h.answers m' reply job a hd hcall ha).imp_left hrecent }

end After

theorem Reachable.frozen (h₁ : svc.Reachable direct content g₁) (h : Reach (svc.calls direct) g₁ g)
    (ht : (g₁.state.trace t).done ≠ none) : (g₁.state.trace t).Frozen (g.state.trace t) := by
  have hj : Orderly g.state ∧ (g₁.state.trace t).Frozen (g.state.trace t) := by
    apply h₁.onward h (J := fun s => Orderly s ∧ (g₁.state.trace t).Frozen (s.trace t))
    · exact ⟨h₁.orderly, .refl _⟩
    · intro v a c b s s' hi hj hp he
      have hd : (s.trace t).done ≠ none := by
        rw [hj.2.done]
        exact ht
      exact ⟨hj.1.act hi hp he, hj.2.trans (Service.frozen hj.1 hp he hd)⟩
    · intro e s s' _ hj he
      rw [World.env_eq he]
      exact ⟨⟨hj.1.gates, hj.1.gated, hj.1.underway, hj.1.refused⟩, hj.2⟩
  exact hj.2

theorem Reachable.after (h₁ : svc.Reachable direct content g₁)
    (ht : (g₁.state.trace t).done ≠ none) (hu : g₁.state.trace u = {}) (hm : m.Le g₁.state.moment)
    (hg : ∀ f, g₁.state.group k = some f → m.Le (g₁.state.past.born f))
    (h : Reach (svc.calls direct) g₁ g) : After t u k m g.state := by
  apply h₁.onward h (J := After t u k m)
  · exact
      { toShared := h₁.shared
        ended := ht
        point := hm
        open_ := hg
        reader := by rw [hu]; exact fun h => absurd rfl h
        joined := by rw [hu]; exact nofun
        seen := by rw [hu]; exact nofun
        answers := by
          intro m' reply job a hd
          rw [hu] at hd
          cases hd }
  · intro v a c b s s' hi hj hp he
    exact hj.act hi hp he
  · intro e s s' _ hj he
    exact hj.env he

/-- Read your writes. Once a write that was sent upstream has returned, whoever starts to read one
of its keys gets a value, or the absence of one, that the origin has held at some version from the
effect of the write on, before the read returns; other clients may write to the origin as well. -/
theorem read_your_writes (h₁ : svc.Reachable direct content g₁) {command : Bytes}
    {args keys : List Bytes}
    (hw : (g₁.state.trace t).call = some (.executeWrite command args keys)) (hk : k ∈ keys)
    (hd : (g₁.state.trace t).dispatched = some d) (ht : (g₁.state.trace t).done ≠ none)
    (hu : g₁.state.trace u = {}) (h : Reach (svc.calls direct) g₁ g) {job : Job} {m : Moment}
    {reply : Reply} {answer : Answer} (hcall : (g.state.trace u).call = some job)
    (hdone : (g.state.trace u).done = some (m, reply)) (ha : (k, answer) ∈ job.answers reply) :
    ∃ version, d.version ≤ version ∧ version ≤ m.version ∧
      answer.value.data.source.version = version ∧
      g.state.origin.content version k =
        if answer.value.exists? then some answer.value.data.bytes else none := by
  have hs := h₁.shared
  have hforgotten : k ∈ (g₁.state.trace t).forgotten := by
    have hc := hs.concluded t ht
    rw [Trace.Concluded, hw] at hc
    apply hc _ k hk
    rw [hd]
    simp
  have hafter : After t u k d g.state :=
    h₁.after ht hu (hs.dispatched t d hd) (fun f hg => hs.group k f t d hg hd hforgotten) h
  obtain ⟨hrecent, hversion⟩ := hafter.answers m reply job answer hdone hcall ha
  refine ⟨_, ?_, hversion, rfl, hrecent.held.content⟩
  by_cases hvia : answer.via = .tier
  · have hfrozen := h₁.frozen h ht
    apply hrecent.writes hvia d (hfrozen.dispatched.trans hd)
    rw [hfrozen.cleared]
    exact hs.forgotten t k hforgotten
  · have hissued := hrecent.issued hvia
    cases hsource : answer.value.data.source with
    | read ticket version pttl =>
      rw [hsource] at hissued
      exact hissued.1
    | write ticket version =>
      rw [hsource] at hissued
      exact hissued.elim

theorem answers_done {tr : Trace} {job : Job} {answer : Answer}
    (h : tr.done.map (fun x => job.answers x.2) = some [(k, answer)]) :
    ∃ m reply, tr.done = some (m, reply) ∧ (k, answer) ∈ job.answers reply := by
  obtain ⟨⟨m, reply⟩, hdone, hanswers⟩ := Option.map_eq_some_iff.1 h
  refine ⟨m, reply, hdone, ?_⟩
  rw [hanswers]
  exact List.mem_singleton_self _

/-- A write that stores its value is acknowledged. -/
def acknowledge (s : World) : Action → Choice
  | .upstream (.dispatch _ args keys) =>
    .effect (some (keys.map fun k => (k, args[1]?))) (.ok (.text wordOK))
  | a => pick s a

def overwritten : sample.machine.Config :=
  (sample.schedule (fun _ => some [0]) acknowledge
    [.call (.get [7]), .go 0 100, .go 1 100, .go 0 100,
      .call (.executeWrite wordSET [[7], [1]] [[7]]), .go 2 200]).1

def overwrittenRead : sample.machine.Config :=
  follow overwritten acknowledge [.call (.get [7]), .go 3 100, .go 4 100, .go 3 100]

theorem read_your_writes_sample : ∃ d, (overwritten.state.trace 2).dispatched = some d ∧
    ∃ m reply, (overwrittenRead.state.trace 3).done = some (m, reply) ∧
      ∃ answer, ([7], answer) ∈ (Job.get [7]).answers reply ∧
        d.version ≤ answer.value.data.source.version := by
  have hreach : sample.Reachable false (fun _ => some [0]) overwritten :=
    (schedule_trail acknowledge (by decide)).reach
  have hlater : Reach (sample.calls false) overwritten overwrittenRead :=
    follow_reach acknowledge overwritten (by decide)
  have hd : (overwritten.state.trace 2).dispatched.isSome = true := by decide +kernel
  obtain ⟨d, hd⟩ := Option.isSome_iff_exists.1 hd
  have hdone : (overwrittenRead.state.trace 3).done.map (fun x => (Job.get [7]).answers x.2) =
      some [([7], ⟨⟨⟨[1], .read 1 1 (-1)⟩, true, -1⟩, .flight⟩)] := by decide +kernel
  obtain ⟨m, reply, hdone, hmem⟩ := answers_done hdone
  have hw : (overwritten.state.trace 2).call = some (.executeWrite wordSET [[7], [1]] [[7]]) := by
    decide +kernel
  have hcall : (overwrittenRead.state.trace 3).call = some (.get [7]) := by decide +kernel
  have hreturned : (overwritten.state.trace 2).done.isSome = true := by decide +kernel
  obtain ⟨version, hle, -, hversion, -⟩ := read_your_writes hreach hw (by decide) hd
    (Option.isSome_iff_ne_none.1 hreturned) rfl hlater hcall hdone hmem
  exact ⟨d, hd, m, reply, hdone, _, hmem, hversion.symm ▸ hle⟩

/-- A flight has its reply when a SET takes effect at the origin, and while the SET is not finished
a second one is given up. -/
def givenUp : sample.machine.Config :=
  (sample.schedule (fun _ => some [0]) pick
    [.call (.get [7]), .go 0 100, .go 1 3, .call (.executeWrite wordSET [[7], [1]] [[7]]), .go 2 11,
      .call (.executeWrite wordSET [[7], [2]] [[7]]), .env (.cancel 3 false), .go 3 100]).1

def givenUpRead : sample.machine.Config :=
  follow givenUp pick [.call (.get [7]), .go 4 100, .go 1 100, .go 4 100]

/-- After the return of a write without effect a read of its key may still join a flight that brings
a value which the origin has held only before that return. -/
theorem read_after_refused_write : ∃ (g₁ g : sample.machine.Config) (t u : Nat) (k : Key)
    (command : Bytes) (args keys : List Bytes) (m m' : Moment) (reply reply' : Reply) (job : Job)
    (answer : Answer),
    sample.Reachable false (fun _ => some [0]) g₁ ∧ Reach (sample.calls false) g₁ g ∧
    (g₁.state.trace t).call = some (.executeWrite command args keys) ∧ k ∈ keys ∧
    (g₁.state.trace t).dispatched = none ∧ (g₁.state.trace t).done = some (m, reply) ∧
    g₁.state.trace u = {} ∧ (g.state.trace u).call = some job ∧
    (g.state.trace u).done = some (m', reply') ∧ (k, answer) ∈ job.answers reply' ∧
    answer.via = .flight ∧ answer.value.exists? = true ∧ ∀ version, m.version ≤ version →
      version ≤ g.state.origin.version →
        g.state.origin.content version k ≠ some answer.value.data.bytes := by
  have hm : (givenUp.state.trace 3).done.map (fun x => x.1.version) = some 1 := by decide +kernel
  obtain ⟨⟨m, reply⟩, hdone, hversion⟩ := Option.map_eq_some_iff.1 hm
  have hanswer : (givenUpRead.state.trace 4).done.map (fun x => (Job.get [7]).answers x.2) =
      some [([7], ⟨⟨⟨[0], .read 0 0 (-1)⟩, true, -1⟩, .flight⟩)] := by decide +kernel
  obtain ⟨m', reply', hdone', hmem⟩ := answers_done hanswer
  refine ⟨givenUp, givenUpRead, 3, 4, [7], wordSET, [[7], [2]], [[7]], m, m', reply, reply',
    .get [7], _, (schedule_trail pick (by decide)).reach, follow_reach pick givenUp (by decide),
    by decide +kernel, by decide, by decide +kernel, hdone, rfl, by decide +kernel, hdone', hmem,
    rfl, rfl, ?_⟩
  intro version hle hge
  have hlast : givenUpRead.state.origin.version = 1 := by decide +kernel
  have hone : version = 1 := by
    rw [hlast] at hge
    dsimp only at hversion
    omega
  subst hone
  have hcontent : givenUpRead.state.origin.content 1 [7] = some [1] := by decide +kernel
  rw [hcontent]
  decide

/-- A purge is a barrier. Once the purge of one key or of all keys has returned, whoever starts to
read the key gets a value of an upstream read that was sent after the beginning of the purge, or the
value of an acknowledged SET that was called after its end. No write of the key is under way during
the purge, and a purge of all keys, which forgets no flights, has left none that was begun before
it. -/
theorem purge_barrier (h₁ : svc.Reachable direct content g₁) {key : Key} {m m' : Moment}
    {reply reply' : Reply} (hp : (g₁.state.trace t).call = some (.purgeCache key))
    (hkey : key = k ∨ key = []) (ht : (g₁.state.trace t).done = some (m, reply))
    (hu : g₁.state.trace u = {})
    (hflights : key = [] → ∀ f, g₁.state.group k = some f →
      (g₁.state.trace t).started.reqs ≤ (g₁.state.past.born f).reqs)
    (h : Reach (svc.calls direct) g₁ g)
    (hquiet : ∀ w job, (g.state.trace w).call = some job → k ∈ job.writeKeys →
      (∃ m₀ r, (g.state.trace w).done = some (m₀, r) ∧ m₀.time < (g₁.state.trace t).started.time) ∨
        m.time < (g.state.trace w).started.time)
    {job : Job} {answer : Answer} (hcall : (g.state.trace u).call = some job)
    (hdone : (g.state.trace u).done = some (m', reply')) (ha : (k, answer) ∈ job.answers reply') :
    (∃ ticket version pttl, answer.value.data.source = .read ticket version pttl ∧
      (g₁.state.trace t).started.reqs ≤ ticket) ∨
    ∃ w job, (g.state.trace w).call = some job ∧ k ∈ job.writeKeys ∧
      m.time < (g.state.trace w).started.time ∧
      (g.state.trace w).wrote = some (k, answer.value.data.bytes) := by
  have hs := h₁.shared
  have hne : (g₁.state.trace t).done ≠ none := by
    rw [ht]
    exact nofun
  have hconcluded := hs.concluded t hne
  rw [Trace.Concluded, hp] at hconcluded
  have hpoint : (⟨0, 0, (g₁.state.trace t).started.reqs⟩ : Moment).Le g₁.state.moment :=
    ⟨Nat.zero_le _, Nat.zero_le _, (hs.started t).reqs⟩
  have hopen : ∀ f, g₁.state.group k = some f →
      (⟨0, 0, (g₁.state.trace t).started.reqs⟩ : Moment).Le (g₁.state.past.born f) := by
    intro f hg
    refine ⟨Nat.zero_le _, Nat.zero_le _, ?_⟩
    by_cases hnil : key = []
    · exact hflights hnil f hg
    · cases hkey.resolve_right hnil
      exact (hs.purge _ f t hg hp (by simpa [hnil] using hconcluded)).reqs
  have hafter := h₁.after hne hu hpoint hopen h
  obtain ⟨hrecent, -⟩ := hafter.answers m' reply' job answer hdone hcall ha
  by_cases hvia : answer.via = .tier
  · have hfrozen := h₁.frozen h hne
    have hpurged : g.state.Purged t k := by
      unfold World.Purged
      rw [hfrozen.call, hfrozen.clearedAll, hfrozen.cleared]
      by_cases hnil : key = []
      · subst hnil
        exact .inl ⟨hp, hconcluded⟩
      · cases hkey.resolve_right hnil
        exact .inr ⟨hp, hs.forgotten t _ (by simpa [hnil] using hconcluded)⟩
    have hsince := hrecent.purges hvia hpurged
    unfold World.Since at hsince
    rw [hfrozen.started] at hsince
    cases hsource : answer.value.data.source with
    | read ticket version pttl =>
      simp only [hsource] at hsince
      exact .inl ⟨ticket, version, pttl, rfl, hsince⟩
    | write ticket version =>
      simp only [hsource] at hsince
      obtain ⟨w, d, job, -, -, -, hwrite, hk, hwrote, hreturned⟩ := hsince
      rcases hquiet w job hwrite hk with ⟨m₀, r, hd, hlt⟩ | hlater
      · exact absurd (hreturned m₀ r hd) (Nat.not_le.2 hlt)
      · exact .inr ⟨w, job, hwrite, hk, hlater, hwrote⟩
  · have hissued := hrecent.issued hvia
    cases hsource : answer.value.data.source with
    | read ticket version pttl =>
      rw [hsource] at hissued
      exact .inl ⟨ticket, version, pttl, rfl, hissued.2⟩
    | write ticket version =>
      rw [hsource] at hissued
      exact hissued.elim

def purged : sample.machine.Config :=
  (sample.schedule (fun _ => some [0]) acknowledge
    [.call (.get [7]), .go 0 100, .go 1 100, .go 0 100, .call (.get [7]), .go 2 100,
      .call (.purgeCache [7]), .go 3 100]).1

def purgedRead : sample.machine.Config :=
  follow purged acknowledge [.call (.get [7]), .go 4 100, .go 5 100, .go 4 100]

theorem purge_barrier_sample : ∃ m reply, (purged.state.trace 3).done = some (m, reply) ∧
    ∃ m' reply', (purgedRead.state.trace 4).done = some (m', reply') ∧
      ∃ answer ticket version pttl, ([7], answer) ∈ (Job.get [7]).answers reply' ∧
        answer.value.data.source = .read ticket version pttl ∧
        (purged.state.trace 3).started.reqs ≤ ticket := by
  have hreach : sample.Reachable true (fun _ => some [0]) purged :=
    (schedule_trail acknowledge (by decide)).reach
  have hlater : Reach (sample.calls true) purged purgedRead :=
    follow_reach acknowledge purged (by decide)
  have hp : (purged.state.trace 3).call = some (.purgeCache [7]) := by decide +kernel
  have hreturned : (purged.state.trace 3).done.isSome = true := by decide +kernel
  obtain ⟨⟨m, reply⟩, ht⟩ := Option.isSome_iff_exists.1 hreturned
  have hcall : (purgedRead.state.trace 4).call = some (.get [7]) := by decide +kernel
  have hdone : (purgedRead.state.trace 4).done.map (fun x => (Job.get [7]).answers x.2) =
      some [([7], ⟨⟨⟨[0], .read 1 0 (-1)⟩, true, -1⟩, .flight⟩)] := by decide +kernel
  obtain ⟨m', reply', hdone, hmem⟩ := answers_done hdone
  -- There are no writes in this run.
  have hreach' : sample.Reachable true (fun _ => some [0]) purgedRead := hreach.trans hlater
  have hnone := hreach'.traces (Q := fun tr => (tr.call.map Job.writeKeys).getD [] = []) rfl
    (by decide +kernel)
  have hquiet : ∀ w job, (purgedRead.state.trace w).call = some job → [7] ∉ job.writeKeys := by
    intro w job hw hk
    have hkeys := hnone w
    simp only [hw, Option.map_some, Option.getD_some] at hkeys
    rw [hkeys] at hk
    cases hk
  rcases purge_barrier hreach hp (.inl rfl) ht rfl nofun hlater
    (fun w job hw hk => absurd hk (hquiet w job hw)) hcall hdone hmem with
    ⟨ticket, version, pttl, hsource, hle⟩ | ⟨w, job, hw, hk, -⟩
  · exact ⟨m, reply, ht, m', reply', hdone, _, ticket, version, pttl, hmem, hsource, hle⟩
  · exact absurd hk (hquiet w job hw)

def purgedSet : sample.machine.Config :=
  follow purged acknowledge
    [.call (.executeWrite wordSET [[7], [5]] [[7]]), .go 4 200, .call (.get [7]), .go 5 100]

/-- A flight of the key has sent its read when all keys are purged. -/
def emptied : sample.machine.Config :=
  (sample.schedule (fun _ => some [0]) pick
    [.call (.get [7]), .go 0 100, .go 1 2, .call (.purgeCache []), .go 2 2000]).1

def emptiedRead : sample.machine.Config :=
  follow emptied pick [.call (.get [7]), .go 3 100, .go 1 100, .go 3 100]

/-- After the purge of a key a read may be answered with the value of a SET that nobody has read
upstream, and after a purge of all keys with the result of a flight that had sent its read before.
-/
theorem read_behind_purge :
    (∃ m reply m' reply' answer, (purged.state.trace 3).done = some (m, reply) ∧
      sample.Reachable true (fun _ => some [0]) purged ∧
      Reach (sample.calls true) purged purgedSet ∧ purged.state.trace 5 = {} ∧
      (purged.state.trace 3).call = some (.purgeCache [7]) ∧
      (purgedSet.state.trace 5).call = some (.get [7]) ∧
      (purgedSet.state.trace 5).done = some (m', reply') ∧
      ([7], answer) ∈ (Job.get [7]).answers reply' ∧
      ∀ ticket version pttl, answer.value.data.source ≠ .read ticket version pttl) ∧
    ∃ m reply m' reply' answer, (emptied.state.trace 2).done = some (m, reply) ∧
      sample.Reachable true (fun _ => some [0]) emptied ∧
      Reach (sample.calls true) emptied emptiedRead ∧ emptied.state.trace 3 = {} ∧
      (emptied.state.trace 2).call = some (.purgeCache []) ∧
      (emptiedRead.state.trace 3).call = some (.get [7]) ∧
      (emptiedRead.state.trace 3).done = some (m', reply') ∧
      ([7], answer) ∈ (Job.get [7]).answers reply' ∧
      ∀ ticket version pttl, answer.value.data.source = .read ticket version pttl →
        ticket < (emptied.state.trace 2).started.reqs := by
  constructor
  · have hreturned : (purged.state.trace 3).done.isSome = true := by decide +kernel
    obtain ⟨⟨m, reply⟩, ht⟩ := Option.isSome_iff_exists.1 hreturned
    have hdone : (purgedSet.state.trace 5).done.map (fun x => (Job.get [7]).answers x.2) =
        some [([7], ⟨⟨⟨[5], .write 1 1⟩, true, 30000000000⟩, .tier⟩)] := by decide +kernel
    obtain ⟨m', reply', hdone, hmem⟩ := answers_done hdone
    exact ⟨m, reply, m', reply', _, ht, (schedule_trail acknowledge (by decide)).reach,
      follow_reach acknowledge purged (by decide), rfl, by decide +kernel, by decide +kernel, hdone,
      hmem, nofun⟩
  · have hfacts : (emptied.state.trace 2).done.isSome = true ∧
        (emptied.state.trace 2).call = some (.purgeCache []) ∧
        (emptied.state.trace 2).started.reqs = 1 ∧ emptied.pool.length = 3 ∧
        (emptiedRead.state.trace 3).call = some (.get [7]) ∧
        (emptiedRead.state.trace 3).done.map (fun x => (Job.get [7]).answers x.2) =
          some [([7], ⟨⟨⟨[0], .read 0 0 (-1)⟩, true, -1⟩, .flight⟩)] := by decide +kernel
    obtain ⟨hreturned, hp, hreqs, hpool, hcall, hdone⟩ := hfacts
    obtain ⟨⟨m, reply⟩, ht⟩ := Option.isSome_iff_exists.1 hreturned
    obtain ⟨m', reply', hdone, hmem⟩ := answers_done hdone
    have hreach : sample.Reachable true (fun _ => some [0]) emptied :=
      (schedule_trail pick (by decide)).reach
    have hu : Unstarted 3 emptied.state :=
      hreach.verified.unborn hreach (List.getElem?_eq_none hpool.le)
    refine ⟨m, reply, m', reply', _, ht, hreach, follow_reach pick emptied (by decide), hu.trace,
      hp, hcall, hdone, hmem, ?_⟩
    rintro ticket version pttl hsource
    cases hsource
    rw [hreqs]
    exact Nat.zero_lt_one

end Slizen.Service
