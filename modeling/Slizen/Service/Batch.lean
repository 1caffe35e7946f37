import Slizen.Service.Footprint
import Slizen.Service.Runs

namespace Slizen
set_option autoImplicit true

open Interleaving Machine

def setAll (out : List α) (l : List (Nat × α)) : List α :=
  l.foldl (fun out x => out.set x.1 x.2) out

theorem length_setAll (out : List α) (l : List (Nat × α)) :
    (setAll out l).length = out.length := by
  induction l generalizing out with
  | nil => rfl
  | cons x l ih => exact (ih _).trans List.length_set

theorem getElem?_setAll_other {out : List α} {l : List (Nat × α)} (h : i ∉ l.map Prod.fst) :
    (setAll out l)[i]? = out[i]? := by
  induction l generalizing out with
  | nil => rfl
  | cons x l ih =>
    rw [List.map_cons, List.mem_cons, not_or] at h
    exact (ih h.2).trans (List.getElem?_set_ne (Ne.symm h.1))

theorem getElem?_setAll {out : List α} {l : List (Nat × α)} (hd : (l.map Prod.fst).Nodup)
    (hx : (i, a) ∈ l) (hi : i < out.length) : (setAll out l)[i]? = some a := by
  induction l generalizing out with
  | nil => cases hx
  | cons y l ih =>
    obtain ⟨hy, hd⟩ := List.nodup_cons.1 hd
    rcases List.mem_cons.1 hx with rfl | hx
    · exact (getElem?_setAll_other hy).trans (List.getElem?_set_self hi)
    · exact ih hd hx (by rwa [List.length_set])

theorem exists_of_forall₂ {R : α → β → Prop} {l : List α} {l' : List β} (h : List.Forall₂ R l l')
    (hy : y ∈ l') : ∃ (i : Nat) (x : α), l[i]? = some x ∧ R x y := by
  induction h with
  | nil => cases hy
  | @cons x z l l' hxz _ ih =>
    rcases List.mem_cons.1 hy with rfl | hy
    · exact ⟨0, x, rfl, hxz⟩
    · obtain ⟨i, x', hx', hR⟩ := ih hy
      exact ⟨i + 1, x', hx', hR⟩

theorem map_filterMap_sublist {f : α → Option β} {p : β → γ} {q : α → γ}
    (h : ∀ a b, f a = some b → p b = q a) (l : List α) :
    ((l.filterMap f).map p).Sublist (l.map q) := by
  induction l with
  | nil => exact .slnil
  | cons a l ih =>
    rw [List.filterMap_cons]
    cases hf : f a with
    | none => exact ih.cons _
    | some b =>
      rw [List.map_cons, List.map_cons, h a b hf]
      exact ih.cons_cons _

def Action.Offline : Action → Prop
  | .upstream _ => False
  | _ => True

def Action.PutsOnly (p : Tier → Key → Blob → Time → Prop) : Action → Prop
  | .cache tier (.put key v ttl) => p tier key v ttl
  | _ => True

theorem Action.Local.offline {a : Action} (h : a.Local) : a.Offline := by
  cases a with
  | upstream op => exact h
  | _ => trivial

namespace Service

variable {svc : Service} {l : List (Σ a, Action.Resp a)}

variable (svc) in
/-- One round of the first loop of `MGet`: the item of a local hit, or the epoch that is noted
for the read that is left. -/
def lookup (key : Key) : Run (Option EntrySnapshot × Nat) := do
  let state ← svc.observeRead key (svc.policy key)
  let item ← svc.getCached key (svc.policy key) state
  match item with
  | some item =>
    record .cacheHit
    pure (some item, 0)
  | none =>
    record (.cacheMissWithReason (cacheMissReason (svc.policy key) state))
    if (svc.policy key).mode = .cache then
      let epoch ← Run.do (.stripe (cacheEpochStripe key) .epochLoad)
      pure (none, epoch)
    else pure (none, 0)

theorem mgetLocal_cons (out : List Answer) (missing : List MissingRead) (position : Nat)
    (key : Key) (keys : List Key) :
    svc.mgetLocal out missing position (key :: keys) =
      (svc.lookup key >>= fun found => match found with
        | (some item, _) =>
          svc.mgetLocal (out.set position ⟨item.toValue, .tier⟩) missing (position + 1) keys
        | (none, epoch) =>
          svc.mgetLocal out (missing ++ [⟨position, key, epoch, svc.policy key⟩]) (position + 1)
            keys) := by
  rw [mgetLocal, lookup]
  simp only [Prog.bind_assoc]
  congr 1
  funext state
  congr 1
  funext item
  cases item with
  | some item => rfl
  | none =>
    simp only [Prog.bind_assoc]
    congr 1
    funext _
    split <;> rfl

section Puts

variable (svc : Service) {p : Tier → Key → Blob → Time → Prop}

theorem uses_lookup (h : LocalRules svc fun (_ : Type) p => p.Uses q)
    (hr : ∀ m, q (.record m)) (key : Key) : (svc.lookup key).Uses q := by
  refine (h.observeRead _ _).bind fun state => (h.getCached _ _ _).bind fun item => ?_
  cases item with
  | some item => exact ⟨hr _, fun _ => trivial⟩
  | none => exact ⟨hr _, fun _ => h.ite (h.step trivial fun _ => trivial) trivial⟩

theorem putsOnly_steady {a : Action} (h : a.Steady) : a.PutsOnly p := by
  cases a with
  | cache tier op => cases op <;> trivial
  | _ => trivial

theorem putsOnly_keeping {a : Action} (h : a.Keeping) : a.PutsOnly p := by
  cases a with
  | cache tier op => cases op <;> trivial
  | _ => trivial

theorem puts_bare {r : Run α} (h : r.Uses Action.Bare) : r.Uses (Action.PutsOnly p) :=
  h.mono fun _ ha => putsOnly_steady ha.steady

theorem puts_lookup (key : Key) : (svc.lookup key).Uses (Action.PutsOnly p) :=
  svc.uses_lookup (svc.localRules_uses (fun _ => putsOnly_steady) (fun _ => putsOnly_keeping)
    fun _ => trivial) (fun _ => trivial) key

def refillTTL (value : Value) (policy : Decision) : Tier → Time
  | .cache => svc.localTTL value.pttl policy.maxLocalTTL
  | .probationary => svc.probationaryTTL value policy

theorem puts_reconcileLocalIfCurrent (key : Key) (value : Value) (epoch : Nat)
    (policy : Decision) : (svc.reconcileLocalIfCurrent key value epoch policy).Uses
      (Action.PutsOnly fun tier k v ttl =>
        k = key ∧ v = value.data ∧ ttl = svc.refillTTL value policy tier) := by
  have hstore : ∀ tier, (storeIn tier key value policy (svc.refillTTL value policy tier)).Uses
      (Action.PutsOnly fun tier k v ttl =>
        k = key ∧ v = value.data ∧ ttl = svc.refillTTL value policy tier) :=
    fun tier => uses_ite ⟨trivial, fun _ => trivial⟩ ⟨⟨rfl, rfl, rfl⟩, fun _ => trivial⟩
  have hreconcile : (svc.reconcile key value policy).Uses
      (Action.PutsOnly fun tier k v ttl =>
        k = key ∧ v = value.data ∧ ttl = svc.refillTTL value policy tier) := by
    refine uses_ite ⟨trivial, fun hot => uses_ite ?_ ?_⟩ ?_
    · exact (puts_bare (svc.bare_deleteProbationary key)).bind fun _ => (hstore .cache).bind
        fun _ => trivial
    · have hprobationary : (svc.storeProbationary key value policy).Uses _ :=
        uses_ite ⟨trivial, fun _ => uses_ite (hstore .probationary) trivial⟩ trivial
      exact ⟨trivial, fun _ => hprobationary.bind fun _ => trivial⟩
    · exact ⟨trivial, fun _ => (puts_bare (svc.bare_deleteProbationary key)).bind fun _ => trivial⟩
  exact ⟨trivial, fun _ => ⟨trivial, fun current =>
    (uses_when (c := current = epoch) hreconcile).bind fun _ => ⟨trivial, fun _ => trivial⟩⟩⟩

end Puts

/-- What one round of the loop has found, with its actions. -/
structure Look where
  key : Key
  acts : List (Σ a, Action.Resp a)
  item : Option EntrySnapshot
  epoch : Nat

variable (svc) in
def Looked (key : Key) (x : Look) : Prop :=
  x.key = key ∧ (svc.lookup key).After x.acts (.ret (x.item, x.epoch))

theorem after_of_looked (h : List.Forall₂ svc.Looked keys looks) (hx : x ∈ looks) :
    (svc.lookup x.key).After x.acts (.ret (x.item, x.epoch)) := by
  induction h with
  | nil => cases hx
  | cons hy _ ih =>
    rcases List.mem_cons.1 hx with rfl | hx
    · exact hy.1.symm ▸ hy.2
    · exact ih hx

def hitsFrom (position : Nat) (looks : List Look) : List (Nat × Answer) :=
  (looks.zipIdx position).filterMap fun x =>
    x.1.item.map fun item => (x.2, ⟨item.toValue, .tier⟩)

variable (svc) in
def missingFrom (position : Nat) (looks : List Look) : List MissingRead :=
  (looks.zipIdx position).filterMap fun x =>
    if x.1.item.isNone then some ⟨x.2, x.1.key, x.1.epoch, svc.policy x.1.key⟩ else none

theorem looked_mgetLocal {out out' : List Answer} {missing missing' : List MissingRead}
    (h : (svc.mgetLocal out missing position keys).After l (.ret (out', missing'))) :
    ∃ looks, List.Forall₂ svc.Looked keys looks ∧ l = looks.flatMap Look.acts ∧
      out' = setAll out (hitsFrom position looks) ∧
      missing' = missing ++ svc.missingFrom position looks := by
  induction keys generalizing out missing position l with
  | nil =>
    obtain ⟨rfl, hr⟩ := h.ret
    cases hr
    exact ⟨[], .nil, rfl, rfl, (List.append_nil _).symm⟩
  | cons key keys ih =>
    rw [mgetLocal_cons] at h
    obtain ⟨l₁, ⟨item, epoch⟩, l₂, rfl, h₁, h₂⟩ := h.bind_ret
    cases item with
    | some item =>
      obtain ⟨looks, hlooks, rfl, rfl, rfl⟩ := ih h₂
      refine ⟨⟨key, l₁, some item, epoch⟩ :: looks, .cons ⟨rfl, h₁⟩ hlooks, rfl, ?_, ?_⟩
      · rfl
      · rfl
    | none =>
      obtain ⟨looks, hlooks, rfl, rfl, rfl⟩ := ih h₂
      refine ⟨⟨key, l₁, none, epoch⟩ :: looks, .cons ⟨rfl, h₁⟩ hlooks, rfl, rfl, ?_⟩
      rw [List.append_assoc]
      rfl

variable (svc) in
/-- What the last loop of `MGet` does about one read and its value. -/
def Refilled (x : MissingRead × Value) (l : List (Σ a, Action.Resp a)) : Prop :=
  if x.1.policy.mode = .cache then
    (svc.reconcileLocalIfCurrent x.1.key x.2 x.1.epoch x.1.policy).After l (.ret ())
  else l = []

def fetchedAt (x : MissingRead × Value) : Nat × Answer := (x.1.position, ⟨x.2, .upstream⟩)

theorem refilled_mgetStore {reads : List (MissingRead × Value)}
    (h : (svc.mgetStore out reads).After l (.ret out')) :
    ∃ parts, List.Forall₂ svc.Refilled reads parts ∧ l = parts.flatten ∧
      out' = setAll out (reads.map fetchedAt) := by
  induction reads generalizing out l with
  | nil =>
    obtain ⟨rfl, hr⟩ := h.ret
    cases hr
    exact ⟨[], .nil, rfl, rfl⟩
  | cons x reads ih =>
    obtain ⟨l₁, _, l₂, rfl, h₁, h₂⟩ := h.bind_ret
    obtain ⟨parts, hparts, rfl, rfl⟩ := ih h₂
    refine ⟨l₁ :: parts, .cons ?_ hparts, rfl, rfl⟩
    rw [Refilled]
    rw [Run.when] at h₁
    split
    · rename_i hmode
      rwa [if_pos hmode] at h₁
    · rename_i hmode
      rw [if_neg hmode] at h₁
      exact h₁.ret.1

def staleAt (x : MissingRead × EntrySnapshot) : Nat × Answer :=
  (x.1.position, ⟨x.2.toValue, .tier⟩)

theorem found_mgetStale {missing : List MissingRead}
    (h : (svc.mgetStale out n missing).After l (.ret (out', n'))) :
    ∃ found : List (MissingRead × EntrySnapshot), (found.map Prod.fst).Sublist missing ∧
      n' = n + found.length ∧ out' = setAll out (found.map staleAt) ∧
      ∀ x ∈ found, x.1.policy.mode = .cache ∧
        ⟨.cache .cache (.getStale x.1.key svc.cfg.cache.staleGrace), some x.2⟩ ∈ l := by
  induction missing generalizing out n l with
  | nil =>
    obtain ⟨rfl, hr⟩ := h.ret
    cases hr
    exact ⟨[], .slnil, rfl, rfl, fun _ hx => absurd hx List.not_mem_nil⟩
  | cons read missing ih =>
    rw [mgetStale] at h
    split at h
    · rename_i hmode
      obtain ⟨l₁, item, l₂, rfl, h₁, h₂⟩ := h.bind_ret
      cases item with
      | none =>
        obtain ⟨found, hsub, hn, hout, hfound⟩ := ih h₂
        refine ⟨found, hsub.cons _, hn, hout, fun x hx => ?_⟩
        exact (hfound x hx).imp_right (List.mem_append_right _)
      | some item =>
        obtain ⟨found, hsub, hn, hout, hfound⟩ := ih h₂
        refine ⟨(read, item) :: found, hsub.cons_cons _, ?_, hout, fun x hx => ?_⟩
        · rw [hn, List.length_cons]
          omega
        · rcases List.mem_cons.1 hx with rfl | hx
          · rw [h₁.perform]
            exact ⟨hmode, List.mem_append_left _ (List.mem_singleton_self _)⟩
          · exact (hfound x hx).imp_right (List.mem_append_right _)
    · obtain ⟨found, hsub, hn, hout, hfound⟩ := ih h
      exact ⟨found, hsub.cons _, hn, hout, hfound⟩

/-- An item that one of these actions has found in a tier. -/
def FromTier (l : List (Σ a, Action.Resp a)) (key : Key) (item : EntrySnapshot) : Prop :=
  (∃ tier, ⟨.cache tier (.get key), some item⟩ ∈ l) ∨
    ⟨.cache .cache (.getStale key 0), some item⟩ ∈ l

theorem FromTier.mono (h : FromTier l key item) (hl : l ⊆ l') : FromTier l' key item :=
  h.imp (fun ⟨tier, hx⟩ => ⟨tier, hl hx⟩) fun hx => hl hx

theorem FromTier.left (h : FromTier l key item) (l' : List (Σ a, Action.Resp a)) :
    FromTier (l ++ l') key item := h.mono (List.subset_append_left l l')

theorem FromTier.right (h : FromTier l key item) (l' : List (Σ a, Action.Resp a)) :
    FromTier (l' ++ l) key item := h.mono (List.subset_append_right l' l)

theorem fromTier_getFreshProtected (h : (svc.getFreshProtected key).After l (.ret (some item))) :
    FromTier l key item := by
  rw [getFreshProtected] at h
  split at h
  · rw [h.perform]
    exact .inr (List.mem_singleton_self _)
  · rw [h.perform]
    exact .inl ⟨.cache, List.mem_singleton_self _⟩

theorem fromTier_getPromoted (h : (svc.getPromoted key).After l (.ret (some item))) :
    FromTier l key item := by
  obtain ⟨l₁, hot, l₂, rfl, -, h₂⟩ := h.bind_ret
  apply FromTier.right
  split at h₂
  · obtain ⟨l₂, promoting, l₃, rfl, -, h₃⟩ := h₂.bind_ret
    apply FromTier.right
    split at h₃
    · obtain ⟨l₃, _, l₄, rfl, -, h₄⟩ := h₃.bind_ret
      obtain ⟨l₄, item', l₅, rfl, h₅, h₆⟩ := h₄.bind_ret
      obtain ⟨l₅, _, l₆, rfl, -, h₇⟩ := h₆.bind_ret
      cases h₇.ret.2
      exact ((fromTier_getFreshProtected h₅).left _).right _
    · exact fromTier_getFreshProtected h₃
  · cases h₂.ret.2

theorem fromTier_promoteCandidate (h : (svc.promoteCandidate key).After l (.ret (some item))) :
    FromTier l key item := by
  obtain ⟨l₁, candidate, l₂, rfl, h₁, h₂⟩ := h.bind_ret
  rw [h₁.perform]
  cases candidate with
  | none =>
    obtain ⟨l₂, _, l₃, rfl, -, h₃⟩ := h₂.bind_ret
    cases h₃.ret.2
  | some candidate =>
    obtain ⟨l₂, observation, l₃, rfl, -, h₃⟩ := h₂.bind_ret
    obtain ⟨l₃, stored, l₄, rfl, -, h₄⟩ := h₃.bind_ret
    obtain ⟨l₄, _, l₅, rfl, -, h₅⟩ := h₄.bind_ret
    obtain ⟨l₅, _, l₆, rfl, -, h₆⟩ := h₅.bind_ret
    obtain ⟨l₆, _, l₇, rfl, -, h₇⟩ := h₆.bind_ret
    have hr := h₇.ret.2
    split at hr
    · cases hr
      exact .inl ⟨.probationary, List.mem_append_left _ (List.mem_singleton_self _)⟩
    · cases hr

theorem fromTier_promote (h : (svc.promote key).After l (.ret (some item))) :
    FromTier l key item := by
  obtain ⟨l₁, _, l₂, rfl, -, h₂⟩ := h.bind_ret
  obtain ⟨l₂, hot, l₃, rfl, -, h₃⟩ := h₂.bind_ret
  apply FromTier.right
  apply FromTier.right
  split at h₃
  · obtain ⟨l₃, item', l₄, rfl, h₄, h₅⟩ := h₃.bind_ret
    cases item' with
    | none => exact (fromTier_promoteCandidate h₅).right _
    | some item' =>
      obtain ⟨l₄, _, l₅, rfl, -, h₆⟩ := h₅.bind_ret
      cases h₆.ret.2
      exact (fromTier_getFreshProtected h₄).left _
  · exact fromTier_promoteCandidate h₃

theorem fromTier_getProbationary (h : (svc.getProbationary key).After l (.ret (some item))) :
    FromTier l key item := by
  rw [getProbationary] at h
  split at h
  · obtain ⟨l₁, candidate, l₂, rfl, -, h₂⟩ := h.bind_ret
    apply FromTier.right
    cases candidate with
    | none => exact fromTier_getPromoted h₂
    | some candidate => exact fromTier_promote h₂
  · cases h.ret.2

theorem fromTier_getCached {policy : Decision}
    (h : (svc.getCached key policy state).After l (.ret (some item))) :
    policy.mode = .cache ∧ FromTier l key item := by
  rw [getCached] at h
  split at h
  · rename_i hmode
    refine ⟨hmode, ?_⟩
    rw [getFreshCachedInState] at h
    split at h
    · obtain ⟨l₁, item', l₂, rfl, h₁, h₂⟩ := h.bind_ret
      cases item' with
      | none => exact (fromTier_getProbationary h₂).right _
      | some item' =>
        cases h₂.ret.2
        exact (fromTier_getFreshProtected h₁).left _
    · exact fromTier_getProbationary h
  · cases h.ret.2

theorem fromTier_lookup (h : (svc.lookup key).After l (.ret (some item, epoch))) :
    (svc.policy key).mode = .cache ∧ FromTier l key item := by
  obtain ⟨l₁, state, l₂, rfl, -, h₂⟩ := h.bind_ret
  obtain ⟨l₂, item', l₃, rfl, h₃, h₄⟩ := h₂.bind_ret
  cases item' with
  | some item' =>
    obtain ⟨l₃, _, l₄, rfl, -, h₅⟩ := h₄.bind_ret
    cases h₅.ret.2
    exact (fromTier_getCached h₃).imp_right fun h => (h.left _).right _
  | none =>
    obtain ⟨l₃, _, l₄, rfl, -, h₅⟩ := h₄.bind_ret
    split at h₅
    · obtain ⟨l₄, epoch', l₅, rfl, -, h₆⟩ := h₅.bind_ret
      cases h₆.ret.2
    · cases h₅.ret.2

theorem epoch_lookup (h : (svc.lookup key).After l (.ret (none, epoch)))
    (hmode : (svc.policy key).mode = .cache) :
    ⟨.stripe (cacheEpochStripe key) .epochLoad, epoch⟩ ∈ l := by
  obtain ⟨l₁, state, l₂, rfl, -, h₂⟩ := h.bind_ret
  obtain ⟨l₂, item, l₃, rfl, -, h₃⟩ := h₂.bind_ret
  cases item with
  | some item =>
    obtain ⟨l₃, _, l₄, rfl, -, h₅⟩ := h₃.bind_ret
    cases h₅.ret.2
  | none =>
    obtain ⟨l₃, _, l₄, rfl, -, h₅⟩ := h₃.bind_ret
    rw [if_pos hmode] at h₅
    obtain ⟨l₄, epoch', l₅, rfl, h₆, h₇⟩ := h₅.bind_ret
    cases h₇.ret.2
    rw [h₆.perform]
    simp

def upstreamCalls (l : List (Σ a, Action.Resp a)) : List (List Key) :=
  l.filterMap fun x => match x.1 with
    | .upstream (.issue keys) => some keys
    | _ => none

theorem upstreamCalls_append (l l' : List (Σ a, Action.Resp a)) :
    upstreamCalls (l ++ l') = upstreamCalls l ++ upstreamCalls l' := List.filterMap_append

theorem upstreamCalls_offline {p q : Run α} (hp : p.Uses Action.Offline) (h : p.After l q) :
    upstreamCalls l = [] := by
  rw [upstreamCalls, List.filterMap_eq_nil_iff]
  intro x hx
  have hoff := h.uses hp x hx
  obtain ⟨a, b⟩ := x
  cases a with
  | upstream op => exact hoff.elim
  | _ => rfl

theorem offline_of_local {p : Run α} (h : p.Uses Action.Local) : p.Uses Action.Offline :=
  h.mono fun _ => Action.Local.offline

theorem offline_lookup (key : Key) : (svc.lookup key).Uses Action.Offline :=
  svc.uses_lookup (svc.localRules_uses (fun _ ha => ha.plain.isLocal.offline)
    (fun _ ha => ha.isLocal.offline) fun _ => trivial) (fun _ => trivial) key

theorem upstreamCalls_looks (h : List.Forall₂ svc.Looked keys looks) :
    upstreamCalls (looks.flatMap Look.acts) = [] := by
  induction h with
  | nil => rfl
  | @cons key x _ _ hx _ ih =>
    rw [List.flatMap_cons, upstreamCalls_append, ih,
      upstreamCalls_offline (offline_lookup key) hx.2, List.nil_append]

def fetchActs (i : Issue) (keys : List Key) (r : Except Error (List Value)) :
    List (Σ a, Action.Resp a) :=
  [⟨.upstream (.issue keys), i⟩, ⟨.upstream (.answer i keys), r⟩,
    ⟨.record (.observeUpstream false (failed r)), ()⟩]

theorem acts_fetchUpstream (h : (fetchUpstream false keys).After l (.ret r)) :
    ∃ i, l = fetchActs i keys r := by
  obtain ⟨l₁, i, l₂, rfl, h₁, h₂⟩ := h.bind_ret
  obtain ⟨l₂, r', l₃, rfl, h₃, h₄⟩ := h₂.bind_ret
  obtain ⟨l₃, _, l₄, rfl, h₅, h₆⟩ := h₄.bind_ret
  cases h₆.ret.2
  refine ⟨i, ?_⟩
  rw [h₁.perform, h₃.perform, h₅.perform, h₆.ret.1]
  rfl

/-- The result has one answer for each key, and the items of the local hits at their places. -/
structure Aligned (looks : List Look) (answers : List Answer) : Prop where
  length : answers.length = looks.length
  hits : ∀ (i : Nat) (x : Look) (item : EntrySnapshot), looks[i]? = some x →
    x.item = some item → answers[i]? = some ⟨item.toValue, .tier⟩

variable (svc) in
/-- How an MGet goes on after its look-ups, and what it returns. -/
inductive Outcome (looks : List Look) :
    List (Σ a, Action.Resp a) → Except Error (List Answer) → Prop
  | hits {answers : List Answer} (hm : svc.missingFrom 0 looks = []) (ha : Aligned looks answers) :
      Outcome looks [] (.ok answers)
  | fetched {i : Issue} {values : List Value} {parts : List (List (Σ a, Action.Resp a))}
      {last : List (Σ a, Action.Resp a)} {answers : List Answer}
      (hm : svc.missingFrom 0 looks ≠ []) (ha : Aligned looks answers)
      (hlength : values.length = (svc.missingFrom 0 looks).length)
      (hvalues : ∀ (j : Nat) (read : MissingRead) (value : Value),
        (svc.missingFrom 0 looks)[j]? = some read → values[j]? = some value →
          answers[read.position]? = some ⟨value, .upstream⟩)
      (hparts : List.Forall₂ svc.Refilled ((svc.missingFrom 0 looks).zip values) parts)
      (hlast : svc.observeCache.After last (.ret ())) :
      Outcome looks (fetchActs i ((svc.missingFrom 0 looks).map MissingRead.key) (.ok values) ++
        (parts.flatten ++ last)) (.ok answers)
  | failed {i : Issue} {e : Error} {last : List (Σ a, Action.Resp a)}
      (hm : svc.missingFrom 0 looks ≠ []) (hlast : upstreamCalls last = [])
      (hputs : ∀ x ∈ last, x.1.PutsOnly fun _ _ _ _ => False) :
      Outcome looks (fetchActs i ((svc.missingFrom 0 looks).map MissingRead.key) (.error e) ++
        last) (.error e)
  | stale {i : Issue} {e : Error} {last : List (Σ a, Action.Resp a)} {answers : List Answer}
      (hm : svc.missingFrom 0 looks ≠ []) (hallow : svc.cfg.cache.allowStaleOnUpstreamError = true)
      (ha : Aligned looks answers) (hlast : upstreamCalls last = [])
      (hputs : ∀ x ∈ last, x.1.PutsOnly fun _ _ _ _ => False)
      (hstale : ∀ read ∈ svc.missingFrom 0 looks, read.policy.mode = .cache ∧
        ∃ item, ⟨.cache .cache (.getStale read.key svc.cfg.cache.staleGrace), some item⟩ ∈ last ∧
          answers[read.position]? = some ⟨item.toValue, .tier⟩) :
      Outcome looks (fetchActs i ((svc.missingFrom 0 looks).map MissingRead.key) (.error e) ++
        last) (.ok answers)

theorem mem_hitsFrom {looks : List Look} {p : Nat × Answer} :
    p ∈ hitsFrom 0 looks ↔ ∃ (x : Look) (item : EntrySnapshot), looks[p.1]? = some x ∧
      x.item = some item ∧ p.2 = ⟨item.toValue, .tier⟩ := by
  rw [hitsFrom, List.mem_filterMap]
  constructor
  · rintro ⟨⟨x, i⟩, hmem, hp⟩
    obtain ⟨item, hitem, rfl⟩ := Option.map_eq_some_iff.1 hp
    exact ⟨x, item, List.mk_mem_zipIdx_iff_getElem?.1 hmem, hitem, rfl⟩
  · rintro ⟨x, item, hx, hitem, hp⟩
    refine ⟨(x, p.1), List.mk_mem_zipIdx_iff_getElem?.2 hx, ?_⟩
    rw [hitem, Option.map_some, ← hp]

theorem mem_missingFrom {looks : List Look} {read : MissingRead}
    (h : read ∈ svc.missingFrom 0 looks) : ∃ x : Look, looks[read.position]? = some x ∧
      x.item = none := by
  obtain ⟨⟨x, i⟩, hmem, hread⟩ := List.mem_filterMap.1 h
  split at hread
  · rename_i hnone
    cases hread
    exact ⟨x, List.mk_mem_zipIdx_iff_getElem?.1 hmem, Option.isNone_iff_eq_none.1 hnone⟩
  · cases hread

theorem nodup_positions (looks : List Look) : ((looks.zipIdx 0).map Prod.snd).Nodup := by
  rw [List.zipIdx_map_snd]
  exact List.nodup_range'

theorem nodup_hitsFrom (looks : List Look) : ((hitsFrom 0 looks).map Prod.fst).Nodup := by
  refine (map_filterMap_sublist ?_ _).nodup (nodup_positions looks)
  intro x p hp
  obtain ⟨item, -, rfl⟩ := Option.map_eq_some_iff.1 hp
  rfl

theorem nodup_missingFrom (looks : List Look) :
    ((svc.missingFrom 0 looks).map MissingRead.position).Nodup := by
  refine (map_filterMap_sublist ?_ _).nodup (nodup_positions looks)
  intro x read hread
  split at hread
  · cases hread
    rfl
  · cases hread

theorem aligned_hits (looks : List Look) (h : out.length = looks.length) :
    Aligned looks (setAll out (hitsFrom 0 looks)) where
  length := (length_setAll _ _).trans h
  hits := by
    intro i x item hx hitem
    have hi : i < looks.length := (List.getElem?_eq_some_iff.1 hx).1
    exact getElem?_setAll (nodup_hitsFrom looks) (mem_hitsFrom.2 ⟨x, item, hx, hitem, rfl⟩)
      (h ▸ hi)

theorem Aligned.setAll (h : Aligned looks out) {l : List (Nat × Answer)}
    (hl : ∀ p ∈ l, ∃ x : Look, looks[p.1]? = some x ∧ x.item = none) :
    Aligned looks (setAll out l) where
  length := (length_setAll _ _).trans h.length
  hits := by
    intro i x item hx hitem
    rw [getElem?_setAll_other, h.hits i x item hx hitem]
    intro hmem
    obtain ⟨p, hp, rfl⟩ := List.mem_map.1 hmem
    obtain ⟨y, hy, hnone⟩ := hl p hp
    cases hx.symm.trans hy
    rw [hitem] at hnone
    cases hnone

theorem position_lt {read : MissingRead} (h : read ∈ svc.missingFrom 0 looks) :
    read.position < looks.length := by
  obtain ⟨x, hx, -⟩ := mem_missingFrom h
  exact (List.getElem?_eq_some_iff.1 hx).1

/-- Answers put at the places of the missing reads are found there and leave the hits alone. -/
theorem setAll_missing (h : Aligned looks out) {xs : List (MissingRead × β)}
    (hxs : xs.map Prod.fst = svc.missingFrom 0 looks) (place : MissingRead × β → Nat × Answer)
    (hplace : ∀ x, (place x).1 = x.1.position) :
    Aligned looks (setAll out (xs.map place)) ∧
      ∀ x ∈ xs, (setAll out (xs.map place))[x.1.position]? = some (place x).2 := by
  have hmissing : ∀ x ∈ xs, x.1 ∈ svc.missingFrom 0 looks :=
    fun x hx => hxs ▸ List.mem_map_of_mem hx
  constructor
  · apply h.setAll
    intro p hp
    obtain ⟨x, hx, rfl⟩ := List.mem_map.1 hp
    rw [hplace]
    exact mem_missingFrom (hmissing x hx)
  · intro x hx
    have hnodup := svc.nodup_missingFrom looks
    rw [← hxs, List.map_map] at hnodup
    apply getElem?_setAll
    · rwa [List.map_map, show Prod.fst ∘ place = MissingRead.position ∘ Prod.fst from
        funext hplace]
    · exact List.mem_map.2 ⟨x, hx, Prod.ext (hplace x) rfl⟩
    · rw [h.length]
      exact position_lt (hmissing x hx)

theorem outcome_mgetMissing (ha : Aligned looks out) (hm : svc.missingFrom 0 looks ≠ [])
    (h : (svc.mgetMissing out (svc.missingFrom 0 looks)).After l (.ret r))
    (hup : ∀ i keys values, ⟨.upstream (.answer i keys), .ok values⟩ ∈ l →
      values.length = keys.length) : svc.Outcome looks l r := by
  obtain ⟨l₁, reply, l₂, rfl, h₁, h₂⟩ := h.bind_ret
  obtain ⟨i, rfl⟩ := acts_fetchUpstream h₁
  cases reply with
  | error e =>
    have hlast : upstreamCalls l₂ = [] := by
      refine upstreamCalls_offline (offline_of_local (uses_ite ?_ ?_)) h₂
      · exact (svc.local_mgetStale _ _ _).bind fun _ => trivial
      · trivial
    have hputs : ∀ x ∈ l₂, x.1.PutsOnly fun _ _ _ _ => False := by
      refine h₂.uses (uses_ite ?_ ?_)
      · exact ((svc.steady_mgetStale _ _ _).mono fun _ => putsOnly_steady).bind fun _ => trivial
      · trivial
    dsimp only at h₂
    split at h₂
    · rename_i hallow
      obtain ⟨l₂, ⟨out', n⟩, l₃, rfl, h₃, h₄⟩ := h₂.bind_ret
      obtain ⟨found, hsub, hn, rfl, hfound⟩ := found_mgetStale h₃
      have hr := h₄.ret.2
      split at hr
      · rename_i hcount
        cases hr
        have hall : found.map Prod.fst = svc.missingFrom 0 looks :=
          hsub.eq_of_length (by rw [List.length_map, ← hcount, hn, Nat.zero_add])
        obtain ⟨ha', hanswers⟩ := setAll_missing ha hall staleAt fun _ => rfl
        refine .stale hm hallow ha' hlast hputs ?_
        intro read hread
        rw [← hall] at hread
        obtain ⟨x, hx, rfl⟩ := List.mem_map.1 hread
        obtain ⟨hmode, hitem⟩ := hfound x hx
        exact ⟨hmode, x.2, List.mem_append_left _ hitem, hanswers x hx⟩
      · cases hr
        exact .failed hm hlast hputs
    · obtain ⟨rfl, hr⟩ := h₂.ret
      cases hr
      exact .failed hm rfl hputs
  | ok values =>
    obtain ⟨l₂, out', l₃, rfl, h₃, h₄⟩ := h₂.bind_ret
    obtain ⟨l₃, _, l₄, rfl, h₅, h₆⟩ := h₄.bind_ret
    obtain ⟨parts, hparts, rfl, rfl⟩ := refilled_mgetStore h₃
    obtain ⟨rfl, hr⟩ := h₆.ret
    cases hr
    have hlength : values.length = (svc.missingFrom 0 looks).length :=
      (hup i _ values (List.mem_append_left _ (.tail _ (.head _)))).trans
        (List.length_map _)
    obtain ⟨ha', hanswers⟩ := setAll_missing ha (List.map_fst_zip hlength.ge) fetchedAt
      fun _ => rfl
    rw [List.append_nil]
    refine .fetched hm ha' hlength ?_ hparts h₅
    intro j read value hread hvalue
    apply hanswers (read, value)
    apply List.mem_of_getElem?
    rw [List.getElem?_zip_eq_some]
    exact ⟨hread, hvalue⟩

theorem Outcome.upstreamCalls_eq (h : svc.Outcome looks l r) : upstreamCalls l =
    if svc.missingFrom 0 looks = [] then []
    else [(svc.missingFrom 0 looks).map MissingRead.key] := by
  have hparts : ∀ {reads : List (MissingRead × Value)} {parts},
      List.Forall₂ svc.Refilled reads parts → upstreamCalls parts.flatten = [] := by
    intro reads parts h
    induction h with
    | nil => rfl
    | cons hx _ ih =>
      rw [List.flatten_cons, upstreamCalls_append, ih, List.append_nil]
      rw [Refilled] at hx
      split at hx
      · exact upstreamCalls_offline
          (offline_of_local (svc.local_reconcileLocalIfCurrent _ _ _ _)) hx
      · rw [hx]
        rfl
  cases h with
  | hits hm => rw [if_pos hm]; rfl
  | fetched hm ha hlength hvalues hparts' hlast =>
    rw [if_neg hm, upstreamCalls_append, upstreamCalls_append, hparts hparts',
      upstreamCalls_offline (offline_of_local svc.local_observeCache) hlast]
    rfl
  | failed hm hlast =>
    rw [if_neg hm, upstreamCalls_append, hlast]
    rfl
  | stale hm hallow ha hlast =>
    rw [if_neg hm, upstreamCalls_append, hlast]
    rfl

variable (svc) in
/-- The value that was fetched for a missing position is put under the key of that position, for as
long as its policy allows. -/
def Refills (looks : List Look) (r : Except Error (List Answer)) (tier : Tier) (key : Key)
    (v : Blob) (ttl : Time) : Prop :=
  ∃ read ∈ svc.missingFrom 0 looks, ∃ answers value, r = .ok answers ∧
    answers[read.position]? = some ⟨value, .upstream⟩ ∧ read.policy.mode = .cache ∧
    key = read.key ∧ v = value.data ∧ ttl = svc.refillTTL value read.policy tier

theorem Outcome.puts (h : svc.Outcome looks l r) {stored : Bool}
    (hx : ⟨.cache tier (.put key v ttl), stored⟩ ∈ l) : svc.Refills looks r tier key v ttl := by
  have hfetch : ∀ {i keys reply},
      ⟨.cache tier (.put key v ttl), stored⟩ ∉ fetchActs i keys reply := by
    intro i keys reply hx
    simp [fetchActs] at hx
  cases h with
  | hits => cases hx
  | @fetched i values parts last answers hm ha hlength hvalues hparts hlast =>
    replace hx := (List.mem_append.1 hx).resolve_left hfetch
    rcases List.mem_append.1 hx with hx | hx
    · obtain ⟨part, hpart, hx⟩ := List.mem_flatten.1 hx
      obtain ⟨j, ⟨read, value⟩, hread, hrefilled⟩ := exists_of_forall₂ hparts hpart
      rw [List.getElem?_zip_eq_some] at hread
      rw [Refilled] at hrefilled
      split at hrefilled
      · rename_i hmode
        obtain ⟨rfl, rfl, rfl⟩ := hrefilled.uses (svc.puts_reconcileLocalIfCurrent _ _ _ _) _ hx
        exact ⟨read, List.mem_of_getElem? hread.1, answers, value, rfl,
          hvalues j read value hread.1 hread.2, hmode, rfl, rfl, rfl⟩
      · rw [hrefilled] at hx
        cases hx
    · exact False.elim
        (hlast.uses (puts_bare (p := fun _ _ _ _ => False) svc.bare_observeCache) _ hx)
  | failed hm hlast hputs =>
    exact False.elim (hputs _ ((List.mem_append.1 hx).resolve_left hfetch))
  | stale hm hallow ha hlast hputs hstale =>
    exact False.elim (hputs _ ((List.mem_append.1 hx).resolve_left hfetch))

section Runs

variable {P : svc.machine.Rules} {g₀ g : svc.machine.Config} {tr : List svc.machine.Event}

/-- The goroutine has found this item in a tier, which held it unexpired. -/
def FreshHit (tr : List svc.machine.Event) (t : Nat) (key : Key) (item : EntrySnapshot) : Prop :=
  ∃ e ∈ tr, e.thread = t ∧ ∃ tier ent, e.before.find tier key = some ent ∧
    item.value = ent.value ∧ e.before.clock < ent.expiresAt

/-- The goroutine has found this item in the protected tier, expired by less than the grace. -/
def StaleHit (tr : List svc.machine.Event) (t : Nat) (key : Key) (item : EntrySnapshot) : Prop :=
  ∃ e ∈ tr, e.thread = t ∧ ∃ ent, e.before.find .cache key = some ent ∧
    item.value = ent.value ∧ e.before.clock < ent.expiresAt + max svc.cfg.cache.staleGrace 0

theorem FromTier.freshHit (h : Trail P g₀ tr g) (hx : FromTier (threadActs tr t) key item) :
    FreshHit tr t key item := by
  rcases hx with ⟨tier, hx⟩ | hx
  · obtain ⟨e, he, ht, -, c, s, hexec⟩ := exec_of_mem h hx
    obtain ⟨ent, hf, rfl, hlt⟩ := Cache.getLocked_hit (World.exec_cache hexec).1.symm
    exact ⟨e, he, ht, tier, ent, hf, rfl, hlt⟩
  · obtain ⟨e, he, ht, -, c, s, hexec⟩ := exec_of_mem h hx
    obtain ⟨ent, hf, rfl, hlt⟩ := Cache.getLocked_hit (World.exec_cache hexec).1.symm
    exact ⟨e, he, ht, .cache, ent, hf, rfl, hlt⟩

theorem staleHit (h : Trail P g₀ tr g)
    (hx : ⟨.cache .cache (.getStale key svc.cfg.cache.staleGrace), some item⟩ ∈ threadActs tr t) :
    StaleHit tr t key item := by
  obtain ⟨e, he, ht, -, c, s, hexec⟩ := exec_of_mem h hx
  obtain ⟨ent, hf, rfl, hlt⟩ := Cache.getLocked_hit (World.exec_cache hexec).1.symm
  refine ⟨e, he, ht, ent, hf, rfl, ?_⟩
  unfold Entry.expiryLimit at hlt
  split at hlt
  · exact hlt.trans_le (Int.add_le_add_left (le_max_left _ _) _)
  · exact hlt.trans_le (le_add_of_nonneg_right (le_max_right _ _))

theorem answered (h : Trail P g₀ tr g)
    (hx : ⟨.upstream (.answer i keys), .ok values⟩ ∈ threadActs tr t) :
    ∃ e ∈ tr, e.thread = t ∧ List.Forall₂ (fun key value => ∃ version pttl,
      value = e.before.origin.read i.ticket version pttl key) keys values := by
  obtain ⟨e, he, ht, -, c, s, hexec⟩ := exec_of_mem h hx
  refine ⟨e, he, ht, ?_⟩
  obtain ⟨s₁, hs, -⟩ := World.exec_upstream hexec
  obtain ⟨-, ⟨e', he'⟩ | ⟨l, hl, -, hr⟩⟩ := World.stepUpstream_answer hs
  · cases he'
  · cases hr
    clear hs hexec hx
    induction keys generalizing l with
    | nil => exact .nil
    | cons key keys ih =>
      cases l with
      | nil => cases hl
      | cons x l => exact .cons ⟨x.1, x.2, rfl⟩ (ih l (Nat.succ.inj hl))

/-- MGET is aligned, makes at most one upstream call, and returns all of its values or none: from
any state, whatever else is going on. All that it puts into a tier is the value that was fetched for
a missing position, under the key of that position. -/
theorem mget_aligned (h : Trail P g₀ tr g)
    (hmget : (svc.mget keys).After (threadActs tr t) (.ret r)) :
    ∃ (looks : List Look) (rest : List (Σ a, Action.Resp a)),
      List.Forall₂ svc.Looked keys looks ∧ threadActs tr t = looks.flatMap Look.acts ++ rest ∧
      svc.Outcome looks rest r ∧
      upstreamCalls (threadActs tr t) = (if svc.missingFrom 0 looks = [] then []
        else [(svc.missingFrom 0 looks).map MissingRead.key]) ∧
      (∀ x ∈ looks, ∀ item, x.item = some item →
        (svc.policy x.key).mode = .cache ∧ FreshHit tr t x.key item) ∧
      (∀ x ∈ looks, x.item = none → (svc.policy x.key).mode = .cache →
        ⟨.stripe (cacheEpochStripe x.key) .epochLoad, x.epoch⟩ ∈ x.acts) ∧
      (∀ i keys values, ⟨.upstream (.answer i keys), .ok values⟩ ∈ rest →
        ∃ e ∈ tr, e.thread = t ∧ List.Forall₂ (fun key value => ∃ version pttl,
          value = e.before.origin.read i.ticket version pttl key) keys values) ∧
      (∀ key item, ⟨.cache .cache (.getStale key svc.cfg.cache.staleGrace), some item⟩ ∈ rest →
        StaleHit tr t key item) ∧
      ∀ tier key v ttl stored, ⟨.cache tier (.put key v ttl), stored⟩ ∈ threadActs tr t →
        svc.Refills looks r tier key v ttl := by
  obtain ⟨l₁, ⟨out, missing⟩, rest, hacts, h₁, h₂⟩ := hmget.bind_ret
  obtain ⟨looks, hlooks, rfl, rfl, rfl⟩ := looked_mgetLocal h₁
  rw [List.nil_append] at h₂
  have ha : Aligned looks (setAll (keys.map fun _ => zeroAnswer) (hitsFrom 0 looks)) :=
    aligned_hits looks ((List.length_map _).trans hlooks.length_eq)
  have hrest : ∀ x ∈ rest, x ∈ threadActs tr t := by
    intro x hx
    rw [hacts]
    exact List.mem_append_right _ hx
  have hout : svc.Outcome looks rest r := by
    dsimp only at h₂
    split at h₂
    · rename_i hnone
      obtain ⟨rfl, hr⟩ := h₂.ret
      cases hr
      exact .hits (List.isEmpty_iff.1 hnone) ha
    · rename_i hsome
      refine outcome_mgetMissing ha (fun hm => hsome (List.isEmpty_iff.2 hm)) h₂ ?_
      intro i keys values hx
      obtain ⟨_, -, -, hall⟩ := answered h (hrest _ hx)
      exact hall.length_eq.symm
  refine ⟨looks, rest, hlooks, hacts, hout, ?_, ?_, ?_, ?_, ?_, ?_⟩
  · rw [hacts, upstreamCalls_append, upstreamCalls_looks hlooks, List.nil_append]
    exact hout.upstreamCalls_eq
  · intro x hx item hitem
    have hx' := after_of_looked hlooks hx
    rw [hitem] at hx'
    obtain ⟨hmode, htier⟩ := fromTier_lookup hx'
    refine ⟨hmode, FromTier.freshHit h (htier.mono ?_)⟩
    intro y hy
    rw [hacts]
    exact List.mem_append_left _ (List.mem_flatMap.2 ⟨x, hx, hy⟩)
  · intro x hx hnone hmode
    have hx' := after_of_looked hlooks hx
    rw [hnone] at hx'
    exact epoch_lookup hx' hmode
  · exact fun i keys values hx => answered h (hrest _ hx)
  · exact fun key item hx => staleHit h (hrest _ hx)
  · intro tier key v ttl stored hx
    rw [hacts] at hx
    rcases List.mem_append.1 hx with hx | hx
    · obtain ⟨look, hlook, hx⟩ := List.mem_flatMap.1 hx
      exact False.elim ((after_of_looked hlooks hlook).uses
        (svc.puts_lookup (p := fun _ _ _ _ => False) look.key) _ hx)
    · exact hout.puts hx

end Runs

def sampleMGet : sample.machine.Config :=
  ⟨sampleRead.state, [sample.mget [[7], [8]] >>= fun _ => .ret ()]⟩

def putKeys (l : List (Σ a, Action.Resp a)) : List Key :=
  l.filterMap fun x => match x with
    | ⟨.cache _ (.put key _ _), _⟩ => some key
    | _ => none

theorem mem_putKeys {l : List (Σ a, Action.Resp a)} (h : key ∈ putKeys l) :
    ∃ tier v ttl stored, ⟨.cache tier (.put key v ttl), stored⟩ ∈ l := by
  obtain ⟨x, hx, hkey⟩ := List.mem_filterMap.1 h
  split at hkey
  · cases hkey
    exact ⟨_, _, _, _, hx⟩
  · cases hkey

/-- The first key is a hit, and the second one is fetched and put. -/
theorem mget_aligned_sample : ∃ (tr : List sample.machine.Event) (r : _) (looks : List Look),
    (sample.mget [[7], [8]]).After (threadActs tr 0) (.ret r) ∧
      upstreamCalls (threadActs tr 0) = [[[8]]] ∧
      (sample.missingFrom 0 looks).map MissingRead.key = [[8]] ∧
      ∃ tier v ttl, sample.Refills looks r tier [8] v ttl := by
  have hnil : Trail (sample.calls false) sampleMGet [] sampleMGet := .nil
  have htr := hnil.drive (fun _ _ _ => trivial) pick 0 300
  rw [List.nil_append] at htr
  obtain ⟨q, hq, hafter⟩ := htr.after (t := 0) rfl
  have hret : q.returned = true := by
    have hpool : ((sampleMGet.drive pick 0 300).pool[0]?.map Prog.returned) = some true := by
      decide +kernel
    rw [hq] at hpool
    exact Option.some.inj hpool
  cases q with
  | act a k => cases hret
  | ret y =>
    obtain ⟨l₁, r, l₂, hacts, h₁, h₂⟩ := Prog.After.bind_ret hafter
    rw [h₂.ret.1, List.append_nil] at hacts
    have hmget : (sample.mget [[7], [8]]).After (threadActs (sampleMGet.events pick 0 300) 0)
        (.ret r) := by
      rw [threadActs, hacts]
      exact h₁
    have hcalls : upstreamCalls (threadActs (sampleMGet.events pick 0 300) 0) = [[[8]]] ∧
        [8] ∈ putKeys (threadActs (sampleMGet.events pick 0 300) 0) := by decide +kernel
    obtain ⟨hcalls, hput⟩ := hcalls
    obtain ⟨tier, v, ttl, stored, hput⟩ := mem_putKeys hput
    obtain ⟨looks, rest, -, -, -, hup, -, -, -, -, hputs⟩ := mget_aligned htr hmget
    refine ⟨_, r, looks, hmget, hcalls, ?_, tier, v, ttl, hputs _ _ _ _ _ hput⟩
    rw [hcalls] at hup
    split at hup
    · cases hup
    · exact (List.singleton_inj.1 hup).symm

end Service
end Slizen
