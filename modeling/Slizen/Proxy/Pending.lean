import Slizen.DoublyLinked
import Slizen.Proxy.Accounting

namespace Slizen.Proxy.DrainTracker
set_option autoImplicit true

open DoublyLinked

variable {d : DrainTracker} {l : List Nat} {n : Nat}

def fieldAt (d : DrainTracker) (field : TrackedConnection → Option β) (n : Nat) : Option β :=
  d.nodes[n]?.bind field

def links (d : DrainTracker) : Links Nat where
  head := d.pendingHead
  prev := d.fieldAt TrackedConnection.prev
  next := d.fieldAt TrackedConnection.next

def conns (d : DrainTracker) : List Conn := d.nodes.map TrackedConnection.conn

def pendingAt (d : DrainTracker) (n : Nat) : Bool :=
  (d.fieldAt (fun x => some x.pending) n).getD false

/-- The pending list holds these nodes, and they are the ones that are marked. -/
structure Queue (d : DrainTracker) (l : List Nat) : Prop where
  spells : d.links.Spells l
  pending : ∀ n, d.pendingAt n = true ↔ n ∈ l

theorem getElem?_modify (d : DrainTracker) (n : Nat) (f : TrackedConnection → TrackedConnection)
    (i : Nat) : (d.modify n f).nodes[i]? = if n = i then d.nodes[i]?.map f else d.nodes[i]? := by
  rw [modify, List.getElem?_modify]
  split <;> simp_all

theorem conns_modify {f : TrackedConnection → TrackedConnection} (hf : ∀ x, (f x).conn = x.conn)
    (n : Nat) : (d.modify n f).conns = d.conns := by
  apply List.ext_getElem?
  intro i
  rw [conns, List.getElem?_map, getElem?_modify, conns, List.getElem?_map]
  split
  · simp [Option.map_map, Function.comp_def, hf]
  · rfl

theorem modify_length (f : TrackedConnection → TrackedConnection) (n : Nat) :
    (d.modify n f).nodes.length = d.nodes.length := by simp [modify]

theorem fieldAt_modify {field : TrackedConnection → Option β} {v : Option β}
    {f : TrackedConnection → TrackedConnection} (hf : ∀ x, field (f x) = v)
    (hn : n < d.nodes.length) :
    (d.modify n f).fieldAt field = Function.update (d.fieldAt field) n v := by
  funext i
  rw [fieldAt, getElem?_modify]
  by_cases hi : n = i
  · subst hi
    rw [if_pos rfl, Function.update_self, List.getElem?_eq_getElem hn]
    exact hf _
  · rw [if_neg hi, Function.update_of_ne (Ne.symm hi), fieldAt]

theorem fieldAt_modify_same {field : TrackedConnection → Option β}
    {f : TrackedConnection → TrackedConnection} (hf : ∀ x, field (f x) = field x) (n : Nat) :
    (d.modify n f).fieldAt field = d.fieldAt field := by
  funext i
  rw [fieldAt, getElem?_modify, fieldAt]
  split
  · cases d.nodes[i]? with
    | none => rfl
    | some x => exact hf x
  · rfl

theorem pendingAt_modify {f : TrackedConnection → TrackedConnection}
    (hf : ∀ x, (f x).pending = x.pending) (n i : Nat) :
    (d.modify n f).pendingAt i = d.pendingAt i := by
  rw [pendingAt, fieldAt_modify_same, pendingAt]
  exact fun x => congrArg some (hf x)

theorem links_modify_prev (hn : n < d.nodes.length) (v : Option Nat) :
    (d.modify n fun x => { x with prev := v }).links =
      { d.links with prev := Function.update d.links.prev n v } := by
  apply Links.ext
  · rfl
  · exact fieldAt_modify (fun _ => rfl) hn
  · apply fieldAt_modify_same
    exact fun _ => rfl

theorem links_modify_next (hn : n < d.nodes.length) (v : Option Nat) :
    (d.modify n fun x => { x with next := v }).links =
      { d.links with next := Function.update d.links.next n v } := by
  apply Links.ext
  · rfl
  · apply fieldAt_modify_same
    exact fun _ => rfl
  · exact fieldAt_modify (fun _ => rfl) hn

theorem links_modify_clear (hn : n < d.nodes.length) :
    (d.modify n fun x => { x with prev := none, next := none, pending := false }).links =
      { d.links with
        prev := Function.update d.links.prev n none
        next := Function.update d.links.next n none } :=
  Links.ext rfl (fieldAt_modify (fun _ => rfl) hn) (fieldAt_modify (fun _ => rfl) hn)

theorem Queue.lt (h : d.Queue l) (hn : n ∈ l) : n < d.nodes.length := by
  by_contra hge
  have := (h.pending n).2 hn
  rw [pendingAt, fieldAt, List.getElem?_eq_none (not_lt.1 hge)] at this
  cases this

theorem Queue.head_lt (h : d.Queue l) (hn : d.pendingHead = some n) : n < d.nodes.length :=
  h.lt (List.mem_of_mem_head? (h.spells.head ▸ hn))

theorem fieldAt_append (d : DrainTracker) (x : TrackedConnection)
    (field : TrackedConnection → Option β) :
    fieldAt { d with nodes := d.nodes ++ [x] } field =
      Function.update (d.fieldAt field) d.nodes.length (field x) := by
  funext i
  by_cases hi : i = d.nodes.length
  · subst hi
    rw [Function.update_self, fieldAt, List.getElem?_concat_length]
    rfl
  · rw [Function.update_of_ne hi, fieldAt, fieldAt, List.getElem?_append]
    split
    · rfl
    · rw [List.getElem?_eq_none (by simp; omega), List.getElem?_eq_none (by omega)]

/-- The old head points back to a new one. -/
def linkHead (d : DrainTracker) (node : Nat) : DrainTracker :=
  match d.pendingHead with
  | some head => d.modify head fun tracked => { tracked with prev := some node }
  | none => d

theorem linkHead_length (node : Nat) : (d.linkHead node).nodes.length = d.nodes.length := by
  unfold linkHead
  split
  · exact modify_length ..
  · rfl

theorem linkHead_conns (node : Nat) : (d.linkHead node).conns = d.conns := by
  unfold linkHead
  split
  · apply conns_modify
    exact fun _ => rfl
  · rfl

theorem linkHead_pendingAt (node i : Nat) : (d.linkHead node).pendingAt i = d.pendingAt i := by
  unfold linkHead
  split
  · apply pendingAt_modify
    exact fun _ => rfl
  · rfl

theorem Queue.links_linkHead (h : d.Queue l) (node : Nat) : (d.linkHead node).links =
    { d.links with prev := Links.assign d.links.prev d.links.head (some node) } := by
  unfold linkHead
  split
  · rename_i head hh
    rw [links_modify_prev (h.head_lt hh)]
    rw [show d.links.head = some head from hh]
    rfl
  · rename_i hh
    rw [show d.links.head = none from hh]
    rfl

theorem Queue.track (h : d.Queue l) (conn : Conn) :
    (d.track conn).Queue (d.nodes.length :: l) := by
  have hnew : d.nodes.length ∉ l := fun hn => absurd (h.lt hn) (lt_irrefl _)
  have hlen : (d.linkHead d.nodes.length).nodes.length = d.nodes.length := linkHead_length _
  have hlinks : (d.track conn).links = d.links.push d.nodes.length := by
    have hhead := h.links_linkHead d.nodes.length
    apply Links.ext
    · rfl
    · have := fieldAt_append (d.linkHead d.nodes.length) ⟨conn, none, d.pendingHead, true⟩
        TrackedConnection.prev
      rw [hlen, show fieldAt (d.linkHead _) _ = _ from congrArg Links.prev hhead] at this
      exact this
    · have := fieldAt_append (d.linkHead d.nodes.length) ⟨conn, none, d.pendingHead, true⟩
        TrackedConnection.next
      rw [hlen, show fieldAt (d.linkHead _) _ = _ from congrArg Links.next hhead] at this
      exact this
  constructor
  · rw [hlinks]
    exact h.spells.push hnew
  · intro n
    have hpending := fieldAt_append (d.linkHead d.nodes.length) ⟨conn, none, d.pendingHead, true⟩
      fun x => some x.pending
    rw [hlen] at hpending
    have heq : (d.track conn).pendingAt n =
        (Function.update (fieldAt (d.linkHead d.nodes.length) fun x => some x.pending)
          d.nodes.length (some true) n).getD false := congrArg (fun f => (f n).getD false) hpending
    rw [heq, List.mem_cons]
    by_cases hn : n = d.nodes.length
    · subst hn
      simp
    · rw [Function.update_of_ne hn]
      simp only [hn, false_or]
      rw [← h.pending n, ← linkHead_pendingAt d.nodes.length n]
      rfl

theorem conns_track (d : DrainTracker) (conn : Conn) :
    (d.track conn).conns = d.conns ++ [conn] := by
  rw [← linkHead_conns d.nodes.length (d := d)]
  exact List.map_append

/-- What comes before a node now leads past it. -/
def skipPrev (d : DrainTracker) (tracked : TrackedConnection) : DrainTracker :=
  match tracked.prev with
  | none => { d with pendingHead := tracked.next }
  | some prev => d.modify prev fun other => { other with next := tracked.next }

/-- What comes after a node now leads back past it. -/
def skipNext (d : DrainTracker) (tracked : TrackedConnection) : DrainTracker :=
  match tracked.next with
  | none => d
  | some next => d.modify next fun other => { other with prev := tracked.prev }

theorem removePendingLocked_eq (hs : d.nodes[n]? = some tracked) (hp : tracked.pending = true) :
    d.removePendingLocked n = ((d.skipPrev tracked).skipNext tracked).modify n fun tracked =>
      { tracked with prev := none, next := none, pending := false } := by
  rw [removePendingLocked, hs]
  exact if_pos hp

theorem skip_length (tracked : TrackedConnection) :
    (d.skipPrev tracked).nodes.length = d.nodes.length ∧
      (d.skipNext tracked).nodes.length = d.nodes.length := by
  unfold skipPrev skipNext
  constructor
  · split
    · rfl
    · exact modify_length ..
  · split
    · rfl
    · exact modify_length ..

theorem skip_conns (tracked : TrackedConnection) :
    (d.skipPrev tracked).conns = d.conns ∧ (d.skipNext tracked).conns = d.conns := by
  unfold skipPrev skipNext
  constructor
  · split
    · rfl
    · apply conns_modify
      exact fun _ => rfl
  · split
    · rfl
    · apply conns_modify
      exact fun _ => rfl

theorem skip_pendingAt (tracked : TrackedConnection) (i : Nat) :
    (d.skipPrev tracked).pendingAt i = d.pendingAt i ∧
      (d.skipNext tracked).pendingAt i = d.pendingAt i := by
  unfold skipPrev skipNext
  constructor
  · split
    · rfl
    · apply pendingAt_modify
      exact fun _ => rfl
  · split
    · rfl
    · apply pendingAt_modify
      exact fun _ => rfl

theorem links_skipPrev (hp : ∀ m, tracked.prev = some m → m < d.nodes.length) :
    (d.skipPrev tracked).links =
      { d.links with
        head := match tracked.prev with
          | none => tracked.next
          | some _ => d.links.head
        next := Links.assign d.links.next tracked.prev tracked.next } := by
  unfold skipPrev
  split
  · rename_i hn
    rw [hn]
    rfl
  · rename_i m hm
    rw [links_modify_next (hp m hm), hm]
    rfl

theorem links_skipNext (hn : ∀ m, tracked.next = some m → m < d.nodes.length) :
    (d.skipNext tracked).links =
      { d.links with prev := Links.assign d.links.prev tracked.next tracked.prev } := by
  unfold skipNext
  split
  · rename_i hm
    rw [hm]
    rfl
  · rename_i m hm
    rw [links_modify_prev (hn m hm), hm]
    rfl

theorem Queue.removePendingLocked {l₁ l₂ : List Nat} (h : d.Queue (l₁ ++ n :: l₂)) :
    (d.removePendingLocked n).Queue (l₁ ++ l₂) ∧ (d.removePendingLocked n).conns = d.conns := by
  have hpend : d.pendingAt n = true := (h.pending n).2 (by simp)
  obtain ⟨tracked, hs, hp⟩ : ∃ tracked, d.nodes[n]? = some tracked ∧ tracked.pending = true := by
    rw [pendingAt, fieldAt] at hpend
    cases hs : d.nodes[n]? with
    | none =>
      rw [hs] at hpend
      cases hpend
    | some tracked =>
      rw [hs] at hpend
      exact ⟨tracked, rfl, hpend⟩
  have hprev : d.links.prev n = tracked.prev := by
    show fieldAt d _ n = _
    rw [fieldAt, hs]
    rfl
  have hnext : d.links.next n = tracked.next := by
    show fieldAt d _ n = _
    rw [fieldAt, hs]
    rfl
  have hlt : ∀ {m : Nat}, m ∈ l₁ ++ n :: l₂ → m < d.nodes.length := h.lt
  have hfront : ∀ m, tracked.prev = some m → m < d.nodes.length := by
    intro m hm
    obtain ⟨l₃, l₄, he⟩ := h.spells.prev_eq (hprev.trans hm)
    exact hlt (by rw [he]; simp)
  have hback : ∀ m, tracked.next = some m → m < (d.skipPrev tracked).nodes.length := by
    intro m hm
    rw [(skip_length tracked).1]
    obtain ⟨l₃, l₄, he⟩ := h.spells.next_eq (hnext.trans hm)
    exact hlt (by rw [he]; simp)
  have hn : n < ((d.skipPrev tracked).skipNext tracked).nodes.length := by
    rw [(skip_length tracked).2, (skip_length tracked).1]
    exact hlt (by simp)
  rw [removePendingLocked_eq hs hp]
  refine ⟨⟨?_, fun i => ?_⟩, ?_⟩
  · rw [links_modify_clear hn, links_skipNext hback, links_skipPrev hfront, ← hprev, ← hnext]
    have hunlink := h.spells.unlink
    rw [Links.unlink] at hunlink
    cases hcase : d.links.prev n with
    | none =>
      rw [hcase] at hunlink
      exact hunlink
    | some m =>
      rw [hcase] at hunlink
      exact hunlink
  · rw [pendingAt, fieldAt_modify (v := some false) (fun _ => rfl) hn]
    by_cases hi : i = n
    · subst hi
      have hnodup := List.nodup_middle.1 h.spells.nodup
      rw [Function.update_self]
      simpa using (List.nodup_cons.1 hnodup).1
    · rw [Function.update_of_ne hi]
      rw [← pendingAt, (skip_pendingAt tracked i).2, (skip_pendingAt tracked i).1, h.pending i]
      simp [hi]
  · refine (conns_modify ?_ n).trans ((skip_conns tracked).2.trans (skip_conns tracked).1)
    exact fun _ => rfl

theorem removePendingLocked_of_not_pending (h : d.pendingAt n = false) :
    d.removePendingLocked n = d := by
  rw [DrainTracker.removePendingLocked]
  split
  · rfl
  · rename_i tracked hs
    rw [pendingAt, fieldAt, hs] at h
    exact if_neg (by simpa using h)

theorem Queue.conn_of_mem (h : d.Queue l) (hn : n ∈ l) : ∃ c, d.conns[n]? = some c :=
  ⟨_, List.getElem?_eq_getElem (by simpa [conns] using h.lt hn)⟩

theorem Queue.takeBatch (h : d.Queue l) (room : Nat) :
    (d.takeBatch room).1 = (l.take room).filterMap (d.conns[·]?) ∧
      (d.takeBatch room).2.Queue (l.drop room) ∧ (d.takeBatch room).2.conns = d.conns := by
  induction room generalizing d l with
  | zero => exact ⟨rfl, h, rfl⟩
  | succ room ih =>
    cases l with
    | nil =>
      have hhead : d.pendingHead = none := h.spells.head
      rw [DrainTracker.takeBatch, hhead]
      exact ⟨rfl, h, rfl⟩
    | cons n l =>
      have hhead : d.pendingHead = some n := h.spells.head
      obtain ⟨c, hc⟩ := h.conn_of_mem List.mem_cons_self
      obtain ⟨tracked, hs, rfl⟩ := Option.map_eq_some_iff.1 ((List.getElem?_map ..).symm.trans hc)
      have hfront : d.Queue ([] ++ n :: l) := h
      obtain ⟨hq, hconns⟩ := hfront.removePendingLocked
      obtain ⟨hbatch, hrest, hsame⟩ := ih hq
      have htake : d.takeBatch (room + 1) =
          (tracked.conn :: ((d.removePendingLocked n).takeBatch room).1,
            ((d.removePendingLocked n).takeBatch room).2) := by
        rw [DrainTracker.takeBatch, hhead]
        simp only [Option.bind_some, hs, Option.map_some]
      rw [htake]
      refine ⟨?_, hrest, hsame.trans hconns⟩
      rw [hbatch, hconns, List.take_succ_cons, List.filterMap_cons, hc]
      rfl

theorem countP_range (nodes : List TrackedConnection) :
    (List.range nodes.length).countP
      (fun i => ((nodes[i]?.bind fun x => some x.pending).getD false)) =
      nodes.countP TrackedConnection.pending := by
  induction nodes with
  | nil => rfl
  | cons x nodes ih =>
    rw [List.length_cons, List.range_succ_eq_map, List.countP_cons, List.countP_map,
      List.countP_cons, ← ih]
    rfl

theorem Queue.length_le (h : d.Queue l) : l.length ≤ d.pendingLen := by
  have hsub : l ⊆ (List.range d.nodes.length).filter d.pendingAt := by
    intro n hn
    exact List.mem_filter.2 ⟨List.mem_range.2 (h.lt hn), (h.pending n).2 hn⟩
  rw [pendingLen, ← countP_range, List.countP_eq_length_filter]
  exact (List.subperm_of_subset h.spells.nodup hsub).length_le

/-- The map leads to the nodes of its connections, and those of the pending ones are in it. -/
structure Tracking (d : DrainTracker) (l : List Nat) : Prop extends Queue d l where
  named : ∀ c n, d.connections.lookup c = some n → d.conns[n]? = some c
  live : ∀ n ∈ l, ∀ c, d.conns[n]? = some c → d.connections.lookup c = some n

theorem conns_length (d : DrainTracker) : d.conns.length = d.nodes.length := List.length_map _

theorem conn_track {n : Nat} (hc : c ∉ d.conns) : (d.track c).conns[n]? = some c' ↔
    n = d.nodes.length ∧ c' = c ∨ d.conns[n]? = some c' ∧ c' ≠ c ∧ n ≠ d.nodes.length := by
  rw [conns_track, List.getElem?_append, conns_length]
  split
  · rename_i hn
    constructor
    · intro hs
      refine .inr ⟨hs, ?_, by omega⟩
      rintro rfl
      exact hc (List.mem_of_getElem? hs)
    · rintro (⟨rfl, -⟩ | ⟨hs, -⟩)
      · omega
      · exact hs
  · rename_i hn
    have hnone : d.conns[n]? = none := List.getElem?_eq_none (by rw [conns_length]; omega)
    rw [hnone, List.getElem?_singleton]
    by_cases hz : n = d.nodes.length
    · subst hz
      simp [eq_comm]
    · rw [if_neg (by omega)]
      simp [hz]

theorem Tracking.track (h : d.Tracking l) (hc : c ∉ d.conns) :
    (d.track c).Tracking (d.nodes.length :: l) where
  toQueue := h.toQueue.track c
  named := by
    intro c' n hn
    rw [conn_track hc]
    have hlookup : (d.connections.insert c d.nodes.length).lookup c' = some n := hn
    by_cases hcc : c' = c
    · subst hcc
      rw [AList.lookup_insert] at hlookup
      exact .inl ⟨(Option.some.inj hlookup).symm, rfl⟩
    · rw [AList.lookup_insert_ne hcc] at hlookup
      have hs := h.named c' n hlookup
      have hlt := (List.getElem?_eq_some_iff.1 hs).1
      rw [conns_length] at hlt
      exact .inr ⟨hs, hcc, by omega⟩
  live := by
    intro n hn c' hc'
    show (d.connections.insert c d.nodes.length).lookup c' = some n
    rcases (conn_track hc).1 hc' with ⟨rfl, rfl⟩ | ⟨hs, hne, hlen⟩
    · exact AList.lookup_insert ..
    · rw [AList.lookup_insert_ne hne]
      exact h.live n ((List.mem_cons.1 hn).resolve_left hlen) c' hs

def Waits (d : DrainTracker) (l : List Nat) (c : Conn) : Prop := ∃ n ∈ l, d.conns[n]? = some c

theorem waits_track (h : d.Tracking l) (hc : c ∉ d.conns) :
    (d.track c).Waits (d.nodes.length :: l) c' ↔ c' = c ∨ d.Waits l c' := by
  simp only [Waits, conn_track hc]
  constructor
  · rintro ⟨n, hn, ⟨-, rfl⟩ | ⟨hs, -, hlen⟩⟩
    · exact .inl rfl
    · exact .inr ⟨n, (List.mem_cons.1 hn).resolve_left hlen, hs⟩
  · rintro (rfl | ⟨n, hn, hs⟩)
    · exact ⟨_, List.mem_cons_self, .inl ⟨rfl, rfl⟩⟩
    · have := h.lt hn
      refine ⟨n, List.mem_cons_of_mem _ hn, .inr ⟨hs, ?_, by omega⟩⟩
      rintro rfl
      exact hc (List.mem_of_getElem? hs)

theorem Tracking.erase {d' : DrainTracker} {l' : List Nat} (h : d.Tracking l) (hq : d'.Queue l')
    (hconns : d'.conns = d.conns) (hmem : ∀ n, n ∈ l' ↔ n ∈ l ∧ d.conns[n]? ≠ some c) :
    Tracking { d' with connections := d.connections.erase c } l' ∧
      ∀ c', d'.Waits l' c' ↔ c' ≠ c ∧ d.Waits l c' := by
  refine ⟨⟨⟨hq.spells, hq.pending⟩, fun c' n hn => ?_, fun n hn c' hc' => ?_⟩, fun c' => ?_⟩
  · have hlookup : (d.connections.erase c).lookup c' = some n := hn
    by_cases hcc : c' = c
    · rw [hcc, AList.lookup_erase] at hlookup
      cases hlookup
    · rw [AList.lookup_erase_ne hcc] at hlookup
      exact (congrArg (·[n]?) hconns).trans (h.named c' n hlookup)
  · replace hc' : d.conns[n]? = some c' := hconns ▸ hc'
    obtain ⟨hl, hne⟩ := (hmem n).1 hn
    have hcc : c' ≠ c := by
      rintro rfl
      exact hne hc'
    show (d.connections.erase c).lookup c' = some n
    rw [AList.lookup_erase_ne hcc]
    exact h.live n hl c' hc'
  · simp only [Waits, hconns]
    constructor
    · rintro ⟨n, hn, hs⟩
      obtain ⟨hl, hne⟩ := (hmem n).1 hn
      refine ⟨?_, n, hl, hs⟩
      rintro rfl
      exact hne hs
    · rintro ⟨hne, n, hn, hs⟩
      refine ⟨n, (hmem n).2 ⟨hn, fun hc => hne ?_⟩, hs⟩
      exact Option.some.inj (hs.symm.trans hc)

theorem Tracking.untrack (h : d.Tracking l) (c : Conn) :
    ∃ l', (d.untrack c).Tracking l' ∧ (d.untrack c).conns = d.conns ∧ l'.length ≤ l.length ∧
      ∀ c', (d.untrack c).Waits l' c' ↔ c' ≠ c ∧ d.Waits l c' := by
  have hname : ∀ n ∈ l, d.conns[n]? = some c → d.connections.lookup c = some n :=
    fun n hn hs => h.live n hn c hs
  have hstay : (∀ n ∈ l, d.connections.lookup c ≠ some n) →
      ∀ n, n ∈ l ↔ n ∈ l ∧ d.conns[n]? ≠ some c := by
    intro hnone n
    exact ⟨fun hn => ⟨hn, fun hs => hnone n hn (hname n hn hs)⟩, And.left⟩
  unfold DrainTracker.untrack
  cases hl : d.connections.lookup c with
  | none =>
    have hnone := hstay (by rw [hl]; exact nofun)
    obtain ⟨ht, hw⟩ := h.erase h.toQueue rfl hnone
    exact ⟨l, ht, rfl, le_rfl, hw⟩
  | some n =>
    dsimp only
    by_cases hn : n ∈ l
    · obtain ⟨l₁, l₂, rfl⟩ := List.append_of_mem hn
      obtain ⟨hq, hconns⟩ := Queue.removePendingLocked h.toQueue
      have hnodup := List.nodup_middle.1 h.spells.nodup
      have hmem : ∀ m, m ∈ l₁ ++ l₂ ↔ m ∈ l₁ ++ n :: l₂ ∧ d.conns[m]? ≠ some c := by
        intro m
        constructor
        · intro hm
          have hm' : m ∈ l₁ ++ n :: l₂ := by
            rcases List.mem_append.1 hm with hm | hm <;> simp [hm]
          refine ⟨hm', fun hs => ?_⟩
          cases hl.symm.trans (hname m hm' hs)
          exact (List.nodup_cons.1 hnodup).1 hm
        · rintro ⟨hm, hs⟩
          have hne : m ≠ n := by
            rintro rfl
            exact hs (h.named c m hl)
          simpa [hne] using hm
      obtain ⟨ht, hw⟩ := h.erase hq hconns hmem
      exact ⟨l₁ ++ l₂, ht, hconns, by simp, hw⟩
    · have hfalse : d.pendingAt n = false := by
        rw [← Bool.not_eq_true, h.pending n]
        exact hn
      have hnone := hstay (by
        intro m hm hs
        cases hl.symm.trans hs
        exact hn hm)
      obtain ⟨ht, hw⟩ := h.erase h.toQueue rfl hnone
      rw [removePendingLocked_of_not_pending hfalse]
      exact ⟨l, ht, rfl, le_rfl, hw⟩

theorem mem_batch (h : d.Queue l) (room : Nat) : c ∈ (d.takeBatch room).1 ↔
    ∃ n ∈ l.take room, d.conns[n]? = some c := by
  rw [(h.takeBatch room).1, List.mem_filterMap]

theorem Tracking.inj (h : d.Tracking l) (hm : m ∈ l) (hn : n ∈ l) (hmc : d.conns[m]? = some c)
    (hnc : d.conns[n]? = some c) : m = n :=
  Option.some.inj ((h.live m hm c hmc).symm.trans (h.live n hn c hnc))

theorem Tracking.takeBatch (h : d.Tracking l) (room : Nat) :
    (d.takeBatch room).2.Tracking (l.drop room) ∧ (d.takeBatch room).1.Nodup ∧
      ∀ c, (d.takeBatch room).2.Waits (l.drop room) c ↔
        d.Waits l c ∧ c ∉ (d.takeBatch room).1 := by
  obtain ⟨hbatch, hq, hconns⟩ := h.toQueue.takeBatch room
  have hcount := (d.takeBatch_same room).connections
  have hdrop : ∀ {n}, n ∈ l.drop room → n ∈ l := List.mem_of_mem_drop
  have htake : ∀ {n}, n ∈ l.take room → n ∈ l := List.mem_of_mem_take
  refine ⟨⟨hq, fun c n hn => ?_, fun n hn c hc => ?_⟩, ?_, fun c => ?_⟩
  · rw [hcount] at hn
    rw [hconns]
    exact h.named c n hn
  · rw [hconns] at hc
    rw [hcount]
    exact h.live n (hdrop hn) c hc
  · rw [hbatch]
    have hnodup := h.spells.nodup.sublist (List.take_sublist room l)
    apply List.pairwise_filterMap.2
    apply List.Pairwise.imp_of_mem _ hnodup
    rintro m n hm hn hne c hc _ hc' rfl
    exact hne (h.inj (htake hm) (htake hn) hc hc')
  · rw [mem_batch h.toQueue]
    simp only [Waits, hconns]
    constructor
    · rintro ⟨n, hn, hs⟩
      refine ⟨⟨n, hdrop hn, hs⟩, ?_⟩
      rintro ⟨m, hm, hms⟩
      cases h.inj (hdrop hn) (htake hm) hs hms
      have hnodup := h.spells.nodup
      rw [← List.take_append_drop room l] at hnodup
      exact List.disjoint_of_nodup_append hnodup hm hn
    · rintro ⟨⟨n, hn, hs⟩, hnot⟩
      rw [← List.take_append_drop room l] at hn
      rcases List.mem_append.1 hn with hn | hn
      · exact absurd ⟨n, hn, hs⟩ hnot
      · exact ⟨n, hn, hs⟩

end Slizen.Proxy.DrainTracker
