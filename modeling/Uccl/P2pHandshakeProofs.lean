import Mathlib.Algebra.Ring.Nat
import Uccl.StepRunProofs

/-! # Whose data channel is it

    A server of p2p/rdma/rdma_endpoint.cc has the metadata of every channel that a client opens from one TCP connection:
    first the control channel of a connect and then its data channels. For the control channel `process_meta` takes a
    new peer id, makes a receive group and notes the address, port and GPU of the client in `accepted_meta_`;
    `uccl_accept` takes the entry out when the group is complete. A data channel says nothing about its connect:
    `process_meta` adds it to a group whose entry has the same address, port and GPU.

    `EpollClient::connect_to_server` (p2p/util/epoll_client.cc) keeps one TCP connection for a server, so all connects
    of an endpoint look the same, and the order of an `unordered_map` decides (`channel_stolen`, `attributed_apart`).

    Which connect a message is from is read by no function of the source. The peer ids are `int32_t` and natural numbers
    here: no NIC has enough queue pairs for `2 ^ 31` groups. -/

namespace P2pHandshake

open StepRun Function List Except

-- ── The server

def kQpNumPerChannel : ℕ := 4

def invalidPeerId : ℕ := 2 ^ 32 - 1

/-- What an entry of `accepted_meta_` says about a client. -/
structure Client where
  ip : ℕ
  port : ℕ
  gpuId : ℕ
  deriving DecidableEq

/-- A `RecvConnection`: the connect whose control channel it has, and the connect of each data
    channel, by channel id. -/
structure Group where
  control : Option ℕ
  channels : List (ℕ × ℕ)
  deriving DecidableEq

def Group.empty : Group := ⟨none, []⟩

/-- `add_channel`: a channel with the same id is replaced. -/
def Group.addChannel (g : Group) (channelId connect : ℕ) : Group :=
  { g with channels := g.channels.filter (fun e => e.1 ≠ channelId) ++ [(channelId, connect)] }

def Group.channelCount (g : Group) : ℕ := g.channels.length + if g.control.isSome then 1 else 0

/-- A `uccl_connect`: its client, and how many of its data channels the server has seen. -/
structure Connect where
  client : Client
  seen : ℕ
  deriving DecidableEq

structure Sys where
  /-- The connects in the order of their control channels. -/
  connects : List Connect
  nextRecvPeerId : ℕ
  groups : ℕ → Group
  acceptedMeta : List (ℕ × Client)
  /-- The peer ids that `uccl_accept` has returned. -/
  returned : List ℕ

def Sys.init : Sys := ⟨[], 0, fun _ => .empty, [], []⟩

/-- `process_meta` for a control channel. -/
def control (s : Sys) (client : Client) : Sys :=
  { s with
    connects := s.connects ++ [⟨client, 0⟩]
    nextRecvPeerId := s.nextRecvPeerId + 1
    groups := Function.update s.groups s.nextRecvPeerId
      { s.groups s.nextRecvPeerId with control := some s.connects.length }
    acceptedMeta := s.acceptedMeta ++ [(s.nextRecvPeerId, client)] }

/-- The entry that the loop over `accepted_meta_` stops at: any that matches, since the map has no order. -/
def findPeer (acceptedMeta : List (ℕ × Client)) (client : Client) (pick : ℕ) : ℕ :=
  let matching := acceptedMeta.filter fun e => e.2 = client
  match matching[pick % matching.length]? with
  | none => invalidPeerId
  | some e => e.1

/-- `process_meta` for the next data channel of a connect. -/
def data (s : Sys) (connect pick : ℕ) : Sys :=
  match s.connects[connect]? with
  | none => s
  | some c =>
    if c.seen < kQpNumPerChannel then
      let actualPeerId := findPeer s.acceptedMeta c.client pick
      { s with
        connects := s.connects.set connect { c with seen := c.seen + 1 }
        groups := Function.update s.groups actualPeerId
          ((s.groups actualPeerId).addChannel (c.seen + 1) connect) }
    else s

/-- `uccl_accept` looks at one entry, and takes it out if its group is complete. -/
def accept (s : Sys) (pick : ℕ) : Sys :=
  match s.acceptedMeta[pick]? with
  | none => s
  | some e =>
    if (s.groups e.1).channelCount = kQpNumPerChannel + 1 then
      { s with acceptedMeta := s.acceptedMeta.erase e, returned := s.returned ++ [e.1] }
    else s

inductive Action
  | control (client : Client)
  | data (connect pick : ℕ)
  | accept (pick : ℕ)

def step (s : Sys) : Action → Except Empty Sys
  | .control client => .ok (control s client)
  | .data connect pick => .ok (data s connect pick)
  | .accept pick => .ok (accept s pick)

/-- Every data channel is in the group of its own connect, and a connection that was accepted has all
    of its channels. -/
structure Attributed (s : Sys) : Prop where
  own : ∀ peerId, ∀ e ∈ (s.groups peerId).channels, (s.groups peerId).control = some e.2
  placed : ∀ (connect : ℕ) (c : Connect), s.connects[connect]? = some c → ∀ i < c.seen,
    ∃ peerId, (s.groups peerId).control = some connect ∧ (i + 1, connect) ∈ (s.groups peerId).channels
  complete : ∀ peerId ∈ s.returned, ∃ connect, (s.groups peerId).control = some connect ∧
    (s.groups peerId).channels = (List.range kQpNumPerChannel).map fun i => (i + 1, connect)

-- ── The defects

def someClient : Client := ⟨1, 40000, 0⟩

/-- **A CHANNEL IS STOLEN**: two threads of one endpoint connect, and the first data channel of the first
    connect goes to the group of the second. -/
theorem channel_stolen : ∃ s, runFrom step Sys.init
      [.control someClient, .control someClient, .data 0 1] = .ok s ∧
    s.groups 0 = ⟨some 0, []⟩ ∧ s.groups 1 = ⟨some 1, [(1, 0)]⟩ ∧ ¬ Attributed s := by
  refine ⟨_, rfl, rfl, rfl, fun h => ?_⟩
  have hcon : (some 1 : Option ℕ) = some 0 := h.own 1 (1, 0) mem_cons_self
  exact absurd (Option.some.inj hcon) (by decide)

-- ── Connects that keep apart

/-- No connect begins while an entry of the same client waits to be accepted. -/
def Apart (s : Sys) : Action → Prop
  | .control client => ∀ e ∈ s.acceptedMeta, e.2 ≠ client
  | .data _ _ => True
  | .accept _ => True

instance (s : Sys) (a : Action) : Decidable (Apart s a) := by
  cases a <;> unfold Apart <;> infer_instance

/-- The group of a connect with `seen` of its channels. -/
def groupOf (connect seen : ℕ) : Group := ⟨some connect, (List.range seen).map fun i => (i + 1, connect)⟩

structure Inv (s : Sys) : Prop where
  next : s.nextRecvPeerId = s.connects.length
  /-- The peer id of a connect is its number, and its group has what was seen of it. -/
  group : ∀ (connect : ℕ) (c : Connect), s.connects[connect]? = some c → s.groups connect = groupOf connect c.seen
  fresh : ∀ peerId, s.connects.length ≤ peerId → s.groups peerId = .empty
  /-- A connect that is not complete has its entry. -/
  waiting : ∀ (connect : ℕ) (c : Connect), s.connects[connect]? = some c → c.seen < kQpNumPerChannel →
    (connect, c.client) ∈ s.acceptedMeta
  entry : ∀ e ∈ s.acceptedMeta, ∃ c : Connect, s.connects[e.1]? = some c ∧ c.client = e.2
  /-- The entries are of different clients. -/
  apart : s.acceptedMeta.Pairwise fun e e' => e.2 ≠ e'.2
  full : ∀ peerId ∈ s.returned, ∃ c : Connect, s.connects[peerId]? = some c ∧ c.seen = kQpNumPerChannel

theorem Inv.init : Inv Sys.init where
  next := rfl
  group := fun connect c h => by cases h
  fresh := fun _ _ => rfl
  waiting := fun connect c h => by cases h
  entry := forall_mem_nil _
  apart := List.Pairwise.nil
  full := forall_mem_nil _

variable {acceptedMeta : List (ℕ × Client)} {client : Client}

/-- Where the clients differ, one entry matches. -/
theorem filter_client (hapart : acceptedMeta.Pairwise fun e e' => e.2 ≠ e'.2)
    {e : ℕ × Client} (hmem : e ∈ acceptedMeta) : acceptedMeta.filter (fun e' => e'.2 = e.2) = [e] := by
  induction acceptedMeta with
  | nil => cases hmem
  | cons x rest ih =>
    obtain ⟨hx, hrest⟩ := pairwise_cons.mp hapart
    rcases mem_cons.mp hmem with heq | htail
    · have hnone : rest.filter (fun e' => e'.2 = e.2) = [] := by
        refine filter_eq_nil_iff.mpr fun y hy hye => ?_
        exact hx y hy ((heq ▸ (of_decide_eq_true hye).symm : x.2 = y.2))
      rw [filter_cons_of_pos (by rw [heq]; exact decide_eq_true rfl), hnone, heq]
    · have hneg : ¬ decide (x.2 = e.2) = true := fun hxe => hx e htail (of_decide_eq_true hxe)
      rw [filter_cons, if_neg hneg, ih hrest htail]

theorem findPeer_eq (hapart : acceptedMeta.Pairwise fun e e' => e.2 ≠ e'.2)
    {connect : ℕ} (hmem : (connect, client) ∈ acceptedMeta) (pick : ℕ) :
    findPeer acceptedMeta client pick = connect := by
  have hfilter : acceptedMeta.filter (fun e => e.2 = client) = [(connect, client)] := filter_client hapart hmem
  unfold findPeer
  dsimp only
  rw [hfilter, length_singleton, Nat.mod_one]
  rfl

/-- One more channel. -/
theorem groupOf_addChannel (connect seen : ℕ) :
    (groupOf connect seen).addChannel (seen + 1) connect = groupOf connect (seen + 1) := by
  have hkeep : ((range seen).map fun i => (i + 1, connect)).filter (fun e => e.1 ≠ seen + 1) =
      (range seen).map fun i => (i + 1, connect) := by
    refine filter_eq_self.mpr fun e he => decide_eq_true ?_
    obtain ⟨i, hi, rfl⟩ := mem_map.mp he
    have hlt : i < seen := mem_range.mp hi
    omega
  unfold groupOf Group.addChannel
  rw [hkeep, range_succ, map_append]
  rfl

theorem groupOf_count (connect seen : ℕ) : (groupOf connect seen).channelCount = seen + 1 := by
  unfold Group.channelCount groupOf
  rw [length_map, length_range]
  rfl

-- ── Steps

variable {s : Sys}

section

variable (hs : Inv s)
include hs

theorem control_inv (hnew : ∀ e ∈ s.acceptedMeta, e.2 ≠ client) : Inv (control s client) := by
  have hgroup : ∀ peerId ≠ s.connects.length, (control s client).groups peerId = s.groups peerId := by
    intro peerId hne
    show update s.groups s.nextRecvPeerId _ peerId = s.groups peerId
    rw [hs.next]
    exact update_of_ne hne _ _
  have hlast : (control s client).groups s.connects.length = groupOf s.connects.length 0 := by
    show update s.groups s.nextRecvPeerId { s.groups s.nextRecvPeerId with control := _ } s.connects.length = _
    rw [hs.next, update_self, hs.fresh s.connects.length (le_rfl)]
    rfl
  refine ⟨?_, fun connect c hc => ?_, fun peerId hge => ?_, fun connect c hc hseen => ?_, fun e he => ?_, ?_, ?_⟩
  · show s.nextRecvPeerId + 1 = (s.connects ++ [Connect.mk client 0]).length
    rw [hs.next, length_append, length_singleton]
  · rcases getElem?_snoc_cases hc with hc' | ⟨heq, hcnew⟩
    · rw [hgroup connect (Nat.ne_of_lt (lt_length hc'))]
      exact hs.group connect c hc'
    · rw [heq, hcnew]
      exact hlast
  · have hge' : (s.connects ++ [Connect.mk client 0]).length ≤ peerId := hge
    rw [length_append, length_singleton] at hge'
    rw [hgroup peerId (by omega)]
    exact hs.fresh peerId (by omega)
  · rcases getElem?_snoc_cases hc with hc' | ⟨heq, hcnew⟩
    · exact mem_append_left _ (hs.waiting connect c hc' hseen)
    · refine mem_append_right _ (mem_singleton.mpr ?_)
      rw [heq, hcnew, hs.next]
  · rcases mem_append.mp he with hmem | hmem
    · obtain ⟨c, hc, hclient⟩ := hs.entry e hmem
      exact ⟨c, getElem?_append_some hc _, hclient⟩
    · rw [mem_singleton.mp hmem, hs.next]
      exact ⟨⟨client, 0⟩, getElem?_concat_length, rfl⟩
  · refine pairwise_append.mpr ⟨hs.apart, pairwise_singleton _ _, fun e he e' he' => ?_⟩
    rw [mem_singleton.mp he']
    exact hnew e he
  · intro peerId hmem
    obtain ⟨c, hc, hfull⟩ := hs.full peerId hmem
    exact ⟨c, getElem?_append_some hc _, hfull⟩

theorem data_inv (connect pick : ℕ) : Inv (data s connect pick) := by
  unfold data
  split
  · exact hs
  · next c hc =>
    by_cases hseen : c.seen < kQpNumPerChannel
    · rw [if_pos hseen, findPeer_eq hs.apart (hs.waiting connect c hc hseen)]
      dsimp only
      rw [hs.group connect c hc, groupOf_addChannel]
      -- only this connect has changed, by one channel
      have hself : (s.connects.set connect { c with seen := c.seen + 1 })[connect]? =
          some { c with seen := c.seen + 1 } := getElem?_set_self (lt_length hc)
      have hkept : ∀ (k : ℕ) (x : Connect), s.connects[k]? = some x →
          ∃ y, (s.connects.set connect { c with seen := c.seen + 1 })[k]? = some y ∧ y.client = x.client ∧
            x.seen ≤ y.seen ∧ (x.seen = kQpNumPerChannel → y.seen = kQpNumPerChannel) := by
        intro k x hx
        by_cases hk : k = connect
        · rw [hk] at hx ⊢
          have hxc : c = x := Option.some.inj (hc.symm.trans hx)
          rw [← hxc]
          exact ⟨_, hself, rfl, Nat.le_succ _, fun h => absurd h (Nat.ne_of_lt hseen)⟩
        · exact ⟨x, (getElem?_set_ne (Ne.symm hk)).trans hx, rfl, le_rfl, id⟩
      refine ⟨?_, fun k x hx => ?_, fun peerId hge => ?_, fun k x hx hlt => ?_, fun e he => ?_, hs.apart, ?_⟩
      · rw [length_set]
        exact hs.next
      · rcases getElem?_set_cases hx with ⟨hk, hxn⟩ | ⟨hk, hx'⟩
        · rw [hk, hxn]
          exact update_self _ _ _
        · exact (update_of_ne hk _ _).trans (hs.group k x hx')
      · have hge' : (s.connects.set connect { c with seen := c.seen + 1 }).length ≤ peerId := hge
        rw [length_set] at hge'
        have hlt := lt_length hc
        exact (update_of_ne (by omega) _ _).trans (hs.fresh peerId hge')
      · rcases getElem?_set_cases hx with ⟨hk, hxn⟩ | ⟨hk, hx'⟩
        · rw [hk, hxn]
          exact hs.waiting connect c hc hseen
        · exact hs.waiting k x hx' hlt
      · obtain ⟨x, hx, hclient⟩ := hs.entry e he
        obtain ⟨y, hy, hyclient, _⟩ := hkept e.1 x hx
        exact ⟨y, hy, hyclient.trans hclient⟩
      · intro peerId hmem
        obtain ⟨x, hx, hfull⟩ := hs.full peerId hmem
        obtain ⟨y, hy, _, _, hyfull⟩ := hkept peerId x hx
        exact ⟨y, hy, hyfull hfull⟩
    · rw [if_neg hseen]
      exact hs

theorem accept_inv (pick : ℕ) : Inv (accept s pick) := by
  unfold accept
  split
  · exact hs
  · next e he =>
    by_cases hcount : (s.groups e.1).channelCount = kQpNumPerChannel + 1
    · rw [if_pos hcount]
      obtain ⟨c, hc, hclient⟩ := hs.entry e (mem_of_getElem? he)
      have hfull : c.seen = kQpNumPerChannel := by
        rw [hs.group e.1 c hc, groupOf_count] at hcount
        exact Nat.succ.inj hcount
      refine ⟨hs.next, hs.group, hs.fresh, fun k x hx hlt => ?_, fun e' he' => ?_, ?_,
        forall_mem_snoc hs.full ⟨c, hc, hfull⟩⟩
      · -- the entry of a complete connect is not the one of `k`
        refine (mem_erase_of_ne fun heq => ?_).mpr (hs.waiting k x hx hlt)
        rw [← heq] at hc
        rw [Option.some.inj (hx.symm.trans hc), hfull] at hlt
        exact absurd hlt (Nat.lt_irrefl _)
      · exact hs.entry e' (mem_of_mem_erase he')
      · exact hs.apart.sublist erase_sublist
    · rw [if_neg hcount]
      exact hs

theorem step_inv {s' : Sys} {a : Action} (hapart : Apart s a) (hstep : step s a = .ok s') : Inv s' := by
  cases a with
  | control client => exact ok.inj hstep ▸ control_inv hs hapart
  | data connect pick => exact ok.inj hstep ▸ data_inv hs connect pick
  | accept pick => exact ok.inj hstep ▸ accept_inv hs pick

/-- A group is that of a connect, or there is nothing in it. -/
theorem Inv.group_cases (peerId : ℕ) :
    (∃ c : Connect, s.connects[peerId]? = some c ∧ s.groups peerId = groupOf peerId c.seen) ∨
      s.groups peerId = .empty := by
  cases hc : s.connects[peerId]? with
  | some c => exact .inl ⟨c, rfl, hs.group peerId c hc⟩
  | none => exact .inr (hs.fresh peerId (getElem?_eq_none_iff.mp hc))

theorem Inv.attributed : Attributed s where
  own := by
    intro peerId e he
    rcases hs.group_cases peerId with ⟨c, _, hgroup⟩ | hempty
    · rw [hgroup] at he ⊢
      obtain ⟨i, _, rfl⟩ := mem_map.mp he
      rfl
    · rw [hempty] at he
      cases he
  placed := by
    intro connect c hc i hi
    refine ⟨connect, ?_⟩
    rw [hs.group connect c hc]
    exact ⟨rfl, mem_map.mpr ⟨i, mem_range.mpr hi, rfl⟩⟩
  complete := by
    intro peerId hmem
    obtain ⟨c, hc, hfull⟩ := hs.full peerId hmem
    refine ⟨peerId, ?_⟩
    rw [hs.group peerId c hc, hfull]
    exact ⟨rfl, rfl⟩

end

/-- **EVERY CHANNEL IS WITH ITS CONNECT**: in every run in which no connect of a client begins while an
    entry of the same client waits to be accepted, whatever the order in which the map is searched. -/
theorem attributed_apart {s : Sys} {as : List Action} (halong : Along step Apart Sys.init as)
    (hrun : runFrom step Sys.init as = .ok s) : Attributed s :=
  (runFrom_invariant_along (fun _ _ _ hi hg hst => step_inv hi hg hst) Inv.init halong hrun).attributed

/-- Two clients at once, and a second connect of the first once it was accepted. -/
theorem attributed_apart_two_clients : ∃ s, runFrom step Sys.init
      [.control someClient, .control ⟨2, 40000, 0⟩, .data 1 0, .data 0 7, .data 0 0, .data 0 1, .data 0 0, .accept 0,
        .control someClient, .data 2 3] = .ok s ∧
    s.returned = [0] ∧ Attributed s := by
  refine exists_run_of_guarded (G := Apart) (fun s => s.returned = [0]) ?_
    fun s halong hrun hs => ⟨hs, attributed_apart halong hrun⟩
  decide +kernel

end P2pHandshake
