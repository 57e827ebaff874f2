import Mathlib.Algebra.Ring.Nat
import Uccl.OrderedSetProofs
import Uccl.StepRunProofs

/-! # Path discovery of an AF_XDP flow

    While `UcclEngine::handle_install_flow_on_engine` (collective/afxdp/transport.cc) probes ports, it reads the receive
    ring of the whole engine. It answers probes, takes replies, aborts on any other packet, looks at no flow id, and
    hands no packet to another flow. So a reply to a probe of another flow gives the new flow a port that no probe of
    its own has reached (`reply_of_another_flow`). What it finds is right as long as only probes and replies of the new
    flow arrive (`ports_truthful`).

    `reached` (the ports whose probe the remote engine has answered) and `consumed` are read by no function. -/

namespace XdpProbe

open StepRun List

/-- The kinds of packets. -/
inductive UcclFlags
  | data
  | ack
  | rssProbe
  | rssProbeRsp
  | dataRttProbe
  | ackRttProbe
  deriving DecidableEq

/-- What the loop reads of a packet. -/
structure Pkt where
  netFlags : UcclFlags
  engineId : ℕ
  flowId : ℕ
  /-- `udph->dest`, which `reverse_packet_l2l3` leaves as it is -/
  dest : BitVec 16
  deriving DecidableEq

/-- The new flow and its engine. -/
structure Config where
  localEngineIdx : ℕ
  remoteEngineIdx : ℕ
  flowId : ℕ
  kMaxPath : ℕ

/-- The loop and the network: a packet that was sent to this engine may arrive at any time, and again. -/
structure Probing where
  /-- the loop variable, from `BASE_PORT` on -/
  port : ℕ := 10000
  /-- the ports probed -/
  probed : List (BitVec 16) := []
  /-- `dst_ports_set`, in its order -/
  dstPortsSet : List (BitVec 16) := []
  /-- the probes sent back -/
  replies : List Pkt := []
  /-- what was sent to this engine -/
  net : List Pkt := []
  reached : List (BitVec 16) := []
  /-- every packet the loop took from the ring -/
  consumed : List Pkt := []
  done : Bool := false

/-- What stops the engine. -/
inductive Fault
  /-- `UCCL_DCHECK(ucclh->net_flags == kRssProbeRsp)` -/
  | netFlags
  /-- The action is not enabled in this state. -/
  | notEnabled
  deriving DecidableEq

/-- One received frame. -/
def receive (cfg : Config) (s : Probing) (pkt : Pkt) : Except Fault Probing :=
  let s := { s with consumed := s.consumed ++ [pkt] }
  if pkt.netFlags = .rssProbe then
    if pkt.engineId = cfg.localEngineIdx then
      .ok { s with replies := s.replies ++ [{ pkt with netFlags := .rssProbeRsp, engineId := cfg.remoteEngineIdx }] }
    else .ok s
  else if pkt.netFlags ≠ .rssProbeRsp then .error .netFlags
  else if pkt.engineId = cfg.localEngineIdx then
    .ok { s with dstPortsSet := OrderedSet.insert (fun p q => decide (p < q)) pkt.dest s.dstPortsSet }
  else .ok s

/-- The probe of a turn of the loop. -/
def sendProbe (s : Probing) : Probing :=
  { s with probed := s.probed ++ [BitVec.ofNat 16 s.port], port := (s.port + 1) % (65536 - 10000) + 10000 }

/-- A turn of the loop, given what `recv_packets` returns; the remote engine sends a probe back, with the index that
    it has for its peer; anybody sends this engine any other packet. -/
inductive Action
  | round (frames : List Pkt)
  | answer (port : BitVec 16) (engineId : ℕ)
  | other (pkt : Pkt)

def step (cfg : Config) (s : Probing) : Action → Except Fault Probing
  | .round frames =>
    if s.done = false ∧ ∀ pkt ∈ frames, pkt ∈ s.net then
      (runFrom (receive cfg) (sendProbe s) frames).map fun s =>
        { s with done := decide (cfg.kMaxPath ≤ s.dstPortsSet.length) }
    else .error .notEnabled
  | .answer port engineId =>
    if port ∈ s.probed then
      .ok { s with net := s.net ++ [⟨.rssProbeRsp, engineId, cfg.flowId, port⟩], reached := s.reached ++ [port] }
    else .error .notEnabled
  | .other pkt =>
    if pkt.netFlags = .rssProbeRsp ∧ pkt.flowId = cfg.flowId then .error .notEnabled
    else .ok { s with net := s.net ++ [pkt] }

/-- `dst_ports_` of the new flow. -/
def Probing.dstPorts (cfg : Config) (s : Probing) : List (BitVec 16) := s.dstPortsSet.take cfg.kMaxPath

/-- A port whose probe for this flow was sent and answered by the remote engine, and whose reply came here. -/
def Answered (cfg : Config) (s : Probing) (p : BitVec 16) : Prop :=
  p ∈ s.probed ∧ p ∈ s.reached ∧ ∃ pkt ∈ s.consumed, pkt.netFlags = .rssProbeRsp ∧ pkt.flowId = cfg.flowId ∧
    pkt.engineId = cfg.localEngineIdx ∧ pkt.dest = p

/-- Every port is answered, and no packet of another flow was taken. -/
structure Truthful (cfg : Config) (s : Probing) : Prop where
  ports : ∀ p ∈ s.dstPorts cfg, Answered cfg s p
  others : ∀ pkt ∈ s.consumed, pkt.flowId = cfg.flowId

/-- A probe or a reply of the new flow. -/
def OfFlow (cfg : Config) (pkt : Pkt) : Prop :=
  pkt.flowId = cfg.flowId ∧ (pkt.netFlags = .rssProbe ∨ pkt.netFlags = .rssProbeRsp)
deriving Decidable

/-- Only those arrive. -/
def Alone (cfg : Config) (_ : Probing) : Action → Prop
  | .round frames => ∀ pkt ∈ frames, OfFlow cfg pkt
  | .answer _ _ | .other _ => True

variable {cfg : Config} {s s' : Probing}

/-- A reply of the flow comes from the remote engine, and what was taken from the ring was right. -/
structure Inv (cfg : Config) (s : Probing) : Prop where
  net : ∀ pkt ∈ s.net, pkt.netFlags = .rssProbeRsp → pkt.flowId = cfg.flowId → pkt.dest ∈ s.reached
  reached : ∀ p ∈ s.reached, p ∈ s.probed
  ports : ∀ p ∈ s.dstPortsSet, Answered cfg s p
  others : ∀ pkt ∈ s.consumed, pkt.flowId = cfg.flowId

/-- What is known of a port stays known. -/
theorem Answered.mono {p : BitVec 16} (h : Answered cfg s p) (hprobed : s.probed ⊆ s'.probed)
    (hreached : s.reached ⊆ s'.reached) (hconsumed : s.consumed ⊆ s'.consumed) : Answered cfg s' p := by
  obtain ⟨hp, hr, pkt, hpkt, hreply⟩ := h
  exact ⟨hprobed hp, hreached hr, pkt, hconsumed hpkt, hreply⟩

/-- A frame of the flow does not stop the loop; a port that it adds is the remote engine's answer. -/
theorem receive_inv {pkt : Pkt} (h : Inv cfg s) (hnet : pkt ∈ s.net) (hflow : OfFlow cfg pkt) :
    ∃ s', receive cfg s pkt = .ok s' ∧ Inv cfg s' ∧ s'.net = s.net := by
  have hothers := forall_mem_snoc h.others hflow.1
  have hports : ∀ p ∈ s.dstPortsSet, Answered cfg { s with consumed := s.consumed ++ [pkt] } p := fun p hp =>
    (h.ports p hp).mono (Subset.refl _) (Subset.refl _) (subset_append_left ..)
  unfold receive
  dsimp only
  split
  · split
    · exact ⟨_, rfl, ⟨h.net, h.reached, hports, hothers⟩, rfl⟩
    · exact ⟨_, rfl, ⟨h.net, h.reached, hports, hothers⟩, rfl⟩
  · next hprobe =>
    have hrsp := hflow.2.resolve_left hprobe
    rw [if_neg (not_not.mpr hrsp)]
    split
    · next hengine =>
      refine ⟨_, rfl, ⟨h.net, h.reached, fun p hp => ?_, hothers⟩, rfl⟩
      rcases OrderedSet.mem_insert hp with rfl | hp
      · have hreached := h.net pkt hnet hrsp hflow.1
        exact ⟨h.reached _ hreached, hreached, pkt, mem_append_right _ (mem_singleton_self _), hrsp, hflow.1, hengine, rfl⟩
      · exact hports p hp
    · exact ⟨_, rfl, ⟨h.net, h.reached, hports, hothers⟩, rfl⟩

theorem frames_inv {frames : List Pkt} (h : Inv cfg s) (hnet : ∀ pkt ∈ frames, pkt ∈ s.net)
    (hflow : ∀ pkt ∈ frames, OfFlow cfg pkt) : ∃ s', runFrom (receive cfg) s frames = .ok s' ∧ Inv cfg s' := by
  induction frames generalizing s with
  | nil => exact ⟨s, rfl, h⟩
  | cons pkt frames ih =>
    obtain ⟨hpkt, hnet⟩ := forall_mem_cons.mp hnet
    obtain ⟨hown, hflow⟩ := forall_mem_cons.mp hflow
    obtain ⟨s1, hstep, h1, hsame⟩ := receive_inv h hpkt hown
    rw [runFrom_cons_ok hstep]
    exact ih h1 (hsame.symm ▸ hnet) hflow

/-- An action that is enabled succeeds. -/
theorem step_inv (h : Inv cfg s) {a : Action} (halone : Alone cfg s a) :
    step cfg s a = .error .notEnabled ∨ ∃ s', step cfg s a = .ok s' ∧ Inv cfg s' := by
  cases a with
  | round frames =>
    by_cases henabled : s.done = false ∧ ∀ pkt ∈ frames, pkt ∈ s.net
    · have hprobed : s.probed ⊆ (sendProbe s).probed := subset_append_left ..
      have hsent : Inv cfg (sendProbe s) :=
        ⟨h.net, fun p hp => hprobed (h.reached p hp),
          fun p hp => (h.ports p hp).mono hprobed (Subset.refl _) (Subset.refl _), h.others⟩
      obtain ⟨s1, hrun, h1⟩ := frames_inv hsent henabled.2 halone
      refine .inr ⟨{ s1 with done := decide (cfg.kMaxPath ≤ s1.dstPortsSet.length) }, ?_,
        ⟨h1.net, h1.reached, h1.ports, h1.others⟩⟩
      simp only [step, if_pos henabled, hrun, Except.map]
    · exact .inl (if_neg henabled)
  | answer port engineId =>
    by_cases hport : port ∈ s.probed
    · have hmore : s.reached ⊆ s.reached ++ [port] := subset_append_left ..
      refine .inr ⟨_, if_pos hport, ⟨?_, forall_mem_snoc h.reached hport,
        fun p hp => (h.ports p hp).mono (Subset.refl _) hmore (Subset.refl _), h.others⟩⟩
      exact forall_mem_snoc (fun pkt hpkt hrsp hflow => hmore (h.net pkt hpkt hrsp hflow))
        fun _ _ => mem_append_right _ (mem_singleton_self _)
    · exact .inl (if_neg hport)
  | other pkt =>
    by_cases hreply : pkt.netFlags = .rssProbeRsp ∧ pkt.flowId = cfg.flowId
    · exact .inl (if_pos hreply)
    · refine .inr ⟨_, if_neg hreply, ⟨?_, h.reached, h.ports, h.others⟩⟩
      exact forall_mem_snoc h.net fun hrsp hflow => absurd ⟨hrsp, hflow⟩ hreply

/-- **PATH DISCOVERY** does not abort, and is truthful and harmless, when everything that arrives is a probe or a reply
    of the new flow. -/
theorem ports_truthful {as : List Action} (halone : Along (step cfg) (Alone cfg) {} as) :
    runFrom (step cfg) {} as ≠ .error .netFlags ∧ ∀ s, runFrom (step cfg) {} as = .ok s → Truthful cfg s := by
  have hinit : Inv cfg {} := ⟨forall_mem_nil _, forall_mem_nil _, forall_mem_nil _, forall_mem_nil _⟩
  have hstep : ∀ s a s', Inv cfg s → Alone cfg s a → step cfg s a = .ok s' → Inv cfg s' := fun s a s' h ha hs => by
    rcases step_inv h ha with herr | ⟨s1, hok, h1⟩
    · cases hs.symm.trans herr
    · rw [Except.ok.inj (hs.symm.trans hok)]
      exact h1
  refine ⟨runFrom_ne_error_along hstep (fun s a h ha herr => ?_) hinit halone, fun s hrun => ?_⟩
  · rcases step_inv h ha with hdis | ⟨s1, hok, -⟩
    · cases herr.symm.trans hdis
    · cases herr.symm.trans hok
  · have h := runFrom_invariant_along hstep hinit halone hrun
    exact ⟨fun p hp => h.ports p (mem_of_mem_take hp), h.others⟩

instance (cfg : Config) (s : Probing) (a : Action) : Decidable (Alone cfg s a) := by
  cases a <;> unfold Alone <;> infer_instance

/-- Three ports are probed; two answers come in, and the remote engine's own probe is sent back. A data packet of
    another flow waits in the network. -/
theorem ports_truthful_two : ∃ s, runFrom (step ⟨1, 2, 7, 2⟩) {}
      [.round [], .answer 10000 1, .other ⟨.rssProbe, 1, 7, 40000⟩, .round [⟨.rssProbe, 1, 7, 40000⟩],
        .other ⟨.data, 1, 3, 30001⟩, .answer 20001 1, .round [⟨.rssProbeRsp, 1, 7, 20001⟩, ⟨.rssProbeRsp, 1, 7, 10000⟩]]
      = .ok s ∧ s.dstPorts ⟨1, 2, 7, 2⟩ = [10000, 20001] ∧ s.replies = [⟨.rssProbeRsp, 2, 7, 40000⟩] ∧
    Truthful ⟨1, 2, 7, 2⟩ s := by
  refine exists_run_of_guarded (G := Alone ⟨1, 2, 7, 2⟩) (fun s => s.dstPorts ⟨1, 2, 7, 2⟩ = [10000, 20001] ∧
    s.replies = [⟨.rssProbeRsp, 2, 7, 40000⟩]) (by decide +kernel) fun s halone hrun hs => ?_
  exact ⟨hs.1, hs.2, (ports_truthful halone).2 s hrun⟩

/-- **A REPLY OF ANOTHER FLOW** is taken for one of the new flow: its port is used although no probe for it was
    sent, and the packet is lost. -/
theorem reply_of_another_flow : ∃ s, runFrom (step ⟨1, 2, 7, 1⟩) {}
      [.other ⟨.rssProbeRsp, 1, 3, 30001⟩, .round [⟨.rssProbeRsp, 1, 3, 30001⟩]] = .ok s ∧
    s.dstPorts ⟨1, 2, 7, 1⟩ = [30001] ∧ ¬ Truthful ⟨1, 2, 7, 1⟩ s := by
  refine ⟨_, rfl, rfl, fun h => ?_⟩
  exact absurd (h.others ⟨.rssProbeRsp, 1, 3, 30001⟩ (by decide)) (by decide)

end XdpProbe
