import Mathlib.Data.List.Pairwise
import Uccl.StepRunProofs

/-! # Selective signalling on a P2P data channel

    `RDMADataChannel` (p2p/rdma/rdma_data_channel.cc) posts a batch of work requests with one doorbell and asks for a
    completion of the last one only. The ids of the others are kept in a `PendingSignalGroup`, and `expand_completion`
    hands them on to the tracker when the completion of the last one is found: it compares the id of the completion with
    that of the oldest group.

    The group is recorded after the doorbell. `post_mu_` keeps other posts out until then, but not the polling thread: a
    completion that is polled in between is not expanded, and no later group is found behind it
    (`polled_before_recorded`). And a completion is known by its id alone, so that of a single request may be taken for
    that of a group. If neither happens the tracker gets every id once, in the order of completion (`acks_exact`).

    `posted`, `completed`, `acks` (what the tracker was given) and `inflight` are read by no function. -/

namespace P2pSignal

open StepRun List Except

-- ── The channel

/-- One doorbell: the ids of the unsignalled requests and of the signalled one. With unsignalled requests it
    is a `PendingSignalGroup`. -/
structure Post where
  unsignaled : List ℕ
  signal : ℕ
  deriving DecidableEq

open Post

/-- A work request in the send queue. -/
structure Wqe where
  wrId : ℕ
  signaled : Bool
  deriving DecidableEq

def Post.wrIds (p : Post) : List ℕ := p.unsignaled ++ [p.signal]

/-- `wr_flags = (i == last) ? IBV_SEND_SIGNALED : 0` -/
def Post.wqes (p : Post) : List Wqe := p.unsignaled.map (⟨·, false⟩) ++ [⟨p.signal, true⟩]

/-- Only these have something to record. -/
def Post.grouped (p : Post) : Bool := !p.unsignaled.isEmpty

structure Channel where
  /-- `batch_` -/
  batch : List ℕ
  /-- batches that `flush_batch` has swapped out and not posted -/
  flushing : List (List ℕ)
  /-- `pending_groups_` -/
  pendingGroups : List Post
  /-- the thread that holds `post_mu_` has rung the doorbell and has this to record -/
  recording : Option Post
  sq : List Wqe
  cq : List ℕ
  /-- completions returned by `poll_once` and not expanded -/
  polled : List ℕ
  posted : List ℕ
  completed : List ℕ
  acks : List ℕ
  inflight : List Post

def Channel.init : Channel :=
  { batch := [], flushing := [], pendingGroups := [], recording := none, sq := [], cq := []
    polled := [], posted := [], completed := [], acks := [], inflight := [] }

def Post.ofList (wrIds : List ℕ) : Option Post := wrIds.getLast?.map (⟨wrIds.dropLast, ·⟩)

/-- The doorbell of `__post_request`, `__flush_batch` and `__post_raw_batch`. A thread that finds `post_mu_`
    taken waits. -/
def ring (x : Channel) (wrIds : List ℕ) : Channel :=
  match ofList wrIds, x.recording with
  | some p, none => { x with
      recording := if p.grouped then some p else none
      sq := x.sq ++ p.wqes
      posted := x.posted ++ p.wrIds
      inflight := x.inflight ++ [p] }
  | _, _ => x

/-- `submit_request` under `g_uccl_batch_post` -/
def submitRequest (x : Channel) (wrId : ℕ) : Channel := { x with batch := x.batch ++ [wrId] }

def postRequest (x : Channel) (wrId : ℕ) : Channel := ring x [wrId]

def postRawBatch (x : Channel) (wrIds : List ℕ) : Channel := ring x wrIds

/-- `flush_batch`, the part under `batch_mu_` -/
def swapBatch (x : Channel) : Channel :=
  if x.batch = [] then x else { x with batch := [], flushing := x.flushing ++ [x.batch] }

/-- `flush_batch`, the part under `post_mu_`, for the `i`-th batch that waits for it -/
def flushBatch (x : Channel) (i : ℕ) : Channel :=
  match x.flushing[i]?, x.recording with
  | some wrIds, none => ring { x with flushing := x.flushing.eraseIdx i } wrIds
  | _, _ => x

/-- The group is pushed to `pending_groups_`, and `post_mu_` is released. -/
def record (x : Channel) : Channel :=
  match x.recording with
  | some p => { x with pendingGroups := x.pendingGroups ++ [p], recording := none }
  | none => x

/-- The queue pair completes its oldest request. -/
def complete (x : Channel) : Channel :=
  match x.sq with
  | [] => x
  | w :: sq => { x with
      sq := sq
      completed := x.completed ++ [w.wrId]
      cq := if w.signaled then x.cq ++ [w.wrId] else x.cq }

/-- `poll_once` finds a completion. -/
def pollOnce (x : Channel) : Channel :=
  match x.cq with
  | [] => x
  | wrId :: cq => { x with cq := cq, polled := x.polled ++ [wrId] }

/-- What `expand_completion` returns, and what it leaves of `pending_groups_`. -/
def expandCompletion (pendingGroups : List Post) (cqeWrId : ℕ) : List ℕ × List Post :=
  match pendingGroups with
  | g :: rest =>
    if g.signal = cqeWrId then (g.unsignaled ++ [cqeWrId], rest) else ([cqeWrId], pendingGroups)
  | [] => ([cqeWrId], pendingGroups)

/-- `poll_data_channels`, for one completion: what is expanded is acknowledged. -/
def expand (x : Channel) : Channel :=
  match x.polled with
  | [] => x
  | wrId :: polled => { x with
      polled := polled
      pendingGroups := (expandCompletion x.pendingGroups wrId).2
      acks := x.acks ++ (expandCompletion x.pendingGroups wrId).1
      inflight := x.inflight.tail }

inductive Action
  | submitRequest (wrId : ℕ)
  | postRequest (wrId : ℕ)
  | postRawBatch (wrIds : List ℕ)
  | swapBatch
  | flushBatch (i : ℕ)
  | record
  | complete
  | pollOnce
  | expand
  deriving DecidableEq

def step (x : Channel) : Action → Except Empty Channel
  | .submitRequest wrId => .ok (submitRequest x wrId)
  | .postRequest wrId => .ok (postRequest x wrId)
  | .postRawBatch wrIds => .ok (postRawBatch x wrIds)
  | .swapBatch => .ok (swapBatch x)
  | .flushBatch i => .ok (flushBatch x i)
  | .record => .ok (record x)
  | .complete => .ok (complete x)
  | .pollOnce => .ok (pollOnce x)
  | .expand => .ok (expand x)

-- ── The defects

/-- **AN ID IS LOST**: the completion of a batch of two is expanded before its group is recorded. When all is polled,
    the tracker was given one id of two, and the group stays. -/
theorem polled_before_recorded : ∃ x, runFrom step Channel.init
      [.postRawBatch [1, 2], .complete, .complete, .pollOnce, .expand, .record] = .ok x ∧
    x.sq = [] ∧ x.cq = [] ∧ x.polled = [] ∧ x.posted = [1, 2] ∧ x.acks = [2] ∧
    x.pendingGroups = [⟨[1], 2⟩] :=
  ⟨_, rfl, rfl, rfl, rfl, rfl, rfl, rfl⟩

-- ── When the tracker gets each id once

/-- The post that an action would ring the doorbell for. -/
def posts (x : Channel) : Action → Option Post
  | .postRequest wrId => ofList [wrId]
  | .postRawBatch wrIds => ofList wrIds
  | .flushBatch i => x.flushing[i]?.bind ofList
  | _ => none

/-- A group is posted while no single request with the id of its completion is in flight, and a
    completion is expanded when its own group has been recorded. -/
def Orderly (x : Channel) (a : Action) : Prop :=
  (∀ p ∈ posts x a, p.grouped = true → ∀ q ∈ x.inflight, q.grouped = false → q.signal ≠ p.signal) ∧
    (a = .expand → x.recording.isSome = true → 1 < x.inflight.length)
deriving Decidable

/-- How the queues stand to the posts in flight: those that come first have a completion waiting, and
    of the rest only unsignalled requests have completed. -/
structure Inv (x : Channel) : Prop where
  groups : x.pendingGroups ++ x.recording.toList = x.inflight.filter grouped
  last : ∀ g, x.recording = some g → x.inflight.getLast? = some g
  apart : x.inflight.Pairwise fun q g => q.grouped = false → g.grouped = true → q.signal ≠ g.signal
  queues : ∃ waiting rest gone, x.inflight = waiting ++ rest ∧
    x.polled ++ x.cq = waiting.map signal ∧ rest.flatMap wqes = gone ++ x.sq ∧
    ∀ w ∈ gone, w.signaled = false
  acks : x.acks ++ x.inflight.flatMap wrIds = x.posted
  completed : x.completed ++ x.sq.map Wqe.wrId = x.posted

variable {x x' : Channel}

theorem wqes_wrIds (p : Post) : p.wqes.map Wqe.wrId = p.wrIds := by
  simp only [wqes, wrIds, map_append, map_map, map_singleton]
  congr 1
  exact map_id _

theorem flatMap_wqes (ps : List Post) : (ps.flatMap wqes).map Wqe.wrId = ps.flatMap wrIds := by
  rw [map_flatMap]
  exact congrArg (ps.flatMap ·) (funext wqes_wrIds)

/-- Before the first signalled request two lists agree. -/
theorem first_signaled {a c b d : List Wqe} {s w : Wqe} (h : a ++ s :: b = c ++ w :: d)
    (ha : ∀ v ∈ a, v.signaled = false) (hc : ∀ v ∈ c, v.signaled = false)
    (hs : s.signaled = true) (hw : w.signaled = true) : s = w ∧ b = d := by
  induction a generalizing c with
  | nil =>
    cases c with
    | nil => exact cons.inj h
    | cons v c =>
      have hv := hc v (mem_cons_self)
      rw [← (cons.inj h).1, hs] at hv
      cases hv
  | cons v a ih =>
    cases c with
    | nil =>
      have hv := ha v (mem_cons_self)
      rw [(cons.inj h).1, hw] at hv
      cases hv
    | cons u c =>
      exact ih (cons.inj h).2 (fun y hy => ha y (mem_cons_of_mem _ hy)) fun y hy => hc y (mem_cons_of_mem _ hy)

theorem unsignaled_wqes (p : Post) : ∀ w ∈ p.unsignaled.map (Wqe.mk · false), w.signaled = false := by
  intro w hw
  obtain ⟨i, -, rfl⟩ := mem_map.mp hw
  rfl

theorem Inv.init : Inv Channel.init where
  groups := rfl
  last _ h := by cases h
  apart := List.Pairwise.nil
  queues := ⟨[], [], [], rfl, rfl, rfl, forall_mem_nil _⟩
  acks := rfl
  completed := rfl

-- ── The steps

section

variable (h : Inv x)
include h

/-- Steps that leave all of this alone. -/
theorem Inv.congr (hp : x'.pendingGroups = x.pendingGroups) (hr : x'.recording = x.recording)
    (hs : x'.sq = x.sq) (hc : x'.cq = x.cq) (hpl : x'.polled = x.polled) (hpo : x'.posted = x.posted)
    (hco : x'.completed = x.completed) (ha : x'.acks = x.acks) (hi : x'.inflight = x.inflight) : Inv x' where
  groups := by
    rw [hp, hr, hi]
    exact h.groups
  last := by
    rw [hr, hi]
    exact h.last
  apart := by
    rw [hi]
    exact h.apart
  queues := by
    rw [hpl, hc, hi, hs]
    exact h.queues
  acks := by
    rw [ha, hi, hpo]
    exact h.acks
  completed := by
    rw [hco, hs, hpo]
    exact h.completed

theorem ring_inv {wrIds : List ℕ} (hapart : ∀ p ∈ ofList wrIds, p.grouped = true → ∀ q ∈ x.inflight, q.grouped = false →
      q.signal ≠ p.signal) : Inv (ring x wrIds) := by
  unfold ring
  split
  · next p hp hrec =>
    have hgroups := h.groups
    rw [hrec] at hgroups
    obtain ⟨waiting, rest, gone, hin, hcqe, hwqe, hgone⟩ := h.queues
    refine ⟨?_, fun g hg => ?_, ?_, ?_, ?_, ?_⟩
    · rw [filter_append, ← hgroups]
      cases hgr : p.grouped <;> simp [hgr]
    · cases hgr : p.grouped with
      | true =>
        rw [hgr, if_pos rfl] at hg
        rw [← hg, getLast?_concat]
      | false =>
        rw [hgr] at hg
        cases hg
    · refine pairwise_append.mpr ⟨h.apart, pairwise_singleton .., fun q hq g hg hsingle hgr => ?_⟩
      rw [mem_singleton.mp hg] at hgr ⊢
      exact hapart p hp hgr q hq hsingle
    · refine ⟨waiting, rest ++ [p], gone, ?_, hcqe, ?_, hgone⟩
      · rw [hin, append_assoc]
      · rw [flatMap_append, hwqe, flatMap_singleton, append_assoc]
    · rw [flatMap_append, ← append_assoc, h.acks, flatMap_singleton]
    · rw [map_append, ← append_assoc, h.completed, wqes_wrIds]
  · exact h

theorem flushBatch_inv {i : ℕ} (horderly : Orderly x (.flushBatch i)) : Inv (flushBatch x i) := by
  unfold flushBatch
  split
  · next wrIds hat hrec =>
    have hy : Inv { x with flushing := x.flushing.eraseIdx i } := h.congr rfl rfl rfl rfl rfl rfl rfl rfl rfl
    refine ring_inv hy fun p hp => horderly.1 p ?_
    show p ∈ x.flushing[i]?.bind ofList
    rw [hat]
    exact hp
  · exact h

theorem swapBatch_inv : Inv (swapBatch x) := by
  unfold swapBatch
  split
  · exact h
  · exact h.congr rfl rfl rfl rfl rfl rfl rfl rfl rfl

theorem record_inv : Inv (record x) := by
  unfold record
  split
  · next p hrec =>
    have hgroups := h.groups
    rw [hrec] at hgroups
    refine { h with groups := ?_, last := fun g hg => ?_ }
    rotate_left
    · cases hg
    rw [← hgroups]
    exact append_nil _
  · exact h

theorem complete_inv : Inv (complete x) := by
  unfold complete
  split
  · exact h
  · next w sq hsq =>
    obtain ⟨waiting, rest, gone, hin, hcqe, hwqe, hgone⟩ := h.queues
    rw [hsq] at hwqe
    refine ⟨h.groups, h.last, h.apart, ?_, h.acks, ?_⟩
    · cases hw : w.signaled with
      | false =>
        refine ⟨waiting, rest, gone ++ [w], hin, hcqe, ?_, forall_mem_snoc hgone hw⟩
        rw [hwqe, append_assoc]
        rfl
      | true =>
        -- the first post of the rest is the one that completes
        cases rest with
        | nil =>
          cases gone with
          | nil | cons v gone => cases hwqe
        | cons p rest =>
          have hsplit : p.unsignaled.map (Wqe.mk · false) ++ ⟨p.signal, true⟩ :: rest.flatMap wqes =
              gone ++ w :: sq := by
            rw [← hwqe, flatMap_cons, wqes, append_assoc]
            rfl
          obtain ⟨rfl, hrest⟩ := first_signaled hsplit (unsignaled_wqes p) hgone rfl hw
          refine ⟨waiting ++ [p], rest, [], ?_, ?_, ?_, forall_mem_nil _⟩
          · rw [hin, append_assoc]
            rfl
          · show x.polled ++ (x.cq ++ [p.signal]) = _
            rw [← append_assoc, hcqe, map_append]
            rfl
          · exact hrest
    · rw [← h.completed, hsq, append_assoc]
      rfl

theorem pollOnce_inv : Inv (pollOnce x) := by
  unfold pollOnce
  split
  · exact h
  · next wrId cq hcq =>
    obtain ⟨waiting, rest, gone, hin, hcqe, hwqe, hgone⟩ := h.queues
    refine { h with queues := ⟨waiting, rest, gone, hin, ?_, hwqe, hgone⟩ }
    rw [← hcqe, hcq, append_assoc]
    rfl

/-- The completion of the oldest post is expanded to its ids, and its group goes. -/
theorem expandCompletion_oldest {p : Post} {rest : List Post}
    (hin : x.inflight = p :: rest) (horderly : x.recording.isSome = true → 1 < x.inflight.length) :
    (expandCompletion x.pendingGroups p.signal).1 = p.wrIds ∧
      (expandCompletion x.pendingGroups p.signal).2 ++ x.recording.toList = rest.filter grouped := by
  have hgroups := h.groups
  rw [hin, filter_cons] at hgroups
  cases hp : p.grouped with
  | true =>
    rw [hp] at hgroups
    cases hpending : x.pendingGroups with
    | nil =>
      -- then the group would be the one that is being recorded, and its post the only one
      rw [hpending] at hgroups
      cases hrec : x.recording with
      | none =>
        rw [hrec] at hgroups
        cases hgroups
      | some g =>
        rw [hrec] at hgroups
        have hnone : rest.filter grouped = [] := (cons.inj hgroups).2.symm
        have hlast := h.last g hrec
        have hlen := horderly (by rw [hrec]; rfl)
        rw [hin] at hlast hlen
        have hne : rest ≠ [] := fun hnil => by
          rw [hnil] at hlen
          exact absurd hlen (Nat.lt_irrefl 1)
        rw [getLast?_cons_of_ne_nil hne] at hlast
        have hmem : g ∈ rest.filter grouped := mem_filter.mpr ⟨mem_of_getLast? hlast, (cons.inj hgroups).1 ▸ hp⟩
        rw [hnone] at hmem
        cases hmem
    | cons g groups =>
      rw [hpending] at hgroups
      obtain ⟨rfl, hrest⟩ := cons.inj hgroups
      unfold expandCompletion
      dsimp only
      rw [if_pos rfl]
      exact ⟨rfl, hrest⟩
  | false =>
    rw [hp] at hgroups
    have hnil : p.unsignaled = [] := by
      unfold grouped at hp
      simpa using hp
    have hone : [p.signal] = p.wrIds := by
      rw [wrIds, hnil]
      rfl
    unfold expandCompletion
    cases hpending : x.pendingGroups with
    | nil =>
      rw [hpending] at hgroups
      exact ⟨hone, hgroups⟩
    | cons g groups =>
      -- the oldest group belongs to a later post, whose id is another
      rw [hpending] at hgroups
      have hmem : g ∈ rest.filter grouped := by
        rw [show rest.filter grouped = (g :: groups) ++ x.recording.toList from hgroups.symm]
        exact mem_cons_self
      obtain ⟨hg, hgr⟩ := mem_filter.mp hmem
      have hapart := h.apart
      rw [hin] at hapart
      have hne := (pairwise_cons.mp hapart).1 g hg hp hgr
      dsimp only
      rw [if_neg (Ne.symm hne)]
      exact ⟨hone, hgroups⟩

theorem expand_inv (horderly : Orderly x .expand) : Inv (expand x) := by
  unfold expand
  split
  · exact h
  · next wrId polled hpolled =>
    obtain ⟨waiting, rest, gone, hin, hcqe, hwqe, hgone⟩ := h.queues
    rw [hpolled] at hcqe
    cases waiting with
    | nil => cases hcqe
    | cons p waiting =>
      obtain ⟨rfl, hcqes⟩ : wrId = p.signal ∧ polled ++ x.cq = waiting.map signal := cons.inj hcqe
      obtain ⟨hacks, hgroups⟩ := expandCompletion_oldest h hin (horderly.2 rfl)
      have htail : x.inflight.tail = waiting ++ rest := by rw [hin]; rfl
      refine ⟨?_, fun g hg => ?_, ?_, ⟨waiting, rest, gone, htail, hcqes, hwqe, hgone⟩, ?_, h.completed⟩
      · rw [htail]
        exact hgroups
      · have hlast := h.last g hg
        have hlen := horderly.2 rfl (by rw [show x.recording = some g from hg]; rfl)
        rw [htail]
        rw [hin, cons_append] at hlast hlen
        rwa [getLast?_cons_of_ne_nil fun hnil => by
          rw [hnil] at hlen
          exact absurd hlen (Nat.lt_irrefl 1)] at hlast
      · exact h.apart.tail
      · have hold := h.acks
        rw [hin, cons_append] at hold
        rw [hacks, htail, append_assoc]
        exact hold

theorem step_inv {a : Action} (horderly : Orderly x a) (hstep : step x a = .ok x') : Inv x' := by
  cases a with
  | submitRequest wrId => exact ok.inj hstep ▸ h.congr rfl rfl rfl rfl rfl rfl rfl rfl rfl
  | postRequest wrId | postRawBatch wrIds => exact ok.inj hstep ▸ ring_inv h horderly.1
  | swapBatch => exact ok.inj hstep ▸ swapBatch_inv h
  | flushBatch i => exact ok.inj hstep ▸ flushBatch_inv h horderly
  | record => exact ok.inj hstep ▸ record_inv h
  | complete => exact ok.inj hstep ▸ complete_inv h
  | pollOnce => exact ok.inj hstep ▸ pollOnce_inv h
  | expand => exact ok.inj hstep ▸ expand_inv h horderly

end

/-- What the tracker has been given. -/
structure Exact (x : Channel) : Prop where
  /-- nothing before it has completed -/
  notEarly : x.acks <+: x.completed
  /-- every id of a post whose completion was expanded, as often as it was posted -/
  account : x.acks ++ x.inflight.flatMap wrIds = x.posted
  /-- no group of another post is left -/
  groups : x.pendingGroups ++ x.recording.toList = x.inflight.filter grouped
  drained : x.sq = [] → x.cq = [] → x.polled = [] → x.acks = x.posted ∧ x.pendingGroups = []

/-- Where no signalled request waits, no post does. -/
theorem posts_gone {rest : List Post} (h : ∀ w ∈ rest.flatMap wqes, w.signaled = false) : rest = [] := by
  cases rest with
  | nil => rfl
  | cons p rest =>
    have hlast : (⟨p.signal, true⟩ : Wqe) ∈ p.wqes := mem_append_right _ (mem_singleton_self _)
    cases h _ (mem_append_left _ hlast)

theorem Inv.exact (h : Inv x) : Exact x := by
  obtain ⟨waiting, rest, gone, hin, hcqe, hwqe, hgone⟩ := h.queues
  refine ⟨?_, h.acks, h.groups, fun hsq hcq hpolled => ?_⟩
  · -- what has completed: the expanded posts, those that wait, and some of the rest
    refine ⟨waiting.flatMap wrIds ++ gone.map Wqe.wrId, ?_⟩
    have hrest : rest.flatMap wrIds = gone.map Wqe.wrId ++ x.sq.map Wqe.wrId := by
      rw [← flatMap_wqes, hwqe, map_append]
    refine append_cancel_right (?_ : _ ++ x.sq.map Wqe.wrId = _ ++ x.sq.map Wqe.wrId)
    rw [h.completed, ← h.acks, hin, flatMap_append, hrest, append_assoc, append_assoc]
  · rw [hpolled, hcq] at hcqe
    rw [hsq, append_nil] at hwqe
    have hwaiting : waiting = [] := map_eq_nil_iff.mp hcqe.symm
    have hrest : rest = [] := posts_gone fun w hw => hgone w (hwqe ▸ hw)
    have hnone : x.inflight = [] := by
      rw [hin, hwaiting, hrest]
      rfl
    have hacks := h.acks
    have hgroups := h.groups
    rw [hnone] at hacks hgroups
    exact ⟨(append_nil _).symm.trans hacks, (append_eq_nil_iff.mp hgroups).1⟩

/-- **EACH ID ONCE**: in every orderly run the tracker is given the ids in the order of their posts, each once and not
    before it completed; when everything has been polled it has all of them and no group is left. -/
theorem acks_exact {as : List Action} (horderly : Along step Orderly Channel.init as)
    (hrun : runFrom step Channel.init as = .ok x) : Exact x :=
  (runFrom_invariant_along (fun _ _ _ h hguard hstep => step_inv h hguard hstep) Inv.init horderly hrun).exact

/-- A single request completes while the group posted after it is still to be recorded. -/
theorem acks_exact_flushed_batch : ∃ x, runFrom step Channel.init
      [.submitRequest 1, .submitRequest 2, .swapBatch, .postRequest 9, .flushBatch 0, .complete,
        .pollOnce, .expand, .record, .complete, .complete, .pollOnce, .expand] = .ok x ∧
      x.acks = [9, 1, 2] ∧ Exact x := by
  refine exists_run_of_guarded (G := Orderly) (fun x => x.acks = [9, 1, 2]) ?_
    fun x halong hrun hx => ⟨hx, acks_exact halong hrun⟩
  decide +kernel

end P2pSignal
