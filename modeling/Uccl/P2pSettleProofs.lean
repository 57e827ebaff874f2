import Uccl.P2pPostProofs

/-! # Every request is settled

    When the provider takes every post, a channel can be selected, no write is compressed and no completion carries
    an error, no work request is lost: for every number that was taken, the acknowledgements and the work requests on their way
    are the expected count (`Accounted`). So a request with nothing on its way reads as complete, and a call
    that reports a failure has changed nothing (`settled`).

    The books are kept for any count `owed` of what is on its way; the steps of a connection then only have to
    say how they move work requests. -/

namespace P2pPost

open StepRun P2pTracker List Except

variable {cfg : Config} {s s' : Conn} {h : History} {owed : ℕ → ℕ} {k n channelId : ℕ} {sendType : SendType}
  {rcs : ℕ → ℤ} {size : BitVec 64}

-- ── The account of the tracker

/-- One work request of message `k`. -/
def unit (k j : ℕ) : ℕ := if k = j then 1 else 0

theorem unit_self (k : ℕ) : unit k k = 1 := if_pos rfl

theorem unit_of_ne {k j : ℕ} (h : k ≠ j) : unit k j = 0 := if_neg h

/-- For each number the acknowledgements and what is on its way are what is expected. -/
structure Accounted (h : P2pTracker.History) (owed : ℕ → ℕ) : Prop where
  exact : P2pTracker.Exact 0 h
  balance : ∀ k m, h.msgs[k]? = some m → m.acks + owed k = m.expected.toNat
  none : ∀ k, h.msgs.length ≤ k → owed k = 0

/-- Only the numbers owed count. -/
theorem Accounted.congr {owed' : ℕ → ℕ} (h' : Accounted h owed) (heq : ∀ k, owed' k = owed k) : Accounted h owed' := by
  rw [funext heq]
  exact h'

theorem Accounted.init : Accounted (History.init 0) fun _ => 0 where
  exact := Exact.init 0
  balance k m hk := (by cases hk)
  none _ _ := rfl

/-- A message that expects `n` acknowledgements is appended. -/
theorem Accounted.append (hacc : Accounted h owed) {h' : History} (seq : BitVec 32)
    (hn : n < 2 ^ 32) (hexact : Exact 0 h') (hmsgs : h'.msgs = h.msgs ++ [⟨seq, BitVec.ofNat 32 n, 0⟩]) :
    Accounted h' fun k => owed k + if h.msgs.length = k then n else 0 := by
  refine ⟨hexact, fun k m hk => ?_, fun k hk => ?_⟩
  · rw [hmsgs] at hk
    rcases getElem?_snoc_cases hk with hk | ⟨rfl, rfl⟩
    · rw [if_neg (Nat.ne_of_gt (lt_length hk))]
      exact hacc.balance k m hk
    · rw [if_pos rfl, hacc.none _ (le_rfl)]
      rw [BitVec.toNat_ofNat, Nat.mod_eq_of_lt hn, Nat.zero_add, Nat.zero_add]
  · rw [hmsgs, length_append, length_singleton] at hk
    rw [hacc.none k (by omega), if_neg (by omega)]

/-- A message that is sent owes one acknowledgement. -/
theorem Accounted.send (hacc : Accounted h owed) (hfits : Fits 0 h (.send size 1)) :
    Accounted (call h (.send size 1)) fun k => owed k + unit h.msgs.length k :=
  hacc.append h.tracker.next (by decide) (call_exact hacc.exact trivial hfits) rfl

/-- The new message gets another count. -/
theorem Accounted.sendMany (hacc : Accounted h owed) (hfits : Fits 0 h (.send size 1)) (hn : n < 2 ^ 32) :
    Accounted (call (call h (.send size 1)) (.update h.msgs.length (BitVec.ofNat 32 n)))
      fun k => owed k + if h.msgs.length = k then n else 0 := by
  have hsent := call_exact hacc.exact (c := .send size 1) trivial hfits
  have hat : (call h (.send size 1)).msgs[h.msgs.length]? = some ⟨h.tracker.next, 1, 0⟩ := by
    exact getElem?_concat_length
  refine hacc.append h.tracker.next hn (call_exact hsent ((legal_of_open hat rfl).2 _) trivial) ?_
  rw [call_update_msgs hat, call_send_msgs, set_append_right _ _ (le_rfl), Nat.sub_self]
  rfl

/-- One work request is acknowledged. -/
theorem Accounted.ack (hacc : Accounted h fun j => owed j + unit k j) : Accounted (call h (.ack k)) owed := by
  have hlt : k < h.msgs.length := by
    by_contra hge
    have hzero := hacc.none k (Nat.le_of_not_lt hge)
    rw [unit_self] at hzero
    cases hzero
  have hk : h.msgs[k]? = some h.msgs[k] := getElem?_eq_getElem hlt
  have hbalance := hacc.balance k _ hk
  rw [unit_self] at hbalance
  have hopen : (h.msgs[k]).complete = false := decide_eq_false (by omega)
  have hmsgs := call_ack_msgs (h := h) hk
  refine ⟨call_exact hacc.exact (legal_of_open hk hopen).1 trivial, fun j m hj => ?_, fun j hj => ?_⟩
  · rw [hmsgs] at hj
    rcases getElem?_set_cases hj with ⟨rfl, rfl⟩ | ⟨hjk, hj⟩
    · show h.msgs[j].acks + 1 + owed j = h.msgs[j].expected.toNat
      omega
    · have hold := hacc.balance j m hj
      rw [unit_of_ne (Ne.symm hjk)] at hold
      exact hold
  · rw [hmsgs, length_set] at hj
    have hold := hacc.none j hj
    omega

-- ── What is on its way

/-- The work requests of message `k`. -/
def tally (wrs : List Wr) (k : ℕ) : ℕ := wrs.countP fun wr => wr.k = k

theorem tally_append (xs ys : List Wr) (k : ℕ) : tally (xs ++ ys) k = tally xs k + tally ys k := countP_append

theorem tally_cons (wr : Wr) (wrs : List Wr) (k : ℕ) : tally (wr :: wrs) k = tally wrs k + unit wr.k k := by
  unfold tally unit
  rw [countP_cons]
  by_cases hk : wr.k = k
  · rw [if_pos hk, if_pos (decide_eq_true hk)]
  · rw [if_neg hk, if_neg (by rw [decide_eq_false hk]; exact Bool.noConfusion)]

/-- A list of requests by channel falls into two parts. -/
theorem tally_filter (bs : List (ℕ × Wr)) (p : ℕ × Wr → Bool) (k : ℕ) : tally (bs.map Prod.snd) k =
      tally ((bs.filter p).map Prod.snd) k + tally ((bs.filter fun b => !p b).map Prod.snd) k := by
  unfold tally
  rw [countP_map, countP_map, countP_map]
  exact countP_eq_countP_filter_add ..

/-- The chunks of a message that are still to be posted. -/
def Chunked.left (c : Chunked) (k : ℕ) : ℕ := if c.k = k then c.chunks.length else 0

/-- The work requests of message `k` that are taken, batched, or to be posted. -/
def onWay (wire : List (List Wr)) (batch : List (ℕ × Wr)) (chunked : Option Chunked) (k : ℕ) : ℕ :=
  tally wire.flatten k + tally (batch.map Prod.snd) k + (chunked.elim 0 fun c => c.left k)

/-- What is still to be acknowledged of a message. -/
def Conn.pending (s : Conn) (k : ℕ) : ℕ := onWay s.wire s.batch s.chunked k

theorem onWay_wire (wire posts : List (List Wr)) (batch : List (ℕ × Wr)) (chunked : Option Chunked) (k : ℕ) :
    onWay (wire ++ posts) batch chunked k = onWay wire batch chunked k + tally posts.flatten k := by
  unfold onWay
  rw [flatten_append, tally_append]
  omega

theorem onWay_batch (wire : List (List Wr)) (batch : List (ℕ × Wr)) (channelId : ℕ) (wr : Wr)
    (chunked : Option Chunked) (k : ℕ) :
    onWay wire (batch ++ [(channelId, wr)]) chunked k = onWay wire batch chunked k + unit wr.k k := by
  unfold onWay
  rw [map_append, tally_append, map_singleton, tally_cons]
  show _ + (_ + (0 + unit wr.k k)) + _ = _
  omega

theorem tally_singleton (wr : Wr) (k : ℕ) : tally [wr] k = unit wr.k k := (tally_cons wr [] k).trans (Nat.zero_add _)

theorem completions_flatten (cfg : Config) (wrs : List Wr) : (completions cfg wrs).flatten = wrs := by
  unfold completions
  split
  · exact flatMap_singleton' wrs
  · split
    · next hnil => rw [hnil]; rfl
    · exact flatten_singleton

/-- Each completion pays for one request of its message. -/
theorem acknowledge_accounted (cfg : Config) (len : ℕ) (wrs : List Wr) {books : Books}
    (hacc : Accounted books.history fun k => owed k + tally wrs k) :
    Accounted (wrs.foldl (acknowledge cfg len) books).history owed := by
  induction wrs generalizing books with
  | nil => exact hacc
  | cons wr wrs ih =>
    refine ih (Accounted.ack (k := wr.k) ?_)
    refine hacc.congr fun k => ?_
    rw [tally_cons, Nat.add_assoc]

/-- A flush puts requests on the wire, none is lost. -/
theorem flushBatch_pending (cfg : Config) (s : Conn) (channelId k : ℕ) :
    (flushBatch cfg s channelId 0).pending k = s.pending k := by
  have hsplit := tally_filter s.batch (fun b => b.1 = channelId) k
  have hneg : (s.batch.filter fun b => decide (b.1 ≠ channelId)) = s.batch.filter fun b => !decide (b.1 = channelId) :=
    congrArg (s.batch.filter ·) (funext fun b => decide_not)
  show onWay (s.wire ++ completions cfg _) (s.batch.filter fun b => decide (b.1 ≠ channelId)) s.chunked k =
    onWay s.wire s.batch s.chunked k
  rw [onWay_wire, completions_flatten, hneg]
  unfold onWay
  omega

-- ── The steps

/-- There are channels, and none is missing. -/
def Ready (s : Conn) : Prop := s.channels ≠ [] ∧ ∀ c ∈ s.channels, c = true
deriving Decidable

theorem Ready.hasChannel (h : Ready s) (n : ℕ) : s.hasChannel (n % s.channels.length + 1) = true := by
  have hlt : n % s.channels.length < s.channels.length := Nat.mod_lt _ (length_pos_iff.mpr h.1)
  unfold Conn.hasChannel
  rw [Nat.add_sub_cancel, getElem?_eq_getElem hlt]
  exact h.2 _ (getElem_mem hlt)

/-- With all channels there one is found. -/
theorem Ready.select (h : Ready s) : ∃ channelId,
    selectNextChannelRoundRobin s = (some channelId, { s with lastChannelId := channelId }) := by
  refine ⟨s.lastChannelId % s.channels.length + 1, ?_⟩
  unfold selectNextChannelRoundRobin
  rw [if_neg (Nat.ne_of_gt (length_pos_iff.mpr h.1))]
  dsimp only
  rw [if_pos (h.hasChannel _)]

/-- What a request that is taken or batched leaves alone. -/
structure Submitted (s s' : Conn) (wr : Wr) : Prop where
  books : s'.books = s.books
  chunked : s'.chunked = s.chunked
  reports : s'.reports = s.reports
  pending : ∀ k, s'.pending k = s.pending k + unit wr.k k

/-- A request is on the wire or in the batch. -/
theorem submitRequest_submitted (cfg : Config) (s : Conn) (channelId : ℕ) (wr : Wr) (batchPost : Bool) :
    (submitRequest cfg s channelId wr batchPost 0).1 = 0 ∧
      Submitted s (submitRequest cfg s channelId wr batchPost 0).2 wr := by
  cases batchPost with
  | false =>
    refine ⟨rfl, rfl, rfl, rfl, fun k => ?_⟩
    show onWay (s.wire ++ [[wr]]) s.batch s.chunked k = onWay s.wire s.batch s.chunked k + unit wr.k k
    rw [onWay_wire, flatten_singleton, tally_singleton]
  | true =>
    let t : Conn := { s with batch := s.batch ++ [(channelId, wr)] }
    have hbatched : ∀ k, t.pending k = s.pending k + unit wr.k k := fun k => onWay_batch ..
    show (0 : ℤ) = 0 ∧ Submitted s (if _ then flushBatch cfg t channelId 0 else t) wr
    refine ⟨rfl, ?_⟩
    split
    · exact ⟨rfl, rfl, rfl, fun k => (flushBatch_pending cfg t channelId k).trans (hbatched k)⟩
    · exact ⟨rfl, rfl, rfl, hbatched⟩

/-- No number is lost, and a call that failed has changed nothing. -/
structure Inv (s : Conn) : Prop where
  accounted : Accounted s.books.history s.pending
  refused : ∀ r ∈ s.reports, r.ret < 0 → r.after = r.before

theorem Inv.report (h : Inv s) {ret : ℤ} {before : Books} (hret : ret < 0 → s.books = before) :
    Inv (s.report ret before) := by
  exact ⟨h.accounted, forall_mem_snoc h.refused hret⟩

theorem Inv.addInflight (h : Inv s) (cfg : Config) (sendRet : ℤ) (len : ℕ) : Inv (addInflight cfg s sendRet len) :=
  ⟨h.accounted, h.refused⟩

theorem splitMessageToChunks_length (size : ℕ) : (splitMessageToChunks size).length < 2 ^ 32 := by
  have hcount : getMessageChunkCount size ≤ 16 := by
    unfold getMessageChunkCount
    split
    · exact Nat.zero_le _
    · exact Nat.min_le_right ..
  unfold splitMessageToChunks
  rw [length_map, length_range]
  omega

/-- A message is numbered, and its requests or chunks are on their way. -/
theorem post_inv (h : Inv s) {size : ℕ} (window : ℕ) (batchPost : Bool)
    {compression : Option Compression} (hplain : compressed sendType compression = none)
    (hclean : sendType ≠ .send → Ready s ∧ Fits 0 s.books.history (.send (BitVec.ofNat 64 size) 1)) :
    Inv (postWriteOrRead cfg s sendType size window batchPost 0 compression) := by
  unfold postWriteOrRead
  split
  · exact h
  · next hidle =>
    split
    · exact h.report fun _ => rfl
    · next htype =>
      split
      · exact h
      · obtain ⟨hready, hfits⟩ := hclean htype
        have hready' : Ready (sendPacket s size) := hready
        obtain ⟨channelId, hselect⟩ := hready'.select
        have hnone : s.chunked = none := Option.not_isSome_iff_eq_none.mp hidle
        dsimp only
        rw [hplain]
        dsimp only
        rw [hselect]
        dsimp only
        split
        · -- the one chunk is taken or batched
          have hsubmitted := (submitRequest_submitted cfg { sendPacket s size with lastChannelId := channelId }
            channelId ⟨s.books.history.msgs.length, size⟩ batchPost).2
          generalize submitRequest cfg { sendPacket s size with lastChannelId := channelId } channelId
            ⟨s.books.history.msgs.length, size⟩ batchPost 0 = r at hsubmitted ⊢
          obtain ⟨sendRet, t⟩ := r
          have hinv : Inv t := by
            refine ⟨?_, ?_⟩
            · rw [hsubmitted.books]
              exact (h.accounted.send hfits).congr hsubmitted.pending
            · rw [hsubmitted.reports]
              exact h.refused
          exact (hinv.addInflight cfg sendRet size).report fun hneg => absurd hneg (Int.not_lt.mpr (Int.natCast_nonneg _))
        · refine ⟨(h.accounted.sendMany hfits (splitMessageToChunks_length size)).congr fun k => ?_, h.refused⟩
          show onWay s.wire s.batch (some _) k = onWay s.wire s.batch s.chunked k + _
          rw [hnone]
          rfl

/-- The next chunk of a message that was cut. -/
theorem chunk_inv (h : Inv s) (window : ℕ) (batchPost : Bool) (hready : Ready s) :
    Inv (postNextChunk cfg s window batchPost 0) := by
  unfold postNextChunk
  split
  · exact h
  · next c hc =>
    split
    · next hnil =>
      have hinv : Inv { s with chunked := none } := by
        refine ⟨h.accounted.congr fun k => ?_, h.refused⟩
        show onWay s.wire s.batch none k = onWay s.wire s.batch s.chunked k
        have hleft : c.left k = 0 := by
          unfold Chunked.left
          rw [hnil]
          exact ite_self _
        unfold onWay
        rw [hc, Option.elim_some, hleft]
        rfl
      exact hinv.report fun hneg => absurd hneg (Int.not_lt.mpr (Int.natCast_nonneg _))
    · next size chunks hcons =>
      split
      · exact h
      · dsimp only
        unfold postRequestOnChannel
        rw [if_pos (hready.hasChannel _)]
        have hsubmitted := (submitRequest_submitted cfg s ((c.channelId - 1 + c.index) % s.channels.length + 1)
          ⟨c.k, size⟩ batchPost).2
        generalize submitRequest cfg s ((c.channelId - 1 + c.index) % s.channels.length + 1) ⟨c.k, size⟩
          batchPost 0 = r at hsubmitted ⊢
        obtain ⟨sendRet, t⟩ := r
        refine ⟨?_, ?_⟩
        · show Accounted t.books.history _
          rw [hsubmitted.books]
          refine h.accounted.congr fun k => ?_
          have hpending := hsubmitted.pending k
          have hleft : c.left k = Chunked.left { c with index := c.index + 1, chunks := chunks } k + unit c.k k := by
            unfold Chunked.left unit
            rw [hcons]
            split
            · rfl
            · rfl
          show onWay t.wire t.batch (some _) k = s.pending k
          unfold Conn.pending at hpending ⊢
          rw [hsubmitted.chunked] at hpending
          unfold onWay at hpending ⊢
          rw [hc, Option.elim_some] at hpending ⊢
          rw [Option.elim_some]
          dsimp only at hpending
          omega
        · show ∀ r ∈ t.reports, _
          rw [hsubmitted.reports]
          exact h.refused

theorem flush_inv (h : Inv s) (channelId : ℕ) : Inv (flushBatch cfg s channelId 0) :=
  ⟨h.accounted.congr (flushBatch_pending cfg s channelId), h.refused⟩

/-- A completion is taken off the wire and its messages are credited. -/
theorem poll_inv (h : Inv s) (i len : ℕ) : Inv (poll cfg s i true len) := by
  unfold poll
  split
  · exact h
  · next wrs hi =>
    refine ⟨acknowledge_accounted cfg len wrs (h.accounted.congr fun k => ?_), h.refused⟩
    show onWay (s.wire.eraseIdx i) s.batch s.chunked k + tally wrs k = onWay s.wire s.batch s.chunked k
    obtain ⟨hlt, hget⟩ := List.getElem?_eq_some_iff.mp hi
    have hsplit : tally s.wire.flatten k = tally (s.wire.eraseIdx i).flatten k + tally wrs k := by
      conv => lhs; rw [← take_append_drop i s.wire, drop_eq_getElem_cons hlt, hget]
      rw [eraseIdx_eq_take_drop_succ, flatten_append, flatten_append, flatten_cons,
        tally_append, tally_append, tally_append]
      omega
    unfold onWay
    omega

-- ── The batched form

theorem select_keeps (s : Conn) : ∃ channelId,
    (selectNextChannelRoundRobin s).2 = { s with lastChannelId := channelId } := by
  unfold selectNextChannelRoundRobin
  split
  · exact ⟨s.lastChannelId, rfl⟩
  · exact ⟨_, rfl⟩

theorem select_range (h : selectNextChannelRoundRobin s = (some channelId, s')) :
    1 ≤ channelId ∧ channelId ≤ s.channels.length := by
  unfold selectNextChannelRoundRobin at h
  split at h
  · cases h
  · next hne =>
    obtain ⟨hsome, -⟩ := Prod.mk.inj h
    split at hsome
    · rw [← Option.some.inj hsome]
      have hlt := Nat.mod_lt s.lastChannelId (Nat.pos_of_ne_zero hne)
      omega
    · cases hsome

/-- Choosing the channels changes the last one only. -/
theorem prepare_spec (ops : List Op) (s : Conn) :
    (∃ channelId, (prepare s ops).2 = { s with lastChannelId := channelId }) ∧
      ∀ prepared, (prepare s ops).1 = some prepared →
        prepared.length = ops.length ∧ ∀ p ∈ prepared, 1 ≤ p.1 ∧ p.1 ≤ s.channels.length := by
  induction ops generalizing s with
  | nil =>
    refine ⟨⟨s.lastChannelId, rfl⟩, fun prepared hp => ?_⟩
    rw [← Option.some.inj hp]
    exact ⟨rfl, forall_mem_nil _⟩
  | cons op ops ih =>
    obtain ⟨last, hkeep⟩ := select_keeps s
    unfold prepare
    cases hselect : selectNextChannelRoundRobin s with
    | mk channel t =>
      rw [hselect] at hkeep
      obtain rfl : t = { s with lastChannelId := last } := hkeep
      cases channel with
      | none => exact ⟨⟨last, rfl⟩, fun prepared hp => (by cases hp)⟩
      | some channelId =>
        have hrange := select_range hselect
        dsimp only
        split
        · exact ⟨⟨last, rfl⟩, fun prepared hp => (by cases hp)⟩
        · obtain ⟨⟨last', hlast'⟩, hrest⟩ := ih { s with lastChannelId := last }
          cases hprep : prepare { s with lastChannelId := last } ops with
          | mk rest t =>
            rw [hprep] at hlast' hrest
            obtain rfl : t = { s with lastChannelId := last' } := hlast'
            cases rest with
            | none => exact ⟨⟨last', rfl⟩, fun prepared hp => (by cases hp)⟩
            | some rest =>
              refine ⟨⟨last', rfl⟩, fun prepared hp => ?_⟩
              obtain ⟨hlen, hall⟩ := hrest rest rfl
              rw [← Option.some.inj hp]
              refine ⟨congrArg (· + 1) hlen, forall_mem_cons.mpr ⟨hrange, hall⟩⟩

/-- `n` messages fit into the window and under the counter's end. -/
def FitsAll (h : P2pTracker.History) (n : ℕ) : Prop :=
  (h.msgs.dropWhile P2pTracker.Msg.complete).length + n ≤ P2pTracker.windowSize ∧ h.msgs.length + n < 2 ^ 32
deriving Decidable

theorem FitsAll.send (hfits : FitsAll h (n + 1)) (size : BitVec 64) :
    Fits 0 h (.send size 1) ∧ FitsAll (call h (.send size 1)) n := by
  obtain ⟨hwin, hlen⟩ := hfits
  refine ⟨⟨by omega, ?_, by decide⟩, ?_, ?_⟩
  · show 0 + h.msgs.length + 1 < 2 ^ 32
    omega
  · rw [call_send_msgs, dropWhile_append]
    have hlast : ([⟨h.tracker.next, 1, 0⟩] : List Msg).dropWhile Msg.complete = [⟨h.tracker.next, 1, 0⟩] := rfl
    split
    · rw [hlast, length_singleton]
      omega
    · rw [length_append, length_singleton]
      omega
  · rw [call_send_msgs, length_append, length_singleton]
    omega

/-- Every operation gets a number of its own. -/
theorem takeNumbers_spec (prepared : List (ℕ × ℕ)) {s : Conn} (hacc : Accounted s.books.history owed)
    (hfits : FitsAll s.books.history prepared.length) : Accounted (takeNumbers s prepared).2.books.history
        (fun k => owed k + tally ((takeNumbers s prepared).1.map Prod.snd) k) ∧
      (takeNumbers s prepared).1.map Prod.fst = prepared.map Prod.fst ∧
      (takeNumbers s prepared).2 = { s with books := (takeNumbers s prepared).2.books } := by
  induction prepared generalizing s owed with
  | nil => exact ⟨hacc, rfl, rfl⟩
  | cons p rest ih =>
    obtain ⟨channelId, size⟩ := p
    obtain ⟨hone, hrest⟩ := hfits.send (BitVec.ofNat 64 size)
    obtain ⟨hacc', hfst, hkeep⟩ := ih (s := sendPacket s size) (hacc.send hone) hrest
    refine ⟨hacc'.congr fun k => ?_, congrArg (channelId :: ·) hfst, hkeep⟩
    show owed k + tally (⟨s.books.history.msgs.length, size⟩ :: _) k = _
    rw [tally_cons]
    dsimp only
    omega

theorem tally_channels (wrs : List (ℕ × Wr)) {rest : List ℕ} (hnew : channelId ∉ rest) (k : ℕ) :
    tally ((wrs.filter fun b => b.1 ∈ channelId :: rest).map Prod.snd) k =
      tally ((wrs.filter fun b => b.1 = channelId).map Prod.snd) k +
        tally ((wrs.filter fun b => b.1 ∈ rest).map Prod.snd) k := by
  rw [tally_filter _ fun b => decide (b.1 = channelId), filter_filter, filter_filter]
  have hfirst : (wrs.filter fun b => decide (b.1 = channelId) && decide (b.1 ∈ channelId :: rest)) =
      wrs.filter fun b => decide (b.1 = channelId) := by
    refine filter_congr fun b _ => ?_
    by_cases hb : b.1 = channelId
    · rw [hb, decide_eq_true (mem_cons_self), Bool.and_true]
    · rw [decide_eq_false hb, Bool.false_and]
  have hrest : (wrs.filter fun b => !decide (b.1 = channelId) && decide (b.1 ∈ channelId :: rest)) =
      wrs.filter fun b => decide (b.1 ∈ rest) := by
    refine filter_congr fun b _ => ?_
    by_cases hb : b.1 = channelId
    · rw [hb, decide_eq_true rfl, decide_eq_false hnew]
      rfl
    · rw [decide_eq_false hb, Bool.not_false]
      exact decide_eq_decide.mpr ⟨fun hmem => (mem_cons.mp hmem).resolve_left hb, mem_cons_of_mem _⟩
  rw [hfirst, hrest]

/-- Everything is posted, each request with its channel. -/
theorem postRawBatches_spec (cfg : Config) (wrs : List (ℕ × Wr)) {channels : List ℕ}
    (hnodup : channels.Nodup) (hrcs : ∀ c ∈ channels, rcs c = 0) (s : Conn) :
    ∃ posts, postRawBatches cfg wrs rcs channels s = .ok { s with wire := s.wire ++ posts } ∧
      ∀ k, tally posts.flatten k = tally ((wrs.filter fun b => b.1 ∈ channels).map Prod.snd) k := by
  induction channels generalizing s with
  | nil =>
    refine ⟨[], by rw [append_nil]; rfl, fun k => ?_⟩
    rw [filter_eq_nil_iff.mpr fun b _ => (by simp)]
    rfl
  | cons c rest ih =>
    obtain ⟨hnew, hnodup⟩ := nodup_cons.mp hnodup
    obtain ⟨hzero, hrcs⟩ := forall_mem_cons.mp hrcs
    unfold postRawBatches
    dsimp only
    split
    · next hnil =>
      obtain ⟨posts, hposts, htally⟩ := ih hnodup hrcs s
      refine ⟨posts, hposts, fun k => ?_⟩
      rw [tally_channels wrs hnew, hnil, htally]
      exact (Nat.zero_add _).symm
    · rw [if_neg fun hne => hne hzero]
      obtain ⟨posts, hposts, htally⟩ := ih hnodup hrcs
        { s with wire := s.wire ++ completions cfg ((wrs.filter fun b => b.1 = c).map Prod.snd) }
      refine ⟨completions cfg ((wrs.filter fun b => b.1 = c).map Prod.snd) ++ posts, ?_, fun k => ?_⟩
      · rw [hposts, append_assoc]
      · rw [flatten_append, completions_flatten, tally_append, htally, tally_channels wrs hnew]

/-- A batch is numbered, submitted and flushed. -/
theorem batch_inv (h : Inv s) {ops : List Op}
    (hrcs : ∀ c ∈ (List.range s.channels.length).map (· + 1), rcs c = 0) (hfits : FitsAll s.books.history ops.length)
    (hstep : postWriteOrReadBatch cfg s sendType ops rcs = .ok s') : Inv s' := by
  unfold postWriteOrReadBatch at hstep
  split at hstep
  · cases hstep
    exact h.report fun _ => rfl
  · obtain ⟨⟨last, hkeep⟩, hprepared⟩ := prepare_spec ops s
    generalize prepare s ops = r at hkeep hprepared hstep
    obtain ⟨prepared, t⟩ := r
    obtain rfl : t = { s with lastChannelId := last } := hkeep
    cases prepared with
    | none =>
      have hinv : Inv { s with lastChannelId := last } := ⟨h.accounted, h.refused⟩
      cases hstep
      exact hinv.report fun _ => rfl
    | some prepared =>
      obtain ⟨hlen, hrange⟩ := hprepared prepared rfl
      rw [← hlen] at hfits
      obtain ⟨hacc, hfst, hframe⟩ := takeNumbers_spec prepared (s := { s with lastChannelId := last }) h.accounted hfits
      dsimp only at hstep
      generalize takeNumbers { s with lastChannelId := last } prepared = r at hacc hfst hframe hstep
      obtain ⟨wrs, t⟩ := r
      dsimp only at hacc hfst hframe hstep
      have hchannels : t.channels = s.channels := by rw [hframe]
      have hnodup : ((range t.channels.length).map (· + 1)).Nodup :=
        nodup_range.map fun a b hab => Nat.add_right_cancel hab
      obtain ⟨posts, hposts, htally⟩ := postRawBatches_spec cfg wrs hnodup (hchannels ▸ hrcs) t
      rw [hposts] at hstep
      cases hstep
      -- every request is for one of the channels of the loop
      have hall : (wrs.filter fun b => decide (b.1 ∈ (range t.channels.length).map (· + 1))) = wrs := by
        refine filter_eq_self.mpr fun b hb => decide_eq_true ?_
        have hmem : b.1 ∈ prepared.map Prod.fst := hfst ▸ mem_map_of_mem hb
        obtain ⟨p, hp, heq⟩ := mem_map.mp hmem
        obtain ⟨hge, hle⟩ := hrange p hp
        refine mem_map.mpr ⟨b.1 - 1, mem_range.mpr ?_, ?_⟩
        · rw [hchannels]
          omega
        · omega
      have hinv : Inv { t with wire := t.wire ++ posts } := by
        refine ⟨hacc.congr fun k => ?_, ?_⟩
        · show onWay (t.wire ++ posts) t.batch t.chunked k = s.pending k + _
          rw [onWay_wire, htally, hall, hframe]
          rfl
        · rw [hframe]
          exact h.refused
      exact hinv.report fun hneg => absurd hneg (Int.lt_irrefl 0)

-- ── The run

/-- The provider takes every post, a channel can be selected, no write is compressed, no completion carries an
    error, and the tracker's limits hold. -/
def Clean (s : Conn) : Action → Prop
  | .post sendType size _ _ rc compression => rc = 0 ∧ (compressed sendType compression).isNone = true ∧
      (sendType ≠ .send → Ready s ∧ P2pTracker.Fits 0 s.books.history (.send (BitVec.ofNat 64 size) 1))
  | .chunk _ _ rc => rc = 0 ∧ Ready s
  | .flush _ rc => rc = 0
  | .batch _ ops rcs => (∀ c ∈ (List.range s.channels.length).map (· + 1), rcs c = 0) ∧
      FitsAll s.books.history ops.length
  | .poll _ success _ => success = true

instance (s : Conn) (a : Action) : Decidable (Clean s a) := by
  cases a <;> unfold Clean <;> infer_instance

/-- **ONE STEP** that is clean. -/
theorem step_inv (h : Inv s) {a : Action} (hclean : Clean s a) (hstep : step cfg s a = .ok s') : Inv s' := by
  cases a with
  | post sendType size window batchPost rc compression =>
    obtain ⟨rfl, hplain, hclean⟩ := hclean
    exact ok.inj hstep ▸ post_inv h window batchPost (Option.isNone_iff_eq_none.mp hplain) hclean
  | chunk window batchPost rc =>
    obtain ⟨rfl, hready⟩ := hclean
    exact ok.inj hstep ▸ chunk_inv h window batchPost hready
  | flush channelId rc =>
    obtain rfl : rc = 0 := hclean
    exact ok.inj hstep ▸ flush_inv h channelId
  | batch sendType ops rcs => exact batch_inv h hclean.1 hclean.2 hstep
  | poll i success len =>
    obtain rfl : success = true := hclean
    exact ok.inj hstep ▸ poll_inv h i len

/-- No request is lost. -/
structure Settled (s : Conn) : Prop where
  /-- what is acknowledged and what is on its way is what is expected -/
  accounted : ∀ k m, s.books.history.msgs[k]? = some m → m.acks + s.pending k = m.expected.toNat
  /-- a request with nothing on its way is complete -/
  done : ∀ k m, s.books.history.msgs[k]? = some m → s.pending k = 0 → checkCompletion s m.seq = true
  /-- a call that failed has left the tracker and `cc_inflight_bytes_` as they were -/
  refused : ∀ r ∈ s.reports, r.ret < 0 → r.after = r.before

end P2pPost
