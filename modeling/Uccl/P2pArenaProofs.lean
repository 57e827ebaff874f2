import Uccl.RegionProofs
import Uccl.StepRunProofs

/-! # What compressed writes reserve

    A compressed write (p2p/rdma/rdma_connection.cc) lands in the receiver's decompress buffer, is announced in a slot
    of the receiver's write-meta ring and acknowledged in a slot of the sender's ack ring. The buffer and the two rings
    belong to endpoints. Who may use which part of them is decided by each `SendConnection` for itself: a
    `DecompressArena` that covers the whole buffer, the message number modulo the ring's capacity, and a counter modulo
    the depth of the ack ring.

    So the first writes of two connections share all three (`connections_collide`), and one connection alone can meet
    itself around a ring. Otherwise nothing is shared (`reservations_disjoint`).

    `live` (the compressed writes in flight) and `acked` are read by no function. -/

namespace P2pArena

open StepRun Region Function List Except Prod

-- ── DecompressArena

structure DecompressArena where
  size : ℕ
  head : ℕ
  /-- `std::map`, offset to bytes -/
  inflight : List (ℕ × ℕ)

def DecompressArena.init (size : ℕ) : DecompressArena := ⟨size, 0, []⟩

/-- `lower_bound(start)` and the entry before it are compared with `[start, start + bytes)`. -/
def overlap (inflight : List (ℕ × ℕ)) (start bytes : ℕ) : Bool :=
  ((lowerBound start inflight).head?.any fun it => it.1 < start + bytes) ||
    ((below start inflight).getLast?.any fun prev => start < prev.1 + prev.2)

/-- `if (head + bytes > size) head = 0` -/
def wrapHead (arena : DecompressArena) (bytes : ℕ) : ℕ :=
  if arena.size < arena.head + bytes then 0 else arena.head

/-- `try_reserve`; a wrap of `head` stays also when the call fails. -/
def tryReserve (arena : DecompressArena) (bytes : ℕ) : Option ℕ × DecompressArena :=
  if bytes = 0 ∨ arena.size < bytes then (none, arena)
  else
    let start := wrapHead arena bytes
    if overlap arena.inflight start bytes then (none, { arena with head := start })
    else (some start, { arena with
      head := start + bytes
      inflight := OrderedSet.insert OrderedSet.keyLt (start, bytes) arena.inflight })

def release (arena : DecompressArena) (offset : ℕ) : DecompressArena :=
  { arena with inflight := arena.inflight.filter (·.1 ≠ offset) }

-- ── The connections of a receiver

/-- `kWriteMetaRingCapacity` -/
def writeMetaRingCapacity : ℕ := 4096

/-- `kAckRingDepth` -/
def ackRingDepth : ℕ := 4096

/-- A `PendingCompressed`. `seq` and `ackNo` are the values of the tracker's counter and of `next_ack_slot_`
    that it took; the capacities divide 2^32 and 2^64. -/
structure Pending where
  seq : ℕ
  ackNo : ℕ
  offset : ℕ
  bytes : ℕ
  deriving DecidableEq

open Pending

def Pending.wrId (p : Pending) : ℕ := p.seq % 2 ^ 32

def Pending.region (p : Pending) : ℕ × ℕ := (p.offset, p.bytes)

def Pending.metaSlot (p : Pending) : ℕ := p.wrId % writeMetaRingCapacity

def Pending.ackSlot (p : Pending) : ℕ := p.ackNo % ackRingDepth

structure Conn where
  nextSeq : ℕ
  nextAckSlot : ℕ
  arena : DecompressArena
  /-- calls that wait for a region: their message number and size -/
  posting : List (ℕ × ℕ)
  /-- `pending_compressed_` -/
  pending : List Pending
  /-- `released_offsets` -/
  released : List ℕ

structure Peers (ι ε : Type) where
  conns : ι → Conn
  ackRing : ε → ℕ → ℕ
  live : List (ι × Pending)
  acked : List (ι × Pending)

section Model
variable {ι ε : Type}

/-- `size` is the length of the receiver's decompress buffer, which every connection is told. -/
def Peers.init (size : ℕ) : Peers ι ε :=
  { conns := fun _ => ⟨0, 0, DecompressArena.init size, [], [], []⟩
    ackRing := fun _ _ => 0, live := [], acked := [] }

variable [DecidableEq ι] [DecidableEq ε] (endpoint : ι → ε)

def setConn (x : Peers ι ε) (c : ι) (conn : Conn) : Peers ι ε :=
  { x with conns := Function.update x.conns c conn }

def setAckSlot (x : Peers ι ε) (e : ε) (slot value : ℕ) : Peers ι ε :=
  { x with ackRing := Function.update x.ackRing e (Function.update (x.ackRing e) slot value) }

/-- `pending_compressed_.emplace` -/
def emplace (pending : List Pending) (p : Pending) : List Pending :=
  if pending.any (·.wrId = p.wrId) then pending else pending ++ [p]

/-- An uncompressed write takes a message number. -/
def plainWrite (x : Peers ι ε) (c : ι) : Peers ι ε :=
  setConn x c { x.conns c with nextSeq := (x.conns c).nextSeq + 1 }

/-- `post_write_or_read`, when the message is to be compressed -/
def compressedWrite (x : Peers ι ε) (c : ι) (bytes : ℕ) : Peers ι ε :=
  if bytes ≤ (x.conns c).arena.size then
    setConn x c { x.conns c with
      nextSeq := (x.conns c).nextSeq + 1
      posting := (x.conns c).posting ++ [((x.conns c).nextSeq, bytes)] }
  else plainWrite x c

/-- The entry that the call makes. -/
def entryOf (conn : Conn) (call : ℕ × ℕ) (offset : ℕ) : Pending :=
  { seq := call.1, ackNo := conn.nextAckSlot, offset := offset, bytes := call.2 }

/-- The `i`-th of the waiting calls has got its region. -/
def enter (conn : Conn) (i : ℕ) (entry : Pending) (arena : DecompressArena) : Conn :=
  { conn with
    nextAckSlot := conn.nextAckSlot + 1
    arena := arena
    posting := conn.posting.eraseIdx i
    pending := emplace conn.pending entry }

/-- `compress_write_request_split_first`: the `i`-th of the waiting calls tries to reserve. -/
def reserve (x : Peers ι ε) (c : ι) (i : ℕ) : Peers ι ε :=
  let conn := x.conns c
  match conn.posting[i]? with
  | none => x
  | some call =>
    match tryReserve conn.arena call.2 with
    | (none, arena) => setConn x c { conn with arena := arena }
    | (some offset, arena) =>
      let entry := entryOf conn call offset
      let y := setConn (setAckSlot x (endpoint c) entry.ackSlot 0) c (enter conn i entry arena)
      { y with live := x.live ++ [(c, entry)] }

/-- The receiver's acknowledgement of the `i`-th write in flight lands: `wr_id + 1` in its slot. -/
def ack (x : Peers ι ε) (i : ℕ) : Peers ι ε :=
  match x.live[i]? with
  | none => x
  | some w =>
    if w ∈ x.acked then x
    else
      let y := setAckSlot x (endpoint w.1) w.2.ackSlot (w.2.wrId + 1)
      { y with acked := x.acked ++ [w] }

/-- The `i`-th entry is erased, and its region is to be released. -/
def leave (conn : Conn) (i : ℕ) (p : Pending) : Conn :=
  { conn with
    pending := conn.pending.eraseIdx i
    released := if 0 < p.bytes then conn.released ++ [p.offset] else conn.released }

/-- `poll_ack_ring` comes to the `i`-th entry of the map. -/
def pollAckRing (x : Peers ι ε) (c : ι) (i : ℕ) : Peers ι ε :=
  let conn := x.conns c
  match conn.pending[i]? with
  | none => x
  | some p =>
    if x.ackRing (endpoint c) p.ackSlot = 0 then x
    else
      let y := setConn (setAckSlot x (endpoint c) p.ackSlot 0) c (leave conn i p)
      { y with live := if (c, p) ∈ x.acked then x.live.erase (c, p) else x.live }

/-- The end of `poll_ack_ring`: the first of the released offsets goes back. -/
def releaseOffset (x : Peers ι ε) (c : ι) : Peers ι ε :=
  let conn := x.conns c
  match conn.released with
  | [] => x
  | offset :: released =>
    setConn x c { conn with arena := release conn.arena offset, released := released }

inductive Action (ι : Type)
  | plainWrite (c : ι)
  | compressedWrite (c : ι) (bytes : ℕ)
  | reserve (c : ι) (i : ℕ)
  | ack (i : ℕ)
  | pollAckRing (c : ι) (i : ℕ)
  | releaseOffset (c : ι)

def step (x : Peers ι ε) : Action ι → Except Empty (Peers ι ε)
  | .plainWrite c => .ok (plainWrite x c)
  | .compressedWrite c bytes => .ok (compressedWrite x c bytes)
  | .reserve c i => .ok (reserve endpoint x c i)
  | .ack i => .ok (ack endpoint x i)
  | .pollAckRing c i => .ok (pollAckRing endpoint x c i)
  | .releaseOffset c => .ok (releaseOffset x c)

end Model

-- ── The defects

/-- **TWO CONNECTIONS COLLIDE**: the first compressed writes of two connections of one endpoint have the same region of
    the receiver's buffer, the same slot of its write-meta ring and the same slot of the sender's ack ring. -/
theorem connections_collide : ∃ x : Peers Bool Unit, runFrom (step fun _ => ()) (Peers.init 1024)
      [.compressedWrite false 64, .reserve false 0, .compressedWrite true 64, .reserve true 0] = .ok x ∧
    x.live = [(false, ⟨0, 0, 0, 64⟩), (true, ⟨0, 0, 0, 64⟩)] :=
  ⟨_, rfl, rfl⟩

-- ── The arena

section Arena
variable {arena arena' : DecompressArena} {bytes offset : ℕ}

theorem overlap_eq_false_iff (h : Separated arena.inflight) {start : ℕ} (hbytes : 0 < bytes) :
    overlap arena.inflight start bytes = false ↔ ∀ r ∈ arena.inflight, Apart r (start, bytes) := by
  rw [← clear_iff h hbytes]
  unfold overlap
  rw [Bool.or_eq_false_iff]
  refine and_congr ?_ ?_
  · cases (lowerBound start arena.inflight).head? with
    | none | some r => simp
  · cases (below start arena.inflight).getLast? with
    | none | some r => simp

/-- What `try_reserve` returns is apart from everything reserved. -/
theorem tryReserve_some (h : Separated arena.inflight) (hres : tryReserve arena bytes = (some offset, arena')) :
    0 < bytes ∧ offset + bytes ≤ arena.size ∧ (∀ r ∈ arena.inflight, Apart r (offset, bytes)) ∧
      arena'.size = arena.size ∧ Separated arena'.inflight ∧
      arena'.inflight.Perm ((offset, bytes) :: arena.inflight) := by
  unfold tryReserve at hres
  dsimp only at hres
  split at hres
  · cases hres
  · next hbytes =>
    obtain ⟨hne, hle⟩ := not_or.mp hbytes
    have hpos : 0 < bytes := Nat.pos_of_ne_zero hne
    split at hres
    · cases hres
    · next hover =>
      obtain ⟨hoff, rfl⟩ := mk.inj hres
      rw [Option.some.inj hoff] at hover ⊢
      have hapart := (overlap_eq_false_iff h hpos).mp (Bool.eq_false_iff.mpr hover)
      refine ⟨hpos, ?_, hapart, rfl, h.insert hpos hapart, OrderedSet.insert_keyLt_perm ?_⟩
      · rw [← Option.some.inj hoff]
        unfold wrapHead
        split <;> omega
      · intro r hr hkey
        have hpos' := h.pos r hr
        rcases hapart r hr with hle | hle <;> simp only at hkey hle <;> omega

theorem tryReserve_none (hres : tryReserve arena bytes = (none, arena')) :
    arena'.inflight = arena.inflight ∧ arena'.size = arena.size := by
  unfold tryReserve at hres
  dsimp only at hres
  split at hres
  · obtain ⟨-, rfl⟩ := mk.inj hres
    exact ⟨rfl, rfl⟩
  · split at hres
    · obtain ⟨-, rfl⟩ := mk.inj hres
      exact ⟨rfl, rfl⟩
    · cases hres

end Arena

-- ── When nothing is shared

section Run
variable {ι ε : Type}

/-- No two compressed writes in flight have anything in common. -/
structure Unshared (endpoint : ι → ε) (x : Peers ι ε) : Prop where
  regions : x.live.Pairwise fun v w => Apart v.2.region w.2.region
  metaSlots : x.live.Pairwise fun v w => v.2.metaSlot ≠ w.2.metaSlot
  ackSlots : x.live.Pairwise fun v w => endpoint v.1 = endpoint w.1 → v.2.ackSlot ≠ w.2.ackSlot

/-- A region is reserved while the compressed writes in flight are of the same connection and have taken their message
    number, as the call itself, among the last 4096 and their number in the ack ring among the last 4095. -/
def Roomy (x : Peers ι ε) : Action ι → Prop
  | .reserve c i =>
    (∀ w ∈ x.live, w.1 = c ∧ (x.conns c).nextSeq ≤ w.2.seq + writeMetaRingCapacity ∧
      (x.conns c).nextAckSlot < w.2.ackNo + ackRingDepth) ∧
    ∀ call ∈ (x.conns c).posting[i]?, (x.conns c).nextSeq ≤ call.1 + writeMetaRingCapacity
  | _ => True

instance [DecidableEq ι] (x : Peers ι ε) (a : Action ι) : Decidable (Roomy x a) := by
  cases a <;> unfold Roomy <;> infer_instance

/-- What a connection holds: the keys of its arena are the regions of its entries and those that
    wait to be released, and no number was given twice. -/
structure Held (conn : Conn) : Prop where
  separated : Separated conn.arena.inflight
  keys : (conn.pending.map Pending.offset ++ conn.released).Perm (conn.arena.inflight.map fst)
  regions : ∀ p ∈ conn.pending, p.region ∈ conn.arena.inflight
  seqs : (conn.posting.map fst ++ conn.pending.map seq).Nodup
  seq_lt : ∀ n ∈ conn.posting.map fst ++ conn.pending.map seq, n < conn.nextSeq
  acks : (conn.pending.map ackNo).Nodup
  ack_lt : ∀ p ∈ conn.pending, p.ackNo < conn.nextAckSlot

structure Inv (endpoint : ι → ε) (x : Peers ι ε) : Prop where
  held : ∀ c, Held (x.conns c)
  live : ∀ w, w ∈ x.live ↔ w.2 ∈ (x.conns w.1).pending
  nodup : x.live.Nodup
  one : ∀ v ∈ x.live, ∀ w ∈ x.live, v.1 = w.1
  near : ∀ v ∈ x.live, ∀ w ∈ x.live, v.2.seq < w.2.seq + writeMetaRingCapacity ∧
    v.2.ackNo < w.2.ackNo + ackRingDepth
  ring : ∀ w ∈ x.live, x.ackRing (endpoint w.1) w.2.ackSlot ≠ 0 → w ∈ x.acked

variable {endpoint : ι → ε} {x x' : Peers ι ε} {c : ι} {conn : Conn} {v w : ι × Pending}

theorem Inv.init (size : ℕ) : Inv endpoint (Peers.init size) where
  held _ := ⟨Separated.nil, List.Perm.nil, forall_mem_nil _, nodup_nil, forall_mem_nil _, nodup_nil, forall_mem_nil _⟩
  live _ := ⟨fun hw => absurd hw not_mem_nil, fun hw => absurd hw not_mem_nil⟩
  nodup := nodup_nil
  one := forall_mem_nil _
  near := forall_mem_nil _
  ring := forall_mem_nil _

section

variable (h : Inv endpoint x)
include h

/-- Two different writes in flight are different entries of one connection. -/
theorem Inv.entries (hv : v ∈ x.live) (hw : w ∈ x.live) (hne : v ≠ w) :
    v.2 ∈ (x.conns v.1).pending ∧ w.2 ∈ (x.conns v.1).pending ∧ v.2 ≠ w.2 := by
  have hone := h.one v hv w hw
  refine ⟨(h.live v).mp hv, ?_, fun heq => hne (Prod.ext hone heq)⟩
  rw [hone]
  exact (h.live w).mp hw

theorem Inv.seq_ne (hv : v ∈ x.live) (hw : w ∈ x.live) (hne : v ≠ w) : v.2.seq ≠ w.2.seq := by
  obtain ⟨hpv, hpw, hpne⟩ := h.entries hv hw hne
  exact fun heq => hpne (inj_on_of_nodup_map (h.held v.1).seqs.of_append_right hpv hpw heq)

theorem Inv.ackSlot_ne (hv : v ∈ x.live) (hw : w ∈ x.live) (hne : v ≠ w) : v.2.ackSlot ≠ w.2.ackSlot := by
  obtain ⟨hpv, hpw, hpne⟩ := h.entries hv hw hne
  have hack : v.2.ackNo ≠ w.2.ackNo := fun heq => hpne (inj_on_of_nodup_map (h.held v.1).acks hpv hpw heq)
  have hnear := (h.near v hv w hw).2
  have hnear' := (h.near w hw v hv).2
  unfold ackSlot
  unfold ackRingDepth at hnear hnear' ⊢
  omega

theorem Inv.unshared : Unshared endpoint x where
  regions := h.nodup.pairwise_of_forall_ne fun v hv w hw hne => by
    obtain ⟨hpv, hpw, hpne⟩ := h.entries hv hw hne
    have hheld := h.held v.1
    refine hheld.separated.apart (hheld.regions _ hpv) (hheld.regions _ hpw) fun heq => hpne ?_
    have hkeys : ((x.conns v.1).pending.map Pending.offset).Nodup :=
      (hheld.keys.nodup_iff.mpr hheld.separated.nodup_keys).of_append_left
    exact inj_on_of_nodup_map hkeys hpv hpw (mk.inj heq).1
  metaSlots := h.nodup.pairwise_of_forall_ne fun v hv w hw hne => by
    have hseq := h.seq_ne hv hw hne
    have hnear := (h.near v hv w hw).1
    have hnear' := (h.near w hw v hv).1
    unfold metaSlot wrId
    unfold writeMetaRingCapacity at hnear hnear' ⊢
    omega
  ackSlots := h.nodup.pairwise_of_forall_ne fun v hv w hw hne _ => h.ackSlot_ne hv hw hne

end

-- ── The steps

variable [DecidableEq ι]

@[simp] theorem setConn_self (x : Peers ι ε) (c : ι) (conn : Conn) : (setConn x c conn).conns c = conn :=
  update_self ..

theorem setConn_of_ne {d : ι} (h : d ≠ c) (x : Peers ι ε) (conn : Conn) :
    (setConn x c conn).conns d = x.conns d := update_of_ne h ..

section

variable (h : Inv endpoint x)
include h

/-- A step that leaves the entries of a connection alone. -/
theorem Inv.setConn (hheld : Held conn) (hpending : conn.pending = (x.conns c).pending) :
    Inv endpoint (setConn x c conn) :=
  { h with
    held d := by
      by_cases hd : d = c
      · rw [hd, setConn_self]
        exact hheld
      · rw [setConn_of_ne hd]
        exact h.held d
    live w := by
      refine (h.live w).trans ?_
      by_cases hw : w.1 = c
      · rw [hw, setConn_self, hpending]
      · rw [setConn_of_ne hw] }

theorem plainWrite_inv (c : ι) : Inv endpoint (plainWrite x c) := by
  have hheld := h.held c
  exact h.setConn { hheld with seq_lt := fun n hn => Nat.lt_succ_of_lt (hheld.seq_lt n hn) } rfl

theorem compressedWrite_inv (c : ι) (bytes : ℕ) : Inv endpoint (compressedWrite x c bytes) := by
  have hheld := h.held c
  unfold compressedWrite
  split
  · -- the new number is above all others
    have hperm : (((x.conns c).posting ++ [((x.conns c).nextSeq, bytes)]).map fst ++ (x.conns c).pending.map seq).Perm
        ((x.conns c).nextSeq :: ((x.conns c).posting.map fst ++ (x.conns c).pending.map seq)) := by
      rw [map_append, append_assoc]
      exact perm_middle
    refine h.setConn { hheld with seqs := ?_, seq_lt := fun n hn => ?_ } rfl
    · refine hperm.nodup_iff.mpr (nodup_cons.mpr ⟨fun hmem => ?_, hheld.seqs⟩)
      exact absurd (hheld.seq_lt _ hmem) (Nat.lt_irrefl _)
    · rcases mem_cons.mp (hperm.subset hn) with rfl | hn
      · exact Nat.lt_succ_self _
      · exact Nat.lt_succ_of_lt (hheld.seq_lt n hn)
  · exact plainWrite_inv h c

theorem releaseOffset_inv (c : ι) : Inv endpoint (releaseOffset x c) := by
  have hheld := h.held c
  unfold releaseOffset
  dsimp only
  split
  · exact h
  · next offset released hrel =>
    have hkeys := hheld.keys
    rw [hrel] at hkeys
    have hkeys := perm_middle.symm.trans hkeys
    have hfresh : offset ∉ (x.conns c).pending.map Pending.offset ++ released :=
      (nodup_cons.mp (hkeys.nodup_iff.mpr hheld.separated.nodup_keys)).1
    refine h.setConn { hheld with separated := hheld.separated.filter _, keys := ?_, regions := fun p hp => ?_ } rfl
    · exact hheld.separated.perm_filter hkeys
    · refine mem_filter.mpr ⟨hheld.regions p hp, ?_⟩
      refine decide_eq_true fun heq => hfresh (mem_append_left _ ?_)
      rw [← heq]
      exact mem_map_of_mem hp

end

variable [DecidableEq ε] {p : Pending}

omit [DecidableEq ι] in
@[simp] theorem setAckSlot_self (x : Peers ι ε) (e : ε) (slot value : ℕ) :
    (setAckSlot x e slot value).ackRing e slot = value := by
  unfold setAckSlot
  dsimp only
  rw [update_self, update_self]

omit [DecidableEq ι] in
/-- Another slot is not touched. -/
theorem setAckSlot_of_ne {e e' : ε} {slot slot' : ℕ} (hne : e' = e → slot' ≠ slot) (x : Peers ι ε)
    (value : ℕ) : (setAckSlot x e slot value).ackRing e' slot' = x.ackRing e' slot' := by
  unfold setAckSlot
  dsimp only
  by_cases he : e' = e
  · rw [he, update_self, update_of_ne (hne he)]
  · rw [update_of_ne he]

omit [DecidableEq ι] in
/-- A slot that holds something after another was cleared held it before. -/
theorem setAckSlot_zero {e e' : ε} {slot slot' : ℕ} (h : (setAckSlot x e slot 0).ackRing e' slot' ≠ 0) :
    x.ackRing e' slot' ≠ 0 := by
  by_cases hat : e' = e ∧ slot' = slot
  · rw [hat.1, hat.2, setAckSlot_self] at h
    exact absurd rfl h
  · rwa [setAckSlot_of_ne fun he hslot => hat ⟨he, hslot⟩] at h

theorem ack_inv (h : Inv endpoint x) (i : ℕ) : Inv endpoint (ack endpoint x i) := by
  unfold ack
  split
  · exact h
  · next w hw =>
    split
    · exact h
    · refine { h with ring := fun v hv hring => ?_ }
      by_cases heq : v = w
      · rw [heq]
        exact mem_append_right _ (mem_singleton_self _)
      · rw [setAckSlot_of_ne fun _ => h.ackSlot_ne hv (mem_of_getElem? hw) heq] at hring
        exact mem_append_left _ (h.ring v hv hring)

theorem Held.leave (h : Held conn) {i : ℕ} (hp : conn.pending[i]? = some p) :
    Held (leave conn i p) ∧ ∀ q, q ∈ (leave conn i p).pending ↔ q ≠ p ∧ q ∈ conn.pending := by
  have hperm := cons_eraseIdx_perm hp
  have hsub : ∀ q ∈ conn.pending.eraseIdx i, q ∈ conn.pending := fun q hq => hperm.subset (mem_cons_of_mem _ hq)
  have hnot : p ∉ conn.pending.eraseIdx i := (nodup_cons.mp (hperm.nodup_iff.mpr (List.Nodup.of_map _ h.acks))).1
  have hpos : 0 < p.bytes := h.separated.pos _ (h.regions p (mem_of_getElem? hp))
  have hseqs : (conn.posting.map fst ++ (conn.pending.eraseIdx i).map seq).Sublist
      (conn.posting.map fst ++ conn.pending.map seq) :=
    (List.Sublist.refl _).append ((eraseIdx_sublist ..).map _)
  unfold P2pArena.leave
  rw [if_pos hpos]
  refine ⟨⟨h.separated, ?_, fun q hq => h.regions q (hsub q hq), h.seqs.sublist hseqs,
    fun n hn => h.seq_lt n (hseqs.subset hn), h.acks.sublist ((eraseIdx_sublist ..).map _),
    fun q hq => h.ack_lt q (hsub q hq)⟩, fun q => ⟨fun hq => ⟨?_, hsub q hq⟩, fun hq => ?_⟩⟩
  · refine List.Perm.trans ?_ h.keys
    refine List.Perm.trans ?_ ((hperm.map Pending.offset).append_right conn.released)
    rw [← append_assoc]
    exact perm_append_singleton _ _
  · intro heq
    exact hnot (heq ▸ hq)
  · rcases mem_cons.mp (hperm.symm.subset hq.2) with heq | hmem
    · exact absurd heq hq.1
    · exact hmem

theorem pollAckRing_inv (h : Inv endpoint x) (c : ι) (i : ℕ) : Inv endpoint (pollAckRing endpoint x c i) := by
  unfold pollAckRing
  dsimp only
  split
  · exact h
  · next p hp =>
    split
    · exact h
    · next hring =>
      obtain ⟨hheld, hpending⟩ := (h.held c).leave hp
      have hlive : (c, p) ∈ x.live := (h.live (c, p)).mpr (mem_of_getElem? hp)
      have hmem : ∀ v, v ∈ x.live.erase (c, p) ↔ v ≠ (c, p) ∧ v ∈ x.live := fun v => h.nodup.mem_erase_iff
      rw [if_pos (h.ring (c, p) hlive hring)]
      refine ⟨fun d => ?_, fun v => ?_, h.nodup.erase _, fun v hv w hw => ?_, fun v hv w hw => ?_, fun v hv hr => ?_⟩
      · by_cases hd : d = c
        · rw [hd, setConn_self]
          exact hheld
        · rw [setConn_of_ne hd]
          exact h.held d
      · refine (hmem v).trans ?_
        by_cases hv : v.1 = c
        · rw [hv, setConn_self, hpending, h.live v, hv]
          exact and_congr_left fun _ => ⟨fun hne heq => hne (Prod.ext hv heq), fun hne heq => hne (heq ▸ rfl)⟩
        · rw [setConn_of_ne hv]
          refine (and_iff_right fun heq => hv ?_).trans (h.live v)
          rw [heq]
      · exact h.one v ((hmem v).mp hv).2 w ((hmem w).mp hw).2
      · exact h.near v ((hmem v).mp hv).2 w ((hmem w).mp hw).2
      · exact h.ring v ((hmem v).mp hv).2 (setAckSlot_zero hr)

/-- An id that no entry has is added. -/
theorem emplace_fresh {pending : List Pending} (h : ∀ q ∈ pending, q.wrId ≠ p.wrId) :
    emplace pending p = pending ++ [p] := by
  refine if_neg ?_
  rw [any_eq_true]
  rintro ⟨q, hq, heq⟩
  exact h q hq (of_decide_eq_true heq)

theorem Held.enter (h : Held conn) {i offset : ℕ} {call : ℕ × ℕ} {arena : DecompressArena}
    (hcall : conn.posting[i]? = some call) (hres : tryReserve conn.arena call.2 = (some offset, arena))
    (hfresh : ∀ q ∈ conn.pending, q.wrId ≠ (entryOf conn call offset).wrId) :
    Held (enter conn i (entryOf conn call offset) arena) ∧
      (enter conn i (entryOf conn call offset) arena).pending = conn.pending ++ [entryOf conn call offset] := by
  obtain ⟨hpos, -, hapart, -, hsep, hperm⟩ := tryReserve_some h.separated hres
  have hposting := cons_eraseIdx_perm hcall
  have hseqs : ((conn.posting.eraseIdx i).map fst ++ (conn.pending ++ [entryOf conn call offset]).map seq).Perm
      (conn.posting.map fst ++ conn.pending.map seq) := by
    refine List.Perm.trans ?_ ((hposting.map fst).append_right _)
    rw [map_append, ← append_assoc]
    exact perm_append_singleton _ _
  unfold P2pArena.enter
  rw [emplace_fresh hfresh]
  refine ⟨⟨hsep, ?_, forall_mem_snoc (fun p hp => ?_) ?_, hseqs.nodup_iff.mpr h.seqs,
    fun n hn => h.seq_lt n (hseqs.subset hn), ?_, forall_mem_snoc (fun p hp => ?_) (Nat.lt_succ_self _)⟩, rfl⟩
  · refine List.Perm.trans ?_ (hperm.map fst).symm
    refine List.Perm.trans ?_ (h.keys.cons offset)
    rw [map_append, append_assoc]
    exact perm_middle
  · exact hperm.symm.subset (mem_cons_of_mem _ (h.regions p hp))
  · exact hperm.symm.subset (mem_cons_self)
  · rw [map_append, map_singleton]
    refine nodup_snoc h.acks fun hn => ?_
    obtain ⟨p, hp, heq⟩ := mem_map.mp hn
    exact absurd (h.ack_lt p hp) (by rw [heq]; exact Nat.lt_irrefl _)
  · exact Nat.lt_succ_of_lt (h.ack_lt p hp)

theorem reserve_inv (h : Inv endpoint x) {c : ι} {i : ℕ} (hroom : Roomy x (.reserve c i)) :
    Inv endpoint (reserve endpoint x c i) := by
  obtain ⟨hlive, hcalls⟩ := hroom
  have hheld := h.held c
  unfold reserve
  dsimp only
  split
  · exact h
  · next call hcall =>
    have hseqlt : call.1 < (x.conns c).nextSeq := hheld.seq_lt _
      (mem_append_left _ (mem_map_of_mem (mem_of_getElem? hcall)))
    have hseqge := hcalls call hcall
    split
    · next arena hres =>
      obtain ⟨hinflight, -⟩ := tryReserve_none hres
      refine h.setConn { hheld with separated := ?_, keys := ?_, regions := ?_ } rfl
      · rw [hinflight]
        exact hheld.separated
      · rw [hinflight]
        exact hheld.keys
      · rw [hinflight]
        exact hheld.regions
    · next offset arena hres =>
      -- the numbers of the entries are near the call's, and others
      have hother : ∀ q ∈ (x.conns c).pending, q.wrId ≠ (entryOf (x.conns c) call offset).wrId := by
        intro q hq
        have hne : call.1 ≠ q.seq := fun heq =>
          (disjoint_of_nodup_append hheld.seqs) (mem_map_of_mem (mem_of_getElem? hcall)) (heq ▸ mem_map_of_mem hq)
        have hqlt := hheld.seq_lt q.seq (mem_append_right _ (mem_map_of_mem hq))
        have hqge := (hlive (c, q) ((h.live (c, q)).mpr hq)).2.1
        show q.seq % 2 ^ 32 ≠ call.1 % 2 ^ 32
        unfold writeMetaRingCapacity at hseqge hqge
        simp only at hqge
        omega
      obtain ⟨hentered, hpending⟩ := hheld.enter hcall hres hother
      have hmem : ∀ v, v ∈ x.live ++ [(c, entryOf (x.conns c) call offset)] →
          v ∈ x.live ∨ v = (c, entryOf (x.conns c) call offset) := by
        intro v hv
        rcases mem_append.mp hv with hv | hv
        · exact .inl hv
        · exact .inr (mem_singleton.mp hv)
      have hack : ∀ v ∈ x.live, v.2.seq < (x.conns c).nextSeq ∧ v.2.ackNo < (x.conns c).nextAckSlot := by
        intro v hv
        have hpend := (h.live v).mp hv
        rw [(hlive v hv).1] at hpend
        exact ⟨hheld.seq_lt _ (mem_append_right _ (mem_map_of_mem hpend)), hheld.ack_lt _ hpend⟩
      refine ⟨fun d => ?_, fun v => ?_, ?_, fun v hv w hw => ?_, fun v hv w hw => ?_, fun v hv hring => ?_⟩
      · by_cases hd : d = c
        · rw [hd, setConn_self]
          exact hentered
        · rw [setConn_of_ne hd]
          exact h.held d
      · rw [mem_append, mem_singleton, h.live v]
        by_cases hv : v.1 = c
        · rw [hv, setConn_self, hpending, mem_append, mem_singleton, Prod.ext_iff]
          exact or_congr_right (and_iff_right hv)
        · rw [setConn_of_ne hv]
          exact or_iff_left fun heq => hv (by rw [heq])
      · exact nodup_snoc h.nodup fun hv => absurd (hack _ hv).2 (Nat.lt_irrefl _)
      · have hsame : ∀ u ∈ x.live ++ [(c, entryOf (x.conns c) call offset)], u.1 = c := by
          intro u hu
          rcases hmem u hu with hu | rfl
          · exact (hlive u hu).1
          · rfl
        exact (hsame v hv).trans (hsame w hw).symm
      · rcases hmem v hv with hv | rfl
        · rcases hmem w hw with hw | rfl
          · exact h.near v hv w hw
          · -- an entry and the new one
            exact ⟨Nat.lt_of_lt_of_le (hack v hv).1 hseqge, Nat.lt_add_right _ (hack v hv).2⟩
        · rcases hmem w hw with hw | rfl
          · exact ⟨Nat.lt_of_lt_of_le hseqlt (hlive w hw).2.1, (hlive w hw).2.2⟩
          · exact ⟨Nat.lt_add_of_pos_right (by decide), Nat.lt_add_of_pos_right (by decide)⟩
      · rcases hmem v hv with hv | rfl
        · exact h.ring v hv (setAckSlot_zero hring)
        · exact absurd (setAckSlot_self ..) hring

theorem step_inv (h : Inv endpoint x) {a : Action ι} (hroom : Roomy x a)
    (hstep : step endpoint x a = .ok x') : Inv endpoint x' := by
  cases a with
  | plainWrite c => exact ok.inj hstep ▸ plainWrite_inv h c
  | compressedWrite c bytes => exact ok.inj hstep ▸ compressedWrite_inv h c bytes
  | reserve c i => exact ok.inj hstep ▸ reserve_inv h hroom
  | ack i => exact ok.inj hstep ▸ ack_inv h i
  | pollAckRing c i => exact ok.inj hstep ▸ pollAckRing_inv h c i
  | releaseOffset c => exact ok.inj hstep ▸ releaseOffset_inv h c

/-- **NOTHING IS SHARED** in any run, over any number of connections and endpoints, whose
    reservations are made with the compressed writes in flight on one connection and recent. -/
theorem reservations_disjoint (endpoint : ι → ε) (size : ℕ) {as : List (Action ι)}
    (hroom : Along (step endpoint) Roomy (Peers.init size) as)
    (hrun : runFrom (step endpoint) (Peers.init size) as = .ok x) : Unshared endpoint x :=
  (runFrom_invariant_along (fun _ _ _ h hguard hstep => step_inv h hguard hstep) (Inv.init size) hroom hrun).unshared

end Run

/-- Two connections of one endpoint, one after the other: the second writes twice when the first has
    got its acknowledgement. -/
theorem reservations_disjoint_in_turn : ∃ x : Peers Bool Unit,
    runFrom (step fun _ => ()) (Peers.init 1024) [.compressedWrite false 64, .reserve false 0, .ack 0,
      .pollAckRing false 0, .compressedWrite true 64, .compressedWrite true 96, .reserve true 1,
      .reserve true 0] = .ok x ∧
    x.live = [(true, ⟨1, 0, 0, 96⟩), (true, ⟨0, 1, 96, 64⟩)] ∧ Unshared (fun _ => ()) x := by
  refine exists_run_of_guarded (G := Roomy) (fun x => x.live = [(true, ⟨1, 0, 0, 96⟩), (true, ⟨0, 1, 96, 64⟩)]) ?_
    fun x halong hrun hx => ⟨hx, reservations_disjoint _ 1024 halong hrun⟩
  decide +kernel

end P2pArena
