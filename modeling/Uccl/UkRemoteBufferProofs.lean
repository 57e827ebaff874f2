import Mathlib.Algebra.Ring.Nat
import Uccl.StepRunProofs

/-! # The target of a put over RDMA

    `Communicator::send_put_async_with_rid` and `send_put_signal_async_with_rid`
    (experimental/ukernel/src/transport/communicator.cc) compute where a put goes, the address of the peer's buffer plus
    `dst_off`. They do not pass the address on. They WRITE it, with the key of the buffer, into a table of the adapter
    that has one entry for every peer and buffer (`register_remote_buffer`, adapter/rdma_adapter.cc), and the adapter's
    `send_put_async` reads it from there again. An entry is a pointer to a `RemoteBufInfo`; who replaces it also frees
    the old one. Whether the put stays inside the buffer is not checked (`target_exchanged`, `targets_kept`).

    The table is taken to have room: when it grows its entries are copied, and what a call for any other buffer stores
    meanwhile is lost. -/

namespace UkRemoteBuffer

open StepRun Function List

structure Mr where
  address : ℕ
  length : ℕ
  key : ℕ

/-- What the calls find and do not change: the memory regions of this rank and of its peers, the local keys,
    and whether there is a path for puts to the peer. -/
structure World where
  loc : ℕ → Mr
  remote : ℕ → ℕ → Mr
  lkey : ℕ → ℕ
  hasPutPath : ℕ → Bool

/-- A call; with a tag it is `send_put_signal_async_with_rid`. -/
structure Call where
  peer : ℕ
  srcBuf : ℕ
  srcOff : ℕ
  dstBuf : ℕ
  dstOff : ℕ
  bytes : ℕ
  tag : Option ℕ
  rid : ℕ
  deriving DecidableEq

/-- A `RemoteBufInfo` -/
structure Info where
  addr : ℕ
  rkey : ℕ
  deriving DecidableEq

/-- A `RingElem` of the adapter, as far as it says what is written where. -/
structure RingElem where
  commRid : ℕ
  localPtr : ℕ
  len : ℕ
  tag : Option ℕ
  remoteAddr : ℕ
  remoteRkey : ℕ
  deriving DecidableEq

section Calls

variable (w : World)

def Call.remoteId (c : Call) : ℕ := if c.dstBuf ≠ 0 then c.dstBuf else c.srcBuf

def Call.remoteMr (c : Call) : Mr := w.remote c.peer c.remoteId

/-- `remote_ptr` -/
def Call.remotePtr (c : Call) : ℕ := ((c.remoteMr w).address + c.dstOff) % 2 ^ 64

def Call.localPtr (c : Call) : ℕ := (w.loc c.srcBuf).address + c.srcOff

/-- The entry of the table that the call goes through. -/
def Call.entry (c : Call) : ℕ × ℕ := (c.peer, c.remoteId)

/-- What the communicator checks: the local bounds, and that the peer has such a buffer. -/
def Call.admitted (c : Call) : Bool :=
  c.srcOff ≤ (w.loc c.srcBuf).length ∧ c.bytes ≤ (w.loc c.srcBuf).length - c.srcOff ∧ (c.remoteMr w).length ≠ 0 ∧
    (c.remoteMr w).key ≠ 0

/-- What the adapter checks before it looks at the table. -/
def Call.postable (c : Call) : Bool :=
  w.hasPutPath c.peer ∧ c.bytes ≠ 0 ∧ (∀ tag ∈ c.tag, tag < 2 ^ 32) ∧ w.lkey c.srcBuf ≠ 0

/-- What the adapter does with what it has read from the table. -/
def Call.elem (c : Call) (info : Option Info) : Option RingElem :=
  let raddr := (info.map Info.addr).getD 0
  let rkey := if c.remoteId = 0 then 0 else (info.map Info.rkey).getD 0
  let raddr := if c.remotePtr w ≠ 0 ∧ raddr = 0 then c.remotePtr w else raddr
  if raddr = 0 ∨ rkey = 0 then none else some ⟨c.rid, c.localPtr w, c.bytes, c.tag, raddr, rkey⟩

end Calls

/-- Where a thread is: the checks of the communicator are behind it; the entry is stored, and the old one is still
    owned by the table; it is freed; the pointer was loaded from the table, its fields are still to be read. -/
inductive Pc
  | idle
  | resolved (c : Call)
  | stored (c : Call) (id : ℕ)
  | registered (c : Call)
  | loaded (c : Call) (id : Option ℕ)
  deriving DecidableEq

/-- The objects that entries point to are numbered.  `live` are those that are not freed. -/
structure State where
  thread : ℕ → Pc
  table : ℕ × ℕ → Option ℕ
  owner : ℕ × ℕ → Option ℕ
  next : ℕ
  info : ℕ → Info
  live : ℕ → Bool
  /-- The requests in the ring of the adapter, each with its call. -/
  enqueued : List (Call × RingElem)

def State.init : State :=
  ⟨fun _ => .idle, fun _ => none, fun _ => none, 0, fun _ => ⟨0, 0⟩, fun _ => false, []⟩

inductive Action
  | call (t : ℕ) (c : Call)
  /-- `register_remote_buffer` stores the new pointer. -/
  | store (t : ℕ)
  /-- It takes the new object into `remote_buf_owners_`. -/
  | own (t : ℕ)
  | load (t : ℕ)
  /-- The fields are read; in freed memory there may be anything. -/
  | fetch (t : ℕ) (garbage : Info)
  deriving DecidableEq

section Steps

variable (w : World)

def State.goto (s : State) (t : ℕ) (pc : Pc) : State := { s with thread := Function.update s.thread t pc }

def begin (s : State) (t : ℕ) (c : Call) : State :=
  if s.thread t = .idle ∧ c.admitted w = true then s.goto t (.resolved c) else s

def store (s : State) (t : ℕ) : State :=
  match s.thread t with
  | .resolved c =>
    { s.goto t (.stored c s.next) with
      table := Function.update s.table c.entry (some s.next)
      next := s.next + 1
      info := Function.update s.info s.next ⟨c.remotePtr w, (c.remoteMr w).key⟩
      live := Function.update s.live s.next true }
  | _ => s

def own (s : State) (t : ℕ) : State :=
  match s.thread t with
  | .stored c id =>
    { s.goto t (.registered c) with
      owner := Function.update s.owner c.entry (some id)
      live := fun i => s.live i && s.owner c.entry != some i }
  | _ => s

def load (s : State) (t : ℕ) : State :=
  match s.thread t with
  | .registered c => if c.postable w then s.goto t (.loaded c (s.table c.entry)) else s.goto t .idle
  | _ => s

def fetch (s : State) (t : ℕ) (garbage : Info) : State :=
  match s.thread t with
  | .loaded c id =>
    let info := id.map fun i => if s.live i then s.info i else garbage
    match c.elem w info with
    | some e => { s.goto t .idle with enqueued := s.enqueued ++ [(c, e)] }
    | none => s.goto t .idle
  | _ => s

def step (s : State) : Action → Except Empty State
  | .call t c => .ok (begin w s t c)
  | .store t => .ok (store w s t)
  | .own t => .ok (own s t)
  | .load t => .ok (load w s t)
  | .fetch t garbage => .ok (fetch w s t garbage)

end Steps

/-- The request goes to the target of its call, inside the buffer and with its key. -/
def OnTarget (w : World) (c : Call) (e : RingElem) : Prop :=
  e.remoteAddr = (c.remoteMr w).address + c.dstOff ∧ c.dstOff + e.len ≤ (c.remoteMr w).length ∧
    e.remoteRkey = (c.remoteMr w).key
deriving Decidable

/-- Every request in the ring does. -/
def Kept (w : World) (s : State) : Prop := ∀ x ∈ s.enqueued, OnTarget w x.1 x.2
deriving Decidable

/-- The call that has its entry in the table and has not read it back yet. -/
def Pc.active : Pc → Option Call
  | .idle => none
  | .resolved _ => none
  | .stored c _ => some c
  | .registered c => some c
  | .loaded c _ => some c

/-- An entry is stored only while no other call goes through it, and calls ask for bytes of the buffer.  -/
def InTurn (w : World) (s : State) : Action → Prop
  | .call _ c => c.dstOff + c.bytes ≤ (c.remoteMr w).length
  | .store t => ∀ c, s.thread t = .resolved c → ∀ t' c', (s.thread t').active = some c' → c'.entry ≠ c.entry
  | _ => True

-- ── One call at a time

/-- The call that a thread is in. -/
def Pc.call : Pc → Option Call
  | .idle => none
  | .resolved c => some c
  | .stored c _ => some c
  | .registered c => some c
  | .loaded c _ => some c

/-- How far the object `id` of the call has come. -/
def Pc.Holds (owner : ℕ × ℕ → Option ℕ) (id : ℕ) : Pc → Prop
  | .idle => True
  | .resolved _ => True
  | .stored c id' => id' = id ∧ owner c.entry ≠ some id
  | .registered c => owner c.entry = some id
  | .loaded c id' => id' = some id ∧ owner c.entry = some id

/-- A call that is active has its own object in the table. -/
def Present (w : World) (s : State) (pc : Pc) (c : Call) : Prop :=
  ∃ id, s.table c.entry = some id ∧ s.info id = ⟨c.remotePtr w, (c.remoteMr w).key⟩ ∧ s.live id = true ∧
    pc.Holds s.owner id

/-- The calls that are under way ask for bytes of their buffers, and go through different entries. -/
structure Calls (w : World) (thread : ℕ → Pc) : Prop where
  inside : ∀ t c, (thread t).call = some c → c.dstOff + c.bytes ≤ (c.remoteMr w).length
  alone : ∀ t t' c c', (thread t).active = some c → (thread t').active = some c' → c.entry = c'.entry → t = t'
  posted : ∀ t c id, thread t = .loaded c id → c.bytes ≠ 0

structure Inv (w : World) (s : State) : Prop where
  kept : Kept w s
  calls : Calls w s.thread
  present : ∀ t c, (s.thread t).active = some c → Present w s (s.thread t) c
  fresh : ∀ e i, s.table e = some i ∨ s.owner e = some i → i < s.next
  table_inj : ∀ e e' i, s.table e = some i → s.table e' = some i → e = e'
  owner_table : ∀ e e' i, s.owner e = some i → s.table e' = some i → e = e'

theorem Inv.init (w : World) : Inv w State.init where
  kept x hx := absurd hx not_mem_nil
  calls := ⟨fun t c h => (by cases h), fun t t' c c' h => (by cases h), fun t c id h => (by cases h)⟩
  present t c h := by cases h
  fresh e i h := by rcases h with h | h <;> cases h
  table_inj e e' i h := by cases h
  owner_table e e' i h := by cases h

section Keep

variable {w : World} {s : State} {t : ℕ} {pc : Pc} {thread : ℕ → Pc}

theorem Calls.update (h : Calls w thread) (hinside : ∀ c, pc.call = some c → c.dstOff + c.bytes ≤ (c.remoteMr w).length)
    (halone : ∀ c, pc.active = some c → ∀ u c', u ≠ t → (thread u).active = some c' → c'.entry ≠ c.entry)
    (hposted : ∀ c id, pc = .loaded c id → c.bytes ≠ 0) : Calls w (Function.update thread t pc) := by
  have hself : Function.update thread t pc t = pc := update_self ..
  have hother : ∀ u, u ≠ t → Function.update thread t pc u = thread u := fun u hne => update_of_ne hne ..
  refine ⟨?_, ?_, ?_⟩
  · intro u c hu
    by_cases hut : u = t
    · rw [hut, hself] at hu
      exact hinside c hu
    · rw [hother u hut] at hu
      exact h.inside u c hu
  · intro u u' c c' hu hu' heq
    by_cases hut : u = t <;> by_cases hut' : u' = t
    · rw [hut, hut']
    · rw [hut, hself] at hu
      rw [hother u' hut'] at hu'
      exact absurd heq.symm (halone c hu u' c' hut' hu')
    · rw [hut', hself] at hu'
      rw [hother u hut] at hu
      exact absurd heq (halone c' hu' u c hut hu)
    · rw [hother u hut] at hu
      rw [hother u' hut'] at hu'
      exact h.alone u u' c c' hu hu' heq
  · intro u c id hu
    by_cases hut : u = t
    · rw [hut, hself] at hu
      exact hposted c id hu
    · rw [hother u hut] at hu
      exact h.posted u c id hu

/-- A thread that stays in the same active call. -/
theorem Calls.advance (h : Calls w thread) {c : Call} (hold : (thread t).active = some c)
    (hcall : (thread t).call = some c) (hpc : pc.call = some c) (hactive : pc.active = some c)
    (hposted : ∀ c id, pc = .loaded c id → c.bytes ≠ 0) : Calls w (Function.update thread t pc) := by
  refine h.update (fun c' hc' => ?_) (fun c' hc' u c'' hut hu heq => ?_) hposted
  · rw [hpc] at hc'
    cases hc'
    exact h.inside t c hcall
  · rw [hactive] at hc'
    cases hc'
    exact hut (h.alone u t c'' c hu hold heq)

/-- What the other threads have in the table, after a step of `t`. -/
theorem present_update {s' : State} (hthread : s'.thread = Function.update s.thread t pc)
    (hself : ∀ c, pc.active = some c → Present w s' pc c)
    (hother : ∀ u c, u ≠ t → (s.thread u).active = some c → Present w s' (s.thread u) c) :
    ∀ u c, (s'.thread u).active = some c → Present w s' (s'.thread u) c := by
  intro u c hu
  rw [hthread] at hu ⊢
  by_cases hut : u = t
  · rw [hut, update_self] at hu ⊢
    exact hself c hu
  · rw [update_of_ne hut] at hu ⊢
    exact hother u c hut hu

/-- A thread goes on to a point at which it is not active. -/
theorem Inv.goto_inactive (h : Inv w s) (t : ℕ) (hpc : pc.active = none)
    (hinside : ∀ c, pc.call = some c → c.dstOff + c.bytes ≤ (c.remoteMr w).length) : Inv w (s.goto t pc) :=
  { h with
    calls := by
      refine h.calls.update hinside (fun c hc => ?_) fun c id hc => ?_
      · rw [hpc] at hc
        cases hc
      · rw [hc] at hpc
        cases hpc
    present := by
      refine present_update rfl (fun c hc => ?_) fun u c _ hu => h.present u c hu
      rw [hpc] at hc
      cases hc }

theorem begin_inv (h : Inv w s) {c : Call} (hin : c.dstOff + c.bytes ≤ (c.remoteMr w).length) :
    Inv w (begin w s t c) := by
  unfold begin
  split
  · refine h.goto_inactive t rfl fun c' hc' => ?_
    cases hc'
    exact hin
  · exact h

/-- A new object in the table, for an entry that no other call goes through. -/
theorem store_inv (h : Inv w s)
    (hturn : ∀ c, s.thread t = .resolved c → ∀ t' c', (s.thread t').active = some c' → c'.entry ≠ c.entry) :
    Inv w (store w s t) := by
  unfold store
  cases hpc : s.thread t with
  | idle | stored c id | registered c | loaded c id => exact h
  | resolved c =>
    have hfree := hturn c hpc
    have hold : ∀ e i, s.table e = some i ∨ s.owner e = some i → i ≠ s.next :=
      fun e i hi => Nat.ne_of_lt (h.fresh e i hi)
    refine ⟨h.kept, ?_, ?_, ?_, ?_, ?_⟩
    · refine h.calls.update (fun c' hc' => ?_) (fun c' hc' u c'' _ hu => ?_) fun c' id hc' => by cases hc'
      · cases hc'
        exact h.calls.inside t c (by rw [hpc]; rfl)
      · cases hc'
        exact hfree u c'' hu
    · refine present_update rfl (fun c' hc' => ?_) fun u c' _ hu => ?_
      · cases hc'
        exact ⟨s.next, update_self .., update_self .., update_self .., rfl,
          fun howner => hold c.entry s.next (.inr howner) rfl⟩
      · obtain ⟨id, htable, hinfo, hlive, hholds⟩ := h.present u c' hu
        have hid : id ≠ s.next := hold c'.entry id (.inl htable)
        exact ⟨id, (update_of_ne (hfree u c' hu) ..).trans htable,
          (update_of_ne hid ..).trans hinfo, (update_of_ne hid ..).trans hlive, hholds⟩
    · intro e i hi
      refine Nat.lt_succ_of_le ?_
      dsimp only at hi
      by_cases hec : e = c.entry
      · rw [hec, update_self] at hi
        rcases hi with hi | hi
        · cases hi
          exact le_rfl
        · exact Nat.le_of_lt (h.fresh _ i (.inr hi))
      · rw [update_of_ne hec] at hi
        exact Nat.le_of_lt (h.fresh e i hi)
    · intro e e' i he he'
      dsimp only at he he'
      by_cases hec : e = c.entry <;> by_cases hec' : e' = c.entry
      · rw [hec, hec']
      · rw [hec, update_self] at he
        rw [update_of_ne hec'] at he'
        exact absurd (Option.some.inj he).symm (hold e' i (.inl he'))
      · rw [hec', update_self] at he'
        rw [update_of_ne hec] at he
        exact absurd (Option.some.inj he').symm (hold e i (.inl he))
      · rw [update_of_ne hec] at he
        rw [update_of_ne hec'] at he'
        exact h.table_inj e e' i he he'
    · intro e e' i he he'
      dsimp only at he he'
      by_cases hec' : e' = c.entry
      · rw [hec', update_self] at he'
        exact absurd (Option.some.inj he').symm (hold e i (.inr he))
      · rw [update_of_ne hec'] at he'
        exact h.owner_table e e' i he he'

/-- The object that is freed is of the same entry, and it is not the new one. -/
theorem own_inv (h : Inv w s) : Inv w (own s t) := by
  unfold own
  cases hpc : s.thread t with
  | idle | resolved c | registered c | loaded c id => exact h
  | stored c id =>
    have hactive : (s.thread t).active = some c := by rw [hpc]; rfl
    obtain ⟨id', htable, hinfo, hlive, hholds⟩ := h.present t c hactive
    rw [hpc] at hholds
    obtain ⟨rfl, howner⟩ := hholds
    -- what another entry points to is not owned here
    have hkeep : ∀ e i, s.table e = some i → s.owner c.entry ≠ some i → (s.live i && s.owner c.entry != some i) = s.live i := by
      intro e i _ hne
      simp [hne]
    refine ⟨h.kept, ?_, ?_, ?_, h.table_inj, ?_⟩
    · exact h.calls.advance hactive (by rw [hpc]; rfl) rfl rfl fun c' id' hc' => by cases hc'
    · refine present_update rfl (fun c' hc' => ?_) fun u c' hut hu => ?_
      · cases hc'
        exact ⟨id, htable, hinfo, (hkeep c.entry id htable howner).trans hlive, update_self ..⟩
      · obtain ⟨i, htab, hinf, hliv, hhol⟩ := h.present u c' hu
        have hne : c'.entry ≠ c.entry := fun heq => hut (h.calls.alone u t c' c hu hactive heq)
        refine ⟨i, htab, hinf, ?_, ?_⟩
        · exact (hkeep c'.entry i htab fun hcon => hne (h.owner_table c.entry c'.entry i hcon htab).symm).trans hliv
        · have hsame : Function.update s.owner c.entry (some id) c'.entry = s.owner c'.entry := update_of_ne hne ..
          cases hthread : s.thread u <;> rw [hthread] at hhol hu <;> cases hu <;> dsimp only [Pc.Holds] at hhol ⊢ <;>
            rw [hsame] <;> exact hhol
    · intro e i hi
      dsimp only at hi
      by_cases hec : e = c.entry
      · rw [hec, update_self] at hi
        rcases hi with hi | hi
        · exact h.fresh _ i (.inl hi)
        · cases hi
          exact h.fresh _ id (.inl htable)
      · rw [update_of_ne hec] at hi
        exact h.fresh e i hi
    · intro e e' i he he'
      dsimp only at he he'
      by_cases hec : e = c.entry
      · rw [hec, update_self] at he
        cases he
        rw [hec]
        exact h.table_inj c.entry e' id htable he'
      · rw [update_of_ne hec] at he
        exact h.owner_table e e' i he he'

theorem load_inv (h : Inv w s) : Inv w (load w s t) := by
  unfold load
  cases hpc : s.thread t with
  | idle | resolved c | stored c id | loaded c id => exact h
  | registered c =>
    dsimp only
    by_cases hpost : c.postable w = true
    · rw [if_pos hpost]
      have hactive : (s.thread t).active = some c := by rw [hpc]; rfl
      obtain ⟨id, htable, hinfo, hlive, hholds⟩ := h.present t c hactive
      rw [hpc] at hholds
      refine { h with calls := ?_, present := ?_ }
      · refine h.calls.advance hactive (by rw [hpc]; rfl) rfl rfl fun c' id' hc' => ?_
        cases hc'
        exact (of_decide_eq_true hpost).2.1
      · refine present_update rfl (fun c' hc' => ?_) fun u c' _ hu => h.present u c' hu
        cases hc'
        exact ⟨id, htable, hinfo, hlive, htable, hholds⟩
    · rw [if_neg hpost]
      exact h.goto_inactive t rfl fun c' hc' => by cases hc'

section

variable (hmem : ∀ p b, (w.remote p b).address + (w.remote p b).length ≤ 2 ^ 64)
include hmem

/-- What the adapter makes of an object with the target of the call. -/
theorem elem_onTarget {c : Call} {e : RingElem}
    (hin : c.dstOff + c.bytes ≤ (c.remoteMr w).length) (hbytes : c.bytes ≠ 0)
    (helem : c.elem w (some ⟨c.remotePtr w, (c.remoteMr w).key⟩) = some e) : OnTarget w c e := by
  have hptr : c.remotePtr w = (c.remoteMr w).address + c.dstOff := by
    refine Nat.mod_eq_of_lt ?_
    have hbound : (c.remoteMr w).address + (c.remoteMr w).length ≤ 2 ^ 64 := hmem _ _
    omega
  unfold Call.elem at helem
  dsimp only [Option.map, Option.getD] at helem
  rw [ite_self] at helem
  by_cases hid : c.remoteId = 0
  · rw [if_pos hid, if_pos (.inr rfl)] at helem
    cases helem
  · rw [if_neg hid] at helem
    split at helem
    · cases helem
    · cases helem
      exact ⟨hptr, hin, rfl⟩

theorem fetch_inv (h : Inv w s) (garbage : Info) : Inv w (fetch w s t garbage) := by
  unfold fetch
  cases hpc : s.thread t with
  | idle | resolved c | stored c id | registered c => exact h
  | loaded c id =>
    obtain ⟨id', -, hinfo, hlive, hholds⟩ := h.present t c (by rw [hpc]; rfl)
    rw [hpc] at hholds
    obtain ⟨rfl, -⟩ := hholds
    dsimp only [Option.map]
    rw [hlive, if_pos rfl, hinfo]
    have hidle : Inv w (s.goto t .idle) := h.goto_inactive t rfl fun c' hc' => by cases hc'
    cases helem : c.elem w (some ⟨c.remotePtr w, (c.remoteMr w).key⟩) with
    | none => exact hidle
    | some e =>
      refine { hidle with kept := forall_mem_snoc h.kept ?_ }
      exact elem_onTarget hmem (h.calls.inside t c (by rw [hpc]; rfl)) (h.calls.posted t c _ hpc) helem

theorem step_inv {s' : State} {a : Action}
    (h : Inv w s) (hturn : InTurn w s a) (hstep : step w s a = .ok s') : Inv w s' := by
  cases a with
  | call t c =>
    cases hstep
    exact begin_inv h hturn
  | store t =>
    cases hstep
    exact store_inv h hturn
  | own t =>
    cases hstep
    exact own_inv h
  | load t =>
    cases hstep
    exact load_inv h
  | fetch t garbage =>
    cases hstep
    exact fetch_inv hmem h garbage

end

end Keep

/-- **Puts keep their targets** if the calls for one buffer of one peer take turns and ask for bytes of it. -/
theorem targets_kept {w : World} (hmem : ∀ p b, (w.remote p b).address + (w.remote p b).length ≤ 2 ^ 64)
    {s : State} {as : List Action} (halong : Along (step w) (InTurn w) State.init as)
    (hrun : runFrom (step w) State.init as = .ok s) : Kept w s :=
  (runFrom_invariant_along (fun _ _ _ hs hturn hstep => step_inv hmem hs hturn hstep) (Inv.init w) halong hrun).kept

-- ── Two calls

/-- Every buffer has 64 bytes. -/
def smallWorld : World := ⟨fun _ => ⟨4096, 64, 5⟩, fun _ _ => ⟨8192, 64, 7⟩, fun _ => 5, fun _ => true⟩

/-- A put of 16 bytes to the buffer 2 of the peer 1. -/
def putAt (off rid : ℕ) : Call := ⟨1, 1, 0, 2, off, 16, none, rid⟩

def Action.thread : Action → ℕ
  | .call t _ => t
  | .store t => t
  | .own t => t
  | .load t => t
  | .fetch t _ => t

/-- `InTurn` for the first `n` threads, as a check. -/
def checkTurn (w : World) (n : ℕ) (s : State) (a : Action) : Bool :=
  a.thread < n &&
    match a with
    | .call _ c => c.dstOff + c.bytes ≤ (c.remoteMr w).length
    | .store t =>
      match s.thread t with
      | .resolved c => (List.range n).all fun t' => ((s.thread t').active.map Call.entry) != some c.entry
      | _ => true
    | _ => true

variable {w : World}

theorem thread_of_step {s s' : State} {a : Action} (hstep : step w s a = .ok s') {u : ℕ}
    (hu : u ≠ a.thread) : s'.thread u = s.thread u := by
  have hgoto : ∀ pc, (s.goto a.thread pc).thread u = s.thread u := fun pc => update_of_ne hu ..
  cases a with
  | call t c =>
    cases hstep
    unfold begin
    split
    · exact hgoto _
    · rfl
  | store t =>
    cases hstep
    unfold store
    split
    · exact hgoto _
    · rfl
  | own t =>
    cases hstep
    unfold own
    split
    · exact hgoto _
    · rfl
  | load t =>
    cases hstep
    unfold load
    split
    · split <;> exact hgoto _
    · rfl
  | fetch t garbage =>
    cases hstep
    unfold fetch
    split
    · dsimp only
      split <;> exact hgoto _
    · rfl

theorem inTurn_of_check {n : ℕ} {s : State} {a : Action} (hidle : ∀ u, n ≤ u → s.thread u = .idle)
    (h : checkTurn w n s a = true) : InTurn w s a := by
  obtain ⟨-, h⟩ := Bool.and_eq_true_iff.mp h
  cases a with
  | call t c => exact (of_decide_eq_true h : c.dstOff + c.bytes ≤ (c.remoteMr w).length)
  | own t | load t | fetch t garbage => exact trivial
  | store t =>
    intro c hpc u c' hu heq
    dsimp only at h
    rw [hpc] at h
    rcases Nat.lt_or_ge u n with hlt | hge
    · have hne := all_eq_true.mp h u (mem_range.mpr hlt)
      rw [hu, Option.map_some, heq] at hne
      exact absurd rfl (bne_iff_ne.mp hne)
    · rw [hidle u hge] at hu
      cases hu

theorem along_of_check (n : ℕ) {as : List Action}
    (h : Along (step w) (fun s a => checkTurn w n s a = true) State.init as) :
    Along (step w) (InTurn w) State.init as := by
  refine h.weaken (I := fun s => ∀ u, n ≤ u → s.thread u = .idle) ?_ (fun s a hidle hcheck => inTurn_of_check hidle hcheck)
    fun _ _ => rfl
  intro s a s' hidle hcheck hstep u hu
  have hlt : a.thread < n := of_decide_eq_true (Bool.and_eq_true_iff.mp hcheck).1
  rw [thread_of_step hstep (by omega)]
  exact hidle u hu

def targets (s : State) : List (ℕ × ℕ) := s.enqueued.map fun x => (x.2.commRid, x.2.remoteAddr)

/-- Two threads, each at its own offset, one after the other. -/
theorem targets_kept_in_turn : ∃ s, runFrom (step smallWorld) State.init
      [.call 0 (putAt 0 1), .call 1 (putAt 32 2), .store 0, .own 0, .load 0, .fetch 0 ⟨0, 0⟩, .store 1, .own 1, .load 1,
        .fetch 1 ⟨0, 0⟩] = .ok s ∧
    targets s = [(1, 8192), (2, 8224)] ∧ Kept smallWorld s := by
  have hroom : 8192 + 64 ≤ 2 ^ 64 := by decide
  have hmem : ∀ p b, (smallWorld.remote p b).address + (smallWorld.remote p b).length ≤ 2 ^ 64 := fun _ _ => hroom
  refine exists_run_of_guarded (G := fun s a => checkTurn smallWorld 2 s a = true)
    (fun s => targets s = [(1, 8192), (2, 8224)]) ?_
    fun s halong hrun hs => ⟨hs, targets_kept hmem (along_of_check 2 halong) hrun⟩
  decide +kernel

/-- **Two overlapping calls go to one target**: the second stores its address before the first reads the entry.
    And a call for bytes behind the end of the buffer is enqueued like any other. -/
theorem target_exchanged : (∃ s, runFrom (step smallWorld) State.init
        [.call 0 (putAt 0 1), .call 1 (putAt 32 2), .store 0, .own 0, .store 1, .own 1, .load 0, .fetch 0 ⟨0, 0⟩, .load 1,
          .fetch 1 ⟨0, 0⟩] = .ok s ∧ targets s = [(1, 8224), (2, 8224)] ∧ ¬ Kept smallWorld s) ∧
      ∃ s, runFrom (step smallWorld) State.init
        [.call 0 (putAt 64 1), .store 0, .own 0, .load 0, .fetch 0 ⟨0, 0⟩] = .ok s ∧ targets s = [(1, 8256)] ∧
        ¬ Kept smallWorld s := by
  constructor
  · refine exists_run_of_eval (fun s => targets s = [(1, 8224), (2, 8224)] ∧ ¬ Kept smallWorld s) ?_ fun s hrun hs => hs
    decide +kernel
  · refine exists_run_of_eval (fun s => targets s = [(1, 8256)] ∧ ¬ Kept smallWorld s) ?_ fun s hrun hs => hs
    decide +kernel

end UkRemoteBuffer
