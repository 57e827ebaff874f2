import Uccl.TokenRoundProofs
import Uccl.EpReceiverBarrierProofs

/-! # Every atomic once, after its tokens

    All rounds of all keys at one receiver, in any interleaving: messages arrive in any order, and
    `apply_pending_updates` is called at any time. For each key the state is read as the account of its rounds
    (`account`); each step is one of the four things that can happen to one account and leaves the others
    alone, so every account stays in order.

    `Inv aside` is the invariant with some held entries put aside: in the loop of `apply_pending_updates`,
    those not visited yet. -/

namespace EpReceiverBarrier

open StepRun EpImm EpReceive TokenRound List

variable {e : Env} (batching : Bool)

-- ── The system

structure World (e : Env) where
  rx : Receiver
  /-- messages under way; any one may be the next to arrive -/
  flight : List (Msg e)
  rounds : Key e → List ℕ
  arrived : Key e → ℕ

def World.init : World e :=
  { rx := Receiver.init, flight := [], rounds := fun _ => [], arrived := fun _ => 0 }

/-- A `fetch_add` that is for `key`: on its word, and of its phase by the sign. -/
def isAdd (key : Key e) (x : ℕ × ℤ) : Bool :=
  decide (x.1 = key.slot batching) && (decide (0 < x.2) == key.combine)

/-- The `fetch_add` that a round of `key` is to cause. -/
def addOf (key : Key e) (sum : ℕ) : ℕ × ℤ := (key.slot batching, key.addValue sum)

/-- The atomics of `key` that have been applied. -/
def applied (s : World e) (key : Key e) : List (ℕ × ℤ) := s.rx.adds.filter (isAdd batching key)

inductive Action (e : Env)
  /-- the source of `key` sends writes with these token counts, and the atomic -/
  | begin (key : Key e) (tokens : List ℕ)
  /-- the `i`-th message under way arrives -/
  | deliver (i : ℕ)
  /-- `apply_pending_updates` -/
  | apply

/-- The messages of a round. -/
def round (key : Key e) (tokens : List ℕ) : List (Msg e) :=
  .atomic key tokens.sum :: tokens.map (.write key)

/-- A round starts once the previous atomic of the key has been applied; a source that cannot encode it aborts. -/
def beginRound (s : World e) (key : Key e) (tokens : List ℕ) : World e :=
  if (applied batching s key).length = (s.rounds key).length ∧
      ∀ m ∈ round key tokens, (m.imm batching).isSome then
    { s with
      flight := s.flight ++ round key tokens
      rounds := Function.update s.rounds key (s.rounds key ++ [tokens.sum]) }
  else s

def Msg.key : Msg e → Key e
  | .write key _ | .atomic key _ => key

open Msg

/-- The tokens a message brings for `key`. -/
def Msg.tokensFor (key : Key e) : Msg e → ℕ
  | .write key' tokens => if key' = key then tokens else 0
  | .atomic _ _ => 0

def deliver (s : World e) (i : ℕ) : Except Fault (World e) :=
  match s.flight[i]? with
  | none => .ok s
  | some m =>
    match m.imm batching with
    | none => .ok s
    | some imm =>
      match remoteProcessCompletion (countedBuild batching) false e s.rx imm with
      | .error f => .error f
      | .ok rx => .ok { s with
          rx := rx
          flight := s.flight.eraseIdx i
          arrived := fun key => s.arrived key + m.tokensFor key }

def step (s : World e) : Action e → Except Fault (World e)
  | .begin key tokens => .ok (beginRound batching s key tokens)
  | .deliver i => deliver batching s i
  | .apply => .ok { s with rx := applyPendingUpdates s.rx }

/-- What is wanted of a key in a state. -/
structure Exact (s : World e) (key : Key e) : Prop where
  /-- the atomics applied are those of the first rounds, once each and in order -/
  inOrder : applied batching s key =
    ((s.rounds key).take (applied batching s key).length).map (addOf batching key)
  /-- at most the last round is still open -/
  one : (s.rounds key).length ≤ (applied batching s key).length + 1
  /-- not before the tokens have arrived -/
  tokens : ((s.rounds key).take (applied batching s key).length).sum ≤ s.arrived key
  /-- the counter is zero once the last round's atomic has been applied -/
  zero : (applied batching s key).length = (s.rounds key).length → key.counter s.rx = 0
  /-- with nothing of the key under way, `apply_pending_updates` leaves no atomic unapplied -/
  progress : (∀ m ∈ s.flight, m.key ≠ key) →
    (applied batching { s with rx := applyPendingUpdates s.rx } key).length =
      (s.rounds key).length

-- ── Accounts

def Msg.isAtomicOf (key : Key e) : Msg e → Bool
  | .write _ _ => false
  | .atomic key' _ => decide (key' = key)

/-- An entry of the set that is for `key`. -/
def isFor (key : Key e) (u : PendingUpdate) : Bool :=
  decide (u.addr = key.slot batching) && (u.isCombine == key.combine)

/-- The account of a key; `aside` are entries held elsewhere than in the receiver's set. -/
def account (aside : List PendingUpdate) (s : World e) (key : Key e) : Account (ℕ × ℤ) :=
  { applied := applied batching s key, rounds := s.rounds key, arrived := s.arrived key,
    counter := key.counter s.rx, inFlight := (s.flight.map (tokensFor key)).sum,
    announced := s.flight.countP (isAtomicOf key),
    held := (s.rx.pending ++ aside).countP (isFor batching key) }

/-- The sum of the latest round of `key`. -/
def current (s : World e) (key : Key e) : ℕ := (s.rounds key).getLastD 0

structure Inv (aside : List PendingUpdate) (s : World e) : Prop where
  ok : ∀ key, (account batching aside s key).Ok (addOf batching key)
  sendable : ∀ m ∈ s.flight, (m.imm batching).isSome
  latest : ∀ key sum, atomic key sum ∈ s.flight → sum = current s key
  held : ∀ u ∈ s.rx.pending ++ aside, ∃ key, u = update batching key (current s key)
  known : ∀ x ∈ s.rx.adds, ∃ key : Key e, isAdd batching key x = true

variable {batching} {aside pending : List PendingUpdate} {s : World e} {key key' : Key e} {u : PendingUpdate}

/-- The slot and the kind of an atomic tell its key. -/
theorem Key.same_slot (key key' : Key e) :
    (decide (key'.slot batching = key.slot batching) && (key'.combine == key.combine)) = decide (key' = key) := by
  by_cases hkey : key' = key
  · rw [hkey]
    simp
  · rw [decide_eq_false hkey, Bool.and_eq_false_iff]
    by_cases hc : key'.combine = key.combine
    · exact .inl (decide_eq_false fun hslot => hkey (Key.slot_inj batching hc hslot))
    · exact .inr (beq_eq_false_iff_ne.mpr hc)

theorem isFor_update (key key' : Key e) (sum : ℕ) :
    isFor batching key (update batching key' sum) = decide (key' = key) := by
  exact Key.same_slot key key'

theorem isAdd_addOf (key key' : Key e) (sum : ℕ) :
    isAdd batching key (addOf batching key' sum) = decide (key' = key) := by
  have hsign : decide (0 < key'.addValue sum) = key'.combine := by
    unfold Key.addValue
    cases key'.combine with
    | false => exact decide_eq_false (by simp only [Bool.false_eq_true, if_false]; omega)
    | true => rfl
  unfold isAdd addOf
  rw [hsign]
  exact Key.same_slot key key'

/-- A `fetch_add` is for one key. -/
theorem isAdd_unique {x : ℕ × ℤ} (h : isAdd batching key x = true)
    (h' : isAdd batching key' x = true) : key = key' := by
  unfold isAdd at h h'
  rw [Bool.and_eq_true, decide_eq_true_iff, beq_iff_eq] at h h'
  exact Key.slot_inj batching (h.2.symm.trans h'.2) (h.1.symm.trans h'.1)

theorem counter_init (key : Key e) : key.counter Receiver.init = 0 := by
  unfold Key.counter
  split <;> rfl

theorem init_inv : Inv batching [] (World.init : World e) where
  ok key := ⟨rfl, rfl, Nat.zero_le _, counter_init key, rfl⟩
  sendable _ h := nomatch h
  latest _ _ h := nomatch h
  held _ h := nomatch h
  known _ h := nomatch h

-- ── One message

section

variable (rx : Receiver) (key : Key e) (tokens : ℕ) (sum : ℕ)

theorem settle_adds : (settle batching rx key sum).adds = rx.adds ++ [addOf batching key sum] := by
  unfold settle
  cases key.combine <;> rfl

theorem settle_pending : (settle batching rx key sum).pending = rx.pending := by
  unfold settle
  cases key.combine <;> rfl

theorem count_adds : (count rx key tokens).adds = rx.adds ∧ (count rx key tokens).pending = rx.pending := by
  unfold count
  cases key.combine <;> exact ⟨rfl, rfl⟩

theorem countP_update (s : World e) (key' : Key e) :
    (s.rx.pending ++ update batching key sum :: aside).countP (isFor batching key') =
      (s.rx.pending ++ aside).countP (isFor batching key') + if key = key' then 1 else 0 := by
  rw [perm_middle.countP_eq, countP_cons, isFor_update, if_congr decide_eq_true_iff rfl rfl]

/-- The atomic of `key` is off the wire and in the receiver's hands. -/
theorem Inv.taken (h : Inv batching aside s) {key : Key e} {sum : ℕ} {rest : List (Msg e)}
    (hperm : s.flight.Perm (.atomic key sum :: rest)) :
    Inv batching (update batching key sum :: aside) { s with flight := rest } := by
  have hsub : ∀ m ∈ rest, m ∈ s.flight := fun m hm => hperm.mem_iff.mpr (mem_cons_of_mem _ hm)
  have hsum : sum = current s key := h.latest key sum (hperm.mem_iff.mpr (mem_cons_self))
  have hflight : ∀ key', (s.flight.map (tokensFor key')).sum = (rest.map (tokensFor key')).sum :=
    fun key' => by
      rw [(hperm.map _).sum_eq, map_cons]
      exact Nat.zero_add _
  have hann : ∀ key', s.flight.countP (isAtomicOf key') =
      rest.countP (isAtomicOf key') + if key = key' then 1 else 0 := fun key' => by
    rw [hperm.countP_eq, countP_cons]
    show _ + (if decide (key = key') = true then 1 else 0) = _
    rw [if_congr decide_eq_true_iff rfl rfl]
  refine ⟨fun key' => ?_, fun m hm => h.sendable m (hsub m hm), fun k x hm => h.latest k x (hsub _ hm),
    fun u hu => ?_, h.known⟩
  · by_cases hkey : key = key'
    · have hacc : account batching (update batching key sum :: aside) { s with flight := rest } key' =
          (account batching aside s key').hold := by
        refine Account.ext rfl rfl rfl rfl (hflight key').symm ?_ ?_
        · show _ = s.flight.countP (isAtomicOf key') - 1
          rw [hann key', if_pos hkey]
          rfl
        · show (s.rx.pending ++ update batching key sum :: aside).countP (isFor batching key') = _
          rw [countP_update, if_pos hkey]
          rfl
      rw [hacc]
      refine (h.ok key').hold ?_
      show 0 < s.flight.countP (isAtomicOf key')
      rw [hann key', if_pos hkey]
      exact Nat.succ_pos _
    · have hacc : account batching (update batching key sum :: aside) { s with flight := rest } key' =
          account batching aside s key' := by
        refine Account.ext rfl rfl rfl rfl (hflight key').symm ?_ ?_
        · show _ = s.flight.countP (isAtomicOf key')
          rw [hann key', if_neg hkey]
          rfl
        · show (s.rx.pending ++ update batching key sum :: aside).countP (isFor batching key') = _
          rw [countP_update, if_neg hkey]
          rfl
      rw [hacc]
      exact h.ok key'
  · rcases mem_cons.mp (perm_middle.mem_iff.mp hu) with hu | hu
    · exact ⟨key, hu.trans (congrArg _ hsum)⟩
    · exact h.held u hu

end

/-- It does not matter which of the entries are in the receiver's set. -/
theorem Inv.regroup (h : Inv batching aside s) {aside' : List PendingUpdate}
    (hperm : (pending ++ aside').Perm (s.rx.pending ++ aside)) :
    Inv batching aside' { s with rx := { s.rx with pending := pending } } := by
  refine { h with ok := fun key => ?_, held := fun v hv => h.held v (hperm.mem_iff.mp hv) }
  have hacc : account batching aside' { s with rx := { s.rx with pending := pending } } key =
      account batching aside s key :=
    Account.ext rfl rfl rfl rfl rfl rfl (hperm.countP_eq _)
  rw [hacc]
  exact h.ok key

/-- An entry put aside goes into the receiver's set. -/
theorem Inv.kept (h : Inv batching (u :: aside) s) (hperm : pending.Perm (u :: s.rx.pending)) :
    Inv batching aside { s with rx := { s.rx with pending := pending } } :=
  h.regroup ((hperm.append_right aside).trans perm_middle.symm)

/-- The atomic of `key` is applied. -/
theorem Inv.roundSettled (h : Inv batching (update batching key (current s key) :: aside) s)
    (hready : key.counter s.rx = current s key) :
    Inv batching aside { s with rx := settle batching s.rx key (current s key) } := by
  have hadds : ∀ key', (settle batching s.rx key (current s key)).adds.filter (isAdd batching key') =
      s.rx.adds.filter (isAdd batching key') ++
        if key = key' then [addOf batching key (current s key)] else [] := fun key' => by
    rw [settle_adds, filter_append, filter_singleton, isAdd_addOf, cond_eq_ite, if_congr decide_eq_true_iff rfl rfl]
  refine ⟨fun key' => ?_, h.sendable, h.latest, fun u hu => ?_, fun x hx => ?_⟩
  · by_cases hkey : key = key'
    · have hacc : account batching aside { s with rx := settle batching s.rx key (current s key) } key' =
          (account batching (update batching key (current s key) :: aside) s key').settle (addOf batching key') := by
        refine Account.ext ?_ rfl rfl ?_ rfl rfl ?_
        · refine (hadds key').trans ?_
          rw [if_pos hkey, ← hkey]
          rfl
        · exact (counter_settle batching s.rx key _ key').trans (if_pos hkey.symm)
        · show ((settle batching s.rx key _).pending ++ aside).countP _ = _ - 1
          rw [settle_pending]
          show _ = (s.rx.pending ++ update batching key (current s key) :: aside).countP _ - 1
          rw [countP_update, if_pos hkey]
          rfl
      rw [hacc]
      refine (h.ok key').settle ?_ ?_
      · show 0 < (s.rx.pending ++ update batching key (current s key) :: aside).countP _
        rw [countP_update, if_pos hkey]
        exact Nat.succ_pos _
      · rw [← hkey]
        exact hready
    · have hacc : account batching aside { s with rx := settle batching s.rx key (current s key) } key' =
          account batching (update batching key (current s key) :: aside) s key' := by
        refine Account.ext ?_ rfl rfl ?_ rfl rfl ?_
        · refine (hadds key').trans ?_
          rw [if_neg hkey, append_nil]
          rfl
        · exact (counter_settle batching s.rx key _ key').trans (if_neg fun heq => hkey heq.symm)
        · show ((settle batching s.rx key _).pending ++ aside).countP _ = _
          rw [settle_pending]
          show _ = (s.rx.pending ++ update batching key (current s key) :: aside).countP _
          rw [countP_update, if_neg hkey]
          rfl
      rw [hacc]
      exact h.ok key'
  · rw [settle_pending] at hu
    exact h.held u (perm_middle.mem_iff.mpr (mem_cons_of_mem _ hu))
  · rw [settle_adds] at hx
    rcases mem_append.mp hx with hx | hx
    · exact h.known x hx
    · rw [mem_singleton.mp hx]
      exact ⟨key, (isAdd_addOf key key _).trans (decide_eq_true rfl)⟩

/-- The tokens of a write are counted. -/
theorem Inv.counted (h : Inv batching aside s) {tokens : ℕ} {rest : List (Msg e)}
    (hperm : s.flight.Perm (.write key tokens :: rest)) : Inv batching aside { s with
      rx := count s.rx key tokens
      flight := rest
      arrived := fun key' => s.arrived key' + (write key tokens).tokensFor key' } := by
  have hsub : ∀ m ∈ rest, m ∈ s.flight := fun m hm => hperm.mem_iff.mpr (mem_cons_of_mem _ hm)
  obtain ⟨hadds, hpend⟩ := count_adds s.rx key tokens
  have hflight : ∀ key', (s.flight.map (tokensFor key')).sum =
      (if key = key' then tokens else 0) + (rest.map (tokensFor key')).sum := fun key' => by
    rw [(hperm.map _).sum_eq, map_cons]
    rfl
  have hann : ∀ key', s.flight.countP (isAtomicOf key') = rest.countP (isAtomicOf key') := fun key' => by
      rw [hperm.countP_eq]
      rfl
  have happ : ∀ key' : Key e, (count s.rx key tokens).adds.filter (isAdd batching key') =
      s.rx.adds.filter (isAdd batching key') := fun _ => by rw [hadds]
  have hheld : ∀ key' : Key e, ((count s.rx key tokens).pending ++ aside).countP
      (isFor batching key') = (s.rx.pending ++ aside).countP (isFor batching key') := fun _ => by rw [hpend]
  refine ⟨fun key' => ?_, fun m hm => h.sendable m (hsub m hm), fun k x hm => h.latest k x (hsub _ hm),
    fun u hu => ?_, fun x hx => ?_⟩
  · by_cases hkey : key = key'
    · have hle : tokens ≤ (s.flight.map (tokensFor key')).sum := by
        rw [hflight key', if_pos hkey]
        exact Nat.le_add_right ..
      have hacc : account batching aside { s with
          rx := count s.rx key tokens
          flight := rest
          arrived := fun key' => s.arrived key' + (write key tokens).tokensFor key' } key' =
          (account batching aside s key').arrive tokens := by
        refine Account.ext (happ key') rfl ?_ ?_ ?_ (hann key').symm (hheld key')
        · show s.arrived key' + (if key = key' then tokens else 0) = s.arrived key' + tokens
          rw [if_pos hkey]
        · refine (counter_count s.rx key tokens key').trans ?_
          rw [if_pos hkey.symm, hkey]
          rfl
        · show (rest.map (tokensFor key')).sum = (s.flight.map (tokensFor key')).sum - tokens
          rw [hflight key', if_pos hkey, Nat.add_sub_cancel_left]
      rw [hacc]
      exact (h.ok key').arrive hle
    · have hacc : account batching aside { s with
          rx := count s.rx key tokens
          flight := rest
          arrived := fun key' => s.arrived key' + (write key tokens).tokensFor key' } key' =
          account batching aside s key' := by
        refine Account.ext (happ key') rfl ?_ ?_ ?_ (hann key').symm (hheld key')
        · show s.arrived key' + (if key = key' then tokens else 0) = s.arrived key'
          rw [if_neg hkey, Nat.add_zero]
        · exact (counter_count s.rx key tokens key').trans (if_neg fun heq => hkey heq.symm)
        · show (rest.map (tokensFor key')).sum = (s.flight.map (tokensFor key')).sum
          rw [hflight key', if_neg hkey, Nat.zero_add]
      rw [hacc]
      exact h.ok key'
  · rw [hpend] at hu
    exact h.held u hu
  · rw [hadds] at hx
    exact h.known x hx

-- ── A new round

theorem tokensFor_writes (key key' : Key e) (tokens : List ℕ) :
    ((tokens.map (write key)).map (tokensFor key')).sum = if key = key' then tokens.sum else 0 := by
  induction tokens with
  | nil => exact (ite_self 0).symm
  | cons k ks ih =>
    rw [map_cons, map_cons, sum_cons, ih]
    show (if key = key' then k else 0) + _ = _
    split <;> rfl

theorem isAtomicOf_writes (key key' : Key e) (tokens : List ℕ) :
    (tokens.map (write key)).countP (isAtomicOf key') = 0 := by
  rw [countP_eq_zero]
  intro m hm
  obtain ⟨k, -, rfl⟩ := mem_map.mp hm
  exact Bool.false_ne_true

/-- What holds of an open key is one announcement; a closed key has none. -/
theorem Inv.none_outstanding (h : Inv batching aside s)
    (hclosed : (applied batching s key).length = (s.rounds key).length) :
    s.flight.countP (isAtomicOf key) = 0 ∧ (s.rx.pending ++ aside).countP (isFor batching key) = 0 := by
  have hout : (applied batching s key).length + s.flight.countP (isAtomicOf key) +
    (s.rx.pending ++ aside).countP (isFor batching key) = (s.rounds key).length := (h.ok key).outstanding
  omega

theorem Inv.begun (h : Inv batching aside s) (key : Key e) (tokens : List ℕ) :
    Inv batching aside (beginRound batching s key tokens) := by
  unfold beginRound
  split
  · next hbegin =>
    obtain ⟨hclosed, hsend⟩ := hbegin
    obtain ⟨hflight, hheld⟩ := h.none_outstanding hclosed
    have hcur : ∀ key', key' ≠ key →
        (Function.update s.rounds key (s.rounds key ++ [tokens.sum]) key') = s.rounds key' := fun key' hne =>
      Function.update_of_ne hne ..
    have hself : Function.update s.rounds key (s.rounds key ++ [tokens.sum]) key =
      s.rounds key ++ [tokens.sum] := Function.update_self ..
    have hsum : ∀ key', ((s.flight ++ round key tokens).map (tokensFor key')).sum =
        (s.flight.map (tokensFor key')).sum + if key = key' then tokens.sum else 0 := fun key' => by
      rw [map_append, sum_append]
      unfold round
      rw [map_cons, sum_cons, tokensFor_writes]
      show _ + (0 + _) = _
      rw [Nat.zero_add]
    have hann : ∀ key', (s.flight ++ round key tokens).countP (isAtomicOf key') =
        s.flight.countP (isAtomicOf key') + if key = key' then 1 else 0 := fun key' => by
      rw [countP_append]
      unfold round
      rw [countP_cons, isAtomicOf_writes]
      show _ + (0 + if decide (key = key') = true then 1 else 0) = _
      rw [Nat.zero_add, if_congr decide_eq_true_iff rfl rfl]
    refine ⟨fun key' => ?_, fun m hm => ?_, fun key' sum hm => ?_, fun u hu => ?_, h.known⟩
    · by_cases hkey : key = key'
      · have hacc : account batching aside { s with
            flight := s.flight ++ round key tokens
            rounds := Function.update s.rounds key (s.rounds key ++ [tokens.sum]) } key' =
            (account batching aside s key').begin tokens.sum := by
          refine Account.ext rfl ?_ rfl rfl ?_ ?_ rfl
          · rw [← hkey]
            exact hself
          · refine (hsum key').trans ?_
            rw [if_pos hkey]
            rfl
          · refine (hann key').trans ?_
            rw [if_pos hkey]
            rfl
        rw [hacc]
        refine (h.ok key').begin (fun hopen => ?_) tokens.sum
        have hopen : (applied batching s key').length < (s.rounds key').length := hopen
        rw [← hkey] at hopen
        omega
      · have hacc : account batching aside { s with
            flight := s.flight ++ round key tokens
            rounds := Function.update s.rounds key (s.rounds key ++ [tokens.sum]) } key' =
            account batching aside s key' := by
          refine Account.ext rfl ?_ rfl rfl ?_ ?_ rfl
          · exact hcur key' fun heq => hkey heq.symm
          · refine (hsum key').trans ?_
            rw [if_neg hkey]
            rfl
          · refine (hann key').trans ?_
            rw [if_neg hkey]
            rfl
        rw [hacc]
        exact h.ok key'
    · rcases mem_append.mp hm with hm | hm
      · exact h.sendable m hm
      · exact hsend m hm
    · show sum = (Function.update s.rounds key (s.rounds key ++ [tokens.sum]) key').getLastD 0
      rcases mem_append.mp hm with hm | hm
      · -- an atomic that was under way is of another key
        have hne : key' ≠ key := fun heq => by
          have hmem : ¬ isAtomicOf key (atomic key' sum) = true := countP_eq_zero.mp hflight _ hm
          exact hmem (decide_eq_true heq)
        rw [hcur key' hne]
        exact h.latest key' sum hm
      · rcases mem_cons.mp hm with hm | hm
        · obtain ⟨hk, hs⟩ := atomic.inj hm
          rw [hk, hself, getLastD_concat]
          exact hs
        · obtain ⟨k, -, hm⟩ := mem_map.mp hm
          cases hm
    · obtain ⟨key', hu'⟩ := h.held u hu
      refine ⟨key', hu'.trans ?_⟩
      have hne : key' ≠ key := fun heq => by
        have hmem : ¬ isFor batching key u = true := countP_eq_zero.mp hheld u hu
        rw [hu', isFor_update] at hmem
        exact hmem (decide_eq_true heq)
      have hsame : current { s with
          flight := s.flight ++ round key tokens
          rounds := Function.update s.rounds key (s.rounds key ++ [tokens.sum]) } key' = current s key' :=
        congrArg (fun l : List ℕ => l.getLastD 0) (hcur key' hne)
      rw [hsame]
  · exact h

-- ── apply_pending_updates

/-- No entry of the set is ready. -/
def Unready (batching : Bool) (s : World e) : Prop :=
  ∀ key, update batching key (current s key) ∈ s.rx.pending → key.counter s.rx ≠ current s key

theorem update_inj {x y : ℕ} (h : update batching key x = update batching key' y) : key = key' := by
  have hfor : isFor batching key' (update batching key x) = decide (key = key') := isFor_update key' key x
  rw [h, isFor_update, decide_eq_true rfl] at hfor
  exact of_decide_eq_true hfor.symm

/-- A key has one entry at most. -/
theorem Inv.held_once {x y : ℕ} (h : Inv batching (update batching key x :: aside) s) :
    update batching key y ∉ s.rx.pending := by
  intro hmem
  have hfor : ∀ z, isFor batching key (update batching key z) = true := fun z =>
    (isFor_update key key z).trans (decide_eq_true rfl)
  have hfirst : 0 < s.rx.pending.countP (isFor batching key) := countP_pos_iff.mpr ⟨_, hmem, hfor y⟩
  have hheld : (account batching (update batching key x :: aside) s key).held =
      s.rx.pending.countP (isFor batching key) + (aside.countP (isFor batching key) + 1) := by
    show (s.rx.pending ++ update batching key x :: aside).countP (isFor batching key) = _
    rw [countP_append, countP_cons, hfor x, if_pos rfl]
  have hout := (h.ok key).outstanding
  have hone := (h.ok key).one
  omega

/-- One entry of the loop. -/
theorem applyUpdate_inv (h : Inv batching (u :: aside) s) (hun : Unready batching s) :
    Inv batching aside { s with rx := applyUpdate s.rx u } ∧ Unready batching { s with rx := applyUpdate s.rx u } := by
  obtain ⟨key, hu⟩ := h.held u (mem_append_right _ (mem_cons_self))
  rw [hu] at h ⊢
  rw [applyUpdate_update]
  split
  · next hready =>
    refine ⟨h.roundSettled hready, fun key' hmem hcnt => ?_⟩
    rw [settle_pending] at hmem
    rw [counter_settle] at hcnt
    split at hcnt
    · next hkey =>
      rw [hkey] at hmem
      exact h.held_once hmem
    · exact hun key' hmem hcnt
  · next hnot =>
    refine ⟨h.kept perm_append_comm, fun key' hmem hcnt => ?_⟩
    rcases mem_append.mp hmem with hmem | hmem
    · exact hun key' hmem hcnt
    · have hkey : key' = key := update_inj (mem_singleton.mp hmem)
      rw [hkey] at hcnt
      exact hnot hcnt

/-- The loop: the entries not visited yet are put aside. -/
theorem foldl_applyUpdate_inv {rest : List PendingUpdate} (h : Inv batching (rest ++ aside) s)
    (hun : Unready batching s) : Inv batching aside { s with rx := rest.foldl applyUpdate s.rx } ∧
      Unready batching { s with rx := rest.foldl applyUpdate s.rx } := by
  induction rest generalizing s with
  | nil => exact ⟨h, hun⟩
  | cons u rest ih =>
    obtain ⟨h', hun'⟩ := applyUpdate_inv h hun
    exact ih h' hun'

theorem Inv.apply (h : Inv batching aside s) : Inv batching aside { s with rx := applyPendingUpdates s.rx } ∧
      Unready batching { s with rx := applyPendingUpdates s.rx } := by
  have hempty : Inv batching (s.rx.pending ++ aside) { s with rx := { s.rx with pending := [] } } := { h with }
  exact foldl_applyUpdate_inv hempty fun key hmem => nomatch hmem

-- ── Runs

/-- `operator<` is total on entries that differ in address or immediate. -/
theorem PendingUpdate.lt_or_lt {v : PendingUpdate} (h : u.addr = v.addr → u.imm.toNat ≠ v.imm.toNat) :
    PendingUpdate.lt u v = true ∨ PendingUpdate.lt v u = true := by
  unfold PendingUpdate.lt
  by_cases haddr : u.addr = v.addr
  · rw [if_neg (not_not.mpr haddr), if_neg (not_not.mpr haddr.symm)]
    by_cases hvalue : u.value = v.value
    · rw [if_neg (not_not.mpr hvalue), if_neg (not_not.mpr hvalue.symm)]
      exact (Nat.lt_or_gt_of_ne (h haddr)).imp decide_eq_true decide_eq_true
    · rw [if_pos hvalue, if_pos (Ne.symm hvalue)]
      exact (Int.lt_or_gt_of_ne hvalue).imp decide_eq_true decide_eq_true
  · rw [if_pos haddr, if_pos (Ne.symm haddr)]
    exact (Nat.lt_or_gt_of_ne haddr).imp decide_eq_true decide_eq_true

/-- So it tells entries of different keys apart. -/
theorem lt_or_lt_of_ne {x y : ℕ} (hne : key ≠ key') :
    PendingUpdate.lt (update batching key x) (update batching key' y) = true ∨
      PendingUpdate.lt (update batching key' y) (update batching key x) = true := by
  refine PendingUpdate.lt_or_lt fun hslot heq => ?_
  -- a dispatch and a combine on one word: the immediates differ in the combine bit
  have hword : atomicWord batching key x = atomicWord batching key' y := BitVec.eq_of_toNat_eq heq
  have hcomb := congrArg AtomicsImm.isCombine hword
  unfold atomicWord at hcomb
  rw [AtomicsImm.isCombine_word, AtomicsImm.isCombine_word] at hcomb
  exact hne (Key.slot_inj batching hcomb hslot)

theorem Inv.delivered (h : Inv batching aside s) (i : ℕ) :
    ∃ s', deliver batching s i = .ok s' ∧ Inv batching aside s' := by
  unfold deliver
  cases hget : s.flight[i]? with
  | none => exact ⟨s, rfl, h⟩
  | some m =>
    have hperm := (cons_eraseIdx_perm hget).symm
    obtain ⟨imm, himm⟩ := Option.isSome_iff_exists.mp (h.sendable m (hperm.mem_iff.mpr (mem_cons_self)))
    dsimp only
    rw [himm]
    dsimp only
    cases m with
    | write key tokens =>
      rw [receive_writeMsg batching s.rx himm]
      exact ⟨_, rfl, h.counted hperm⟩
    | atomic key sum =>
      rw [receive_atomicMsg batching s.rx himm]
      refine ⟨_, rfl, ?_⟩
      have hsum : sum = current s key := h.latest key sum (hperm.mem_iff.mpr (mem_cons_self))
      have htaken := h.taken hperm
      rw [hsum] at htaken ⊢
      split
      · next hready => exact Inv.roundSettled (s := { s with flight := s.flight.eraseIdx i }) htaken hready
      · refine htaken.kept (OrderedSet.insert_perm fun v hv => ?_)
        obtain ⟨key', hv'⟩ := htaken.held v (mem_append_left _ hv)
        rw [hv']
        refine lt_or_lt_of_ne fun heq => ?_
        rw [hv', ← heq] at hv
        exact htaken.held_once hv

theorem step_inv (h : Inv batching [] s) (a : Action e) : ∃ s', step batching s a = .ok s' ∧ Inv batching [] s' := by
  cases a with
  | begin key tokens => exact ⟨_, rfl, h.begun key tokens⟩
  | deliver i => exact h.delivered i
  | apply => exact ⟨_, rfl, h.apply.1⟩

/-- With nothing of the key under way, the entry of an open round is ready. -/
theorem Inv.progress (h : Inv batching [] s) (hflight : ∀ m ∈ s.flight, m.key ≠ key) :
    (applied batching { s with rx := applyPendingUpdates s.rx } key).length = (s.rounds key).length := by
  obtain ⟨h', hun⟩ := h.apply
  have hok := h'.ok key
  have hann : s.flight.countP (isAtomicOf key) = 0 := by
    rw [countP_eq_zero]
    intro m hm hatomic
    cases m with
    | write key' tokens => cases hatomic
    | atomic key' sum => exact hflight _ hm (of_decide_eq_true hatomic)
  have hin : (s.flight.map (tokensFor key)).sum = 0 := by
    refine sum_eq_zero fun n hn => ?_
    obtain ⟨m, hm, rfl⟩ := mem_map.mp hn
    cases m with
    | write key' tokens => exact if_neg (hflight _ hm)
    | atomic key' sum => rfl
  by_contra hne
  -- the round is open: its atomic is held, and all its tokens are counted
  have hopen : (account batching [] { s with rx := applyPendingUpdates s.rx } key).Open :=
    Nat.lt_of_le_of_ne ((Nat.le_add_right ..).trans ((Nat.le_add_right ..).trans hok.outstanding.le)) hne
  have htokens := hok.tokens
  rw [if_pos hopen] at htokens
  have htokens : key.counter (applyPendingUpdates s.rx) + (s.flight.map (tokensFor key)).sum = current s key := htokens
  have hone := hok.open_iff.mp hopen
  have hone : s.flight.countP (isAtomicOf key) +
    ((applyPendingUpdates s.rx).pending ++ []).countP (isFor batching key) = 1 := hone
  rw [append_nil] at hone
  obtain ⟨u, hu, hfor⟩ := countP_pos_iff.mp
    (show 0 < (applyPendingUpdates s.rx).pending.countP (isFor batching key) by omega)
  obtain ⟨key', hu'⟩ := h'.held u (mem_append_left _ hu)
  rw [hu', isFor_update] at hfor
  rw [hu', of_decide_eq_true hfor] at hu
  refine hun key hu ?_
  show key.counter (applyPendingUpdates s.rx) = current s key
  omega

theorem Inv.exact (h : Inv batching [] s) (key : Key e) : Exact batching s key where
  inOrder := (h.ok key).applied
  one := (h.ok key).one
  tokens := (h.ok key).settled_le_arrived
  zero hclosed := (h.ok key).counter_eq_zero fun hopen => Nat.ne_of_lt hopen hclosed
  progress := h.progress

/-- **EVERY ATOMIC ONCE, AFTER ITS TOKENS**: for any ranks and experts, both builds with a receiver barrier, any rounds
    of any keys, any order of arrival and any calls of `apply_pending_updates`, no assertion fails, every `fetch_add` is
    for one key, and every key is as it should be. -/
theorem receiver_barrier_exact (batching : Bool) (e : Env) (acts : List (Action e)) :
    ∃ s, runFrom (step batching) (World.init : World e) acts = .ok s ∧
      (∀ x ∈ s.rx.adds, ∃! key : Key e, isAdd batching key x = true) ∧
      ∀ key, Exact batching s key := by
  have hall : Along (step batching) (fun _ _ => True) (World.init : World e) acts :=
    Along.of_forall (fun _ _ => trivial) World.init acts
  obtain ⟨s, hrun, hinv⟩ := runFrom_total_along (I := Inv batching []) (fun s a hi _ => step_inv hi a) init_inv hall
  refine ⟨s, hrun, fun x hx => ?_, hinv.exact⟩
  obtain ⟨key, hkey⟩ := hinv.known x hx
  exact ⟨key, hkey, fun key' hkey' => isAdd_unique hkey' hkey⟩

/-- Four ranks, eight experts: rank 3 dispatches 5 tokens to local expert 1 in two writes, and the
    atomic is the first to arrive. -/
def dispatchKey : Key ⟨0, 4, 8, 2⟩ :=
  { combine := false, buffer := true, expert := 1, src := 3, src_lt := by decide,
    expertOf := show 1 < 8 / 4 by decide }

example :
    observe (fun s : World ⟨0, 4, 8, 2⟩ => (s.rx.adds, s.rx.pending.length))
      (runFrom (step false) World.init
        [.begin dispatchKey [2, 3], .deliver 0, .deliver 1, .apply, .deliver 0, .apply]) =
      some ([(23, -6)], 0) := by
  decide +kernel

end EpReceiverBarrier
