import Uccl.P2pPostProofs

/-! # Pausing a message

    With congestion control `post_chunked_request` (p2p/rdma/rdma_connection.cc) checks the window before every chunk,
    and leaves the rest of the message in `pending_chunked_` when it is full. All the calls on a connection have that
    one place: a second call that pauses overwrites the first, whose chunks are lost (`chunk_lost`). No chunk is lost if
    a call pauses only while it is alone and no call begins before it is done (`posts_every_chunk`).

    A thread is in one call at a time, so that whatever threads can do calls can do, each with its own number. -/

namespace P2pPending

open StepRun P2pPost List Function

/-- Where a call of `post_write_or_read` is. -/
inductive Phase
  | waiting
  /-- `post_chunked_request`: before the window is checked for a chunk, and before the chunk is posted -/
  | check (i : ℕ)
  | post (i : ℕ)
  /-- `drain_pending_chunks`: before it, and in its loop likewise -/
  | drain
  | drainCheck
  | drainPost
  | returned
  deriving DecidableEq

/-- A connection with its calls; `posted` is history. -/
structure Conn (W : Type) where
  calls : W → Phase := fun _ => .waiting
  /-- `pending_chunked_`: the call, and `next_chunk_idx` -/
  pending : Option (W × ℕ) := none
  ccInflightBytes : ℕ := 0
  /-- the chunks posted for a number -/
  posted : W → List ℕ := fun _ => []

/-- A call begins or goes on, or bytes are acknowledged. -/
inductive Action (W : Type)
  | call (w : W) (windowBytes : ℕ)
  /-- with the window at that time, and the code with which a post would be answered -/
  | turn (w : W) (windowBytes : ℕ) (code : ℤ)
  | acked (bytes : ℕ)

variable {W : Type} (size : W → ℕ)

/-- The chunks of the message of a call. -/
def chunkCount (w : W) : ℕ := (splitMessageToChunks (size w)).length

section

variable [DecidableEq W]

/-- The call is at the next place. -/
def Conn.goto (s : Conn W) (w : W) (p : Phase) : Conn W := { s with calls := update s.calls w p }

/-- A code that is not 0 is logged at most. -/
def postSingleChunk (s : Conn W) (w : W) (i : ℕ) (code : ℤ) : Conn W :=
  { s with
    posted := if code = 0 then update s.posted w (s.posted w ++ [i]) else s.posted
    ccInflightBytes :=
      if 0 ≤ code then s.ccInflightBytes + (splitMessageToChunks (size w)).getD i 0 else s.ccInflightBytes }

/-- `post_write_or_read` from where the call is to its next window check or post; what another call has
    destroyed meanwhile is an error. -/
def turn (s : Conn W) (w : W) (windowBytes : ℕ) (code : ℤ) : Except Unit (Conn W) :=
  match s.calls w with
  | .waiting | .returned => .ok s
  | .check i =>
    if chunkCount size w ≤ i then .ok (s.goto w .drain)
    else if windowBytes < s.ccInflightBytes then .ok { s.goto w .drain with pending := some (w, i) }
    else .ok (s.goto w (.post i))
  | .post i =>
    .ok ((postSingleChunk size s w i code).goto w (if chunkCount size w = 1 then .returned else .check (i + 1)))
  | .drain => .ok (s.goto w (if s.pending.isNone then .returned else .drainCheck))
  | .drainCheck =>
    match s.pending with
    | none => .error ()
    | some (v, j) =>
      if chunkCount size v ≤ j then .ok { s.goto w .returned with pending := none }
      else .ok (s.goto w (if windowBytes < s.ccInflightBytes then .drain else .drainPost))
  | .drainPost =>
    match s.pending with
    | none => .error ()
    | some (v, j) =>
      if chunkCount size v ≤ j then .error ()
      else .ok { (postSingleChunk size s v j code).goto w .drainCheck with pending := some (v, j + 1) }

/-- One step of the connection. A call that finds the window full is made again later. -/
def step (s : Conn W) : Action W → Except Unit (Conn W)
  | .call w windowBytes =>
    if s.calls w ≠ .waiting ∨ windowBytes < s.ccInflightBytes then .ok s
    -- a message of one chunk is posted at once
    else .ok (s.goto w (if chunkCount size w = 1 then .post 0 else .check 0))
  | .turn w windowBytes code => turn size s w windowBytes code
  | .acked bytes => .ok { s with ccInflightBytes := s.ccInflightBytes - bytes }

end

/-- No other call is in progress. -/
def Alone (s : Conn W) (w : W) : Prop := ∀ v, v ≠ w → s.calls v = .waiting ∨ s.calls v = .returned

/-- Every post is taken; a call pauses only while it is alone, and none begins while one is paused. -/
def InTurn (s : Conn W) : Action W → Prop
  | .call _ _ => s.pending = none
  | .turn w windowBytes code => code = 0 ∧ (windowBytes < s.ccInflightBytes → Alone s w)
  | .acked _ => True

-- ── Every chunk

/-- What is posted for a call, and what it finds in `pending`. -/
def Held (s : Conn W) (w : W) : Phase → Prop
  | .waiting => s.posted w = []
  | .check i => i ≤ chunkCount size w ∧ s.posted w = range i ∧ s.pending = none
  | .post i => i < chunkCount size w ∧ s.posted w = range i ∧ s.pending = none
  | .drain => (s.posted w = range (chunkCount size w) ∧ s.pending = none) ∨
      ∃ j ≤ chunkCount size w, s.posted w = range j ∧ s.pending = some (w, j)
  | .drainCheck => ∃ j ≤ chunkCount size w, s.posted w = range j ∧ s.pending = some (w, j)
  | .drainPost => ∃ j < chunkCount size w, s.posted w = range j ∧ s.pending = some (w, j)
  | .returned => s.posted w = range (chunkCount size w)

/-- Every call has posted a beginning of its chunks, and waits with the rest in `pending` or itself. -/
def Inv (s : Conn W) : Prop := ∀ w, Held size s w (s.calls w)

variable {size} {s s' : Conn W} {v w : W} {p : Phase}

/-- While a call is paused the others wait or have returned. -/
theorem Inv.alone (h : Inv size s) {j : ℕ} (hpending : s.pending = some (w, j)) : Alone s w := by
  intro v hv
  have hheld := h v
  cases hphase : s.calls v <;> simp_all [Held]

/-- What is said of a call depends on its own posts and, in progress, on `pending`. -/
theorem Held.congr (h : Held size s v p) (hposted : s'.posted v = s.posted v)
    (hpending : s'.pending = s.pending ∨ p = .waiting ∨ p = .returned) : Held size s' v p := by
  cases p <;> simp_all [Held]

variable [DecidableEq W]

/-- A call goes on. It touches `pending` only when it is alone. -/
theorem Inv.move (h : Inv size s) (hcalls : s'.calls = update s.calls w p) (hself : Held size s' w p)
    (hposted : ∀ v, v ≠ w → s'.posted v = s.posted v) (hpending : s'.pending = s.pending ∨ Alone s w) :
    Inv size s' := by
  intro v
  rw [hcalls]
  by_cases hv : v = w
  · rw [hv, update_self]
    exact hself
  · rw [update_of_ne hv]
    exact (h v).congr (hposted v hv) (hpending.imp_right fun halone => halone v hv)

/-- A call goes on and changes nothing else. -/
theorem Inv.goto (h : Inv size s) (hself : Held size s w p) : Inv size (s.goto w p) :=
  h.move rfl hself (fun _ _ => rfl) (.inl rfl)

/-- **A TURN** does not fail, if the call pauses only while it is alone. -/
theorem turn_inv (h : Inv size s) {windowBytes : ℕ} (halone : windowBytes < s.ccInflightBytes → Alone s w) :
    ∃ s', turn size s w windowBytes 0 = .ok s' ∧ Inv size s' := by
  have hw := h w
  unfold turn
  generalize s.calls w = p at hw
  cases p with
  | waiting | returned => exact ⟨s, rfl, h⟩
  | check i =>
    obtain ⟨hi, hposted, hnone⟩ := hw
    dsimp only
    split
    · next hlast => exact ⟨_, rfl, h.goto (.inl ⟨Nat.le_antisymm hi hlast ▸ hposted, hnone⟩)⟩
    split
    · next hfull => exact ⟨_, rfl, h.move rfl (.inr ⟨i, hi, hposted, rfl⟩) (fun _ _ => rfl) (.inr (halone hfull))⟩
    · next hlt _ => exact ⟨_, rfl, h.goto ⟨Nat.lt_of_not_le hlt, hposted, hnone⟩⟩
  | post i =>
    obtain ⟨hi, hposted, hnone⟩ := hw
    refine ⟨_, rfl, h.move rfl ?_ (fun _ hv => update_of_ne hv ..) (.inl rfl)⟩
    have hrange : update s.posted w (s.posted w ++ [i]) w = range (i + 1) := by
      rw [update_self, hposted, range_succ]
    split
    · next hone => exact hrange.trans (by rw [hone, show i = 0 by omega])
    · exact ⟨hi, hrange, hnone⟩
  | drain =>
    refine ⟨_, rfl, h.goto ?_⟩
    obtain ⟨hposted, hnone⟩ | ⟨j, hj, hposted, hsome⟩ := hw
    · rw [hnone]
      exact hposted
    · rw [hsome]
      exact ⟨j, hj, hposted, hsome⟩
  | drainCheck =>
    obtain ⟨j, hj, hposted, hsome⟩ := hw
    simp only [hsome]
    split
    · next hlast =>
      obtain rfl := Nat.le_antisymm hj hlast
      exact ⟨_, rfl, h.move rfl hposted (fun _ _ => rfl) (.inr (h.alone hsome))⟩
    · next hlt =>
      refine ⟨_, rfl, h.goto ?_⟩
      split
      · exact .inr ⟨j, hj, hposted, hsome⟩
      · exact ⟨j, Nat.lt_of_not_le hlt, hposted, hsome⟩
  | drainPost =>
    obtain ⟨j, hj, hposted, hsome⟩ := hw
    simp only [hsome, if_neg (Nat.not_le.mpr hj)]
    refine ⟨_, rfl, h.move rfl ⟨j + 1, hj, ?_, rfl⟩ (fun _ hv => update_of_ne hv ..) (.inr (h.alone hsome))⟩
    exact (update_self ..).trans (by rw [hposted, range_succ])

/-- A step in turn does not fail, and keeps the invariant. -/
theorem step_inv (h : Inv size s) (a : Action W) (hturn : InTurn s a) : ∃ s', step size s a = .ok s' ∧ Inv size s' := by
  cases a with
  | call w windowBytes =>
    simp only [step]
    split
    · exact ⟨s, rfl, h⟩
    · next hgo =>
      have hw := h w
      rw [not_not.mp (not_or.mp hgo).1] at hw
      refine ⟨_, rfl, h.goto ?_⟩
      split
      · next hone => exact ⟨hone ▸ Nat.one_pos, hw, hturn⟩
      · exact ⟨Nat.zero_le _, hw, hturn⟩
  | turn w windowBytes code =>
    obtain ⟨rfl, halone⟩ := hturn
    exact turn_inv h halone
  | acked bytes => exact ⟨_, rfl, h⟩

/-- **NO CHUNK IS LOST** if the calls pause in turn: each has posted its chunks, once, when it returns. -/
theorem posts_every_chunk {as : List (Action W)} (hturn : Along (step size) InTurn {} as) :
    ∃ s, runFrom (step size) {} as = .ok s ∧ ∀ w, s.calls w = .returned → s.posted w = range (chunkCount size w) := by
  have hinit : Inv size {} := fun _ => rfl
  obtain ⟨s, hrun, hs⟩ := runFrom_total_along (fun _ a h => step_inv h a) hinit hturn
  refine ⟨s, hrun, fun w hreturned => ?_⟩
  have hw := hs w
  rwa [hreturned] at hw

instance [Fintype W] (s : Conn W) (a : Action W) : Decidable (InTurn s a) := by
  cases a <;> unfold InTurn Alone <;> infer_instance

/-- Two messages of two chunks: the first is paused after one of them, then the second is. -/
theorem chunk_lost : ∃ s, runFrom (step fun _ : Bool => 1048576) {}
      ([.call false 0, .turn false 0 0, .turn false 0 0, .call true 1048576, .turn false 0 0, .turn true 0 0] ++
        replicate 6 (.turn false 1048576 0)) = .ok s ∧
    s.calls false = .returned ∧ s.posted false = [0] := by
  refine exists_run_of_eval (fun s => s.calls false = .returned ∧ s.posted false = [0]) ?_ fun _ _ h => h
  decide +kernel

/-- Of a message of two chunks the second is put off, and posted when the window opens. -/
theorem posts_both_chunks : ∃ s, runFrom (step fun _ : Bool => 1048576) {}
      ([.call false 0, .turn false 0 0, .turn false 0 0, .turn false 0 0] ++ replicate 5 (.turn false 1048576 0)) =
        .ok s ∧ s.calls false = .returned ∧ s.posted false = range 2 := by
  refine exists_run_of_guarded (G := InTurn) (fun s => s.calls false = .returned) ?_ fun s hturn hrun hs => ⟨hs, ?_⟩
  · decide +kernel
  · obtain ⟨t, ht, hall⟩ := posts_every_chunk hturn
    rw [Except.ok.inj (hrun.symm.trans ht)] at hs ⊢
    exact hall false hs

end P2pPending
