import Mathlib.Data.List.Nodup
import Uccl.RingSlotProofs
import Uccl.StepRunProofs

/-! # The signal ring in shared memory

    Ranks of one host signal each other through a ring in shared memory
    (experimental/ukernel/src/transport/adapter/ipc_signal_ring.h). Host threads (`IpcAdapter::write_signal_ring`) and
    device kernels (`signal_ring_write`) claim an index with a fetch-and-add, wait until the slot of the index is not
    ready, store the tag and set the slot ready. The one consumer (`drain_signal_tags`) reads slot after slot and stops
    at the first that is not ready.

    A claim does not look at the position of the consumer. Only the flag of the slot stands between two laps, and a slot
    whose producer has stalled before setting it looks like one that was consumed: two producers are enough to lose a
    tag (`ring_lapped`, `ring_exact`).

    The two indices are 64 bits wide in the source and do not wrap in the model. -/

namespace UkSignalRing

open StepRun RingSlot Function List Nat

def kSignalRingSize : ℕ := 4096

/-- A slot; `writers` counts the stores since it was last read, and no function of the source reads it. -/
structure Slot where
  ready : Bool
  tag : ℕ
  writers : ℕ
  deriving DecidableEq

/-- A producer stores a tag. -/
def Slot.put (x : Slot) (tag : ℕ) : Slot := ⟨x.ready, tag, x.writers + 1⟩

def Slot.up (x : Slot) : Slot := ⟨true, x.tag, x.writers⟩

/-- The consumer is done with the slot. -/
def Slot.down (x : Slot) : Slot := ⟨false, x.tag, 0⟩

/-- A producer with its claim: not checked yet, past the check, or with the tag in the slot. -/
inductive Producer
  | idle
  | claimed (w tag : ℕ)
  | checked (w tag : ℕ)
  | stored (w tag : ℕ)
  deriving DecidableEq

open Producer

structure State where
  slots : ℕ → Slot
  writeIdx : ℕ
  /-- `r` of the consumer. -/
  readIdx : ℕ
  producer : ℕ → Producer
  /-- The tag that the consumer has read, while its slot is still ready. -/
  taken : Option ℕ
  /-- What `drain_signal_tags` has returned. -/
  drained : List ℕ
  /-- The tags in the order of their claims. -/
  claims : List ℕ
  /-- The claims whose calls have returned true. -/
  returned : List ℕ

open State

def State.init : State := ⟨fun _ => ⟨false, 0, 0⟩, 0, 0, fun _ => .idle, none, [], [], []⟩

inductive Action
  | claim (p tag : ℕ)
  | check (p : ℕ)
  | store (p : ℕ)
  | publish (p : ℕ)
  /-- `stop_` is set while the producer waits for its slot, and the call returns false. -/
  | giveUp (p : ℕ)
  | take
  | clear
  deriving DecidableEq

section Steps

variable (size : ℕ)

def State.goto (s : State) (p : ℕ) (pc : Producer) : State := { s with producer := Function.update s.producer p pc }

def State.setSlot (s : State) (idx : ℕ) (slot : Slot) : State := { s with slots := Function.update s.slots idx slot }

def claim (s : State) (p tag : ℕ) : State :=
  if s.producer p = .idle then
    { s.goto p (.claimed s.writeIdx tag) with writeIdx := s.writeIdx + 1, claims := s.claims ++ [tag] }
  else s

def check (s : State) (p : ℕ) : State :=
  match s.producer p with
  | .claimed w tag => if (s.slots (w % size)).ready then s else s.goto p (.checked w tag)
  | _ => s

def store (s : State) (p : ℕ) : State :=
  match s.producer p with
  | .checked w tag =>
    (s.goto p (.stored w tag)).setSlot (w % size) ((s.slots (w % size)).put tag)
  | _ => s

def publish (s : State) (p : ℕ) : State :=
  match s.producer p with
  | .stored w _ =>
    { (s.goto p .idle).setSlot (w % size) (s.slots (w % size)).up with returned := s.returned ++ [w] }
  | _ => s

def giveUp (s : State) (p : ℕ) : State :=
  match s.producer p with
  | .claimed w _ => if (s.slots (w % size)).ready then s.goto p .idle else s
  | _ => s

def take (s : State) : State :=
  if s.taken = none ∧ s.readIdx < s.writeIdx ∧ (s.slots (s.readIdx % size)).ready = true then
    { s with taken := some (s.slots (s.readIdx % size)).tag }
  else s

def clear (s : State) : State :=
  match s.taken with
  | some tag =>
    { s.setSlot (s.readIdx % size) (s.slots (s.readIdx % size)).down with
      readIdx := s.readIdx + 1
      taken := none
      drained := s.drained ++ [tag] }
  | none => s

def step (s : State) : Action → Except Empty State
  | .claim p tag => .ok (claim s p tag)
  | .check p => .ok (check size s p)
  | .store p => .ok (store size s p)
  | .publish p => .ok (publish size s p)
  | .giveUp p => .ok (giveUp size s p)
  | .take => .ok (take size s)
  | .clear => .ok (clear size s)

end Steps

/-- The claim that a producer has not published yet. -/
def Producer.claim : Producer → Option (ℕ × ℕ)
  | .idle => none
  | .claimed w tag => some (w, tag)
  | .checked w tag => some (w, tag)
  | .stored w tag => some (w, tag)

/-- The producer is past its check. -/
def Producer.past : Producer → Bool
  | .idle => false
  | .claimed .. => false
  | .checked .. => true
  | .stored .. => true

/-- No claim is made a whole lap ahead of one that is not published, and no producer gives up. -/
def NoLap (size : ℕ) (s : State) : Action → Prop
  | .claim _ _ => ∀ p w tag, (s.producer p).claim = some (w, tag) → s.writeIdx < w + size
  | .giveUp _ => False
  | _ => True

/-- What a ring is for.  The tags come out in the order of the claims, each at its own place and so once. -/
structure Exact (size : ℕ) (s : State) : Prop where
  drained : s.drained = s.claims.take s.drained.length
  published : ∀ c, c < s.drained.length → c ∈ s.returned
  /-- A tag whose call has returned true was drained or is in its slot, to be drained at its place. -/
  kept : s.returned.Nodup ∧ ∀ c ∈ s.returned, c < s.drained.length ∨
    ((s.slots (c % size)).ready = true ∧ s.claims[c]? = some (s.slots (c % size)).tag)
  written : ∀ j, (s.slots j).writers ≤ 1
  /-- If there is a claim to come and its slot is not ready, then its producer can go on and publish it. -/
  awaited : s.readIdx < s.writeIdx → (s.slots (s.readIdx % size)).ready = false →
    ∃ p tag, (s.producer p).claim = some (s.readIdx, tag)

-- ── Within a lap

/-- The claims that are not published, by their producers. -/
def State.held (s : State) (p : ℕ) : Option (ℕ × ℕ) := (s.producer p).claim

/-- Claims that are not published are not behind the consumer and within a lap of the last claim; all others
    have returned true. -/
structure Claims (size writeIdx readIdx : ℕ) (claims returned : List ℕ) (held : ℕ → Option (ℕ × ℕ)) : Prop where
  length : claims.length = writeIdx
  read_le : readIdx ≤ writeIdx
  holds : ∀ p w tag, held p = some (w, tag) → readIdx ≤ w ∧ w < writeIdx ∧ writeIdx ≤ w + size ∧ claims[w]? = some tag
  alone : ∀ p p' w tag tag', held p = some (w, tag) → held p' = some (w, tag') → p = p'
  mem_returned : ∀ c, c ∈ returned ↔ c < writeIdx ∧ ∀ p tag, held p ≠ some (c, tag)
  nodup : returned.Nodup

/-- Published tags that are not drained are within a lap of the consumer, and so are the claims that are past
    their check. So every slot is of at most one of them. -/
structure Inv (size : ℕ) (s : State) : Prop where
  claims : Claims size s.writeIdx s.readIdx s.claims s.returned s.held
  drained_eq : s.drained = s.claims.take s.readIdx
  past : ∀ p w tag, s.held p = some (w, tag) → (s.producer p).past = true →
    w < s.readIdx + size ∧ (s.slots (w % size)).ready = false
  stored : ∀ p w tag, s.producer p = .stored w tag → (s.slots (w % size)).tag = tag
  filled : ∀ c ∈ s.returned, s.readIdx ≤ c → c < s.readIdx + size ∧ (s.slots (c % size)).ready = true ∧
    s.claims[c]? = some (s.slots (c % size)).tag
  ready : ∀ j, (s.slots j).ready = true → ∃ c ∈ s.returned, s.readIdx ≤ c ∧ c % size = j
  written : ∀ j, (s.slots j).writers ≤ 1
  unwritten : ∀ j, (s.slots j).ready = false → (∀ p w tag, s.producer p = .stored w tag → w % size ≠ j) →
    (s.slots j).writers = 0
  taken : ∀ tag, s.taken = some tag → s.readIdx < s.writeIdx ∧ (s.slots (s.readIdx % size)).ready = true ∧
    (s.slots (s.readIdx % size)).tag = tag

theorem Inv.init (size : ℕ) : Inv size init where
  claims :=
    { length := rfl
      read_le := Nat.le_refl 0
      holds := fun p w tag h => (by cases h)
      alone := fun p p' w tag tag' h => (by cases h)
      mem_returned := fun c => ⟨fun h => absurd h not_mem_nil, fun h => absurd h.1 (Nat.not_lt_zero c)⟩
      nodup := nodup_nil }
  drained_eq := rfl
  past p w tag h := by cases h
  stored p w tag h := by cases h
  filled c h := absurd h not_mem_nil
  ready j h := by cases h
  written j := Nat.zero_le 1
  unwritten j _ _ := rfl
  taken tag h := by cases h

section Facts

variable {size : ℕ} {s : State}

section

variable (h : Inv size s)
include h

theorem Inv.drained_length : s.drained.length = s.readIdx := by
  rw [h.drained_eq, length_take, h.claims.length, Nat.min_eq_left h.claims.read_le]

/-- **The flag of a slot tells the laps apart**: if it is down, then the claim of the lap before was drained. -/
theorem Inv.within_lap {p w tag : ℕ} (hp : s.held p = some (w, tag))
    (hdown : (s.slots (w % size)).ready = false) : w < s.readIdx + size := by
  rcases Nat.lt_or_ge w (s.readIdx + size) with hlt | hge
  · exact hlt
  · obtain ⟨-, hw, -⟩ := h.claims.holds p w tag hp
    have hbefore : w - size ∈ s.returned := by
      refine (h.claims.mem_returned _).mpr ⟨by omega, fun u t hu => ?_⟩
      have hlap := (h.claims.holds u _ t hu).2.2.1
      omega
    obtain ⟨-, hup, -⟩ := h.filled (w - size) hbefore (by omega)
    have hslot : (w - size) % size = w % size := by
      conv_rhs => rw [← Nat.sub_add_cancel (show size ≤ w by omega), add_mod_right]
    rw [hslot, hdown] at hup
    cases hup

/-- The slot of the consumer, when it is ready, has the tag of the next claim. -/
theorem Inv.next_returned (hup : (s.slots (s.readIdx % size)).ready = true) : s.readIdx ∈ s.returned := by
  obtain ⟨c, hc, hge, hslot⟩ := h.ready _ hup
  have hlt := (h.filled c hc hge).1
  rw [show s.readIdx = c from eq_of_slot hslot.symm (by omega) hlt]
  exact hc

/-- Two claims past their checks have different slots. -/
theorem Inv.past_inj {p p' w w' tag tag' : ℕ} (hp : s.held p = some (w, tag))
    (hp' : s.held p' = some (w', tag')) (hpast : (s.producer p).past = true) (hpast' : (s.producer p').past = true)
    (hslot : w % size = w' % size) : p = p' := by
  have hw := (h.past p w tag hp hpast).1
  have hw' := (h.past p' w' tag' hp' hpast').1
  have hr := (h.claims.holds p w tag hp).1
  have hr' := (h.claims.holds p' w' tag' hp').1
  obtain rfl : w = w' := eq_of_slot hslot (by omega) (by omega)
  exact h.claims.alone p p' w tag tag' hp hp'

theorem Inv.exact : Exact size s where
  drained := by
    rw [h.drained_length]
    exact h.drained_eq
  published c hc := by
    rw [h.drained_length] at hc
    refine (h.claims.mem_returned c).mpr ⟨Nat.lt_of_lt_of_le hc h.claims.read_le, fun p tag hp => ?_⟩
    exact absurd (h.claims.holds p c tag hp).1 (Nat.not_le.mpr hc)
  kept := by
    refine ⟨h.claims.nodup, fun c hc => ?_⟩
    rw [h.drained_length]
    rcases Nat.lt_or_ge c s.readIdx with hlt | hge
    · exact .inl hlt
    · exact .inr (h.filled c hc hge).2
  written := h.written
  awaited hlt hdown := by
    by_contra hnone
    have hmem : s.readIdx ∈ s.returned := (h.claims.mem_returned _).mpr ⟨hlt, fun p tag hp => hnone ⟨p, tag, hp⟩⟩
    rw [(h.filled _ hmem (le_rfl)).2.1] at hdown
    cases hdown

end

end Facts

-- ── The steps

section Keep

variable {size : ℕ} {s : State} {p w tag : ℕ}

theorem goto_self (s : State) (p : ℕ) (pc : Producer) : (s.goto p pc).producer p = pc := update_self ..

theorem goto_other (s : State) {p u : ℕ} (pc : Producer) (hne : u ≠ p) : (s.goto p pc).producer u = s.producer u :=
  update_of_ne hne ..

/-- A producer that keeps its claim. -/
theorem held_goto {pc : Producer} (hclaim : pc.claim = s.held p) : (s.goto p pc).held = s.held := by
  funext u
  unfold held
  by_cases hu : u = p
  · rw [hu, goto_self]
    exact hclaim
  · rw [goto_other s pc hu]

/-- The state after a claim, with the fields that it changes. -/
def claimedState (s : State) (p tag : ℕ) : State :=
  { s.goto p (.claimed s.writeIdx tag) with writeIdx := s.writeIdx + 1, claims := s.claims ++ [tag] }

/-- Who holds a claim afterwards held it before, or is the producer of the new one. -/
theorem held_claimed (hidle : s.producer p = .idle) {u c t : ℕ} : (claimedState s p tag).held u = some (c, t) ↔
      s.held u = some (c, t) ∨ (u = p ∧ c = s.writeIdx ∧ t = tag) := by
  unfold held
  show ((s.goto p (.claimed s.writeIdx tag)).producer u).claim = some (c, t) ↔ _
  by_cases hu : u = p
  · rw [hu, goto_self, hidle]
    constructor
    · intro h
      cases h
      exact .inr ⟨rfl, rfl, rfl⟩
    · rintro (h | ⟨-, rfl, rfl⟩)
      · cases h
      · rfl
  · rw [goto_other s _ hu]
    exact ⟨.inl, fun h => h.resolve_right fun hcon => hu hcon.1⟩

theorem claims_claimed (hsize : 0 < size) (h : Claims size s.writeIdx s.readIdx s.claims s.returned s.held) (hidle : s.producer p = .idle)
    (hlap : ∀ u c t, s.held u = some (c, t) → s.writeIdx < c + size) :
    Claims size (s.writeIdx + 1) s.readIdx (s.claims ++ [tag]) s.returned (claimedState s p tag).held where
  length := by
    rw [length_append, h.length]
    rfl
  read_le := le_succ_of_le h.read_le
  holds u c t hu := by
    rcases (held_claimed hidle).mp hu with hu | ⟨-, rfl, rfl⟩
    · obtain ⟨hr, hw, -, hc⟩ := h.holds u c t hu
      exact ⟨hr, lt_succ_of_lt hw, hlap u c t hu, getElem?_append_some hc _⟩
    · refine ⟨h.read_le, lt_succ_self _, Nat.add_le_add_left hsize _, ?_⟩
      rw [← h.length, getElem?_concat_length]
  alone u u' c t t' hu hu' := by
    rcases (held_claimed hidle).mp hu with hu | ⟨hup, hc, -⟩ <;>
      rcases (held_claimed hidle).mp hu' with hu' | ⟨hup', hc', -⟩
    · exact h.alone u u' c t t' hu hu'
    · exact absurd (h.holds u c t hu).2.1 (by omega)
    · exact absurd (h.holds u' c t' hu').2.1 (by omega)
    · rw [hup, hup']
  mem_returned c := by
    rw [h.mem_returned c]
    constructor
    · rintro ⟨hc, hnone⟩
      refine ⟨lt_succ_of_lt hc, fun u t hu => ?_⟩
      rcases (held_claimed hidle).mp hu with hu | ⟨-, hcw, -⟩
      · exact hnone u t hu
      · omega
    · rintro ⟨hc, hnone⟩
      have hne : c ≠ s.writeIdx := fun hcw => hnone p tag ((held_claimed hidle).mpr (.inr ⟨rfl, hcw, rfl⟩))
      exact ⟨by omega, fun u t hu => hnone u t ((held_claimed hidle).mpr (.inl hu))⟩
  nodup := h.nodup

theorem claim_inv (hsize : 0 < size) (h : Inv size s)
    (hlap : ∀ u c t, s.held u = some (c, t) → s.writeIdx < c + size) : Inv size (claim s p tag) := by
  unfold claim
  by_cases hidle : s.producer p = .idle
  · rw [if_pos hidle]
    have hpast : ∀ u, ((claimedState s p tag).producer u).past = true → u ≠ p := by
      rintro u hu rfl
      have hself : (claimedState s u tag).producer u = .claimed s.writeIdx tag := goto_self ..
      rw [hself] at hu
      cases hu
    have hsame : ∀ u, u ≠ p → (claimedState s p tag).producer u = s.producer u := fun u hu => goto_other s _ hu
    refine ⟨claims_claimed hsize h.claims hidle hlap, ?_, ?_, ?_, ?_, h.ready, h.written, ?_, ?_⟩
    · rw [take_append_of_le_length (by rw [h.claims.length]; exact h.claims.read_le)]
      exact h.drained_eq
    · intro u c t hu hup
      have hne := hpast u hup
      have hheld := ((held_claimed hidle).mp hu).resolve_right fun hcon => hne hcon.1
      have hpre : (s.producer u).past = true := by
        rw [← hsame u hne]
        exact hup
      exact h.past u c t hheld hpre
    · intro u c t hu
      have hne : u ≠ p := hpast u (by rw [show (claimedState s p tag).producer u = .stored c t from hu]; rfl)
      exact h.stored u c t ((hsame u hne).symm.trans hu)
    · intro c hc hge
      obtain ⟨hlt, hup, htag⟩ := h.filled c hc hge
      refine ⟨hlt, hup, ?_⟩
      exact getElem?_append_some htag _
    · intro j hdown hnone
      refine h.unwritten j hdown fun u c t hu => hnone u c t ((hsame u ?_).trans hu)
      rintro rfl
      rw [hidle] at hu
      cases hu
    · intro t ht
      obtain ⟨hlt, hrest⟩ := h.taken t ht
      exact ⟨lt_succ_of_lt hlt, hrest⟩
  · rw [if_neg hidle]
    exact h

theorem check_inv (h : Inv size s) : Inv size (check size s p) := by
  unfold check
  cases hpc : s.producer p with
  | idle | checked w tag | stored w tag => exact h
  | claimed w tag =>
    dsimp only
    by_cases hup : (s.slots (w % size)).ready = true
    · rw [if_pos hup]
      exact h
    · rw [if_neg hup]
      have hdown : (s.slots (w % size)).ready = false := Bool.eq_false_iff.mpr hup
      have hheld : s.held p = some (w, tag) := congrArg Producer.claim hpc
      have hsame : (s.goto p (.checked w tag)).held = s.held := held_goto hheld.symm
      have hstored : ∀ u c t, (s.goto p (.checked w tag)).producer u = .stored c t ↔ s.producer u = .stored c t := by
        intro u c t
        by_cases hu : u = p
        · rw [hu, goto_self, hpc]
          constructor <;> intro hcon <;> cases hcon
        · rw [goto_other s _ hu]
      refine ⟨hsame ▸ h.claims, h.drained_eq, ?_, ?_, h.filled, h.ready, h.written, ?_, h.taken⟩
      · intro u c t hu hpast
        rw [hsame] at hu
        by_cases hne : u = p
        · rw [hne, hheld] at hu
          cases hu
          exact ⟨h.within_lap hheld hdown, hdown⟩
        · rw [goto_other s _ hne] at hpast
          exact h.past u c t hu hpast
      · intro u c t hu
        exact h.stored u c t ((hstored u c t).mp hu)
      · intro j hj hnone
        exact h.unwritten j hj fun u c t hu => hnone u c t ((hstored u c t).mpr hu)

/-- A store into a slot that nobody else is at. -/
theorem store_inv (h : Inv size s) : Inv size (store size s p) := by
  unfold store
  cases hpc : s.producer p with
  | idle | claimed w tag | stored w tag => exact h
  | checked w tag =>
    have hheld : s.held p = some (w, tag) := congrArg Producer.claim hpc
    have hpast : (s.producer p).past = true := congrArg past hpc
    obtain ⟨-, hdown⟩ := h.past p w tag hheld hpast
    have hsame : (s.goto p (.stored w tag)).held = s.held := held_goto hheld.symm
    have hzero : (s.slots (w % size)).writers = 0 := by
      refine h.unwritten _ hdown fun u c t hu hslot => ?_
      obtain rfl : u = p :=
        h.past_inj (congrArg Producer.claim hu) hheld (congrArg past hu) hpast hslot
      rw [hpc] at hu
      cases hu
    -- the flags are the same as before, and only the slot of `p` has another tag
    have hready : ∀ j, (update s.slots (w % size) ((s.slots (w % size)).put tag) j).ready = (s.slots j).ready :=
      update_congr Slot.ready (by rfl)
    have hothers : ∀ j, (s.slots j).ready = true → update s.slots (w % size) ((s.slots (w % size)).put tag) j = s.slots j := by
      intro j hj
      refine update_of_ne ?_ ..
      rintro rfl
      rw [hdown] at hj
      cases hj
    refine ⟨hsame ▸ h.claims, h.drained_eq, ?_, ?_, ?_, ?_, ?_, ?_, ?_⟩
    · intro u c t hu hup
      have hu' : s.held u = some (c, t) := (congrFun hsame u).symm.trans hu
      have hpre : (s.producer u).past = true := by
        by_cases hne : u = p
        · rw [hne]
          exact hpast
        · exact (congrArg past (goto_other s _ hne)).symm.trans hup
      obtain ⟨hlt, hd⟩ := h.past u c t hu' hpre
      exact ⟨hlt, (hready _).trans hd⟩
    · intro u c t hu
      by_cases hne : u = p
      · obtain ⟨rfl, rfl⟩ : w = c ∧ tag = t := by
          rw [hne] at hu
          exact stored.inj ((goto_self s p _).symm.trans hu)
        dsimp only [setSlot, goto]
        rw [update_self]
        rfl
      · replace hu : s.producer u = .stored c t := (goto_other s _ hne).symm.trans hu
        dsimp only [setSlot, goto]
        rw [update_of_ne]
        · exact h.stored u c t hu
        · intro hslot
          exact hne (h.past_inj (congrArg Producer.claim hu) hheld (congrArg past hu) hpast hslot)
    · intro c hc hge
      obtain ⟨hlt, hup, htag⟩ := h.filled c hc hge
      refine ⟨hlt, (hready _).trans hup, ?_⟩
      exact htag.trans (congrArg (fun x : Slot => some x.tag) (hothers _ hup)).symm
    · intro j hj
      exact h.ready j ((hready j).symm.trans hj)
    · refine (forall_update_iff s.slots fun _ (x : Slot) => x.writers ≤ 1).mpr ⟨?_, fun j _ => h.written j⟩
      show (s.slots (w % size)).writers + 1 ≤ 1
      rw [hzero]
    · intro j hj hnone
      have hne : j ≠ w % size := fun hcon => hnone p w tag (goto_self ..) hcon.symm
      dsimp only [setSlot, goto]
      rw [update_of_ne hne]
      refine h.unwritten j ((hready j).symm.trans hj) fun u c t hu => hnone u c t ((goto_other s _ ?_).trans hu)
      rintro rfl
      rw [hpc] at hu
      cases hu
    · intro t ht
      obtain ⟨hlt, hup, htag⟩ := h.taken t ht
      refine ⟨hlt, (hready _).trans hup, ?_⟩
      exact (congrArg Slot.tag (hothers _ hup)).trans htag

theorem held_released {u : ℕ} {x : ℕ × ℕ} : (s.goto p .idle).held u = some x ↔ u ≠ p ∧ s.held u = some x := by
  unfold held
  by_cases hu : u = p
  · rw [hu, goto_self]
    constructor
    · intro h
      cases h
    · intro h
      exact absurd rfl h.1
  · rw [goto_other s _ hu]
    exact ⟨fun h => ⟨hu, h⟩, fun h => h.2⟩

theorem publish_inv (h : Inv size s) : Inv size (publish size s p) := by
  unfold publish
  cases hpc : s.producer p with
  | idle | claimed w tag | checked w tag => exact h
  | stored w tag =>
    have hheld : s.held p = some (w, tag) := congrArg Producer.claim hpc
    have hpast : (s.producer p).past = true := congrArg past hpc
    obtain ⟨hlap, hdown⟩ := h.past p w tag hheld hpast
    obtain ⟨hread, hwrite, hfar, hclaim⟩ := h.claims.holds p w tag hheld
    have hself : update s.slots (w % size) (s.slots (w % size)).up (w % size) =
        (s.slots (w % size)).up := update_self ..
    have hother : ∀ j, j ≠ w % size → update s.slots (w % size) (s.slots (w % size)).up j = s.slots j :=
      fun j hj => update_of_ne hj ..
    have htags : ∀ j, (update s.slots (w % size) (s.slots (w % size)).up j).tag = (s.slots j).tag :=
      update_congr Slot.tag (by rfl)
    have hups : ∀ j, (s.slots j).ready = true →
        (update s.slots (w % size) (s.slots (w % size)).up j).ready = true := by
      intro j hj
      by_cases hjw : j = w % size
      · rw [hjw, hself]
        rfl
      · rw [hother j hjw]
        exact hj
    have hproducer : ∀ u c t, (s.goto p .idle).producer u = .stored c t → u ≠ p ∧ s.producer u = .stored c t := by
      intro u c t hu
      by_cases hne : u = p
      · rw [hne, goto_self] at hu
        cases hu
      · exact ⟨hne, (goto_other s _ hne).symm.trans hu⟩
    refine ⟨⟨h.claims.length, h.claims.read_le, ?_, ?_, ?_, ?_⟩, h.drained_eq, ?_, ?_, ?_, ?_, ?_, ?_, ?_⟩
    · intro u c t hu
      exact h.claims.holds u c t (held_released.mp hu).2
    · intro u u' c t t' hu hu'
      exact h.claims.alone u u' c t t' (held_released.mp hu).2 (held_released.mp hu').2
    · intro c
      rw [mem_append, mem_singleton, h.claims.mem_returned c]
      constructor
      · rintro (⟨hc, hnone⟩ | rfl)
        · exact ⟨hc, fun u t hu => hnone u t (held_released.mp hu).2⟩
        · refine ⟨hwrite, fun u t hu => ?_⟩
          obtain ⟨hne, hu⟩ := held_released.mp hu
          exact hne (h.claims.alone u p c t tag hu hheld)
      · rintro ⟨hc, hnone⟩
        by_cases hcw : c = w
        · exact .inr hcw
        · refine .inl ⟨hc, fun u t hu => ?_⟩
          by_cases hne : u = p
          · rw [hne, hheld] at hu
            cases hu
            exact hcw rfl
          · exact hnone u t (held_released.mpr ⟨hne, hu⟩)
    · exact nodup_snoc h.claims.nodup fun hw => ((h.claims.mem_returned w).mp hw).2 p tag hheld
    · intro u c t hu hup
      obtain ⟨hne, hu⟩ := held_released.mp hu
      have hpre : (s.producer u).past = true := (congrArg past (goto_other s _ hne)).symm.trans hup
      obtain ⟨hlt, hd⟩ := h.past u c t hu hpre
      refine ⟨hlt, ?_⟩
      exact (congrArg Slot.ready (hother _ fun hslot => hne (h.past_inj hu hheld hpre hpast hslot))).trans hd
    · intro u c t hu
      exact (htags _).trans (h.stored u c t (hproducer u c t hu).2)
    · intro c hc hge
      rcases mem_append.mp hc with hc | hc
      · obtain ⟨hlt, hup, htag⟩ := h.filled c hc hge
        exact ⟨hlt, hups _ hup, htag.trans (congrArg some (htags _)).symm⟩
      · obtain rfl := mem_singleton.mp hc
        refine ⟨hlap, congrArg Slot.ready hself, hclaim.trans (congrArg some ?_)⟩
        exact ((htags _).trans (h.stored p c tag hpc)).symm
    · intro j hj
      by_cases hjw : j = w % size
      · exact ⟨w, mem_append_right _ (mem_singleton_self w), hread, hjw.symm⟩
      · obtain ⟨c, hc, hge, hslot⟩ := h.ready j ((congrArg Slot.ready (hother j hjw)).symm.trans hj)
        exact ⟨c, mem_append_left _ hc, hge, hslot⟩
    · exact fun j => (update_congr Slot.writers (by rfl) j).trans_le (h.written j)
    · intro j hj hnone
      dsimp only [setSlot, goto] at hj ⊢
      have hjw : j ≠ w % size := by
        rintro rfl
        rw [hself] at hj
        cases hj
      rw [hother j hjw] at hj ⊢
      refine h.unwritten j hj fun u c t hu => ?_
      by_cases hne : u = p
      · rw [hne, hpc] at hu
        cases hu
        exact hjw.symm
      · exact hnone u c t ((goto_other s _ hne).trans hu)
    · intro t ht
      obtain ⟨hlt, hup, htag⟩ := h.taken t ht
      exact ⟨hlt, hups _ hup, (htags _).trans htag⟩

theorem take_inv (h : Inv size s) : Inv size (take size s) := by
  unfold take
  split
  · rename_i hcond
    refine { h with taken := ?_ }
    intro t ht
    exact ⟨hcond.2.1, hcond.2.2, Option.some.inj ht⟩
  · exact h

theorem clear_inv (h : Inv size s) : Inv size (clear size s) := by
  unfold clear
  cases htaken : s.taken with
  | none => exact h
  | some tag =>
    obtain ⟨hlt, hup, htag⟩ := h.taken tag htaken
    have hmem := h.next_returned hup
    obtain ⟨hsize, -, hclaim⟩ := h.filled _ hmem (le_rfl)
    have hself : update s.slots (s.readIdx % size)
        (s.slots (s.readIdx % size)).down (s.readIdx % size) =
        (s.slots (s.readIdx % size)).down := update_self ..
    have hother : ∀ j, j ≠ s.readIdx % size → update s.slots (s.readIdx % size)
        (s.slots (s.readIdx % size)).down j = s.slots j :=
      fun j hj => update_of_ne hj ..
    have hnext : ∀ u c t, s.held u = some (c, t) → s.readIdx + 1 ≤ c := by
      intro u c t hu
      have hge := (h.claims.holds u c t hu).1
      have hne : c ≠ s.readIdx := by
        rintro rfl
        exact ((h.claims.mem_returned _).mp hmem).2 u t hu
      omega
    refine ⟨⟨h.claims.length, hlt, ?_, h.claims.alone, h.claims.mem_returned, h.claims.nodup⟩, ?_, ?_, ?_, ?_, ?_, ?_, ?_,
      ?_⟩
    · intro u c t hu
      obtain ⟨-, hw, hfar, hc⟩ := h.claims.holds u c t hu
      exact ⟨hnext u c t hu, hw, hfar, hc⟩
    · show s.drained ++ [tag] = s.claims.take (s.readIdx + 1)
      rw [take_add_one, hclaim, htag, ← h.drained_eq]
      rfl
    · intro u c t hu hpast
      obtain ⟨hc, hdown⟩ := h.past u c t hu hpast
      refine ⟨by show c < s.readIdx + 1 + size; omega, ?_⟩
      dsimp only [setSlot, goto]
      by_cases hslot : c % size = s.readIdx % size
      · rw [hslot, hself]
        rfl
      · rw [hother _ hslot]
        exact hdown
    · exact fun u c t hu => (update_congr Slot.tag (by rfl) _).trans (h.stored u c t hu)
    · intro c hc hge
      have hge : s.readIdx + 1 ≤ c := hge
      obtain ⟨hcl, hcup, hctag⟩ := h.filled c hc (by omega)
      have hslot : c % size ≠ s.readIdx % size := slot_ne (by omega) hcl (by omega)
      refine ⟨by show c < s.readIdx + 1 + size; omega, ?_⟩
      dsimp only [setSlot, goto]
      rw [hother _ hslot]
      exact ⟨hcup, hctag⟩
    · intro j hj
      dsimp only [setSlot, goto] at hj
      by_cases hslot : j = s.readIdx % size
      · rw [hslot, hself] at hj
        cases hj
      · rw [hother j hslot] at hj
        obtain ⟨c, hc, hge, hcj⟩ := h.ready j hj
        refine ⟨c, hc, ?_, hcj⟩
        have hne : c ≠ s.readIdx := by
          rintro rfl
          exact hslot hcj.symm
        show s.readIdx + 1 ≤ c
        omega
    · exact (forall_update_iff s.slots fun _ (x : Slot) => x.writers ≤ 1).mpr ⟨Nat.zero_le 1, fun j _ => h.written j⟩
    · intro j hj hnone
      dsimp only [setSlot, goto] at hj ⊢
      by_cases hslot : j = s.readIdx % size
      · rw [hslot, hself]
        rfl
      · rw [hother j hslot] at hj ⊢
        exact h.unwritten j hj hnone
    · intro t ht
      cases ht

theorem step_inv (hsize : 0 < size) {s' : State} {a : Action} (h : Inv size s) (hlap : NoLap size s a)
    (hstep : step size s a = .ok s') : Inv size s' := by
  cases a with
  | claim p tag =>
    cases hstep
    exact claim_inv hsize h hlap
  | check p =>
    cases hstep
    exact check_inv h
  | store p =>
    cases hstep
    exact store_inv h
  | publish p =>
    cases hstep
    exact publish_inv h
  | giveUp p => exact hlap.elim
  | take =>
    cases hstep
    exact take_inv h
  | clear =>
    cases hstep
    exact clear_inv h

end Keep

/-- **The ring loses and doubles nothing** as long as no claim laps one that is not published and no producer
    gives up. -/
theorem ring_exact {s : State} {as : List Action}
    (halong : Along (step kSignalRingSize) (NoLap kSignalRingSize) init as)
    (hrun : runFrom (step kSignalRingSize) init as = .ok s) : Exact kSignalRingSize s :=
  (runFrom_invariant_along (fun _ _ _ hs hlap hstep => step_inv (by decide) hs hlap hstep) (Inv.init _) halong hrun).exact

-- ── Two producers in a lap

/-- The second producer is done first, and the tags still come in the order of the claims. -/
theorem ring_exact_two : ∃ s, runFrom (step kSignalRingSize) init
      [.claim 0 7, .claim 1 8, .check 1, .store 1, .publish 1, .take, .check 0, .store 0, .publish 0, .take, .clear, .take,
        .clear] = .ok s ∧
    s.drained = [7, 8] ∧ Exact kSignalRingSize s := by
  refine exists_run_of_eval (fun s => s.drained = [7, 8]) (by decide +kernel)
    fun s hrun hs => ⟨hs, ring_exact ?_ hrun⟩
  refine ⟨fun u w t hu => (by cases hu), fun s₁ h₁ => ?_⟩
  cases h₁
  -- the first claim is the only one that is held at the second
  refine ⟨fun u w t hu => ?_, fun s₂ _ => .of_forall_mem (by simp [NoLap]) s₂⟩
  rcases (held_claimed (s := init) rfl).mp hu with hu | ⟨-, rfl, -⟩
  · cases hu
  · decide

/-- A whole call by a producer. -/
def writeTag (p tag : ℕ) : List Action := [.claim p tag, .check p, .store p, .publish p]

/-- What a whole call leaves behind if the slot of its claim is down. -/
def State.wrote (s : State) (size tag : ℕ) : State :=
  { s with
    slots := Function.update s.slots (s.writeIdx % size) ((s.slots (s.writeIdx % size)).put tag).up
    writeIdx := s.writeIdx + 1
    claims := s.claims ++ [tag]
    returned := s.returned ++ [s.writeIdx] }

section Calls

variable {size : ℕ} {s : State} {p w tag : ℕ}

theorem check_claimed (hpc : s.producer p = .claimed w tag) (hdown : (s.slots (w % size)).ready = false) :
    check size s p = s.goto p (.checked w tag) := by
  unfold check
  rw [hpc]
  exact if_neg (Bool.eq_false_iff.mp hdown)

theorem store_checked (hpc : s.producer p = .checked w tag) :
    store size s p = (s.goto p (.stored w tag)).setSlot (w % size) ((s.slots (w % size)).put tag) := by
  unfold store
  rw [hpc]

theorem publish_stored (hpc : s.producer p = .stored w tag) : publish size s p =
      { (s.goto p .idle).setSlot (w % size) (s.slots (w % size)).up with returned := s.returned ++ [w] } := by
  unfold publish
  rw [hpc]

theorem run_writeTag (tag : ℕ) (hidle : s.producer p = .idle) (hdown : (s.slots (s.writeIdx % size)).ready = false) :
    runFrom (step size) s (writeTag p tag) = .ok (s.wrote size tag) := by
  have hclaim : step size s (.claim p tag) = .ok (claimedState s p tag) := congrArg Except.ok (if_pos hidle)
  have hclaimed : (claimedState s p tag).producer p = .claimed s.writeIdx tag := goto_self ..
  have hcheck : step size (claimedState s p tag) (.check p) = .ok ((claimedState s p tag).goto p (.checked s.writeIdx tag)) :=
    congrArg Except.ok (check_claimed hclaimed hdown)
  have hstore : step size ((claimedState s p tag).goto p (.checked s.writeIdx tag)) (.store p) = .ok
      ((((claimedState s p tag).goto p (.checked s.writeIdx tag)).goto p (.stored s.writeIdx tag)).setSlot (s.writeIdx % size)
        ((s.slots (s.writeIdx % size)).put tag)) := congrArg Except.ok (store_checked (goto_self ..))
  have hstored : ((((claimedState s p tag).goto p (.checked s.writeIdx tag)).goto p (.stored s.writeIdx tag)).setSlot
      (s.writeIdx % size) ((s.slots (s.writeIdx % size)).put tag)).producer p = .stored s.writeIdx tag := goto_self ..
  refine (runFrom_cons_ok hclaim _).trans ((runFrom_cons_ok hcheck _).trans ((runFrom_cons_ok hstore _).trans ?_))
  refine (runFrom_cons_ok (congrArg Except.ok (publish_stored hstored)) _).trans (congrArg Except.ok ?_)
  simp only [wrote, claimedState, goto, setSlot, update_idem, update_self]
  rw [← hidle, update_eq_self]

end Calls

/-- The producer 0 is past the check of its claim 0, and the producer 1 has written `n` tags since. -/
def stalled (n : ℕ) : State where
  slots j := if 0 < j ∧ j ≤ n then ⟨true, j, 1⟩ else ⟨false, 0, 0⟩
  writeIdx := n + 1
  readIdx := 0
  producer u := if u = 0 then .checked 0 0 else .idle
  taken := none
  drained := []
  claims := List.range (n + 1)
  returned := (List.range n).map (· + 1)

def lapActions (n : ℕ) : List Action := [.claim 0 0, .check 0] ++ (List.range n).flatMap fun i => writeTag 1 (i + 1)

theorem stalled_wrote {size n : ℕ} (hn : n + 1 < size) : (stalled n).wrote size (n + 1) = stalled (n + 1) := by
  have hmod : (n + 1) % size = n + 1 := mod_eq_of_lt hn
  have hslots : update (stalled n).slots (n + 1) (((stalled n).slots (n + 1)).put (n + 1)).up =
      (stalled (n + 1)).slots := by
    have hdown : (stalled n).slots (n + 1) = ⟨false, 0, 0⟩ := if_neg (by omega)
    funext j
    by_cases hj : j = n + 1
    · rw [hj, update_self, hdown]
      exact (if_pos ⟨succ_pos n, le_rfl⟩).symm
    · rw [update_of_ne hj]
      exact if_congr (by omega) rfl rfl
  unfold wrote
  rw [show (stalled n).writeIdx = n + 1 from rfl, hmod, hslots]
  dsimp only [stalled]
  rw [← range_succ, range_succ (n := n), map_append]
  rfl

theorem run_lap {size n : ℕ} (hn : n < size) : runFrom (step size) init (lapActions n) = .ok (stalled n) := by
  induction n with
  | zero =>
    have hclaim : step size init (.claim 0 0) = .ok (claimedState init 0 0) := rfl
    have hcheck : step size (claimedState init 0 0) (.check 0) =
        .ok ((claimedState init 0 0).goto 0 (.checked 0 0)) := congrArg Except.ok (check_claimed rfl rfl)
    refine (runFrom_cons_ok hclaim _).trans ((runFrom_cons_ok hcheck _).trans (congrArg Except.ok ?_))
    have hslots : init.slots = (stalled 0).slots := by
      funext j
      exact (if_neg (by omega)).symm
    have hproducer : ((claimedState init 0 0).goto 0 (.checked 0 0)).producer = (stalled 0).producer := by
      funext u
      by_cases hu : u = 0
      · rw [hu]
        rfl
      · rw [goto_other _ _ hu]
        exact (goto_other _ _ hu).trans (if_neg hu).symm
    rw [show stalled 0 = { (claimedState init 0 0).goto 0 (.checked 0 0) with
      slots := (stalled 0).slots, producer := (stalled 0).producer } from rfl, ← hslots, ← hproducer]
    rfl
  | succ n ih =>
    have hacts : lapActions (n + 1) = lapActions n ++ writeTag 1 (n + 1) := by
      unfold lapActions
      rw [range_succ]
      simp
    have hdown : ((stalled n).slots ((stalled n).writeIdx % size)).ready = false := by
      rw [show (stalled n).writeIdx % size = n + 1 from mod_eq_of_lt hn]
      exact congrArg Slot.ready (if_neg (by omega))
    rw [hacts, runFrom_append (ih (by omega)), run_writeTag (n + 1) rfl hdown, stalled_wrote hn]

/-- The last two steps of the producer 0, whose slot was taken by a call of the producer 1. -/
theorem run_overtaken {size : ℕ} {s : State} (hpc : s.producer 0 = .checked 0 0) :
    runFrom (step size) s [.store 0, .publish 0] = .ok { s with
      producer := update s.producer 0 .idle
      slots := update s.slots (0 % size) ((s.slots (0 % size)).put 0).up
      returned := s.returned ++ [0] } := by
  have hstore : step size s (.store 0) =
      .ok ((s.goto 0 (.stored 0 0)).setSlot (0 % size) ((s.slots (0 % size)).put 0)) := congrArg Except.ok (store_checked hpc)
  have hstored : ((s.goto 0 (.stored 0 0)).setSlot (0 % size) ((s.slots (0 % size)).put 0)).producer 0 = .stored 0 0 :=
    goto_self s 0 (.stored 0 0)
  refine (runFrom_cons_ok hstore _).trans ?_
  refine (runFrom_cons_ok (congrArg Except.ok (publish_stored hstored)) _).trans (congrArg Except.ok ?_)
  simp only [goto, setSlot, update_idem, update_self]

/-- **Two producers lose a tag**: the second writes a lap while the first is past its check, and its last tag goes to
    the slot of the first. Both calls return true, and the tag of the second is nowhere. -/
theorem ring_lapped : ∃ s, runFrom (step kSignalRingSize) init
      (lapActions (kSignalRingSize - 1) ++ (writeTag 1 kSignalRingSize ++ [.store 0, .publish 0])) = .ok s ∧
    (s.slots 0).writers = 2 ∧ kSignalRingSize ∈ s.returned ∧ s.drained = [] ∧
    (∀ j, (s.slots j).tag ≠ kSignalRingSize) ∧ ¬ Exact kSignalRingSize s := by
  have hlap : runFrom (step kSignalRingSize) init (lapActions (kSignalRingSize - 1)) =
      .ok (stalled (kSignalRingSize - 1)) := run_lap (by decide)
  have hslot : (stalled (kSignalRingSize - 1)).writeIdx % kSignalRingSize = 0 := rfl
  have hwrite := run_writeTag (s := stalled (kSignalRingSize - 1)) (p := 1) kSignalRingSize rfl
    (by rw [hslot]; rfl)
  have hlast : Function.update ((stalled (kSignalRingSize - 1)).wrote kSignalRingSize kSignalRingSize).slots
      (0 % kSignalRingSize) ((((stalled (kSignalRingSize - 1)).wrote kSignalRingSize kSignalRingSize).slots
        (0 % kSignalRingSize)).put 0).up 0 = ⟨true, 0, 2⟩ := rfl
  have hrest : ∀ j, j ≠ 0 → ((stalled (kSignalRingSize - 1)).wrote kSignalRingSize kSignalRingSize).slots j =
      (stalled (kSignalRingSize - 1)).slots j := fun j hj => update_of_ne hj ..
  have hreturned : kSignalRingSize ∈ ((stalled (kSignalRingSize - 1)).wrote kSignalRingSize kSignalRingSize).returned ++ [0] :=
    mem_append_left _ (mem_append_right _ (mem_singleton_self _))
  refine ⟨_, (runFrom_append hlap _).trans ((runFrom_append hwrite _).trans (run_overtaken rfl)), ?_, hreturned, rfl, ?_, ?_⟩
  · exact congrArg Slot.writers hlast
  · intro j
    by_cases hj : j = 0
    · rw [hj]
      exact fun hcon => absurd ((congrArg Slot.tag hlast).symm.trans hcon) (by decide)
    · have hne : j ≠ 0 % kSignalRingSize := hj
      dsimp only
      rw [update_of_ne hne, hrest j hj]
      dsimp only [stalled]
      split
      · rename_i hin
        have hle : j ≤ 4096 - 1 := hin.2
        show j ≠ 4096
        omega
      · decide
  · intro hexact
    have htwo := hexact.written 0
    exact absurd htwo (by decide)

end UkSignalRing
