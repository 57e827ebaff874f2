import Uccl.EqdsCcProofs

/-! # The pull target of a retransmission

    `IMMDataEQDS` (transport.h) has the pull target in the eight bits that `IMMData` reserves. Before a chunk is sent
    again, `EventOnTxRTXData` computes a new target and calls `SetTarget` on the word of the chunk. The setter ORs, and
    the word still has the target that was sent before, so what is read back is the union of the bits of the two
    (`getTarget_setTarget`). -/

namespace EqdsTarget

open EqdsCc RdmaImm IMMData

def kPULL_TARGET : ℕ := kRESERVED

def getTarget (d : IMMData) : PullQuanta := ((d >>> kPULL_TARGET) &&& 0xFF#32).setWidth 8

def setTarget (d : IMMData) (pullTarget : PullQuanta) : IMMData :=
  d ||| ((pullTarget.setWidth 32 &&& 0xFF#32) <<< kPULL_TARGET)

/-- `EventOnTxRTXData` on a chunk of `length` bytes: whether it may be sent again, and its immediate. -/
def rewriteImm (c : EQDSCC) (env : TxEnv) (length : ℕ) (d : IMMData) : Bool × EQDSCC × IMMData :=
  match eventOnTxRTXData c env length with
  | (some pullTarget, c') => (true, c', setTarget d pullTarget)
  | (none, c') => (false, c', d)

/-- The retransmissions of a chunk: the target that was computed for each, and the immediate that it is sent
    with. Between two attempts the flow may have gone to any state. -/
def retransmits (length : ℕ) : IMMData → List (EQDSCC × TxEnv) → List (PullQuanta × IMMData)
  | _, [] => []
  | d, (c, env) :: attempts =>
    match (eventOnTxRTXData c env length).1 with
    | some pullTarget =>
      (pullTarget, (rewriteImm c env length d).2.2) ::
        retransmits length (rewriteImm c env length d).2.2 attempts
    | none => retransmits length d attempts

/-- A retransmission of the chunk `d` has the fields of `d` and its own target. -/
structure Carries (d : IMMData) (p : PullQuanta × IMMData) : Prop where
  target : getTarget p.2 = p.1
  fid : getFID p.2 = getFID d
  rid : getRID p.2 = getRID d
  csn : getCSN p.2 = getCSN d
  hint : getHINT p.2 = getHINT d

/-- Every bit of `a` is set in `b`. -/
def Within (a b : PullQuanta) : Prop := a &&& b = a

-- ── One retransmission

theorem getTarget_setTarget (d : IMMData) (t : PullQuanta) : getTarget (setTarget d t) = getTarget d ||| t := by
  apply BitVec.eq_of_getLsbD_eq
  intro i hi
  unfold getTarget setTarget
  interval_cases i <;> simp [kPULL_TARGET, kRESERVED, kCSN]

/-- The setter reaches no other field. -/
theorem carries_setTarget (d : IMMData) (t : PullQuanta) (h : Within (getTarget d) t) :
    Carries d (t, setTarget d t) := by
  refine ⟨?_, ?_, ?_, ?_, ?_⟩
  · rw [getTarget_setTarget, ← h]
    apply BitVec.eq_of_getLsbD_eq
    intro i _
    simp only [BitVec.getLsbD_or, BitVec.getLsbD_and]
    cases (getTarget d).getLsbD i <;> cases t.getLsbD i <;> rfl
  all_goals
    apply BitVec.eq_of_getLsbD_eq
    intro i hi
    simp only [setTarget, getFID, getRID, getCSN, getHINT]
    interval_cases i <;>
      simp [kPULL_TARGET, kFID, kRID, kCSN, kHINT, kRESERVED]

section

variable {length : ℕ} {d : IMMData} {c : EQDSCC} {env : TxEnv} {t : PullQuanta}

theorem within_of_getTarget (h : getTarget (setTarget d t) = t) : Within (getTarget d) t := by
  rw [getTarget_setTarget] at h
  apply BitVec.eq_of_getLsbD_eq
  intro i _
  have hbit := congrArg (BitVec.getLsbD · i) h
  simp only [BitVec.getLsbD_or] at hbit
  rw [BitVec.getLsbD_and]
  cases hd : (getTarget d).getLsbD i with
  | false => rfl
  | true => rw [← hbit, hd]; rfl

-- ── All retransmissions of a chunk

/-- Chunks with the same fields are carried by the same retransmissions. -/
theorem carries_congr {d d' : IMMData} {t : PullQuanta} (h : Carries d (t, d')) (p : PullQuanta × IMMData) :
    Carries d' p ↔ Carries d p := by
  constructor
  · intro hp
    exact ⟨hp.target, hp.fid.trans h.fid, hp.rid.trans h.rid, hp.csn.trans h.csn, hp.hint.trans h.hint⟩
  · intro hp
    exact ⟨hp.target, hp.fid.trans h.fid.symm, hp.rid.trans h.rid.symm, hp.csn.trans h.csn.symm,
      hp.hint.trans h.hint.symm⟩

theorem retransmits_cons_some (h : (eventOnTxRTXData c env length).1 = some t) (attempts : List (EQDSCC × TxEnv)) :
    retransmits length d ((c, env) :: attempts) =
      (t, setTarget d t) :: retransmits length (setTarget d t) attempts := by
  have hrew : (rewriteImm c env length d).2.2 = setTarget d t := by
    unfold rewriteImm
    split
    · next heq =>
        rw [heq] at h
        rw [Option.some.inj h]
    · next heq =>
        rw [heq] at h
        cases h
  simp only [retransmits, h, hrew]

theorem retransmits_cons_none (h : (eventOnTxRTXData c env length).1 = none) (attempts : List (EQDSCC × TxEnv)) :
    retransmits length d ((c, env) :: attempts) = retransmits length d attempts := by
  simp only [retransmits, h]

/-- **Every retransmission of a chunk carries the target that was computed for it** exactly if no target
    lacks a bit of the one that was sent before. -/
theorem retransmits_carry_iff (length : ℕ) (d : IMMData) (attempts : List (EQDSCC × TxEnv)) :
    (∀ p ∈ retransmits length d attempts, Carries d p) ↔
      List.IsChain Within (getTarget d :: (retransmits length d attempts).map Prod.fst) := by
  induction attempts generalizing d with
  | nil => simp [retransmits]
  | cons a attempts ih =>
    obtain ⟨c, env⟩ := a
    cases hev : (eventOnTxRTXData c env length).1 with
    | none =>
      rw [retransmits_cons_none hev]
      exact ih d
    | some t =>
      rw [retransmits_cons_some hev, List.forall_mem_cons, List.map_cons, List.isChain_cons_cons]
      -- once the first target is carried, the word reads as that target and the rest goes on from it
      constructor
      · rintro ⟨hfirst, hrest⟩
        refine ⟨within_of_getTarget hfirst.target, ?_⟩
        have hnext := (ih (setTarget d t)).mp fun p hp => (carries_congr hfirst p).mpr (hrest p hp)
        rwa [hfirst.target] at hnext
      · rintro ⟨hwithin, hchain⟩
        have hfirst := carries_setTarget d t hwithin
        rw [← hfirst.target] at hchain
        exact ⟨hfirst, fun p hp => (carries_congr hfirst p).mp ((ih (setTarget d t)).mpr hchain p hp)⟩

-- ── A target that is not the one computed

/-- A new flow with 1 MB to send. -/
def fresh : EQDSCC × TxEnv := ({}, { unackedBytes := 0, backlogBytes := 2 ^ 20, wnd := none })

/-- The chunk 7 of request 3 on flow 5, sent with the target 51. -/
def chunk51 : IMMData := setTarget (immOf 5 true 3 7) 51

/-- **The target 54 is sent as 55**, by the first retransmission of a chunk that was sent with 51. -/
theorem retransmit_mixes_targets : ∃ d', retransmits 65536 chunk51 [fresh] = [(54, d')] ∧ getTarget d' = 55 ∧
    ¬ Carries chunk51 (54, d') := by
  refine ⟨setTarget chunk51 54, rfl, by decide, fun h => ?_⟩
  have htarget := h.target
  revert htarget
  decide

end

end EqdsTarget
