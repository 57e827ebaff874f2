import Uccl.StepRunProofs

/-! # The argument slots of the device tasks

    `do_enqueue_reserved_batch` (device_backend.cc) takes a slot with `create_task` before it asks a FIFO to take
    the task, and only `do_drain` gives slots back. A FIFO that refuses leaves its slot with nobody, and a command
    that `build_task` throws at loses the records of those before it. Apart from that the slots in use are those of
    the pending operations (`slots_conserved`). -/

namespace UkTaskArgs

open StepRun List

/-- `build_task` makes a task, returns false, or throws. -/
inductive Built
  | task
  | noTask
  | throws
  deriving DecidableEq

/-- A command, and whether `WorkerPool::enqueue` takes its task. -/
structure Cmd where
  built : Built
  room : Bool

structure CmdRec where
  fifoId : ℕ
  argsId : ℕ
  deriving DecidableEq

structure Backend where
  /-- `free_task_`, from its back -/
  freeTask : List ℕ
  /-- the slots marked in `task_in_use_` -/
  taskInUse : List ℕ := []
  /-- `pending_by_fifo_`: the queue of a FIFO has its records in this order -/
  pending : List CmdRec := []
  nextFifo : ℕ := 0

structure Config where
  maxFifos : ℕ
  fifoCapacity : ℕ

def Config.capacity (cfg : Config) : ℕ := cfg.maxFifos * cfg.fifoCapacity

def Backend.commit (s : Backend) (recs : List CmdRec) : Backend := { s with pending := s.pending ++ recs }

def enqueueBatch (cfg : Config) (s : Backend) (recs : List CmdRec) : List Cmd → Backend
  | [] => s.commit recs
  | c :: cmds =>
    match c.built with
    | .noTask => enqueueBatch cfg s recs cmds
    | .throws => s
    | .task =>
      if s.pending.length + recs.length ≥ cfg.capacity then s.commit recs
      else
        let fid := s.nextFifo % cfg.maxFifos
        let s := { s with nextFifo := (s.nextFifo + 1) % cfg.maxFifos }
        match s.freeTask with
        | [] => s.commit recs
        | idx :: freeTask =>
          let s := { s with freeTask, taskInUse := idx :: s.taskInUse }
          if c.room then enqueueBatch cfg s (recs ++ [⟨fid, idx⟩]) cmds else s.commit recs

/-- `do_drain` pops a finished task of a FIFO and `free_task_args_batch` frees its slot. -/
def drainFront (s : Backend) (fid : ℕ) : Backend :=
  match s.pending.find? (·.fifoId = fid) with
  | none => s
  | some r =>
    let s := { s with pending := s.pending.erase r }
    if r.argsId ∈ s.taskInUse then
      { s with taskInUse := s.taskInUse.erase r.argsId, freeTask := r.argsId :: s.freeTask }
    else s

inductive Action
  | enqueue (cmds : List Cmd)
  | drain (fid : ℕ)

def step (cfg : Config) (s : Backend) : Action → Except Unit Backend
  | .enqueue cmds => .ok (enqueueBatch cfg s [] cmds)
  | .drain fid => .ok (drainFront s fid)

/-- The slots in use are those of the pending operations, and every slot is either free or in use, once. -/
structure Conserved (cap : ℕ) (s : Backend) : Prop where
  pending : s.taskInUse.Perm (s.pending.map CmdRec.argsId)
  slots : (s.freeTask ++ s.taskInUse).Perm (range cap)

/-- No FIFO refuses a task, and `build_task` does not throw. -/
def Accepting (_ : Backend) : Action → Prop
  | .enqueue cmds => ∀ c ∈ cmds, c.built ≠ .throws ∧ c.room = true
  | .drain _ => True

variable {cfg : Config} {cap : ℕ} {s s' : Backend}

/-- The loop: the records that are not pending yet hold their slots. -/
theorem enqueueBatch_conserved {cmds : List Cmd} (hcmds : ∀ c ∈ cmds, c.built ≠ .throws ∧ c.room = true)
    {recs : List CmdRec} (h : Conserved cap (s.commit recs)) : Conserved cap (enqueueBatch cfg s recs cmds) := by
  induction cmds generalizing s recs with
  | nil => exact h
  | cons c cmds ih =>
    obtain ⟨⟨hbuilt, hroom⟩, hrest⟩ := forall_mem_cons.mp hcmds
    unfold enqueueBatch
    split
    · exact ih hrest h
    · next hthrows => exact absurd hthrows hbuilt
    · split
      · exact h
      · dsimp only
        split
        · exact ⟨h.pending, h.slots⟩
        · next idx freeTask hfree =>
          refine ih hrest ⟨?_, ?_⟩
          · have hlast := perm_append_singleton idx ((s.pending ++ recs).map CmdRec.argsId)
            simpa [Backend.commit] using (h.pending.cons idx).trans hlast.symm
          · have hslots := h.slots
            simp only [Backend.commit, hfree] at hslots ⊢
            exact perm_middle.trans hslots

theorem drainFront_conserved (h : Conserved cap s) (fid : ℕ) : Conserved cap (drainFront s fid) := by
  unfold drainFront
  split
  · exact h
  · next r hfind =>
    have hin := mem_of_find?_eq_some hfind
    have hmap := (perm_cons_erase hin).map CmdRec.argsId
    have huse : r.argsId ∈ s.taskInUse := h.pending.mem_iff.mpr (mem_map_of_mem hin)
    simp only [if_pos huse]
    refine ⟨?_, ?_⟩
    · exact (((perm_cons_erase huse).symm.trans h.pending).trans hmap).cons_inv
    · refine (perm_middle.symm.trans ?_).trans h.slots
      exact (perm_cons_erase huse).symm.append_left s.freeTask

/-- **THE SLOTS ARE CONSERVED** over every sequence of calls in which no FIFO refuses and no build throws. -/
theorem slots_conserved {as : List Action} (hacc : Along (step cfg) Accepting { freeTask := range cap } as)
    (hrun : runFrom (step cfg) { freeTask := range cap } as = .ok s) : Conserved cap s := by
  refine runFrom_invariant_along (fun s a s' h hg hstep => ?_) ⟨.refl _, by simp⟩ hacc hrun
  cases a with
  | enqueue cmds =>
    cases hstep
    exact enqueueBatch_conserved hg ⟨by simpa [Backend.commit] using h.pending, h.slots⟩
  | drain fid =>
    cases hstep
    exact drainFront_conserved h fid

/-- The second FIFO is drained first, and the third command finds the pool empty. -/
theorem slots_conserved_pool : ∃ s, runFrom (step ⟨2, 4⟩) { freeTask := range 2 }
      [.enqueue [⟨.task, true⟩, ⟨.task, true⟩, ⟨.task, true⟩], .drain 1, .enqueue [⟨.noTask, true⟩]] = .ok s ∧
    s.taskInUse = [0] ∧ Conserved 2 s := by
  exact exists_run_of_eval (fun s => s.taskInUse = [0]) (by decide) fun s hrun hs =>
    ⟨hs, slots_conserved (.of_forall_mem (by simp [Accepting]) _) hrun⟩

/-- Of two FIFOs of one task the first is still busy, while the second is drained and makes room in total. -/
theorem slot_leaked : ∃ s, runFrom (step ⟨2, 1⟩) { freeTask := range 3 }
      [.enqueue [⟨.task, true⟩, ⟨.task, true⟩], .drain 1, .enqueue [⟨.task, false⟩]] = .ok s ∧
    s.pending = [⟨0, 0⟩] ∧ s.taskInUse = [1, 0] ∧ ¬ Conserved 3 s := by
  refine ⟨_, rfl, rfl, rfl, fun h => ?_⟩
  cases h.pending.length_eq

end UkTaskArgs
