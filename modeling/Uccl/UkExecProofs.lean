import Mathlib.Algebra.BigOperators.Group.Finset.Basic
import Uccl.UkCommandProofs

/-! # The executor of collective plans

    `SprayExecutor` (experimental/ukernel/src/ccl/executor.h, executor.cc) runs plans: one thread takes the ready ops of
    a run and hands them to a device, a transport and a signal backend; three drain threads and every caller of `wait`
    take completions, release the ops that depend on them, and complete the run. `BeSlotTable` has the op of an index of
    a backend: the enqueue thread waits until the slot is empty and writes it, and who drains the index claims it. An op
    becomes ready when its count of open dependencies is counted down to 0, and a marker replaces the count when it is
    done. What a backend refuses is put off to the next cycle.

    Every step below is one access to shared memory, or work of one thread on its own data. The `OpRef` that goes with
    an index in a backend, the log, and the lists of failed and lost ops are read by no function of the source. -/

namespace UkExec

open UkPlan UkLower UkCommand Function

/-- The marker of an op that is done: `~0u`. -/
def kIndegreeDone : ℕ := 2 ^ 32 - 1

-- ── What is logged

inductive Event
  | started (k i : ℕ)
  | counted (k i : ℕ)
  | completed (k : ℕ)
  | freed (k : ℕ)
  deriving DecidableEq

-- ── Rows of a compressed array

section Rows

variable {α : Type}

/-- How many items are of a row. -/
def rowCount (items : List (ℕ × α)) (d : ℕ) : ℕ := items.countP fun x => x.1 = d

/-- Where a row starts. -/
def rowStart (items : List (ℕ × α)) (d : ℕ) : ℕ := ∑ e ∈ Finset.range d, rowCount items e

/-- The items go to the next places of their rows. -/
def fill : (ℕ → ℕ) → (ℕ → α) → List (ℕ × α) → ℕ → α
  | _, data, [] => data
  | pos, data, x :: items => fill (update pos x.1 (pos x.1 + 1)) (update data (pos x.1) x.2) items

/-- What is read back. -/
def row (default : α) (items : List (ℕ × α)) (d : ℕ) : List α :=
  (List.range (rowCount items d)).map fun t =>
    fill (rowStart items) (fun _ => default) items (rowStart items d + t)

end Rows

-- ── Plans

/-- A `CollPlan`: the ops, and which signals ride on puts. -/
structure Plan where
  ops : List TiledOp
  putToSig : ℕ → Option ℕ
  sigGroupSize : ℕ → ℕ

section Plans

variable (p : Plan)

def Plan.nops : ℕ := p.ops.length

def Plan.deps (i : ℕ) : List ℕ := (p.ops[i]?.map TiledOp.deps).getD []

def Plan.kind (i : ℕ) : Option ExecOpKind := p.ops[i]?.map TiledOp.kind

/-- The dependencies, in the order in which `build_plan` goes through them. -/
def Plan.edges : List (ℕ × ℕ) := (List.range p.nops).flatMap fun i => (p.deps i).map fun d => (d, i)

/-- The part of `successor_data` between the offsets of an op. -/
def Plan.successors (j : ℕ) : List ℕ := row 0 p.edges j

def Plan.indegreeInit (i : ℕ) : ℕ := (p.deps i).length % 2 ^ 32

def Plan.initialReady : List ℕ := (List.range p.nops).filter fun i => (p.deps i).isEmpty

end Plans

/-- `while (c < n) c <<= 1` -/
def growTo : ℕ → ℕ → ℕ → ℕ
  | 0, c, _ => c
  | fuel + 1, c, n => if c < n then growTo fuel (2 * c) n else c

def roundUpPow2 (n : ℕ) : ℕ := if n = 0 then 0 else growTo n 1 n

/-- How many slots a table has for a capacity. -/
def tableSize (capacity : ℕ) : ℕ := if roundUpPow2 capacity = 0 then 256 else roundUpPow2 capacity

/-- How many ops the ready ring of a run holds. -/
def ringCapacity (nops : ℕ) : ℕ := max 1024 (growTo (nops + 1) 1 (nops + 1)) - 1

-- ── The state

/-- The backends: `device_be_`, `tpt_be_` and `signal_be_`. -/
inductive Be
  | dev
  | tpt
  | sig
  deriving DecidableEq

/-- An op of a run. -/
@[ext]
structure OpRef where
  run : ℕ
  idx : ℕ
  deriving DecidableEq

/-- An index of a backend, and the op that it was used for. -/
structure Tok where
  be : ℕ
  op : OpRef
  deriving DecidableEq

inductive Status
  | queued
  | running
  | completed
  | failed
  deriving DecidableEq

/-- A `SprayRun`. -/
structure Run where
  status : Status
  doneCount : ℕ
  submitted : ℕ → Bool
  deferredDev : List ℕ
  deferredTpt : List ℕ
  deferredSig : List ℕ
  indegree : ℕ → ℕ
  fusedSigCnt : ℕ → ℕ
  ring : List ℕ

structure Backend where
  next : ℕ
  slots : ℕ → Option Tok
  /-- What was accepted and is not complete. -/
  pending : List Tok
  /-- What is complete and not drained, and whether it has failed. -/
  completed : List (Tok × Bool)

/-- Where a thread is in `complete_op_local`, in one round of `drain_batch`, or in `finalize_run`. -/
inductive Comp
  | load (o : OpRef)
  | count (o : OpRef)
  | release (o : OpRef) (todo : List ℕ)
  | push (o : OpRef) (succ : ℕ) (todo : List ℕ)
  | mark (o : OpRef)
  | status (k : ℕ)
  | done (k : ℕ)
  | cas (k : ℕ)
  | drop (k : ℕ)
  deriving DecidableEq

/-- A drain thread, or a caller of `wait` in `progress_once`. -/
inductive Worker
  | idle
  | claim (b : Be) (todo : List Tok) (snaps : List OpRef)
  | cas (b : Be) (t : Tok) (snap : OpRef) (todo : List Tok) (snaps : List OpRef)
  | batch (snaps : List OpRef)
  | comp (c : Comp) (snaps : List OpRef)
  deriving DecidableEq

/-- A call of `wait`, with a deadline or not. -/
inductive Call
  | none
  | waiting (k : ℕ) (timed : Bool)
  | leaving (k : ℕ)
  deriving DecidableEq

/-- An op of a batch, and whether its put carries a signal. -/
structure Item where
  idx : ℕ
  fused : Bool
  deriving DecidableEq

/-- An op of a batch with its index. -/
structure Entry where
  be : ℕ
  idx : ℕ
  fused : Bool
  deriving DecidableEq

def Entry.tok (x : Entry) (k : ℕ) : Tok := ⟨x.be, ⟨k, x.idx⟩⟩

/-- What `enqueue_to_ring` has in hand: the ready ops that it has not looked at, and the two batches. -/
structure Cycle where
  run : ℕ
  todo : List ℕ
  dev : List Item
  tpt : List Item
  deriving DecidableEq

/-- Where the enqueue thread is. -/
inductive Enq
  | idle
  | collect (k : ℕ) (ready : List ℕ)
  | scan (c : Cycle)
  | here (c : Cycle) (comp : Comp)
  | sigWrite (c : Cycle) (x : Entry)
  | sigSubmit (c : Cycle) (x : Entry)
  | sigPublish (c : Cycle) (x : Entry)
  | batch (c : Cycle) (b : Be)
  | write (c : Cycle) (b : Be) (todo written : List Entry) (rest : List Item)
  | submit (c : Cycle) (b : Be) (todo : List Entry) (rest : List Item)
  | release (c : Cycle) (b : Be) (todo : List Entry) (rest : List Item)
  | plain (c : Cycle) (b : Be) (items : List Item) (accepted : List Entry)
  | publish (c : Cycle) (b : Be) (todo : List Entry)
  deriving DecidableEq

structure State (n : ℕ) where
  runs : ℕ → Run
  /-- How many runs were submitted. -/
  count : ℕ
  activeRuns : ℕ
  be : Be → Backend
  enq : Enq
  workers : Fin n → Worker
  calls : Fin n → Call
  log : List Event
  failed : List OpRef
  lost : List OpRef
  /-- The results of the calls of `wait`, and the statuses that the runs had then. -/
  returned : List (ℕ × Bool × Status)

/-- The plans of the runs, the capacities of the backends and the bound on concurrent runs. -/
structure Config where
  plan : ℕ → Plan
  capacity : Be → ℕ
  maxConcurrentRuns : ℕ

def Config.size (cfg : Config) (b : Be) : ℕ := tableSize (cfg.capacity b)

def noRun : Run := ⟨.queued, 0, fun _ => false, [], [], [], fun _ => 0, fun _ => 0, []⟩

def State.init (n : ℕ) : State n where
  runs _ := noRun
  count := 0
  activeRuns := 0
  be _ := ⟨0, fun _ => none, [], []⟩
  enq := .idle
  workers _ := .idle
  calls _ := .none
  log := []
  failed := []
  lost := []
  returned := []

section Access

variable {n : ℕ} (s : State n)

def State.modRun (k : ℕ) (f : Run → Run) : State n := { s with runs := update s.runs k (f (s.runs k)) }

def State.modBe (b : Be) (f : Backend → Backend) : State n := { s with be := update s.be b (f (s.be b)) }

def State.note (e : Event) : State n := { s with log := e :: s.log }

end Access

def Run.setIndegree (r : Run) (i v : ℕ) : Run := { r with indegree := update r.indegree i v }

def Run.push (r : Run) (i : ℕ) : Run := { r with ring := r.ring ++ [i] }

def Run.countDone (r : Run) : Run := { r with doneCount := r.doneCount + 1 }

def Run.complete (r : Run) : Run := { r with status := .completed }

def Run.setRing (r : Run) (ring : List ℕ) : Run := { r with ring := ring }

/-- Ops are put off to the next cycle. -/
def Run.defer (r : Run) : Be → List ℕ → Run
  | .dev, l => { r with deferredDev := r.deferredDev ++ l }
  | .tpt, l => { r with deferredTpt := r.deferredTpt ++ l }
  | .sig, l => { r with deferredSig := r.deferredSig ++ l }

/-- The lists of ops that were put off are emptied. -/
def Run.undefer (r : Run) : Run := { r with deferredDev := [], deferredTpt := [], deferredSig := [] }

def Run.markSubmitted (r : Run) (i : ℕ) : Run := { r with submitted := update r.submitted i true }

/-- A put that carries the signal of an op was accepted. -/
def Run.fuse (r : Run) : Option ℕ → Run
  | some j => { r with fusedSigCnt := update r.fusedSigCnt j (r.fusedSigCnt j + 1) }
  | none => r

def Backend.slot (x : Backend) (size be : ℕ) : Option Tok := x.slots (be % size)

def Backend.setSlot (x : Backend) (size be : ℕ) (v : Option Tok) : Backend :=
  { x with slots := update x.slots (be % size) v }

def Backend.accept (x : Backend) (t : Tok) : Backend := { x with pending := x.pending ++ [t] }

def Backend.reserve (x : Backend) (m : ℕ) : Backend := { x with next := x.next + m }

/-- The tag of a slot is that of an index. -/
def Backend.tagged (x : Backend) (size be : ℕ) : Bool := (x.slot size be).any fun t => t.be == be

/-- A slot is emptied if its tag is the index. -/
def Backend.releaseSlot (x : Backend) (size be : ℕ) : Backend :=
  if x.tagged size be then x.setSlot size be none else x

-- ── An op is done

section Steps

variable (cfg : Config) {n : ℕ} (s : State n)

/-- `complete_op_local`, and the body of the loop of `drain_batch`. -/
def compStep : Comp → State n × Option Comp
  | .load o => (s, if (s.runs o.run).indegree o.idx = kIndegreeDone then none else some (.count o))
  | .count o =>
    ((s.modRun o.run Run.countDone).note (.counted o.run o.idx),
      some (.release o ((cfg.plan o.run).successors o.idx)))
  | .release o [] => (s, some (.mark o))
  | .release o (i :: todo) =>
    let old := (s.runs o.run).indegree i
    (s.modRun o.run fun r => r.setIndegree i ((old + 2 ^ 32 - 1) % 2 ^ 32),
      some (if old = 1 then .push o i todo else .release o todo))
  | .push o i todo =>
    if (s.runs o.run).ring.length < ringCapacity (cfg.plan o.run).nops then
      (s.modRun o.run fun r => r.push i, some (.release o todo))
    else (s, some (.push o i todo))
  | .mark o => (s.modRun o.run fun r => r.setIndegree o.idx kIndegreeDone, some (.status o.run))
  | .status k => (s, if (s.runs k).status = .running then some (.done k) else none)
  | .done k => (s, if (s.runs k).doneCount < (cfg.plan k).nops then none else some (.cas k))
  | .cas k =>
    if (s.runs k).status = .running then ((s.modRun k Run.complete).note (.completed k), some (.drop k))
    else (s, none)
  | .drop k => ({ s with activeRuns := s.activeRuns - 1 }.note (.freed k), none)

-- ── The drain threads and the callers of wait

/-- `do_drain` of a backend: a signal that could not be sent is left out, a failed put is not. -/
def drained (b : Be) (l : List (Tok × Bool)) : List Tok :=
  match b with
  | .sig => (l.filter fun x => !x.2).map Prod.fst
  | _ => l.map Prod.fst

def dropped (b : Be) (l : List (Tok × Bool)) : List OpRef :=
  match b with
  | .sig => (l.filter fun x => x.2).map fun x => x.1.op
  | _ => []

def State.goto (w : Fin n) (x : Worker) : State n := { s with workers := update s.workers w x }

/-- At most 256 completions at a time. -/
def drain (w : Fin n) (b : Be) (m : ℕ) : State n :=
  if s.workers w = .idle ∧ m ≤ 256 then
    let l := (s.be b).completed.take m
    { (s.modBe b fun x => { x with completed := x.completed.drop m }).goto w (.claim b (drained b l) []) with
      lost := s.lost ++ dropped b l }
  else s

def workStep (w : Fin n) : State n :=
  match s.workers w with
  | .idle => s
  | .claim _ [] snaps => s.goto w (.batch snaps)
  | .claim b (t :: todo) snaps =>
    match (s.be b).slot (cfg.size b) t.be with
    | some u => if u.be = t.be then s.goto w (.cas b t u.op todo snaps) else s
    | none => s
  | .cas b t snap todo snaps =>
    if (s.be b).tagged (cfg.size b) t.be then
      (s.modBe b fun x => x.setSlot (cfg.size b) t.be none).goto w (.claim b todo (snaps ++ [snap]))
    else { s.goto w (.claim b todo snaps) with lost := s.lost ++ [t.op] }
  | .batch [] => s.goto w .idle
  | .batch (o :: snaps) => s.goto w (.comp (.load o) snaps)
  | .comp c snaps =>
    match compStep cfg s c with
    | (s', some c') => s'.goto w (.comp c' snaps)
    | (s', none) => s'.goto w (.batch snaps)

-- ── The enqueue thread

def State.at (e : Enq) : State n := { s with enq := e }

/-- `collect_ready` takes one op, or the ring is empty and the ops that were put off come first. -/
def pop : State n :=
  match s.enq with
  | .collect k ready =>
    match (s.runs k).ring with
    | i :: ring =>
      (s.modRun k fun r => r.setRing ring).at
        (.collect k (if (s.runs k).submitted i then ready else ready ++ [i]))
    | [] =>
      let r := s.runs k
      (s.modRun k Run.undefer).at (.scan ⟨k, r.deferredSig ++ r.deferredTpt ++ r.deferredDev ++ ready, [], []⟩)
  | _ => s

/-- Whether all the puts of a signal's group have carried it. -/
def carried (k i : ℕ) : Bool :=
  (cfg.plan k).kind i = some .signal && decide (0 < (cfg.plan k).sigGroupSize i) &&
    (s.runs k).fusedSigCnt i == (cfg.plan k).sigGroupSize i

def width : Be → ℕ
  | .dev => 2 ^ 32
  | .tpt => 2 ^ 30
  | .sig => 2 ^ 30

/-- What `reserve_slot` returns when its counter is `m`. -/
def indexAt (b : Be) (m : ℕ) : ℕ := m % width b

def hasPeer (k i : ℕ) : Bool := ((cfg.plan k).ops[i]?.bind TiledOp.dstPeer).isSome

/-- A ready op is looked at. The path of a put and whether it can carry its signal are decided in every cycle. -/
def scan (path : PutPath) (canFuse : Bool) : State n :=
  match s.enq with
  | .scan ⟨k, i :: todo, dev, tpt⟩ =>
    match (cfg.plan k).kind i with
    | some .signal | some .waitSignal =>
      if carried cfg s k i then
        ((s.modRun k fun r => r.markSubmitted i).note (.started k i)).at (.here ⟨k, todo, dev, tpt⟩ (.load ⟨k, i⟩))
      else
        (s.modBe .sig fun x => x.reserve 1).at
          (.sigWrite ⟨k, todo, dev, tpt⟩ ⟨indexAt .sig (s.be .sig).next, i, false⟩)
    | some .put =>
      let item : Item := ⟨i, canFuse && hasPeer cfg k i && ((cfg.plan k).putToSig i).isSome⟩
      if hasPeer cfg k i && decide (path ≠ .device) then s.at (.scan ⟨k, todo, dev, tpt ++ [item]⟩)
      else s.at (.scan ⟨k, todo, dev ++ [item], tpt⟩)
    | _ => s.at (.scan ⟨k, todo, dev ++ [⟨i, false⟩], tpt⟩)
  | .scan ⟨k, [], dev, tpt⟩ => s.at (.batch ⟨k, [], dev, tpt⟩ .dev)
  | _ => s

/-- An op was accepted, and with it the signal that it carries. -/
def Run.accepted (p : Plan) (r : Run) (i : ℕ) (fused : Bool) : Run :=
  (r.markSubmitted i).fuse (if fused then p.putToSig i else none)

/-- An op is handed to a backend. -/
def State.start (b : Be) (k : ℕ) (x : Entry) : State n :=
  ((s.modBe b fun y => y.accept (x.tok k)).modRun k fun r => r.accepted (cfg.plan k) x.idx x.fused).note
    (.started k x.idx)

/-- The signal backend has no index to give: the op is enqueued first, under an index that the backend
    chooses, or is put off. -/
def scanPlain (be : Option ℕ) : State n :=
  match s.enq with
  | .scan ⟨k, i :: todo, dev, tpt⟩ =>
    match (cfg.plan k).kind i with
    | some .signal | some .waitSignal =>
      if carried cfg s k i then s
      else
        match be with
        | some be =>
          (s.start cfg .sig k ⟨be, i, false⟩).at (.sigPublish ⟨k, todo, dev, tpt⟩ ⟨be, i, false⟩)
        | none => (s.modRun k fun r => r.defer .sig [i]).at (.scan ⟨k, todo, dev, tpt⟩)
    | _ => s
  | _ => s

def Cycle.items (c : Cycle) : Be → List Item
  | .dev => c.dev
  | .tpt => c.tpt
  | .sig => []

def Cycle.clear (c : Cycle) : Be → Cycle
  | .dev => { c with dev := [] }
  | .tpt => { c with tpt := [] }
  | .sig => c

/-- After the device batch comes the transport batch. -/
def nextBatch (c : Cycle) : Be → Enq
  | .dev => .batch c .tpt
  | _ => .idle

/-- Ops of a batch with the indices of a backend from `next` on. -/
def entries (b : Be) : ℕ → List Item → List Entry
  | _, [] => []
  | next, x :: items => ⟨indexAt b next, x.idx, x.fused⟩ :: entries b (next + 1) items

/-- `reserve_slots` gives `m` indices, all that were asked for unless the next one is `kInvalidBeIdx`. With
    none at all, `do_enqueue` is used. -/
def reserve (m : ℕ) : State n :=
  match s.enq with
  | .batch c b =>
    if c.items b = [] then s.at (nextBatch c b)
    else if m = 0 then (s.modBe b fun x => x.reserve 1).at (.plain (c.clear b) b (c.items b) [])
    else if m ≤ (c.items b).length then
      (s.modBe b fun x => x.reserve (if m < (c.items b).length then m + 1 else m)).at
        (.write (c.clear b) b (entries b (s.be b).next ((c.items b).take m)) [] ((c.items b).drop m))
    else s
  | _ => s

/-- `do_enqueue` of a backend without indices in advance: it accepts the next op under an index that it
    chooses, or stops, and what is left is put off. -/
def enqueuePlain (be : Option ℕ) : State n :=
  match s.enq with
  | .plain c b (x :: items) accepted =>
    match be with
    | some be =>
      (s.start cfg b c.run ⟨be, x.idx, x.fused⟩).at (.plain c b items (accepted ++ [⟨be, x.idx, x.fused⟩]))
    | none => (s.modRun c.run fun r => r.defer b ((x :: items).map Item.idx)).at (.publish c b accepted)
  | .plain c b [] accepted => s.at (.publish c b accepted)
  | _ => s

/-- `BeSlotTable::write`: it waits for as long as the slot is not empty. -/
def writeSlot : State n :=
  match s.enq with
  | .sigWrite c x =>
    if (s.be .sig).slot (cfg.size .sig) x.be = none then
      (s.modBe .sig fun y => y.setSlot (cfg.size .sig) x.be (some (x.tok c.run))).at (.sigSubmit c x)
    else s
  | .sigPublish c x =>
    if (s.be .sig).slot (cfg.size .sig) x.be = none then
      (s.modBe .sig fun y => y.setSlot (cfg.size .sig) x.be (some (x.tok c.run))).at (.scan c)
    else s
  | .write c b (x :: todo) written rest =>
    if (s.be b).slot (cfg.size b) x.be = none then
      (s.modBe b fun y => y.setSlot (cfg.size b) x.be (some (x.tok c.run))).at (.write c b todo (written ++ [x]) rest)
    else s
  | .write c b [] written rest => s.at (.submit c b written rest)
  | .publish c b (x :: todo) =>
    if (s.be b).slot (cfg.size b) x.be = none then
      (s.modBe b fun y => y.setSlot (cfg.size b) x.be (some (x.tok c.run))).at (.publish c b todo)
    else s
  | .publish c b [] => s.at (nextBatch c b)
  | _ => s

/-- `do_enqueue_reserved`, and the loop of `do_enqueue_reserved_batch`: after the first refusal the others are
    not tried. -/
def submit (ok : Bool) : State n :=
  match s.enq with
  | .sigSubmit c x =>
    if ok then (s.start cfg .sig c.run x).at (.scan c)
    else
      ((s.modBe .sig fun y => y.releaseSlot (cfg.size .sig) x.be).modRun c.run fun r => r.defer .sig [x.idx]).at
        (.scan c)
  | .submit c b (x :: todo) rest =>
    if ok then (s.start cfg b c.run x).at (.submit c b todo rest) else s.at (.release c b (x :: todo) rest)
  | .submit c b [] rest => s.at (.release c b [] rest)
  | _ => s

/-- The slots of what was refused are given back, and it is put off. -/
def release : State n :=
  match s.enq with
  | .release c b (x :: todo) rest =>
    ((s.modBe b fun y => y.releaseSlot (cfg.size b) x.be).modRun c.run fun r => r.defer b [x.idx]).at
      (.release c b todo rest)
  | .release c b [] rest => (s.modRun c.run fun r => r.defer b (rest.map Item.idx)).at (nextBatch c b)
  | _ => s

/-- A step of `complete_op_local`. -/
def hereStep : State n :=
  match s.enq with
  | .here c comp =>
    match compStep cfg s comp with
    | (s', some comp') => s'.at (.here c comp')
    | (s', none) => s'.at (.scan c)
  | _ => s

-- ── Runs, completions and calls of wait

def Plan.start (p : Plan) : Run :=
  ⟨.running, 0, fun _ => false, [], [], [], p.indegreeInit, fun _ => 0, p.initialReady⟩

/-- `submit` of the executor: it waits for as long as there are too many runs. -/
def submitRun : State n :=
  if s.activeRuns < cfg.maxConcurrentRuns then
    let p := cfg.plan s.count
    if p.nops = 0 then { s.modRun s.count fun _ => noRun.complete with count := s.count + 1 }
    else { s.modRun s.count fun _ => p.start with count := s.count + 1, activeRuns := s.activeRuns + 1 }
  else s

/-- Which completions can report a failure. -/
def fallible (b : Be) (kind : Option ExecOpKind) : Bool :=
  match b with
  | .dev => false
  | .tpt => true
  | .sig => kind = some .signal

/-- A backend completes the `i`-th of the ops that it has. -/
def complete (b : Be) (i : ℕ) (failed : Bool) : State n :=
  match (s.be b).pending[i]? with
  | some t =>
    let bad := failed && fallible b ((cfg.plan t.op.run).kind t.op.idx)
    { s.modBe b fun x => { x with pending := x.pending.eraseIdx i, completed := x.completed ++ [(t, bad)] } with
      failed := if bad then s.failed ++ [t.op] else s.failed }
  | none => s

/-- `wait` is called for a run. With a handle that no submit has returned it returns true at once, and there is no
    run that this could be untrue of. -/
def call (w : Fin n) (k : ℕ) (timed : Bool) : State n :=
  if s.calls w = .none ∧ k < s.count then { s with calls := update s.calls w (.waiting k timed) } else s

/-- `finalize_run` of the waiting thread. -/
def finalize (w : Fin n) : State n :=
  match s.calls w with
  | .waiting k _ => if s.workers w = .idle then s.goto w (.comp (.status k) []) else s
  | _ => s

/-- The loop of `wait` is left: the run is not running, or the deadline has passed. -/
def leave (w : Fin n) (expired : Bool) : State n :=
  match s.calls w with
  | .waiting k timed =>
    if s.workers w = .idle ∧ ((s.runs k).status ≠ .running ∨ (timed && expired) = true) then
      { s with calls := update s.calls w (.leaving k) }
    else s
  | _ => s

def ret (w : Fin n) : State n :=
  match s.calls w with
  | .leaving k =>
    { s with
      calls := update s.calls w .none
      returned := s.returned ++ [(k, decide ((s.runs k).status ≠ .failed), (s.runs k).status)] }
  | _ => s

end Steps

inductive Action (n : ℕ)
  | submitRun
  /-- The enqueue thread begins with a run. -/
  | begin (k : ℕ)
  | pop
  | scan (path : PutPath) (canFuse : Bool)
  | scanPlain (be : Option ℕ)
  | reserve (m : ℕ)
  | enqueuePlain (be : Option ℕ)
  | writeSlot
  | submit (ok : Bool)
  | release
  | here
  | complete (b : Be) (i : ℕ) (failed : Bool)
  | drain (w : Fin n) (b : Be) (m : ℕ)
  | work (w : Fin n)
  | call (w : Fin n) (k : ℕ) (timed : Bool)
  | finalize (w : Fin n)
  | leave (w : Fin n) (expired : Bool)
  | ret (w : Fin n)

def step (cfg : Config) {n : ℕ} (s : State n) : Action n → Except Empty (State n)
  | .submitRun => .ok (submitRun cfg s)
  | .begin k => .ok (if s.enq = .idle ∧ k < s.count then s.at (.collect k []) else s)
  | .pop => .ok (pop s)
  | .scan path canFuse => .ok (scan cfg s path canFuse)
  | .scanPlain be => .ok (scanPlain cfg s be)
  | .reserve m => .ok (reserve s m)
  | .enqueuePlain be => .ok (enqueuePlain cfg s be)
  | .writeSlot => .ok (writeSlot cfg s)
  | .submit ok => .ok (submit cfg s ok)
  | .release => .ok (release cfg s)
  | .here => .ok (hereStep cfg s)
  | .complete b i failed => .ok (complete cfg s b i failed)
  | .drain w b m => .ok (drain s w b m)
  | .work w => .ok (workStep cfg s w)
  | .call w k timed => .ok (call s w k timed)
  | .finalize w => .ok (finalize s w)
  | .leave w expired => .ok (leave s w expired)
  | .ret w => .ok (ret s w)

end UkExec
