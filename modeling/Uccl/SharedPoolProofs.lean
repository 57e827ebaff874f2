import Uccl.StepRunProofs
import Mathlib.Algebra.BigOperators.Group.Finset.Basic
import Mathlib.Data.Fintype.Basic

/-! # The shared pool with thread caches

    `SharedPool<T, true>` (shared_pool.h): a global pool under a spin lock, and a cache of `kNumCachedItemsPerCPU` items
    per thread. A full cache moves to the global pool on a push, an empty one is filled with that many items on a pop,
    and `flush_th_cache` and the exit of a thread return what is cached. A pop with an empty cache needs a whole batch
    in the global pool, and a thread's cache learns of the pool only when it is filled, moved or flushed
    (`pool_strands_items`).

    The circular buffers (cb.h) are the lists of their items, front first, that refuse a push when full. `out` is the
    items in the hands of the threads. -/

namespace SharedPool

open StepRun Function List Except

/-- A check that fails, or a step that is not possible. -/
inductive Fault where
  | cacheEmpty | cacheFull | globalEmpty | globalFull
  /-- The thread does not hold the item. -/
  | notHeld
  deriving DecidableEq, Repr

/-- The global pool, the caches of the threads, and the items in their hands. -/
structure Pool (Th T : Type) where
  capacity : ℕ
  global : List T := []
  cache : Th → List T := fun _ => []
  /-- `shared_pool_ptr_` is set. -/
  registered : Th → Bool := fun _ => false
  out : List T

/-- What a thread does. -/
inductive Action (Th T : Type) where
  | push (th : Th) (item : T)
  | pop (th : Th)
  | flush (th : Th)
  | exit (th : Th)

def kNumCachedItemsPerCPU : ℕ := 64

variable {Th T : Type} [DecidableEq Th] [DecidableEq T] {capacity : ℕ}

-- ── The code

/-- `CircularBuffer::push_front`. -/
def pushFront (capacity : ℕ) (l : List T) (item : T) : Option (List T) :=
  if l.length < capacity then some (item :: l) else none

/-- `UCCL_CHECK(src.pop_front(&migrated)); UCCL_CHECK(dst.push_front(migrated));`, so many times. -/
def migrate (capacity : ℕ) (empty full : Fault) :
    ℕ → List T → List T → Except Fault (List T × List T)
  | 0, src, dst => .ok (src, dst)
  | n + 1, src, dst =>
    match src with
    | [] => .error empty
    | migrated :: src =>
      match pushFront capacity dst migrated with
      | none => .error full
      | some dst => migrate capacity empty full n src dst

/-- `while (cache.pop_front(&item)) global_pool_.push_front(item);` -/
def drain (capacity : ℕ) : List T → List T → List T
  | [], dst => dst
  | item :: src, dst => drain capacity src ((pushFront capacity dst item).getD dst)

/-- A call leaves these lists behind. -/
def Pool.set (s : Pool Th T) (th : Th) (cache global out : List T) : Pool Th T :=
  { s with cache := Function.update s.cache th cache, global := global, out := out }

/-- `set_shared_pool_ptr`. -/
def Pool.register (s : Pool Th T) (th : Th) : Pool Th T :=
  { s with registered := Function.update s.registered th true }

/-- `push`. -/
def push (s : Pool Th T) (th : Th) (item : T) : Except Fault (Pool Th T) :=
  if item ∉ s.out then .error .notHeld
  else if (s.cache th).length = kNumCachedItemsPerCPU then
    match migrate s.capacity .cacheEmpty .globalFull kNumCachedItemsPerCPU (s.cache th) s.global with
    | .error x => .error x
    | .ok (cache, global) =>
      match pushFront kNumCachedItemsPerCPU cache item with
      | none => .error .cacheFull
      | some cache => .ok ((s.register th).set th cache global (s.out.erase item))
  else
    match pushFront kNumCachedItemsPerCPU (s.cache th) item with
    | none => .error .cacheFull
    | some cache => .ok (s.set th cache s.global (s.out.erase item))

/-- `pop`. -/
def pop (s : Pool Th T) (th : Th) : Except Fault (Pool Th T) :=
  match s.cache th with
  | item :: cache => .ok (s.set th cache s.global (item :: s.out))
  | [] =>
    match migrate kNumCachedItemsPerCPU .globalEmpty .cacheFull kNumCachedItemsPerCPU s.global [] with
    | .error x => .error x
    | .ok (_, []) => .error .cacheEmpty
    | .ok (global, item :: cache) => .ok ((s.register th).set th cache global (item :: s.out))

/-- `flush_th_cache`. -/
def flush (s : Pool Th T) (th : Th) : Pool Th T :=
  (s.register th).set th [] (drain s.capacity (s.cache th) s.global) s.out

/-- `~ThreadCache`; the next thread of this name starts with a new cache. -/
def exit (s : Pool Th T) (th : Th) : Pool Th T :=
  let s' := if s.registered th then flush s th else s.set th [] s.global s.out
  { s' with registered := Function.update s'.registered th false }

def step (s : Pool Th T) : Action Th T → Except Fault (Pool Th T)
  | .push th item => push s th item
  | .pop th => pop s th
  | .flush th => .ok (flush s th)
  | .exit th => .ok (exit s th)

-- ── What it should do

/-- The items in the pool, in the caches and in the hands of the threads. -/
def Pool.items [Fintype Th] (s : Pool Th T) : Multiset T :=
  s.global + ∑ th, (s.cache th : Multiset T) + s.out

/-- A step keeps the items, a push of an item at hand succeeds, and so does a pop when
    the thread's cache or the global pool has an item. -/
structure Good [Fintype Th] (s : Pool Th T) (a : Action Th T) : Prop where
  items : ∀ s', step s a = .ok s' → s'.items = s.items
  push : ∀ th item, a = .push th item → item ∈ s.out → ∃ s', step s a = .ok s'
  pop : ∀ th, a = .pop th → s.cache th ≠ [] ∨ s.global ≠ [] → ∃ s', step s a = .ok s'

/-- A pop that finds its cache empty finds a whole batch in the global pool, or nothing;
    a thread that exits with items in its cache has registered it. -/
def Calm (s : Pool Th T) : Action Th T → Prop
  | .pop th => s.cache th = [] → s.global = [] ∨ kNumCachedItemsPerCPU ≤ s.global.length
  | .exit th => s.registered th = false → s.cache th = []
  | .push _ _ | .flush _ => True

instance (s : Pool Th T) (a : Action Th T) : Decidable (Calm s a) := by
  cases a <;> unfold Calm <;> infer_instance

/-- The caches keep their bound, and the global pool has room for all items. -/
structure Inv [Fintype Th] (s : Pool Th T) : Prop where
  cache_le : ∀ th, (s.cache th).length ≤ kNumCachedItemsPerCPU
  room : s.items.card ≤ s.capacity

-- ── Moving items

omit [DecidableEq T] in
theorem migrate_eq (empty full : Fault) : ∀ (n : ℕ) (src dst : List T), n ≤ src.length → dst.length + n ≤ capacity →
      migrate capacity empty full n src dst = .ok (src.drop n, (src.take n).reverse ++ dst) := by
  intro n
  induction n with
  | zero => intro src dst _ _; rfl
  | succ n ih =>
    intro src dst hsrc hdst
    cases src with
    | nil => cases hsrc
    | cons x src =>
      have hlt : dst.length < capacity := by omega
      simp only [migrate, pushFront, if_pos hlt]
      rw [ih src (x :: dst) (Nat.le_of_succ_le_succ hsrc) (by rw [length_cons]; omega)]
      rw [take_succ_cons, reverse_cons, append_assoc]
      rfl

omit [DecidableEq T] in
theorem drain_eq : ∀ src dst : List T, dst.length + src.length ≤ capacity →
      drain capacity src dst = src.reverse ++ dst := by
  intro src
  induction src with
  | nil => intro dst _; rfl
  | cons x src ih =>
    intro dst h
    rw [length_cons] at h
    have hlt : dst.length < capacity := by omega
    rw [drain, pushFront, if_pos hlt, Option.getD_some, ih _ (by rw [length_cons]; omega), reverse_cons, append_assoc]
    rfl

section

variable [Fintype Th] {s s' : Pool Th T} {th : Th} {cache global out : List T} {a : Action Th T}

/-- The items outside the cache of one thread and the two lists that change with it. -/
def Pool.rest (s : Pool Th T) (th : Th) : Multiset T :=
  ∑ x ∈ Finset.univ.erase th, (s.cache x : Multiset T)

omit [DecidableEq T] in
/-- The items, with those that a thread can move apart. -/
theorem items_eq (s : Pool Th T) (th : Th) : s.items = ↑(s.global ++ s.cache th ++ s.out) + s.rest th := by
  rw [Pool.items, Pool.rest, ← Finset.add_sum_erase _ _ (Finset.mem_univ th), ← Multiset.coe_add,
    ← Multiset.coe_add, ← add_assoc, add_right_comm]

omit [DecidableEq T] in
/-- A thread moves items between its cache, the global pool and its hands. -/
theorem items_set (h : (global ++ cache ++ out).Perm (s.global ++ s.cache th ++ s.out)) :
    (s.set th cache global out).items = s.items := by
  rw [items_eq _ th, items_eq s th]
  have hrest : (s.set th cache global out).rest th = s.rest th := Finset.sum_congr rfl fun x hx =>
      congrArg Multiset.ofList (show update s.cache th cache x = s.cache x from
        update_of_ne (Finset.ne_of_mem_erase hx) _ _)
  have hcache : (s.set th cache global out).cache th = cache := update_self ..
  rw [hrest, hcache]
  exact congrArg (· + _) (Multiset.coe_eq_coe.mpr h)

omit [DecidableEq T] in
/-- There is always room in the global pool. -/
theorem Inv.length_le (h : Inv s) (th : Th) : s.global.length + (s.cache th).length + s.out.length ≤ s.capacity := by
  have hroom := h.room
  rw [items_eq s th, Multiset.card_add, Multiset.coe_card, length_append, length_append] at hroom
  omega

/-- What a step may do: a thread moves items between its cache, the global pool and its hands. -/
def Moved (s s' : Pool Th T) : Prop :=
  ∃ th registered cache global out,
    s' = ({ s with registered := registered } : Pool Th T).set th cache global out ∧
    cache.length ≤ kNumCachedItemsPerCPU ∧
    (global ++ cache ++ out).Perm (s.global ++ s.cache th ++ s.out)

omit [DecidableEq T] in
theorem Moved.items (h : Moved s s') : s'.items = s.items := by
  obtain ⟨th, r, cache, global, out, rfl, -, hperm⟩ := h
  exact items_set hperm

omit [DecidableEq T] in
theorem Inv.moved (h : Inv s) (hm : Moved s s') : Inv s' := by
  have hitems := hm.items
  obtain ⟨th, r, cache, global, out, rfl, hcache, -⟩ := hm
  refine ⟨?_, hitems ▸ h.room⟩
  exact (forall_update_iff s.cache fun _ l => l.length ≤ kNumCachedItemsPerCPU).mpr ⟨hcache, fun x _ => h.cache_le x⟩

-- ── The steps

/-- The cache of a push that finds it full goes to the global pool. -/
theorem push_moved {item : T} (h : Inv s) (hitem : item ∈ s.out) (th : Th) :
    ∃ s', push s th item = .ok s' ∧ Moved s s' := by
  have hout : (s.cache th ++ s.out).Perm (item :: s.cache th ++ s.out.erase item) :=
    ((perm_cons_erase hitem).append_left _).trans perm_middle
  unfold push
  rw [if_neg (not_not.mpr hitem)]
  by_cases hfull : (s.cache th).length = kNumCachedItemsPerCPU
  · have hlen := h.length_le th
    rw [migrate_eq _ _ _ _ _ hfull.ge (by omega), ← hfull, drop_length, take_length, hfull]
    refine ⟨_, rfl, th, _, _, _, _, rfl, show 1 ≤ kNumCachedItemsPerCPU by decide, ?_⟩
    rw [append_assoc, append_assoc, append_assoc]
    calc ((s.cache th).reverse ++ (s.global ++ ([item] ++ s.out.erase item))).Perm
          (s.cache th ++ (s.global ++ ([item] ++ s.out.erase item))) :=
          (reverse_perm _).append_right _
      _ |>.Perm (s.global ++ (s.cache th ++ ([item] ++ s.out.erase item))) := perm_append_comm_assoc ..
      _ |>.Perm (s.global ++ (s.cache th ++ s.out)) :=
          (((perm_cons_erase hitem).symm).append_left _).append_left _
  · have hlt : (s.cache th).length < kNumCachedItemsPerCPU := lt_of_le_of_ne (h.cache_le th) hfull
    rw [if_neg hfull, pushFront, if_pos hlt]
    refine ⟨_, rfl, th, s.registered, _, _, _, rfl, hlt, ?_⟩
    rw [append_assoc, append_assoc]
    exact hout.symm.append_left _

omit [DecidableEq T] in
/-- A pop finds an item in the cache or takes a batch. -/
theorem pop_moved (h : Inv s) (hcalm : Calm s (.pop th))
    (hsome : s.cache th ≠ [] ∨ s.global ≠ []) : ∃ s', pop s th = .ok s' ∧ Moved s s' := by
  unfold pop
  cases hcache : s.cache th with
  | cons item cache =>
    have hle := h.cache_le th
    rw [hcache] at hle
    refine ⟨_, rfl, th, s.registered, _, _, _, rfl, Nat.le_of_succ_le hle, ?_⟩
    rw [hcache, append_assoc, append_assoc]
    exact perm_middle.append_left _
  | nil =>
    have hglobal : kNumCachedItemsPerCPU ≤ s.global.length :=
      (hcalm hcache).resolve_left (hsome.resolve_left (not_not.mpr hcache))
    rw [migrate_eq _ _ _ _ [] hglobal (Nat.zero_add _).le, append_nil]
    have hlen : (s.global.take kNumCachedItemsPerCPU).reverse.length = kNumCachedItemsPerCPU := by
      rw [length_reverse, length_take_of_le hglobal]
    cases hbatch : (s.global.take kNumCachedItemsPerCPU).reverse with
    | nil =>
      rw [hbatch] at hlen
      cases hlen
    | cons item cache =>
      rw [hbatch] at hlen
      refine ⟨_, rfl, th, _, _, _, _, rfl, Nat.le_of_succ_le hlen.le, ?_⟩
      rw [hcache, append_nil, append_assoc]
      calc (s.global.drop kNumCachedItemsPerCPU ++ (cache ++ item :: s.out)).Perm
            (s.global.drop kNumCachedItemsPerCPU ++ (item :: cache ++ s.out)) :=
            perm_middle.append_left _
        _ |>.Perm (item :: cache ++ (s.global.drop kNumCachedItemsPerCPU ++ s.out)) :=
            perm_append_comm_assoc ..
        _ |>.Perm (s.global ++ s.out) := by
            rw [← hbatch, ← append_assoc]
            refine List.Perm.append_right _ ?_
            exact ((reverse_perm _).append_right _).trans (.of_eq (take_append_drop ..))

omit [DecidableEq T] in
theorem flush_moved (h : Inv s) (th : Th) : Moved s (flush s th) := by
  have hlen := h.length_le th
  refine ⟨th, _, _, _, _, rfl, Nat.zero_le _, ?_⟩
  rw [drain_eq _ _ (by omega), append_nil]
  exact (((reverse_perm _).append_right _).trans perm_append_comm).append_right _

omit [DecidableEq T] in
theorem exit_moved (h : Inv s) (hcalm : Calm s (.exit th)) : Moved s (exit s th) := by
  unfold exit
  cases hreg : s.registered th with
  | true =>
    obtain ⟨t, r, cache, global, out, heq, hle, hperm⟩ := flush_moved h th
    refine ⟨t, update r th false, cache, global, out, ?_, hle, hperm⟩
    rw [heq]
    rfl
  | false =>
    refine ⟨th, update s.registered th false, [], s.global, s.out, ?_, Nat.zero_le _, ?_⟩
    · rfl
    · rw [hcalm hreg]

/-- **ONE STEP** under the condition moves items, or is a pop that finds none. -/
theorem step_moved (h : Inv s) (hcalm : Calm s a) (hs : step s a = .ok s') : Moved s s' := by
  cases a with
  | push th item =>
    by_cases hitem : item ∈ s.out
    · obtain ⟨s1, hpush, hm⟩ := push_moved h hitem th
      exact ok.inj (hpush.symm.trans hs) ▸ hm
    · have hfault : push s th item = .error .notHeld := if_pos hitem
      cases hfault.symm.trans hs
  | pop th =>
    by_cases hsome : s.cache th ≠ [] ∨ s.global ≠ []
    · obtain ⟨s1, hpop, hm⟩ := pop_moved h hcalm hsome
      exact ok.inj (hpop.symm.trans hs) ▸ hm
    · rw [not_or, not_not, not_not] at hsome
      have hfault : pop s th = .error .globalEmpty := by
        unfold pop
        rw [hsome.1, hsome.2]
        rfl
      cases hfault.symm.trans hs
  | flush th => exact ok.inj hs ▸ flush_moved h th
  | exit th => exact ok.inj hs ▸ exit_moved h hcalm

/-- A step that meets the condition fails for no reason. -/
theorem good_of_calm (h : Inv s) (hcalm : Calm s a) : Good s a where
  items _ hs := (step_moved h hcalm hs).items
  push th item ha hitem := by
    subst ha
    obtain ⟨s', hs, -⟩ := push_moved h hitem th
    exact ⟨s', hs⟩
  pop th ha hsome := by
    subst ha
    obtain ⟨s', hs, -⟩ := pop_moved h hcalm hsome
    exact ⟨s', hs⟩

end

-- ── Runs

/-- **THE POOL LOSES NOTHING AND FAILS FOR NO REASON** in every interleaving whose steps meet the condition,
    starting with all items in the hands of the threads and a global pool with room for them. -/
theorem pool_conserves [Fintype Th] {capacity : ℕ} {items : List T} {as : List (Action Th T)}
    (hroom : items.length ≤ capacity) (hcalm : Along step Calm { capacity := capacity, out := items } as) :
    Along step Good { capacity := capacity, out := items } as ∧
      ∀ s, runFrom step { capacity := capacity, out := items } as = .ok s → s.items = items := by
  have hinit : (Pool.items ({ capacity := capacity, out := items } : Pool Th T)) = items := by
    show (↑([] : List T) + ∑ _th : Th, (([] : List T) : Multiset T) + (items : Multiset T)) = items
    rw [Multiset.coe_nil, Finset.sum_const_zero, zero_add, zero_add]
  have hinv : Inv ({ capacity := capacity, out := items } : Pool Th T) :=
    ⟨fun _ => Nat.zero_le _, by rw [hinit]; exact hroom⟩
  refine ⟨Along.weaken (I := Inv) (fun s a s' hi hc hs => hi.moved (step_moved hi hc hs))
    (fun s a hi hc => good_of_calm hi hc) hinv hcalm, fun s hrun => ?_⟩
  refine (runFrom_invariant_along (I := fun x => Inv x ∧ x.items = items) ?_ ⟨hinv, hinit⟩ hcalm hrun).2
  intro s a s' hi hc hs
  have hm := step_moved hi.1 hc hs
  exact ⟨hi.1.moved hm, hm.items.trans hi.2⟩

/-- A thread pushes 65 items, so a batch moves to the global pool, and exits, which returns the last one. Another fills
    its cache from there and flushes it. -/
theorem pool_conserves_batch : ∃ s : Pool Bool ℕ, runFrom step { capacity := 128, out := range 65 }
      ((range 65).map (.push false) ++ [.exit false, .pop true, .flush true]) = .ok s ∧
    s.global.length = 64 ∧ s.out.length = 1 ∧ s.items = range 65 ∧
    Along step Good ({ capacity := 128, out := range 65 } : Pool Bool ℕ)
      ((range 65).map (.push false) ++ [.exit false, .pop true, .flush true]) := by
  refine exists_run_of_guarded (G := Calm) (fun s => s.global.length = 64 ∧ s.out.length = 1) (by decide +kernel)
    fun s hcalm hrun hs => ?_
  have hgood := pool_conserves (by decide) hcalm
  exact ⟨hs.1, hs.2, hgood.2 s hrun, hgood.1⟩

/-- One item in the global pool cannot be taken by a thread with an empty cache, and the
    item of a thread that exits before its cache is registered is lost. -/
theorem pool_strands_items :
    (∃ s : Pool Bool ℕ, runFrom step { capacity := 64, out := [7] } [.push false 7, .flush false] = .ok s ∧
      s.global = [7] ∧ step s (.pop true) = .error .globalEmpty) ∧
    ∃ s : Pool Bool ℕ, runFrom step { capacity := 64, out := [7] } [.push false 7, .exit false] = .ok s ∧
      s.items = 0 := by
  refine ⟨⟨_, rfl, rfl, rfl⟩, _, rfl, ?_⟩
  decide

end SharedPool
