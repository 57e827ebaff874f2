import Mathlib.Algebra.Ring.Nat
import Mathlib.Data.List.Induction
import Mathlib.Data.List.Nodup
import Uccl.StepRunProofs

/-! # The cache of memory registrations

    `acquire_cached_mr` (p2p/rdma/rdma_context.cc) returns the smallest registration that contains the range
    and has its mode, and registers the range when there is none; `release_cached_mr` deregisters with the
    last handle. A range contains itself unless it wraps, so a new entry never takes the place of another one
    in the map, and in every run the references are the handles (`mrCache_sound`). -/

namespace P2pMrCache

open StepRun List

/-- What is registered: a range, and how. -/
structure MrCacheKey where
  addr : ℕ
  size : ℕ
  isGpu : Bool
  useDmabuf : Bool
  deriving DecidableEq

/-- A registration in the map, and how often it is in use. -/
structure MrCacheEntry where
  key : MrCacheKey
  /-- which of the registrations -/
  mr : ℕ
  refs : ℕ
  deriving DecidableEq

/-- The map, with the registrations made, the handles held and what was returned. -/
structure Context where
  /-- `mr_cache_` in the order of iteration -/
  mrCache : List MrCacheEntry := []
  /-- what was registered, in order -/
  regs : List MrCacheKey := []
  deregs : List ℕ := []
  /-- the registrations of the handles that are not released -/
  handles : List ℕ := []
  /-- what was asked for, and the registration of the entry returned -/
  returned : List (MrCacheKey × ℕ) := []

/-- `contains_range`, with ends that wrap at 64 bits. -/
def containsRange (outer inner : MrCacheKey) : Bool :=
  let outerEnd := (outer.addr + outer.size) % 2 ^ 64
  let innerEnd := (inner.addr + inner.size) % 2 ^ 64
  outer.addr ≤ inner.addr && inner.size ≤ outer.size &&
    (outer.addr ≤ outerEnd && inner.addr ≤ innerEnd && innerEnd ≤ outerEnd)

/-- The registration is of the same kind and covers the range. -/
def matchesKey (key : MrCacheKey) (e : MrCacheEntry) : Bool :=
  e.key.isGpu == key.isGpu && e.key.useDmabuf == key.useDmabuf && containsRange e.key key

/-- The smallest entry that matches, the first in the map of equal ones. -/
def bestMatch (key : MrCacheKey) (mrCache : List MrCacheEntry) : Option MrCacheEntry :=
  mrCache.foldl (fun best e =>
    if matchesKey key e && best.all (fun b => e.key.size < b.key.size) then some e else best) none

/-- `registers`: whether `reg_mem_impl` succeeds -/
def acquireCachedMr (s : Context) (key : MrCacheKey) (registers : Bool) : Context :=
  match bestMatch key s.mrCache with
  | some best =>
    { s with
      mrCache := s.mrCache.map fun e => if e.mr = best.mr then { e with refs := e.refs + 1 } else e
      handles := best.mr :: s.handles
      returned := (key, best.mr) :: s.returned }
  | none =>
    if registers then
      { s with
        mrCache := ⟨key, s.regs.length, 1⟩ :: s.mrCache.filter (·.key ≠ key)
        regs := s.regs ++ [key]
        handles := s.regs.length :: s.handles
        returned := (key, s.regs.length) :: s.returned }
    else s

/-- The handle is a pointer to the entry of `mr`: its key is what was registered. -/
def releaseCachedMr (s : Context) (mr : ℕ) : Context :=
  match s.mrCache.find? (fun e => s.regs[mr]? = some e.key) with
  | none => s
  | some it =>
    if it.mr ≠ mr then s
    else if it.refs - 1 = 0 then
      { s with mrCache := s.mrCache.filter (·.mr ≠ mr), deregs := mr :: s.deregs }
    else { s with mrCache := s.mrCache.map fun e => if e.mr = mr then { e with refs := e.refs - 1 } else e }

/-- What happens to a context. -/
inductive Action
  | acquire (key : MrCacheKey) (registers : Bool)
  | release (mr : ℕ)
  /-- the map changes its order -/
  | rehash (mrCache : List MrCacheEntry)

/-- A handle that is not held cannot be released. -/
def step (s : Context) : Action → Except Unit Context
  | .acquire key registers => .ok (acquireCachedMr s key registers)
  | .release mr => if mr ∈ s.handles then .ok { releaseCachedMr s mr with handles := s.handles.erase mr } else .error ()
  | .rehash mrCache => if mrCache.Perm s.mrCache then .ok { s with mrCache := mrCache } else .error ()

/-- The ranges asked for do not wrap. -/
def NoWrap (_ : Context) : Action → Prop
  | .acquire key _ => key.addr + key.size < 2 ^ 64
  | _ => True

-- ── What the cache is for

/-- The registration is what was asked for, or a larger range of the same kind. -/
def Covers (key asked : MrCacheKey) : Prop :=
  key.isGpu = asked.isGpu ∧ key.useDmabuf = asked.useDmabuf ∧ key.addr ≤ asked.addr ∧
    asked.addr + asked.size ≤ key.addr + key.size

/-- What is returned covers what was asked for, an entry counts its handles, and the last release deregisters, once. -/
structure Sound (s : Context) : Prop where
  covers : ∀ r ∈ s.returned, ∃ key, s.regs[r.2]? = some key ∧ Covers key r.1
  refs : ∀ e ∈ s.mrCache, e.refs = s.handles.count e.mr
  /-- no entry with a handle has gone from the map -/
  kept : ∀ mr ∈ s.handles, ∃ e ∈ s.mrCache, e.mr = mr ∧ s.regs[mr]? = some e.key
  deregistered : s.deregs.Nodup ∧ ∀ mr, mr ∈ s.deregs ↔ mr < s.regs.length ∧ mr ∉ s.handles

/-- Besides, no two entries have one key, and every entry is in use. -/
structure Inv (s : Context) : Prop extends Sound s where
  keys : (s.mrCache.map MrCacheEntry.key).Nodup
  entry : ∀ e ∈ s.mrCache, e.mr ∈ s.handles ∧ s.regs[e.mr]? = some e.key ∧ e.key.addr + e.key.size < 2 ^ 64

variable {s s' : Context} {key : MrCacheKey}

theorem Covers.refl (key : MrCacheKey) : Covers key key := ⟨rfl, rfl, le_rfl, le_rfl⟩

/-- The search finds an entry that matches, if there is one. -/
theorem bestMatch_spec (key : MrCacheKey) (l : List MrCacheEntry) :
    (∀ e, bestMatch key l = some e → e ∈ l ∧ matchesKey key e = true) ∧
      (bestMatch key l = none → ∀ e ∈ l, matchesKey key e = false) := by
  unfold bestMatch
  induction l using reverseRecOn with
  | nil => simp
  | append_singleton l e ih =>
    rw [foldl_append]
    simp only [foldl_cons, foldl_nil]
    split <;> grind

/-- Where nothing wraps the match is right. -/
theorem matchesKey_iff {e : MrCacheEntry} (hkey : key.addr + key.size < 2 ^ 64)
    (he : e.key.addr + e.key.size < 2 ^ 64) : matchesKey key e = true ↔ Covers e.key key := by
  simp only [matchesKey, containsRange, Covers, Nat.mod_eq_of_lt hkey, Nat.mod_eq_of_lt he]
  grind

/-- A new count leaves the other entries and their keys. -/
theorem kept_map {l : List MrCacheEntry} {reg : Option MrCacheKey} {m mr : ℕ} {f : ℕ → ℕ}
    (h : ∃ e ∈ l, e.mr = m ∧ reg = some e.key) :
    ∃ e ∈ l.map fun e => if e.mr = mr then { e with refs := f e.refs } else e, e.mr = m ∧ reg = some e.key := by
  obtain ⟨e, he, hem, hkey⟩ := h
  refine ⟨_, mem_map_of_mem he, ?_⟩
  split <;> exact ⟨hem, hkey⟩

/-- An entry is shared, or a new one is put in the place of one with its key. -/
theorem acquire_inv (h : Inv s) (hkey : key.addr + key.size < 2 ^ 64) (registers : Bool) :
    Inv (acquireCachedMr s key registers) := by
  obtain ⟨hsome, hnone⟩ := bestMatch_spec key s.mrCache
  unfold acquireCachedMr
  split
  · next best hbest =>
    obtain ⟨hmem, hmatch⟩ := hsome best hbest
    obtain ⟨hheld, hreg, hwrap⟩ := h.entry best hmem
    have hcovers := (matchesKey_iff hkey hwrap).mp hmatch
    refine ⟨⟨?_, ?_, ?_, ?_⟩, ?_, ?_⟩
    · grind [h.covers]
    · grind [h.refs]
    · exact forall_mem_cons.mpr ⟨kept_map (h.kept _ hheld), fun m hm => kept_map (h.kept m hm)⟩
    · grind [h.deregistered]
    · simpa [Function.comp_def, apply_ite MrCacheEntry.key] using h.keys
    · grind [h.entry]
  · next hbest =>
    split
    · -- an entry with this key would have been found
      have hself : s.mrCache.filter (·.key ≠ key) = s.mrCache := by
        refine filter_eq_self.mpr fun e he => decide_eq_true fun heq => ?_
        have hno := hnone hbest e he
        rw [(matchesKey_iff hkey (h.entry e he).2.2).mpr (heq ▸ Covers.refl e.key)] at hno
        cases hno
      have hfresh : ∀ mr ∈ s.handles, mr < s.regs.length := by grind [h.kept]
      have hget : (s.regs ++ [key])[s.regs.length]? = some key := getElem?_concat_length
      have hold : ∀ (mr : ℕ) k, s.regs[mr]? = some k → (s.regs ++ [key])[mr]? = some k := by grind
      rw [hself]
      refine ⟨⟨?_, ?_, ?_, ?_⟩, ?_, ?_⟩
      · exact forall_mem_cons.mpr ⟨⟨key, hget, Covers.refl key⟩, fun r hr =>
          (h.covers r hr).imp fun k hk => ⟨hold _ k hk.1, hk.2⟩⟩
      · grind [h.refs, h.entry]
      · refine forall_mem_cons.mpr ⟨⟨_, mem_cons_self, rfl, hget⟩, fun m hm => ?_⟩
        obtain ⟨e, he, hem, hreg⟩ := h.kept m hm
        exact ⟨e, mem_cons_of_mem _ he, hem, hold m _ hreg⟩
      · grind [h.deregistered]
      · grind [h.keys]
      · grind [h.entry]
    · exact h

/-- The last handle takes the entry with it. -/
theorem release_inv (h : Inv s) {mr : ℕ} (hmr : mr ∈ s.handles) :
    Inv { releaseCachedMr s mr with handles := s.handles.erase mr } := by
  obtain ⟨entry, hentry, rfl, hreg⟩ := h.kept mr hmr
  have hfind : s.mrCache.find? (fun e => s.regs[entry.mr]? = some e.key) = some entry := by
    cases hf : s.mrCache.find? (fun e => s.regs[entry.mr]? = some e.key) with
    | none => exact absurd (decide_eq_true hreg) (find?_eq_none.mp hf entry hentry)
    | some it =>
      have hit : s.regs[entry.mr]? = some it.key := by simpa using find?_some hf
      rw [inj_on_of_nodup_map h.keys (mem_of_find?_eq_some hf) hentry (Option.some.inj (hit.symm.trans hreg))]
  have hrefs := h.refs entry hentry
  have hmem : ∀ m, m ∈ s.handles.erase entry.mr ↔ m ∈ s.handles ∧ (m = entry.mr → entry.refs - 1 ≠ 0) := by
    intro m
    rw [← count_pos_iff, count_erase]
    grind
  simp only [releaseCachedMr, hfind, ne_eq, not_true_eq_false, if_false]
  split
  · refine ⟨⟨h.covers, ?_, ?_, ?_⟩, ?_, ?_⟩
    · grind [h.refs]
    · grind [h.kept]
    · grind [h.deregistered]
    · exact h.keys.sublist (filter_sublist.map _)
    · grind [h.entry]
  · refine ⟨⟨h.covers, ?_, ?_, ?_⟩, ?_, ?_⟩
    · grind [h.refs]
    · exact fun m hm => kept_map (f := (· - 1)) (h.kept m ((hmem m).mp hm).1)
    · grind [h.deregistered]
    · simpa [Function.comp_def, apply_ite MrCacheEntry.key] using h.keys
    · grind [h.entry]

theorem Inv.init : Inv {} := by
  refine ⟨⟨?_, ?_, ?_, ?_⟩, ?_, ?_⟩ <;> simp

/-- **ONE STEP**: a rehash only moves entries. -/
theorem step_inv {a : Action} (h : Inv s) (hwrap : NoWrap s a) (hstep : step s a = .ok s') : Inv s' := by
  cases a with
  | acquire key registers =>
    cases hstep
    exact acquire_inv h hwrap registers
  | release mr =>
    simp only [step] at hstep
    split at hstep
    · next hmr =>
      cases hstep
      exact release_inv h hmr
    · cases hstep
  | rehash mrCache =>
    simp only [step] at hstep
    split at hstep
    · next hperm =>
      cases hstep
      refine ⟨⟨h.covers, ?_, ?_, h.deregistered⟩, ?_, ?_⟩
      · exact fun e he => h.refs e (hperm.mem_iff.mp he)
      · simpa [hperm.mem_iff] using h.kept
      · exact (hperm.map _).nodup_iff.mpr h.keys
      · exact fun e he => h.entry e (hperm.mem_iff.mp he)
    · cases hstep

/-- **THE CACHE IS SOUND** after every run of calls, in whatever order the map is read. -/
theorem mrCache_sound {as : List Action} (hwrap : Along step NoWrap {} as) (hrun : runFrom step {} as = .ok s) :
    Sound s :=
  (runFrom_invariant_along (fun _ _ _ hi hg hst => step_inv hi hg hst) Inv.init hwrap hrun).toSound

instance (s : Context) (a : Action) : Decidable (NoWrap s a) := by
  cases a <;> unfold NoWrap <;> infer_instance

/-- A part of a range shares its registration, and the whole of it is released first. -/
theorem mrCache_sound_shared : ∃ s, runFrom step {}
      [.acquire ⟨0, 64, true, false⟩ true, .acquire ⟨16, 8, true, false⟩ true, .release 0, .release 0] = .ok s ∧
    s.regs.length = 1 ∧ s.deregs = [0] ∧ Sound s := by
  refine exists_run_of_guarded (G := NoWrap) (fun s => s.regs.length = 1 ∧ s.deregs = [0]) ?_
    fun s hwrap hrun hs => ⟨hs.1, hs.2, mrCache_sound hwrap hrun⟩
  decide +kernel

end P2pMrCache
