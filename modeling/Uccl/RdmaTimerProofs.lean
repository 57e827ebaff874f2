import Mathlib.Data.List.Perm.Basic

/-! # The retransmission timer queue

    `TimerManager` (util_timer.h) is a binary heap of timers ordered by expiry and, beside it, a map from a flow to
    the position of its timer in the heap. Every routine that moves a node must also move the map entry.

    `Indexed` is the agreement of the two structures: the map sends `f` to `i` EXACTLY when the node at `i` belongs
    to `f`. It is kept by every operation, and each operation's effect on the set of armed flows is one lemma
    (`isArmed_armTimer`, `isArmed_disarmTimer`, `checkExpired_spec`). -/

namespace RdmaTimer

open Function List Option

variable {F : Type} [DecidableEq F]

/-- `TimerNode`: an expiry in cycles and the flow it belongs to. -/
structure TimerNode (F : Type) where
  expire : ℕ
  flow : F

/-- `TimerManager`: the heap, the position map and the constant timeout. -/
structure TimerManager (F : Type) where
  heap : List (TimerNode F)
  flowMap : F → Option ℕ
  timeout : ℕ

open TimerManager

/-- A manager without timers. -/
def TimerManager.init (F : Type) (timeout : ℕ) : TimerManager F :=
  { heap := [], flowMap := fun _ => none, timeout := timeout }

/-- `heap_[i] < heap_[j]`. -/
def nodeLt (t : TimerManager F) (i j : ℕ) : Bool :=
  match t.heap[i]?, t.heap[j]? with
  | some x, some y => decide (x.expire < y.expire)
  | _, _ => false

/-- `swap_nodes`: exchange two nodes and record both new positions. -/
def swapNodes (t : TimerManager F) (a b : ℕ) : TimerManager F :=
  match t.heap[a]?, t.heap[b]? with
  | some x, some y =>
    { t with
      heap := (t.heap.set a y).set b x
      flowMap := Function.update (Function.update t.flowMap y.flow (some a))
        x.flow (some b) }
  | _, _ => t

/-- `heapify_up`; the index strictly decreases, so `index` itself is enough fuel. -/
def heapifyUpLoop : ℕ → TimerManager F → ℕ → TimerManager F
  | 0, t, _ => t
  | n + 1, t, index =>
    if index > 0 then
      let parent := (index - 1) / 2
      if nodeLt t index parent then heapifyUpLoop n (swapNodes t index parent) parent
      else t
    else t

def heapifyUp (t : TimerManager F) (index : ℕ) : TimerManager F :=
  heapifyUpLoop index t index

/-- The smallest of a node and its two children, as `heapify_down` picks it. -/
def smallestOf (t : TimerManager F) (index : ℕ) : ℕ :=
  let left := 2 * index + 1
  let right := 2 * index + 2
  let smallest := if left < t.heap.length && nodeLt t left index then left else index
  if right < t.heap.length && nodeLt t right smallest then right else smallest

/-- `heapify_down`; the index strictly increases below the heap size. -/
def heapifyDownLoop : ℕ → TimerManager F → ℕ → TimerManager F
  | 0, t, _ => t
  | n + 1, t, index =>
    if smallestOf t index ≠ index then
      heapifyDownLoop n (swapNodes t index (smallestOf t index)) (smallestOf t index)
    else t

def heapifyDown (t : TimerManager F) (index : ℕ) : TimerManager F :=
  heapifyDownLoop t.heap.length t index

/-- `adjust_heap_node`. -/
def adjustHeapNode (t : TimerManager F) (index : ℕ) : TimerManager F :=
  if index > 0 && nodeLt t index ((index - 1) / 2) then heapifyUp t index
  else heapifyDown t index

/-- The "add new timer" tail shared by `arm_timer` and `rearm_timer`. -/
def pushTimer (t : TimerManager F) (f : F) (newExpire : ℕ) : TimerManager F :=
  let t' : TimerManager F :=
    { t with
      heap := t.heap ++ [{ expire := newExpire, flow := f }]
      flowMap := Function.update t.flowMap f (some t.heap.length) }
  heapifyUp t' t.heap.length

/-- `arm_timer` at time `now`: an armed flow keeps its timer. -/
def armTimer (t : TimerManager F) (f : F) (now : ℕ) : TimerManager F :=
  match t.flowMap f with
  | some _ => t
  | none => pushTimer t f (now + t.timeout)

/-- `rearm_timer` at time `now`. -/
def rearmTimer (t : TimerManager F) (f : F) (now : ℕ) : TimerManager F :=
  match t.flowMap f with
  | some index =>
    let t' : TimerManager F :=
      { t with
        heap := t.heap.modify index fun x => { x with expire := now + t.timeout } }
    adjustHeapNode t' index
  | none => pushTimer t f (now + t.timeout)

/-- Overwrite position `index` with the last node and drop the last node: how
    both `check_expired` and `disarm_timer` delete. -/
def moveLastTo (t : TimerManager F) (index : ℕ) : TimerManager F :=
  match t.heap.getLast? with
  | some x =>
    { t with
      heap := (t.heap.set index x).dropLast
      flowMap := Function.update t.flowMap x.flow (some index) }
  | none => t

/-- `disarm_timer`. -/
def disarmTimer (t : TimerManager F) (f : F) : TimerManager F :=
  match t.flowMap f with
  | none => t
  | some index =>
    let t' : TimerManager F := { t with flowMap := Function.update t.flowMap f none }
    if index = t.heap.length - 1 then { t' with heap := t.heap.dropLast }
    else adjustHeapNode (moveLastTo t' index) index

/-- One turn of the loop of `check_expired`: delete the root. -/
def popRoot (t : TimerManager F) (root : TimerNode F) : TimerManager F :=
  let t' : TimerManager F := { t with flowMap := Function.update t.flowMap root.flow none }
  if t.heap.length > 1 then heapifyDown (moveLastTo t' 0) 0
  else { t' with heap := t.heap.dropLast }

/-- The loop of `check_expired`, collecting the expired flows. -/
def checkExpiredLoop (now : ℕ) : ℕ → TimerManager F → List F → List F × TimerManager F
  | 0, t, acc => (acc, t)
  | n + 1, t, acc =>
    match t.heap.head? with
    | none => (acc, t)
    | some root =>
      if root.expire ≤ now then
        checkExpiredLoop now n (popRoot t root) (acc ++ [root.flow])
      else (acc, t)

/-- `check_expired` at time `now`: every turn removes one node. -/
def checkExpired (t : TimerManager F) (now : ℕ) : List F × TimerManager F :=
  checkExpiredLoop now t.heap.length t []

/-- The flow has an entry. -/
def TimerManager.isArmed (t : TimerManager F) (f : F) : Bool := (t.flowMap f).isSome

-- ── The two structures agree

/-- The map sends `f` to `i` exactly when the node at `i` belongs to `f`. -/
def Indexed (t : TimerManager F) : Prop :=
  ∀ f i, t.flowMap f = some i ↔ ∃ x, t.heap[i]? = some x ∧ x.flow = f


section Agreement

variable {t t' t'' : TimerManager F} {f g : F} {i j a b : ℕ} {x y : TimerNode F}

omit [DecidableEq F] in
theorem Indexed.pos (h : Indexed t) (hx : t.heap[i]? = some x) : t.flowMap x.flow = some i := (h _ _).mpr ⟨x, hx, rfl⟩

omit [DecidableEq F] in
/-- Two positions of one flow are the same position. -/
theorem Indexed.unique (h : Indexed t) (hx : t.heap[i]? = some x) (hy : t.heap[j]? = some y)
    (hxy : x.flow = y.flow) : i = j :=
  some.inj ((h.pos hx).symm.trans (hxy ▸ h.pos hy))

omit [DecidableEq F] in
/-- A flow has an entry in the map exactly when it owns a node of the heap. -/
theorem isArmed_iff_mem_heap (h : Indexed t) (f : F) : t.isArmed f = true ↔ ∃ x ∈ t.heap, x.flow = f := by
  unfold isArmed
  rw [isSome_iff_exists]
  constructor
  · rintro ⟨i, hi⟩
    obtain ⟨x, hx, hflow⟩ := (h f i).mp hi
    exact ⟨x, mem_of_getElem? hx, hflow⟩
  · rintro ⟨x, hx, rfl⟩
    obtain ⟨i, hi⟩ := mem_iff_getElem?.mp hx
    exact ⟨i, h.pos hi⟩

omit [DecidableEq F] in
/-- The agreement, said from the heap: every node is where the map says, and there is one for every entry. -/
theorem Indexed.intro (hheap : ∀ i x, t.heap[i]? = some x → t.flowMap x.flow = some i)
    (hmap : ∀ f, t.isArmed f = true → ∃ x ∈ t.heap, x.flow = f) : Indexed t := by
  refine fun f i => ⟨fun hi => ?_, ?_⟩
  · obtain ⟨x, hx, rfl⟩ := hmap f (by rw [isArmed, hi]; rfl)
    obtain ⟨j, hj⟩ := mem_iff_getElem?.mp hx
    exact ⟨x, some.inj ((hheap j x hj).symm.trans hi) ▸ hj, rfl⟩
  · rintro ⟨x, hx, rfl⟩
    exact hheap i x hx

omit [DecidableEq F] in
theorem indexed_init (timeout : ℕ) : Indexed (init F timeout) :=
  Indexed.intro (fun _ _ h => (by cases h)) (fun _ h => (by cases h))

/-- An entry that was set is that of the new flow, or was there before. -/
theorem isArmed_update {o : Option ℕ} {m : F → Option ℕ}
    (h : (update m f o g).isSome = true) : g = f ∨ g ≠ f ∧ (m g).isSome = true := by
  by_cases hgf : g = f
  · exact .inl hgf
  · rw [update_of_ne hgf] at h
    exact .inr ⟨hgf, h⟩

-- ── Swapping

/-- Same agreement, same armed flows, same number of timers: what a rearrangement of the heap guarantees. -/
structure Rearranged (t t' : TimerManager F) : Prop where
  indexed : Indexed t'
  armed : ∀ f, t'.isArmed f = t.isArmed f
  length : t'.heap.length = t.heap.length

omit [DecidableEq F] in
theorem Rearranged.refl (h : Indexed t) : Rearranged t t := ⟨h, fun _ => rfl, rfl⟩

omit [DecidableEq F] in
theorem Rearranged.trans (h1 : Rearranged t t') (h2 : Rearranged t' t'') : Rearranged t t'' :=
  ⟨h2.indexed, fun f => (h2.armed f).trans (h1.armed f), h2.length.trans h1.length⟩

omit [DecidableEq F] in
theorem getElem?_swap {l : List (TimerNode F)} (hx : l[a]? = some x) (hy : l[b]? = some y) (i : ℕ) :
    ((l.set a y).set b x)[i]? = if i = b then some x else if i = a then some y else l[i]? := by
  have ha : a < l.length := (List.getElem?_eq_some_iff.mp hx).1
  have hb : b < l.length := (List.getElem?_eq_some_iff.mp hy).1
  by_cases hib : i = b
  · subst hib; simp [hb]
  · by_cases hia : i = a
    · subst hia; simp [hib, Ne.symm hib, ha]
    · simp [hib, hia, Ne.symm hib, Ne.symm hia]

/-- A swap moves two nodes and their entries. -/
theorem rearranged_swap (h : Indexed t) (hx : t.heap[a]? = some x) (hy : t.heap[b]? = some y) : Rearranged t { t with
      heap := (t.heap.set a y).set b x
      flowMap := update (update t.flowMap y.flow (some a)) x.flow (some b) } := by
  obtain ⟨ha, hax⟩ := List.getElem?_eq_some_iff.mp hx
  obtain ⟨hb, hby⟩ := List.getElem?_eq_some_iff.mp hy
  have hperm : ((t.heap.set a y).set b x).Perm t.heap := by
    rw [← hax, ← hby]
    exact set_set_perm ha hb
  have hi : Indexed { t with
      heap := (t.heap.set a y).set b x
      flowMap := update (update t.flowMap y.flow (some a)) x.flow (some b) } := by
    refine Indexed.intro (fun i z hz => ?_) (fun f hf => ?_)
    · show update (update t.flowMap y.flow (some a)) x.flow (some b) z.flow = some i
      rw [getElem?_swap hx hy] at hz
      split at hz
      · next hib =>
        obtain rfl := some.inj hz
        rw [update_self, hib]
      · next hib =>
        split at hz
        · next hia =>
          obtain rfl := some.inj hz
          have hne : y.flow ≠ x.flow := fun hc => hib (hia.trans (h.unique hx hy hc.symm))
          rw [update_of_ne hne, update_self, hia]
        · next hia =>
          have hnx : z.flow ≠ x.flow := fun hc => hia (h.unique hz hx hc)
          have hny : z.flow ≠ y.flow := fun hc => hib (h.unique hz hy hc)
          rw [update_of_ne hnx, update_of_ne hny]
          exact h.pos hz
    · simp only [hperm.mem_iff]
      rcases isArmed_update hf with rfl | ⟨-, hf⟩
      · exact ⟨x, mem_of_getElem? hx, rfl⟩
      · rcases isArmed_update hf with rfl | ⟨-, hf⟩
        · exact ⟨y, mem_of_getElem? hy, rfl⟩
        · exact (isArmed_iff_mem_heap h f).mp hf
  refine ⟨hi, fun f => Bool.eq_iff_iff.mpr ?_, hperm.length_eq⟩
  rw [isArmed_iff_mem_heap hi, isArmed_iff_mem_heap h]
  simp only [hperm.mem_iff]

theorem rearranged_swapNodes (h : Indexed t) (a b : ℕ) : Rearranged t (swapNodes t a b) := by
  unfold swapNodes
  split
  · next x y hx hy => exact rearranged_swap h hx hy
  · exact Rearranged.refl h

-- ── Sifting

theorem rearranged_heapifyUpLoop (n : ℕ) : ∀ (t : TimerManager F) (index : ℕ), Indexed t →
      Rearranged t (heapifyUpLoop n t index) := by
  induction n with
  | zero => intro t index h; exact Rearranged.refl h
  | succ n ih =>
    intro t index h
    simp only [heapifyUpLoop]
    split
    · split
      · have hs := rearranged_swapNodes h index ((index - 1) / 2)
        exact hs.trans (ih _ _ hs.indexed)
      · exact Rearranged.refl h
    · exact Rearranged.refl h

theorem rearranged_heapifyDownLoop (n : ℕ) : ∀ (t : TimerManager F) (index : ℕ), Indexed t →
      Rearranged t (heapifyDownLoop n t index) := by
  induction n with
  | zero => intro t index h; exact Rearranged.refl h
  | succ n ih =>
    intro t index h
    simp only [heapifyDownLoop]
    split
    · have hs := rearranged_swapNodes h index (smallestOf t index)
      exact hs.trans (ih _ _ hs.indexed)
    · exact Rearranged.refl h

section

variable (h : Indexed t)
include h

theorem rearranged_adjustHeapNode (index : ℕ) : Rearranged t (adjustHeapNode t index) := by
  unfold adjustHeapNode
  split
  · exact rearranged_heapifyUpLoop index t index h
  · exact rearranged_heapifyDownLoop _ t index h

-- ── Arming

/-- A flow without an entry gets a node at the end and an entry for it. -/
theorem indexed_append (hf : t.flowMap f = none) (e : ℕ) : Indexed { t with
      heap := t.heap ++ [{ expire := e, flow := f }]
      flowMap := update t.flowMap f (some t.heap.length) } := by
  refine Indexed.intro (fun i x hx => ?_) (fun g hg => ?_)
  · show update t.flowMap f (some t.heap.length) x.flow = some i
    rw [getElem?_append] at hx
    split at hx
    · have hne : x.flow ≠ f := by
        rintro rfl
        cases hf.symm.trans (h.pos hx)
      rw [update_of_ne hne]
      exact h.pos hx
    · next hlt =>
      rw [getElem?_singleton] at hx
      split at hx
      · obtain rfl := some.inj hx
        rw [update_self, show t.heap.length = i by omega]
      · cases hx
  · rcases isArmed_update hg with rfl | ⟨-, hg⟩
    · exact ⟨_, mem_append_right _ (mem_singleton_self _), rfl⟩
    · obtain ⟨x, hx, hxg⟩ := (isArmed_iff_mem_heap h g).mp hg
      exact ⟨x, mem_append_left _ hx, hxg⟩

theorem pushTimer_spec (hf : t.flowMap f = none) (e : ℕ) : Indexed (pushTimer t f e) ∧
      ∀ g, (pushTimer t f e).isArmed g = (decide (g = f) || t.isArmed g) := by
  have hr := rearranged_heapifyUpLoop t.heap.length _ t.heap.length (indexed_append h hf e)
  refine ⟨hr.indexed, fun g => (hr.armed g).trans ?_⟩
  show (update t.flowMap f (some t.heap.length) g).isSome = _
  by_cases hgf : g = f
  · subst hgf; rw [update_self]; simp
  · rw [update_of_ne hgf]; simp [hgf, isArmed]

theorem indexed_armTimer (f : F) (now : ℕ) : Indexed (armTimer t f now) := by
  unfold armTimer
  split
  · exact h
  · rename_i hf
    exact (pushTimer_spec h hf _).1

/-- Arming adds the flow. -/
theorem isArmed_armTimer (f : F) (now : ℕ) (g : F) :
    (armTimer t f now).isArmed g = (decide (g = f) || t.isArmed g) := by
  unfold armTimer
  split
  · rename_i i hf
    by_cases hgf : g = f
    · subst hgf; simp [isArmed, hf]
    · simp [hgf]
  · rename_i hf
    exact (pushTimer_spec h hf _).2 g

omit [DecidableEq F] in
/-- Rewriting an expiry moves no node. -/
theorem indexed_modify (index e : ℕ) :
    Indexed { t with heap := t.heap.modify index fun x => { x with expire := e } } := by
  have hflow : ∀ i : ℕ, (t.heap.modify index fun x => { x with expire := e })[i]?.map TimerNode.flow =
      t.heap[i]?.map TimerNode.flow := by
    intro i
    rw [getElem?_modify]
    split
    · rw [Option.map_eq_map, Option.map_map]
      rfl
    · rw [Option.map_eq_map, Option.map_id']
  intro f i
  rw [show _ ↔ _ from h f i, ← map_eq_some_iff, ← map_eq_some_iff, ← hflow i]

theorem indexed_rearmTimer (f : F) (now : ℕ) : Indexed (rearmTimer t f now) := by
  unfold rearmTimer
  split
  · exact (rearranged_adjustHeapNode (indexed_modify h _ _) _).indexed
  · rename_i hf
    exact (pushTimer_spec h hf _).1

/-- Rearming adds the flow, or keeps it. -/
theorem isArmed_rearmTimer (f : F) (now : ℕ) (g : F) :
    (rearmTimer t f now).isArmed g = (decide (g = f) || t.isArmed g) := by
  unfold rearmTimer
  split
  · rename_i i hf
    rw [(rearranged_adjustHeapNode (indexed_modify h i (now + t.timeout)) i).armed g]
    show t.isArmed g = _
    by_cases hgf : g = f
    · subst hgf; simp [isArmed, hf]
    · simp [hgf]
  · rename_i hf
    exact (pushTimer_spec h hf _).2 g

end

-- ── Deleting

/-- What deleting the timer of `f` guarantees. -/
structure Removed (t : TimerManager F) (f : F) (t' : TimerManager F) : Prop where
  indexed : Indexed t'
  armed : ∀ g, t'.isArmed g = (decide (g ≠ f) && t.isArmed g)
  length : t'.heap.length + 1 = t.heap.length

theorem Removed.rearranged (h : Removed t f t') (hr : Rearranged t' t'') : Removed t f t'' :=
  ⟨hr.indexed, fun g => (hr.armed g).trans (h.armed g), by rw [hr.length]; exact h.length⟩

/-- A node goes, with the entry of its flow. -/
theorem Removed.of_perm (h : Indexed t) (hp : t.heap.Perm (x :: t'.heap)) (hf : t'.flowMap x.flow = none)
    (hheap : ∀ i y, t'.heap[i]? = some y → t'.flowMap y.flow = some i)
    (hmap : ∀ g, t'.isArmed g = true → g ≠ x.flow → (∃ y ∈ t'.heap, y.flow = g) ∨ t.isArmed g = true) :
    Removed t x.flow t' := by
  have hstay : ∀ g, g ≠ x.flow → t.isArmed g = true → ∃ y ∈ t'.heap, y.flow = g := by
    intro g hg harmed
    obtain ⟨y, hy, rfl⟩ := (isArmed_iff_mem_heap h g).mp harmed
    rcases mem_cons.mp (hp.mem_iff.mp hy) with rfl | hy
    · exact absurd rfl hg
    · exact ⟨y, hy, rfl⟩
  have hnot : t'.isArmed x.flow = false := by rw [isArmed, hf]; rfl
  have h' : Indexed t' := by
    refine Indexed.intro hheap fun g hg => ?_
    have hne : g ≠ x.flow := by
      rintro rfl
      cases hnot.symm.trans hg
    exact (hmap g hg hne).elim id (hstay g hne)
  refine ⟨h', fun g => ?_, hp.length_eq.symm⟩
  by_cases hg : g = x.flow
  · rw [hg, hnot, decide_eq_false (not_not.mpr rfl), Bool.false_and]
  · rw [decide_eq_true hg, Bool.eq_iff_iff]
    refine ⟨fun hi => ?_, fun hi => (isArmed_iff_mem_heap h' g).mpr (hstay g hg hi)⟩
    obtain ⟨y, hy, hyg⟩ := (isArmed_iff_mem_heap h' g).mp hi
    exact (isArmed_iff_mem_heap h g).mpr ⟨y, hp.mem_iff.mpr (mem_cons_of_mem x hy), hyg⟩

omit [DecidableEq F] in
/-- The flows before the last are others than its own. -/
theorem Indexed.before_last {d : List (TimerNode F)} {flowMap : F → Option ℕ} {timeout : ℕ}
    (h : Indexed ⟨d ++ [y], flowMap, timeout⟩) (hx : d[j]? = some x) : (d ++ [y])[j]? = some x ∧ x.flow ≠ y.flow := by
  have hlt : j < d.length := (List.getElem?_eq_some_iff.mp hx).1
  have hin : (d ++ [y])[j]? = some x := (getElem?_append_left hlt).trans hx
  exact ⟨hin, fun hc => Nat.ne_of_lt hlt (h.unique hin getElem?_concat_length hc)⟩

section

variable (h : Indexed t)
include h

/-- Deleting the last node. -/
theorem removed_last (hf : t.flowMap f = some i) (hi : i = t.heap.length - 1) : Removed t f { t with
      flowMap := update t.flowMap f none
      heap := t.heap.dropLast } := by
  obtain ⟨x, hx, rfl⟩ := (h f i).mp hf
  obtain ⟨heap, flowMap, timeout⟩ := t
  rw [hi, ← getLast?_eq_getElem?, getLast?_eq_some_iff] at hx
  obtain ⟨d, rfl⟩ := hx
  rw [dropLast_concat]
  refine Removed.of_perm h (perm_append_singleton x d) (update_self ..)
    (fun j y hy => ?_) (fun g hg hne => .inr ((isArmed_update hg).resolve_left hne).2)
  obtain ⟨hin, hne⟩ := h.before_last hy
  exact (update_of_ne hne _ _).trans (h.pos hin)

/-- Deleting an inner node by moving the last one into its place. -/
theorem removed_moveLastTo (hf : t.flowMap f = some i) (hi : i ≠ t.heap.length - 1) :
    Removed t f (moveLastTo { t with flowMap := update t.flowMap f none } i) := by
  obtain ⟨x, hx, rfl⟩ := (h f i).mp hf
  obtain ⟨heap, flowMap, timeout⟩ := t
  have hlt : i < heap.length := (List.getElem?_eq_some_iff.mp hx).1
  obtain ⟨d, y, rfl⟩ : ∃ d y, heap = d ++ [y] := by
    rcases eq_nil_or_concat heap with rfl | ⟨d, y, hd⟩
    · cases hlt
    · exact ⟨d, y, hd.trans (concat_eq_append ..)⟩
  rw [length_append, length_singleton] at hlt
  have hid : i < d.length := by
    have hne : i ≠ d.length := by simpa using hi
    omega
  have hmove : moveLastTo ⟨d ++ [y], update flowMap x.flow none, timeout⟩ i =
      ⟨d.set i y, update (update flowMap x.flow none) y.flow (some i), timeout⟩ := by
    simp only [moveLastTo, getLast?_concat, set_append_left _ _ hid, dropLast_concat]
  have hxd : d[i]? = some x := (getElem?_append_left hid).symm.trans hx
  have hperm : (d ++ [y]).Perm (x :: d.set i y) := by
    obtain ⟨-, rfl⟩ := List.getElem?_eq_some_iff.mp hxd
    calc (d ++ [y]).Perm (y :: d) := perm_append_singleton y d
      _ |>.Perm (y :: d[i] :: d.eraseIdx i) := (getElem_cons_eraseIdx_perm hid).symm.cons y
      _ |>.Perm (d[i] :: y :: d.eraseIdx i) := List.Perm.swap ..
      _ |>.Perm (d[i] :: d.set i y) := (set_perm_cons_eraseIdx hid y).symm.cons _
  rw [hmove]
  refine Removed.of_perm h hperm ?_ (fun j z hz => ?_) (fun g hg hne => ?_)
  · exact (update_of_ne (h.before_last hxd).2 _ _).trans (update_self ..)
  · show update (update flowMap x.flow none) y.flow (some i) z.flow = some j
    rw [getElem?_set] at hz
    split at hz
    · next hij =>
      rw [← some.inj hz, update_self, hij]
    · next hij =>
      obtain ⟨hin, hny⟩ := h.before_last hz
      have hnx : z.flow ≠ x.flow := fun hc => hij (h.unique hin hx hc).symm
      rw [update_of_ne hny, update_of_ne hnx]
      exact h.pos hin
  · rcases isArmed_update hg with rfl | ⟨-, hg⟩
    · exact .inl ⟨y, mem_set hid y, rfl⟩
    · rw [update_of_ne hne] at hg
      exact .inr hg

/-- Disarming an armed flow removes its timer. -/
theorem removed_disarmTimer (hf : t.flowMap f = some i) : Removed t f (disarmTimer t f) := by
  unfold disarmTimer
  rw [hf]
  by_cases hi : i = t.heap.length - 1
  · simp only [if_pos hi]
    exact removed_last h hf hi
  · simp only [if_neg hi]
    have hm := removed_moveLastTo h hf hi
    exact hm.rearranged (rearranged_adjustHeapNode hm.indexed i)

theorem indexed_disarmTimer (f : F) : Indexed (disarmTimer t f) := by
  cases hf : t.flowMap f with
  | none => unfold disarmTimer; rw [hf]; exact h
  | some i => exact (removed_disarmTimer h hf).indexed

/-- Disarming removes the flow and nobody else. -/
theorem isArmed_disarmTimer (f g : F) : (disarmTimer t f).isArmed g = (decide (g ≠ f) && t.isArmed g) := by
  cases hf : t.flowMap f with
  | none =>
    unfold disarmTimer
    rw [hf]
    by_cases hgf : g = f
    · subst hgf; simp [isArmed, hf]
    · simp [hgf]
  | some i => exact (removed_disarmTimer h hf).armed g

-- ── Expiry

/-- Popping the root removes its flow's timer. -/
theorem removed_popRoot {root : TimerNode F} (hroot : t.heap[0]? = some root) :
    Removed t root.flow (popRoot t root) := by
  have hf : t.flowMap root.flow = some 0 := h.pos hroot
  unfold popRoot
  by_cases hlen : t.heap.length > 1
  · simp only [if_pos hlen]
    have hm := removed_moveLastTo h hf (by omega)
    exact hm.rearranged (rearranged_heapifyDownLoop _ _ 0 hm.indexed)
  · simp only [if_neg hlen]
    exact removed_last h hf (by omega)

end

/-- What taking timers out guarantees: the flows that are returned were armed, each is
    returned once, and they alone are no longer armed. -/
structure Drained (t t' : TimerManager F) (out : List F) : Prop where
  indexed : Indexed t'
  nodup : out.Nodup
  due : ∀ g ∈ out, t.isArmed g = true
  armed : ∀ g, t'.isArmed g = (decide (g ∉ out) && t.isArmed g)

theorem Drained.refl (h : Indexed t) : Drained t t [] := ⟨h, nodup_nil, by simp, by simp⟩

/-- One timer is taken out, and then others. -/
theorem Drained.cons {out : List F} (hr : Removed t f t') (hf : t.isArmed f = true)
    (hd : Drained t' t'' out) : Drained t t'' (f :: out) := by
  refine ⟨hd.indexed, nodup_cons.mpr ⟨fun hmem => ?_, hd.nodup⟩, fun g hg => ?_, fun g => ?_⟩
  · have h1 := hd.due f hmem
    rw [hr.armed] at h1
    simp at h1
  · rcases mem_cons.mp hg with rfl | hg
    · exact hf
    · have h1 := hd.due g hg
      rw [hr.armed, Bool.and_eq_true] at h1
      exact h1.2
  · rw [hd.armed g, hr.armed g]
    by_cases hgf : g = f
    · subst hgf; simp
    · simp [hgf]

/-- The expiry loop takes timers out, root by root. -/
theorem checkExpiredLoop_spec (now n : ℕ) : ∀ (t : TimerManager F) (acc : List F), Indexed t →
      ∃ out, (checkExpiredLoop now n t acc).1 = acc ++ out ∧ Drained t (checkExpiredLoop now n t acc).2 out := by
  induction n with
  | zero =>
    intro t acc h
    exact ⟨[], (append_nil acc).symm, Drained.refl h⟩
  | succ n ih =>
    intro t acc h
    cases hroot : t.heap.head? with
    | none =>
      simp only [checkExpiredLoop, hroot]
      exact ⟨[], (append_nil acc).symm, Drained.refl h⟩
    | some root =>
      have hroot0 : t.heap[0]? = some root := head?_eq_getElem?.symm.trans hroot
      simp only [checkExpiredLoop, hroot]
      by_cases hexp : root.expire ≤ now
      · rw [if_pos hexp]
        have hr := removed_popRoot h hroot0
        obtain ⟨out, heq, hd⟩ := ih (popRoot t root) (acc ++ [root.flow]) hr.indexed
        refine ⟨root.flow :: out, ?_, Drained.cons hr ?_ hd⟩
        · rw [heq, append_assoc, singleton_append]
        · exact (isArmed_iff_mem_heap h _).mpr ⟨root, mem_of_getElem? hroot0, rfl⟩
      · rw [if_neg hexp]
        exact ⟨[], (append_nil acc).symm, Drained.refl h⟩

/-- **EXPIRY IS DISARMING**: `check_expired` returns armed flows, each once, and
    leaves exactly the other armed flows armed. -/
theorem checkExpired_spec (h : Indexed t) (now : ℕ) : Indexed (checkExpired t now).2 ∧ (checkExpired t now).1.Nodup ∧
      (∀ g ∈ (checkExpired t now).1, t.isArmed g = true) ∧
      ∀ g, (checkExpired t now).2.isArmed g = (decide (g ∉ (checkExpired t now).1) && t.isArmed g) := by
  obtain ⟨out, heq, hd⟩ := checkExpiredLoop_spec now t.heap.length t [] h
  rw [show (checkExpired t now).1 = out from heq]
  exact ⟨hd.indexed, hd.nodup, hd.due, hd.armed⟩

end Agreement

-- ── Every sequence of calls

inductive Call (F : Type)
  | arm (f : F) (now : ℕ)
  | rearm (f : F) (now : ℕ)
  | disarm (f : F)
  | check (now : ℕ)

/-- The calls keep the set of armed flows, and an expiry is of flows in it that it takes out. -/
def Refines : TimerManager F → (F → Prop) → List (Call F) → Prop
  | t, armed, [] => Indexed t ∧ ∀ g, t.isArmed g = true ↔ armed g
  | t, armed, .arm f now :: cs => Refines (armTimer t f now) (fun g => g = f ∨ armed g) cs
  | t, armed, .rearm f now :: cs => Refines (rearmTimer t f now) (fun g => g = f ∨ armed g) cs
  | t, armed, .disarm f :: cs => Refines (disarmTimer t f) (fun g => g ≠ f ∧ armed g) cs
  | t, armed, .check now :: cs => (checkExpired t now).1.Nodup ∧ (∀ g ∈ (checkExpired t now).1, armed g) ∧
      Refines (checkExpired t now).2 (fun g => g ∉ (checkExpired t now).1 ∧ armed g) cs

/-- **THE TIMERS ARE A SET OF FLOWS**, whatever is called in whatever order. -/
theorem timers_refine (timeout : ℕ) (cs : List (Call F)) : Refines (.init F timeout) (fun _ => False) cs := by
  have hrun : ∀ (t : TimerManager F) (armed : F → Prop), Indexed t → (∀ g, t.isArmed g = true ↔ armed g) →
      Refines t armed cs := by
    induction cs with
    | nil => exact fun t armed hi ha => ⟨hi, ha⟩
    | cons c cs ih =>
      intro t armed hi ha
      cases c with
      | arm f now => exact ih _ _ (indexed_armTimer hi f now) fun g => by simp [isArmed_armTimer hi, ha]
      | rearm f now => exact ih _ _ (indexed_rearmTimer hi f now) fun g => by simp [isArmed_rearmTimer hi, ha]
      | disarm f => exact ih _ _ (indexed_disarmTimer hi f) fun g => by simp [isArmed_disarmTimer hi, ha]
      | check now =>
        obtain ⟨hi', hnodup, hdue, harmed⟩ := checkExpired_spec hi now
        exact ⟨hnodup, fun g hg => (ha g).mp (hdue g hg), ih _ _ hi' fun g => by simp [harmed, ha]⟩
  exact hrun _ _ (indexed_init timeout) fun g => by simp [isArmed, init]

end RdmaTimer
