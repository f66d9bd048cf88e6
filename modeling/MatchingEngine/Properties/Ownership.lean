import MatchingEngine.Machine.Runs
import MatchingEngine.Verification.Ownership
import Mathlib.Data.List.Count

/-!
# No slot has two owners

A client calls the pool with any indices and writes anything into the slots it
holds. The history beside the pool records what the pool's own counters claim to
record: which slots were handed out, the highest number of live slots, and how
many slots were released by chain frees that faulted part-way.
-/

namespace Hft

open Machine Machine.Checked

namespace MemoryPool

variable {env : Env} {p q : MemoryPool} {free lost freed : List Nat} {i s head tail fuel cur : Nat}

/-- The slots whose flag is set. -/
def liveSlots (p : MemoryPool) : List Nat :=
  (List.range p.capacity).filter (fun i => p.allocated[i]? == some true)

theorem Stamps.length_liveSlots (h : p.Stamps freed) :
    p.liveSlots.length = p.liveCount := by
  have hflag : ∀ i ∈ List.range p.capacity,
      (p.allocated[i]? == some true) = !decide (i ∈ freed) := by
    intro i hi
    rw [h.flags i (List.mem_range.mp hi)]
    by_cases hmem : i ∈ freed <;> simp [hmem]
  have hfreed : ((List.range p.capacity).filter (fun i => decide (i ∈ freed))).Perm freed := by
    refine (List.perm_ext_iff_of_nodup (List.nodup_range.filter _) h.nodup).mpr (fun i => ?_)
    simp only [List.mem_filter, List.mem_range, decide_eq_true_eq, and_iff_right_iff_imp]
    exact h.bound i
  have hsplit : p.capacity = freed.length +
      (List.range p.capacity).countP (fun i => !decide (i ∈ freed)) := by
    calc p.capacity = (List.range p.capacity).length := List.length_range.symm
      _ = (List.range p.capacity).countP (fun i => decide (i ∈ freed)) +
          (List.range p.capacity).countP (fun i => !decide (i ∈ freed)) := by
        rw [List.length_eq_countP_add_countP (fun i => decide (i ∈ freed))]
        simp
      _ = _ := by rw [List.countP_eq_length_filter, hfreed.length_eq]
  have hlive := h.live
  rw [liveSlots, List.filter_congr hflag, ← List.countP_eq_length_filter]
  omega

/-! ## What a free does to the counters -/

/-- `n` slots were released; nothing was handed out. -/
structure Freed (p q : MemoryPool) (n : Nat) : Prop where
  live : q.liveCount + n = p.liveCount
  frees : q.totalFrees % 2 ^ 64 = (p.totalFrees + n) % 2 ^ 64
  bound : p.totalFrees < 2 ^ 64 → q.totalFrees < 2 ^ 64
  allocs : q.totalAllocs = p.totalAllocs
  highWater : q.highWater = p.highWater
  generations : q.slotGeneration = p.slotGeneration
  capacity : q.capacity = p.capacity

theorem Freed.trans {r : MemoryPool} {m n : Nat} (h : p.Freed q m) (h' : q.Freed r n) :
    p.Freed r (m + n) := by
  have hlive := h.live
  have hlive' := h'.live
  refine ⟨by omega, ?_, h'.bound ∘ h.bound, h'.allocs.trans h.allocs,
    h'.highWater.trans h.highWater, h'.generations.trans h.generations,
    h'.capacity.trans h.capacity⟩
  rw [h'.frees, Nat.add_mod, h.frees, ← Nat.add_mod, Nat.add_assoc]

theorem Freed.refl (p : MemoryPool) : p.Freed p 0 := ⟨rfl, rfl, id, rfl, rfl, rfl, rfl⟩

theorem stampFree_freed (h : p.stampFree s = .ok q) : p.Freed q 1 := by
  obtain ⟨allocated, -, h⟩ := bind_eq_ok_iff.mp h
  obtain ⟨slotState, -, h⟩ := bind_eq_ok_iff.mp h
  obtain ⟨live, hlive, h⟩ := bind_eq_ok_iff.mp h
  obtain ⟨pool, -, h⟩ := bind_eq_ok_iff.mp h
  cases h
  rw [checkedSub] at hlive
  split at hlive
  · rename_i hle
    cases hlive
    exact ⟨Nat.sub_add_cancel hle, Nat.mod_mod _ _, fun _ => Nat.mod_lt _ (by decide), rfl, rfl,
      rfl, rfl⟩
  · cases hlive

theorem pushFree_freed {linked : Nat} (h : p.pushFree linked head = .ok q) : p.Freed q 0 := by
  obtain ⟨p', hlink, h⟩ := bind_eq_ok_iff.mp h
  obtain ⟨pool, -, hp'⟩ := bind_eq_ok_iff.mp hlink
  cases hp'
  cases h
  exact ⟨rfl, rfl, id, rfl, rfl, rfl, rfl⟩

theorem poolFault_freed {message : String} (h : poolFault env p message i = .ok q) :
    p.Freed q 0 := by
  rw [poolFault] at h
  split at h
  · split at h
    · cases h
      exact ⟨rfl, rfl, id, rfl, rfl, rfl, rfl⟩
    · cases h
  · cases h

theorem releaseChain_freed {reached : Bool}
    (h : releaseChain env tail fuel cur p = .ok (reached, q)) : ∃ n, p.Freed q n := by
  induction fuel generalizing cur p with
  | zero => cases h
  | succ fuel ih =>
      obtain ⟨live, -, h⟩ := bind_eq_ok_iff.mp h
      split at h
      · obtain ⟨p', hfree, h⟩ := bind_eq_ok_iff.mp h
        have hfirst := stampFree_freed hfree
        split at h
        · cases h
          exact ⟨1, hfirst⟩
        · obtain ⟨slot, -, h⟩ := bind_eq_ok_iff.mp h
          simp only at h
          split at h
          · obtain ⟨p'', hfault, h⟩ := bind_eq_ok_iff.mp h
            cases h
            exact ⟨1 + 0, hfirst.trans (poolFault_freed hfault)⟩
          · obtain ⟨n, hrest⟩ := ih h
            exact ⟨1 + n, hfirst.trans hrest⟩
      · obtain ⟨p', hfault, h⟩ := bind_eq_ok_iff.mp h
        cases h
        exact ⟨0, poolFault_freed hfault⟩

theorem deallocate_freed (htools : env.debugTools = true) (h : p.deallocate env s = .ok q) :
    ∃ n, p.Freed q n := by
  rw [deallocate, if_pos htools] at h
  split at h
  · exact ⟨0, poolFault_freed h⟩
  · obtain ⟨live, -, h⟩ := bind_eq_ok_iff.mp h
    split at h
    · obtain ⟨p', hfree, h⟩ := bind_eq_ok_iff.mp h
      exact ⟨1 + 0, (stampFree_freed hfree).trans (pushFree_freed h)⟩
    · exact ⟨0, poolFault_freed h⟩

theorem deallocateChain_freed (htools : env.debugTools = true)
    (h : p.deallocateChain env head tail = .ok q) : ∃ n, p.Freed q n := by
  rw [deallocateChain, if_pos htools] at h
  split at h
  · exact ⟨0, poolFault_freed h⟩
  · obtain ⟨⟨reached, p'⟩, hwalk, h⟩ := bind_eq_ok_iff.mp h
    obtain ⟨n, hfirst⟩ := releaseChain_freed hwalk
    cases reached with
    | true => exact ⟨n + 0, hfirst.trans (pushFree_freed h)⟩
    | false =>
        cases h
        exact ⟨n, hfirst⟩

/-- What handing out `s` does to the counters. -/
theorem stampLive_counts (h : p.stampLive s = .ok q) : ∃ generation,
    p.slotGeneration[s]? = some generation ∧
    q.slotGeneration = p.slotGeneration.setIfInBounds s ((generation + 1) % 2 ^ 8) ∧
    q.totalAllocs = (p.totalAllocs + 1) % 2 ^ 64 ∧ q.totalFrees = p.totalFrees ∧
    q.liveCount = p.liveCount + 1 ∧ q.highWater = max p.highWater q.liveCount ∧
    q.capacity = p.capacity := by
  obtain ⟨allocated, -, h⟩ := bind_eq_ok_iff.mp h
  obtain ⟨slotState, -, h⟩ := bind_eq_ok_iff.mp h
  obtain ⟨generation, hgeneration, h⟩ := bind_eq_ok_iff.mp h
  obtain ⟨slotGeneration, hset, h⟩ := bind_eq_ok_iff.mp h
  obtain ⟨live, hlive, h⟩ := bind_eq_ok_iff.mp h
  obtain ⟨pool, -, h⟩ := bind_eq_ok_iff.mp h
  cases h
  rw [checkedAdd] at hlive
  split at hlive
  · cases hlive
    refine ⟨generation, vecRead_eq_ok_iff.mp hgeneration, (vecWrite_eq_ok_iff.mp hset).2.symm, rfl,
      rfl, rfl, ?_, rfl⟩
    show (if p.liveCount + 1 > p.highWater then p.liveCount + 1 else p.highWater) =
      max p.highWater (p.liveCount + 1)
    split <;> omega
  · cases hlive

theorem allocate_counts (htools : env.debugTools = true) (h : p.allocate env = .ok (s, q))
    (hvalid : s ≠ INVALID_INDEX) : ∃ generation, p.slotGeneration[s]? = some generation ∧
    q.slotGeneration = p.slotGeneration.setIfInBounds s ((generation + 1) % 2 ^ 8) ∧
    q.totalAllocs = (p.totalAllocs + 1) % 2 ^ 64 ∧ q.totalFrees = p.totalFrees ∧
    q.liveCount = p.liveCount + 1 ∧ q.highWater = max p.highWater q.liveCount ∧
    q.capacity = p.capacity := by
  rw [allocate] at h
  split at h
  · cases h
    exact absurd rfl hvalid
  · obtain ⟨o, -, h⟩ := bind_eq_ok_iff.mp h
    obtain ⟨q', hstamp, h⟩ := bind_eq_ok_iff.mp h
    cases h
    have hcounts := stampLive_counts hstamp
    exact hcounts

/-! ## Calls that fault leave the ownership alone -/

theorem Guarded.reported (h : p.Guarded env free lost) (fault : PoolFault) :
    ({ p with reports := p.reports ++ [fault] } : MemoryPool).Guarded env free lost :=
  ⟨⟨h.size, h.capacity_le, h.path, h.nodup, h.bound⟩,
    fun ht => (h.stamps ht).congr rfl rfl rfl rfl rfl⟩

theorem deallocate_total (skips : env.Skips) (h : p.Guarded env free lost) (s : Nat) :
    (p.deallocate env s).Returns (fun q => ∃ free', q.Guarded env free' lost) := by
  by_cases hs : s < p.capacity
  · by_cases hlive : s ∈ free ++ lost
    · have hnot : ¬decide (s ∉ free ++ lost) = true := fun hd => of_decide_eq_true hd hlive
      rw [deallocate, if_pos skips.tools, if_neg (by omega),
        (h.stamps skips.tools).isStampedLive hs, ok_bind, if_neg hnot, poolFault_skips skips]
      exact ⟨free, h.reported _⟩
    · refine (deallocate_guarded h hs hlive).mono ?_
      rintro q ⟨hq, -⟩
      exact ⟨s :: free, hq⟩
  · rw [deallocate, if_pos skips.tools, if_pos (by omega), poolFault_skips skips]
    exact ⟨free, h.reported _⟩

/-- What a live slot contains, its links included, is not the pool's business. -/
theorem Guarded.write (h : p.Guarded env free lost) (hs : s ∉ free) (contents : Order) :
    ({ p with pool := p.pool.setIfInBounds s contents } : MemoryPool).Guarded env free lost := by
  refine ⟨⟨?_, h.capacity_le, ?_, h.nodup, h.bound⟩,
    fun ht => (h.stamps ht).congr rfl rfl rfl rfl rfl⟩
  · simpa using h.size
  · refine h.path.congr (fun c hc => nextOf_congr ?_)
    exact Array.getElem?_setIfInBounds_ne (fun e => hs (by rwa [e]))

theorem linkFreeList_frame (h : linkFreeList i p = .ok q) :
    q = { p with pool := q.pool, freeHead := q.freeHead } := by
  induction i generalizing p with
  | zero =>
      cases h
      rfl
  | succ i ih =>
      obtain ⟨p', hlink, h⟩ := bind_eq_ok_iff.mp h
      obtain ⟨pool, -, hp'⟩ := bind_eq_ok_iff.mp hlink
      cases hp'
      have hframe := ih h
      exact hframe

/-- The counters of a new pool. -/
theorem construct_zeroed {maxCapacity : Nat} (htools : env.debugTools = true)
    (h : construct env maxCapacity = .ok p) :
    p.totalAllocs = 0 ∧ p.totalFrees = 0 ∧ p.liveCount = 0 ∧ p.highWater = 0 ∧
      p.slotGeneration = Array.replicate p.capacity 0 := by
  have hframe := linkFreeList_frame h
  rw [hframe, htools]
  exact ⟨rfl, rfl, rfl, rfl, rfl⟩

end MemoryPool

/-! ## Clients -/

/-- What a client does with a pool. -/
inductive PoolCall
  | allocate
  | deallocate (index : UInt32)
  | deallocateChain (head tail : UInt32)
  | write (index : UInt32) (contents : Order)

/-- A pool and its past: the slots it handed out, in order, the highest number of
live slots so far, and the number of slots that chain frees released and dropped. -/
structure PoolHistory where
  pool : MemoryPool
  handed : List Nat
  peak : Nat
  stranded : Nat

namespace PoolHistory

def start (env : Env) (maxCapacity : Nat) : Checked PoolHistory := do
  let pool ← MemoryPool.construct env maxCapacity
  return { pool, handed := [], peak := 0, stranded := 0 }

/-- The pool after a call, with the highest number of live slots brought up to date. -/
def observe (h : PoolHistory) (pool : MemoryPool) : PoolHistory :=
  { h with pool, peak := max h.peak pool.liveCount }

/-- A client writes only into slots it holds. -/
def step (env : Env) (h : PoolHistory) : PoolCall → Checked PoolHistory
  | .allocate => do
      let (idx, pool) ← h.pool.allocate env
      let handed := if idx = INVALID_INDEX then h.handed else h.handed ++ [idx]
      return { h with handed }.observe pool
  | .deallocate index => do
      let pool ← h.pool.deallocate env index.toNat
      return h.observe pool
  | .deallocateChain head tail => do
      let pool ← h.pool.deallocateChain env head.toNat tail.toNat
      let released := h.pool.liveSlots.length - pool.liveSlots.length
      let stranded := if pool.reports = h.pool.reports then h.stranded else h.stranded + released
      return { h with stranded }.observe pool
  | .write index contents => do
      if ← h.pool.isAllocated env index.toNat then do
        let slots ← vecWrite h.pool.pool index.toNat contents
        return h.observe { h.pool with pool := slots }
      else return h

def run (env : Env) (maxCapacity : Nat) (calls : List PoolCall) : Checked PoolHistory := do
  let h ← start env maxCapacity
  calls.foldlM (step env) h

/-- The counters of the pool tell its past. -/
structure Tallied (h : PoolHistory) : Prop where
  total : (h.pool.liveCount + h.pool.totalFrees) % 2 ^ 64 = h.pool.totalAllocs
  frees : h.pool.totalFrees < 2 ^ 64
  highWater : h.pool.highWater = h.peak
  live_le : h.pool.liveCount ≤ h.peak
  generations : ∀ s < h.pool.capacity, h.pool.slotGeneration[s]? = some (h.handed.count s % 2 ^ 8)

/-- The invariant of a client's run, with the free list and the lost slots. -/
structure Sound (env : Env) (h : PoolHistory) (free lost : List Nat) : Prop where
  guarded : h.pool.Guarded env free lost
  stranded : h.stranded = lost.length
  tallied : h.Tallied

variable {env : Env} {h : PoolHistory} {pool : MemoryPool} {free lost : List Nat} {n : Nat}

/-- Whatever was released, the counters keep telling the past. -/
theorem Tallied.observe (ht : h.Tallied) (hfreed : h.pool.Freed pool n) :
    (h.observe pool).Tallied := by
  have hlive := hfreed.live
  have hle := ht.live_le
  have hpeak : (h.observe pool).peak = h.peak := by
    show max h.peak pool.liveCount = h.peak
    omega
  refine ⟨?_, hfreed.bound ht.frees, ?_, ?_, ?_⟩
  · show (pool.liveCount + pool.totalFrees) % 2 ^ 64 = pool.totalAllocs
    rw [hfreed.allocs, ← ht.total, ← hlive, Nat.add_mod, hfreed.frees, ← Nat.add_mod]
    congr 1
    omega
  · rw [hpeak]
    exact hfreed.highWater.trans ht.highWater
  · rw [hpeak]
    show pool.liveCount ≤ h.peak
    omega
  · show ∀ s < pool.capacity, pool.slotGeneration[s]? = some (h.handed.count s % 2 ^ 8)
    rw [hfreed.capacity, hfreed.generations]
    exact ht.generations

theorem start_sound (env : Env) (htools : env.debugTools = true) (maxCapacity : Nat) :
    (start env maxCapacity).Returns (fun h => ∃ free, h.Sound env free []) := by
  obtain ⟨pool, hpool, hrep, -, -⟩ := returns_iff.mp (MemoryPool.construct_spec env maxCapacity)
  obtain ⟨hallocs, hfrees, hlive, hhigh, hgenerations⟩ :=
    MemoryPool.construct_zeroed htools hpool
  rw [start, hpool, ok_bind]
  refine ⟨_, MemoryPool.guarded_nil_iff.mpr hrep, rfl, ?_, ?_, hhigh, ?_, ?_⟩
  · show (pool.liveCount + pool.totalFrees) % 2 ^ 64 = pool.totalAllocs
    rw [hallocs, hfrees, hlive]
    rfl
  · show pool.totalFrees < 2 ^ 64
    rw [hfrees]
    exact Nat.two_pow_pos 64
  · exact Nat.le_of_eq hlive
  · intro s hs
    show pool.slotGeneration[s]? = _
    rw [hgenerations, Array.getElem?_replicate, if_pos hs]
    rfl

theorem allocate_sound (htools : env.debugTools = true) (hs : h.Sound env free lost) :
    (h.step env .allocate).Returns (fun h' => ∃ free', h'.Sound env free' lost) := by
  have hg := hs.guarded
  cases free with
  | nil =>
      simp only [step, MemoryPool.allocate_exhausted hg.toLinks, ok_bind, if_true]
      exact ⟨[], hg, hs.stranded, hs.tallied.observe (MemoryPool.Freed.refl h.pool)⟩
  | cons s rest =>
      obtain ⟨⟨idx, pool⟩, halloc, rfl, hrest, -⟩ :=
        returns_iff.mp (MemoryPool.allocate_guarded hg)
      have hvalid : idx ≠ INVALID_INDEX :=
        Nat.ne_of_lt (hg.lt_invalid (hg.bound idx List.mem_cons_self))
      obtain ⟨generation, hgeneration, hset, hallocs, hfrees, hlive, hhigh, hcap⟩ :=
        MemoryPool.allocate_counts htools halloc hvalid
      have ht := hs.tallied
      simp only [step, halloc, ok_bind, if_neg hvalid]
      refine ⟨rest, hrest, hs.stranded, ?_, ?_, ?_, ?_, ?_⟩
      · show (pool.liveCount + pool.totalFrees) % 2 ^ 64 = pool.totalAllocs
        rw [hallocs, hlive, hfrees, ← ht.total]
        omega
      · show pool.totalFrees < 2 ^ 64
        rw [hfrees]
        exact ht.frees
      · show pool.highWater = max h.peak pool.liveCount
        rw [hhigh, ht.highWater]
      · exact Nat.le_max_right _ _
      · intro t htlt
        have hlt : t < h.pool.capacity := hcap ▸ htlt
        show pool.slotGeneration[t]? = some ((h.handed ++ [idx]).count t % 2 ^ 8)
        have hbefore := ht.generations t hlt
        rw [hset, Array.getElem?_setIfInBounds, List.count_append]
        by_cases hti : idx = t
        · subst hti
          have hsize := lt_size_of_getElem? hgeneration
          rw [hgeneration] at hbefore
          rw [if_pos rfl, if_pos hsize, Option.some.inj hbefore, List.count_singleton_self,
            Nat.mod_add_mod]
        · rw [if_neg hti, List.count_singleton, if_neg (by simpa using hti), Nat.add_zero]
          exact hbefore

theorem deallocate_sound (skips : env.Skips) (hs : h.Sound env free lost) (index : UInt32) :
    (h.step env (.deallocate index)).Returns (fun h' => ∃ free', h'.Sound env free' lost) := by
  obtain ⟨pool, hpool, free', hfree'⟩ :=
    returns_iff.mp (MemoryPool.deallocate_total skips hs.guarded index.toNat)
  obtain ⟨n, hfreed⟩ := MemoryPool.deallocate_freed skips.tools hpool
  simp only [step, hpool, ok_bind]
  exact ⟨free', hfree', hs.stranded, hs.tallied.observe hfreed⟩

theorem write_sound (htools : env.debugTools = true) (hs : h.Sound env free lost) (index : UInt32)
    (contents : Order) :
    (h.step env (.write index contents)).Returns (fun h' => h'.Sound env free lost) := by
  have hg := hs.guarded
  simp only [step, MemoryPool.isAllocated_eq htools (hg.stamps htools), ok_bind]
  split
  · rename_i hlive
    obtain ⟨hlt, hmem⟩ := of_decide_eq_true hlive
    rw [vecWrite_eq (by rw [hg.size]; exact hlt), ok_bind]
    refine ⟨hg.write (fun hfree => hmem (List.mem_append_left lost hfree)) contents, hs.stranded,
      hs.tallied.observe (n := 0) ⟨rfl, rfl, id, rfl, rfl, rfl, rfl⟩⟩
  · exact hs

/-- A chain free strands exactly the slots it released before it faulted. -/
theorem deallocateChain_sound (skips : env.Skips) (hs : h.Sound env free lost)
    (head tail : UInt32) : (h.step env (.deallocateChain head tail)).Returns
      (fun h' => ∃ free' lost', h'.Sound env free' lost') := by
  have hg := hs.guarded
  have hstamps := hg.stamps skips.tools
  by_cases hchain : ∃ cells, h.pool.LiveChain head.toNat tail.toNat cells
  · obtain ⟨cells, chain⟩ := hchain
    obtain ⟨pool, hpool, hq, same⟩ :=
      returns_iff.mp (MemoryPool.deallocateChain_whole hg hstamps chain)
    obtain ⟨n, hfreed⟩ := MemoryPool.deallocateChain_freed skips.tools hpool
    simp only [step, hpool, ok_bind, if_pos same.reports]
    exact ⟨_, lost, hq, hs.stranded, hs.tallied.observe hfreed⟩
  · obtain ⟨pool, hpool, cells, fault, -, hreports, unlinked, hq⟩ :=
      returns_iff.mp (MemoryPool.deallocateChain_broken skips hg hchain)
    obtain ⟨n, hfreed⟩ := MemoryPool.deallocateChain_freed skips.tools hpool
    have hreported : pool.reports ≠ h.pool.reports := by simp [hreports]
    simp only [step, hpool, ok_bind, if_neg hreported]
    have counted := hs.tallied.observe hfreed
    refine ⟨free, _, hq, ?_, counted.total, counted.frees, counted.highWater, counted.live_le,
      counted.generations⟩
    show h.stranded + (h.pool.liveSlots.length - pool.liveSlots.length) = _
    have hstamps' := hq.stamps skips.tools
    have hbefore := hstamps.live
    have hafter := hstamps'.live
    rw [unlinked.capacity] at hafter
    rw [hstamps.length_liveSlots, hstamps'.length_liveSlots, hs.stranded]
    simp only [List.length_append, List.length_reverse] at *
    omega

theorem step_sound (skips : env.Skips) (hs : h.Sound env free lost) (call : PoolCall) :
    (h.step env call).Returns (fun h' => ∃ free' lost', h'.Sound env free' lost') := by
  cases call with
  | allocate =>
      refine (allocate_sound skips.tools hs).mono ?_
      rintro h' ⟨free', hs'⟩
      exact ⟨free', lost, hs'⟩
  | deallocate index =>
      refine (deallocate_sound skips hs index).mono ?_
      rintro h' ⟨free', hs'⟩
      exact ⟨free', lost, hs'⟩
  | deallocateChain head tail => exact deallocateChain_sound skips hs head tail
  | write index contents =>
      exact (write_sound skips.tools hs index contents).mono (fun h' hs' => ⟨free, lost, hs'⟩)

theorem run_sound (skips : env.Skips) (maxCapacity : Nat) (calls : List PoolCall) :
    (run env maxCapacity calls).Returns (fun h => ∃ free lost, h.Sound env free lost) := by
  refine (start_sound env skips.tools maxCapacity).bind ?_
  rintro h ⟨free, hs⟩
  refine foldlM_invariant ⟨free, [], hs⟩ ?_
  rintro h' call ⟨free', lost', hs'⟩
  exact step_sound skips hs' call

/-- What is true of the pool at every moment of a client's run. -/
structure Owned (env : Env) (h : PoolHistory) (free : List Nat) : Prop where
  walk : Path (nextOf h.pool.pool) h.pool.freeHead free INVALID_INDEX
  acyclic : free.Nodup
  inRange : ∀ s ∈ free, s < h.pool.capacity
  notLive : ∀ s ∈ free, ¬h.pool.Live s
  allocates : (h.pool.allocate env).Returns (fun (idx, _) =>
    (idx = INVALID_INDEX ↔ free = []) ∧
    (idx ≠ INVALID_INDEX → idx < h.pool.capacity ∧ ¬h.pool.Live idx))
  stamped : ∀ s < h.pool.capacity, ∃ flag, h.pool.allocated[s]? = some flag ∧
    h.pool.slotState[s]? = some (if flag then .Live else .Free)
  liveCount : h.pool.liveCount = h.pool.liveSlots.length
  balance : h.pool.liveCount = (h.pool.totalAllocs + 2 ^ 64 - h.pool.totalFrees) % 2 ^ 64
  highWater : h.pool.highWater = h.peak
  generations : ∀ s < h.pool.capacity, h.pool.slotGeneration[s]? = some (h.handed.count s % 2 ^ 8)
  depth : h.pool.freeListDepth = .ok (h.pool.capacity - h.pool.liveCount - h.stranded)
  accounted : h.pool.liveCount + h.stranded ≤ h.pool.capacity
  depth_valid : h.pool.capacity - h.pool.liveCount - h.stranded ≠ SIZE_MAX

theorem Sound.owned (skips : env.Skips) (hs : h.Sound env free lost) : h.Owned env free := by
  have hg := hs.guarded
  have hstamps := hg.stamps skips.tools
  have hlive := hstamps.live
  have hcap := hg.capacity_le
  have ht := hs.tallied
  have hstranded := hs.stranded
  rw [List.length_append] at hlive
  have hdepth : h.pool.capacity - h.pool.liveCount - h.stranded = free.length := by omega
  have hnotLive : ∀ s ∈ free, ¬h.pool.Live s := fun s hmem hl =>
    (hstamps.live_iff.mp hl).2 (List.mem_append_left lost hmem)
  refine ⟨hg.path, hg.nodup, hg.bound, hnotLive, ?_, ?_, hstamps.length_liveSlots.symm, ?_,
    ht.highWater, ht.generations, ?_, by omega, ?_⟩
  · cases free with
    | nil =>
        rw [MemoryPool.allocate_exhausted hg.toLinks]
        exact ⟨⟨fun _ => rfl, fun _ => rfl⟩, fun hvalid => absurd rfl hvalid⟩
    | cons s rest =>
        have hbound := hg.bound s List.mem_cons_self
        refine (MemoryPool.allocate_guarded hg).mono ?_
        rintro ⟨idx, pool⟩ ⟨rfl, -, -⟩
        have hvalid : idx ≠ INVALID_INDEX := Nat.ne_of_lt (hg.lt_invalid hbound)
        exact ⟨⟨fun e => absurd e hvalid, fun e => absurd e (List.cons_ne_nil idx rest)⟩,
          fun _ => ⟨hbound, hnotLive idx List.mem_cons_self⟩⟩
  · intro s hlt
    refine ⟨_, hstamps.flags s hlt, ?_⟩
    rw [hstamps.states s hlt]
    by_cases hmem : s ∈ free ++ lost <;> simp [hmem]
  · have htotal := ht.total
    have hfrees := ht.frees
    simp only [kMaxPoolCapacity] at hcap
    omega
  · rw [hdepth]
    exact hg.toLinks.freeListDepth
  · simp only [kMaxPoolCapacity, SIZE_MAX] at *
    omega

theorem run_owned (skips : env.Skips) (maxCapacity : Nat) (calls : List PoolCall) :
    (run env maxCapacity calls).Returns (fun h => ∃ free, h.Owned env free) := by
  refine (run_sound skips maxCapacity calls).mono ?_
  rintro h ⟨free, lost, hs⟩
  exact ⟨free, hs.owned skips⟩

theorem run_owned_small :
    (run Env.skipping 2 [.allocate, .write 0 {}, .deallocateChain 0 1]).Returns
      (fun h => ∃ free, h.Owned Env.skipping free) :=
  run_owned Env.skipping_skips 2 _

end PoolHistory

end Hft
