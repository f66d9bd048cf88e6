import MatchingEngine.Engine.MemoryPool
import MatchingEngine.Machine.Linked
import Mathlib.Data.List.Perm.Subperm
import Mathlib.Data.List.Range

/-!
# The pool represents its free list

`Represents env p free` says that the links lead from `freeHead` through exactly
`free`, and, in an instrumented build, that a slot is flagged and stamped live
exactly when it is not in that list. Each pool operation has one specification:
what it does to the list, and which slots it leaves alone.
-/

namespace Hft.MemoryPool

open Machine Machine.Checked

/-- Flags, stamps and the live counter describe `freed` as the free slots. -/
structure Stamps (p : MemoryPool) (freed : List Nat) : Prop where
  flags : ∀ i < p.capacity, p.allocated[i]? = some (decide (i ∉ freed))
  states : ∀ i < p.capacity, p.slotState[i]? = some (if i ∈ freed then .Free else .Live)
  generations : p.slotGeneration.size = p.capacity
  live : p.liveCount + freed.length = p.capacity
  nodup : freed.Nodup
  bound : ∀ s ∈ freed, s < p.capacity

/-- The links alone: what a release build can be asked about. -/
structure Links (p : MemoryPool) (free : List Nat) : Prop where
  size : p.pool.size = p.capacity
  capacity_le : p.capacity ≤ kMaxPoolCapacity
  path : Path (nextOf p.pool) p.freeHead free INVALID_INDEX
  nodup : free.Nodup
  bound : ∀ s ∈ free, s < p.capacity

structure Represents (env : Env) (p : MemoryPool) (free : List Nat) : Prop
    extends p.Links free where
  stamps : env.debugTools = true → p.Stamps free

/-- The slots in `lost` are neither handed out nor on the free list: a chain free
that faulted part-way released them. -/
structure Guarded (env : Env) (p : MemoryPool) (free lost : List Nat) : Prop
    extends p.Links free where
  stamps : env.debugTools = true → p.Stamps (free ++ lost)

/-- The operation changed no slot outside `changed` and reported no fault. -/
structure SameOutside (p p' : MemoryPool) (changed : List Nat) : Prop where
  slots : ∀ i, i ∉ changed → p'.pool[i]? = p.pool[i]?
  capacity : p'.capacity = p.capacity
  reports : p'.reports = p.reports

variable {env : Env} {p : MemoryPool} {free lost freed as : List Nat}
variable {s head tail stop cur : Nat}

theorem guarded_nil_iff : p.Guarded env free [] ↔ p.Represents env free := by
  constructor
  · exact fun h => ⟨h.toLinks, fun ht => List.append_nil free ▸ h.stamps ht⟩
  · exact fun h => ⟨h.toLinks, fun ht => (List.append_nil free).symm ▸ h.stamps ht⟩

theorem SameOutside.trans {p p' p'' : MemoryPool} {xs ys : List Nat} (h : p.SameOutside p' xs)
    (h' : p'.SameOutside p'' ys) : p.SameOutside p'' (xs ++ ys) :=
  ⟨fun i hi => by
      rw [List.mem_append, not_or] at hi
      exact (h'.slots i hi.2).trans (h.slots i hi.1),
    h'.capacity.trans h.capacity, h'.reports.trans h.reports⟩

/-- Only membership and the number of free slots matter to the stamps. -/
theorem Stamps.perm {freed' : List Nat} (h : p.Stamps freed) (hperm : freed.Perm freed') :
    p.Stamps freed' :=
  ⟨fun i hi => by simpa only [hperm.mem_iff] using h.flags i hi,
    fun i hi => by simpa only [hperm.mem_iff] using h.states i hi,
    h.generations, by rw [← hperm.length_eq]; exact h.live, hperm.nodup_iff.mp h.nodup,
    fun s hs => h.bound s (hperm.mem_iff.mpr hs)⟩

/-- Distinct slots of the pool: there are at most `capacity` of them. -/
theorem length_le_of_nodup {slots : List Nat} {n : Nat} (hnodup : slots.Nodup)
    (hbound : ∀ s ∈ slots, s < n) : slots.length ≤ n := by
  have hsub : slots ⊆ List.range n := fun s hs => List.mem_range.mpr (hbound s hs)
  simpa using (List.subperm_of_subset hnodup hsub).length_le

theorem Stamps.isStampedLive (h : p.Stamps freed) (hs : s < p.capacity) :
    p.isStampedLive s = .ok (decide (s ∉ freed)) := by
  by_cases hmem : s ∈ freed
  · simp [MemoryPool.isStampedLive, vecRead_eq (h.flags s hs), vecRead_eq (h.states s hs), hmem]
  · simp [MemoryPool.isStampedLive, vecRead_eq (h.flags s hs), vecRead_eq (h.states s hs), hmem]

namespace Links

theorem getElem? (h : p.Links free) (hs : s < p.capacity) : ∃ o, p.pool[s]? = some o :=
  ⟨_, Array.getElem?_eq_getElem (by rw [h.size]; exact hs)⟩

theorem lt_invalid (h : p.Links free) (hs : s < p.capacity) : s < INVALID_INDEX := by
  have := h.capacity_le
  simp only [kMaxPoolCapacity, INVALID_INDEX] at *
  omega

theorem freeHead_eq (h : p.Links free) : p.freeHead = free.head?.getD INVALID_INDEX :=
  h.path.start_eq

theorem freeHead_eq_invalid_iff (h : p.Links free) :
    p.freeHead = INVALID_INDEX ↔ free = [] := by
  rw [h.freeHead_eq]
  cases free with
  | nil => simp
  | cons s rest =>
      have := h.lt_invalid (h.bound s List.mem_cons_self)
      simp only [List.head?_cons, Option.getD_some, reduceCtorEq, iff_false]
      omega

end Links

/-- The splice every free ends with: a chain of slots that are not in the list
becomes its front, once the chain's last link leads to the old head. -/
theorem pushFree_spec (env : Env) (h : p.Links free)
    (chain : Path (nextOf p.pool) head (as ++ [tail]) stop) (hnodup : (as ++ [tail] ++ free).Nodup)
    (hbound : ∀ s ∈ as ++ [tail], s < p.capacity)
    (stamps : env.debugTools = true → p.Stamps (as ++ [tail] ++ free ++ lost)) :
    (p.pushFree tail head).Returns (fun p' =>
      p'.Guarded env (as ++ [tail] ++ free) lost ∧ p.SameOutside p' [tail]) := by
  obtain ⟨o, ho⟩ := h.getElem? (hbound tail (by simp))
  obtain ⟨hchain, -, disjoint⟩ := List.nodup_append.mp hnodup
  simp only [pushFree, setOverlayLink, modifyOrder_eq ho, ok_bind, pure_eq_ok, returns_ok]
  have outside : ∀ i, i ≠ tail →
      (p.pool.setIfInBounds tail { o with next := p.freeHead })[i]? = p.pool[i]? := by
    intro i hi
    rw [getElem?_set_slot ho, if_neg hi]
  have front : Path (nextOf (p.pool.setIfInBounds tail { o with next := p.freeHead }))
      head (as ++ [tail]) p.freeHead := by
    refine chain.redirect ?_ ?_
    · rw [nextOf, getElem?_set_slot ho, if_pos rfl]
      rfl
    · intro c hc
      refine nextOf_congr (outside c ?_)
      rintro rfl
      exact (List.nodup_append.mp hchain).2.2 c hc c (by simp) rfl
  have back : Path (nextOf (p.pool.setIfInBounds tail { o with next := p.freeHead }))
      p.freeHead free INVALID_INDEX := by
    refine h.path.congr (fun c hc => nextOf_congr (outside c ?_))
    rintro rfl
    exact disjoint c (by simp) c hc rfl
  refine ⟨⟨⟨by simp [h.size], h.capacity_le, Path.append_iff.mpr ⟨_, front, back⟩, hnodup, ?_⟩,
    fun ht => ?_⟩, ⟨fun i hi => outside i (by simpa using hi), rfl, rfl⟩⟩
  · intro s hs
    rcases List.mem_append.mp hs with hs | hs
    · exact hbound s hs
    · exact h.bound s hs
  · have hs := stamps ht
    exact ⟨hs.flags, hs.states, hs.generations, hs.live, hs.nodup, hs.bound⟩

/-- The instrumentation of one free. The link of the slot survives the poison. -/
theorem stampFree_spec {o : Order} (h : p.Stamps freed) (ho : p.pool[s]? = some o)
    (hs : s < p.capacity) (hlive : s ∉ freed) :
    (p.stampFree s).Returns (fun p' => p'.Stamps (s :: freed) ∧ p'.freeHead = p.freeHead ∧
      p'.pool = p.pool.setIfInBounds s (o.poisonPayload POISON_BYTE_FREED) ∧
      p'.capacity = p.capacity ∧ p'.reports = p.reports) := by
  have hflag := lt_size_of_getElem? (h.flags s hs)
  have hstate := lt_size_of_getElem? (h.states s hs)
  have hnodup : (s :: freed).Nodup := List.nodup_cons.mpr ⟨hlive, h.nodup⟩
  have hbound : ∀ i ∈ s :: freed, i < p.capacity := by
    intro i hi
    rcases List.mem_cons.mp hi with rfl | hi
    · exact hs
    · exact h.bound i hi
  have hcount : 1 ≤ p.liveCount := by
    have hle := length_le_of_nodup hnodup hbound
    have hsum := h.live
    simp only [List.length_cons] at hle
    omega
  simp only [stampFree, returns_bind, returns_vecWrite, returns_checkedSub, modifyOrder_eq ho,
    returns_ok, pure_eq_ok, and_true]
  refine ⟨hflag, hstate, hcount, ?_, ?_, h.generations, ?_, hnodup, hbound⟩
  · intro i hi
    rw [Array.getElem?_setIfInBounds]
    by_cases his : s = i
    · subst his
      simp [hflag]
    · have : ¬i = s := fun e => his e.symm
      simp [his, this, h.flags i hi]
  · intro i hi
    rw [Array.getElem?_setIfInBounds]
    by_cases his : s = i
    · subst his
      simp [hstate]
    · have : ¬i = s := fun e => his e.symm
      simp [his, this, h.states i hi]
  · have hsum := h.live
    simp only [List.length_cons]
    omega

/-- Everything but stamps, payloads and reports is as before. -/
structure Unlinked (p q : MemoryPool) : Prop where
  capacity : q.capacity = p.capacity
  size : q.pool.size = p.pool.size
  head : q.freeHead = p.freeHead
  links : ∀ i, nextOf q.pool i = nextOf p.pool i

theorem Unlinked.trans {q r : MemoryPool} (h : p.Unlinked q) (h' : q.Unlinked r) : p.Unlinked r :=
  ⟨h'.capacity.trans h.capacity, h'.size.trans h.size, h'.head.trans h.head,
    fun i => (h'.links i).trans (h.links i)⟩

theorem Unlinked.toLinks {q : MemoryPool} (h : p.Unlinked q) (hlinks : p.Links free) :
    q.Links free := by
  refine ⟨?_, ?_, ?_, hlinks.nodup, ?_⟩
  · rw [h.size, h.capacity]
    exact hlinks.size
  · rw [h.capacity]
    exact hlinks.capacity_le
  · rw [h.head]
    exact hlinks.path.congr (fun c _ => h.links c)
  · rw [h.capacity]
    exact hlinks.bound

/-- What the instrumented walk preserves: links, head, slots off the chain. -/
structure Walked (p q : MemoryPool) (chain : List Nat) : Prop where
  outside : p.SameOutside q chain
  head : q.freeHead = p.freeHead
  size : q.pool.size = p.pool.size
  links : ∀ i, nextOf q.pool i = nextOf p.pool i

namespace Walked

variable {q r : MemoryPool} {cells cells' : List Nat}

theorem unlinked (h : p.Walked q cells) : p.Unlinked q :=
  ⟨h.outside.capacity, h.size, h.head, h.links⟩

theorem trans (h : p.Walked q cells) (h' : q.Walked r cells') : p.Walked r (cells ++ cells') :=
  ⟨h.outside.trans h'.outside, h'.head.trans h.head, h'.size.trans h.size,
    fun i => (h'.links i).trans (h.links i)⟩

end Walked

/-- A slot can be followed after it has been released. -/
theorem stampFree_walked {o : Order} (h : p.Stamps freed) (ho : p.pool[s]? = some o)
    (hs : s < p.capacity) (hlive : s ∉ freed) :
    (p.stampFree s).Returns (fun q => q.Stamps (s :: freed) ∧ p.Walked q [s] ∧
      q.pool[s]? = some (o.poisonPayload POISON_BYTE_FREED)) := by
  refine (stampFree_spec h ho hs hlive).mono ?_
  rintro q ⟨hstamps, hhead, hpool, hcapacity, hreports⟩
  have hread : ∀ i, q.pool[i]? =
      if i = s then some (o.poisonPayload POISON_BYTE_FREED) else p.pool[i]? := by
    intro i
    rw [hpool]
    exact getElem?_set_slot ho _
  refine ⟨hstamps, ⟨⟨?_, hcapacity, hreports⟩, hhead, ?_, ?_⟩, (hread s).trans (if_pos rfl)⟩
  · intro i hi
    rw [hread, if_neg (fun e => hi (List.mem_singleton.mpr e))]
  · rw [hpool, Array.size_setIfInBounds]
  · rw [hpool]
    exact nextOf_set ho rfl

/-- Payloads are not the pool's business. -/
theorem Represents.setPool {pool : Array Order} (h : p.Represents env free)
    (size : pool.size = p.pool.size) (links : ∀ i ∈ free, nextOf pool i = nextOf p.pool i) :
    ({ p with pool } : MemoryPool).Represents env free :=
  ⟨⟨size.trans h.size, h.capacity_le, h.path.congr links, h.nodup, h.bound⟩,
    fun htools => by
      have hs := h.stamps htools
      exact ⟨hs.flags, hs.states, hs.generations, hs.live, hs.nodup, hs.bound⟩⟩

/-- A free relinks the slot in front of the list, whatever the build. -/
theorem deallocate_guarded (h : p.Guarded env free lost) (hs : s < p.capacity)
    (hlive : s ∉ free ++ lost) :
    (p.deallocate env s).Returns (fun p' =>
      p'.Guarded env (s :: free) lost ∧ p.SameOutside p' [s]) := by
  obtain ⟨o, ho⟩ := h.getElem? hs
  have hnodup : ([] ++ [s] ++ free).Nodup :=
    List.nodup_cons.mpr ⟨fun hmem => hlive (List.mem_append_left lost hmem), h.nodup⟩
  have hbound : ∀ i ∈ [] ++ [s], i < p.capacity := by
    intro i hi
    simpa [List.mem_singleton.mp hi] using hs
  have chain : Path (nextOf p.pool) s ([] ++ [s]) o.next := ⟨rfl, _, nextOf_eq ho, rfl⟩
  by_cases htools : env.debugTools = true
  · have hstamps := h.stamps htools
    simp only [deallocate, htools, if_true, ge_iff_le, Nat.not_le.mpr hs, if_false,
      hstamps.isStampedLive hs, ok_bind, hlive, not_false_eq_true, decide_true]
    refine (stampFree_walked hstamps ho hs hlive).bind ?_
    rintro q ⟨hstamps', hwalk, -⟩
    have hcapacity := hwalk.outside.capacity
    refine (pushFree_spec env (hwalk.unlinked.toLinks h.toLinks)
      (chain.congr (fun c _ => hwalk.links c)) hnodup (hcapacity ▸ hbound)
      (fun _ => hstamps')).mono ?_
    rintro p' ⟨hrep, houtside⟩
    have both := hwalk.outside.trans houtside
    exact ⟨hrep, fun i hi => both.slots i (by simpa using hi), both.capacity, both.reports⟩
  · simp only [deallocate, htools]
    exact pushFree_spec env h.toLinks chain hnodup hbound (fun ht => absurd ht htools)

theorem deallocate_spec (h : p.Represents env free) (hs : s < p.capacity) (hlive : s ∉ free) :
    (p.deallocate env s).Returns (fun p' =>
      p'.Represents env (s :: free) ∧ p.SameOutside p' [s]) := by
  refine (deallocate_guarded (guarded_nil_iff.mpr h) hs (by simpa using hlive)).mono ?_
  rintro p' ⟨hp', same⟩
  exact ⟨guarded_nil_iff.mp hp', same⟩

/-- The walk releases a live chain slot by slot and reaches its tail. The links
it follows are those of slots it has just poisoned. -/
theorem releaseChain_spec {fuel : Nat} (hsize : p.pool.size = p.capacity)
    (hcap : p.capacity ≤ kMaxPoolCapacity) (h : p.Stamps freed)
    (chain : Path (nextOf p.pool) cur (as ++ [tail]) stop) (hnodup : (as ++ [tail]).Nodup)
    (hbound : ∀ s ∈ as ++ [tail], s < p.capacity) (hlive : ∀ s ∈ as ++ [tail], s ∉ freed)
    (hfuel : as.length < fuel) :
    (releaseChain env tail fuel cur p).Returns (fun (reached, q) => reached = true ∧
      q.Stamps ((as ++ [tail]).reverse ++ freed) ∧ p.Walked q (as ++ [tail])) := by
  induction fuel generalizing as cur p freed with
  | zero => omega
  | succ fuel ih =>
      have hcur : cur ∈ as ++ [tail] := by
        rw [chain.start_eq]
        cases as <;> simp
      have hlt := hbound cur hcur
      obtain ⟨o, ho⟩ : ∃ o, p.pool[cur]? = some o :=
        ⟨_, Array.getElem?_eq_getElem (by rw [hsize]; exact hlt)⟩
      simp only [releaseChain, h.isStampedLive hlt, ok_bind, hlive cur hcur, not_false_eq_true,
        decide_true, if_true]
      refine (stampFree_walked h ho hlt (hlive cur hcur)).bind ?_
      rintro q ⟨hstamps, first, hq⟩
      have hqcap := first.outside.capacity
      cases as with
      | nil =>
          have hct : cur = tail := chain.1
          subst hct
          simpa using ⟨hstamps, first⟩
      | cons a as =>
          obtain ⟨hca, next, hnext, hrest⟩ := chain
          subst hca
          obtain ⟨hnotMem, hnodup'⟩ := List.nodup_cons.mp hnodup
          have hne : cur ≠ tail := by
            rintro rfl
            exact hnotMem (by simp)
          have hmem : next ∈ as ++ [tail] := by
            rw [hrest.start_eq]
            cases as <;> simp
          have hnextLt : next < p.capacity := hbound next (List.mem_cons_of_mem cur hmem)
          have ho' : o.next = next := by
            rw [nextOf_eq ho] at hnext
            exact Option.some.inj hnext
          have hvalid : ¬(next = INVALID_INDEX ∨ next ≥ q.capacity) := by
            have : next ≠ INVALID_INDEX := by
              simp only [kMaxPoolCapacity, INVALID_INDEX] at *
              omega
            simp only [this, false_or, hqcap]
            omega
          simp only [hne, if_false, vecRead_eq hq, ok_bind, Order.poisonPayload_next, ho',
            hvalid]
          have hwalk := ih (by rw [first.size, hqcap, hsize]) (by rw [hqcap]; exact hcap) hstamps
            (hrest.congr (fun c _ => first.links c)) hnodup'
            (by
              intro s hs
              rw [hqcap]
              exact hbound s (List.mem_cons_of_mem cur hs))
            (by
              intro s hs
              rw [List.mem_cons, not_or]
              refine ⟨?_, hlive s (List.mem_cons_of_mem cur hs)⟩
              rintro rfl
              exact hnotMem hs)
            (by simp only [List.length_cons] at hfuel; omega)
          refine hwalk.mono ?_
          rintro ⟨reached, r⟩ ⟨hreached, hr, hw⟩
          refine ⟨hreached, ?_, first.trans hw⟩
          simpa [List.append_assoc] using hr

/-- A live chain is returned in one splice, in its own order, whatever the build. -/
theorem deallocateChain_guarded (h : p.Guarded env free lost)
    (chain : Path (nextOf p.pool) head (as ++ [tail]) stop) (hnodup : (as ++ [tail]).Nodup)
    (hbound : ∀ s ∈ as ++ [tail], s < p.capacity) (hlive : ∀ s ∈ as ++ [tail], s ∉ free ++ lost) :
    (p.deallocateChain env head tail).Returns (fun p' =>
      p'.Guarded env (as ++ [tail] ++ free) lost ∧ p.SameOutside p' (as ++ [tail])) := by
  have hall : (as ++ [tail] ++ free).Nodup := by
    rw [List.nodup_append]
    refine ⟨hnodup, h.nodup, ?_⟩
    rintro c hc d hd rfl
    exact hlive c hc (List.mem_append_left lost hd)
  by_cases htools : env.debugTools = true
  · have hhead : head < p.capacity := by
      refine hbound head ?_
      rw [chain.start_eq]
      cases as <;> simp
    have htail := hbound tail (by simp)
    have hrange : ¬(head ≥ p.capacity ∨ tail ≥ p.capacity) := by omega
    have hfuel : as.length < p.capacity + 1 := by
      have hle := length_le_of_nodup hnodup hbound
      simp only [List.length_append, List.length_singleton] at hle
      omega
    simp only [deallocateChain, htools, if_true, hrange, if_false]
    refine (releaseChain_spec h.size h.capacity_le (h.stamps htools) chain hnodup hbound hlive
      hfuel).bind ?_
    rintro ⟨reached, q⟩ ⟨rfl, hstamps, hwalk⟩
    simp only [if_true]
    have links : q.Links free := hwalk.unlinked.toLinks h.toLinks
    have hperm : ((as ++ [tail]).reverse ++ (free ++ lost)).Perm
        (as ++ [tail] ++ free ++ lost) := by
      rw [List.append_assoc (as ++ [tail])]
      exact (List.reverse_perm _).append_right (free ++ lost)
    refine (pushFree_spec env links (chain.congr (fun c _ => hwalk.links c)) hall
      (hwalk.outside.capacity ▸ hbound) (fun _ => hstamps.perm hperm)).mono ?_
    rintro p' ⟨hrep, houtside⟩
    have both := hwalk.outside.trans houtside
    refine ⟨hrep, fun i hi => both.slots i ?_, both.capacity, both.reports⟩
    rw [List.mem_append, not_or]
    exact ⟨hi, fun ht => hi (List.mem_append_right as ht)⟩
  · simp only [deallocateChain, htools]
    have unstamped : env.debugTools = true → p.Stamps (as ++ [tail] ++ free ++ lost) :=
      fun ht => absurd ht htools
    refine (pushFree_spec env h.toLinks chain hall hbound unstamped).mono ?_
    rintro p' ⟨hrep, houtside⟩
    refine ⟨hrep, fun i hi => houtside.slots i ?_, houtside.capacity, houtside.reports⟩
    exact fun ht => hi (List.mem_append_right as ht)

theorem deallocateChain_spec (h : p.Represents env free)
    (chain : Path (nextOf p.pool) head (as ++ [tail]) stop) (hnodup : (as ++ [tail]).Nodup)
    (hbound : ∀ s ∈ as ++ [tail], s < p.capacity) (hlive : ∀ s ∈ as ++ [tail], s ∉ free) :
    (p.deallocateChain env head tail).Returns (fun p' =>
      p'.Represents env (as ++ [tail] ++ free) ∧ p.SameOutside p' (as ++ [tail])) := by
  refine (deallocateChain_guarded (guarded_nil_iff.mpr h) chain hnodup hbound
    (by simpa using hlive)).mono ?_
  rintro p' ⟨hp', same⟩
  exact ⟨guarded_nil_iff.mp hp', same⟩

/-- An exhausted pool hands out nothing and does not change. -/
theorem allocate_exhausted (h : p.Links []) : p.allocate env = .ok (INVALID_INDEX, p) :=
  if_pos (h.freeHead_eq_invalid_iff.mpr rfl)

theorem stampLive_spec {o : Order} (h : p.Stamps (s :: free))
    (hcap : p.capacity ≤ kMaxPoolCapacity) (ho : p.pool[s]? = some o) :
    (p.stampLive s).Returns (fun p' => p'.Stamps free ∧ p'.freeHead = p.freeHead ∧
      (∃ o', p'.pool = p.pool.setIfInBounds s o') ∧
      p'.capacity = p.capacity ∧ p'.reports = p.reports) := by
  have hs := h.bound s List.mem_cons_self
  have hflag := lt_size_of_getElem? (h.flags s hs)
  have hstate := lt_size_of_getElem? (h.states s hs)
  obtain ⟨hnotMem, hnodup⟩ := List.nodup_cons.mp h.nodup
  have hgeneration : s < p.slotGeneration.size := h.generations ▸ hs
  have hslot := lt_size_of_getElem? ho
  have hlive := h.live
  simp only [List.length_cons] at hlive
  have hcapacity : p.capacity < 2 ^ 64 := by
    simp only [kMaxPoolCapacity] at hcap
    omega
  simp only [stampLive, returns_bind, returns_vecWrite, returns_vecRead, returns_checkedAdd,
    pure_eq_ok, returns_ok, and_true, true_and]
  have live' : p.liveCount + 1 + free.length = p.capacity := by omega
  refine ⟨hflag, hstate, _, Array.getElem?_eq_getElem hgeneration, hgeneration, by omega, hslot,
    ⟨?_, ?_, by simp [h.generations], live', hnodup,
      fun i hi => h.bound i (List.mem_cons_of_mem s hi)⟩, ⟨_, rfl⟩⟩
  · intro i hi
    rw [Array.getElem?_setIfInBounds]
    by_cases his : s = i
    · subst his
      simp [hflag, hnotMem]
    · have : ¬i = s := fun e => his e.symm
      simp [his, h.flags i hi, this]
  · intro i hi
    rw [Array.getElem?_setIfInBounds]
    by_cases his : s = i
    · subst his
      simp [hstate, hnotMem]
    · have : ¬i = s := fun e => his e.symm
      simp [his, h.states i hi, this]

/-- Otherwise the front of the free list is handed out. -/
theorem allocate_guarded (h : p.Guarded env (s :: free) lost) :
    (p.allocate env).Returns (fun (idx, p') => idx = s ∧ p'.Guarded env free lost ∧
      p.SameOutside p' [s]) := by
  have hs := h.bound s List.mem_cons_self
  obtain ⟨o, ho⟩ := h.getElem? hs
  obtain ⟨hhead, next, hnext, hrest⟩ := h.path
  obtain ⟨hnotMem, hnodup⟩ := List.nodup_cons.mp h.nodup
  have hvalid : ¬s = INVALID_INDEX := Nat.ne_of_lt (h.lt_invalid hs)
  have hlink : o.next = next := by
    rw [nextOf_eq ho] at hnext
    exact Option.some.inj hnext
  have hbound : ∀ i ∈ free, i < p.capacity := fun i hi => h.bound i (List.mem_cons_of_mem s hi)
  by_cases htools : env.debugTools = true
  · simp only [allocate, hvalid, hhead, if_false, vecRead_eq ho, ok_bind, htools, if_true, hlink]
    have hstamps := h.stamps htools
    have moved : ({ p with freeHead := next } : MemoryPool).Stamps (s :: (free ++ lost)) :=
      ⟨hstamps.flags, hstamps.states, hstamps.generations, hstamps.live, hstamps.nodup,
        hstamps.bound⟩
    refine (stampLive_spec moved h.capacity_le ho).bind ?_
    rintro q ⟨hq, hqhead, ⟨o', hpool⟩, hcap, hreports⟩
    have outside : ∀ i, i ≠ s → q.pool[i]? = p.pool[i]? := by
      intro i hi
      rw [hpool]
      exact (getElem?_set_slot ho o').trans (if_neg hi)
    refine ⟨rfl, ⟨⟨?_, ?_, ?_, hnodup, ?_⟩, fun _ => hq⟩,
      ⟨fun i hi => outside i (by simpa using hi), hcap, hreports⟩⟩
    · simp [hpool, hcap, h.size]
    · simpa [hcap] using h.capacity_le
    · rw [hqhead]
      exact hrest.congr (fun c hc => nextOf_congr (outside c (fun e => hnotMem (e ▸ hc))))
    · simpa [hcap] using hbound
  · simp only [allocate, hvalid, hhead, if_false, vecRead_eq ho, ok_bind, htools, hlink]
    exact ⟨rfl, ⟨⟨h.size, h.capacity_le, hrest, hnodup, hbound⟩, fun ht => absurd ht htools⟩,
      ⟨fun _ _ => rfl, rfl, rfl⟩⟩

theorem allocate_spec (h : p.Represents env (s :: free)) :
    (p.allocate env).Returns (fun (idx, p') => idx = s ∧ p'.Represents env free ∧
      p.SameOutside p' [s]) := by
  refine (allocate_guarded (guarded_nil_iff.mpr h)).mono ?_
  rintro ⟨idx, p'⟩ ⟨hidx, hp', same⟩
  exact ⟨hidx, guarded_nil_iff.mp hp', same⟩

/-! ## The depth of the free list -/

theorem freeListWalk_eq {fuel depth : Nat} (hsize : p.pool.size = p.capacity)
    (path : Path (nextOf p.pool) cur free INVALID_INDEX) (hvalid : INVALID_INDEX ∉ free)
    (hbound : ∀ s ∈ free, s < p.capacity) (hdepth : depth + free.length ≤ p.capacity)
    (hfuel : free.length < fuel) : p.freeListWalk fuel depth cur = .ok (depth + free.length) := by
  induction fuel generalizing free cur depth with
  | zero => omega
  | succ fuel ih =>
      cases free with
      | nil =>
          have hcur : cur = INVALID_INDEX := path
          simp [freeListWalk, hcur]
      | cons s free =>
          obtain ⟨rfl, next, hnext, hrest⟩ := path
          rw [List.mem_cons, not_or] at hvalid
          rw [List.length_cons] at hdepth hfuel
          have hlt := hbound cur List.mem_cons_self
          obtain ⟨o, ho⟩ : ∃ o, p.pool[cur]? = some o :=
            ⟨_, Array.getElem?_eq_getElem (by rw [hsize]; exact hlt)⟩
          have hlink : o.next = next := Option.some.inj ((nextOf_eq ho).symm.trans hnext)
          rw [freeListWalk, if_neg (Ne.symm hvalid.1), if_neg (by omega), if_neg (by omega),
            vecRead_eq ho, ok_bind, hlink, ih hrest hvalid.2
              (fun t ht => hbound t (List.mem_cons_of_mem cur ht)) (by omega) (by omega),
            List.length_cons]
          congr 1
          omega

theorem Links.freeListDepth (h : p.Links free) : p.freeListDepth = .ok free.length := by
  have hle := length_le_of_nodup h.nodup h.bound
  have hvalid : INVALID_INDEX ∉ free := fun hmem =>
    Nat.lt_irrefl _ (h.lt_invalid (h.bound _ hmem))
  have hwalk : p.freeListWalk (p.capacity + 1) 0 p.freeHead = .ok (0 + free.length) :=
    freeListWalk_eq h.size h.path hvalid h.bound (by omega) (by omega)
  rwa [Nat.zero_add] at hwalk

/-! ## Construction -/

/-- The loop links every slot below `i` in front of the slots from `i` on. -/
theorem linkFreeList_spec {i : Nat} (hsize : p.pool.size = p.capacity) (hi : i ≤ p.capacity)
    (hpath : Path (nextOf p.pool) p.freeHead (List.range' i (p.capacity - i)) INVALID_INDEX) :
    (linkFreeList i p).Returns (fun q => q = { p with pool := q.pool, freeHead := q.freeHead } ∧
      q.pool.size = p.capacity ∧
      Path (nextOf q.pool) q.freeHead (List.range' 0 p.capacity) INVALID_INDEX) := by
  induction i generalizing p with
  | zero => exact ⟨rfl, hsize, hpath⟩
  | succ i ih =>
      obtain ⟨o, ho⟩ : ∃ o, p.pool[i]? = some o :=
        ⟨_, Array.getElem?_eq_getElem (by omega)⟩
      simp only [linkFreeList, setOverlayLink, modifyOrder_eq ho, ok_bind, pure_eq_ok]
      have hrange : List.range' i (p.capacity - i) =
          i :: List.range' (i + 1) (p.capacity - (i + 1)) := by
        rw [show p.capacity - i = p.capacity - (i + 1) + 1 by omega, List.range'_succ]
      refine (ih ?_ ?_ ?_).mono ?_
      · simpa using hsize
      · exact Nat.le_of_succ_le hi
      · simp only [hrange]
        refine hpath.push ?_ ?_
        · rw [nextOf, getElem?_set_slot ho, if_pos rfl]
          rfl
        · intro c hc
          refine nextOf_congr ?_
          rw [getElem?_set_slot ho, if_neg]
          rintro rfl
          have := List.mem_range'_1.mp hc
          omega
      · rintro q ⟨hq, hqsize, hqpath⟩
        exact ⟨hq, hqsize, hqpath⟩

/-- A new pool is all free, in ascending order. -/
theorem construct_spec (env : Env) (maxCapacity : Nat) :
    (construct env maxCapacity).Returns (fun p =>
      p.Represents env (List.range p.capacity) ∧ p.capacity = min maxCapacity kMaxPoolCapacity ∧
      p.reports = []) := by
  have hclamp : (if maxCapacity > kMaxPoolCapacity then kMaxPoolCapacity else maxCapacity) =
      min maxCapacity kMaxPoolCapacity := by
    split <;> omega
  simp only [construct, hclamp]
  have hstart : ∀ links : Nat → Option Nat, Path links INVALID_INDEX
      (List.range' (min maxCapacity kMaxPoolCapacity)
        (min maxCapacity kMaxPoolCapacity - min maxCapacity kMaxPoolCapacity)) INVALID_INDEX := by
    intro links
    simp
  refine (linkFreeList_spec ?_ ?_ ?_).mono ?_
  · exact Array.size_replicate
  · exact Nat.le_refl _
  · exact hstart _
  rintro q ⟨hq, hsize, hpath⟩
  rw [← List.range_eq_range'] at hpath
  rw [hq]
  refine ⟨⟨⟨hsize, Nat.min_le_right _ _, hpath, List.nodup_range, ?_⟩, ?_⟩, rfl, rfl⟩
  · intro s hs
    exact List.mem_range.mp hs
  · intro htools
    refine ⟨?_, ?_, by simp [htools], (Nat.zero_add _).trans List.length_range,
      List.nodup_range, fun s hs => List.mem_range.mp hs⟩
    · intro i hi
      have hlt : i < min maxCapacity kMaxPoolCapacity := hi
      simp [htools, hlt]
    · intro i hi
      have hlt : i < min maxCapacity kMaxPoolCapacity := hi
      simp [htools, hlt]

end Hft.MemoryPool
