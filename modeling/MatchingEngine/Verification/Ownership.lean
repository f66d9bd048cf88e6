import MatchingEngine.Verification.Pool

/-!
# The pool against an arbitrary client

A client may ask to free anything, and may have written anything into the slots it
holds, their links included. When the handler asks to skip a faulting operation,
every chain free ends in one of two ways: the links led to the tail through
distinct live slots, or the walk got stuck, at a slot that is not live any more or
at a link that leaves the pool.
-/

namespace Hft

open Machine Machine.Checked

/-- An instrumented build whose pool handler asks to skip every faulting operation. -/
structure Env.Skips (env : Env) : Prop where
  tools : env.debugTools = true
  handler : ∃ handler, env.poolHandler = some handler ∧ ∀ fault, handler fault = .SkipOperation

/-- The handler of the pool's own tests. -/
def Env.skipping : Env := ⟨true, some (fun _ => .SkipOperation), none, 0⟩

theorem Env.skipping_skips : Env.skipping.Skips := ⟨rfl, _, rfl, fun _ => rfl⟩

namespace MemoryPool

variable {env : Env} {p q : MemoryPool} {free lost freed cells as : List Nat}
variable {i s cur head tail stop stuck fuel : Nat}

theorem poolFault_skips (skips : env.Skips) (p : MemoryPool) (message : String) (i : Nat) :
    poolFault env p message i = .ok { p with reports := p.reports ++ [⟨message, i⟩] } := by
  obtain ⟨handler, hhandler, hskip⟩ := skips.handler
  simp [poolFault, hhandler, hskip]

/-- The slot is handed out, as far as its flag says. -/
def Live (p : MemoryPool) (i : Nat) : Prop := i < p.capacity ∧ p.allocated[i]? = some true

theorem Stamps.live_iff (h : p.Stamps freed) : p.Live i ↔ i < p.capacity ∧ i ∉ freed := by
  refine and_congr_right (fun hi => ?_)
  rw [h.flags i hi]
  simp

theorem isAllocated_eq (htools : env.debugTools = true) (h : p.Stamps freed) :
    p.isAllocated env i = .ok (decide (i < p.capacity ∧ i ∉ freed)) := by
  rw [isAllocated, htools]
  by_cases hi : i < p.capacity
  · simp [hi, vecRead_eq (h.flags i hi)]
  · simp [hi]

/-- The stamps do not depend on the slots, the links or the reports. -/
theorem Stamps.congr (h : p.Stamps freed) (flags : q.allocated = p.allocated)
    (states : q.slotState = p.slotState) (generations : q.slotGeneration = p.slotGeneration)
    (live : q.liveCount = p.liveCount) (capacity : q.capacity = p.capacity) : q.Stamps freed := by
  refine ⟨?_, ?_, ?_, ?_, h.nodup, ?_⟩
  · rw [flags, capacity]
    exact h.flags
  · rw [states, capacity]
    exact h.states
  · rw [generations, capacity]
    exact h.generations
  · rw [live, capacity]
    exact h.live
  · rw [capacity]
    exact h.bound

/-! ## Chains -/

/-- The links from `head` reach `tail` through exactly `cells`, distinct and live. -/
structure LiveChain (p : MemoryPool) (head tail : Nat) (cells : List Nat) : Prop where
  path : ∃ stop, Path (nextOf p.pool) head cells stop
  last : cells.getLast? = some tail
  nodup : cells.Nodup
  live : ∀ s ∈ cells, p.Live s

/-- The links from `head` lead through `cells`, distinct and live and not the tail,
to `stuck`, which is not live or is one of them again. -/
structure Stuck (p : MemoryPool) (head tail : Nat) (cells : List Nat) (stuck : Nat) : Prop where
  path : Path (nextOf p.pool) head cells stuck
  nodup : cells.Nodup
  live : ∀ s ∈ cells, p.Live s
  tail_notMem : tail ∉ cells
  stuck : ¬p.Live stuck ∨ stuck ∈ cells

/-- The fault of a walk that got stuck. -/
def chainFault (p : MemoryPool) (tail stuck : Nat) : PoolFault :=
  if stuck < p.capacity then
    ⟨"MemoryPool::deallocate_chain: chain slot not live (corrupt link or double free)", stuck⟩
  else ⟨"MemoryPool::deallocate_chain: chain broken before reaching tail", tail⟩

/-- What the instrumented walk from `cur` ends with. -/
inductive WalkEnd (p : MemoryPool) (cur tail : Nat) (cells : List Nat) :
    (reached : Bool) → (reports : List PoolFault) → Prop
  | arrived (chain : p.LiveChain cur tail cells) : WalkEnd p cur tail cells true p.reports
  | stuck (stuck : Nat) (walk : p.Stuck cur tail cells stuck) :
      WalkEnd p cur tail cells false (p.reports ++ [p.chainFault tail stuck])

/-- Releasing a live slot in front of a walk: the slots it may visit are the others. -/
theorem WalkEnd.cons {next : Nat} {reached : Bool} {reports : List PoolFault}
    (h : q.WalkEnd next tail cells reached reports) (unlinked : p.Unlinked q)
    (hreports : q.reports = p.reports) (live : ∀ s, q.Live s ↔ p.Live s ∧ s ≠ cur)
    (hcur : p.Live cur) (hnext : nextOf p.pool cur = some next) (hne : cur ≠ tail) :
    p.WalkEnd cur tail (cur :: cells) reached reports := by
  have hlive : ∀ s, q.Live s → p.Live s := fun s hs => ((live s).mp hs).1
  have front : ∀ {stop}, Path (nextOf q.pool) next cells stop →
      Path (nextOf p.pool) cur (cur :: cells) stop := by
    intro stop hpath
    exact hpath.push hnext (fun c _ => (unlinked.links c).symm)
  have fresh : (∀ s ∈ cells, q.Live s) → cur ∉ cells := by
    intro hcells hmem
    exact ((live cur).mp (hcells cur hmem)).2 rfl
  have all : (∀ s ∈ cells, q.Live s) → ∀ s ∈ cur :: cells, p.Live s := by
    intro hcells s hs
    rcases List.mem_cons.mp hs with rfl | hs
    · exact hcur
    · exact hlive s (hcells s hs)
  cases h with
  | arrived chain =>
      rw [hreports]
      obtain ⟨stop, hpath⟩ := chain.path
      refine .arrived ⟨⟨stop, front hpath⟩, ?_,
        List.nodup_cons.mpr ⟨fresh chain.live, chain.nodup⟩, all chain.live⟩
      rw [List.getLast?_cons, chain.last]
      rfl
  | stuck stuck walk =>
      have hfault : q.chainFault tail stuck = p.chainFault tail stuck := by
        rw [chainFault, chainFault, unlinked.capacity]
      rw [hreports, hfault]
      refine .stuck stuck ⟨front walk.path, List.nodup_cons.mpr ⟨fresh walk.live, walk.nodup⟩,
        all walk.live, ?_, ?_⟩
      · rw [List.mem_cons, not_or]
        exact ⟨Ne.symm hne, walk.tail_notMem⟩
      · rcases walk.stuck with hstuck | hstuck
        · by_cases hs : stuck = cur
          · exact .inr (hs ▸ List.mem_cons_self)
          · exact .inl (fun hp => hstuck ((live stuck).mpr ⟨hp, hs⟩))
        · exact .inr (List.mem_cons_of_mem cur hstuck)

/-- The walk ends: every slot it releases is one live slot less. -/
theorem releaseChain_walk (skips : env.Skips) (hsize : p.pool.size = p.capacity)
    (hcap : p.capacity ≤ kMaxPoolCapacity) (h : p.Stamps freed) (hcur : cur < p.capacity)
    (hfuel : p.liveCount < fuel) :
    (releaseChain env tail fuel cur p).Returns (fun (reached, q) => ∃ cells,
      p.WalkEnd cur tail cells reached q.reports ∧ q.Stamps (cells.reverse ++ freed) ∧
      p.Unlinked q) := by
  induction fuel generalizing freed cur p with
  | zero => omega
  | succ fuel ih =>
      obtain ⟨o, ho⟩ : ∃ o, p.pool[cur]? = some o :=
        ⟨_, Array.getElem?_eq_getElem (by rw [hsize]; exact hcur)⟩
      rw [releaseChain, h.isStampedLive hcur, ok_bind]
      by_cases hlive : cur ∈ freed
      · have hnot : ¬p.Live cur := fun hl => (h.live_iff.mp hl).2 hlive
        have hfault : p.chainFault tail cur = _ := if_pos hcur
        rw [if_neg (by simpa using hlive), poolFault_skips skips, ok_bind, pure_eq_ok, ← hfault]
        refine ⟨[], .stuck cur ⟨rfl, List.nodup_nil, ?_, List.not_mem_nil, .inl hnot⟩, ?_, ?_⟩
        · exact fun s hs => absurd hs List.not_mem_nil
        · exact h.congr rfl rfl rfl rfl rfl
        · exact ⟨rfl, rfl, rfl, fun _ => rfl⟩
      · have hcurLive : p.Live cur := h.live_iff.mpr ⟨hcur, hlive⟩
        rw [if_pos (by simpa using hlive)]
        refine (stampFree_walked h ho hcur hlive).bind ?_
        rintro q ⟨hstamps, hwalk, hq⟩
        have unlinked := hwalk.unlinked
        have hqcap := hwalk.outside.capacity
        have hreports := hwalk.outside.reports
        by_cases htail : cur = tail
        · simp only [if_pos htail, pure_eq_ok, returns_ok, hreports]
          subst htail
          refine ⟨[cur], .arrived ⟨⟨o.next, rfl, o.next, nextOf_eq ho, rfl⟩, rfl,
            List.nodup_singleton cur, ?_⟩, hstamps, unlinked⟩
          intro s hs
          rwa [List.mem_singleton.mp hs]
        simp only [if_neg htail, vecRead_eq hq, ok_bind, Order.poisonPayload_next]
        by_cases hnext : o.next < p.capacity
        · have hvalid : ¬(o.next = INVALID_INDEX ∨ o.next ≥ q.capacity) := by
            simp only [kMaxPoolCapacity, INVALID_INDEX, hqcap] at *
            omega
          have hlive' : ∀ s, q.Live s ↔ p.Live s ∧ s ≠ cur := by
            intro s
            rw [hstamps.live_iff, h.live_iff, hqcap, List.mem_cons, not_or]
            tauto
          have hcount : q.liveCount < fuel := by
            have hbefore := h.live
            have hafter := hstamps.live
            rw [List.length_cons, hqcap] at hafter
            omega
          simp only [hvalid, if_false]
          refine (ih (by rw [unlinked.size, hqcap, hsize]) (hqcap ▸ hcap) hstamps
            (hqcap ▸ hnext) hcount).mono ?_
          rintro ⟨reached, r⟩ ⟨cells, hend, hr, unlinked'⟩
          refine ⟨cur :: cells, ?_, ?_, unlinked.trans unlinked'⟩
          · exact hend.cons unlinked hreports hlive' hcurLive (nextOf_eq ho) htail
          · simpa [List.append_assoc] using hr
        · have hwild : o.next = INVALID_INDEX ∨ o.next ≥ q.capacity := .inr (by omega)
          have hfault : p.chainFault tail o.next = _ := if_neg hnext
          simp only [hwild, if_true, poolFault_skips skips, ok_bind, pure_eq_ok, returns_ok,
            ← hfault, hreports]
          refine ⟨[cur], .stuck o.next ⟨⟨rfl, o.next, nextOf_eq ho, rfl⟩,
            List.nodup_singleton cur, ?_, ?_, .inl (fun hl => hnext hl.1)⟩, ?_, ?_⟩
          · intro s hs
            rwa [List.mem_singleton.mp hs]
          · simpa using Ne.symm htail
          · exact hstamps.congr rfl rfl rfl rfl rfl
          · exact ⟨unlinked.capacity, unlinked.size, unlinked.head, unlinked.links⟩

/-- How a chain free that reports a fault breaks off. -/
inductive BrokenOff (p : MemoryPool) (head tail : Nat) : List Nat → PoolFault → Prop
  | outOfRange (range : ¬(head < p.capacity ∧ tail < p.capacity)) :
      BrokenOff p head tail []
        ⟨"MemoryPool::deallocate_chain: head/tail index out of range",
          if head < p.capacity then tail else head⟩
  | stuck (range : head < p.capacity ∧ tail < p.capacity) {cells : List Nat} {stuck : Nat}
      (walk : p.Stuck head tail cells stuck) :
      BrokenOff p head tail cells (p.chainFault tail stuck)

/-- A walk that starts at a slot that is not live releases nothing. -/
theorem BrokenOff.eq_nil {fault : PoolFault} (h : p.BrokenOff head tail cells fault)
    (hhead : ¬p.Live head) : cells = [] := by
  cases h with
  | outOfRange => rfl
  | stuck range walk =>
      cases cells with
      | nil => rfl
      | cons c cells =>
          obtain ⟨rfl, -⟩ := walk.path
          exact absurd (walk.live head List.mem_cons_self) hhead

/-- A live chain becomes the front of the free list, in either build. -/
theorem deallocateChain_whole (h : p.Guarded env free lost) (stamps : p.Stamps (free ++ lost))
    (chain : p.LiveChain head tail cells) :
    (p.deallocateChain env head tail).Returns (fun q =>
      q.Guarded env (cells ++ free) lost ∧ p.SameOutside q cells) := by
  obtain ⟨as, rfl⟩ := List.getLast?_eq_some_iff.mp chain.last
  obtain ⟨stop, hpath⟩ := chain.path
  refine deallocateChain_guarded h hpath chain.nodup ?_ ?_
  · exact fun s hs => (chain.live s hs).1
  · exact fun s hs => (stamps.live_iff.mp (chain.live s hs)).2

/-- Without one, the free list stays as it is and what the walk released is lost. -/
theorem deallocateChain_broken (skips : env.Skips) (h : p.Guarded env free lost)
    (hchain : ¬∃ cells, p.LiveChain head tail cells) :
    (p.deallocateChain env head tail).Returns (fun q => ∃ cells fault,
      p.BrokenOff head tail cells fault ∧ q.reports = p.reports ++ [fault] ∧ p.Unlinked q ∧
      q.Guarded env free (cells.reverse ++ lost)) := by
  have hstamps := h.stamps skips.tools
  rw [deallocateChain, if_pos skips.tools]
  by_cases hrange : head < p.capacity ∧ tail < p.capacity
  · rw [if_neg (by omega)]
    have hfuel : p.liveCount < p.capacity + 1 := by
      have := hstamps.live
      omega
    refine (releaseChain_walk skips h.size h.capacity_le hstamps hrange.1 hfuel).bind ?_
    rintro ⟨reached, q⟩ ⟨cells, hend, hq, unlinked⟩
    generalize hreports : q.reports = reports at hend
    cases hend with
    | arrived chain => exact absurd ⟨cells, chain⟩ hchain
    | stuck stuck walk =>
        refine ⟨cells, _, .stuck hrange walk, hreports, unlinked, unlinked.toLinks h.toLinks,
          fun _ => hq.perm ?_⟩
        rw [← List.append_assoc, ← List.append_assoc]
        exact List.perm_append_comm.append_right lost
  · rw [if_pos (by omega), poolFault_skips skips]
    refine ⟨[], _, .outOfRange hrange, rfl, ⟨rfl, rfl, rfl, fun _ => rfl⟩, ?_, ?_⟩
    · exact ⟨h.size, h.capacity_le, h.path, h.nodup, h.bound⟩
    · exact fun _ => hstamps.congr rfl rfl rfl rfl rfl

end MemoryPool

end Hft
