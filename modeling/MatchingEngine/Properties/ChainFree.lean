import MatchingEngine.Verification.Ownership

/-!
# Freeing a chain whose links the client may have overwritten

The instrumented chain free ends on every input. Either it does what the release
splice does, or it reports one fault and leaves the free list alone.
-/

namespace Hft.MemoryPool

open Machine Machine.Checked

variable {env : Env} {p : MemoryPool} {free lost cells : List Nat} {head tail : Nat}

/-- A splice changes the links of the chain and no others, the same in every build. -/
theorem splice_agrees {release : Env} {q r : MemoryPool} {lost' : List Nat}
    (hq : q.Guarded env free lost) (hr : r.Guarded release free lost')
    (same : p.SameOutside q cells) (same' : p.SameOutside r cells) (hcells : cells ⊆ free) :
    r.freeHead = q.freeHead ∧ ∀ s, nextOf r.pool s = nextOf q.pool s := by
  refine ⟨hr.freeHead_eq.trans hq.freeHead_eq.symm, fun s => ?_⟩
  by_cases hs : s ∈ cells
  · exact hq.path.links_eq hr.path s (hcells hs)
  · exact nextOf_congr ((same'.slots s hs).trans (same.slots s hs).symm)

/-- The flags after the walk are those before it, less the slots it released. -/
theorem live_after {q : MemoryPool} {freed freed' : List Nat} (h : p.Stamps freed)
    (h' : q.Stamps freed') (hcap : q.capacity = p.capacity) (hperm : freed'.Perm (cells ++ freed))
    (s : Nat) : q.Live s ↔ p.Live s ∧ s ∉ cells := by
  rw [h.live_iff, h'.live_iff, hcap, hperm.mem_iff, List.mem_append, not_or]
  tauto

/-- The effect of `deallocate_chain head tail` on a pool whose free list is `free`
and whose other released slots are `lost`. -/
structure ChainFreeExact (env : Env) (p : MemoryPool) (free lost : List Nat) (head tail : Nat) :
    Prop where
  whole : ∀ cells, p.LiveChain head tail cells →
    (p.deallocateChain env head tail).Returns (fun q =>
      q.reports = p.reports ∧ (∀ s, q.Live s ↔ p.Live s ∧ s ∉ cells) ∧
      q.Guarded env (cells ++ free) lost ∧
      ∀ release : Env, release.debugTools = false →
        (p.deallocateChain release head tail).Returns (fun r =>
          r.freeHead = q.freeHead ∧ ∀ s, nextOf r.pool s = nextOf q.pool s))
  broken : (¬∃ cells, p.LiveChain head tail cells) →
    (p.deallocateChain env head tail).Returns (fun q => ∃ cells fault,
      p.BrokenOff head tail cells fault ∧ q.reports = p.reports ++ [fault] ∧
      (∀ s, q.Live s ↔ p.Live s ∧ s ∉ cells) ∧ (¬p.Live head → cells = []) ∧
      q.freeHead = p.freeHead ∧ (∀ s, nextOf q.pool s = nextOf p.pool s) ∧
      q.Guarded env free (cells.reverse ++ lost))

theorem deallocateChain_exact (skips : env.Skips) (h : p.Guarded env free lost)
    (head tail : Nat) : p.ChainFreeExact env free lost head tail := by
  have hstamps := h.stamps skips.tools
  constructor
  · intro cells chain
    refine (deallocateChain_whole h hstamps chain).mono ?_
    rintro q ⟨hq, same⟩
    refine ⟨same.reports, ?_, hq, fun release hrelease => ?_⟩
    · refine live_after hstamps (hq.stamps skips.tools) same.capacity ?_
      rw [List.append_assoc]
    · have unstamped : p.Guarded release free lost :=
        ⟨h.toLinks, fun ht => absurd (hrelease.symm.trans ht) Bool.false_ne_true⟩
      refine (deallocateChain_whole unstamped hstamps chain).mono ?_
      rintro r ⟨hr, same'⟩
      exact splice_agrees hq hr same same' (List.subset_append_left cells free)
  · intro hchain
    refine (deallocateChain_broken skips h hchain).mono ?_
    rintro q ⟨cells, fault, broken, hreports, unlinked, hq⟩
    refine ⟨cells, fault, broken, hreports, ?_, broken.eq_nil, unlinked.head, unlinked.links, hq⟩
    refine live_after hstamps (hq.stamps skips.tools) unlinked.capacity ?_
    refine List.perm_append_comm.trans ?_
    rw [List.append_assoc]
    exact (List.reverse_perm cells).append List.perm_append_comm

/-- Slots 0 and 1 are handed out and 0 leads to 1; slot 2 is free. -/
def linkedPair : MemoryPool :=
  let fresh : Order := ({} : Order).poisonPayload POISON_BYTE_FRESH
  let bytes := poisonPadding POISON_BYTE_FRESH
  { capacity := 3
    pool := #[{ fresh with next := 1 }, fresh, {}], padding := #[bytes, bytes, 0]
    freeHead := 2
    allocated := #[true, true, false], slotState := #[.Live, .Live, .Free]
    slotGeneration := #[1, 1, 0]
    totalAllocs := 2, totalFrees := 0, liveCount := 2, highWater := 2, reports := [] }

example : (do
    let p ← construct Env.skipping 3
    let (_, p) ← p.allocate Env.skipping
    let (_, p) ← p.allocate Env.skipping
    p.setOverlayLink 0 1) = .ok linkedPair := by decide

theorem linkedPair_guarded : linkedPair.Guarded Env.skipping [2] [] where
  size := rfl
  capacity_le := by decide
  path := ⟨rfl, _, rfl, rfl⟩
  nodup := by decide
  bound := by decide
  stamps := fun _ => ⟨by decide, by decide, rfl, rfl, by decide, by decide⟩

/-- From 0 to 1 there is a live chain; from 1 the links leave the pool. -/
theorem deallocateChain_exact_small :
    linkedPair.LiveChain 0 1 [0, 1] ∧ linkedPair.ChainFreeExact Env.skipping [2] [] 0 1 ∧
    (¬∃ cells, linkedPair.LiveChain 1 0 cells) ∧
    linkedPair.ChainFreeExact Env.skipping [2] [] 1 0 := by
  have hexact := deallocateChain_exact Env.skipping_skips linkedPair_guarded
  refine ⟨⟨⟨INVALID_INDEX, rfl, _, rfl, rfl, _, rfl, rfl⟩, rfl, by decide, ?_⟩, hexact 0 1, ?_,
    hexact 1 0⟩
  · intro s hs
    rcases List.mem_pair.mp hs with rfl | rfl
    · exact ⟨by decide, rfl⟩
    · exact ⟨by decide, rfl⟩
  · rintro ⟨cells, ⟨stop, hpath⟩, hlast, -, hlive⟩
    cases cells with
    | nil => cases hlast
    | cons c cells =>
        obtain ⟨rfl, next, hnext, hrest⟩ := hpath
        have hlink : INVALID_INDEX = next := Option.some.inj hnext
        cases cells with
        | nil => exact absurd hlast (by decide)
        | cons d cells =>
            have hd : d < 3 := (hlive d (List.mem_cons_of_mem 1 List.mem_cons_self)).1
            rw [← hrest.1, ← hlink] at hd
            exact absurd hd (by decide)

end Hft.MemoryPool
