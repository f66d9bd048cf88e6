import MatchingEngine.Machine.Ensures
import MatchingEngine.Properties.Ownership

/-!
# The canary of a freed slot

A client may also write where it must not: past the link of a slot it does not hold, the
padding included. What `slot_payload_is_poisoned` answers is the last thing that happened
to the slot: a release sets the canary, handing the slot out takes it away, and a stray
write decides it anew.
-/

namespace Hft

open Machine Machine.Checked

namespace Order

/-- The pattern of a freed slot fills it past its link, members and padding. -/
def Poisoned (o : Order) (padding : Nat) : Prop :=
  o.poisonPayload POISON_BYTE_FREED = o ∧ padding = poisonPadding POISON_BYTE_FREED

instance (o : Order) (padding : Nat) : Decidable (o.Poisoned padding) :=
  inferInstanceAs (Decidable (_ ∧ _))

theorem poisonPayload_poisoned (o : Order) :
    (o.poisonPayload POISON_BYTE_FREED).Poisoned (poisonPadding POISON_BYTE_FREED) :=
  ⟨rfl, rfl⟩

theorem relink_poisoned {o : Order} {link padding : Nat} :
    ({ o with next := link } : Order).Poisoned padding ↔ o.Poisoned padding := by
  cases o
  simp only [Poisoned, poisonPayload, Order.mk.injEq, true_and]

end Order

namespace MemoryPool

variable {env : Env} {p q : MemoryPool} {i s padding head tail fuel cur : Nat} {o : Order}

instance (p : MemoryPool) (i : Nat) : Decidable (p.Live i) :=
  inferInstanceAs (Decidable (_ ∧ _))

/-- Every slot has its padding. -/
def Padded (p : MemoryPool) : Prop := p.padding.size = p.pool.size

theorem Padded.getElem? (h : p.Padded) (ho : p.pool[i]? = some o) :
    ∃ padding, p.padding[i]? = some padding :=
  ⟨_, Array.getElem?_eq_getElem (h ▸ lt_size_of_getElem? ho)⟩

def canary (p : MemoryPool) (s : Nat) : Option Bool := do
  let o ← p.pool[s]?
  let padding ← p.padding[s]?
  return decide (o.Poisoned padding)

theorem canary_congr (hpool : q.pool[s]? = p.pool[s]?)
    (hpadding : q.padding[s]? = p.padding[s]?) : q.canary s = p.canary s := by
  rw [canary, canary, hpool, hpadding]

theorem canary_eq (ho : p.pool[s]? = some o) (hpadding : p.padding[s]? = some padding) :
    p.canary s = some (decide (o.Poisoned padding)) := by
  rw [canary, ho, Option.bind_eq_bind, Option.bind_some, hpadding]
  rfl

/-! ## What a free does to the canaries -/

/-- Live slots were released and poisoned; all others were left alone. -/
structure Releases (p q : MemoryPool) : Prop where
  capacity : q.capacity = p.capacity
  padded : p.Padded → q.Padded
  slots : ∀ s, q.allocated[s]? = p.allocated[s]? ∧ q.canary s = p.canary s ∨
    p.allocated[s]? = some true ∧ q.allocated[s]? = some false ∧ q.canary s = some true

namespace Releases

theorem refl (p : MemoryPool) : p.Releases p := ⟨rfl, id, fun _ => Or.inl ⟨rfl, rfl⟩⟩

theorem trans {r : MemoryPool} (h : p.Releases q) (h' : q.Releases r) : p.Releases r := by
  refine ⟨h'.capacity.trans h.capacity, fun hp => h'.padded (h.padded hp), fun s => ?_⟩
  rcases h.slots s with ⟨hflag, hcanary⟩ | ⟨hlive, hfreed, hpoison⟩
  · rcases h'.slots s with ⟨hflag', hcanary'⟩ | ⟨hlive', hfreed', hpoison'⟩
    · exact Or.inl ⟨hflag'.trans hflag, hcanary'.trans hcanary⟩
    · exact Or.inr ⟨hflag.symm.trans hlive', hfreed', hpoison'⟩
  · rcases h'.slots s with ⟨hflag', hcanary'⟩ | ⟨hlive', -, -⟩
    · exact Or.inr ⟨hlive, hflag'.trans hfreed, hcanary'.trans hpoison⟩
    · rw [hfreed] at hlive'
      cases hlive'

end Releases

theorem poolFault_releases (message : String) (slotIndex : Nat) :
    (poolFault env p message slotIndex).Ensures (fun q => p.Releases q) := by
  unfold poolFault
  split
  · exact .ite (.ok ⟨rfl, id, fun _ => Or.inl ⟨rfl, rfl⟩⟩) .error
  · exact .error

/-- Writing all of a slot. -/
theorem canary_fill (h : p.Padded) (ho : p.pool[i]? = some o) (o' : Order) (bytes s : Nat) :
    ({ p with
      pool := p.pool.setIfInBounds i o'
      padding := p.padding.setIfInBounds i bytes } : MemoryPool).canary s =
      if s = i then some (decide (o'.Poisoned bytes)) else p.canary s := by
  by_cases hs : s = i
  · subst hs
    rw [if_pos rfl]
    refine canary_eq ((getElem?_set_slot ho o').trans (if_pos rfl)) ?_
    exact Array.getElem?_setIfInBounds_self_of_lt (h ▸ lt_size_of_getElem? ho)
  · rw [if_neg hs]
    refine canary_congr ((getElem?_set_slot ho o').trans (if_neg hs)) ?_
    exact Array.getElem?_setIfInBounds_ne (Ne.symm hs)

theorem Padded.fill (h : p.Padded) (o' : Order) (bytes : Nat) :
    (p.padding.setIfInBounds i bytes).size = (p.pool.setIfInBounds i o').size := by
  rw [Array.size_setIfInBounds, Array.size_setIfInBounds]
  exact h

/-- The link is no part of the canary. -/
theorem canary_relink (ho : p.pool[i]? = some o) (link s : Nat) :
    ({ p with pool := p.pool.setIfInBounds i { o with next := link } } : MemoryPool).canary s =
      p.canary s := by
  have hread := getElem?_set_slot (j := s) ho { o with next := link }
  by_cases hs : s = i
  · subst hs
    rw [if_pos rfl] at hread
    rw [canary, canary, hread, ho]
    exact congrArg (p.padding[s]?.bind ·) (funext (fun padding =>
      congrArg some (decide_eq_decide.mpr Order.relink_poisoned)))
  · exact canary_congr (hread.trans (if_neg hs)) rfl

theorem setOverlayLink_releases (link : Nat) :
    (p.setOverlayLink i link).Ensures (fun q => p.Releases q) := by
  intro q hq
  obtain ⟨pool, hpool, hq⟩ := bind_eq_ok_iff.mp hq
  obtain ⟨o, ho, rfl⟩ := modifyOrder_eq_ok_iff.mp hpool
  cases hq
  refine ⟨rfl, fun hp => ?_, fun s => Or.inl ⟨rfl, canary_relink ho link s⟩⟩
  exact hp.trans Array.size_setIfInBounds.symm

theorem pushFree_releases (linked head : Nat) :
    (p.pushFree linked head).Ensures (fun q => p.Releases q) :=
  (setOverlayLink_releases p.freeHead).bind (fun _ hq => .ok ⟨hq.capacity, hq.padded, hq.slots⟩)

theorem linkFreeList_releases (i : Nat) :
    (linkFreeList i p).Ensures (fun q => p.Releases q) := by
  induction i generalizing p with
  | zero => exact .ok (Releases.refl p)
  | succ i ih =>
      refine (setOverlayLink_releases p.freeHead).bind (fun p' hp' => ?_)
      exact ih.mono (fun q hq => hp'.trans ⟨hq.capacity, hq.padded, hq.slots⟩)

theorem canary_new {n : Nat} (hpool : p.pool = Array.replicate n {})
    (hpadding : p.padding = Array.replicate n 0) (hs : s < n) : p.canary s = some false := by
  have ho : p.pool[s]? = some {} := by
    rw [hpool]
    exact Array.getElem?_replicate.trans (if_pos hs)
  have hbytes : p.padding[s]? = some 0 := by
    rw [hpadding]
    exact Array.getElem?_replicate.trans (if_pos hs)
  exact (canary_eq ho hbytes).trans (by decide)

/-- A slot that has never been handed out does not look like a freed one. -/
theorem construct_canary (env : Env) (maxCapacity : Nat) :
    (construct env maxCapacity).Ensures (fun p =>
      p.Padded ∧ ∀ s < p.capacity, p.canary s = some false) := by
  refine (linkFreeList_releases _).mono (fun p hp => ⟨hp.padded ?_, fun s hs => ?_⟩)
  · exact Array.size_replicate.trans Array.size_replicate.symm
  rcases hp.slots s with ⟨-, hcanary⟩ | ⟨hlive, -, -⟩
  · rw [hp.capacity] at hs
    exact hcanary.trans (canary_new rfl rfl hs)
  · simp [Array.getElem?_replicate] at hlive

theorem stampFree_releases (hp : p.Padded) (h : p.allocated[i]? = some true) :
    (p.stampFree i).Ensures (fun q => p.Releases q) := by
  intro q hq
  obtain ⟨allocated, hallocated, hq⟩ := bind_eq_ok_iff.mp hq
  obtain ⟨slotState, -, hq⟩ := bind_eq_ok_iff.mp hq
  obtain ⟨live, -, hq⟩ := bind_eq_ok_iff.mp hq
  obtain ⟨pool, hpool, hq⟩ := bind_eq_ok_iff.mp hq
  obtain ⟨hlt, rfl⟩ := vecWrite_eq_ok_iff.mp hallocated
  obtain ⟨o, ho, rfl⟩ := modifyOrder_eq_ok_iff.mp hpool
  cases hq
  have hcanary := canary_fill hp ho (o.poisonPayload POISON_BYTE_FREED)
    (poisonPadding POISON_BYTE_FREED)
  rw [decide_eq_true o.poisonPayload_poisoned] at hcanary
  refine ⟨rfl, fun _ => hp.fill _ _, fun s => ?_⟩
  by_cases hs : s = i
  · subst hs
    refine Or.inr ⟨h, ?_, (hcanary s).trans (if_pos rfl)⟩
    exact (Array.getElem?_setIfInBounds_self_of_lt hlt)
  · refine Or.inl ⟨?_, (hcanary s).trans (if_neg hs)⟩
    exact Array.getElem?_setIfInBounds_ne (Ne.symm hs)

theorem isStampedLive_ensures (i : Nat) :
    (p.isStampedLive i).Ensures (fun live => live = true → p.allocated[i]? = some true) := by
  intro live h hlive
  obtain ⟨allocated, hallocated, h⟩ := bind_eq_ok_iff.mp h
  obtain ⟨state, -, h⟩ := bind_eq_ok_iff.mp h
  cases h
  rw [Bool.and_eq_true] at hlive
  rw [← hlive.1]
  exact vecRead_eq_ok_iff.mp hallocated

theorem deallocate_releases (htools : env.debugTools = true) (hp : p.Padded) (index : Nat) :
    (p.deallocate env index).Ensures (fun q => p.Releases q) := by
  rw [deallocate, if_pos htools]
  refine .ite (poolFault_releases _ _) ((isStampedLive_ensures index).bind (fun live hlive => ?_))
  split
  · rename_i h
    refine (stampFree_releases hp (hlive h)).bind (fun p' hp' => ?_)
    exact (pushFree_releases index index).mono (fun _ hq => hp'.trans hq)
  · exact poolFault_releases _ _

theorem releaseChain_releases (hp : p.Padded) (tail fuel cur : Nat) :
    (releaseChain env tail fuel cur p).Ensures (fun (_, q) => p.Releases q) := by
  induction fuel generalizing cur p with
  | zero => exact .error
  | succ fuel ih =>
      refine (isStampedLive_ensures cur).bind (fun live hlive => ?_)
      split
      · rename_i h
        refine (stampFree_releases hp (hlive h)).bind (fun p' hp' => .ite (.ok hp') ?_)
        refine .skip (fun slot => .ite ?_ ?_)
        · exact (poolFault_releases _ _).bind (fun q hq => .ok (hp'.trans hq))
        · exact (ih (hp'.padded hp) slot.next).mono (fun _ hq => hp'.trans hq)
      · exact (poolFault_releases _ _).bind (fun q hq => .ok hq)

theorem deallocateChain_releases (htools : env.debugTools = true) (hp : p.Padded)
    (head tail : Nat) :
    (p.deallocateChain env head tail).Ensures (fun q => p.Releases q) := by
  rw [deallocateChain, if_pos htools]
  refine .ite (poolFault_releases _ _) ((releaseChain_releases hp tail _ head).bind ?_)
  rintro ⟨reached, p'⟩ hp'
  exact .ite ((pushFree_releases tail head).mono (fun _ hq => hp'.trans hq)) (.ok hp')

/-! ## What a call does to the canaries -/

/-- A slot that is not live was so before, and is as it was, or has been released. -/
structure Handles (p q : MemoryPool) : Prop where
  capacity : q.capacity = p.capacity
  padded : p.Padded → q.Padded
  canaries : ∀ s < p.capacity, ¬q.Live s →
    q.canary s = if p.Live s then some true else p.canary s

theorem Releases.handles (h : p.Releases q) : p.Handles q := by
  refine ⟨h.capacity, h.padded, fun s hs hfreed => ?_⟩
  rcases h.slots s with ⟨hflag, hcanary⟩ | ⟨hlive, -, hpoison⟩
  · have hnot : ¬p.Live s := fun hl => hfreed ⟨h.capacity ▸ hs, hflag.trans hl.2⟩
    rw [if_neg hnot, hcanary]
  · rw [if_pos (show p.Live s from ⟨hs, hlive⟩), hpoison]

/-- Only a slot that is live afterwards has been touched. -/
theorem handles_of_live (hcapacity : q.capacity = p.capacity) (padded : p.Padded → q.Padded)
    (hlive : q.Live i) (others : ∀ s, s ≠ i → q.allocated[s]? = p.allocated[s]? ∧
      q.canary s = p.canary s) : p.Handles q := by
  refine ⟨hcapacity, padded, fun s hs hfreed => ?_⟩
  have hne : s ≠ i := by
    rintro rfl
    exact hfreed hlive
  obtain ⟨hflag, hcanary⟩ := others s hne
  have hnot : ¬p.Live s := fun hl => hfreed ⟨hcapacity ▸ hs, hflag.trans hl.2⟩
  rw [if_neg hnot, hcanary]

theorem stampLive_handles (hlt : i < p.capacity) :
    (p.stampLive i).Ensures (fun q => p.Handles q) := by
  intro q hq
  obtain ⟨allocated, hallocated, hq⟩ := bind_eq_ok_iff.mp hq
  obtain ⟨slotState, -, hq⟩ := bind_eq_ok_iff.mp hq
  obtain ⟨generation, -, hq⟩ := bind_eq_ok_iff.mp hq
  obtain ⟨slotGeneration, -, hq⟩ := bind_eq_ok_iff.mp hq
  obtain ⟨live, -, hq⟩ := bind_eq_ok_iff.mp hq
  obtain ⟨pool, hpool, hq⟩ := bind_eq_ok_iff.mp hq
  obtain ⟨hflag, rfl⟩ := vecWrite_eq_ok_iff.mp hallocated
  obtain ⟨hslot, rfl⟩ := vecWrite_eq_ok_iff.mp hpool
  cases hq
  refine handles_of_live rfl (fun hp => hp.fill _ _)
    ⟨hlt, Array.getElem?_setIfInBounds_self_of_lt hflag⟩ (fun s hs => ?_)
  refine ⟨Array.getElem?_setIfInBounds_ne (Ne.symm hs), canary_congr ?_ ?_⟩
  · exact Array.getElem?_setIfInBounds_ne (Ne.symm hs)
  · exact Array.getElem?_setIfInBounds_ne (Ne.symm hs)

end MemoryPool

/-! ## Clients that write where they must not -/

/-- A call of a client, or a write to the bytes past the link of a slot, held or not. -/
inductive StrayCall
  | call (c : PoolCall)
  | scribble (index : UInt32) (contents : Order) (padding : Nat)

/-- A pool and its past, and for each slot whether the last thing that happened to it has left
the pattern of a freed slot. -/
structure CanaryHistory where
  past : PoolHistory
  poisoned : Nat → Bool

namespace CanaryHistory

def start (env : Env) (maxCapacity : Nat) : Checked CanaryHistory := do
  let past ← PoolHistory.start env maxCapacity
  return ⟨past, fun _ => false⟩

def step (env : Env) (h : CanaryHistory) : StrayCall → Checked CanaryHistory
  | .call c => do
      let past ← h.past.step env c
      let poisoned s :=
        if past.pool.Live s then false else if h.past.pool.Live s then true else h.poisoned s
      return ⟨past, poisoned⟩
  | .scribble index contents bytes =>
      let pool := h.past.pool
      if index.toNat < pool.capacity then do
        let slots ← modifyOrder pool.pool index.toNat (fun o => { contents with next := o.next })
        let padding := pool.padding.setIfInBounds index.toNat bytes
        let poisoned s :=
          if s = index.toNat ∧ ¬pool.Live s then decide (contents.Poisoned bytes)
          else h.poisoned s
        return ⟨{ h.past with pool := { pool with pool := slots, padding } }, poisoned⟩
      else return h

def run (env : Env) (maxCapacity : Nat) (calls : List StrayCall) : Checked CanaryHistory := do
  let h ← start env maxCapacity
  calls.foldlM (step env) h

end CanaryHistory

namespace PoolHistory

open MemoryPool

variable {env : Env} {h : PoolHistory} {free lost : List Nat}

theorem allocate_handles (htools : env.debugTools = true) (hs : h.Sound env free lost) :
    (h.pool.allocate env).Ensures (fun (_, q) => h.pool.Handles q) := by
  unfold MemoryPool.allocate
  split
  · exact .ok (Releases.refl h.pool).handles
  · rename_i hvalid
    have hlt : h.pool.freeHead < h.pool.capacity := by
      have hpath := hs.guarded.path
      cases free with
      | nil => exact absurd hpath hvalid
      | cons s rest => exact hpath.1 ▸ hs.guarded.bound s List.mem_cons_self
    refine .skip (fun obj => ?_)
    have hlt' : h.pool.freeHead < ({ h.pool with freeHead := obj.next } : MemoryPool).capacity :=
      hlt
    exact (stampLive_handles hlt').bind (fun q hq => .ok ⟨hq.capacity, hq.padded, hq.canaries⟩)

theorem isAllocated_ensures (htools : env.debugTools = true) (p : MemoryPool) (i : Nat) :
    (p.isAllocated env i).Ensures (fun live => live = true → p.Live i) := by
  unfold isAllocated
  split
  · rename_i hlt
    intro live hread hlive
    exact ⟨hlt, hlive ▸ vecRead_eq_ok_iff.mp hread⟩
  · exact .ok (fun hlive => absurd hlive Bool.false_ne_true)

theorem step_handles (htools : env.debugTools = true) (hs : h.Sound env free lost)
    (hp : h.pool.Padded) (call : PoolCall) :
    (h.step env call).Ensures (fun h' => h.pool.Handles h'.pool) := by
  cases call with
  | allocate =>
      refine (allocate_handles htools hs).bind ?_
      rintro ⟨idx, q⟩ hq
      exact .ok hq
  | deallocate index =>
      exact (deallocate_releases htools hp _).bind (fun q hq => .ok hq.handles)
  | deallocateChain head tail =>
      exact (deallocateChain_releases htools hp _ _).bind (fun q hq => .ok hq.handles)
  | write index contents =>
      refine (isAllocated_ensures htools h.pool index.toNat).bind (fun live hlive => ?_)
      split
      · rename_i hl
        intro h' hwrite
        obtain ⟨slots, hslots, hwrite⟩ := bind_eq_ok_iff.mp hwrite
        obtain ⟨hlt, rfl⟩ := vecWrite_eq_ok_iff.mp hslots
        cases hwrite
        refine handles_of_live rfl ?_ (hlive hl) (fun s hne => ⟨rfl, canary_congr ?_ rfl⟩)
        · exact fun hp => hp.trans Array.size_setIfInBounds.symm
        · exact Array.getElem?_setIfInBounds_ne (Ne.symm hne)
      · exact .ok (Releases.refl h.pool).handles

/-- A write past the link of a slot is of no concern to links and stamps. -/
theorem Sound.scribble (hs : h.Sound env free lost) {i : Nat} {o : Order}
    (ho : h.pool.pool[i]? = some o) (contents : Order) (padding : Array Nat) :
    ({ h with pool := { h.pool with
      pool := h.pool.pool.setIfInBounds i { contents with next := o.next }
      padding } } : PoolHistory).Sound env free lost := by
  have hg := hs.guarded
  have hlink : ({ contents with next := o.next } : Order).next = o.next := rfl
  refine ⟨⟨⟨?_, hg.capacity_le, ?_, hg.nodup, hg.bound⟩,
    fun ht => (hg.stamps ht).congr rfl rfl rfl rfl rfl⟩, hs.stranded, ?_⟩
  · exact Array.size_setIfInBounds.trans hg.size
  · exact hg.path.congr (fun c _ => nextOf_set ho hlink c)
  · exact ⟨hs.tallied.total, hs.tallied.frees, hs.tallied.highWater, hs.tallied.live_le,
      hs.tallied.generations⟩

end PoolHistory

namespace CanaryHistory

open MemoryPool

variable {env : Env} {h : CanaryHistory} {free lost : List Nat}

/-- The canaries tell what was last done to the slots. -/
structure Sound (env : Env) (h : CanaryHistory) (free lost : List Nat) : Prop where
  past : h.past.Sound env free lost
  padded : h.past.pool.Padded
  canaries : ∀ s < h.past.pool.capacity, ¬h.past.pool.Live s →
    h.past.pool.canary s = some (h.poisoned s)
  live : ∀ s, h.past.pool.Live s → h.poisoned s = false
  outside : ∀ s, h.past.pool.capacity ≤ s → h.poisoned s = false

theorem step_sound (skips : env.Skips) (hs : h.Sound env free lost) (call : StrayCall) :
    (h.step env call).Returns (fun h' => ∃ free' lost', h'.Sound env free' lost') := by
  cases call with
  | call c =>
      have hstep := (PoolHistory.step_sound skips hs.past c).and_ensures
        (PoolHistory.step_handles skips.tools hs.past hs.padded c)
      refine hstep.bind ?_
      rintro past ⟨⟨free', lost', hpast⟩, hhandles⟩
      refine ⟨free', lost', hpast, hhandles.padded hs.padded, fun s hlt hfreed => ?_,
        fun s hlive => if_pos hlive, ?_⟩
      · rw [hhandles.capacity] at hlt
        refine Eq.trans ?_ (congrArg some (if_neg hfreed).symm)
        rw [hhandles.canaries s hlt hfreed]
        split
        · rfl
        · rename_i hnot
          exact hs.canaries s hlt hnot
      · intro s hge
        rw [hhandles.capacity] at hge
        have hnot : ¬past.pool.Live s := fun hl => by
          have := hhandles.capacity ▸ hl.1
          omega
        have hnot' : ¬h.past.pool.Live s := fun hl => by
          have := hl.1
          omega
        exact (if_neg hnot).trans ((if_neg hnot').trans (hs.outside s hge))
  | scribble index contents bytes =>
      simp only [step]
      split
      · rename_i hlt
        have hsize : index.toNat < h.past.pool.pool.size := hs.past.guarded.size ▸ hlt
        have ho := Array.getElem?_eq_getElem hsize
        rw [modifyOrder_eq ho, ok_bind]
        refine ⟨free, lost, hs.past.scribble ho contents _, hs.padded.fill _ _,
          fun s hs' hfreed => ?_, fun s hlive => ?_, fun s hge => ?_⟩
        · refine (canary_fill hs.padded ho _ _ s).trans ?_
          by_cases hself : s = index.toNat
          · rw [if_pos hself]
            refine congrArg some (Eq.trans ?_ (if_pos ⟨hself, hfreed⟩).symm)
            exact decide_eq_decide.mpr Order.relink_poisoned
          · rw [if_neg hself]
            have hother : ¬(s = index.toNat ∧ ¬h.past.pool.Live s) := fun h => hself h.1
            exact (hs.canaries s hs' hfreed).trans (congrArg some (if_neg hother).symm)
        · exact (if_neg (fun h => h.2 hlive)).trans (hs.live s hlive)
        · have hne : ¬(s = index.toNat ∧ ¬h.past.pool.Live s) := by
            rintro ⟨rfl, -⟩
            exact absurd hlt (Nat.not_lt.mpr hge)
          exact (if_neg hne).trans (hs.outside s hge)
      · exact ⟨free, lost, hs⟩

theorem start_sound (skips : env.Skips) (maxCapacity : Nat) :
    (start env maxCapacity).Returns (fun h => ∃ free lost, h.Sound env free lost) := by
  have hpristine : (PoolHistory.start env maxCapacity).Ensures
      (fun past => past.pool.Padded ∧
        ∀ s < past.pool.capacity, past.pool.canary s = some false) :=
    (construct_canary env maxCapacity).bind (fun p hp => .ok hp)
  refine ((PoolHistory.start_sound env skips.tools maxCapacity).and_ensures hpristine).bind ?_
  rintro past ⟨⟨free, hpast⟩, hpadded, hfalse⟩
  exact ⟨free, [], hpast, hpadded, fun s hlt _ => hfalse s hlt, fun _ _ => rfl, fun _ _ => rfl⟩

theorem run_sound (skips : env.Skips) (maxCapacity : Nat) (calls : List StrayCall) :
    (run env maxCapacity calls).Returns (fun h => ∃ free lost, h.Sound env free lost) := by
  refine (start_sound skips maxCapacity).bind ?_
  rintro h ⟨free, lost, hs⟩
  refine foldlM_invariant ⟨free, lost, hs⟩ ?_
  rintro h' call ⟨free', lost', hs'⟩
  exact step_sound skips hs' call

/-- The canary of a slot is intact if, and only if, the last thing that happened to it was its
release, or a stray write that wrote the very pattern. -/
theorem run_canary (skips : env.Skips) (maxCapacity : Nat) (calls : List StrayCall) :
    (run env maxCapacity calls).Returns (fun h =>
      ∀ s, h.past.pool.slotPayloadIsPoisoned s = .ok (h.poisoned s)) := by
  refine (run_sound skips maxCapacity calls).mono ?_
  rintro h ⟨free, lost, hs⟩ s
  unfold slotPayloadIsPoisoned
  by_cases hlt : s < h.past.pool.capacity
  · have hflag := (hs.past.guarded.stamps skips.tools).flags s hlt
    rw [if_neg (Nat.not_le.mpr hlt), vecRead_eq hflag, ok_bind]
    have hlive := (hs.past.guarded.stamps skips.tools).live_iff (i := s)
    by_cases hmem : s ∈ free ++ lost
    · have hfreed : ¬h.past.pool.Live s := fun hl => (hlive.mp hl).2 hmem
      have hcanary := hs.canaries s hlt hfreed
      obtain ⟨o, ho⟩ := hs.past.guarded.getElem? hlt
      obtain ⟨padding, hpadding⟩ := hs.padded.getElem? ho
      have hnot : ¬decide (s ∉ free ++ lost) = true := fun hd => of_decide_eq_true hd hmem
      rw [canary_eq ho hpadding, Option.some.injEq] at hcanary
      rw [if_neg hnot, vecRead_eq ho, ok_bind, vecRead_eq hpadding, ok_bind, ← hcanary]
      rfl
    · rw [if_pos (decide_eq_true hmem), hs.live s (hlive.mpr ⟨hlt, hmem⟩)]
      rfl
  · rw [if_pos (Nat.le_of_not_lt hlt), hs.outside s (Nat.le_of_not_lt hlt)]

/-- Slot 0 is released; slot 1 is never handed out, and its members are forged. -/
theorem run_canary_small :
    (run Env.skipping 2 [.call .allocate, .call (.deallocate 0),
        .scribble 1 (({} : Order).poisonPayload POISON_BYTE_FREED) 0]).Returns
      (fun h => ∀ s, h.past.pool.slotPayloadIsPoisoned s = .ok (h.poisoned s)) :=
  run_canary Env.skipping_skips 2 _

-- The padding gives the forgery away.
example : (run Env.skipping 2 [.call .allocate, .call (.deallocate 0),
      .scribble 1 (({} : Order).poisonPayload POISON_BYTE_FREED) 0]).Returns
    (fun h => h.poisoned 0 = true ∧ h.poisoned 1 = false) :=
  ⟨rfl, rfl⟩

end CanaryHistory

end Hft
