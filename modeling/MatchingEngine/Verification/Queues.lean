import MatchingEngine.Machine.Runs
import MatchingEngine.Verification.Level
import MatchingEngine.Verification.Pool
import Mathlib.Algebra.Order.BigOperators.Group.List
import Mathlib.Logic.Function.Basic

/-!
# Queues that share a pool

Any number of levels link their orders through one array of slots. `Queues` relates
such a family to one list of slots for each level, no slot in two of them. An
operation on one level relinks slots of that level alone, and that is why the others
keep their lists.

No counter can overflow: the slots of a queue are distinct indices below
`INVALID_INDEX`, so a count fits its 32 bits, and as many quantities of 32 bits each
fit the 64 of a total.
-/

namespace Hft

open Machine Machine.Checked

/-- `s` indexes an order of the pool, one that has been filled in. The bounds are those of
the types of an index and of a quantity. -/
def IsSlot (pool : Array Order) (s : Nat) : Prop :=
  s < INVALID_INDEX ∧ ∃ o : Order, pool[s]? = some o ∧ o.written = true ∧ o.quantity < 2 ^ 32

/-- Nothing but `next` and `prev` of some slots differs. -/
def OnlyLinks (pool pool' : Array Order) : Prop :=
  pool'.size = pool.size ∧ ∀ (i : Nat) (o : Order), pool[i]? = some o →
    ∃ next prev, pool'[i]? = some { o with next, prev }

/-- What the orders in `slots` have left, together. -/
def heldIn (pool : Array Order) (slots : List Nat) : Nat :=
  (slots.map (fun s => (pool[s]?.map Order.quantity).getD 0)).sum

variable {pool pool' pool'' : Array Order} {s k : Nat} {slots as bs : List Nat} {o : Order}

namespace OnlyLinks

theorem refl (pool : Array Order) : OnlyLinks pool pool :=
  ⟨rfl, fun _ o ho => ⟨o.next, o.prev, ho⟩⟩

theorem trans (h : OnlyLinks pool pool') (h' : OnlyLinks pool' pool'') :
    OnlyLinks pool pool'' := by
  refine ⟨h'.1.trans h.1, fun i o ho => ?_⟩
  obtain ⟨next, prev, ho'⟩ := h.2 i o ho
  obtain ⟨next', prev', ho''⟩ := h'.2 i _ ho'
  exact ⟨next', prev', ho''⟩

theorem of_relinked (h : Relinked pool pool' slots) : OnlyLinks pool pool' := by
  refine ⟨h.size, fun i o ho => ?_⟩
  obtain ⟨o', ho', hpayload⟩ := h.payload i o ho
  refine ⟨o'.next, o'.prev, ho'.trans (congrArg some ?_)⟩
  simp only [Order.payload, Order.mk.injEq, true_and] at hpayload
  obtain ⟨hid, hprice, hquantity, hside, hwritten⟩ := hpayload
  cases o'
  simp_all

theorem isSlot (h : OnlyLinks pool pool') (hs : IsSlot pool s) : IsSlot pool' s := by
  obtain ⟨hlt, o, ho, hwritten, hquantity⟩ := hs
  obtain ⟨next, prev, ho'⟩ := h.2 s o ho
  exact ⟨hlt, _, ho', hwritten, hquantity⟩

theorem heldIn_eq (h : OnlyLinks pool pool') (slots : List Nat) :
    heldIn pool' slots = heldIn pool slots := by
  unfold heldIn
  congr 2
  funext s
  cases ho : pool[s]? with
  | some o =>
      obtain ⟨next, prev, ho'⟩ := h.2 s o ho
      rw [ho']
      rfl
  | none =>
      have hnone : pool'[s]? = none := by
        rw [Array.getElem?_eq_none_iff] at ho ⊢
        rwa [h.1]
      rw [hnone]

end OnlyLinks

/-! ### Counters -/

theorem heldIn_append (pool : Array Order) (as bs : List Nat) :
    heldIn pool (as ++ bs) = heldIn pool as + heldIn pool bs := by
  simp [heldIn]

theorem heldIn_singleton (ho : pool[s]? = some o) : heldIn pool [s] = o.quantity := by
  simp [heldIn, ho]

theorem heldIn_remove (ho : pool[s]? = some o) :
    heldIn pool (as ++ s :: bs) = heldIn pool (as ++ bs) + o.quantity := by
  have hs := heldIn_singleton ho
  rw [← List.singleton_append, heldIn_append, heldIn_append, heldIn_append, hs]
  omega

section Bounds

variable (hnodup : slots.Nodup) (hslots : ∀ s ∈ slots, IsSlot pool s)
include hnodup hslots

theorem length_lt_of_isSlot : slots.length < 2 ^ 32 := by
  have hle := MemoryPool.length_le_of_nodup hnodup (fun s hs => (hslots s hs).1)
  rw [INVALID_INDEX] at hle
  omega

theorem heldIn_lt_of_isSlot : heldIn pool slots < 2 ^ 64 := by
  have hlength := length_lt_of_isSlot hnodup hslots
  have hquantity : ∀ q ∈ slots.map (fun s => (pool[s]?.map Order.quantity).getD 0),
      q ≤ 2 ^ 32 - 1 := by
    intro q hq
    obtain ⟨s, hs, rfl⟩ := List.mem_map.mp hq
    obtain ⟨-, o, ho, -, hlt⟩ := hslots s hs
    rw [ho]
    exact Nat.le_sub_one_of_lt hlt
  have hsum := List.sum_le_card_nsmul _ _ hquantity
  rw [List.length_map, Nat.nsmul_eq_mul] at hsum
  calc heldIn pool slots ≤ slots.length * (2 ^ 32 - 1) := hsum
    _ ≤ (2 ^ 32 - 1) * (2 ^ 32 - 1) := Nat.mul_le_mul_right _ (by omega)
    _ < 2 ^ 64 := by decide

end Bounds

/-! ### A family of levels -/

/-- Levels, and the pool their orders are in. -/
structure LevelFamily (κ : Type) where
  levels : κ → PriceLevel
  pool : Array Order

namespace LevelFamily

variable {κ : Type} {x : LevelFamily κ} {Q : κ → List Nat} {k : κ}

/-- The levels hold the queues `Q`: lists of slots, no slot in two of them. -/
structure Queues (x : LevelFamily κ) (Q : κ → List Nat) : Prop where
  lists : ∀ k, (x.levels k).Lists x.pool (Q k) (heldIn x.pool (Q k))
  slots : ∀ k, ∀ s ∈ Q k, IsSlot x.pool s
  disjoint : ∀ j k, j ≠ k → (Q j).Disjoint (Q k)

variable [DecidableEq κ]

def appendOrder (x : LevelFamily κ) (k : κ) (orderIdx : Nat) : Checked (LevelFamily κ) := do
  let (level, pool) ← (x.levels k).appendOrder orderIdx x.pool
  return { levels := Function.update x.levels k level, pool }

def removeOrder (x : LevelFamily κ) (k : κ) (orderIdx : Nat) : Checked (LevelFamily κ) := do
  let (level, pool) ← (x.levels k).removeOrder orderIdx x.pool
  return { levels := Function.update x.levels k level, pool }

/-- A new queue at one level leaves the others alone, as long as the slots relinked and
the slots of the new queue are in none of them. -/
theorem Queues.replace (h : x.Queues Q) {level : PriceLevel} {pool : Array Order}
    {slots touched : List Nat} (hlists : level.Lists pool slots (heldIn pool slots))
    (hrelinked : Relinked x.pool pool touched) (hslots : ∀ s ∈ slots, IsSlot x.pool s)
    (hfresh : ∀ s ∈ slots, ∀ j ≠ k, s ∉ Q j) (htouched : ∀ s ∈ touched, ∀ j ≠ k, s ∉ Q j) :
    Queues { levels := Function.update x.levels k level, pool } (Function.update Q k slots) := by
  have hlinks := OnlyLinks.of_relinked hrelinked
  constructor
  · intro j
    by_cases hj : j = k
    · subst hj
      simpa only [Function.update_self] using hlists
    · simp only [Function.update_of_ne hj, hlinks.heldIn_eq]
      apply (h.lists j).congr
      intro s hs
      exact hrelinked.outside s (fun ht => htouched s ht j hj hs)
  · intro j s hs
    apply hlinks.isSlot
    by_cases hj : j = k
    · subst hj
      rw [Function.update_self] at hs
      exact hslots s hs
    · rw [Function.update_of_ne hj] at hs
      exact h.slots j s hs
  · intro i j hij s hi hj
    by_cases hik : i = k
    · subst hik
      rw [Function.update_self] at hi
      rw [Function.update_of_ne hij.symm] at hj
      exact hfresh s hi j hij.symm hj
    · rw [Function.update_of_ne hik] at hi
      by_cases hjk : j = k
      · subst hjk
        rw [Function.update_self] at hj
        exact hfresh s hj i hik hi
      · rw [Function.update_of_ne hjk] at hj
        exact h.disjoint i j hij hi hj

/-- Appending a slot that is in no queue. -/
theorem Queues.append (h : x.Queues Q) (hs : IsSlot x.pool s) (hfresh : ∀ j, s ∉ Q j) :
    (x.appendOrder k s).Returns (fun y =>
      y.Queues (Function.update Q k (Q k ++ [s])) ∧ OnlyLinks x.pool y.pool) := by
  obtain ⟨hlt, o, ho, hwritten, hquantity⟩ := id hs
  have hslots : ∀ t ∈ Q k ++ [s], IsSlot x.pool t := by
    intro t ht
    rcases List.mem_append.mp ht with ht | ht
    · exact h.slots k t ht
    · rwa [List.mem_singleton.mp ht]
  have hnodup : (Q k ++ [s]).Nodup :=
    List.nodup_append_comm.mp (List.nodup_cons.mpr ⟨hfresh k, (h.lists k).queue.nodup⟩)
  have hcount := length_lt_of_isSlot hnodup hslots
  have htotal := heldIn_lt_of_isSlot hnodup hslots
  rw [List.length_append, List.length_singleton] at hcount
  rw [heldIn_append, heldIn_singleton ho] at htotal
  have hothers : ∀ t ∈ Q k ++ [s], ∀ j ≠ k, t ∉ Q j := by
    intro t ht j hj hmem
    rcases List.mem_append.mp ht with ht | ht
    · exact h.disjoint j k hj hmem ht
    · exact hfresh j (List.mem_singleton.mp ht ▸ hmem)
  refine (PriceLevel.appendOrder_lists (h.lists k) ho hwritten (hfresh k) (Nat.ne_of_lt hlt)
    htotal hcount).bind ?_
  rintro ⟨level, pool⟩ ⟨hlists, -, hrelinked⟩
  have hlinks := OnlyLinks.of_relinked hrelinked
  rw [← heldIn_singleton ho, ← heldIn_append, ← hlinks.heldIn_eq] at hlists
  exact ⟨h.replace hlists hrelinked hslots hothers hothers, hlinks⟩

/-- Removing a slot from the queue it is in, wherever it stands there. -/
theorem Queues.remove (h : x.Queues Q) (hs : s ∈ Q k) :
    (x.removeOrder k s).Returns (fun y =>
      y.Queues (Function.update Q k ((Q k).erase s)) ∧ OnlyLinks x.pool y.pool ∧
      ∃ o : Order, y.pool[s]? = some o ∧ o.next = INVALID_INDEX ∧ o.prev = INVALID_INDEX) := by
  obtain ⟨as, bs, hsplit⟩ := List.append_of_mem hs
  obtain ⟨-, o, ho, hwritten, -⟩ := h.slots k s hs
  have hlists := h.lists k
  have hnodup := hlists.queue.nodup
  rw [hsplit] at hlists hnodup
  have herase : (Q k).erase s = as ++ bs := by
    have hsa : s ∉ as := fun ha => (List.nodup_append.mp hnodup).2.2 s ha s List.mem_cons_self rfl
    rw [hsplit, List.erase_append_right _ hsa, List.erase_cons_head]
  have hheld : heldIn x.pool (as ++ s :: bs) = heldIn x.pool (as ++ bs) + o.quantity :=
    heldIn_remove ho
  have hsub : as ++ bs ⊆ Q k := by
    rw [← herase]
    exact List.erase_subset
  refine (PriceLevel.removeOrder_lists hlists ho hwritten (by omega)).bind ?_
  rintro ⟨level, pool⟩ ⟨hlists', -, hrelinked, hremoved⟩
  have hlinks := OnlyLinks.of_relinked hrelinked
  rw [hheld, Nat.add_sub_cancel, ← hlinks.heldIn_eq] at hlists'
  rw [herase]
  rw [← hsplit] at hrelinked
  refine ⟨h.replace hlists' hrelinked (fun t ht => h.slots k t (hsub ht)) ?_ ?_, hlinks, _,
    hremoved, rfl, rfl⟩
  · exact fun t ht j hj hmem => h.disjoint j k hj hmem (hsub ht)
  · exact fun t ht j hj hmem => h.disjoint j k hj hmem ht

end LevelFamily

/-! ### Walks -/

/-- The slots on the way from `idx` along a link. -/
def walkLinks (link : Order → Nat) (pool : Array Order) :
    (fuel : Nat) → (idx : Nat) → Checked (List Nat)
  | 0, _ => .error .unfinished
  | fuel + 1, idx =>
      if idx = INVALID_INDEX then .ok []
      else do
        let order ← vecRead pool idx
        let slots ← walkLinks link pool fuel (link order)
        return idx :: slots

/-- From the head along `next`. -/
def PriceLevel.forward (level : PriceLevel) (pool : Array Order) : Checked (List Nat) :=
  walkLinks Order.next pool (pool.size + 1) level.head

/-- From the tail along `prev`. -/
def PriceLevel.backward (level : PriceLevel) (pool : Array Order) : Checked (List Nat) :=
  walkLinks Order.prev pool (pool.size + 1) level.tail

theorem walkLinks_eq {link : Order → Nat} {start fuel : Nat}
    (hpath : Path (fun i => pool[i]?.map link) start slots INVALID_INDEX)
    (hvalid : INVALID_INDEX ∉ slots) (hfuel : slots.length < fuel) :
    walkLinks link pool fuel start = .ok slots := by
  induction slots generalizing start fuel with
  | nil =>
      obtain ⟨fuel, rfl⟩ := Nat.exists_eq_add_one.mpr hfuel
      exact if_pos hpath
  | cons s slots ih =>
      obtain ⟨fuel, rfl⟩ := Nat.exists_eq_add_one.mpr (Nat.zero_lt_of_lt hfuel)
      obtain ⟨rfl, n, hn, hrest⟩ := hpath
      obtain ⟨o, ho, rfl⟩ := Option.map_eq_some_iff.mp hn
      have hne : start ≠ INVALID_INDEX := fun e => hvalid (e ▸ List.mem_cons_self)
      have htail := ih hrest (fun hmem => hvalid (List.mem_cons_of_mem start hmem))
        (Nat.lt_of_succ_lt_succ hfuel)
      rw [walkLinks, if_neg hne, vecRead_eq ho, ok_bind, htail, ok_bind, pure_eq_ok]

section Walks

variable {level : PriceLevel} {total : Nat} (h : level.Lists pool slots total)
include h

theorem PriceLevel.Lists.length_le : slots.length ≤ pool.size :=
  MemoryPool.length_le_of_nodup h.queue.nodup
    (fun _ hs => (h.getElem? hs).elim (fun _ ho => lt_size_of_getElem? ho))

theorem PriceLevel.Lists.forward_eq : level.forward pool = .ok slots :=
  walkLinks_eq h.queue.forward h.queue.nil_notMem (Nat.lt_succ_of_le h.length_le)

theorem PriceLevel.Lists.backward_eq : level.backward pool = .ok slots.reverse := by
  apply walkLinks_eq h.queue.backward
  · exact fun hmem => h.queue.nil_notMem (List.mem_reverse.mp hmem)
  · rw [List.length_reverse]
    exact Nat.lt_succ_of_le h.length_le

end Walks

end Hft
