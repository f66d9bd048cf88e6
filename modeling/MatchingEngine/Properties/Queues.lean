import MatchingEngine.Properties.Invariant
import MatchingEngine.Verification.Queues

/-!
# Price levels refine lists

A family of levels over one pool behaves as a family of lists: appending and removing
are the list operations at one level, and every other level keeps its list. The calls
allowed are those of the list side: append a slot that is in no list, remove one from
the list it is in.

The levels of a book are such a family.
-/

namespace Hft

open Machine Machine.Checked

/-- A call on one level of a family. -/
inductive QueueCall (κ : Type)
  | append (k : κ) (orderIdx : Nat)
  | remove (k : κ) (orderIdx : Nat)
  deriving DecidableEq, Repr

namespace LevelFamily

variable {κ : Type} [DecidableEq κ] {x : LevelFamily κ} {Q : κ → List Nat} {s : Nat}

def perform (x : LevelFamily κ) : QueueCall κ → Checked (LevelFamily κ)
  | .append k orderIdx => x.appendOrder k orderIdx
  | .remove k orderIdx => x.removeOrder k orderIdx

def run (x : LevelFamily κ) (calls : List (QueueCall κ)) : Checked (LevelFamily κ) :=
  calls.foldlM perform x

/-- The shadow lists after a call. -/
def shadow (Q : κ → List Nat) : QueueCall κ → κ → List Nat
  | .append k s => Function.update Q k (Q k ++ [s])
  | .remove k s => Function.update Q k ((Q k).erase s)

/-- A slot is appended while it is in no list, and removed from the list it is in. -/
def Allowed (pool : Array Order) (Q : κ → List Nat) : QueueCall κ → Prop
  | .append _ s => IsSlot pool s ∧ ∀ j, s ∉ Q j
  | .remove k s => s ∈ Q k

theorem Queues.perform (h : x.Queues Q) {call : QueueCall κ} (hcall : Allowed x.pool Q call) :
    (x.perform call).Returns (fun y => y.Queues (shadow Q call) ∧ OnlyLinks x.pool y.pool) := by
  cases call with
  | append k s => exact h.append hcall.1 hcall.2
  | remove k s => exact (h.remove hcall).mono (fun y hy => ⟨hy.1, hy.2.1⟩)

omit [DecidableEq κ] in
/-- Whether a call is allowed does not depend on the links. -/
theorem Allowed.of_onlyLinks {pool pool' : Array Order} {call : QueueCall κ}
    (h : OnlyLinks pool pool') (hcall : Allowed pool Q call) : Allowed pool' Q call := by
  cases call with
  | append k s => exact ⟨h.isSlot hcall.1, hcall.2⟩
  | remove k s => exact hcall

theorem Queues.run (h : x.Queues Q) {calls : List (QueueCall κ)}
    (hcalls : Admissible shadow (Allowed x.pool) Q calls) :
    (x.run calls).Returns (fun y =>
      y.Queues (calls.foldl shadow Q) ∧ OnlyLinks x.pool y.pool) := by
  have hstart : x.Queues Q ∧ OnlyLinks x.pool x.pool := ⟨h, OnlyLinks.refl x.pool⟩
  refine foldlM_refines (R := fun (y : LevelFamily κ) Q' => y.Queues Q' ∧ OnlyLinks x.pool y.pool)
    hstart ?_ hcalls
  rintro y Q' call ⟨hy, hlinks⟩ hcall
  refine (hy.perform (hcall.of_onlyLinks hlinks)).mono ?_
  rintro z ⟨hz, hlinks'⟩
  exact ⟨hz, hlinks.trans hlinks'⟩

/-- Appending and removing are the list operations at one level of the family, in any
sequence of calls; both links of a level then walk its list. -/
theorem queues_refine_lists (h : x.Queues Q) :
    (∀ k s, IsSlot x.pool s → (∀ j, s ∉ Q j) → (x.appendOrder k s).Returns (fun y =>
      y.Queues (Function.update Q k (Q k ++ [s])) ∧ OnlyLinks x.pool y.pool)) ∧
    (∀ k, ∀ s ∈ Q k, (x.removeOrder k s).Returns (fun y =>
      y.Queues (Function.update Q k ((Q k).erase s)) ∧ OnlyLinks x.pool y.pool ∧
      ∃ o : Order, y.pool[s]? = some o ∧ o.next = INVALID_INDEX ∧ o.prev = INVALID_INDEX)) ∧
    ∀ calls, Admissible shadow (Allowed x.pool) Q calls → (x.run calls).Returns (fun y =>
      y.Queues (calls.foldl shadow Q) ∧ OnlyLinks x.pool y.pool ∧
      ∀ k, (y.levels k).forward y.pool = .ok (calls.foldl shadow Q k) ∧
        (y.levels k).backward y.pool = .ok (calls.foldl shadow Q k).reverse) := by
  refine ⟨fun k s hs hfresh => h.append hs hfresh, fun k s hs => h.remove hs, ?_⟩
  intro calls hcalls
  refine (h.run hcalls).mono ?_
  rintro y ⟨hy, hlinks⟩
  exact ⟨hy, hlinks, fun k => ⟨(hy.lists k).forward_eq, (hy.lists k).backward_eq⟩⟩

/-- Two empty levels over three orders in no queue. -/
def twoLevels : LevelFamily Bool where
  levels := fun _ => {}
  pool :=
    #[{ id := 1, price := 100, quantity := 5, written := true },
      { id := 2, price := 101, quantity := 3, written := true },
      { id := 3, price := 100, quantity := 4, written := true }]

theorem twoLevels_isSlot (hs : s < 3) : IsSlot twoLevels.pool s := by
  obtain rfl | rfl | rfl : s = 0 ∨ s = 1 ∨ s = 2 := by omega
  · exact ⟨by decide, _, rfl, rfl, by decide⟩
  · exact ⟨by decide, _, rfl, rfl, by decide⟩
  · exact ⟨by decide, _, rfl, rfl, by decide⟩

theorem twoLevels_queues : twoLevels.Queues (fun _ => []) where
  lists := fun _ => (PriceLevel.Represents.empty twoLevels.pool).lists
  slots := fun _ _ hs => absurd hs List.not_mem_nil
  disjoint := fun _ _ _ => List.disjoint_nil_left []

theorem queues_refine_lists_small :
    (twoLevels.run [.append true 0, .append false 1, .append true 2, .remove true 0]).Returns
      (fun y => y.Queues (fun k => if k then [2] else [1]) ∧ OnlyLinks twoLevels.pool y.pool ∧
        ∀ k, (y.levels k).forward y.pool = .ok (if k then [2] else [1]) ∧
          (y.levels k).backward y.pool = .ok (if k then [2] else [1]).reverse) := by
  have hshadow : [QueueCall.append true 0, .append false 1, .append true 2, .remove true 0].foldl
      shadow (fun _ => []) = fun k => if k then [2] else [1] := by
    funext k
    cases k <;> rfl
  have hremove : 0 ∈ [0, 2] := by decide
  have hrun := (queues_refine_lists twoLevels_queues).2.2
    [.append true 0, .append false 1, .append true 2, .remove true 0]
    ⟨⟨twoLevels_isSlot (by decide), by decide⟩, ⟨twoLevels_isSlot (by decide), by decide⟩,
      ⟨twoLevels_isSlot (by decide), by decide⟩, hremove, trivial⟩
  rwa [hshadow] at hrun

end LevelFamily

namespace OrderBook

variable {env : Env} {g : Geometry} {b : OrderBook} {L : Ledger}

/-- The levels of both sides, by their indices. -/
def levelFamily (b : OrderBook) : LevelFamily (Side × Nat) where
  levels := fun k => ((b.side k.1).levels[k.2]?).getD {}
  pool := b.orderPool.pool

/-- The levels of a book hold the queues of its ledger. -/
theorem Store.queues (store : Store env g b L) :
    b.levelFamily.Queues (fun k => slotsOf L k.1 k.2) := by
  constructor
  · rintro ⟨side, i⟩
    by_cases hi : i < g.range
    · obtain ⟨level, hlevel, -, hrep⟩ := store.level_eq side hi
      have hheld : heldIn b.orderPool.pool (slotsOf L side i) =
          Greedy.total Resting.quantity (L.queue side i) := store.quantity_slotsOf
      show (((b.side side).levels[i]?).getD {}).Lists b.orderPool.pool (slotsOf L side i)
        (heldIn b.orderPool.pool (slotsOf L side i))
      rw [hlevel, Option.getD_some, hheld]
      exact hrep.lists
    · have hnone : (b.side side).levels[i]? = none := by
        rw [Array.getElem?_eq_none_iff, store.levelsSize]
        exact Nat.le_of_not_lt hi
      have hempty : slotsOf L side i = [] := by
        rw [slotsOf, store.wellFormed.outside side i (Nat.le_of_not_lt hi), List.map_nil]
      show (((b.side side).levels[i]?).getD {}).Lists b.orderPool.pool (slotsOf L side i)
        (heldIn b.orderPool.pool (slotsOf L side i))
      rw [hnone, Option.getD_none, hempty]
      exact (PriceLevel.Represents.empty _).lists
  · rintro ⟨side, i⟩ s hs
    obtain ⟨r, hr, rfl⟩ := List.mem_map.mp hs
    obtain ⟨o, ho, -, hwritten, -, -, hquantity, -⟩ := store.maker_eq hr
    have hmem := store.wellFormed.mem hr
    have hlt : r.slot < b.orderPool.capacity := by
      rw [store.capacity]
      exact store.wellFormed.slot_lt hr
    exact ⟨store.pool.lt_invalid hlt, o, ho, hwritten,
      hquantity ▸ store.wellFormed.quantity_lt _ hmem⟩
  · rintro ⟨side, i⟩ ⟨side', i'⟩ hne s hs hs'
    obtain ⟨r, hr, rfl⟩ := List.mem_map.mp hs
    obtain ⟨r', hr', hslot⟩ := List.mem_map.mp hs'
    obtain ⟨hside, hindex, -⟩ := store.wellFormed.slot_inj hr hr' hslot.symm
    exact hne (Prod.ext hside hindex)

end OrderBook

end Hft
