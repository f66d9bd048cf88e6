import MatchingEngine.Engine.PriceLevel
import MatchingEngine.Machine.Linked

/-!
# A price level represents a queue of slots

`Lists pool level slots total` ties the level's ends and counters and the links of
the pool's slots to a list of slots, front first. Appending and removing are list
operations on it; both only ever write links. `Represents` asks for the canary too,
which neither of them looks at.
-/

namespace Hft

open Machine Machine.Checked

/-- A slot without its links. -/
def Order.payload (o : Order) : Order := { o with next := 0, prev := 0 }

/-- Only links changed, and only those of slots in `slots`. -/
structure Relinked (pool pool' : Array Order) (slots : List Nat) : Prop where
  size : pool'.size = pool.size
  outside : ∀ i, i ∉ slots → pool'[i]? = pool[i]?
  payload : ∀ (i : Nat) (o : Order), pool[i]? = some o →
    ∃ o' : Order, pool'[i]? = some o' ∧ o'.payload = o.payload

namespace Relinked

variable {pool pool' pool'' : Array Order} {slots : List Nat}

theorem trans (h : Relinked pool pool' slots) (h' : Relinked pool' pool'' slots) :
    Relinked pool pool'' slots := by
  refine ⟨h'.size.trans h.size, fun i hi => (h'.outside i hi).trans (h.outside i hi), ?_⟩
  intro i o ho
  obtain ⟨o', ho', hp⟩ := h.payload i o ho
  obtain ⟨o'', ho'', hp'⟩ := h'.payload i o' ho'
  exact ⟨o'', ho'', hp'.trans hp⟩

/-- Writing the links of one slot of the list. -/
theorem set {i : Nat} {o p : Order} (ho : pool[i]? = some o) (hp : p.payload = o.payload)
    (hi : i ∈ slots) : Relinked pool (pool.setIfInBounds i p) slots := by
  refine ⟨Array.size_setIfInBounds, ?_, ?_⟩
  · intro j hj
    rw [getElem?_set_slot ho, if_neg]
    rintro rfl
    exact hj hi
  · intro j q hq
    rw [getElem?_set_slot ho]
    by_cases hji : j = i
    · subst hji
      rw [ho] at hq
      exact ⟨p, if_pos rfl, Option.some.inj hq ▸ hp⟩
    · exact ⟨q, by rw [if_neg hji, hq], rfl⟩

end Relinked

namespace PriceLevel

structure Represents (pool : Array Order) (level : PriceLevel) (slots : List Nat)
    (total : Nat) : Prop where
  queue : Queue (nextOf pool) (prevOf pool) INVALID_INDEX level.head level.tail slots
  total : level.totalQuantity = total
  count : level.orderCount = slots.length
  canary : level.debugCanary = PRICE_LEVEL_CANARY

/-- The queue and its counters, whatever the canary says. -/
structure Lists (pool : Array Order) (level : PriceLevel) (slots : List Nat)
    (total : Nat) : Prop where
  queue : Queue (nextOf pool) (prevOf pool) INVALID_INDEX level.head level.tail slots
  total : level.totalQuantity = total
  count : level.orderCount = slots.length

variable {pool pool' : Array Order} {level : PriceLevel} {slots as bs : List Nat}
variable {total s : Nat} {o : Order}

namespace Lists

theorem congr (h : level.Lists pool slots total)
    (same : ∀ s ∈ slots, pool'[s]? = pool[s]?) : level.Lists pool' slots total :=
  ⟨h.queue.congr (fun c hc => nextOf_congr (same c hc)) (fun c hc => prevOf_congr (same c hc)),
    h.total, h.count⟩

theorem getElem? (h : level.Lists pool slots total) (hs : s ∈ slots) :
    ∃ o, pool[s]? = some o := by
  have hsome := h.queue.forward.next_isSome hs
  rw [nextOf, Option.isSome_map] at hsome
  exact Option.isSome_iff_exists.mp hsome

end Lists

namespace Represents

theorem lists (h : level.Represents pool slots total) : level.Lists pool slots total :=
  ⟨h.queue, h.total, h.count⟩

theorem of_lists (h : level.Lists pool slots total)
    (hcanary : level.debugCanary = PRICE_LEVEL_CANARY) : level.Represents pool slots total :=
  ⟨h.queue, h.total, h.count, hcanary⟩

theorem empty (pool : Array Order) : ({} : PriceLevel).Represents pool [] 0 :=
  ⟨Queue.empty, rfl, rfl, rfl⟩

theorem congr (h : level.Represents pool slots total)
    (same : ∀ s ∈ slots, pool'[s]? = pool[s]?) : level.Represents pool' slots total :=
  of_lists (h.lists.congr same) h.canary

/-- Only the links of the queue matter; a new total comes with a new counter. -/
theorem relink (h : level.Represents pool slots total)
    (hnext : ∀ s, nextOf pool' s = nextOf pool s) (hprev : ∀ s, prevOf pool' s = prevOf pool s)
    (totalQuantity : Nat) :
    ({ level with totalQuantity } : PriceLevel).Represents pool' slots totalQuantity :=
  ⟨h.queue.congr (fun c _ => hnext c) (fun c _ => hprev c), rfl, h.count, h.canary⟩

theorem isEmpty_iff (h : level.Represents pool slots total) :
    level.isEmpty = true ↔ slots = [] := by
  rw [PriceLevel.isEmpty, beq_iff_eq]
  exact h.queue.head_eq_nil_iff

theorem getElem? (h : level.Represents pool slots total) (hs : s ∈ slots) :
    ∃ o, pool[s]? = some o :=
  h.lists.getElem? hs

theorem head_eq_of_cons (h : level.Represents pool (s :: slots) total) : level.head = s := by
  rw [h.queue.head_eq]
  rfl

/-- The slot behind the front leads back to nothing once the front is gone; the other
slots are as they were. The counters are those of what is left. -/
theorem pop {next : Nat} (h : level.Represents pool (s :: slots) total) (hne : slots ≠ [])
    (hnext : nextOf pool s = some next)
    (hread : ∀ t, t ≠ s → pool'[t]? = if t = next ∧ next ≠ INVALID_INDEX then
      pool[t]?.map (fun o => { o with prev := INVALID_INDEX }) else pool[t]?)
    (totalQuantity : Nat) :
    ({ level with totalQuantity, orderCount := level.orderCount - 1, head := next } :
      PriceLevel).Represents pool' slots totalQuantity := by
  obtain ⟨t, ts, rfl⟩ := List.exists_cons_of_ne_nil hne
  obtain ⟨hs, hnodup⟩ := List.nodup_cons.mp h.queue.nodup
  have hqueue : Queue (nextOf pool) (prevOf pool) INVALID_INDEX level.head level.tail
      ([] ++ s :: t :: ts) := h.queue
  have hfront : nextOf pool s = some t := hqueue.next_eq
  obtain rfl : next = t := Option.some.inj (hnext.symm.trans hfront)
  have hvalid : next ≠ INVALID_INDEX := by
    rintro rfl
    exact h.queue.nil_notMem (List.mem_cons_of_mem s List.mem_cons_self)
  have hslot : ∀ c ∈ next :: ts, c ≠ s := fun c hc e => hs (e ▸ hc)
  refine ⟨h.queue.pop hne hnext ?_ ?_ ?_, rfl, ?_, h.canary⟩
  · intro c hc
    rw [nextOf, hread c (hslot c hc), nextOf]
    split <;> cases pool[c]? <;> rfl
  · obtain ⟨o, ho⟩ := h.getElem? (List.mem_cons_of_mem s List.mem_cons_self)
    rw [prevOf, hread next (hslot next List.mem_cons_self), if_pos ⟨rfl, hvalid⟩, ho]
    rfl
  · intro c hc
    rw [prevOf, hread c (hslot c (List.mem_of_mem_tail hc)), if_neg, prevOf]
    rintro ⟨rfl, -⟩
    exact (List.nodup_cons.mp hnodup).1 hc
  · rw [h.count, List.length_cons]
    exact Nat.add_sub_cancel _ _

/-- A represented queue and its total determine the level. -/
theorem unique {level' : PriceLevel} (h : level.Represents pool slots total)
    (h' : level'.Represents pool' slots total) : level = level' := by
  have hhead := h.queue.head_eq.trans h'.queue.head_eq.symm
  have htail := h.queue.tail_eq.trans h'.queue.tail_eq.symm
  have htotal := h.total.trans h'.total.symm
  have hcount := h.count.trans h'.count.symm
  have hcanary := h.canary.trans h'.canary.symm
  cases level
  cases level'
  simp_all

end Represents

/-- Appending puts the slot behind all others. -/
theorem appendOrder_lists (h : level.Lists pool slots total) (ho : pool[s]? = some o)
    (hw : o.written = true) (hs : s ∉ slots) (hvalid : s ≠ INVALID_INDEX)
    (htotal : total + o.quantity < 2 ^ 64) (hcount : slots.length + 1 < 2 ^ 32) :
    (level.appendOrder s pool).Returns (fun (level', pool') =>
      level'.Lists pool' (slots ++ [s]) (total + o.quantity) ∧
      level'.debugCanary = level.debugCanary ∧ Relinked pool pool' (slots ++ [s])) := by
  by_cases hempty : slots = []
  · subst hempty
    have hhead : level.head = INVALID_INDEX := h.queue.head_eq_nil_iff.mpr rfl
    have hread : ∀ p : Order, (pool.setIfInBounds s p)[s]? = some p := by
      intro p
      rw [getElem?_set_slot ho, if_pos rfl]
    have hreadOrder : ∀ p : Order, p.written = true →
        readOrder (pool.setIfInBounds s p) s = .ok p := fun p hp => readOrder_eq (hread p) hp
    simp only [appendOrder, hhead, ne_eq, not_true_eq_false, if_false, modifyOrder_eq ho, ok_bind,
      pure_eq_ok, hreadOrder, hw, h.total, h.count, returns_bind, returns_checkedAdd, returns_ok,
      true_and]
    refine ⟨htotal, hcount, ⟨?_, rfl, rfl⟩,
      Relinked.set ho (by simp [Order.payload, hw]) (by simp)⟩
    exact Queue.singleton hvalid (nextOf_eq (hread _)) (prevOf_eq (hread _))
  · have hhead : level.head ≠ INVALID_INDEX := fun e => hempty (h.queue.head_eq_nil_iff.mp e)
    have htail : level.tail ∈ slots := by
      rw [h.queue.tail_eq, List.getLast?_eq_getLast_of_ne_nil hempty]
      exact List.getLast_mem hempty
    obtain ⟨t, ht⟩ := h.getElem? htail
    have hne : level.tail ≠ s := fun e => hs (e ▸ htail)
    have ht' : ∀ p : Order, (pool.setIfInBounds s p)[level.tail]? = some t := by
      intro p
      rw [getElem?_set_slot ho, if_neg hne, ht]
    have hread : ∀ p q : Order,
        ((pool.setIfInBounds s p).setIfInBounds level.tail q)[s]? = some p := by
      intro p q
      rw [getElem?_set_slot (ht' p), if_neg hne.symm, getElem?_set_slot ho, if_pos rfl]
    have hslot : ∀ p q : Order, ∀ c ∈ slots, c ≠ level.tail →
        ((pool.setIfInBounds s p).setIfInBounds level.tail q)[c]? = pool[c]? := by
      intro p q c hc hct
      rw [getElem?_set_slot (ht' p), if_neg hct, getElem?_set_slot ho, if_neg]
      rintro rfl
      exact hs hc
    have hlast : ∀ p q : Order,
        ((pool.setIfInBounds s p).setIfInBounds level.tail q)[level.tail]? = some q := by
      intro p q
      rw [getElem?_set_slot (ht' p), if_pos rfl]
    have hreadOrder : ∀ p q : Order, p.written = true →
        readOrder ((pool.setIfInBounds s p).setIfInBounds level.tail q) s = .ok p :=
      fun p q hp => readOrder_eq (hread p q) hp
    simp only [appendOrder, hhead, ne_eq, not_false_eq_true, if_true, modifyOrder_eq ho, ok_bind,
      modifyOrder_eq (ht' _), pure_eq_ok, hreadOrder, hw, h.total, h.count, returns_bind,
      returns_checkedAdd, returns_ok, true_and]
    refine ⟨htotal, hcount, ⟨?_, rfl, by simp⟩, ?_⟩
    · refine h.queue.append hempty hs hvalid ?_ ?_ ?_ ?_ ?_
      · exact nextOf_eq (hlast _ _)
      · exact nextOf_eq (hread _ _)
      · exact fun c hc hct => nextOf_congr (hslot _ _ c hc hct)
      · exact prevOf_eq (hread _ _)
      · intro c hc
        by_cases hct : c = level.tail
        · subst hct
          rw [prevOf_eq (hlast _ _), prevOf_eq ht]
        · exact prevOf_congr (hslot _ _ c hc hct)
    · refine (Relinked.set ho ?_ (by simp)).trans (Relinked.set (ht' _) ?_ ?_)
      · simp [Order.payload, hw]
      · rfl
      · exact List.mem_append_left _ htail

theorem appendOrder_spec (h : level.Represents pool slots total) (ho : pool[s]? = some o)
    (hw : o.written = true) (hs : s ∉ slots) (hvalid : s ≠ INVALID_INDEX)
    (htotal : total + o.quantity < 2 ^ 64) (hcount : slots.length + 1 < 2 ^ 32) :
    (level.appendOrder s pool).Returns (fun (level', pool') =>
      level'.Represents pool' (slots ++ [s]) (total + o.quantity) ∧
      Relinked pool pool' (slots ++ [s])) := by
  refine (appendOrder_lists h.lists ho hw hs hvalid htotal hcount).mono ?_
  rintro ⟨level', pool'⟩ ⟨hlists, hcanary, hrelinked⟩
  exact ⟨Represents.of_lists hlists (hcanary.trans h.canary), hrelinked⟩

/-- The write through a neighbour's index, where there is a neighbour. -/
theorem writeNeighbour_spec {neighbour : Option Nat} {f : Order → Order}
    {found missing : PriceLevel}
    (hneighbour : ∀ a, neighbour = some a → a ≠ INVALID_INDEX ∧ ∃ p, pool[a]? = some p) :
    (if neighbour.getD INVALID_INDEX ≠ INVALID_INDEX then do
        let pool ← modifyOrder pool (neighbour.getD INVALID_INDEX) f
        pure (found, pool)
      else pure (missing, pool) : Checked (PriceLevel × Array Order)).Returns
      (fun (level', pool') => level' = (if neighbour = none then missing else found) ∧
        pool'.size = pool.size ∧
        ∀ i, pool'[i]? = if neighbour = some i then pool[i]?.map f else pool[i]?) := by
  cases neighbour with
  | none => simp
  | some a =>
      obtain ⟨ha, p, hp⟩ := hneighbour a rfl
      simp only [Option.getD_some, ne_eq, ha, not_false_eq_true, if_true, modifyOrder_eq hp,
        ok_bind, pure_eq_ok, returns_ok, reduceCtorEq, if_false, Array.size_setIfInBounds,
        true_and, Option.some.injEq]
      intro i
      rw [getElem?_set_slot hp]
      by_cases hi : i = a
      · subst hi
        simp [hp]
      · simp [hi, Ne.symm hi]

/-- Slot `s` was cut out between `as` and `bs`: what stands before it leads to what stands
behind it and back, and its own links are reset. -/
structure Spliced (pool pool' : Array Order) (as : List Nat) (s : Nat) (bs : List Nat) :
    Prop where
  size : pool'.size = pool.size
  removed : pool'[s]? =
    pool[s]?.map (fun o => { o with next := INVALID_INDEX, prev := INVALID_INDEX })
  before : ∀ a, as.getLast? = some a →
    pool'[a]? = pool[a]?.map (fun o => { o with next := bs.head?.getD INVALID_INDEX })
  behind : ∀ b, bs.head? = some b →
    pool'[b]? = pool[b]?.map (fun o => { o with prev := as.getLast?.getD INVALID_INDEX })
  outside : ∀ i, i ≠ s → as.getLast? ≠ some i → bs.head? ≠ some i → pool'[i]? = pool[i]?

namespace Spliced

variable (sp : Spliced pool pool' as s bs)
include sp

theorem nextOf_eq {c : Nat} (hs : c ≠ s) (hc : as.getLast? ≠ some c) :
    nextOf pool' c = nextOf pool c := by
  by_cases hb : bs.head? = some c
  · rw [nextOf, nextOf, sp.behind c hb, Option.map_map]
    rfl
  · exact nextOf_congr (sp.outside c hs hc hb)

theorem prevOf_eq {c : Nat} (hs : c ≠ s) (hc : bs.head? ≠ some c) :
    prevOf pool' c = prevOf pool c := by
  by_cases ha : as.getLast? = some c
  · rw [prevOf, prevOf, sp.before c ha, Option.map_map]
    rfl
  · exact prevOf_congr (sp.outside c hs ha hc)

/-- What is left is a queue. Where the slot stood at an end, that end has moved. -/
theorem queue (h : level.Lists pool (as ++ s :: bs) total) :
    Queue (nextOf pool') (prevOf pool') INVALID_INDEX
      (if as = [] then bs.head?.getD INVALID_INDEX else level.head)
      (if bs = [] then as.getLast?.getD INVALID_INDEX else level.tail) (as ++ bs) := by
  obtain ⟨hsa, hsb⟩ := h.queue.notMem_around
  have hab := h.queue.disjoint_around
  have hnodup := h.queue.nodup
  have hread : ∀ c, c ∈ as ∨ c ∈ bs → ∃ o, pool[c]? = some o := by
    intro c hc
    apply h.getElem?
    rw [List.mem_append, List.mem_cons]
    exact hc.imp id Or.inr
  apply h.queue.unlink h.queue.next_eq h.queue.prev_eq
  · intro a ha
    obtain ⟨o, ho⟩ := hread a (.inl (List.mem_of_getLast? ha))
    rw [nextOf, sp.before a ha, ho]
    rfl
  · intro c hc
    rcases List.mem_append.mp hc with hc | hc
    · apply sp.nextOf_eq (fun e => hsa (e ▸ List.dropLast_subset as hc))
      -- the last slot is not among the others
      intro hlast
      obtain ⟨init, rfl⟩ := List.getLast?_eq_some_iff.mp hlast
      rw [List.dropLast_concat] at hc
      have hinit := List.disjoint_of_nodup_append (List.nodup_append'.mp hnodup).1
      exact hinit hc List.mem_cons_self
    · exact sp.nextOf_eq (fun e => hsb (e ▸ hc)) (fun e => hab (List.mem_of_getLast? e) hc)
  · intro b hb
    obtain ⟨o, ho⟩ := hread b (.inr (List.mem_of_head? hb))
    rw [prevOf, sp.behind b hb, ho]
    rfl
  · intro c hc
    rcases List.mem_append.mp hc with hc | hc
    · exact sp.prevOf_eq (fun e => hsa (e ▸ hc)) (fun e => hab hc (List.mem_of_head? e))
    · apply sp.prevOf_eq (fun e => hsb (e ▸ List.mem_of_mem_tail hc))
      -- the first slot is not among the others
      intro hfirst
      obtain ⟨rest, rfl⟩ := List.head?_eq_some_iff.mp hfirst
      have hrest := (List.nodup_cons.mp (List.nodup_append'.mp hnodup).2.1).2
      exact (List.nodup_cons.mp hrest).1 hc

theorem relinked : Relinked pool pool' (as ++ s :: bs) := by
  refine ⟨sp.size, fun i hi => ?_, fun i o ho => ?_⟩
  · rw [List.mem_append, List.mem_cons, not_or, not_or] at hi
    exact sp.outside i hi.2.1 (fun e => hi.1 (List.mem_of_getLast? e))
      (fun e => hi.2.2 (List.mem_of_head? e))
  · by_cases hs : i = s
    · subst hs
      have hread := sp.removed
      rw [ho, Option.map_some] at hread
      exact ⟨_, hread, rfl⟩
    by_cases ha : as.getLast? = some i
    · have hread := sp.before i ha
      rw [ho, Option.map_some] at hread
      exact ⟨_, hread, rfl⟩
    by_cases hb : bs.head? = some i
    · have hread := sp.behind i hb
      rw [ho, Option.map_some] at hread
      exact ⟨_, hread, rfl⟩
    · exact ⟨o, (sp.outside i hs ha hb).trans ho, rfl⟩

end Spliced

/-- Removing cuts the slot out of the queue and moves the ends it stood at. -/
theorem removeOrder_spliced (h : level.Lists pool (as ++ s :: bs) total)
    (ho : pool[s]? = some o) (hw : o.written = true) (htotal : o.quantity ≤ total) :
    (level.removeOrder s pool).Returns (fun (level', pool') =>
      level' = { level with
        head := if as = [] then bs.head?.getD INVALID_INDEX else level.head
        tail := if bs = [] then as.getLast?.getD INVALID_INDEX else level.tail
        totalQuantity := total - o.quantity
        orderCount := (as ++ bs).length } ∧ Spliced pool pool' as s bs) := by
  obtain ⟨hsa, hsb⟩ := h.queue.notMem_around
  have hab := h.queue.disjoint_around
  -- the removed slot's own links are its neighbours, or nothing
  have hnext : o.next = bs.head?.getD INVALID_INDEX :=
    Option.some.inj ((Hft.nextOf_eq ho).symm.trans h.queue.next_eq)
  have hprev : o.prev = as.getLast?.getD INVALID_INDEX :=
    Option.some.inj ((Hft.prevOf_eq ho).symm.trans h.queue.prev_eq)
  have hslot : ∀ c, c ∈ as ∨ c ∈ bs → c ≠ INVALID_INDEX ∧ ∃ p, pool[c]? = some p := by
    intro c hc
    have hmem : c ∈ as ++ s :: bs := by
      rw [List.mem_append, List.mem_cons]
      exact hc.imp id Or.inr
    exact ⟨fun e => h.queue.nil_notMem (e ▸ hmem), h.getElem? hmem⟩
  simp only [removeOrder, readOrder_eq ho hw, ok_bind, hprev]
  refine (writeNeighbour_spec (fun a ha => hslot a (.inl (List.mem_of_getLast? ha)))).bind ?_
  rintro ⟨level₁, pool₁⟩ ⟨hlevel₁, hsize₁, hpool₁⟩
  have ho₁ : pool₁[s]? = some o := by
    rw [hpool₁, if_neg (fun e => hsa (List.mem_of_getLast? e)), ho]
  simp only [readOrder_eq ho₁ hw, ok_bind, hnext]
  refine (writeNeighbour_spec ?_).bind ?_
  · intro b hb
    have hmem := List.mem_of_head? hb
    obtain ⟨hvalid, p, hp⟩ := hslot b (.inr hmem)
    refine ⟨hvalid, p, ?_⟩
    rw [hpool₁, if_neg (fun e => hab (List.mem_of_getLast? e) hmem), hp]
  rintro ⟨level₂, pool₂⟩ ⟨hlevel₂, hsize₂, hpool₂⟩
  have ho₂ : pool₂[s]? = some o := by
    rw [hpool₂, if_neg (fun e => hsb (List.mem_of_head? e)), ho₁]
  have hreadOrder : ∀ p : Order, p.written = true →
      readOrder (pool₂.setIfInBounds s p) s = .ok p := by
    intro p hp
    exact readOrder_eq (by rw [getElem?_set_slot ho₂, if_pos rfl]) hp
  have hlevel : level₂ = { level with
      head := if as = [] then bs.head?.getD INVALID_INDEX else level.head
      tail := if bs = [] then as.getLast?.getD INVALID_INDEX else level.tail } := by
    rw [hlevel₂, hlevel₁]
    simp only [List.getLast?_eq_none_iff, List.head?_eq_none_iff]
    split <;> split <;> simp [*]
  subst hlevel
  have hcount : (as ++ s :: bs).length = (as ++ bs).length + 1 := by
    simp only [List.length_append, List.length_cons]
    omega
  simp only [modifyOrder_eq ho₂, ok_bind, hreadOrder, hw, returns_bind, returns_checkedSub,
    pure_eq_ok, returns_ok, h.total, h.count, hcount, Nat.add_sub_cancel, true_and]
  refine ⟨htotal, by omega, ?_⟩
  constructor
  · rw [Array.size_setIfInBounds, hsize₂, hsize₁]
  · rw [getElem?_set_slot ho₂, if_pos rfl, ho, Option.map_some, hw]
  · intro a ha
    have hmem := List.mem_of_getLast? ha
    rw [getElem?_set_slot ho₂, if_neg (fun e => hsa (by rwa [← e])), hpool₂,
      if_neg (fun e => hab hmem (List.mem_of_head? e)), hpool₁, if_pos ha, hnext]
  · intro b hb
    have hmem := List.mem_of_head? hb
    rw [getElem?_set_slot ho₂, if_neg (fun e => hsb (by rwa [← e])), hpool₂, if_pos hb, hpool₁,
      if_neg (fun e => hab (List.mem_of_getLast? e) hmem), hprev]
  · intro i hs ha hb
    rw [getElem?_set_slot ho₂, if_neg hs, hpool₂, if_neg hb, hpool₁, if_neg ha]

/-- Removing unlinks the slot wherever it stands and resets its links. -/
theorem removeOrder_lists (h : level.Lists pool (as ++ s :: bs) total) (ho : pool[s]? = some o)
    (hw : o.written = true) (htotal : o.quantity ≤ total) :
    (level.removeOrder s pool).Returns (fun (level', pool') =>
      level'.Lists pool' (as ++ bs) (total - o.quantity) ∧
      level'.debugCanary = level.debugCanary ∧ Relinked pool pool' (as ++ s :: bs) ∧
      pool'[s]? = some { o with next := INVALID_INDEX, prev := INVALID_INDEX }) := by
  refine (removeOrder_spliced h ho hw htotal).mono ?_
  rintro ⟨level', pool'⟩ ⟨rfl, spliced⟩
  exact ⟨⟨spliced.queue h, rfl, rfl⟩, rfl, spliced.relinked, by rw [spliced.removed, ho]; rfl⟩

theorem removeOrder_spec (h : level.Represents pool (as ++ s :: bs) total) (ho : pool[s]? = some o)
    (hw : o.written = true) (htotal : o.quantity ≤ total) :
    (level.removeOrder s pool).Returns (fun (level', pool') =>
      level'.Represents pool' (as ++ bs) (total - o.quantity) ∧
      Relinked pool pool' (as ++ s :: bs) ∧
      pool'[s]? = some { o with next := INVALID_INDEX, prev := INVALID_INDEX }) := by
  refine (removeOrder_lists h.lists ho hw htotal).mono ?_
  rintro ⟨level', pool'⟩ ⟨hlists, hcanary, hrelinked, hremoved⟩
  exact ⟨Represents.of_lists hlists (hcanary.trans h.canary), hrelinked, hremoved⟩

end PriceLevel

end Hft
