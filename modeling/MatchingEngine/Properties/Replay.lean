import MatchingEngine.Properties.Invariant

/-!
# The journal is a record of the book

`Replay` follows the journal of an instrumented build without the engine. It gets
stuck on an entry that its queues do not allow. A head that reaches zero leaves
its queue and has to be confirmed by the next entry, which is why a replay also
carries the order that was just removed.
-/

namespace Hft

open Machine Machine.Checked

structure Replay where
  queue : Side → Nat → List (Nat × Nat)
  removed : Option Nat

namespace Replay

def empty : Replay := ⟨fun _ _ => [], none⟩

def set (r : Replay) (side : Side) (price : Nat) (q : List (Nat × Nat)) : Replay where
  queue s p := if s = side ∧ p = price then q else r.queue s p
  removed := r.removed

/-- A trade against the head of a queue. -/
def trade (r : Replay) (side : Side) (price quantity : Nat) : Option Replay :=
  match r.queue side price with
  | [] => none
  | (id, n) :: rest =>
      if quantity < n then some (r.set side price ((id, n - quantity) :: rest))
      else if quantity = n then some { r.set side price rest with removed := some id }
      else none

/-- The next entry of the journal. A removed head is confirmed before anything else. -/
def apply (r : Replay) (e : JournalEntry) : Option Replay :=
  let side := OrderBook.sideOfByte e.side
  match r.removed with
  | some id =>
      if e.event = .MakerFilled ∧ e.id = id then some { r with removed := none } else none
  | none =>
      match e.event with
      | .OrderRested => some (r.set side e.price (r.queue side e.price ++ [(e.id, e.quantity)]))
      | .TradeExecuted => r.trade side.opposite e.price e.quantity
      | .OrderCancelled =>
          if (r.queue side e.price).any (fun order => order.1 == e.id) then
            some (r.set side e.price ((r.queue side e.price).filter (fun order => order.1 != e.id)))
          else none
      | .MakerFilled => none
      | _ => some r

def run (entries : List JournalEntry) (r : Replay) : Option Replay := entries.foldlM apply r

/-- The queues of a ledger by price. -/
def view (g : Geometry) (L : Ledger) : Replay where
  queue side p :=
    if g.minPrice ≤ p then (L.queue side (p - g.minPrice)).map Resting.entry else []
  removed := none

variable {g : Geometry} {L : Ledger} {r : Replay} {side : Side} {taker price i n : Nat}
variable {q : List Resting} {free : List Nat} {xs ys : List JournalEntry} {e : JournalEntry}

@[ext] theorem ext {r' : Replay} (queue : ∀ side p, r.queue side p = r'.queue side p)
    (removed : r.removed = r'.removed) : r = r' := by
  cases r
  cases r'
  simp only [mk.injEq]
  exact ⟨funext fun side => funext fun p => queue side p, removed⟩

@[simp] theorem set_queue_self {q : List (Nat × Nat)} : (r.set side price q).queue side price = q :=
  if_pos ⟨rfl, rfl⟩

theorem set_self : r.set side price (r.queue side price) = r := by
  refine ext (fun s p => ?_) rfl
  by_cases h : s = side ∧ p = price
  · obtain ⟨rfl, rfl⟩ := h
    exact set_queue_self
  · exact if_neg h

theorem set_set {q q' : List (Nat × Nat)} :
    (r.set side price q').set side price q = r.set side price q := by
  refine ext (fun s p => ?_) rfl
  by_cases h : s = side ∧ p = price
  · obtain ⟨rfl, rfl⟩ := h
    rw [set_queue_self, set_queue_self]
  · exact (if_neg h).trans ((if_neg h).trans (if_neg h).symm)

@[simp] theorem run_nil : run [] r = some r := rfl

@[simp] theorem run_cons : run (e :: xs) r = (r.apply e).bind (run xs) := List.foldlM_cons

theorem run_append : run (xs ++ ys) r = (run xs r).bind (run ys) := List.foldlM_append

theorem view_queue (side : Side) (i : Nat) :
    (view g L).queue side (g.price i) = (L.queue side i).map Resting.entry := by
  simp [view, Geometry.price]

@[simp] theorem view_removed : (view g L).removed = none := rfl

theorem view_set : view g (L.set side i q free) =
    (view g L).set side (g.price i) (q.map Resting.entry) := by
  refine ext (fun s p => ?_) rfl
  by_cases hp : g.minPrice ≤ p
  · have hiff : s = side ∧ p - g.minPrice = i ↔ s = side ∧ p = g.price i := by
      refine and_congr_right (fun _ => ?_)
      unfold Geometry.price
      omega
    simp only [view, set, Ledger.set, if_pos hp, hiff]
    split <;> rfl
  · have hne : ¬(s = side ∧ p = g.price i) := by
      rintro ⟨-, rfl⟩
      exact hp (Nat.le_add_right _ _)
    simp only [view, set, if_neg hp, if_neg hne]

/-- The entries a replay passes over. -/
def Quiet (e : JournalEntry) : Prop :=
  e.event = .OrderSubmitted ∨ e.event = .OrderRejected ∨ e.event = .PoolExhausted ∨
    e.event = .BestBidChanged ∨ e.event = .BestAskChanged

theorem quiet_bestChanged {id price quantity sideByte reason : Nat} :
    Quiet ⟨OrderBook.bestChanged side, id, price, quantity, sideByte, reason⟩ := by
  cases side
  · exact Or.inr (Or.inr (Or.inr (Or.inl rfl)))
  · exact Or.inr (Or.inr (Or.inr (Or.inr rfl)))

theorem apply_quiet (hr : r.removed = none) (he : Quiet e) : r.apply e = some r := by
  unfold apply
  rw [hr]
  rcases he with h | h | h | h | h <;> rw [h]

theorem run_quiet (hr : r.removed = none) (hxs : ∀ e ∈ xs, Quiet e) : run xs r = some r := by
  induction xs with
  | nil => rfl
  | cons e xs ih =>
      rw [run_cons, apply_quiet hr (hxs e List.mem_cons_self), Option.bind_some]
      exact ih (fun e he => hxs e (List.mem_cons_of_mem _ he))

/-- The entries of a greedy consumption replay it. -/
theorem run_fills (hr : r.removed = none)
    (hq : r.queue side.opposite price = q.map Resting.entry) (hpos : ∀ a ∈ q, 0 < a.quantity) :
    run ((Greedy.fills Resting.quantity q n).flatMap (Ledger.fillEvents side taker price)) r =
      some (r.set side.opposite price
        ((Greedy.rest Resting.quantity Resting.shrink q n).map Resting.entry)) := by
  induction q generalizing r n with
  | nil =>
      simp only [Greedy.fills, Greedy.rest, List.flatMap_nil, run_nil, ← hq, set_self]
  | cons a q ih =>
      have ha := hpos a List.mem_cons_self
      have hside : OrderBook.sideOfByte side.toByte = side := by
        cases side <;> rfl
      by_cases hzero : n = 0
      · subst hzero
        rw [Greedy.fills_zero, Greedy.rest_zero hpos Resting.shrink_zero, ← hq, set_self]
        rfl
      · have hfills : Greedy.fills Resting.quantity (a :: q) n =
            (a, min a.quantity n) :: Greedy.fills Resting.quantity q (n - a.quantity) :=
          if_neg hzero
        rw [hfills, List.flatMap_cons]
        by_cases hlt : n < a.quantity
        · have hmin : min a.quantity n = n := by omega
          have hsub : n - a.quantity = 0 := by omega
          have hne : n ≠ a.quantity := by omega
          rw [hmin, hsub, Greedy.fills_zero, List.flatMap_nil, List.append_nil]
          simp [Ledger.fillEvents, hne, apply, hr, trade, hq, hlt, hside, Greedy.rest,
            Resting.entry]
        · have hmin : min a.quantity n = a.quantity := by omega
          have hmaker : run (Ledger.fillEvents side taker price (a, a.quantity)) r =
              some (r.set side.opposite price (q.map Resting.entry)) := by
            have hclear : ({ (r.set side.opposite price (q.map Resting.entry)) with
                removed := none } : Replay) = r.set side.opposite price (q.map Resting.entry) :=
              ext (fun _ _ => rfl) hr.symm
            rw [← hclear]
            simp [Ledger.fillEvents, apply, hr, trade, hq, hside, Resting.entry]
          rw [hmin, run_append, hmaker, Option.bind_some,
            ih (r := r.set side.opposite price (q.map Resting.entry)) hr set_queue_self
              (fun b hb => hpos b (List.mem_cons_of_mem a hb)), set_set]
          simp [Greedy.rest, hlt]

/-- The entries of a sweep replay it. -/
theorem run_sweep {is : List Nat} (h : L.WellFormed g) (his : ∀ i ∈ is, i < g.range) :
    run (Ledger.sweep g side taker is n L).events (view g L) =
      some (view g (Ledger.sweep g side taker is n L).ledger) := by
  induction is generalizing n L with
  | nil => rfl
  | cons i is ih =>
      have his' := fun j hj => his j (List.mem_cons_of_mem i hj)
      by_cases hskip : n = 0 ∨ L.queue side.opposite i = []
      · rw [Ledger.sweep_skip hskip]
        exact ih h his'
      · have hfills : run ((Greedy.fills Resting.quantity (L.queue side.opposite i) n).flatMap
            (Ledger.fillEvents side taker (g.price i))) (view g L) =
              some (view g (L.takeQueue side.opposite i n)) := by
          rw [Ledger.takeQueue, view_set]
          exact run_fills rfl (view_queue side.opposite i) (h.queue_pos side.opposite i)
        have hbest : run (if Greedy.total Resting.quantity (L.queue side.opposite i) ≤ n then
              Ledger.bestEvents g (L.takeQueue side.opposite i n) side.opposite i else [])
            (view g (L.takeQueue side.opposite i n)) =
              some (view g (L.takeQueue side.opposite i n)) := by
          refine run_quiet rfl ?_
          intro e he
          unfold Ledger.bestEvents at he
          split at he
          · split at he
            · rw [List.mem_singleton.mp he]
              exact quiet_bestChanged
            · exact absurd he List.not_mem_nil
          · exact absurd he List.not_mem_nil
        rw [Ledger.sweep, if_neg hskip]
        simp only [Ledger.takeLevel, run_append, hfills, hbest, Option.bind_some]
        exact ih (h.takeQueue side.opposite (his i List.mem_cons_self) n) his'

theorem run_cancel (h : L.WellFormed g) (id : Nat) :
    run (L.cancel g id).events (view g L) = some (view g (L.cancel g id).ledger) := by
  refine Ledger.cancel_cases
    (P := fun o => run o.events (view g L) = some (view g o.ledger)) h ?_ ?_
  · intro reason _
    refine run_quiet rfl ?_
    simp [Quiet, Ledger.refuse]
  · rintro p hp rfl
    obtain ⟨as, bs, hsplit, -⟩ := h.exists_split hp
    have hside : OrderBook.sideOfByte p.side.toByte = p.side := by
      cases p.side <;> rfl
    have hmem : ((L.queue p.side p.index).map Resting.entry).any
        (fun order => order.1 == p.order.id) = true := by
      simp [hsplit, Resting.entry]
    have hfilter : ((L.queue p.side p.index).map Resting.entry).filter
        (fun order => order.1 != p.order.id) =
          ((L.queue p.side p.index).filter (fun r => r.id != p.order.id)).map Resting.entry := by
      rw [List.filter_map]
      rfl
    rw [run_cons, apply_quiet rfl (Or.inl rfl), Option.bind_some, run_cons]
    simp only [apply, view_removed, hside, view_queue, hmem, hfilter, if_true, Option.bind_some]
    rw [Ledger.remove, view_set]
    rfl

theorem run_execute {type : OrderType} {id price quantity : Nat} (h : L.WellFormed g)
    (hvalid : Ledger.Valid g L id type price quantity side) :
    run (L.execute g id type price quantity side).events (view g L) =
      some (view g (L.execute g id type price quantity side).ledger) := by
  have hsweep : ∀ takerPrice,
      run (Ledger.sweep g side id (g.matchable side takerPrice) quantity L).events (view g L) =
        some (view g (Ledger.sweep g side id (g.matchable side takerPrice) quantity L).ledger) :=
    fun _ => run_sweep h (fun i hi => (Geometry.mem_matchable.mp hi).1)
  refine Ledger.execute_cases
    (P := fun o => run o.events (view g L) = some (view g o.ledger)) hvalid ?_ ?_ ?_
  · intro _ _ _
    refine run_quiet rfl ?_
    simp [Quiet, Ledger.refuse]
  · rintro s slot free rfl hlimit hleft hfree
    have hprice : price = g.price (price - g.minPrice) := by
      have := (hvalid.price_mem hlimit).1
      unfold Geometry.price
      omega
    have hside : OrderBook.sideOfByte side.toByte = side := by
      cases side <;> rfl
    generalize hM : (Ledger.sweep g side id (g.matchable side price) quantity L).ledger = M
    have hswept := hsweep price
    rw [hM] at hswept
    have hbest : run (if M.Improves g side (price - g.minPrice) then
          [⟨OrderBook.bestChanged side, 0, price, 0, side.toByte, 0⟩] else []) (view g M) =
        some (view g M) := by
      refine run_quiet rfl ?_
      intro e he
      split at he
      · rw [List.mem_singleton.mp he]
        exact quiet_bestChanged
      · exact absurd he List.not_mem_nil
    rw [run_append, run_cons, apply_quiet rfl (Or.inl rfl), Option.bind_some, hswept,
      Option.bind_some, run_append, hbest, Option.bind_some, run_cons]
    simp only [apply, view_removed, hside, Ledger.append, view_set, Option.bind_some, run_nil]
    rw [← hprice]
    simp [view, Resting.entry, (hvalid.price_mem hlimit).1]
  · rintro s rfl _
    rw [run_cons, apply_quiet rfl (Or.inl rfl), Option.bind_some]
    exact hsweep _

/-- The entries of a call replay it. -/
theorem run_step (h : L.WellFormed g) (call : Call) :
    run (L.step g call).events (view g L) = some (view g (L.step g call).ledger) := by
  cases call with
  | cancelOrder id => exact run_cancel h id.toNat
  | addOrder id type price quantity side =>
      refine Ledger.add_cases (P := fun o => run o.events (view g L) = some (view g o.ledger))
        (fun _ => run_cancel h id.toNat) ?_ (fun hvalid => run_execute h hvalid)
      intro reason loggedPrice _ _
      refine run_quiet rfl ?_
      simp [Quiet, Ledger.refuse]

theorem view_empty (g : Geometry) : view g (Ledger.empty g) = empty := by
  refine ext (fun side p => ?_) rfl
  simp [view, Ledger.empty, empty]

/-- The journal of a run replays to its ledger. -/
theorem run_journal (calls : List Call) :
    run ((Ledger.empty g).run g calls).2.2 empty =
      some (view g ((Ledger.empty g).run g calls).2.1) := by
  refine (runs_invariant (P := fun state : Ledger × List JournalEntry =>
    state.1.WellFormed g ∧ run state.2 empty = some (view g state.1))
    ⟨Ledger.empty_wellFormed g, ?_⟩ ?_).2
  · rw [view_empty, run_nil]
  · rintro ⟨L, log⟩ call ⟨hL, hlog⟩
    refine ⟨hL.step call, ?_⟩
    simp only [Ledger.advance, run_append, hlog, Option.bind_some]
    exact run_step hL call

end Replay

namespace OrderBook

variable {env : Env} {args : Args} {b₀ : OrderBook}

/-- The journal of an instrumented book replays to the queues of the book. -/
theorem run_replays (htools : env.debugTools = true) (h : construct env args = .ok b₀)
    (calls : List Call) :
    (b₀.run env calls).Returns (fun (_, b) => ∃ r, Replay.run b.journal .empty = some r ∧
      r.removed = none ∧
      (∀ side i, i < (b.side side).levels.size →
        b.queue side i = .ok (r.queue side (b.minPrice + i))) ∧
      ∀ side p, p < b.minPrice ∨ b.maxPrice < p → r.queue side p = []) := by
  refine (run_spec h calls).mono ?_
  rintro ⟨replies, b⟩ ⟨-, htracks⟩
  have hstore := htracks.1.represents.store
  generalize args.geometry (accepted_of_construct h) = g at htracks hstore
  have hwf := hstore.wellFormed
  refine ⟨Replay.view g ((Ledger.empty g).run g calls).2.1, ?_, rfl, ?_, ?_⟩
  · rw [htracks.2, Env.journaled, if_pos htools]
    exact Replay.run_journal calls
  · intro side i hi
    rw [hstore.levelsSize] at hi
    rw [queue_eq hstore side hi, hstore.minPrice]
    exact congrArg _ (Replay.view_queue side i).symm
  · intro side p hp
    rw [hstore.minPrice, hstore.maxPrice] at hp
    have := g.minPrice_add_range
    simp only [Replay.view]
    split
    · rw [hwf.outside side _ (by omega), List.map_nil]
    · rfl

theorem run_replays_small : ∃ b₀, construct .instrumented .small = .ok b₀ ∧
    (b₀.run .instrumented
      [.addOrder 1 .Limit 101 5 .Buy, .addOrder 2 .Market 0 3 .Sell, .cancelOrder 1]).Returns
      (fun (_, b) => ∃ r, Replay.run b.journal .empty = some r ∧ r.removed = none ∧
        (∀ side i, i < (b.side side).levels.size →
          b.queue side i = .ok (r.queue side (b.minPrice + i))) ∧
        ∀ side p, p < b.minPrice ∨ b.maxPrice < p → r.queue side p = []) := by
  obtain ⟨b₀, h⟩ := construct_small .instrumented
  exact ⟨b₀, h, run_replays rfl h _⟩

end OrderBook

end Hft
