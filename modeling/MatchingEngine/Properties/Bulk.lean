import MatchingEngine.Verification.Determined
import MatchingEngine.Verification.PlainFill

/-!
# The paths of the matching loop against the plain procedure

Taking a whole level at once, or part of it without `remove_order`, comes to what
one order at a time comes to. Only the order of the free list can differ: a bulk
step puts the freed slots in front as the queue had them.
-/

namespace Hft

open Machine Machine.Checked

namespace OrderBook

variable {env : Env} {args : Args} {g : Geometry} {b b' : OrderBook} {L M : Ledger} {side : Side}

/-- The book inside a call: as a call finds it, with anything in the journal and
in the latch, and after any number of levels a taker went through. -/
inductive Midway (env : Env) (args : Args) : OrderBook → Prop
  | between {b : OrderBook} (h : Reachable env args b) : Midway env args b
  | entered {b : OrderBook} (h : Midway env args b) (journal : List JournalEntry)
      (inPublicEntry : Bool) : Midway env args { b with journal, inPublicEntry }
  | matched {σ : Type} {x x' : Exec σ} {f : Trade → σ → σ} {side : Side} {takerId n n' : Nat}
      (h : Midway env args x.book) (has : (x.book.side side.opposite).has = true)
      (hn : n < 2 ^ 32)
      (step : x.matchBestLevel env side takerId (Exec.passive f) n = .ok (x', n')) :
      Midway env args x'.book

theorem Midway.represents (h : Midway env args b) : ∃ g L, Represents env g b L := by
  induction h with
  | between h =>
      obtain ⟨accepted, L, hready⟩ := h.ready
      exact ⟨_, L, hready.represents⟩
  | @entered b h journal latch ih =>
      obtain ⟨g, L, hrep⟩ := ih
      have hside : ∀ t, ({ b with journal, inPublicEntry := latch } : OrderBook).side t =
          b.side t := by
        intro t
        cases t <;> rfl
      refine ⟨g, L, hrep.store.congr ⟨rfl, rfl, rfl, rfl, ?_, rfl, rfl⟩, ?_⟩
      · exact fun t => by rw [hside]
      · exact fun t => by rw [hside]; exact hrep.index t
  | matched h has hn step ih =>
      obtain ⟨g, L, hrep⟩ := ih
      obtain ⟨i, hbest⟩ := hrep.has_iff.mp has
      exact ⟨g, _, ((Exec.matchBestLevel_spec hrep hbest hn).result step).1⟩

/-- Framed steps from one book leave the same sides if they leave the same queues. -/
theorem Store.side_of_framed (store : Store env g b L) (store' : Store env g b' M)
    (same : M.queue = L.queue) {b₀ : OrderBook} {events events' : List JournalEntry}
    (h : Framed env b₀ b events) (h' : Framed env b₀ b' events') (side : Side) :
    b'.side side = b.side side := by
  have hlevels := store.levels_eq store' same side
  obtain ⟨levels, heq⟩ := h.index side
  obtain ⟨levels', heq'⟩ := h'.index side
  have hsame : levels' = levels := by
    rw [heq, heq'] at hlevels
    exact hlevels
  rw [heq, heq', hsame]

variable {σ : Type} {taker n : Nat}

open Exec in
/-- At the best opposite level, a taker that covers it gets from the full-level path
what it gets from the plain procedure, and one that does not from the partial path.
The `slots` are those of the queue, head first. -/
def ConsumesPlainly (env : Env) (b : OrderBook) (side : Side) (taker n : Nat)
    (f : Trade → σ → σ) (c : σ) : Prop :=
  let i := (b.side side.opposite).bestIdx
  ∃ level slots free, b.level side.opposite i = .ok level ∧
    Path (nextOf b.orderPool.pool) level.head slots INVALID_INDEX ∧
    b.orderPool.freeList = .ok free ∧
    (level.totalQuantity ≤ n → ∃ x y : Exec σ,
      fillLevel env side taker (passive f) i n ⟨b, c⟩ = .ok (x, n - level.totalQuantity) ∧
      fillPlainly env side taker (passive f) i (b.orderPool.capacity + 1) n ⟨b, c⟩ =
        .ok (y, n - level.totalQuantity) ∧
      x.client = y.client ∧
      Interchangeable env y.book x.book (slots.reverse ++ free) (slots ++ free)) ∧
    (n < level.totalQuantity → ∃ (x y : Exec σ) (level' : PriceLevel) (free' : List Nat),
      fillPartially env side taker (passive f) i (b.orderPool.capacity + 1) level.head n ⟨b, c⟩ =
        .ok (x, 0) ∧
      fillPlainly env side taker (passive f) i (b.orderPool.capacity + 1) n ⟨b, c⟩ = .ok (y, 0) ∧
      x.client = y.client ∧ Interchangeable env y.book x.book free' free' ∧
      x.book.level side.opposite i = .ok level' ∧ level'.isEmpty = false)

open Exec in
/-- The paths of the matching loop do what the plain procedure does, at the best level
of any book a taker can meet. -/
theorem level_consumption (h : Midway env args b) (has : (b.side side.opposite).has = true)
    (hn : n < 2 ^ 32) (f : Trade → σ → σ) (c : σ) : b.ConsumesPlainly env side taker n f c := by
  obtain ⟨g, L, hrep⟩ := h.represents
  obtain ⟨i, hbest⟩ := hrep.has_iff.mp has
  simp only [ConsumesPlainly, (hrep.of_best hbest).2.2]
  have store := hrep.store
  have hne : L.queue side.opposite i ≠ [] := (hrep.wellFormed.best_eq_iff.mp hbest).1
  have hi : i < g.range := (hrep.index side.opposite).lt_range i hne
  have hpos := store.wellFormed.queue_pos side.opposite i
  obtain ⟨level, -, hread, hlevel⟩ := store.level_eq side.opposite hi
  have htotal : level.totalQuantity =
      Greedy.total Resting.quantity (L.queue side.opposite i) := hlevel.total
  have hfuel : (L.queue side.opposite i).length < b.orderPool.capacity + 1 := by
    have hcount := store.wellFormed.count_queue_le side.opposite i
    have hall := store.wellFormed.count_add_free
    rw [store.capacity]
    omega
  have hplain : (fillPlainly env side taker (passive f) i (b.orderPool.capacity + 1) n
      ⟨b, c⟩).Returns _ := fillPlainly_spec store hi rfl hfuel
  obtain ⟨⟨y, m⟩, heq, hstore, rfl, hclient, hframed⟩ := returns_iff.mp hplain
  refine ⟨level, _, _, hread, hlevel.queue.forward, store.pool.freeList_eq, ?_, ?_⟩
  · intro hle
    rw [htotal] at hle ⊢
    obtain ⟨⟨x, m⟩, heq', hstore', rfl, hclient', hframed'⟩ := returns_iff.mp
      (fillLevel_spec (x := ⟨b, c⟩) store hi hne hle hn)
    have hledger : L.takeQueue side.opposite i n = L.set side.opposite i []
        ((L.queue side.opposite i).map Resting.slot ++ L.free) := by
      rw [Ledger.takeQueue, Ledger.freed, if_pos hle, (Greedy.rest_eq_nil_iff hpos).mpr hle]
    rw [hledger] at hstore'
    rw [(Greedy.rest_eq_nil_iff hpos).mpr hle, Greedy.consumed_of_total_le hpos hle] at hstore
    refine ⟨x, y, heq', heq, hclient'.trans hclient.symm, ?_⟩
    exact hstore.interchangeable hstore' rfl (hstore.side_of_framed hstore' rfl hframed hframed')
  · intro hlt
    rw [htotal] at hlt
    have hpartial : (fillPartially env side taker (passive f) i (b.orderPool.capacity + 1)
        (behind (L.queue side.opposite i)) n ⟨b, c⟩).Returns _ :=
      fillPartially_spec store hi rfl hlt hfuel
    obtain ⟨⟨x, m⟩, heq', hstore', rfl, hclient', hframed'⟩ := returns_iff.mp hpartial
    have hhead : level.head = behind (L.queue side.opposite i) := hlevel.queue.head_eq
    rw [Nat.sub_eq_zero_of_le (Nat.le_of_lt hlt)] at heq
    obtain ⟨level', -, hread', hlevel'⟩ := hstore'.level_eq side.opposite hi
    have hleft : ¬level'.isEmpty = true := by
      rw [hlevel'.isEmpty_iff, Ledger.set_queue_self, List.map_eq_nil_iff,
        Greedy.rest_eq_nil_iff hpos]
      exact Nat.not_le.mpr hlt
    exact ⟨x, y, level', _, by rw [hhead]; exact heq', heq, hclient'.trans hclient.symm,
      hstore.interchangeable hstore' rfl (hstore.side_of_framed hstore' rfl hframed hframed'),
      hread',
      Bool.not_eq_true _ ▸ hleft⟩

theorem level_consumption_small : ∃ b₀ b, construct .instrumented .small = .ok b₀ ∧
    b₀.run .instrumented [.addOrder 1 .Limit 101 5 .Sell, .addOrder 2 .Limit 101 7 .Sell] =
      .ok ([⟨.Accepted, 0, []⟩, ⟨.Accepted, 0, []⟩], b) ∧
    b.ConsumesPlainly .instrumented .Buy 3 12 keepTrade [] := by
  obtain ⟨b₀, h⟩ := construct_small .instrumented
  obtain ⟨⟨replies, b⟩, hrun, hreplies, hready, -⟩ := returns_iff.mp
    (run_small h [.addOrder 1 .Limit 101 5 .Sell, .addOrder 2 .Limit 101 7 .Sell])
  have hreply : replies = [⟨.Accepted, 0, []⟩, ⟨.Accepted, 0, []⟩] := hreplies.trans (by decide)
  subst hreply
  have has : (b.side Side.Buy.opposite).has = true := by
    refine hready.represents.has_iff.mpr ⟨1, ?_⟩
    decide
  exact ⟨b₀, b, h, hrun, level_consumption (.between ⟨b₀, _, _, h, hrun⟩) has (by decide) _ _⟩

end OrderBook

end Hft
