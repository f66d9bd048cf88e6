import MatchingEngine.Reference.PlainFill
import MatchingEngine.Verification.Cancelling

/-!
# The plain procedure takes a queue from the front

One order at a time, every slot is pushed on the free list by itself: after the
procedure the freed slots precede the others in reverse queue order.
-/

namespace Hft

open Machine Machine.Checked

namespace OrderBook

variable {env : Env} {g : Geometry} {b b' : OrderBook} {L : Ledger} {side : Side} {i : Nat}
variable {r : Resting} {rs : List Resting}

/-- A level does not depend on the order map, and neither does writing one. -/
theorem setLevel_orderMap (orderMap : Array Nat) {level : PriceLevel}
    (h : b.setLevel side i level = .ok b') :
    ({ b with orderMap } : OrderBook).setLevel side i level = .ok { b' with orderMap } := by
  obtain ⟨levels, hlevels, rfl⟩ : ∃ levels, vecWrite (b.side side).levels i level = .ok levels ∧
      b.setSide side { b.side side with levels } = b' := by
    simpa [setLevel, bind_eq_ok_iff] using h
  have hside : ({ b with orderMap } : OrderBook).side side = b.side side := by
    cases side <;> rfl
  rw [setLevel, hside, hlevels, ok_bind]
  cases side <;> rfl

/-- What dropping the front order plainly does, whatever the queue behind it. -/
theorem dropPlainly_spec (store : Store env g b L) (hi : i < g.range)
    (hq : L.queue side i = r :: rs) {o : Order} (ho : b.orderPool.pool[r.slot]? = some o)
    (hw : o.written = true) (hid : o.id = r.id) (hquantity : o.quantity = r.quantity) :
    (b.dropPlainly env side i r.slot o).Returns (fun b' =>
      Store env g b' (L.set side i rs (r.slot :: L.free)) ∧ Framed env b b' []) := by
  have hmem : r ∈ L.queue side i := hq ▸ List.mem_cons_self
  have hp := store.wellFormed.mem hmem
  have hsplit : L.queue side i = [] ++ r :: rs := hq
  obtain ⟨level, level', pool, s, b₁, hread, hremove, hwrite, hb₁, hs, -, hdetached⟩ :=
    detach_spec store hp hsplit ho hw hquantity
  have hM : (L.set side i rs (r.slot :: L.free)).WellFormed g :=
    store.wellFormed.takeQueue_front hq ▸ store.wellFormed.takeQueue side hi r.quantity
  have hlive := store.wellFormed.slot_notMem_free hmem
  have hmap := store.id_lt_mapSize hmem
  have hmap₁ : r.id < b₁.orderMap.size := by
    rw [hb₁, setSide_orderMap]
    exact hmap
  -- clearing the map entry first or last is the same
  have hforget : ((b₁.logged env []).forgetOrder r.id r.slot).Returns _ :=
    forgetOrder_spec hdetached.slot hmap₁ []
  rw [logged_nil] at hforget
  obtain ⟨b₂, hb₂, h₂⟩ := returns_iff.mp hforget
  rw [forgetOrder, setOrderMap_eq hmap₁, ok_bind] at hb₂
  have hread' : ({ b with orderMap := b.orderMap.setIfInBounds r.id INVALID_INDEX } :
      OrderBook).level side i = .ok level := by
    rw [← hread]
    cases side <;> rfl
  have hwrite' := setLevel_orderMap (b.orderMap.setIfInBounds r.id INVALID_INDEX) hwrite
  have horderMap : b₁.orderMap = b.orderMap := by rw [hb₁, setSide_orderMap]
  rw [horderMap] at hb₂
  simp only [dropPlainly, hid, setOrderMap_eq hmap, ok_bind, hread', hremove, hwrite', hb₂]
  have hpool₂ : b₂.orderPool = { b.orderPool with pool := b₂.orderPool.pool } := by
    rw [h₂.frame, hdetached.pool]
  have hrep₂ : b₂.orderPool.Represents env L.free := by
    rw [hpool₂]
    refine store.pool.setPool (h₂.poolSize.trans hdetached.relinked.size) ?_
    intro t ht
    rw [h₂.links]
    refine nextOf_congr (hdetached.relinked.outside t ?_)
    rw [List.nil_append, ← hq]
    exact store.wellFormed.notMem_slots_of_free ht
  refine (deallocate_spec hrep₂ ?_ hlive).bind ?_
  · rw [hpool₂, store.capacity]
    exact store.wellFormed.slot_lt hmem
  rintro b₃ ⟨h₃, hrep₃, houtside⟩
  have hactive : 1 ≤ b.activeCount := by
    rw [store.active]
    exact List.length_pos_of_mem hp
  have hactive₃ : b₃.activeCount = b.activeCount := by
    rw [h₃, h₂.frame, hb₁, setSide_activeCount]
  simp only [checkedSub, hactive₃, if_pos hactive, ok_bind, pure_eq_ok, returns_ok]
  generalize h₄ : ({ b₃ with activeCount := b.activeCount - 1 } : OrderBook) = b₄
  have hframe₄ : b₄ = { b₂ with orderPool := b₄.orderPool, activeCount := b₄.activeCount } := by
    rw [← h₄, h₃]
  have hside₄ : ∀ t, b₄.side t = b₁.side t := by
    intro t
    rw [hframe₄, h₂.frame]
    cases t <;> rfl
  refine ⟨?_, ⟨forall_side side ⟨(b.side side).levels.setIfInBounds i level', ?_⟩
    ⟨(b.side side.opposite).levels, ?_⟩, ?_, ?_, ?_⟩⟩
  · refine store.cancelled hp hsplit hM hdetached h₂ hframe₄ ?_ ?_ ?_
    · rw [← h₄]
      exact hrep₃
    · rw [← h₄]
      exact houtside
    · rw [← h₄]
      exact Nat.sub_add_cancel hactive
  · rw [hside₄, hb₁, side_setSide_self, hs]
  · rw [hside₄, hb₁, side_setSide_opposite]
    cases side <;> rfl
  all_goals
    rw [hframe₄, h₂.frame, hb₁]
    simp

end OrderBook

namespace Exec

open OrderBook

variable {σ : Type} {env : Env} {g : Geometry} {x : Exec σ} {L : Ledger} {side : Side}
variable {taker i n fuel : Nat} {f : Trade → σ → σ} {q : List Resting}

theorem fillPlainly_spec (store : Store env g x.book L) (hi : i < g.range)
    (hq : L.queue side.opposite i = q) (hfuel : q.length < fuel) :
    (fillPlainly env side taker (passive f) i fuel n x).Returns (fun (x', n') =>
      Store env g x'.book (L.set side.opposite i (Greedy.rest Resting.quantity Resting.shrink q n)
        (((Greedy.consumed Resting.quantity q n).map Resting.slot).reverse ++ L.free)) ∧
      n' = n - Greedy.total Resting.quantity q ∧
      x'.client = feed f ((Greedy.fills Resting.quantity q n).map
        (Ledger.fillTrade taker (g.price i))) x.client ∧
      Framed env x.book x'.book []) := by
  induction q generalizing L n fuel x with
  | nil =>
      obtain ⟨fuel, rfl⟩ := Nat.exists_eq_add_one.mpr hfuel
      obtain ⟨level, -, hread, hrep⟩ := store.level_eq side.opposite hi
      have hempty : level.isEmpty = true := hrep.isEmpty_iff.mpr (by rw [hq, List.map_nil])
      have hset : L.set side.opposite i [] L.free = L := by
        rw [← hq, Ledger.set_self]
      simp only [fillPlainly, hread, ok_bind, hempty, true_or, if_true]
      refine ⟨?_, (Nat.sub_zero n).symm, rfl, Framed.refl env x.book⟩
      simpa [Greedy.rest, Greedy.consumed, hset] using store
  | cons r rs ih =>
      obtain ⟨fuel, rfl⟩ := Nat.exists_eq_add_one.mpr (Nat.zero_lt_of_lt hfuel)
      obtain ⟨level, hlevel, hread, hrep⟩ := store.level_eq side.opposite hi
      rw [hq] at hrep
      have hempty : ¬level.isEmpty = true := by
        rw [hrep.isEmpty_iff]
        exact List.cons_ne_nil _ _
      have hpos := hq ▸ store.wellFormed.queue_pos side.opposite i
      have hmem : r ∈ L.queue side.opposite i := hq ▸ List.mem_cons_self
      obtain ⟨o, ho, horder, hw, hid, hprice, hquantity, -⟩ := store.maker_eq hmem
      simp only [fillPlainly, hread, ok_bind, hempty, false_or, hrep.head_eq_of_cons,
        Bool.false_eq_true]
      by_cases hzero : n = 0
      · subst hzero
        rw [if_pos rfl, Greedy.rest_zero hpos Resting.shrink_zero, Greedy.consumed_zero hpos,
          Greedy.fills_zero, ← hq]
        refine ⟨?_, (Nat.zero_sub _).symm, rfl, Framed.refl env x.book⟩
        simpa using store
      · rw [if_neg hzero, horder, ok_bind, hquantity]
        by_cases hle : r.quantity ≤ n
        · rw [if_pos hle, passive_eq, ok_bind, hid, hprice]
          refine (dropPlainly_spec store hi hq ho hw hid hquantity).bind ?_
          rintro b ⟨hstore, hframed⟩
          have hlt : ¬n < r.quantity := Nat.not_lt.mpr hle
          have hmin : min r.quantity n = r.quantity := Nat.min_eq_left hle
          refine (ih (x := ⟨b, _⟩) hstore Ledger.set_queue_self
            (Nat.lt_of_succ_lt_succ hfuel)).mono ?_
          rintro ⟨x', n'⟩ ⟨hstore', hleft, hclient, hframed'⟩
          refine ⟨?_, ?_, ?_, ?_⟩
          · simpa [Greedy.rest, Greedy.consumed, hlt] using hstore'
          · rw [hleft, Greedy.total_cons, Nat.sub_sub]
          · simpa [Greedy.fills, hzero, hmin, Ledger.fillTrade] using hclient
          · exact hframed.trans hframed'
        · have hlt : n < r.quantity := Nat.lt_of_not_le hle
          have hmin : min r.quantity n = n := Nat.min_eq_right (Nat.le_of_lt hlt)
          have hsub : n - r.quantity = 0 := Nat.sub_eq_zero_of_le (Nat.le_of_lt hlt)
          rw [if_neg hle, passive_eq, ok_bind, hid, hprice]
          refine (applyTrade_spec horder ho hlevel ?_ ?_).bind ?_
          · rw [hquantity]
            exact Nat.le_of_lt hlt
          · rw [hrep.total, Greedy.total_cons]
            omega
          rintro b' ⟨htouched, hpool, hmap, hactive, hjournal⟩
          have hstore := store.shrinkFront hi hq hlt hrep ho hw htouched hpool hmap hactive
          refine ⟨?_, ?_, ?_, htouched.framed (by simpa using hjournal)⟩
          · simpa [Greedy.rest, Greedy.consumed, hlt, setBook] using hstore
          · rw [Greedy.total_cons]
            omega
          · simp [Greedy.fills, hzero, hmin, hsub, Ledger.fillTrade, setBook]

end Exec

end Hft
