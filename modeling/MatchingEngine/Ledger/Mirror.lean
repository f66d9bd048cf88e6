import MatchingEngine.Ledger.Step
import Mathlib.Data.List.Find

/-!
# Mirrored ledgers

Exchange the two sides and reflect the prices about the middle of the range. Best
prices become best prices again, and a taker meets the same makers in the same
order at the reflected prices.
-/

namespace Hft

open Machine

/-- The price at the same distance from the other end of the range. -/
def reflectPrice (minPrice maxPrice price : Nat) : Nat := minPrice + maxPrice - price

/-- The trade at the reflected price. -/
def Trade.mirror (minPrice maxPrice : Nat) (t : Trade) : Trade :=
  { t with price := reflectPrice minPrice maxPrice t.price }

def Reply.mirror (minPrice maxPrice : Nat) (reply : Reply) : Reply :=
  { reply with trades := reply.trades.map (Trade.mirror minPrice maxPrice) }

/-- The mirrored call: sides exchanged, a limit price in the range reflected, any
other limit price kept outside. The price of other orders is not looked at. -/
inductive Call.Mirrors (minPrice maxPrice : Nat) : Call → Call → Prop
  | cancelOrder (id : UInt32) : Mirrors minPrice maxPrice (.cancelOrder id) (.cancelOrder id)
  | addOrder (id : UInt32) (type : OrderType) (price price' quantity : UInt32) (side : Side)
      (inside : type = .Limit → minPrice ≤ price.toNat ∧ price.toNat ≤ maxPrice →
        price'.toNat = reflectPrice minPrice maxPrice price.toNat)
      (outside : type = .Limit → ¬(minPrice ≤ price.toNat ∧ price.toNat ≤ maxPrice) →
        ¬(minPrice ≤ price'.toNat ∧ price'.toNat ≤ maxPrice)) :
      Mirrors minPrice maxPrice (.addOrder id type price quantity side)
        (.addOrder id type price' quantity side.opposite)

namespace Geometry

variable {g : Geometry} {i j takerPrice takerPrice' : Nat} {side : Side}

/-- The index of the reflected price. -/
def reflect (g : Geometry) (i : Nat) : Nat := g.range - 1 - i

def mirrorPrice (g : Geometry) : Nat → Nat := reflectPrice g.minPrice g.maxPrice

theorem reflect_lt (g : Geometry) (i : Nat) : g.reflect i < g.range := by
  have := g.range_pos
  unfold reflect
  omega

theorem reflect_reflect (hi : i < g.range) : g.reflect (g.reflect i) = i := by
  unfold reflect
  omega

theorem price_reflect (hi : i < g.range) : g.price (g.reflect i) = g.mirrorPrice (g.price i) := by
  have := g.minPrice_add_range
  unfold price reflect mirrorPrice reflectPrice
  omega

theorem mirrorPrice_sub (hmin : g.minPrice ≤ takerPrice) (hmax : takerPrice ≤ g.maxPrice) :
    g.mirrorPrice takerPrice - g.minPrice = g.reflect (takerPrice - g.minPrice) := by
  have := g.minPrice_add_range
  unfold mirrorPrice reflectPrice reflect
  omega

theorem map_reflect_range (g : Geometry) :
    (List.range g.range).map g.reflect = (List.range g.range).reverse := by
  refine List.ext_getElem (by simp) (fun k hk hk' => ?_)
  simp only [List.getElem_map, List.getElem_range, List.getElem_reverse, List.length_range]
  rfl

theorem map_reflect_priority (g : Geometry) (side : Side) :
    (g.priority side).map g.reflect = g.priority side.opposite := by
  cases side with
  | Sell => exact g.map_reflect_range
  | Buy =>
      rw [priority, Side.opposite, priority, List.map_reverse, map_reflect_range,
        List.reverse_reverse]

/-- A reflected limit accepts the reflected prices. -/
def Reflects (g : Geometry) (side : Side) (takerPrice takerPrice' : Nat) : Prop :=
  ∀ i < g.range, Exec.crosses side.opposite takerPrice' (g.price (g.reflect i)) =
    Exec.crosses side takerPrice (g.price i)

theorem reflects_limit (side : Side) (hmax : takerPrice ≤ g.maxPrice) :
    g.Reflects side takerPrice (g.mirrorPrice takerPrice) := by
  intro i hi
  rw [price_reflect hi]
  have hle := g.price_le hi
  have hge : g.minPrice ≤ g.price i := Nat.le_add_right _ _
  unfold mirrorPrice reflectPrice
  cases side <;> simp only [Exec.crosses, Side.opposite, decide_eq_decide] <;> omega

theorem reflects_market (g : Geometry) (side : Side) : g.Reflects side
    (OrderBook.resolvePrice .Market side takerPrice)
    (OrderBook.resolvePrice .Market side.opposite takerPrice') := by
  intro i hi
  have hlt := g.price_lt hi
  have hlt' := g.price_lt (g.reflect_lt i)
  cases side <;>
    simp only [Exec.crosses, Side.opposite, OrderBook.resolvePrice, MARKET_BUY_PRICE,
      MARKET_SELL_PRICE, Nat.zero_le, ge_iff_le, hlt.le, hlt'.le]

theorem matchable_reflect (h : g.Reflects side takerPrice takerPrice') :
    g.matchable side.opposite takerPrice' = (g.matchable side takerPrice).map g.reflect := by
  rw [matchable, matchable, ← map_reflect_priority, List.filter_map]
  congr 1
  refine List.filter_congr (fun i hi => ?_)
  exact h i (mem_priority.mp hi)

end Geometry

def Placed.mirror (g : Geometry) (p : Placed) : Placed :=
  ⟨p.side.opposite, g.reflect p.index, p.order⟩

namespace Ledger

variable {g : Geometry} {L : Ledger} {side : Side} {taker i n id : Nat} {q : List Resting}
variable {free is : List Nat} {p : Placed}

def mirror (g : Geometry) (L : Ledger) : Ledger where
  queue side i := if i < g.range then L.queue side.opposite (g.reflect i) else []
  free := L.free

theorem mirror_queue (hi : i < g.range) :
    (L.mirror g).queue side.opposite (g.reflect i) = L.queue side i := by
  simp only [mirror, if_pos (g.reflect_lt i), Side.opposite_opposite, Geometry.reflect_reflect hi]

theorem mirror_set (hi : i < g.range) : (L.set side i q free).mirror g =
    (L.mirror g).set side.opposite (g.reflect i) q free := by
  refine ext (fun s j => ?_) rfl
  by_cases hj : j < g.range
  · by_cases h : s = side.opposite ∧ j = g.reflect i
    · obtain ⟨rfl, rfl⟩ := h
      rw [set_queue_self, mirror_queue hi, set_queue_self]
    · have h' : ¬(s.opposite = side ∧ g.reflect j = i) := by
        rintro ⟨rfl, rfl⟩
        exact h ⟨(Side.opposite_opposite s).symm, (Geometry.reflect_reflect hj).symm⟩
      simp only [mirror, if_pos hj, set_queue_of_ne h, set_queue_of_ne h']
  · have h : ¬(s = side.opposite ∧ j = g.reflect i) := by
      rintro ⟨-, rfl⟩
      exact hj (g.reflect_lt i)
    simp only [mirror, if_neg hj, set_queue_of_ne h]

theorem mem_mirror_resting (hp : p ∈ L.resting g) : p.mirror g ∈ (L.mirror g).resting g := by
  obtain ⟨hlt, hmem⟩ := mem_resting.mp hp
  exact mem_resting.mpr ⟨g.reflect_lt _, by rwa [Placed.mirror, mirror_queue hlt]⟩

theorem mirror_mirror (h : L.WellFormed g) : (L.mirror g).mirror g = L := by
  refine ext (fun s j => ?_) rfl
  by_cases hj : j < g.range
  · simp only [mirror, if_pos hj, if_pos (g.reflect_lt j), Side.opposite_opposite,
      Geometry.reflect_reflect hj]
  · simp only [mirror, if_neg hj]
    exact (h.outside s j (Nat.le_of_not_lt hj)).symm

/-- The best price is reflected. -/
theorem mirror_best : (L.mirror g).best g side.opposite = (L.best g side).map g.reflect := by
  rw [best, best, ← Geometry.map_reflect_priority, List.find?_map]
  congr 1
  refine List.find?_congr (fun i hi => ?_)
  rw [Function.comp_apply, mirror_queue (Geometry.mem_priority.mp hi)]

theorem mirror_find (h : L.WellFormed g) (h' : (L.mirror g).WellFormed g) :
    (L.mirror g).find g id = (L.find g id).map (Placed.mirror g) := by
  cases hfind : L.find g id with
  | some p =>
      obtain ⟨hp, hid⟩ := (find_eq_some_iff h).mp hfind
      exact (find_eq_some_iff h').mpr ⟨mem_mirror_resting hp, hid⟩
  | none =>
      refine find_eq_none_iff.mpr ?_
      intro p hp hid
      have hmirror := mem_mirror_resting hp
      rw [mirror_mirror h] at hmirror
      exact find_eq_none_iff.mp hfind _ hmirror hid

theorem mirror_remove (hp : p ∈ L.resting g) :
    (L.remove p).mirror g = (L.mirror g).remove (p.mirror g) := by
  have hlt := (mem_resting.mp hp).1
  rw [remove, mirror_set hlt, remove, Placed.mirror, mirror_queue hlt]
  rfl

theorem mirror_append {r : Resting} (hi : i < g.range) : (L.append side i r free).mirror g =
    (L.mirror g).append side.opposite (g.reflect i) r free := by
  rw [append, mirror_set hi, append, mirror_queue hi]


theorem mirror_takeQueue (hi : i < g.range) : (L.takeQueue side i n).mirror g =
    (L.mirror g).takeQueue side.opposite (g.reflect i) n := by
  rw [takeQueue, mirror_set hi, takeQueue, mirror_queue hi]
  rfl

/-- What a walk leaves behind, the journal aside. -/
def Sweep.IsMirror (g : Geometry) (s s' : Sweep) : Prop :=
  s'.ledger = s.ledger.mirror g ∧ s'.left = s.left ∧
    s'.trades = s.trades.map (Trade.mirror g.minPrice g.maxPrice)

theorem takeLevel_mirror (L : Ledger) (side : Side) (taker n : Nat) (hi : i < g.range) :
    (takeLevel g side taker i n L).IsMirror g
    (takeLevel g side.opposite taker (g.reflect i) n (L.mirror g)) := by
  have hqueue : (L.mirror g).queue side.opposite.opposite (g.reflect i) =
      L.queue side.opposite i := mirror_queue hi
  refine ⟨?_, ?_, ?_⟩
  · exact (mirror_takeQueue hi).symm
  · simp only [takeLevel, hqueue]
  · simp only [takeLevel, hqueue, List.map_map]
    refine List.map_congr_left (fun fill _ => ?_)
    simp only [Function.comp_apply, fillTrade, Trade.mirror, Geometry.price_reflect hi,
      Geometry.mirrorPrice]

/-- A mirrored taker meets the reflected prices in the same order. -/
theorem sweep_mirror (L : Ledger) (side : Side) (taker n : Nat) (his : ∀ i ∈ is, i < g.range) :
    (sweep g side taker is n L).IsMirror g
    (sweep g side.opposite taker (is.map g.reflect) n (L.mirror g)) := by
  induction is generalizing n L with
  | nil => exact ⟨rfl, rfl, rfl⟩
  | cons i is ih =>
      have hi := his i List.mem_cons_self
      have hrest := fun j hj => his j (List.mem_cons_of_mem i hj)
      have hqueue : (L.mirror g).queue side.opposite.opposite (g.reflect i) =
          L.queue side.opposite i := mirror_queue hi
      rw [List.map_cons, sweep, sweep, hqueue]
      split
      · exact ih L n hrest
      · obtain ⟨hledger, hleft, htrades⟩ := takeLevel_mirror L side taker n hi
        simp only [hledger, hleft, htrades]
        obtain ⟨hledger', hleft', htrades'⟩ := ih (takeLevel g side taker i n L).ledger
          (takeLevel g side taker i n L).left hrest
        exact ⟨hledger', hleft', by simp only [htrades', List.map_append]⟩

/-! ## Calls -/

def Outcome.IsMirror (g : Geometry) (o o' : Outcome) : Prop :=
  o'.reply = o.reply.mirror g.minPrice g.maxPrice ∧ o'.ledger = o.ledger.mirror g

theorem cancel_mirror (h : L.WellFormed g) (h' : (L.mirror g).WellFormed g) (id : Nat) :
    (L.cancel g id).IsMirror g ((L.mirror g).cancel g id) := by
  unfold Ledger.cancel
  rw [mirror_find h h']
  split
  · exact ⟨rfl, rfl⟩
  · cases hfind : L.find g id with
    | none => exact ⟨rfl, rfl⟩
    | some p =>
        have hp := ((find_eq_some_iff h).mp hfind).1
        exact ⟨rfl, (mirror_remove hp).symm⟩

theorem execute_mirror {type : OrderType} {price price' quantity : Nat}
    (hvalid : Valid g L id type price quantity side)
    (hprice : type = .Limit → price' = g.mirrorPrice price) :
    (L.execute g id type price quantity side).IsMirror g
      ((L.mirror g).execute g id type price' quantity side.opposite) := by
  have hreflects : g.Reflects side (OrderBook.resolvePrice type side price)
      (OrderBook.resolvePrice type side.opposite price') := by
    cases type with
    | Cancel => exact absurd rfl hvalid.not_cancel
    | Market => exact g.reflects_market side
    | Limit =>
        obtain ⟨-, hmax⟩ := hvalid.price_mem rfl
        rw [hprice rfl]
        have := Geometry.reflects_limit side hmax
        cases side <;> exact this
  have hlt : ∀ i ∈ g.matchable side (OrderBook.resolvePrice type side price), i < g.range :=
    fun i hi => (Geometry.mem_matchable.mp hi).1
  obtain ⟨hledger, hleft, htrades⟩ := sweep_mirror L side id quantity hlt
  rw [← Geometry.matchable_reflect hreflects] at hledger hleft htrades
  simp only [execute, hledger, hleft, htrades]
  split
  · rename_i hpost
    have hlimit := hvalid.limit hpost.2
    obtain ⟨hmin, hmax⟩ := hvalid.price_mem hlimit
    have hindex : price' - g.minPrice = g.reflect (price - g.minPrice) := by
      rw [hprice hlimit, Geometry.mirrorPrice_sub hmin hmax]
    have hfree : ∀ M : Ledger, (M.mirror g).free = M.free := fun _ => rfl
    simp only [Ledger.post, hfree, hindex]
    split
    · exact ⟨rfl, rfl⟩
    · exact ⟨rfl, (mirror_append (hvalid.resolvePrice hpost.2).1).symm⟩
  · exact ⟨rfl, rfl⟩

theorem step_mirror (h : L.WellFormed g) (h' : (L.mirror g).WellFormed g) {call call' : Call}
    (hcall : call.Mirrors g.minPrice g.maxPrice call') :
    (L.step g call).IsMirror g ((L.mirror g).step g call') := by
  cases hcall with
  | cancelOrder id => exact cancel_mirror h h' id.toNat
  | addOrder id type price price' quantity side inside outside =>
      have hfind : ((L.mirror g).find g id.toNat).isSome = (L.find g id.toNat).isSome := by
        rw [mirror_find h h', Option.isSome_map]
      have hbest : (L.mirror g).best g side.opposite.opposite = none ↔
          L.best g side.opposite = none := by
        rw [mirror_best, Option.map_eq_none_iff]
      have houtside : (type = .Limit ∧ (price'.toNat < g.minPrice ∨ price'.toNat > g.maxPrice)) ↔
          (type = .Limit ∧ (price.toNat < g.minPrice ∨ price.toNat > g.maxPrice)) := by
        refine and_congr_right (fun hlimit => ?_)
        have hinside := inside hlimit
        have hout := outside hlimit
        unfold reflectPrice at hinside
        omega
      simp only [step, Ledger.add, hfind, hbest, houtside]
      split_ifs with hcancel hzero hbounds hdup hprice hmarket
      · exact cancel_mirror h h' id.toNat
      · exact ⟨rfl, rfl⟩
      · exact ⟨rfl, rfl⟩
      · exact ⟨rfl, rfl⟩
      · exact ⟨rfl, rfl⟩
      · exact ⟨rfl, rfl⟩
      · have hinside : type = .Limit → g.minPrice ≤ price.toNat ∧ price.toNat ≤ g.maxPrice := by
          intro hlimit
          rw [not_and] at hprice
          have := hprice hlimit
          omega
        have hvalid : Valid g L id.toNat type price.toNat quantity.toNat side :=
          ⟨hcancel, Nat.pos_of_ne_zero hzero, by omega, by omega,
            find_eq_none_iff.mp (Option.not_isSome_iff_eq_none.mp hdup), hinside,
            fun htype hnone => hmarket ⟨htype, hnone⟩⟩
        exact execute_mirror hvalid (fun hlimit => inside hlimit (hinside hlimit))

/-- A run and its mirrored run. -/
theorem run_mirror (h : L.WellFormed g) (h' : (L.mirror g).WellFormed g)
    {calls calls' : List Call}
    (hcalls : List.Forall₂ (Call.Mirrors g.minPrice g.maxPrice) calls calls') :
    ((L.mirror g).run g calls').1 = (L.run g calls).1.map (Reply.mirror g.minPrice g.maxPrice) ∧
      ((L.mirror g).run g calls').2.1 = (L.run g calls).2.1.mirror g := by
  have hsimulates : Simulates (advance g) (advance g)
      (fun state state' => state.1.WellFormed g ∧ state'.1.WellFormed g ∧
        state'.1 = state.1.mirror g) (Call.Mirrors g.minPrice g.maxPrice)
      (fun reply reply' => reply.mirror g.minPrice g.maxPrice = reply') := by
    rintro ⟨L, log⟩ ⟨L', log'⟩ call call' ⟨hL, hL', rfl⟩ hcall
    obtain ⟨hreply, hledger⟩ := step_mirror hL hL' hcall
    exact ⟨hreply.symm, hL.step call, hL'.step call', hledger⟩
  obtain ⟨hreplies, -, -, hledger⟩ :=
    hsimulates.runs (s := (L, [])) (t := (L.mirror g, [])) ⟨h, h', rfl⟩ hcalls
  have hmapped := List.forall₂_map_left_iff.mpr hreplies
  rw [List.forall₂_eq_eq_eq] at hmapped
  exact ⟨hmapped.symm, hledger⟩

theorem mirror_empty (g : Geometry) : (empty g).mirror g = empty g := by
  refine ext (fun side i => ?_) rfl
  simp [mirror, empty]

end Ledger

end Hft
