import MatchingEngine.Ledger.Restore

/-!
# What the journal says about the best prices

The last best-price entry a call leaves is compared with the best price after it.
A taker that empties prices leaves such an entry for each of them, unless the
next tick is occupied: so the last price it empties decides. Posting always
leaves the entry, and a cancel never does.
-/

namespace Hft

open Machine

/-- The price of the last entry about the best price of a side. -/
def latestBest (side : Side) (events : List JournalEntry) : Option Nat :=
  ((events.filter (fun e => decide (e.event = OrderBook.bestChanged side))).getLast?).map
    JournalEntry.price

section Latest

variable {side : Side} {xs ys events : List JournalEntry} {e : JournalEntry}

theorem latestBest_append :
    latestBest side (xs ++ ys) = (latestBest side ys).or (latestBest side xs) := by
  rw [latestBest, List.filter_append, List.getLast?_append, latestBest, latestBest]
  cases (ys.filter (fun e => decide (e.event = OrderBook.bestChanged side))).getLast? <;> rfl

theorem latestBest_of_other (h : ∀ e ∈ events, e.event ≠ OrderBook.bestChanged side) :
    latestBest side events = none := by
  have hnil : events.filter (fun e => decide (e.event = OrderBook.bestChanged side)) = [] := by
    refine List.filter_eq_nil_iff.mpr ?_
    simpa using h
  rw [latestBest, hnil]
  rfl

theorem latestBest_cons_other (h : e.event ≠ OrderBook.bestChanged side) :
    latestBest side (e :: events) = latestBest side events := by
  rw [latestBest, List.filter_cons_of_neg (by simpa using h), latestBest]

theorem latestBest_singleton (h : e.event = OrderBook.bestChanged side) :
    latestBest side [e] = some e.price := by
  rw [latestBest, List.filter_cons_of_pos (by simpa using h)]
  rfl

end Latest

namespace Ledger

variable {g : Geometry} {L M : Ledger} {side : Side} {taker i j n : Nat} {is os : List Nat}

def depth (L : Ledger) (side : Side) (i : Nat) : Nat :=
  Greedy.total Resting.quantity (L.queue side i)

theorem WellFormed.depth_eq_zero_iff (h : L.WellFormed g) (side : Side) (i : Nat) :
    L.depth side i = 0 ↔ L.queue side i = [] :=
  Greedy.total_eq_zero_iff (h.queue_pos side i)

/-- The last entry about a side's best price is right after the call. -/
structure Announced (g : Geometry) (L : Ledger) (o : Outcome) (side : Side) : Prop where
  moved : o.ledger.best g side ≠ L.best g side →
    latestBest side o.events = some (g.bestPrice side (o.ledger.best g side))
  stayed : o.ledger.best g side = L.best g side →
    ∀ price ∈ latestBest side o.events, price = g.bestPrice side (o.ledger.best g side)

theorem bestPrice_some (side : Side) (i : Nat) : g.bestPrice side (some i) = g.price i := rfl

/-! ## Sweeps -/

/-- Occupied prices, best first, ahead of all other occupied ones. -/
structure Leads (L : Ledger) (side : Side) (os : List Nat) : Prop where
  pairwise : os.Pairwise side.Better
  occupied : ∀ i ∈ os, L.queue side i ≠ []
  others : ∀ j ∈ L.occupied side, j ∉ os → ∀ i ∈ os, side.Better i j

theorem Leads.best (h : L.WellFormed g) (hlead : L.Leads side (i :: os)) :
    L.best g side = some i := by
  rw [h.best_eq_iff]
  refine ⟨hlead.occupied i List.mem_cons_self, ?_⟩
  intro j hj hji
  by_cases hmem : j ∈ i :: os
  · rcases List.mem_cons.mp hmem with rfl | hmem
    · exact hji.irrefl
    · exact hji.asymm ((List.pairwise_cons.mp hlead.pairwise).1 j hmem)
  · exact hji.asymm (hlead.others j hj hmem i List.mem_cons_self)

theorem Leads.notMem (hlead : L.Leads side (i :: os)) : i ∉ os := fun hi =>
  ((List.pairwise_cons.mp hlead.pairwise).1 i hi).irrefl

theorem Leads.drained (h : L.WellFormed g) (hlead : L.Leads side (i :: os))
    (htotal : L.depth side i ≤ n) : (L.takeQueue side i n).Leads side os where
  pairwise := (List.pairwise_cons.mp hlead.pairwise).2
  occupied := by
    intro j hj
    have hne : j ≠ i := fun e => hlead.notMem (by rwa [← e])
    rw [takeQueue_queue_of_ne (fun e => hne e.2)]
    exact hlead.occupied j (List.mem_cons_of_mem i hj)
  others := by
    intro j hj hnot k hk
    rw [h.occupied_drained htotal] at hj
    refine hlead.others j hj.1 ?_ k (List.mem_cons_of_mem i hk)
    rw [List.mem_cons, not_or]
    exact ⟨hj.2, hnot⟩

/-- The price next to `j` is none of those at least as good as `j`. -/
theorem adjacent_takeQueue (h : j = i ∨ side.Better i j) :
    (L.takeQueue side i n).adjacent side j = L.adjacent side j := by
  cases side with
  | Buy =>
      simp only [adjacent]
      split
      · rfl
      · refine takeQueue_queue_of_ne (fun e => ?_)
        simp only [Side.Better] at h
        omega
  | Sell =>
      refine takeQueue_queue_of_ne (fun e => ?_)
      simp only [Side.Better] at h
      omega

theorem adjacent_occupied (h : L.adjacent side i ≠ []) : ∃ j, L.queue side j ≠ [] := by
  cases side with
  | Sell => exact ⟨i + 1, h⟩
  | Buy =>
      by_cases hi : i = 0
      · exact absurd (if_pos hi) h
      · refine ⟨i - 1, ?_⟩
        rwa [adjacent, if_neg hi] at h

theorem latestBest_fills (side s : Side) (taker price : Nat) (fills : List (Resting × Nat)) :
    latestBest s (fills.flatMap (fillEvents side taker price)) = none := by
  refine latestBest_of_other ?_
  intro e he
  obtain ⟨fill, -, he⟩ := List.mem_flatMap.mp he
  unfold fillEvents at he
  split at he <;> simp only [List.mem_cons, List.not_mem_nil, or_false] at he
  · rcases he with rfl | rfl <;> cases s <;> exact fun e => nomatch e
  · rcases he with rfl
    cases s <;> exact fun e => nomatch e

theorem latestBest_bestEvents : latestBest side (bestEvents g L side i) =
    if L.adjacent side i = [] then some (g.bestPrice side (L.best g side)) else none := by
  unfold bestEvents
  split
  · exact latestBest_singleton rfl
  · rfl

/-- A demand that the first price covers announces nothing. -/
theorem sweep_covered (h : L.WellFormed g) (hoccupied : L.queue side.opposite i ≠ [])
    (hpart : n < L.depth side.opposite i) :
    latestBest side.opposite (sweep g side taker (i :: is) n L).events = none ∧
      (sweep g side taker (i :: is) n L).ledger.best g side.opposite = L.best g side.opposite := by
  by_cases hn : n = 0
  · rw [hn, sweep_zero]
    exact ⟨rfl, rfl⟩
  · have hleft : n - Greedy.total Resting.quantity (L.queue side.opposite i) = 0 :=
      Nat.sub_eq_zero_of_le (Nat.le_of_lt hpart)
    rw [sweep, if_neg (by rw [not_or]; exact ⟨hn, hoccupied⟩)]
    simp only [takeLevel, hleft, sweep_zero, List.append_nil]
    refine ⟨?_, best_congr (h.occupied_kept hpart)⟩
    have hnot : ¬Greedy.total Resting.quantity (L.queue side.opposite i) ≤ n :=
      Nat.not_le.mpr hpart
    rw [if_neg hnot, List.append_nil, latestBest_fills]

/-- A demand that covers the first price announces the best price after it, unless
the next tick is occupied, and goes on. -/
theorem sweep_drained (g : Geometry) (taker : Nat) (is : List Nat) (hn : n ≠ 0)
    (hoccupied : L.queue side.opposite i ≠ [])
    (htotal : L.depth side.opposite i ≤ n) :
    let M := L.takeQueue side.opposite i n
    let others := sweep g side taker is (n - L.depth side.opposite i) M
    (sweep g side taker (i :: is) n L).ledger = others.ledger ∧
      latestBest side.opposite (sweep g side taker (i :: is) n L).events =
        (latestBest side.opposite others.events).or (if L.adjacent side.opposite i = [] then
          some (g.bestPrice side.opposite (M.best g side.opposite)) else none) := by
  have htotal' : Greedy.total Resting.quantity (L.queue side.opposite i) ≤ n := htotal
  rw [sweep, if_neg (by rw [not_or]; exact ⟨hn, hoccupied⟩)]
  simp only [takeLevel, if_pos htotal']
  refine ⟨rfl, ?_⟩
  rw [latestBest_append, latestBest_append, latestBest_fills, Option.or_none,
    latestBest_bestEvents, adjacent_takeQueue (Or.inl rfl)]
  rfl

/-- What a sweep over occupied prices announces: the last price it empties decides. -/
structure SweepAnnounces (g : Geometry) (L : Ledger) (side : Side) (emptied : List Nat)
    (s : Sweep) : Prop where
  nothing : emptied = [] → latestBest side s.events = none ∧ s.ledger.best g side = L.best g side
  last : ∀ i ∈ emptied.getLast?, L.adjacent side i = [] →
    latestBest side s.events = some (g.bestPrice side (s.ledger.best g side))
  silent : ∀ i ∈ emptied.getLast?, L.adjacent side i ≠ [] →
    (∃ j, s.ledger.best g side = some j ∧ j ∉ emptied) ∧
    ∀ price ∈ latestBest side s.events, ∃ j ∈ emptied, price = g.price j

/-- One emptied price more in front. -/
theorem SweepAnnounces.cons {D : List Nat} {s others : Sweep}
    (h : SweepAnnounces g M side D others) (hledger : s.ledger = others.ledger)
    (hlatest : latestBest side s.events = (latestBest side others.events).or
      (if L.adjacent side i = [] then some (g.bestPrice side (M.best g side)) else none))
    (hfinal : ∀ j, others.ledger.best g side = some j → j ≠ i)
    (hhead : ∀ k ∈ D.head?, M.best g side = some k)
    (hadjacent : ∀ k, k = i ∨ k ∈ D → M.adjacent side k = L.adjacent side k)
    (hnext : L.adjacent side i ≠ [] → ∃ j, M.best g side = some j) :
    SweepAnnounces g L side (i :: D) s := by
  cases hD : D with
  | nil =>
      subst hD
      obtain ⟨hnone, hbest⟩ := h.nothing rfl
      rw [hnone, Option.none_or] at hlatest
      refine ⟨fun e => (nomatch e), ?_, ?_⟩
      · intro k hk hempty
        obtain rfl : i = k := Option.some.inj hk
        rw [hlatest, if_pos hempty, hledger, hbest]
      · intro k hk hoccupied
        obtain rfl : i = k := Option.some.inj hk
        obtain ⟨j, hj⟩ := hnext hoccupied
        rw [hlatest, if_neg hoccupied, hledger]
        refine ⟨⟨j, hbest.trans hj, ?_⟩, fun price hprice => (nomatch hprice)⟩
        exact fun e => hfinal j (hbest.trans hj) (List.mem_singleton.mp e)
  | cons k D' =>
      rw [← hD]
      have hlast : (i :: D).getLast? = D.getLast? := by
        rw [hD, List.getLast?_cons_cons]
      refine ⟨fun e => (nomatch e), ?_, ?_⟩
      · intro l hl hempty
        rw [hlast] at hl
        rw [← hadjacent l (Or.inr (List.mem_of_getLast? hl))] at hempty
        rw [hlatest, h.last l hl hempty, hledger]
        rfl
      · intro l hl hoccupied
        rw [hlast] at hl
        rw [← hadjacent l (Or.inr (List.mem_of_getLast? hl))] at hoccupied
        obtain ⟨⟨j, hj, hnot⟩, hprices⟩ := h.silent l hl hoccupied
        refine ⟨⟨j, hledger ▸ hj, ?_⟩, ?_⟩
        · rw [List.mem_cons, not_or]
          exact ⟨hfinal j hj, hnot⟩
        · intro price hprice
          rw [hlatest] at hprice
          cases hothers : latestBest side others.events with
          | some p =>
              rw [hothers, Option.some_or] at hprice
              obtain ⟨m, hm, hpm⟩ := hprices price (hothers.trans hprice)
              exact ⟨m, List.mem_cons_of_mem i hm, hpm⟩
          | none =>
              rw [hothers, Option.none_or] at hprice
              split at hprice
              · cases hprice
                refine ⟨k, ?_, ?_⟩
                · rw [hD]
                  exact List.mem_cons_of_mem i List.mem_cons_self
                · rw [hhead k (by rw [hD]; rfl), bestPrice_some]
              · cases hprice

theorem sweep_announces {size : Nat → Nat} (h : L.WellFormed g) (hlt : ∀ i ∈ os, i < g.range)
    (hlead : L.Leads side.opposite os) (hsize : ∀ i ∈ os, size i = L.depth side.opposite i) :
    SweepAnnounces g L side.opposite (Greedy.consumed size os n)
      (sweep g side taker os n L) := by
  induction os generalizing n L with
  | nil => exact ⟨fun _ => ⟨rfl, rfl⟩, fun i hi => (nomatch hi), fun i hi => (nomatch hi)⟩
  | cons i os ih =>
      have hi := hlt i List.mem_cons_self
      have hoccupied := hlead.occupied i List.mem_cons_self
      have hsizei := hsize i List.mem_cons_self
      have hpos := Nat.pos_of_ne_zero (mt (h.depth_eq_zero_iff side.opposite i).mp hoccupied)
      by_cases hpart : n < L.depth side.opposite i
      · have hempty : Greedy.consumed size (i :: os) n = [] := if_pos (hsizei ▸ hpart)
        rw [hempty]
        exact ⟨fun _ => sweep_covered h hoccupied hpart, fun i hi => (nomatch hi),
          fun i hi => (nomatch hi)⟩
      have htotal := Nat.le_of_not_lt hpart
      have hrest : ∀ j ∈ os, j < g.range := fun j hj => hlt j (List.mem_cons_of_mem i hj)
      have hcons : Greedy.consumed size (i :: os) n =
          i :: Greedy.consumed size os (n - L.depth side.opposite i) := by
        rw [Greedy.consumed, hsizei, if_neg hpart]
      obtain ⟨hledger, hlatest⟩ := sweep_drained g taker os (by omega) hoccupied htotal
      have hM := h.takeQueue side.opposite hi n
      have hleadM := hlead.drained h htotal
      have hnil : (L.takeQueue side.opposite i n).queue side.opposite i = [] :=
        (h.takeQueue_eq_nil_iff).mpr htotal
      rw [hcons]
      refine SweepAnnounces.cons (ih hM hrest hleadM ?_) hledger hlatest ?_ ?_ ?_ ?_
      · intro j hj
        have hne : j ≠ i := fun e => hlead.notMem (by rwa [← e])
        rw [hsize j (List.mem_cons_of_mem i hj), depth, depth,
          takeQueue_queue_of_ne (fun e => hne e.2)]
      · -- no price that is occupied in the end is the one emptied here
        rintro j hbest rfl
        refine ((hM.sweep hrest).best_eq_iff.mp hbest).1 ?_
        rw [sweep_queue_of_ne (Or.inr hlead.notMem), hnil]
      · intro k hk
        obtain ⟨rest, hos⟩ := Greedy.consumed_head hk
        rw [hos] at hleadM
        exact hleadM.best hM
      · rintro k (rfl | hk)
        · exact adjacent_takeQueue (Or.inl rfl)
        · refine adjacent_takeQueue (Or.inr ?_)
          exact (List.pairwise_cons.mp hlead.pairwise).1 k (Greedy.mem_of_mem_consumed hk)
      · intro hadjacent
        rw [← adjacent_takeQueue (i := i) (n := n) (Or.inl rfl)] at hadjacent
        obtain ⟨j, hj⟩ := adjacent_occupied hadjacent
        cases hbest : (L.takeQueue side.opposite i n).best g side.opposite with
        | some k => exact ⟨k, rfl⟩
        | none => exact absurd hj (hM.best_eq_iff.mp hbest j)

/-- Prices without orders can be left out of a sweep. -/
theorem sweep_filter (hnodup : is.Nodup) : sweep g side taker is n L =
    sweep g side taker (is.filter (fun i => !(L.queue side.opposite i).isEmpty)) n L := by
  induction is generalizing n L with
  | nil => rfl
  | cons i is ih =>
      obtain ⟨hi, hnodup⟩ := List.nodup_cons.mp hnodup
      by_cases hempty : L.queue side.opposite i = []
      · rw [sweep_skip (Or.inr hempty), ih hnodup, List.filter_cons_of_neg (by simp [hempty])]
      · rw [List.filter_cons_of_pos (by simpa using hempty), sweep, sweep]
        by_cases hn : n = 0
        · rw [if_pos (Or.inl hn), if_pos (Or.inl hn), ih hnodup]
        · have hgo : ¬(n = 0 ∨ L.queue side.opposite i = []) := by
            rw [not_or]
            exact ⟨hn, hempty⟩
          have hsame : is.filter
              (fun j => !((takeLevel g side taker i n L).ledger.queue side.opposite j).isEmpty) =
                is.filter (fun j => !(L.queue side.opposite j).isEmpty) := by
            refine List.filter_congr (fun j hj => ?_)
            have hne : j ≠ i := fun e => hi (by rwa [← e])
            rw [takeLevel, takeQueue_queue_of_ne (fun e => hne e.2)]
          rw [if_neg hgo, if_neg hgo]
          simp only [ih hnodup (L := (takeLevel g side taker i n L).ledger), hsame]

/-- A taker announces nothing about its own side. -/
theorem sweep_latest_own (g : Geometry) (L : Ledger) (side : Side) (taker n : Nat)
    (is : List Nat) : latestBest side (sweep g side taker is n L).events = none := by
  induction is generalizing n L with
  | nil => rfl
  | cons i is ih =>
      rw [sweep]
      split
      · exact ih L n
      · simp only [takeLevel, latestBest_append, ih, Option.none_or, latestBest_fills,
          Option.or_none]
        split
        · refine latestBest_of_other (fun e he => ?_)
          unfold bestEvents at he
          split at he
          · rcases List.mem_singleton.mp he with rfl
            cases side <;> rintro ⟨⟩
          · exact absurd he List.not_mem_nil
        · rfl

/-! ## Calls -/

variable {id price quantity : Nat} {type : OrderType} {o : Outcome}

theorem price_inj {j : Nat} (h : g.price i = g.price j) : i = j := Nat.add_left_cancel h

theorem Announced.of_silent (hlatest : latestBest side o.events = none)
    (hbest : o.ledger.best g side = L.best g side) : Announced g L o side :=
  ⟨fun hne => absurd hbest hne, fun _ price hprice => by
    rw [hlatest] at hprice
    cases hprice⟩

theorem Announced.of_latest
    (h : latestBest side o.events = some (g.bestPrice side (o.ledger.best g side))) :
    Announced g L o side :=
  ⟨fun _ => h, fun _ price hprice => by
    rw [h] at hprice
    exact (Option.some.inj hprice).symm⟩

theorem SweepAnnounces.announced_iff {D : List Nat} {s : Sweep} (h : SweepAnnounces g L side D s)
    (hhead : ∀ k ∈ D.head?, L.best g side = some k)
    (hlatest : latestBest side o.events = latestBest side s.events)
    (hbest : o.ledger.best g side = s.ledger.best g side) :
    Announced g L o side ↔ ∀ i ∈ D.getLast?, L.adjacent side i = [] := by
  constructor
  · intro hannounced i hi
    by_contra hoccupied
    obtain ⟨⟨j, hj, hnot⟩, hprices⟩ := h.silent i hi hoccupied
    have hbest' := hbest.trans hj
    have hmoved : o.ledger.best g side ≠ L.best g side := by
      cases hD : D with
      | nil =>
          rw [hD] at hi
          cases hi
      | cons k D' =>
          rw [hbest', hhead k (by rw [hD]; rfl)]
          rintro ⟨rfl⟩
          exact hnot (by rw [hD]; exact List.mem_cons_self)
    have hlast := hannounced.moved hmoved
    rw [hlatest, hbest', bestPrice_some] at hlast
    obtain ⟨k, hk, hprice⟩ := hprices _ hlast
    exact hnot (price_inj hprice ▸ hk)
  · intro hall
    cases hD : D.getLast? with
    | none =>
        obtain ⟨hnone, hsame⟩ := h.nothing (List.getLast?_eq_none_iff.mp hD)
        exact Announced.of_silent (hlatest.trans hnone) (hbest.trans hsame)
    | some i =>
        refine Announced.of_latest ?_
        rw [hlatest, hbest]
        exact h.last i hD (hall i hD)

/-- The prices a taker empties: as many of the occupied ones it accepts, best first,
as its quantity covers. -/
def emptied (g : Geometry) (L : Ledger) (side : Side) (takerPrice quantity : Nat) : List Nat :=
  Greedy.consumed (L.depth side.opposite)
    ((g.matchable side takerPrice).filter (fun i => L.depth side.opposite i != 0)) quantity

theorem WellFormed.leads_matchable (h : L.WellFormed g) (side : Side) (takerPrice : Nat) :
    L.Leads side.opposite
    ((g.matchable side takerPrice).filter (fun i => !(L.queue side.opposite i).isEmpty)) where
  pairwise := (g.matchable_pairwise side takerPrice).filter _
  occupied := by
    intro i hi
    simpa using (List.mem_filter.mp hi).2
  others := by
    intro j hj hnot i hi
    have hqueue : L.queue side.opposite j ≠ [] := hj
    have hlt : j < g.range := by
      by_contra hle
      exact hqueue (h.outside side.opposite j (Nat.le_of_not_lt hle))
    obtain ⟨hmatch, -⟩ := List.mem_filter.mp hi
    obtain ⟨-, hcrosses⟩ := Geometry.mem_matchable.mp hmatch
    have hrejected : ¬Exec.crosses side takerPrice (g.price j) = true := fun hj' =>
      hnot (List.mem_filter.mpr ⟨Geometry.mem_matchable.mpr ⟨hlt, hj'⟩, by simpa using hqueue⟩)
    rcases side.opposite.better_trichotomy i j with hij | rfl | hji
    · exact hij
    · exact absurd hcrosses hrejected
    · exact absurd (Exec.crosses_of_better hcrosses hji) hrejected

theorem sweep_matchable (h : L.WellFormed g) (side : Side) (taker n takerPrice : Nat) :
    SweepAnnounces g L side.opposite (L.emptied g side takerPrice n)
      (sweep g side taker (g.matchable side takerPrice) n L) ∧
    ∀ k ∈ (L.emptied g side takerPrice n).head?, L.best g side.opposite = some k := by
  have hfilter : (g.matchable side takerPrice).filter (fun i => L.depth side.opposite i != 0) =
      (g.matchable side takerPrice).filter (fun i => !(L.queue side.opposite i).isEmpty) := by
    refine List.filter_congr (fun i _ => ?_)
    rw [Bool.eq_iff_iff, bne_iff_ne, ne_eq, h.depth_eq_zero_iff]
    simp
  have hlead := h.leads_matchable side takerPrice
  rw [emptied, hfilter, sweep_filter (g.matchable_nodup side takerPrice)]
  refine ⟨sweep_announces h ?_ hlead (fun _ _ => rfl), ?_⟩
  · exact fun i hi => (Geometry.mem_matchable.mp (List.mem_filter.mp hi).1).1
  · intro k hk
    obtain ⟨rest, hos⟩ := Greedy.consumed_head hk
    rw [hos] at hlead
    exact hlead.best h

theorem sweep_best_own (g : Geometry) (L : Ledger) (side : Side) (taker n : Nat)
    (is : List Nat) :
    (sweep g side taker is n L).ledger.best g side = L.best g side :=
  best_congr (occupied_congr (fun _ => sweep_queue_of_ne (Or.inl rfl)))

theorem latestBest_post {improves : Prop} [Decidable improves] {i : Nat} {s : Side} :
    latestBest s ((if improves then
        [⟨OrderBook.bestChanged side, 0, g.price i, 0, side.toByte, 0⟩] else []) ++
      [(⟨.OrderRested, id, g.price i, n, side.toByte, 0⟩ : JournalEntry)]) =
      if improves ∧ s = side then some (g.price i) else none := by
  have hrested : latestBest s [(⟨.OrderRested, id, g.price i, n, side.toByte, 0⟩ : JournalEntry)] =
      none := by
    refine latestBest_of_other (fun e he => ?_)
    rcases List.mem_singleton.mp he with rfl
    cases s <;> exact fun e => nomatch e
  rw [latestBest_append, hrested, Option.none_or]
  by_cases himproves : improves
  · rw [if_pos himproves]
    by_cases hs : s = side
    · rw [if_pos ⟨himproves, hs⟩, hs, latestBest_singleton rfl]
    · rw [if_neg (fun e => hs e.2)]
      refine latestBest_of_other (fun e he => ?_)
      rcases List.mem_singleton.mp he with rfl
      cases s <;> cases side <;> first | exact absurd rfl hs | exact fun e => nomatch e
  · rw [if_neg himproves, if_neg (fun e => himproves e.1)]
    rfl

/-- Posting announces the best price of its side if that moves. -/
theorem post_announced (side : Side) (hM : M.WellFormed g) (hi : i < g.range)
    (hfresh : ∀ p ∈ M.resting g, p.order.id ≠ id) (hpos : 0 < id) (hle : id ≤ g.maxOrderId)
    (hn : 0 < n) (hlt : n < 2 ^ 32) :
    latestBest side.opposite (M.post g side id i n).2.1 = none ∧
    (M.post g side id i n).2.2.best g side.opposite = M.best g side.opposite ∧
    (latestBest side (M.post g side id i n).2.1 = none ∧
        (M.post g side id i n).2.2.best g side = M.best g side ∨
      latestBest side (M.post g side id i n).2.1 =
        some (g.bestPrice side ((M.post g side id i n).2.2.best g side))) := by
  have hpost : (M.post g side id i n).2.2.WellFormed g := hM.post hi hfresh hpos hle hn hlt
  have hne : side.opposite ≠ side := side.opposite_ne
  unfold Ledger.post at hpost ⊢
  split
  · have hother : ∀ s, latestBest s
        [(⟨.PoolExhausted, id, g.price i, n, side.toByte, 0⟩ : JournalEntry)] = none := by
      refine fun s => latestBest_of_other (fun e he => ?_)
      rcases List.mem_singleton.mp he with rfl
      cases s <;> exact fun e => nomatch e
    exact ⟨hother _, rfl, Or.inl ⟨hother _, rfl⟩⟩
  · rename_i slot free hfree
    rw [hfree] at hpost
    simp only [latestBest_post]
    refine ⟨if_neg (fun e => hne e.2), ?_, ?_⟩
    · exact best_congr (occupied_congr (fun _ => set_queue_opposite))
    · rw [best_append hM hpost]
      by_cases himproves : M.Improves g side i
      · right
        rw [if_pos ⟨himproves, trivial⟩, if_pos himproves, bestPrice_some]
      · left
        rw [if_neg (fun e => himproves e.1), if_neg himproves]
        exact ⟨rfl, rfl⟩

/-- An executed order announces the best price of its own side, and that of the
opposite side unless the last price it empties leaves the next tick occupied. -/
theorem execute_announced (h : L.WellFormed g) (hlt : quantity < 2 ^ 32)
    (hvalid : Valid g L id type price quantity side) :
    Announced g L (L.execute g id type price quantity side) side ∧
      (Announced g L (L.execute g id type price quantity side) side.opposite ↔
        ∀ i ∈ (L.emptied g side (OrderBook.resolvePrice type side price) quantity).getLast?,
          L.adjacent side.opposite i = []) := by
  have hsubmitted : ∀ (s : Side) (events : List JournalEntry),
      latestBest s (⟨.OrderSubmitted, id, price, quantity, side.toByte, 0⟩ :: events) =
        latestBest s events :=
    fun s events => latestBest_cons_other (by cases s <;> exact fun e => nomatch e)
  obtain ⟨hsweep, hhead⟩ := sweep_matchable h side id quantity
    (OrderBook.resolvePrice type side price)
  have hown := sweep_best_own g L side id quantity
    (g.matchable side (OrderBook.resolvePrice type side price))
  have hnone := sweep_latest_own g L side id quantity
    (g.matchable side (OrderBook.resolvePrice type side price))
  have hwf : (sweep g side id (g.matchable side (OrderBook.resolvePrice type side price)) quantity
      L).ledger.WellFormed g := h.sweep (fun i hi => (Geometry.mem_matchable.mp hi).1)
  have hleft : (sweep g side id (g.matchable side (OrderBook.resolvePrice type side price)) quantity
      L).left ≤ quantity := sweep_left_le
  have hfresh : ∀ p ∈ (sweep g side id (g.matchable side
      (OrderBook.resolvePrice type side price)) quantity L).ledger.resting g, p.order.id ≠ id :=
    sweep_fresh hvalid.fresh
  simp only [execute]
  generalize sweep g side id (g.matchable side (OrderBook.resolvePrice type side price)) quantity
    L = s at hsweep hown hnone hwf hleft hfresh ⊢
  split
  · rename_i hpost
    obtain ⟨hopposite, hbest, hside⟩ := post_announced side hwf
      (hvalid.resolvePrice hpost.2).1 hfresh hvalid.id_pos hvalid.id_le hpost.1
      (Nat.lt_of_le_of_lt hleft hlt)
    constructor
    · rcases hside with ⟨hlatest, hsame⟩ | hlatest
      · refine Announced.of_silent ?_ (hsame.trans hown)
        rw [List.cons_append, hsubmitted, latestBest_append, hlatest, Option.none_or, hnone]
      · refine Announced.of_latest ?_
        rw [List.cons_append, hsubmitted, latestBest_append, hlatest]
        rfl
    · refine hsweep.announced_iff hhead ?_ hbest
      rw [List.cons_append, hsubmitted, latestBest_append, hopposite, Option.none_or]
  · constructor
    · exact Announced.of_silent ((hsubmitted _ _).trans hnone) hown
    · exact hsweep.announced_iff hhead (hsubmitted _ _) rfl

theorem latestBest_cancel (s : Side) (e : JournalEntry) (h : e.event = .OrderRejected ∨
    e.event = .OrderCancelled) : latestBest s [⟨.OrderSubmitted, id, 0, 0, Side.Buy.toByte, 0⟩, e] =
      none := by
  refine latestBest_of_other (fun e' he => ?_)
  rcases List.mem_cons.mp he with rfl | he
  · cases s <;> exact fun e => nomatch e
  · rw [List.mem_singleton.mp he]
    rcases h with h | h <;> rw [h] <;> cases s <;> exact fun e => nomatch e

/-- The best price moves exactly if the last order there is taken out. -/
theorem best_remove {p : Placed} (h : L.WellFormed g) (hp : p ∈ L.resting g) :
    (L.remove p).best g p.side = L.best g p.side ↔
      (L.best g p.side = some p.index → 1 < (L.queue p.side p.index).length) := by
  obtain ⟨as, bs, hsplit, hremove⟩ := h.exists_split hp
  have hM := h.remove hp
  have hlength : (L.queue p.side p.index).length = (as ++ bs).length + 1 := by
    rw [hsplit, List.length_append, List.length_cons, List.length_append]
    omega
  by_cases hnil : as ++ bs = []
  · have hocc : (L.remove p).occupied p.side = L.occupied p.side \ {p.index} := by
      rw [hremove, hnil, occupied_set_nil]
    rw [hlength, hnil]
    by_cases hbest : L.best g p.side = some p.index
    · refine iff_of_false ?_ (fun himp => Nat.lt_irrefl 1 (himp hbest))
      rw [hbest, hM.best_eq_iff, hocc]
      exact fun hsame => hsame.1.2 rfl
    · exact iff_of_true (best_of_erased h hM hocc hbest) (fun e => absurd e hbest)
  · have hmem : p.index ∈ L.occupied p.side := by
      change L.queue p.side p.index ≠ []
      rw [hsplit]
      exact List.append_ne_nil_of_right_ne_nil as (List.cons_ne_nil _ _)
    have hocc : (L.remove p).occupied p.side = L.occupied p.side := by
      rw [hremove, occupied_set hnil, Set.insert_eq_of_mem hmem]
    refine iff_of_true (best_congr hocc) (fun _ => ?_)
    have := List.length_pos_of_ne_nil hnil
    omega

/-- A cancel announces nothing, so it must not take the last order of a best price. -/
theorem cancel_announced (h : L.WellFormed g) (id : Nat) :
    (∀ side, Announced g L (L.cancel g id) side) ↔
      ∀ p ∈ L.resting g, p.order.id = id → L.best g p.side = some p.index →
        1 < (L.queue p.side p.index).length := by
  refine cancel_cases (P := fun o => (∀ side, Announced g L o side) ↔ _) h ?_ ?_
  · rintro reason hreason
    refine iff_of_true (fun side => Announced.of_silent (latestBest_cancel _ _ (Or.inl rfl)) rfl) ?_
    rintro p hp rfl
    rcases hreason with ⟨-, hbounds⟩ | ⟨-, hnone⟩
    · have := h.id_pos p hp
      have := h.id_le p hp
      omega
    · exact absurd rfl (hnone p hp)
  · rintro p hp rfl
    have hlatest : ∀ s, latestBest s [⟨.OrderSubmitted, p.order.id, 0, 0, Side.Buy.toByte, 0⟩,
        ⟨.OrderCancelled, p.order.id, g.price p.index, 0, p.side.toByte, 0⟩] = none :=
      fun s => latestBest_cancel s _ (Or.inr rfl)
    constructor
    · intro hall q hq hid hbest
      obtain rfl : q = p := List.inj_on_of_nodup_map h.ids hq hp hid
      refine (best_remove h hq).mp ?_ hbest
      by_contra hmoved
      have := (hall q.side).moved hmoved
      rw [hlatest] at this
      cases this
    · intro himp side
      rcases p.side.eq_or_eq_opposite side with rfl | rfl
      · exact Announced.of_silent (hlatest _) ((best_remove h hp).mpr (himp p hp rfl))
      · exact Announced.of_silent (hlatest _)
          (best_congr (occupied_congr (fun _ => set_queue_opposite)))

end Ledger

end Hft
