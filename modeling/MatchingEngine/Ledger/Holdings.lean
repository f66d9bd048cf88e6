import MatchingEngine.Ledger.Step

/-!
# What an id holds at rest

The quantity that rests under one id, and how sweeping, posting and removing
change it. What a sweep takes from an id is what its trades charge the id.
-/

namespace Hft

open Machine

/-- The quantity that trades take from one maker. -/
def charged (id : Nat) (trades : List Trade) : Nat :=
  Greedy.total Trade.quantity (trades.filter (fun trade => trade.makerId == id))

namespace Ledger

variable {g : Geometry} {L M : Ledger} {side : Side} {i j id n taker takerPrice : Nat}
variable {p : Placed} {r : Resting} {free : List Nat}

/-- The quantity at rest under an id. -/
def held (g : Geometry) (L : Ledger) (id : Nat) : Nat :=
  Greedy.total size ((L.resting g).filter (fun p => p.order.id == id))

theorem held_of_perm {ps : List Placed} (h : (L.resting g).Perm ps) :
    L.held g id = Greedy.total size (ps.filter (fun p => p.order.id == id)) :=
  Greedy.total_perm (h.filter _)

theorem held_eq_zero (h : ∀ p ∈ L.resting g, p.order.id ≠ id) : L.held g id = 0 := by
  have hnil : (L.resting g).filter (fun p => p.order.id == id) = [] := by
    simpa [List.filter_eq_nil_iff] using h
  rw [held, hnil, Greedy.total_nil]

theorem filter_eq_singleton {α β : Type} [DecidableEq β] {f : α → β} {a : α} {as : List α}
    (hnodup : (as.map f).Nodup) (ha : a ∈ as) : as.filter (fun b => f b == f a) = [a] := by
  induction as with
  | nil => exact absurd ha List.not_mem_nil
  | cons b as ih =>
      obtain ⟨hb, hnodup⟩ := List.nodup_cons.mp hnodup
      rcases List.mem_cons.mp ha with rfl | ha
      · have hnil : as.filter (fun c => f c == f a) = [] := by
          refine List.filter_eq_nil_iff.mpr (fun c hc heq => hb ?_)
          exact (by simpa using heq : f c = f a) ▸ List.mem_map_of_mem hc
        rw [List.filter_cons_of_pos (by simp), hnil]
      · have hne : f b ≠ f a := fun heq => hb (heq ▸ List.mem_map_of_mem ha)
        rw [List.filter_cons_of_neg (by simpa using hne), ih hnodup ha]

theorem held_of_mem (h : L.WellFormed g) (hp : p ∈ L.resting g) :
    L.held g p.order.id = p.order.quantity := by
  have hsingle := filter_eq_singleton h.ids hp
  rw [held, hsingle]
  rfl

theorem lots_perm (L : Ledger) (side : Side) {is js : List Nat} (h : is.Perm js) :
    (L.lots side is).Perm (L.lots side js) := h.flatMap_right _

/-- All resting orders, as a taker of `side` sees them. -/
theorem resting_perm (g : Geometry) (L : Ledger) (side : Side) : (L.resting g).Perm
    (L.lots side.opposite (g.priority side.opposite) ++ L.lots side (g.priority side)) := by
  have hpriority : ∀ s, (g.priority s).Perm (List.range g.range) := by
    intro s
    cases s
    · exact List.reverse_perm _
    · exact List.Perm.refl _
  have hside : ∀ s, (L.onSide g s).Perm (L.lots s (g.priority s)) := fun s =>
    L.lots_perm s (hpriority s).symm
  cases side
  · exact List.perm_append_comm.trans ((hside .Sell).append (hside .Buy))
  · exact (hside .Buy).append (hside .Sell)

/-- A sweep takes from every id what its trades charge it. -/
theorem held_sweep (h : L.WellFormed g) : (sweep g side taker (g.matchable side takerPrice) n
      L).ledger.held g id +
    charged id (sweep g side taker (g.matchable side takerPrice) n L).trades = L.held g id := by
  have hown : (sweep g side taker (g.matchable side takerPrice) n L).ledger.lots side
      (g.priority side) = L.lots side (g.priority side) :=
    lots_congr (fun _ _ => sweep_queue_of_ne (Or.inl rfl))
  have hsplit := congrArg (L.lots side.opposite) (g.priority_eq side takerPrice)
  have hsize : ∀ (p : Placed) m, m < size p → size (p.shrink m) = size p - m := fun _ _ _ => rfl
  have hid : ∀ (p : Placed) m, ((p.shrink m).order.id == id) = (p.order.id == id) :=
    fun _ _ => rfl
  have hbalance := Greedy.total_filter_rest (fun p => p.order.id == id) hid hsize
    (L.lots side.opposite (g.matchable side takerPrice)) n
  rw [lots_append] at hsplit
  rw [held_of_perm (resting_perm g _ side), held_of_perm (resting_perm g L side), hown,
    sweep_priority_lots h, hsplit, sweep_trades (g.matchable_nodup side _), charged,
    List.filter_map, Greedy.total_map]
  simp only [List.filter_append, Greedy.total_append]
  change _ + Greedy.total Prod.snd _ = _
  rw [← hbalance]
  simp only [Function.comp_def]
  omega

theorem held_append (hi : i < g.range) : (L.append side i r free).held g id =
    L.held g id + if r.id = id then r.quantity else 0 := by
  obtain ⟨others, hothers⟩ := resting_focus L side hi
  have hold := hothers L (fun _ _ _ => rfl)
  have hnew := hothers (L.append side i r free) (fun s j hne => set_queue_of_ne hne)
  have hplaced : (L.append side i r free).placed side i = L.placed side i ++ [⟨side, i, r⟩] := by
    simp [placed, Ledger.append]
  rw [held_of_perm hold, held_of_perm hnew, hplaced]
  simp only [List.filter_append, Greedy.total_append]
  by_cases hid : r.id = id
  · simp [hid, size]
    omega
  · simp [hid]

theorem held_remove (h : L.WellFormed g) (hp : p ∈ L.resting g) :
    (L.remove p).held g id = if p.order.id = id then 0 else L.held g id := by
  obtain ⟨others, hothers⟩ := resting_focus L p.side (mem_resting.mp hp).1
  have hold := hothers L (fun _ _ _ => rfl)
  have hnew := hothers (L.remove p) (fun s j hne => set_queue_of_ne hne)
  by_cases hid : p.order.id = id
  · subst hid
    rw [if_pos rfl]
    exact held_eq_zero (h.remove_fresh hp)
  · rw [if_neg hid, held_of_perm hold, held_of_perm hnew]
    simp only [List.filter_append, Greedy.total_append]
    congr 2
    simp only [placed, Ledger.remove, set_queue_self, List.filter_map, List.filter_filter]
    congr 1
    refine List.filter_congr (fun r _ => ?_)
    by_cases hr : r.id = id
    · simp [hr, Ne.symm hid]
    · simp [hr]

/-- Every trade of a sweep names an order at rest at an accepted price. -/
theorem sweep_maker (h : L.WellFormed g) {trade : Trade}
    (htrade : trade ∈ (sweep g side taker (g.matchable side takerPrice) n L).trades) :
    ∃ p ∈ L.lots side.opposite (g.matchable side takerPrice), p.order.id = trade.makerId ∧
      g.price p.index = trade.price ∧ trade.takerId = taker ∧ 0 < trade.quantity ∧
      trade.quantity ≤ p.order.quantity := by
  rw [sweep_trades (g.matchable_nodup side _)] at htrade
  obtain ⟨fill, hfill, rfl⟩ := List.mem_map.mp htrade
  obtain ⟨hmem, hle⟩ := Greedy.mem_of_mem_fills hfill
  exact ⟨fill.1, hmem, rfl, rfl, rfl, Greedy.fills_pos (size_pos h) hfill, hle⟩

theorem sweep_filled :
    Greedy.total Trade.quantity (sweep g side taker (g.matchable side takerPrice) n L).trades =
      n - (sweep g side taker (g.matchable side takerPrice) n L).left := by
  have hfills : ((Greedy.fills size (L.lots side.opposite (g.matchable side takerPrice)) n).map
      Prod.snd).sum = _ := Greedy.sum_fills _ n
  rw [sweep_trades (g.matchable_nodup side _), sweep_left (g.matchable_nodup side _),
    Greedy.total_map]
  change Greedy.total Prod.snd _ = _
  rw [Greedy.total, hfills]
  omega

theorem lots_sublist {is : List Nat} (f : Nat → Bool) :
    (L.lots side (is.filter f)).Sublist (L.lots side is) := by
  rw [← lots_filter]
  exact List.filter_sublist

/-- No order trades twice with one taker. -/
theorem sweep_makers_nodup (h : L.WellFormed g) :
    ((sweep g side taker (g.matchable side takerPrice) n L).trades.map Trade.makerId).Nodup := by
  have hids := ((resting_perm g L side).map (·.order.id)).nodup_iff.mp h.ids
  rw [List.map_append, List.nodup_append] at hids
  have hlots : (L.lots side.opposite (g.matchable side takerPrice)).Sublist
      (L.lots side.opposite (g.priority side.opposite)) := lots_sublist _
  have hfills : ((Greedy.fills size (L.lots side.opposite (g.matchable side takerPrice))
      n).map Prod.fst).Sublist (L.lots side.opposite (g.priority side.opposite)) :=
    (Greedy.fills_sublist _ _).trans hlots
  have := hids.1.sublist (hfills.map (·.order.id))
  rw [sweep_trades (g.matchable_nodup side _)]
  simpa [Function.comp_def] using this

end Ledger

end Hft
