import MatchingEngine.Properties.Invariant

/-!
# Safety of runs

No call ever faults, and no run brings a book whose sides cross. The matching
loop leaves a remainder only when every price it accepts is empty, so what is
posted never meets an opposite order.
-/

namespace Hft

open Machine Machine.Checked

namespace Ledger

variable {g : Geometry} {L M : Ledger} {side : Side} {taker n i j : Nat} {is : List Nat}

/-- Every bid is below every ask. -/
def Uncrossed (L : Ledger) : Prop := ∀ i j, i ∈ L.occupied .Buy → j ∈ L.occupied .Sell → i < j

/-- Seen from either side: the prices of the other side are out of its reach. -/
theorem uncrossed_iff (side : Side) : L.Uncrossed ↔
    ∀ i j, i ∈ L.occupied side → j ∈ L.occupied side.opposite → side.Better j i := by
  cases side
  · exact Iff.rfl
  · exact ⟨fun h i j hi hj => h j i hj hi, fun h i j hi hj => h j i hj hi⟩

theorem Uncrossed.mono (h : L.Uncrossed) (hsub : ∀ side, M.occupied side ⊆ L.occupied side) :
    M.Uncrossed := fun i j hi hj => h i j (hsub .Buy hi) (hsub .Sell hj)

/-- A sweep leaves no order where there was none. -/
theorem sweep_occupied_subset (s : Side) :
    (sweep g side taker is n L).ledger.occupied s ⊆ L.occupied s := by
  refine sweep_induction (P := fun _ M => M.occupied s ⊆ L.occupied s) (fun _ h => h) ?_
  intro i _ n M _ _ hM j hj
  refine hM ?_
  intro hempty
  refine hj ?_
  by_cases hself : s = side.opposite ∧ j = i
  · obtain ⟨rfl, rfl⟩ := hself
    simp only [takeLevel, takeQueue_queue_self, hempty]
    rfl
  · simp only [takeLevel, takeQueue_queue_of_ne hself, hempty]

/-- A taker that is not exhausted has emptied every price it visited. -/
theorem sweep_exhausts (h : L.WellFormed g) (hleft : 0 < (sweep g side taker is n L).left)
    (his : ∀ i ∈ is, i < g.range) (hj : j ∈ is) :
    (sweep g side taker is n L).ledger.queue side.opposite j = [] := by
  have stays : ∀ {is n L}, L.queue side.opposite j = [] →
      (sweep g side taker is n L).ledger.queue side.opposite j = [] := by
    intro is n L hempty
    by_contra hne
    exact sweep_occupied_subset side.opposite hne hempty
  induction is generalizing n L with
  | nil => exact absurd hj List.not_mem_nil
  | cons i is ih =>
      have his' := fun k hk => his k (List.mem_cons_of_mem i hk)
      by_cases hskip : n = 0 ∨ L.queue side.opposite i = []
      · rw [sweep_skip hskip] at hleft ⊢
        rcases List.mem_cons.mp hj with rfl | hj
        · rcases hskip with rfl | hempty
          · rw [sweep_zero] at hleft
            exact absurd hleft (Nat.lt_irrefl 0)
          · exact stays hempty
        · exact ih h hleft his' hj
      · rw [sweep, if_neg hskip] at hleft ⊢
        have htotal : Greedy.total Resting.quantity (L.queue side.opposite i) ≤ n := by
          have hfirst := Nat.lt_of_lt_of_le hleft sweep_left_le
          simp only [takeLevel] at hfirst
          omega
        rcases List.mem_cons.mp hj with rfl | hj
        · exact stays (h.takeQueue_eq_nil_iff.mpr htotal)
        · exact ih (h.takeQueue side.opposite (his i List.mem_cons_self) n) hleft his' hj

theorem Uncrossed.remove {p : Placed} (h : L.Uncrossed) : (L.remove p).Uncrossed := by
  refine h.mono (fun s j hj hempty => hj ?_)
  by_cases hself : s = p.side ∧ j = p.index
  · obtain ⟨rfl, rfl⟩ := hself
    simp [Ledger.remove, hempty]
  · rw [Ledger.remove, set_queue_of_ne hself, hempty]

/-- Posting where no opposite order is in reach. -/
theorem Uncrossed.append {r : Resting} {free : List Nat} (h : L.Uncrossed)
    (hreach : ∀ j ∈ L.occupied side.opposite, side.Better j i) :
    (L.append side i r free).Uncrossed := by
  have hocc : (L.append side i r free).occupied side = insert i (L.occupied side) :=
    occupied_set (by simp)
  have hopposite : (L.append side i r free).occupied side.opposite = L.occupied side.opposite :=
    occupied_congr (fun _ => set_queue_opposite)
  rw [uncrossed_iff side] at h ⊢
  rw [hocc, hopposite]
  intro k j hk hj
  rcases Set.mem_insert_iff.mp hk with rfl | hk
  · exact hreach j hj
  · exact h k j hk hj

theorem Uncrossed.cancel (hL : L.WellFormed g) (h : L.Uncrossed) (id : Nat) :
    (L.cancel g id).ledger.Uncrossed :=
  cancel_cases (P := fun o => o.ledger.Uncrossed) hL (fun _ _ => h) (fun _ _ _ => h.remove)

theorem Uncrossed.execute {id price quantity : Nat} {type : OrderType} (hL : L.WellFormed g)
    (h : L.Uncrossed) (hvalid : Valid g L id type price quantity side) :
    (L.execute g id type price quantity side).ledger.Uncrossed := by
  refine execute_cases (P := fun o => o.ledger.Uncrossed) hvalid (fun _ _ _ => h) ?_ ?_
  · rintro s slot free rfl hlimit hleft -
    refine (h.mono sweep_occupied_subset).append ?_
    intro j hj
    by_contra hnot
    have hlt : j < g.range := by
      by_contra hge
      exact sweep_occupied_subset _ hj (hL.outside _ _ (Nat.le_of_not_lt hge))
    have hprice : g.price (price - g.minPrice) = price := by
      have := (hvalid.price_mem hlimit).1
      rw [Geometry.price]
      omega
    refine hj (sweep_exhausts hL hleft (fun i hi => (Geometry.mem_matchable.mp hi).1) ?_)
    rw [← hprice]
    exact Geometry.mem_matchable.mpr ⟨hlt, Exec.crosses_iff.mpr hnot⟩
  · rintro s rfl -
    exact h.mono sweep_occupied_subset

theorem Uncrossed.step (hL : L.WellFormed g) (h : L.Uncrossed) (call : Call) :
    (L.step g call).ledger.Uncrossed := by
  cases call with
  | cancelOrder id => exact h.cancel hL id.toNat
  | addOrder id type price quantity side =>
      exact add_cases (P := fun o => o.ledger.Uncrossed) (fun _ => h.cancel hL id.toNat)
        (fun _ _ _ _ => h) (fun hvalid => h.execute hL hvalid)

theorem empty_uncrossed (g : Geometry) : (empty g).Uncrossed := fun _ _ hi => absurd rfl hi

theorem run_uncrossed (calls : List Call) : ((empty g).run g calls).2.1.Uncrossed :=
  (runs_invariant (P := fun state : Ledger × List JournalEntry =>
    state.1.WellFormed g ∧ state.1.Uncrossed) ⟨empty_wellFormed g, empty_uncrossed g⟩
    (fun _ call h => ⟨h.1.step call, h.2.step h.1 call⟩)).2

end Ledger

namespace OrderBook

variable {env : Env} {args : Args} {b₀ : OrderBook}

/-- After every run the best bid is below the best ask, and so are all bids below
all asks. -/
theorem run_never_crossed (h : construct env args = .ok b₀) (calls : List Call) :
    (b₀.run env calls).Returns (fun (_, b) =>
      (∀ i j, b.Occupied .Buy i → b.Occupied .Sell j → b.minPrice + i < b.minPrice + j) ∧
      (b.hasBids = true → b.hasAsks = true → b.bestBid < b.bestAsk)) := by
  refine (run_spec h calls).mono ?_
  rintro ⟨replies, b⟩ ⟨-, htracks⟩
  have hrep := htracks.1.represents
  have huncrossed := Ledger.run_uncrossed (g := args.geometry (accepted_of_construct h)) calls
  have hbelow : ∀ i j, b.Occupied .Buy i → b.Occupied .Sell j →
      b.minPrice + i < b.minPrice + j := by
    intro i j hi hj
    have := huncrossed i j (hrep.store.occupied_iff.mp hi) (hrep.store.occupied_iff.mp hj)
    omega
  refine ⟨hbelow, fun hbids hasks => ?_⟩
  obtain ⟨hbid, hbidPrice, -⟩ := (hrep.bestOf .Buy).best hbids
  obtain ⟨hask, haskPrice, -⟩ := (hrep.bestOf .Sell).best hasks
  have := hbelow _ _ hbid hask
  rw [← hbidPrice, ← haskPrice] at this
  exact this

theorem run_never_crossed_small : ∃ b₀ replies b, construct .release .small = .ok b₀ ∧
    b₀.run .release [.addOrder 1 .Limit 101 5 .Buy, .addOrder 2 .Limit 103 7 .Sell,
      .addOrder 3 .Limit 103 4 .Buy] = .ok (replies, b) ∧
    b.hasBids = true ∧ b.hasAsks = true ∧
    (∀ i j, b.Occupied .Buy i → b.Occupied .Sell j → b.minPrice + i < b.minPrice + j) ∧
    b.bestBid < b.bestAsk := by
  obtain ⟨b₀, h⟩ := construct_small .release
  obtain ⟨⟨replies, b⟩, hrun, -, htracks⟩ := returns_iff.mp (run_small h
    [.addOrder 1 .Limit 101 5 .Buy, .addOrder 2 .Limit 103 7 .Sell, .addOrder 3 .Limit 103 4 .Buy])
  have hindex := htracks.1.represents.index
  have hbids : b.hasBids = true := (hindex .Buy).has.trans (by decide)
  have hasks : b.hasAsks = true := (hindex .Sell).has.trans (by decide)
  obtain ⟨hbelow, hbest⟩ := (run_never_crossed h _).result hrun
  exact ⟨b₀, replies, b, h, hrun, hbids, hasks, hbelow, hbest hbids hasks⟩

end OrderBook

end Hft
