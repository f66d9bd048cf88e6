import MatchingEngine.Verification.Filling

/-!
# The matching loop is a sweep

One iteration consumes the best opposite level and brings the index back in step
with the store. The loop visits exactly the occupied prices a sweep visits: the
best price is the first occupied one the taker accepts, or it is not accepted.
-/

namespace Hft

open Machine Machine.Checked

namespace OrderBook

variable {env : Env} {g : Geometry} {b b' b'' : OrderBook} {L : Ledger} {side : Side} {i n : Nat}
variable {events events' : List JournalEntry}

/-- What a call leaves alone besides the represented ledger: the journal grows. -/
structure Kept (env : Env) (b b' : OrderBook) (events : List JournalEntry) : Prop where
  journal : b'.journal = b.journal ++ env.journaled events
  inPublicEntry : b'.inPublicEntry = b.inPublicEntry
  ownerThread : b'.ownerThread = b.ownerThread

namespace Kept

theorem refl (env : Env) (b : OrderBook) : Kept env b b [] := ⟨by simp, rfl, rfl⟩

theorem trans (h : Kept env b b' events) (h' : Kept env b' b'' events') :
    Kept env b b'' (events ++ events') :=
  ⟨by rw [h'.journal, h.journal, Env.journaled_append, List.append_assoc],
    h'.inPublicEntry.trans h.inPublicEntry, h'.ownerThread.trans h.ownerThread⟩

theorem logged (env : Env) (b : OrderBook) (events : List JournalEntry) :
    Kept env b (b.logged env events) events := ⟨rfl, rfl, rfl⟩

theorem setSide_logged (b : OrderBook) (side : Side) (s : BookSide) (events : List JournalEntry) :
    Kept env b ((b.setSide side s).logged env events) events :=
  ⟨by simp [OrderBook.logged], setSide_inPublicEntry, setSide_ownerThread⟩

end Kept

theorem Framed.kept (h : Framed env b b' events) : Kept env b b' events :=
  ⟨h.journal, h.inPublicEntry, h.ownerThread⟩

theorem Represents.wellFormed (h : Represents env g b L) : L.WellFormed g := h.store.wellFormed

/-- The best price of a side as the book caches it. -/
theorem Represents.has_iff (h : Represents env g b L) :
    (b.side side).has = true ↔ ∃ i, L.best g side = some i := by
  rw [(h.index side).has, Option.isSome_iff_exists]

theorem Represents.of_best (h : Represents env g b L) (hbest : L.best g side = some i) :
    (b.side side).has = true ∧ (b.side side).best = g.price i ∧ (b.side side).bestIdx = i := by
  have hindex := h.index side
  rw [hbest] at hindex
  exact ⟨hindex.has, hindex.best, hindex.bestIdx⟩

/-- Both parts of the representation after a step on the opposite side. -/
theorem represents_of_opposite {M : Ledger} (store : Store env g b' M)
    (same : ∀ j, M.queue side j = L.queue side j)
    (hside : Index g side (L.occupied side) (L.best g side) (b'.side side))
    (hopposite : Index g side.opposite (M.occupied side.opposite) (M.best g side.opposite)
      (b'.side side.opposite)) : Represents env g b' M := by
  refine ⟨store, forall_side side ?_ hopposite⟩
  have hocc := Ledger.occupied_congr same
  rw [hocc, Ledger.best_congr hocc]
  exact hside

end OrderBook

namespace Exec

open OrderBook

variable {σ : Type} {env : Env} {g : Geometry} {x : Exec σ} {L : Ledger} {side : Side}
variable {taker takerPrice i n fuel : Nat} {is done : List Nat} {f : Trade → σ → σ}

/-- The fast and the slow path together: the store follows the queue. -/
theorem fillBestLevel_spec {level : PriceLevel} (store : Store env g x.book L) (hi : i < g.range)
    (hne : L.queue side.opposite i ≠ []) (hn : n < 2 ^ 32)
    (hrep : LevelHolds x.book.orderPool.pool level (L.queue side.opposite i)) :
    (if n ≥ level.totalQuantity then x.fillLevel env side taker (passive f) i n
      else do
        x.book.prefetchOrderMap level.head
        fillPartially env side taker (passive f) i (x.book.orderPool.capacity + 1) level.head n x :
        Checked (Exec σ × Nat)).Returns (fun (x', n') =>
      Store env g x'.book (L.takeQueue side.opposite i n) ∧
      n' = n - Greedy.total Resting.quantity (L.queue side.opposite i) ∧
      x'.client = feed f ((Greedy.fills Resting.quantity (L.queue side.opposite i) n).map
        (Ledger.fillTrade taker (g.price i))) x.client ∧
      Framed env x.book x'.book ((Greedy.fills Resting.quantity (L.queue side.opposite i) n).flatMap
        (Ledger.fillEvents side taker (g.price i)))) := by
  have htotal : level.totalQuantity =
      Greedy.total Resting.quantity (L.queue side.opposite i) := hrep.total
  by_cases hle : Greedy.total Resting.quantity (L.queue side.opposite i) ≤ n
  · rw [if_pos (htotal ▸ hle)]
    exact fillLevel_spec store hi hne hle hn
  · rw [if_neg (htotal ▸ hle)]
    have hlt := Nat.lt_of_not_le hle
    obtain ⟨r, rs, hq⟩ := List.exists_cons_of_ne_nil hne
    have hhead : level.head = behind (L.queue side.opposite i) := hrep.queue.head_eq
    have hmem : r ∈ L.queue side.opposite i := hq ▸ List.mem_cons_self
    obtain ⟨o, -, hread, -, hid, -⟩ := store.maker_eq hmem
    have hprefetch : x.book.prefetchOrderMap level.head = .ok () := by
      refine prefetchOrderMap_eq (Or.inr ⟨o, ?_, hid ▸ store.id_lt_mapSize hmem⟩)
      rw [hhead, hq]
      exact hread
    have hlength : (L.queue side.opposite i).length < x.book.orderPool.capacity + 1 := by
      have := store.wellFormed.count_queue_le side.opposite i
      have := store.active
      have := store.activeCount_le
      have := store.capacity
      omega
    rw [hhead] at hprefetch ⊢
    simp only [hprefetch, ok_bind]
    refine (fillPartially_spec store hi rfl hlt hlength).mono ?_
    rintro ⟨x', n'⟩ ⟨hstore, hn', hclient, hframed⟩
    refine ⟨?_, by omega, hclient, hframed⟩
    rw [Ledger.takeQueue, Ledger.freed, if_neg hle]
    exact hstore

/-- One iteration of the loop takes the best opposite level. -/
theorem matchBestLevel_spec (h : Represents env g x.book L)
    (hbest : L.best g side.opposite = some i) (hn : n < 2 ^ 32) :
    (x.matchBestLevel env side taker (passive f) n).Returns (fun (x', n') =>
      Represents env g x'.book (Ledger.takeLevel g side taker i n L).ledger ∧
      n' = (Ledger.takeLevel g side taker i n L).left ∧
      x'.client = feed f (Ledger.takeLevel g side taker i n L).trades x.client ∧
      Kept env x.book x'.book (Ledger.takeLevel g side taker i n L).events) := by
  have hisBest := h.wellFormed.best_eq_iff.mp hbest
  have hne : L.queue side.opposite i ≠ [] := hisBest.1
  have hi : i < g.range := (h.index side.opposite).lt_range i hne
  obtain ⟨level, -, hread, hrep⟩ := h.store.level_eq side.opposite hi
  obtain ⟨-, -, hidx⟩ := h.of_best hbest
  simp only [matchBestLevel, hidx, hread, ok_bind]
  refine (fillBestLevel_spec h.store hi hne hn hrep).bind ?_
  rintro ⟨x', n'⟩ ⟨hstore, rfl, hclient, hframed⟩
  have hown : ∀ j, (L.takeQueue side.opposite i n).queue side j = L.queue side j := by
    intro j
    refine Ledger.takeQueue_queue_of_ne ?_
    exact fun e => side.opposite_ne e.1.symm
  obtain ⟨level', -, hread', hrep'⟩ := hstore.level_eq side.opposite hi
  have hempty := hrep'.isEmpty_iff
  rw [List.map_eq_nil_iff, h.wellFormed.takeQueue_eq_nil_iff] at hempty
  have hside := hframed.indexOf (h.index side)
  have hopposite := hframed.indexOf (h.index side.opposite)
  simp only [hread', ok_bind, Ledger.takeLevel]
  by_cases hle : Greedy.total Resting.quantity (L.queue side.opposite i) ≤ n
  · -- the level is empty now: the index has to move on
    simp only [hempty.mpr hle, if_true, hle]
    rw [hbest] at hopposite
    refine (advanceBest_spec hstore hopposite hisBest
      (h.wellFormed.occupied_drained hle)).bind ?_
    rintro _ ⟨s, rfl, hlevels, hs⟩
    refine ⟨?_, rfl, hclient, ?_⟩
    · refine Represents.logged ?_ _
      refine represents_of_opposite (hstore.congr (SameStore.setSide hlevels)) hown ?_ ?_
      · rw [side_setSide_of_ne side.opposite_ne.symm]
        exact hside
      · rw [side_setSide_self]
        exact hs
    · exact hframed.kept.trans (Kept.setSide_logged x'.book side.opposite s _)
  · have hfalse : level'.isEmpty = false := Bool.eq_false_iff.mpr (fun e => hle (hempty.mp e))
    simp only [hfalse, Bool.false_eq_true, if_false, hle, pure_eq_ok, returns_ok, List.append_nil]
    refine ⟨represents_of_opposite hstore hown hside ?_, trivial, hclient, hframed.kept⟩
    have hocc := h.wellFormed.occupied_kept (Nat.lt_of_not_le hle)
    rw [hocc, Ledger.best_congr hocc]
    exact hopposite

/-- The first price not yet visited is the best one, if it is occupied. -/
theorem best_of_unvisited (h : L.WellFormed g)
    (hsplit : g.matchable side takerPrice = done ++ i :: is)
    (hdone : ∀ j ∈ done, L.queue side.opposite j = [])
    (hne : L.queue side.opposite i ≠ []) : L.best g side.opposite = some i := by
  have hi : i ∈ g.matchable side takerPrice := by
    rw [hsplit]
    simp
  have hcross := (Geometry.mem_matchable.mp hi).2
  have hpairwise := g.matchable_pairwise side takerPrice
  rw [hsplit] at hpairwise
  refine h.best_eq_iff.mpr ⟨hne, ?_⟩
  intro j hj hji
  have hlt : j < g.range := by
    by_contra hge
    exact hj (h.outside side.opposite j (Nat.le_of_not_lt hge))
  have hmem := Geometry.mem_matchable.mpr ⟨hlt, crosses_of_better hcross hji⟩
  rw [hsplit] at hmem
  rcases List.mem_append.mp hmem with hmem | hmem
  · exact hj (hdone j hmem)
  · rcases List.mem_cons.mp hmem with rfl | hmem
    · exact hji.irrefl
    · exact hji.asymm ((List.pairwise_cons.mp (List.pairwise_append.mp hpairwise).2.1).1 j hmem)

/-- The loop ends where the taker is exhausted or no accepted price is occupied. -/
theorem matchLoop_stop (h : Represents env g x.book L)
    (hidle : n = 0 ∨ ∀ j ∈ g.matchable side takerPrice, L.queue side.opposite j = []) :
    matchLoop env side taker (passive f) takerPrice (fuel + 1) n x = .ok (x, n) := by
  rw [matchLoop, if_neg]
  rintro ⟨hhas, hpos, hcross⟩
  obtain ⟨i, hbest⟩ := h.has_iff.mp hhas
  have hne := (h.wellFormed.best_eq_iff.mp hbest).1
  rw [(h.of_best hbest).2.1] at hcross
  exact hne ((hidle.resolve_left (Nat.ne_of_gt hpos)) i
    (Geometry.mem_matchable.mpr ⟨(h.index side.opposite).lt_range i hne, hcross⟩))

/-- The loop, with the prices `done` behind it and the prices `is` before it. -/
theorem matchLoop_spec (h : Represents env g x.book L)
    (hsplit : g.matchable side takerPrice = done ++ is)
    (hdone : n = 0 ∨ ∀ j ∈ done, L.queue side.opposite j = []) (hn : n < 2 ^ 32)
    (hfuel : is.length < fuel) :
    (matchLoop env side taker (passive f) takerPrice fuel n x).Returns (fun (x', n') =>
      Represents env g x'.book (Ledger.sweep g side taker is n L).ledger ∧
      n' = (Ledger.sweep g side taker is n L).left ∧
      x'.client = feed f (Ledger.sweep g side taker is n L).trades x.client ∧
      Kept env x.book x'.book (Ledger.sweep g side taker is n L).events) := by
  induction is generalizing L n fuel x done with
  | nil =>
      cases fuel with
      | zero => exact absurd hfuel (Nat.not_lt_zero _)
      | succ fuel =>
          rw [List.append_nil] at hsplit
          rw [matchLoop_stop h (hsplit ▸ hdone), returns_ok]
          exact ⟨h, rfl, rfl, Kept.refl env x.book⟩
  | cons i is ih =>
      cases fuel with
      | zero => exact absurd hfuel (Nat.not_lt_zero _)
      | succ fuel =>
          have hsplit' : g.matchable side takerPrice = (done ++ [i]) ++ is := by
            rw [hsplit, List.append_assoc, List.singleton_append]
          by_cases hzero : n = 0
          · subst hzero
            rw [matchLoop_stop h (Or.inl rfl), returns_ok, Ledger.sweep_zero]
            exact ⟨h, rfl, rfl, Kept.refl env x.book⟩
          · have hdone := hdone.resolve_left hzero
            by_cases hq : L.queue side.opposite i = []
            · rw [Ledger.sweep_skip (Or.inr hq)]
              refine ih h hsplit' (Or.inr ?_) hn (Nat.lt_of_succ_lt hfuel)
              intro j hj
              rcases List.mem_append.mp hj with hj | hj
              · exact hdone j hj
              · exact List.mem_singleton.mp hj ▸ hq
            · have hbest := best_of_unvisited h.wellFormed hsplit hdone hq
              obtain ⟨hhas, hprice, -⟩ := h.of_best hbest
              have hcross : crosses side takerPrice (g.price i) = true :=
                (Geometry.mem_matchable.mp (by rw [hsplit]; simp)).2
              simp only [matchLoop, hhas, hprice, hcross, gt_iff_lt, Nat.pos_of_ne_zero hzero,
                and_self, if_true]
              refine (matchBestLevel_spec h hbest hn).bind ?_
              rintro ⟨x', n'⟩ ⟨hrep, rfl, hclient, hkept⟩
              refine (ih hrep hsplit' ?_ (Nat.lt_of_le_of_lt (Nat.sub_le _ _) hn)
                (Nat.lt_of_succ_lt_succ hfuel)).mono ?_
              · -- either the taker is exhausted, or the level is
                by_cases hle : Greedy.total Resting.quantity (L.queue side.opposite i) ≤ n
                · refine Or.inr ?_
                  intro j hj
                  by_cases hji : j = i
                  · subst hji
                    exact h.wellFormed.takeQueue_eq_nil_iff.mpr hle
                  · have hj : j ∈ done := by simpa [hji] using hj
                    exact (Ledger.takeQueue_queue_of_ne (fun e => hji e.2)).trans (hdone j hj)
                · exact Or.inl (Nat.sub_eq_zero_of_le (Nat.le_of_not_le hle))
              · rintro ⟨x'', n''⟩ ⟨hrep', hleft, hclient', hkept'⟩
                rw [Ledger.sweep, if_neg (not_or.mpr ⟨hzero, hq⟩)]
                refine ⟨hrep', hleft, ?_, hkept.trans hkept'⟩
                rw [hclient', hclient, feed_append]
                rfl

theorem matchOrderDirect_spec (h : Represents env g x.book L) (hn : n < 2 ^ 32) :
    (x.matchOrderDirect env side taker (passive f) takerPrice n).Returns (fun (x', n') =>
      Represents env g x'.book
        (Ledger.sweep g side taker (g.matchable side takerPrice) n L).ledger ∧
      n' = (Ledger.sweep g side taker (g.matchable side takerPrice) n L).left ∧
      x'.client = feed f
        (Ledger.sweep g side taker (g.matchable side takerPrice) n L).trades x.client ∧
      Kept env x.book x'.book
        (Ledger.sweep g side taker (g.matchable side takerPrice) n L).events) := by
  have hlength : (g.matchable side takerPrice).length ≤ g.range := by
    have hle := List.length_filter_le
      (fun i => crosses side takerPrice (g.price i)) (g.priority side.opposite)
    have hpriority : (g.priority side.opposite).length = g.range := by
      cases side <;> simp [Geometry.priority, Side.opposite]
    rwa [hpriority] at hle
  have hnone : ∀ j ∈ ([] : List Nat), L.queue side.opposite j = [] :=
    fun j hj => absurd hj List.not_mem_nil
  refine matchLoop_spec h rfl (Or.inr hnone) hn ?_
  rw [h.store.levelsSize]
  omega

/-- Where there is nothing to match, matching changes nothing at all. -/
theorem matchOrderDirect_idle (h : Represents env g x.book L)
    (hidle : ∀ j ∈ g.matchable side takerPrice, L.queue side.opposite j = []) :
    x.matchOrderDirect env side taker (passive f) takerPrice n = .ok (x, n) :=
  matchLoop_stop h (Or.inr hidle)

end Exec

end Hft
