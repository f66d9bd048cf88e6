import MatchingEngine.Properties.Replay

/-!
# The replies are a record of the book

A client that sees every call and every reply, and nothing else, keeps the queues of the
book: it neither compares prices nor matches. It gets stuck on a trade that is not with the
head of its queue.
-/

namespace Hft

open Machine Machine.Checked

namespace Replay

/-- A trade against the order it names, which heads its queue. -/
def fill (side : Side) (r : Replay) (trade : Trade) : Option Replay :=
  match r.queue side trade.price with
  | [] => none
  | (id, n) :: rest =>
      if id ≠ trade.makerId ∨ n < trade.quantity then none
      else if n = trade.quantity then some (r.set side trade.price rest)
      else some (r.set side trade.price ((id, n - trade.quantity) :: rest))

/-- An order leaves the queue it is in, wherever that is. -/
def withdraw (r : Replay) (id : Nat) : Replay :=
  { r with queue := fun side price => (r.queue side price).filter (fun order => order.1 != id) }

def followCancel (r : Replay) (id : Nat) (reply : Reply) : Replay :=
  if reply.reason = .Accepted then r.withdraw id else r

/-- What a reply to a call says about the queues. -/
def follow (r : Replay) (call : Call) (reply : Reply) : Option Replay :=
  match call with
  | .cancelOrder id => some (r.followCancel id.toNat reply)
  | .addOrder id type price quantity side =>
      if type = .Cancel then some (r.followCancel id.toNat reply)
      else do
        let r ← reply.trades.foldlM (fill side.opposite) r
        if reply.reason = .Accepted ∧ type = .Limit ∧ reply.filledOut < quantity.toNat then
          return r.set side price.toNat
            (r.queue side price.toNat ++ [(id.toNat, quantity.toNat - reply.filledOut)])
        else return r

def followAll (r : Replay) (calls : List Call) (replies : List Reply) : Option Replay :=
  (calls.zip replies).foldlM (fun r (call, reply) => r.follow call reply) r

variable {g : Geometry} {L : Ledger} {r : Replay} {side : Side} {taker price i n : Nat}
variable {q : List Resting} {reply : Reply}

/-- The trades of a greedy consumption, each with the head of what is left. -/
theorem fill_fills (hq : r.queue side price = q.map Resting.entry)
    (hpos : ∀ a ∈ q, 0 < a.quantity) :
    ((Greedy.fills Resting.quantity q n).map (Ledger.fillTrade taker price)).foldlM
        (fill side) r =
      some (r.set side price ((Greedy.rest Resting.quantity Resting.shrink q n).map
        Resting.entry)) := by
  induction q generalizing r n with
  | nil =>
      simp only [Greedy.fills, Greedy.rest, List.map_nil, List.foldlM_nil, ← hq, set_self]
      rfl
  | cons a q ih =>
      by_cases hzero : n = 0
      · subst hzero
        rw [Greedy.fills_zero, Greedy.rest_zero hpos Resting.shrink_zero, ← hq, set_self]
        rfl
      have hfills : Greedy.fills Resting.quantity (a :: q) n =
          (a, min a.quantity n) :: Greedy.fills Resting.quantity q (n - a.quantity) :=
        if_neg hzero
      rw [hfills, List.map_cons, List.foldlM_cons]
      by_cases hlt : n < a.quantity
      · have hmin : min a.quantity n = n := by omega
        have hsub : n - a.quantity = 0 := by omega
        have hne : ¬a.quantity = n := by omega
        have hle : ¬a.quantity < n := by omega
        rw [hmin, hsub, Greedy.fills_zero]
        simp [fill, Ledger.fillTrade, hq, Resting.entry, Greedy.rest, hlt, hne, hle,
          Resting.shrink]
      · have hmin : min a.quantity n = a.quantity := by omega
        have hhead : r.fill side (Ledger.fillTrade taker price (a, a.quantity)) =
            some (r.set side price (q.map Resting.entry)) := by
          simp [fill, Ledger.fillTrade, hq, Resting.entry]
        have hrest := ih (r := r.set side price (q.map Resting.entry)) (n := n - a.quantity)
          set_queue_self (fun b hb => hpos b (List.mem_cons_of_mem a hb))
        rw [hmin, hhead]
        simp only [Option.bind_eq_bind, Option.bind_some, hrest, set_set, Greedy.rest, hlt,
          if_false]

/-- The trades of a sweep. -/
theorem fill_sweep {is : List Nat} (h : L.WellFormed g) (his : ∀ i ∈ is, i < g.range) :
    (Ledger.sweep g side taker is n L).trades.foldlM (fill side.opposite) (view g L) =
      some (view g (Ledger.sweep g side taker is n L).ledger) := by
  induction is generalizing n L with
  | nil => rfl
  | cons i is ih =>
      have his' := fun j hj => his j (List.mem_cons_of_mem i hj)
      by_cases hskip : n = 0 ∨ L.queue side.opposite i = []
      · rw [Ledger.sweep_skip hskip]
        exact ih h his'
      · have hlevel : ((Greedy.fills Resting.quantity (L.queue side.opposite i) n).map
            (Ledger.fillTrade taker (g.price i))).foldlM (fill side.opposite) (view g L) =
              some (view g (L.takeQueue side.opposite i n)) := by
          rw [Ledger.takeQueue, view_set]
          exact fill_fills (view_queue side.opposite i) (h.queue_pos side.opposite i)
        rw [Ledger.sweep, if_neg hskip]
        simp only [Ledger.takeLevel, List.foldlM_append, hlevel, Option.bind_eq_bind,
          Option.bind_some]
        exact ih (h.takeQueue side.opposite (his i List.mem_cons_self) n) his'

theorem withdraw_view {p : Placed} (h : L.WellFormed g) (hp : p ∈ L.resting g) :
    (view g L).withdraw p.order.id = view g (L.remove p) := by
  have hmem := (Ledger.mem_resting.mp hp).2
  refine ext (fun s price => ?_) rfl
  rw [Ledger.remove, view_set]
  by_cases hself : s = p.side ∧ price = g.price p.index
  · obtain ⟨rfl, rfl⟩ := hself
    rw [set_queue_self]
    simp only [withdraw, view_queue, List.filter_map]
    rfl
  · refine Eq.trans ?_ (if_neg hself).symm
    refine List.filter_eq_self.mpr (fun order horder => ?_)
    simp only [view] at horder
    split at horder
    · rename_i hmin
      obtain ⟨r, hr, rfl⟩ := List.mem_map.mp horder
      refine bne_iff_ne.mpr (fun heq => hself ?_)
      obtain ⟨hside, hindex, -⟩ := h.id_inj hr hmem heq
      refine ⟨hside, ?_⟩
      rw [← hindex, Geometry.price]
      omega
    · exact absurd horder List.not_mem_nil

theorem followCancel_view (h : L.WellFormed g) (id : Nat) :
    (view g L).followCancel id (L.cancel g id).reply = view g (L.cancel g id).ledger := by
  refine Ledger.cancel_cases
    (P := fun o => (view g L).followCancel id o.reply = view g o.ledger) h ?_ ?_
  · rintro reason (⟨rfl, -⟩ | ⟨rfl, -⟩) <;> rfl
  · rintro p hp rfl
    exact withdraw_view h hp

theorem follow_execute {id quantity : UInt32} {type : OrderType} {price : UInt32}
    (h : L.WellFormed g)
    (hvalid : Ledger.Valid g L id.toNat type price.toNat quantity.toNat side) :
    (view g L).follow (.addOrder id type price quantity side)
        (L.execute g id.toNat type price.toNat quantity.toNat side).reply =
      some (view g (L.execute g id.toNat type price.toNat quantity.toNat side).ledger) := by
  have hsweep : ∀ takerPrice, (Ledger.sweep g side id.toNat (g.matchable side takerPrice)
      quantity.toNat L).trades.foldlM (fill side.opposite) (view g L) =
        some (view g (Ledger.sweep g side id.toNat (g.matchable side takerPrice)
          quantity.toNat L).ledger) :=
    fun _ => fill_sweep h (fun i hi => (Geometry.mem_matchable.mp hi).1)
  refine Ledger.execute_cases (P := fun o =>
    (view g L).follow (.addOrder id type price quantity side) o.reply = some (view g o.ledger))
    hvalid ?_ ?_ ?_
  · intro _ _ _
    simp [follow, hvalid.not_cancel, Ledger.refuse]
  · rintro s slot free rfl hlimit hleft hfree
    have hswept := hsweep price.toNat
    have hle : (Ledger.sweep g side id.toNat (g.matchable side price.toNat) quantity.toNat
      L).left ≤ quantity.toNat := Ledger.sweep_left_le
    generalize Ledger.sweep g side id.toNat (g.matchable side price.toNat) quantity.toNat L = s
      at *
    have hprice : price.toNat = g.price (price.toNat - g.minPrice) := by
      have := (hvalid.price_mem hlimit).1
      unfold Geometry.price
      omega
    have hrest : quantity.toNat - s.left < quantity.toNat := by omega
    have hsub : quantity.toNat - (quantity.toNat - s.left) = s.left := by omega
    simp only [follow, hswept, Option.bind_eq_bind, Option.bind_some, hlimit, hrest, and_self,
      if_true, hsub, Ledger.append, view_set]
    rw [← hprice]
    simp [view, Resting.entry, (hvalid.price_mem hlimit).1]
  · rintro s rfl hdone
    have hswept := hsweep (OrderBook.resolvePrice type side price.toNat)
    generalize Ledger.sweep g side id.toNat
      (g.matchable side (OrderBook.resolvePrice type side price.toNat)) quantity.toNat L = s at *
    have hnot : ¬(type = .Limit ∧ quantity.toNat - s.left < quantity.toNat) := by
      rintro ⟨rfl, hlt⟩
      rcases hdone with hleft | htype
      · omega
      · cases htype
    simp only [follow, if_neg hvalid.not_cancel, hswept, Option.bind_eq_bind, Option.bind_some,
      true_and, if_neg hnot]
    rfl

/-- What the reply to a call says is what the call did. -/
theorem follow_step (h : L.WellFormed g) (call : Call) :
    (view g L).follow call (L.step g call).reply = some (view g (L.step g call).ledger) := by
  cases call with
  | cancelOrder id => exact congrArg some (followCancel_view h id.toNat)
  | addOrder id type price quantity side =>
      refine Ledger.add_cases (P := fun o =>
        (view g L).follow (.addOrder id type price quantity side) o.reply =
          some (view g o.ledger)) ?_ ?_ (follow_execute h)
      · rintro rfl
        exact congrArg some (followCancel_view h id.toNat)
      · intro reason loggedPrice haccepted _
        simp [follow, followCancel, Ledger.refuse, haccepted]

/-- The replies of a run take the queues along. -/
theorem followAll_run (calls : List Call) (log : List JournalEntry) (h : L.WellFormed g) :
    (view g L).followAll calls (runs (Ledger.advance g) (L, log) calls).1 =
      some (view g (runs (Ledger.advance g) (L, log) calls).2.1) := by
  induction calls generalizing L log with
  | nil => rfl
  | cons call calls ih =>
      have hrest := ih (log ++ (L.step g call).events) (h.step call)
      simp only [followAll, runs, Ledger.advance, List.zip_cons_cons, List.foldlM_cons] at hrest ⊢
      rw [follow_step h call]
      exact hrest

/-- The queues are those of the book, and none outside its prices. -/
structure Displays (r : Replay) (b : OrderBook) : Prop where
  removed : r.removed = none
  queues : ∀ side i, i < (b.side side).levels.size →
    b.queue side i = .ok (r.queue side (b.minPrice + i))
  outside : ∀ side p, p < b.minPrice ∨ b.maxPrice < p → r.queue side p = []

end Replay

namespace OrderBook

variable {env : Env} {g : Geometry} {args : Args} {b b₀ : OrderBook} {L : Ledger} {r : Replay}

theorem Store.displays_view (store : Store env g b L) : (Replay.view g L).Displays b where
  removed := rfl
  queues := fun side i hi => by
    rw [store.levelsSize] at hi
    rw [queue_eq store side hi, store.minPrice]
    exact congrArg _ (Replay.view_queue side i).symm
  outside := fun side p hp => by
    rw [store.minPrice, store.maxPrice] at hp
    have := g.minPrice_add_range
    simp only [Replay.view]
    split
    · rw [store.wellFormed.outside side _ (by omega), List.map_nil]
    · rfl

theorem Store.eq_view (store : Store env g b L) (hr : r.Displays b) : r = Replay.view g L := by
  have hview := store.displays_view
  refine Replay.ext (fun side p => ?_) hr.removed
  have hrange := g.minPrice_add_range
  by_cases hp : b.minPrice ≤ p ∧ p ≤ b.maxPrice
  · have hi : p - b.minPrice < (b.side side).levels.size := by
      rw [store.levelsSize]
      rw [store.minPrice, store.maxPrice] at *
      omega
    have hqueue := (hr.queues side _ hi).symm.trans (hview.queues side _ hi)
    rw [Except.ok.injEq, Nat.add_sub_cancel' hp.1] at hqueue
    exact hqueue
  · rw [hr.outside side p (by omega), hview.outside side p (by omega)]

/-- Whoever shows the queues of a book and follows the replies to all later calls shows the
queues of the book they lead to. -/
theorem replies_rebuild_book (hb : Reachable env args b) (hr : r.Displays b)
    (calls : List Call) : (b.run env calls).Returns (fun (replies, b') =>
      ∃ r', r.followAll calls replies = some r' ∧ r'.Displays b') := by
  obtain ⟨accepted, ⟨L, log⟩, htracks⟩ := hb.tracks
  have hstore := htracks.1.represents.store
  rw [hstore.eq_view hr]
  refine ((step_refines env _).runs htracks).mono ?_
  rintro ⟨replies, b'⟩ ⟨rfl, htracks'⟩
  exact ⟨_, Replay.followAll_run calls log hstore.wellFormed,
    htracks'.1.represents.store.displays_view⟩

theorem displays_small (env : Env) : ∃ b₀, construct env .small = .ok b₀ ∧
    Reachable env .small b₀ ∧ Replay.empty.Displays b₀ := by
  obtain ⟨b₀, h, hready, -⟩ := returns_iff.mp (construct_spec env Args.small_accepted)
  refine ⟨b₀, h, ⟨b₀, [], [], h, rfl⟩, ?_⟩
  rw [← Replay.view_empty .small]
  exact hready.represents.store.displays_view

theorem replies_rebuild_book_small : ∃ b₀, construct .release .small = .ok b₀ ∧
    (b₀.run .release [.addOrder 1 .Limit 101 5 .Buy, .addOrder 2 .Market 0 3 .Sell]).Returns
      (fun (replies, b) => ∃ r, Replay.empty.followAll
        [.addOrder 1 .Limit 101 5 .Buy, .addOrder 2 .Market 0 3 .Sell] replies = some r ∧
        r.Displays b) := by
  obtain ⟨b₀, h, hb, hempty⟩ := displays_small .release
  exact ⟨b₀, h, replies_rebuild_book hb hempty _⟩

end OrderBook

end Hft
