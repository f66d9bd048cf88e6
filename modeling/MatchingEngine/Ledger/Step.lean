import MatchingEngine.Ledger.Matching

/-!
# Calls on ledgers

The meaning of the public calls: what each returns, the journal entries it
leaves, and the ledger after it. A refused call leaves the ledger as it was.
-/

namespace Hft

open Machine

namespace Ledger

structure Outcome where
  reply : Reply
  events : List JournalEntry
  ledger : Ledger

def refuse (L : Ledger) (reason : RejectReason) (events : List JournalEntry) : Outcome :=
  ⟨⟨reason, 0, []⟩, events, L⟩

/-- Take a resting order out of its queue; its slot heads the free ones. -/
def remove (L : Ledger) (p : Placed) : Ledger :=
  L.set p.side p.index ((L.queue p.side p.index).filter (fun r => r.id != p.order.id))
    (p.order.slot :: L.free)

/-- Append an order to a queue, in a slot that is no longer free. -/
def append (L : Ledger) (side : Side) (i : Nat) (r : Resting) (free : List Nat) : Ledger :=
  L.set side i (L.queue side i ++ [r]) free

variable (g : Geometry)

def cancel (L : Ledger) (id : Nat) : Outcome :=
  let submitted : JournalEntry := ⟨.OrderSubmitted, id, 0, 0, Side.Buy.toByte, 0⟩
  let rejected (reason : RejectReason) : JournalEntry :=
    ⟨.OrderRejected, id, 0, 0, Side.Buy.toByte, reason.toByte⟩
  if id = 0 ∨ id > g.maxOrderId then
    L.refuse .OutOfBoundsOrderId [submitted, rejected .OutOfBoundsOrderId]
  else
    match L.find g id with
    | none => L.refuse .CancelFailed [submitted, rejected .CancelFailed]
    | some p => ⟨⟨.Accepted, 0, []⟩,
        [submitted, ⟨.OrderCancelled, id, g.price p.index, 0, p.side.toByte, 0⟩], L.remove p⟩

/-- An order posted at index `i` becomes the best of its side. -/
def Improves (L : Ledger) (side : Side) (i : Nat) : Prop :=
  ∀ b, L.best g side = some b → side.Better i b

instance (L : Ledger) (side : Side) (i : Nat) : Decidable (L.Improves g side i) :=
  decidable_of_iff (∀ b ∈ L.best g side, side.Better i b) Iff.rfl

/-- Post an order of quantity `n` at index `i`, if there is a free slot. -/
def post (L : Ledger) (side : Side) (id i n : Nat) :
    RejectReason × List JournalEntry × Ledger :=
  match L.free with
  | [] => (.PoolExhausted, [⟨.PoolExhausted, id, g.price i, n, side.toByte, 0⟩], L)
  | slot :: free =>
      (.Accepted,
        (if L.Improves g side i then
          [⟨OrderBook.bestChanged side, 0, g.price i, 0, side.toByte, 0⟩] else []) ++
        [⟨.OrderRested, id, g.price i, n, side.toByte, 0⟩],
        L.append side i ⟨slot, id, n⟩ free)

/-- An order that passed validation: sweep, then post or discard the remainder. -/
def execute (L : Ledger) (id : Nat) (type : OrderType) (price quantity : Nat) (side : Side) :
    Outcome :=
  let submitted : JournalEntry := ⟨.OrderSubmitted, id, price, quantity, side.toByte, 0⟩
  let is := g.matchable side (OrderBook.resolvePrice type side price)
  let s := sweep g side id is quantity L
  if s.left > 0 ∧ type ≠ .Market then
    let (reason, events, ledger) := s.ledger.post g side id (price - g.minPrice) s.left
    ⟨⟨reason, quantity - s.left, s.trades⟩, submitted :: s.events ++ events, ledger⟩
  else ⟨⟨.Accepted, quantity - s.left, s.trades⟩, submitted :: s.events, s.ledger⟩

def add (L : Ledger) (id : Nat) (type : OrderType) (price quantity : Nat) (side : Side) : Outcome :=
  let rejected (reason : RejectReason) (price : Nat) : Outcome :=
    L.refuse reason [⟨.OrderRejected, id, price, quantity, side.toByte, reason.toByte⟩]
  if type = .Cancel then L.cancel g id
  else if quantity = 0 then rejected .InvalidQuantity price
  else if id = 0 ∨ id > g.maxOrderId then rejected .OutOfBoundsOrderId price
  else if (L.find g id).isSome then rejected .DuplicateOrderId price
  else if type = .Limit ∧ (price < g.minPrice ∨ price > g.maxPrice) then
    rejected .OutOfBoundsPrice price
  else if type = .Market ∧ L.best g side.opposite = none then rejected .MarketOnEmptyBook 0
  else L.execute g id type price quantity side

def step (L : Ledger) : Call → Outcome
  | .addOrder id type price quantity side =>
      L.add g id.toNat type price.toNat quantity.toNat side
  | .cancelOrder id => L.cancel g id.toNat

/-- A step that also keeps the journal. -/
def advance (state : Ledger × List JournalEntry) (call : Call) :
    Reply × Ledger × List JournalEntry :=
  let outcome := state.1.step g call
  (outcome.reply, outcome.ledger, state.2 ++ outcome.events)

/-- The replies of a run, its final ledger and its journal. -/
def run (L : Ledger) (calls : List Call) : List Reply × Ledger × List JournalEntry :=
  runs (advance g) (L, []) calls

variable {g : Geometry} {L : Ledger} {side : Side} {id i n : Nat} {p : Placed} {free : List Nat}

/-- The best price once an order has been posted. -/
theorem best_append {r : Resting} (h : L.WellFormed g)
    (h' : (L.append side i r free).WellFormed g) :
    (L.append side i r free).best g side =
      if L.Improves g side i then some i else L.best g side := by
  have hocc : (L.append side i r free).occupied side = insert i (L.occupied side) :=
    occupied_set (by simp)
  have hbest := h.isBest side
  rw [h'.best_eq_iff, hocc]
  by_cases himproves : L.Improves g side i
  · rw [if_pos himproves]
    refine ⟨Set.mem_insert i _, ?_⟩
    intro j hj hji
    rcases Set.mem_insert_iff.mp hj with rfl | hj
    · exact hji.irrefl
    · cases hb : L.best g side with
      | none =>
          rw [hb] at hbest
          exact hbest j hj
      | some b =>
          rw [hb] at hbest
          exact hbest.2 j hj (hji.trans (himproves b hb))
  · rw [if_neg himproves]
    obtain ⟨b, hb, hib⟩ : ∃ b, L.best g side = some b ∧ ¬side.Better i b := by
      simpa [Improves] using himproves
    rw [hb] at hbest ⊢
    refine ⟨Set.mem_insert_of_mem i hbest.1, ?_⟩
    intro j hj
    rcases Set.mem_insert_iff.mp hj with rfl | hj
    · exact hib
    · exact hbest.2 j hj

/-- The best price survives the loss of another price. -/
theorem best_of_erased {M : Ledger} (h : L.WellFormed g) (hM : M.WellFormed g)
    (hocc : M.occupied side = L.occupied side \ {i}) (hne : L.best g side ≠ some i) :
    M.best g side = L.best g side := by
  have hbest := h.isBest side
  rw [hM.best_eq_iff, hocc]
  cases hL : L.best g side with
  | none =>
      rw [hL] at hbest
      exact fun j hj => hbest j hj.1
  | some k =>
      rw [hL] at hbest hne
      refine ⟨⟨hbest.1, ?_⟩, fun j hj => hbest.2 j hj.1⟩
      rintro rfl
      exact hne rfl

theorem cancel_reply (L : Ledger) (id : Nat) :
    (L.cancel g id).reply.filledOut = 0 ∧ (L.cancel g id).reply.trades = [] := by
  unfold cancel
  split
  · exact ⟨rfl, rfl⟩
  · split <;> exact ⟨rfl, rfl⟩

theorem cancel_reply_eq (L : Ledger) (id : Nat) :
    (L.cancel g id).reply = ⟨(L.cancel g id).reply.reason, 0, []⟩ := by
  unfold cancel
  split
  · rfl
  · split <;> rfl

/-- A cancel is refused, or takes one resting order out. -/
theorem cancel_cases {P : Outcome → Prop} (h : L.WellFormed g)
    (refused : ∀ reason, reason = .OutOfBoundsOrderId ∧ (id = 0 ∨ id > g.maxOrderId) ∨
        reason = .CancelFailed ∧ (∀ p ∈ L.resting g, p.order.id ≠ id) →
      P (L.refuse reason [⟨.OrderSubmitted, id, 0, 0, Side.Buy.toByte, 0⟩,
        ⟨.OrderRejected, id, 0, 0, Side.Buy.toByte, reason.toByte⟩]))
    (cancelled : ∀ p ∈ L.resting g, p.order.id = id →
      P ⟨⟨.Accepted, 0, []⟩, [⟨.OrderSubmitted, id, 0, 0, Side.Buy.toByte, 0⟩,
        ⟨.OrderCancelled, id, g.price p.index, 0, p.side.toByte, 0⟩], L.remove p⟩) :
    P (L.cancel g id) := by
  unfold Ledger.cancel
  by_cases hbounds : id = 0 ∨ id > g.maxOrderId
  · rw [if_pos hbounds]
    exact refused _ (Or.inl ⟨rfl, hbounds⟩)
  · rw [if_neg hbounds]
    cases hfind : L.find g id with
    | none => exact refused _ (Or.inr ⟨rfl, find_eq_none_iff.mp hfind⟩)
    | some p =>
        obtain ⟨hp, hid⟩ := (find_eq_some_iff h).mp hfind
        exact cancelled p hp hid

section Orders

variable {type : OrderType} {price quantity : Nat}

/-- What validation lets through. -/
structure Valid (g : Geometry) (L : Ledger) (id : Nat) (type : OrderType) (price quantity : Nat)
    (side : Side) : Prop where
  not_cancel : type ≠ .Cancel
  quantity_pos : 0 < quantity
  id_pos : 0 < id
  id_le : id ≤ g.maxOrderId
  fresh : ∀ p ∈ L.resting g, p.order.id ≠ id
  price_mem : type = .Limit → g.minPrice ≤ price ∧ price ≤ g.maxPrice
  opposite : type = .Market → L.best g side.opposite ≠ none

theorem Valid.limit (h : Valid g L id type price quantity side) (hne : type ≠ .Market) :
    type = .Limit := by
  cases type with
  | Limit => rfl
  | Market => exact absurd rfl hne
  | Cancel => exact absurd rfl h.not_cancel

/-- A Limit order is matched and posted at its own price. -/
theorem Valid.resolvePrice (h : Valid g L id type price quantity side) (hne : type ≠ .Market) :
    price - g.minPrice < g.range ∧
      OrderBook.resolvePrice type side price = g.price (price - g.minPrice) := by
  obtain ⟨hmin, hmax⟩ := h.price_mem (h.limit hne)
  have hrange := g.minPrice_add_range
  refine ⟨by omega, ?_⟩
  rw [h.limit hne, Geometry.price]
  cases side <;> simp only [OrderBook.resolvePrice] <;> omega

/-- What no check refuses is valid. -/
theorem Valid.of_checks (hcancel : type ≠ .Cancel) (hzero : quantity ≠ 0)
    (hbounds : ¬(id = 0 ∨ id > g.maxOrderId)) (hfind : ¬(L.find g id).isSome)
    (hprice : ¬(type = .Limit ∧ (price < g.minPrice ∨ price > g.maxPrice)))
    (hmarket : ¬(type = .Market ∧ L.best g side.opposite = none)) :
    Valid g L id type price quantity side := by
  refine ⟨hcancel, by omega, by omega, by omega, ?_, ?_, ?_⟩
  · exact find_eq_none_iff.mp (Option.not_isSome_iff_eq_none.mp hfind)
  · intro hlimit
    by_contra hout
    exact hprice ⟨hlimit, by omega⟩
  · exact fun htype hbest => hmarket ⟨htype, hbest⟩

/-- An add is a cancel, or refused by validation, or executed. -/
theorem add_cases {P : Outcome → Prop}
    (cancel : type = .Cancel → P (L.cancel g id))
    (refused : ∀ reason loggedPrice, reason ≠ .Accepted → reason ≠ .PoolExhausted →
      P (L.refuse reason [⟨.OrderRejected, id, loggedPrice, quantity, side.toByte, reason.toByte⟩]))
    (execute : Valid g L id type price quantity side →
      P (L.execute g id type price quantity side)) :
    P (L.add g id type price quantity side) := by
  unfold Ledger.add
  by_cases hcancel : type = .Cancel
  · rw [if_pos hcancel]
    exact cancel hcancel
  rw [if_neg hcancel]
  by_cases hzero : quantity = 0
  · rw [if_pos hzero]
    exact refused _ _ (by decide) (by decide)
  rw [if_neg hzero]
  by_cases hbounds : id = 0 ∨ id > g.maxOrderId
  · rw [if_pos hbounds]
    exact refused _ _ (by decide) (by decide)
  rw [if_neg hbounds]
  by_cases hfind : (L.find g id).isSome
  · rw [if_pos hfind]
    exact refused _ _ (by decide) (by decide)
  rw [if_neg hfind]
  by_cases hprice : type = .Limit ∧ (price < g.minPrice ∨ price > g.maxPrice)
  · rw [if_pos hprice]
    exact refused _ _ (by decide) (by decide)
  rw [if_neg hprice]
  by_cases hmarket : type = .Market ∧ L.best g side.opposite = none
  · rw [if_pos hmarket]
    exact refused _ _ (by decide) (by decide)
  rw [if_neg hmarket]
  exact execute (Valid.of_checks hcancel hzero hbounds hfind hprice hmarket)

/-- An order that is neither rejected nor a cancel has passed validation. -/
theorem valid_of_add (htype : type ≠ .Cancel) :
    (L.add g id type price quantity side).reply.reason = .Accepted ∨
      (L.add g id type price quantity side).reply.reason = .PoolExhausted →
    Valid g L id type price quantity side := by
  refine add_cases (P := fun o => o.reply.reason = .Accepted ∨ o.reply.reason = .PoolExhausted →
    Valid g L id type price quantity side) (fun e => absurd e htype) ?_ (fun hvalid _ => hvalid)
  rintro reason loggedPrice haccepted hexhausted (h | h)
  · exact absurd h haccepted
  · exact absurd h hexhausted

theorem add_of_valid (h : Valid g L id type price quantity side) :
    L.add g id type price quantity side = L.execute g id type price quantity side := by
  have hid : ¬(id = 0 ∨ id > g.maxOrderId) := by
    have := h.id_pos
    have := h.id_le
    omega
  have hfind : ¬(L.find g id).isSome := by
    simp [find_eq_none_iff.mpr h.fresh]
  have hprice : ¬(type = .Limit ∧ (price < g.minPrice ∨ price > g.maxPrice)) := by
    rintro ⟨hlimit, hout⟩
    have := h.price_mem hlimit
    omega
  have hmarket : ¬(type = .Market ∧ L.best g side.opposite = none) :=
    fun ⟨htype, hbest⟩ => h.opposite htype hbest
  rw [Ledger.add, if_neg h.not_cancel, if_neg (Nat.ne_of_gt h.quantity_pos), if_neg hid,
    if_neg hfind, if_neg hprice, if_neg hmarket]

end Orders

/-! ## The calls keep a ledger well formed -/

theorem filter_id_ne {as bs : List Resting} {r : Resting}
    (h : ((as ++ r :: bs).map Resting.id).Nodup) :
    (as ++ r :: bs).filter (fun s => s.id != r.id) = as ++ bs := by
  rw [List.map_append, List.map_cons, List.nodup_append, List.nodup_cons] at h
  have has : ∀ s ∈ as, s.id ≠ r.id := fun s hs =>
    h.2.2 s.id (List.mem_map_of_mem hs) r.id List.mem_cons_self
  have hbs : ∀ s ∈ bs, s.id ≠ r.id := fun s hs e =>
    h.2.1.1 (e ▸ List.mem_map_of_mem hs)
  rw [List.filter_append, List.filter_cons_of_neg (by simp),
    List.filter_eq_self.mpr (by simpa using has), List.filter_eq_self.mpr (by simpa using hbs)]

namespace WellFormed

variable (h : L.WellFormed g)
include h

/-- A resting order splits its queue; removing it joins the two parts. -/
theorem exists_split (hp : p ∈ L.resting g) :
    ∃ as bs, L.queue p.side p.index = as ++ p.order :: bs ∧
      L.remove p = L.set p.side p.index (as ++ bs) (p.order.slot :: L.free) := by
  obtain ⟨as, bs, hsplit⟩ := List.append_of_mem (mem_resting.mp hp).2
  refine ⟨as, bs, hsplit, ?_⟩
  have hids := h.ids_nodup p.side p.index
  rw [hsplit] at hids
  rw [Ledger.remove, hsplit, filter_id_ne hids]

theorem remove (hp : p ∈ L.resting g) : (L.remove p).WellFormed g := by
  obtain ⟨as, bs, hsplit, hremove⟩ := h.exists_split hp
  have hmem : ∀ r ∈ as ++ bs, r ∈ L.queue p.side p.index := by
    intro r hr
    rw [hsplit]
    rcases List.mem_append.mp hr with hr | hr
    · exact List.mem_append_left _ hr
    · exact List.mem_append_right _ (List.mem_cons_of_mem _ hr)
  have hids := h.ids_nodup p.side p.index
  rw [hsplit] at hids
  rw [hremove]
  refine h.replace (mem_resting.mp hp).1 ?_ ?_ ?_ ?_ ?_ ?_ ?_
  · rw [hsplit, List.perm_iff_count]
    intro a
    simp only [List.map_append, List.map_cons, List.count_append, List.count_cons]
    omega
  · refine hids.sublist (List.Sublist.map _ ?_)
    exact List.Sublist.append_left (List.sublist_cons_self _ bs) as
  · exact fun r hr => Or.inl (List.mem_map_of_mem (hmem r hr))
  · exact fun r hr => h.id_pos _ (h.mem (hmem r hr))
  · exact fun r hr => h.id_le _ (h.mem (hmem r hr))
  · exact fun r hr => h.quantity_pos _ (h.mem (hmem r hr))
  · exact fun r hr => h.quantity_lt _ (h.mem (hmem r hr))

theorem remove_fresh (hp : p ∈ L.resting g) :
    ∀ q ∈ (L.remove p).resting g, q.order.id ≠ p.order.id := by
  intro q hq hid
  obtain ⟨hlt, hmem⟩ := mem_resting.mp hq
  by_cases hself : q.side = p.side ∧ q.index = p.index
  · simp only [Ledger.remove, hself.1, hself.2, set_queue_self] at hmem
    simpa [hid] using (List.mem_filter.mp hmem).2
  · simp only [Ledger.remove, set_queue_of_ne hself] at hmem
    have hsame := h.id_inj hmem (mem_resting.mp hp).2 hid
    exact hself ⟨hsame.1, hsame.2.1⟩

theorem append {slot : Nat} (hi : i < g.range) (hfree : L.free = slot :: free)
    (hfresh : ∀ p ∈ L.resting g, p.order.id ≠ id) (hpos : 0 < id) (hle : id ≤ g.maxOrderId)
    (hn : 0 < n) (hlt : n < 2 ^ 32) : (L.append side i ⟨slot, id, n⟩ free).WellFormed g := by
  have hmem : ∀ {P : Resting → Prop}, (∀ r ∈ L.queue side i, P r) → P ⟨slot, id, n⟩ →
      ∀ r ∈ L.queue side i ++ [⟨slot, id, n⟩], P r := by
    intro P hold hnew r hr
    rcases List.mem_append.mp hr with hr | hr
    · exact hold r hr
    · exact List.mem_singleton.mp hr ▸ hnew
  refine h.replace hi ?_ ?_ ?_ ?_ ?_ ?_ ?_
  · rw [hfree, List.perm_iff_count]
    intro a
    simp only [List.map_append, List.map_cons, List.map_nil, List.count_append, List.count_cons,
      List.count_nil]
    omega
  · rw [List.map_append, List.nodup_append]
    refine ⟨h.ids_nodup side i, by simp, ?_⟩
    rintro a ha b hb rfl
    obtain ⟨r, hr, rfl⟩ := List.mem_map.mp ha
    exact hfresh _ (h.mem hr) (by simpa using hb)
  · exact hmem (fun r hr => Or.inl (List.mem_map_of_mem hr)) (Or.inr hfresh)
  · exact hmem (fun r hr => h.id_pos _ (h.mem hr)) hpos
  · exact hmem (fun r hr => h.id_le _ (h.mem hr)) hle
  · exact hmem (fun r hr => h.quantity_pos _ (h.mem hr)) hn
  · exact hmem (fun r hr => h.quantity_lt _ (h.mem hr)) hlt

theorem cancel (id : Nat) : (L.cancel g id).ledger.WellFormed g :=
  cancel_cases (P := fun o => o.ledger.WellFormed g) h (fun _ _ => h) (fun _ hp _ => h.remove hp)

theorem post (hi : i < g.range) (hfresh : ∀ p ∈ L.resting g, p.order.id ≠ id) (hpos : 0 < id)
    (hle : id ≤ g.maxOrderId) (hn : 0 < n) (hlt : n < 2 ^ 32) :
    (L.post g side id i n).2.2.WellFormed g := by
  unfold Ledger.post
  split
  · exact h
  · rename_i hfree
    exact h.append hi hfree hfresh hpos hle hn hlt

end WellFormed

/-- A sweep takes orders out of a queue and keeps the order of the others. -/
theorem sweep_ids {taker : Nat} {is : List Nat} (s : Side) (j : Nat) :
    (((sweep g side taker is n L).ledger.queue s j).map Resting.id).Sublist
      ((L.queue s j).map Resting.id) := by
  refine sweep_induction (P := fun _ M => ((M.queue s j).map Resting.id).Sublist
    ((L.queue s j).map Resting.id)) (List.Sublist.refl _) ?_
  intro i _ n M _ _ hM
  refine List.Sublist.trans ?_ hM
  by_cases hself : s = side.opposite ∧ j = i
  · obtain ⟨rfl, rfl⟩ := hself
    simp only [takeLevel, takeQueue_queue_self]
    rw [← Greedy.map_consumed_append_map_rest Resting.quantity Resting.shrink_id
      (M.queue side.opposite j) n]
    exact List.sublist_append_right _ _
  · simp only [takeLevel, takeQueue_queue_of_ne hself]
    exact List.Sublist.refl _

/-- A sweep leaves no id at rest that was not at rest before. -/
theorem sweep_fresh {taker : Nat} {is : List Nat}
    (hfresh : ∀ p ∈ L.resting g, p.order.id ≠ id) :
    ∀ p ∈ (sweep g side taker is n L).ledger.resting g, p.order.id ≠ id := by
  intro p hp
  obtain ⟨hlt, hmem⟩ := mem_resting.mp hp
  obtain ⟨r, hr, hid⟩ := List.mem_map.mp
    ((sweep_ids p.side p.index).subset (List.mem_map_of_mem hmem))
  rw [← hid]
  exact hfresh ⟨p.side, p.index, r⟩ (mem_resting.mpr ⟨hlt, hr⟩)

/-- Without an order at the visited prices a sweep does nothing. -/
theorem sweep_idle {taker : Nat} {is : List Nat} (hidle : ∀ i ∈ is, L.queue side.opposite i = []) :
    sweep g side taker is n L = ⟨L, n, [], []⟩ := by
  induction is with
  | nil => rfl
  | cons i is ih =>
      rw [sweep_skip (Or.inr (hidle i List.mem_cons_self))]
      exact ih (fun j hj => hidle j (List.mem_cons_of_mem i hj))

theorem sweep_free_suffix {taker : Nat} {is : List Nat} :
    L.free <:+ (sweep g side taker is n L).ledger.free := by
  refine sweep_induction (P := fun _ M => L.free <:+ M.free) (List.suffix_refl _) ?_
  intro i _ n M _ _ hM
  exact hM.trans (List.suffix_append _ _)

theorem sweep_left_le {taker : Nat} {is : List Nat} : (sweep g side taker is n L).left ≤ n := by
  refine sweep_induction (P := fun m _ => m ≤ n) (Nat.le_refl n) ?_
  intro i _ m M _ _ hm
  simp only [takeLevel]
  omega

/-- A taker that meets an order and is not exhausted has freed a slot. -/
theorem sweep_free_ne_nil {taker j : Nat} {is : List Nat}
    (hleft : 0 < (sweep g side taker is n L).left) (hj : j ∈ is)
    (hne : L.queue side.opposite j ≠ []) : (sweep g side taker is n L).ledger.free ≠ [] := by
  induction is generalizing n L with
  | nil => exact absurd hj List.not_mem_nil
  | cons i is ih =>
      by_cases hskip : n = 0 ∨ L.queue side.opposite i = []
      · rw [sweep_skip hskip] at hleft ⊢
        rcases List.mem_cons.mp hj with rfl | hj
        · rw [hskip.resolve_right hne, sweep_zero] at hleft
          exact absurd hleft (Nat.lt_irrefl 0)
        · exact ih hleft hj hne
      · rw [sweep, if_neg hskip] at hleft ⊢
        have hfirst : 0 < (takeLevel g side taker i n L).left :=
          Nat.lt_of_lt_of_le hleft sweep_left_le
        have htotal : Greedy.total Resting.quantity (L.queue side.opposite i) ≤ n := by
          simp only [takeLevel] at hfirst
          omega
        have hfreed : (takeLevel g side taker i n L).ledger.free ≠ [] := by
          rw [not_or] at hskip
          simp [takeLevel, takeQueue, freed, htotal, hskip.2]
        intro hnil
        have hsuffix : (takeLevel g side taker i n L).ledger.free <:+ [] := by
          rw [← hnil]
          exact sweep_free_suffix
        exact hfreed (List.suffix_nil.mp hsuffix)

/-- An executed order finds no slot where it met nobody, or is posted, or leaves
nothing to post. -/
theorem execute_cases {P : Outcome → Prop} {type : OrderType} {price quantity : Nat}
    (hvalid : Valid g L id type price quantity side)
    (exhausted : type = .Limit → L.free = [] →
      (∀ j ∈ g.matchable side price, L.queue side.opposite j = []) →
      P (L.refuse .PoolExhausted [⟨.OrderSubmitted, id, price, quantity, side.toByte, 0⟩,
        ⟨.PoolExhausted, id, price, quantity, side.toByte, 0⟩]))
    (posted : ∀ s slot free, s = sweep g side id (g.matchable side price) quantity L →
      type = .Limit → 0 < s.left → s.ledger.free = slot :: free →
      P ⟨⟨.Accepted, quantity - s.left, s.trades⟩,
        ⟨.OrderSubmitted, id, price, quantity, side.toByte, 0⟩ :: s.events ++
          ((if s.ledger.Improves g side (price - g.minPrice) then
            [⟨OrderBook.bestChanged side, 0, price, 0, side.toByte, 0⟩] else []) ++
          [⟨.OrderRested, id, price, s.left, side.toByte, 0⟩]),
        s.ledger.append side (price - g.minPrice) ⟨slot, id, s.left⟩ free⟩)
    (done : ∀ s, s = sweep g side id
        (g.matchable side (OrderBook.resolvePrice type side price)) quantity L →
      (s.left = 0 ∨ type = .Market) →
      P ⟨⟨.Accepted, quantity - s.left, s.trades⟩,
        ⟨.OrderSubmitted, id, price, quantity, side.toByte, 0⟩ :: s.events, s.ledger⟩) :
    P (L.execute g id type price quantity side) := by
  unfold Ledger.execute
  simp only
  split
  · rename_i hpost
    have hlimit := hvalid.limit hpost.2
    have hresolve : OrderBook.resolvePrice type side price = price := by
      rw [hlimit, OrderBook.resolvePrice_limit]
    have hprice : g.price (price - g.minPrice) = price :=
      (hvalid.resolvePrice hpost.2).2.symm.trans hresolve
    rw [hresolve] at hpost ⊢
    cases hfree : (sweep g side id (g.matchable side price) quantity L).ledger.free with
    | nil =>
        have hidle : ∀ j ∈ g.matchable side price, L.queue side.opposite j = [] := by
          intro j hj
          by_contra hne
          exact sweep_free_ne_nil hpost.1 hj hne hfree
        simp only [sweep_idle hidle] at hfree ⊢
        simp only [Ledger.post, hfree, hprice, Nat.sub_self, List.cons_append, List.nil_append]
        exact exhausted hlimit hfree hidle
    | cons slot free =>
        simp only [Ledger.post, hfree, hprice]
        exact posted _ slot free rfl hlimit hpost.1 hfree
  · rename_i hnot
    refine done _ rfl ?_
    by_contra hneither
    rw [not_or] at hneither
    exact hnot ⟨Nat.pos_of_ne_zero hneither.1, hneither.2⟩

/-- The answers to an order that passes every check. -/
theorem add_passes_iff {type : OrderType} {price quantity : Nat} (htype : type ≠ .Cancel) :
    (L.add g id type price quantity side).reply.reason = .Accepted ∨
        (L.add g id type price quantity side).reply.reason = .PoolExhausted ↔
      Valid g L id type price quantity side := by
  refine ⟨valid_of_add htype, fun hvalid => ?_⟩
  rw [add_of_valid hvalid]
  exact execute_cases (P := fun o => o.reply.reason = .Accepted ∨ o.reply.reason = .PoolExhausted)
    hvalid (fun _ _ _ => Or.inr rfl) (fun _ _ _ _ _ _ _ => Or.inl rfl) (fun _ _ _ => Or.inl rfl)

namespace WellFormed

variable (h : L.WellFormed g)
include h

theorem execute {type : OrderType} {price quantity : Nat} (hlt : quantity < 2 ^ 32)
    (hvalid : Valid g L id type price quantity side) :
    (L.execute g id type price quantity side).ledger.WellFormed g := by
  have hsweep : (Ledger.sweep g side id (g.matchable side (OrderBook.resolvePrice type side price))
      quantity L).ledger.WellFormed g :=
    h.sweep (fun i hi => (Geometry.mem_matchable.mp hi).1)
  unfold Ledger.execute
  simp only
  split
  · rename_i hpost
    refine hsweep.post (hvalid.resolvePrice hpost.2).1 (sweep_fresh hvalid.fresh) hvalid.id_pos
      hvalid.id_le hpost.1 ?_
    exact Nat.lt_of_le_of_lt sweep_left_le hlt
  · exact hsweep

theorem add {type : OrderType} {price quantity : Nat} (hlt : quantity < 2 ^ 32) :
    (L.add g id type price quantity side).ledger.WellFormed g :=
  add_cases (P := fun o => o.ledger.WellFormed g) (fun _ => h.cancel id) (fun _ _ _ _ => h)
    (fun hvalid => h.execute hlt hvalid)

theorem step (call : Call) : (L.step g call).ledger.WellFormed g := by
  cases call with
  | addOrder id type price quantity side => exact h.add quantity.toNat_lt
  | cancelOrder id => exact h.cancel id.toNat

end WellFormed

end Ledger

end Hft
