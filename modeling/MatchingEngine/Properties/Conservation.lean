import MatchingEngine.Ledger.Holdings
import MatchingEngine.Properties.Priority
import MatchingEngine.Properties.Refusal

/-!
# Conservation of quantity

Every order that is accepted, or finds no slot, opens an account under the number
of its call. Trades are charged to the account of the taker and to the account
under which the maker came to rest, so that an id that is used again has one
account for each of its lives. Accounts balance in every state of every run.
-/

namespace Hft

open Machine Machine.Checked

structure Account where
  id : Nat
  submitted : Nat
  asTaker : Nat
  asMaker : Nat
  cancelled : Nat
  discarded : Nat

/-- The clock of a run, and the accounts opened so far. -/
structure Books where
  clock : Clock
  life : Nat → Option Account

namespace Books

def start : Books := ⟨.start, fun _ => none⟩

/-- The trades of a call, on the account of a maker. -/
def charge (stamp : Nat → Nat) (trades : List Trade) (k : Nat) (a : Account) : Account :=
  { a with asMaker := a.asMaker +
      Greedy.total Trade.quantity (trades.filter (fun trade => stamp trade.makerId == k)) }

/-- A Market order discards what it cannot fill, and an order without a slot everything. -/
def opened (id : Nat) (type : OrderType) (quantity : Nat) (reply : Reply) : Account where
  id := id
  submitted := quantity
  asTaker := Greedy.total Trade.quantity reply.trades
  asMaker := 0
  cancelled := 0
  discarded :=
    if reply.reason = .PoolExhausted then quantity
    else if type = .Market then quantity - reply.filledOut
    else 0

/-- An order that passed validation opens an account and charges its makers. -/
def order (books : Books) (clock : Clock) (id : Nat) (type : OrderType) (quantity : Nat)
    (reply : Reply) : Books where
  clock := clock
  life k :=
    if k = books.clock.calls then some (opened id type quantity reply)
    else (books.life k).map (charge books.clock.stamp reply.trades k)

/-- A cancel takes what was held off the account under which the order came to rest. -/
def cancel (books : Books) (clock : Clock) (id held : Nat) (reason : RejectReason) : Books where
  clock := clock
  life k :=
    if reason = .Accepted ∧ k = books.clock.stamp id then
      (books.life k).map (fun a => { a with cancelled := a.cancelled + held })
    else books.life k

/-- The books after a call: `held` rested under its id before it. -/
def post (books : Books) (clock : Clock) (call : Call) (held : Nat) (reply : Reply) : Books :=
  match call with
  | .cancelOrder id => books.cancel clock id.toNat held reply.reason
  | .addOrder id type _ quantity _ =>
      if type = .Cancel then books.cancel clock id.toNat held reply.reason
      else if reply.reason = .Accepted ∨ reply.reason = .PoolExhausted then
        books.order clock id.toNat type quantity.toNat reply
      else { books with clock := clock }

theorem post_of_order (books : Books) (clock : Clock) (id : UInt32) (type : OrderType)
    (price quantity : UInt32) (side : Side) (held : Nat) {reply : Reply} (htype : type ≠ .Cancel)
    (hreason : reply.reason = .Accepted ∨ reply.reason = .PoolExhausted) :
    books.post clock (.addOrder id type price quantity side) held reply =
      books.order clock id.toNat type quantity.toNat reply := by
  rw [post, if_neg htype, if_pos hreason]

@[simp] theorem post_clock (books : Books) (clock : Clock) (call : Call) (held : Nat)
    (reply : Reply) : (books.post clock call held reply).clock = clock := by
  cases call with
  | cancelOrder id => rfl
  | addOrder id type price quantity side =>
      simp only [post]
      split
      · rfl
      · split <;> rfl

end Books

namespace OrderBook

/-- The quantity at rest under an id, read through the order map. -/
def remaining (b : OrderBook) (id : Nat) : Checked Nat :=
  if id ≠ 0 ∧ id ≤ b.maxOrderId then do
    let idx ← vecRead b.orderMap id
    if idx = INVALID_INDEX then return 0
    else do
      let order ← b.order idx
      return order.quantity
  else return 0

/-- A call on a book with accounts. -/
def accountedStep (env : Env) (state : OrderBook × Books) (call : Call) :
    Checked (Reply × OrderBook × Books) := do
  let held ← state.1.remaining call.id
  let (reply, b, clock) ← clockedStep env (state.1, state.2.clock) call
  return (reply, b, state.2.post clock call held reply)

end OrderBook

namespace Ledger

def accountedStep (g : Geometry) (state : Ledger × Books) (call : Call) :
    Reply × Ledger × Books :=
  let (reply, L, clock) := clockedStep g (state.1, state.2.clock) call
  (reply, L, state.2.post clock call (state.1.held g call.id) reply)

/-- Every order at rest has its account, and all accounts balance. -/
structure Balanced (g : Geometry) (L : Ledger) (books : Books) : Prop where
  past : ∀ k a, books.life k = some a → k < books.clock.calls
  owned : ∀ p ∈ L.resting g, ∃ a, books.life (books.clock.stamp p.order.id) = some a ∧
    a.id = p.order.id
  balance : ∀ k a, books.life k = some a → a.submitted = a.asTaker + a.asMaker +
    (if books.clock.stamp a.id = k then L.held g a.id else 0) + a.cancelled + a.discarded

variable {g : Geometry} {L M : Ledger} {books : Books} {side : Side} {id k left : Nat}
variable {price quantity takerPrice : Nat} {type : OrderType} {a : Account} {trades : List Trade}
variable {p : Placed}

theorem empty_balanced (g : Geometry) : Balanced g (empty g) .start := by
  refine ⟨fun k a h => (by cases h), fun p hp => ?_, fun k a h => (by cases h)⟩
  rw [empty_resting] at hp
  exact absurd hp List.not_mem_nil

/-- Time passes. -/
theorem Balanced.later (h : Balanced g L books) :
    Balanced g L { books with clock := ⟨books.clock.calls + 1, books.clock.stamp⟩ } :=
  ⟨fun k a hk => Nat.lt_succ_of_lt (h.past k a hk), h.owned, h.balance⟩

theorem mem_of_remove {q : Placed} (hq : q ∈ (L.remove p).resting g) : q ∈ L.resting g := by
  obtain ⟨hlt, hmem⟩ := mem_resting.mp hq
  refine mem_resting.mpr ⟨hlt, ?_⟩
  by_cases hself : q.side = p.side ∧ q.index = p.index
  · simp only [Ledger.remove, hself.1, hself.2, set_queue_self] at hmem
    rw [hself.1, hself.2]
    exact List.mem_of_mem_filter hmem
  · simpa only [Ledger.remove, set_queue_of_ne hself] using hmem

theorem Balanced.cancel (hL : L.WellFormed g) (h : Balanced g L books) (id : Nat) :
    Balanced g (L.cancel g id).ledger (books.cancel
      (books.clock.tick id (L.cancel g id).reply.reason ((L.cancel g id).ledger.find g id).isSome)
      id (L.held g id) (L.cancel g id).reply.reason) := by
  refine cancel_cases (P := fun o => Balanced g o.ledger (books.cancel
    (books.clock.tick id o.reply.reason (o.ledger.find g id).isSome) id (L.held g id)
      o.reply.reason)) hL ?_ ?_
  · intro reason hreason
    have hne : reason ≠ .Accepted := by
      rcases hreason with ⟨rfl, -⟩ | ⟨rfl, -⟩ <;> decide
    simp only [refuse, tick_of_gone (fun e => absurd e hne), Books.cancel, hne, false_and, if_false]
    exact h.later
  · rintro p hp rfl
    have hgone := find_eq_none_iff.mpr (hL.remove_fresh hp)
    simp only [tick_of_gone (fun _ => hgone), Books.cancel, true_and]
    obtain ⟨a₀, ha₀, hid₀⟩ := h.owned p hp
    refine ⟨fun k a hk => ?_, fun q hq => ?_, fun k a hk => ?_⟩
    · simp only at hk
      split at hk
      · obtain ⟨b, hb, -⟩ := Option.map_eq_some_iff.mp hk
        exact Nat.lt_succ_of_lt (h.past k b hb)
      · exact Nat.lt_succ_of_lt (h.past k a hk)
    · obtain ⟨a, ha, hid⟩ := h.owned q (mem_of_remove hq)
      simp only [ha]
      split
      · exact ⟨_, rfl, hid⟩
      · exact ⟨a, rfl, hid⟩
    · simp only at hk ⊢
      split at hk
      · rename_i hself
        subst hself
        rw [ha₀, Option.map_some, Option.some.injEq] at hk
        subst hk
        have := h.balance _ _ ha₀
        simp only [hid₀, if_true, held_remove hL hp] at this ⊢
        omega
      · rename_i hself
        have := h.balance k a hk
        rw [this]
        by_cases hstamp : books.clock.stamp a.id = k
        · have hne : p.order.id ≠ a.id := by
            rintro heq
            rw [← heq] at hstamp
            exact hself hstamp.symm
          rw [if_pos hstamp, if_pos hstamp, held_remove hL hp, if_neg hne]
        · rw [if_neg hstamp, if_neg hstamp]

/-- The makers of these trades are at rest. -/
def Meet (g : Geometry) (L : Ledger) (trades : List Trade) : Prop :=
  ∀ trade ∈ trades, ∃ p ∈ L.resting g, p.order.id = trade.makerId

/-- What an account is charged is what the trades charge its id, if its life is on. -/
theorem Balanced.charged_life (h : Balanced g L books) (hmeet : L.Meet g trades)
    (hk : books.life k = some a) :
    Greedy.total Trade.quantity (trades.filter (fun trade =>
      books.clock.stamp trade.makerId == k)) =
        if books.clock.stamp a.id = k then charged a.id trades else 0 := by
  have hmaker : ∀ trade ∈ trades, books.clock.stamp trade.makerId = k → trade.makerId = a.id := by
    intro trade htrade hstamp
    obtain ⟨p, hp, hid⟩ := hmeet trade htrade
    obtain ⟨b, hb, hbid⟩ := h.owned p hp
    rw [hid, hstamp, hk, Option.some.injEq] at hb
    rw [hb, hbid, hid]
  by_cases hstamp : books.clock.stamp a.id = k
  · rw [if_pos hstamp, charged]
    refine congrArg _ (List.filter_congr (fun trade htrade => ?_))
    rw [Bool.eq_iff_iff, beq_iff_eq, beq_iff_eq]
    exact ⟨hmaker trade htrade, fun heq => heq ▸ hstamp⟩
  · rw [if_neg hstamp]
    have hnil : trades.filter (fun trade => books.clock.stamp trade.makerId == k) = [] := by
      refine List.filter_eq_nil_iff.mpr (fun trade htrade heq => hstamp ?_)
      have heq : books.clock.stamp trade.makerId = k := by simpa using heq
      rw [← hmaker trade htrade heq, heq]
    rw [hnil]
    rfl

/-- What an order does to the ledger, as far as accounts are concerned: `left`
comes to rest under its id, and what others lose is charged to them. -/
structure Filed (g : Geometry) (L M : Ledger) (clock : Clock) (stamp : Nat → Nat)
    (id left : Nat) (trades : List Trade) : Prop where
  meet : L.Meet g trades
  fresh : ∀ p ∈ L.resting g, p.order.id ≠ id
  held : ∀ x, M.held g x + charged x trades = L.held g x + if id = x then left else 0
  others : ∀ x, x ≠ id → stamp x = clock.stamp x
  own : stamp id = clock.calls ∨ left = 0 ∧ stamp = clock.stamp
  resting : ∀ q ∈ M.resting g, q.order.id = id ∧ stamp id = clock.calls ∨
    q.order.id ≠ id ∧ ∃ p ∈ L.resting g, p.order.id = q.order.id

theorem Balanced.order {reply : Reply} {stamp : Nat → Nat} (h : Balanced g L books)
    (hfiled : Filed g L M books.clock stamp id left reply.trades)
    (hquantity : (Books.opened id type quantity reply).submitted =
      Greedy.total Trade.quantity reply.trades + left +
        (Books.opened id type quantity reply).discarded) :
    Balanced g M (books.order ⟨books.clock.calls + 1, stamp⟩ id type quantity reply) := by
  have hzero : L.held g id = 0 := held_eq_zero hfiled.fresh
  have hunpaid : charged id reply.trades = 0 := by
    have hnil : reply.trades.filter (fun trade => trade.makerId == id) = [] := by
      refine List.filter_eq_nil_iff.mpr (fun trade htrade heq => ?_)
      obtain ⟨p, hp, hpid⟩ := hfiled.meet trade htrade
      exact hfiled.fresh p hp (hpid.trans (by simpa using heq))
    rw [charged, hnil]
    rfl
  have hid := hfiled.held id
  rw [if_pos rfl, hzero, hunpaid] at hid
  refine ⟨fun k a hk => ?_, fun q hq => ?_, fun k a hk => ?_⟩
  · simp only [Books.order] at hk ⊢
    split at hk
    · omega
    · obtain ⟨b, hb, -⟩ := Option.map_eq_some_iff.mp hk
      exact Nat.lt_succ_of_lt (h.past k b hb)
  · simp only [Books.order]
    rcases hfiled.resting q hq with ⟨hqid, hstamp⟩ | ⟨hne, p, hp, hpid⟩
    · rw [hqid, hstamp, if_pos rfl]
      exact ⟨_, rfl, rfl⟩
    · obtain ⟨a, ha, haid⟩ := h.owned p hp
      rw [hfiled.others _ hne, ← hpid, if_neg (Nat.ne_of_lt (h.past _ a ha)), ha]
      exact ⟨_, rfl, haid⟩
  · simp only [Books.order] at hk ⊢
    split at hk
    · rename_i hself
      rw [Option.some.injEq] at hk
      subst hk
      change _ = Greedy.total Trade.quantity reply.trades + 0 +
        (if stamp id = k then M.held g id else 0) + 0 +
          (Books.opened id type quantity reply).discarded
      rw [hquantity, hself]
      rcases hfiled.own with hown | ⟨rfl, -⟩
      · rw [if_pos hown]
        omega
      · split <;> omega
    · rename_i hold
      obtain ⟨b, hb, rfl⟩ := Option.map_eq_some_iff.mp hk
      have hbalance := h.balance k b hb
      have hcharged := h.charged_life hfiled.meet hb
      change b.submitted = b.asTaker + (b.asMaker + _) +
        (if stamp b.id = k then M.held g b.id else 0) + b.cancelled + b.discarded
      rw [hbalance, hcharged]
      by_cases hbid : b.id = id
      · subst hbid
        rcases hfiled.own with hown | ⟨rfl, hsame⟩
        · rw [hown, if_neg (Ne.symm hold), hzero, hunpaid]
          simp
        · rw [hsame]
          by_cases hstamp : books.clock.stamp b.id = k
          · simp only [hstamp, if_true]
            omega
          · simp only [hstamp, if_false, Nat.add_zero]
      · have hother := hfiled.held b.id
        rw [if_neg (Ne.symm hbid)] at hother
        rw [hfiled.others _ hbid]
        by_cases hstamp : books.clock.stamp b.id = k
        · simp only [hstamp, if_true]
          omega
        · simp only [hstamp, if_false, Nat.add_zero]

theorem filed_sweep (hL : L.WellFormed g) (hfresh : ∀ p ∈ L.resting g, p.order.id ≠ id)
    {clock : Clock} {s : Sweep}
    (hs : s = sweep g side id (g.matchable side takerPrice) quantity L) :
    Filed g L s.ledger clock clock.stamp id 0 s.trades := by
  subst hs
  refine ⟨fun trade htrade => ?_, hfresh, fun x => ?_, fun _ _ => rfl, Or.inr ⟨rfl, rfl⟩,
    fun q hq => ?_⟩
  · obtain ⟨p, hp, hid, -⟩ := sweep_maker hL htrade
    exact ⟨p, mem_resting_of_lots (fun _ hi => (Geometry.mem_matchable.mp hi).1) hp, hid⟩
  · rw [held_sweep hL, ite_self, Nat.add_zero]
  · refine Or.inr ⟨sweep_fresh hfresh q hq, ?_⟩
    by_contra hnone
    exact sweep_fresh (fun p hp hid => hnone ⟨p, hp, hid⟩) q hq rfl

/-- A remainder that is posted after the sweep. -/
theorem Filed.post {clock : Clock} {i : Nat} (side : Side) (slot left : Nat) (free : List Nat)
    (h : Filed g L M clock clock.stamp id 0 trades) (hi : i < g.range) :
    Filed g L (M.append side i ⟨slot, id, left⟩ free) clock
      (Function.update clock.stamp id clock.calls) id left trades := by
  refine ⟨h.meet, h.fresh, fun x => ?_, fun x hx => Function.update_of_ne hx _ _,
    Or.inl (Function.update_self ..), fun q hq => ?_⟩
  · have := h.held x
    rw [ite_self, Nat.add_zero] at this
    rw [held_append hi, ← this]
    simp only
    omega
  · by_cases hid : q.order.id = id
    · exact Or.inl ⟨hid, Function.update_self ..⟩
    · obtain ⟨hlt, hmem⟩ := mem_resting.mp hq
      have hold : q ∈ M.resting g := by
        refine mem_resting.mpr ⟨hlt, ?_⟩
        by_cases hself : q.side = side ∧ q.index = i
        · simp only [Ledger.append, hself.1, hself.2, set_queue_self] at hmem
          rw [hself.1, hself.2]
          refine (List.mem_append.mp hmem).resolve_right (fun hnew => hid ?_)
          rw [List.mem_singleton.mp hnew]
        · simpa only [Ledger.append, set_queue_of_ne hself] using hmem
      exact (h.resting q hold).elim (fun hown => absurd hown.1 hid) Or.inr

/-- What a valid order does to the accounts. -/
theorem Balanced.execute (hL : L.WellFormed g) (h : Balanced g L books) (hlt : quantity < 2 ^ 32)
    (hvalid : Valid g L id type price quantity side) :
    Balanced g (L.execute g id type price quantity side).ledger (books.order
      (books.clock.tick id (L.execute g id type price quantity side).reply.reason
        ((L.execute g id type price quantity side).ledger.find g id).isSome)
      id type quantity (L.execute g id type price quantity side).reply) := by
  have hL' := hL.execute hlt hvalid
  revert hL'
  refine execute_cases (P := fun o => o.ledger.WellFormed g → Balanced g o.ledger (books.order
    (books.clock.tick id o.reply.reason (o.ledger.find g id).isSome) id type quantity o.reply))
    hvalid ?_ ?_ ?_
  · intro _ _ _ _
    have hgone := find_eq_none_iff.mpr hvalid.fresh
    simp only [refuse, tick_of_gone (fun _ => hgone)]
    have hfiled : Filed g L L books.clock books.clock.stamp id 0 [] := by
      refine ⟨fun _ h => absurd h List.not_mem_nil, hvalid.fresh, fun x => ?_, fun _ _ => rfl,
        Or.inr ⟨rfl, rfl⟩, fun q hq => Or.inr ⟨hvalid.fresh q hq, q, hq, rfl⟩⟩
      rw [ite_self]
      rfl
    refine h.order hfiled ?_
    simp [Books.opened]
  · rintro s slot free hs hlimit hleft hfree hL'
    obtain ⟨hmin, hmax⟩ := hvalid.price_mem hlimit
    have hrange := g.minPrice_add_range
    have hswept : Filed g L s.ledger books.clock books.clock.stamp id 0 s.trades :=
      filed_sweep hL hvalid.fresh hs
    have hindex : price - g.minPrice < g.range := by omega
    have hjoined : (⟨slot, id, s.left⟩ : Resting) ∈ (s.ledger.append side (price - g.minPrice)
        ⟨slot, id, s.left⟩ free).queue side (price - g.minPrice) := by
      simp [Ledger.append]
    have htick := tick_of_rests (c := books.clock) hL' hjoined
    simp only at htick ⊢
    rw [htick]
    refine h.order (hswept.post side slot s.left free hindex) ?_
    have hfilled : Greedy.total Trade.quantity s.trades = quantity - s.left := hs ▸ sweep_filled
    have hle : s.left ≤ quantity := hs ▸ sweep_left_le
    simp only [Books.opened, hlimit, hfilled]
    rw [if_neg (by decide), if_neg (by decide)]
    omega
  · rintro s hs hdone -
    have hfresh : ∀ p ∈ s.ledger.resting g, p.order.id ≠ id := hs ▸ sweep_fresh hvalid.fresh
    have hgone := find_eq_none_iff.mpr hfresh
    simp only [tick_of_gone (fun _ => hgone)]
    refine h.order (filed_sweep hL hvalid.fresh hs) ?_
    have hfilled : Greedy.total Trade.quantity s.trades = quantity - s.left := hs ▸ sweep_filled
    have hle : s.left ≤ quantity := hs ▸ sweep_left_le
    simp only [Books.opened, hfilled]
    rw [if_neg (by decide)]
    rcases hdone with hzero | hmarket
    · split <;> omega
    · rw [if_pos hmarket]
      omega

theorem Balanced.step (hL : L.WellFormed g) (h : Balanced g L books) (call : Call) :
    Balanced g (accountedStep g (L, books) call).2.1 (accountedStep g (L, books) call).2.2 := by
  cases call with
  | cancelOrder id => exact h.cancel hL id.toNat
  | addOrder id type price quantity side =>
      change Balanced g (L.add g id.toNat type price.toNat quantity.toNat side).ledger (books.post
        (books.clock.tick id.toNat
          (L.add g id.toNat type price.toNat quantity.toNat side).reply.reason
          ((L.add g id.toNat type price.toNat quantity.toNat side).ledger.find g id.toNat).isSome)
        (.addOrder id type price quantity side) (L.held g id.toNat)
        (L.add g id.toNat type price.toNat quantity.toNat side).reply)
      by_cases htype : type = .Cancel
      · have hadd : L.add g id.toNat type price.toNat quantity.toNat side = L.cancel g id.toNat :=
          if_pos htype
        rw [hadd, Books.post, if_pos htype]
        exact h.cancel hL id.toNat
      · by_cases hreason : (L.add g id.toNat type price.toNat quantity.toNat
            side).reply.reason = .Accepted ∨
          (L.add g id.toNat type price.toNat quantity.toNat side).reply.reason = .PoolExhausted
        · have hvalid := valid_of_add htype hreason
          rw [Books.post, if_neg htype, if_pos hreason, add_of_valid hvalid]
          exact h.execute hL quantity.toNat_lt hvalid
        · rw [Books.post, if_neg htype, if_neg hreason]
          have hgone : (L.add g id.toNat type price.toNat quantity.toNat side).reply.reason =
              .Accepted → (L.add g id.toNat type price.toNat quantity.toNat side).ledger.find g
                id.toNat = none := fun e => absurd (Or.inl e) hreason
          have hsame : (L.add g id.toNat type price.toNat quantity.toNat side).ledger = L := by
            refine (step_refused hL (.addOrder id type price quantity side) ?_).2.2
            exact fun e => hreason (Or.inl e)
          rw [tick_of_gone hgone, hsame]
          exact h.later

/-- Every trade of a call names a maker on the other side, with what it held before. -/
structure Traded (g : Geometry) (L : Ledger) (taker : Nat) (side : Side) (reply : Reply) :
    Prop where
  filledOut : reply.filledOut = Greedy.total Trade.quantity reply.trades
  once : (reply.trades.map Trade.makerId).Nodup
  maker : ∀ trade ∈ reply.trades, ∃ p ∈ L.lots side.opposite (g.priority side.opposite),
    p.order.id = trade.makerId ∧ g.price p.index = trade.price ∧ trade.takerId = taker ∧
      0 < trade.quantity ∧ trade.quantity ≤ p.order.quantity

theorem traded_nothing {reply : Reply} (hfilledOut : reply.filledOut = 0)
    (htrades : reply.trades = []) : Traded g L id side reply := by
  refine ⟨?_, ?_, ?_⟩ <;> rw [htrades]
  · exact hfilledOut
  · exact List.nodup_nil
  · exact fun _ h => absurd h List.not_mem_nil

theorem execute_traded (h : L.WellFormed g) (hvalid : Valid g L id type price quantity side) :
    Traded g L id side (L.execute g id type price quantity side).reply := by
  have hsweep : ∀ takerPrice s, s = sweep g side id (g.matchable side takerPrice) quantity L →
      Traded g L id side ⟨.Accepted, quantity - s.left, s.trades⟩ := by
    rintro takerPrice s rfl
    refine ⟨sweep_filled.symm, sweep_makers_nodup h, fun trade htrade => ?_⟩
    obtain ⟨p, hp, hmaker⟩ := sweep_maker h htrade
    exact ⟨p, (lots_sublist _).subset hp, hmaker⟩
  exact execute_cases (P := fun o => Traded g L id side o.reply) hvalid
    (fun _ _ _ => traded_nothing rfl rfl) (fun s _ _ hs _ _ _ => hsweep price s hs)
    (fun s hs _ => hsweep _ s hs)

theorem add_traded (h : L.WellFormed g) :
    Traded g L id side (L.add g id type price quantity side).reply :=
  add_cases (P := fun o => Traded g L id side o.reply)
    (fun _ => traded_nothing (cancel_reply L id).1 (cancel_reply L id).2)
    (fun _ _ _ _ => traded_nothing rfl rfl) (fun hvalid => execute_traded h hvalid)

end Ledger

/-- How the trades of one call are charged: each to the account of the call and to
the account of an order that rested on the other side and held enough. -/
structure Settled (books books' : Books) (makers : Side → List Maker) (call : Call)
    (reply : Reply) : Prop where
  filledOut : reply.filledOut = Greedy.total Trade.quantity reply.trades
  once : (reply.trades.map Trade.makerId).Nodup
  charged : ∀ trade ∈ reply.trades, 0 < trade.quantity ∧
    ∃ id type price quantity side, call = .addOrder id type price quantity side ∧
      trade.takerId = id.toNat ∧
      (∃ taker, books'.life books.clock.calls = some taker ∧ taker.id = trade.takerId) ∧
      ∃ m ∈ makers side.opposite, m.id = trade.makerId ∧ m.price = trade.price ∧
        trade.quantity ≤ m.quantity ∧ ∃ maker, books.life m.stamp = some maker ∧ maker.id = m.id

theorem Ledger.Balanced.settled {g : Geometry} {L : Ledger} {books : Books} (hL : L.WellFormed g)
    (h : L.Balanced g books) (call : Call) :
    Settled books (accountedStep g (L, books) call).2.2 (L.makers g books.clock.stamp) call
      (accountedStep g (L, books) call).1 := by
  cases call with
  | cancelOrder id =>
      obtain ⟨hfilledOut, htrades⟩ := cancel_reply (g := g) L id.toNat
      have hreply : (accountedStep g (L, books) (.cancelOrder id)).1 =
          (L.cancel g id.toNat).reply := rfl
      rw [hreply]
      refine ⟨?_, ?_, ?_⟩ <;> rw [htrades]
      · exact hfilledOut
      · exact List.nodup_nil
      · exact fun _ h => absurd h List.not_mem_nil
  | addOrder id type price quantity side =>
      have htraded : Traded g L id.toNat side
        (accountedStep g (L, books) (.addOrder id type price quantity side)).1 := add_traded hL
      refine ⟨htraded.filledOut, htraded.once, fun trade htrade => ?_⟩
      obtain ⟨p, hp, hid, hprice, htaker, hpos, hle⟩ := htraded.maker trade htrade
      obtain ⟨a, ha, haid⟩ := h.owned p (mem_resting_of_lots priority_lt hp)
      have haccepted : (L.step g (.addOrder id type price quantity side)).reply.reason =
          .Accepted := by
        by_contra hne
        have hnil : (accountedStep g (L, books) (.addOrder id type price quantity side)).1.trades =
            [] := (step_refused hL _ hne).1
        rw [hnil] at htrade
        exact List.not_mem_nil htrade
      have htype : type ≠ .Cancel := by
        intro hcancel
        have hadd : (accountedStep g (L, books) (.addOrder id type price quantity side)).1 =
            (L.cancel g id.toNat).reply := congrArg Outcome.reply (if_pos hcancel)
        rw [hadd, (cancel_reply L id.toNat).2] at htrade
        exact List.not_mem_nil htrade
      have hopened : (accountedStep g (L, books) (.addOrder id type price quantity side)).2.2.life
          books.clock.calls = some (Books.opened id.toNat type quantity.toNat
            (L.step g (.addOrder id type price quantity side)).reply) := by
        have hpost := fun clock => Books.post_of_order books clock id type price quantity side
          (L.held g id.toNat) htype (Or.inl haccepted)
        exact (congrArg (fun bs : Books => bs.life books.clock.calls) (hpost _)).trans (if_pos rfl)
      exact ⟨hpos, id, type, price, quantity, side, rfl, htaker, ⟨_, hopened, htaker.symm⟩,
        maker g _ p, List.mem_map_of_mem hp, hid, hprice, hle, a, ha, haid⟩

namespace OrderBook

variable {env : Env} {args : Args} {b b₀ : OrderBook} {g : Geometry} {L : Ledger}

theorem remaining_eq (store : Store env g b L) (id : Nat) :
    b.remaining id = .ok (L.held g id) := by
  have hwf := store.wellFormed
  unfold remaining
  by_cases hid : id ≠ 0 ∧ id ≤ b.maxOrderId
  · rw [if_pos hid, vecRead_eq (store.orderMap_eq (store.maxOrderId ▸ hid.2)), ok_bind]
    cases hfind : L.find g id with
    | none => simp [Ledger.held_eq_zero (Ledger.find_eq_none_iff.mp hfind)]
    | some p =>
        obtain ⟨hp, rfl⟩ := (Ledger.find_eq_some_iff hwf).mp hfind
        obtain ⟨order, -, hread, -, -, -, hquantity, -⟩ := store.order_eq hp
        simp [store.slot_ne_invalid hp, hread, hquantity, Ledger.held_of_mem hwf hp]
  · rw [if_neg hid, pure_eq_ok, Ledger.held_eq_zero]
    rintro p hp rfl
    have hle := hwf.id_le p hp
    rw [← store.maxOrderId] at hle
    exact hid ⟨Nat.ne_of_gt (hwf.id_pos p hp), hle⟩

/-- A book with accounts stands for a balanced ledger with the same accounts. -/
def Accounted (env : Env) (g : Geometry) (state : OrderBook × Books) (model : Ledger × Books) :
    Prop :=
  Clocked env g (state.1, state.2.clock) (model.1, model.2.clock) ∧
    model.1.Balanced g model.2 ∧ state.2 = model.2

theorem accountedStep_refines (env : Env) (g : Geometry) :
    Refines (accountedStep env) (Ledger.accountedStep g) (Accounted env g) := by
  rintro ⟨b, books⟩ ⟨L, books'⟩ call ⟨hclocked, hbalanced, rfl⟩
  have hL := hclocked.1.represents.wellFormed
  simp only [accountedStep, remaining_eq hclocked.1.represents.store, ok_bind]
  refine (clockedStep_refines env g (b, books.clock) (L, books.clock) call hclocked).bind ?_
  rintro ⟨reply, b', clock⟩ ⟨rfl, hnext⟩
  obtain ⟨hready, hinOrder, rfl⟩ := hnext
  refine ⟨rfl, ⟨hready, ?_, ?_⟩, hbalanced.step hL call, rfl⟩
  · simpa only [Ledger.accountedStep, Books.post_clock] using hinOrder
  · rfl

/-- In every state of every run the account of every order balances: what was
submitted is what it took, what was taken from it, what rests, what its cancel
removed and what was discarded. Every trade of a next call is charged once. -/
theorem conservation (h : construct env args = .ok b₀) (calls : List Call) :
    (checkedRuns (accountedStep env) (b₀, Books.start) calls).Returns (fun (_, b, books) =>
      (∀ k a, books.life k = some a → ∃ n, b.remaining a.id = .ok n ∧
        a.submitted = a.asTaker + a.asMaker + (if books.clock.stamp a.id = k then n else 0) +
          a.cancelled + a.discarded) ∧
      ∃ makers, (∀ side, b.makers books.clock.stamp side = .ok (makers side)) ∧
        ∀ call, (accountedStep env (b, books) call).Returns (fun (reply, _, books') =>
          Settled books books' makers call reply)) := by
  have hnew := construct_spec env (accepted_of_construct h)
  rw [h, returns_ok] at hnew
  have hstart : Accounted env _ (b₀, Books.start) (Ledger.empty _, Books.start) :=
    ⟨⟨hnew.1, Ledger.empty_inOrder _, rfl⟩, Ledger.empty_balanced _, rfl⟩
  generalize args.geometry (accepted_of_construct h) = g at hstart
  refine ((accountedStep_refines env g).runs hstart).mono ?_
  rintro ⟨replies, b, books⟩ ⟨-, haccounted⟩
  generalize (runs (Ledger.accountedStep g) (Ledger.empty g, Books.start) calls).2 = model
    at haccounted
  obtain ⟨L, books'⟩ := model
  have hsame : books = books' := haccounted.2.2
  subst hsame
  have store := haccounted.1.1.represents.store
  have hbalanced := haccounted.2.1
  refine ⟨fun k a hk => ⟨_, remaining_eq store a.id, hbalanced.balance k a hk⟩, _,
    makers_eq store books.clock.stamp, fun call => ?_⟩
  refine (accountedStep_refines env g (b, books) (L, books) call haccounted).mono ?_
  rintro ⟨reply, b', books'⟩ ⟨rfl, -, -, rfl⟩
  exact hbalanced.settled store.wellFormed call

theorem conservation_small : ∃ b₀, construct .release .small = .ok b₀ ∧
    (checkedRuns (accountedStep .release) (b₀, Books.start)
      [.addOrder 1 .Limit 101 5 .Buy, .addOrder 2 .Market 0 3 .Sell, .cancelOrder 1]).Returns
      (fun (_, b, books) =>
        (∀ k a, books.life k = some a → ∃ n, b.remaining a.id = .ok n ∧
          a.submitted = a.asTaker + a.asMaker + (if books.clock.stamp a.id = k then n else 0) +
            a.cancelled + a.discarded) ∧
        ∃ makers, (∀ side, b.makers books.clock.stamp side = .ok (makers side)) ∧
          ∀ call, (accountedStep .release (b, books) call).Returns (fun (reply, _, books') =>
            Settled books books' makers call reply)) := by
  obtain ⟨b₀, h⟩ := construct_small .release
  exact ⟨b₀, h, conservation h _⟩

end OrderBook

end Hft
