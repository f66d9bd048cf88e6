import MatchingEngine.Verification.Posting

/-!
# Every call does what the ledger says

The public calls, their gate and their latch, and runs of calls from a new book.
The refinement is total: a call on a book that represents a ledger returns.
-/

namespace Hft

open Machine Machine.Checked

namespace Exec

open OrderBook

variable {σ : Type} {env : Env} {g : Geometry} {x : Exec σ} {L : Ledger} {side : Side}
variable {id price quantity : Nat} {type : OrderType} {f : Trade → σ → σ}

/-- What a call hands back to its caller and its client. -/
structure Answers (env : Env) (g : Geometry) (f : Trade → σ → σ) (x x' : Exec σ)
    (reason : RejectReason) (filledOut : Nat) (o : Ledger.Outcome) : Prop where
  reason : reason = o.reply.reason
  filledOut : filledOut = o.reply.filledOut
  client : x'.client = feed f o.reply.trades x.client
  follows : Follows env g x.book x'.book o

/-- The pool refuses a remainder only if there was nothing to match. -/
theorem idle_of_refused {is : List Nat} {i n : Nat}
    (hleft : 0 < (Ledger.sweep g side id is quantity L).left)
    (hrefused : ((Ledger.sweep g side id is quantity L).ledger.post g side id i n).1 ≠ .Accepted) :
    ∀ j ∈ is, L.queue side.opposite j = [] := by
  intro j hj
  by_contra hne
  refine hrefused ?_
  obtain ⟨slot, free, hfree⟩ := List.exists_cons_of_ne_nil (Ledger.sweep_free_ne_nil hleft hj hne)
  rw [Ledger.post, hfree]

/-- An order that passed validation. -/
theorem executeOrder_spec (h : Represents env g x.book L) (htype : type ≠ .Cancel)
    (hpos : 0 < id) (hle : id ≤ g.maxOrderId) (hfresh : ∀ p ∈ L.resting g, p.order.id ≠ id)
    (hlt : quantity < 2 ^ 32)
    (hprice : type = .Limit → g.minPrice ≤ price ∧ price ≤ g.maxPrice) :
    (x.executeOrder env id type price quantity side (passive f)).Returns
      (fun ((reason, filledOut), x') =>
        Answers env g f x x' reason filledOut (L.execute g id type price quantity side)) := by
  have h₀ := h.logged [⟨.OrderSubmitted, id, price, quantity, side.toByte, 0⟩]
  have hkept₀ := Kept.logged env x.book [⟨.OrderSubmitted, id, price, quantity, side.toByte, 0⟩]
  simp only [executeOrder, record_eq, setBook, Ledger.execute]
  generalize hb₀ : x.book.logged env
    [⟨.OrderSubmitted, id, price, quantity, side.toByte, 0⟩] = b₀ at h₀ hkept₀ ⊢
  have hmatch : (matchOrderDirect env side id (passive f) (resolvePrice type side price) quantity
      (⟨b₀, x.client⟩ : Exec σ)).Returns _ := matchOrderDirect_spec h₀ hlt
  have hidle : (∀ j ∈ g.matchable side (resolvePrice type side price),
      L.queue side.opposite j = []) → matchOrderDirect env side id (passive f)
        (resolvePrice type side price) quantity (⟨b₀, x.client⟩ : Exec σ) =
          .ok (⟨b₀, x.client⟩, quantity) := fun hidle => matchOrderDirect_idle h₀ hidle
  generalize g.matchable side (resolvePrice type side price) = is at hmatch hidle ⊢
  obtain ⟨⟨x₁, n⟩, heq, hrep, rfl, hclient, hkept⟩ := returns_iff.mp hmatch
  have hleft : (Ledger.sweep g side id is quantity L).left ≤ quantity := Ledger.sweep_left_le
  rw [heq, ok_bind]
  simp only [checkedSub, if_pos hleft, ok_bind]
  by_cases hpost : (Ledger.sweep g side id is quantity L).left > 0 ∧ type ≠ .Market
  · have hlimit : type = .Limit := by
      cases type with
      | Limit => rfl
      | Market => exact absurd rfl hpost.2
      | Cancel => exact absurd rfl htype
    obtain ⟨hmin, hmax⟩ := hprice hlimit
    have hrange := g.minPrice_add_range
    have hindex : price - g.minPrice < g.range := by omega
    have hresolved : resolvePrice type side price = g.price (price - g.minPrice) := by
      rw [hlimit, Geometry.price]
      cases side <;> simp only [resolvePrice] <;> omega
    rw [if_pos hpost, if_pos hpost, hresolved]
    refine (postOrder_spec hrep hindex (Ledger.sweep_fresh hfresh) hpos hle hpost.1
      (Nat.lt_of_le_of_lt hleft hlt)).bind ?_
    rintro ⟨reason, b'⟩ ⟨rfl, hrep', hkept', hrefused⟩
    refine ⟨rfl, rfl, hclient, hrep', ?_, ?_⟩
    · exact (hkept₀.trans hkept).trans hkept'
    · intro hne
      -- a refused remainder is the whole order: nothing was matched before
      have hnone := idle_of_refused hpost.1 hne
      have hx₁ := (hidle hnone).symm.trans heq
      rw [Except.ok.injEq, Prod.mk.injEq] at hx₁
      rw [hrefused hne, ← hx₁.1, ← hb₀, logged_logged, Ledger.sweep_idle hnone]
  · rw [if_neg hpost, if_neg hpost]
    exact ⟨rfl, rfl, hclient, hrep, hkept₀.trans hkept, fun hne => absurd rfl hne⟩

theorem reject_spec (h : Represents env g x.book L) (side : Side) (reason : RejectReason) :
    Answers env g f x (reject env id price quantity side reason x).2
      (reject env id price quantity side reason x).1.1
      (reject env id price quantity side reason x).1.2
      (L.refuse reason [⟨.OrderRejected, id, price, quantity, side.toByte, reason.toByte⟩]) := by
  simp only [reject, recordReason_eq, setBook]
  exact ⟨rfl, rfl, rfl, Follows.refuse h reason _⟩

theorem addOrderImpl_spec (h : Represents env g x.book L) (hlt : quantity < 2 ^ 32) :
    (x.addOrderImpl env id type price quantity side (passive f)).Returns
      (fun ((reason, filledOut), x') =>
        Answers env g f x x' reason filledOut (L.add g id type price quantity side)) := by
  unfold addOrderImpl Ledger.add
  by_cases hcancel : type = .Cancel
  · rw [if_pos hcancel, if_pos hcancel]
    refine (cancelOrderImpl_spec h id).bind ?_
    rintro ⟨reason, b'⟩ ⟨rfl, hfollows⟩
    obtain ⟨hfilledOut, htrades⟩ := Ledger.cancel_reply (g := g) L id
    exact ⟨rfl, hfilledOut.symm, by rw [htrades]; rfl, hfollows⟩
  rw [if_neg hcancel, if_neg hcancel]
  by_cases hzero : quantity = 0
  · rw [if_pos hzero, if_pos hzero]
    exact reject_spec h side .InvalidQuantity
  rw [if_neg hzero, if_neg hzero, h.store.maxOrderId]
  by_cases hbounds : id = 0 ∨ id > g.maxOrderId
  · rw [if_pos hbounds, if_pos hbounds]
    exact reject_spec h side .OutOfBoundsOrderId
  rw [if_neg hbounds, if_neg hbounds]
  have hid : id ≤ g.maxOrderId := by omega
  rw [vecRead_eq (h.store.orderMap_eq hid), ok_bind]
  cases hfind : L.find g id with
  | some p =>
      have hp := ((Ledger.find_eq_some_iff h.wellFormed).mp hfind).1
      simp only [Option.map_some, Option.getD_some, ne_eq, h.store.slot_ne_invalid hp,
        not_false_eq_true, if_true, Option.isSome_some]
      exact reject_spec h side .DuplicateOrderId
  | none =>
      simp only [Option.map_none, Option.getD_none, ne_eq, not_true_eq_false, if_false,
        Option.isSome_none, Bool.false_eq_true, prefetchAhead_eq h.store hid, ok_bind,
        h.store.minPrice, h.store.maxPrice]
      by_cases hprice : type = .Limit ∧ (price < g.minPrice ∨ price > g.maxPrice)
      · rw [if_pos hprice, if_pos hprice]
        exact reject_spec h side .OutOfBoundsPrice
      rw [if_neg hprice, if_neg hprice]
      have hempty : (x.book.side side.opposite).has = false ↔ L.best g side.opposite = none := by
        rw [(h.index side.opposite).has]
        cases L.best g side.opposite <;> simp
      simp only [hempty]
      by_cases hmarket : type = .Market ∧ L.best g side.opposite = none
      · rw [if_pos hmarket, if_pos hmarket]
        exact reject_spec h side .MarketOnEmptyBook
      rw [if_neg hmarket, if_neg hmarket]
      refine executeOrder_spec h hcancel (by omega) hid (Ledger.find_eq_none_iff.mp hfind) hlt ?_
      intro hlimit
      simpa [hlimit] using hprice

end Exec

/-! ## Gate and latch -/

namespace OrderBook

variable {env : Env} {g : Geometry} {b b' : OrderBook} {L : Ledger} {o : Ledger.Outcome}

/-- Between calls made by the owning thread. -/
structure Ready (env : Env) (g : Geometry) (b : OrderBook) (L : Ledger) : Prop where
  represents : Represents env g b L
  inPublicEntry : b.inPublicEntry = false
  ownerThread : b.ownerThread = env.thisThread

/-- The latch is no part of what a book represents. -/
theorem Represents.setLatch (h : Represents env g b L) (latch : Bool) :
    Represents env g { b with inPublicEntry := latch } L := by
  have hside : ∀ t, ({ b with inPublicEntry := latch } : OrderBook).side t = b.side t := by
    intro t
    cases t <;> rfl
  refine ⟨h.store.congr ⟨rfl, rfl, rfl, rfl, fun t => by rw [hside], rfl, rfl⟩, ?_⟩
  intro t
  rw [hside]
  exact h.index t

/-- A call made with the latch set, and the latch released after it. -/
theorem Follows.unlatched (h : Follows env g { b with inPublicEntry := true } b' o)
    (hlatch : b.inPublicEntry = false) :
    Follows env g b { b' with inPublicEntry := false } o := by
  refine ⟨h.represents.setLatch false, ⟨h.kept.journal, hlatch.symm, h.kept.ownerThread⟩, ?_⟩
  intro hne
  rw [h.refused hne, ← hlatch]
  rfl

theorem Ready.follows (h : Ready env g b L) (hfollows : Follows env g b b' o) :
    Ready env g b' o.ledger :=
  ⟨hfollows.represents, hfollows.kept.inPublicEntry.trans h.inPublicEntry,
    hfollows.kept.ownerThread.trans h.ownerThread⟩

theorem debugEntryGate_eq (h : Ready env g b L) (entryPoint : String) :
    b.debugEntryGate env entryPoint = .ok true := by
  simp [debugEntryGate, h.inPublicEntry, h.ownerThread]

/-- A call from the owning thread passes the gate, and what its body does is what
the call does. -/
theorem publicEntry_spec {σ α : Type} {x : Exec σ} {entryPoint : String} {blocked : α}
    {body : Exec σ → Checked (α × Exec σ)} {R : α → σ → Ledger.Outcome → Prop}
    (h : Ready env g x.book L)
    (hbody : ∀ x' : Exec σ, Represents env g x'.book L → x'.client = x.client →
      (body x').Returns (fun (a, x'') => R a x''.client o ∧ Follows env g x'.book x''.book o)) :
    (x.publicEntry env entryPoint blocked body).Returns (fun (a, x') =>
      R a x'.client o ∧ Follows env g x.book x'.book o) := by
  unfold Exec.publicEntry
  by_cases htools : env.debugTools = true
  · rw [if_pos htools, debugEntryGate_eq h, ok_bind, if_pos rfl]
    refine (hbody (x.setBook { x.book with inPublicEntry := true })
      (h.represents.setLatch true) rfl).bind ?_
    rintro ⟨a, x'⟩ ⟨hR, hfollows⟩
    exact ⟨hR, hfollows.unlatched h.inPublicEntry⟩
  · rw [if_neg htools]
    exact hbody x h.represents rfl

theorem feed_keepTrade (trades kept : List Trade) :
    feed keepTrade trades kept = kept ++ trades := by
  induction trades generalizing kept with
  | nil => simp
  | cons trade trades ih => rw [feed_cons, ih, keepTrade, List.append_assoc, List.singleton_append]

theorem addOrder_spec {σ : Type} {x : Exec σ} {f : Trade → σ → σ} {id price quantity : Nat}
    {type : OrderType} {side : Side} (h : Ready env g x.book L) (hlt : quantity < 2 ^ 32) :
    (x.addOrder env id type price quantity side (Exec.passive f)).Returns
      (fun ((reason, filledOut), x') =>
        Exec.Answers env g f x x' reason filledOut (L.add g id type price quantity side)) := by
  refine (publicEntry_spec (o := L.add g id type price quantity side)
    (R := fun (reason, filledOut) client o => reason = o.reply.reason ∧
      filledOut = o.reply.filledOut ∧ client = feed f o.reply.trades x.client) h ?_).mono ?_
  · intro x' hx' hclient
    refine (Exec.addOrderImpl_spec hx' hlt).mono ?_
    rintro ⟨⟨reason, filledOut⟩, x''⟩ ⟨hreason, hfilledOut, hclient', hfollows⟩
    exact ⟨⟨hreason, hfilledOut, hclient ▸ hclient'⟩, hfollows⟩
  · rintro ⟨⟨reason, filledOut⟩, x'⟩ ⟨⟨hreason, hfilledOut, hclient⟩, hfollows⟩
    exact ⟨hreason, hfilledOut, hclient, hfollows⟩

theorem cancelOrder_spec {σ : Type} {x : Exec σ} {id : Nat} (h : Ready env g x.book L) :
    (x.cancelOrder env id).Returns (fun (reason, x') =>
      (reason = (L.cancel g id).reply.reason ∧ x'.client = x.client) ∧
      Follows env g x.book x'.book (L.cancel g id)) := by
  refine publicEntry_spec (R := fun reason client o => reason = o.reply.reason ∧
    client = x.client) h ?_
  intro x' hx' hclient
  refine (cancelOrderImpl_spec hx' id).bind ?_
  rintro ⟨reason, b⟩ ⟨hreason, hfollows⟩
  exact ⟨⟨hreason, hclient⟩, hfollows⟩

/-- The simulation step of the whole development. -/
theorem step_spec (h : Ready env g b L) (call : Call) :
    (b.step env call).Returns (fun (reply, b') =>
      reply = (L.step g call).reply ∧ Follows env g b b' (L.step g call)) := by
  cases call with
  | addOrder id type price quantity side =>
      refine (addOrder_spec (x := ⟨b, []⟩) (f := keepTrade) h quantity.toNat_lt).bind ?_
      rintro ⟨⟨reason, filledOut⟩, x⟩ ⟨hreason, hfilledOut, hclient, hfollows⟩
      rw [feed_keepTrade, List.nil_append] at hclient
      refine ⟨?_, hfollows⟩
      rw [hreason, hfilledOut, hclient]
      rfl
  | cancelOrder id =>
      refine (cancelOrder_spec (x := (⟨b, []⟩ : Exec (List Trade))) h).bind ?_
      rintro ⟨reason, x⟩ ⟨⟨hreason, hclient⟩, hfollows⟩
      obtain ⟨hfilledOut, htrades⟩ := Ledger.cancel_reply (g := g) L id.toNat
      refine ⟨?_, hfollows⟩
      change (⟨reason, 0, x.client⟩ : Reply) = (L.cancel g id.toNat).reply
      rw [hreason, hclient, ← hfilledOut, ← htrades]

/-- A book, and the ledger and journal it stands for. -/
def Tracks (env : Env) (g : Geometry) (b : OrderBook) (state : Ledger × List JournalEntry) :
    Prop :=
  Ready env g b state.1 ∧ b.journal = env.journaled state.2

theorem step_refines (env : Env) (g : Geometry) :
    Refines (step env) (Ledger.advance g) (Tracks env g) := by
  rintro b ⟨L, log⟩ call ⟨hready, hjournal⟩
  refine (step_spec hready call).mono ?_
  rintro ⟨reply, b'⟩ ⟨hreply, hfollows⟩
  refine ⟨hreply, hready.follows hfollows, ?_⟩
  rw [hfollows.kept.journal, hjournal, ← Env.journaled_append]
  rfl

end OrderBook

end Hft
