import MatchingEngine.Engine.Entry
import MatchingEngine.Machine.Greedy

/-!
# Markets

What an order book is for, in its own terms: two lists of open orders, each in the
order in which its side is served, and nothing else. Ids are any type with equality and
prices any linear order. There are no slots, no levels, no indices and no sentinels.

`Limits` is what an engine adds: the ids and prices it takes on, and how many orders it
has room for. They only ever refuse.
-/

namespace Hft

open Machine

structure OpenOrder (ι π : Type) where
  id : ι
  price : π
  quantity : Nat
  deriving DecidableEq, Repr

/-- A trade of a market. -/
structure Deal (ι π : Type) where
  maker : ι
  taker : ι
  price : π
  quantity : Nat
  deriving DecidableEq, Repr

/-- What a client asks for. An order without a limit takes any price and never rests. -/
inductive Request (ι π : Type)
  | order (id : ι) (side : Side) (limit : Option π) (quantity : Nat)
  | cancel (id : ι)

structure Answer (ι π : Type) where
  reason : RejectReason
  filled : Nat
  deals : List (Deal ι π)
  deriving DecidableEq, Repr

structure Limits (ι π : Type) where
  id : ι → Bool
  price : π → Bool
  room : Nat

/-- The open orders of each side, the next one to be served first. -/
@[ext]
structure Market (ι π : Type) where
  orders : Side → List (OpenOrder ι π)

namespace OpenOrder

variable {ι π : Type}

def shrink (o : OpenOrder ι π) (n : Nat) : OpenOrder ι π := { o with quantity := o.quantity - n }

/-- What a taker gets from a maker. -/
def deal (taker : ι) (fill : OpenOrder ι π × Nat) : Deal ι π :=
  ⟨fill.1.id, taker, fill.1.price, fill.2⟩

end OpenOrder

namespace Market

variable {ι π : Type}

def empty : Market ι π := ⟨fun _ => []⟩

def set (M : Market ι π) (side : Side) (os : List (OpenOrder ι π)) : Market ι π :=
  ⟨fun s => if s = side then os else M.orders s⟩

section Sides

variable {M N : Market ι π} {side : Side} {os : List (OpenOrder ι π)}

@[simp] theorem set_self : (M.set side os).orders side = os := if_pos rfl

theorem set_of_ne {s : Side} (h : s ≠ side) : (M.set side os).orders s = M.orders s := if_neg h

@[simp] theorem set_opposite : (M.set side os).orders side.opposite = M.orders side.opposite :=
  set_of_ne side.opposite_ne

@[simp] theorem set_of_opposite : (M.set side.opposite os).orders side = M.orders side :=
  set_of_ne side.opposite_ne.symm

/-- Two markets agree if they do so on one side and on the other. -/
theorem ext_side (side : Side) (self : M.orders side = N.orders side)
    (opposite : M.orders side.opposite = N.orders side.opposite) : M = N := by
  refine Market.ext (funext (fun s => ?_))
  rcases side.eq_or_eq_opposite s with rfl | rfl
  · exact self
  · exact opposite

end Sides

variable [DecidableEq ι] [LinearOrder π]

/-- On this side price `p` is served before price `q`. -/
def Ahead (side : Side) (p q : π) : Prop :=
  match side with
  | .Buy => q < p
  | .Sell => p < q

instance (side : Side) (p q : π) : Decidable (Ahead side p q) := by
  cases side <;> exact inferInstanceAs (Decidable (_ < _))

/-- A taker of `side` agrees to price `p`. -/
def accepts (side : Side) (limit : Option π) (p : π) : Bool :=
  match limit, side with
  | none, _ => true
  | some l, .Buy => decide (p ≤ l)
  | some l, .Sell => decide (l ≤ p)

/-- Queue up behind every order that is served before a new one at the same price. -/
def queueUp (side : Side) (o : OpenOrder ι π) : List (OpenOrder ι π) → List (OpenOrder ι π)
  | [] => [o]
  | m :: ms => if Ahead side o.price m.price then o :: m :: ms else m :: queueUp side o ms

omit [DecidableEq ι] in
/-- A queue of better orders is passed by. -/
theorem queueUp_append {side : Side} {o : OpenOrder ι π} {ms ns : List (OpenOrder ι π)}
    (h : ∀ m ∈ ms, ¬Ahead side o.price m.price) :
    queueUp side o (ms ++ ns) = ms ++ queueUp side o ns := by
  induction ms with
  | nil => rfl
  | cons m ms ih =>
      rw [List.cons_append, queueUp, if_neg (h m List.mem_cons_self),
        ih (fun m' hm' => h m' (List.mem_cons_of_mem m hm')), List.cons_append]

omit [DecidableEq ι] in
theorem queueUp_of_ahead {side : Side} {o : OpenOrder ι π} {ns : List (OpenOrder ι π)}
    (h : ∀ m ∈ ns, Ahead side o.price m.price) : queueUp side o ns = o :: ns := by
  cases ns with
  | nil => rfl
  | cons n ns => rw [queueUp, if_pos (h n List.mem_cons_self)]

variable (M : Market ι π)

/-- The orders a taker of `side` agrees to. -/
def makers (side : Side) (limit : Option π) : List (OpenOrder ι π) :=
  (M.orders side.opposite).filter (fun o => accepts side limit o.price)

/-- The market once a taker has been served. -/
def take (side : Side) (limit : Option π) (n : Nat) : Market ι π :=
  M.set side.opposite (Greedy.rest OpenOrder.quantity OpenOrder.shrink (M.makers side limit) n ++
    (M.orders side.opposite).filter (fun o => !accepts side limit o.price))

def post (side : Side) (o : OpenOrder ι π) : Market ι π :=
  M.set side (queueUp side o (M.orders side))

def withdraw (id : ι) : Market ι π :=
  ⟨fun side => (M.orders side).filter (fun o => decide (o.id ≠ id))⟩

def holds (id : ι) : Bool :=
  (M.orders .Buy).any (fun o => decide (o.id = id)) ||
    (M.orders .Sell).any (fun o => decide (o.id = id))

/-- The number of open orders. -/
def size : Nat := (M.orders .Buy).length + (M.orders .Sell).length

def refuse (reason : RejectReason) : Answer ι π × Market ι π := (⟨reason, 0, []⟩, M)

variable (limits : Limits ι π)

/-- Serve a taker, and let what is left of a limited order queue up. -/
def execute (id : ι) (side : Side) (limit : Option π) (quantity : Nat) : Answer ι π × Market ι π :=
  let deals := (Greedy.fills OpenOrder.quantity (M.makers side limit) quantity).map
    (OpenOrder.deal id)
  let left := quantity - Greedy.total OpenOrder.quantity (M.makers side limit)
  let served := M.take side limit quantity
  match limit with
  | none => (⟨.Accepted, quantity - left, deals⟩, served)
  | some price =>
      if left = 0 then (⟨.Accepted, quantity - left, deals⟩, served)
      else if served.size < limits.room then
        (⟨.Accepted, quantity - left, deals⟩, served.post side ⟨id, price, left⟩)
      else (⟨.PoolExhausted, quantity - left, deals⟩, served)

def order (id : ι) (side : Side) (limit : Option π) (quantity : Nat) : Answer ι π × Market ι π :=
  if quantity = 0 then M.refuse .InvalidQuantity
  else if ¬limits.id id then M.refuse .OutOfBoundsOrderId
  else if M.holds id then M.refuse .DuplicateOrderId
  else if limit.any (fun p => !limits.price p) then M.refuse .OutOfBoundsPrice
  else if limit = none ∧ M.orders side.opposite = [] then M.refuse .MarketOnEmptyBook
  else M.execute limits id side limit quantity

def cancel (id : ι) : Answer ι π × Market ι π :=
  if ¬limits.id id then M.refuse .OutOfBoundsOrderId
  else if ¬M.holds id then M.refuse .CancelFailed
  else (⟨.Accepted, 0, []⟩, M.withdraw id)

def step : Request ι π → Answer ι π × Market ι π
  | .order id side limit quantity => M.order limits id side limit quantity
  | .cancel id => M.cancel limits id

/-- The answers to a list of requests, and the market after them. -/
def run (requests : List (Request ι π)) : List (Answer ι π) × Market ι π :=
  runs (fun M request => M.step limits request) M requests

end Market

end Hft
