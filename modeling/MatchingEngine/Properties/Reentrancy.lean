import MatchingEngine.Verification.Construction
import MatchingEngine.Verification.Reentrancy

/-!
# Callbacks that call the book again

At each trade a callback may make any finite number of nested calls, each chosen
from the trades so far and the replies to the calls before it, and each with a
callback of its own. The latch refuses them all, and the outer call proceeds as if
none had been made.
-/

namespace Hft

open Machine Machine.Checked

/-- An instrumented build whose book handler asks to skip the offending call. -/
structure Env.SkipsCalls (env : Env) : Prop where
  tools : env.debugTools = true
  handler : ∃ handler, env.bookHandler = some handler ∧ ∀ message, handler message = .SkipOperation

/-- What a nested call answered, and the book before and after it. A cancel stores
no filled quantity. -/
structure NestedReply where
  reason : RejectReason
  filledOut : Option Nat
  before : OrderBook
  after : OrderBook

/-- What a re-entrant client keeps: its trades, the replies to its nested calls, and
how often the callback of a nested call was invoked. -/
structure NestedClient where
  trades : List Trade
  replies : List NestedReply
  invoked : Nat

/-- The nested calls made at one trade. -/
inductive Reaction
  | done
  | addOrder (id : UInt32) (type : OrderType) (price quantity : UInt32) (side : Side)
      (onTrade : TradeCallback NestedClient) (next : RejectReason × Nat → Reaction)
  | cancelOrder (id : UInt32) (next : RejectReason → Reaction)

namespace NestedClient

def start : NestedClient := ⟨[], [], 0⟩

def answered (c : NestedClient) (reply : NestedReply) : NestedClient :=
  { c with replies := c.replies ++ [reply] }

end NestedClient

/-- The callback of a nested call, with its invocations counted. -/
def counted (onTrade : TradeCallback NestedClient) : TradeCallback NestedClient :=
  fun trade x => do
    let x' ← onTrade trade x
    return { x' with client := { x'.client with invoked := x.client.invoked + 1 } }

namespace Reaction

def perform (env : Env) : Reaction → Exec NestedClient → Checked (Exec NestedClient)
  | .done, x => .ok x
  | .addOrder id type price quantity side onTrade next, x => do
      let before := x.book
      let ((reason, filledOut), x) ← x.addOrder env id.toNat type price.toNat quantity.toNat side
        (counted onTrade)
      let client := x.client.answered ⟨reason, some filledOut, before, x.book⟩
      (next (reason, filledOut)).perform env { x with client }
  | .cancelOrder id next, x => do
      let before := x.book
      let (reason, x) ← x.cancelOrder env id.toNat
      let client := x.client.answered ⟨reason, none, before, x.book⟩
      (next reason).perform env { x with client }

/-- The callback that keeps its trades and reacts to them. -/
def callback (env : Env) (react : List Trade → Reaction) : TradeCallback NestedClient :=
  fun trade x =>
    let trades := x.client.trades ++ [trade]
    (react trades).perform env { x with client := { x.client with trades } }

end Reaction

namespace OrderBook

/-- A public call with a re-entrant callback. -/
def nestedStep (env : Env) (react : List Trade → Reaction) (b : OrderBook) :
    Call → Checked ((Reply × NestedClient) × OrderBook)
  | .addOrder id type price quantity side => do
      let ((reason, filledOut), x) ← Exec.addOrder env id.toNat type price.toNat quantity.toNat
        side (Reaction.callback env react) ⟨b, .start⟩
      return ((⟨reason, filledOut, x.client.trades⟩, x.client), x.book)
  | .cancelOrder id => do
      let (reason, x) ← Exec.cancelOrder env id.toNat (⟨b, .start⟩ : Exec NestedClient)
      return ((⟨reason, 0, x.client.trades⟩, x.client), x.book)

end OrderBook

/-- The nested call was refused and left no trace. -/
structure NestedReply.Blocked (reply : NestedReply) : Prop where
  reason : reply.reason = .ReentrancyBlocked
  filledOut : ∀ n, reply.filledOut = some n → n = 0
  unchanged : reply.after = reply.before

/-- The client got these trades, and its nested calls were all refused. -/
structure NestedClient.Refused (c : NestedClient) (trades : List Trade) : Prop where
  trades : c.trades = trades
  blocked : ∀ reply ∈ c.replies, reply.Blocked
  invoked : c.invoked = 0

namespace Exec

open OrderBook

variable {env : Env} {args : Args} {b : OrderBook}

/-- While a call is in progress, another one is refused before it does anything. -/
theorem publicEntry_blocked {σ α : Type} {x : Exec σ} (skips : env.SkipsCalls)
    (h : x.book.Latched env) (entryPoint : String) (blocked : α)
    (body : Exec σ → Checked (α × Exec σ)) :
    x.publicEntry env entryPoint blocked body = .ok (blocked, x) := by
  obtain ⟨handler, hhandler, hskip⟩ := skips.handler
  have hgate : x.book.debugEntryGate env entryPoint = .ok false := by
    simp [debugEntryGate, bookFault, h.inPublicEntry, h.ownerThread, hhandler, hskip]
  rw [publicEntry, if_pos skips.tools, hgate, ok_bind]
  rfl

theorem addOrder_blocked {σ : Type} {x : Exec σ} (skips : env.SkipsCalls)
    (h : x.book.Latched env) (id : Nat) (type : OrderType) (price quantity : Nat) (side : Side)
    (onTrade : TradeCallback σ) :
    x.addOrder env id type price quantity side onTrade = .ok ((.ReentrancyBlocked, 0), x) :=
  publicEntry_blocked skips h _ _ _

theorem cancelOrder_blocked {σ : Type} {x : Exec σ} (skips : env.SkipsCalls)
    (h : x.book.Latched env) (id : Nat) :
    x.cancelOrder env id = .ok (.ReentrancyBlocked, x) :=
  publicEntry_blocked skips h _ _ _

theorem answered_refused {c : NestedClient} {trades : List Trade} {reply : NestedReply}
    (h : c.Refused trades) (hreply : reply.Blocked) : (c.answered reply).Refused trades := by
  refine ⟨h.trades, ?_, h.invoked⟩
  intro r hr
  rcases List.mem_append.mp hr with hr | hr
  · exact h.blocked r hr
  · rw [List.mem_singleton.mp hr]
    exact hreply

/-- Whatever a reaction tries, the book stays and every reply is a refusal. -/
theorem perform_refused (skips : env.SkipsCalls) (reaction : Reaction) {x : Exec NestedClient}
    {trades : List Trade} (h : x.book.Latched env) (hx : x.client.Refused trades) :
    (reaction.perform env x).Returns (fun x' =>
      x'.book = x.book ∧ x'.client.Refused trades) := by
  induction reaction generalizing x with
  | done => exact ⟨rfl, hx⟩
  | addOrder id type price quantity side onTrade next ih =>
      rw [Reaction.perform, addOrder_blocked skips h, ok_bind]
      exact ih _ h (answered_refused hx ⟨rfl, fun n hn => (Option.some.inj hn).symm, rfl⟩)
  | cancelOrder id next ih =>
      rw [Reaction.perform, cancelOrder_blocked skips h, ok_bind]
      exact ih _ h (answered_refused hx ⟨rfl, fun n hn => (nomatch hn), rfl⟩)

theorem callback_corresponds (skips : env.SkipsCalls) (react : List Trade → Reaction) :
    Corresponds env NestedClient.Refused (Reaction.callback env react) (passive keepTrade) := by
  rintro trade ⟨b, c⟩ ⟨_, trades⟩ ⟨rfl, hlatched, hclient⟩
  have kept : ({ c with trades := c.trades ++ [trade] } : NestedClient).Refused
      (trades ++ [trade]) := ⟨by rw [hclient.trades], hclient.blocked, hclient.invoked⟩
  obtain ⟨x', hperform, hbook, hrefused⟩ := returns_iff.mp
    (perform_refused skips (react (c.trades ++ [trade])) (x := ⟨b, _⟩) hlatched kept)
  rw [Reaction.callback, hperform]
  exact ⟨hbook, hlatched, hrefused⟩

end Exec

namespace OrderBook

variable {env : Env} {args : Args} {g : Geometry} {b b₀ : OrderBook} {L : Ledger}

theorem addOrder_alike (skips : env.SkipsCalls) (h : Ready env g b L)
    (react : List Trade → Reaction) (id : Nat) (type : OrderType) (price quantity : Nat)
    (side : Side) :
    Alike (Exec.addOrder env id type price quantity side (Reaction.callback env react) ⟨b, .start⟩)
      (Exec.addOrder env id type price quantity side (Exec.passive keepTrade) ⟨b, []⟩)
      (Exec.SameOutcome NestedClient.Refused) := by
  have hstart : NestedClient.start.Refused [] :=
    ⟨rfl, fun reply hreply => absurd hreply List.not_mem_nil, rfl⟩
  have hlatched : ({ b with inPublicEntry := true } : OrderBook).Latched env :=
    ⟨rfl, h.ownerThread⟩
  simp only [Exec.addOrder, Exec.publicEntry, if_pos skips.tools, debugEntryGate_eq h, ok_bind,
    if_true]
  refine (Exec.addOrderImpl_alike (Exec.callback_corresponds skips react)
    ⟨rfl, hlatched, hstart⟩).bind ?_
  rintro ⟨a, x⟩ ⟨a', y⟩ ⟨ha, hbook, hclient⟩
  refine ⟨ha, ?_, hclient⟩
  show ({ x.book with inPublicEntry := false } : OrderBook) = _
  rw [show x.book = y.book from hbook]
  rfl

/-- Nested calls are refused without a trace, the outer call answers and leaves the
book as with a passive callback, and the next call passes the gate. -/
theorem reentrancy_harmless (skips : env.SkipsCalls) (h : Reachable env args b)
    (react : List Trade → Reaction) (call : Call) :
    (b.nestedStep env react call).Returns (fun ((reply, client), b') =>
      b.step env call = .ok (reply, b') ∧ client.Refused reply.trades ∧
      b'.inPublicEntry = false ∧ ∀ entryPoint, b'.debugEntryGate env entryPoint = .ok true) := by
  obtain ⟨accepted, L, hready⟩ := h.ready
  have hspec := step_spec hready call
  have released : ∀ {reply b'}, b.step env call = .ok (reply, b') → b'.inPublicEntry = false ∧
      ∀ entryPoint, b'.debugEntryGate env entryPoint = .ok true := by
    intro reply b' hstep
    have hready' := hready.follows (hspec.result hstep).2
    exact ⟨hready'.inPublicEntry, debugEntryGate_eq hready'⟩
  cases call with
  | addOrder id type price quantity side =>
      have hpassive : (Exec.addOrder env id.toNat type price.toNat quantity.toNat side
          (Exec.passive keepTrade) ⟨b, []⟩).Returns _ := addOrder_spec hready quantity.toNat_lt
      have alike := addOrder_alike skips hready react id.toNat type price.toNat quantity.toNat side
      refine (alike.returns hpassive).bind ?_
      rintro ⟨⟨reason, filledOut⟩, x⟩ ⟨⟨⟨reason', filledOut'⟩, y⟩, heq, ⟨ha, hbook, hclient⟩, -⟩
      cases ha
      have hbook' : x.book = y.book := hbook
      have hclient' : x.client.Refused y.client := hclient
      have hstep : b.step env (.addOrder id type price quantity side) =
          .ok (⟨reason, filledOut, y.client⟩, y.book) := by
        rw [step, heq, ok_bind]
        rfl
      simp only [pure_eq_ok, returns_ok, hbook', hclient'.trades]
      exact ⟨hstep, hclient', released hstep⟩
  | cancelOrder id =>
      obtain ⟨⟨reason, b'⟩, heq, -⟩ := returns_iff.mp
        (cancelOrderImpl_spec (hready.represents.setLatch true) id.toNat)
      have hcancel : ∀ {σ : Type} (c : σ), Exec.cancelOrder env id.toNat ⟨b, c⟩ =
          .ok (reason, ⟨{ b' with inPublicEntry := false }, c⟩) := by
        intro σ c
        simp only [Exec.cancelOrder, Exec.publicEntry, if_pos skips.tools, debugEntryGate_eq hready,
          ok_bind, if_true, Exec.setBook, heq, pure_eq_ok]
      have hstep : b.step env (.cancelOrder id) =
          .ok (⟨reason, 0, []⟩, { b' with inPublicEntry := false }) := by
        rw [step, hcancel, ok_bind]
        rfl
      rw [nestedStep, hcancel, ok_bind]
      refine ⟨hstep, ⟨rfl, ?_, rfl⟩, released hstep⟩
      exact fun reply hreply => absurd hreply List.not_mem_nil

/-- A client that answers its first trade with a cancel and an order of its own. -/
def meddle (trades : List Trade) : Reaction :=
  match trades with
  | [_] => .cancelOrder 1 (fun _ => .addOrder 4 .Limit 101 1 .Buy (Exec.passive fun _ c => c)
      (fun _ => .done))
  | _ => .done

def Env.watchful : Env := ⟨true, none, some (fun _ => .SkipOperation), 0⟩

theorem reentrancy_harmless_small : ∃ b₀ b, construct Env.watchful .small = .ok b₀ ∧
    b₀.run Env.watchful [.addOrder 1 .Limit 101 5 .Sell] = .ok ([⟨.Accepted, 0, []⟩], b) ∧
    (b.nestedStep Env.watchful meddle (.addOrder 2 .Limit 101 2 .Buy)).Returns
      (fun ((reply, client), b') =>
        b.step Env.watchful (.addOrder 2 .Limit 101 2 .Buy) = .ok (reply, b') ∧
        client.Refused reply.trades ∧ b'.inPublicEntry = false ∧
        ∀ entryPoint, b'.debugEntryGate Env.watchful entryPoint = .ok true) := by
  obtain ⟨b₀, h⟩ := construct_small Env.watchful
  obtain ⟨⟨replies, b⟩, hrun, hreplies, -⟩ :=
    returns_iff.mp (run_small h [.addOrder 1 .Limit 101 5 .Sell])
  have hreply : replies = [⟨.Accepted, 0, []⟩] := hreplies.trans (by decide)
  subst hreply
  have skips : Env.watchful.SkipsCalls := ⟨rfl, _, rfl, fun _ => rfl⟩
  exact ⟨b₀, b, h, hrun, reentrancy_harmless skips ⟨b₀, _, _, h, hrun⟩ meddle _⟩

end OrderBook

end Hft
