import MatchingEngine.Verification.Observation
import Mathlib.Logic.Function.Basic

/-!
# Which call made an order rest

The calls of a run are numbered, and a clock remembers for each id the last call
that made it rest. The clock is a ghost: it reads the answers of the engine and
is never read by it. Along every queue these numbers increase, which is what
first in, first out means for ids that can be used again.
-/

namespace Hft

open Machine Machine.Checked

def Call.id : Call → Nat
  | .addOrder id .. => id.toNat
  | .cancelOrder id => id.toNat

/-- The number of the next call, and for each id the call that made it rest. -/
structure Clock where
  calls : Nat
  stamp : Nat → Nat

namespace Clock

def start : Clock := ⟨0, fun _ => 0⟩

/-- A call that is accepted and leaves its order at rest has made it rest. -/
def tick (c : Clock) (id : Nat) (reason : RejectReason) (rests : Bool) : Clock where
  calls := c.calls + 1
  stamp := if reason = .Accepted ∧ rests = true then Function.update c.stamp id c.calls else c.stamp

end Clock

/-- A call on a book with a clock. -/
def OrderBook.clockedStep (env : Env) (state : OrderBook × Clock) (call : Call) :
    Checked (Reply × OrderBook × Clock) := do
  let (reply, b) ← state.1.step env call
  let rests ← b.orderExists call.id
  return (reply, b, state.2.tick call.id reply.reason rests)

namespace Ledger

def clockedStep (g : Geometry) (state : Ledger × Clock) (call : Call) : Reply × Ledger × Clock :=
  let o := state.1.step g call
  (o.reply, o.ledger, state.2.tick call.id o.reply.reason (o.ledger.find g call.id).isSome)

variable {g : Geometry} {L : Ledger} {c : Clock} {side s : Side} {i j id n taker : Nat}
variable {o : Outcome} {is : List Nat}

/-- What a call does to the ids at rest: it makes none rest and keeps the order of
the others, or it puts its own behind all others of its queue. -/
inductive Moved (g : Geometry) (id : Nat) (L : Ledger) (o : Outcome) : Prop
  | kept (ids : ∀ s j, ((o.ledger.queue s j).map Resting.id).Sublist
        ((L.queue s j).map Resting.id))
      (gone : o.reply.reason = .Accepted → o.ledger.find g id = none)
  | joined (side : Side) (i : Nat) (r : Resting) (accepted : o.reply.reason = .Accepted)
      (hid : r.id = id) (fresh : ∀ p ∈ L.resting g, p.order.id ≠ id)
      (back : o.ledger.queue side i = L.queue side i ++ [r])
      (ids : ∀ s j, ¬(s = side ∧ j = i) → ((o.ledger.queue s j).map Resting.id).Sublist
        ((L.queue s j).map Resting.id))

theorem cancel_moved (h : L.WellFormed g) (id : Nat) : Moved g id L (L.cancel g id) := by
  refine cancel_cases (P := Moved g id L) h ?_ ?_
  · rintro reason (⟨rfl, -⟩ | ⟨rfl, -⟩)
    · exact .kept (fun _ _ => List.Sublist.refl _) (fun e => by cases e)
    · exact .kept (fun _ _ => List.Sublist.refl _) (fun e => by cases e)
  · rintro p hp rfl
    refine .kept (fun s j => ?_) (fun _ => find_eq_none_iff.mpr (h.remove_fresh hp))
    by_cases hself : s = p.side ∧ j = p.index
    · obtain ⟨rfl, rfl⟩ := hself
      simp only [Ledger.remove, set_queue_self]
      exact List.filter_sublist.map _
    · simp only [Ledger.remove, set_queue_of_ne hself]
      exact List.Sublist.refl _

theorem execute_moved {type : OrderType} {price quantity : Nat}
    (hvalid : Valid g L id type price quantity side) :
    Moved g id L (L.execute g id type price quantity side) := by
  refine execute_cases (P := Moved g id L) hvalid ?_ ?_ ?_
  · intro _ _ _
    exact .kept (fun _ _ => List.Sublist.refl _) (fun e => by cases e)
  · rintro s slot free rfl - - -
    generalize hM : (sweep g side id (g.matchable side price) quantity L) = m
    refine .joined side (price - g.minPrice) ⟨slot, id, m.left⟩ rfl rfl hvalid.fresh ?_ ?_
    · simp only [Ledger.append, set_queue_self, ← hM]
      rw [sweep_queue_of_ne (Or.inl rfl)]
    · intro s j hne
      simp only [Ledger.append, set_queue_of_ne hne, ← hM]
      exact sweep_ids s j
  · rintro s rfl -
    exact .kept sweep_ids (fun _ => find_eq_none_iff.mpr (sweep_fresh hvalid.fresh))

theorem step_moved (h : L.WellFormed g) (call : Call) : Moved g call.id L (L.step g call) := by
  cases call with
  | cancelOrder id => exact cancel_moved h id.toNat
  | addOrder id type price quantity side =>
      refine add_cases (P := Moved g id.toNat L) (fun _ => cancel_moved h id.toNat) ?_
        execute_moved
      intro reason loggedPrice hne _
      exact .kept (fun _ _ => List.Sublist.refl _) (fun e => absurd e hne)

/-- Along every queue the numbers of the calls increase, and all are past. -/
structure InOrder (L : Ledger) (c : Clock) : Prop where
  increasing : ∀ side i, ((L.queue side i).map Resting.id).Pairwise
    (fun id id' => c.stamp id < c.stamp id')
  past : ∀ side i, ∀ id ∈ (L.queue side i).map Resting.id, c.stamp id < c.calls

theorem empty_inOrder (g : Geometry) : (empty g).InOrder .start :=
  ⟨fun _ _ => List.Pairwise.nil, fun _ _ _ hid => absurd hid List.not_mem_nil⟩

/-- The stamps of a call that makes no order rest stay as they are. -/
theorem tick_of_gone {reason : RejectReason} (gone : reason = .Accepted → L.find g id = none) :
    c.tick id reason (L.find g id).isSome = ⟨c.calls + 1, c.stamp⟩ := by
  unfold Clock.tick
  rw [if_neg]
  rintro ⟨haccepted, hrests⟩
  rw [gone haccepted] at hrests
  cases hrests

theorem tick_of_rests {r : Resting} (h : L.WellFormed g) (hr : r ∈ L.queue side i) :
    c.tick r.id .Accepted (L.find g r.id).isSome =
      ⟨c.calls + 1, Function.update c.stamp r.id c.calls⟩ := by
  have hfind : L.find g r.id = some ⟨side, i, r⟩ :=
    (find_eq_some_iff h).mpr ⟨h.mem hr, rfl⟩
  rw [Clock.tick, hfind, if_pos ⟨rfl, rfl⟩]

theorem InOrder.step (hL : L.WellFormed g) (h : L.InOrder c) (call : Call) :
    (clockedStep g (L, c) call).2.1.InOrder (clockedStep g (L, c) call).2.2 := by
  have hL' := hL.step call
  unfold clockedStep
  generalize hid : call.id = id
  have hmoved : Moved g id L (L.step g call) := hid ▸ step_moved hL call
  generalize L.step g call = o at hL' hmoved ⊢
  simp only
  cases hmoved with
  | kept ids gone =>
      rw [tick_of_gone gone]
      refine ⟨fun s j => (h.increasing s j).sublist (ids s j), fun s j id' hid' => ?_⟩
      exact Nat.lt_succ_of_lt (h.past s j id' ((ids s j).subset hid'))
  | joined side i r accepted hr fresh back ids =>
      subst hr
      have hmem : r ∈ o.ledger.queue side i := by
        rw [back]
        exact List.mem_append_right _ List.mem_cons_self
      rw [accepted, tick_of_rests hL' hmem]
      have hother : ∀ s j, ∀ id' ∈ (L.queue s j).map Resting.id,
          Function.update c.stamp r.id c.calls id' = c.stamp id' := by
        intro s j id' hid'
        obtain ⟨r', hr', rfl⟩ := List.mem_map.mp hid'
        exact Function.update_of_ne (fresh _ (hL.mem hr')) _ _
      have hold : ∀ s j, ((L.queue s j).map Resting.id).Pairwise (fun id id' =>
          Function.update c.stamp r.id c.calls id < Function.update c.stamp r.id c.calls id') := by
        intro s j
        refine (h.increasing s j).imp_of_mem ?_
        intro a b ha hb hlt
        rwa [hother s j a ha, hother s j b hb]
      have hpast : ∀ s j, ∀ id' ∈ (L.queue s j).map Resting.id,
          Function.update c.stamp r.id c.calls id' < c.calls := by
        intro s j id' hid'
        rw [hother s j id' hid']
        exact h.past s j id' hid'
      refine ⟨fun s j => ?_, fun s j id' hid' => ?_⟩
      · by_cases hself : s = side ∧ j = i
        · obtain ⟨rfl, rfl⟩ := hself
          rw [back, List.map_append, List.pairwise_append]
          refine ⟨hold s j, List.pairwise_singleton _ _, ?_⟩
          intro a ha b hb
          rw [List.mem_singleton.mp hb]
          simp only [Function.update_self]
          exact hpast s j a ha
        · exact (hold s j).sublist (ids s j hself)
      · by_cases hself : s = side ∧ j = i
        · obtain ⟨rfl, rfl⟩ := hself
          rw [back, List.map_append] at hid'
          rcases List.mem_append.mp hid' with hid' | hid'
          · exact Nat.lt_succ_of_lt (hpast s j id' hid')
          · rw [List.mem_singleton.mp hid']
            simp only [Function.update_self]
            exact Nat.lt_succ_self _
        · exact Nat.lt_succ_of_lt (hpast s j id' ((ids s j hself).subset hid'))

end Ledger

namespace OrderBook

variable {env : Env} {args : Args} {b₀ : OrderBook} {g : Geometry}

/-- A book with a clock stands for a ledger in order, with the same clock. -/
def Clocked (env : Env) (g : Geometry) (state : OrderBook × Clock) (model : Ledger × Clock) :
    Prop :=
  Ready env g state.1 model.1 ∧ model.1.InOrder model.2 ∧ state.2 = model.2

theorem clockedStep_refines (env : Env) (g : Geometry) :
    Refines (clockedStep env) (Ledger.clockedStep g) (Clocked env g) := by
  rintro ⟨b, c⟩ ⟨L, c'⟩ call ⟨hready, hinOrder, rfl⟩
  refine (step_spec hready call).bind ?_
  rintro ⟨reply, b'⟩ ⟨rfl, hfollows⟩
  have hready' := hready.follows hfollows
  simp only [orderExists_eq hready'.represents.store, ok_bind]
  exact ⟨rfl, hready', hinOrder.step hready.represents.wellFormed call, rfl⟩

theorem clockedRun_spec (accepted : args.Accepted) (h : construct env args = .ok b₀)
    (calls : List Call) :
    (checkedRuns (clockedStep env) (b₀, Clock.start) calls).Returns (fun (_, state) =>
      Clocked env (args.geometry accepted) state (runs (Ledger.clockedStep (args.geometry accepted))
        (Ledger.empty (args.geometry accepted), Clock.start) calls).2) := by
  have hnew := construct_spec env accepted
  rw [h, returns_ok] at hnew
  have hstart : Clocked env _ (b₀, Clock.start) (Ledger.empty _, Clock.start) :=
    ⟨hnew.1, Ledger.empty_inOrder _, rfl⟩
  refine ((clockedStep_refines env _).runs hstart).mono ?_
  rintro ⟨replies, state⟩ ⟨-, hclocked⟩
  exact hclocked

end OrderBook

end Hft
