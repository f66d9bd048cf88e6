import MatchingEngine.Properties.Reentrancy
import MatchingEngine.Verification.Shape

/-!
# Calls from other threads

An instrumented book is called from several threads, one call at a time, in any order. The
gate refuses the calls of every thread but the owner's, and what the owner's calls answer
and leave behind is as if no other call had been made.
-/

namespace Hft

open Machine Machine.Checked

def Env.onThread (env : Env) (thread : Nat) : Env := { env with thisThread := thread }

namespace OrderBook

variable {env : Env} {args : Args} {b : OrderBook}

/-- A call and the thread that makes it. -/
def threadStep (env : Env) (b : OrderBook) (p : Nat × Call) : Checked (Reply × OrderBook) :=
  b.step (env.onThread p.1) p.2

def runThreads (env : Env) : OrderBook → List (Nat × Call) → Checked (List Reply × OrderBook) :=
  checkedRuns (threadStep env)

/-- The call is made by the thread that the book was built in. -/
def ownCall (env : Env) (p : Nat × Call) : Bool := decide (p.1 = env.thisThread)

theorem publicEntry_foreign {σ α : Type} {x : Exec σ} (skips : env.SkipsCalls)
    (h : env.thisThread ≠ x.book.ownerThread) (entryPoint : String) (blocked : α)
    (body : Exec σ → Checked (α × Exec σ)) :
    x.publicEntry env entryPoint blocked body = .ok (blocked, x) := by
  obtain ⟨handler, hhandler, hskip⟩ := skips.handler
  have hgate : x.book.debugEntryGate env entryPoint = .ok false := by
    simp [debugEntryGate, bookFault, h, hhandler, hskip]
  rw [Exec.publicEntry, if_pos skips.tools, hgate, ok_bind]
  rfl

theorem step_foreign (skips : env.SkipsCalls) (h : env.thisThread ≠ b.ownerThread) (call : Call) :
    b.step env call = .ok (⟨.ReentrancyBlocked, 0, []⟩, b) := by
  cases call with
  | addOrder id type price quantity side =>
      rw [step, Exec.addOrder, publicEntry_foreign skips h]
      rfl
  | cancelOrder id =>
      rw [step, Exec.cancelOrder, publicEntry_foreign skips h]
      rfl

theorem step_ownerThread {call : Call} {reply : Reply} {b' : OrderBook}
    (h : b.step env call = .ok (reply, b')) : b'.ownerThread = b.ownerThread := by
  have hshape : b'.shape = b.shape := step_shape b call (reply, b') h
  exact congrArg BookShape.ownerThread hshape

/-- In any order of complete calls from any threads: the calls of the owner answer, and leave
the book, as they do by themselves, and every other call is refused. -/
theorem foreign_calls_ignored (skips : env.SkipsCalls) (hb : Reachable env args b)
    (schedule : List (Nat × Call)) : ∃ replies b',
      b.run env ((schedule.filter (ownCall env)).map Prod.snd) = .ok (replies, b') ∧
      b.runThreads env schedule =
        .ok (weave (ownCall env) ⟨.ReentrancyBlocked, 0, []⟩ schedule replies, b') := by
  obtain ⟨accepted, state, htracks⟩ := hb.tracks
  obtain ⟨⟨replies, b'⟩, hrun, -⟩ := returns_iff.mp ((step_refines env _).runs htracks)
  refine ⟨replies, b', hrun, ?_⟩
  have hown : checkedRuns (threadStep env) b (schedule.filter (ownCall env)) =
      .ok (replies, b') := by
    refine (checkedRuns_map (fun p hp s => ?_)).trans hrun
    have hthread : p.1 = env.thisThread := of_decide_eq_true (List.mem_filter.mp hp).2
    rw [threadStep, hthread]
    rfl
  have hweave : b.runThreads env schedule =
      checkedRuns (threadStep env) b (schedule.filter (ownCall env)) >>= fun p =>
        pure (weave (ownCall env) ⟨.ReentrancyBlocked, 0, []⟩ schedule p.1, p.2) := by
    refine checkedRuns_weave (P := fun s => s.ownerThread = env.thisThread)
      htracks.1.ownerThread ?_ ?_
    · rintro s ⟨thread, call⟩ reply s' hs - hstep
      rw [threadStep] at hstep
      exact (step_ownerThread hstep).trans hs
    · rintro s ⟨thread, call⟩ hs hforeign
      have hskips : (env.onThread thread).SkipsCalls := ⟨skips.tools, skips.handler⟩
      have hother : (env.onThread thread).thisThread ≠ s.ownerThread := by
        intro hthread
        exact of_decide_eq_false hforeign (hthread.trans hs)
      exact step_foreign hskips hother call
  rw [hweave, hown, ok_bind]
  rfl

theorem foreign_calls_ignored_small : ∃ b₀ replies b, construct Env.watchful .small = .ok b₀ ∧
    b₀.run Env.watchful [.addOrder 1 .Limit 101 5 .Buy, .addOrder 2 .Market 0 3 .Sell] =
      .ok (replies, b) ∧
    b₀.runThreads Env.watchful [(0, .addOrder 1 .Limit 101 5 .Buy), (7, .cancelOrder 1),
        (0, .addOrder 2 .Market 0 3 .Sell)] =
      .ok (weave (ownCall Env.watchful) ⟨.ReentrancyBlocked, 0, []⟩
        [(0, .addOrder 1 .Limit 101 5 .Buy), (7, .cancelOrder 1),
          (0, .addOrder 2 .Market 0 3 .Sell)] replies, b) := by
  obtain ⟨b₀, h⟩ := construct_small Env.watchful
  have skips : Env.watchful.SkipsCalls := ⟨rfl, _, rfl, fun _ => rfl⟩
  have hb : Reachable Env.watchful .small b₀ := ⟨b₀, [], [], h, rfl⟩
  obtain ⟨replies, b, hrun⟩ := foreign_calls_ignored skips hb
    [(0, .addOrder 1 .Limit 101 5 .Buy), (7, .cancelOrder 1), (0, .addOrder 2 .Market 0 3 .Sell)]
  exact ⟨b₀, replies, b, h, hrun⟩

end OrderBook

end Hft
