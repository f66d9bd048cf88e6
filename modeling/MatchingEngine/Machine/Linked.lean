import Mathlib.Data.List.Nodup
import Mathlib.Tactic.Common

/-!
# Linked cells in memory

`Path next start cells stop` says that following `next` from `start` visits
exactly `cells` and arrives at `stop`. A doubly linked queue is a path forwards
from its head and a path backwards from its tail over the same cells, so every
fact about backward links is the forward fact for the reversed list.

Memory is a partial function from cells to links. An update is described by what
it changes: each rule asks for the new links it needs and for agreement with the
old memory everywhere else on the list.
-/

namespace Machine

variable {ι : Type} {next next' prev prev' : ι → Option ι}
variable {start stop n m x nil head tail : ι} {as bs cells : List ι}

/-- Following `next` from `start` visits exactly `cells` and arrives at `stop`. -/
def Path (next : ι → Option ι) : (start : ι) → (cells : List ι) → (stop : ι) → Prop
  | start, [], stop => start = stop
  | start, c :: cs, stop => start = c ∧ ∃ n, next c = some n ∧ Path next n cs stop

namespace Path

@[simp] theorem nil_iff : Path next start [] stop ↔ start = stop := Iff.rfl

@[simp] theorem cons_iff : Path next start (x :: cells) stop ↔
    start = x ∧ ∃ n, next x = some n ∧ Path next n cells stop := Iff.rfl

/-- Only the links of the visited cells matter. -/
theorem congr (h : Path next start cells stop) (same : ∀ c ∈ cells, next' c = next c) :
    Path next' start cells stop := by
  induction cells generalizing start with
  | nil => exact h
  | cons c cs ih =>
      obtain ⟨hc, n, hn, hrest⟩ := h
      refine ⟨hc, n, ?_, ih hrest (fun d hd => same d (List.mem_cons_of_mem c hd))⟩
      rw [same c List.mem_cons_self]
      exact hn

theorem append_iff : Path next start (as ++ bs) stop ↔
    ∃ m, Path next start as m ∧ Path next m bs stop := by
  induction as generalizing start with
  | nil => simp
  | cons a as ih =>
      simp only [List.cons_append, cons_iff, ih]
      constructor
      · rintro ⟨hs, n, hn, m, ha, hb⟩
        exact ⟨m, ⟨hs, n, hn, ha⟩, hb⟩
      · rintro ⟨m, ⟨hs, n, hn, ha⟩, hb⟩
        exact ⟨hs, n, hn, m, ha, hb⟩

/-- The path starts at its first cell, or where it stops. -/
theorem start_eq (h : Path next start cells stop) : start = cells.head?.getD stop := by
  cases cells with
  | nil => exact h
  | cons c cs => exact h.1

/-- The last cell leads to where the path stops. -/
theorem next_getLast (h : Path next start cells stop) (hx : cells.getLast? = some x) :
    next x = some stop := by
  obtain ⟨as, rfl⟩ := List.getLast?_eq_some_iff.mp hx
  obtain ⟨m, -, -, n, hn, rfl⟩ := append_iff.mp h
  exact hn

/-- Each cell's link is defined. -/
theorem next_isSome (h : Path next start cells stop) (hx : x ∈ cells) : (next x).isSome := by
  obtain ⟨as, bs, rfl⟩ := List.append_of_mem hx
  obtain ⟨m, -, -, n, hn, -⟩ := append_iff.mp h
  rw [hn]
  rfl

/-- The cells and where they stop determine their links. -/
theorem links_eq {start' : ι} (h : Path next start cells stop) (h' : Path next' start' cells stop) :
    ∀ c ∈ cells, next' c = next c := by
  induction cells generalizing start start' with
  | nil => exact fun c hc => absurd hc List.not_mem_nil
  | cons a cells ih =>
      obtain ⟨-, n, hn, hrest⟩ := h
      obtain ⟨-, m, hm, hrest'⟩ := h'
      have hnm : m = n := hrest'.start_eq.trans hrest.start_eq.symm
      intro c hc
      rcases List.mem_cons.mp hc with rfl | hc
      · rw [hn, hm, hnm]
      · exact ih hrest hrest' c hc

/-- The list visited is determined by the memory and the two ends. -/
theorem unique (h : Path next start as stop) (h' : Path next start bs stop)
    (has : stop ∉ as) (hbs : stop ∉ bs) : as = bs := by
  induction as generalizing start bs with
  | nil =>
      cases bs with
      | nil => rfl
      | cons b bs => exact absurd (h.symm.trans h'.1) (fun e => hbs (e ▸ List.mem_cons_self))
  | cons a as ih =>
      cases bs with
      | nil => exact absurd (h'.symm.trans h.1) (fun e => has (e ▸ List.mem_cons_self))
      | cons b bs =>
          obtain ⟨ha, n, hn, hrest⟩ := h
          obtain ⟨hb, m, hm, hrest'⟩ := h'
          have hab : a = b := ha.symm.trans hb
          subst hab
          have hnm : n = m := Option.some.inj (hn.symm.trans hm)
          subst hnm
          rw [ih hrest hrest' (fun hs => has (List.mem_cons_of_mem a hs))
            (fun hs => hbs (List.mem_cons_of_mem a hs))]

/-- A path that arrives outside its cells visits none of them twice. -/
theorem nodup (h : Path next start cells stop) (hstop : stop ∉ cells) : cells.Nodup := by
  induction cells generalizing start with
  | nil => exact List.nodup_nil
  | cons c cells ih =>
      obtain ⟨-, n, hn, hrest⟩ := h
      have hstop' : stop ∉ cells := fun hs => hstop (List.mem_cons_of_mem c hs)
      refine List.nodup_cons.mpr ⟨fun hc => ?_, ih hrest hstop'⟩
      -- a second visit leads on as the first did
      obtain ⟨as, bs, rfl⟩ := List.append_of_mem hc
      obtain ⟨m, -, -, n', hn', htail⟩ := append_iff.mp hrest
      obtain rfl : n' = n := Option.some.inj (hn'.symm.trans hn)
      have hbs : stop ∉ bs := fun hs => hstop' (by simp [hs])
      have hlength := congrArg List.length (hrest.unique htail hstop' hbs)
      simp only [List.length_append, List.length_cons] at hlength
      omega

/-- Prefixing a cell to a list puts it last on the way back. -/
theorem reverse_cons_iff : Path next start (x :: cells).reverse stop ↔
    Path next start cells.reverse x ∧ next x = some stop := by
  rw [List.reverse_cons, append_iff]
  constructor
  · rintro ⟨m, hcells, rfl, n, hn, rfl⟩
    exact ⟨hcells, hn⟩
  · rintro ⟨hcells, hx⟩
    exact ⟨x, hcells, rfl, stop, hx, rfl⟩

/-- Redirect the last link: the same cells now lead to `n`. -/
theorem redirect (h : Path next start (as ++ [x]) stop) (hx : next' x = some n)
    (same : ∀ c ∈ as, next' c = next c) : Path next' start (as ++ [x]) n := by
  obtain ⟨m, ha, hm, -⟩ := append_iff.mp h
  exact append_iff.mpr ⟨m, ha.congr same, hm, n, hx, rfl⟩

/-- Prefix a cell whose link leads to the path. -/
theorem push (h : Path next start cells stop) (hx : next' x = some start)
    (same : ∀ c ∈ cells, next' c = next c) : Path next' x (x :: cells) stop :=
  ⟨rfl, start, hx, h.congr same⟩

/-- Unlink an inner cell: its predecessor takes over its link. The first cell
has no predecessor, so there the start moves instead. -/
theorem unlink (h : Path next start (as ++ x :: bs) stop) (hn : next x = some n)
    (last : ∀ a, as.getLast? = some a → next' a = some n)
    (same : ∀ c ∈ as.dropLast ++ bs, next' c = next c) :
    Path next' (if as = [] then n else start) (as ++ bs) stop := by
  obtain ⟨m, ha, hm, n', hn', hb⟩ := append_iff.mp h
  have hnn : n' = n := Option.some.inj (hn'.symm.trans hn)
  subst hnn
  have hrest : Path next' n' bs stop :=
    hb.congr (fun c hc => same c (List.mem_append_right _ hc))
  rcases List.eq_nil_or_concat' as with rfl | ⟨init, a, rfl⟩
  · simpa using hrest
  · have hne : init ++ [a] ≠ [] := by simp
    rw [if_neg hne]
    refine append_iff.mpr ⟨n', ha.redirect ?_ ?_, hrest⟩
    · exact last a (by simp)
    · intro c hc
      exact same c (List.mem_append_left _ (by simpa using hc))

end Path

/-! ## Doubly linked queues -/

/-- The cells of a doubly linked queue, front first. -/
structure Queue (next prev : ι → Option ι) (nil head tail : ι) (cells : List ι) : Prop where
  forward : Path next head cells nil
  backward : Path prev tail cells.reverse nil
  nodup : cells.Nodup
  nil_notMem : nil ∉ cells

namespace Queue

theorem empty : Queue next prev nil nil nil [] :=
  ⟨rfl, rfl, List.nodup_nil, List.not_mem_nil⟩

theorem congr (h : Queue next prev nil head tail cells) (hnext : ∀ c ∈ cells, next' c = next c)
    (hprev : ∀ c ∈ cells, prev' c = prev c) : Queue next' prev' nil head tail cells :=
  ⟨h.forward.congr hnext, h.backward.congr (fun c hc => hprev c (List.mem_reverse.mp hc)),
    h.nodup, h.nil_notMem⟩

theorem head_eq (h : Queue next prev nil head tail cells) : head = cells.head?.getD nil :=
  h.forward.start_eq

theorem tail_eq (h : Queue next prev nil head tail cells) : tail = cells.getLast?.getD nil := by
  rw [h.backward.start_eq, List.head?_reverse]

theorem head_eq_nil_iff (h : Queue next prev nil head tail cells) : head = nil ↔ cells = [] := by
  rw [h.head_eq]
  cases cells with
  | nil => simp
  | cons c cs =>
      have : c ≠ nil := fun e => h.nil_notMem (e ▸ List.mem_cons_self)
      simp [this]

theorem tail_eq_nil_iff (h : Queue next prev nil head tail cells) : tail = nil ↔ cells = [] := by
  rw [h.tail_eq]
  rcases List.eq_nil_or_concat' cells with rfl | ⟨init, a, rfl⟩
  · simp
  · have : a ≠ nil := fun e => h.nil_notMem (by simp [e])
    simp [this]

/-- A cell leads to the one behind it, and the last one nowhere. -/
theorem next_eq (h : Queue next prev nil head tail (as ++ x :: bs)) :
    next x = some (bs.head?.getD nil) := by
  obtain ⟨m, -, -, n, hn, hrest⟩ := Path.append_iff.mp h.forward
  rw [hn, hrest.start_eq]

/-- A cell leads back to the one before it, and the first one nowhere. -/
theorem prev_eq (h : Queue next prev nil head tail (as ++ x :: bs)) :
    prev x = some (as.getLast?.getD nil) := by
  have hback := h.backward
  rw [List.reverse_append, List.reverse_cons, List.append_assoc, List.singleton_append] at hback
  obtain ⟨m, -, -, n, hn, hrest⟩ := Path.append_iff.mp hback
  rw [hn, hrest.start_eq, List.head?_reverse]

theorem notMem_around (h : Queue next prev nil head tail (as ++ x :: bs)) :
    x ∉ as ∧ x ∉ bs := by
  rw [← not_or, ← List.mem_append]
  exact (List.nodup_cons.mp (List.nodup_middle.mp h.nodup)).1

theorem disjoint_around (h : Queue next prev nil head tail (as ++ x :: bs)) :
    as.Disjoint bs :=
  (List.disjoint_cons_right.mp (List.disjoint_of_nodup_append h.nodup)).2

/-- Append a cell behind the tail of a non-empty queue. -/
theorem append (h : Queue next prev nil head tail cells) (hne : cells ≠ []) (hx : x ∉ cells)
    (hnil : x ≠ nil) (tailNext : next' tail = some x) (xNext : next' x = some nil)
    (sameNext : ∀ c ∈ cells, c ≠ tail → next' c = next c) (xPrev : prev' x = some tail)
    (samePrev : ∀ c ∈ cells, prev' c = prev c) : Queue next' prev' nil head x (cells ++ [x]) := by
  have hforward := h.forward
  have htail := h.tail_eq
  have hnodup := h.nodup
  rcases List.eq_nil_or_concat' cells with rfl | ⟨init, a, rfl⟩
  · exact absurd rfl hne
  · have ha : tail = a := by simpa using htail
    subst ha
    have hinit : ∀ c ∈ init, c ≠ tail := by
      rintro c hc rfl
      exact (List.nodup_append.mp hnodup).2.2 c hc c (by simp) rfl
    refine ⟨?_, ?_, ?_, ?_⟩
    · have front := hforward.redirect tailNext
        (fun c hc => sameNext c (List.mem_append_left _ hc) (hinit c hc))
      exact Path.append_iff.mpr ⟨x, front, rfl, nil, xNext, rfl⟩
    · rw [List.reverse_append, List.reverse_singleton, List.singleton_append]
      exact h.backward.push xPrev (fun c hc => samePrev c (List.mem_reverse.mp hc))
    · rw [List.nodup_append]
      refine ⟨hnodup, List.nodup_singleton x, ?_⟩
      rintro c hc d hd rfl
      exact hx (List.mem_singleton.mp hd ▸ hc)
    · intro hmem
      rcases List.mem_append.mp hmem with hc | hc
      · exact h.nil_notMem hc
      · exact hnil (List.mem_singleton.mp hc).symm

theorem singleton (hnil : x ≠ nil) (xNext : next x = some nil) (xPrev : prev x = some nil) :
    Queue next prev nil x x [x] :=
  ⟨⟨rfl, nil, xNext, rfl⟩, ⟨rfl, nil, xPrev, rfl⟩, List.nodup_singleton x,
    fun h => hnil (List.mem_singleton.mp h).symm⟩

/-- Unlink one cell. The neighbours take over its links; where a neighbour is
missing, the corresponding end of the queue moves. -/
theorem unlink (h : Queue next prev nil head tail (as ++ x :: bs)) (hn : next x = some n)
    (hp : prev x = some m)
    (lastNext : ∀ a, as.getLast? = some a → next' a = some n)
    (sameNext : ∀ c ∈ as.dropLast ++ bs, next' c = next c)
    (firstPrev : ∀ b, bs.head? = some b → prev' b = some m)
    (samePrev : ∀ c ∈ as ++ bs.tail, prev' c = prev c) :
    Queue next' prev' nil (if as = [] then n else head) (if bs = [] then m else tail)
      (as ++ bs) := by
  have hsub : (as ++ bs).Sublist (as ++ x :: bs) :=
    List.Sublist.append_left (List.sublist_cons_self x bs) as
  refine ⟨h.forward.unlink hn lastNext sameNext, ?_, h.nodup.sublist hsub,
    fun hmem => h.nil_notMem (hsub.subset hmem)⟩
  have hback := h.backward
  rw [List.reverse_append, List.reverse_cons, List.append_assoc, List.singleton_append] at hback
  have hunlink : Path prev' _ (bs.reverse ++ as.reverse) nil := hback.unlink hp
    (by
      intro b hb
      rw [List.getLast?_reverse] at hb
      exact firstPrev b hb)
    (by
      intro c hc
      refine samePrev c ?_
      rcases List.mem_append.mp hc with hc | hc
      · rw [List.dropLast_reverse] at hc
        exact List.mem_append_right _ (List.mem_reverse.mp hc)
      · exact List.mem_append_left _ (List.mem_reverse.mp hc))
  rw [List.reverse_append]
  simpa only [List.reverse_eq_nil_iff] using hunlink

/-- Drop the front cell of a queue that keeps at least one more. -/
theorem pop (h : Queue next prev nil head tail (x :: bs)) (hne : bs ≠ []) (hn : next x = some n)
    (sameNext : ∀ c ∈ bs, next' c = next c) (frontPrev : prev' n = some nil)
    (samePrev : ∀ c ∈ bs.tail, prev' c = prev c) : Queue next' prev' nil n tail bs := by
  have hback : prev x = some (([] : List ι).getLast?.getD nil) := prev_eq h
  obtain ⟨-, n', hn', hrest⟩ := h.forward
  have hnn : n' = n := Option.some.inj (hn'.symm.trans hn)
  subst hnn
  have hunlink : Queue next' prev' nil _ _ ([] ++ bs) := Queue.unlink h hn hback
    (fun a ha => by simp at ha) (fun c hc => sameNext c (by simpa using hc))
    (fun b hb => by
      have hnb : n' = b := by simpa [hb] using hrest.start_eq
      exact hnb ▸ frontPrev)
    (fun c hc => samePrev c (by simpa using hc))
  simpa [hne] using hunlink

end Queue

end Machine
