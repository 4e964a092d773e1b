import MoneyLaundering.Basic
import MoneyLaundering.Support.Lines
import Mathlib.Algebra.BigOperators.Group.Multiset.Basic
import Mathlib.Algebra.Order.Ring.Int

/-!
# The parallel reader of the client

The client splits its transactions file into byte ranges and gives each to a worker.
A worker drops the line at the start of its range, or the rest of it, and reads the
lines that start before the end of its range.
-/

open Lines

namespace ParallelReader

def newline : UInt8 := 10

/-- What a worker puts on the queue. -/
inductive QueueItem (τ : Type) where
  | transactions (batch : List τ)
  | done

/-- The transactions of an item. -/
def QueueItem.batch {τ : Type} : QueueItem τ → List τ
  | .transactions batch => batch
  | .done => []

section Worker

variable {τ : Type} (parse : Bytes → τ) (batchSize : ℤ) (file : Bytes)

/-- What follows the loop of a worker. -/
def lastItems (batch : List τ) : List (QueueItem τ) :=
  if batch = [] then [.done] else [.transactions batch, .done]

/-- The loop of a worker at a position. -/
def readLoop (stop pos : ℕ) (batch : List τ) : List (QueueItem τ) :=
  if pos < stop then
    let line := readline newline (file.drop pos)
    if line = [] then lastItems batch
    else
      let batch := batch ++ [parse line]
      if batchSize ≤ batch.length then
        .transactions batch :: readLoop stop (pos + line.length) []
      else readLoop stop (pos + line.length) batch
  else lastItems batch
termination_by file.length - pos
decreasing_by all_goals exact lt_of_readline_drop (by assumption)

/-- `_transactions_worker` on the byte range from `start` to `stop`. -/
def transactionsWorker (start stop : ℕ) : List (QueueItem τ) :=
  readLoop parse batchSize file stop
    (start + (readline newline (file.drop start)).length) []

/-- The number of workers of a client. -/
def numWorkers (nWorkers : ℤ) : ℕ := (max 1 nWorkers).toNat

/-- The byte ranges of `_send_transactions_parallel`. -/
def bounds (size n : ℕ) : List (ℕ × ℕ) :=
  (List.range n).map fun i => (i * size / n, (i + 1) * size / n)

/-- The transactions that the workers put on the queue. -/
def parsed (nWorkers : ℤ) : List τ :=
  (bounds file.length (numWorkers nWorkers)).flatMap fun r =>
    (transactionsWorker parse batchSize file r.1 r.2).flatMap QueueItem.batch


variable {parse batchSize file}

/-! ## What one worker reads -/

theorem batch_lastItems (batch : List τ) :
    (lastItems batch).flatMap QueueItem.batch = batch ∧
      (lastItems batch).getLast? = some .done := by
  unfold lastItems
  split
  · simp [QueueItem.batch, *]
  · simp [QueueItem.batch]

/-- The line that the loop reads, and the lines after it. -/
theorem filter_linesAt_drop {stop pos : ℕ} (hstop : pos < stop)
    (hline : readline newline (file.drop pos) ≠ []) :
    (linesAt newline pos (file.drop pos)).filter (fun line => line.1 < stop) =
      (pos, readline newline (file.drop pos)) ::
        (linesAt newline (pos + (readline newline (file.drop pos)).length)
          (file.drop (pos + (readline newline (file.drop pos)).length))).filter
            (fun line => line.1 < stop) := by
  have hne : file.drop pos ≠ [] := fun hnil =>
    hline (readline_eq_nil_iff.mpr hnil)
  rw [linesAt_eq_cons hne, List.filter_cons_of_pos (by simpa using hstop),
    List.drop_drop]

/-- The loop parses the lines from its position that start before the end, after
the transactions it already has, and says that it is done. -/
theorem batch_readLoop (stop pos : ℕ) (batch : List τ) :
    (readLoop parse batchSize file stop pos batch).flatMap QueueItem.batch =
        batch ++ ((linesAt newline pos (file.drop pos)).filter
          (fun line => line.1 < stop)).map (fun line => parse line.2) ∧
      (readLoop parse batchSize file stop pos batch).getLast? = some .done := by
  induction pos, batch using readLoop.induct parse batchSize file stop with
  | case1 pos batch hstop line hline =>
      have hnil : file.drop pos = [] := readline_eq_nil_iff.mp hline
      rw [readLoop, if_pos hstop, if_pos hline, hnil]
      simpa [linesAt] using batch_lastItems batch
  | case2 pos batch hstop line hline batch' hfull ih =>
      rw [readLoop, if_pos hstop, if_neg hline, if_pos hfull,
        filter_linesAt_drop hstop hline]
      constructor
      · rw [List.flatMap_cons, ih.1]
        simp [QueueItem.batch, line]
      · rw [List.getLast?_cons, ih.2]
        rfl
  | case3 pos batch hstop line hline batch' hfull ih =>
      rw [readLoop, if_pos hstop, if_neg hline, if_neg hfull,
        filter_linesAt_drop hstop hline]
      constructor
      · rw [ih.1]
        simp [batch', line]
      · exact ih.2
  | case4 pos batch hstop =>
      have hnone : (linesAt newline pos (file.drop pos)).filter
          (fun line => line.1 < stop) = [] := by
        rw [List.filter_eq_nil_iff]
        intro line hline
        have := (le_of_mem_linesAt hline).1
        simp only [decide_eq_true_eq]
        omega
      rw [readLoop, if_neg hstop, hnone]
      simpa using batch_lastItems batch

/-- A worker parses the lines that start inside its range, the start of the range
excluded, and says that it is done. -/
theorem batch_transactionsWorker (start stop : ℕ) :
    (transactionsWorker parse batchSize file start stop).flatMap
        QueueItem.batch =
      ((linesAt newline 0 file).filter
        (fun line => start < line.1 ∧ line.1 < stop)).map
          (fun line => parse line.2) ∧
      (transactionsWorker parse batchSize file start stop).getLast? =
        some .done := by
  obtain ⟨hbatch, hdone⟩ := batch_readLoop stop
    (start + (readline newline (file.drop start)).length) []
  have hlines : (linesAt newline 0 file).filter (fun line => 0 + start < line.1) = _ :=
    filter_linesAt 0 start file
  rw [Nat.zero_add, Nat.zero_add] at hlines
  refine ⟨?_, hdone⟩
  rw [transactionsWorker, hbatch, ← hlines, List.filter_filter, List.nil_append]
  congr 2
  funext line
  simp [Bool.and_comm]

end Worker

/-! ## What the workers read together -/

/-- The entries with keys strictly between two neighbours of a monotone sequence,
taken together: the entries whose keys lie strictly between its ends and meet none of
its members. -/
theorem sum_filter_between {A : Type} (f : ℕ → ℕ) (hf : Monotone f)
    (key : A → ℕ) (M : Multiset A) (n : ℕ) :
    ((List.range n).map fun i =>
      M.filter fun x => f i < key x ∧ key x < f (i + 1)).sum =
      M.filter fun x => f 0 < key x ∧ key x < f n ∧
        ∀ i < n, key x ≠ f i := by
  induction n with
  | zero =>
      symm
      rw [List.range_zero, List.map_nil, List.sum_nil, Multiset.filter_eq_nil]
      intro x _ hx
      omega
  | succ n ih =>
      rw [List.range_succ, List.map_append, List.sum_append, ih,
        List.map_singleton, List.sum_singleton]
      have hdisjoint : M.filter (fun x => (f 0 < key x ∧ key x < f n ∧
          ∀ i < n, key x ≠ f i) ∧ f n < key x ∧ key x < f (n + 1)) = 0 := by
        rw [Multiset.filter_eq_nil]
        intro x _ hx
        omega
      rw [Multiset.filter_add_filter, hdisjoint, add_zero]
      apply Multiset.filter_congr
      intro x _
      have hn : f n ≤ f (n + 1) := hf (Nat.le_succ n)
      constructor
      · intro hx
        rcases hx with ⟨h0, hlt, hne⟩ | ⟨hlt, hlt'⟩
        · refine ⟨h0, by omega, fun i hi => ?_⟩
          rcases Nat.lt_succ_iff_lt_or_eq.mp hi with hi | hi
          · exact hne i hi
          · rw [hi]
            omega
        · have h0 : f 0 ≤ f n := hf (Nat.zero_le n)
          refine ⟨by omega, hlt', fun i hi => ?_⟩
          have : f i ≤ f n := hf (Nat.le_of_lt_succ hi)
          omega
      · intro hx
        obtain ⟨h0, hlt, hne⟩ := hx
        have hnen := hne n (Nat.lt_succ_self n)
        by_cases hlt' : key x < f n
        · exact Or.inl ⟨h0, hlt', fun i hi => hne i (Nat.lt_succ_of_lt hi)⟩
        · exact Or.inr ⟨by omega, hlt⟩

theorem coe_flatMap {A B : Type} (g : A → List B) (l : List A) :
    ((l.flatMap g : List B) : Multiset B) =
      (l.map fun a => ((g a : List B) : Multiset B)).sum := by
  induction l with
  | nil => rfl
  | cons a l ih =>
      rw [List.flatMap_cons, List.map_cons, List.sum_cons, ← ih]
      rfl

/-- A line other than the header. -/
def body (file : Bytes) : List (ℕ × Bytes) := (linesAt newline 0 file).tail

/-- The lines other than the header. -/
theorem map_body (file : Bytes) :
    (body file).map Prod.snd = (lines newline file).tail := by
  rw [body, lines, List.map_tail]

/-- The line starts at an inner bound of the byte ranges. -/
def AtBound (size n : ℕ) (line : ℕ × Bytes) : Prop :=
  ∃ i, 0 < i ∧ i < n ∧ line.1 = i * size / n

theorem mem_body {file : Bytes} {line : ℕ × Bytes} (h : line ∈ body file) :
    0 < line.1 ∧ line.1 < file.length := by
  cases hfile : file with
  | nil => simp [body, hfile, linesAt] at h
  | cons b bs =>
      rw [body, linesAt_eq_cons (by simp [hfile]), List.tail_cons] at h
      have hmem := le_of_mem_linesAt h
      have hpos : 0 < (readline newline file).length := by
        rw [List.length_pos_iff, ne_eq, readline_eq_nil_iff]
        simp [hfile]
      rw [List.length_drop] at hmem
      have hle : (readline newline file).length ≤ file.length := length_readline_le file
      rw [← hfile]
      omega

theorem monotone_bound (size n : ℕ) : Monotone fun i => i * size / n :=
  fun _ _ h => Nat.div_le_div_right (Nat.mul_le_mul_right size h)

theorem numWorkers_pos (nWorkers : ℤ) : 0 < numWorkers nWorkers := by
  unfold numWorkers
  omega

/-- The header and the lines at an inner bound are the ones that no worker reads. -/
theorem filter_linesAt_bounds (file : Bytes) {n : ℕ} (hn : 0 < n) :
    ((linesAt newline 0 file : List (ℕ × Bytes)) : Multiset (ℕ × Bytes)).filter
      (fun line => 0 * file.length / n < line.1 ∧
        line.1 < n * file.length / n ∧
        ∀ i < n, line.1 ≠ i * file.length / n) =
      ((body file : List (ℕ × Bytes)) : Multiset (ℕ × Bytes)).filter
        (fun line => ∀ i < n, 0 < i → line.1 ≠ i * file.length / n) := by
  rw [Nat.zero_mul, Nat.zero_div, Nat.mul_div_cancel_left _ hn]
  have hbody : ∀ line ∈ ((body file : List (ℕ × Bytes)) :
      Multiset (ℕ × Bytes)), ((0 < line.1 ∧ line.1 < file.length ∧
        ∀ i < n, line.1 ≠ i * file.length / n) ↔
        ∀ i < n, 0 < i → line.1 ≠ i * file.length / n) := by
    intro line hline
    have hmem := mem_body (Multiset.mem_coe.mp hline)
    constructor
    · intro h i hi _
      exact h.2.2 i hi
    · intro h
      refine ⟨hmem.1, hmem.2, fun i hi => ?_⟩
      rcases Nat.eq_zero_or_pos i with hzero | hpos
      · rw [hzero, Nat.zero_mul, Nat.zero_div]
        omega
      · exact h i hi hpos
  rw [← Multiset.filter_congr hbody]
  cases hls : linesAt newline 0 file with
  | nil => simp [body, hls]
  | cons header ls =>
      have hheader : header.1 = 0 := by
        have hhead : header ∈ (linesAt newline 0 file).head? := by
          rw [hls]
          rfl
        exact head?_linesAt hhead
      have hls' : body file = ls := by rw [body, hls, List.tail_cons]
      rw [hls', ← Multiset.cons_coe, Multiset.filter_cons_of_neg]
      omega

section Parsed

variable {τ : Type} (parse : Bytes → τ) (batchSize nWorkers : ℤ) (file : Bytes)

/-- The workers parse the lines other than the header that do not start at an inner
bound, each of them once. -/
theorem coe_parsed :
    ((parsed parse batchSize file nWorkers : List τ) : Multiset τ) =
      (((body file : List (ℕ × Bytes)) : Multiset (ℕ × Bytes)).filter
        (fun line => ∀ i < numWorkers nWorkers, 0 < i →
          line.1 ≠ i * file.length / numWorkers nWorkers)).map
            (fun line => parse line.2) := by
  have hn := numWorkers_pos nWorkers
  rw [← filter_linesAt_bounds file hn,
    ← sum_filter_between (fun i => i * file.length / numWorkers nWorkers)
      (monotone_bound _ _), parsed, coe_flatMap, bounds, List.map_map,
    ← Multiset.coe_mapAddMonoidHom, map_list_sum, List.map_map]
  congr 1
  apply List.map_congr_left
  intro i _
  simp only [Function.comp_apply, (batch_transactionsWorker _ _).1,
    Multiset.coe_mapAddMonoidHom, Multiset.filter_coe, Multiset.map_coe]

/-- The workers together parse exactly the lines other than the header if and only if
none of these starts at an inner bound of the byte ranges; each of them reaches its
end. -/
theorem parsed_eq_iff :
    (((parsed parse batchSize file nWorkers : List τ) : Multiset τ) =
        (((lines newline file).tail.map parse : List τ) : Multiset τ) ↔
      ∀ line ∈ body file, ¬AtBound file.length (numWorkers nWorkers) line) ∧
    ∀ r ∈ bounds file.length (numWorkers nWorkers),
      (transactionsWorker parse batchSize file r.1 r.2).getLast? =
        some .done := by
  refine ⟨?_, fun r _ => (batch_transactionsWorker r.1 r.2).2⟩
  rw [coe_parsed, ← map_body, List.map_map, ← Multiset.map_coe]
  have hbound : ∀ line, ¬AtBound file.length (numWorkers nWorkers) line ↔
      ∀ i < numWorkers nWorkers, 0 < i →
        line.1 ≠ i * file.length / numWorkers nWorkers := by
    intro line
    constructor
    · intro h i hi hpos heq
      exact h ⟨i, hpos, hi, heq⟩
    · intro h hat
      obtain ⟨i, hpos, hi, heq⟩ := hat
      exact h i hi hpos heq
  constructor
  · intro heq line hline
    rw [hbound]
    -- a line that is lost makes the workers parse fewer lines
    have hcard := congrArg Multiset.card heq
    rw [Multiset.card_map, Multiset.card_map] at hcard
    have hall := Multiset.eq_of_le_of_card_le (Multiset.filter_le _ _) hcard.ge
    exact Multiset.filter_eq_self.mp hall line (Multiset.mem_coe.mpr hline)
  · intro h
    rw [Multiset.filter_eq_self.mpr fun line hline =>
      (hbound line).mp (h line (Multiset.mem_coe.mp hline))]
    rfl

/-- Three workers on a header and two lines: each line starts at a bound, and nobody
parses it. -/
theorem parsed_ne_lines :
    (lines newline [104, 10, 97, 10, 98, 10]).tail = [[97, 10], [98, 10]] ∧
    ((parsed id 2000 [104, 10, 97, 10, 98, 10] 3 : List Bytes) :
        Multiset Bytes) ≠
      (((lines newline [104, 10, 97, 10, 98, 10]).tail : List Bytes) :
        Multiset Bytes) := by
  refine ⟨by decide, ?_⟩
  rw [coe_parsed]
  decide

end Parsed

end ParallelReader
