import Mathlib.Data.List.Basic

/-!
# The lines of a file

A file is a list of symbols, one of which ends a line.  A line keeps the symbol
that ends it; only the last one may lack it.  Each line is listed with the offset
at which it starts.
-/

namespace Lines

variable {α : Type}

/-- Put a symbol in front of the first line. -/
def extend (off : ℕ) (b : α) : List (ℕ × List α) → List (ℕ × List α)
  | [] => [(off, [b])]
  | line :: ls => (off, b :: line.2) :: ls

theorem flatten_extend (off : ℕ) (b : α) (ls : List (ℕ × List α)) :
    ((extend off b ls).map Prod.snd).flatten =
      b :: (ls.map Prod.snd).flatten := by
  cases ls with
  | nil => rfl
  | cons line ls => simp [extend]

theorem filter_extend_of_le {off k : ℕ} (b : α) (ls : List (ℕ × List α))
    (hoff : off ≤ k) (hls : ∀ line ∈ ls.head?, line.1 ≤ k) :
    (extend off b ls).filter (fun line => k < line.1) =
      ls.filter (fun line => k < line.1) := by
  cases ls with
  | nil => simp [extend, hoff]
  | cons line ls =>
      have := hls line rfl
      simp [extend, hoff, this]

/-- Put some symbols in front of the first line. -/
def put (body : List α) : List (List α) → List (List α)
  | [] => [body]
  | line :: ls => (body ++ line) :: ls

theorem map_snd_extend (off : ℕ) (b : α) (ls : List (ℕ × List α)) :
    (extend off b ls).map Prod.snd = put [b] (ls.map Prod.snd) := by
  cases ls with
  | nil => rfl
  | cons line ls => rfl

theorem put_put (body more : List α) (ls : List (List α)) :
    put body (put more ls) = put (body ++ more) ls := by
  cases ls with
  | nil => rfl
  | cons line ls => simp [put]

variable [DecidableEq α]

/-- The first line of what is left of a file. -/
def readline (nl : α) : List α → List α
  | [] => []
  | b :: bs => if b = nl then [b] else b :: readline nl bs

/-- The lines of what is left of a file at offset `off`. -/
def linesAt (nl : α) (off : ℕ) : List α → List (ℕ × List α)
  | [] => []
  | b :: bs =>
    if b = nl then (off, [b]) :: linesAt nl (off + 1) bs
    else extend off b (linesAt nl (off + 1) bs)

/-- The lines of a file. -/
def lines (nl : α) (file : List α) : List (List α) :=
  (linesAt nl 0 file).map Prod.snd

variable {nl : α}

/-! ## Lines partition the file -/

theorem flatten_linesAt (off : ℕ) (file : List α) :
    ((linesAt nl off file).map Prod.snd).flatten = file := by
  induction file generalizing off with
  | nil => rfl
  | cons b bs ih =>
      rw [linesAt]
      split
      · simp [ih]
      · rw [flatten_extend, ih]

theorem flatten_lines (file : List α) : (lines nl file).flatten = file :=
  flatten_linesAt 0 file

/-! ## The first line -/

/-- The lines do not depend on where the file starts. -/
theorem map_snd_linesAt (off : ℕ) (file : List α) :
    (linesAt nl off file).map Prod.snd = lines nl file := by
  rw [lines]
  generalize 0 = start
  induction file generalizing off start with
  | nil => rfl
  | cons b bs ih =>
      rw [linesAt, linesAt]
      split
      · rw [List.map_cons, List.map_cons, ih]
      · rw [map_snd_extend, map_snd_extend, ih]

theorem lines_cons_self (bs : List α) : lines nl (nl :: bs) = [nl] :: lines nl bs := by
  rw [lines, linesAt, if_pos rfl, List.map_cons, map_snd_linesAt]

theorem lines_cons_of_ne {b : α} (h : b ≠ nl) (bs : List α) :
    lines nl (b :: bs) = put [b] (lines nl bs) := by
  rw [lines, linesAt, if_neg h, map_snd_extend, map_snd_linesAt]

/-- Symbols that do not end a line are a part of the first one. -/
theorem lines_append_of_notMem {body : List α} (h : nl ∉ body) (hne : body ≠ [])
    (rest : List α) : lines nl (body ++ rest) = put body (lines nl rest) := by
  induction body with
  | nil => exact absurd rfl hne
  | cons b body ih =>
      obtain ⟨hb, hbody⟩ := not_or.mp (mt List.mem_cons.mpr h)
      rw [List.cons_append, lines_cons_of_ne (Ne.symm hb)]
      cases body with
      | nil => rfl
      | cons x body => rw [ih hbody (List.cons_ne_nil x body), put_put, List.singleton_append]

/-! ## Reading one line -/

theorem readline_eq_nil_iff {file : List α} :
    readline nl file = [] ↔ file = [] := by
  cases file with
  | nil => simp [readline]
  | cons b bs =>
      rw [readline]
      split <;> simp

theorem length_readline_le (file : List α) :
    (readline nl file).length ≤ file.length := by
  induction file with
  | nil => simp [readline]
  | cons b bs ih =>
      rw [readline]
      split
      · simp
      · simpa using ih

/-- Reading a line leaves less to read. -/
theorem lt_of_readline_drop {file : List α} {pos : ℕ}
    (h : readline nl (file.drop pos) ≠ []) :
    file.length - (pos + (readline nl (file.drop pos)).length) <
      file.length - pos := by
  have hpos : 0 < (readline nl (file.drop pos)).length :=
    List.length_pos_of_ne_nil h
  have hlt : pos < file.length := by
    apply List.length_lt_of_drop_ne_nil
    intro hnil
    exact h (readline_eq_nil_iff.mpr hnil)
  omega

/-- The first line is the one that is read, and the rest are the lines of what is
left. -/
theorem linesAt_eq_cons {off : ℕ} {file : List α} (h : file ≠ []) :
    linesAt nl off file = (off, readline nl file) ::
      linesAt nl (off + (readline nl file).length)
        (file.drop (readline nl file).length) := by
  induction file generalizing off with
  | nil => exact absurd rfl h
  | cons b bs ih =>
      rw [linesAt, readline]
      split
      · simp
      · cases bs with
        | nil => simp [linesAt, extend, readline]
        | cons b' bs =>
            have hcons : b' :: bs ≠ [] := by simp
            rw [ih hcons, extend]
            have hoff : off + 1 + (readline nl (b' :: bs)).length =
                off + (b :: readline nl (b' :: bs)).length := by
              simp only [List.length_cons]
              omega
            rw [hoff]
            rfl

theorem le_of_mem_linesAt {off : ℕ} {file : List α} {line : ℕ × List α}
    (h : line ∈ linesAt nl off file) :
    off ≤ line.1 ∧ line.1 < off + file.length := by
  induction file generalizing off line with
  | nil => simp [linesAt] at h
  | cons b bs ih =>
      have hrest : ∀ line ∈ linesAt nl (off + 1) bs,
          off ≤ line.1 ∧ line.1 < off + (b :: bs).length := by
        intro line hline
        have := ih hline
        simp only [List.length_cons]
        omega
      have hfirst : off ≤ off ∧ off < off + (b :: bs).length := by simp
      rw [linesAt] at h
      split at h
      · rcases List.mem_cons.mp h with heq | hmem
        · rw [heq]
          exact hfirst
        · exact hrest _ hmem
      · cases hls : linesAt nl (off + 1) bs with
        | nil =>
            rw [hls, extend, List.mem_singleton] at h
            rw [h]
            exact hfirst
        | cons x ls =>
            rw [hls, extend] at h
            rcases List.mem_cons.mp h with heq | hmem
            · rw [heq]
              exact hfirst
            · exact hrest _ (by rw [hls]; exact List.mem_cons_of_mem x hmem)

/-! ## Lines that are written one after the other -/

theorem linesAt_append {off : ℕ} {body : List α} (h : nl ∉ body) (rest : List α) :
    linesAt nl off ((body ++ [nl]) ++ rest) =
      (off, body ++ [nl]) :: linesAt nl (off + body.length + 1) rest := by
  induction body generalizing off with
  | nil => simp [linesAt]
  | cons b body ih =>
      obtain ⟨hb, hbody⟩ := not_or.mp (mt List.mem_cons.mpr h)
      have hoff : off + 1 + body.length + 1 = off + (b :: body).length + 1 := by
        simp only [List.length_cons]
        omega
      rw [List.cons_append, List.cons_append, linesAt, if_neg (Ne.symm hb), ih hbody, extend,
        hoff]

/-- Whole lines are read as they were written. -/
theorem lines_flatten {bodies : List (List α)} (h : ∀ body ∈ bodies, nl ∉ body) :
    lines nl (bodies.map (· ++ [nl])).flatten = bodies.map (· ++ [nl]) := by
  have hall : ∀ off, (linesAt nl off (bodies.map (· ++ [nl])).flatten).map Prod.snd =
      bodies.map (· ++ [nl]) := by
    induction bodies with
    | nil => exact fun _ => rfl
    | cons body bodies ih =>
        intro off
        rw [List.map_cons, List.flatten_cons, linesAt_append (h body List.mem_cons_self),
          List.map_cons, ih fun body hbody => h body (List.mem_cons_of_mem _ hbody)]
  exact hall 0

/-! ## Reading from the middle of a file -/

theorem head?_linesAt {off : ℕ} {file : List α} {line : ℕ × List α}
    (h : line ∈ (linesAt nl off file).head?) : line.1 = off := by
  cases file with
  | nil => simp [linesAt] at h
  | cons b bs =>
      rw [linesAt_eq_cons (by simp)] at h
      rw [← Option.some.inj h]

/-- Dropping the line at a position, or the rest of it, leaves the lines that start
after the position. -/
theorem filter_linesAt (off k : ℕ) (file : List α) :
    (linesAt nl off file).filter (fun line => off + k < line.1) =
      linesAt nl (off + (k + (readline nl (file.drop k)).length))
        (file.drop (k + (readline nl (file.drop k)).length)) := by
  induction k generalizing off file with
  | zero =>
      cases file with
      | nil => simp [linesAt]
      | cons b bs =>
          rw [List.drop_zero, Nat.zero_add, linesAt_eq_cons (by simp)]
          rw [List.filter_cons_of_neg (by simp), List.filter_eq_self]
          intro line hline
          have hle := (le_of_mem_linesAt hline).1
          have hpos : 0 < (readline nl (b :: bs)).length := by
            rw [List.length_pos_iff, ne_eq, readline_eq_nil_iff]
            simp
          simp only [decide_eq_true_eq]
          omega
  | succ k ih =>
      cases file with
      | nil => simp [linesAt]
      | cons b bs =>
          rw [List.drop_succ_cons, show k + 1 + (readline nl (bs.drop k)).length =
            k + (readline nl (bs.drop k)).length + 1 by omega,
            List.drop_succ_cons]
          have hoff : off + 1 + k = off + (k + 1) := by omega
          have hgoal := ih (off + 1) bs
          rw [hoff] at hgoal
          rw [show off + (k + (readline nl (bs.drop k)).length + 1) =
            off + 1 + (k + (readline nl (bs.drop k)).length) by omega, ← hgoal,
            linesAt]
          split
          · rw [List.filter_cons_of_neg (by simp)]
          · apply filter_extend_of_le
            · omega
            · intro line hline
              have := head?_linesAt hline
              omega

end Lines
