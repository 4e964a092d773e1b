import MoneyLaundering.Join.Tally

/-!
# The join with crashes

A handler whose process crashes goes back to its checkpoint and is given again what it has
not acknowledged.  The invariant says which messages the checkpoint is after, and which the
process is after.
-/

open Crash LockProg

namespace JoinRouteHandler

variable {F S α K : Type} {J : JoinRouteHandler F S α}
  {unsaved : (UUID → ℕ → ℕ) → S → F → UUID → Prop} {arrivals : ℕ → Option (Message α)}

/-- The checkpoint has the count that the client waits for. -/
def Announced (c : UUID) (expected : ℤ) (m : JoinNode F S) : Prop :=
  ∃ b, m.store = some b ∧ b.state.counts.expected.get? c = some expected

/-- An end-of-file is in the checkpoint: its client is finalized or waits for its count. -/
def EofKept (arrivals : ℕ → Option (Message α)) (m : JoinNode F S) (tag : ℕ) : Prop :=
  match arrivals tag with
  | some (.eof c expected) => Stored c m ∨ Announced c expected m
  | _ => True

/-- A crash in a state whose checkpoint has the clients that were sent something, the
acknowledged end-of-files, and the files that the crash leaves behind of the clients that
are not finalized. -/
structure Safe (unsaved : (UUID → ℕ → ℕ) → S → F → UUID → Prop)
    (arrivals : ℕ → Option (Message α)) (drained : UUID → ℕ → ℕ) (m : JoinNode F S) :
    Prop where
  sent : ∀ r ∈ m.log, Stored r.clientId m
  eofs : ∀ tag ∈ m.acked, EofKept arrivals m tag
  files : ∀ b, m.store = some b → ∀ c, c ∉ b.state.counts.finalized →
    ¬unsaved drained b.state.state m.state.fn c

namespace Redelivery

variable (R : Recoverable J.fn unsaved K)

/-- How far a process has a client. -/
def progressOf (m : JoinNode F S) (c : UUID) : Progress K :=
  if c ∈ m.state.counts.finalized then .finalized
  else .counting (m.state.counts.received.getD c 0) (m.state.counts.expected.get? c)
    (R.content m.state.fn c)

/-- A process knows what a tally says. -/
structure Follows (t : Tally K) (m : JoinNode F S) : Prop where
  progress : ∀ c, progressOf R m c = t.progress c
  recorded : ∀ id, m.dedup.Recorded id ↔ id ∈ t.recorded

/-- A checkpoint and the files of its function lead back to a tally. -/
structure Leads (t : Tally K) (b : Blob (JoinSnapshot S)) (f : F) : Prop where
  recorded : ∀ id, b.Recorded id ↔ id ∈ t.recorded
  aborted : b.aborted = ∅
  finalized : ∀ c ∈ b.state.counts.finalized, t.progress c = .finalized
  counting : ∀ c, c ∉ b.state.counts.finalized → ∃ k,
    t.progress c = .counting (b.state.counts.received.getD c 0)
      (b.state.counts.expected.get? c) k ∧ R.Covers b.state.state f c k

variable {R} {t : Tally K} {m : JoinNode F S} {c x : UUID} {k : K}

/-! ## What the operations do to a process -/

theorem Follows.of_eq {m' : JoinNode F S} (h : Follows R t m) (hstate : m'.state = m.state)
    (hdedup : m'.dedup = m.dedup) : Follows R t m' := by
  constructor
  · intro c
    rw [progressOf, hstate]
    exact h.progress c
  · rw [hdedup]
    exact h.recorded

theorem Follows.changed (h : Follows R t m) {f : F → F}
    (hf : ∀ c, t.progress c ≠ .finalized →
      R.content (f m.state.fn) c = R.content m.state.fn c) :
    Follows R t (withFn f m) := by
  constructor
  · intro c
    have hc := h.progress c
    change (if c ∈ m.state.counts.finalized then _ else Progress.counting _ _
      (R.content (f m.state.fn) c)) = _
    rw [progressOf] at hc
    split
    · rename_i hfin
      rwa [if_pos hfin] at hc
    · rename_i hfin
      rw [if_neg hfin] at hc
      rw [← hc, hf c (by simp [← hc])]
      rfl
  · exact h.recorded

theorem mem_finalized_iff (h : Follows R t m) :
    c ∈ m.state.counts.finalized ↔ t.progress c = .finalized := by
  rw [← h.progress c, progressOf]
  split <;> simp_all

theorem progress_of_notMem (h : Follows R t m) (hc : c ∉ m.state.counts.finalized) :
    t.progress c = .counting (m.state.counts.received.getD c 0)
      (m.state.counts.expected.get? c) (R.content m.state.fn c) := by
  rw [← h.progress c, progressOf, if_neg hc]

theorem Follows.setExpected (h : Follows R t m) (e : ℤ) :
    Follows R (t.expect x e) (withCounts (JoinCounts.setExpected x e) m) := by
  constructor
  · intro c
    have hc := h.progress c
    by_cases hfin : c ∈ m.state.counts.finalized
    · rw [(Tally.finalized_expect_iff e).mpr ((mem_finalized_iff h).mp hfin)]
      exact if_pos hfin
    · have hp := progress_of_notMem h hfin
      refine (if_neg hfin).trans ?_
      by_cases hx : c = x
      · subst hx
        simp [Tally.expect, hp, JoinCounts.setExpected, withCounts]
      · rw [Tally.progress_expect_of_ne e hx, hp]
        simp [withCounts, JoinCounts.setExpected, Dict.get?_set_of_ne _ _ hx]
  · rw [Tally.recorded_expect]
    exact h.recorded

theorem Follows.joined (h : Follows R t m) (d : DataMsg α) :
    Follows R (t.collect R d) (J.joined d m) := by
  constructor
  · intro c
    by_cases hfin : c ∈ m.state.counts.finalized
    · rw [(Tally.finalized_collect_iff d).mpr ((mem_finalized_iff h).mp hfin)]
      exact if_pos hfin
    · have hp := progress_of_notMem h hfin
      refine (if_neg hfin).trans ?_
      have hcontent := R.content_join d m.state.fn c
      by_cases hx : c = d.clientId
      · subst hx
        rw [if_pos rfl] at hcontent
        simp [Tally.collect, hp, JoinRouteHandler.joined, withCounts, withFn,
          JoinCounts.incReceived, Dict.getD_set, hcontent]
      · rw [if_neg hx] at hcontent
        rw [Tally.progress_collect_of_ne d hx, hp]
        simp [JoinRouteHandler.joined, withCounts, withFn, JoinCounts.incReceived,
          Dict.getD_set, hx, hcontent]
  · rw [Tally.recorded_collect]
    exact h.recorded

theorem ready_iff (h : Follows R t m) : Ready c m ↔ ∃ k, t.Due c k := by
  constructor
  · intro ⟨hfin, hcomplete⟩
    have hp := progress_of_notMem h hfin
    rw [JoinCounts.isComplete] at hcomplete
    cases he : m.state.counts.expected.get? c with
    | none => simp [he] at hcomplete
    | some e =>
        rw [he] at hp hcomplete
        exact ⟨_, _, e, hp, of_decide_eq_true hcomplete⟩
  · rintro ⟨k, received, e, hp, hle⟩
    have hfin : c ∉ m.state.counts.finalized := by
      rw [mem_finalized_iff h, hp]
      simp
    have hp' := progress_of_notMem h hfin
    rw [hp] at hp'
    injection hp' with hreceived hexpected hk
    refine ⟨hfin, ?_⟩
    rw [JoinCounts.isComplete, ← hexpected, ← hreceived]
    exact decide_eq_true hle

/-- The result that is sent is the one that is due. -/
theorem chunks_eq (h : Follows R t m) (hdue : t.Due c k) :
    J.chunks c m = R.result k := by
  obtain ⟨received, e, hp, -⟩ := hdue
  have hfin : c ∉ m.state.counts.finalized := by
    rw [mem_finalized_iff h, hp]
    simp
  have hp' := progress_of_notMem h hfin
  rw [hp] at hp'
  injection hp' with _ _ hk
  rw [chunks, R.getResponses_fst, hk]

theorem Follows.resulted (h : Follows R t m) (hdue : t.Due c k) :
    Follows R (t.finish R J.ucId c k) (J.resulted c m) := by
  constructor
  · intro y
    have hmark : y ∈ (m.state.counts.markFinalized c).finalized ↔
        y = c ∨ y ∈ m.state.counts.finalized := by
      rw [JoinCounts.markFinalized]
      split
      · rename_i hc
        simp only [iff_or_self]
        rintro rfl
        exact hc
      · rw [List.mem_append, List.mem_singleton, or_comm]
    change (if y ∈ (m.state.counts.markFinalized c).finalized then _ else
      Progress.counting ((m.state.counts.received.erase c).getD y 0)
        ((m.state.counts.expected.erase c).get? y)
        (R.content (J.fn.getResponses c m.state.fn).2 y)) = _
    by_cases hy : y = c
    · subst hy
      rw [if_pos (hmark.mpr (Or.inl rfl))]
      exact (Tally.progress_setProgress_self _).symm
    · change _ = (t.setProgress c .finalized).progress y
      rw [Tally.progress_setProgress_of_ne _ hy]
      by_cases hfin : y ∈ m.state.counts.finalized
      · rw [if_pos (hmark.mpr (Or.inr hfin)), (mem_finalized_iff h).mp hfin]
      · rw [if_neg fun hmem => (hmark.mp hmem).elim hy hfin, progress_of_notMem h hfin,
          R.content_getResponses c _ y hy, Dict.getD_erase, if_neg hy, Dict.get?_erase,
          if_neg hy]
  · exact h.recorded

theorem Follows.record (h : Follows R t m) {d : DataMsg α} (hseq : d.seq ≠ 0) (tag : ℕ) :
    Follows R { t with recorded := insert d.identity t.recorded } (m.recorded tag d) := by
  constructor
  · exact h.progress
  · intro id
    exact (Deduplicator.recorded_record hseq id).trans (or_congr Iff.rfl (h.recorded id))

/-! ## What a crash preserves -/

theorem Leads.changed {b : Blob (JoinSnapshot S)} {f f' : F} (h : Leads R t b f)
    (hf : ∀ c k, c ∉ b.state.counts.finalized →
      R.Covers b.state.state f c k → R.Covers b.state.state f' c k) : Leads R t b f' := by
  constructor
  · exact h.recorded
  · exact h.aborted
  · exact h.finalized
  · intro c hc
    obtain ⟨k, hp, hk⟩ := h.counting c hc
    exact ⟨k, hp, hf c k hc hk⟩

theorem Leads.mem_finalized_iff {b : Blob (JoinSnapshot S)} {f : F} (h : Leads R t b f) :
    c ∈ b.state.counts.finalized ↔ t.progress c = .finalized := by
  constructor
  · exact h.finalized c
  · intro hfin
    by_contra hc
    obtain ⟨k, hp, -⟩ := h.counting c hc
    rw [hp] at hfin
    cases hfin

variable (arrivals R) in
/-- A copy that changes nothing, because its message is known or its client finalized. -/
def Harmless (n i : ℕ) : Prop :=
  (∃ d, arrivals i = some (.data d) ∧
      d.identity ∈ (Tally.after R J.ucId arrivals n).recorded) ∨
    ∃ c e, arrivals i = some (.eof c e) ∧
      (Tally.after R J.ucId arrivals n).progress c = .finalized

theorem Harmless.mono {n n' i : ℕ} (h : Harmless arrivals R n i) (hn : n ≤ n') :
    Harmless arrivals R n' i := by
  rcases h with ⟨d, hd, hmem⟩ | ⟨c, e, he, hfin⟩
  · exact Or.inl ⟨d, hd, Tally.recorded_after hn hmem⟩
  · exact Or.inr ⟨c, e, he, Tally.finalized_after hn hfin⟩

variable (arrivals R) in
/-- The checkpoint is after the first `stored` copies, and the process has seen the first
`n`.  Copies that are acknowledged beyond the checkpoint are end-of-files, or change
nothing.  If the run is `whole`, no copy was lost. -/
structure Durable (whole : Prop) (stored n : ℕ) (m : JoinNode F S) : Prop where
  le : stored ≤ n
  blank : m.store = none → stored = 0
  leads : ∀ b, m.store = some b →
    Leads R (Tally.after R J.ucId arrivals stored) b m.state.fn
  seen : ∀ i < n, (arrivals i).isSome → i ∈ m.delivered
  covered : ∀ i < stored, (arrivals i).isSome → i ∈ m.acked ∨ Harmless arrivals R stored i
  held : ∀ i, stored ≤ i → i < n → (arrivals i).isSome →
    i ∈ m.acked ∨ i ∈ m.taken ∧ Harmless arrivals R n i
  early : ∀ i ∈ m.acked, stored ≤ i →
    Tally.after R J.ucId arrivals (i + 1) = Tally.after R J.ucId arrivals i ∨
      i < n ∧ ∃ c e, arrivals i = some (.eof c e)
  acked_delivered : m.acked ⊆ m.delivered
  taken_delivered : m.taken ⊆ m.delivered
  whole : whole → m.delivered ⊆ m.acked ∪ m.taken

variable {whole : Prop} {stored n : ℕ}

/-- The same checkpoint and copies, and files that it covers as well. -/
theorem Durable.of_eq {m' : JoinNode F S} (h : Durable arrivals R whole stored n m)
    (hstore : m'.store = m.store) (hacked : m'.acked = m.acked)
    (htaken : m'.taken = m.taken) (hdelivered : m'.delivered = m.delivered)
    (hf : ∀ b c k, m.store = some b → c ∉ b.state.counts.finalized →
      R.Covers b.state.state m.state.fn c k → R.Covers b.state.state m'.state.fn c k) :
    Durable arrivals R whole stored n m' := by
  constructor
  · exact h.le
  · rw [hstore]
    exact h.blank
  · intro b hb
    rw [hstore] at hb
    exact (h.leads b hb).changed fun c k => hf b c k hb
  · rw [hdelivered]
    exact h.seen
  · rw [hacked]
    exact h.covered
  · rw [hacked, htaken]
    exact h.held
  · rw [hacked]
    exact h.early
  · rw [hacked, hdelivered]
    exact h.acked_delivered
  · rw [htaken, hdelivered]
    exact h.taken_delivered
  · rw [hacked, htaken, hdelivered]
    exact h.whole

theorem Durable.stored_iff (h : Durable arrivals R whole stored n m) :
    Stored c m ↔ (Tally.after R J.ucId arrivals stored).progress c = .finalized := by
  constructor
  · rintro ⟨b, hb, hc⟩
    exact (h.leads b hb).finalized c hc
  · intro hfin
    cases hstore : m.store with
    | none =>
        rw [h.blank hstore] at hfin
        cases hfin
    | some b => exact ⟨b, hstore, (h.leads b hstore).mem_finalized_iff.mpr hfin⟩

/-- Acknowledging copies that the checkpoint is after, or others that change nothing. -/
theorem Durable.ackAll (h : Durable arrivals R whole stored n m) {tags : List ℕ} {n' : ℕ}
    (hn : n ≤ n') (hseen : ∀ i, n ≤ i → i < n' → (arrivals i).isSome →
      i ∈ m.delivered ∧
        (i ∈ tags ∨ i ∈ m.acked ∨ i ∈ m.taken ∧ Harmless arrivals R n' i))
    (htags : ∀ i ∈ tags, i ∈ m.delivered ∧ (stored ≤ i →
      Tally.after R J.ucId arrivals (i + 1) = Tally.after R J.ucId arrivals i ∨
        i < n' ∧ ∃ c e, arrivals i = some (.eof c e))) :
    Durable arrivals R whole stored n' (m.ackAll tags) := by
  have hacked : ∀ i, i ∈ (m.ackAll tags).acked ↔ i ∈ m.acked ∨ i ∈ tags := by
    intro i
    simp [Machine.ackAll]
  constructor
  · exact h.le.trans hn
  · exact h.blank
  · exact h.leads
  · intro i hi hsome
    by_cases hin : i < n
    · exact h.seen i hin hsome
    · exact (hseen i (by omega) hi hsome).1
  · intro i hi hsome
    exact (h.covered i hi hsome).imp_left fun hmem => (hacked i).mpr (Or.inl hmem)
  · intro i hi hin' hsome
    rw [hacked]
    by_cases hin : i < n
    · rcases h.held i hi hin hsome with hmem | hharm
      · exact Or.inl (Or.inl hmem)
      · exact Or.inr ⟨hharm.1, hharm.2.mono hn⟩
    · rcases (hseen i (by omega) hin' hsome).2 with hmem | hmem | hharm
      · exact Or.inl (Or.inr hmem)
      · exact Or.inl (Or.inl hmem)
      · exact Or.inr hharm
  · intro i hi hle
    rcases (hacked i).mp hi with hmem | hmem
    · exact (h.early i hmem hle).imp_right fun hin => ⟨by omega, hin.2⟩
    · exact (htags i hmem).2 hle
  · intro i hi
    rcases (hacked i).mp hi with hmem | hmem
    · exact h.acked_delivered hmem
    · exact (htags i hmem).1
  · exact h.taken_delivered
  · intro hw i hi
    rcases Finset.mem_union.mp (h.whole hw hi) with hmem | hmem
    · exact Finset.mem_union_left _ ((hacked i).mpr (Or.inl hmem))
    · exact Finset.mem_union_right _ hmem

/-- More copies are seen. -/
theorem Durable.advance (h : Durable arrivals R whole stored n m) {n' : ℕ} (hn : n ≤ n')
    (hseen : ∀ i, n ≤ i → i < n' → (arrivals i).isSome →
      i ∈ m.delivered ∧ (i ∈ m.acked ∨ i ∈ m.taken ∧ Harmless arrivals R n' i)) :
    Durable arrivals R whole stored n' m := by
  rw [← Machine.ackAll_nil m]
  apply h.ackAll hn
  · intro i hi hi' hsome
    exact ⟨(hseen i hi hi' hsome).1, Or.inr (hseen i hi hi' hsome).2⟩
  · simp

/-- A checkpoint of a process that knows what the first copies make. -/
theorem Durable.checkpointed (h : Durable arrivals R whole stored n m)
    (hf : Follows R (Tally.after R J.ucId arrivals n) m) (haborted : m.aborted = ∅) :
    Durable arrivals R whole n n (m.checkpointed J.provider) := by
  constructor
  · exact le_rfl
  · intro hnone
    cases hnone
  · intro b hb
    obtain rfl := Option.some.inj hb
    constructor
    · intro id
      exact (Deduplicator.recorded_restore_snapshot _ _).trans (hf.recorded id)
    · exact haborted
    · intro c hc
      exact (mem_finalized_iff hf).mp hc
    · intro c hc
      have hp := progress_of_notMem hf hc
      exact ⟨_, hp, R.covers_saved m.state.fn c (Tally.sound_after c _ _ _ hp)⟩
  · exact h.seen
  · intro i hi hsome
    by_cases his : i < stored
    · exact (h.covered i his hsome).imp_right fun hharm => hharm.mono h.le
    · exact (h.held i (by omega) hi hsome).imp_right fun hharm => hharm.2
  · intro i hle hi
    omega
  · intro i hi hle
    rcases h.early i hi (h.le.trans hle) with heq | ⟨hin, -⟩
    · exact Or.inl heq
    · omega
  · exact h.acked_delivered
  · exact h.taken_delivered
  · exact h.whole

/-- The copies that are acknowledged beyond the checkpoint of a safe state change
nothing. -/
theorem Durable.idle (h : Durable arrivals R whole stored n m)
    (hquiet : (Tally.after R J.ucId arrivals n).log =
      (Tally.after R J.ucId arrivals stored).log)
    {drained : UUID → ℕ → ℕ} (hsafe : Safe unsaved arrivals drained m) {i : ℕ}
    (hi : i ∈ m.acked) (hle : stored ≤ i) :
    Tally.after R J.ucId arrivals (i + 1) = Tally.after R J.ucId arrivals i := by
  rcases h.early i hi hle with heq | ⟨hin, c, e, heof⟩
  · exact heq
  refine Tally.after_succ_eof hquiet ?_ hle hin heof
  intro j x e' hj hjn hjeof
  rcases h.held j hj hjn (by simp [hjeof]) with
    hacked | ⟨-, ⟨d, hd, -⟩ | ⟨y, e'', hy, hfin⟩⟩
  · have hkept := hsafe.eofs j hacked
    rw [EofKept, hjeof] at hkept
    rcases hkept with hstored | ⟨b, hb, hexpected⟩
    · exact Or.inl (h.stored_iff.mp hstored)
    · by_cases hx : x ∈ b.state.counts.finalized
      · exact Or.inl ((h.leads b hb).finalized x hx)
      · obtain ⟨k, hp, -⟩ := (h.leads b hb).counting x hx
        rw [hexpected] at hp
        exact Or.inr ⟨_, k, hp⟩
  · rw [hjeof] at hd
    cases hd
  · rw [hjeof] at hy
    cases hy
    exact Or.inl (Tally.finalized_of_log_eq h.le hquiet hfin)

/-- A crash of a safe state goes back to the checkpoint. -/
theorem Durable.reboot (h : Durable arrivals R whole stored n m)
    (hquiet : (Tally.after R J.ucId arrivals n).log =
      (Tally.after R J.ucId arrivals stored).log)
    {drained : UUID → ℕ → ℕ} (hsafe : Safe unsaved arrivals drained m) (hwhole : ¬whole) :
    Durable arrivals R whole stored stored (m.reboot J.provider drained) := by
  constructor
  · exact le_rfl
  · exact h.blank
  · intro b hb
    apply (h.leads b hb).changed
    intro c k hc hk
    exact R.covers_fresh drained _ _ _ _ hk (hsafe.files b hb c hc)
  · intro i hi
    exact h.seen i (hi.trans_le h.le)
  · exact h.covered
  · intro i hle hi
    omega
  · intro i hi hle
    exact Or.inl (h.idle hquiet hsafe hi hle)
  · exact h.acked_delivered
  · exact Finset.empty_subset _
  · exact fun hw => absurd hw hwhole

/-! ## The phases -/

/-- A process that has restored nothing yet. -/
structure Booted (m : JoinNode F S) : Prop where
  counts : m.state.counts = .empty
  dedup : m.dedup = .fresh
  aborted : m.aborted = ∅
  pending : m.pendingAcks = []
  taken : m.taken = ∅
  fn : ∃ drained f, m.state.fn = J.fn.provider.fresh drained f

variable (arrivals R) in
/-- A process that knows what a tally says.  It holds back acknowledgements of copies
before `n`, and was handed the ones up to `top`. -/
structure Process (t : Tally K) (n top : ℕ) (up : Bool) (m : JoinNode F S) : Prop where
  follows : Follows R t m
  aborted : m.aborted = ∅
  log : m.log = t.log
  pending : ∀ i ∈ m.pendingAcks, i < n ∧ i ∈ m.delivered
  taken : ∀ i ∈ m.taken, i < top
  given : ∀ i, n ≤ i → i < top → (arrivals i).isSome → i ∈ m.taken
  up_eq : m.up = up

variable (arrivals R) in
/-- The checkpoint lags behind the process, but nothing was sent meanwhile. -/
def Works (whole : Prop) (N : ℕ → ℕ → ℕ → Prop) (up : Bool) (m : JoinNode F S) : Prop :=
  ∃ stored n top, N stored n top ∧ Durable arrivals R whole stored n m ∧
    Process arrivals R (Tally.after R J.ucId arrivals n) n top up m ∧
    (Tally.after R J.ucId arrivals n).log = (Tally.after R J.ucId arrivals stored).log ∧
    (m.dirty = false → m.pendingAcks = [])

variable (arrivals R) in
/-- Nothing was sent since the checkpoint, or the state is not safe. -/
def Cut (whole : Prop) (m : JoinNode F S) : Prop :=
  ∃ stored n, Durable arrivals R whole stored n m ∧
    ((Tally.after R J.ucId arrivals n).log = (Tally.after R J.ucId arrivals stored).log ∧
        m.log = (Tally.after R J.ucId arrivals stored).log ∨
      ∃ r ∈ m.log, ¬Stored r.clientId m)

variable (arrivals R) in
/-- The process was not started since the crash. -/
def Down (whole : Prop) (m : JoinNode F S) : Prop :=
  ∃ stored, Durable arrivals R whole stored stored m ∧
    m.log = (Tally.after R J.ucId arrivals stored).log ∧ Booted (J := J) m

variable (arrivals R) in
/-- The process sent a result and waits. -/
def Stuck (whole : Prop) (m : JoinNode F S) : Prop :=
  ∃ stored n, Durable arrivals R whole stored n m ∧ (arrivals n).isSome ∧
    n ∈ m.delivered ∧ (∀ i ∈ m.taken, i < n + 1) ∧
    m.log = (Tally.after R J.ucId arrivals (n + 1)).log ∧
    ∃ r ∈ m.log, ¬Stored r.clientId m

variable (arrivals R) in
/-- The phases of a handler whose runs have safe crashes only. -/
def phases (whole : Prop) : Phases F S :=
  ⟨Works arrivals R whole (fun _ n top => n = top) true, Down arrivals R whole,
    Stuck arrivals R whole, Cut arrivals R whole⟩

variable {N : ℕ → ℕ → ℕ → Prop} {up : Bool} {top : ℕ}

theorem Works.cut (h : Works arrivals R whole N up m) : Cut arrivals R whole m := by
  obtain ⟨stored, n, top, -, hdur, hproc, hquiet, -⟩ := h
  exact ⟨stored, n, hdur, Or.inl ⟨hquiet, hproc.log.trans hquiet⟩⟩

theorem Cut.reboot {drained : UUID → ℕ → ℕ} (h : Cut arrivals R whole m)
    (hsafe : Safe unsaved arrivals drained m) (hwhole : ¬whole) :
    Down arrivals R whole (m.reboot J.provider drained) := by
  obtain ⟨stored, n, hdur, ⟨hquiet, hlog⟩ | ⟨r, hr, hnot⟩⟩ := h
  · exact ⟨stored, hdur.reboot hquiet hsafe hwhole, hlog,
      ⟨rfl, rfl, rfl, rfl, rfl, drained, _, rfl⟩⟩
  · exact absurd (hsafe.sent r hr) hnot

/-! ## The handlers -/

theorem Process.of_eq {m' : JoinNode F S} (h : Process arrivals R t n top up m)
    (hstate : m'.state = m.state) (hdedup : m'.dedup = m.dedup)
    (haborted : m'.aborted = m.aborted) (hlog : m'.log = m.log)
    (hpending : ∀ i ∈ m'.pendingAcks, i ∈ m.pendingAcks)
    (hdelivered : m'.delivered = m.delivered) (htaken : m'.taken = m.taken)
    (hup : m'.up = m.up) : Process arrivals R t n top up m' := by
  constructor
  · exact h.follows.of_eq hstate hdedup
  · exact haborted.trans h.aborted
  · exact hlog.trans h.log
  · intro i hi
    rw [hdelivered]
    exact h.pending i (hpending i hi)
  · rw [htaken]
    exact h.taken
  · rw [htaken]
    exact h.given
  · exact hup.trans h.up_eq

/-- Another tally, which the process follows after a change of its state. -/
theorem Process.follow {m' : JoinNode F S} {t' : Tally K}
    (h : Process arrivals R t n top up m) (hf : Follows R t' m') (hlog : m'.log = t'.log)
    (haborted : m'.aborted = m.aborted) (hpending : m'.pendingAcks = m.pendingAcks)
    (hdelivered : m'.delivered = m.delivered) (htaken : m'.taken = m.taken)
    (hup : m'.up = m.up) : Process arrivals R t' n top up m' := by
  constructor
  · exact hf
  · exact haborted.trans h.aborted
  · exact hlog
  · rw [hpending, hdelivered]
    exact h.pending
  · rw [htaken]
    exact h.taken
  · rw [htaken]
    exact h.given
  · exact hup.trans h.up_eq

theorem Process.checkpointed (h : Process arrivals R t n top up m) :
    Process arrivals R t n top up (m.checkpointed J.provider) := by
  have hf := h.follows.changed (f := fun f => (J.fn.provider.snapshotState f).2)
    fun c _ => R.content_snapshot m.state.fn c
  exact h.follow ⟨hf.progress, hf.recorded⟩ h.log rfl rfl rfl rfl rfl

theorem Durable.snapshotted (h : Durable arrivals R whole stored n m) :
    Durable arrivals R whole stored n (m.snapshotted J.provider) :=
  h.of_eq rfl rfl rfl rfl fun _ _ _ _ _ hk => R.covers_snapshot _ _ _ _ hk

/-- A flush, after which the checkpoint has what was sent. -/
theorem spec_flush (force : Bool) (N : ℕ → ℕ → ℕ → Prop)
    (hsaved : ∀ stored n top, stored ≤ n → N stored n top → N n n top) :
    Spec (fun m => ∃ stored n top, N stored n top ∧ Durable arrivals R whole stored n m ∧
        Process arrivals R (Tally.after R J.ucId arrivals n) n top up m ∧
        (m.dirty = false → force = false → m.pendingAcks = []) ∧
        ((Tally.after R J.ucId arrivals n).log =
            (Tally.after R J.ucId arrivals stored).log ∨
          force = true ∧ ∃ r ∈ m.log, ¬Stored r.clientId m))
      (Checkpointer.checkpointAndFlush J.provider force)
      (fun _ => Works arrivals R whole N up) (Cut arrivals R whole) := by
  apply Checkpointer.spec_checkpointAndFlush
    (R := fun m => ∃ stored n top, N stored n top ∧ Durable arrivals R whole stored n m ∧
      Process arrivals R (Tally.after R J.ucId arrivals n) n top up m ∧
      (Tally.after R J.ucId arrivals n).log =
        (Tally.after R J.ucId arrivals stored).log ∧
      ∀ i ∈ m.pendingAcks, i < stored)
  · intro m ⟨stored, n, top, hN, hdur, hproc, _, hsent⟩ _
    have hlog : (Tally.after R J.ucId arrivals n).log =
        (Tally.after R J.ucId arrivals stored).log ∧
          m.log = (Tally.after R J.ucId arrivals stored).log ∨
        ∃ r ∈ m.log, ¬Stored r.clientId m := by
      rcases hsent with hquiet | ⟨-, hr⟩
      · exact Or.inl ⟨hquiet, hproc.log.trans hquiet⟩
      · exact Or.inr hr
    refine ⟨⟨stored, n, hdur, hlog⟩, ⟨stored, n, hdur.snapshotted, hlog⟩, ?_⟩
    exact ⟨n, n, top, hsaved stored n top hdur.le hN, hdur.checkpointed hproc.follows hproc.aborted,
      hproc.checkpointed, rfl, fun i hi => (hproc.pending i hi).1⟩
  · intro m ⟨stored, n, top, hN, hdur, hproc, hclean, hsent⟩ hdirty hforce
    refine ⟨stored, n, top, hN, hdur, hproc, ?_, ?_⟩
    · exact hsent.resolve_right fun h => by simp [hforce] at h
    · intro i hi
      rw [hclean hdirty hforce] at hi
      cases hi
  · intro m tags rest ⟨stored, n, top, hN, hdur, hproc, hquiet, hpending⟩ hsplit
    have hmem : ∀ i ∈ tags, i ∈ m.pendingAcks := by
      intro i hi
      rw [hsplit]
      exact List.mem_append_left _ hi
    refine ⟨stored, n, hdur.ackAll le_rfl (by omega) ?_,
      Or.inl ⟨hquiet, hproc.log.trans hquiet⟩⟩
    intro i hi
    exact ⟨(hproc.pending i (hmem i hi)).2, fun hle =>
      absurd (hpending i (hmem i hi)) (by omega)⟩
  · intro m ⟨stored, n, top, hN, hdur, hproc, hquiet, hpending⟩
    have hacked : Durable arrivals R whole stored n (m.ackAll m.pendingAcks) :=
      hdur.ackAll le_rfl (by omega) fun i hi =>
        ⟨(hproc.pending i hi).2, fun hle => absurd (hpending i hi) (by omega)⟩
    refine ⟨stored, n, top, hN, hacked.of_eq rfl rfl rfl rfl fun _ _ _ _ _ hk => hk, ?_,
      hquiet, fun _ => rfl⟩
    exact hproc.of_eq rfl rfl rfl rfl (by simp [Machine.released]) rfl rfl rfl

/-- A flush between two operations. -/
theorem spec_flush_works (force : Bool) (N : ℕ → ℕ → ℕ → Prop)
    (hsaved : ∀ stored n top, stored ≤ n → N stored n top → N n n top) :
    Spec (Works arrivals R whole N up) (Checkpointer.checkpointAndFlush J.provider force)
      (fun _ => Works arrivals R whole N up) (Cut arrivals R whole) := by
  apply (spec_flush force N hsaved).pre
  intro m ⟨stored, n, top, hN, hdur, hproc, hquiet, hclean⟩
  exact ⟨stored, n, top, hN, hdur, hproc, fun hd _ => hclean hd, Or.inl hquiet⟩

/-- Some chunks went out. -/
theorem cut_sent (hdur : Durable arrivals R whole stored n m)
    (hquiet : (Tally.after R J.ucId arrivals n).log =
      (Tally.after R J.ucId arrivals stored).log)
    (hlog : m.log = (Tally.after R J.ucId arrivals n).log)
    (hc : (Tally.after R J.ucId arrivals n).progress c ≠ .finalized)
    (chunks : List (String × Bool)) :
    Cut arrivals R whole (J.sent c chunks (J.taken c m)) := by
  have hdur' : Durable arrivals R whole stored n (J.sent c chunks (J.taken c m)) :=
    hdur.of_eq rfl rfl rfl rfl fun _ _ _ _ _ hk => R.covers_getResponses _ _ _ _ _ hk
  refine ⟨stored, n, hdur', ?_⟩
  cases chunks with
  | nil => exact Or.inl ⟨hquiet, hlog.trans hquiet⟩
  | cons chunk chunks =>
      right
      refine ⟨⟨c, J.ucId, chunk.1, chunk.2⟩, ?_, ?_⟩
      · change _ ∈ List.reverse (List.map _ (chunk :: chunks)) ++ m.log
        simp
      · rw [hdur'.stored_iff]
        exact fun hfin => hc (Tally.finalized_after hdur.le hfin)

variable (arrivals R) in
/-- The process is given a copy: the next one, or one that changes nothing. -/
def At (tag stored n top : ℕ) : Prop :=
  tag = n ∧ top = n + 1 ∨ tag < stored ∧ top = n ∧ Harmless arrivals R n tag

theorem At.saved {tag : ℕ} (h : At arrivals R tag stored n top) (hle : stored ≤ n) :
    At arrivals R tag n n top :=
  h.imp_right fun hold => ⟨hold.1.trans_le hle, hold.2⟩

theorem Works.mono {N' : ℕ → ℕ → ℕ → Prop} (h : Works arrivals R whole N up m)
    (hN : ∀ stored n top, N stored n top → N' stored n top) : Works arrivals R whole N' up m := by
  obtain ⟨stored, n, top, hn, hrest⟩ := h
  exact ⟨stored, n, top, hN stored n top hn, hrest⟩

/-- A finalized client is dropped. -/
theorem Works.discard (h : Works arrivals R whole N up m)
    (hc : c ∈ m.state.counts.finalized) :
    Works arrivals R whole N up (withFn (J.fn.discard c) m) := by
  obtain ⟨stored, n, top, hN, hdur, hproc, hquiet, hclean⟩ := h
  have hfin := (mem_finalized_iff hproc.follows).mp hc
  refine ⟨stored, n, top, hN, hdur.of_eq rfl rfl rfl rfl ?_, ?_, hquiet, hclean⟩
  · intro b x k hb hx hk
    apply R.covers_discard c _ _ _ _ _ hk
    rintro rfl
    apply hx
    exact (hdur.leads b hb).mem_finalized_iff.mpr
      (Tally.finalized_of_log_eq hdur.le hquiet hfin)
  · apply hproc.follow (hproc.follows.changed _) hproc.log rfl rfl rfl rfl rfl
    intro x hx
    apply R.content_discard
    rintro rfl
    exact hx hfin

theorem ackTag_eq (tag : ℕ) (m : JoinNode F S) : m.ackTag tag = m.ackAll [tag] := by
  rw [← List.nil_append [tag], ← Machine.ackTag_ackAll, Machine.ackAll_nil]

/-- An end-of-file that was handled is acknowledged. -/
theorem Works.ackEof {tag : ℕ} {e : ℤ} (h : Works arrivals R whole N up m)
    (htag : arrivals tag = some (.eof c e))
    (hN : ∀ stored n top, N stored n top → tag < n) :
    Works arrivals R whole N up (m.ackTag tag) := by
  obtain ⟨stored, n, top, hn, hdur, hproc, hquiet, hclean⟩ := h
  rw [ackTag_eq]
  refine ⟨stored, n, top, hn, hdur.ackAll le_rfl (by omega) ?_, ?_, hquiet, hclean⟩
  · intro i hi
    rw [List.mem_singleton] at hi
    subst hi
    have hlt := hN stored n top hn
    exact ⟨hdur.seen i hlt (by simp [htag]), fun _ => Or.inr ⟨hlt, c, e, htag⟩⟩
  · exact hproc.of_eq rfl rfl rfl rfl (fun _ h => h) rfl rfl rfl

/-! ### End-of-files -/

section Eof

variable {tag : ℕ} {e : ℤ}

/-- The count of an end-of-file is set. -/
def Expecting (R : Recoverable J.fn unsaved K) (arrivals : ℕ → Option (Message α))
    (whole : Prop) (tag : ℕ) (c : UUID) (e : ℤ) (m : JoinNode F S) : Prop :=
  ∃ stored n top, At arrivals R tag stored n top ∧ Durable arrivals R whole stored n m ∧
    Process arrivals R ((Tally.after R J.ucId arrivals n).expect c e) n top true m ∧
    (Tally.after R J.ucId arrivals n).log = (Tally.after R J.ucId arrivals stored).log ∧
    (m.dirty = false → m.pendingAcks = [])

theorem Expecting.log (h : Expecting R arrivals whole tag c e m) :
    ∃ stored n, Durable arrivals R whole stored n m ∧
      (Tally.after R J.ucId arrivals n).log =
        (Tally.after R J.ucId arrivals stored).log ∧
      m.log = (Tally.after R J.ucId arrivals n).log := by
  obtain ⟨stored, n, top, -, hdur, hproc, hquiet, -⟩ := h
  exact ⟨stored, n, hdur, hquiet, hproc.log.trans (Tally.log_expect e)⟩

/-- Nothing is due, and the end-of-file is acknowledged. -/
theorem Expecting.idle (h : Expecting R arrivals whole tag c e m)
    (htag : arrivals tag = some (.eof c e)) (hidle : ¬Ready c m) :
    Cut arrivals R whole m ∧
      Works arrivals R whole (fun _ n top => n = top) true (m.ackTag tag) := by
  obtain ⟨stored, n, hdur, hquiet, hlog⟩ := h.log
  refine ⟨⟨stored, n, hdur, Or.inl ⟨hquiet, hlog.trans hquiet⟩⟩, ?_⟩
  obtain ⟨stored, n, top, hat, hdur, hproc, hquiet, hclean⟩ := h
  rcases hat with ⟨rfl, rfl⟩ | ⟨hbefore, rfl, hharm⟩
  · -- the end-of-file is the next copy
    have hstep : Tally.after R J.ucId arrivals (tag + 1) =
        (Tally.after R J.ucId arrivals tag).expect c e := by
      rw [Tally.after_succ htag]
      apply Tally.settle_of_not_due
      intro k hdue
      exact hidle ((ready_iff hproc.follows).mpr ⟨k, hdue⟩)
    have htaken := hproc.given tag le_rfl (by omega) (by simp [htag])
    have hdelivered := hdur.taken_delivered htaken
    rw [ackTag_eq]
    refine ⟨stored, tag + 1, tag + 1, rfl, hdur.ackAll (by omega) ?_ ?_, ?_, ?_, hclean⟩
    · intro i hi hi' _
      obtain rfl : i = tag := by omega
      exact ⟨hdelivered, Or.inl (List.mem_singleton_self _)⟩
    · intro i hi
      rw [List.mem_singleton] at hi
      subst hi
      exact ⟨hdelivered, fun _ => Or.inr ⟨by omega, c, e, htag⟩⟩
    · rw [hstep]
      constructor
      · exact hproc.follows.of_eq rfl rfl
      · exact hproc.aborted
      · exact hproc.log
      · intro i hi
        exact ⟨(hproc.pending i hi).1.trans (by omega), (hproc.pending i hi).2⟩
      · exact hproc.taken
      · intro i hi hi'
        omega
      · exact hproc.up_eq
    · rw [hstep, Tally.log_expect]
      exact hquiet
  · -- its client is finalized
    have hfin : (Tally.after R J.ucId arrivals top).progress c = .finalized := by
      rcases hharm with ⟨d, hd, -⟩ | ⟨x, e', hx, hfin⟩
      · rw [htag] at hd
        cases hd
      · rw [htag] at hx
        cases hx
        exact hfin
    rw [Tally.expect_of_finalized e hfin] at hproc
    have hlt : tag < top := hbefore.trans_le hdur.le
    have hworks : Works arrivals R whole (fun _ n top => tag < n ∧ n = top) true m :=
      ⟨stored, top, top, ⟨hlt, rfl⟩, hdur, hproc, hquiet, hclean⟩
    exact (hworks.ackEof htag fun _ _ _ h => h.1).mono fun _ _ _ h => h.2

/-- All that the client waits for arrived, so the end-of-file is the next copy. -/
theorem Expecting.ready (h : Expecting R arrivals whole tag c e m)
    (htag : arrivals tag = some (.eof c e)) (hready : Ready c m) :
    ∃ stored k, Durable arrivals R whole stored tag m ∧
      Process arrivals R ((Tally.after R J.ucId arrivals tag).expect c e) tag (tag + 1)
        true m ∧
      ((Tally.after R J.ucId arrivals tag).expect c e).Due c k ∧
      Tally.after R J.ucId arrivals (tag + 1) =
        ((Tally.after R J.ucId arrivals tag).expect c e).finish R J.ucId c k ∧
      (Tally.after R J.ucId arrivals tag).progress c ≠ .finalized ∧
      (Tally.after R J.ucId arrivals tag).log =
        (Tally.after R J.ucId arrivals stored).log := by
  obtain ⟨stored, n, top, hat, hdur, hproc, hquiet, -⟩ := h
  obtain ⟨k, hdue⟩ := (ready_iff hproc.follows).mp hready
  have hnot : (Tally.after R J.ucId arrivals n).progress c ≠ .finalized := fun hfin =>
    Tally.not_due_of_finalized ((Tally.finalized_expect_iff e).mpr hfin) k hdue
  rcases hat with ⟨rfl, rfl⟩ | ⟨-, -, hharm⟩
  · refine ⟨stored, k, hdur, hproc, hdue, ?_, hnot, hquiet⟩
    rw [Tally.after_succ htag]
    exact Tally.settle_of_due hdue
  · exfalso
    rcases hharm with ⟨d, hd, -⟩ | ⟨x, e', hx, hfin⟩
    · rw [htag] at hd
      cases hd
    · rw [htag] at hx
      cases hx
      exact hnot hfin

/-- The result of a client that is not finalized in the checkpoint was sent. -/
theorem exists_unstored (hdur : Durable arrivals R whole stored n m)
    (hc : (Tally.after R J.ucId arrivals n).progress c ≠ .finalized) :
    ∃ r ∈ (J.resulted c m).log, ¬Stored r.clientId (J.resulted c m) := by
  obtain ⟨chunk, chunks, heq⟩ := List.exists_cons_of_ne_nil
    (J.fn.responses_ne c m.state.fn)
  refine ⟨⟨c, J.ucId, chunk.1, chunk.2⟩, ?_, ?_⟩
  · change _ ∈ List.reverse (List.map _ (J.fn.getResponses c m.state.fn).1) ++ m.log
    rw [heq]
    simp
  · intro hstored
    exact hc (Tally.finalized_after hdur.le (hdur.stored_iff.mp hstored))

theorem Durable.resulted (h : Durable arrivals R whole stored n m) :
    Durable arrivals R whole stored n (J.resulted c m) :=
  h.of_eq rfl rfl rfl rfl fun _ _ _ _ _ hk => R.covers_getResponses _ _ _ _ _ hk

theorem spec_maybeFinalize_eof (htag : arrivals tag = some (.eof c e)) :
    LockSpec false (Expecting R arrivals whole tag c e) (J.maybeFinalize c)
      (fun _ m => Cut arrivals R whole m ∧
        Works arrivals R whole (fun _ n top => n = top) true (m.ackTag tag))
      (Stuck arrivals R whole) (Cut arrivals R whole) := by
  apply spec_maybeFinalize
  · intro m hm hidle
    exact hm.idle htag hidle
  · intro m done rest hm hready _
    obtain ⟨stored, k, hdur, hproc, -, -, hnot, hquiet⟩ := hm.ready htag hready
    exact cut_sent hdur hquiet (hproc.log.trans (Tally.log_expect e)) hnot done
  · apply spec_afterResult
      (R := Works arrivals R whole (fun _ n top => (n = top ∧ tag < n) ∧
        (Tally.after R J.ucId arrivals n).progress c = .finalized) true)
    · apply (spec_flush true _ fun _ _ _ _ h => h).pre
      rintro _ ⟨m, hm, hready, rfl⟩
      obtain ⟨stored, k, hdur, hproc, hdue, hstep, hnot, -⟩ := hm.ready htag hready
      have htaken := hproc.given tag le_rfl (by omega) (by simp [htag])
      have hdelivered := hdur.taken_delivered htaken
      have hfin : (Tally.after R J.ucId arrivals (tag + 1)).progress c = .finalized := by
        rw [hstep]
        exact Tally.progress_setProgress_self _
      refine ⟨stored, tag + 1, tag + 1, ⟨⟨rfl, by omega⟩, hfin⟩, ?_, ?_, by simp,
        Or.inr ⟨rfl, ?_⟩⟩
      · apply (hdur.advance (by omega) _).resulted
        intro i hi hi' _
        obtain rfl : i = tag := by omega
        exact ⟨hdelivered, Or.inr ⟨htaken, Or.inr ⟨c, e, htag, hfin⟩⟩⟩
      · rw [hstep]
        constructor
        · exact hproc.follows.resulted hdue
        · exact hproc.aborted
        · change List.reverse (List.map _ (J.chunks c m)) ++ m.log = _
          rw [chunks_eq hproc.follows hdue, hproc.log]
          rfl
        · intro i hi
          exact ⟨(hproc.pending i hi).1.trans (by omega), (hproc.pending i hi).2⟩
        · exact hproc.taken
        · intro i hi hi'
          omega
        · exact hproc.up_eq
      · exact exists_unstored hdur hnot
    · intro m hm
      have hc : c ∈ m.state.counts.finalized := by
        obtain ⟨_, _, _, ⟨-, hfin⟩, _, hproc, _⟩ := hm
        exact (mem_finalized_iff hproc.follows).mpr hfin
      have hdiscarded := hm.discard hc
      exact ⟨hm.cut, hdiscarded.cut,
        (hdiscarded.ackEof htag fun _ _ _ h => h.1.2).mono fun _ _ _ h => h.1.1⟩

theorem spec_eof (htag : arrivals tag = some (.eof c e)) :
    LockSpec false (Works arrivals R whole (At arrivals R tag) true)
      (J.handleMessage tag (.eof c e))
      (fun _ => Works arrivals R whole (fun _ n top => n = top) true)
      (Stuck arrivals R whole) (Cut arrivals R whole) := by
  apply LockSpec.bind (LockedCheckpointer.spec_flush
    (spec_flush_works false _ fun _ _ _ hle h => At.saved h hle))
  intro _
  apply LockSpec.bind (Q := fun _ m => Cut arrivals R whole m ∧
    Works arrivals R whole (fun _ n top => n = top) true (m.ackTag tag))
  · apply LockSpec.bind _ fun _ => spec_maybeFinalize_eof htag
    apply LockSpec.lift
    apply Spec.modify
    intro m ⟨stored, n, top, hat, hdur, hproc, hquiet, hclean⟩
    refine ⟨stored, n, top, hat, hdur.of_eq rfl rfl rfl rfl fun _ _ _ _ _ hk => hk, ?_,
      hquiet, hclean⟩
    exact hproc.follow (hproc.follows.setExpected e)
      (hproc.log.trans (Tally.log_expect e).symm) rfl rfl rfl rfl rfl
  · intro _
    apply LockSpec.lift
    apply Checkpointer.spec_ack
    · exact fun m hm => hm.1
    · exact fun m hm => hm.2

end Eof

/-! ### Data messages -/

section Data

variable {tag : ℕ} {d : DataMsg α}

/-- A message was accumulated and is not recorded yet. -/
def Collected (R : Recoverable J.fn unsaved K) (arrivals : ℕ → Option (Message α))
    (whole : Prop) (tag : ℕ) (d : DataMsg α) (m : JoinNode F S) : Prop :=
  ∃ stored, Durable arrivals R whole stored tag m ∧
    Process arrivals R ((Tally.after R J.ucId arrivals tag).collect R d) tag (tag + 1)
      true m ∧
    (Tally.after R J.ucId arrivals tag).log =
      (Tally.after R J.ucId arrivals stored).log ∧
    d.identity ∉ (Tally.after R J.ucId arrivals tag).recorded

/-- Nothing is due, and the message is recorded. -/
theorem Collected.idle (h : Collected R arrivals whole tag d m)
    (htag : arrivals tag = some (.data d)) (hseq : d.seq ≠ 0)
    (hidle : ¬Ready d.clientId m) :
    Works arrivals R whole (fun _ n top => n = top) true (m.recorded tag d) := by
  obtain ⟨stored, hdur, hproc, hquiet, hnew⟩ := h
  have hstep : Tally.after R J.ucId arrivals (tag + 1) =
      { (Tally.after R J.ucId arrivals tag).collect R d with
        recorded := insert d.identity (Tally.after R J.ucId arrivals tag).recorded } := by
    rw [Tally.after_succ htag, Tally.step, if_neg hnew, Tally.settle_of_not_due]
    intro k hdue
    exact hidle ((ready_iff hproc.follows).mpr ⟨k, hdue⟩)
  have htaken := hproc.given tag le_rfl (by omega) (by simp [htag])
  have hdelivered := hdur.taken_delivered htaken
  have hseen : Durable arrivals R whole stored (tag + 1) m := by
    apply hdur.advance (by omega)
    intro i hi hi' _
    obtain rfl : i = tag := by omega
    refine ⟨hdelivered, Or.inr ⟨htaken, Or.inl ⟨d, htag, ?_⟩⟩⟩
    rw [hstep]
    exact Set.mem_insert _ _
  refine ⟨stored, tag + 1, tag + 1, rfl,
    hseen.of_eq rfl rfl rfl rfl fun _ _ _ _ _ hk => hk, ?_, ?_, ?_⟩
  · rw [hstep]
    constructor
    · have hrecord := hproc.follows.record hseq tag
      rwa [Tally.recorded_collect] at hrecord
    · exact hproc.aborted
    · exact hproc.log
    · intro i hi
      rcases List.mem_append.mp hi with hi | hi
      · exact ⟨(hproc.pending i hi).1.trans (by omega), (hproc.pending i hi).2⟩
      · rw [List.mem_singleton] at hi
        subst hi
        exact ⟨by omega, hdelivered⟩
    · exact hproc.taken
    · intro i hi hi'
      omega
    · exact hproc.up_eq
  · rw [hstep]
    exact (Tally.log_collect d).trans hquiet
  · intro hdirty
    cases hdirty

/-- The result goes out with the lock held, and the handler waits. -/
theorem Collected.stuck (h : Collected R arrivals whole tag d m)
    (htag : arrivals tag = some (.data d)) (hready : Ready d.clientId m) :
    Stuck arrivals R whole (J.resulted d.clientId m) := by
  obtain ⟨stored, hdur, hproc, -, hnew⟩ := h
  obtain ⟨k, hdue⟩ := (ready_iff hproc.follows).mp hready
  refine ⟨stored, tag, hdur.resulted, by simp [htag],
    hdur.taken_delivered (hproc.given tag le_rfl (by omega) (by simp [htag])),
    hproc.taken, ?_, ?_⟩
  · rw [Tally.after_succ htag, Tally.step, if_neg hnew, Tally.settle_of_due hdue]
    change List.reverse (List.map _ (J.chunks d.clientId m)) ++ m.log = _
    rw [chunks_eq hproc.follows hdue, hproc.log]
    rfl
  · apply exists_unstored hdur
    intro hfin
    exact Tally.not_due_of_finalized ((Tally.finalized_collect_iff d).mpr hfin) k hdue

theorem spec_data (htag : arrivals tag = some (.data d)) (hseq : d.seq ≠ 0) :
    LockSpec false (Works arrivals R whole (At arrivals R tag) true)
      (J.handleMessage tag (.data d))
      (fun _ => Works arrivals R whole (fun _ n top => n = top) true)
      (Stuck arrivals R whole) (Cut arrivals R whole) := by
  apply LockedCheckpointer.spec_handleData
    (R := Works arrivals R whole (fun _ n top => n = top) true)
  · intro m ⟨_, _, _, _, _, hproc, _⟩ haborted
    rw [hproc.aborted] at haborted
    exact absurd haborted (Finset.notMem_empty _)
  · intro m hm _ hrecorded
    refine ⟨hm.cut, ?_⟩
    obtain ⟨stored, n, top, hat, hdur, hproc, hquiet, hclean⟩ := hm
    have hknown := (hproc.follows.recorded _).mp hrecorded
    rw [ackTag_eq]
    rcases hat with ⟨rfl, rfl⟩ | ⟨hbefore, rfl, -⟩
    · -- the next copy is a duplicate
      have hidle : Tally.after R J.ucId arrivals (tag + 1) =
          Tally.after R J.ucId arrivals tag := by
        rw [Tally.after_succ htag, Tally.step_data_of_mem hknown]
      have hdelivered := hdur.taken_delivered
        (hproc.given tag le_rfl (by omega) (by simp [htag]))
      refine ⟨stored, tag + 1, tag + 1, rfl, hdur.ackAll (by omega) ?_ ?_, ?_, ?_, hclean⟩
      · intro i hi hi' _
        obtain rfl : i = tag := by omega
        exact ⟨hdelivered, Or.inl (List.mem_singleton_self _)⟩
      · intro i hi
        rw [List.mem_singleton] at hi
        subst hi
        exact ⟨hdelivered, fun _ => Or.inl hidle⟩
      · rw [hidle]
        constructor
        · exact hproc.follows.of_eq rfl rfl
        · exact hproc.aborted
        · exact hproc.log
        · intro i hi
          exact ⟨(hproc.pending i hi).1.trans (by omega), (hproc.pending i hi).2⟩
        · exact hproc.taken
        · intro i hi hi'
          omega
        · exact hproc.up_eq
      · rw [hidle]
        exact hquiet
    · -- the checkpoint is after the copy
      have hdelivered := hdur.seen tag (hbefore.trans_le hdur.le) (by simp [htag])
      refine ⟨stored, top, top, rfl, hdur.ackAll le_rfl (by omega) ?_, ?_, hquiet, hclean⟩
      · intro i hi
        rw [List.mem_singleton] at hi
        subst hi
        exact ⟨hdelivered, fun hle => absurd hbefore (by omega)⟩
      · exact hproc.of_eq rfl rfl rfl rfl (fun _ h => h) rfl rfl rfl
  · apply LockSpec.bind (Q := fun _ => Collected R arrivals whole tag d)
    · apply LockSpec.lift
      apply Spec.modify
      intro m ⟨⟨stored, n, top, hat, hdur, hproc, hquiet, _⟩, _, hnew⟩
      rw [hproc.follows.recorded] at hnew
      rcases hat with ⟨rfl, rfl⟩ | ⟨-, -, ⟨d', hd', hmem⟩ | ⟨x, e, hx, -⟩⟩
      · refine ⟨stored, hdur.of_eq rfl rfl rfl rfl fun _ _ _ _ _ hk =>
          R.covers_join _ _ _ _ _ hk, ?_, hquiet, hnew⟩
        exact hproc.follow (hproc.follows.joined d)
          (hproc.log.trans (Tally.log_collect d).symm) rfl rfl rfl rfl rfl
      · rw [htag] at hd'
        cases hd'
        exact absurd hmem hnew
      · rw [htag] at hx
        cases hx
    intro _
    apply spec_maybeFinalize
    · intro m hm hidle
      exact hm.idle htag hseq hidle
    · intro m done rest ⟨stored, hdur, hproc, hquiet, _⟩ hready _
      apply cut_sent hdur hquiet (hproc.log.trans (Tally.log_collect d))
      intro hfin
      obtain ⟨k, hdue⟩ := (ready_iff hproc.follows).mp hready
      exact Tally.not_due_of_finalized ((Tally.finalized_collect_iff d).mpr hfin) k hdue
    · apply spec_afterResult_held
      rintro _ ⟨m, hm, hready, rfl⟩
      exact hm.stuck htag hready
  · apply (spec_flush_works false _ fun _ _ _ _ h => h).pre
    exact fun _ hm => hm.1
  · exact fun _ hm _ => hm

end Data

/-! ### Deliveries and starts -/

theorem Durable.deliver (h : Durable arrivals R whole stored n m) (tag : ℕ) :
    Durable arrivals R whole stored n (m.deliver tag) := by
  constructor
  · exact h.le
  · exact h.blank
  · exact h.leads
  · intro i hi hsome
    exact Finset.mem_insert_of_mem (h.seen i hi hsome)
  · exact h.covered
  · intro i hle hi hsome
    exact (h.held i hle hi hsome).imp_right fun hharm =>
      ⟨Finset.mem_insert_of_mem hharm.1, hharm.2⟩
  · exact h.early
  · exact fun i hi => Finset.mem_insert_of_mem (h.acked_delivered hi)
  · exact Finset.insert_subset_insert tag h.taken_delivered
  · intro hw i hi
    rcases Finset.mem_insert.mp hi with rfl | hi
    · exact Finset.mem_union_right _ (Finset.mem_insert_self _ _)
    · rcases Finset.mem_union.mp (h.whole hw hi) with hmem | hmem
      · exact Finset.mem_union_left _ hmem
      · exact Finset.mem_union_right _ (Finset.mem_insert_of_mem hmem)

/-- The copies before the next one that are not seen are acknowledged, and change
nothing. -/
theorem Works.skip {tag : ℕ}
    (hdur : Durable arrivals R whole stored n m) (hn : n ≤ tag)
    (htaken : ∀ i ∈ m.taken, i < n) (horder : InOrder arrivals tag m) :
    Durable arrivals R whole stored tag m ∧
      Tally.after R J.ucId arrivals tag = Tally.after R J.ucId arrivals n := by
  have hacked : ∀ i, n ≤ i → i < tag → (arrivals i).isSome → i ∈ m.acked := by
    intro i hi hi' hsome
    rcases horder i hi' hsome with hmem | hmem
    · exact hmem
    · exact absurd (htaken i hmem) (by omega)
  constructor
  · apply hdur.advance hn
    intro i hi hi' hsome
    exact ⟨hdur.acked_delivered (hacked i hi hi' hsome), Or.inl (hacked i hi hi' hsome)⟩
  · apply Tally.after_eq_of_idle hn
    intro i hi hi' hsome
    rcases hdur.early i (hacked i hi hi' hsome) (hdur.le.trans hi) with heq | ⟨hlt, -⟩
    · exact heq
    · omega

/-- The process is handed a copy that is not acknowledged, in order. -/
theorem Works.deliver {tag : ℕ} {msg : Message α}
    (h : Works arrivals R whole (fun _ n top => n = top) true m)
    (hmsg : arrivals tag = some msg)
    (hcall : Enabled arrivals (.deliver tag) ⟨false, m⟩) :
    Works arrivals R whole (At arrivals R tag) true (m.deliver tag) := by
  obtain ⟨stored, n, _, rfl, hdur, hproc, hquiet, hclean⟩ := h
  obtain ⟨-, -, -, hacked, htaken, horder⟩ := hcall
  have hinsert : ∀ i ∈ (m.deliver tag).taken, i = tag ∨ i < n := fun i hi =>
    (Finset.mem_insert.mp hi).imp_right (hproc.taken i)
  by_cases hlt : tag < n
  · -- a copy that the checkpoint is after
    have hbefore : tag < stored ∧ Harmless arrivals R stored tag := by
      by_cases hstored : tag < stored
      · exact ⟨hstored, (hdur.covered tag hstored (by simp [hmsg])).resolve_left hacked⟩
      · rcases hdur.held tag (by omega) hlt (by simp [hmsg]) with hmem | ⟨hmem, -⟩
        · exact absurd hmem hacked
        · exact absurd hmem htaken
    refine ⟨stored, n, n, Or.inr ⟨hbefore.1, rfl, hbefore.2.mono hdur.le⟩,
      hdur.deliver tag, ?_, hquiet, hclean⟩
    constructor
    · exact hproc.follows.of_eq rfl rfl
    · exact hproc.aborted
    · exact hproc.log
    · intro i hi
      exact ⟨(hproc.pending i hi).1, Finset.mem_insert_of_mem (hproc.pending i hi).2⟩
    · intro i hi
      rcases hinsert i hi with rfl | hin
      · exact hlt
      · exact hin
    · intro i hi hi'
      omega
    · exact hproc.up_eq
  · -- the next copy
    obtain ⟨hskip, hidle⟩ := Works.skip hdur (not_lt.mp hlt) hproc.taken horder
    refine ⟨stored, tag, tag + 1, Or.inl ⟨rfl, rfl⟩, hskip.deliver tag, ?_, ?_, hclean⟩
    · rw [hidle]
      constructor
      · exact hproc.follows.of_eq rfl rfl
      · exact hproc.aborted
      · exact hproc.log
      · intro i hi
        exact ⟨(hproc.pending i hi).1.trans_le (not_lt.mp hlt),
          Finset.mem_insert_of_mem (hproc.pending i hi).2⟩
      · intro i hi
        rcases hinsert i hi with rfl | hin
        · omega
        · omega
      · intro i hi hi' _
        obtain rfl : i = tag := by omega
        exact Finset.mem_insert_self _ _
      · exact hproc.up_eq
    · rw [hidle]
      exact hquiet

theorem spec_receive (habort : ∀ tag c, arrivals tag ≠ some (.abort c))
    (hstamped : ∀ tag d, arrivals tag = some (.data d) → d.seq ≠ 0) (tag : ℕ) :
    LockSpec false
      (fun m => Works arrivals R whole (fun _ n top => n = top) true m ∧
        Enabled arrivals (.deliver tag) ⟨false, m⟩)
      (J.receive tag (arrivals tag))
      (fun _ => Works arrivals R whole (fun _ n top => n = top) true)
      (Stuck arrivals R whole) (Cut arrivals R whole) := by
  cases htag : arrivals tag with
  | none => exact LockSpec.pure fun _ hm => hm.1
  | some msg =>
      apply LockSpec.bind (Q := fun _ => Works arrivals R whole (At arrivals R tag) true)
      · apply LockSpec.lift
        apply Spec.modify
        exact fun m hm => hm.1.deliver htag hm.2
      intro _
      cases msg with
      | eof c e => exact spec_eof htag
      | abort c => exact absurd htag (habort tag c)
      | data d => exact spec_data htag (hstamped tag d htag)

/-- A process that starts knows what its checkpoint is after. -/
theorem spec_start :
    LockSpec false (fun m => Down arrivals R whole m ∧ m.up = false) J.start
      (fun _ => Works arrivals R whole (fun _ n top => n = top) true)
      (Stuck arrivals R whole) (Cut arrivals R whole) := by
  apply LockSpec.bind
    (Q := fun _ => Works arrivals R whole (fun _ n top => n = top) false)
  · apply LockSpec.lift
    apply Checkpointer.spec_restore
    · rintro m ⟨⟨stored, hdur, hlog, _⟩, _⟩
      exact ⟨stored, stored, hdur, Or.inl ⟨rfl, hlog⟩⟩
    · rintro m ⟨⟨stored, hdur, hlog, hboot⟩, hup⟩ hnone
      obtain rfl := hdur.blank hnone
      refine ⟨0, 0, 0, rfl, hdur.of_eq rfl rfl rfl rfl ?_, ?_, rfl, fun _ => hboot.pending⟩
      · intro b c k hb
        rw [hnone] at hb
        cases hb
      · constructor
        · constructor
          · intro c
            obtain ⟨drained, f, hfn⟩ := hboot.fn
            have hcounts : (J.provider.clearStaleSpill m.state).counts = .empty :=
              hboot.counts
            rw [progressOf, hcounts]
            change Progress.counting 0 none
              (R.content (J.fn.provider.clearStaleSpill m.state.fn) c) = _
            rw [hfn, R.content_clear]
            rfl
          · intro id
            change m.dedup.Recorded id ↔ False
            rw [hboot.dedup]
            exact iff_false_intro (Deduplicator.not_recorded_fresh id)
        · exact hboot.aborted
        · exact hlog
        · simp [hboot.pending]
        · simp [hboot.taken]
        · intro i hi hi'
          omega
        · exact hup
    · rintro m b ⟨⟨stored, hdur, hlog, hboot⟩, hup⟩ hb
      have hleads := hdur.leads b hb
      have hrestore : ∀ c k, R.Covers b.state.state m.state.fn c k →
          R.Covers b.state.state (J.fn.provider.restoreState b.state.state m.state.fn) c k ∧
            R.content (J.fn.provider.restoreState b.state.state m.state.fn) c = k := by
        obtain ⟨drained, f, hfn⟩ := hboot.fn
        rw [hfn]
        exact R.covers_restore drained b.state.state f
      refine ⟨stored, stored, stored, rfl, hdur.of_eq rfl rfl rfl rfl ?_, ?_, rfl,
        fun _ => hboot.pending⟩
      · intro b' c k hb' hc hk
        obtain rfl := Option.some.inj (hb.symm.trans hb')
        exact (hrestore c k hk).1
      · constructor
        · constructor
          · intro c
            change (if c ∈ b.state.counts.finalized then _ else Progress.counting _ _
              (R.content (J.fn.provider.restoreState b.state.state m.state.fn) c)) = _
            split
            · rename_i hc
              exact (hleads.finalized c hc).symm
            · rename_i hc
              obtain ⟨k, hp, hk⟩ := hleads.counting c hc
              rw [hp, (hrestore c k hk).2]
              rfl
          · exact hleads.recorded
        · exact hleads.aborted
        · exact hlog
        · intro i hi
          change i ∈ m.pendingAcks at hi
          simp [hboot.pending] at hi
        · intro i hi
          change i ∈ m.taken at hi
          simp [hboot.taken] at hi
        · intro i hi hi'
          omega
        · exact hup
  intro restored
  apply LockSpec.bind
    (Q := fun _ => Works arrivals R whole (fun _ n top => n = top) false)
  · apply LockSpec.when
    · intro _
      apply LockSpec.bind
        (Q := fun _ => Works arrivals R whole (fun _ n top => n = top) false)
      · apply LockSpec.lift
        apply Spec.read_bind
        intro before
        apply Spec.pre (P := fun m =>
          Works arrivals R whole (fun _ n top => n = top) false m ∧
            m.state.counts = before.state.counts)
        · apply (Spec.forEach (I := fun _ m =>
            Works arrivals R whole (fun _ n top => n = top) false m ∧
              m.state.counts = before.state.counts) _ _).post fun _ m hm => hm.1
          intro dropped x rest hsplit
          apply Spec.change
          · exact fun m hm => hm.1.cut
          · rintro m ⟨hm, hcounts⟩
            refine ⟨hm.discard ?_, hcounts⟩
            rw [hcounts, hsplit]
            simp
        · rintro m ⟨rfl, hm⟩
          exact ⟨hm, rfl⟩
      · intro _
        exact LockedCheckpointer.spec_flush (spec_flush_works true _ fun _ _ _ _ h => h)
    · intro _ m hm
      exact hm
  · intro _
    apply LockSpec.lift
    apply Spec.modify
    rintro m ⟨stored, n, top, hN, hdur, hproc, hquiet, hclean⟩
    refine ⟨stored, n, top, hN, hdur.of_eq rfl rfl rfl rfl fun _ _ _ _ _ hk => hk, ?_,
      hquiet, hclean⟩
    exact ⟨hproc.follows.of_eq rfl rfl, hproc.aborted, hproc.log, hproc.pending,
      hproc.taken, hproc.given, rfl⟩

/-- The phases hold in every run whose crashes are safe. -/
theorem rules {crashable : (UUID → ℕ → ℕ) → JoinNode F S → Prop}
    (habort : ∀ tag c, arrivals tag ≠ some (.abort c))
    (hstamped : ∀ tag d, arrivals tag = some (.data d) → d.seq ≠ 0)
    (hcrash : ∀ drained m, crashable drained m → Safe unsaved arrivals drained m ∧ ¬whole) :
    RunRules J arrivals (fun _ _ => True) crashable (phases arrivals R whole) := by
  constructor
  · intro m hm
    refine ⟨hm.cut, ?_⟩
    obtain ⟨_, _, _, _, _, hproc, _⟩ := hm
    exact hproc.up_eq
  · intro m ⟨stored, hdur, hlog, _⟩
    exact ⟨stored, stored, hdur, Or.inl ⟨rfl, hlog⟩⟩
  · intro m ⟨stored, n, hdur, _, _, _, _, hr⟩
    exact ⟨stored, n, hdur, Or.inr hr⟩
  · intro m drained hm hc
    exact hm.reboot (hcrash drained m hc).1 (hcrash drained m hc).2
  · exact spec_start
  · intro tag
    exact (spec_receive habort hstamped tag).pre fun _ hm => ⟨hm.1, hm.2.1⟩

end Redelivery

end JoinRouteHandler
