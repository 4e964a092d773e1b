import MoneyLaundering.Ring.BarrierProgress
import MoneyLaundering.Ring.EofsRead
import MoneyLaundering.Ring.StatelessHistory

/-!
# Stateless stages complete

A ring of stateless nodes sends every shard the right end-of-file at last, if the copies of
a client's messages come to a process of their node that stays up: a node that has read
them all is complete, so it reports, and the barrier closes.
-/

open Crash RingNode

namespace StatelessReplay

variable {F S α β : Type} {C : Controller Unit F S SentCounts α β}
  {arrivals : Unit → ℕ → Option (Message α)} {k n j : ℕ} {c : UUID} {d : DataMsg α}
  {m : Node Unit F S SentCounts β}

/-- No copy of the message comes earlier. -/
def FirstCopy (arrivals : Unit → ℕ → Option (Message α)) (j : ℕ) (d : DataMsg α) : Prop :=
  Carries arrivals ((), j) d ∧
    ∀ i < j, ∀ d', Carries arrivals ((), i) d' → d'.identity ≠ d.identity

theorem exists_firstCopy (hsame : SameMessage arrivals) (hd : Carries arrivals ((), j) d) :
    ∃ i, FirstCopy arrivals i d := by
  classical
  have hex : ∃ i, Carries arrivals ((), i) d := ⟨j, hd⟩
  refine ⟨Nat.find hex, Nat.find_spec hex, fun i hi d' hd' hid => ?_⟩
  refine Nat.find_min hex hi ?_
  rw [← hsame _ _ d' d hd' hd hid]
  exact hd'

/-- Only the clients of an abort are aborted. -/
theorem exists_abort (h : c ∈ (read arrivals n).aborted) :
    ∃ i, arrivals () i = some (.abort c) := by
  revert h
  refine Reader.after_induction (r := Applied.reader α)
    (P := fun s : Applied α => c ∈ s.aborted → ∃ i, arrivals () i = some (.abort c))
    (Nat.zero_le n) (fun h => absurd h (Finset.notMem_empty _)) fun i msg _ hmsg ih h => ?_
  cases msg with
  | eof y e => exact ih h
  | abort y =>
      rcases Finset.mem_insert.mp h with rfl | hold
      · exact ⟨i, hmsg⟩
      · exact ih hold
  | data d' =>
      refine ih ?_
      change c ∈ (Applied.next (.data d') _).aborted at h
      simp only [Applied.next] at h
      split at h <;> exact h

/-- A first copy that was handed over is applied, if its client is not aborted. -/
theorem mem_of_firstCopy (h : Steady C arrivals k n m) (hfirst : FirstCopy arrivals j d)
    (hkept : ∀ i, arrivals () i ≠ some (.abort d.clientId))
    (hread : ((), j) ∈ m.acked ∨ ((), j) ∈ m.taken) :
    ∃ d' ∈ (read arrivals n).msgs, d'.identity = d.identity := by
  have hmsg : arrivals () j = some (.data d) := hfirst.1
  have hknown : ∀ i, (read arrivals i).Knows d →
      ∃ d' ∈ (read arrivals i).msgs, d'.identity = d.identity := fun i hi =>
    hi.resolve_left fun hab => (exists_abort hab).elim fun i' hi' => hkept i' hi'
  rcases lt_or_ge j n with hlt | hge
  · exact hknown n (Applied.knows_of_next (Reader.absorbed_of_lt (r := Applied.reader α)
      hmsg hlt))
  · -- reading it would change nothing, so an earlier copy was read
    have hidle : (Applied.reader α).Idle (arrivals ()) j :=
      hread.elim (h.cursor.covered j (h.cursor.le.trans hge)) (h.cursor.ahead j hge)
    obtain ⟨d', hd', hid⟩ :=
      hknown j (Applied.knows_of_next ((Reader.idle_iff hmsg).mp hidle))
    obtain ⟨i, hi, hcopy⟩ := Applied.mem_arrivals hd'
    exact absurd hid (hfirst.2 i hi d' hcopy)

/-- A node that has read all messages of a client and its end-of-file has emitted it. -/
theorem phase_of_read (hqueue : CountedQueue arrivals) (h : Steady C arrivals k n m)
    (heofs : EofsRead arrivals m.taken m.taken [] m)
    (hkept : ∀ i, arrivals () i ≠ some (.abort c)) {i : ℕ} {e : ℤ}
    (heof : arrivals () i = some (.eof c e))
    (hread : ((), i) ∈ m.acked ∨ ((), i) ∈ m.taken)
    (hcomplete : Complete arrivals c (read arrivals n).msgs) :
    (m.rc.client c).phase ≠ .processing := by
  intro hphase
  have hunaborted : m.rc.isAborted c = false := by
    rw [← Bool.not_eq_true, h.memory.tombs]
    exact fun hab => (exists_abort hab).elim fun i' hi' => hkept i' hi'
  have hexpected : 0 ≤ (m.rc.client c).expected :=
    (heofs.noted ((), i) c ⟨e, heof⟩ hread).resolve_right (by simp [hunaborted])
  obtain ⟨i', hi'⟩ := h.memory.announced c hexpected
  obtain ⟨ids, hcard, hids⟩ := hqueue.counted i' c _ hi'
  have hsub : ids ⊆ ((ofClient c (read arrivals n).msgs).map DataMsg.identity).toFinset := by
    intro id hid
    obtain ⟨j, d, hd, hc, rfl⟩ := (hids id).mp hid
    obtain ⟨d', hd', heq⟩ := hcomplete j d hd hc
    obtain ⟨j', -, hj'⟩ := Applied.mem_arrivals hd'
    have hsame : d' = d := hqueue.same ((), j') ((), j) d' d hj' hd heq
    rw [List.mem_toFinset]
    exact List.mem_map.mpr ⟨d', List.mem_filter.mpr ⟨hd', by simp [hsame, hc]⟩, heq⟩
  have hle : (m.rc.client c).expected ≤ (m.rc.client c).received := by
    rw [h.memory.received c ⟨hphase, hunaborted⟩, hcard, Int.ofNat_le]
    refine (Finset.card_le_card hsub).trans ((List.toFinset_card_le _).trans ?_)
    rw [List.length_map]
  have hready := Client.ready_iff.mpr ⟨hphase, hexpected, hle⟩
  exact absurd (heofs.quiet c hready) List.not_mem_nil

end StatelessReplay

namespace AffinityRing

open StatelessReplay

variable {α β : Type} {R : AffinityRing Unit Unit Unit SentCounts α β} {c : UUID}

/-- The process of the node is up, and got the copy or does not need it any more. -/
def HasRead (s : ℕ → Node Unit Unit Unit SentCounts β) (p i : ℕ) : Prop :=
  (s p).up = true ∧ (((), i) ∈ (s p).acked ∨ ((), i) ∈ (s p).taken)

instance (s : ℕ → Node Unit Unit Unit SentCounts β) (p i : ℕ) :
    Decidable (HasRead s p i) :=
  inferInstanceAs (Decidable (_ ∧ _))

/-- Every copy of the client's messages and end-of-files comes at last to a process that
stays up. -/
structure CopiesArrive (course : R.Course) (c : UUID) : Prop where
  data : ∀ p ∈ R.ids, ∀ i d, Carries (R.arrivals p) ((), i) d → d.clientId = c →
    ∀ᶠ n in Filter.atTop, HasRead (course.state n) p i
  eof : ∀ p ∈ R.ids, ∀ i k, R.arrivals p () i = some (.eof c k) →
    ∀ᶠ n in Filter.atTop, HasRead (course.state n) p i

/-- A node of a stateless stage gets past processing for good, and has published what the
client's messages make. -/
theorem eventually_complete (hring : StatelessRing R) (hsetup : StatelessSetup R)
    (hkept : ∀ p ∈ R.ids, ∀ q i, R.arrivals p q i ≠ some (.abort c))
    {course : R.Course} (hcopies : CopiesArrive course c) {p : ℕ} (hp : p ∈ R.ids)
    (heofs : ∃ i k, R.arrivals p () i = some (.eof c k)) :
    ∀ᶠ n in Filter.atTop, ((course.state n p).rc.client c).phase ≠ .processing ∧
      ∃ ds, PublishesOutputs (R.node p) (R.arrivals p) c ds (course.state n p).log := by
  have hqueue := hsetup.queues p hp
  obtain ⟨i, e, heof⟩ := heofs
  obtain ⟨ids, -, hids⟩ := hqueue.counted i c e heof
  have hall : ∀ᶠ n in Filter.atTop, ∀ id ∈ ids, ∃ j d, FirstCopy (R.arrivals p) j d ∧
      d.clientId = c ∧ d.identity = id ∧ HasRead (course.state n) p j := by
    refine (Filter.eventually_all_finset _).mpr fun id hid => ?_
    obtain ⟨j, d, hd, hc, rfl⟩ := (hids id).mp hid
    obtain ⟨j', hfirst⟩ := exists_firstCopy hqueue.same hd
    filter_upwards [hcopies.data p hp j' d hfirst.1 hc] with n hn
    exact ⟨j', d, hfirst, hc, rfl, hn⟩
  filter_upwards [hall, hcopies.eof p hp i e heof] with n hfirsts hlast
  have hreach := (course.reach n).component p
  have hnotes : ∀ q x k e, (R.node p).noteEof q x k e = (some k, e) :=
    fun _ x k e => (hring.node hp).stateless.notes x k e
  have hcounts : ∀ q i x k, R.arrivals p q i = some (.eof x k) → 0 ≤ k := by
    intro _ i x k hk
    obtain ⟨ids, hk', -⟩ := hqueue.counted i x k hk
    exact hk' ▸ Int.natCast_nonneg _
  have heofs := (eofsRead_reach hnotes hcounts hreach).live hlast.1
  rw [hsetup.fifo] at hreach
  obtain ⟨k, n', hsteady⟩ := (inv_reach (hring.node hp).stateless hqueue hreach).live hlast.1
  have hcomplete : Complete (R.arrivals p) c (read (R.arrivals p) n').msgs := by
    intro j d hd hc
    obtain ⟨j', d', hfirst, hc', hid, hj'⟩ := hfirsts _ ((hids _).mpr ⟨j, d, hd, hc, rfl⟩)
    rw [← hid]
    exact mem_of_firstCopy hsteady hfirst (fun i => hc' ▸ hkept p hp () i) hj'.2
  refine ⟨?_, _, hcomplete.publishesOutputs (hring.node hp).stateless hqueue
    hsteady.justified hsteady.logged⟩
  exact phase_of_read hqueue hsteady heofs (fun i => hkept p hp () i) heof hlast.2 hcomplete

/-- So do all nodes, and then the leader sends the end-of-files. -/
theorem eventually_complete_and_ended (hring : StatelessRing R) (hsetup : StatelessSetup R)
    (hne : R.ids ≠ []) (hwired : R.Wired)
    (hkept : ∀ p ∈ R.ids, ∀ q i, R.arrivals p q i ≠ some (.abort c))
    (heofs : ∀ p ∈ R.ids, ∃ i k, R.arrivals p () i = some (.eof c k))
    {course : R.Course} (htokens : TokensArrive course c) (hcopies : CopiesArrive course c) :
    ∀ᶠ n in Filter.atTop, R.Ended c (course.state n) ∧ ∀ p ∈ R.ids,
      ∃ ds, PublishesOutputs (R.node p) (R.arrivals p) c ds (course.state n p).log := by
  have hcomplete := fun p hp => eventually_complete hring hsetup hkept hcopies hp (heofs p hp)
  have houtputs : ∀ᶠ n in Filter.atTop, ∀ p ∈ R.ids.toFinset,
      ∃ ds, PublishesOutputs (R.node p) (R.arrivals p) c ds (course.state n p).log :=
    (Filter.eventually_all_finset _).mpr fun p hp =>
      (hcomplete p (List.mem_toFinset.mp hp)).mono fun _ h => h.2
  have hended := eventually_ended hne hwired hkept htokens fun p hp =>
    (hcomplete p hp).mono fun _ h => h.1
  filter_upwards [hended, houtputs] with n hn hds
  exact ⟨hn, fun p hp => hds p (List.mem_toFinset.mpr hp)⟩

/-- An end-of-file carries the number of the outputs. -/
theorem eof_eq_outputs (hring : StatelessRing R) (hsetup : StatelessSetup R)
    {s : ℕ → Node Unit Unit Unit SentCounts β} (h : R.runs.Visits R.initial s)
    {shard k p : ℕ} (hp : p ∈ R.ids) (heof : .eof shard c k ∈ (s p).log)
    {ds : ℕ → List (DataMsg α)}
    (hds : ∀ q ∈ R.ids, PublishesOutputs (R.node q) (R.arrivals q) c (ds q) (s q).log) :
    k = (R.ids.map fun q =>
      (sentTo shard ((ds q).flatMap (R.node q).outputs)).length).sum := by
  obtain ⟨sent, hsent, rfl⟩ := eof_eq_sum h hp heof
  refine congrArg List.sum (List.map_congr_left fun q hq => ?_)
  rw [(justified_node hring hsetup h hq).counts (hring.node hq).stateless
    (hsetup.queues q hq) (hsent q hq), (hds q hq).card_distinctOn]

/-- Once the client is ended, every shard is told the number of the outputs. -/
theorem eofs_of_ended (hring : StatelessRing R) (hsetup : StatelessSetup R)
    (hne : R.ids ≠ []) {course : R.Course} {n : ℕ} (hended : R.Ended c (course.state n))
    (houtputs : ∀ p ∈ R.ids,
      ∃ ds, PublishesOutputs (R.node p) (R.arrivals p) c ds (course.state n p).log) :
    ∃ ds : ℕ → List (DataMsg α),
      (∀ p ∈ R.ids, PublishesOutputs (R.node p) (R.arrivals p) c (ds p)
        (course.state n p).log) ∧
      ∀ shard < (R.node R.leader).nShards,
        .eof shard c (R.ids.map fun p =>
          (sentTo shard ((ds p).flatMap (R.node p).outputs)).length).sum ∈
            (course.state n R.leader).log := by
  choose! ds hds using houtputs
  refine ⟨ds, hds, fun shard hshard => ?_⟩
  obtain ⟨x, hx⟩ := List.exists_mem_of_ne_nil R.ids hne
  obtain ⟨k, hk⟩ := hended shard hshard
  rwa [eof_eq_outputs hring hsetup (.idle _ (course.reach n)) (leader_mem hx) hk hds] at hk

/-- A stateless stage completes.  In a ring of stateless nodes, whatever crashes fall: if
every queue has an end-of-file of the client and no abort, the copies come at last to
processes that stay up, and tokens that were passed on are handled to their end, then from
some turn on every node has published exactly what the distinct messages of the client make,
and every shard has an end-of-file with the number of these outputs. -/
theorem stateless_stage_completes (hring : StatelessRing R) (hsetup : StatelessSetup R)
    (hne : R.ids ≠ []) (hwired : R.Wired)
    (hkept : ∀ p ∈ R.ids, ∀ q i, R.arrivals p q i ≠ some (.abort c))
    (heofs : ∀ p ∈ R.ids, ∃ i k, R.arrivals p () i = some (.eof c k))
    (course : R.Course) (htokens : TokensArrive course c)
    (hcopies : CopiesArrive course c) :
    ∀ᶠ n in Filter.atTop, ∃ ds : ℕ → List (DataMsg α),
      (∀ p ∈ R.ids, PublishesOutputs (R.node p) (R.arrivals p) c (ds p)
        (course.state n p).log) ∧
      ∀ shard < (R.node R.leader).nShards,
        .eof shard c (R.ids.map fun p =>
          (sentTo shard ((ds p).flatMap (R.node p).outputs)).length).sum ∈
            (course.state n R.leader).log :=
  (eventually_complete_and_ended hring hsetup hne hwired hkept heofs htokens hcopies).mono
    fun _ h => eofs_of_ended hring hsetup hne h.1 h.2

/-- The two splitters, one of which crashes between the two outputs of its message. -/
def splittingCourse : twoSplitters.Course :=
  System.Course.ofMoves twoSplitters.runs crashedSplit twoSplitters.initial

/-- The script ends with both nodes up, and each has read both of its copies. -/
theorem crashedSplit_plays : ∃ s,
    twoSplitters.runs.playAll crashedSplit twoSplitters.initial = some s ∧
      ∀ p ∈ twoSplitters.ids, ∀ i < (2 : ℕ), HasRead s p i := by
  have hplays : (twoSplitters.runs.playAll crashedSplit twoSplitters.initial).map
      (fun s => decide (∀ p ∈ twoSplitters.ids, ∀ i < (2 : ℕ), HasRead s p i)) =
        some true := by decide
  obtain ⟨s, hs, hobs⟩ := Option.map_eq_some_iff.mp hplays
  exact ⟨s, hs, of_decide_eq_true hobs⟩

theorem tokensArrive_splittingCourse : TokensArrive splittingCourse 7 := by
  obtain ⟨s, hs, -⟩ := crashedSplit_plays
  refine tokensArrive_ofMoves hs [⟨7, 0, halfToken, 8⟩, ⟨8, 1, wholeToken, 9⟩]
    (by decide) fun h hmem => ?_
  rcases List.mem_cons.mp hmem with rfl | hmem
  · exact ⟨by decide, rfl⟩
  · rw [List.mem_singleton.mp hmem]
    exact ⟨by decide, rfl⟩

/-- In a script that ends with all copies read, they all arrive. -/
theorem copiesArrive_ofMoves [DecidableEq β]
    {moves : List (System.Move (ℕ × Call Unit) (UUID → ℕ → ℕ))}
    {s : ℕ → Node Unit Unit Unit SentCounts β}
    (hs : R.runs.playAll moves R.initial = some s)
    (hread : ∀ p ∈ R.ids, ∀ i, (R.arrivals p () i).isSome → HasRead s p i) :
    CopiesArrive (System.Course.ofMoves R.runs moves R.initial) c := by
  have hlater : ∀ p ∈ R.ids, ∀ i, (R.arrivals p () i).isSome → ∀ᶠ n in Filter.atTop,
      HasRead ((System.Course.ofMoves R.runs moves R.initial).state n) p i := by
    refine fun p hp i hi => System.Course.eventually (n := moves.length)
      (P := fun s => HasRead s p i) _ fun k hk => ?_
    have hstate : (System.Course.ofMoves R.runs moves R.initial).state k = s :=
      System.stateAfter_of_le hs hk
    rw [hstate]
    exact hread p hp i hi
  exact ⟨fun p hp i d hd _ => hlater p hp i (Option.isSome_of_eq_some hd),
    fun p hp i k hk => hlater p hp i (Option.isSome_of_eq_some hk)⟩

theorem lt_two_of_isSome {p i : ℕ} (h : (twoSplitters.arrivals p () i).isSome) : i < 2 := by
  match i, h with
  | 0, _ => decide
  | 1, _ => decide

theorem copiesArrive_splittingCourse : CopiesArrive splittingCourse 7 := by
  obtain ⟨s, hs, hread⟩ := crashedSplit_plays
  exact copiesArrive_ofMoves hs fun p hp i hi => hread p hp i (lt_two_of_isSome hi)

/-- Both nodes publish the two outputs of their message, and each shard is told of two. -/
theorem stateless_stage_completes_splittingCourse :
    ∀ᶠ n in Filter.atTop, ∃ ds : ℕ → List (DataMsg ℕ),
      (∀ p ∈ twoSplitters.ids, PublishesOutputs (twoSplitters.node p)
        (twoSplitters.arrivals p) 7 (ds p) (splittingCourse.state n p).log) ∧
      ∀ shard < (twoSplitters.node twoSplitters.leader).nShards,
        .eof shard 7 (twoSplitters.ids.map fun p =>
          (sentTo shard ((ds p).flatMap (twoSplitters.node p).outputs)).length).sum ∈
            (splittingCourse.state n twoSplitters.leader).log := by
  refine stateless_stage_completes statelessRing_twoSplitters statelessSetup_twoSplitters
    (List.cons_ne_nil _ _) (wired_of_pair rfl fun _ => rfl) (fun p _ q i heq => ?_)
    (fun p _ => ⟨1, 1, rfl⟩) splittingCourse tokensArrive_splittingCourse
    copiesArrive_splittingCourse
  match i with
  | 0 => cases heq
  | 1 => cases heq
  | _ + 2 => cases heq

end AffinityRing
