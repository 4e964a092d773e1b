import Mathlib.Order.Interval.Finset.Nat
import MoneyLaundering.Client.Responses
import MoneyLaundering.Join.Redelivery

/-!
# The client gets each result once

A run whose crashes are all in safe states leads to the same responses as a run without
crashes, when both were given the same messages.  A crash between the first chunk of a
result and the checkpoint that has its client finalized sends the result again.
-/

open Crash LockProg ClientResponses

namespace JoinRouteHandler

variable {F S α K : Type} {J : JoinRouteHandler F S α}
  {unsaved : (UUID → ℕ → ℕ) → S → F → UUID → Prop} {arrivals : ℕ → Option (Message α)}

namespace Redelivery

variable {R : Recoverable J.fn unsaved K} {whole : Prop} {m m' : JoinNode F S} {n n' : ℕ}
  {c : UUID}

variable (arrivals R) in
/-- What was sent is what the first `n` copies make, and the copies after them that are
acknowledged change nothing. -/
structure Outcome (n : ℕ) (m : JoinNode F S) : Prop where
  log : m.log = (Tally.after R J.ucId arrivals n).log
  seen : ∀ i < n, (arrivals i).isSome → i ∈ m.delivered
  taken : ∀ i ∈ m.taken, i < n
  idle : ∀ i ∈ m.acked, n ≤ i →
    Tally.after R J.ucId arrivals (i + 1) = Tally.after R J.ucId arrivals i

/-- A handler is where the first copies of its queue lead, and in a run without crashes it
still has all that it was handed. -/
theorem exists_outcome {s : Locked (JoinNode F S)}
    (h : Between (phases arrivals R whole) s) :
    (∃ n, Outcome arrivals R n s.inner) ∧
      (whole → s.inner.delivered ⊆ s.inner.acked ∪ s.inner.taken) := by
  have hidle : ∀ {stored n : ℕ} {m : JoinNode F S},
      Durable arrivals R whole stored n m → ∀ i ∈ m.acked, n ≤ i →
        Tally.after R J.ucId arrivals (i + 1) = Tally.after R J.ucId arrivals i := by
    intro stored n m hdur i hi hle
    rcases hdur.early i hi (hdur.le.trans hle) with heq | ⟨hlt, -⟩
    · exact heq
    · omega
  cases hheld : s.held with
  | true =>
      obtain ⟨stored, n, hdur, hsome, hn, htaken, hlog, -⟩ := h.stuck hheld
      refine ⟨⟨n + 1, hlog, ?_, htaken, fun i hi hle => hidle hdur i hi (by omega)⟩,
        hdur.whole⟩
      intro i hi hsome'
      by_cases hin : i = n
      · rw [hin]
        exact hn
      · exact hdur.seen i (by omega) hsome'
  | false =>
      cases hup : s.inner.up with
      | true =>
          obtain ⟨stored, n, _, rfl, hdur, hproc, -, -⟩ := h.live hheld hup
          exact ⟨⟨n, hproc.log, hdur.seen, hproc.taken, hidle hdur⟩, hdur.whole⟩
      | false =>
          obtain ⟨stored, hdur, hlog, hboot⟩ := h.down hheld hup
          exact ⟨⟨stored, hlog, hdur.seen, by simp [hboot.taken], hidle hdur⟩, hdur.whole⟩

/-- Of two handlers that were given the same copies, the one that is further on sent no
more. -/
theorem Outcome.log_eq_of_le (h : Outcome arrivals R n m) (h' : Outcome arrivals R n' m')
    (hle : n ≤ n') (hsame : m'.delivered ⊆ m.delivered)
    (hall : m.delivered ⊆ m.acked ∪ m.taken) : m'.log = m.log := by
  rw [h.log, h'.log]
  apply congrArg Tally.log
  apply Tally.after_eq_of_idle hle
  intro i hi hi' hsome
  rcases Finset.mem_union.mp (hall (hsame (h'.seen i hi' hsome))) with hacked | htaken
  · exact h.idle i hacked hi
  · exact absurd (h.taken i htaken) (by omega)

theorem Outcome.log_eq (h : Outcome arrivals R n m) (h' : Outcome arrivals R n' m')
    (hsame : m.delivered = m'.delivered) (hall : m.delivered ⊆ m.acked ∪ m.taken)
    (hall' : m'.delivered ⊆ m'.acked ∪ m'.taken) : m.log = m'.log := by
  rcases le_total n n' with hle | hle
  · exact (h.log_eq_of_le h' hle (subset_of_eq hsame.symm) hall).symm
  · exact h'.log_eq_of_le h hle (subset_of_eq hsame) hall'

end Redelivery

/-- The responses that a client was sent, oldest first. -/
def sentTo (c : UUID) (m : JoinNode F S) : List Response :=
  (m.log.filter fun r => r.clientId = c).reverse

/-- What the client writes of its use case `u`, from the responses it receives. -/
def written (nresponses u : ℕ) (rs : List Response) : String :=
  (receiveAndWrite nresponses rs .empty).text u

theorem lastEnds_of_oneLast {c : UUID} {u : ℕ} {chunks : List (String × Bool)}
    (h : chunks = [] ∨ OneLast chunks) : LastEnds (responsesOf c u chunks).reverse := by
  rw [responsesOf, List.reverse_reverse]
  rcases h with rfl | ⟨init, final, rfl⟩
  · exact lastEnds_nil
  · induction init with
    | nil => exact lastEnds_singleton _
    | cons text init ih => exact ih.cons rfl

/-- A client that receives the responses of its use case writes their bodies. -/
theorem written_eq {R : Recoverable J.fn unsaved K} {n nresponses : ℕ} {c : UUID}
    {m : JoinNode F S} (hm : m.log = (Tally.after R J.ucId arrivals n).log)
    {rs : List Response} (hids : ∀ r ∈ rs, r.ucId ∈ Finset.Icc 1 nresponses)
    (hrs : ofUc J.ucId rs = sentTo c m) :
    written nresponses J.ucId rs = bodies "" (sentTo c m) := by
  have hlast : LastEnds (ofUc J.ucId rs) := by
    have htold : (Tally.after R J.ucId arrivals n).Told J.ucId c := Tally.told_after
    obtain ⟨-, chunks, hchunks, hlog⟩ := htold
    rw [hrs, sentTo, hm, hlog]
    exact lastEnds_of_oneLast hchunks
  have hcard : (Finset.Icc 1 nresponses).card = nresponses := by rw [Nat.card_Icc]; omega
  have htext := text_receiveAndWrite hids Written.within_empty (by simp [Written.empty]) hlast
  rw [hcard, hrs] at htext
  exact htext

/-- In every run whose crashes are all in safe states, once the handler was given again
all that it was given before, a client was sent the same responses and writes the same
text as in a run without crashes that was given the same messages. -/
theorem responses_once (huc : UseCase J.fn unsaved) (arrivals : ℕ → Option (Message α))
    (habort : ∀ tag c, arrivals tag ≠ some (.abort c))
    (hstamped : ∀ tag d, arrivals tag = some (.data d) → d.seq ≠ 0)
    (drained : UUID → ℕ → ℕ) (f : F) {s s' : Locked (JoinNode F S)}
    (h : (J.system arrivals (fun _ _ => True) (Safe unsaved arrivals)).Reach
      (fresh (J.fn.provider.fresh drained f)) s)
    (h' : (J.system arrivals (fun _ _ => True) fun _ _ => False).Reach
      (fresh (J.fn.provider.fresh drained f)) s')
    (hsame : s.inner.delivered = s'.inner.delivered)
    (hagain : s.inner.delivered ⊆ s.inner.acked ∪ s.inner.taken)
    (c : UUID) {nresponses : ℕ} {rs rs' : List Response}
    (hids : ∀ r ∈ rs ++ rs', r.ucId ∈ Finset.Icc 1 nresponses)
    (hrs : ofUc J.ucId rs = sentTo c s.inner)
    (hrs' : ofUc J.ucId rs' = sentTo c s'.inner) :
    sentTo c s.inner = sentTo c s'.inner ∧
      written nresponses J.ucId rs = written nresponses J.ucId rs' := by
  obtain ⟨K, ⟨R⟩⟩ := huc.recoverable
  have hstart (whole : Prop) : Between (Redelivery.phases arrivals R whole)
      (fresh (J.fn.provider.fresh drained f)) := by
    apply between_fresh
    refine ⟨0, ?_, rfl, ⟨rfl, rfl, rfl, rfl, rfl, drained, f, rfl⟩⟩
    constructor
    · exact le_rfl
    · exact fun _ => rfl
    · intro b hb
      cases hb
    · intro i hi
      omega
    · intro i hi
      omega
    · intro i _ hi
      omega
    · exact fun i hi => absurd hi (Finset.notMem_empty i)
    · exact Finset.Subset.refl _
    · exact Finset.Subset.refl _
    · exact fun _ => Finset.empty_subset _
  have hrules : RunRules J arrivals (fun _ _ => True) (Safe unsaved arrivals)
      (Redelivery.phases arrivals R False) :=
    Redelivery.rules habort hstamped fun _ _ hm => ⟨hm, not_false⟩
  have hrules' : RunRules J arrivals (fun _ _ => True) (fun _ _ => False)
      (Redelivery.phases arrivals R True) :=
    Redelivery.rules habort hstamped fun _ _ hm => hm.elim
  obtain ⟨⟨n, hn⟩, -⟩ := Redelivery.exists_outcome (hrules.reach (hstart False) h)
  obtain ⟨⟨n', hn'⟩, hwhole⟩ := Redelivery.exists_outcome (hrules'.reach (hstart True) h')
  have hsent : sentTo c s.inner = sentTo c s'.inner := by
    rw [sentTo, sentTo, hn.log_eq hn' hsame hagain (hwhole trivial)]
  refine ⟨hsent, ?_⟩
  rw [written_eq hn.log (fun r hr => hids r (List.mem_append_left _ hr)) hrs,
    written_eq hn'.log (fun r hr => hids r (List.mem_append_right _ hr)) hrs', hsent]

/-- A message of client `7` and its end-of-file. -/
def onceArrivals : ℕ → Option (Message ℕ)
  | 0 => some (.data ⟨7, 3, 1, 40⟩)
  | 1 => some (.eof 7 1)
  | _ => none

/-- The runs of the handler that counts. -/
def onceRuns (crashable : (UUID → ℕ → ℕ) → JoinNode (Dict UUID ℕ) (Dict UUID ℕ) → Prop) :
    System Effect (Locked (JoinNode (Dict UUID ℕ) (Dict UUID ℕ))) Call
      (UUID → ℕ → ℕ) :=
  uc5Handler.system onceArrivals (fun _ _ => True) crashable

instance (c : UUID) (m : JoinNode F S) : Decidable (Stored c m) :=
  decidable_of_iff (m.store.any fun b => c ∈ b.state.counts.finalized) (by
    cases h : m.store <;> simp [Stored, h])

instance (c : UUID) (expected : ℤ) (m : JoinNode F S) :
    Decidable (Announced c expected m) :=
  decidable_of_iff (m.store.any fun b =>
    decide (b.state.counts.expected.get? c = some expected)) (by
    cases h : m.store <;> simp [Announced, h])

instance (m : JoinNode F S) (tag : ℕ) : Decidable (EofKept arrivals m tag) := by
  unfold EofKept
  split <;> infer_instance

instance (drained : UUID → ℕ → ℕ) (m : JoinNode (Dict UUID ℕ) (Dict UUID ℕ)) :
    Decidable (Safe noUnsaved onceArrivals drained m) :=
  decidable_of_iff ((∀ r ∈ m.log, Stored r.clientId m) ∧
    ∀ tag ∈ m.acked, EofKept onceArrivals m tag)
    ⟨fun h => ⟨h.1, h.2, fun _ _ _ _ => not_false⟩, fun h => ⟨h.sent, h.eofs⟩⟩

instance (crashable : (UUID → ℕ → ℕ) → JoinNode (Dict UUID ℕ) (Dict UUID ℕ) → Prop)
    (call : Call) : DecidablePred ((onceRuns crashable).enabled call) := fun s =>
  inferInstanceAs (Decidable (Enabled onceArrivals call s ∧ True))

instance (crashable : (UUID → ℕ → ℕ) → JoinNode (Dict UUID ℕ) (Dict UUID ℕ) → Prop)
    [∀ drained, DecidablePred (crashable drained)] (call : Call) (drained : UUID → ℕ → ℕ) :
    DecidablePred ((onceRuns crashable).crashable call drained) := fun s =>
  inferInstanceAs (Decidable (crashable drained s.inner))

/-- The message and the end-of-file are handled. -/
def plainRun : List (System.Move Call (UUID → ℕ → ℕ)) :=
  [.finish .start, .finish (.deliver 0), .finish (.deliver 1)]

/-- A crash before the result is sent, and one after the checkpoint has the client. -/
def safeRun : List (System.Move Call (UUID → ℕ → ℕ)) :=
  [.finish .start, .finish (.deliver 0), .crash (.deliver 1) (fun _ _ => 0) 0,
    .finish .start, .crash (.deliver 1) (fun _ _ => 0) 4, .finish .start,
    .finish (.deliver 1)]

/-- A crash after the result is sent, before the checkpoint. -/
def resentRun : List (System.Move Call (UUID → ℕ → ℕ)) :=
  [.finish .start, .finish (.deliver 0), .crash (.deliver 1) (fun _ _ => 0) 1,
    .finish .start, .finish (.deliver 1)]

/-- The result of the client. -/
def onceResult : Response := ⟨7, 5, "--- UC5 ---\ncount: 40\n", true⟩

theorem plain_ends : ∃ s : Locked (JoinNode (Dict UUID ℕ) (Dict UUID ℕ)),
    (onceRuns fun _ _ => False).Reach (fresh Dict.empty) s ∧
      s.inner.delivered = {0, 1} ∧ s.inner.log = [onceResult] := by
  have hplays : ((onceRuns fun _ _ => False).playAll plainRun (fresh Dict.empty)).any
      (fun s => decide (s.inner.delivered = {0, 1} ∧ s.inner.log = [onceResult])) =
        true := by decide
  obtain ⟨s, hs, hobs⟩ := (Option.any_eq_true _ _).mp hplays
  exact ⟨s, System.reach_of_playAll hs, of_decide_eq_true hobs⟩

/-- Two crashes in safe states, and the client receives its result once. -/
theorem responses_once_safeRun : ∃ s s' : Locked (JoinNode (Dict UUID ℕ) (Dict UUID ℕ)),
    (onceRuns (Safe noUnsaved onceArrivals)).Reach (fresh Dict.empty) s ∧
    (onceRuns fun _ _ => False).Reach (fresh Dict.empty) s' ∧
    s.inner.delivered = s'.inner.delivered ∧ s.inner.log = [onceResult] ∧
    (sentTo 7 s.inner = sentTo 7 s'.inner ∧
      written 5 5 (sentTo 7 s.inner) = written 5 5 (sentTo 7 s'.inner)) := by
  have hplays : ((onceRuns (Safe noUnsaved onceArrivals)).playAll safeRun
      (fresh Dict.empty)).any (fun s => decide (s.inner.delivered = {0, 1} ∧
        s.inner.acked ∪ s.inner.taken = {0, 1} ∧ s.inner.log = [onceResult])) = true := by
    decide
  obtain ⟨s, hs, hobs⟩ := (Option.any_eq_true _ _).mp hplays
  obtain ⟨hdelivered, hagain, hlog⟩ := of_decide_eq_true hobs
  obtain ⟨s', hs', hdelivered', hlog'⟩ := plain_ends
  have hsent : sentTo 7 s.inner = [onceResult] := by
    rw [sentTo, hlog]
    rfl
  have hsent' : sentTo 7 s'.inner = [onceResult] := by
    rw [sentTo, hlog']
    rfl
  have hreach := System.reach_of_playAll hs
  refine ⟨s, s', hreach, hs', hdelivered.trans hdelivered'.symm, hlog, ?_⟩
  apply responses_once .uc5 onceArrivals _ _ (fun _ _ => 0) Dict.empty hreach hs'
    (hdelivered.trans hdelivered'.symm) (hdelivered.trans hagain.symm).subset 7
  · intro r hr
    rw [hsent, hsent'] at hr
    simp only [List.mem_append, List.mem_singleton, or_self] at hr
    rw [hr]
    decide
  · rw [hsent]
    rfl
  · rw [hsent']
    rfl
  · intro tag c heq
    match tag, heq with
    | 0, h => cases h
    | 1, h => cases h
  · intro tag d heq
    match tag, heq with
    | 0, h =>
      cases h
      decide
    | 1, h => cases h

/-- The process crashes after the chunk was sent and before the checkpoint: the
end-of-file comes again, and the client receives and writes its result twice. -/
theorem not_once_resentRun : ∃ s s' : Locked (JoinNode (Dict UUID ℕ) (Dict UUID ℕ)),
    (onceRuns fun _ _ => True).Reach (fresh Dict.empty) s ∧
    (onceRuns fun _ _ => False).Reach (fresh Dict.empty) s' ∧
    s.inner.delivered = s'.inner.delivered ∧
    s.inner.delivered ⊆ s.inner.acked ∪ s.inner.taken ∧
    sentTo 7 s.inner = [onceResult, onceResult] ∧ sentTo 7 s'.inner = [onceResult] ∧
    written 5 5 (sentTo 7 s.inner) ≠ written 5 5 (sentTo 7 s'.inner) := by
  have hplays : ((onceRuns fun _ _ => True).playAll resentRun (fresh Dict.empty)).any
      (fun s => decide (s.inner.delivered = {0, 1} ∧
        s.inner.acked ∪ s.inner.taken = {0, 1} ∧
        s.inner.log = [onceResult, onceResult])) = true := by decide
  obtain ⟨s, hs, hobs⟩ := (Option.any_eq_true _ _).mp hplays
  obtain ⟨hdelivered, hagain, hlog⟩ := of_decide_eq_true hobs
  obtain ⟨s', hs', hdelivered', hlog'⟩ := plain_ends
  have hsent : sentTo 7 s.inner = [onceResult, onceResult] := by
    rw [sentTo, hlog]
    rfl
  have hsent' : sentTo 7 s'.inner = [onceResult] := by
    rw [sentTo, hlog']
    rfl
  refine ⟨s, s', System.reach_of_playAll hs, hs', hdelivered.trans hdelivered'.symm,
    (hdelivered.trans hagain.symm).subset, hsent, hsent', ?_⟩
  rw [hsent, hsent']
  decide

end JoinRouteHandler
