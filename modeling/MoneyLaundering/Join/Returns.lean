import MoneyLaundering.Join.RouteHandler
import MoneyLaundering.Ring.Locking

/-!
# Which handlers return

A handler that is called with the lock of its checkpointer free returns, and leaves the
lock free, unless it takes the lock while it applies a data message.  No ring node does
that; the join does it for the message that completes a client.
-/

open Crash LockProg

/-- Every call of a sequence returns. -/
def AllReturn {ι σ : Type} (call : ι → LockProg Effect σ Unit) :
    List ι → Locked σ → Prop
  | [], _ => True
  | i :: is, s => (call i s).value = some () ∧
      AllReturn call is (call i s).final

namespace LockedRingNode

variable {Q F S E α β : Type} [DecidableEq Q]

theorem allReturn (C : Controller Q F S E α β)
    (msgs : List ((Q × ℕ) × Message α)) (m : Node Q F S E β) :
    AllReturn (fun e => onDataMsg C e.1 e.2) msgs ⟨false, m⟩ := by
  induction msgs generalizing m with
  | nil => trivial
  | cons e es ih =>
      have herases := erases_onDataMsg C e.1 e.2
      constructor
      · exact herases.value m
      · rw [herases.final]
        exact ih _

end LockedRingNode

namespace JoinRouteHandler

variable {F S α : Type}

/-- A data message that is applied and that completes its client. -/
def Completes (msg : DataMsg α) (m : JoinNode F S) : Prop :=
  msg.clientId ∉ m.aborted ∧ ¬m.dedup.Recorded msg.identity ∧
    msg.clientId ∉ m.state.counts.finalized ∧
    (m.state.counts.incReceived msg.clientId).isComplete msg.clientId = true

instance (msg : DataMsg α) : DecidablePred (Completes (F := F) (S := S) msg) :=
  fun m => inferInstanceAs (Decidable (msg.clientId ∉ m.aborted ∧
    ¬m.dedup.Recorded msg.identity ∧
    msg.clientId ∉ m.state.counts.finalized ∧
    (m.state.counts.incReceived msg.clientId).isComplete msg.clientId = true))

/-- A message that is not such a data message. -/
def Quiet (msg : Message α) (m : JoinNode F S) : Prop :=
  ∀ d, msg = .data d → ¬Completes d m

variable {J : JoinRouteHandler F S α}

/-! ## Finalizing with the lock free, and with the lock held -/

/-- `_maybe_finalize` called outside of the lock. -/
def maybeFinalizeUnlocked (J : JoinRouteHandler F S α) (clientId : UUID) :
    Prog Effect (JoinNode F S) Unit := do
  let m ← Prog.read
  if m.state.counts.isFinalized clientId then pure ()
  else if !m.state.counts.isComplete clientId then pure ()
  else do
    J.sendResult clientId
    Checkpointer.flush J.provider true
    J.discard clientId

theorem erases_maybeFinalize (clientId : UUID) :
    Erases false (J.maybeFinalize clientId)
      (J.maybeFinalizeUnlocked clientId) := by
  apply Erases.bind (Erases.lift _)
  intro m
  apply Erases.ite (Erases.pure ())
  apply Erases.ite (Erases.pure ())
  apply Erases.bind (Erases.lift _)
  intro _
  apply Erases.bind (LockedCheckpointer.erases_flush _ _)
  intro _
  exact Erases.lift _

/-- `_maybe_finalize` called under the lock: it returns at once, or it waits at the
checkpoint that follows the result. -/
theorem value_maybeFinalize_held (clientId : UUID) (m : JoinNode F S) :
    (J.maybeFinalize clientId ⟨true, m⟩).value = none ↔
      clientId ∉ m.state.counts.finalized ∧
        m.state.counts.isComplete clientId = true := by
  unfold maybeFinalize
  rw [lift_read_bind]
  by_cases hfinal : clientId ∈ m.state.counts.finalized
  · rw [if_pos (JoinCounts.isFinalized_iff.mpr hfinal)]
    simp [hfinal, Pure.pure]
  rw [if_neg (mt JoinCounts.isFinalized_iff.mp hfinal)]
  by_cases hcomplete : m.state.counts.isComplete clientId = true
  · rw [if_neg (by simp [hcomplete])]
    simp only [hfinal, hcomplete, not_false_eq_true, and_self, iff_true]
    rw [value_lift_bind]
    exact value_bind_of_none rfl
  · rw [if_pos (by simpa using hcomplete)]
    simp [hcomplete, Pure.pure]

theorem value_onData_held (msg : DataMsg α) (m : JoinNode F S) :
    (J.onData msg ⟨true, m⟩).value = none ↔
      msg.clientId ∉ m.state.counts.finalized ∧
        (m.state.counts.incReceived msg.clientId).isComplete msg.clientId =
          true := by
  unfold onData
  rw [lift_modify_bind]
  exact value_maybeFinalize_held msg.clientId (J.joined msg m)

/-! ## The handlers of the join -/

theorem erases_onEof (clientId : UUID) (expected : ℤ) :
    Erases false (J.onEof clientId expected) (do
      Prog.modify (withCounts (JoinCounts.setExpected clientId expected))
      J.maybeFinalizeUnlocked clientId) := by
  apply Erases.bind (Erases.lift _)
  intro _
  exact erases_maybeFinalize clientId

theorem erases_onAbort (clientId : UUID) :
    Erases false (J.onAbort clientId) (do
      J.discard clientId
      Prog.modify (withCounts (JoinCounts.drop clientId))
      Checkpointer.markAborted clientId
      Checkpointer.flush J.provider true) := by
  apply Erases.bind (Erases.lift _)
  intro _
  apply Erases.bind (Erases.lift _)
  intro _
  apply Erases.bind (LockedCheckpointer.erases_markAborted _)
  intro _
  exact LockedCheckpointer.erases_flush _ _

/-- A data message makes the handler wait exactly when it completes its client. -/
theorem value_handleData (tag : ℕ) (msg : DataMsg α) (m : JoinNode F S) :
    (J.handleMessage tag (.data msg) ⟨false, m⟩).value = none ↔
      Completes msg m := by
  change (LockedCheckpointer.handleData J.provider J.checkpointEvery tag msg
    (J.onData msg) ⟨false, m⟩).value = none ↔ _
  unfold LockedCheckpointer.handleData
  rw [value_withLock, lift_read_bind]
  by_cases habort : msg.clientId ∈ m.aborted
  · rw [if_pos (by simpa using habort)]
    simp [Completes, habort, lift]
  rw [if_neg (by simpa using habort)]
  by_cases hdup : m.dedup.Recorded msg.identity
  · rw [if_pos (by exact hdup)]
    simp [Completes, hdup, lift]
  rw [if_neg (by exact hdup)]
  cases hvalue : (J.onData msg ⟨true, m⟩).value with
  | none =>
      rw [value_bind_of_none (by exact hvalue)]
      have hcompletes := (value_onData_held msg m).mp hvalue
      exact iff_of_true rfl ⟨habort, hdup, hcompletes⟩
  | some a =>
      rw [value_bind_of_some (by exact hvalue), lift_modify_bind, lift_read_bind]
      have hnot : ¬Completes msg m := by
        intro hcompletes
        rw [(value_onData_held msg m).mpr hcompletes.2.2] at hvalue
        cases hvalue
      simp only [hnot, iff_false]
      unfold LockProg.when
      split
      · simp [lift]
      · simp [Pure.pure]

theorem held_withLock {m : JoinProg F S Unit} {s : JoinNode F S}
    (h : (withLock m ⟨false, s⟩).value = some ()) :
    (withLock m ⟨false, s⟩).final.held = false := by
  rw [value_withLock] at h
  rw [withLock, if_neg Bool.false_ne_true, releaseAfter, h]

/-- A handler returns, and leaves the lock free, unless the message is a data message
that completes its client. -/
theorem handleMessage_returns (tag : ℕ) (msg : Message α) (m : JoinNode F S) :
    ((J.handleMessage tag msg ⟨false, m⟩).value = some () ↔ Quiet msg m) ∧
    ((J.handleMessage tag msg ⟨false, m⟩).value = some () →
      (J.handleMessage tag msg ⟨false, m⟩).final.held = false) := by
  cases msg with
  | eof c k =>
      have herases : Erases false (J.handleMessage tag (.eof c k)) _ :=
        (LockedCheckpointer.erases_flush _ _).bind fun _ =>
          (erases_onEof c k).bind fun _ => Erases.lift _
      constructor
      · exact iff_of_true (herases.value m) (by simp [Quiet])
      · intro _
        rw [herases.final]
  | abort c =>
      have herases : Erases false (J.handleMessage tag (.abort c)) _ :=
        (erases_onAbort c).bind fun _ => Erases.lift _
      constructor
      · exact iff_of_true (herases.value m) (by simp [Quiet])
      · intro _
        rw [herases.final]
  | data d =>
      have hnone := value_handleData (J := J) tag d m
      constructor
      · have hquiet : Quiet (.data d) m ↔ ¬Completes d m := by simp [Quiet]
        rw [hquiet, ← hnone]
        cases (J.handleMessage tag (.data d) ⟨false, m⟩).value <;> simp
      · exact held_withLock

/-! ## Sequences of messages -/

/-- No message of a sequence is a data message that completes its client when it is
handled. -/
def AllQuiet (J : JoinRouteHandler F S α) :
    List (ℕ × Message α) → JoinNode F S → Prop
  | [], _ => True
  | e :: es, m => Quiet e.2 m ∧
      AllQuiet J es (J.handleMessage e.1 e.2 ⟨false, m⟩).final.inner

theorem allReturn_iff (J : JoinRouteHandler F S α)
    (msgs : List (ℕ × Message α)) (m : JoinNode F S) :
    AllReturn (fun e => J.handleMessage e.1 e.2) msgs ⟨false, m⟩ ↔
      J.AllQuiet msgs m := by
  induction msgs generalizing m with
  | nil => simp [AllReturn, AllQuiet]
  | cons e es ih =>
      obtain ⟨hvalue, hheld⟩ := J.handleMessage_returns e.1 e.2 m
      rw [AllReturn, AllQuiet, ← hvalue]
      apply and_congr_right
      intro hsome
      rw [Locked.eq_mk_of_held (hheld hsome)]
      exact ih _

/-- The handlers of every ring node return on every sequence of messages; those of a join
return on exactly the sequences in which no data message completes its client. -/
theorem handlers_return {Q F S E α β F' S' α' : Type} [DecidableEq Q]
    (C : Controller Q F S E α β) (msgs : List ((Q × ℕ) × Message α))
    (m : Node Q F S E β) (J : JoinRouteHandler F' S' α') (msgs' : List (ℕ × Message α'))
    (m' : JoinNode F' S') :
    AllReturn (fun e => LockedRingNode.onDataMsg C e.1 e.2) msgs ⟨false, m⟩ ∧
      (AllReturn (fun e => J.handleMessage e.1 e.2) msgs' ⟨false, m'⟩ ↔
        J.AllQuiet msgs' m') := by
  constructor
  · exact LockedRingNode.allReturn C msgs m
  · exact J.allReturn_iff msgs' m'

/-- The end-of-file of client `7` announces one message, which comes after it: its
handler sends the result and waits for the lock it holds. -/
theorem not_allReturn_eofFirst :
    ¬AllReturn (fun e => uc5Handler.handleMessage e.1 e.2)
      [(0, .eof 7 1), (1, .data ⟨7, 3, 1, 40⟩)]
      ⟨false, Machine.initial ⟨.empty, .empty⟩⟩ := by
  intro hreturn
  exact absurd hreturn.2.1 (by decide)

end JoinRouteHandler
