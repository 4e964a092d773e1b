import MoneyLaundering.Ring.Controllers
import MoneyLaundering.Ring.System

/-!
# Barrier safety

The barrier of a client is closed by the leader only, only after every peer has
reported, with the sum of what they reported for each shard, and at most once
between two crashes of the leader.

The invariant is about the tokens in flight.  A slot of a token holds what its
peer reported, unless the durable state of the leader is already past the
barrier: then the leader ignores every token of the client.
-/

open Crash

/-! ## Closings between two restarts -/

namespace Event

variable {β : Type}

/-- A barrier of the client was closed. -/
def isClosing (c : UUID) : Event β → Bool
  | .closed x _ _ => decide (x = c)
  | _ => false

end Event

section Segments

variable {β : Type} {c : UUID} {e : Event β} {log : List (Event β)}

/-- No stretch of the history without a restart has two closings. -/
def AtMostOnce (c : UUID) (log : List (Event β)) : Prop :=
  ∀ newer segment older, log = newer ++ segment ++ older →
    .restarted ∉ segment → (segment.filter (Event.isClosing c)).length ≤ 1

/-- There was no closing since the last restart. -/
def NotYet (c : UUID) (log : List (Event β)) : Prop :=
  ∀ segment older, log = segment ++ older → .restarted ∉ segment →
    ∀ e ∈ segment, e.isClosing c = false

theorem notYet_restarted : NotYet c (.restarted :: log) := by
  intro segment older h hno e he
  cases segment with
  | nil => simp at he
  | cons x xs =>
      rw [List.cons_append, List.cons.injEq] at h
      exact absurd (h.1 ▸ List.mem_cons_self) hno

theorem NotYet.cons (h : NotYet c log) (he : e.isClosing c = false) :
    NotYet c (e :: log) := by
  intro segment older hsplit hno x hx
  cases segment with
  | nil => simp at hx
  | cons y ys =>
      rw [List.cons_append, List.cons.injEq] at hsplit
      rcases List.mem_cons.mp hx with rfl | hx
      · rw [← hsplit.1]
        exact he
      · exact h ys older hsplit.2 (fun hmem => hno (by simp [hmem])) x hx

theorem atMostOnce_nil : AtMostOnce c ([] : List (Event β)) := by
  intro newer segment older h _
  have hnil : segment = [] := by
    have := (List.append_eq_nil_iff.mp h.symm).1
    exact (List.append_eq_nil_iff.mp this).2
  simp [hnil]

/-- A new entry keeps the bound unless it is a second closing. -/
theorem AtMostOnce.cons (h : AtMostOnce c log)
    (he : e.isClosing c = false ∨ NotYet c log) :
    AtMostOnce c (e :: log) := by
  intro newer segment older hsplit hno
  cases newer with
  | cons y ys =>
      rw [List.cons_append, List.cons_append, List.cons.injEq] at hsplit
      exact h ys segment older hsplit.2 hno
  | nil =>
      cases segment with
      | nil => simp
      | cons y ys =>
          rw [List.nil_append, List.cons_append, List.cons.injEq] at hsplit
          have hno' : Event.restarted ∉ ys := fun hmem => hno (by simp [hmem])
          obtain ⟨rfl, hlog⟩ := hsplit
          rcases he with he | hopen
          · rw [List.filter_cons_of_neg (by simp [he])]
            exact h [] ys older hlog hno'
          · have hnone : ys.filter (Event.isClosing c) = [] := by
              rw [List.filter_eq_nil_iff]
              intro x hx
              simp [hopen ys older hlog hno' x hx]
            rw [List.filter_cons]
            split <;> simp [hnone]

/-- The entries of other clients do not matter. -/
theorem AtMostOnce.of_filter
    (h : AtMostOnce c (log.filter (Event.concerns c))) : AtMostOnce c log := by
  intro newer segment older hsplit hno
  have hsplit' : log.filter (Event.concerns c) =
      newer.filter (Event.concerns c) ++ segment.filter (Event.concerns c) ++
        older.filter (Event.concerns c) := by
    rw [hsplit, List.filter_append, List.filter_append]
  have hcount := h _ _ _ hsplit' fun hmem => hno (List.mem_filter.mp hmem).1
  rw [List.filter_filter] at hcount
  have hsame : ∀ e : Event β, (e.isClosing c && e.concerns c) =
      e.isClosing c := by
    intro e
    cases e <;> simp [Event.isClosing, Event.concerns]
  simpa only [hsame] using hcount

end Segments

/-! ## The invariant -/

namespace AffinityRing

variable {Q F S E α β : Type} (R : AffinityRing Q F S E α β) (c : UUID)

/-- The checkpoint has the client past the barrier, or aborted. -/
def Sealed (v : ClientView β) : Prop :=
  v.disk.phase = .done ∨ v.diskAborted = true

/-- The same of the state in memory. -/
def Settled (v : ClientView β) : Prop :=
  v.mem.phase = .done ∨ v.aborted = true

/-- Every slot of the token holds what its peer reported. -/
def GoodSlots (V : ℕ → ClientView β) (t : BarrierToken) : Prop :=
  ∀ q sent, t.sentBy.get? q = some sent → .reported c sent ∈ (V q).log

/-- What holds of a token in flight. -/
structure TokenOk (V : ℕ → ClientView β) (t : BarrierToken) : Prop where
  origin : t.origin = R.leader
  keys : ∀ q ∈ t.sentBy.keys, q ∈ R.ids
  slots : GoodSlots c V t ∨ Sealed (V R.leader)

/-- Every peer has reported, and these are the sums of the reports. -/
def Totals (V : ℕ → ClientView β) (expectedPerShard : ShardCounts) : Prop :=
  ∃ sent : ℕ → ShardCounts,
    (∀ q ∈ R.ids, .reported c (sent q) ∈ (V q).log) ∧
      ∀ shard, expectedPerShard.getD shard 0 =
        (R.ids.map fun q => (sent q).getD shard 0).sum

/-- The part of the invariant about all nodes together. -/
structure GlobalOk (V : ℕ → ClientView β) : Prop where
  tokens : ∀ q ∈ R.ids, ∀ t, .forward t ∈ (V q).log → R.TokenOk c V t
  closed : ∀ q ∈ R.ids, ∀ phase per, .closed c phase per ∈ (V q).log →
    q = R.leader ∧ R.Totals c V per

/-- The part about the checkpoint of one node. -/
structure DiskOk (p : ℕ) (v : ClientView β) : Prop where
  sent : v.disk.phase ≠ .processing →
    .reported c v.disk.sent ∈ v.log ∨ (p = R.leader ∧ Sealed v)
  aborted : v.diskAborted = true → v.disk = .new
  once : AtMostOnce c v.log

/-- The part about the memory of one node.  While a token is handled the leader
may be done without a report of its own: its checkpoint will say so before it
handles anything else. -/
structure MemOk (p : ℕ) (g : Stage) (v : ClientView β) : Prop where
  sent : v.mem.phase ≠ .processing → .reported c v.mem.sent ∈ v.log ∨
    (p = R.leader ∧ (Sealed v ∨ (g = .closing ∧ v.mem.phase = .done)))
  aborted : v.aborted = true → v.mem = .new
  sealed : p = R.leader → Sealed v → Settled v
  notYet : NotYet c v.log ∨ Settled v

/-- One view comes later than another. -/
structure Later (p : ℕ) (v v' : ClientView β) : Prop where
  log : ∀ e ∈ v.log, e ∈ v'.log
  sealed : p = R.leader → Sealed v → Sealed v'

variable {R c} {V : ℕ → ClientView β} {v v' : ClientView β} {p : ℕ}
  {g : Stage}

theorem Later.refl : R.Later p v v := ⟨fun _ he => he, fun _ h => h⟩

theorem Later.trans {v'' : ClientView β} (h : R.Later p v v')
    (h' : R.Later p v' v'') : R.Later p v v'' :=
  ⟨fun e he => h'.log e (h.log e he), fun hp hs => h'.sealed hp (h.sealed hp hs)⟩

/-- Reports are never withdrawn. -/
theorem Later.reported (h : R.Later p v v') {q : ℕ} {e : Event β}
    (he : e ∈ (Function.update V p v q).log) :
    e ∈ (Function.update V p v' q).log := by
  by_cases hq : q = p
  · subst hq
    rw [Function.update_self] at he ⊢
    exact h.log e he
  · rwa [Function.update_of_ne hq] at he ⊢

theorem Later.sealed_update (h : R.Later p v v')
    (hs : Sealed (Function.update V p v R.leader)) :
    Sealed (Function.update V p v' R.leader) := by
  by_cases hp : R.leader = p
  · subst hp
    rw [Function.update_self] at hs ⊢
    exact h.sealed rfl hs
  · rwa [Function.update_of_ne hp] at hs ⊢

theorem TokenOk.later {t : BarrierToken}
    (h : R.TokenOk c (Function.update V p v) t) (hl : R.Later p v v') :
    R.TokenOk c (Function.update V p v') t :=
  ⟨h.origin, h.keys, h.slots.imp
    (fun hg q sent hs => hl.reported (hg q sent hs)) hl.sealed_update⟩

theorem Totals.later {per : ShardCounts}
    (h : R.Totals c (Function.update V p v) per) (hl : R.Later p v v') :
    R.Totals c (Function.update V p v') per := by
  obtain ⟨sent, hsent, hsum⟩ := h
  exact ⟨sent, fun q hq => hl.reported (hsent q hq), hsum⟩

/-- The global part survives a step of one node whose new entries are fine. -/
theorem GlobalOk.step (h : R.GlobalOk c (Function.update V p v))
    (hl : R.Later p v v')
    (htokens : ∀ t, .forward t ∈ v'.log → .forward t ∈ v.log ∨
      R.TokenOk c (Function.update V p v') t)
    (hclosed : ∀ phase per, .closed c phase per ∈ v'.log →
      .closed c phase per ∈ v.log ∨
        (p = R.leader ∧ R.Totals c (Function.update V p v') per)) :
    R.GlobalOk c (Function.update V p v') := by
  refine ⟨fun q hq t ht => ?_, fun q hq phase per he => ?_⟩
  · by_cases hqp : q = p
    · subst hqp
      rw [Function.update_self] at ht
      rcases htokens t ht with hold | hnew
      · refine (h.tokens q hq t ?_).later hl
        rwa [Function.update_self]
      · exact hnew
    · rw [Function.update_of_ne hqp] at ht
      refine (h.tokens q hq t ?_).later hl
      rwa [Function.update_of_ne hqp]
  · by_cases hqp : q = p
    · subst hqp
      rw [Function.update_self] at he
      rcases hclosed phase per he with hold | hnew
      · obtain ⟨hq', htot⟩ := h.closed q hq phase per
          (by rwa [Function.update_self])
        exact ⟨hq', htot.later hl⟩
      · exact hnew
    · rw [Function.update_of_ne hqp] at he
      obtain ⟨hq', htot⟩ := h.closed q hq phase per
        (by rwa [Function.update_of_ne hqp])
      exact ⟨hq', htot.later hl⟩

/-- A step that writes nothing about tokens. -/
theorem GlobalOk.of_log_eq (h : R.GlobalOk c (Function.update V p v))
    (hlog : v'.log = v.log) (hsealed : p = R.leader → Sealed v → Sealed v') :
    R.GlobalOk c (Function.update V p v') := by
  refine h.step ⟨fun e he => by rwa [hlog], hsealed⟩ ?_ ?_
  · intro t ht
    rw [hlog] at ht
    exact Or.inl ht
  · intro phase per he
    rw [hlog] at he
    exact Or.inl he

/-- A full token adds up what every peer reported. -/
theorem TokenOk.totals {t : BarrierToken} (h : R.TokenOk c V t)
    (hopen : ¬Sealed (V R.leader))
    (hsize : R.ids.length ≤ t.sentBy.size) :
    R.Totals c V (RingCompletion.sumSlots t.sentBy) := by
  have hslots : GoodSlots c V t := h.slots.resolve_right hopen
  have hperm : t.sentBy.keys.Perm R.ids := by
    refine (t.sentBy.keys_nodup.subperm h.keys).perm_of_length_le ?_
    rwa [Dict.length_keys]
  refine ⟨fun q => t.sentBy.getD q Dict.empty, fun q hq => ?_, fun shard => ?_⟩
  · obtain ⟨sent, hsent⟩ := Dict.mem_keys_iff.mp (hperm.mem_iff.mpr hq)
    have := hslots q sent hsent
    simpa [Dict.getD, hsent] using this
  · rw [RingCompletion.getD_sumSlots, ← (hperm.map _).sum_eq, Dict.keys,
      List.map_map]
    refine congrArg List.sum (List.map_congr_left fun e he => ?_)
    have : t.sentBy.get? e.1 = some e.2 := Dict.get?_eq_some_iff.mpr he
    simp [Dict.getD, this]

/-! ## One step of a node -/

/-- What a crash of node `p` leaves, when the other nodes have the views `V`. -/
structure Persists (R : AffinityRing Q F S E α β) (c : UUID)
    (V : ℕ → ClientView β) (p : ℕ) (v : ClientView β) : Prop where
  later : R.Later p (V p) v
  globalOk : R.GlobalOk c (Function.update V p v)
  disk : R.DiskOk c p v

/-- What holds of node `p` at the given stage of a handler. -/
def Holds (R : AffinityRing Q F S E α β) (c : UUID)
    (V : ℕ → ClientView β) (p : ℕ) (g : Stage) (v : ClientView β) : Prop :=
  R.Persists c V p v ∧ R.MemOk c p g v

/-- A change of the memory only. -/
theorem Persists.of_mem (h : R.Persists c V p v) (cl : Client) (ab up : Bool) :
    R.Persists c V p { v with mem := cl, aborted := ab, up := up } where
  later := h.later.trans ⟨fun _ he => he, fun _ hs => hs⟩
  globalOk := h.globalOk.of_log_eq rfl fun _ hs => hs
  disk := ⟨h.disk.sent, h.disk.aborted, h.disk.once⟩

/-- An entry that is about neither tokens nor closings. -/
theorem Persists.logged (h : R.Persists c V p v) (e : Event β)
    (hclosing : e.isClosing c = false)
    (hforward : ∀ t, e ≠ .forward t)
    (hclosed : ∀ phase per, e ≠ .closed c phase per) :
    R.Persists c V p (v.logged e) := by
  have hl : R.Later p v (v.logged e) :=
    ⟨fun _ he => List.mem_cons_of_mem _ he, fun _ hs => hs⟩
  refine ⟨h.later.trans hl, h.globalOk.step hl ?_ ?_, ?_, h.disk.aborted,
    h.disk.once.cons (Or.inl hclosing)⟩
  · intro t ht
    exact Or.inl ((List.mem_cons.mp ht).resolve_left fun heq =>
      hforward t heq.symm)
  · intro phase per he
    exact Or.inl ((List.mem_cons.mp he).resolve_left fun heq =>
      hclosed phase per heq.symm)
  · intro hphase
    exact (h.disk.sent hphase).imp_left (List.mem_cons_of_mem _)

/-- A token is passed on. -/
theorem Holds.forward (h : R.Holds c V p g v) {t : BarrierToken}
    (ht : R.TokenOk c (Function.update V p v) t) :
    R.Holds c V p g (v.logged (.forward t)) := by
  have hl : R.Later p v (v.logged (.forward t)) :=
    ⟨fun _ he => List.mem_cons_of_mem _ he, fun _ hs => hs⟩
  refine ⟨⟨h.1.later.trans hl, h.1.globalOk.step hl ?_ ?_, ?_,
    h.1.disk.aborted, h.1.disk.once.cons (Or.inl rfl)⟩, ?_, h.2.aborted,
    h.2.sealed, h.2.notYet.imp_left fun hn => hn.cons rfl⟩
  · intro t' ht'
    rcases List.mem_cons.mp ht' with heq | hold
    · cases heq
      exact Or.inr (ht.later hl)
    · exact Or.inl hold
  · intro phase per he
    exact Or.inl ((List.mem_cons.mp he).resolve_left (by simp))
  · exact fun hphase =>
      (h.1.disk.sent hphase).imp_left (List.mem_cons_of_mem _)
  · exact fun hphase =>
      (h.2.sent hphase).imp_left (List.mem_cons_of_mem _)

/-- The leader closes the barrier. -/
theorem Holds.close (h : R.Holds c V p .steady v) (hp : p = R.leader)
    (hopen : ¬Settled v) {per : ShardCounts}
    (htot : R.Totals c (Function.update V p v) per)
    (hsent : .reported c v.mem.sent ∈ v.log ∨ g = .closing) :
    R.Holds c V p g (({ v with
      mem := { v.mem with phase := .done } }).logged
        (.closed c v.mem.phase per)) := by
  have hl : R.Later p v (({ v with
      mem := { v.mem with phase := .done } }).logged
        (.closed c v.mem.phase per)) :=
    ⟨fun _ he => List.mem_cons_of_mem _ he, fun _ hs => hs⟩
  refine ⟨⟨h.1.later.trans hl, h.1.globalOk.step hl ?_ ?_, ?_,
    h.1.disk.aborted, h.1.disk.once.cons ?_⟩, ?_, ?_, ?_, Or.inr (Or.inl rfl)⟩
  · intro t ht
    exact Or.inl ((List.mem_cons.mp ht).resolve_left (by simp))
  · intro phase per' he
    rcases List.mem_cons.mp he with heq | hold
    · cases heq
      exact Or.inr ⟨hp, htot.later hl⟩
    · exact Or.inl hold
  · exact fun hphase =>
      (h.1.disk.sent hphase).imp_left (List.mem_cons_of_mem _)
  · exact Or.inr (h.2.notYet.resolve_right hopen)
  · intro _
    rcases hsent with hrep | hg
    · exact Or.inl (List.mem_cons_of_mem _ hrep)
    · exact Or.inr ⟨hp, Or.inr ⟨hg, rfl⟩⟩
  · intro hab
    exact absurd (Or.inr hab) hopen
  · exact fun _ _ => Or.inl rfl

/-- `_advance` on a token whose slots are fine. -/
theorem Holds.advance (h : R.Holds c V p .steady v) (hp : p ∈ R.ids)
    (hab : v.aborted = false) {t : BarrierToken} (htc : t.clientId = c)
    (ht : R.TokenOk c (Function.update V p v) t)
    (hsent : .reported c v.mem.sent ∈ v.log ∨ g = .closing) :
    R.Holds c V p g (v.advance (R.node p).self t).1 ∧
      ∀ t', .forward t' ∈ (v.advance (R.node p).self t).2 →
        R.Holds c V p g
          ((v.advance (R.node p).self t).1.logged (.forward t')) := by
  have hstage : R.Holds c V p g v := by
    refine ⟨h.1, fun hphase => ?_, h.2.aborted, h.2.sealed, h.2.notYet⟩
    refine (h.2.sent hphase).imp_right fun hs => ⟨hs.1, hs.2.imp_right ?_⟩
    rintro ⟨hfalse, -⟩
    cases hfalse
  have hpass : R.Holds c V p g v ∧ ∀ t', BarrierAction.forward t' ∈
      [BarrierAction.forward t] → R.Holds c V p g (v.logged (.forward t')) := by
    refine ⟨hstage, fun t' ht' => ?_⟩
    obtain rfl : t' = t := by simpa using ht'
    exact hstage.forward ht
  unfold ClientView.advance
  rw [self_nNodes hp, self_nodeId hp]
  split
  · exact hpass
  · rename_i hsize
    split
    · exact hpass
    · rename_i horigin
      split
      · exact ⟨hstage, by simp⟩
      · rename_i hdone
        have hpl : p = R.leader := (not_not.mp horigin).symm.trans ht.origin
        have hopen : ¬Settled v := by
          rintro (hs | hs)
          · exact hdone hs
          · simp [hab] at hs
        have hnot : ¬Sealed (Function.update V p v R.leader) := by
          rw [← hpl, Function.update_self]
          exact fun hs => hopen (h.2.sealed hpl hs)
        subst htc
        exact ⟨h.close hpl hopen (ht.totals hnot (not_lt.mp hsize)) hsent,
          by simp⟩

theorem Holds.reported (h : R.Holds c V p g v) (hp : p ∈ R.ids) (hab : v.aborted = false)
    (hphase : v.mem.phase = .processing) (sent : ShardCounts) :
    R.Holds c V p .steady (v.reportSent (R.node p).self c sent).1 ∧
      ∀ t, .forward t ∈ (v.reportSent (R.node p).self c sent).2 →
        R.Holds c V p .steady
          ((v.reportSent (R.node p).self c sent).1.logged (.forward t)) := by
  have hemitted : R.Holds c V p .steady
      ((v.logged (.reported c sent)).markEmitted sent) := by
    have hlog := (h.1.logged (.reported c sent) rfl (by simp) (by simp)).of_mem
      { v.mem with sent := sent, phase := .emitted } v.aborted v.up
    refine ⟨hlog, fun _ => Or.inl List.mem_cons_self, ?_, ?_, ?_⟩
    · intro hab'
      have : v.aborted = true := hab'
      simp [hab] at this
    · intro hpl hs
      rcases h.2.sealed hpl hs with hs | hs
      · simp [hphase] at hs
      · exact Or.inr hs
    · rcases h.2.notYet with hn | hs | hs
      · exact Or.inl (hn.cons rfl)
      · simp [hphase] at hs
      · exact Or.inr (Or.inr hs)
  unfold ClientView.reportSent
  have hphase' : ¬(v.logged (.reported c sent)).mem.phase ≠ .processing :=
    fun hne => hne hphase
  rw [if_neg hphase']
  split
  · exact ⟨hemitted, by simp⟩
  · rename_i hleader
    rw [self_nodeId hp, self_leader hp, not_not] at hleader
    refine hemitted.advance hp hab rfl ⟨?_, ?_, Or.inl ?_⟩
      (Or.inl List.mem_cons_self)
    · exact self_leader hp
    · intro q hq
      rw [RingCompletion.firstToken, self_nodeId hp, Dict.mem_keys_set] at hq
      rcases hq with rfl | hq
      · exact hp
      · simp at hq
    · intro q counts hq
      rw [RingCompletion.firstToken, self_nodeId hp, Dict.get?_set] at hq
      split at hq
      · rename_i hqp
        obtain rfl := Option.some.inj hq
        rw [hqp, Function.update_self]
        exact List.mem_cons_self
      · simp at hq

theorem Holds.onToken (h : R.Holds c V p .steady v) (hp : p ∈ R.ids)
    {t : BarrierToken} (hok : R.TokenOk c (Function.update V p v) t)
    (htc : t.clientId = c) :
    R.Holds c V p .closing (v.onToken (R.node p).self t).1 ∧
      ∀ t', .forward t' ∈ (v.onToken (R.node p).self t).2 →
        R.Holds c V p .closing
          ((v.onToken (R.node p).self t).1.logged (.forward t')) := by
  unfold ClientView.onToken
  split
  · refine ⟨⟨h.1, fun hphase => ?_, h.2.aborted, h.2.sealed, h.2.notYet⟩,
      by simp⟩
    refine (h.2.sent hphase).imp_right fun hs => ⟨hs.1, hs.2.imp_right ?_⟩
    rintro ⟨hfalse, -⟩
    cases hfalse
  · rename_i hab
    have hab' : v.aborted = false := by simpa using hab
    by_cases hphase : v.mem.phase = .processing
    · rw [ClientView.stampToken, if_pos hphase]
      exact h.advance hp hab' htc hok (Or.inr rfl)
    · rw [ClientView.stampToken, if_neg hphase]
      refine h.advance hp hab' htc ⟨hok.origin, ?_, ?_⟩ (Or.inr rfl)
      · intro q hq
        rw [self_nodeId hp, Dict.mem_keys_set] at hq
        rcases hq with rfl | hq
        · exact hp
        · exact hok.keys q hq
      · rcases h.2.sent hphase with hrep | ⟨hpl, hs | ⟨hfalse, -⟩⟩
        · refine hok.slots.imp_left fun hslots q sent hq => ?_
          rw [self_nodeId hp, Dict.get?_set] at hq
          split at hq
          · rename_i hqp
            obtain rfl := Option.some.inj hq
            rw [hqp, Function.update_self]
            exact hrep
          · exact hslots q sent hq
        · refine Or.inr ?_
          rw [← hpl, Function.update_self]
          exact hs
        · cases hfalse

theorem Holds.saved (h : R.Holds c V p g v) :
    R.Holds c V p .steady v.saved := by
  have hseal : p = R.leader → Sealed v → Sealed v.saved := h.2.sealed
  have hl : R.Later p v v.saved := ⟨fun _ he => he, hseal⟩
  refine ⟨⟨h.1.later.trans hl, h.1.globalOk.of_log_eq rfl hseal, ?_,
    h.2.aborted, h.1.disk.once⟩, ?_, h.2.aborted, fun _ hs => hs, h.2.notYet⟩
  · intro hphase
    refine (h.2.sent hphase).imp_right fun hs => ⟨hs.1, ?_⟩
    rcases hs.2 with hs' | ⟨-, hdone⟩
    · exact hseal hs.1 hs'
    · exact Or.inl hdone
  · intro hphase
    refine (h.2.sent hphase).imp_right fun hs => ⟨hs.1, Or.inl ?_⟩
    rcases hs.2 with hs' | ⟨-, hdone⟩
    · exact hseal hs.1 hs'
    · exact Or.inl hdone

theorem Persists.restored (h : R.Persists c V p v) :
    R.Holds c V p .recovering (v.logged .restarted).restored := by
  have hlog := h.logged .restarted rfl (by simp) (by simp)
  refine ⟨hlog.of_mem v.disk v.diskAborted v.up, fun hphase => ?_, h.disk.aborted,
    fun _ hs => hs, Or.inl notYet_restarted⟩
  exact (hlog.disk.sent hphase).imp_right fun hs => ⟨hs.1, Or.inl hs.2⟩

/-- The invariant is stable under everything a handler does. -/
theorem holds_rules (V : ℕ → ClientView β) (hp : p ∈ R.ids) :
    ViewRules (R.node p).self c (R.TokenOk c V) (R.Holds c V p)
      (R.Persists c V p) where
  counted v cl h hab hphase hsent := by
    refine ⟨h.1.of_mem cl v.aborted v.up, ?_, ?_, ?_, ?_⟩
    · intro hne
      simp only [hphase, hsent]
      exact h.2.sent (hphase ▸ hne)
    · intro hab'
      simp [hab] at hab'
    · intro hpl hs
      refine (h.2.sealed hpl hs).imp_left fun hdone => ?_
      exact hphase.trans hdone
    · refine h.2.notYet.imp_right fun hs => hs.imp_left fun hdone => ?_
      exact hphase.trans hdone
  dropped v h :=
    ⟨h.1.of_mem .new true v.up, fun hne => absurd rfl hne, fun _ => rfl,
      fun _ _ => Or.inr rfl, Or.inr (Or.inr rfl)⟩
  reported g v sent _ h hab hphase := h.reported hp hab hphase sent
  token v t h hok htc := by
    refine h.onToken hp ?_ htc
    have hV : R.TokenOk c (Function.update V p (V p)) t := by
      rwa [Function.update_eq_self]
    exact hV.later h.1.later
  saved g v _ h := h.saved
  alive v h hready := by
    by_contra hab
    rw [h.2.aborted (by simpa using hab)] at hready
    simp at hready
  settled v h _ := by
    refine ⟨h.1, fun hphase => ?_, h.2.aborted, h.2.sealed, h.2.notYet⟩
    refine (h.2.sent hphase).imp_right fun hs => ⟨hs.1, hs.2.imp_right ?_⟩
    rintro ⟨hfalse, -⟩
    cases hfalse
  restarted v h := h.logged .restarted rfl (by simp) (by simp)
  restored v h := h.restored

/-! ## Runs -/

/-- The views of a client at all nodes. -/
def views (c : UUID) (s : ℕ → Node Q F S E β) : ℕ → ClientView β :=
  fun p => (s p).view c

theorem views_update (s : ℕ → Node Q F S E β) (p : ℕ)
    (m : Node Q F S E β) :
    views c (Function.update s p m) =
      Function.update (views c s) p (m.view c) := by
  funext q
  by_cases hq : q = p
  · subst hq
    simp [views]
  · simp [views, hq]

/-- The invariant of the ring between two calls. -/
structure BarrierInv (R : AffinityRing Q F S E α β) (c : UUID)
    (s : ℕ → Node Q F S E β) : Prop where
  globalOk : R.GlobalOk c (views c s)
  disk : ∀ p ∈ R.ids, R.DiskOk c p ((s p).view c)
  mem : ∀ p ∈ R.ids, (s p).up = true → R.MemOk c p .steady ((s p).view c)
  down : ∀ p ∈ R.ids, (s p).up = false → (s p).rc = .new

variable {s : ℕ → Node Q F S E β}

theorem BarrierInv.persists (h : R.BarrierInv c s) (hp : p ∈ R.ids) :
    R.Persists c (views c s) p ((s p).view c) := by
  refine ⟨Later.refl, ?_, h.disk p hp⟩
  have heq : Function.update (views c s) p ((s p).view c) = views c s :=
    Function.update_eq_self p (views c s)
  rw [heq]
  exact h.globalOk

theorem BarrierInv.idle (h : R.BarrierInv c s) (hp : p ∈ R.ids) :
    RingNode.Idle (R.Holds c (views c s) p) (R.Persists c (views c s) p) c
      (s p) :=
  ⟨fun hup => ⟨h.persists hp, h.mem p hp hup⟩,
    fun hdown => ⟨h.persists hp, h.down p hp hdown⟩⟩

/-- A step of one node keeps the invariant when it leaves a good view there. -/
theorem BarrierInv.update (h : R.BarrierInv c s) {m : Node Q F S E β}
    (hglobal : R.GlobalOk c (Function.update (views c s) p (m.view c)))
    (hlocal : p ∈ R.ids → R.DiskOk c p (m.view c) ∧
      (m.up = true → R.MemOk c p .steady (m.view c)) ∧
        (m.up = false → m.rc = .new)) :
    R.BarrierInv c (Function.update s p m) := by
  refine ⟨?_, fun q hq => ?_, fun q hq => ?_, fun q hq => ?_⟩
  · rw [views_update]
    exact hglobal
  all_goals
    by_cases hqp : q = p
    · subst hqp
      rw [Function.update_self]
      obtain ⟨hdisk, hmem, hdown⟩ := hlocal hq
      assumption
    · rw [Function.update_of_ne hqp]
      first
        | exact h.disk q hq
        | exact h.mem q hq
        | exact h.down q hq

/-- After a crash of node `p`, wherever it fell. -/
theorem BarrierInv.reboot (h : R.BarrierInv c s) {m : Node Q F S E β}
    (hm : R.Persists c (views c s) p (m.view c)) (k : UUID → ℕ → ℕ) :
    R.BarrierInv c
      (Function.update s p (m.reboot (R.node p).provider k)) := by
  have hper := hm.of_mem .new false false
  refine h.update hper.globalOk fun _ => ⟨hper.disk, ?_, fun _ => rfl⟩
  intro hup
  simp [Machine.reboot] at hup

/-- After a crash between two calls. -/
theorem BarrierInv.idleCrash (h : R.BarrierInv c s) (p : ℕ)
    (k : UUID → ℕ → ℕ) :
    R.BarrierInv c
      (Function.update s p ((s p).reboot (R.node p).provider k)) := by
  by_cases hp : p ∈ R.ids
  · exact h.reboot (h.persists hp) k
  · refine h.update ?_ fun hp' => absurd hp' hp
    have heq : Function.update (views c s) p ((s p).view c) = views c s :=
      Function.update_eq_self p (views c s)
    refine GlobalOk.of_log_eq (v := (s p).view c) ?_ rfl fun _ hs => hs
    rw [heq]
    exact h.globalOk

theorem barrierInv_initial : R.BarrierInv c R.initial where
  globalOk := ⟨fun _ _ _ h => by simp [views, initial, Machine.initial,
    Node.view, ClientView.of] at h, fun _ _ _ _ h => by simp [views, initial,
      Machine.initial, Node.view, ClientView.of] at h⟩
  disk p _ := ⟨fun h => absurd rfl h, fun _ => rfl, atMostOnce_nil⟩
  mem p _ h := by simp [initial, Machine.initial] at h
  down p _ _ := rfl

variable [DecidableEq Q]

/-- Wherever a call of node `p` is cut, the others have their views and `p` has
one that a crash may leave. -/
theorem spec_barrier (h : R.BarrierInv c s) {crashable : Node Q F S E β → Prop}
    {call : RingNode.Call Q}
    (he : (RingNode.system (R.node p) (R.arrivals p) R.fifo
      crashable).enabled call (s p)) (hg : R.gate p call s) :
    Spec (fun t => t = s p)
      ((RingNode.system (R.node p) (R.arrivals p) R.fifo crashable).handler
        call)
      (fun _ t => R.BarrierInv c (Function.update s p t))
      (fun t => R.Persists c (views c s) p (t.view c)) := by
  obtain ⟨hp, hgate⟩ := hg
  refine (RingNode.spec_call (holds_rules (c := c) (views c s) hp)
    (fun v hv => ⟨hv.1.of_mem v.mem v.aborted true,
      ⟨hv.2.sent, hv.2.aborted, hv.2.sealed, hv.2.notYet⟩⟩)
    (R.arrivals p) R.fifo call ?_).conseq ?_ ?_ ?_
  · rintro t rfl htc
    obtain ⟨q, hq, -, hlog⟩ := hgate
    refine h.globalOk.tokens q hq t ((Node.mem_view_log ?_).mpr hlog)
    simp [Event.concerns, htc]
  · rintro _ rfl
    exact ⟨h.idle hp, he⟩
  · rintro - m ⟨hholds, hup⟩
    refine h.update hholds.1.globalOk fun _ =>
      ⟨hholds.1.disk, fun _ => hholds.2, fun hdown => ?_⟩
    have : m.up = true := hup
    simp [this] at hdown
  · rintro m (⟨g, hholds⟩ | hper)
    · exact hholds.1
    · exact hper

theorem barrierInv_reach {crashable : ℕ → Node Q F S E β → Prop}
    (h : (R.system crashable).Reach R.initial s) : R.BarrierInv c s := by
  refine System.par_invariant barrierInv_initial ?_ ?_ h
  · intro p call s hs he hg
    refine (spec_barrier hs he hg).conseq (fun _ h => h) (fun _ _ h => h) ?_
    exact fun m hm k _ => hs.reboot hm k
  · exact fun p call k s hs _ => hs.idleCrash p k

/-- Barrier safety.  In every visited state of a ring whose peers report the same
counts when they emit again: a barrier that was closed was closed by the peer
with the least id, when every peer had reported, with the sum of the reports for
each shard; and no node closed it twice between two of its restarts. -/
theorem barrier_safety (R : AffinityRing Q F S E α β) (c : UUID)
    (s : ℕ → Node Q F S E β) (h : R.runs.Visits R.initial s)
    (hsame : ∀ p ∈ R.ids, ∀ sent sent', .reported c sent ∈ (s p).log →
      .reported c sent' ∈ (s p).log → sent = sent') :
    (∀ p ∈ R.ids, ∀ phase per, .closed c phase per ∈ (s p).log →
      (∀ q ∈ R.ids, p ≤ q) ∧
      ∃ sent : ℕ → ShardCounts,
        (∀ q ∈ R.ids, .reported c (sent q) ∈ (s q).log ∧
          ∀ sent', .reported c sent' ∈ (s q).log → sent' = sent q) ∧
        ∀ shard, per.getD shard 0 =
          (R.ids.map fun q => (sent q).getD shard 0).sum) ∧
    ∀ p ∈ R.ids, AtMostOnce c (s p).log := by
  have hseen : R.GlobalOk c (views c s) ∧
      ∀ p ∈ R.ids, AtMostOnce c ((s p).view c).log := by
    refine System.par_visits (I := R.BarrierInv c)
      (O := fun s => R.GlobalOk c (views c s) ∧
        ∀ p ∈ R.ids, AtMostOnce c ((s p).view c).log)
      (fun s hs => barrierInv_reach hs)
      (fun s hs => ⟨hs.globalOk, fun p hp => (hs.disk p hp).once⟩) ?_ h
    intro p call s hs he hg
    refine (spec_barrier hs he hg).conseq (fun _ h => h)
      (fun _ _ _ => trivial) fun m hm => ⟨?_, fun q hq => ?_⟩
    · rw [views_update]
      exact hm.globalOk
    · by_cases hqp : q = p
      · subst hqp
        rw [Function.update_self]
        exact hm.disk.once
      · rw [Function.update_of_ne hqp]
        exact (hs.disk q hq).once
  refine ⟨fun p hp phase per hclosed => ?_, fun p hp => ?_⟩
  · have hview : Event.closed c phase per ∈ (views c s p).log :=
      (Node.mem_view_log (by simp [Event.concerns])).mpr hclosed
    obtain ⟨hleader, sent, hsent, hsum⟩ :=
      hseen.1.closed p hp phase per hview
    have hlog : ∀ q ∈ R.ids, Event.reported c (sent q) ∈ (s q).log :=
      fun q hq => (Node.mem_view_log (by simp [Event.concerns])).mp
        (hsent q hq)
    refine ⟨fun q hq => hleader ▸ leader_le hq, sent, fun q hq => ?_, hsum⟩
    exact ⟨hlog q hq, fun sent' h' => hsame q hq _ _ h' (hlog q hq)⟩
  · exact (hseen.2 p hp).of_filter

theorem nodup_two : ([0, 1] : List ℕ).Nodup := by decide

/-- Two filters, each with one message and the end-of-file of client `7`. -/
def twoFilters : AffinityRing Unit Unit Unit SentCounts ℕ ℕ where
  ids := [0, 1]
  nodup := nodup_two
  node p := ringFilter
    ⟨Peer.ofIds p ([0, 1].erase p), 1, fun shard => BitVec.ofNat 128 shard⟩ 2
    DataMsg.body
  self_eq _ _ := rfl
  next p := 1 - p
  arrivals p _
    | 0 => some (.data ⟨7, BitVec.ofNat 128 p, 1, 40 + p⟩)
    | 1 => some (.eof 7 1)
    | _ => none
  fifo := true
  fn₀ _ := ()

/-- The token as node `0` starts it, and as node `1` passes it on. -/
def startedToken : BarrierToken := ⟨7, 0, Dict.empty.set 0 (Dict.empty.set 1 1)⟩

def fullToken : BarrierToken :=
  { startedToken with sentBy := startedToken.sentBy.set 1 (Dict.empty.set 0 1) }

/-- Both nodes complete, and the leader crashes right after it closed the barrier
and closes it again. -/
def closingRun : List (System.Move (ℕ × RingNode.Call Unit)
    (UUID → ℕ → ℕ)) :=
  [.finish (0, .start), .finish (1, .start), .finish (0, .deliver ((), 0)),
    .finish (1, .deliver ((), 0)), .finish (1, .deliver ((), 1)),
    .finish (0, .deliver ((), 1)), .finish (1, .token startedToken),
    .crash (0, .token fullToken) (fun _ n => n) 2, .finish (0, .start),
    .finish (0, .token fullToken)]

/-- What a node reported for client `7`. -/
def reportsOf (m : Node Unit Unit Unit SentCounts ℕ) : List ShardCounts :=
  m.log.filterMap fun
    | .reported 7 sent => some sent
    | _ => none

/-- The barrier was closed twice, in two lives of the leader, with the same
totals. -/
theorem barrier_safety_closingRun : ∃ s : ℕ → Node Unit Unit Unit SentCounts ℕ,
    twoFilters.runs.playAll closingRun twoFilters.initial = some s ∧
    (s 0).log.filter (Event.isClosing 7) = List.replicate 2
      (.closed 7 .emitted ((Dict.empty.set 1 1).set 0 1)) ∧
    (∀ p ∈ twoFilters.ids, ∀ phase per, .closed 7 phase per ∈ (s p).log →
      (∀ q ∈ twoFilters.ids, p ≤ q) ∧
      ∃ sent : ℕ → ShardCounts,
        (∀ q ∈ twoFilters.ids, .reported 7 (sent q) ∈ (s q).log ∧
          ∀ sent', .reported 7 sent' ∈ (s q).log → sent' = sent q) ∧
        ∀ shard, per.getD shard 0 =
          (twoFilters.ids.map fun q => (sent q).getD shard 0).sum) ∧
    ∀ p ∈ twoFilters.ids, AtMostOnce 7 (s p).log := by
  have hplays : (twoFilters.runs.playAll closingRun
      twoFilters.initial).map (fun s => ((s 0).log.filter (Event.isClosing 7),
        reportsOf (s 0), reportsOf (s 1))) =
      some (List.replicate 2
          (.closed 7 .emitted ((Dict.empty.set 1 1).set 0 1)),
        [Dict.empty.set 1 1], [Dict.empty.set 0 1]) := by decide
  obtain ⟨s, hs, hobs⟩ := Option.map_eq_some_iff.mp hplays
  simp only [Prod.mk.injEq] at hobs
  obtain ⟨hclosed, h0, h1⟩ := hobs
  refine ⟨s, hs, hclosed, barrier_safety twoFilters 7 s
    (.idle s (System.reach_of_playAll hs)) ?_⟩
  have hmem : ∀ p sent, .reported 7 sent ∈ (s p).log →
      sent ∈ reportsOf (s p) := fun p sent h =>
    List.mem_filterMap.mpr ⟨_, h, rfl⟩
  intro p hp sent sent' h h'
  have hm := hmem p sent h
  have hm' := hmem p sent' h'
  rcases List.mem_cons.mp hp with rfl | hp
  · rw [h0, List.mem_singleton] at hm hm'
    exact hm.trans hm'.symm
  · obtain rfl := List.mem_singleton.mp hp
    rw [h1, List.mem_singleton] at hm hm'
    exact hm.trans hm'.symm

end AffinityRing
