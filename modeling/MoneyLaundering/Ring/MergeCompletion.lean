import MoneyLaundering.Ring.MergeRecord
import MoneyLaundering.Ring.ReplaySafety

/-!
# Completion of a merge

A merge peer emits a client when both of its sides are complete, whatever the
order in which the messages and the end-of-files of the two queues are handed
over, however often they are redelivered, and wherever between two handlers the
node crashes.
-/

open Crash

/-- The inputs of one client at a merge: some distinct messages on each side, and
end-of-files that announce how many there are.  Copies of either may be in the
queues any number of times, and at any place. -/
structure MergeInputs {α : Type} (arrivals : Side → ℕ → Option (Message α))
    (c : UUID) where
  ids : Side → Finset (ProducerId × ℕ)
  mem_ids : ∀ s id, id ∈ ids s ↔ ∃ i d, RingNode.Carries arrivals (s, i) d ∧
    d.clientId = c ∧ d.identity = id
  numbered : ∀ s, ∀ id ∈ ids s, id.2 ≠ 0
  disjoint : Disjoint (ids .left) (ids .right)
  same : RingNode.SameMessage arrivals
  eof : ∀ s i k, arrivals s i = some (.eof c k) → k = (ids s).card
  noAbort : ∀ s i, arrivals s i ≠ some (.abort c)

namespace MergeInputs

variable {α : Type} {arrivals : Side → ℕ → Option (Message α)} {c : UUID}

/-- The messages of both sides. -/
def all (I : MergeInputs arrivals c) : Finset (ProducerId × ℕ) :=
  I.ids .left ∪ I.ids .right

theorem card_all (I : MergeInputs arrivals c) :
    I.all.card = (I.ids .left).card + (I.ids .right).card :=
  Finset.card_union_of_disjoint I.disjoint

theorem subset_all (I : MergeInputs arrivals c) (s : Side) : I.ids s ⊆ I.all := by
  cases s
  · exact Finset.subset_union_left
  · exact Finset.subset_union_right

theorem mem_all (I : MergeInputs arrivals c) {id : ProducerId × ℕ} :
    id ∈ I.all ↔ ∃ s, id ∈ I.ids s := by
  constructor
  · intro h
    rcases Finset.mem_union.mp h with h | h
    · exact ⟨.left, h⟩
    · exact ⟨.right, h⟩
  · intro h
    obtain ⟨s, h⟩ := h
    exact I.subset_all s h

/-- A message with an identity of the client is one of its messages. -/
theorem mem_all_iff (I : MergeInputs arrivals c) {tag : Side × ℕ}
    {d : DataMsg α} (hd : RingNode.Carries arrivals tag d) :
    d.identity ∈ I.all ↔ d.clientId = c := by
  constructor
  · intro h
    obtain ⟨s, hs⟩ := I.mem_all.mp h
    obtain ⟨i, d', hd', hc, hid⟩ := (I.mem_ids s d.identity).mp hs
    rw [I.same tag (s, i) d d' hd hd' hid.symm]
    exact hc
  · intro h
    exact I.subset_all tag.1 ((I.mem_ids tag.1 d.identity).mpr
      ⟨tag.2, d, hd, h, rfl⟩)

theorem numbered_all (I : MergeInputs arrivals c) {id : ProducerId × ℕ}
    (h : id ∈ I.all) : id.2 ≠ 0 := by
  obtain ⟨s, hs⟩ := I.mem_all.mp h
  exact I.numbered s id hs

end MergeInputs

namespace RingNode

variable {F S α β : Type} {cfg : NodeConfig} {nShards : ℕ}
  {fn : MergeFn F S α β} {arrivals : Side → ℕ → Option (Message α)} {c x : UUID}
  {I : MergeInputs arrivals c} {seen : Side → Prop} {r : MergeRecord}
  {v : MergeClientView}

/-! ## The counters of a client -/

/-- The counters agree with the messages that were processed and with the sides
whose end-of-file was.  The counts of a side may be forgotten only once the
client is emitted. -/
structure Tallied (I : MergeInputs arrivals c) (seen : Side → Prop)
    (r : MergeRecord) : Prop where
  alive : r.aborted = false
  within : r.processed ⊆ I.all
  received : r.received = r.processed.card
  announced : ∀ s k, r.announced s = some k → seen s ∧ k = (I.ids s).card
  kept : r.emitted = false → ∀ s, seen s → r.announced s ≠ none
  expected : (∀ s, seen s) → r.expected = I.all.card
  unknown : (¬∀ s, seen s) → r.expected < 0

/-- Both end-of-files and all messages were processed. -/
def Full (I : MergeInputs arrivals c) (seen : Side → Prop) (r : MergeRecord) :
    Prop :=
  (∀ s, seen s) ∧ r.processed = I.all

/-- The client is emitted exactly when it is complete. -/
structure Settled (I : MergeInputs arrivals c) (seen : Side → Prop)
    (r : MergeRecord) : Prop extends Tallied I seen r where
  emitted : r.emitted = true ↔ Full I seen r

/-- The counter reaches the sum of the two announced counts when both sides are
complete, and not before. -/
theorem Tallied.ready_iff (h : Tallied I seen r) :
    r.Ready ↔ r.emitted = false ∧ Full I seen r := by
  constructor
  · intro hr
    obtain ⟨hopen, hpos, hle⟩ := hr
    have hseen : ∀ s, seen s := by
      by_contra hnot
      exact absurd (h.unknown hnot) (not_lt.mpr hpos)
    rw [h.expected hseen, h.received, Int.ofNat_le] at hle
    exact ⟨hopen, hseen, Finset.eq_of_subset_of_card_le h.within hle⟩
  · intro hf
    obtain ⟨hopen, hseen, hall⟩ := hf
    refine ⟨hopen, ?_, ?_⟩
    · rw [h.expected hseen]
      exact Int.natCast_nonneg _
    · rw [h.expected hseen, h.received, hall]

theorem Tallied.emit (h : Tallied I seen r) : Tallied I seen r.emit :=
  ⟨h.alive, h.within, h.received, h.announced,
    fun hopen => Bool.noConfusion hopen, h.expected, h.unknown⟩

/-- A new message was counted and recorded. -/
theorem Tallied.counted_mark (h : Tallied I seen r) {id : ProducerId × ℕ}
    (hid : id ∈ I.all) (hnew : id ∉ r.processed) :
    Tallied I seen (r.counted.mark id) := by
  refine ⟨h.alive, Finset.insert_subset hid h.within, ?_, h.announced, h.kept,
    h.expected, h.unknown⟩
  change r.received + 1 = (insert id r.processed).card
  rw [Finset.card_insert_of_notMem hnew, h.received]

/-- An emitted client may be freed. -/
theorem Tallied.free (h : Tallied I seen r) (hemitted : r.emitted = true) :
    Tallied I seen r.free := by
  refine ⟨h.alive, h.within, h.received, fun s k hk => ?_, fun hopen => ?_,
    h.expected, h.unknown⟩
  · exact absurd hk (by simp [MergeRecord.free])
  · exact absurd hemitted (by simpa [MergeRecord.free] using hopen)

/-- What the announced counts are after one more of them. -/
theorem Tallied.announced_note (h : Tallied I seen r) {side s : Side} {k : ℤ}
    (hk : (r.note side (I.ids side).card).announced s = some k) :
    (seen s ∨ s = side) ∧ k = (I.ids s).card := by
  by_cases hs : s = side
  · subst hs
    have hself : (r.note s (I.ids s).card).announced s =
        some ((I.ids s).card : ℤ) := Function.update_self _ _ _
    exact ⟨Or.inr rfl, Option.some.inj (hk.symm.trans hself)⟩
  · have hother : (r.note side (I.ids side).card).announced s =
        r.announced s := Function.update_of_ne hs _ _
    obtain ⟨hseen, heq⟩ := h.announced s k (hother.symm.trans hk)
    exact ⟨Or.inl hseen, heq⟩

theorem Tallied.kept_note (h : Tallied I seen r) {side s : Side} {k : ℤ}
    (hopen : r.emitted = false) (hs : seen s ∨ s = side) :
    (r.note side k).announced s ≠ none := by
  by_cases heq : s = side
  · subst heq
    simp [MergeRecord.note]
  · have hother : (r.note side k).announced s = r.announced s :=
      Function.update_of_ne heq _ _
    rw [hother]
    exact h.kept hopen s (hs.resolve_right heq)

/-- A side announced its count, and the other one has not, or was forgotten. -/
theorem Tallied.note_first (h : Tallied I seen r) {side : Side}
    (hfull : r.emitted = true → ∀ s, seen s)
    (hmissing : ∃ s, (r.note side (I.ids side).card).announced s = none) :
    Tallied I (fun s => seen s ∨ s = side)
      (r.note side (I.ids side).card) := by
  refine ⟨h.alive, h.within, h.received, fun s k hk => h.announced_note hk,
    fun hopen s hs => h.kept_note hopen hs, fun hall => ?_, fun hnot => ?_⟩
  · refine h.expected ?_
    cases hemitted : r.emitted with
    | true => exact hfull hemitted
    | false =>
        obtain ⟨s, hs⟩ := hmissing
        exact absurd hs (h.kept_note hemitted (hall s))
  · exact h.unknown fun hall => hnot fun s => Or.inl (hall s)

/-- A side announced its count, after the other one. -/
theorem Tallied.note_second (h : Tallied I seen r) {side : Side} {l k : ℤ}
    (hleft : (r.note side (I.ids side).card).announced .left = some l)
    (hright : (r.note side (I.ids side).card).announced .right = some k) :
    Tallied I (fun s => seen s ∨ s = side)
      { r.note side (I.ids side).card with expected := l + k } := by
  obtain ⟨hseen, rfl⟩ := h.announced_note hleft
  obtain ⟨hseen', rfl⟩ := h.announced_note hright
  refine ⟨h.alive, h.within, h.received, fun s k hk => h.announced_note hk,
    fun hopen s hs => h.kept_note hopen hs, fun _ => ?_, fun hnot => ?_⟩
  · rw [I.card_all, Nat.cast_add]
  · refine absurd (fun s => ?_) hnot
    cases s with
    | left => exact hseen
    | right => exact hseen'

/-! ## Messages -/

/-- What stays fixed while a handler runs. -/
structure MergeLedger where
  up : Bool
  delivered : Finset (Side × ℕ)
  /-- The emissions that are not known any more. -/
  undone : ℕ
  /-- Whether an emission was known before the handler. -/
  standing : Bool

/-- The client is emitted as often as the ledger says, and once more if that is
known. -/
structure MergeLedger.Agrees (L : MergeLedger) (v : MergeClientView) : Prop where
  up : v.up = L.up
  delivered : v.delivered = L.delivered
  emissions : v.emissions = L.undone + if v.mem.emitted then 1 else 0
  standing : L.standing = true → v.mem.emitted = true

variable {L : MergeLedger} {P R : MergeClientView → Prop}

theorem MergeLedger.Agrees.emit (h : L.Agrees v) (hopen : v.mem.emitted = false) :
    L.Agrees v.emit := by
  refine ⟨h.up, h.delivered, ?_, fun _ => rfl⟩
  have hcount := h.emissions
  rw [hopen] at hcount
  change v.emissions + 1 = L.undone + 1
  rw [hcount]
  simp

/-- The state of the client between two messages. -/
structure MergeKept (I : MergeInputs arrivals c) (seen : Side → Prop)
    (L : MergeLedger) (v : MergeClientView) : Prop extends L.Agrees v where
  mem : Settled I seen v.mem
  disk : Settled I seen v.disk
  known : v.disk.emitted = true → v.mem.emitted = true

theorem MergeKept.saved (h : MergeKept I seen L v) : MergeKept I seen L v.saved :=
  ⟨⟨h.up, h.delivered, h.emissions, h.standing⟩, h.mem, h.mem, id⟩

/-- A new message was counted, and recorded after that. -/
theorem MergeKept.data (h : MergeKept I seen L v) {id : ProducerId × ℕ}
    (hid : id ∈ I.all) (hnew : id ∉ v.mem.processed) :
    (¬v.mem.counted.Ready →
      MergeKept I seen L ((v.withMem .counted).withMem (.mark id))) ∧
    (v.mem.counted.Ready →
      MergeKept I seen L ((v.withMem .counted).emit.withMem (.mark id))) := by
  have hopen : v.mem.emitted = false := by
    by_contra hemitted
    rw [Bool.not_eq_false] at hemitted
    exact hnew ((h.mem.emitted.mp hemitted).2 ▸ hid)
  have hnext := h.mem.toTallied.counted_mark hid hnew
  have hledger : L.Agrees (v.withMem .counted) :=
    ⟨h.up, h.delivered, h.emissions, h.standing⟩
  constructor
  · intro hquiet
    refine ⟨⟨h.up, h.delivered, h.emissions, h.standing⟩, ⟨hnext, ?_⟩, h.disk,
      h.known⟩
    refine iff_of_false ?_ fun hfull => ?_
    · change ¬v.mem.emitted = true
      simp [hopen]
    · exact hquiet (hnext.ready_iff.mpr ⟨hopen, hfull⟩)
  · intro hready
    have hfull := (hnext.ready_iff.mp hready).2
    have hemit := hledger.emit hopen
    exact ⟨⟨hemit.up, hemit.delivered, hemit.emissions, hemit.standing⟩,
      ⟨hnext.emit, iff_of_true rfl hfull⟩, h.disk, fun _ => rfl⟩

/-- The state of the client while an end-of-file is handled: the memory may be
complete and not emitted yet. -/
structure Noted (I : MergeInputs arrivals c) (seen : Side → Prop)
    (L : MergeLedger) (v : MergeClientView) : Prop
    extends Tallied I seen v.mem, L.Agrees v where
  full : v.mem.emitted = true → Full I seen v.mem

theorem Noted.saved (h : Noted I seen L v) : Noted I seen L v.saved :=
  ⟨h.toTallied, ⟨h.up, h.delivered, h.emissions, h.standing⟩, h.full⟩

/-- Once nothing is left to emit, a checkpoint settles the client. -/
theorem Noted.settle (h : Noted I seen L v) (hquiet : ¬v.mem.Ready) :
    MergeKept I seen L v.saved := by
  have hsettled : Settled I seen v.mem := by
    refine ⟨h.toTallied, h.full, fun hfull => ?_⟩
    by_contra hopen
    rw [Bool.not_eq_true] at hopen
    exact hquiet (h.toTallied.ready_iff.mpr ⟨hopen, hfull⟩)
  exact ⟨h.saved.toAgrees, hsettled, hsettled, id⟩

theorem MergeKept.free (h : MergeKept I seen L v) (hemitted : v.mem.emitted = true) :
    MergeKept I seen L (v.withMem .free) :=
  ⟨⟨h.up, h.delivered, h.emissions, h.standing⟩,
    ⟨h.mem.toTallied.free hemitted, h.mem.emitted⟩, h.disk, h.known⟩

theorem Noted.emit (h : Noted I seen L v) (hready : v.mem.Ready) :
    Noted I seen L v.emit := by
  obtain ⟨hopen, hfull⟩ := h.toTallied.ready_iff.mp hready
  exact ⟨h.toTallied.emit, h.toAgrees.emit hopen, fun _ => hfull⟩

/-- What an end-of-file of the client changes before anything is written. -/
theorem MergeKept.noteEof {m : Node Side F S MergeEofCounts β} {side : Side} {k : ℤ}
    (h : MergeKept I seen L (mergeView c I.all m))
    (hk : k = (I.ids side).card) :
    let r := noteEof (ringMerge cfg nShards fn) side c k m
    (r.1.Nodup ∧ ∀ y ∈ r.1, y = c) ∧
      (c ∈ r.1 ↔ (mergeView c I.all r.2).mem.Ready) ∧
      Noted I (fun s => seen s ∨ s = side) L (mergeView c I.all r.2) := by
  subst hk
  intro r
  have hfull : (mergeView c I.all m).mem.emitted = true → ∀ s, seen s :=
    fun hemitted => (h.mem.emitted.mp hemitted).1
  have hstill : (mergeView c I.all m).mem.emitted = true →
      (∀ s, seen s ∨ s = side) ∧ (mergeView c I.all m).mem.processed = I.all :=
    fun hemitted => ⟨fun s => Or.inl (hfull hemitted s),
      (h.mem.emitted.mp hemitted).2⟩
  rcases @noteEof_client F S α β cfg nShards fn c I.all m side (I.ids side).card
    h.mem.alive with
    ⟨hemits, hview, hmissing⟩ |
    ⟨total, hview, ⟨l, k, hl, hr, rfl⟩, honly, hready⟩
  · have hnext := h.mem.toTallied.note_first hfull hmissing
    have hemits' : r.1 = [] := hemits
    refine ⟨by simp [hemits'], ?_, ?_⟩
    · rw [hemits', hview]
      refine iff_of_false List.not_mem_nil fun hready => ?_
      obtain ⟨hopen, hall, -⟩ := hnext.ready_iff.mp hready
      obtain ⟨s, hs⟩ := hmissing
      exact h.mem.toTallied.kept_note hopen (hall s) hs
    · rw [hview]
      exact ⟨hnext, ⟨h.up, h.delivered, h.emissions, h.standing⟩, hstill⟩
  · refine ⟨honly, hready, ?_⟩
    rw [hview]
    exact ⟨h.mem.toTallied.note_second hl hr,
      ⟨h.up, h.delivered, h.emissions, h.standing⟩, hstill⟩

section Specs

variable {tag : Side × ℕ} {d : DataMsg α}

/-- A message of another client. -/
theorem spec_handleData_other (hd : Carries arrivals tag d)
    (hx : c ≠ d.clientId) (hsave : ∀ v, P v → P v.saved) :
    Spec (AtMerge (S := S) (β := β) c I.all P)
      (Checkpointer.handleData (ringMerge cfg nShards fn).provider
        (ringMerge cfg nShards fn).checkpointEvery tag d
        (onData (ringMerge cfg nShards fn) tag.1 d))
      (fun _ => AtMerge c I.all P) (fun _ => True) := by
  have hother : d.identity ∉ I.all := fun hmem =>
    hx ((I.mem_all_iff hd).mp hmem).symm
  refine Checkpointer.spec_handleData (R := AtMerge c I.all P)
    (fun m hm _ => ⟨trivial, hm⟩) (fun m hm _ _ => ⟨trivial, hm⟩) ?_ ?_
    fun m hm _ => hm
  · refine ((spec_onData_other hx).pre fun m hm => hm.1).post fun _ m hm => ?_
    rw [AtMerge, mergeView_recorded_of_notMem hother]
    exact hm
  · exact (spec_flush_merge hsave fun _ _ hv => hv).pre fun m hm => hm.1

/-- A message of the client, or a further copy of one. -/
theorem spec_handleData_client (hd : Carries arrivals tag d)
    (hc : d.clientId = c) :
    Spec (AtMerge (S := S) (β := β) c I.all (MergeKept I seen L))
      (Checkpointer.handleData (ringMerge cfg nShards fn).provider
        (ringMerge cfg nShards fn).checkpointEvery tag d
        (onData (ringMerge cfg nShards fn) tag.1 d))
      (fun _ => AtMerge c I.all (MergeKept I seen L)) (fun _ => True) := by
  have hid : d.identity ∈ I.all := (I.mem_all_iff hd).mpr hc
  refine Checkpointer.spec_handleData (R := AtMerge c I.all (MergeKept I seen L))
    (fun m hm _ => ⟨trivial, hm⟩) (fun m hm _ _ => ⟨trivial, hm⟩) ?_ ?_
    fun m hm _ => hm
  · have happly : Spec (AtMerge (S := S) (β := β) c I.all fun v =>
          MergeKept I seen L v ∧ d.identity ∉ v.mem.processed)
        (onData (ringMerge cfg nShards fn) tag.1 d)
        (fun _ => AtMerge c I.all fun v =>
          MergeKept I seen L (v.withMem (.mark d.identity)))
        (fun _ => True) := by
      refine spec_onData_client hc ?_ ?_ ?_
      · exact fun v hv => hv.1.mem.alive
      · exact fun v hv hquiet => (hv.1.data hid hv.2).1 hquiet
      · exact fun v hv hready => (hv.1.data hid hv.2).2 hready
    refine (happly.pre fun m hm => ?_).post fun _ m hm => ?_
    · refine ⟨hm.1, fun hmem => hm.2.2 ?_⟩
      exact (Finset.mem_filter.mp hmem).2
    · rw [AtMerge, mergeView_recorded (I.numbered_all hid) hid]
      exact hm
  · exact (spec_flush_merge (fun _ hv => hv.saved) fun _ _ hv => hv).pre
      fun m hm => hm.1

/-- An announcement of another client. -/
theorem spec_onEof_other {side : Side} {k : ℤ} (hx : c ≠ x)
    (hsave : ∀ v, P v → P v.saved) :
    Spec (AtMerge (S := S) c I.all P)
      (onEof (ringMerge cfg nShards fn) side x k)
      (fun _ => AtMerge c I.all P) (fun _ => True) := by
  have hflush : Spec (AtMerge (S := S) c I.all P)
      (Checkpointer.flush (ringMerge cfg nShards fn).provider true)
      (fun _ => AtMerge c I.all P) (fun _ => True) :=
    spec_flush_merge hsave fun hforce => Bool.noConfusion hforce
  refine Spec.bind (Q := fun emits m => c ∉ emits ∧ AtMerge c I.all P m)
    (Spec.compute fun m hm => ?_) fun emits => Spec.of_pre fun hout => ?_
  · obtain ⟨hout, hview⟩ :=
      @noteEof_other F S α β cfg nShards fn c x I.all m side k hx
    exact ⟨hout, by rw [AtMerge, hview]; exact hm⟩
  refine Spec.bind (Spec.when (fun _ => hflush) fun _ _ hm => hm) fun _ => ?_
  refine Spec.bind (spec_runEmits_others hout) fun _ => ?_
  exact Spec.bind hflush fun _ => spec_free_others hout

/-- An announcement of the client: the checkpoint before the emission has it
ready, the one after it has it emitted. -/
theorem spec_onEof_client {side : Side} {k : ℤ}
    (hk : k = (I.ids side).card) :
    Spec (AtMerge (S := S) c I.all (MergeKept I seen L))
      (onEof (ringMerge cfg nShards fn) side c k)
      (fun _ => AtMerge c I.all (MergeKept I (fun s => seen s ∨ s = side) L))
      (fun _ => True) := by
  refine Spec.bind (Q := fun emits m => (emits.Nodup ∧ ∀ y ∈ emits, y = c) ∧
      (c ∈ emits ↔ (mergeView c I.all m).mem.Ready) ∧
      AtMerge c I.all (Noted I (fun s => seen s ∨ s = side) L) m)
    (Spec.compute fun m hm => hm.noteEof hk) fun emits => ?_
  have hflush : ∀ {P R : MergeClientView → Prop}, (∀ v, P v → R v.saved) →
      Spec (AtMerge (S := S) (β := β) c I.all P)
        (Checkpointer.flush (ringMerge cfg nShards fn).provider true)
        (fun _ => AtMerge c I.all R) (fun _ => True) :=
    fun hsave => spec_flush_merge hsave fun hforce => Bool.noConfusion hforce
  refine Spec.of_pre fun honly => ?_
  by_cases hmem : c ∈ emits
  · refine Spec.bind (Q := fun _ => AtMerge c I.all fun v =>
        Noted I (fun s => seen s ∨ s = side) L v ∧ v.mem.Ready)
      (Spec.when (fun _ => ?_) fun hnil => ?_) fun _ => ?_
    · exact (hflush (P := fun v =>
        Noted I (fun s => seen s ∨ s = side) L v ∧ v.mem.Ready)
        fun v hv => ⟨hv.1.saved, hv.2⟩).pre fun m hm => ⟨hm.2, hm.1.mp hmem⟩
    · rw [not_not] at hnil
      simp [hnil] at hmem
    refine Spec.bind (Q := fun _ => AtMerge c I.all fun v =>
        Noted I (fun s => seen s ∨ s = side) L v ∧ v.mem.emitted = true)
      ((spec_runEmits_client (P := fun v =>
        Noted I (fun s => seen s ∨ s = side) L v ∧ v.mem.Ready)
        (fun v hv hnot => absurd hv.2 hnot)
        (fun v hv _ => ⟨hv.1.emit hv.2, rfl⟩)).pre
          fun m hm => ⟨honly, iff_of_true hmem hm.2, hm⟩) fun _ => ?_
    refine Spec.bind (Q := fun _ => AtMerge c I.all fun v =>
        MergeKept I (fun s => seen s ∨ s = side) L v ∧ v.mem.emitted = true)
      (hflush fun v hv => ⟨hv.1.settle fun hready => ?_, hv.2⟩) fun _ =>
        (spec_free_client emits fun v hv => ⟨hv.1.free hv.2, hv.2⟩).post
          fun _ m hm => hm.1
    have hopen := hready.1
    simp [hv.2] at hopen
  · refine Spec.bind (Q := fun _ => AtMerge c I.all fun v =>
        Noted I (fun s => seen s ∨ s = side) L v ∧ ¬v.mem.Ready)
      (Spec.when (fun _ => ?_) fun _ m hm => ?_) fun _ => ?_
    · exact (hflush (P := fun v =>
        Noted I (fun s => seen s ∨ s = side) L v ∧ ¬v.mem.Ready)
        fun v hv => ⟨hv.1.saved, hv.2⟩).pre
          fun m hm => ⟨hm.2, fun hready => hmem (hm.1.mpr hready)⟩
    · exact ⟨hm.2, fun hready => hmem (hm.1.mpr hready)⟩
    refine Spec.bind (spec_runEmits_others hmem) fun _ => ?_
    exact Spec.bind (hflush fun v hv => hv.1.settle hv.2) fun _ =>
      spec_free_others hmem

/-- The abort of another client. -/
theorem spec_onAbort_other (hx : c ≠ x) (hsave : ∀ v, P v → P v.saved) :
    Spec (AtMerge (S := S) c I.all P)
      (onAbort (ringMerge cfg nShards fn) x)
      (fun _ => AtMerge c I.all P) (fun _ => True) := by
  refine Spec.bind (Q := fun _ => AtMerge c I.all P)
    (Spec.modify fun m hm => ?_) fun _ => ?_
  · have hview : mergeView c I.all (m.withState fun s =>
        { s with rc := s.rc.drop x }) = mergeView c I.all m :=
      congrArg (MergeClientView.mk · _ _ _ _) (MergeRecord.of_drop_of_ne hx)
    rw [AtMerge, hview]
    exact hm
  refine Spec.bind (Q := fun _ => AtMerge c I.all P)
    (Spec.change (fun _ _ => trivial) fun m hm => ?_) fun _ => ?_
  · rw [AtMerge]
    exact (@mergeView_freed_of_ne F S α β cfg nShards fn c x I.all m hx) ▸ hm
  refine Spec.bind (Q := fun _ => AtMerge c I.all P)
    (Spec.modify fun m hm => ?_) fun _ => ?_
  · have hview : mergeView c I.all { m with
        aborted := insert x m.aborted, dirty := true } = mergeView c I.all m :=
      congrArg (MergeClientView.mk · _ _ _ _) (MergeRecord.of_insert_of_ne hx)
    rw [AtMerge, hview]
    exact hm
  refine Spec.bind (spec_flush_merge hsave fun hforce =>
    Bool.noConfusion hforce) fun _ => ?_
  refine Spec.forEach (I := fun _ => AtMerge c I.all P) _ fun _ shard _ _ => ?_
  refine Spec.change (fun _ _ => trivial) fun m hm => ?_
  rw [AtMerge, mergeView_logged rfl]
  exact hm

/-- A token that does not close the barrier of a client in processing. -/
theorem spec_onRingMsg_merge {t : BarrierToken} (hsave : ∀ v, P v → P v.saved) :
    Spec (fun m => AtMerge (S := S) c I.all P m ∧
        ¬RingCompletion.Premature cfg.self m.rc c t)
      (onRingMsg (ringMerge cfg nShards fn) t)
      (fun _ => AtMerge c I.all P) (fun _ => True) := by
  refine Spec.bind (Q := fun _ => AtMerge c I.all P)
    (Spec.compute fun m hm => ?_) fun actions => ?_
  · rw [AtMerge, mergeView_receiveToken hm.2]
    exact hm.1
  refine Spec.bind (spec_runBarrier (P := AtMerge c I.all P) actions
    (fun _ _ => trivial) fun m e he hm => ?_) fun _ =>
      spec_flush_merge hsave fun hforce => Bool.noConfusion hforce
  rw [AtMerge, mergeView_logged (emits_of_isBarrier he)]
  exact hm

/-- A settled client is not re-emitted at a start. -/
theorem MergeKept.not_mem_recheck {m : Node Side F S MergeEofCounts β}
    (h : MergeKept I seen L (mergeView c I.all m)) : c ∉ m.rc.recheck := by
  intro hmem
  have hready : (mergeView c I.all m).mem.Ready :=
    MergeRecord.ready_of.mpr (RingCompletion.mem_recheck.mp hmem)
  obtain ⟨hopen, hfull⟩ := h.mem.toTallied.ready_iff.mp hready
  have hemitted := h.mem.emitted.mpr hfull
  rw [hopen] at hemitted
  cases hemitted

/-- A start takes over the checkpoint, which leaves nothing of the client to
emit. -/
theorem spec_start_merge :
    Spec (fun m => Blank (ringMerge cfg nShards fn) m ∧
        AtMerge (S := S) c I.all (fun v => MergeKept I seen L
          (v.withMem fun _ => v.disk)) m)
      (start (ringMerge cfg nShards fn))
      (fun _ => AtMerge c I.all (MergeKept I seen { L with up := true })) (fun _ => True) := by
  refine Spec.bind (Q := fun _ m => Blank (ringMerge cfg nShards fn) m ∧
      AtMerge (S := S) c I.all (fun v => MergeKept I seen L
        (v.withMem fun _ => v.disk)) m) (Spec.modify fun m hm => ?_) fun _ => ?_
  · refine ⟨hm.1.logged _, ?_⟩
    rw [AtMerge, mergeView_logged rfl]
    exact hm.2
  refine Spec.bind (Q := fun _ => AtMerge c I.all (MergeKept I seen L))
    (Checkpointer.spec_restore (fun _ _ => trivial) ?_ ?_) fun restored => ?_
  · intro m hm hnone
    have hmem : (mergeView c I.all m).mem = (mergeView c I.all m).disk := by
      have hblank : (mergeView c I.all m).mem = .blank := by
        have hb := hm.1
        change MergeRecord.of c I.all m.state.rc m.aborted m.state.extra
          m.dedup = _
        rw [hb.rc, hb.aborted, hb.extra, hb.dedup]
        exact MergeRecord.of_blank c I.all
      have hdisk : (mergeView c I.all m).disk = .blank := by
        simp [mergeView, storedRecord, hnone]
      rw [hblank, hdisk]
    have hkept := hm.2
    rw [AtMerge, ← hmem] at hkept
    exact hkept
  · intro m b hm hb
    rw [AtMerge, mergeView_restored hb]
    exact hm.2
  refine Spec.bind (Q := fun _ => AtMerge c I.all (MergeKept I seen L))
    (Spec.when (fun _ => ?_) fun _ _ hm => hm) fun _ => ?_
  · refine Spec.read_bind fun a => ?_
    refine Spec.bind (Q := fun _ => AtMerge c I.all (MergeKept I seen L))
      (fun m hm => ?_) fun _ => ?_
    · exact spec_runEmits_others (hm.1 ▸ hm.2.not_mem_recheck) m hm.2
    refine Spec.read_bind fun a' => ?_
    refine Spec.bind (Q := fun _ => AtMerge c I.all (MergeKept I seen L))
      (fun m hm => ?_) fun _ => spec_flush_merge (fun _ hv => hv.saved)
        fun hforce => Bool.noConfusion hforce
    obtain ⟨rfl, hkept⟩ := hm
    by_cases hmem : c ∈ m.rc.resolvedClients
    · have hemitted : (mergeView c I.all m).mem.emitted = true := by
        simpa [mergeView, MergeRecord.of] using
          RingCompletion.mem_resolvedClients.mp hmem
      exact ((spec_free_client m.rc.resolvedClients (P := fun v =>
        MergeKept I seen L v ∧ v.mem.emitted = true)
          fun v hv => ⟨hv.1.free hv.2, hv.2⟩).post fun _ m hm => hm.1) m
            ⟨hkept, hemitted⟩
    · exact spec_free_others hmem m hkept
  · refine Spec.modify fun m hm => ?_
    exact ⟨⟨rfl, hm.delivered, hm.emissions, hm.standing⟩, hm.mem, hm.disk,
      hm.known⟩

end Specs

/-! ## Runs -/

/-- The end-of-file of the side was handed to the node.  Where no handler is cut
short it was processed. -/
def EofProcessed (arrivals : Side → ℕ → Option (Message α)) (c : UUID)
    (delivered : Finset (Side × ℕ)) (s : Side) : Prop :=
  ∃ i k, arrivals s i = some (.eof c k) ∧ (s, i) ∈ delivered

/-- Both end-of-files and all messages of the client were processed, none of them
undone by a crash. -/
def Complete (I : MergeInputs arrivals c)
    (m : Node Side F S MergeEofCounts β) : Prop :=
  (∀ s, EofProcessed arrivals c m.delivered s) ∧
    ∀ s, ∀ id ∈ I.ids s, m.dedup.Recorded id

/-- The handler that led from the first state to the second emitted the client. -/
def Emits (c : UUID) (m m' : Node Side F S MergeEofCounts β) : Prop :=
  emissions c m' = emissions c m + 1

/-- A crash would undo the emission of the client: the process knows of it, and
its checkpoint does not. -/
def Undoes (c : UUID) (m : Node Side F S MergeEofCounts β) : Prop :=
  m.up = true ∧ (m.rc.client c).phase ≠ .processing ∧
    (m.storedRc.client c).phase = .processing

/-- A merge with its two queues.  Tokens come in too, except that none closes the
barrier of the client before the node emitted it. -/
def mergeSystem (cfg : NodeConfig) (nShards : ℕ) (fn : MergeFn F S α β)
    (arrivals : Side → ℕ → Option (Message α)) (c : UUID) :
    System Effect (Node Side F S MergeEofCounts β) (Call Side)
      (UUID → ℕ → ℕ) :=
  { system (ringMerge cfg nShards fn) arrivals false fun _ => True with
    enabled := fun call m => Enabled arrivals false call m ∧
      ∀ t, call = .token t → ¬RingCompletion.Premature cfg.self m.rc c t }

/-- The client as the node knows it, or will know it once it is started. -/
def current (c : UUID) (ids : Finset (ProducerId × ℕ))
    (m : Node Side F S MergeEofCounts β) : MergeClientView :=
  if m.up then mergeView c ids m
  else (mergeView c ids m).withMem fun _ => (mergeView c ids m).disk

/-- The emission of the client that a start would not repeat. -/
def Standing (c : UUID) (m : Node Side F S MergeEofCounts β) : Prop :=
  ((if m.up then m.rc else m.storedRc).client c).phase ≠ .processing

theorem emitted_current {ids : Finset (ProducerId × ℕ)}
    {m : Node Side F S MergeEofCounts β} :
    (current c ids m).mem.emitted = true ↔ Standing c m := by
  unfold current Standing
  cases hup : m.up with
  | true => simp [mergeView, MergeRecord.of]
  | false =>
      cases hstore : m.store <;>
        simp [MergeClientView.withMem, mergeView, storedRecord, Node.storedRc, hstore,
          MergeRecord.of, MergeRecord.blank]

/-! ### Calls -/

theorem eofProcessed_insert {tag : Side × ℕ} {D : Finset (Side × ℕ)} {s : Side} :
    EofProcessed arrivals c (insert tag D) s ↔ EofProcessed arrivals c D s ∨
      s = tag.1 ∧ ∃ k, arrivals tag.1 tag.2 = some (.eof c k) := by
  constructor
  · intro h
    obtain ⟨i, k, heof, hmem⟩ := h
    rcases Finset.mem_insert.mp hmem with rfl | hmem
    · exact Or.inr ⟨rfl, k, heof⟩
    · exact Or.inl ⟨i, k, heof, hmem⟩
  · intro h
    rcases h with ⟨i, k, heof, hmem⟩ | ⟨rfl, k, heof⟩
    · exact ⟨i, k, heof, Finset.mem_insert_of_mem hmem⟩
    · exact ⟨tag.2, k, heof, Finset.mem_insert_self _ _⟩

theorem MergeKept.congr {seen' : Side → Prop} (h : MergeKept I seen L v)
    (hseen : ∀ s, seen' s ↔ seen s) : MergeKept I seen' L v := by
  obtain rfl : seen' = seen := funext fun s => propext (hseen s)
  exact h

/-- One delivery: what it adds is processed at its end. -/
theorem spec_receive_merge {tag : Side × ℕ} {msg : Message α}
    {D : Finset (Side × ℕ)} {n : ℕ} {b : Bool}
    (htag : arrivals tag.1 tag.2 = some msg) :
    Spec (AtMerge (S := S) c I.all
        (MergeKept I (EofProcessed arrivals c D) ⟨true, D, n, b⟩))
      (receive (ringMerge cfg nShards fn) tag (some msg))
      (fun _ => AtMerge c I.all (MergeKept I
        (EofProcessed arrivals c (insert tag D)) ⟨true, insert tag D, n, b⟩))
      (fun _ => True) := by
  refine Spec.bind (Q := fun _ => AtMerge c I.all (MergeKept I
      (EofProcessed arrivals c D) ⟨true, insert tag D, n, b⟩))
    (Spec.modify fun m hm => ?_) fun _ => ?_
  · refine ⟨⟨hm.up, ?_, hm.emissions, hm.standing⟩, hm.mem, hm.disk, hm.known⟩
    exact congrArg (insert tag) hm.delivered
  have hack : ∀ {P : MergeClientView → Prop}, Spec (AtMerge (S := S) c I.all P)
      (Checkpointer.ack tag : NodeProg Side F S MergeEofCounts β Unit)
      (fun _ => AtMerge c I.all P) (fun _ => True) :=
    fun {P} => Spec.change (fun _ _ => trivial) fun m hm => hm
  have hflush : Spec (AtMerge (S := S) c I.all (MergeKept I
        (EofProcessed arrivals c D) ⟨true, insert tag D, n, b⟩))
      (Checkpointer.flush (ringMerge cfg nShards fn).provider false)
      (fun _ => AtMerge c I.all (MergeKept I (EofProcessed arrivals c D)
        ⟨true, insert tag D, n, b⟩)) (fun _ => True) :=
    spec_flush_merge (fun _ hv => hv.saved) fun _ _ hv => hv
  -- a message that is no end-of-file of the client leaves the two sides alone
  have hsame : (∀ k, msg ≠ .eof c k) → ∀ s,
      EofProcessed arrivals c (insert tag D) s ↔ EofProcessed arrivals c D s := by
    intro hmsg s
    rw [eofProcessed_insert]
    refine or_iff_left fun heof => ?_
    obtain ⟨-, k, hk⟩ := heof
    exact hmsg k (Option.some.inj (htag.symm.trans hk))
  refine Checkpointer.spec_dispatch ?_ ?_ ?_
  · intro x k hmsg
    subst hmsg
    refine Spec.bind hflush fun _ => ?_
    by_cases hx : x = c
    · subst hx
      refine Spec.bind (spec_onEof_client (I.eof tag.1 tag.2 k htag)) fun _ =>
        hack.post fun _ m hm => hm.congr fun s => ?_
      rw [eofProcessed_insert]
      exact or_congr_right (and_iff_left ⟨k, htag⟩)
    · refine Spec.bind (spec_onEof_other (Ne.symm hx) fun _ hv => hv.saved)
        fun _ => hack.post fun _ m hm => hm.congr (hsame fun k' heq => ?_)
      exact hx (Message.eof.inj heq).1
  · intro x hmsg
    subst hmsg
    have hx : c ≠ x := by
      rintro rfl
      exact I.noAbort tag.1 tag.2 htag
    exact Spec.bind (spec_onAbort_other hx fun _ hv => hv.saved) fun _ =>
      hack.post fun _ m hm => hm.congr (hsame fun k heq => by cases heq)
  · intro d hmsg
    subst hmsg
    have hcongr := hsame fun k heq => by cases heq
    by_cases hc : d.clientId = c
    · exact (spec_handleData_client htag hc).post
        fun _ m hm => hm.congr hcongr
    · exact (spec_handleData_other htag (Ne.symm hc) fun _ hv => hv.saved).post
        fun _ m hm => hm.congr hcongr

/-- The invariant of a run. -/
structure MergeInv (C : Controller Side F S MergeEofCounts α β)
    (I : MergeInputs arrivals c) (m : Node Side F S MergeEofCounts β) : Prop where
  kept : ∃ L, MergeKept I (EofProcessed arrivals c m.delivered) L
    (current c I.all m)
  blank : m.up = false → Blank C m

variable {m : Node Side F S MergeEofCounts β}

theorem current_of_up (hup : m.up = true) :
    current c I.all m = mergeView c I.all m := by
  rw [current, if_pos hup]

theorem current_of_down (hdown : m.up = false) :
    current c I.all m =
      (mergeView c I.all m).withMem fun _ => (mergeView c I.all m).disk := by
  rw [current, if_neg (by simp [hdown])]

theorem current_frame : (current c I.all m).emissions = emissions c m ∧
    (current c I.all m).up = m.up ∧
      (current c I.all m).delivered = m.delivered := by
  cases hup : m.up with
  | true =>
      rw [current_of_up hup]
      exact ⟨rfl, hup, rfl⟩
  | false =>
      rw [current_of_down hup]
      exact ⟨rfl, hup, rfl⟩

/-- The same emissions are known and undone after a call as before it, except for
the one that the call itself makes. -/
theorem MergeInv.call (h : MergeInv (ringMerge cfg nShards fn) I m)
    {call : Call Side} (he : (mergeSystem cfg nShards fn arrivals c).enabled call m) :
    let m' := ((mergeSystem cfg nShards fn arrivals c).handler call m).final
    m'.up = true ∧ ∃ n,
      emissions c m = n + (if (current c I.all m).mem.emitted then 1 else 0) ∧
      MergeKept I (EofProcessed arrivals c m'.delivered)
        ⟨true, m'.delivered, n, (current c I.all m).mem.emitted⟩
        (mergeView c I.all m') := by
  intro m'
  obtain ⟨L, hL⟩ := h.kept
  obtain ⟨hcount, hup, hdelivered⟩ := current_frame (I := I) (m := m)
  have hnow : MergeKept I (EofProcessed arrivals c m.delivered)
      ⟨m.up, m.delivered, L.undone, (current c I.all m).mem.emitted⟩
      (current c I.all m) :=
    ⟨⟨hup, hdelivered, hL.emissions, id⟩, hL.mem, hL.disk, hL.known⟩
  have hdone : ∀ D, MergeKept I (EofProcessed arrivals c D)
      ⟨true, D, L.undone, (current c I.all m).mem.emitted⟩
        (mergeView c I.all m') → m'.up = true ∧ ∃ n,
      emissions c m = n + (if (current c I.all m).mem.emitted then 1 else 0) ∧
      MergeKept I (EofProcessed arrivals c m'.delivered)
        ⟨true, m'.delivered, n, (current c I.all m).mem.emitted⟩
        (mergeView c I.all m') := by
    intro D hD
    obtain rfl : m'.delivered = D := hD.delivered
    exact ⟨hD.up, L.undone, hcount.symm.trans hL.emissions, hD⟩
  cases call with
  | start =>
      have hdown : m.up = false := he.1
      refine hdone m.delivered (spec_start_merge (L := ⟨false, m.delivered,
        L.undone, (current c I.all m).mem.emitted⟩) m ⟨h.blank hdown, ?_⟩).2
      rw [hdown, current_of_down hdown] at hnow
      rw [AtMerge, current_of_down hdown]
      exact hnow
  | token t =>
      have hlive : m.up = true := he.1
      rw [hlive, current_of_up hlive] at hnow
      refine hdone m.delivered ?_
      rw [current_of_up hlive]
      exact (spec_onRingMsg_merge (fun _ hv => hv.saved) m
        ⟨hnow, he.2 t rfl⟩).2
  | deliver tag =>
      have hlive : m.up = true := he.1.1
      obtain ⟨msg, htag⟩ := Option.isSome_iff_exists.mp he.1.2.1
      rw [hlive, current_of_up hlive] at hnow
      refine hdone (insert tag m.delivered) ?_
      rw [current_of_up hlive]
      have hfinal := (@spec_receive_merge F S α β cfg nShards fn arrivals c I tag msg _ _ _
        htag m hnow).2
      rw [← htag] at hfinal
      exact hfinal

/-! ### Runs -/

/-- A crash between two handlers keeps an emission if the checkpoint has it. -/
theorem MergeInv.reboot (h : MergeInv (ringMerge cfg nShards fn) I m)
    (k : UUID → ℕ → ℕ) : MergeInv (ringMerge cfg nShards fn) I
      (m.reboot (ringMerge cfg nShards fn).provider k) := by
  refine ⟨?_, fun _ => blank_reboot k m⟩
  rw [current_of_down (m := m.reboot (ringMerge cfg nShards fn).provider k) rfl]
  obtain ⟨L, hL⟩ := h.kept
  obtain ⟨hcount, -, -⟩ := current_frame (I := I) (m := m)
  have hdisk : (current c I.all m).disk = (mergeView c I.all m).disk := by
    unfold current
    split <;> rfl
  have hkept : ∀ n, emissions c m =
      n + (if (mergeView c I.all m).disk.emitted then 1 else 0) →
      ∃ L, MergeKept I (EofProcessed arrivals c m.delivered) L
        ((mergeView c I.all (m.reboot (ringMerge cfg nShards fn).provider
          k)).withMem fun _ => (mergeView c I.all m).disk) :=
    fun n hn => ⟨⟨false, m.delivered, n, false⟩, ⟨rfl, rfl, hn, by simp⟩,
      hdisk ▸ hL.disk, hdisk ▸ hL.disk, id⟩
  cases hstored : (mergeView c I.all m).disk.emitted with
  | true =>
      have hmem := hL.known (hdisk ▸ hstored)
      refine hkept L.undone ?_
      rw [← hcount, hL.emissions, hmem, hstored]
  | false =>
      refine hkept (emissions c m) ?_
      rw [hstored]
      rfl

theorem mergeInv_initial (f₀ : F) : MergeInv (ringMerge cfg nShards fn) I
    (Machine.initial ((ringMerge cfg nShards fn).fresh f₀)) := by
  refine ⟨⟨⟨false, ∅, 0, false⟩, ?_⟩, fun _ => blank_initial f₀⟩
  have hunseen : ∀ s, ¬EofProcessed arrivals c ∅ s := by
    intro s hs
    obtain ⟨i, k, -, hmem⟩ := hs
    exact absurd hmem (Finset.notMem_empty _)
  have hblank : Settled I (EofProcessed arrivals c ∅) .blank := by
    refine ⟨⟨rfl, Finset.empty_subset _, rfl, fun s k hk => ?_, fun _ s hs =>
      absurd hs (hunseen s), fun hall => absurd (hall .left) (hunseen .left),
      fun _ => by decide⟩, ?_⟩
    · cases hk
    · refine iff_of_false Bool.false_ne_true fun hfull => ?_
      exact hunseen .left (hfull.1 .left)
  exact ⟨⟨rfl, rfl, rfl, by simp⟩, hblank, hblank, id⟩

/-- A consuming node knows an emission of the client exactly when the client is
complete. -/
theorem complete_iff {L : MergeLedger}
    (h : MergeKept I (EofProcessed arrivals c m.delivered) L (mergeView c I.all m)) :
    Complete I m ↔ (mergeView c I.all m).mem.emitted = true := by
  rw [h.mem.emitted]
  refine and_congr_right fun _ => ?_
  change _ ↔ I.all.filter m.dedup.Recorded = I.all
  rw [Finset.filter_eq_self]
  constructor
  · intro hall id hid
    obtain ⟨s, hs⟩ := I.mem_all.mp hid
    exact hall s id hs
  · exact fun hall s id hs => hall id (I.subset_all s hs)

/-- A handler keeps an emission that is known, and makes one exactly when the
client is complete after it and no emission was known. -/
theorem MergeInv.emits_iff (h : MergeInv (ringMerge cfg nShards fn) I m)
    {call : Call Side} (he : (mergeSystem cfg nShards fn arrivals c).enabled call m) :
    let m' := ((mergeSystem cfg nShards fn arrivals c).handler call m).final
    (Standing c m → Standing c m') ∧ (Standing c m' ↔ Complete I m') ∧
      (Emits c m m' ↔ Complete I m' ∧ ¬Standing c m) ∧
      (¬Emits c m m' → emissions c m' = emissions c m) := by
  intro m'
  obtain ⟨hup, n, hcount, hkept⟩ := h.call he
  have hafter : emissions c m' =
      n + if (mergeView c I.all m').mem.emitted then 1 else 0 := hkept.emissions
  have hstanding : Standing c m' ↔ (mergeView c I.all m').mem.emitted = true := by
    rw [← @emitted_current F S β c I.all, current_of_up hup]
  have hcomplete := complete_iff hkept
  rw [← @emitted_current F S β c I.all]
  have hstill : (current c I.all m).mem.emitted = true →
      (mergeView c I.all m').mem.emitted = true := hkept.standing
  refine ⟨fun hst => hstanding.mpr (hstill hst), hstanding.trans hcomplete.symm,
    ?_, ?_⟩
  · rw [hcomplete, Emits, hcount, hafter]
    cases hold : (current c I.all m).mem.emitted with
    | true => simp [hstill hold]
    | false => cases hnew : (mergeView c I.all m').mem.emitted <;> simp
  · rw [Emits, hcount, hafter]
    cases hold : (current c I.all m).mem.emitted with
    | true => simp [hstill hold]
    | false => cases (mergeView c I.all m').mem.emitted <;> simp

theorem MergeInv.next (h : MergeInv (ringMerge cfg nShards fn) I m)
    {call : Call Side} (he : (mergeSystem cfg nShards fn arrivals c).enabled call m) :
    MergeInv (ringMerge cfg nShards fn) I
      ((mergeSystem cfg nShards fn arrivals c).handler call m).final := by
  obtain ⟨hup, n, -, hkept⟩ := h.call he
  refine ⟨?_, fun hdown => ?_⟩
  · rw [current_of_up hup]
    exact ⟨_, hkept⟩
  · rw [hup] at hdown
    cases hdown

variable {f₀ : F}

theorem mergeInv_reach
    (h : (mergeSystem cfg nShards fn arrivals c).WholeReach
      (Machine.initial ((ringMerge cfg nShards fn).fresh f₀)) m) :
    MergeInv (ringMerge cfg nShards fn) I m :=
  System.WholeReach.invariant (mergeInv_initial f₀)
    (fun _ _ hm he => hm.next he) (fun _ k _ hm _ => hm.reboot k) h

/-- A merge peer completes exactly when both sides are complete.  In every run in
which handlers are not cut short, a handler that emits the client ends with both
end-of-files and all messages processed; a handler that ends so emits the client,
unless they were processed before it already or it is a start from a checkpoint
that has the emission; no handler emits the client twice; and between two
handlers that emit it a crash undid the first emission. -/
theorem merge_completes {F S α β : Type} (cfg : NodeConfig) (nShards : ℕ)
    (fn : MergeFn F S α β) (arrivals : Side → ℕ → Option (Message α)) (c : UUID)
    (I : MergeInputs arrivals c) (f₀ : F)
    (m : Node Side F S MergeEofCounts β) (call : Call Side)
    (h : (mergeSystem cfg nShards fn arrivals c).WholeReach
      (Machine.initial ((ringMerge cfg nShards fn).fresh f₀)) m)
    (he : (mergeSystem cfg nShards fn arrivals c).enabled call m) :
    let run := (mergeSystem cfg nShards fn arrivals c).handler
    let m' := (run call m).final
    (Emits c m m' → Complete I m') ∧
    (Complete I m' → Emits c m m' ∨ (m.up = true ∧ Complete I m) ∨
      (m.up = false ∧ (m.storedRc.client c).phase ≠ .processing)) ∧
    (Emits c m m' ∨ emissions c m' = emissions c m) ∧
    ∀ m₂ call₂, (mergeSystem cfg nShards fn arrivals c).WholeReach m' m₂ →
      (mergeSystem cfg nShards fn arrivals c).enabled call₂ m₂ →
      Emits c m m' → Emits c m₂ (run call₂ m₂).final →
      ∃ m₁ k, (mergeSystem cfg nShards fn arrivals c).WholeReach m' m₁ ∧
        Undoes c m₁ ∧ (mergeSystem cfg nShards fn arrivals c).WholeReach
          (m₁.reboot (ringMerge cfg nShards fn).provider k) m₂ := by
  intro run m'
  have hinv := mergeInv_reach (I := I) h
  obtain ⟨-, hstanding, hemits, hquiet⟩ := hinv.emits_iff he
  refine ⟨fun hem => (hemits.mp hem).1, fun hall => ?_, ?_, ?_⟩
  · by_cases hst : Standing c m
    · refine Or.inr ?_
      cases hup : m.up with
      | true =>
          obtain ⟨L, hL⟩ := hinv.kept
          rw [← @emitted_current F S β c I.all] at hst
          rw [current_of_up hup] at hL hst
          exact Or.inl ⟨rfl, (complete_iff hL).mpr hst⟩
      | false =>
          refine Or.inr ⟨rfl, ?_⟩
          rw [Standing, if_neg (by simp [hup])] at hst
          exact hst
    · exact Or.inl (hemits.mpr ⟨hall, hst⟩)
  · by_cases hem : Emits c m m'
    · exact Or.inl hem
    · exact Or.inr (hquiet hem)
  · intro m₂ call₂ hreach he₂ hem hem₂
    have hreach' := (h.next (.finish call m he)).trans hreach
    have hlost := (((mergeInv_reach (I := I) hreach').emits_iff he₂).2.2.1.mp
      hem₂).2
    have hinv' := mergeInv_reach (I := I) (h.next (.finish call m he))
    have hcrash := System.WholeReach.exists_crash (P := Standing c)
      (I := MergeInv (ringMerge cfg nShards fn) I) hinv'
      (fun _ _ hm he => hm.next he) (fun _ k _ hm _ => hm.reboot k)
      (fun _ _ hm hst he => (hm.emits_iff he).1 hst)
      (hstanding.mpr (hemits.mp hem).1) hreach hlost
    obtain ⟨i, k, m₁, hreach₁, hst, -, hgone, hrest⟩ := hcrash
    refine ⟨m₁, k, hreach₁, ?_, hrest⟩
    have hstored : (m₁.storedRc.client c).phase = .processing := not_not.mp hgone
    cases hup : m₁.up with
    | true =>
        refine ⟨hup, ?_, hstored⟩
        rw [Standing, if_pos hup] at hst
        exact hst
    | false =>
        rw [Standing, if_neg (by simp [hup])] at hst
        exact absurd hstored hst

instance (cfg : NodeConfig) (nShards : ℕ) (fn : MergeFn F S α β)
    (arrivals : Side → ℕ → Option (Message α)) (c : UUID) (call : Call Side) :
    DecidablePred ((mergeSystem cfg nShards fn arrivals c).enabled call) :=
  fun m => match call with
  | .start => decidable_of_iff (m.up = false)
      ⟨fun h => ⟨h, fun _ ht => by cases ht⟩, fun h => h.1⟩
  | .deliver tag => decidable_of_iff
      (Enabled (β := β) (F := F) (S := S) arrivals false (.deliver tag) m)
      ⟨fun h => ⟨h, fun _ ht => by cases ht⟩, fun h => h.1⟩
  | .token t => decidable_of_iff
      (m.up = true ∧ ¬RingCompletion.Premature cfg.self m.rc c t)
      ⟨fun h => ⟨h.1, fun _ ht => Call.token.inj ht ▸ h.2⟩,
        fun h => ⟨h.1, h.2 t rfl⟩⟩

instance (cfg : NodeConfig) (nShards : ℕ) (fn : MergeFn F S α β)
    (arrivals : Side → ℕ → Option (Message α)) (c : UUID) (call : Call Side)
    (k : UUID → ℕ → ℕ) :
    DecidablePred ((mergeSystem cfg nShards fn arrivals c).crashable call k) :=
  fun _ => inferInstanceAs (Decidable True)

/-- One message of client `7` on each side. -/
def oneEach : MergeInputs (fun q => oneMessage (sideProducer q)) 7 where
  ids s := {(sideProducer s, 1)}
  mem_ids s id := by
    constructor
    · intro hid
      obtain rfl := Finset.mem_singleton.mp hid
      exact ⟨0, ⟨7, sideProducer s, 1, 5⟩, rfl, rfl, rfl⟩
    · intro hid
      obtain ⟨i, d, hd, -, rfl⟩ := hid
      match i, hd with
      | 0, hd =>
          obtain rfl := Message.data.inj (Option.some.inj hd)
          exact Finset.mem_singleton_self _
      | 1, hd => cases hd
      | _ + 2, hd => cases hd
  numbered s id hid := by
    obtain rfl := Finset.mem_singleton.mp hid
    exact Nat.one_ne_zero
  disjoint := by decide
  same := (orderedQueues_oneMessage (p := sideProducer) fun q q' h => by
    cases q <;> cases q' <;> first | rfl | cases h).same
  eof s i k h := by
    match i, h with
    | 0, h => cases h
    | 1, h =>
        obtain ⟨-, rfl⟩ := Message.eof.inj (Option.some.inj h)
        rfl
    | _ + 2, h => cases h
  noAbort s i h := by
    match i, h with
    | 0, h => cases h
    | 1, h => cases h
    | _ + 2, h => cases h

/-- A merge that reads one message of client `7` on each side. -/
abbrev oneEachSystem : System Effect
    (Node Side (ℕ × ℕ) (ℕ × ℕ) MergeEofCounts ℕ) (Call Side) (UUID → ℕ → ℕ) :=
  mergeSystem onlyNode 2 totalMerge (fun q => oneMessage (sideProducer q)) 7

/-- The message on the right is handed over. -/
def readRight (m : Node Side (ℕ × ℕ) (ℕ × ℕ) MergeEofCounts ℕ) :
    Node Side (ℕ × ℕ) (ℕ × ℕ) MergeEofCounts ℕ :=
  (oneEachSystem.handler (.deliver (.right, 0)) m).final

instance (m m' : Node Side F S MergeEofCounts β) : Decidable (Emits c m m') :=
  inferInstanceAs (Decidable (_ = _))

/-- The last message completes the client, and the process crashes before its
next checkpoint: the message is read again and the client emitted again. -/
theorem merge_completes_undone :
    ∃ m m₂, oneEachSystem.playAll [.finish .start, .finish (.deliver (.left, 0)),
        .finish (.deliver (.left, 1)), .finish (.deliver (.right, 1))]
        (Machine.initial ((ringMerge onlyNode 2 totalMerge).fresh (0, 0))) =
          some m ∧
      oneEachSystem.playAll [.idleCrash .start fun _ n => n, .finish .start]
        (readRight m) = some m₂ ∧
      Emits 7 m (readRight m) ∧ Complete oneEach (readRight m) ∧
      Emits 7 m₂ (readRight m₂) ∧
      ∃ m₁ k, oneEachSystem.WholeReach (readRight m) m₁ ∧ Undoes 7 m₁ ∧
        oneEachSystem.WholeReach
          (m₁.reboot (ringMerge onlyNode 2 totalMerge).provider k) m₂ := by
  have hplays : (oneEachSystem.playAll [.finish .start,
      .finish (.deliver (.left, 0)), .finish (.deliver (.left, 1)),
      .finish (.deliver (.right, 1))]
      (Machine.initial ((ringMerge onlyNode 2 totalMerge).fresh (0, 0)))).map
      (fun m => (decide (oneEachSystem.enabled (.deliver (.right, 0)) m ∧
          Emits 7 m (readRight m)),
        (oneEachSystem.playAll [.idleCrash .start fun _ n => n, .finish .start]
          (readRight m)).map fun m₂ =>
            decide (oneEachSystem.enabled (.deliver (.right, 0)) m₂ ∧
              Emits 7 m₂ (readRight m₂)))) = some (true, some true) := by
    decide
  obtain ⟨m, hm, hobs⟩ := Option.map_eq_some_iff.mp hplays
  obtain ⟨hfirst, hsecond⟩ := Prod.mk.inj hobs
  obtain ⟨he, hemits⟩ := of_decide_eq_true hfirst
  obtain ⟨m₂, hm₂, hagain⟩ := Option.map_eq_some_iff.mp hsecond
  obtain ⟨he₂, hemits₂⟩ := of_decide_eq_true hagain
  have hreach := System.wholeReach_of_playAll (by simp [System.Whole]) hm
  have hreach₂ := System.wholeReach_of_playAll (by simp [System.Whole]) hm₂
  obtain ⟨hall, -, -, honce⟩ := merge_completes onlyNode 2 totalMerge _ 7 oneEach
    (0, 0) m (.deliver (.right, 0)) hreach he
  exact ⟨m, m₂, hm, hm₂, hemits, hall hemits, hemits₂,
    honce m₂ (.deliver (.right, 0)) hreach₂ he₂ hemits hemits₂⟩

end RingNode
