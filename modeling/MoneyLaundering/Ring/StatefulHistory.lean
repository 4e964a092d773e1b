import MoneyLaundering.Ring.Dataflow
import MoneyLaundering.Ring.ReplaySafety
import MoneyLaundering.Ring.StatelessRun

/-!
# What stateful nodes publish

A stateful node may crash in the middle of an input, of a checkpoint or of an emission, and
read its messages again.  What it publishes of a client that it reports is nevertheless the
result of a node that reads every message of the client once, and no other message: the part
of the business state that belongs to the client is what the messages make that the dedup
table knows, in memory and on disk.
-/

open Crash

/-! ## The parts of the clients -/

namespace Controller

variable {Q F S E α β V : Type}

/-- Every client has its own part of the business state.  What is done for a client depends
on its own part and leaves the parts of the others alone. -/
structure Apportioned (C : Controller Q F S E α β) (view : UUID → F → V) : Prop where
  processed : ∀ q msg f f', view msg.clientId f = view msg.clientId f' →
    view msg.clientId (C.process q msg f) = view msg.clientId (C.process q msg f')
  unprocessed : ∀ q msg f x, x ≠ msg.clientId → view x (C.process q msg f) = view x f
  result : ∀ x f f', view x f = view x f' → (C.getResult x f).1 = (C.getResult x f').1
  untaken : ∀ x y f, x ≠ y → view x (C.getResult y f).2 = view x f
  undiscarded : ∀ x y f e, x ≠ y → view x (C.discard y f e).1 = view x f
  unfreed : ∀ x y f e, x ≠ y → view x (C.free y f e).1 = view x f
  snapshot : ∀ x f, view x (C.fn.snapshotState f).2 = view x f

/-- Without a checkpoint every process starts from the same parts. -/
structure StartsFrom (C : Controller Q F S E α β) (view : UUID → F → V) (f₀ : F) : Prop where
  first : ∀ x, view x (C.fn.clearStaleSpill f₀) = view x f₀
  again : ∀ x k f, view x (C.fn.clearStaleSpill (C.fn.fresh k f)) = view x f₀

end Controller

namespace RingNode

variable {Q F S E α β V : Type} {C : Controller Q F S E α β} {view : UUID → F → V}
  {f₀ : F} {arrivals : Q → ℕ → Option (Message α)} {tracks : E → Q → UUID → Prop}
  {m : Node Q F S E β} {c x : UUID} {q : Q} {d : DataMsg α}
  {known known' : ProducerId × ℕ → Prop} {ds : List (Q × DataMsg α)}

/-! ## The messages of a client -/

/-- The messages of the client that are known, each once and with a queue that carries it. -/
structure Tally (arrivals : Q → ℕ → Option (Message α)) (known : ProducerId × ℕ → Prop)
    (x : UUID) (ds : List (Q × DataMsg α)) : Prop where
  nodup : (ds.map fun a => a.2.identity).Nodup
  carried : ∀ a ∈ ds, a.2.clientId = x ∧ ∃ j, Carries arrivals (a.1, j) a.2
  mem_iff : ∀ tag d, Carries arrivals tag d → d.clientId = x →
    (d ∈ ds.map Prod.snd ↔ known d.identity)

theorem Tally.nil (h : ∀ id, ¬known id) : Tally arrivals known x [] where
  nodup := List.nodup_nil
  carried _ hmem := absurd hmem List.not_mem_nil
  mem_iff _ _ _ _ := ⟨fun hmem => absurd hmem List.not_mem_nil, fun hk => absurd hk (h _)⟩

theorem Tally.congr (h : Tally arrivals known x ds) (hiff : ∀ id, known' id ↔ known id) :
    Tally arrivals known' x ds :=
  ⟨h.nodup, h.carried, fun tag d hd hc => (h.mem_iff tag d hd hc).trans (hiff _).symm⟩

/-- A message of another client changes nothing. -/
theorem Tally.other (h : Tally arrivals known x ds) (hsame : SameMessage arrivals)
    {tag : Q × ℕ} (hd : Carries arrivals tag d) (hc : x ≠ d.clientId) :
    Tally arrivals (fun id => id = d.identity ∨ known id) x ds := by
  refine ⟨h.nodup, h.carried, fun tag' d' hd' hc' => ?_⟩
  rw [h.mem_iff tag' d' hd' hc']
  refine ⟨Or.inr, fun hk => hk.resolve_left fun hid => hc ?_⟩
  rw [← hc', hsame tag' tag d' d hd' hd hid]

/-- A new message of the client is read last. -/
theorem Tally.concat (h : Tally arrivals known d.clientId ds) (hsame : SameMessage arrivals)
    {j : ℕ} (hd : Carries arrivals (q, j) d) (hnew : ¬known d.identity) :
    Tally arrivals (fun id => id = d.identity ∨ known id) d.clientId (ds ++ [(q, d)]) := by
  refine ⟨?_, fun a ha => ?_, fun tag d' hd' hc' => ?_⟩
  · rw [List.map_append, List.nodup_append]
    refine ⟨h.nodup, List.nodup_singleton _, fun id hid id' hid' heq => ?_⟩
    obtain ⟨a, ha, rfl⟩ := List.mem_map.mp hid
    obtain ⟨hc, j', hj'⟩ := h.carried a ha
    have hknown := (h.mem_iff _ _ hj' hc).mp (List.mem_map_of_mem ha)
    rw [heq, List.mem_singleton.mp hid'] at hknown
    exact hnew hknown
  · rcases List.mem_append.mp ha with ha | ha
    · exact h.carried a ha
    · rw [List.mem_singleton.mp ha]
      exact ⟨rfl, j, hd⟩
  · rw [List.map_append, List.mem_append, h.mem_iff tag d' hd' hc', or_comm]
    refine or_congr_left ⟨fun hmem => ?_, fun hid => ?_⟩
    · rw [List.mem_singleton.mp hmem]
    · rw [hsame tag (q, j) d' d hd' hd hid]
      exact List.mem_singleton_self d

/-- All messages of the client, each once and with a queue that carries it. -/
structure QueueInputs (arrivals : Q → ℕ → Option (Message α)) (x : UUID)
    (ds : List (Q × DataMsg α)) : Prop where
  nodup : (ds.map fun a => a.2.identity).Nodup
  carried : ∀ a ∈ ds, a.2.clientId = x ∧ ∃ j, Carries arrivals (a.1, j) a.2
  all : ∀ tag d, Carries arrivals tag d → d.clientId = x → d ∈ ds.map Prod.snd

theorem Tally.inputs (h : Tally arrivals known x ds)
    (hall : ∀ tag d, Carries arrivals tag d → d.clientId = x → known d.identity) :
    QueueInputs arrivals x ds :=
  ⟨h.nodup, h.carried, fun tag d hd hc => (h.mem_iff tag d hd hc).mpr (hall tag d hd hc)⟩

/-! ## The invariant -/

section Invariant

variable (C : Controller Q F S E α β) (view : UUID → F → V) (f₀ : F)
  (arrivals : Q → ℕ → Option (Message α))

/-- The parts of the clients that are still owed are what their known messages make. -/
def Consumed (rc : RingCompletion) (known : ProducerId × ℕ → Prop) (f : F) : Prop :=
  ∀ x, rc.Owed x → ∃ ds, Tally arrivals known x ds ∧ view x f = view x (C.consume ds f₀)

/-- What a consuming process remembers. -/
structure Remembers (m : Node Q F S E β) : Prop where
  aborted : ∀ x ∈ m.aborted, m.rc.isAborted x = true
  consumed : Consumed C view f₀ arrivals m.rc m.dedup.Recorded m.state.fn

/-- What the checkpoint remembers, wherever it is restored. -/
def StoreRemembers (m : Node Q F S E β) : Prop :=
  ∀ b, m.store = some b → (∀ x ∈ b.aborted, b.state.rc.isAborted x = true) ∧
    ∀ f, Consumed C view f₀ arrivals b.state.rc b.Recorded (C.fn.restoreState b.state.state f)

/-- What the history has of the client is the result of its messages, each read once. -/
def ResultSent (x : UUID) (log : List (Event β)) : Prop :=
  ∃ ds, QueueInputs arrivals x ds ∧ ∃ seqs, ∀ s id pl,
    .data s id x pl ∈ log ↔
      .data s id x pl ∈ C.stampAll x seqs (C.getResult x (C.consume ds f₀)).1

/-- The results of the reported clients were sent. -/
def ResultsSent (log : List (Event β)) : Prop :=
  ∀ x sent, .reported x sent ∈ log → ResultSent C f₀ arrivals x log

/-- A stamp is of one client. -/
def OneClient (log : List (Event β)) : Prop :=
  ∀ s s' id x x' pl pl', .data s id x pl ∈ log → .data s' id x' pl' ∈ log → x = x'

/-- What every crash leaves. -/
structure Exact (m : Node Q F S E β) : Prop where
  stored : StoreRemembers C view f₀ arrivals m
  sent : ResultsSent C f₀ arrivals m.log
  client : OneClient m.log

end Invariant

/-! ### Changes that keep it -/

theorem Consumed.mono {rc rc' : RingCompletion} {f f' : F}
    (h : Consumed C view f₀ arrivals rc known f) (hrc : ∀ x, rc'.Owed x → rc.Owed x)
    (hf : ∀ x, rc'.Owed x → view x f' = view x f) :
    Consumed C view f₀ arrivals rc' known f' := by
  intro x hx
  obtain ⟨ds, htally, hview⟩ := h x (hrc x hx)
  exact ⟨ds, htally, (hf x hx).trans hview⟩

theorem ResultSent.congr {log log' : List (Event β)} (h : ResultSent C f₀ arrivals x log)
    (hlog : ∀ s id pl, .data s id x pl ∈ log' ↔ .data s id x pl ∈ log) :
    ResultSent C f₀ arrivals x log' := by
  obtain ⟨ds, hds, seqs, hall⟩ := h
  exact ⟨ds, hds, seqs, fun s id pl => (hlog s id pl).trans (hall s id pl)⟩

theorem ResultsSent.append {log es : List (Event β)} (h : ResultsSent C f₀ arrivals log)
    (hplain : ∀ e ∈ es, e.Plain) : ResultsSent C f₀ arrivals (es ++ log) := by
  intro x sent he
  have hold := (List.mem_append.mp he).resolve_left fun hes => (hplain _ hes).2 _ _ rfl
  refine (h x sent hold).congr fun s id pl => ⟨fun hmem => ?_, List.mem_append_right es⟩
  exact (List.mem_append.mp hmem).resolve_left fun hes => (hplain _ hes).1 _ _ _ _ rfl

/-- Messages of one client leave the results of the others alone, and so do copies. -/
theorem ResultsSent.resend {log es : List (Event β)} (h : ResultsSent C f₀ arrivals log)
    (hes : ∀ e ∈ es, ∃ s id pl, e = .data s id c pl)
    (hold : ∀ sent, .reported c sent ∈ log → ∀ e ∈ es, e ∈ log) :
    ResultsSent C f₀ arrivals (es ++ log) := by
  intro x sent he
  have hreported : .reported x sent ∈ log := by
    refine (List.mem_append.mp he).resolve_left fun hmem => ?_
    obtain ⟨s, id, pl, heq⟩ := hes _ hmem
    cases heq
  refine (h x sent hreported).congr fun s id pl => ⟨fun hmem => ?_, List.mem_append_right es⟩
  rcases List.mem_append.mp hmem with hmem | hmem
  · obtain ⟨s', id', pl', heq⟩ := hes _ hmem
    obtain rfl : x = c := by
      simp only [Event.data.injEq] at heq
      exact heq.2.2.1
    exact hold sent hreported _ hmem
  · exact hmem

theorem Exact.frame {m' : Node Q F S E β} (h : Exact C view f₀ arrivals m)
    (hstore : m'.store = m.store) (hlog : m'.log = m.log) : Exact C view f₀ arrivals m' :=
  ⟨fun b hb => h.stored b (hstore ▸ hb), hlog ▸ h.sent, hlog ▸ h.client⟩

theorem OneClient.append {log es : List (Event β)} (h : OneClient log)
    (hplain : ∀ e ∈ es, e.Plain) : OneClient (es ++ log) := by
  have hold : ∀ {s id x pl}, (.data s id x pl : Event β) ∈ es ++ log → .data s id x pl ∈ log :=
    fun hmem => (List.mem_append.mp hmem).resolve_left fun hes => (hplain _ hes).1 _ _ _ _ rfl
  exact fun s s' id x x' pl pl' he he' => h s s' id x x' pl pl' (hold he) (hold he')

theorem Exact.append (h : Exact C view f₀ arrivals m) (s : NodeState F E)
    (es : List (Event β)) (hplain : ∀ e ∈ es, e.Plain) :
    Exact C view f₀ arrivals { m with state := s, log := es ++ m.log } :=
  ⟨h.stored, h.sent.append hplain, h.client.append hplain⟩

theorem Remembers.change (h : Remembers C view f₀ arrivals m) (s : NodeState F E)
    (log : List (Event β)) (haborted : ∀ y, m.rc.isAborted y = true → s.rc.isAborted y = true)
    (howed : ∀ y, s.rc.Owed y → m.rc.Owed y)
    (hfn : ∀ y, s.rc.Owed y → view y s.fn = view y m.state.fn) :
    Remembers C view f₀ arrivals { m with state := s, log := log } :=
  ⟨fun y hy => haborted y (h.aborted y hy), h.consumed.mono howed hfn⟩

/-- A checkpoint remembers what the memory does. -/
theorem Remembers.checkpointed (hC : Stateful C) (hview : C.Apportioned view)
    (h : Remembers C view f₀ arrivals m) (hexact : Exact C view f₀ arrivals m) :
    Remembers C view f₀ arrivals (m.checkpointed C.provider) ∧
      Exact C view f₀ arrivals (m.checkpointed C.provider) := by
  have hsnapshot : Consumed C view f₀ arrivals m.rc m.dedup.Recorded
      (C.fn.snapshotState m.state.fn).2 :=
    h.consumed.mono (fun _ hx => hx) fun x _ => hview.snapshot x m.state.fn
  refine ⟨⟨h.aborted, hsnapshot⟩, ⟨fun b hb => ?_, hexact.sent, hexact.client⟩⟩
  obtain rfl := Option.some.inj hb
  refine ⟨h.aborted, fun f x hx => ?_⟩
  obtain ⟨ds, htally, hpart⟩ := hsnapshot x hx
  refine ⟨ds, htally.congr fun id => Deduplicator.recorded_restore_snapshot m.dedup id, ?_⟩
  exact (congrArg (view x) (hC.whole m.state.fn f)).trans hpart

/-! ## One emission -/

/-- A stamp of the planned emission is of the emitted client. -/
theorem Primed.client_of_stamp {g : F} (hC : Stateful C) (h : Primed C g [c] m)
    {s s' : ℕ} {id : ProducerId × ℕ} {pl pl' : β} (he : .data s id c pl ∈ planned C g m c)
    (he' : .data s' id x pl' ∈ m.log) : x = c := by
  rcases h.replayable.published s' id x pl' he' with ⟨hle, -⟩ | ⟨hready, -⟩
  · have hlt := (Controller.bounds_of_mem_stampAll (hC.restamped c g) he).2.1
    exact absurd hle (Nat.not_le.mpr hlt)
  · exact h.replayable.one x c hready h.ready_self

/-- So messages of the planned emission keep the stamps apart. -/
theorem Primed.client_resend {g : F} (hC : Stateful C) (h : Primed C g [c] m)
    {log es : List (Event β)} (hclient : OneClient m.log)
    (hlog : ∀ s id x pl, .data s id x pl ∈ log → .data s id x pl ∈ m.log)
    (hes : ∀ e ∈ es, e ∈ planned C g m c) : OneClient (es ++ log) := by
  have hself : ∀ {s id x pl}, .data s id x pl ∈ es → x = c := fun hmem =>
    Controller.client_of_mem_stampAll (hes _ hmem)
  intro s s' id x x' pl pl' he he'
  rcases List.mem_append.mp he with he | he <;> rcases List.mem_append.mp he' with he' | he'
  · exact (hself he).trans (hself he').symm
  · obtain rfl := hself he
    exact (h.client_of_stamp hC (hes _ he) (hlog _ _ _ _ he')).symm
  · obtain rfl := hself he'
    exact h.client_of_stamp hC (hes _ he') (hlog _ _ _ _ he)
  · exact hclient s s' id x x' pl pl' (hlog _ _ _ _ he) (hlog _ _ _ _ he')

/-- What is sent of a client was sent before, if the client is reported already. -/
theorem Primed.exact_sending {g : F} (hC : Stateful C) (h : Primed C g [c] m)
    (hexact : Exact C view f₀ arrivals m) {sent rest : List (Output β)}
    (hsplit : resultOf C c m = sent ++ rest) :
    Exact C view f₀ arrivals (sending C c sent m) := by
  have hbegun := hexact.append m.state [.emitting c] (by simp [Event.Plain])
  have hplanned : ∀ e ∈ (C.stampAll c m.state.seqs sent).reverse, e ∈ planned C g m c := by
    intro e hmem
    rw [← h.stampAll_resultOf, hsplit, Controller.stampAll_append]
    exact List.mem_append_left _ (List.mem_reverse.mp hmem)
  refine ⟨hexact.stored, hbegun.sent.resend (c := c) (fun e he => ?_) fun counts he e hmem => ?_,
    h.client_resend hC hexact.client (fun s id x pl hmem => ?_) hplanned⟩
  · exact Controller.eq_data_of_mem_stampAll (List.mem_reverse.mp he)
  · have hreported : .reported c counts ∈ m.log :=
      (List.mem_cons.mp he).resolve_left (by simp)
    obtain ⟨-, hall⟩ := h.replayable.reported c counts hreported
    exact List.mem_cons_of_mem _
      ((hall (h.replayable.owed_of_ready h.ready_self)).2 e (hplanned e hmem))
  · exact (List.mem_cons.mp hmem).resolve_left (by simp)

/-- What the checkpoint fixes is the result of all messages of the client. -/
theorem Primed.inputs {g : F} (hview : C.Apportioned view) (h : Primed C g [c] m)
    (hstored : StoredDeliveries C arrivals tracks m) (hexact : Exact C view f₀ arrivals m) :
    ∃ ds, QueueInputs arrivals c ds ∧
      (C.getResult c g).1 = (C.getResult c (C.consume ds f₀)).1 := by
  have howed := h.replayable.owed_of_ready h.ready_self
  cases hstore : m.store with
  | none =>
      have hready := h.ready_self
      simp [Node.storedRc, hstore] at hready
  | some b =>
      have hrc : Node.storedRc m = b.state.rc := by simp [Node.storedRc, hstore]
      obtain ⟨haborted, hconsumed⟩ := hexact.stored b hstore
      obtain ⟨ds, htally, hpart⟩ := hconsumed g c (hrc ▸ howed)
      rw [h.replayable.restores b hstore g] at hpart
      refine ⟨ds, htally.inputs fun tag d hd hc => ?_, hview.result c _ _ hpart⟩
      have hexpected : 0 ≤ ((Node.storedRc m).client d.clientId).expected := by
        rw [hc]
        exact (Client.ready_iff.mp h.ready_self).2.1
      obtain ⟨b', hb', hknown⟩ := hstored.announced tag d hd hexpected
      obtain rfl := Option.some.inj (hstore.symm.trans hb')
      refine hknown.resolve_right fun hmem => ?_
      have hab := haborted _ hmem
      rw [hc, ← hrc, howed.2] at hab
      cases hab

/-- After the emission the client's result was sent. -/
theorem Primed.exact_emitted {g : F} (hC : Stateful C) (hview : C.Apportioned view)
    (h : Primed C g [c] m) (hstored : StoredDeliveries C arrivals tracks m)
    (hexact : Exact C view f₀ arrivals m) : Exact C view f₀ arrivals (emitted C c m) := by
  obtain ⟨ds, hds, hresult⟩ := h.inputs hview hstored hexact
  obtain ⟨hreplayable, -⟩ := h.saveable_emitted hC
  have howed : (emitted C c m).storedRc.Owed c := h.replayable.owed_of_ready h.ready_self
  have hreported : .reported c (countsOf C c m) ∈ (emitted C c m).log :=
    List.mem_append_right _ List.mem_cons_self
  have hself : ResultSent C f₀ arrivals c (emitted C c m).log := by
    refine ⟨ds, hds, m.storedSeqs, fun s id pl => ?_⟩
    rw [← hresult]
    constructor
    · intro hmem
      rcases hreplayable.published s id c pl hmem with ⟨-, hnot⟩ | ⟨-, hplan⟩
      · exact absurd howed hnot
      · exact hplan
    · exact fun hmem => (hreplayable.reported c _ hreported).2 howed |>.2 _ hmem
  -- the other entries are those before the report
  have hsending := h.exact_sending hC hexact (List.append_nil _).symm
  have hclosings : ResultsSent C f₀ arrivals (closings (m.rc.markEmitted c (countsOf C c m))
      (m.rc.reportSent C.self c (countsOf C c m)).2 ++ (sending C c (resultOf C c m) m).log) :=
    hsending.sent.append fun e he => Event.plain_of_mem_closings he
  have hmem : ∀ {e : Event β}, e ≠ .reported c (countsOf C c m) →
      (e ∈ (emitted C c m).log ↔ e ∈ closings (m.rc.markEmitted c (countsOf C c m))
        (m.rc.reportSent C.self c (countsOf C c m)).2 ++
          (sending C c (resultOf C c m) m).log) := by
    intro e hne
    change e ∈ _ ++ _ :: _ ↔ _
    rw [List.mem_append, List.mem_cons, or_iff_right hne, ← List.mem_append]
    rfl
  refine ⟨hexact.stored, fun x sent he => ?_, fun s s' id x x' pl pl' he he' => ?_⟩
  · by_cases hx : x = c
    · exact hx ▸ hself
    have hne : (.reported x sent : Event β) ≠ .reported c (countsOf C c m) := by
      simp [hx]
    exact (hclosings x sent ((hmem hne).mp he)).congr fun s id pl => hmem (by simp)
  · exact (hsending.client.append fun e he => Event.plain_of_mem_closings he) s s' id x x' pl pl'
      ((hmem (by simp)).mp he) ((hmem (by simp)).mp he')

/-- The clients that are owed after an emission were owed before it. -/
theorem owed_of_emitted (hphase : (m.rc.client c).phase = .processing) {y : UUID}
    (hy : (emitted C c m).rc.Owed y) : y ≠ c ∧ m.rc.Owed y := by
  obtain ⟨hothers, haborted⟩ := RingCompletion.reportSent_frame C.self m.rc c (countsOf C c m)
  have hne : y ≠ c := by
    rintro rfl
    exact RingCompletion.phase_reportSent C.self (countsOf C y m) hphase hy.1
  refine ⟨hne, ?_, ?_⟩
  · rw [← hothers y hne]
    exact hy.1
  · rw [← haborted y]
    exact hy.2

theorem Primed.remembers_emitted {g : F} (hview : C.Apportioned view) (h : Primed C g [c] m)
    (hmem : Remembers C view f₀ arrivals m) : Remembers C view f₀ arrivals (emitted C c m) := by
  have hphase : (m.rc.client c).phase = .processing :=
    (Client.ready_iff.mp ((h.ready c).mp (List.mem_singleton_self c))).1
  refine hmem.change (emitted C c m).state (emitted C c m).log (fun y hy => ?_)
    (fun y hy => (owed_of_emitted hphase hy).2) fun y hy =>
      hview.untaken y c m.state.fn (owed_of_emitted hphase hy).1
  exact ((RingCompletion.reportSent_frame C.self m.rc c (countsOf C c m)).2 y).trans hy

variable (tracks) in
/-- The clients that a checkpoint left complete are emitted, and no longer owed. -/
theorem spec_runEmits_exact (hC : Stateful C) (hview : C.Apportioned view)
    {emits : List UUID} (hnodup : emits.Nodup) :
    Spec (fun m => (∃ g, Primed C g emits m) ∧ StoredDeliveries C arrivals tracks m ∧
        Remembers C view f₀ arrivals m ∧ Exact C view f₀ arrivals m) (runEmits C emits)
      (fun _ m => Remembers C view f₀ arrivals m ∧ Exact C view f₀ arrivals m ∧
        ∀ y ∈ emits, ¬m.rc.Owed y) (Exact C view f₀ arrivals) := by
  match emits, hnodup with
  | [], _ =>
      refine Spec.pure fun m hm => ⟨hm.2.2.1, hm.2.2.2, ?_⟩
      exact fun y hy => absurd hy List.not_mem_nil
  | [c], _ =>
      refine Spec.bind (spec_emit c (R := fun m => Remembers C view f₀ arrivals m ∧
        Exact C view f₀ arrivals m ∧ ¬m.rc.Owed c) ?_ ?_ (fun m hm => hm.2.1) ?_)
        fun _ => Spec.pure ?_
      · rintro m ⟨⟨g, hg⟩, -, -, hexact⟩ sent rest hsplit
        exact hg.exact_sending hC hexact hsplit
      · rintro m ⟨⟨g, hg⟩, hstored, hmem, hexact⟩
        have hphase : (m.rc.client c).phase = .processing :=
          (Client.ready_iff.mp ((hg.ready c).mp (List.mem_singleton_self c))).1
        exact ⟨hg.remembers_emitted hview hmem, hg.exact_emitted hC hview hstored hexact,
          fun howed => (owed_of_emitted hphase howed).1 rfl⟩
      · rintro m e he ⟨hmem, hexact, howed⟩
        refine ⟨hmem.change m.state _ (fun _ h => h) (fun _ h => h) fun _ _ => rfl, ?_, howed⟩
        exact hexact.append m.state [e]
          (by simpa using Event.plain_of_isBarrier he)
      · rintro m ⟨hmem, hexact, howed⟩
        refine ⟨hmem, hexact, fun y hy => ?_⟩
        rw [List.mem_singleton.mp hy]
        exact howed
  | c :: d :: rest, hnodup =>
      rintro m ⟨⟨g, hg⟩, -⟩
      have hready : ∀ y ∈ c :: d :: rest, (m.storedRc.client y).ready = true := by
        intro y hy
        have hy' := (hg.ready y).mp hy
        rwa [hg.rc] at hy'
      have heq : c = d := hg.replayable.one c d (hready c (by simp)) (hready d (by simp))
      simp [heq] at hnodup

/-! ## Handlers -/

variable [DecidableEq Q]

/-- A flush writes what the memory remembers. -/
theorem spec_flush_exact (hC : Stateful C) (hview : C.Apportioned view) (force : Bool)
    (ys : List UUID) :
    Spec (fun m => Remembers C view f₀ arrivals m ∧ Exact C view f₀ arrivals m ∧
        ∀ y ∈ ys, ¬m.rc.Owed y)
      (Checkpointer.flush C.provider force : NodeProg Q F S E β Unit)
      (fun _ m => Remembers C view f₀ arrivals m ∧ Exact C view f₀ arrivals m ∧
        ∀ y ∈ ys, ¬m.rc.Owed y) (Exact C view f₀ arrivals) := by
  refine Checkpointer.spec_checkpointAndFlush (R := fun m : Node Q F S E β =>
    Remembers C view f₀ arrivals m ∧ Exact C view f₀ arrivals m ∧ ∀ y ∈ ys, ¬m.rc.Owed y)
    ?_ (fun m hm _ _ => hm) ?_ ?_
  · rintro m ⟨hmem, hexact, hys⟩ -
    obtain ⟨hmem', hexact'⟩ := hmem.checkpointed hC hview hexact
    exact ⟨hexact, hexact.frame rfl rfl, hmem', hexact', hys⟩
  · rintro m tags rest ⟨-, hexact, -⟩ -
    exact hexact.frame rfl rfl
  · rintro m ⟨hmem, hexact, hys⟩
    exact ⟨⟨hmem.aborted, hmem.consumed⟩, hexact.frame rfl rfl, hys⟩

theorem spec_flush_remembers (hC : Stateful C) (hview : C.Apportioned view) (force : Bool) :
    Spec (fun m => Remembers C view f₀ arrivals m ∧ Exact C view f₀ arrivals m)
      (Checkpointer.flush C.provider force : NodeProg Q F S E β Unit)
      (fun _ m => Remembers C view f₀ arrivals m ∧ Exact C view f₀ arrivals m)
      (Exact C view f₀ arrivals) :=
  (spec_flush_exact hC hview force []).conseq
    (fun _ hm => ⟨hm.1, hm.2, fun _ hy => absurd hy List.not_mem_nil⟩)
    (fun _ _ hm => ⟨hm.1, hm.2.1⟩) fun _ hm => hm

omit [DecidableEq Q] in
/-- Clients that are not owed are freed. -/
theorem spec_free_exact (hview : C.Apportioned view) (ys : List UUID) :
    Spec (fun m : Node Q F S E β => Remembers C view f₀ arrivals m ∧
        Exact C view f₀ arrivals m ∧ ∀ y ∈ ys, ¬m.rc.Owed y) (Prog.forEach ys (free C))
      (fun _ m => Remembers C view f₀ arrivals m ∧ Exact C view f₀ arrivals m)
      (Exact C view f₀ arrivals) := by
  refine (Spec.forEach (I := fun _ (m : Node Q F S E β) => Remembers C view f₀ arrivals m ∧
    Exact C view f₀ arrivals m ∧ ∀ y ∈ ys, ¬m.rc.Owed y) ys fun before y after hsplit => ?_).post
      fun _ m hm => ⟨hm.1, hm.2.1⟩
  refine Spec.change (fun m hm => hm.2.1) fun m hm => ?_
  obtain ⟨hmem, hexact, hys⟩ := hm
  have hy : ¬m.rc.Owed y := hys y (hsplit ▸ by simp)
  refine ⟨?_, hexact.append _ [.freed y] (by simp [Event.Plain]), hys⟩
  refine hmem.change _ _ (fun _ h => h) (fun _ h => h) fun z hz => ?_
  exact hview.unfreed z y _ _ fun heq => hy (heq ▸ hz)

omit [DecidableEq Q] in
/-- A new message is read once. -/
theorem spec_onData_exact (hC : Stateful C) (hview : C.Apportioned view)
    (hqueues : OrderedQueues arrivals) {tag : Q × ℕ} (hd : Carries arrivals tag d) :
    Spec (fun m => (Remembers C view f₀ arrivals m ∧ Exact C view f₀ arrivals m) ∧
        (∀ y, (m.rc.client y).ready = false) ∧ (m.rc.client d.clientId).expected < 0 ∧
          ¬m.dedup.Recorded d.identity)
      (onData C tag.1 d) (fun _ m => Remembers C view f₀ arrivals (m.recorded tag d) ∧
        Exact C view f₀ arrivals (m.recorded tag d)) (Exact C view f₀ arrivals) := by
  -- the message is part of the business state, and not yet of the dedup table
  let Read (m : Node Q F S E β) : Prop := (∀ x ∈ m.aborted, m.rc.isAborted x = true) ∧
    Consumed C view f₀ arrivals m.rc (fun id => id = d.identity ∨ m.dedup.Recorded id)
      m.state.fn ∧ Exact C view f₀ arrivals m
  refine Spec.bind (Q := fun _ m => Read m ∧ (∀ y, (m.rc.client y).ready = false) ∧
    (m.rc.client d.clientId).expected < 0) (Spec.modify ?_) fun _ => ?_
  · rintro m ⟨⟨hmem, hexact⟩, hquiet, hneg, hnew⟩
    refine ⟨⟨hmem.aborted, fun x hx => ?_, hexact.frame rfl rfl⟩, hquiet, hneg⟩
    obtain ⟨ds, htally, hpart⟩ := hmem.consumed x hx
    by_cases hc : x = d.clientId
    · subst hc
      refine ⟨ds ++ [(tag.1, d)], htally.concat hqueues.same hd hnew, ?_⟩
      rw [Controller.consume, List.foldl_append]
      exact hview.processed tag.1 d _ _ hpart
    · exact ⟨ds, htally.other hqueues.same hd hc,
        (hview.unprocessed tag.1 d _ x hc).trans hpart⟩
  rw [hC.silent]
  refine Spec.bind (Q := fun _ m => Read m ∧ (∀ y, (m.rc.client y).ready = false) ∧
    (m.rc.client d.clientId).expected < 0) (Spec.pure fun _ hm => hm) fun _ => ?_
  refine Spec.bind (Q := fun emits m => emits = [] ∧ Read m) (Spec.compute ?_)
    fun emits => Spec.of_pre ?_
  · rintro m ⟨⟨haborted, hconsumed, hexact⟩, hquiet, hneg⟩
    have hcounts := RingCompletion.counts_onData m.rc d.clientId
    have hnone : (m.rc.onData d.clientId).2 = [] := by
      rw [List.eq_nil_iff_forall_not_mem]
      intro y hy
      have hexp := (Client.ready_iff.mp ((hcounts.mem_iff hquiet y).mp hy)).2.1
      rw [RingCompletion.expected_onData, (hcounts.emits.2 y hy).1] at hexp
      omega
    refine ⟨hnone, fun x hx => ?_, ?_, hexact.frame rfl rfl⟩
    · have hkept : (m.rc.onData d.clientId).1.isAborted x = m.rc.isAborted x := by
        rcases hcounts with heq | ⟨-, cl, -, -, heq⟩ <;> rw [heq]
        rfl
      exact hkept.trans (haborted x hx)
    · exact hconsumed.mono (fun x hx => (hcounts.owed_iff x).mp hx) fun _ _ => rfl
  · rintro rfl
    refine Spec.pure fun m hm => ?_
    obtain ⟨haborted, hconsumed, hexact⟩ := hm
    refine ⟨⟨haborted, fun x hx => ?_⟩, hexact.frame rfl rfl⟩
    obtain ⟨ds, htally, hpart⟩ := hconsumed x hx
    have hseq : d.seq ≠ 0 := Nat.one_le_iff_ne_zero.mp (hqueues.seq tag d hd)
    exact ⟨ds, htally.congr fun id => Deduplicator.recorded_record hseq id, hpart⟩

/-- An announced count may complete its client, whose result is sent then. -/
theorem spec_onEof_exact (hC : Stateful C) (hview : C.Apportioned view)
    (laws : TracksEofs C tracks) (hqueues : OrderedQueues arrivals) {tag : Q × ℕ} {k : ℤ}
    (htag : arrivals tag.1 tag.2 = some (.eof x k)) :
    Spec (fun m => (Delivered C arrivals tracks m ∧ InOrder arrivals tag m) ∧ Steady C m ∧
        Remembers C view f₀ arrivals m ∧ Exact C view f₀ arrivals m)
      (onEof C tag.1 x k) (fun _ m => Remembers C view f₀ arrivals m ∧
        Exact C view f₀ arrivals m) (Exact C view f₀ arrivals) := by
  refine Spec.bind (Q := fun emits m => ((∀ y ∈ emits, y = x) ∧ emits.Nodup) ∧
    Delivered C arrivals tracks m ∧ (Recoverable C m ∧ Saveable emits m) ∧
      Remembers C view f₀ arrivals m ∧ Exact C view f₀ arrivals m)
    (Spec.compute ?_) fun emits => Spec.of_pre fun hemits => ?_
  · rintro m ⟨⟨hdel, horder⟩, hsteady, hmem, hexact⟩
    obtain ⟨hr, hs, hself, hnodup⟩ := hsteady.noteEof tag.1 x k
    refine ⟨⟨hself, hnodup⟩, hdel.noteEof laws hqueues.eofLast htag horder, ⟨hr, hs⟩, ?_⟩
    cases htotal : (C.noteEof tag.1 x k m.state.extra).1 with
    | none =>
        rw [noteEof_none htotal]
        exact ⟨hmem.change _ m.log (fun _ h => h) (fun _ h => h) fun _ _ => rfl,
          hexact.frame rfl rfl⟩
    | some total =>
        rw [noteEof_some htotal]
        have hcounts := RingCompletion.counts_onUpstreamEof m.rc x total
        refine ⟨hmem.change _ m.log (fun y hy => ?_) (fun y => (hcounts.owed_iff y).mp)
          fun _ _ => rfl, hexact.frame rfl rfl⟩
        have hkept : (m.rc.onUpstreamEof x total).1.isAborted y = m.rc.isAborted y := by
          rcases hcounts with heq | ⟨-, cl, -, -, heq⟩ <;> rw [heq]
          rfl
        exact hkept.trans hy
  have hone : ∀ y ∈ emits, ∀ z ∈ emits, y = z := fun y hy z hz =>
    (hemits.1 y hy).trans (hemits.1 z hz).symm
  refine Spec.bind (Q := fun _ m => (∃ g, Primed C g emits m) ∧
    StoredDeliveries C arrivals tracks m ∧ Remembers C view f₀ arrivals m ∧
      Exact C view f₀ arrivals m ∨ emits = [] ∧ Remembers C view f₀ arrivals m ∧
        Exact C view f₀ arrivals m) (Spec.when ?_ ?_) fun _ => ?_
  · intro _
    have hkeeps : Spec (Delivered C arrivals tracks)
        (Checkpointer.flush C.provider true : NodeProg Q F S E β Unit)
        (fun _ => Delivered C arrivals tracks) (StoredDeliveries C arrivals tracks) :=
      spec_flush_keeps
    refine (((spec_flush_primed hC hone).and hkeeps).and
      (spec_flush_exact hC hview true [])).conseq ?_ ?_ fun m hm => hm.2
    · rintro m ⟨hdel, hsave, hmem, hexact⟩
      exact ⟨⟨hsave, hdel⟩, hmem, hexact, fun y hy => absurd hy List.not_mem_nil⟩
    · rintro - m ⟨⟨hprimed, hdel⟩, hmem, hexact, -⟩
      exact Or.inl ⟨hprimed, hdel.1, hmem, hexact⟩
  · rintro hnil m ⟨-, -, hmem, hexact⟩
    exact Or.inr ⟨not_not.mp hnil, hmem, hexact⟩
  refine Spec.bind (Q := fun _ m => Remembers C view f₀ arrivals m ∧
    Exact C view f₀ arrivals m ∧ ∀ y ∈ emits, ¬m.rc.Owed y) ?_ fun _ => ?_
  · rintro m (hm | ⟨rfl, hmem, hexact⟩)
    · exact spec_runEmits_exact tracks hC hview hemits.2 m hm
    · have hnone : Spec (fun m => Remembers C view f₀ arrivals m ∧ Exact C view f₀ arrivals m)
          (runEmits C []) (fun _ m => Remembers C view f₀ arrivals m ∧
            Exact C view f₀ arrivals m ∧ ∀ y ∈ [], ¬m.rc.Owed y) (Exact C view f₀ arrivals) :=
        Spec.pure fun m hm => ⟨hm.1, hm.2, fun y hy => absurd hy List.not_mem_nil⟩
      exact hnone m ⟨hmem, hexact⟩
  exact Spec.bind (spec_flush_exact hC hview true emits) fun _ => spec_free_exact hview emits

/-- An aborted client is not owed any more. -/
theorem spec_onAbort_exact (hC : Stateful C) (hview : C.Apportioned view) (x : UUID) :
    Spec (fun m : Node Q F S E β => Remembers C view f₀ arrivals m ∧ Exact C view f₀ arrivals m)
      (onAbort C x) (fun _ m => Remembers C view f₀ arrivals m ∧
        Exact C view f₀ arrivals m) (Exact C view f₀ arrivals) := by
  refine Spec.bind (Q := fun _ (m : Node Q F S E β) => (Remembers C view f₀ arrivals m ∧
    Exact C view f₀ arrivals m) ∧ m.rc.isAborted x = true) (Spec.modify fun m hm => ?_) fun _ => ?_
  · refine ⟨⟨hm.1.change { m.state with rc := m.rc.drop x } m.log (fun y hy => ?_)
      (fun y hy => ?_) fun _ _ => rfl, hm.2.frame rfl rfl⟩, ?_⟩
    · rw [RingCompletion.isAborted_drop, hy, Bool.or_true]
    · obtain ⟨hphase, hab⟩ := hy
      rw [RingCompletion.isAborted_drop, Bool.or_eq_false_iff, decide_eq_false_iff_not] at hab
      rw [RingCompletion.client_drop, if_neg hab.1] at hphase
      exact ⟨hphase, hab.2⟩
    · change (m.rc.drop x).isAborted x = true
      rw [RingCompletion.isAborted_drop, decide_eq_true rfl, Bool.true_or]
  refine Spec.bind (Q := fun _ (m : Node Q F S E β) => (Remembers C view f₀ arrivals m ∧
    Exact C view f₀ arrivals m) ∧ m.rc.isAborted x = true)
    (Spec.change (fun m hm => hm.1.2) fun m hm => ?_) fun _ => ?_
  · obtain ⟨⟨hmem, hexact⟩, hab⟩ := hm
    refine ⟨⟨hmem.change _ m.log (fun _ h => h) (fun _ h => h) fun y hy => ?_,
      hexact.frame rfl rfl⟩, hab⟩
    refine hview.undiscarded y x _ _ ?_
    rintro rfl
    exact absurd hab (by simp [hy.2])
  refine Spec.bind (Q := fun _ m => Remembers C view f₀ arrivals m ∧ Exact C view f₀ arrivals m)
    (Spec.modify fun m hm => ?_) fun _ => ?_
  · obtain ⟨⟨hmem, hexact⟩, hab⟩ := hm
    refine ⟨⟨fun y hy => ?_, hmem.consumed⟩, hexact.frame rfl rfl⟩
    rcases Finset.mem_insert.mp hy with rfl | hy
    · exact hab
    · exact hmem.aborted y hy
  refine Spec.bind (spec_flush_remembers hC hview true) fun _ => ?_
  refine Spec.forEach (I := fun _ m => Remembers C view f₀ arrivals m ∧
    Exact C view f₀ arrivals m) _ fun _ shard _ _ => Spec.change (fun m hm => hm.2) fun m hm => ?_
  exact ⟨hm.1.change m.state _ (fun _ h => h) (fun _ h => h) fun _ _ => rfl,
    hm.2.append m.state [.abort shard x] (by simp [Event.Plain])⟩

theorem spec_onRingMsg_exact (hC : Stateful C) (hview : C.Apportioned view) (t : BarrierToken) :
    Spec (fun m : Node Q F S E β => Remembers C view f₀ arrivals m ∧ Exact C view f₀ arrivals m)
      (onRingMsg C t) (fun _ m => Remembers C view f₀ arrivals m ∧
        Exact C view f₀ arrivals m) (Exact C view f₀ arrivals) := by
  refine Spec.bind (Q := fun _ m => Remembers C view f₀ arrivals m ∧ Exact C view f₀ arrivals m)
    (Spec.compute fun m hm => ?_) fun actions => ?_
  · rw [receiveToken_eq]
    obtain ⟨hclient, haborted⟩ := RingCompletion.onToken_spec C.self m.rc t
    refine ⟨hm.1.change { m.state with rc := (m.rc.onToken C.self t).1 } _
      (fun y hy => (haborted y).trans hy) (fun y hy => ?_) fun _ _ => rfl,
      hm.2.append _ _ fun e he => Event.plain_of_mem_closings he⟩
    refine ⟨?_, (haborted y).symm.trans hy.2⟩
    rcases hclient y with heq | hdone
    · exact heq ▸ hy.1
    · exact absurd (hdone.symm.trans hy.1) (by simp)
  refine Spec.bind (Q := fun _ m => Remembers C view f₀ arrivals m ∧ Exact C view f₀ arrivals m)
    (spec_runBarrier actions (fun m hm => hm.2) fun m e he hm => ?_) fun _ => ?_
  · exact ⟨hm.1.change m.state _ (fun _ h => h) (fun _ h => h) fun _ _ => rfl,
      hm.2.append m.state [e] (by simpa using Event.plain_of_isBarrier he)⟩
  · exact spec_flush_remembers hC hview true

/-- A process that restored nothing would begin with the parts of `f₀`. -/
def Unrestored (C : Controller Q F S E α β) (view : UUID → F → V) (f₀ : F)
    (m : Node Q F S E β) : Prop :=
  ∀ x, view x (C.fn.clearStaleSpill m.state.fn) = view x f₀

variable (tracks) in
/-- A process takes over what the checkpoint remembers. -/
theorem spec_start_exact (hC : Stateful C) (hview : C.Apportioned view) :
    Spec (fun m => (Exact C view f₀ arrivals m ∧ Unrestored C view f₀ m) ∧
        StoredDeliveries C arrivals tracks m ∧ Recoverable C m ∧ Blank C m)
      (start C) (fun _ m => Remembers C view f₀ arrivals m ∧ Exact C view f₀ arrivals m)
      (Exact C view f₀ arrivals) := by
  refine Spec.bind (Q := fun _ m => (Exact C view f₀ arrivals m ∧ Unrestored C view f₀ m) ∧
    StoredDeliveries C arrivals tracks m ∧ Recoverable C m ∧ Blank C m)
    (Spec.modify fun m hm => ?_) fun _ => ?_
  · obtain ⟨⟨hexact, hfresh⟩, hstored, ⟨g, hg⟩, hb⟩ := hm
    refine ⟨⟨hexact.append m.state [.restarted] (by simp [Event.Plain]), hfresh⟩,
      ⟨hstored.acked, hstored.tracked, hstored.announced⟩, ⟨g, ?_⟩, hb.logged _⟩
    exact hg.append [.restarted] (by simp [Event.Plain]) m.state
  refine Spec.bind (Q := fun restored (m : Node Q F S E β) =>
    (Remembers C view f₀ arrivals m ∧ Exact C view f₀ arrivals m) ∧ (restored = true →
      (∃ g, Primed C g m.rc.recheck m) ∧ StoredDeliveries C arrivals tracks m))
    (Checkpointer.spec_restore (fun m hm => hm.1.1) ?_ ?_) fun restored => ?_
  · rintro m ⟨⟨hexact, hfresh⟩, -, -, hb⟩ -
    refine ⟨⟨⟨fun x hx => ?_, fun x _ => ⟨[], .nil fun id hid => ?_, hfresh x⟩⟩,
      hexact.frame rfl rfl⟩, fun h => absurd h (by simp)⟩
    · exact absurd hx (by simp [hb.aborted])
    · exact absurd hid (by simp [hb.dedup])
  · rintro m b ⟨⟨hexact, -⟩, hstored, ⟨g, hg⟩, hb⟩ hstore
    obtain ⟨haborted, hconsumed⟩ := hexact.stored b hstore
    have hseqs : Node.storedSeqs m = b.state.outSeq := by simp [Node.storedSeqs, hstore]
    have hrc : Node.storedRc m = b.state.rc := by simp [Node.storedRc, hstore]
    refine ⟨⟨⟨haborted, hconsumed m.state.fn⟩, hexact.frame rfl rfl⟩, fun _ => ⟨⟨g, ?_⟩, ?_⟩⟩
    · exact ⟨hg.frame rfl rfl, hg.restores b hstore _, hseqs.symm, hrc.symm,
        fun y => RingCompletion.mem_recheck⟩
    · exact ⟨hstored.acked, hstored.tracked, hstored.announced⟩
  refine Spec.bind (Q := fun _ m => Remembers C view f₀ arrivals m ∧ Exact C view f₀ arrivals m)
    (Spec.when ?_ ?_) fun _ => Spec.modify ?_
  · intro hrestored
    refine Spec.read_bind fun m => ?_
    refine Spec.bind ((spec_runEmits_exact tracks hC hview
      (RingCompletion.nodup_recheck m.rc)).pre ?_) fun _ => ?_
    · rintro _ ⟨rfl, ⟨hmem, hexact⟩, hprimed⟩
      exact ⟨(hprimed hrestored).1, (hprimed hrestored).2, hmem, hexact⟩
    refine Spec.read_bind fun m' => ?_
    refine Spec.bind ((spec_free_exact hview _).pre ?_) fun _ => ?_
    · rintro _ ⟨rfl, hmem, hexact, -⟩
      refine ⟨hmem, hexact, fun y hy howed => ?_⟩
      exact RingCompletion.mem_resolvedClients.mp hy howed.1
    · exact spec_flush_remembers hC hview true
  · exact fun _ m hm => hm.1
  · exact fun m hm => ⟨⟨hm.1.aborted, hm.1.consumed⟩, hm.2.frame rfl rfl⟩

theorem spec_onDataMsg_exact (hC : Stateful C) (hview : C.Apportioned view)
    (laws : TracksEofs C tracks) (hqueues : OrderedQueues arrivals) {tag : Q × ℕ}
    {msg : Message α} (htag : arrivals tag.1 tag.2 = some msg) :
    Spec (fun m => ∃ m₀, (Delivered C arrivals tracks m₀ ∧ Steady C m₀ ∧
        Remembers C view f₀ arrivals m₀ ∧ Exact C view f₀ arrivals m₀) ∧
          InOrder arrivals tag m₀ ∧ m = m₀.deliver tag)
      (onDataMsg C tag msg) (fun _ m => Remembers C view f₀ arrivals m ∧
        Exact C view f₀ arrivals m) (Exact C view f₀ arrivals) := by
  have hack : ∀ m : Node Q F S E β, Remembers C view f₀ arrivals m ∧
      Exact C view f₀ arrivals m → Remembers C view f₀ arrivals (m.ackTag tag) ∧
        Exact C view f₀ arrivals (m.ackTag tag) :=
    fun m hm => ⟨⟨hm.1.aborted, hm.1.consumed⟩, hm.2.frame rfl rfl⟩
  have hstart : ∀ m : Node Q F S E β, (∃ m₀, (Delivered C arrivals tracks m₀ ∧ Steady C m₀ ∧
      Remembers C view f₀ arrivals m₀ ∧ Exact C view f₀ arrivals m₀) ∧
        InOrder arrivals tag m₀ ∧ m = m₀.deliver tag) →
          Remembers C view f₀ arrivals m ∧ Exact C view f₀ arrivals m := by
    rintro _ ⟨m₀, ⟨-, -, hmem, hexact⟩, -, rfl⟩
    exact ⟨⟨hmem.aborted, hmem.consumed⟩, hexact.frame rfl rfl⟩
  refine Checkpointer.spec_dispatch ?_ ?_ ?_
  · rintro x k rfl
    have hctl := not_carries_of_control htag (by simp)
    have hkeeps : Spec (Delivered C arrivals tracks)
        (Checkpointer.flush C.provider false : NodeProg Q F S E β Unit)
        (fun _ => Delivered C arrivals tracks) (StoredDeliveries C arrivals tracks) :=
      spec_flush_keeps
    have horder : Spec (InOrder arrivals tag)
        (Checkpointer.flush C.provider false : NodeProg Q F S E β Unit)
        (fun _ => InOrder arrivals tag) (fun _ => True) := spec_flush_inOrder false
    refine Spec.bind (Q := fun _ m => (Delivered C arrivals tracks m ∧ InOrder arrivals tag m) ∧
      Steady C m ∧ Remembers C view f₀ arrivals m ∧ Exact C view f₀ arrivals m)
      (((hkeeps.and horder).and ((spec_flush_steady hC false).and
        (spec_flush_remembers hC hview false))).conseq ?_ (fun _ _ hm => hm)
          fun m hm => hm.2.2) fun _ => ?_
    · intro m hm
      refine ⟨?_, ?_, hstart m hm⟩
      · obtain ⟨m₀, ⟨hdel, -⟩, horder, rfl⟩ := hm
        exact ⟨hdel.deliver_control hctl, inOrder_deliver horder⟩
      · obtain ⟨m₀, ⟨-, hsteady, -⟩, -, rfl⟩ := hm
        exact hsteady.frame rfl rfl rfl
    · exact Spec.bind (spec_onEof_exact hC hview laws hqueues htag) fun _ =>
        Checkpointer.spec_ack (fun m hm => hm.2) hack
  · rintro x -
    exact Spec.bind ((spec_onAbort_exact hC hview x).pre hstart) fun _ =>
      Checkpointer.spec_ack (fun m hm => hm.2) hack
  · rintro d rfl
    refine Checkpointer.spec_handleData (R := fun m => Remembers C view f₀ arrivals m ∧
      Exact C view f₀ arrivals m) ?_ ?_ ?_ ?_ fun _ hm _ => hm
    · exact fun m hm _ => ⟨(hstart m hm).2, hack m (hstart m hm)⟩
    · exact fun m hm _ _ => ⟨(hstart m hm).2, hack m (hstart m hm)⟩
    · refine (spec_onData_exact hC hview hqueues htag).pre fun m hm => ?_
      obtain ⟨hm, hab, hdup⟩ := hm
      refine ⟨hstart m hm, ?_⟩
      obtain ⟨m₀, ⟨hdel, hsteady, -⟩, -, rfl⟩ := hm
      exact ⟨hsteady.quiet, expected_neg_of_new (m := m₀) hdel.2 htag
        fun hk => hk.elim hdup hab, hdup⟩
    · exact (spec_flush_remembers hC hview false).pre fun m hm => hm.1

/-! ## Runs -/

/-- What holds between two calls and what a crash leaves. -/
def ExactInv (C : Controller Q F S E α β) (view : UUID → F → V) (f₀ : F)
    (arrivals : Q → ℕ → Option (Message α)) (tracks : E → Q → UUID → Prop) :
    Node Q F S E β → Prop :=
  NodeInv C
    (fun m => (Delivered C arrivals tracks m ∧ Steady C m) ∧ Remembers C view f₀ arrivals m ∧
      Exact C view f₀ arrivals m)
    (fun m => (StoredDeliveries C arrivals tracks m ∧ Recoverable C m) ∧
      Exact C view f₀ arrivals m ∧ Unrestored C view f₀ m)

omit [DecidableEq Q] in
theorem ExactInv.replay (h : ExactInv C view f₀ arrivals tracks m) :
    ReplayInv C arrivals tracks m :=
  h.mono (fun _ hm => hm.1) fun _ hm => hm.1

theorem spec_call_exact (hC : Stateful C) (hview : C.Apportioned view)
    (laws : TracksEofs C tracks) (hqueues : OrderedQueues arrivals) (call : Call Q) :
    Spec (fun m => ExactInv C view f₀ arrivals tracks m ∧ Enabled arrivals true call m)
      (handler C arrivals call) (fun _ m => Remembers C view f₀ arrivals m ∧
        Exact C view f₀ arrivals m) (Exact C view f₀ arrivals) := by
  cases call with
  | start =>
      refine (spec_start_exact tracks hC hview).pre fun m hm => ?_
      obtain ⟨⟨⟨hstored, hr⟩, hexact, hfresh⟩, hb⟩ := hm.1.stored hm.2
      exact ⟨⟨hexact, hfresh⟩, hstored, hr, hb⟩
  | token t =>
      exact (spec_onRingMsg_exact hC hview t).pre fun m hm => (hm.1.live hm.2).2
  | deliver tag =>
      change Spec _ (receive C tag (arrivals tag.1 tag.2)) _ _
      cases htag : arrivals tag.1 tag.2 with
      | none =>
          refine Spec.pure fun m hm => ?_
          have hsome := hm.2.2.1
          simp [htag] at hsome
      | some msg =>
          refine Spec.bind (Spec.modify fun m hm => ?_) fun _ =>
            spec_onDataMsg_exact hC hview laws hqueues htag
          obtain ⟨⟨hdel, hsteady⟩, hexact⟩ := hm.1.live hm.2.1
          exact ⟨m, ⟨hdel, hsteady, hexact⟩, hm.2.2.2.2.2 rfl, rfl⟩

theorem exactInv_reach (hC : Stateful C) (hview : C.Apportioned view)
    (hstarts : C.StartsFrom view f₀) (laws : TracksEofs C tracks)
    (hqueues : OrderedQueues arrivals) {crashable : Node Q F S E β → Prop}
    (h : (system C arrivals true crashable).Reach (Machine.initial (C.fresh f₀)) m) :
    ExactInv C view f₀ arrivals tracks m := by
  have hreboot : ∀ (m : Node Q F S E β) k,
      (StoredDeliveries C arrivals tracks m ∧ Recoverable C m) ∧ Exact C view f₀ arrivals m →
        (StoredDeliveries C arrivals tracks (m.reboot C.provider k) ∧
          Recoverable C (m.reboot C.provider k)) ∧
            Exact C view f₀ arrivals (m.reboot C.provider k) ∧
              Unrestored C view f₀ (m.reboot C.provider k) := by
    rintro m k ⟨⟨hm, g, hg⟩, hexact⟩
    exact ⟨⟨⟨hm.acked, hm.tracked, hm.announced⟩, g, hg.frame rfl rfl⟩,
      hexact.frame rfl rfl, fun x => hstarts.again x k m.state.fn⟩
  refine nodeInv_reach ?_ (fun call => ?_) ?_ h
  · have hdown := (replayInv_reach hC laws hqueues
      (.refl : (system C arrivals true crashable).Reach
        (Machine.initial (C.fresh f₀)) _)).stored rfl
    refine ⟨hdown.1, ⟨fun b hb => ?_, fun x sent he => ?_, ?_⟩, hstarts.first⟩
    · cases hb
    · exact absurd he List.not_mem_nil
    · exact fun _ _ _ _ _ _ _ he => absurd he List.not_mem_nil
  · have hexact : Spec
        (fun m => ExactInv C view f₀ arrivals tracks m ∧ Enabled arrivals true call m)
        (handler C arrivals call) (fun _ m => Remembers C view f₀ arrivals m ∧
          Exact C view f₀ arrivals m) (Exact C view f₀ arrivals) :=
      spec_call_exact hC hview laws hqueues call
    exact ((spec_call_replay hC laws hqueues call).and hexact).conseq
      (fun m hm => ⟨⟨ExactInv.replay hm.1, hm.2⟩, hm⟩) (fun _ m hm => hm)
      fun m hm _ k => hreboot m k hm
  · rintro m (⟨⟨hdel, hsteady⟩, -, hexact⟩ | ⟨hm, hexact, -⟩) - k
    · exact hreboot m k ⟨⟨hdel.1, hsteady.1⟩, hexact⟩
    · exact hreboot m k ⟨hm, hexact⟩

/-- In every state that a stateful node passes through, the results of the reported clients
were sent, and no stamp is of two clients. -/
theorem exact_visits (hC : Stateful C) (hview : C.Apportioned view)
    (hstarts : C.StartsFrom view f₀) (laws : TracksEofs C tracks)
    (hqueues : OrderedQueues arrivals) {crashable : Node Q F S E β → Prop}
    (h : (system C arrivals true crashable).Visits (Machine.initial (C.fresh f₀)) m) :
    Exact C view f₀ arrivals m := by
  refine node_visits (fun m hm => exactInv_reach hC hview hstarts laws hqueues hm)
    (fun m hm => hm.2.2) (fun m hm => hm.2.1) (fun call => ?_) h
  exact (spec_call_exact hC hview laws hqueues call).post fun _ _ _ => trivial

end RingNode
