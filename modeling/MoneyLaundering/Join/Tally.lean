import Mathlib.Data.Set.Insert
import MoneyLaundering.Join.Recoverable
import MoneyLaundering.Join.Specs

/-!
# The join without crashes

What a handler that never crashes knows after it was given some messages of its queue in
order, and what it sent.  A client is counted until as many messages arrived as its
end-of-file announces, and then its result is sent once.
-/

namespace JoinRouteHandler

/-- How far a client is. -/
inductive Progress (K : Type) where
  | counting (received : ℕ) (expected : Option ℤ) (content : K)
  | finalized

/-- The clients, the messages that are known, and what was sent, newest first. -/
structure Tally (K : Type) where
  progress : UUID → Progress K
  recorded : Set (ProducerId × ℕ)
  log : List Response

/-- The responses that chunks make, newest first. -/
def responsesOf (clientId : UUID) (ucId : ℕ) (chunks : List (String × Bool)) :
    List Response :=
  (chunks.map fun chunk =>
    (⟨clientId, ucId, chunk.1, chunk.2⟩ : Response)).reverse

theorem clientId_of_mem_responsesOf {clientId : UUID} {ucId : ℕ}
    {chunks : List (String × Bool)} {r : Response}
    (h : r ∈ responsesOf clientId ucId chunks) :
    r.clientId = clientId ∧ r.ucId = ucId := by
  rw [responsesOf, List.mem_reverse, List.mem_map] at h
  obtain ⟨chunk, -, rfl⟩ := h
  exact ⟨rfl, rfl⟩

namespace Tally

variable {F S α K : Type} {fn : JoinFn F S α}
  {unsaved : (UUID → ℕ → ℕ) → S → F → UUID → Prop} (R : Recoverable fn unsaved K) (ucId : ℕ)

/-- No message arrived. -/
def empty : Tally K := ⟨fun _ => .counting 0 none R.blank, ∅, []⟩

/-- The client is at another point. -/
def setProgress (clientId : UUID) (p : Progress K) (t : Tally K) : Tally K :=
  { t with progress := Function.update t.progress clientId p }

/-- The client's result is sent. -/
def finish (clientId : UUID) (content : K) (t : Tally K) : Tally K :=
  { t.setProgress clientId .finalized with
    log := responsesOf clientId ucId (R.result content) ++ t.log }

/-- The client's result is sent if all its messages arrived. -/
def settle (clientId : UUID) (t : Tally K) : Tally K :=
  match t.progress clientId with
  | .counting received (some expected) content =>
    if expected ≤ (received : ℤ) then t.finish R ucId clientId content else t
  | _ => t

/-- An end-of-file announces a count. -/
def expect (clientId : UUID) (expected : ℤ) (t : Tally K) : Tally K :=
  match t.progress clientId with
  | .counting received _ content =>
    t.setProgress clientId (.counting received (some expected) content)
  | .finalized => t

/-- A message is accumulated. -/
def collect (msg : DataMsg α) (t : Tally K) : Tally K :=
  match t.progress msg.clientId with
  | .counting received expected content =>
    t.setProgress msg.clientId
      (.counting (received + 1) expected (R.add msg.body content))
  | .finalized => t

open Classical in
/-- A message arrives. -/
noncomputable def step (msg : Message α) (t : Tally K) : Tally K :=
  match msg with
  | .eof clientId expected => (t.expect clientId expected).settle R ucId clientId
  | .data msg =>
    if msg.identity ∈ t.recorded then t
    else { (t.collect R msg).settle R ucId msg.clientId with
      recorded := insert msg.identity t.recorded }
  | .abort _ => t

/-- The first messages of a queue arrived. -/
noncomputable def after (arrivals : ℕ → Option (Message α)) : ℕ → Tally K
  | 0 => empty R
  | n + 1 =>
    match arrivals n with
    | none => after arrivals n
    | some msg => (after arrivals n).step R ucId msg

/-! ## One step -/

variable {R ucId} {t : Tally K} {c x : UUID} {k : K}

/-- All that the client waits for arrived. -/
def Due (c : UUID) (k : K) (t : Tally K) : Prop :=
  ∃ (received : ℕ) (expected : ℤ),
    t.progress c = .counting received (some expected) k ∧ expected ≤ (received : ℤ)

theorem settle_of_due (h : t.Due c k) : t.settle R ucId c = t.finish R ucId c k := by
  obtain ⟨received, expected, hp, hle⟩ := h
  simp [settle, hp, hle]

theorem settle_of_not_due (h : ∀ k, ¬t.Due c k) : t.settle R ucId c = t := by
  rw [settle]
  split
  · rename_i received expected k hp
    exact if_neg fun hle => h k ⟨received, expected, hp, hle⟩
  · rfl

theorem settle_cases (R : Recoverable fn unsaved K) (ucId : ℕ) (t : Tally K) (c : UUID) :
    (∃ k, t.Due c k ∧ t.settle R ucId c = t.finish R ucId c k) ∨
      (∀ k, ¬t.Due c k) ∧ t.settle R ucId c = t := by
  by_cases h : ∃ k, t.Due c k
  · obtain ⟨k, hk⟩ := h
    exact Or.inl ⟨k, hk, settle_of_due hk⟩
  · have hnot : ∀ k, ¬t.Due c k := fun k hk => h ⟨k, hk⟩
    exact Or.inr ⟨hnot, settle_of_not_due hnot⟩

theorem not_due_of_finalized (h : t.progress c = .finalized) (k : K) : ¬t.Due c k := by
  rintro ⟨received, expected, hp, -⟩
  rw [h] at hp
  cases hp

@[simp] theorem progress_setProgress_self (p : Progress K) :
    (t.setProgress c p).progress c = p :=
  Function.update_self _ _ _

theorem progress_setProgress_of_ne (p : Progress K) (h : c ≠ x) :
    (t.setProgress x p).progress c = t.progress c :=
  Function.update_of_ne h _ _

theorem setProgress_self {p : Progress K} (h : t.progress c = p) :
    t.setProgress c p = t := by
  subst h
  rw [setProgress, Function.update_eq_self]

@[simp] theorem log_expect (e : ℤ) : (t.expect c e).log = t.log := by
  rw [expect]
  split <;> rfl

@[simp] theorem log_collect (d : DataMsg α) : (t.collect R d).log = t.log := by
  rw [collect]
  split <;> rfl

@[simp] theorem recorded_expect (e : ℤ) : (t.expect c e).recorded = t.recorded := by
  rw [expect]
  split <;> rfl

@[simp] theorem recorded_collect (d : DataMsg α) :
    (t.collect R d).recorded = t.recorded := by
  rw [collect]
  split <;> rfl

@[simp] theorem recorded_settle : (t.settle R ucId c).recorded = t.recorded := by
  rcases settle_cases R ucId t c with ⟨k, -, heq⟩ | ⟨-, heq⟩
  · rw [heq]
    rfl
  · rw [heq]

theorem progress_expect_of_ne (e : ℤ) (h : c ≠ x) :
    (t.expect x e).progress c = t.progress c := by
  rw [expect]
  split
  · exact progress_setProgress_of_ne _ h
  · rfl

theorem progress_collect_of_ne (d : DataMsg α) (h : c ≠ d.clientId) :
    (t.collect R d).progress c = t.progress c := by
  rw [collect]
  split
  · exact progress_setProgress_of_ne _ h
  · rfl

theorem expect_of_finalized (e : ℤ) (h : t.progress c = .finalized) :
    t.expect c e = t := by
  simp [expect, h]

theorem finalized_expect_iff (e : ℤ) :
    (t.expect x e).progress c = .finalized ↔ t.progress c = .finalized := by
  by_cases hc : c = x
  · subst hc
    cases hp : t.progress c with
    | counting received expected k => simp [expect, hp]
    | finalized => simp [expect, hp]
  · rw [progress_expect_of_ne e hc]

theorem finalized_collect_iff (d : DataMsg α) :
    (t.collect R d).progress c = .finalized ↔ t.progress c = .finalized := by
  by_cases hc : c = d.clientId
  · subst hc
    cases hp : t.progress d.clientId with
    | counting received expected k => simp [collect, hp]
    | finalized => simp [collect, hp]
  · rw [progress_collect_of_ne d hc]

theorem finalized_settle (h : t.progress c = .finalized) :
    (t.settle R ucId x).progress c = .finalized := by
  rcases settle_cases R ucId t x with ⟨k, -, heq⟩ | ⟨-, heq⟩
  · rw [heq]
    by_cases hc : c = x
    · subst hc
      exact progress_setProgress_self _
    · exact (progress_setProgress_of_ne _ hc).trans h
  · rw [heq]
    exact h

theorem log_suffix_settle (R : Recoverable fn unsaved K) (ucId : ℕ) (t : Tally K)
    (c : UUID) : t.log <:+ (t.settle R ucId c).log := by
  rcases settle_cases R ucId t c with ⟨k, -, heq⟩ | ⟨-, heq⟩
  · rw [heq]
    exact List.suffix_append _ _
  · rw [heq]

/-- If nothing is sent, then nothing was due. -/
theorem settle_of_log_eq (h : (t.settle R ucId c).log = t.log) :
    t.settle R ucId c = t := by
  rcases settle_cases R ucId t c with ⟨k, -, heq⟩ | ⟨-, heq⟩
  · exfalso
    rw [heq] at h
    have hnil := List.append_left_eq_self.mp h
    rw [responsesOf, List.reverse_eq_nil_iff, List.map_eq_nil_iff] at hnil
    exact (R.oneLast k).ne_nil hnil
  · exact heq

theorem finalized_step (msg : Message α) (h : t.progress c = .finalized) :
    (t.step R ucId msg).progress c = .finalized := by
  cases msg with
  | eof x e => exact finalized_settle ((finalized_expect_iff e).mpr h)
  | abort x => exact h
  | data d =>
      rw [step]
      split
      · exact h
      · exact finalized_settle (t := t.collect R d) ((finalized_collect_iff d).mpr h)

theorem log_suffix_step (R : Recoverable fn unsaved K) (ucId : ℕ) (t : Tally K)
    (msg : Message α) : t.log <:+ (t.step R ucId msg).log := by
  cases msg with
  | eof x e =>
      have h := log_suffix_settle R ucId (t.expect x e) x
      rwa [log_expect] at h
  | abort x => exact List.suffix_refl _
  | data d =>
      rw [step]
      split
      · exact List.suffix_refl _
      · have h := log_suffix_settle R ucId (t.collect R d) d.clientId
        rwa [log_collect] at h

theorem step_eof_of_log_eq {e : ℤ} (h : (t.step R ucId (.eof c e)).log = t.log) :
    t.step R ucId (.eof c e) = t.expect c e :=
  settle_of_log_eq (h.trans (log_expect e).symm)

theorem step_data_of_log_eq {d : DataMsg α} (hd : d.identity ∉ t.recorded)
    (h : (t.step R ucId (.data d)).log = t.log) :
    t.step R ucId (.data d) =
      { t.collect R d with recorded := insert d.identity t.recorded } := by
  rw [step, if_neg hd] at h ⊢
  have hsettle := settle_of_log_eq (t := t.collect R d) (h.trans (log_collect d).symm)
  rw [hsettle]

theorem step_data_of_mem {d : DataMsg α} (hd : d.identity ∈ t.recorded) :
    t.step R ucId (.data d) = t := by
  rw [step, if_pos hd]

variable (R) in
/-- The contents of the clients that are counted come about by adding. -/
def Sound (t : Tally K) : Prop :=
  ∀ c received expected k, t.progress c = .counting received expected k → R.Sound k

theorem Sound.setProgress (h : t.Sound R) {p : Progress K}
    (hp : ∀ received expected k, p = .counting received expected k → R.Sound k) :
    (t.setProgress x p).Sound R := by
  intro c received expected k hc
  by_cases hx : c = x
  · subst hx
    rw [progress_setProgress_self] at hc
    exact hp received expected k hc
  · rw [progress_setProgress_of_ne p hx] at hc
    exact h c received expected k hc

theorem Sound.settle (h : t.Sound R) : (t.settle R ucId x).Sound R := by
  rcases settle_cases R ucId t x with ⟨k, -, heq⟩ | ⟨-, heq⟩
  · rw [heq]
    exact h.setProgress fun _ _ _ hp => by cases hp
  · rw [heq]
    exact h

theorem Sound.step (h : t.Sound R) (msg : Message α) : (t.step R ucId msg).Sound R := by
  cases msg with
  | eof x e =>
      apply Sound.settle
      rw [expect]
      split
      · rename_i received expected k hx
        apply h.setProgress
        rintro _ _ _ ⟨⟩
        exact h x received expected k hx
      · exact h
  | abort x => exact h
  | data d =>
      rw [Tally.step]
      split
      · exact h
      · apply Sound.settle (t := t.collect R d)
        rw [collect]
        split
        · rename_i received expected k hd
          apply h.setProgress
          rintro _ _ _ ⟨⟩
          exact R.sound_add d.body k (h d.clientId received expected k hd)
        · exact h

/-! ## Many messages -/

variable {arrivals : ℕ → Option (Message α)} {n m i : ℕ}

theorem after_succ_of_none (h : arrivals n = none) :
    after R ucId arrivals (n + 1) = after R ucId arrivals n := by
  simp [after, h]

theorem after_succ {msg : Message α} (h : arrivals n = some msg) :
    after R ucId arrivals (n + 1) = (after R ucId arrivals n).step R ucId msg := by
  simp [after, h]

/-- What one message preserves holds on. -/
theorem after_induction {P : Tally K → Prop} (hnm : n ≤ m)
    (h : P (after R ucId arrivals n))
    (hstep : ∀ i msg, n ≤ i → i < m → arrivals i = some msg →
      P (after R ucId arrivals i) → P ((after R ucId arrivals i).step R ucId msg)) :
    P (after R ucId arrivals m) := by
  induction m, hnm using Nat.le_induction with
  | base => exact h
  | succ j hj ih =>
      have hprev := ih fun i msg hi hij => hstep i msg hi (by omega)
      cases hmsg : arrivals j with
      | none =>
          rw [after_succ_of_none hmsg]
          exact hprev
      | some msg =>
          rw [after_succ hmsg]
          exact hstep j msg hj (by omega) hmsg hprev

theorem sound_after : (after R ucId arrivals n).Sound R := by
  apply after_induction (P := Sound R) (Nat.zero_le n)
  · rintro c _ _ _ ⟨⟩
    exact R.sound_blank
  · exact fun _ msg _ _ _ h => h.step msg

theorem log_suffix_after (hnm : n ≤ m) :
    (after R ucId arrivals n).log <:+ (after R ucId arrivals m).log := by
  apply after_induction (P := fun t => (after R ucId arrivals n).log <:+ t.log) hnm
  · exact List.suffix_refl _
  · intro i msg _ _ _ h
    exact h.trans (log_suffix_step R ucId _ msg)

theorem finalized_after (hnm : n ≤ m)
    (h : (after R ucId arrivals n).progress c = .finalized) :
    (after R ucId arrivals m).progress c = .finalized :=
  after_induction (P := fun t => t.progress c = .finalized) hnm h
    fun _ msg _ _ _ h => finalized_step msg h

theorem recorded_after (hnm : n ≤ m) :
    (after R ucId arrivals n).recorded ⊆ (after R ucId arrivals m).recorded := by
  apply after_induction (P := fun t => (after R ucId arrivals n).recorded ⊆ t.recorded) hnm
  · exact Set.Subset.refl _
  · intro i msg _ _ _ h
    apply h.trans
    cases msg with
    | eof x e => simp [step]
    | abort x => exact Set.Subset.refl _
    | data d =>
        rw [step]
        split
        · exact Set.Subset.refl _
        · exact Set.subset_insert _ _

/-- If nothing was sent up to some point, then nothing was sent before. -/
theorem log_after_eq (hni : n ≤ i) (him : i ≤ m)
    (h : (after R ucId arrivals m).log = (after R ucId arrivals n).log) :
    (after R ucId arrivals i).log = (after R ucId arrivals n).log := by
  have hprefix : (after R ucId arrivals i).log <:+ (after R ucId arrivals n).log := by
    rw [← h]
    exact log_suffix_after him
  exact hprefix.eq_of_length_le (log_suffix_after hni).length_le

theorem finalized_of_step {msg : Message α}
    (hlog : (t.step R ucId msg).log = t.log)
    (h : (t.step R ucId msg).progress c = .finalized) : t.progress c = .finalized := by
  cases msg with
  | eof x e =>
      rw [step_eof_of_log_eq hlog] at h
      exact (finalized_expect_iff e).mp h
  | abort x => exact h
  | data d =>
      by_cases hd : d.identity ∈ t.recorded
      · rwa [step_data_of_mem hd] at h
      · rw [step_data_of_log_eq hd hlog] at h
        exact (finalized_collect_iff d).mp h

/-- No client is finalized while nothing is sent. -/
theorem finalized_of_log_eq (hnm : n ≤ m)
    (hlog : (after R ucId arrivals m).log = (after R ucId arrivals n).log)
    (h : (after R ucId arrivals m).progress c = .finalized) :
    (after R ucId arrivals n).progress c = .finalized := by
  by_contra hne
  apply after_induction (P := fun t => t.progress c ≠ .finalized) hnm hne _ h
  intro i msg hni him hmsg hi hfin
  apply hi
  apply finalized_of_step _ hfin
  rw [← after_succ hmsg]
  exact (log_after_eq (by omega) (by omega) hlog).trans
    (log_after_eq hni (by omega) hlog).symm

/-- Messages that change nothing. -/
theorem after_eq_of_idle (hnm : n ≤ m)
    (h : ∀ i, n ≤ i → i < m → (arrivals i).isSome →
      after R ucId arrivals (i + 1) = after R ucId arrivals i) :
    after R ucId arrivals m = after R ucId arrivals n := by
  apply after_induction (P := fun t => t = after R ucId arrivals n) hnm rfl
  intro i msg hni him hmsg hi
  rw [← after_succ hmsg, h i hni him (by simp [hmsg]), hi]

/-- An end-of-file whose count is the one that is waited for changes nothing, as long as
nothing is sent. -/
theorem after_succ_eof (hlog : (after R ucId arrivals m).log = (after R ucId arrivals n).log)
    (hknown : ∀ j x e, n ≤ j → j < m → arrivals j = some (.eof x e) →
      (after R ucId arrivals n).progress x = .finalized ∨
        ∃ received k, (after R ucId arrivals n).progress x =
          .counting received (some e) k)
    (hni : n ≤ i) (him : i < m) {e : ℤ} (hi : arrivals i = some (.eof c e)) :
    after R ucId arrivals (i + 1) = after R ucId arrivals i := by
  -- up to the end-of-file every client waits for what it waited for
  have hwaits : ∀ received expected k,
      (after R ucId arrivals n).progress c = .counting received expected k →
        ∃ received' k', (after R ucId arrivals i).progress c =
          .counting received' expected k' := by
    intro received expected k hp
    apply after_induction (P := fun t => ∃ received' k', t.progress c =
      .counting received' expected k') hni ⟨received, k, hp⟩
    intro j msg hnj hji hmsg ⟨received', k', hj⟩
    have hquiet : (after R ucId arrivals (j + 1)).log = (after R ucId arrivals j).log :=
      (log_after_eq (by omega) (by omega) hlog).trans
        (log_after_eq hnj (by omega) hlog).symm
    rw [after_succ hmsg] at hquiet
    cases msg with
    | eof x e' =>
        rw [step_eof_of_log_eq hquiet]
        by_cases hx : c = x
        · subst hx
          rcases hknown j c e' hnj (by omega) hmsg with hfin | ⟨received'', k'', hsome⟩
          · rw [hp] at hfin
            cases hfin
          · rw [hp] at hsome
            cases hsome
            exact ⟨received', k', by simp [expect, hj]⟩
        · exact ⟨received', k', (progress_expect_of_ne e' hx).trans hj⟩
    | abort x => exact ⟨received', k', hj⟩
    | data d =>
        by_cases hd : d.identity ∈ (after R ucId arrivals j).recorded
        · rw [step_data_of_mem hd]
          exact ⟨received', k', hj⟩
        · rw [step_data_of_log_eq hd hquiet]
          by_cases hx : c = d.clientId
          · subst hx
            exact ⟨received' + 1, R.add d.body k', by simp [collect, hj]⟩
          · exact ⟨received', k', (progress_collect_of_ne d hx).trans hj⟩
  have hquiet : (after R ucId arrivals (i + 1)).log = (after R ucId arrivals i).log :=
    (log_after_eq (by omega) (by omega) hlog).trans
      (log_after_eq hni (by omega) hlog).symm
  rw [after_succ hi] at hquiet ⊢
  rw [step_eof_of_log_eq hquiet]
  rcases hknown i c e hni him hi with hfin | ⟨received, k, hp⟩
  · exact expect_of_finalized e (finalized_after hni hfin)
  · obtain ⟨received', k', hp'⟩ := hwaits received (some e) k hp
    simp [expect, hp', setProgress_self]

/-- What a client was sent: nothing while it is counted, and one result at the most. -/
def Told (ucId : ℕ) (c : UUID) (t : Tally K) : Prop :=
  (t.progress c ≠ .finalized → t.log.filter (fun r => r.clientId = c) = []) ∧
    ∃ chunks, (chunks = [] ∨ OneLast chunks) ∧
      t.log.filter (fun r => r.clientId = c) = responsesOf c ucId chunks

theorem Told.of_eq {t' : Tally K} (h : t.Told ucId c) (hlog : t'.log = t.log)
    (hp : t.progress c = .finalized → t'.progress c = .finalized) : t'.Told ucId c := by
  rw [Told, hlog]
  exact ⟨fun hne => h.1 fun heq => hne (hp heq), h.2⟩

theorem Told.settle (h : t.Told ucId c) : (t.settle R ucId x).Told ucId c := by
  rcases settle_cases R ucId t x with ⟨k, hdue, heq⟩ | ⟨-, heq⟩
  · rw [heq]
    by_cases hc : c = x
    · subst hc
      have hnone := h.1 fun hfin => not_due_of_finalized hfin k hdue
      constructor
      · exact fun hne => absurd (progress_setProgress_self _) hne
      · refine ⟨R.result k, Or.inr (R.oneLast k), ?_⟩
        rw [finish, List.filter_append, hnone, List.append_nil, List.filter_eq_self]
        intro r hr
        simp [(clientId_of_mem_responsesOf hr).1]
    · have hothers : (responsesOf x ucId (R.result k)).filter
          (fun r => r.clientId = c) = [] := by
        rw [List.filter_eq_nil_iff]
        intro r hr
        simp [(clientId_of_mem_responsesOf hr).1, Ne.symm hc]
      have hlog : (t.finish R ucId x k).log.filter (fun r => r.clientId = c) =
          t.log.filter fun r => r.clientId = c := by
        rw [finish, List.filter_append, hothers, List.nil_append]
      rw [Told, hlog]
      refine ⟨fun hne => h.1 fun hfin => hne ?_, h.2⟩
      exact (progress_setProgress_of_ne _ hc).trans hfin
  · rw [heq]
    exact h

/-- A client is sent one result at the most. -/
theorem told_after : (after R ucId arrivals n).Told ucId c := by
  apply after_induction (P := Told ucId c) (Nat.zero_le n)
  · exact ⟨fun _ => rfl, [], Or.inl rfl, rfl⟩
  · intro i msg _ _ _ h
    cases msg with
    | eof x e =>
        exact (h.of_eq (log_expect e) (finalized_expect_iff e).mpr).settle
    | abort x => exact h
    | data d =>
        rw [step]
        split
        · exact h
        · have hcollect := h.of_eq (log_collect (R := R) d) (finalized_collect_iff d).mpr
          exact (hcollect.settle (R := R) (x := d.clientId)).of_eq rfl id

end Tally

end JoinRouteHandler
