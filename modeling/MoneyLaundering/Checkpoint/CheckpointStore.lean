import MoneyLaundering.Checkpoint.Checkpointer

/-!
# The checkpoint files

A checkpoint is written to a temporary file, which then replaces the checkpoint file.  Nodes may
share a state directory, their operations interleave in any way, and a process may end or an
exception may be raised anywhere.  The module shows that a node nevertheless loads the last
checkpoint that was put in place, so a checkpoint is the atomic step that the checkpointer takes
it for.
-/

/-- What `msgpack` does with a checkpoint. -/
structure BlobCodec (B : Type) where
  packb : B → Bytes
  unpackb : Bytes → Option B

/-- A checkpoint that is read back as it was written. -/
def BlobCodec.Reads {B : Type} (codec : BlobCodec B) (blob : B) : Prop :=
  codec.unpackb (codec.packb blob) = some blob

/-- Where a node stands in `save`. -/
inductive SaveState (B : Type) where
  | idle
  /-- The temporary file is open, and `rest` has not reached it. -/
  | writing (stem : String) (blob : B) (rest : Bytes)
  /-- The temporary file is closed. -/
  | written (stem : String) (blob : B)
  /-- An exception was raised, and the temporary file is to be removed. -/
  | raised (stem : String)

/-- A state directory, and the calls of `save` on it. -/
structure StateDir (B : Type) where
  files : Dict String Bytes
  saves : String → SaveState B

/-- The operations of a call of `save`, and the end of a process. -/
inductive FileOp (B : Type) where
  | mkstemp (node : String) (blob : B) (stem : String)
  /-- Some more bytes reach the temporary file. -/
  | write (node : String) (n : ℕ)
  /-- The end of the `with` block. -/
  | close (node : String)
  | replace (node : String)
  | raise (node : String)
  /-- `os.unlink`, whose `OSError` is suppressed. -/
  | unlink (node : String) (removed : Bool)
  | crash (node : String)

namespace CheckpointStore

variable {B : Type}

/-- The checkpoint file of a node. -/
def path (nodeId : String) : String := nodeId ++ ".ckpt"

/-- A name that `mkstemp` makes up. -/
def tmp (stem : String) : String := stem ++ ".tmp"

/-- One operation, if the node is where it can perform it. -/
def step (codec : BlobCodec B) : FileOp B → StateDir B → Option (StateDir B)
  | .mkstemp node blob stem, d =>
    match d.saves node with
    | .idle =>
      -- the file is created exclusively
      if tmp stem ∈ d.files.keys then none
      else some ⟨d.files.set (tmp stem) [],
        Function.update d.saves node (.writing stem blob (codec.packb blob))⟩
    | _ => none
  | .write node n, d =>
    match d.saves node with
    | .writing stem blob rest =>
      some ⟨d.files.set (tmp stem) (d.files.getD (tmp stem) [] ++ rest.take n),
        Function.update d.saves node (.writing stem blob (rest.drop n))⟩
    | _ => none
  | .close node, d =>
    match d.saves node with
    | .writing stem blob rest =>
      some ⟨d.files.set (tmp stem) (d.files.getD (tmp stem) [] ++ rest),
        Function.update d.saves node (.written stem blob)⟩
    | _ => none
  | .replace node, d =>
    match d.saves node with
    | .written stem _ =>
      some ⟨(d.files.erase (tmp stem)).set (path node) (d.files.getD (tmp stem) []),
        Function.update d.saves node .idle⟩
    | _ => none
  | .raise node, d =>
    match d.saves node with
    | .writing stem _ _ | .written stem _ =>
      some ⟨d.files, Function.update d.saves node (.raised stem)⟩
    | _ => none
  | .unlink node removed, d =>
    match d.saves node with
    | .raised stem =>
      some ⟨if removed then d.files.erase (tmp stem) else d.files,
        Function.update d.saves node .idle⟩
    | _ => none
  | .crash node, d => some ⟨d.files, Function.update d.saves node .idle⟩

/-- A run of operations. -/
def run (codec : BlobCodec B) : List (FileOp B) → StateDir B → Option (StateDir B)
  | [], d => some d
  | op :: ops, d => (step codec op d).bind (run codec ops)

/-- What a node loads, unless its file cannot be read. -/
def load (codec : BlobCodec B) (nodeId : String) (files : Dict String Bytes) :
    Option (Option B) :=
  match files.get? (path nodeId) with
  | none => some none
  | some bytes => (codec.unpackb bytes).map some

end CheckpointStore

/-! ## The store as a cell -/

/-- A cell with a value that is replaced at once. -/
structure Cell (B : Type) where
  pending : Option B
  value : Option B

namespace FileOp

variable {B : Type}

/-- The node of an operation. -/
def node : FileOp B → String
  | .mkstemp node _ _ | .write node _ | .close node | .replace node | .raise node
  | .unlink node _ | .crash node => node

end FileOp

namespace Cell

variable {B : Type} {node : String} {op : FileOp B} {c : Cell B}

/-- The cell of a node: only `replace` changes what it holds. -/
def next (node : String) (c : Cell B) (op : FileOp B) : Cell B :=
  if op.node = node then
    match op with
    | .mkstemp _ blob _ => { c with pending := some blob }
    | .replace _ => ⟨none, c.pending⟩
    | .raise _ | .crash _ => { c with pending := none }
    | _ => c
  else c

/-- The cell after a run. -/
def after (node : String) (c : Cell B) (ops : List (FileOp B)) : Cell B :=
  ops.foldl (next node) c

theorem next_of_ne (h : op.node ≠ node) : c.next node op = c := if_neg h

theorem value_next (h : op ≠ .replace node) : (c.next node op).value = c.value := by
  unfold next
  split
  · next hnode =>
      cases op with
      | replace n =>
          obtain rfl : n = node := hnode
          exact absurd rfl h
      | _ => rfl
  · rfl

theorem value_after {ops : List (FileOp B)} (h : .replace node ∉ ops) :
    (c.after node ops).value = c.value := by
  induction ops generalizing c with
  | nil => rfl
  | cons op ops ih =>
      have hop : op ≠ .replace node := fun heq => h (heq ▸ List.mem_cons_self)
      exact (ih fun hmem => h (List.mem_cons_of_mem _ hmem)).trans (value_next hop)

/-- A node that saves one checkpoint has only this one pending. -/
theorem pending_next {blob : B} (h : c.pending = none ∨ c.pending = some blob)
    (hop : ∀ blob' stem, op = .mkstemp node blob' stem → blob' = blob) :
    (c.next node op).pending = none ∨ (c.next node op).pending = some blob := by
  unfold next
  split
  · next hnode =>
      cases op with
      | mkstemp n blob' stem =>
          obtain rfl : n = node := hnode
          exact Or.inr (congrArg some (hop blob' stem rfl))
      | replace | raise | crash => exact Or.inl rfl
      | write | close | unlink => exact h
  · exact h

end Cell

namespace CheckpointStore

variable {B : Type} {codec : BlobCodec B} {d d' : StateDir B} {files files' : Dict String Bytes}
  {node stem : String} {s s' : SaveState B} {c c' : Cell B} {cells : String → Cell B}
  {op : FileOp B} {ops : List (FileOp B)} {blob : B}

/-! ### File names -/

/-- A checkpoint file is no temporary file. -/
theorem path_ne_tmp (nodeId stem : String) : path nodeId ≠ tmp stem := by
  intro h
  have hlast := congrArg (fun s : String => s.toList.getLast?) h
  simp [path, tmp] at hlast

theorem path_inj {nodeId nodeId' : String} (h : path nodeId = path nodeId') :
    nodeId = nodeId' := by
  have hlist := congrArg String.toList h
  exact String.toList_inj.mp (by simpa [path] using hlist)

theorem tmp_inj {stem stem' : String} (h : tmp stem = tmp stem') : stem = stem' := by
  have hlist := congrArg String.toList h
  exact String.toList_inj.mp (by simpa [tmp] using hlist)

/-! ### The invariant -/

/-- The temporary file that a call holds. -/
def stem? : SaveState B → Option String
  | .idle => none
  | .writing stem _ _ | .written stem _ | .raised stem => some stem

/-- What the files of a node have to do with its cell. -/
structure NodeSound (codec : BlobCodec B) (files : Dict String Bytes) (c : Cell B)
    (node : String) (s : SaveState B) : Prop where
  loads : load codec node files = some c.value
  exists_tmp : ∀ stem, stem? s = some stem → tmp stem ∈ files.keys
  writing : ∀ stem blob rest, s = .writing stem blob rest → c.pending = some blob ∧
    codec.Reads blob ∧ files.getD (tmp stem) [] ++ rest = codec.packb blob
  written : ∀ stem blob, s = .written stem blob → c.pending = some blob ∧
    codec.Reads blob ∧ files.getD (tmp stem) [] = codec.packb blob

/-- All nodes are sound, and they hold different temporary files. -/
structure Sound (codec : BlobCodec B) (cells : String → Cell B) (d : StateDir B) : Prop where
  node : ∀ node, NodeSound codec d.files (cells node) node (d.saves node)
  apart : ∀ node node' stem, stem? (d.saves node) = some stem →
    stem? (d.saves node') = some stem → node = node'

/-- Only the own files of a node matter. -/
theorem NodeSound.frame (h : NodeSound codec files c node s)
    (hpath : files'.get? (path node) = files.get? (path node))
    (htmp : ∀ stem, stem? s = some stem → files'.get? (tmp stem) = files.get? (tmp stem)) :
    NodeSound codec files' c node s where
  loads := by
    rw [load, hpath]
    exact h.loads
  exists_tmp stem hstem := by
    obtain ⟨bytes, hbytes⟩ := Dict.mem_keys_iff.mp (h.exists_tmp stem hstem)
    exact Dict.mem_keys_iff.mpr ⟨bytes, (htmp stem hstem).trans hbytes⟩
  writing stem blob rest hs := by
    rw [Dict.getD, htmp stem (by rw [hs]; rfl)]
    exact h.writing stem blob rest hs
  written stem blob hs := by
    rw [Dict.getD, htmp stem (by rw [hs]; rfl)]
    exact h.written stem blob hs

/-- The files of the other nodes are as before. -/
structure KeepsOthers (d : StateDir B) (node : String) (files' : Dict String Bytes) : Prop where
  path : ∀ y, y ≠ node → files'.get? (path y) = d.files.get? (path y)
  tmp : ∀ y stem, y ≠ node → stem? (d.saves y) = some stem →
    files'.get? (tmp stem) = d.files.get? (tmp stem)

theorem keepsOthers_self : KeepsOthers d node d.files :=
  ⟨fun _ _ => rfl, fun _ _ _ _ => rfl⟩

/-- A node writes its own temporary file. -/
theorem keepsOthers_set (hown : ∀ y, y ≠ node → stem? (d.saves y) ≠ some stem) (bytes : Bytes) :
    KeepsOthers d node (d.files.set (tmp stem) bytes) where
  path y _ := Dict.get?_set_of_ne _ _ (path_ne_tmp y stem)
  tmp y stem' hy hstem' := by
    refine Dict.get?_set_of_ne _ _ fun heq => hown y hy ?_
    rw [hstem', tmp_inj heq]

/-- A node removes its own temporary file. -/
theorem keepsOthers_erase (hown : ∀ y, y ≠ node → stem? (d.saves y) ≠ some stem) :
    KeepsOthers d node (d.files.erase (tmp stem)) where
  path y _ := by rw [Dict.get?_erase, if_neg (path_ne_tmp y stem)]
  tmp y stem' hy hstem' := by
    rw [Dict.get?_erase, if_neg]
    intro heq
    exact hown y hy (by rw [hstem', tmp_inj heq])

/-- A node writes its own checkpoint file. -/
theorem KeepsOthers.set_path (h : KeepsOthers d node files) (bytes : Bytes) :
    KeepsOthers d node (files.set (CheckpointStore.path node) bytes) where
  path y hy := by
    rw [Dict.get?_set_of_ne _ _ fun heq => hy (path_inj heq)]
    exact h.path y hy
  tmp y stem hy hstem := by
    rw [Dict.get?_set_of_ne _ _ (path_ne_tmp node stem).symm]
    exact h.tmp y stem hy hstem

theorem Sound.own (h : Sound codec cells d) (hs : stem? (d.saves node) = some stem) :
    ∀ y, y ≠ node → stem? (d.saves y) ≠ some stem :=
  fun y hy hstem => hy (h.apart y node stem hstem hs)

/-- A node changed its own files, and holds the temporary file it held or a new one. -/
theorem Sound.update (h : Sound codec cells d) (hkeeps : KeepsOthers d node files')
    (hself : NodeSound codec files' c' node s')
    (hstem : ∀ stem, stem? s' = some stem →
      stem? (d.saves node) = some stem ∨ tmp stem ∉ d.files.keys) :
    Sound codec (Function.update cells node c') ⟨files', Function.update d.saves node s'⟩ := by
  have hnew : ∀ y stem, y ≠ node → stem? (d.saves y) = some stem → stem? s' ≠ some stem := by
    intro y stem hy hheld hs'
    rcases hstem stem hs' with hs | hfresh
    · exact hy (h.apart y node stem hheld hs)
    · exact hfresh ((h.node y).exists_tmp stem hheld)
  refine ⟨fun y => ?_, fun y y' stem hy hy' => ?_⟩
  · by_cases heq : y = node
    · subst heq
      simpa using hself
    · simp only [Function.update_of_ne heq]
      exact (h.node y).frame (hkeeps.path y heq) fun stem => hkeeps.tmp y stem heq
  · by_cases heq : y = node <;> by_cases heq' : y' = node
    · rw [heq, heq']
    · subst heq
      simp only [Function.update_self, Function.update_of_ne heq'] at hy hy'
      exact absurd hy (hnew y' stem heq' hy')
    · subst heq'
      simp only [Function.update_self, Function.update_of_ne heq] at hy hy'
      exact absurd hy' (hnew y stem heq hy)
    · simp only [Function.update_of_ne heq, Function.update_of_ne heq'] at hy hy'
      exact h.apart y y' stem hy hy'

/-- A node that holds no temporary file any more. -/
theorem NodeSound.idle (hloads : load codec node files = some c.value) :
    NodeSound codec files c node .idle where
  loads := hloads
  exists_tmp _ hstem := by cases hstem
  writing _ _ _ hs := by cases hs
  written _ _ hs := by cases hs

theorem load_set_tmp (bytes : Bytes) :
    load codec node (files.set (tmp stem) bytes) = load codec node files := by
  rw [load, Dict.get?_set_of_ne _ _ (path_ne_tmp node stem), load]

theorem load_erase_tmp : load codec node (files.erase (tmp stem)) = load codec node files := by
  rw [load, Dict.get?_erase, if_neg (path_ne_tmp node stem), load]

theorem load_set_path (hreads : codec.Reads blob) :
    load codec node (files.set (path node) (codec.packb blob)) = some (some blob) := by
  rw [load, Dict.get?_set_self]
  exact congrArg (Option.map some) hreads

theorem getD_set_tmp (bytes : Bytes) :
    (files.set (tmp stem) bytes).getD (tmp stem) [] = bytes := by
  rw [Dict.getD, Dict.get?_set_self]
  rfl

/-- The temporary file of a call gets more bytes. -/
theorem NodeSound.wrote {pre rest : Bytes} (h : NodeSound codec files c node s)
    (hpending : c.pending = some blob) (hreads : codec.Reads blob)
    (hbytes : pre ++ rest = codec.packb blob) :
    NodeSound codec (files.set (tmp stem) pre) c node (.writing stem blob rest) where
  loads := (load_set_tmp pre).trans h.loads
  exists_tmp stem' hstem' := by
    cases hstem'
    exact Dict.mem_keys_set.mpr (Or.inl rfl)
  writing stem' blob' rest' hs := by
    cases hs
    rw [getD_set_tmp]
    exact ⟨hpending, hreads, hbytes⟩
  written _ _ hs := by cases hs

/-- The temporary file of a call is complete. -/
theorem NodeSound.wrote_all (h : NodeSound codec files c node s)
    (hpending : c.pending = some blob) (hreads : codec.Reads blob) :
    NodeSound codec (files.set (tmp stem) (codec.packb blob)) c node (.written stem blob) where
  loads := (load_set_tmp _).trans h.loads
  exists_tmp stem' hstem' := by
    cases hstem'
    exact Dict.mem_keys_set.mpr (Or.inl rfl)
  writing _ _ _ hs := by cases hs
  written stem' blob' hs := by
    cases hs
    exact ⟨hpending, hreads, getD_set_tmp _⟩

/-- An exception leaves the files alone. -/
theorem NodeSound.raised (h : NodeSound codec files c node s) (hstem : stem? s = some stem)
    (hvalue : c'.value = c.value) : NodeSound codec files c' node (.raised stem) where
  loads := hvalue ▸ h.loads
  exists_tmp stem' hstem' := by
    cases hstem'
    exact h.exists_tmp stem hstem
  writing _ _ _ hs := by cases hs
  written _ _ hs := by cases hs

/-- Each operation does to the files what it does to the cells. -/
theorem Sound.of_step (h : Sound codec cells d) (hstep : step codec op d = some d')
    (hreads : ∀ node blob stem, op = .mkstemp node blob stem → codec.Reads blob) :
    Sound codec (fun y => (cells y).next y op) d' := by
  have hcells : (fun y => (cells y).next y op) =
      Function.update cells op.node ((cells op.node).next op.node op) := by
    funext y
    by_cases hy : y = op.node
    · subst hy
      simp
    · rw [Function.update_of_ne hy, Cell.next_of_ne (Ne.symm hy)]
  rw [hcells]
  have hnode := h.node op.node
  cases op <;> simp only [FileOp.node, Cell.next, if_true] at hnode ⊢ <;>
    simp only [step] at hstep
  case mkstemp node blob stem =>
    split at hstep
    case h_1 hidle =>
      split at hstep
      case isTrue => cases hstep
      case isFalse hfresh =>
        obtain rfl := Option.some.inj hstep
        have hown : ∀ y, y ≠ node → stem? (d.saves y) ≠ some stem := fun y _ hstem =>
          hfresh ((h.node y).exists_tmp stem hstem)
        refine h.update (keepsOthers_set hown []) ?_ fun stem' hstem' => ?_
        · have hloads : NodeSound codec d.files ⟨some blob, (cells node).value⟩ node .idle :=
            .idle hnode.loads
          exact hloads.wrote rfl (hreads node blob stem rfl) (List.nil_append _)
        · cases hstem'
          exact Or.inr hfresh
    case h_2 => cases hstep
  case write node n =>
    split at hstep
    case h_1 stem blob rest hs =>
      obtain rfl := Option.some.inj hstep
      obtain ⟨hpending, hread, hbytes⟩ := hnode.writing stem blob rest hs
      have hstem : stem? (d.saves node) = some stem := by rw [hs]; rfl
      have hsplit : (d.files.getD (tmp stem) [] ++ rest.take n) ++ rest.drop n =
          codec.packb blob := by
        rw [List.append_assoc, List.take_append_drop, hbytes]
      exact h.update (keepsOthers_set (h.own hstem) _) (hnode.wrote hpending hread hsplit)
        fun stem' hstem' => Or.inl (hstem.trans hstem')
    case h_2 => cases hstep
  case close node =>
    split at hstep
    case h_1 stem blob rest hs =>
      obtain rfl := Option.some.inj hstep
      obtain ⟨hpending, hread, hbytes⟩ := hnode.writing stem blob rest hs
      have hstem : stem? (d.saves node) = some stem := by rw [hs]; rfl
      rw [hbytes]
      exact h.update (keepsOthers_set (h.own hstem) _) (hnode.wrote_all hpending hread)
        fun stem' hstem' => Or.inl (hstem.trans hstem')
    case h_2 => cases hstep
  case replace node =>
    split at hstep
    case h_1 stem blob hs =>
      obtain rfl := Option.some.inj hstep
      obtain ⟨hpending, hread, hbytes⟩ := hnode.written stem blob hs
      have hstem : stem? (d.saves node) = some stem := by rw [hs]; rfl
      refine h.update ((keepsOthers_erase (h.own hstem)).set_path _) (.idle ?_) (by simp [stem?])
      rw [hbytes, hpending]
      exact load_set_path hread
    case h_2 => cases hstep
  case raise node =>
    have hraised : ∀ stem, stem? (d.saves node) = some stem →
        Sound codec (Function.update cells node { cells node with pending := none })
          ⟨d.files, Function.update d.saves node (.raised stem)⟩ := fun stem hstem =>
      h.update keepsOthers_self (hnode.raised hstem rfl) fun stem' hstem' =>
        Or.inl (hstem.trans hstem')
    split at hstep
    case h_1 stem _ _ hs =>
      obtain rfl := Option.some.inj hstep
      exact hraised stem (by rw [hs]; rfl)
    case h_2 stem _ hs =>
      obtain rfl := Option.some.inj hstep
      exact hraised stem (by rw [hs]; rfl)
    case h_3 => cases hstep
  case unlink node removed =>
    split at hstep
    case h_1 stem hs =>
      obtain rfl := Option.some.inj hstep
      have hstem : stem? (d.saves node) = some stem := by rw [hs]; rfl
      cases removed with
      | true =>
          exact h.update (keepsOthers_erase (h.own hstem))
            (.idle (load_erase_tmp.trans hnode.loads)) (by simp [stem?])
      | false => exact h.update keepsOthers_self (.idle hnode.loads) (by simp [stem?])
    case h_2 => cases hstep
  case crash node =>
    obtain rfl := Option.some.inj hstep
    exact h.update keepsOthers_self (.idle hnode.loads) (by simp [stem?])

/-- Each run does to the files what it does to the cells. -/
theorem Sound.of_run (h : Sound codec cells d) (hrun : run codec ops d = some d')
    (hreads : ∀ node blob stem, .mkstemp node blob stem ∈ ops → codec.Reads blob) :
    Sound codec (fun y => (cells y).after y ops) d' := by
  induction ops generalizing d cells with
  | nil =>
      obtain rfl := Option.some.inj hrun
      exact h
  | cons op ops ih =>
      obtain ⟨d₁, hstep, hrest⟩ := Option.bind_eq_some_iff.mp hrun
      refine ih (h.of_step hstep fun node blob stem heq => ?_) hrest fun node blob stem hmem => ?_
      · exact hreads node blob stem (heq ▸ List.mem_cons_self)
      · exact hreads node blob stem (List.mem_cons_of_mem _ hmem)

/-- No call of `save` is under way, and the nodes load the given checkpoints. -/
structure Rests (codec : BlobCodec B) (v : String → Option B) (d : StateDir B) : Prop where
  idle : ∀ y, d.saves y = .idle
  loads : ∀ y, load codec y d.files = some (v y)

theorem Rests.sound {v : String → Option B} (h : Rests codec v d) :
    Sound codec (fun y => ⟨none, v y⟩) d where
  node y := by
    rw [h.idle y]
    exact .idle (h.loads y)
  apart y _ _ hy _ := by
    rw [h.idle y] at hy
    cases hy

/-- The checkpoint files of the nodes of one directory behave as cells.  However the operations
of the nodes interleave, and wherever processes end and exceptions are raised, what a node loads
is the checkpoint that it put in place last, and never a part of one. -/
theorem load_of_run {v : String → Option B} (h : Rests codec v d)
    (hrun : run codec ops d = some d')
    (hreads : ∀ node blob stem, .mkstemp node blob stem ∈ ops → codec.Reads blob)
    (node : String) :
    load codec node d'.files = some ((⟨none, v node⟩ : Cell B).after node ops).value :=
  ((h.sound.of_run hrun hreads).node node).loads

/-! ## The checkpointer on its file -/

/-- What is put in place was being saved. -/
theorem Sound.exists_pending (h : Sound codec cells d)
    (hstep : step codec (.replace node) d = some d') :
    ∃ blob, (cells node).pending = some blob := by
  simp only [step] at hstep
  split at hstep
  · next stem blob hs => exact ⟨blob, ((h.node node).written stem blob hs).1⟩
  · cases hstep

/-- Once it is put in place, the one checkpoint that a node saves is what its cell holds. -/
theorem Sound.value_after (h : Sound codec cells d) (hrun : run codec ops d = some d')
    (hreads : ∀ node blob stem, .mkstemp node blob stem ∈ ops → codec.Reads blob)
    (hpending : (cells node).pending = none ∨ (cells node).pending = some blob)
    (hone : ∀ blob' stem, .mkstemp node blob' stem ∈ ops → blob' = blob)
    (hreplace : .replace node ∈ ops) : ((cells node).after node ops).value = some blob := by
  induction ops generalizing d cells with
  | nil => exact absurd hreplace List.not_mem_nil
  | cons op ops ih =>
      obtain ⟨d₁, hstep, hrest⟩ := Option.bind_eq_some_iff.mp hrun
      by_cases hlater : .replace node ∈ ops
      · refine ih (h.of_step hstep fun node blob stem heq => ?_) hrest
          (fun node blob stem hmem => ?_) ?_ (fun blob' stem hmem => ?_) hlater
        · exact hreads node blob stem (heq ▸ List.mem_cons_self)
        · exact hreads node blob stem (List.mem_cons_of_mem _ hmem)
        · exact Cell.pending_next hpending fun blob' stem heq =>
            hone blob' stem (heq ▸ List.mem_cons_self)
        · exact hone blob' stem (List.mem_cons_of_mem _ hmem)
      · obtain rfl := (List.mem_cons.mp hreplace).resolve_right hlater
        obtain ⟨blob', hblob⟩ := h.exists_pending hstep
        have hnext : ((cells node).next node (.replace node)).value = (cells node).pending := by
          simp [Cell.next, FileOp.node]
        have hafter : (((cells node).next node (.replace node)).after node ops).value = _ :=
          Cell.value_after hlater
        rw [hnext, hblob] at hafter
        rw [hblob] at hpending
        exact hafter.trans (hpending.resolve_left (Option.some_ne_none _))

/-- The checkpointer's `save` is atomic on the disk.  While a node saves its checkpoint, the
operations of the other nodes come in between, and its process may end or its call may fail and
be repeated: as long as the file was not put in place, the node loads what the checkpointer holds
wherever its `save` is cut, and from then on what it holds at the end. -/
theorem save_refines {C S τ ω : Type} (K : Snapshotable C S) (m : Machine C S τ ω)
    {codec : BlobCodec (Blob S)} {v : String → Option (Blob S)} {d d' : StateDir (Blob S)}
    {ops : List (FileOp (Blob S))} (h : Rests codec v d) (hrun : run codec ops d = some d')
    (hreads : ∀ node blob stem, .mkstemp node blob stem ∈ ops → codec.Reads blob)
    {node : String} (hstore : v node = m.store)
    (hone : ∀ blob stem, .mkstemp node blob stem ∈ ops →
      blob = ⟨(K.snapshotState m.state).1, m.dedup.snapshot, m.aborted⟩) :
    (.replace node ∈ ops →
      load codec node d'.files = some ((Checkpointer.save K) m).final.store) ∧
    (.replace node ∉ ops → ∀ p ∈ ((Checkpointer.save K) m).points,
      load codec node d'.files = some p.2.store) := by
  have hloads := ((h.sound.of_run hrun hreads).node node).loads
  constructor
  · intro hreplace
    rw [hloads, h.sound.value_after hrun hreads (Or.inl rfl) hone hreplace]
    rfl
  · intro hnot p hp
    have hsame : p.2.store = m.store := by
      have hpoints : ((Checkpointer.save K) m).points =
          [(.snapshot, m), (.save, m.snapshotted K)] := rfl
      rw [hpoints] at hp
      rcases List.mem_cons.mp hp with rfl | hp
      · rfl
      · rw [List.mem_singleton.mp hp]
        rfl
    rw [hloads, Cell.value_after hnot, hsame, ← hstore]

/-- A node with a number as its state. -/
def numberNode : Machine ℕ ℕ ℕ Unit := .initial 5

def numberProvider : Snapshotable ℕ ℕ := ⟨fun _ _ => 0, fun n => (n, n), fun n _ => n, fun n => n⟩

/-- Its checkpoint. -/
def numberBlob : Blob ℕ := ⟨5, numberNode.dedup.snapshot, numberNode.aborted⟩

/-- A codec of the numbers below `256`. -/
def numberCodec : BlobCodec (Blob ℕ) where
  packb blob := [UInt8.ofNat blob.state]
  unpackb
    | [b] => some ⟨b.toNat, numberNode.dedup.snapshot, numberNode.aborted⟩
    | _ => none

/-- The process ends in the middle of `save`; the next one saves again. -/
def repeatedSave : List (FileOp (Blob ℕ)) :=
  [.mkstemp "n" numberBlob "x", .write "n" 0, .crash "n", .mkstemp "n" numberBlob "y",
    .close "n", .replace "n"]

theorem save_refines_repeatedSave :
    (∃ d, run numberCodec repeatedSave ⟨Dict.empty, fun _ => .idle⟩ = some d ∧
      load numberCodec "n" d.files =
        some ((Checkpointer.save numberProvider) numberNode).final.store) ∧
    ∃ d, run numberCodec (repeatedSave.take 5) ⟨Dict.empty, fun _ => .idle⟩ = some d ∧
      ∀ p ∈ ((Checkpointer.save numberProvider) numberNode).points,
        load numberCodec "n" d.files = some p.2.store := by
  have hrests : Rests numberCodec (fun _ => none) ⟨Dict.empty, fun _ => .idle⟩ :=
    ⟨fun _ => rfl, fun _ => rfl⟩
  have hone : ∀ node blob stem, .mkstemp node blob stem ∈ repeatedSave → blob = numberBlob := by
    intro node blob stem hmem
    simp only [repeatedSave, List.mem_cons, List.not_mem_nil, FileOp.mkstemp.injEq, reduceCtorEq,
      or_false, false_or] at hmem
    exact hmem.elim (fun h => h.2.1) fun h => h.2.1
  have hreads : ∀ node blob stem, .mkstemp node blob stem ∈ repeatedSave →
      numberCodec.Reads blob := fun node blob stem hmem => hone node blob stem hmem ▸ rfl
  constructor
  · obtain ⟨d, hrun⟩ : ∃ d, run numberCodec repeatedSave ⟨Dict.empty, fun _ => .idle⟩ = some d :=
      Option.isSome_iff_exists.mp (by decide)
    exact ⟨d, hrun, (save_refines numberProvider numberNode hrests hrun hreads rfl
      fun blob stem => hone "n" blob stem).1 (by simp [repeatedSave])⟩
  · obtain ⟨d, hrun⟩ : ∃ d, run numberCodec (repeatedSave.take 5)
        ⟨Dict.empty, fun _ => .idle⟩ = some d := Option.isSome_iff_exists.mp (by decide)
    exact ⟨d, hrun, (save_refines numberProvider numberNode hrests hrun
      (fun node blob stem hmem => hreads node blob stem (List.mem_of_mem_take hmem)) rfl
      fun blob stem hmem => hone "n" blob stem (List.mem_of_mem_take hmem)).2
        (by simp [repeatedSave])⟩

/-! ## Two nodes in one directory -/

/-- A codec of two bytes, the second of which ends the checkpoint. -/
def byteCodec : BlobCodec UInt8 where
  packb b := [b, 255]
  unpackb
    | [b, 255] => some b
    | _ => none

/-- An empty directory. -/
def emptyDir : StateDir UInt8 := ⟨Dict.empty, fun _ => .idle⟩

/-- Node `a` saves a checkpoint and ends in the middle of the next one, while node `b` runs into
an exception, removes its temporary file and saves again. -/
def sharedOps : List (FileOp UInt8) :=
  [.mkstemp "a" 1 "x", .mkstemp "b" 8 "y", .write "a" 1, .raise "b", .close "a",
    .unlink "b" true, .replace "a", .mkstemp "a" 2 "x", .mkstemp "b" 9 "y", .write "a" 1,
    .close "b", .crash "a", .replace "b"]

theorem load_of_run_sharedOps :
    ∃ d, run byteCodec sharedOps emptyDir = some d ∧ d.files.get? (tmp "x") = some [2] ∧
      load byteCodec "a" d.files = some (some 1) ∧ load byteCodec "b" d.files = some (some 9) := by
  have hruns : (run byteCodec sharedOps emptyDir).map
      (fun d => d.files.get? (tmp "x")) = some (some [2]) := by decide
  obtain ⟨d, hrun, htmp⟩ := Option.map_eq_some_iff.mp hruns
  have hrests : Rests byteCodec (fun _ => none) emptyDir := ⟨fun _ => rfl, fun _ => rfl⟩
  have hreads : ∀ node blob stem, .mkstemp node blob stem ∈ sharedOps → byteCodec.Reads blob :=
    fun _ _ _ _ => rfl
  exact ⟨d, hrun, htmp, load_of_run hrests hrun hreads "a", load_of_run hrests hrun hreads "b"⟩

end CheckpointStore
