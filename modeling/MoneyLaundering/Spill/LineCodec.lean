import MoneyLaundering.Spill.MultiShardSpill
import MoneyLaundering.Spill.TextMode
import MoneyLaundering.Support.Json

/-!
# The entries of a spill

A function writes an entry to a line of its spill and reads it back.  Where the codec is
faithful, the entries that are read are those that were written, in the same order.
-/

/-- How a function writes an entry to a line of its spill and reads it back. -/
structure LineCodec (T : Type) where
  serialize : T → Bytes
  deserialize : Bytes → T

namespace LineCodec

/-- `line.rstrip("\n")`. -/
def rstrip (line : Bytes) : Bytes :=
  (line.reverse.dropWhile fun b => b = PersistentSpill.newline).reverse

variable {T : Type} (codec : LineCodec T)

/-- Spill one entry. -/
def spill (clientId : UUID) (files : PersistentSpill) (entry : T) : PersistentSpill :=
  files.append clientId (codec.serialize entry ++ [PersistentSpill.newline])

/-- The entries that were spilled for a client. -/
def entries (clientId : UUID) (files : PersistentSpill) : List T :=
  (files.iterLines clientId).1.map fun line => codec.deserialize (rstrip line)

/-- Spill one entry to a shard. -/
def spillShard (clientId : UUID) (shard : ℕ) (files : MultiShardSpill) (entry : T) :
    MultiShardSpill :=
  files.append clientId shard (codec.serialize entry ++ [PersistentSpill.newline])

/-- The entries that were spilled to a shard; the handle is closed. -/
def shardEntries (clientId : UUID) (shard : ℕ) (files : MultiShardSpill) :
    List T × MultiShardSpill :=
  ((files.readShard clientId shard).1.map codec.deserialize,
    (files.readShard clientId shard).2)

/-! ## Faithful codecs -/

/-- Entries are one line each, and are read back with or without the end of the line. -/
structure Faithful (dom : T → Prop) : Prop where
  plain : ∀ entry, dom entry → ∀ b ∈ codec.serialize entry,
    b ≠ PersistentSpill.newline ∧ b ≠ PersistentSpill.carriageReturn
  back : ∀ entry, dom entry → codec.deserialize (codec.serialize entry) = entry
  back_line : ∀ entry, dom entry →
    codec.deserialize (codec.serialize entry ++ [PersistentSpill.newline]) = entry

/-- The bytes of a text of printable symbols. -/
def ascii (chars : List Char) : Bytes := chars.map fun c => UInt8.ofNat c.toNat

/-- The text of such bytes. -/
def unascii (bytes : Bytes) : List Char := bytes.map fun b => Char.ofNat b.toNat

/-- A codec that writes JSON.  A line of another form raises; none is written. -/
def json [Inhabited T] (toJson : T → Json) (ofJson : Json → Option T) : LineCodec T where
  serialize entry := ascii (toJson entry).dumps
  deserialize line := ((Json.loads (unascii line)).bind ofJson).getD default

/-- The text of some entries. -/
def text (entries : List T) : Bytes :=
  ((entries.map codec.serialize).map (· ++ [PersistentSpill.newline])).flatten

variable {codec} {dom : T → Prop} {entries : List T} {c x : UUID} {shard : ℕ}

theorem unascii_ascii {chars : List Char} (h : ∀ c ∈ chars, Json.IsPrintable c) :
    unascii (ascii chars) = chars := by
  rw [unascii, ascii, List.map_map]
  apply (List.map_congr_left _).trans (List.map_id _)
  intro c hc
  have hlt : c.toNat < 256 := by
    have hle := (h c hc).2
    omega
  simp only [Function.comp_apply, id]
  rw [UInt8.toNat_ofNat', Nat.mod_eq_of_lt hlt, Char.ofNat_toNat]

/-- A codec of JSON is faithful where its values are read back. -/
theorem json_faithful [Inhabited T] {toJson : T → Json} {ofJson : Json → Option T}
    (h : ∀ entry, dom entry → ofJson (toJson entry) = some entry) :
    (json toJson ofJson).Faithful dom := by
  have hprintable (entry : T) := Json.isPrintable_of_mem_dumps (toJson entry)
  constructor
  · intro entry _ b hb
    obtain ⟨c, hc, rfl⟩ := List.mem_map.mp hb
    obtain ⟨hlow, hhigh⟩ := hprintable entry c hc
    have hall : ∀ n < 127, 32 ≤ n → UInt8.ofNat n ≠ PersistentSpill.newline ∧
        UInt8.ofNat n ≠ PersistentSpill.carriageReturn := by decide
    exact hall _ (by omega) hlow
  · intro entry hentry
    have hloads : Json.loads ((toJson entry).dumps ++ []) = some (toJson entry) :=
      Json.loads_dumps (toJson entry) (by simp)
    rw [List.append_nil] at hloads
    change ((Json.loads (unascii (ascii _))).bind ofJson).getD default = entry
    rw [unascii_ascii (hprintable entry), hloads, Option.bind_some, h entry hentry,
      Option.getD_some]
  · intro entry hentry
    have hloads : Json.loads ((toJson entry).dumps ++ ['\n']) = some (toJson entry) :=
      Json.loads_dumps (toJson entry) (by simp [Json.isSpace])
    have hline : unascii (ascii (toJson entry).dumps ++ [PersistentSpill.newline]) =
        (toJson entry).dumps ++ ['\n'] := by
      have happend (xs ys : Bytes) : unascii (xs ++ ys) = unascii xs ++ unascii ys :=
        List.map_append
      rw [happend, unascii_ascii (hprintable entry)]
      rfl
    change ((Json.loads (unascii (ascii _ ++ _))).bind ofJson).getD default = entry
    rw [hline, hloads, Option.bind_some, h entry hentry, Option.getD_some]

theorem text_append (entries : List T) (entry : T) :
    codec.text (entries ++ [entry]) =
      codec.text entries ++ (codec.serialize entry ++ [PersistentSpill.newline]) := by
  simp [text]

theorem text_append_text (entries entries' : List T) :
    codec.text (entries ++ entries') = codec.text entries ++ codec.text entries' := by
  simp [text]

theorem foldl_text {α : Type} (f : α → List T) (xs : List α) (bytes : Bytes) :
    xs.foldl (fun bytes x => bytes ++ codec.text (f x)) bytes =
      bytes ++ codec.text (xs.flatMap f) := by
  induction xs generalizing bytes with
  | nil => simp [text]
  | cons x xs ih =>
      rw [List.foldl_cons, ih, List.flatMap_cons, text_append_text, List.append_assoc]

/-- What a reader finds after some entries were spilled. -/
theorem content_spill (entries : List T) (files : PersistentSpill) (c x : UUID) :
    SpillFiles.content (entries.foldl (codec.spill x) files) c =
      if c = x then SpillFiles.content files c ++ codec.text entries
      else SpillFiles.content files c := by
  induction entries generalizing files with
  | nil => simp [text]
  | cons entry entries ih =>
      rw [List.foldl_cons, ih, spill, PersistentSpill.append, SpillFiles.content_append]
      by_cases h : c = x
      · simp [h, text]
      · simp [h]

theorem eq_nil_of_text_eq_nil (h : codec.text entries = []) : entries = [] := by
  cases entries with
  | nil => rfl
  | cons entry entries => simp [text] at h

theorem Faithful.lines_text (hc : codec.Faithful dom) (h : ∀ entry ∈ entries, dom entry) :
    Lines.lines PersistentSpill.newline
        (PersistentSpill.universalNewlines (codec.text entries)) =
      (entries.map codec.serialize).map (· ++ [PersistentSpill.newline]) := by
  rw [PersistentSpill.universalNewlines_eq_self, text, Lines.lines_flatten]
  · intro line hline hmem
    obtain ⟨entry, hentry, rfl⟩ := List.mem_map.mp hline
    exact (hc.plain entry (h entry hentry) _ hmem).1 rfl
  · intro b hb
    obtain ⟨line, hline, hmem⟩ := List.mem_flatten.mp hb
    rw [List.map_map] at hline
    obtain ⟨entry, hentry, rfl⟩ := List.mem_map.mp hline
    rcases List.mem_append.mp hmem with hmem | hmem
    · exact (hc.plain entry (h entry hentry) b hmem).2
    · rw [List.mem_singleton.mp hmem]
      decide

theorem Faithful.rstrip_line (hc : codec.Faithful dom) {entry : T} (h : dom entry) :
    rstrip (codec.serialize entry ++ [PersistentSpill.newline]) = codec.serialize entry := by
  rw [rstrip, List.reverse_append, List.reverse_singleton, List.singleton_append,
    List.dropWhile_cons_of_pos (by simp)]
  cases hrev : (codec.serialize entry).reverse with
  | nil =>
      rw [List.reverse_eq_nil_iff] at hrev
      rw [hrev]
      rfl
  | cons b bytes =>
      have hb : b ∈ codec.serialize entry := by
        rw [← List.mem_reverse, hrev]
        exact List.mem_cons_self
      rw [List.dropWhile_cons_of_neg (by simpa using (hc.plain entry h b hb).1), ← hrev,
        List.reverse_reverse]

/-! ## A spill of one file for each client -/

/-- The file of a client has the lines of some entries. -/
def Holds (codec : LineCodec T) (dom : T → Prop) (files : PersistentSpill) (c : UUID)
    (entries : List T) : Prop :=
  SpillFiles.content files c = codec.text entries ∧ ∀ entry ∈ entries, dom entry

variable {files : PersistentSpill}

theorem Faithful.entries_eq (hc : codec.Faithful dom) (h : codec.Holds dom files c entries) :
    codec.entries c files = entries := by
  have hcontent : ((PersistentSpill.holding files c).map Prod.snd).getD [] =
      codec.text entries := by
    rw [← PersistentSpill.content_eq_holding]
    exact h.1
  rw [LineCodec.entries, PersistentSpill.iterLines_fst, hcontent, hc.lines_text h.2,
    List.map_map, List.map_map]
  apply (List.map_congr_left _).trans (List.map_id _)
  intro entry hentry
  simp only [Function.comp_apply, id]
  rw [hc.rstrip_line (h.2 entry hentry), hc.back entry (h.2 entry hentry)]

/-! ## A spill of several files for each client -/

/-- The shards of a client have the lines of some entries. -/
def HoldsShards (codec : LineCodec T) (dom : T → Prop) (files : MultiShardSpill) (c : UUID)
    (entries : ℕ → List T) : Prop :=
  ∀ shard, SpillFiles.content files (c, shard) = codec.text (entries shard) ∧
    ∀ entry ∈ entries shard, dom entry

variable {shards : MultiShardSpill} {logs : ℕ → List T}

theorem Faithful.shardEntries_eq (hc : codec.Faithful dom)
    (h : codec.HoldsShards dom shards c logs) :
    (codec.shardEntries c shard shards).1 = logs shard := by
  obtain ⟨hcontent, hdom⟩ := h shard
  have hread : (shards.readShard c shard).1 = Lines.lines PersistentSpill.newline
      (PersistentSpill.universalNewlines (SpillFiles.content shards (c, shard))) := by
    rw [MultiShardSpill.readShard, SpillFiles.content_change SpillFile.content_closed]
  rw [LineCodec.shardEntries, hread, hcontent, hc.lines_text hdom, List.map_map,
    List.map_map]
  apply (List.map_congr_left _).trans (List.map_id _)
  intro entry hentry
  exact hc.back_line entry (hdom entry hentry)

theorem HoldsShards.spillShard_self (h : codec.HoldsShards dom shards c logs) {entry : T}
    (hentry : dom entry) :
    codec.HoldsShards dom (codec.spillShard c shard shards entry) c
      (Function.update logs shard (logs shard ++ [entry])) := by
  intro k
  obtain ⟨hcontent, hdom⟩ := h k
  rw [spillShard, MultiShardSpill.append, SpillFiles.content_append]
  by_cases hk : k = shard
  · subst hk
    rw [if_pos rfl, Function.update_self, hcontent, text_append]
    refine ⟨rfl, fun e he => ?_⟩
    rcases List.mem_append.mp he with he | he
    · exact hdom e he
    · rwa [List.mem_singleton.mp he]
  · rw [if_neg (by simpa using hk), Function.update_of_ne hk]
    exact ⟨hcontent, hdom⟩

theorem HoldsShards.of_content (h : codec.HoldsShards dom shards c logs)
    {shards' : MultiShardSpill}
    (heq : ∀ shard, SpillFiles.content shards' (c, shard) =
      SpillFiles.content shards (c, shard)) :
    codec.HoldsShards dom shards' c logs := by
  intro shard
  rw [heq]
  exact h shard

end LineCodec
