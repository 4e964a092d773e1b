import MoneyLaundering.Client.Responses

/-!
# What a client makes of chunked responses

Several use cases stream what they spilled to a client, in chunks that arrive in any order
that keeps the order of each use case.  The client has the whole of every result, but it
and the spill read text that they wrote: a carriage return reads as a line feed.
-/

open JoinRouteHandler

namespace ClientResponses

theorem readBack_eq (text : String) :
    readBack text = String.ofList (PersistentSpill.newlined text.toList) := by
  rw [readBack, encode_eq, PersistentSpill.universalNewlines_bytes, decode_bytes]

/-- A text without a carriage return is read as it was written. -/
theorem readBack_eq_self {text : String} (h : '\r' ∉ text.toList) : readBack text = text := by
  rw [readBack_eq, PersistentSpill.newlined_eq_self h, String.ofList_toList]

theorem notMem_readBack (text : String) : '\r' ∉ (readBack text).toList := by
  rw [readBack_eq, String.toList_ofList]
  exact PersistentSpill.notMem_newlined text.toList

/-- What a use case spilled for a client, and how it streams it. -/
structure Streamed (c : UUID) where
  header : String
  batchLines : ℕ
  spill : PersistentSpill
  text : String
  content : SpillFiles.content spill c = encode text

namespace Streamed

variable {c : UUID}

/-- The result, in chunks. -/
def chunks (s : Streamed c) : List (String × Bool) :=
  spillResult s.header (PersistentSpill.iterChunks s.batchLines c s.spill).1

/-- The responses that it sends as use case `u`. -/
def responses (u : ℕ) (s : Streamed c) : List Response :=
  s.chunks.map fun chunk => ⟨c, u, chunk.1, chunk.2⟩

/-- The result, in one piece. -/
def result (s : Streamed c) : String := s.header ++ s.text ++ "\n"

/-- Nothing that it writes has a carriage return. -/
def Plain (s : Streamed c) : Prop := '\r' ∉ s.header.toList ∧ '\r' ∉ s.text.toList

instance (s : Streamed c) : Decidable s.Plain := by
  unfold Plain
  infer_instance

theorem plain_iff (s : Streamed c) : s.Plain ↔ '\r' ∉ s.result.toList := by
  simp [Plain, result, String.toList_append]

/-- The spill, after some lines were appended to one that held nothing for the client. -/
theorem content_appended (lines : List String) {spill : PersistentSpill} {text : String}
    (h : SpillFiles.content spill c = encode text) :
    SpillFiles.content (lines.foldl
      (fun spill line => PersistentSpill.append c (encode line) spill) spill) c =
      encode (text ++ String.join lines) := by
  induction lines generalizing spill text with
  | nil => simpa using h
  | cons line lines ih =>
      have hline : SpillFiles.content (PersistentSpill.append c (encode line) spill) c =
          encode (text ++ line) := by
        rw [PersistentSpill.append, SpillFiles.content_append, if_pos rfl, h, encode_eq,
          encode_eq, encode_eq, String.toList_append, Utf8.bytes_append]
      rw [List.foldl_cons, ih hline, String.join_cons, String.append_assoc]

/-- What is streamed of the lines that were appended. -/
def ofLines (header : String) (batchLines : ℕ) (c : UUID) (lines : List String) :
    Streamed c where
  header := header
  batchLines := batchLines
  spill := lines.foldl (fun spill line => PersistentSpill.append c (encode line) spill)
    Dict.empty
  text := String.join lines
  content := by
    have hempty : SpillFiles.content Dict.empty c = encode "" := by
      rw [encode_eq]
      rfl
    rw [content_appended lines hempty, String.empty_append]

/-! ## One stream -/

/-- Texts that are decoded one by one. -/
theorem join_map_decode {chunks : List Bytes}
    (h : ∀ chunk ∈ chunks, ∃ text, chunk = Utf8.bytes text) :
    String.join (chunks.map decode) = decode chunks.flatten := by
  suffices hall : ∃ text, chunks.flatten = Utf8.bytes text ∧
      String.join (chunks.map decode) = String.ofList text by
    obtain ⟨text, hflat, hjoin⟩ := hall
    rw [hjoin, hflat, decode_bytes]
  induction chunks with
  | nil => exact ⟨[], rfl, rfl⟩
  | cons chunk chunks ih =>
      obtain ⟨text, rfl⟩ := h chunk List.mem_cons_self
      obtain ⟨rest, hflat, hjoin⟩ := ih fun chunk hchunk => h chunk (List.mem_cons_of_mem _ hchunk)
      refine ⟨text ++ rest, ?_, ?_⟩
      · rw [List.flatten_cons, hflat, Utf8.bytes_append]
      · rw [List.map_cons, String.join_cons, hjoin, decode_bytes, String.ofList_append]

theorem join_iterChunks (s : Streamed c) :
    String.join ((PersistentSpill.iterChunks s.batchLines c s.spill).1.map decode) =
      readBack s.text := by
  have hlines : (PersistentSpill.iterLines c s.spill).1 =
      (Lines.lines '\n' (PersistentSpill.newlined s.text.toList)).map Utf8.bytes := by
    rw [PersistentSpill.iterLines_fst, ← PersistentSpill.content_eq_holding, s.content, encode_eq,
      PersistentSpill.lines_universalNewlines_bytes]
  rw [PersistentSpill.iterChunks, hlines, join_map_decode, PersistentSpill.flatten_chunksOf,
    ← Utf8.bytes_flatten, Lines.flatten_lines, readBack_eq]
  · exact decode_bytes _
  · intro chunk hchunk
    have hchunk' : chunk ∈ PersistentSpill.chunksOf s.batchLines (([] : List (List Char)).map
        Utf8.bytes) ((Lines.lines '\n' (PersistentSpill.newlined s.text.toList)).map
        Utf8.bytes) := hchunk
    exact PersistentSpill.exists_chunk_eq_bytes hchunk'

theorem bodies_eq (text : String) (rs : List Response) :
    bodies text rs = text ++ String.join (rs.map Response.body) := by
  induction rs generalizing text with
  | nil => simp [bodies]
  | cons r rs ih =>
      rw [List.map_cons, String.join_cons, ← String.append_assoc, ← ih]
      rfl

theorem join_streamFrom (prev : String) (chunks : List String) :
    String.join ((streamFrom prev chunks).map Prod.fst) = prev ++ String.join chunks ++ "\n" := by
  induction chunks generalizing prev with
  | nil => simp [streamFrom]
  | cons nxt chunks ih =>
      rw [streamFrom, List.map_cons, String.join_cons, ih, String.join_cons, String.append_assoc,
        String.append_assoc, String.append_assoc]

theorem join_streamResponses (header : String) (chunks : List String) :
    String.join ((streamResponses header chunks).map Prod.fst) =
      header ++ String.join chunks ++ "\n" := by
  cases chunks with
  | nil => simp [streamResponses]
  | cons first chunks =>
      rw [streamResponses, join_streamFrom, String.join_cons, ← String.append_assoc]

/-- The bodies of the chunks are the result as it is read from the spill. -/
theorem bodies_responses (u : ℕ) (s : Streamed c) :
    bodies "" (s.responses u) = s.header ++ readBack s.text ++ "\n" := by
  have hbodies : (s.responses u).map Response.body = s.chunks.map Prod.fst := by
    rw [responses, List.map_map]
    rfl
  rw [bodies_eq, String.empty_append, hbodies, chunks, spillResult, join_streamResponses,
    join_iterChunks]

theorem ucId_of_mem {u : ℕ} {s : Streamed c} {r : Response} (h : r ∈ s.responses u) :
    r.ucId = u := by
  obtain ⟨chunk, -, rfl⟩ := List.mem_map.mp h
  rfl

theorem oneLast_chunks (s : Streamed c) : OneLast s.chunks := oneLast_streamResponses _ _

/-- The responses of a use case end with the one that is marked as the last. -/
theorem responses_eq (u : ℕ) (s : Streamed c) : ∃ (init : List Response) (final : Response),
    s.responses u = init ++ [final] ∧ (∀ r ∈ init, r.last = false) ∧ final.last = true := by
  obtain ⟨init, final, heq⟩ := s.oneLast_chunks
  refine ⟨init.map fun text => ⟨c, u, text, false⟩, ⟨c, u, final, true⟩, ?_, ?_, rfl⟩
  · rw [responses, heq]
    simp
  · intro r hr
    obtain ⟨text, -, rfl⟩ := List.mem_map.mp hr
    rfl

theorem lastEnds_responses (u : ℕ) (s : Streamed c) : LastEnds (s.responses u) := by
  obtain ⟨init, final, heq, hinit, -⟩ := s.responses_eq u
  rw [heq]
  clear heq
  induction init with
  | nil => exact lastEnds_singleton final
  | cons r init ih =>
      exact (ih fun r' hr' => hinit r' (List.mem_cons_of_mem _ hr')).cons
        (hinit r List.mem_cons_self)

end Streamed

section Interleaved

variable {c : UUID} {ucs : Finset ℕ} {streams : ℕ → Streamed c} {rs : List Response}

/-- The responses of the use cases, in an order that keeps the order of each. -/
structure Interleaved (ucs : Finset ℕ) (streams : ℕ → Streamed c) (rs : List Response) :
    Prop where
  ids : ∀ r ∈ rs, r.ucId ∈ ucs
  kept : ∀ u ∈ ucs, ofUc u rs = (streams u).responses u

/-- The loop has ended once these responses were received. -/
def Ended (nresponses : ℕ) (rs : List Response) : Prop :=
  ¬(receiveAndWrite nresponses rs .empty).completed.card < nresponses

/-- The client has the whole of every result. -/
structure Reassembles (ucs : Finset ℕ) (streams : ℕ → Streamed c) (rs : List Response) :
    Prop where
  oneLast : ∀ u ∈ ucs, OneLast (streams u).chunks
  ends : ∀ before after, rs = before ++ after →
    (Ended ucs.card before ↔ ∀ u ∈ ucs, ∃ r ∈ before, r.ucId = u ∧ r.last = true)
  whole : ∀ before after, rs = before ++ after → Ended ucs.card before → after = []
  file : responsesFile ucs.card rs =
    some (String.join ((ucs.sort (· ≤ ·)).map fun u => (streams u).result))

theorem ended_iff (hids : ∀ r ∈ rs, r.ucId ∈ ucs) :
    Ended ucs.card rs ↔ ∀ u ∈ ucs, ∃ r ∈ rs, r.ucId = u ∧ r.last = true := by
  have hwithin := within_receiveAndWrite hids Written.within_empty
  have hcompleted (u : ℕ) : u ∈ (receiveAndWrite ucs.card rs .empty).completed ↔
      ∃ r ∈ rs, r.ucId = u ∧ r.last = true := by
    rw [mem_completed_receiveAndWrite hids Written.within_empty]
    simp [Written.empty]
  constructor
  · intro hended u hu
    rwa [← hcompleted, hwithin.eq_of_not_lt hended]
  · intro hall hlt
    have hsub : ucs ⊆ (receiveAndWrite ucs.card rs .empty).completed :=
      fun u hu => (hcompleted u).mpr (hall u hu)
    exact absurd (Finset.card_le_card hsub) (not_le.mpr hlt)

/-- Each use case has its last response among all of them. -/
theorem Interleaved.exists_last (h : Interleaved ucs streams rs) {u : ℕ} (hu : u ∈ ucs) :
    ∃ r ∈ rs, r.ucId = u ∧ r.last = true := by
  obtain ⟨init, final, heq, -, hlast⟩ := (streams u).responses_eq u
  have hmem : final ∈ ofUc u rs := by
    rw [h.kept u hu, heq]
    simp
  obtain ⟨hfinal, hid⟩ := List.mem_filter.mp hmem
  exact ⟨final, hfinal, of_decide_eq_true hid, hlast⟩

/-- No response is left when every use case has delivered its last one. -/
theorem Interleaved.eq_nil (h : Interleaved ucs streams rs) {before after : List Response}
    (heq : rs = before ++ after)
    (hall : ∀ u ∈ ucs, ∃ r ∈ before, r.ucId = u ∧ r.last = true) : after = [] := by
  rw [List.eq_nil_iff_forall_not_mem]
  intro r hr
  have hu := h.ids r (heq ▸ List.mem_append_right before hr)
  obtain ⟨final, hfinal, hid, hlast⟩ := hall r.ucId hu
  obtain ⟨left, right, hsplit⟩ := List.append_of_mem hfinal
  have hkept : (streams r.ucId).responses r.ucId =
      ofUc r.ucId left ++ final :: (ofUc r.ucId right ++ ofUc r.ucId after) := by
    rw [← h.kept _ hu, heq, hsplit]
    simp [ofUc, hid]
  have hnil := (streams r.ucId).lastEnds_responses r.ucId _ _ _ hkept hlast
  have hmem : r ∈ ofUc r.ucId after := List.mem_filter.mpr ⟨hr, decide_eq_true rfl⟩
  rw [(List.append_eq_nil_iff.mp hnil).2] at hmem
  exact absurd hmem List.not_mem_nil

/-- The text that the client has of a use case. -/
theorem Interleaved.text_eq (h : Interleaved ucs streams rs) {u : ℕ} (hu : u ∈ ucs) :
    (receiveAndWrite ucs.card rs .empty).text u =
      (streams u).header ++ readBack (streams u).text ++ "\n" := by
  have hlast : LastEnds (ofUc u rs) := by
    rw [h.kept u hu]
    exact (streams u).lastEnds_responses u
  rw [text_receiveAndWrite h.ids Written.within_empty (by simp [Written.empty]) hlast,
    h.kept u hu, ← Streamed.bodies_responses]
  rfl

/-- The use cases that have a file, in order. -/
theorem Interleaved.mergeSort_keys (h : Interleaved ucs streams rs) :
    (receiveAndWrite ucs.card rs .empty).texts.keys.mergeSort = ucs.sort (· ≤ ·) := by
  have hwithin := within_receiveAndWrite h.ids Written.within_empty
  have hcompleted := hwithin.eq_of_not_lt ((ended_iff h.ids).mpr fun u hu => h.exists_last hu)
  apply List.Perm.eq_of_pairwise' (r := (· ≤ ·)) (List.pairwise_mergeSort' _ _)
    (Finset.pairwise_sort _ _)
  apply (List.mergeSort_perm _ _).trans
  rw [List.perm_ext_iff_of_nodup (Dict.keys_nodup _) (Finset.sort_nodup _ _)]
  intro u
  rw [Finset.mem_sort]
  refine ⟨hwithin.keys u, fun hu => hwithin.completed u ?_⟩
  rw [hcompleted]
  exact hu

/-- What the client writes to the responses file. -/
theorem Interleaved.responsesFile_eq (h : Interleaved ucs streams rs) :
    responsesFile ucs.card rs = some (String.join ((ucs.sort (· ≤ ·)).map fun u =>
      readBack ((streams u).header ++ readBack (streams u).text ++ "\n"))) := by
  have hended := (ended_iff h.ids).mpr fun u hu => h.exists_last hu
  rw [responsesFile, if_neg hended, h.mergeSort_keys]
  apply congrArg (fun texts => some (String.join texts))
  apply List.map_congr_left
  intro u hu
  rw [h.text_eq ((Finset.mem_sort _).mp hu)]

/-- A client that has the whole of every result was sent no carriage return. -/
theorem Reassembles.plain (hall : Reassembles ucs streams rs) (h : Interleaved ucs streams rs)
    {u : ℕ} (hu : u ∈ ucs) : (streams u).Plain := by
  rw [Streamed.plain_iff]
  intro hmem
  have hfile := hall.file
  rw [h.responsesFile_eq, Option.some_inj] at hfile
  have hjoined : '\r' ∈ (String.join ((ucs.sort (· ≤ ·)).map fun u =>
      (streams u).result)).toList := by
    rw [String.toList_join, List.mem_flatMap]
    exact ⟨_, List.mem_map_of_mem ((Finset.mem_sort _).mpr hu), hmem⟩
  rw [← hfile, String.toList_join, List.mem_flatMap] at hjoined
  obtain ⟨text, htext, hmem'⟩ := hjoined
  obtain ⟨v, -, rfl⟩ := List.mem_map.mp htext
  exact notMem_readBack _ hmem'

/-- The client has the whole of every result if and only if no header and no line of them
has a carriage return. -/
theorem reassembles_iff (h : Interleaved ucs streams rs) :
    Reassembles ucs streams rs ↔ ∀ u ∈ ucs, (streams u).Plain := by
  constructor
  · exact fun hall u hu => hall.plain h hu
  · intro hplain
    have hends {before after : List Response} (heq : rs = before ++ after) :
        Ended ucs.card before ↔ ∀ u ∈ ucs, ∃ r ∈ before, r.ucId = u ∧ r.last = true :=
      ended_iff fun r hr => h.ids r (heq ▸ List.mem_append_left after hr)
    constructor
    · exact fun u _ => (streams u).oneLast_chunks
    · exact fun before after heq => hends heq
    · exact fun before after heq hended => h.eq_nil heq ((hends heq).mp hended)
    · rw [h.responsesFile_eq]
      apply congrArg (fun texts => some (String.join texts))
      apply List.map_congr_left
      intro u hu
      have hu' := hplain u ((Finset.mem_sort _).mp hu)
      rw [readBack_eq_self hu'.2]
      exact readBack_eq_self ((streams u).plain_iff.mp hu')

end Interleaved

/-- Two use cases with results of two lines and of none, in chunks of one line. -/
def twoStreams (u : ℕ) : Streamed 7 :=
  if u = 1 then .ofLines "--- UC1 ---" 1 7 ["\norigin: 1-a", "\norigin: 1-b"]
  else .ofLines "--- UC3 ---" 1 7 []

/-- The second use case is heard between the chunks of the first. -/
def twoResponses : List Response :=
  ((twoStreams 1).responses 1).take 1 ++ (twoStreams 3).responses 3 ++
    ((twoStreams 1).responses 1).drop 1

theorem reassembles_two : Interleaved {1, 3} twoStreams twoResponses ∧
    Reassembles {1, 3} twoStreams twoResponses := by
  have hid {u : ℕ} {r : Response} (hr : r ∈ (twoStreams u).responses u) : r.ucId = u :=
    Streamed.ucId_of_mem hr
  have h : Interleaved {1, 3} twoStreams twoResponses := by
    constructor
    · intro r hr
      rcases List.mem_append.mp hr with hr | hr
      · rcases List.mem_append.mp hr with hr | hr
        · simp [hid (List.mem_of_mem_take hr)]
        · simp [hid hr]
      · simp [hid (List.mem_of_mem_drop hr)]
    · intro u hu
      have hsame (v : ℕ) {rs : List Response} (hrs : rs ⊆ (twoStreams v).responses v) :
          ofUc u rs = if v = u then rs else [] := by
        split
        · rename_i heq
          rw [ofUc, List.filter_eq_self]
          exact fun r hr => decide_eq_true ((hid (hrs hr)).trans heq)
        · rename_i hne
          rw [ofUc, List.filter_eq_nil_iff]
          exact fun r hr heq => hne ((hid (hrs hr)).symm.trans (of_decide_eq_true heq))
      rw [twoResponses, ofUc, List.filter_append, List.filter_append, ← ofUc, ← ofUc, ← ofUc,
        hsame 1 (List.take_subset 1 _), hsame 3 (List.Subset.refl _),
        hsame 1 (List.drop_subset 1 _)]
      rcases Finset.mem_insert.mp hu with rfl | hu
      · rw [if_pos rfl, if_neg (by decide), if_pos rfl, List.append_nil, List.take_append_drop]
      · rw [Finset.mem_singleton.mp hu]
        simp
  exact ⟨h, (reassembles_iff h).mpr (by decide)⟩

/-- A use case whose line has an account with a carriage return in its name. -/
def returned (_ : ℕ) : Streamed 7 :=
  .ofLines "--- UC1 ---" 200000 7 ["\norigin: 1-a\rb"]

theorem not_reassembles : Interleaved {1} returned ((returned 1).responses 1) ∧
    ¬Reassembles {1} returned ((returned 1).responses 1) := by
  have h : Interleaved {1} returned ((returned 1).responses 1) := by
    constructor
    · intro r hr
      rw [Streamed.ucId_of_mem hr]
      exact Finset.mem_singleton_self 1
    · intro u hu
      rw [Finset.mem_singleton.mp hu, ofUc, List.filter_eq_self]
      exact fun r hr => decide_eq_true (Streamed.ucId_of_mem hr)
  refine ⟨h, ?_⟩
  intro hall
  exact absurd (hall.plain h (Finset.mem_singleton_self 1)) (by decide)

end ClientResponses
