import MoneyLaundering.Join.RouteHandler
import MoneyLaundering.Messages.Classes
import MoneyLaundering.Spill.TextMode

/-!
# The business functions of the join

Two use cases keep the lines of their result in a spill and send them in chunks; the
others keep what they accumulate in memory and send one chunk.  What these put into a
checkpoint is written as a message, which reads back as it was.
-/

open GraphSrc

namespace JoinRouteHandler

/-! ## Text -/

/-- A text in a field of at least `width` characters. -/
def padRight (width : ℕ) (text : String) : String :=
  text ++ String.ofList (List.replicate (width - text.length) ' ')

/-- The bytes that a text is written as. -/
def encode (text : String) : Bytes := text.toUTF8.toList

/-- The text that is read from what was written. -/
def decode (bytes : Bytes) : String :=
  (String.fromUTF8? ⟨bytes.toArray⟩).getD ""

theorem toList_loop (array : ByteArray) (i : ℕ) (bytes : Bytes) :
    ByteArray.toList.loop array i bytes = bytes.reverse ++ array.data.toList.drop i := by
  fun_induction ByteArray.toList.loop array i bytes with
  | case1 i bytes h ih =>
      rw [ih, List.reverse_cons, List.append_assoc, List.singleton_append]
      apply congrArg (bytes.reverse ++ ·)
      have hi : i < array.data.toList.length := by simpa using h
      rw [List.drop_eq_getElem_cons hi]
      simp [ByteArray.get!, h]
  | case2 i bytes h => rw [List.drop_eq_nil_of_le (by simpa using h), List.append_nil]

theorem encode_eq (text : String) : encode text = Utf8.bytes text.toList := by
  rw [encode, ByteArray.toList, toList_loop, String.toUTF8_eq_toByteArray,
    ← String.utf8Encode_toList, List.utf8Encode]
  simp
  rfl

theorem decode_bytes (text : List Char) : decode (Utf8.bytes text) = String.ofList text := by
  have harray : (⟨(Utf8.bytes text).toArray⟩ : ByteArray) = text.utf8Encode := by
    rw [List.utf8Encode, Utf8.bytes]
    ext1
    simp
  rw [decode, harray, String.fromUTF8?, dif_pos ByteArray.isValidUTF8_utf8Encode]
  rfl

/-- The loop of `stream_responses`, which holds back one chunk. -/
def streamFrom (prev : String) : List String → List (String × Bool)
  | [] => [(prev ++ "\n", true)]
  | nxt :: chunks => (prev, false) :: streamFrom nxt chunks

/-- `stream_responses`. -/
def streamResponses (header : String) : List String → List (String × Bool)
  | [] => [(header ++ "\n", true)]
  | first :: chunks => streamFrom (header ++ first) chunks

/-- The last chunk, and no other, is marked as the last. -/
def OneLast (chunks : List (String × Bool)) : Prop :=
  ∃ (init : List String) (final : String),
    chunks = init.map (fun text => (text, false)) ++ [(final, true)]

theorem OneLast.ne_nil {chunks : List (String × Bool)} (h : OneLast chunks) :
    chunks ≠ [] := by
  obtain ⟨init, final, rfl⟩ := h
  simp

theorem oneLast_streamFrom (prev : String) (chunks : List String) :
    OneLast (streamFrom prev chunks) := by
  induction chunks generalizing prev with
  | nil => exact ⟨[], _, rfl⟩
  | cons nxt chunks ih =>
      obtain ⟨init, final, heq⟩ := ih nxt
      exact ⟨prev :: init, final, by simp [streamFrom, heq]⟩

theorem oneLast_streamResponses (header : String) (chunks : List String) :
    OneLast (streamResponses header chunks) := by
  cases chunks with
  | nil => exact ⟨[], _, rfl⟩
  | cons first chunks => exact oneLast_streamFrom _ chunks

/-! ## Results in a spill -/

/-- The `batch_lines` of a chunk. -/
def batchLines : ℕ := 200000

/-- The result that the chunks of a file make. -/
def spillResult (header : String) (chunks : List Bytes) : List (String × Bool) :=
  streamResponses header (chunks.map decode)

/-- A join of transactions that spills one line for each; `line` is the line. -/
def spillJoin {T : Type} (header : String) (line : T → String) :
    JoinFn PersistentSpill (Dict UUID ℕ) (List T) where
  provider :=
    { fresh := PersistentSpill.restarted
      snapshotState := PersistentSpill.snapshotState
      restoreState := PersistentSpill.restoreState
      clearStaleSpill := PersistentSpill.clearAll }
  join el spill := el.body.foldl
    (fun spill t => PersistentSpill.append el.clientId (encode (line t)) spill) spill
  getResponses clientId spill :=
    (spillResult header (PersistentSpill.iterChunks batchLines clientId spill).1,
      (PersistentSpill.iterChunks batchLines clientId spill).2)
  discard := PersistentSpill.clear
  responses_ne _ _ := (oneLast_streamResponses _ _).ne_nil

/-- The line of a transaction in the first use case. -/
def uc1Line {A : Type} (str : A → String) (t : Messages.Transaction A) : String :=
  "\norigin: " ++ padRight 20 (t.fromBank ++ "-" ++ t.fromAccount) ++
    " destination: " ++ padRight 20 (t.toBank ++ "-" ++ t.toAccount) ++
    " amount: " ++ str t.amountPaid

/-- `UC1Join`; `str` is the text of an amount. -/
def uc1Join {A : Type} (str : A → String) :
    JoinFn PersistentSpill (Dict UUID ℕ) (List (Messages.Transaction A)) :=
  spillJoin "--- UC1 ---" (uc1Line str)

/-- The line of a transaction in the third use case. -/
def uc3Line {A : Type} (str : A → String) (t : Messages.Transaction A) : String :=
  "\nbank_id: " ++ padRight 20 t.fromBank ++ " account: " ++ padRight 20 t.fromAccount ++
    " payment_format: " ++ padRight 20 t.paymentFormat ++ " amount: " ++ str t.amountPaid

/-- `UC3Join`. -/
def uc3Join {A : Type} (str : A → String) :
    JoinFn PersistentSpill (Dict UUID ℕ) (List (Messages.Transaction A)) :=
  spillJoin "--- UC3 ---" (uc3Line str)

/-! ## Results in memory -/

/-- A join that accumulates one value for each client, of which `body` is the text. -/
def memoryJoin {V T : Type} (empty : V) (add : T → V → V) (body : V → String) :
    JoinFn (Dict UUID V) (Dict UUID V) T where
  provider :=
    { fresh _ _ := Dict.empty
      snapshotState state := (state, state)
      restoreState snapshot _ := snapshot
      clearStaleSpill := id }
  join el state :=
    state.set el.clientId (add el.body (state.getD el.clientId empty))
  getResponses clientId state :=
    ([(body (state.getD clientId empty), true)], state.erase clientId)
  discard clientId state := state.erase clientId
  responses_ne _ _ := by simp

/-- The entries of `MergedBankData`. -/
abbrev BankEntries (A : Type) : Type := List (String × String × A × String)

/-- The result of the second use case. -/
def uc2Body {A : Type} (str : A → String) (entries : BankEntries A) : String :=
  entries.foldl (fun body e => body ++
    ("\nbank_id: " ++ padRight 20 e.1 ++ " account: " ++ padRight 20 e.2.1 ++
      " bank_name: " ++ padRight 30 e.2.2.2 ++ " amount: " ++ str e.2.2.1))
    "--- UC2 ---" ++ "\n"

/-- `UC2Join`. -/
def uc2Join {A : Type} (str : A → String) :
    JoinFn (Dict UUID (BankEntries A)) (Dict UUID (BankEntries A)) (BankEntries A) :=
  memoryJoin [] (fun entries all => all ++ entries) (uc2Body str)

/-- The order in which a set is gone through: what was added, each once, in an order that
what was added determines. -/
structure SetOrder (X : Type) [DecidableEq X] where
  elems : List X → List X
  perm : ∀ added, (elems added).Perm added.dedup

/-- The banks and accounts that `get_response` adds to its set. -/
def pathAccounts (counts : KeyedDict Path.key ℤ) : List (String × String) :=
  counts.entries.flatMap fun e =>
    [(e.1.origin.bank, e.1.origin.account),
      (e.1.destination.bank, e.1.destination.account)]

/-- The result of the fourth use case. -/
def uc4Body (order : SetOrder (String × String)) (counts : KeyedDict Path.key ℤ) :
    String :=
  (order.elems (pathAccounts counts)).foldl (fun body e =>
    body ++ ("\nbank: " ++ padRight 20 e.1 ++ " account: " ++ e.2))
    "--- UC4 ---" ++ "\n"

/-- `UC4Join`. -/
def uc4Join (order : SetOrder (String × String)) :
    JoinFn (Dict UUID (KeyedDict Path.key ℤ)) (Dict UUID (KeyedDict Path.key ℤ))
      (KeyedDict Path.key ℤ) :=
  memoryJoin KeyedDict.empty (fun counts all => all.update counts.entries) (uc4Body order)

theorem uc5Join_eq : uc5Join = memoryJoin 0 (fun count all => all + count) fun count =>
    "--- UC5 ---\ncount: " ++ toString count ++ "\n" := rfl

end JoinRouteHandler
