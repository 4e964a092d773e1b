import Mathlib.Algebra.Order.Group.Defs
import Mathlib.Algebra.Order.Group.Int
import Mathlib.Algebra.Order.Group.Unbundled.Basic
import MoneyLaundering.Support.Dict

/-!
# The registry of nodes and the reviver

A leader learns from heartbeats which nodes are alive.  A sweep over the registry declares
nodes dead that have been silent for too long, and the reviver starts these again.  The
module relates the status of a node, and the attempts to start it, to what was reported and
swept before.
-/

/-- `Status`. -/
inductive NodeStatus where
  | unknown
  | alive
  | dead
deriving DecidableEq

/-- `str(status)`. -/
def NodeStatus.value : NodeStatus → String
  | .unknown => "unknown"
  | .alive => "alive"
  | .dead => "dead"

/-- What is known of a node; `T` is the type of times. -/
structure NodeRegistry.NodeState (T : Type) where
  kind : String
  status : NodeStatus
  lastHeartbeat : Option T
deriving DecidableEq

/-- `NodeState(node_id)`. -/
def NodeRegistry.NodeState.fresh (T : Type) : NodeRegistry.NodeState T := ⟨"node", .unknown, none⟩

/-- The registry.  An event is the name of a node and a text; the time of day at which it is
displayed is left out. -/
structure NodeRegistry (T : Type) where
  timeout : T
  maxEvents : ℕ
  nodes : Dict String (NodeRegistry.NodeState T)
  events : List (String × String)
  /-- The time of the first sweep. -/
  startedAt : Option T

namespace NodeRegistry

variable {T : Type}

/-- A registry that was just constructed. -/
def init (timeout : T) (expected : List String) (maxEvents : ℕ) : NodeRegistry T :=
  ⟨timeout, maxEvents, .ofList (expected.map fun nodeId => (nodeId, .fresh T)), [], none⟩

/-- `note`: the oldest event goes when there are too many. -/
def note (nodeId message : String) (r : NodeRegistry T) : NodeRegistry T :=
  let events := r.events ++ [(nodeId, message)]
  { r with events := if r.maxEvents < events.length then events.tail else events }

/-- The event of `_transition`, if a node has another status so far. -/
def noteTransition (nodeId : String) (node : NodeState T) (status : NodeStatus)
    (reason : String) (r : NodeRegistry T) : NodeRegistry T :=
  if node.status = status then r else r.note nodeId (reason ++ " -> " ++ status.value)

/-- A node reports: it is alive from now on. -/
def report (reason : String) (change : NodeState T → NodeState T) (nodeId : String) (now : T)
    (r : NodeRegistry T) : NodeRegistry T :=
  let node := r.nodes.getD nodeId (.fresh T)
  noteTransition nodeId node .alive reason { r with
    nodes := r.nodes.set nodeId
      { change node with status := .alive, lastHeartbeat := some now } }

/-- `register`. -/
def register (nodeId kind : String) (now : T) (r : NodeRegistry T) : NodeRegistry T :=
  r.report "registered" (fun node => { node with kind := kind }) nodeId now

/-- `heartbeat`. -/
def heartbeat (nodeId : String) (now : T) (r : NodeRegistry T) : NodeRegistry T :=
  r.report "recovered" id nodeId now

section Sweep

variable [Sub T] [LT T] [DecidableLT T]

/-- Why a sweep declares a node dead, if it does. -/
def overdue (timeout startedAt now : T) (node : NodeState T) : Option String :=
  match node.status, node.lastHeartbeat with
  | .alive, some last => if timeout < now - last then some "heartbeat lost" else none
  | .unknown, none => if timeout < now - startedAt then some "never seen" else none
  | _, _ => none

/-- `check_timeouts`. -/
def checkTimeouts (now : T) (r : NodeRegistry T) : NodeRegistry T :=
  let startedAt := r.startedAt.getD now
  let noted := r.nodes.entries.foldl (fun noted e =>
    match overdue r.timeout startedAt now e.2 with
    | some reason => noted.noteTransition e.1 e.2 .dead reason
    | none => noted) r
  { noted with
    startedAt := some startedAt
    nodes := r.nodes.mapVal fun node =>
      if (overdue r.timeout startedAt now node).isSome then { node with status := .dead }
      else node }

end Sweep

end NodeRegistry

/-- A registry with its reviver. -/
structure Supervision (T : Type) where
  registry : NodeRegistry T
  cooldown : T
  lastAttempt : Dict String T
  /-- The nodes that were started, oldest first. -/
  started : List (String × T)

namespace Supervision

variable {T : Type}

/-- A registry and a reviver that were just constructed. -/
def init (timeout cooldown : T) (expected : List String) (maxEvents : ℕ) : Supervision T :=
  ⟨.init timeout expected maxEvents, cooldown, .empty, []⟩

/-- The status of a node that is in the registry. -/
def status (s : Supervision T) (nodeId : String) : Option NodeStatus :=
  (s.registry.nodes.get? nodeId).map NodeRegistry.NodeState.status

/-- `_revive`. -/
def revive (now : T) (s : Supervision T) (nodeId : String) : Supervision T :=
  { s with
    registry := s.registry.note nodeId "reviving (docker start)"
    lastAttempt := s.lastAttempt.set nodeId now
    started := s.started ++ [(nodeId, now)] }

section Sweep

variable [Sub T] [LT T] [DecidableLT T]

/-- The reviver tries to start a dead node unless it did so a short while ago. -/
def ready (now : T) (s : Supervision T) (nodeId : String)
    (node : NodeRegistry.NodeState T) : Bool :=
  node.status = .dead && (s.lastAttempt.get? nodeId).all fun last => s.cooldown < now - last

/-- `sweep`. -/
def sweep (now : T) (s : Supervision T) : Supervision T :=
  s.registry.nodes.entries.foldl
    (fun s e => if ready now s e.1 e.2 then s.revive now e.1 else s) s

end Sweep

/-- What happens to the registry and the reviver. -/
inductive Op (T : Type) where
  | register (nodeId kind : String) (now : T)
  | heartbeat (nodeId : String) (now : T)
  | checkTimeouts (now : T)
  | sweep (now : T)

/-- Its time. -/
def Op.now : Op T → T
  | .register _ _ now | .heartbeat _ now | .checkTimeouts now | .sweep now => now

section Run

variable [Sub T] [LT T] [DecidableLT T]

def step (s : Supervision T) : Op T → Supervision T
  | .register nodeId kind now => { s with registry := s.registry.register nodeId kind now }
  | .heartbeat nodeId now => { s with registry := s.registry.heartbeat nodeId now }
  | .checkTimeouts now => { s with registry := s.registry.checkTimeouts now }
  | .sweep now => s.sweep now

def run (s : Supervision T) (ops : List (Op T)) : Supervision T := ops.foldl step s

end Run

/-! ## The history -/

/-- The time of a report of a node. -/
def Op.report? (nodeId : String) : Op T → Option T
  | .register nodeId' _ now => if nodeId' = nodeId then some now else none
  | .heartbeat nodeId' now => if nodeId' = nodeId then some now else none
  | _ => none

/-- The time of the last report of a node. -/
def lastReport (nodeId : String) (ops : List (Op T)) : Option T :=
  (ops.filterMap (Op.report? nodeId)).getLast?

def Op.check? : Op T → Option T
  | .checkTimeouts now => some now
  | _ => none

/-- The times of the sweeps over the registry. -/
def checks (ops : List (Op T)) : List T := ops.filterMap Op.check?

section Silent

variable [Sub T] [LT T]

/-- By its history a node is dead: a sweep came more than the timeout after its last report,
or it is expected, has never reported, and a sweep came more than the timeout after the
first one. -/
def Silent (timeout : T) (expected : List String) (ops : List (Op T)) (nodeId : String) : Prop :=
  (∃ last, lastReport nodeId ops = some last ∧
    ∃ now ∈ checks ops, last < now ∧ timeout < now - last) ∨
  nodeId ∈ expected ∧ lastReport nodeId ops = none ∧
    ∃ first, (checks ops).head? = some first ∧ ∃ now ∈ checks ops, timeout < now - first

end Silent

/-- The last attempt to start a node. -/
def lastStart (nodeId : String) (started : List (String × T)) : Option T :=
  (started.filterMap fun e => if e.1 = nodeId then some e.2 else none).getLast?

end Supervision

/-! ## What changes -/

namespace NodeRegistry

variable {T : Type}

/-- The expected nodes are in a registry from the beginning. -/
theorem get?_init (timeout : T) (expected : List String) (maxEvents : ℕ) (nodeId : String) :
    (init timeout expected maxEvents).nodes.get? nodeId =
      if nodeId ∈ expected then some (.fresh T) else none := by
  have hupdate (ids : List String) : ∀ d : Dict String (NodeState T),
      (d.update (ids.map fun nodeId => (nodeId, .fresh T))).get? nodeId =
        if nodeId ∈ ids then some (.fresh T) else d.get? nodeId := by
    induction ids with
    | nil => exact fun d => rfl
    | cons id ids ih =>
        intro d
        rw [List.map_cons]
        change ((d.set id (.fresh T)).update _).get? nodeId = _
        rw [ih, Dict.get?_set]
        by_cases heq : nodeId = id
        · simp [heq]
        · simp [heq]
  exact hupdate expected .empty

/-- Notes change the events only. -/
theorem note_eq (nodeId message : String) (r : NodeRegistry T) :
    ∃ events, r.note nodeId message = { r with events := events } := ⟨_, rfl⟩

theorem noteTransition_eq (nodeId : String) (node : NodeState T) (status : NodeStatus)
    (reason : String) (r : NodeRegistry T) :
    ∃ events, r.noteTransition nodeId node status reason = { r with events := events } := by
  unfold noteTransition
  split
  · exact ⟨r.events, rfl⟩
  · exact note_eq _ _ r

theorem report_eq (reason : String) (change : NodeState T → NodeState T) (nodeId : String)
    (now : T) (r : NodeRegistry T) :
    ∃ node events, node.status = .alive ∧ node.lastHeartbeat = some now ∧
      r.report reason change nodeId now =
        { r with nodes := r.nodes.set nodeId node, events := events } := by
  obtain ⟨events, hevents⟩ := noteTransition_eq nodeId (r.nodes.getD nodeId (.fresh T)) .alive
    reason { r with nodes := r.nodes.set nodeId { change (r.nodes.getD nodeId (.fresh T)) with
      status := .alive, lastHeartbeat := some now } }
  exact ⟨_, events, rfl, rfl, hevents⟩

theorem checkTimeouts_eq [Sub T] [LT T] [DecidableLT T] (now : T) (r : NodeRegistry T) :
    ∃ events, r.checkTimeouts now = { r with
      startedAt := some (r.startedAt.getD now)
      events := events
      nodes := r.nodes.mapVal fun node =>
        if (overdue r.timeout (r.startedAt.getD now) now node).isSome then
          { node with status := .dead }
        else node } := by
  have hnoted (es : List (String × NodeState T)) : ∀ r' : NodeRegistry T,
      ∃ events, es.foldl (fun noted e =>
        match overdue r.timeout (r.startedAt.getD now) now e.2 with
        | some reason => noted.noteTransition e.1 e.2 .dead reason
        | none => noted) r' = { r' with events := events } := by
    induction es with
    | nil => exact fun r' => ⟨r'.events, rfl⟩
    | cons e es ih =>
        intro r'
        rw [List.foldl_cons]
        cases overdue r.timeout (r.startedAt.getD now) now e.2 with
        | none => exact ih r'
        | some reason =>
            obtain ⟨events, hevents⟩ := noteTransition_eq e.1 e.2 .dead reason r'
            simp only [hevents]
            exact ih _
  obtain ⟨events, hevents⟩ := hnoted r.nodes.entries r
  refine ⟨events, ?_⟩
  rw [checkTimeouts, hevents]

end NodeRegistry

namespace Supervision

section Histories

variable {T : Type} {ops : List (Op T)} {op : Op T}

theorem lastReport_append (nodeId : String) (ops : List (Op T)) (op : Op T) :
    lastReport nodeId (ops ++ [op]) = (op.report? nodeId).or (lastReport nodeId ops) := by
  rw [lastReport, List.filterMap_append, List.getLast?_append]
  congr 1
  cases hreport : op.report? nodeId <;> simp [hreport]

theorem checks_append (ops : List (Op T)) (op : Op T) :
    checks (ops ++ [op]) = checks ops ++ op.check?.toList := by
  rw [checks, List.filterMap_append]
  cases hcheck : op.check? <;> simp [checks, hcheck]

theorem checks_append_of_none (h : op.check? = none) : checks (ops ++ [op]) = checks ops := by
  rw [checks_append, h, Option.toList_none, List.append_nil]

/-- The head of a list and an element after it. -/
theorem head?_append_singleton (xs : List T) (now : T) :
    (xs ++ [now]).head? = some (xs.head?.getD now) := by
  cases xs <;> rfl

/-- The attempts that a sweep adds. -/
theorem lastStart_append (nodeId : String) (started : List (String × T)) (ids : List String)
    (now : T) : lastStart nodeId (started ++ ids.map fun id => (id, now)) =
      if nodeId ∈ ids then some now else lastStart nodeId started := by
  rw [lastStart, List.filterMap_append, List.getLast?_append, List.filterMap_map]
  change ((ids.filterMap fun id => if id = nodeId then some now else none).getLast?).or
    (lastStart nodeId started) = _
  have hmem : ∀ t ∈ ids.filterMap fun id => if id = nodeId then some now else none,
      nodeId ∈ ids ∧ t = now := by
    intro t ht
    obtain ⟨id, hid, hsome⟩ := List.mem_filterMap.mp ht
    split at hsome
    · rename_i heq
      exact ⟨heq ▸ hid, (Option.some.inj hsome).symm⟩
    · cases hsome
  cases hlast : (ids.filterMap fun id => if id = nodeId then some now else none).getLast? with
  | some t =>
      obtain ⟨hin, rfl⟩ := hmem t (List.mem_of_getLast? hlast)
      rw [if_pos hin, Option.some_or]
  | none =>
      rw [if_neg, Option.none_or]
      intro hin
      have hnil := List.getLast?_eq_none_iff.mp hlast
      have hnow : now ∈ ids.filterMap fun id => if id = nodeId then some now else none :=
        List.mem_filterMap.mpr ⟨nodeId, hin, if_pos rfl⟩
      rw [hnil] at hnow
      cases hnow

end Histories

variable {T : Type} [AddCommGroup T] [LinearOrder T]

/-- A sweep of the reviver starts the nodes that are ready, each once, and remembers when. -/
theorem sweep_eq (now : T) (s : Supervision T) :
    ∃ (ids : List String) (events : List (String × String)) (lastAttempt : Dict String T),
      s.sweep now = { s with
        registry := { s.registry with events := events }
        lastAttempt := lastAttempt
        started := s.started ++ ids.map fun nodeId => (nodeId, now) } ∧
      ids.Nodup ∧
      (∀ nodeId, nodeId ∈ ids ↔ ∃ node, s.registry.nodes.get? nodeId = some node ∧
        ready now s nodeId node = true) ∧
      ∀ nodeId, lastAttempt.get? nodeId =
        if nodeId ∈ ids then some now else s.lastAttempt.get? nodeId := by
  have hloop (es : List (String × NodeRegistry.NodeState T)) : ∀ s' : Supervision T,
      (es.map Prod.fst).Nodup → ∃ (ids : List String) (events : List (String × String))
        (lastAttempt : Dict String T),
      es.foldl (fun s e => if ready now s e.1 e.2 then s.revive now e.1 else s) s' = { s' with
        registry := { s'.registry with events := events }
        lastAttempt := lastAttempt
        started := s'.started ++ ids.map fun nodeId => (nodeId, now) } ∧
      ids = (es.filter fun e => ready now s' e.1 e.2).map Prod.fst ∧
      ∀ nodeId, lastAttempt.get? nodeId =
        if nodeId ∈ ids then some now else s'.lastAttempt.get? nodeId := by
    induction es with
    | nil => exact fun s' _ => ⟨[], s'.registry.events, s'.lastAttempt, by simp, rfl, by simp⟩
    | cons e es ih =>
        intro s' hnodup
        rw [List.map_cons, List.nodup_cons] at hnodup
        rw [List.foldl_cons, List.filter_cons]
        by_cases hready : ready now s' e.1 e.2 = true
        · rw [if_pos hready, if_pos hready]
          obtain ⟨ids, events, lastAttempt, hfold, hids, hlast⟩ :=
            ih (s'.revive now e.1) hnodup.2
          have hsame : es.filter (fun e' => ready now (s'.revive now e.1) e'.1 e'.2) =
              es.filter fun e' => ready now s' e'.1 e'.2 := by
            apply List.filter_congr
            intro e' he'
            have hne : e'.1 ≠ e.1 := by
              intro heq
              exact hnodup.1 (heq ▸ List.mem_map_of_mem he')
            rw [ready, ready, revive, Dict.get?_set, if_neg hne]
          refine ⟨e.1 :: ids, events, lastAttempt, ?_, ?_, ?_⟩
          · rw [hfold]
            simp [revive, NodeRegistry.note]
          · rw [hids, hsame, List.map_cons]
          · intro nodeId
            rw [hlast]
            simp only [revive, Dict.get?_set, List.mem_cons]
            by_cases heq : nodeId = e.1
            · simp [heq]
            · simp [heq]
        · rw [if_neg hready, if_neg hready]
          exact ih s' hnodup.2
  obtain ⟨ids, events, lastAttempt, hfold, hids, hlast⟩ :=
    hloop s.registry.nodes.entries s s.registry.nodes.nodup
  refine ⟨ids, events, lastAttempt, hfold, ?_, ?_, hlast⟩
  · rw [hids]
    exact s.registry.nodes.nodup.sublist (List.filter_sublist.map _)
  · intro nodeId
    rw [hids]
    simp only [List.mem_map, List.mem_filter]
    constructor
    · intro h
      obtain ⟨e, ⟨he, hready⟩, rfl⟩ := h
      exact ⟨e.2, Dict.get?_eq_some_iff.mpr he, hready⟩
    · intro h
      obtain ⟨node, hnode, hready⟩ := h
      exact ⟨(nodeId, node), ⟨Dict.get?_eq_some_iff.mp hnode, hready⟩, rfl⟩

/-! ## Longer histories -/

variable {timeout : T} {expected : List String} {ops : List (Op T)} {op : Op T}
  {nodeId : String} {now : T}

/-- The history of a node does not change if it does not report and nothing is swept. -/
theorem silent_append_of_none (hreport : op.report? nodeId = none) (hcheck : op.check? = none) :
    Silent timeout expected (ops ++ [op]) nodeId ↔ Silent timeout expected ops nodeId := by
  rw [Silent, Silent, lastReport_append, hreport, Option.none_or, checks_append_of_none hcheck]

/-- A node that reports is not dead. -/
theorem not_silent_of_report (hreport : op.report? nodeId = some now) (hcheck : op.check? = none)
    (hle : ∀ t ∈ checks ops, t ≤ now) : ¬Silent timeout expected (ops ++ [op]) nodeId := by
  rw [Silent, lastReport_append, hreport, Option.some_or, checks_append_of_none hcheck]
  intro h
  rcases h with ⟨last, hlast, t, ht, hlt, -⟩ | ⟨-, hnone, -⟩
  · obtain rfl : now = last := Option.some.inj hlast
    exact absurd (hle t ht) (not_le.mpr hlt)
  · cases hnone

/-! ## The invariant -/

/-- The state of a node agrees with the history. -/
structure Agrees (timeout : T) (expected : List String) (ops : List (Op T)) (nodeId : String)
    (node : NodeRegistry.NodeState T) : Prop where
  heartbeat : node.lastHeartbeat = lastReport nodeId ops
  dead : node.status = .dead ↔ Silent timeout expected ops nodeId
  unknown : node.status = .unknown → lastReport nodeId ops = none
  alive : node.status = .alive → ∃ last, lastReport nodeId ops = some last

/-- The registry agrees with the history. -/
structure Tracks (timeout : T) (expected : List String) (ops : List (Op T))
    (r : NodeRegistry T) : Prop where
  timeout_eq : r.timeout = timeout
  startedAt : r.startedAt = (checks ops).head?
  known : ∀ nodeId, r.nodes.get? nodeId = none ↔
    nodeId ∉ expected ∧ lastReport nodeId ops = none
  nodes : ∀ nodeId node, r.nodes.get? nodeId = some node →
    Agrees timeout expected ops nodeId node

variable {r : NodeRegistry T} {node : NodeRegistry.NodeState T}

theorem Agrees.append (h : Agrees timeout expected ops nodeId node)
    (hreport : op.report? nodeId = none) (hcheck : op.check? = none) :
    Agrees timeout expected (ops ++ [op]) nodeId node := by
  have hlast : lastReport nodeId (ops ++ [op]) = lastReport nodeId ops := by
    rw [lastReport_append, hreport, Option.none_or]
  constructor
  · exact h.heartbeat.trans hlast.symm
  · rw [silent_append_of_none hreport hcheck]
    exact h.dead
  · rw [hlast]
    exact h.unknown
  · rw [hlast]
    exact h.alive

/-- A node that has just reported. -/
theorem agrees_of_report (hreport : op.report? nodeId = some now) (hcheck : op.check? = none)
    (hle : ∀ t ∈ checks ops, t ≤ now) (hstatus : node.status = .alive)
    (hheartbeat : node.lastHeartbeat = some now) :
    Agrees timeout expected (ops ++ [op]) nodeId node := by
  have hlast : lastReport nodeId (ops ++ [op]) = some now := by
    rw [lastReport_append, hreport, Option.some_or]
  constructor
  · exact hheartbeat.trans hlast.symm
  · apply iff_of_false
    · simp [hstatus]
    · exact not_silent_of_report hreport hcheck hle
  · intro hunknown
    rw [hstatus] at hunknown
    cases hunknown
  · exact fun _ => ⟨now, hlast⟩

/-- What leaves the nodes and the history alone. -/
theorem Tracks.append (h : Tracks timeout expected ops r)
    (hreport : ∀ nodeId, op.report? nodeId = none) (hcheck : op.check? = none)
    (events : List (String × String)) :
    Tracks timeout expected (ops ++ [op]) { r with events := events } := by
  constructor
  · exact h.timeout_eq
  · rw [checks_append_of_none hcheck]
    exact h.startedAt
  · intro nodeId
    rw [lastReport_append, hreport, Option.none_or]
    exact h.known nodeId
  · intro nodeId node hnode
    exact (h.nodes nodeId node hnode).append (hreport nodeId) hcheck

/-- A report of a node. -/
theorem Tracks.report (h : Tracks timeout expected ops r) {reporter : String}
    (hreport : ∀ nodeId, op.report? nodeId = if reporter = nodeId then some now else none)
    (hcheck : op.check? = none) (hle : ∀ t ∈ checks ops, t ≤ now)
    (hstatus : node.status = .alive) (hheartbeat : node.lastHeartbeat = some now)
    (events : List (String × String)) :
    Tracks timeout expected (ops ++ [op])
      { r with nodes := r.nodes.set reporter node, events := events } := by
  constructor
  · exact h.timeout_eq
  · rw [checks_append_of_none hcheck]
    exact h.startedAt
  · intro nodeId
    rw [Dict.get?_set, lastReport_append, hreport]
    by_cases heq : nodeId = reporter
    · simp [heq]
    · rw [if_neg heq, if_neg (Ne.symm heq), Option.none_or]
      exact h.known nodeId
  · intro nodeId node' hnode
    rw [Dict.get?_set] at hnode
    by_cases heq : nodeId = reporter
    · rw [if_pos heq] at hnode
      obtain rfl := Option.some.inj hnode
      apply agrees_of_report _ hcheck hle hstatus hheartbeat
      rw [hreport, if_pos heq.symm]
    · rw [if_neg heq] at hnode
      apply (h.nodes nodeId node' hnode).append _ hcheck
      rw [hreport, if_neg (Ne.symm heq)]

theorem tracks_init (timeout : T) (expected : List String) (maxEvents : ℕ) :
    Tracks timeout expected [] (NodeRegistry.init timeout expected maxEvents) := by
  refine ⟨rfl, rfl, ?_, ?_⟩
  · intro nodeId
    rw [NodeRegistry.get?_init, ite_eq_right_iff]
    simp [lastReport]
  · intro nodeId node hnode
    obtain rfl : node = .fresh T := by
      rw [NodeRegistry.get?_init] at hnode
      split at hnode
      · exact (Option.some.inj hnode).symm
      · cases hnode
    constructor
    · rfl
    · apply iff_of_false
      · simp [NodeRegistry.NodeState.fresh]
      · simp [Silent, lastReport, checks]
    · exact fun _ => rfl
    · intro halive
      cases halive

theorem overdue_iff {startedAt : T} :
    (NodeRegistry.overdue timeout startedAt now node).isSome = true ↔
      (node.status = .alive ∧ ∃ last, node.lastHeartbeat = some last ∧ timeout < now - last) ∨
        node.status = .unknown ∧ node.lastHeartbeat = none ∧ timeout < now - startedAt := by
  obtain ⟨kind, status, lastHeartbeat⟩ := node
  cases status <;> cases lastHeartbeat <;> simp [NodeRegistry.overdue, apply_ite Option.isSome]

theorem ready_iff {s : Supervision T} : ready now s nodeId node = true ↔
    node.status = .dead ∧
      ∀ last, s.lastAttempt.get? nodeId = some last → s.cooldown < now - last := by
  rw [ready, Bool.and_eq_true, decide_eq_true_eq]
  cases s.lastAttempt.get? nodeId <;> simp

variable [IsOrderedAddMonoid T]

/-- What a sweep adds to the history of a node. -/
theorem silent_append_check (htimeout : 0 ≤ timeout) :
    Silent timeout expected (ops ++ [.checkTimeouts now]) nodeId ↔
      Silent timeout expected ops nodeId ∨
      (∃ last, lastReport nodeId ops = some last ∧ timeout < now - last) ∨
      nodeId ∈ expected ∧ lastReport nodeId ops = none ∧
        timeout < now - (checks ops).head?.getD now := by
  have hlast : lastReport nodeId (ops ++ [.checkTimeouts now]) = lastReport nodeId ops :=
    lastReport_append nodeId ops (.checkTimeouts now)
  have hchecks : checks (ops ++ [.checkTimeouts now]) = checks ops ++ [now] :=
    checks_append ops (.checkTimeouts now)
  rw [Silent, hlast, hchecks, head?_append_singleton, Silent]
  constructor
  · intro h
    rcases h with ⟨last, hreport, t, ht, hlt, hlong⟩ |
      ⟨hexpected, hnone, first, hfirst, t, ht, hlong⟩
    · rcases List.mem_append.mp ht with ht | ht
      · exact Or.inl (Or.inl ⟨last, hreport, t, ht, hlt, hlong⟩)
      · rw [List.mem_singleton.mp ht] at hlong
        exact Or.inr (Or.inl ⟨last, hreport, hlong⟩)
    · obtain rfl := Option.some.inj hfirst
      rcases List.mem_append.mp ht with ht | ht
      · obtain ⟨first, hhead⟩ : ∃ first, (checks ops).head? = some first := by
          rw [← Option.isSome_iff_exists, List.isSome_head?]
          simpa using List.ne_nil_of_mem ht
        rw [hhead, Option.getD_some] at hlong
        exact Or.inl (Or.inr ⟨hexpected, hnone, first, hhead, t, ht, hlong⟩)
      · rw [List.mem_singleton.mp ht] at hlong
        exact Or.inr (Or.inr ⟨hexpected, hnone, hlong⟩)
  · intro h
    rcases h with (⟨last, hreport, t, ht, hlt, hlong⟩ |
      ⟨hexpected, hnone, first, hfirst, t, ht, hlong⟩) | ⟨last, hreport, hlong⟩ |
      ⟨hexpected, hnone, hlong⟩
    · exact Or.inl ⟨last, hreport, t, List.mem_append_left _ ht, hlt, hlong⟩
    · refine Or.inr ⟨hexpected, hnone, _, rfl, t, List.mem_append_left _ ht, ?_⟩
      rw [hfirst]
      exact hlong
    · have hlt : last < now := sub_pos.mp (htimeout.trans_lt hlong)
      exact Or.inl ⟨last, hreport, now, List.mem_append_right _ List.mem_cons_self, hlt, hlong⟩
    · exact Or.inr ⟨hexpected, hnone, _, rfl, now, List.mem_append_right _ List.mem_cons_self,
        hlong⟩

/-- A sweep finds a node dead if and only if its history has become that of a dead node. -/
theorem Tracks.dead_check_iff (h : Tracks timeout expected ops r) (htimeout : 0 ≤ timeout)
    (now : T) (hnode : r.nodes.get? nodeId = some node) :
    node.status = .dead ∨
        (NodeRegistry.overdue timeout ((checks ops).head?.getD now) now node).isSome = true ↔
      Silent timeout expected (ops ++ [.checkTimeouts now]) nodeId := by
  have hagrees := h.nodes nodeId node hnode
  rw [silent_append_check htimeout, ← hagrees.dead, overdue_iff, hagrees.heartbeat]
  constructor
  · intro hor
    rcases hor with hdead | ⟨-, hlong⟩ | ⟨-, hnone, hlong⟩
    · exact Or.inl hdead
    · exact Or.inr (Or.inl hlong)
    · refine Or.inr (Or.inr ⟨?_, hnone, hlong⟩)
      by_contra hnot
      rw [(h.known nodeId).mpr ⟨hnot, hnone⟩] at hnode
      cases hnode
  · intro hor
    rcases hor with hdead | ⟨last, hlast, hlong⟩ | ⟨-, hnone, hlong⟩
    · exact Or.inl hdead
    · cases hstatus : node.status with
      | dead => exact Or.inl rfl
      | alive => exact Or.inr (Or.inl ⟨rfl, last, hlast, hlong⟩)
      | unknown =>
          rw [hagrees.unknown hstatus] at hlast
          cases hlast
    · cases hstatus : node.status with
      | dead => exact Or.inl rfl
      | unknown => exact Or.inr (Or.inr ⟨rfl, hnone, hlong⟩)
      | alive =>
          obtain ⟨last, hlast⟩ := hagrees.alive hstatus
          rw [hnone] at hlast
          cases hlast

/-- A sweep over the registry. -/
theorem Tracks.check (h : Tracks timeout expected ops r) (htimeout : 0 ≤ timeout) :
    Tracks timeout expected (ops ++ [.checkTimeouts now]) (r.checkTimeouts now) := by
  have hlast (nodeId : String) :
      lastReport nodeId (ops ++ [.checkTimeouts now]) = lastReport nodeId ops :=
    lastReport_append nodeId ops (.checkTimeouts now)
  obtain ⟨events, hchecked⟩ := r.checkTimeouts_eq now
  rw [hchecked, h.timeout_eq, h.startedAt]
  constructor
  · rfl
  · have hchecks : checks (ops ++ [.checkTimeouts now]) = checks ops ++ [now] :=
      checks_append ops (.checkTimeouts now)
    rw [hchecks, head?_append_singleton]
  · intro nodeId
    rw [Dict.get?_mapVal, Option.map_eq_none_iff, hlast]
    exact h.known nodeId
  · intro nodeId node' hnode'
    rw [Dict.get?_mapVal, Option.map_eq_some_iff] at hnode'
    obtain ⟨node, hnode, rfl⟩ := hnode'
    have hagrees := h.nodes nodeId node hnode
    have hdead := h.dead_check_iff htimeout now hnode
    by_cases hoverdue : (NodeRegistry.overdue timeout ((checks ops).head?.getD now) now
        node).isSome = true
    · rw [if_pos hoverdue]
      constructor
      · exact hagrees.heartbeat.trans (hlast nodeId).symm
      · exact iff_of_true rfl (hdead.mp (Or.inr hoverdue))
      · intro hunknown
        cases hunknown
      · intro halive
        cases halive
    · rw [if_neg hoverdue]
      constructor
      · exact hagrees.heartbeat.trans (hlast nodeId).symm
      · rw [← hdead, or_iff_left hoverdue]
      · rw [hlast]
        exact hagrees.unknown
      · rw [hlast]
        exact hagrees.alive

/-! ## Every history -/

/-- The registry agrees with the history, and the reviver remembers its attempts. -/
structure Remembers (timeout cooldown : T) (expected : List String) (ops : List (Op T))
    (s : Supervision T) : Prop where
  tracks : Tracks timeout expected ops s.registry
  cooldown_eq : s.cooldown = cooldown
  attempts : ∀ nodeId, s.lastAttempt.get? nodeId = lastStart nodeId s.started

variable {cooldown : T} {s : Supervision T}

theorem Remembers.step (h : Remembers timeout cooldown expected ops s) (htimeout : 0 ≤ timeout)
    (hle : ∀ t ∈ checks ops, t ≤ op.now) :
    Remembers timeout cooldown expected (ops ++ [op]) (s.step op) := by
  cases op with
  | register nodeId kind now =>
      obtain ⟨node, events, hstatus, hheartbeat, heq⟩ := NodeRegistry.report_eq "registered"
        (fun node => { node with kind := kind }) nodeId now s.registry
      have hregistry : (s.step (.register nodeId kind now)).registry = s.registry.report
          "registered" (fun node => { node with kind := kind }) nodeId now := rfl
      refine ⟨?_, h.cooldown_eq, h.attempts⟩
      rw [hregistry, heq]
      exact h.tracks.report (fun _ => rfl) rfl hle hstatus hheartbeat events
  | heartbeat nodeId now =>
      obtain ⟨node, events, hstatus, hheartbeat, heq⟩ :=
        NodeRegistry.report_eq "recovered" id nodeId now s.registry
      have hregistry : (s.step (.heartbeat nodeId now)).registry =
          s.registry.report "recovered" id nodeId now := rfl
      refine ⟨?_, h.cooldown_eq, h.attempts⟩
      rw [hregistry, heq]
      exact h.tracks.report (fun _ => rfl) rfl hle hstatus hheartbeat events
  | checkTimeouts now => exact ⟨h.tracks.check htimeout, h.cooldown_eq, h.attempts⟩
  | sweep now =>
      obtain ⟨ids, events, lastAttempt, heq, -, -, hlast⟩ := s.sweep_eq now
      change Remembers _ _ _ _ (s.sweep now)
      rw [heq]
      refine ⟨h.tracks.append (fun _ => rfl) rfl events, h.cooldown_eq, ?_⟩
      intro nodeId
      rw [lastStart_append, hlast, h.attempts]

theorem remembers_run (htimeout : 0 ≤ timeout) (maxEvents : ℕ)
    (hsorted : (ops.map Op.now).Pairwise (· ≤ ·)) :
    Remembers timeout cooldown expected ops
      ((init timeout cooldown expected maxEvents).run ops) := by
  induction ops using List.reverseRecOn with
  | nil => exact ⟨tracks_init timeout expected maxEvents, rfl, fun _ => rfl⟩
  | append_singleton ops op ih =>
      rw [List.map_append, List.pairwise_append] at hsorted
      obtain ⟨hops, -, hlast⟩ := hsorted
      rw [run, List.foldl_append]
      apply (ih hops).step htimeout
      intro t ht
      obtain ⟨o, ho, hcheck⟩ := List.mem_filterMap.mp ht
      have hnow : t = o.now := by
        cases o with
        | checkTimeouts now => exact (Option.some.inj hcheck).symm
        | _ => cases hcheck
      rw [hnow]
      exact hlast _ (List.mem_map_of_mem ho) _ (List.mem_map_of_mem List.mem_cons_self)

/-- A node is dead if and only if its history says so, and a sweep of the reviver starts,
once each, the nodes that are dead and were not started within the cooldown. -/
theorem dead_and_started_iff (timeout cooldown : T) (expected : List String) (maxEvents : ℕ)
    (ops : List (Op T)) (htimeout : 0 ≤ timeout)
    (hsorted : (ops.map Op.now).Pairwise (· ≤ ·)) (s : Supervision T)
    (hs : (init timeout cooldown expected maxEvents).run ops = s) :
    (∀ nodeId, s.status nodeId = some .dead ↔ Silent timeout expected ops nodeId) ∧
    ∀ now, ∃ ids : List String,
      (s.sweep now).started = s.started ++ ids.map (fun nodeId => (nodeId, now)) ∧
      ids.Nodup ∧
      ∀ nodeId, nodeId ∈ ids ↔ s.status nodeId = some .dead ∧
        ∀ last, lastStart nodeId s.started = some last → cooldown < now - last := by
  have hremembers : Remembers timeout cooldown expected ops s :=
    hs ▸ remembers_run htimeout maxEvents hsorted
  have htracks := hremembers.tracks
  constructor
  · intro nodeId
    cases hnode : s.registry.nodes.get? nodeId with
    | some node =>
        rw [status, hnode, Option.map_some, Option.some_inj]
        exact (htracks.nodes nodeId node hnode).dead
    | none =>
        obtain ⟨hnot, hnone⟩ := (htracks.known nodeId).mp hnode
        rw [status, hnode, Option.map_none, Silent, hnone]
        simp [hnot]
  · intro now
    obtain ⟨ids, events, lastAttempt, heq, hnodup, hmem, -⟩ := s.sweep_eq now
    refine ⟨ids, by rw [heq], hnodup, ?_⟩
    intro nodeId
    rw [hmem, status, Option.map_eq_some_iff, ← hremembers.attempts, ← hremembers.cooldown_eq]
    simp only [ready_iff]
    constructor
    · intro h
      obtain ⟨node, hnode, hdead, hlast⟩ := h
      exact ⟨⟨node, hnode, hdead⟩, hlast⟩
    · intro h
      obtain ⟨⟨node, hnode, hdead⟩, hlast⟩ := h
      exact ⟨node, hnode, hdead, hlast⟩

/-- An expected node that never reports is dead once the grace after the first sweep is over,
and the next sweep of the reviver starts it. -/
theorem dead_and_started_neverSeen :
    let s := (init (5 : ℤ) 15 ["n1"] 200).run [.checkTimeouts 100, .checkTimeouts 106]
    s.status "n1" = some .dead ∧ ∃ ids : List String,
      (s.sweep 107).started = s.started ++ ids.map (fun nodeId => (nodeId, 107)) ∧
      "n1" ∈ ids := by
  obtain ⟨hdead, hstarted⟩ := dead_and_started_iff (5 : ℤ) 15 ["n1"] 200
    [.checkTimeouts 100, .checkTimeouts 106] (by decide) (by decide) _ rfl
  have hn1 := (hdead "n1").mpr
    (Or.inr ⟨List.mem_cons_self, rfl, 100, rfl, 106, by decide, by decide⟩)
  obtain ⟨ids, hids, -, hmem⟩ := hstarted 107
  exact ⟨hn1, ids, hids, (hmem "n1").mpr ⟨hn1, fun last hlast => by cases hlast⟩⟩

end Supervision
