import Mathlib.Data.Set.Defs
import MoneyLaundering.Support.KeyedDict
import MoneyLaundering.Support.OrderedSet

/-!
# Nodes of a graph

An account of a bank is a node of the graph of transactions.  Nodes, and pairs of nodes,
are compared by the concatenation of their texts.  A set of nodes is kept in the order in
which its elements are iterated.
-/

namespace GraphSrc

/-- An account of a bank. -/
structure Node where
  bank : String
  account : String
deriving DecidableEq

namespace Node

/-- What nodes are compared by. -/
def key (node : Node) : String := node.bank ++ node.account

/-- `str(node)`. -/
def str (node : Node) : String := node.bank ++ "," ++ node.account

/-- `from_str`, which fails unless there is one comma. -/
def ofStr (s : String) : Option Node :=
  match s.toList.splitOn ',' with
  | [bank, account] => some ⟨String.ofList bank, String.ofList account⟩
  | _ => none

/-- Neither text has a comma. -/
def CommaFree (node : Node) : Prop :=
  ',' ∉ node.bank.toList ∧ ',' ∉ node.account.toList

instance (node : Node) : Decidable node.CommaFree :=
  inferInstanceAs (Decidable (_ ∧ _))

theorem ofStr_str {node : Node} (h : node.CommaFree) : ofStr node.str = some node := by
  have hsplit : node.str.toList.splitOn ',' = [node.bank.toList, node.account.toList] := by
    have hstr : node.str.toList =
        [','].intercalate [node.bank.toList, node.account.toList] := by
      simp [str, List.intercalate]
    rw [hstr]
    apply List.splitOn_intercalate
    · intro text htext
      rcases List.mem_cons.mp htext with rfl | htext
      · exact h.1
      · rw [List.mem_singleton.mp htext]
        exact h.2
    · simp
  rw [ofStr, hsplit]
  simp

theorem str_inj {n n' : Node} (hn : n.CommaFree) (hn' : n'.CommaFree) (h : n.str = n'.str) :
    n = n' := by
  have hread := ofStr_str hn
  rw [h, ofStr_str hn'] at hread
  exact (Option.some.inj hread).symm

end Node

/-- A set of nodes. -/
abbrev NodeSet : Type := OrderedSet Node.key

/-- The order in which a set of nodes is gone through. -/
abbrev NodeOrder : Type := OrderedSet.Order Node.key

/-- A node with its predecessors and its successors. -/
abbrev Entry : Type := Node × NodeSet × NodeSet

/-- The two sets that a node has. -/
inductive Direction where
  | pred
  | succ

/-- One of two values. -/
def Direction.of {X : Type} : Direction → X × X → X
  | .pred, x => x.1
  | .succ, x => x.2

/-- The nodes of a graph. -/
abbrev Nodes : Type := KeyedDict Node.key (NodeSet × NodeSet)

/-- The nodes of some messages, with their predecessors and successors. -/
def nodesOf (received : List Nodes) : Set Node :=
  {n | ∃ body ∈ received, ∃ entry ∈ body.entries,
    n = entry.1 ∨ n ∈ entry.2.1.elems ∨ n ∈ entry.2.2.elems}

/-- Two nodes that are connected. -/
structure Path where
  origin : Node
  destination : Node
deriving DecidableEq

/-- What paths are compared by. -/
def Path.key (path : Path) : String := path.origin.key ++ path.destination.key

end GraphSrc
