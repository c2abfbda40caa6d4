import Std.Data.HashMap.Basic
import Anyonic.Instruction

/-!
# Depth

Two instructions depend on each other when they share a qubit.  The dependency graph of a list has
a node for every instruction and an edge to it from the instruction that came last on each of its
qubits.  The depth of the list is the largest number of instructions on a path through the graph,
where barriers link their neighbours without being counted.
-/

namespace Anyonic

/-- An instruction as a node of the dependency graph. -/
structure DependencyNode where
  /-- The number of layers that the instruction takes up. -/
  weight : Nat
  /-- The nodes from which edges lead here, by their place in the graph. -/
  incoming : List Nat
deriving Repr

/-- The dependency graph of the instructions read so far. -/
structure DependencyGraph where
  nodes : Array DependencyNode
  /-- The last node on each qubit that has been used. -/
  lastOn : Std.HashMap Nat Nat

namespace DependencyGraph

/-- No instruction has been read yet. -/
def empty : DependencyGraph := ⟨#[], ∅⟩

/--
The qubits that an instruction occupies.  A barrier without operands has those below the width and
every other one that has been used.
-/
def span {α : Type} (graph : DependencyGraph) (width : Nat) (instruction : Instruction α) :
    List Nat :=
  if instruction.spansAll then
    List.range width ++ graph.lastOn.keys.filter fun qubit => width ≤ qubit
  else instruction.qubits

/-- Make a node the last on a qubit, with an edge to it from the one that was. -/
def link (node : Nat) (links : Std.HashMap Nat Nat × List Nat) (qubit : Nat) :
    Std.HashMap Nat Nat × List Nat :=
  (links.1.insert qubit node,
    match links.1[qubit]? with
    | some previous => links.2.insert previous
    | none => links.2)

/-- The graph with a node for one more instruction. -/
def add {α : Type} (width : Nat) (graph : DependencyGraph) (instruction : Instruction α) :
    DependencyGraph :=
  let (lastOn, incoming) :=
    (graph.span width instruction).foldl (link graph.nodes.size) (graph.lastOn, [])
  ⟨graph.nodes.push ⟨if instruction.isBarrier then 0 else 1, incoming⟩, lastOn⟩

/-- The graph of a list of instructions in a circuit of the given width. -/
def ofInstructions {α : Type} (instructions : List (Instruction α)) (width : Nat) :
    DependencyGraph :=
  instructions.foldl (add width) empty

/-- The depths of the first nodes and of the next one, which lies above all it has edges from. -/
def pushDepth (depths : Array Nat) (node : DependencyNode) : Array Nat :=
  depths.push ((node.incoming.map fun source => depths.getD source 0).foldl max 0 + node.weight)

/-- The depths of all nodes.  Edges come from earlier nodes, so their order is that of the graph. -/
def nodeDepths (graph : DependencyGraph) : Array Nat := graph.nodes.foldl pushDepth #[]

/-- The largest depth of a node. -/
def depth (graph : DependencyGraph) : Nat := graph.nodeDepths.foldl max 0

end DependencyGraph

/-- The depth of a list of instructions in a circuit of the given width. -/
def dependencyDepth {α : Type} (instructions : List (Instruction α)) (width : Nat) : Nat :=
  (DependencyGraph.ofInstructions instructions width).depth

end Anyonic
