import Mathlib
import Std.Data.HashMap.Lemmas
import Anyonic.Circuit.Depth
import Anyonic.Proofs.Basic

/-!
# Depth, wire by wire

An edge of the dependency graph comes from the last node on a wire, so all that counts is how deep
that node lies.  Read in program order, every instruction raises the wires it spans to one depth,
where a barrier without operands spans the wires within its reach: those below the width and those
that have been used.  Seen that way the depth is monotone: it gets no larger if the wires start
lower, if fewer of them are within reach, or if instructions are left out.
-/

namespace Anyonic

variable {α : Type} {reach reach' : Finset ℕ}

namespace Instruction

/-- The wires that an instruction occupies, out of those within reach if it has no operands. -/
def span (reach : Finset ℕ) (instruction : Instruction α) : Finset ℕ :=
  if instruction.spansAll then reach else instruction.qubits.toFinset

/-- The wires within reach after an instruction. -/
def reachAfter (reach : Finset ℕ) (instruction : Instruction α) : Finset ℕ :=
  reach ∪ instruction.qubits.toFinset

/-- The number of layers that an instruction adds to the wires it spans. -/
def layers (instruction : Instruction α) : ℕ := if instruction.isBarrier then 0 else 1

/-- The depth at which an instruction ends when its wires have the given depths before it. -/
def endDepth (reach : Finset ℕ) (depths : ℕ → ℕ) (instruction : Instruction α) : ℕ :=
  (instruction.span reach).sup depths + instruction.layers

/-- The depths of all wires after an instruction. -/
def depthsAfter (reach : Finset ℕ) (depths : ℕ → ℕ) (instruction : Instruction α) (wire : ℕ) : ℕ :=
  if wire ∈ instruction.span reach then instruction.endDepth reach depths else depths wire

variable {instruction : Instruction α} {depths depths' : ℕ → ℕ} {wire : ℕ}

theorem span_of_spansAll (all : instruction.spansAll) : instruction.span reach = reach :=
  if_pos all

theorem span_of_not_spansAll (partly : ¬instruction.spansAll) :
    instruction.span reach = instruction.qubits.toFinset :=
  if_neg partly

theorem mem_span_of_mem_qubits (used : wire ∈ instruction.qubits) :
    wire ∈ instruction.span reach := by
  have partly : ¬instruction.spansAll := by
    intro all
    simp only [spansAll, Bool.and_eq_true, List.isEmpty_iff] at all
    simp [all.2] at used
  rw [span_of_not_spansAll partly]
  exact List.mem_toFinset.2 used

theorem touches_of_mem_span (spanned : wire ∈ instruction.span reach) :
    instruction.touches wire := by
  by_cases all : instruction.spansAll
  · simp [touches, all]
  · rw [span_of_not_spansAll all] at spanned
    simp [touches, List.mem_toFinset.1 spanned]

theorem span_mono (wider : reach ⊆ reach') : instruction.span reach ⊆ instruction.span reach' := by
  by_cases all : instruction.spansAll
  · rwa [span_of_spansAll all, span_of_spansAll all]
  · rw [span_of_not_spansAll all, span_of_not_spansAll all]

theorem subset_reachAfter (instruction : Instruction α) (reach : Finset ℕ) :
    reach ⊆ instruction.reachAfter reach :=
  Finset.subset_union_left

theorem reachAfter_mono (instruction : Instruction α) (wider : reach ⊆ reach') :
    instruction.reachAfter reach ⊆ instruction.reachAfter reach' :=
  Finset.union_subset_union_left wider

theorem endDepth_le_iff {bound : ℕ} :
    instruction.endDepth reach depths ≤ bound ↔
      instruction.layers ≤ bound ∧
        ∀ wire ∈ instruction.span reach, depths wire + instruction.layers ≤ bound := by
  constructor
  · intro bounded
    simp only [endDepth] at bounded
    refine ⟨by omega, ?_⟩
    intro wire spanned
    have := Finset.le_sup (f := depths) spanned
    omega
  · rintro ⟨layer, bounded⟩
    have : (instruction.span reach).sup depths ≤ bound - instruction.layers := by
      apply Finset.sup_le
      intro wire spanned
      have := bounded wire spanned
      omega
    simp only [endDepth]
    omega

theorem add_layers_le_endDepth (depths : ℕ → ℕ) (spanned : wire ∈ instruction.span reach) :
    depths wire + instruction.layers ≤ instruction.endDepth reach depths :=
  (endDepth_le_iff.1 le_rfl).2 wire spanned

theorem endDepth_mono (wider : reach ⊆ reach')
    (lower : ∀ wire ∈ instruction.span reach, depths wire ≤ depths' wire) :
    instruction.endDepth reach depths ≤ instruction.endDepth reach' depths' := by
  apply endDepth_le_iff.2
  refine ⟨(endDepth_le_iff.1 le_rfl).1, ?_⟩
  intro wire spanned
  have := add_layers_le_endDepth depths' (span_mono wider spanned)
  have := lower wire spanned
  omega

theorem depthsAfter_of_mem (spanned : wire ∈ instruction.span reach) :
    instruction.depthsAfter reach depths wire = instruction.endDepth reach depths :=
  if_pos spanned

theorem depthsAfter_of_not_mem (free : wire ∉ instruction.span reach) :
    instruction.depthsAfter reach depths wire = depths wire :=
  if_neg free

theorem le_depthsAfter (wire : ℕ) : depths wire ≤ instruction.depthsAfter reach depths wire := by
  by_cases spanned : wire ∈ instruction.span reach
  · rw [depthsAfter_of_mem spanned]
    have := add_layers_le_endDepth depths spanned
    omega
  · rw [depthsAfter_of_not_mem spanned]

theorem depthsAfter_mono (wider : reach ⊆ reach')
    (lower : ∀ wire ∈ instruction.span reach, depths wire ≤ depths' wire)
    (own : depths wire ≤ depths' wire) :
    instruction.depthsAfter reach depths wire ≤ instruction.depthsAfter reach' depths' wire := by
  by_cases spanned : wire ∈ instruction.span reach
  · rw [depthsAfter_of_mem spanned, depthsAfter_of_mem (span_mono wider spanned)]
    exact endDepth_mono wider lower
  · rw [depthsAfter_of_not_mem spanned]
    exact own.trans (le_depthsAfter wire)

theorem span_single (gate : Gate α) (wire : ℕ) : (single gate wire).span reach = {wire} :=
  rfl

/-- A gate on one qubit takes its wire up by a layer. -/
theorem endDepth_single (gate : Gate α) (wire : ℕ) :
    (single gate wire).endDepth reach depths = depths wire + 1 := by
  rw [endDepth, span_single, Finset.sup_singleton]
  rfl

theorem depthsAfter_single (gate : Gate α) (wire : ℕ) :
    (single gate wire).depthsAfter reach depths =
      Function.update depths wire (depths wire + 1) := by
  funext other
  by_cases same : other = wire
  · subst same
    rw [depthsAfter_of_mem (Finset.mem_singleton_self _), endDepth_single, Function.update_self]
  · rw [depthsAfter_of_not_mem (by simpa [span_single] using same), Function.update_of_ne same]

end Instruction

/-- The largest depth at which an instruction of a list ends, from the given depths of the wires. -/
def deepestFrom : Finset ℕ → (ℕ → ℕ) → List (Instruction α) → ℕ
  | _, _, [] => 0
  | reach, depths, instruction :: rest =>
      max (instruction.endDepth reach depths)
        (deepestFrom (instruction.reachAfter reach) (instruction.depthsAfter reach depths) rest)

section Monotone

variable {depths depths' : ℕ → ℕ}

/-- Leaving out instructions and starting lower makes no list deeper. -/
theorem deepestFrom_le_of_sublist {first second : List (Instruction α)}
    (sublist : first.Sublist second) (wider : reach ⊆ reach')
    (lower : ∀ wire, depths wire ≤ depths' wire) :
    deepestFrom reach depths first ≤ deepestFrom reach' depths' second := by
  induction sublist generalizing reach reach' depths depths' with
  | slnil => exact le_rfl
  | cons instruction _ ih =>
      apply le_max_of_le_right
      apply ih (wider.trans (instruction.subset_reachAfter reach'))
      intro wire
      exact (lower wire).trans (Instruction.le_depthsAfter wire)
  | cons_cons instruction _ ih =>
      apply max_le_max
      · exact Instruction.endDepth_mono wider fun wire _ => lower wire
      · apply ih (instruction.reachAfter_mono wider)
        intro wire
        exact Instruction.depthsAfter_mono wider (fun other _ => lower other) (lower wire)

theorem deepestFrom_append_le {first second : List (Instruction α)}
    (shallower : ∀ reach depths, deepestFrom reach depths first ≤ deepestFrom reach depths second)
    (before : List (Instruction α)) (reach : Finset ℕ) (depths : ℕ → ℕ) :
    deepestFrom reach depths (before ++ first) ≤ deepestFrom reach depths (before ++ second) := by
  induction before generalizing reach depths with
  | nil => exact shallower reach depths
  | cons instruction before ih => exact max_le_max le_rfl (ih _ _)

/-- Only the operands of a gate matter for the depth. -/
theorem deepestFrom_cons_onQubits (gate other : Gate α) (qubits : List ℕ)
    (rest : List (Instruction α)) (reach : Finset ℕ) (depths : ℕ → ℕ) :
    deepestFrom reach depths (.onQubits gate qubits :: rest) =
      deepestFrom reach depths (.onQubits other qubits :: rest) :=
  rfl

/-- A run of gates on one wire takes that wire up by its length. -/
theorem deepestFrom_map_single_le (gates : List (Gate α)) (wire : ℕ)
    (rest : List (Instruction α)) (reach : Finset ℕ) (depths : ℕ → ℕ) :
    deepestFrom reach depths (gates.map (Instruction.single · wire) ++ rest) ≤
      max (depths wire + gates.length) (deepestFrom (reach ∪ {wire})
        (Function.update depths wire (depths wire + gates.length)) rest) := by
  induction gates generalizing reach depths with
  | nil =>
      apply le_max_of_le_right
      apply deepestFrom_le_of_sublist (.refl _) Finset.subset_union_left
      simp
  | cons gate gates ih =>
      have bounded := ih (reach ∪ {wire}) (Function.update depths wire (depths wire + 1))
      simp only [Function.update_self, Function.update_idem, Finset.union_assoc,
        Finset.union_idempotent] at bounded
      have assoc : depths wire + (gates.length + 1) = depths wire + 1 + gates.length := by omega
      simp only [List.map_cons, List.cons_append, deepestFrom, Instruction.endDepth_single,
        Instruction.depthsAfter_single, List.length_cons, assoc]
      apply max_le
      · omega
      · exact bounded

end Monotone

namespace DependencyGraph

variable {node : ℕ} {qubits : List ℕ} {links : Std.HashMap ℕ ℕ × List ℕ}

theorem getElem?_link (qubit wire : ℕ) :
    (link node links qubit).1[wire]? = if qubit = wire then some node else links.1[wire]? := by
  simp [link, Std.HashMap.getElem?_insert]

/-- A node comes last on all the qubits it is linked to. -/
theorem getElem?_foldl_link (wire : ℕ) :
    (qubits.foldl (link node) links).1[wire]? =
      if wire ∈ qubits then some node else links.1[wire]? := by
  induction qubits generalizing links with
  | nil => simp
  | cons qubit qubits ih =>
      rw [List.foldl_cons, ih, getElem?_link]
      by_cases same : wire = qubit
      · subst same
        simp
      · simp [same, Ne.symm same]

theorem mem_incoming_link (qubit source : ℕ) :
    source ∈ (link node links qubit).2 ↔ source ∈ links.1[qubit]? ∨ source ∈ links.2 := by
  cases found : links.1[qubit]? <;> simp [link, found, eq_comm]

/-- What bounds all that a node is linked to.  A qubit that is listed twice links the node to
itself, which adds nothing. -/
theorem forall_incoming_foldl_link (depth : ℕ → ℕ) (own : depth node = 0) (bound : ℕ) :
    (∀ source ∈ (qubits.foldl (link node) links).2, depth source ≤ bound) ↔
      (∀ source ∈ links.2, depth source ≤ bound) ∧
        ∀ wire ∈ qubits, ∀ source ∈ links.1[wire]?, depth source ≤ bound := by
  induction qubits generalizing links with
  | nil => simp
  | cons qubit qubits ih =>
      have relinked : (∀ wire ∈ qubits, ∀ source ∈ (link node links qubit).1[wire]?,
          depth source ≤ bound) ↔
          ∀ wire ∈ qubits, wire ≠ qubit → ∀ source ∈ links.1[wire]?, depth source ≤ bound := by
        apply forall₂_congr
        intro wire _
        by_cases same : qubit = wire
        · simp [getElem?_link, same, own]
        · simp [getElem?_link, same, Ne.symm same]
      rw [List.foldl_cons, ih, relinked]
      simp only [mem_incoming_link, List.forall_mem_cons]
      constructor
      · rintro ⟨first, others⟩
        refine ⟨fun source linked => first source (.inr linked),
          fun source linked => first source (.inl linked), ?_⟩
        intro wire used source linked
        by_cases same : wire = qubit
        · subst same
          exact first source (.inl linked)
        · exact others wire used same source linked
      · rintro ⟨before, first, others⟩
        exact ⟨fun source linked => linked.elim (first source) (before source),
          fun wire used _ => others wire used⟩

variable {graph : DependencyGraph} {depths : ℕ → ℕ} {width : ℕ} {instruction : Instruction α}

theorem nodeDepths_push (graph : DependencyGraph) (node : DependencyNode)
    (lastOn : Std.HashMap ℕ ℕ) :
    nodeDepths ⟨graph.nodes.push node, lastOn⟩ = pushDepth graph.nodeDepths node := by
  simp [nodeDepths]

theorem size_nodeDepths (graph : DependencyGraph) : graph.nodeDepths.size = graph.nodes.size := by
  have grown : ∀ (nodes : List DependencyNode) (depths : Array ℕ),
      (nodes.foldl pushDepth depths).size = depths.size + nodes.length := by
    intro nodes
    induction nodes with
    | nil => simp
    | cons node nodes ih =>
        intro depths
        simp only [List.foldl_cons, ih, pushDepth, Array.size_push, List.length_cons]
        omega
  rw [nodeDepths, ← Array.foldl_toList, grown]
  simp

/-- A graph whose last nodes have the given depths, with the wires that a full barrier reaches. -/
structure Tracks (graph : DependencyGraph) (width : ℕ) (reach : Finset ℕ) (depths : ℕ → ℕ) :
    Prop where
  mem_reach_iff : ∀ wire, wire ∈ reach ↔ wire < width ∨ wire ∈ graph.lastOn
  earlier : ∀ wire : ℕ, ∀ node ∈ graph.lastOn[wire]?, node < graph.nodes.size
  depth_eq : ∀ wire : ℕ,
    depths wire = (graph.lastOn[wire]?).elim 0 fun node => graph.nodeDepths.getD node 0

namespace Tracks

theorem empty (width : ℕ) : DependencyGraph.empty.Tracks width (Finset.range width) fun _ => 0 where
  mem_reach_iff := by simp [DependencyGraph.empty]
  earlier := by simp [DependencyGraph.empty]
  depth_eq := by simp [DependencyGraph.empty]

theorem mem_span_iff (tracks : graph.Tracks width reach depths) (wire : ℕ) :
    wire ∈ graph.span width instruction ↔ wire ∈ instruction.span reach := by
  by_cases all : instruction.spansAll
  · rw [Instruction.span_of_spansAll all, tracks.mem_reach_iff, DependencyGraph.span, if_pos all]
    simp only [List.mem_append, List.mem_range, List.mem_filter, Std.HashMap.mem_keys,
      decide_eq_true_eq]
    by_cases inRange : wire < width
    · simp [inRange]
    · simp [inRange, not_lt.1 inRange]
  · rw [Instruction.span_of_not_spansAll all, DependencyGraph.span, if_neg all, List.mem_toFinset]

/-- The node of an instruction lies where the instruction ends on the wires. -/
theorem nodeDepths_add (tracks : graph.Tracks width reach depths) :
    (graph.add width instruction).nodeDepths =
      graph.nodeDepths.push (instruction.endDepth reach depths) := by
  have own : graph.nodeDepths.getD graph.nodes.size 0 = 0 := by
    simp [Array.getD_eq_getD_getElem?, ← size_nodeDepths]
  rw [add, nodeDepths_push, pushDepth]
  congr 2
  -- both are the least bound of the depths on the wires spanned
  apply eq_of_forall_ge_iff
  intro bound
  rw [foldl_max_le_iff, Finset.sup_le_iff]
  simp only [Nat.zero_le, true_and, List.forall_mem_map]
  rw [forall_incoming_foldl_link (fun source => graph.nodeDepths.getD source 0) own]
  simp only [List.not_mem_nil, false_imp_iff, implies_true, true_and]
  constructor
  · intro bounded wire spanned
    rw [tracks.depth_eq]
    cases found : graph.lastOn[wire]? with
    | none => exact Nat.zero_le bound
    | some node => exact bounded wire ((tracks.mem_span_iff wire).2 spanned) node found
  · intro bounded wire spanned node found
    have small := bounded wire ((tracks.mem_span_iff wire).1 spanned)
    rw [tracks.depth_eq, Option.mem_def.1 found] at small
    exact small

theorem add (tracks : graph.Tracks width reach depths) (instruction : Instruction α) :
    (graph.add width instruction).Tracks width (instruction.reachAfter reach)
      (instruction.depthsAfter reach depths) := by
  have last_eq : ∀ wire, (graph.add width instruction).lastOn[wire]? =
      if wire ∈ instruction.span reach then some graph.nodes.size else graph.lastOn[wire]? := by
    intro wire
    simp only [← tracks.mem_span_iff wire]
    exact getElem?_foldl_link wire
  have size_eq : (graph.add width instruction).nodes.size = graph.nodes.size + 1 := by
    simp [DependencyGraph.add]
  refine ⟨?_, ?_, ?_⟩
  · intro wire
    have last_mem : wire ∈ (graph.add width instruction).lastOn ↔
        wire ∈ instruction.span reach ∨ wire ∈ graph.lastOn := by
      rw [Std.HashMap.mem_iff_isSome_getElem?, Std.HashMap.mem_iff_isSome_getElem?, last_eq]
      split <;> simp_all
    rw [last_mem, Instruction.reachAfter, Finset.mem_union, tracks.mem_reach_iff]
    by_cases all : instruction.spansAll
    · have none : instruction.qubits = [] := by
        simp only [Instruction.spansAll, Bool.and_eq_true, List.isEmpty_iff] at all
        exact all.2
      rw [Instruction.span_of_spansAll all, tracks.mem_reach_iff, none]
      simp only [List.toFinset_nil, Finset.notMem_empty, or_false]
      tauto
    · rw [Instruction.span_of_not_spansAll all]
      tauto
  · intro wire node found
    rw [last_eq] at found
    rw [size_eq]
    split at found
    · cases found
      omega
    · have := tracks.earlier wire node found
      omega
  · intro wire
    rw [last_eq, tracks.nodeDepths_add]
    by_cases spanned : wire ∈ instruction.span reach
    · rw [if_pos spanned, Instruction.depthsAfter_of_mem spanned]
      simp [Array.getD_eq_getD_getElem?, ← size_nodeDepths]
    · rw [if_neg spanned, Instruction.depthsAfter_of_not_mem spanned, tracks.depth_eq]
      cases found : graph.lastOn[wire]? with
      | none => rfl
      | some node =>
          have before := tracks.earlier wire node found
          rw [← size_nodeDepths] at before
          simp [Array.getD_eq_getD_getElem?, Array.getElem?_push, before.ne]

theorem depth_foldl_add (tracks : graph.Tracks width reach depths)
    (instructions : List (Instruction α)) :
    (instructions.foldl (DependencyGraph.add width) graph).depth =
      max graph.depth (deepestFrom reach depths instructions) := by
  induction instructions generalizing graph reach depths with
  | nil => simp [deepestFrom]
  | cons instruction rest ih =>
      have grown : (graph.add width instruction).depth =
          max graph.depth (instruction.endDepth reach depths) := by
        rw [depth, tracks.nodeDepths_add, Array.foldl_push]
        rfl
      rw [List.foldl_cons, ih (tracks.add instruction), grown, deepestFrom, max_assoc]

end Tracks

end DependencyGraph

/-- The depth of a list is what the wires reach from depth zero. -/
theorem dependencyDepth_eq (instructions : List (Instruction α)) (width : ℕ) :
    dependencyDepth instructions width =
      deepestFrom (Finset.range width) (fun _ => 0) instructions := by
  have grown := (DependencyGraph.Tracks.empty width).depth_foldl_add instructions
  have none : DependencyGraph.empty.depth = 0 := rfl
  rw [none, Nat.zero_max] at grown
  exact grown

end Anyonic
