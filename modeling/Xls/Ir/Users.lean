/-
# Users of nodes

The users of a node are the nodes which have it as an operand.  A function whose users
stand behind the nodes they use is in topological order; the verifier checks this.
-/
import Xls.Ir.Verifier

namespace Xls

/-- The node `u` uses the node `n`. -/
def Uses (f : FunctionBase) (u n : ℕ) : Prop := ∃ node, f.nodes[u]? = some node ∧ n ∈ node.operands

/-- The operands of a node. -/
def FunctionBase.operands (f : FunctionBase) (n : ℕ) : List ℕ :=
  (f.nodes[n]?.map Node.operands).getD []

variable {f : FunctionBase}

theorem mem_operands_iff {u n : ℕ} : n ∈ f.operands u ↔ Uses f u n := by
  unfold FunctionBase.operands Uses
  rcases f.nodes[u]? with _ | node
  · simp
  · simp

theorem Uses.lt_length {u n : ℕ} (h : Uses f u n) : u < f.nodes.length := by
  obtain ⟨node, hnode, -⟩ := h
  exact (List.getElem?_eq_some_iff.mp hnode).1

/-- The users of each node.  They are kept in the order of their ids, which need not be
the order of the nodes. -/
structure Users (f : FunctionBase) where
  users : ℕ → List ℕ
  nodup : ∀ i, (users i).Nodup
  mem_iff : ∀ {i u}, u ∈ users i ↔ Uses f u i

/-- The users in the order of the nodes. -/
def Users.ofFunction (f : FunctionBase) : Users f where
  users i := (List.range f.nodes.length).filter fun u =>
    (f.nodes[u]?.map fun n => n.operands.contains i).getD false
  nodup _ := List.nodup_range.filter _
  mem_iff {i u} := by
    rw [List.mem_filter, List.mem_range]
    constructor
    · rintro ⟨hu, hmem⟩
      rw [List.getElem?_eq_getElem hu] at hmem
      exact ⟨_, List.getElem?_eq_getElem hu, by simpa using hmem⟩
    · rintro ⟨n, hn, hmem⟩
      exact ⟨(List.getElem?_eq_some_iff.mp hn).1, by simpa [hn] using hmem⟩

/-- In a verified function users stand behind the nodes they use. -/
theorem lt_of_uses (hf : Verifier.verify f = true) {u n : ℕ} (h : Uses f u n) : n < u := by
  obtain ⟨node, hnode, hmem⟩ := h
  obtain ⟨types, htypes, -⟩ := Verifier.verifyNode_of_verify hf hnode
  generalize node.operands = operands at hmem htypes
  induction operands generalizing types with
  | nil => cases hmem
  | cons i rest ih =>
    rw [Verifier.operandTypes] at htypes
    split at htypes
    · rename_i hi
      split at htypes
      · rename_i _ types' _ hrest
        rcases List.mem_cons.mp hmem with rfl | hmem
        · exact hi
        · exact ih types' hmem hrest
      · cases htypes
    · cases htypes

end Xls
