import QueryPlan.Document.Relation
import QueryPlan.Proofs.Outcome
/-!
# QueryPlan.Proofs.Numbering.Documents

**The documents of subqueries in a document.** A subquery stands inside of an expression as a plan
document of its own. `Plan.nestedDocuments` lists those that a plan document holds itself, in the
order in which they are read, and `Plan.subqueryDocuments` lists those at any depth, each behind
the ones inside of it. Both only look at the document: they know nothing of a build.

A nested document is less deep than the one that holds it (`Plan.depth_lt_of_mem_nested`).
-/

namespace QueryPlan

open List

namespace Json

/-- The member of a value with a name, or `null`. -/
def member (name : String) (j : Json) : Json := (j.get? name).getD .null

/-- The elements of an array; any other value has none. -/
def elements (j : Json) : List Json := j.toList?.getD []

/-- The elements of a member. -/
def elementsOf (name : String) (j : Json) : List Json := (j.member name).elements

variable {j k : Json} {name : String}

theorem member_of_field (h : j.field name = .ok k) : j.member name = k := by
  unfold field at h
  split at h
  · rw [member, Result.ofOption_eq_ok.mp h, Option.getD_some]
  · exact absurd h Result.fail_ne_ok

theorem elements_of_asList {ks : List Json} (h : j.asList = .ok ks) : j.elements = ks := by
  rw [elements, Result.ofOption_eq_ok.mp h, Option.getD_some]

/-- The elements of a member that is there. -/
theorem elementsOf_of_field {ks : List Json} (hfield : j.field name = .ok k)
    (hlist : k.asList = .ok ks) : j.elementsOf name = ks := by
  rw [elementsOf, member_of_field hfield, elements_of_asList hlist]

/-! ### Depth -/

theorem depth_le_depthAll {ks : List Json} (h : k ∈ ks) : k.depth ≤ depthAll ks := by
  induction ks with
  | nil => exact absurd h not_mem_nil
  | cons a ks ih =>
      rw [depthAll]
      rcases mem_cons.mp h with rfl | h
      · exact Nat.le_max_left _ _
      · exact Nat.le_trans (ih h) (Nat.le_max_right _ _)

theorem depth_lt_of_mem_elements (h : k ∈ j.elements) : k.depth < j.depth := by
  cases j with
  | array ks =>
      rw [depth]
      exact Nat.lt_succ_of_le (depth_le_depthAll h)
  | _ => exact absurd h not_mem_nil

theorem depth_le_depthMembers {members : List (String × Json)}
    (h : members.lookup name = some k) : k.depth ≤ depthMembers members := by
  induction members with
  | nil => cases h
  | cons m members ih =>
      obtain ⟨n, v⟩ := m
      rw [depthMembers]
      rw [lookup_cons] at h
      split at h
      · exact Option.some.inj h ▸ Nat.le_max_left _ _
      · exact Nat.le_trans (ih h) (Nat.le_max_right _ _)

/-- A member that is there is less deep than the object. -/
theorem depth_member_lt (h : j.has name = true) : (j.member name).depth < j.depth := by
  obtain ⟨v, hv⟩ := Option.isSome_iff_exists.mp h
  cases j with
  | object members =>
      rw [member, hv, Option.getD_some, depth]
      exact Nat.lt_succ_of_le (depth_le_depthMembers hv)
  | _ => cases hv

/-- A member is no deeper than the value. -/
theorem depth_member_le (j : Json) (name : String) : (j.member name).depth ≤ j.depth := by
  cases hhas : j.has name with
  | true => exact Nat.le_of_lt (depth_member_lt hhas)
  | false =>
      rw [has, Option.isSome_eq_false_iff, Option.isNone_iff_eq_none] at hhas
      rw [member, hhas]
      exact Nat.zero_le _

theorem depth_lt_of_mem_elementsOf (h : k ∈ j.elementsOf name) : k.depth < j.depth :=
  Nat.lt_of_lt_of_le (depth_lt_of_mem_elements h) (j.depth_member_le name)

/-- A value with a text as a member has members. -/
theorem has_of_toText? {text : String} (h : (j.member name).toText? = some text) :
    j.has name = true := by
  unfold member at h
  unfold has
  cases hget : j.get? name with
  | none =>
      rw [hget] at h
      cases h
  | some v => rfl

end Json

namespace Expr

/-- The documents in the parts of a window function behind its operands. -/
def nestedInWindow (nested : Json → List Json) (j : Json) : List Json :=
  (j.elementsOf "partition_keys").flatMap nested ++
    ((j.elementsOf "order_keys").flatMap (fun key => nested (key.member "field")) ++
      (nested ((j.member "lower_bound").member "offset") ++
        nested ((j.member "upper_bound").member "offset")))

/-- The documents of the subqueries that an expression of at most so many levels holds itself. -/
def nestedWithin : Nat → Json → List Json
  | 0, _ => []
  | fuel + 1, j =>
    if j.has "input" || j.has "literal" then []
    else
      let operands := (j.elementsOf "operands").flatMap (nestedWithin fuel)
      match (j.member "op").toText? with
      | some "CASE" => operands
      | some "$SCALAR_QUERY" => [j.member "subquery"]
      | some name =>
        operands ++
          ((if name == ScalarOp.isIn.name && j.has "subquery" then [j.member "subquery"] else []) ++
            if j.has "partition_keys" then nestedInWindow (nestedWithin fuel) j else [])
      | none => []

/-- The documents of the subqueries that an expression holds itself. -/
def nestedDocuments (j : Json) : List Json := nestedWithin (j.depth + 1) j

theorem depth_lt_of_mem_nestedWithin {fuel : Nat} {j d : Json} (h : d ∈ nestedWithin fuel j) :
    d.depth < j.depth := by
  induction fuel generalizing j d with
  | zero => exact absurd h not_mem_nil
  | succ fuel ih =>
      rw [nestedWithin] at h
      split at h
      · exact absurd h not_mem_nil
      · have helements : ∀ {name : String},
            d ∈ (j.elementsOf name).flatMap (nestedWithin fuel) → d.depth < j.depth := by
          intro name hd
          obtain ⟨k, hk, hd⟩ := mem_flatMap.mp hd
          exact Nat.lt_trans (ih hd) (Json.depth_lt_of_mem_elementsOf hk)
        have hwithin : ∀ {k : Json} {name : String}, k.depth ≤ j.depth →
            d ∈ nestedWithin fuel (k.member name) → d.depth < j.depth := fun hk hd =>
          Nat.lt_of_lt_of_le (ih hd) (Nat.le_trans (Json.depth_member_le _ _) hk)
        have hsubquery : ∀ {text : String}, (j.member "op").toText? = some text →
            d ∈ [j.member "subquery"] → d.depth < j.depth := by
          intro text hop hd
          rw [mem_singleton.mp hd]
          cases hhas : j.has "subquery" with
          | true => exact Json.depth_member_lt hhas
          | false =>
              -- Without the member the document is `null`, which is not deep.
              rw [Json.has, Option.isSome_eq_false_iff, Option.isNone_iff_eq_none] at hhas
              rw [Json.member, hhas]
              exact Nat.zero_lt_of_lt (Json.depth_member_lt (Json.has_of_toText? hop))
        dsimp only at h
        split at h
        · exact helements h
        · next hop => exact hsubquery hop h
        · next hop =>
          rw [mem_append, mem_append] at h
          rcases h with h | h | h
          · exact helements h
          · split at h
            · exact hsubquery hop h
            · exact absurd h not_mem_nil
          · split at h
            · rw [nestedInWindow, mem_append, mem_append, mem_append] at h
              rcases h with h | h | h | h
              · exact helements h
              · obtain ⟨k, hk, h⟩ := mem_flatMap.mp h
                exact hwithin (Nat.le_of_lt (Json.depth_lt_of_mem_elementsOf hk)) h
              · exact hwithin (Json.depth_member_le j _) h
              · exact hwithin (Json.depth_member_le j _) h
            · exact absurd h not_mem_nil
        · exact absurd h not_mem_nil

end Expr

/-- The documents in an operand of a table function, which has none if it is a cursor. -/
def Relation.nestedInOperand (operand : Json) : List Json :=
  if Result.valueOr false (isCursor operand) then [] else Expr.nestedDocuments operand

/-- The documents of the subqueries that an entry of a plan document holds itself. -/
def Relation.nestedDocuments (j : Json) : List Json :=
  match (j.member "relOp").toText? with
  | some "LogicalProject" => (j.elementsOf "exprs").flatMap Expr.nestedDocuments
  | some "LogicalFilter" | some "LogicalJoin" => Expr.nestedDocuments (j.member "condition")
  | some "LogicalTableFunctionScan" =>
    ((j.member "invocation").elementsOf "operands").flatMap nestedInOperand
  | _ => []

theorem Relation.depth_le_of_mem_nested {j d : Json} (h : d ∈ nestedDocuments j) :
    d.depth ≤ j.depth := by
  have hexpr : ∀ {k : Json}, k.depth ≤ j.depth → d ∈ Expr.nestedDocuments k → d.depth ≤ j.depth :=
    fun hk hd => Nat.le_trans (Nat.le_of_lt (Expr.depth_lt_of_mem_nestedWithin hd)) hk
  unfold nestedDocuments at h
  split at h
  · obtain ⟨k, hk, h⟩ := mem_flatMap.mp h
    exact hexpr (Nat.le_of_lt (Json.depth_lt_of_mem_elementsOf hk)) h
  · exact hexpr (Json.depth_member_le j _) h
  · exact hexpr (Json.depth_member_le j _) h
  · obtain ⟨k, hk, h⟩ := mem_flatMap.mp h
    unfold nestedInOperand at h
    split at h
    · exact absurd h not_mem_nil
    · exact hexpr (Nat.le_trans (Nat.le_of_lt (Json.depth_lt_of_mem_elementsOf hk))
        (Json.depth_member_le j _)) h
  · exact absurd h not_mem_nil

namespace Plan

/-- The documents of the subqueries that a plan document holds itself, in the order in which they
are read. -/
def nestedDocuments (j : Json) : List Json :=
  (j.elementsOf "rels").flatMap Relation.nestedDocuments

/-- A nested document is less deep than the one that holds it. -/
theorem depth_lt_of_mem_nested {j d : Json} (h : d ∈ nestedDocuments j) : d.depth < j.depth := by
  obtain ⟨k, hk, hd⟩ := mem_flatMap.mp h
  exact Nat.lt_of_le_of_lt (Relation.depth_le_of_mem_nested hd) (Json.depth_lt_of_mem_elementsOf hk)

/-- The documents of all subqueries in a plan document, at any depth, each right behind those
inside of it. -/
def subqueryDocuments (j : Json) : List Json :=
  (nestedDocuments j).attach.flatMap fun d => subqueryDocuments d.1 ++ [d.1]
  termination_by j.depth
  decreasing_by exact depth_lt_of_mem_nested d.2

theorem subqueryDocuments_eq (j : Json) :
    subqueryDocuments j = (nestedDocuments j).flatMap fun d => subqueryDocuments d ++ [d] := by
  have hattach := flatMap_map Subtype.val (fun d => subqueryDocuments d ++ [d])
    (l := (nestedDocuments j).attach)
  rw [attach_map_subtype_val] at hattach
  rw [subqueryDocuments, hattach]

end Plan

end QueryPlan
