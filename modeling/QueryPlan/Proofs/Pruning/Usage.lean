import QueryPlan.Pass.DeadColumns
import QueryPlan.Proofs.Plan.Uses
import QueryPlan.Proofs.Plan.WellFormed
/-!
# QueryPlan.Proofs.Pruning.Usage

**What is known of the readers of a pruned projection.** Filters, sorts and joins carry the columns
of their inputs on (`Plan.Carries`). If the columns of a node that are read are known, every node
that carries them is read by nodes of a few kinds only, none of them is the root, and what these
readers need is among the columns (`usageWithin_eq_some`, `Carries.of_usage`).
-/

namespace QueryPlan

open List

/-- Whether an operator carries the columns of its inputs on, in a pruning. -/
def Operator.carries : Operator → Bool
  | filter _ | sort _ | join _ => true
  | _ => false

theorem Operator.layout_ne_own_of_carries {op : Operator} (h : op.carries = true) {width : Nat}
    {names : List String} : op.layout ≠ .own width names := by
  cases op <;> simp_all [carries, layout]

namespace Plan

/-- A node carries the columns of another one on: it is that node, or a filter, a sort or a join
over a node that does. -/
inductive Carries (p : Plan) : NodeId → NodeId → Prop
  | refl (id : NodeId) : Carries p id id
  | up {id n x : NodeId} : n ∈ p.consumers id → (p.op n).carries = true → Carries p n x →
    Carries p id x

variable {p : Plan} {id n x : NodeId} {root : Option NodeId} {fuel : Nat} {used : List Nat}

theorem Carries.step (h : p.Carries id x) (hn : n ∈ p.consumers x)
    (hop : (p.op n).carries = true) : p.Carries id n := by
  induction h with
  | refl id => exact .up hn hop (.refl n)
  | up hm hcarries _ ih => exact .up hm hcarries (ih hn)

/-- All readers know what they read, if the columns that they read together are known. -/
theorem gatherUsage_eq_some {usage : NodeId → Result (Option (List Nat))}
    {readers : List NodeId} (h : gatherUsage usage readers = .ok (some used)) :
    ∀ n ∈ readers, ∃ u ⊆ used, usage n = .ok (some u) := by
  induction readers generalizing used with
  | nil => exact fun n hn => absurd hn not_mem_nil
  | cons a as ih =>
      rw [gatherUsage] at h
      obtain ⟨o, ho, h⟩ := Result.bind_eq_ok.mp h
      cases o with
      | none => cases Result.pure_eq_ok.mp h
      | some u =>
          obtain ⟨rest, hrest, h⟩ := Result.bind_eq_ok.mp h
          obtain ⟨v, rfl, rfl⟩ := Option.map_eq_some_iff.mp (Result.pure_eq_ok.mp h)
          intro n hn
          rcases mem_cons.mp hn with rfl | hn
          · exact ⟨u, subset_append_left _ _, ho⟩
          · obtain ⟨w, hw, hn⟩ := ih hrest n hn
            exact ⟨w, Subset.trans hw (subset_append_right _ _), hn⟩

/-- What is known of a reader of a node, if the columns of the node that are read are known. -/
def Reader (p : Plan) (root : Option NodeId) (fuel : Nat) (id : NodeId) (used : List Nat)
    (n : NodeId) : Prop :=
  match p.op n with
  | .project _ | .tableFunction _ | .aggregate _ => True
  | .filter _ | .sort _ => ∃ u ⊆ used, p.usageWithin root fuel n = .ok (some u)
  | .join _ => (p.node n).uses id = 1 ∧ ∃ joined columns,
      p.usageWithin root fuel n = .ok (some joined) ∧
      p.columnsOfInput id joined (p.inputs n) 0 = .ok columns ∧ columns ⊆ used
  | _ => False

/-- What is known of a node, if its columns that are read are known. -/
structure UsageKnown (p : Plan) (root : Option NodeId) (fuel : Nat) (id : NodeId)
    (used : List Nat) : Prop where
  not_root : root ≠ some id
  referenced : p.referencedColumns id ⊆ used
  lookups : ∀ n ∈ p.consumers id, (p.op n).lookups ⊆ used
  reader : ∀ n ∈ p.consumers id, p.Reader root fuel id used n

/-- If the columns of a node that are read are known, the node is not the root and all its readers
are of a few kinds. -/
theorem usageWithin_eq_some (h : p.usageWithin root fuel id = .ok (some used)) :
    ∃ k, fuel = k + 1 ∧ p.UsageKnown root k id used := by
  cases fuel with
  | zero => cases h
  | succ fuel =>
      rw [usageWithin] at h
      split at h
      · cases h
      next hroot =>
      obtain ⟨gathered, hgathered, h⟩ := Result.bind_eq_ok.mp h
      obtain ⟨u, rfl, rfl⟩ := Option.map_eq_some_iff.mp (Result.pure_eq_ok.mp h)
      have hreaders : ∀ n ∈ p.consumers id,
          (p.op n).lookups ⊆ p.referencedColumns id ++ u ∧
            p.Reader root fuel id (p.referencedColumns id ++ u) n := by
        intro n hn
        obtain ⟨v, hv, hread⟩ := gatherUsage_eq_some hgathered n hn
        have hsub : v ⊆ p.referencedColumns id ++ u :=
          Subset.trans hv (subset_append_right _ _)
        unfold Reader
        cases hop : p.op n with
        | project j => exact ⟨nil_subset _, trivial⟩
        | tableFunction t | aggregate a =>
            rw [hop] at hread
            obtain rfl := Option.some.inj (Except.ok.inj hread)
            exact ⟨hsub, trivial⟩
        | filter f =>
            rw [hop] at hread
            exact ⟨nil_subset _, v, hsub, hread⟩
        | sort s =>
            rw [hop] at hread
            obtain ⟨o, ho, hread⟩ := Result.bind_eq_ok.mp hread
            obtain ⟨w, rfl, rfl⟩ := Option.map_eq_some_iff.mp (Result.pure_eq_ok.mp hread)
            exact ⟨Subset.trans (subset_append_left _ _) hsub, w,
              Subset.trans (subset_append_right _ _) hsub, ho⟩
        | join j =>
            rw [hop] at hread
            dsimp only at hread
            split at hread
            · cases hread
            next huses =>
            obtain ⟨o, ho, hread⟩ := Result.bind_eq_ok.mp hread
            cases o with
            | none => cases Result.pure_eq_ok.mp hread
            | some joined =>
                obtain ⟨columns, hcolumns, hread⟩ := Result.bind_eq_ok.mp hread
                obtain rfl := Option.some.inj (Result.pure_eq_ok.mp hread)
                exact ⟨nil_subset _, by simpa using huses, joined, columns, ho, hcolumns, hsub⟩
        | _ =>
            rw [hop] at hread
            cases hread
      exact ⟨fuel, rfl, hroot, subset_append_left _ _, fun n hn => (hreaders n hn).1,
        fun n hn => (hreaders n hn).2⟩

/-- A reader carries the columns on or has columns of its own. -/
theorem Reader.carries_or_own (h : p.Reader root fuel id used n) :
    ((p.op n).carries = true ∧ ∃ u, p.usageWithin root fuel n = .ok (some u)) ∨
      ∃ width names, (p.op n).layout = .own width names := by
  unfold Reader at h
  cases hop : p.op n with
  | filter f =>
      rw [hop] at h
      obtain ⟨u, -, hu⟩ := h
      exact .inl ⟨rfl, u, hu⟩
  | sort s =>
      rw [hop] at h
      obtain ⟨u, -, hu⟩ := h
      exact .inl ⟨rfl, u, hu⟩
  | join j =>
      rw [hop] at h
      obtain ⟨-, joined, -, hu, -⟩ := h
      exact .inl ⟨rfl, joined, hu⟩
  | union u => rw [hop] at h; exact False.elim h
  | modify m => rw [hop] at h; exact False.elim h
  | leftDeepJoin j => rw [hop] at h; exact False.elim h
  | _ => exact .inr ⟨_, _, rfl⟩

/-- If the columns of a node that are read are known, so are those of every node that carries
them. -/
theorem Carries.of_usage (h : p.Carries id x) (hused : p.usageWithin root fuel id = .ok (some used)) :
    ∃ k u, p.usageWithin root k x = .ok (some u) := by
  induction h generalizing fuel used with
  | refl id => exact ⟨fuel, used, hused⟩
  | up hn hop _ ih =>
      obtain ⟨k, rfl, hknown⟩ := usageWithin_eq_some hused
      rcases (hknown.reader _ hn).carries_or_own with ⟨-, u, hu⟩ | ⟨w, names, hown⟩
      · exact ih hu
      · exact absurd hown (Operator.layout_ne_own_of_carries hop)

end Plan

end QueryPlan
