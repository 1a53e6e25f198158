import QueryPlan.Explain.Node
import QueryPlan.Proofs.Expr.Columns
import QueryPlan.Proofs.Expr.ScaledText
/-!
# QueryPlan.Proofs.Explain.Entries

**When an entry can be written.** All that can stop the program while it writes an expression is a
literal whose scale is too large, so there is one reason for a failure (`Node.entry_failsOnly`), and
an entry exists as soon as every literal of the node has a text (`Node.exists_entry`).
-/

namespace QueryPlan

open List Result

theorem Leaf.text_failsOnly (l : Leaf) : FailsOnly .overflow l.text := by
  cases l with
  | literal l => exact fun _ => Literal.text_eq_error
  | _ => exact .pure

theorem FrameBound.text_failsOnly {b : FrameBound} {offset : Result String}
    (h : FailsOnly .overflow offset) : FailsOnly .overflow (b.text offset) := by
  unfold FrameBound.text
  split
  · exact .pure
  · refine FailsOnly.bind ?_ fun _ => .pure
    split
    · exact .pure
    · exact h

theorem FrameBound.exists_text {b : FrameBound} {offset : Result String}
    (h : ∃ text, offset = .ok text) : ∃ text, b.text offset = .ok text := by
  unfold FrameBound.text
  split
  · exact ⟨_, rfl⟩
  · refine exists_bind ?_ fun _ _ => ⟨_, rfl⟩
    split
    · exact ⟨_, rfl⟩
    · exact h

namespace WindowCall

variable {α : Type} {w : WindowCall} {args : List (Result String)}

/-- The arguments of a call by their roles are all among its arguments. -/
theorem mem_of_mem_split {args : List α} {a : α} (h : a ∈ (w.split args).operands ∨
    a ∈ (w.split args).partition ∨ a ∈ (w.split args).order ∨
    (w.split args).lower = some a ∨ (w.split args).upper = some a) : a ∈ args := by
  rcases h with h | h | h | h | h
  · exact mem_of_mem_take h
  · exact mem_of_mem_drop (mem_of_mem_take h)
  · exact mem_of_mem_drop (mem_of_mem_drop (mem_of_mem_take h))
  · simp only [split] at h
    split at h
    · exact mem_of_mem_drop (mem_of_mem_drop (mem_of_mem_drop (mem_of_head? h)))
    · cases h
  · simp only [split] at h
    split at h
    · have hoffset := mem_of_head? h
      split at hoffset
      · exact mem_of_mem_drop (mem_of_mem_drop (mem_of_mem_drop (mem_of_mem_drop hoffset)))
      · exact mem_of_mem_drop (mem_of_mem_drop (mem_of_mem_drop hoffset))
    · cases h

theorem text_failsOnly (h : ∀ a ∈ args, FailsOnly .overflow a) :
    FailsOnly .overflow (w.text args) := by
  have hoffset : ∀ o : Option (Result String), (∀ a, o = some a → a ∈ args) →
      FailsOnly .overflow (o.getD (.ok "")) := by
    rintro (_ | a) ho
    · exact .pure
    · exact h a (ho a rfl)
  refine .bind (.all fun a ha => h a (mem_of_mem_split (.inl ha))) fun _ => ?_
  refine .bind (.all fun a ha => h a (mem_of_mem_split (.inr (.inl ha)))) fun _ => ?_
  refine .bind (.all fun a ha => h a (mem_of_mem_split (.inr (.inr (.inl ha))))) fun _ => ?_
  refine .bind (FrameBound.text_failsOnly (hoffset _ fun a ha =>
    mem_of_mem_split (.inr (.inr (.inr (.inl ha)))))) fun _ => ?_
  exact .bind (FrameBound.text_failsOnly (hoffset _ fun a ha =>
    mem_of_mem_split (.inr (.inr (.inr (.inr ha)))))) fun _ => .pure

theorem exists_text (h : ∀ a ∈ args, ∃ text, a = .ok text) : ∃ text, w.text args = .ok text := by
  have hoffset : ∀ o : Option (Result String), (∀ a, o = some a → a ∈ args) →
      ∃ text, o.getD (.ok "") = .ok text := by
    rintro (_ | a) ho
    · exact ⟨_, rfl⟩
    · exact h a (ho a rfl)
  refine exists_bind (exists_all fun a ha => h a (mem_of_mem_split (.inl ha))) fun _ _ => ?_
  refine exists_bind (exists_all fun a ha => h a (mem_of_mem_split (.inr (.inl ha)))) fun _ _ => ?_
  refine exists_bind (exists_all fun a ha =>
    h a (mem_of_mem_split (.inr (.inr (.inl ha))))) fun _ _ => ?_
  refine exists_bind (FrameBound.exists_text (hoffset _ fun a ha =>
    mem_of_mem_split (.inr (.inr (.inr (.inl ha)))))) fun _ _ => ?_
  exact exists_bind (FrameBound.exists_text (hoffset _ fun a ha =>
    mem_of_mem_split (.inr (.inr (.inr (.inr ha)))))) fun _ _ => ⟨_, rfl⟩

end WindowCall

namespace Head

variable {head : Head} {args : List (Result String)}

theorem text_failsOnly (h : ∀ a ∈ args, FailsOnly .overflow a) :
    FailsOnly .overflow (head.text args) := by
  cases head with
  | window call => exact WindowCall.text_failsOnly h
  | _ => exact .bind (.all h) fun _ => .pure

theorem exists_text (h : ∀ a ∈ args, ∃ text, a = .ok text) :
    ∃ text, head.text args = .ok text := by
  cases head with
  | window call => exact WindowCall.exists_text h
  | _ => exact exists_bind (exists_all h) fun _ _ => ⟨_, rfl⟩

end Head

namespace Expr

variable {e : Expr}

theorem textAll_eq_map (es : List Expr) : textAll es = es.map text := by
  induction es with
  | nil => rfl
  | cons e es ih => rw [textAll, ih, map_cons]

theorem text_failsOnly (e : Expr) : FailsOnly .overflow e.text := by
  induction e using Expr.ind with
  | leaf l => exact l.text_failsOnly
  | app head args ih =>
      rw [text, textAll_eq_map]
      exact Head.text_failsOnly fun _ ha =>
        let ⟨e, he, heq⟩ := mem_map.mp ha
        heq ▸ ih e he

/-- An expression can be written if each of its literals can. -/
theorem exists_text (h : ∀ l : Literal, .literal l ∈ e.leaves → ∃ text, l.text = .ok text) :
    ∃ text, e.text = .ok text := by
  induction e using Expr.ind with
  | leaf l =>
      cases l with
      | literal l => exact h l mem_cons_self
      | _ => exact ⟨_, rfl⟩
  | app head args ih =>
      rw [text, textAll_eq_map]
      refine Head.exists_text fun _ ha => ?_
      obtain ⟨e, he, rfl⟩ := mem_map.mp ha
      refine ih e he fun l hl => h l ?_
      rw [leaves, leavesAll_eq]
      exact mem_flatMap_of_mem he hl

end Expr

/-- The literals in the expressions of an operator. -/
def Operator.literals (op : Operator) : List Literal :=
  (op.exprs.flatMap Expr.leaves).filterMap fun
    | .literal l => some l
    | _ => none

namespace Operator

variable {op : Operator} {verbose : Bool}

theorem entry_failsOnly (verbose : Bool) (op : Operator) :
    FailsOnly .overflow (op.entry verbose) := by
  have htexts : ∀ es : List Expr, FailsOnly .overflow (es.mapM Expr.text) := fun es =>
    .mapM fun e _ => e.text_failsOnly
  cases op with
  | project p => exact .bind (htexts _) fun _ => .pure
  | filter f => exact .bind f.condition.text_failsOnly fun _ => .pure
  | join j => exact .bind j.condition.text_failsOnly fun _ => .pure
  | tableFunction t => exact .bind (htexts _) fun _ => .pure
  | compound c =>
      refine .bind ?_ fun _ => .bind (htexts _) fun _ => .pure
      cases c.filter with
      | none => exact .pure
      | some e => exact .bind e.text_failsOnly fun _ => .pure
  | leftDeepJoin j =>
      refine .bind j.condition.text_failsOnly fun _ => .bind (.all fun x hx => ?_) fun _ => .pure
      obtain ⟨⟨e, i⟩, -, hx⟩ := mem_filterMap.mp hx
      obtain ⟨e, -, rfl⟩ := Option.map_eq_some_iff.mp hx
      exact .bind e.text_failsOnly fun _ => .pure
  | _ => exact .pure

/-- An operator can be shown if each of its literals can be written. -/
theorem exists_entry (h : ∀ l ∈ op.literals, ∃ text, l.text = .ok text) :
    ∃ e, op.entry verbose = .ok e := by
  have htext : ∀ e ∈ op.exprs, ∃ text, e.text = .ok text := fun e he =>
    Expr.exists_text fun l hl => h l (mem_filterMap.mpr ⟨_, mem_flatMap_of_mem he hl, rfl⟩)
  cases op with
  | project p => exact exists_bind (exists_mapM htext) fun _ _ => ⟨_, rfl⟩
  | filter f => exact exists_bind (htext _ mem_cons_self) fun _ _ => ⟨_, rfl⟩
  | join j => exact exists_bind (htext _ mem_cons_self) fun _ _ => ⟨_, rfl⟩
  | tableFunction t =>
      exact exists_bind (exists_mapM fun e he => htext e (mem_append_left _ he)) fun _ _ => ⟨_, rfl⟩
  | compound c =>
      refine exists_bind ?_ fun _ _ => exists_bind
        (exists_mapM fun e he => htext e (mem_append_right _ he)) fun _ _ => ⟨_, rfl⟩
      cases hfilter : c.filter with
      | none => exact ⟨_, rfl⟩
      | some e =>
          have he : e ∈ (Operator.compound c).exprs :=
            mem_append_left _ (Option.mem_toList.mpr hfilter)
          exact exists_bind (htext e he) fun _ _ => ⟨_, rfl⟩
  | leftDeepJoin j =>
      refine exists_bind (htext _ mem_cons_self) fun _ _ =>
        exists_bind (exists_all fun x hx => ?_) fun _ _ => ⟨_, rfl⟩
      obtain ⟨⟨o, i⟩, ho, hx⟩ := mem_filterMap.mp hx
      obtain ⟨e, rfl, rfl⟩ := Option.map_eq_some_iff.mp hx
      have he : e ∈ (Operator.leftDeepJoin j).exprs :=
        mem_cons_of_mem _ (mem_filterMap.mpr ⟨_, fst_mem_of_mem_zipIdx ho, rfl⟩)
      exact exists_bind (htext e he) fun _ _ => ⟨_, rfl⟩
  | _ => exact ⟨_, rfl⟩

end Operator

namespace Node

variable {n : Node} {verbose : Bool}

/-- Only an overflow keeps a node from being shown. -/
theorem entry_failsOnly (verbose : Bool) (n : Node) : FailsOnly .overflow (n.entry verbose) :=
  .bind (n.op.entry_failsOnly verbose) fun _ => .pure

/-- A node can be shown if each of its literals can be written. -/
theorem exists_entry (h : ∀ l ∈ n.op.literals, ∃ text, l.text = .ok text) :
    ∃ e, n.entry verbose = .ok e :=
  exists_bind (Operator.exists_entry h) fun _ _ => ⟨_, rfl⟩

theorem text_failsOnly (n : Node) : FailsOnly .overflow n.text :=
  .bind (n.entry_failsOnly false) fun _ => .pure

end Node

end QueryPlan
