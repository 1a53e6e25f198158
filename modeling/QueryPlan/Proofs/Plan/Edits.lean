import QueryPlan.Plan.Basic
import QueryPlan.Proofs.Outcome
import Mathlib.Data.List.Nodup
/-!
# QueryPlan.Proofs.Plan.Edits

**What an edit does to the nodes and to the live order.** An edit of the arena is described by the
node behind every handle, an edit of the order by the nodes in front of the place that changes
and those behind it.

That a node stands before another one in a list without repetitions is said by a sublist of
two (`[a, b] <+ l`). Edits keep sublists, so nothing has to be counted.
-/

namespace QueryPlan

open List

theorem nodup_eraseDups {α : Type} [BEq α] [LawfulBEq α] (as : List α) : as.eraseDups.Nodup := by
  induction hlength : as.length using Nat.strongRecOn generalizing as with
  | ind n ih =>
      cases as with
      | nil => exact nodup_nil
      | cons a as =>
          have hlt : (as.filter fun b => !b == a).length < n :=
            Nat.lt_of_le_of_lt (length_filter_le _ _) (hlength ▸ Nat.lt_succ_self _)
          rw [eraseDups_cons, nodup_cons, mem_eraseDups, mem_filter]
          exact ⟨by simp, ih _ hlt _ rfl⟩

/-! ### Pairs of a list without repetitions -/

section Pairs

variable {α : Type} {a b c : α} {l pre post : List α}

theorem mem_middle_iff : b ∈ pre ++ a :: post ↔ b = a ∨ b ∈ pre ++ post := by
  rw [mem_append, mem_cons, mem_append]
  exact or_left_comm

theorem pair_sublist_append_iff :
    [a, b] <+ pre ++ post ↔
      [a, b] <+ pre ∨ (a ∈ pre ∧ b ∈ post) ∨ [a, b] <+ post := by
  induction pre with
  | nil => simp
  | cons x pre ih =>
      rw [cons_append, sublist_cons_iff, ih, sublist_cons_iff]
      constructor
      · rintro ((h | ⟨ha, hb⟩ | h) | ⟨r, hr, h⟩)
        · exact .inl (.inl h)
        · exact .inr (.inl ⟨mem_cons_of_mem _ ha, hb⟩)
        · exact .inr (.inr h)
        · cases hr
          rcases mem_append.mp (singleton_sublist.mp h) with hb | hb
          · exact .inl (.inr ⟨_, rfl, singleton_sublist.mpr hb⟩)
          · exact .inr (.inl ⟨mem_cons_self, hb⟩)
      · rintro ((h | ⟨r, hr, h⟩) | ⟨ha, hb⟩ | h)
        · exact .inl (.inl h)
        · exact .inr ⟨r, hr, h.trans (sublist_append_left ..)⟩
        · rcases mem_cons.mp ha with rfl | ha
          · exact .inr ⟨[b], rfl, singleton_sublist.mpr (mem_append_right _ hb)⟩
          · exact .inl (.inr (.inl ⟨ha, hb⟩))
        · exact .inl (.inr (.inr h))

/-- What stands behind an element of a list without repetitions. -/
theorem mem_right_of_pair (h : [a, b] <+ pre ++ a :: post) (hl : (pre ++ a :: post).Nodup) :
    b ∈ post := by
  have hpre : a ∉ pre := fun ha => (nodup_append.mp hl).2.2 a ha a mem_cons_self rfl
  have hpost : a ∉ post := (nodup_cons.mp (nodup_append.mp hl).2.1).1
  rcases pair_sublist_append_iff.mp h with h | ⟨ha, -⟩ | h
  · exact absurd (h.subset mem_cons_self) hpre
  · exact absurd ha hpre
  · rcases sublist_cons_iff.mp h with h | ⟨r, hr, h⟩
    · exact absurd (h.subset mem_cons_self) hpost
    · cases hr
      exact singleton_sublist.mp h

/-- What stands before an element of a list without repetitions. -/
theorem mem_left_of_pair (h : [a, b] <+ pre ++ b :: post) (hl : (pre ++ b :: post).Nodup) :
    a ∈ pre := by
  have hpost : b ∉ post := (nodup_cons.mp (nodup_append.mp hl).2.1).1
  have hpre : b ∉ pre := fun hb => (nodup_append.mp hl).2.2 b hb b mem_cons_self rfl
  rcases pair_sublist_append_iff.mp h with h | ⟨ha, -⟩ | h
  · exact absurd (h.subset (by simp)) hpre
  · exact ha
  · rcases sublist_cons_iff.mp h with h | ⟨r, hr, h⟩
    · exact absurd (h.subset (by simp)) hpost
    · cases hr
      exact absurd (singleton_sublist.mp h) hpost

theorem pair_sublist_of_mem (ha : a ∈ pre) (hb : b ∈ post) : [a, b] <+ pre ++ post :=
  pair_sublist_append_iff.mpr (.inr (.inl ⟨ha, hb⟩))

theorem pair_sublist_trans (hl : l.Nodup) (hab : [a, b] <+ l) (hbc : [b, c] <+ l) :
    [a, c] <+ l := by
  obtain ⟨pre, post, rfl⟩ := append_of_mem (hab.subset (by simp : b ∈ [a, b]))
  exact pair_sublist_of_mem (mem_left_of_pair hab hl)
    (mem_cons_of_mem _ (mem_right_of_pair hbc hl))

theorem ne_of_pair (hl : l.Nodup) (hab : [a, b] <+ l) : a ≠ b := by
  have h := hl.sublist hab
  simp only [nodup_cons, mem_singleton] at h
  exact h.1

theorem mem_left (hab : [a, b] <+ l) : a ∈ l := hab.subset (by simp)

theorem mem_right (hab : [a, b] <+ l) : b ∈ l := hab.subset (by simp)

theorem not_pair_swap (hl : l.Nodup) (hab : [a, b] <+ l) : ¬ [b, a] <+ l :=
  fun hba => ne_of_pair hl (pair_sublist_trans hl hab hba) rfl

/-- One of two elements of a list stands before the other. -/
theorem pair_or_pair (ha : a ∈ l) (hb : b ∈ l) (hne : b ≠ a) : [a, b] <+ l ∨ [b, a] <+ l := by
  obtain ⟨pre, post, rfl⟩ := append_of_mem ha
  rcases mem_append.mp ((mem_middle_iff.mp hb).resolve_left hne) with hb | hb
  · exact .inr (pair_sublist_of_mem hb mem_cons_self)
  · exact .inl (((singleton_sublist.mpr hb).cons_cons a).trans (sublist_append_right ..))

/-- If every element of a list gave way to a part of another list, and one of them by itself, that
one may give way to something else there. -/
theorem flatMap_replaced {part part' : α → List α} {done rest : List α}
    (hsplit : l = done ++ a :: rest) (hl : l.Nodup) (hparts : pre ++ a :: post = l.flatMap part)
    (hnodup : (pre ++ a :: post).Nodup) (ha : part a = [a]) (hsame : ∀ b ≠ a, part' b = part b) :
    pre ++ (part' a ++ post) = l.flatMap part' := by
  have hother : ∀ {m : List α}, a ∉ m → m.flatMap part' = m.flatMap part := fun hm =>
    flatMap_congr fun b hb => hsame b fun heq => hm (heq ▸ hb)
  have hapart := nodup_cons.mp (nodup_middle.mp hnodup)
  rw [mem_append, not_or] at hapart
  have hsides := nodup_cons.mp (nodup_middle.mp (hsplit ▸ hl))
  rw [mem_append, not_or] at hsides
  rw [hsplit, flatMap_append, flatMap_cons, ha] at hparts
  obtain ⟨rfl, -, rfl⟩ := (append_cons_inj_of_notMem hapart.1.1 hapart.1.2).mp hparts
  rw [hsplit, flatMap_append, flatMap_cons, hother hsides.1.1, hother hsides.1.2]
  rfl

end Pairs

namespace Plan

variable {p q : Plan} {id x y : NodeId}

/-! ### Edits of the arena -/

theorem op_congr (h : q.node x = p.node x) : q.op x = p.op x := congrArg Node.op h

theorem inputs_congr (h : q.node x = p.node x) : q.inputs x = p.inputs x := congrArg Node.inputs h

@[simp] theorem order_alloc (n : Node) : (p.alloc n).order = p.order := rfl

@[simp] theorem size_alloc (n : Node) : (p.alloc n).arena.size = p.arena.size + 1 := by
  simp [alloc]

theorem node_alloc (n : Node) :
    (p.alloc n).node x = if x = p.nextId then n else p.node x := by
  unfold node alloc nextId
  rw [Array.getElem?_push]
  by_cases hx : x.index = p.arena.size
  · cases x
    simp_all
  · have hne : x ≠ ⟨p.arena.size⟩ := fun h => hx (congrArg NodeId.index h)
    rw [if_neg hx, if_neg hne]

theorem node_alloc_self (n : Node) : (p.alloc n).node p.nextId = n := by
  rw [node_alloc, if_pos rfl]

theorem node_alloc_of_ne (n : Node) (hx : x ≠ p.nextId) : (p.alloc n).node x = p.node x := by
  rw [node_alloc, if_neg hx]

theorem ne_nextId (hx : x.index < p.arena.size) : x ≠ p.nextId := by
  rintro rfl
  exact Nat.lt_irrefl _ hx

/-- A handle beyond the arena stands for nothing yet. -/
theorem node_of_size_le (hx : p.arena.size ≤ x.index) : p.node x = default := by
  rw [node, Array.getElem?_eq_none hx]
  rfl

/-- A handle stands for a node of the arena or for the one without inputs and columns. -/
theorem node_mem_or_default (p : Plan) (id : NodeId) : p.node id ∈ p.arena ∨ p.node id = default := by
  unfold node
  cases h : p.arena[id.index]? with
  | some n => exact .inl (Array.mem_of_getElem? h)
  | none => exact .inr rfl

theorem lt_size_of_op_ne (h : p.op x ≠ default) : x.index < p.arena.size := by
  by_contra hle
  exact h (congrArg Node.op (node_of_size_le (Nat.le_of_not_lt hle)))

theorem node_nextId : p.node p.nextId = default := node_of_size_le (Nat.le_refl _)

theorem op_nextId : p.op p.nextId = default := congrArg Node.op node_nextId

@[simp] theorem order_modify (f : Node → Node) : (p.modify id f).order = p.order := rfl

@[simp] theorem size_modify (f : Node → Node) :
    (p.modify id f).arena.size = p.arena.size := by
  simp [modify]

theorem node_modify_self (f : Node → Node) (hid : id.index < p.arena.size) :
    (p.modify id f).node id = f (p.node id) := by
  unfold node modify
  rw [Array.getElem?_modify]
  simp [hid]

theorem node_modify_of_ne (f : Node → Node) (hx : x ≠ id) :
    (p.modify id f).node x = p.node x := by
  unfold node modify
  rw [Array.getElem?_modify, if_neg]
  intro h
  cases x
  cases id
  simp_all

/-- Behind the arena there is nothing to change. -/
theorem modify_of_size_le (f : Node → Node) (hid : p.arena.size ≤ id.index) :
    p.modify id f = p := by
  have harena : p.arena.modify id.index f = p.arena := by
    apply Array.ext_getElem?
    intro i
    rw [Array.getElem?_modify]
    split
    · next hi =>
      rw [← hi, Array.getElem?_eq_none hid]
      rfl
    · rfl
  rw [modify, harena]

@[simp] theorem order_setOp (op : Operator) : (p.setOp id op).order = p.order := rfl

@[simp] theorem size_setOp (op : Operator) : (p.setOp id op).arena.size = p.arena.size :=
  size_modify _

theorem op_setOp_self (op : Operator) (hid : id.index < p.arena.size) :
    (p.setOp id op).op id = op := by
  rw [Plan.op, setOp, node_modify_self _ hid]

theorem node_setOp_of_ne (op : Operator) (hx : x ≠ id) : (p.setOp id op).node x = p.node x :=
  node_modify_of_ne _ hx

@[simp] theorem inputs_setOp (op : Operator) : (p.setOp id op).inputs x = p.inputs x := by
  unfold inputs
  by_cases hx : x = id
  · subst hx
    by_cases hin : x.index < p.arena.size
    · rw [setOp, node_modify_self _ hin]
    · rw [setOp, modify_of_size_le _ (Nat.le_of_not_lt hin)]
  · rw [node_setOp_of_ne op hx]

@[simp] theorem order_remove : (p.remove id).order = p.order.filter fun n => n != id := rfl

@[simp] theorem node_remove : (p.remove id).node x = p.node x := rfl

@[simp] theorem size_remove : (p.remove id).arena.size = p.arena.size := rfl

/-- A node that is not the last one may leave. -/
theorem root?_remove (hroot : p.root? ≠ some id) : (p.remove id).root? = p.root? := by
  unfold root? at hroot ⊢
  rw [order_remove]
  rcases eq_nil_or_concat' p.order with horder | ⟨front, last, horder⟩
  · rw [horder]
    rfl
  · rw [horder, getLast?_concat] at hroot ⊢
    have hne : (last != id) = true := bne_iff_ne.mpr fun h => hroot (congrArg some h)
    rw [filter_append, filter_cons_of_pos (p := fun n => n != id) hne, filter_nil, getLast?_concat]

theorem mem_order_remove : x ∈ (p.remove id).order ↔ x ∈ p.order ∧ x ≠ id := by
  simp

theorem pair_remove : [x, y] <+ (p.remove id).order ↔ [x, y] <+ p.order ∧ x ≠ id ∧ y ≠ id := by
  constructor
  · intro h
    exact ⟨h.trans filter_sublist, (mem_order_remove.mp (mem_left h)).2,
      (mem_order_remove.mp (mem_right h)).2⟩
  · rintro ⟨h, hx, hy⟩
    simpa [hx, hy] using h.filter fun n => n != id

/-! ### Edits of the order -/

/-- A live node splits the order. -/
theorem livePosition_eq_ok {place : Nat} (h : p.livePosition id = .ok place) :
    ∃ pre post, p.order = pre ++ id :: post ∧ pre.length = place := by
  rw [livePosition, Result.ofOption_eq_ok, position?, idxOf?, findIdx?_eq_some_iff_getElem] at h
  obtain ⟨hlt, hid, -⟩ := h
  refine ⟨p.order.take place, p.order.drop (place + 1), ?_, by simp; omega⟩
  rw [← eq_of_beq hid, ← drop_eq_getElem_cons, take_append_drop]

theorem livePosition_ok (hid : id ∈ p.order) : ∃ place, p.livePosition id = .ok place := by
  obtain ⟨place, hplace⟩ := Option.isSome_iff_exists.mp (isSome_idxOf?.mpr hid)
  exact ⟨place, Result.ofOption_eq_ok.mpr hplace⟩

theorem insertIdx_length_append {α : Type} (pre post : List α) (a : α) :
    (pre ++ post).insertIdx pre.length a = pre ++ a :: post := by
  induction pre with
  | nil => rfl
  | cons b pre ih => exact congrArg (b :: ·) ih

theorem insertAfter_eq_ok {n : Node} (h : p.insertAfter id n = .ok q) :
    ∃ pre post, p.order = pre ++ id :: post ∧
      q = { p.alloc n with order := pre ++ id :: p.nextId :: post } := by
  obtain ⟨place, hplace, h⟩ := Result.bind_eq_ok.mp h
  obtain ⟨pre, post, horder, rfl⟩ := livePosition_eq_ok hplace
  have hinsert : (pre ++ id :: post).insertIdx (pre.length + 1) p.nextId =
      pre ++ id :: p.nextId :: post := by
    simpa using insertIdx_length_append (pre ++ [id]) post p.nextId
  exact ⟨pre, post, horder, by rw [← Result.pure_eq_ok.mp h, horder, hinsert]⟩

theorem insertBefore_eq_ok {n : Node} (h : p.insertBefore id n = .ok q) :
    ∃ pre post, p.order = pre ++ id :: post ∧
      q = { p.alloc n with order := pre ++ p.nextId :: id :: post } := by
  obtain ⟨place, hplace, h⟩ := Result.bind_eq_ok.mp h
  obtain ⟨pre, post, horder, rfl⟩ := livePosition_eq_ok hplace
  refine ⟨pre, post, horder, ?_⟩
  rw [← Result.pure_eq_ok.mp h, horder, insertIdx_length_append]

theorem insertAfter_ok (hid : id ∈ p.order) (n : Node) : ∃ q, p.insertAfter id n = .ok q := by
  obtain ⟨place, hplace⟩ := livePosition_ok hid
  exact ⟨_, Result.bind_ok hplace⟩

theorem insertBefore_ok (hid : id ∈ p.order) (n : Node) : ∃ q, p.insertBefore id n = .ok q := by
  obtain ⟨place, hplace⟩ := livePosition_ok hid
  exact ⟨_, Result.bind_ok hplace⟩

theorem replaceInOrder_ok (hid : id ∈ p.order) (new : NodeId) :
    ∃ q, p.replaceInOrder id new = .ok q := by
  obtain ⟨place, hplace⟩ := livePosition_ok hid
  exact ⟨_, Result.bind_ok hplace⟩

theorem replaceInOrder_eq_ok {new : NodeId} (h : p.replaceInOrder id new = .ok q) :
    ∃ pre post, p.order = pre ++ id :: post ∧
      q = { p with order := pre ++ new :: post } := by
  obtain ⟨place, hplace, h⟩ := Result.bind_eq_ok.mp h
  obtain ⟨pre, post, horder, rfl⟩ := livePosition_eq_ok hplace
  refine ⟨pre, post, horder, ?_⟩
  rw [← Result.pure_eq_ok.mp h, horder, set_append_right _ _ (Nat.le_refl _), Nat.sub_self,
    set_cons_zero]

end Plan

end QueryPlan
