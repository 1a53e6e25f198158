import QueryPlan.Proofs.Flattening.References
/-!
# QueryPlan.Proofs.Flattening.Success

**Flattening refuses no chain of joins.** All nodes of a chain are at most as wide as the new node,
so the new node has every column that something refers to: in the conditions of the chain
(`WellFormed.flattenChain_ok`), in what reads the top (`NewNode.takeover_ok`), and in what refers to
the rest of the chain while it retires (`Takeover.retireAll_ok`).
-/

namespace QueryPlan

open List

namespace Plan

variable {p q : Plan} {root top left leftmost topJoin : NodeId} {filter : Option NodeId}
  {joins : List NodeId} {levels : ChainLevels} {columns : List ColumnRef}

/-! ### The node for a chain -/

theorem Arranged.exists_inputs_of_join {l : List NodeId} (h : p.Arranged l) (htop : top ∈ l)
    (hjoin : p.isBinaryJoin top = true) :
    ∃ j left right, p.op top = .join j ∧ p.inputs top = [left, right] := by
  unfold isBinaryJoin at hjoin
  split at hjoin
  · next j hop =>
    obtain ⟨left, right, hinputs⟩ := h.sides_of_join htop hop
    exact ⟨j, left, right, hop, hinputs⟩
  · cases hjoin

/-- The descent from a live join succeeds. -/
theorem Arranged.chainBelow_ok (h : p.Arranged p.order) (htop : top ∈ p.order)
    (hjoin : p.isBinaryJoin top = true) (fuel : Nat) :
    ∃ joins leftmost, p.chainBelow fuel top = .ok (joins, leftmost) := by
  induction fuel generalizing top with
  | zero =>
      obtain ⟨j, left, right, -, hinputs⟩ := h.exists_inputs_of_join htop hjoin
      have hleft : (p.node top).input 0 = .ok left := input_zero_eq_ok.mpr (by simp [hinputs])
      exact ⟨_, _, Result.bind_ok hleft⟩
  | succ fuel ih =>
      obtain ⟨j, left, right, -, hinputs⟩ := h.exists_inputs_of_join htop hjoin
      have hleft : (p.node top).input 0 = .ok left := input_zero_eq_ok.mpr (by simp [hinputs])
      rw [chainBelow, Result.bind_ok hleft]
      split
      · next hcond =>
        obtain ⟨joins, leftmost, hbelow⟩ := ih (h.mem_of_input htop (by simp [hinputs]))
          (Bool.and_eq_true_iff.mp hcond).1
        exact ⟨_, _, Result.bind_ok hbelow⟩
      · exact ⟨_, _, rfl⟩

theorem Arranged.levels_ok {nodes : List NodeId} (h : p.Arranged p.order)
    (hnodes : ∀ x ∈ nodes, x ∈ p.order ∧ p.isBinaryJoin x = true) :
    ∃ levels, nodes.foldlM p.addLevel .none = .ok levels := by
  suffices hloop : ∃ levels, nodes.foldlM p.addLevel .none = .ok levels ∧ True from
    hloop.imp fun _ => And.left
  refine Result.foldlM_ok (motive := fun _ _ => True) trivial fun pre x post levels hsplit _ => ?_
  obtain ⟨hx, hjoin⟩ := hnodes x (by simp [hsplit])
  obtain ⟨j, left, right, hop, hinputs⟩ := h.exists_inputs_of_join hx hjoin
  have hright : (p.node x).input 1 = .ok right := input_eq_ok.mpr (by simp [hinputs])
  refine ⟨levels.push right j, ?_, trivial⟩
  rw [addLevel, hop]
  exact Result.bind_ok hright

/-- If the flattened columns are enough for the references to joins of the chain, an expression is
resolved. -/
theorem resolveChain_ok {e : Expr}
    (h : ∀ c ∈ e.columns, c.source ∈ joins → c.index < columns.length) :
    resolveChain joins columns e = .ok (e.mapColumns (chainColumn joins columns)) := by
  refine Expr.mapColumnsM_ok fun c hc => ?_
  by_cases hmem : c.source ∈ joins
  · have hget := getElem?_eq_getElem (h c hc hmem)
    rw [if_pos (contains_iff_mem.mpr hmem), chainColumn, if_pos hmem, hget]
    rfl
  · rw [if_neg (contains_iff_mem.not.mpr hmem), chainColumn, if_neg hmem]

/-- A chain below a live node becomes one node. -/
theorem WellFormed.flattenChain_ok (hp : p.WellFormed) (hroot : root ∈ p.order)
    (h : p.ChainAt root filter topJoin joins leftmost) (hjoin : p.isBinaryJoin topJoin = true) :
    ∃ inputs op, p.flattenChain filter joins leftmost = .ok (inputs, op) := by
  have hordered := hp.arranged.toOrdered
  have htopJoin := h.topJoin_mem hordered hroot
  have hlive : ∀ x ∈ joins, x ∈ p.order := fun x hx =>
    h.subset hordered hroot (mem_append_right _ hx)
  obtain ⟨levels, hlevels⟩ := hp.arranged.levels_ok fun x (hx : x ∈ joins.reverse) =>
    ⟨hlive x (mem_reverse.mp hx), h.isBinaryJoin hjoin x (mem_reverse.mp hx)⟩
  have hchain := h.chain.leveled hp.arranged htopJoin hjoin hlevels
  have hcolumns := hp.arranged.flattenedColumns_eq (hchain.subset hordered htopJoin)
  generalize hflat : p.columnsOf (leftmost :: levels.inputs) = columns at hcolumns
  have hbound : ∀ e, e ∈ p.chainConjuncts filter levels ∨ some e ∈ levels.outer → ∀ c ∈ e.columns,
      c.source ∈ joins → c.index < columns.length := by
    intro e he c hc hsource
    obtain ⟨x, hx, hcolumn⟩ := h.exists_of_columns hchain he hc
    rw [← hflat, ← hchain.columnCount_eq hordered htopJoin]
    exact Nat.lt_of_lt_of_le (hp.reads_of_mem (h.subset hordered hroot hx) hcolumn).2
      (hchain.columnCount_le hordered htopJoin _ hsource)
  have hcondition : ∀ c ∈ ((Expr.all? ((p.chainConjuncts filter levels).filter
      fun e => !e.isTrue)).getD (Expr.bool true)).columns,
      c.source ∈ joins → c.index < columns.length := by
    intro c hc
    obtain ⟨d, hd, hc⟩ := Expr.exists_of_mem_columns_all? hc
    exact hbound d (.inl (mem_filter.mp hd).1) c hc
  have houter : levels.outer.mapM (fun e => e.mapM (resolveChain joins columns)) =
      .ok (levels.outer.map (Option.map (Expr.mapColumns (chainColumn joins columns)))) := by
    refine Result.mapM_ok fun o ho => ?_
    cases o with
    | none => rfl
    | some e => exact Result.bind_ok (resolveChain_ok (hbound e (.inr ho)))
  exact ⟨_, _, Result.bind_eq_ok.mpr ⟨levels, hlevels, Result.bind_eq_ok.mpr ⟨columns, hcolumns,
    Result.bind_eq_ok.mpr ⟨_, resolveChain_ok hcondition, Result.bind_eq_ok.mpr ⟨_, houter, rfl⟩⟩⟩⟩⟩

/-! ### The chain retires -/

namespace NewNode

variable (f : NewNode p root)

/-- References to the chain are to columns that the new node has. -/
def Covers (r : Plan) : Prop :=
  ∀ n ∈ r.order, n ≠ p.nextId → ∀ c ∈ (r.op n).columns, c.source ∈ f.top :: f.below →
    c.index < f.columns.length

variable {f} {r s : Plan} {o : NodeId}

theorem Covers.remove (h : f.Covers r) : f.Covers (r.remove o) := fun n hn =>
  h n (mem_filter.mp hn).1

variable (hp : p.WellFormed) (hroot : root ∈ p.order)
include hp hroot

/-- What takes the place of references to the chain is not part of it. -/
theorem Covers.redirection (h : f.Covers r) (hexposed : r.exposed p.nextId = f.inputs)
    (hred : Redirection r s o p.nextId none (r.order.filter fun n => n != p.nextId)) :
    f.Covers s := by
  have hordered := hp.arranged.toOrdered
  intro n hn hne c hc hsource
  rw [hred.order_eq] at hn
  rcases hred.mem_columns (mem_filter.mpr ⟨hn, bne_iff_ne.mpr hne⟩) hc with ⟨hc, -⟩ | ⟨-, -, -, hc⟩
  · exact h n hn hne c hc hsource
  · have hstand := (mem_columnsOf.mp hc).1
    rw [hexposed] at hstand
    split at hstand
    · obtain ⟨hpre, hbelow⟩ := f.inputs_before hordered hroot hstand
      rcases mem_cons.mp hsource with htop | hsource
      · exact absurd (mem_append_left _ (htop ▸ hpre)) (f.top_not_mem hordered)
      · exact absurd hsource hbelow
    · rw [mem_singleton.mp hstand] at hsource
      rcases mem_cons.mp hsource with htop | hsource
      · exact absurd htop.symm (Plan.ne_nextId (hp.inArena (f.mem_order.mpr (.inl rfl))))
      · exact absurd hsource (f.nextId_not_mem_below hordered hroot)

variable (f) (hjoin : p.isBinaryJoin f.topJoin = true)
include hjoin

/-- No node of the chain is wider than the new node. -/
theorem columnCount_le : ∀ x ∈ f.top :: f.below, p.columnCount x ≤ f.columns.length := by
  obtain ⟨levels, hlevels⟩ := f.exists_madeOf hp hroot hjoin
  have hordered := hp.arranged.toOrdered
  have htopJoin := f.topJoin_mem hp hroot
  intro x hx
  rcases mem_cons.mp hx with rfl | hbelow
  · exact Nat.le_of_eq (f.columnCount_top hp hroot hjoin)
  · rw [columns, hlevels.inputs_eq, ← hlevels.leveled.columnCount_eq hordered htopJoin]
    refine hlevels.leveled.columnCount_le hordered htopJoin x ?_
    change x ∈ f.filter.getD f.topJoin :: f.below at hx
    rw [← f.olds_eq] at hx
    refine (mem_append.mp hx).resolve_left fun hfilter => f.top_not_mem_below hordered hroot ?_
    rwa [top, Option.mem_toList.mp hfilter]

/-- References to lower joins that have been moved to the topmost one stay in bounds. -/
theorem covers_moved : f.Covers f.moved := by
  intro n hn hne c hc hsource
  rw [f.order_moved] at hn
  have hn := (mem_middle_iff.mp hn).resolve_left hne
  have hle := f.columnCount_le hp hroot hjoin
  rw [Plan.op, f.node_moved, if_pos hn] at hc
  obtain ⟨d, hd, rfl⟩ := mem_map.mp (Operator.columns_mapExprs _ (p.op n) ▸ hc)
  have hlt := (hp.reads_of_mem (f.mem_order.mpr (.inr hn)) hd).2
  by_cases htail : d.source ∈ f.joins.tail
  · rw [redirectedColumn, if_pos htail]
    exact Nat.lt_of_lt_of_le hlt (hle _ (mem_cons_of_mem _ (f.tail_joins_subset htail)))
  · rw [redirectedColumn, if_neg htail] at hsource ⊢
    exact Nat.lt_of_lt_of_le hlt (hle _ hsource)

/-- The new node takes over from the top of the chain. -/
theorem takeover_ok : ∃ r, f.moved.replaceInputEverywhere f.top p.nextId none = .ok r := by
  have hordered := hp.arranged.toOrdered
  obtain ⟨r, hr, -⟩ := replaceInputEverywhere_ok (f.nodup_moved hordered) (f.inArena_moved hordered)
    (f.arranged_moved hp hroot hjoin).steady_to_next fun n hn hne c hc hsource => by
      rw [f.columnCount_moved_nextId hp hroot]
      exact f.covers_moved hp hroot hjoin n hn hne c hc (hsource ▸ mem_cons_self)
  exact ⟨r, hr⟩

end NewNode

/-- The rest of the chain retires. -/
theorem Takeover.retireAll_ok (f : Takeover p root) (hp : p.WellFormed) (hroot : root ∈ p.order)
    (hjoin : p.isBinaryJoin f.topJoin = true) :
    ∃ q, f.rewired.retireAll p.nextId f.top f.below = .ok q := by
  have hordered := hp.arranged.toOrdered
  have hnodup := f.nodup_rewired hordered
  have hin := f.inArena_rewired hordered
  have hred := f.redirection hp hroot hjoin
  have hmoved := f.node_nextId hordered
  have hexposed : f.rewired.exposed p.nextId = f.inputs := by
    rw [hred.exposed_other (by simp), exposed_of_join (by rw [Plan.op, hmoved]; rfl), Plan.inputs,
      hmoved]
    rfl
  have hmovedExposed : f.moved.exposed p.nextId = f.inputs := by
    rw [exposed_of_join (by rw [Plan.op, hmoved]; rfl), Plan.inputs, hmoved]
    rfl
  suffices hloop : ∃ q, f.rewired.retireAll p.nextId f.top f.below = .ok q ∧
      Retires f.rewired q p.nextId f.below ∧ f.Covers q from hloop.imp fun _ => And.left
  refine Result.foldlM_ok (motive := fun done r => Retires f.rewired r p.nextId done ∧ f.Covers r)
    ⟨.refl _ _, (f.covers_moved hp hroot hjoin).redirection hp hroot hmovedExposed hred⟩ ?_
  rintro done o rest r hsplit ⟨hr, hcovers⟩
  have hlive : ∀ n, n ∈ r.order ↔ n ∈ f.rewired.order ∧ n ∉ done := fun n => by
    rw [hr.order_eq]
    simp
  have hunread : ∀ n ∈ f.rewired.order, n ≠ p.nextId → o ∈ f.rewired.inputs n → n ∈ done :=
    fun n hn hne hread => f.mem_of_reads_rewired hordered hroot hsplit hn hne hread
  have hsteady : r.Steady (f.pre ++ f.top :: p.nextId :: f.post) o p.nextId
      (r.order.filter fun n => n != p.nextId) := by
    refine .of_unread ((f.arranged_rewired hp hroot hjoin).of_sameShape hr.toSameShape) (by simp)
      fun x _ hx hread => ?_
    obtain ⟨hx, hne⟩ := mem_filter.mp hx
    obtain ⟨hx, hdone⟩ := (hlive x).mp hx
    exact hdone (hunread x hx (bne_iff_ne.mp hne) (hr.inputs_eq x ▸ hread))
  have ho : o ∈ f.below := by simp [hsplit]
  have htop : o ≠ f.top := fun h => f.top_not_mem_below hordered hroot (h ▸ ho)
  obtain ⟨s, hs, hredStep⟩ := replaceInputEverywhere_ok (hr.order_eq ▸ hnodup.filter _)
    (fun n hn => hr.size_eq ▸ hin n ((hlive n).mp hn).1) hsteady fun n hn hne c hc hsource => by
      rw [hr.columnCount_eq, f.columnCount_rewired hp hroot hjoin (by simp),
        f.columnCount_moved_nextId hp hroot]
      exact hcovers n hn hne c hc (mem_cons_of_mem _ (hsource ▸ ho))
  have hstep : retire p.nextId f.top r o = .ok (s.remove o) := by
    rw [retire, Result.bind_ok hs, if_neg htop]
    rfl
  refine ⟨s.remove o, hstep, hr.concat hnodup hin hunread htop hstep, ?_⟩
  exact (hcovers.redirection hp hroot (by rw [hr.exposed_eq, hexposed]) hredStep).remove

/-- Flattening the chain below a live node succeeds, if there is a join at the top. -/
theorem WellFormed.flattenAt_ok (hp : p.WellFormed) (hroot : root ∈ p.order)
    (htop : p.chainTop root = .ok (filter, topJoin)) (hjoin : p.isBinaryJoin topJoin = true)
    (next : Nat) : ∃ q, p.flattenAt root next = .ok (q, next + 1) := by
  have hordered := hp.arranged.toOrdered
  have htopJoin : topJoin ∈ p.order := by
    rcases chainTop_eq_ok htop with ⟨-, hinputs, -⟩ | ⟨-, -, rfl⟩
    · exact hordered.mem_of_input hroot (hinputs ▸ mem_singleton_self _)
    · exact hroot
  obtain ⟨joins, leftmost, hbelow⟩ := hp.arranged.chainBelow_ok htopJoin hjoin p.walkBound
  have hchain : p.ChainAt root filter topJoin joins leftmost := ⟨htop, chainBelow_eq_ok hbelow⟩
  obtain ⟨inputs, op, hop⟩ := hp.flattenChain_ok hroot hchain hjoin
  obtain ⟨below, holds⟩ := hchain.exists_cons
  have hlive : filter.getD topJoin ∈ (p.alloc (.make next inputs (.leftDeepJoin op))).order :=
    hchain.subset hordered hroot (holds ▸ mem_cons_self)
  obtain ⟨placed, hplaced⟩ := replaceInOrder_ok hlive p.nextId
  obtain ⟨pre, post, horder, rfl⟩ := replaceInOrder_eq_ok hplaced
  let f := hordered.newNode next hchain hop holds horder
  obtain ⟨r, hr⟩ := f.takeover_ok hp hroot hjoin
  obtain ⟨q, hq⟩ := (f.takeover hordered hr).retireAll_ok hp hroot hjoin
  have hretire : f.moved.retireAll p.nextId (filter.getD topJoin) (filter.toList ++ joins) =
      .ok q := by
    have hfirst : retire p.nextId (filter.getD topJoin) f.moved (filter.getD topJoin) = .ok r := by
      rw [retire]
      refine (Result.bind_ok hr).trans ?_
      rw [if_pos rfl]
      rfl
    rw [holds, retireAll, foldlM_cons, Result.bind_ok hfirst]
    exact hq
  refine ⟨q, Fresh.bind_eq_ok.mpr ⟨_, next, Fresh.lift_eq_ok.mpr ⟨htop, rfl⟩, ?_⟩⟩
  refine Fresh.bind_eq_ok.mpr ⟨_, next, Fresh.lift_eq_ok.mpr ⟨hbelow, rfl⟩, ?_⟩
  refine Fresh.bind_eq_ok.mpr ⟨_, next, Fresh.lift_eq_ok.mpr ⟨hop, rfl⟩, ?_⟩
  refine Fresh.bind_eq_ok.mpr ⟨next, next + 1, Fresh.freshId_eq_ok.mpr ⟨rfl, rfl⟩, ?_⟩
  refine Fresh.bind_eq_ok.mpr ⟨_, next + 1, Fresh.lift_eq_ok.mpr ⟨hplaced, rfl⟩, ?_⟩
  exact Fresh.lift_eq_ok.mpr ⟨hretire, rfl⟩

/-- A filter over an inner join over a left join of three relations with one column each. -/
def chainOfThree : Plan :=
  let values (name : String) (rows : List Literal) : Operator :=
    .values ⟨[⟨name, .condition⟩], rows.map fun l => [l]⟩
  let ref (source index : Nat) : Expr := .leaf (.column ⟨⟨source⟩, index⟩)
  { arena := #[.make 0 [] (values "a" [.bool true, .bool false]),
      .make 1 [] (values "b" [.bool true, .null .boolean]),
      .make 2 [] (values "c" [.bool true, .bool false]),
      .make 3 [⟨0⟩, ⟨1⟩] (.join ⟨.app (.operator .and .condition) [ref 0 0, ref 1 0], .left⟩),
      .make 4 [⟨3⟩, ⟨2⟩] (.join ⟨ref 2 0, .inner⟩),
      .make 5 [⟨4⟩] (.filter ⟨ref 3 0⟩)]
    order := (range 6).map NodeId.mk }

theorem chainOfThree_wellFormed : chainOfThree.WellFormed :=
  wellFormed_of_reads ⟨⟨by decide, by decide, by decide⟩, by decide⟩ (by decide) (by decide)
    (by decide +kernel)

end Plan

end QueryPlan
