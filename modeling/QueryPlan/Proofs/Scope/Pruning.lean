import QueryPlan.Proofs.Pruning.Kept
/-!
# QueryPlan.Proofs.Scope.Pruning

**References stay in sight when columns are dropped.** A node that carries the columns of a
narrowed projection got narrower, and its visit replaces the references to it by columns that it
still has. So, while readers are adapted, a reference either names a column of the narrowed plan,
or a column from before of a node whose visit is to come (`Plan.Awaiting`).
-/

namespace QueryPlan

open List

namespace Plan

/-- Adapting is under way: references of a plan name columns that the narrowed plan has, or columns
that the plan before had, of a node that is not yet visited. -/
structure Awaiting (p narrowed : Plan) (visited : List NodeId) (s : Plan) : Prop
    extends SameSkeleton narrowed s where
  fieldsMatch : ∀ n ∈ s.order, (s.op n).FieldsMatch
  bound : ∀ n ∈ s.order, ∀ e ∈ (s.op n).exprs, e.hasPositional = false
  reads : ∀ n ∈ s.order, ∀ c ∈ (s.op n).columns, c.source ∈ narrowed.reads n ∧
    (c.index < narrowed.columnCount c.source ∨
      c.source ∉ visited ∧ c.index < p.columnCount c.source)

variable {p q r s t : Plan} {id x : NodeId} {root : Option NodeId} {j : Project}
  {used kept : List Nat}

/-- A visit replaces the references to the visited node. -/
theorem Awaiting.remapAt {visited : List NodeId} {visit : NodeId × ColumnMap}
    (h : Awaiting p r visited s) (hr : r.Arranged r.order) (hx : visit.1 ∈ r.order)
    (ht : s.remapAt visit = .ok t) : Awaiting p r (visited ++ [visit.1]) t := by
  obtain ⟨x, mapping⟩ := visit
  have hs := h.toSameSkeleton.arranged hr
  have hredirection := remapAt_redirection hs (h.order_eq ▸ hx) ht
  have hskeleton := h.toSameSkeleton.trans hredirection.sameSkeleton
  have horder : t.order = s.order := hredirection.order_eq
  refine { hskeleton with fieldsMatch := ?_, bound := ?_, reads := ?_ } <;> rw [horder] <;>
    intro n hn
  · exact hredirection.fieldsMatch (h.fieldsMatch n hn)
  · exact hredirection.bound (h.bound n hn)
  · intro c hc
    rcases hredirection.mem_columns hn hc with ⟨hc, hne⟩ | ⟨d, hd, hsource, hc⟩
    · obtain ⟨hread, hlt | ⟨hawaited, hlt⟩⟩ := h.reads n hn c hc
      · exact ⟨hread, .inl hlt⟩
      · exact ⟨hread, .inr ⟨by simp [hawaited, hne], hlt⟩⟩
    · obtain ⟨hmem, hlt⟩ := mem_columnsOf.mp hc
      rw [h.columnCount_eq] at hlt
      refine ⟨?_, .inl hlt⟩
      split at hmem
      · next hdirect =>
        rw [Bool.and_eq_true, contains_iff_mem, Bool.not_eq_true', h.inputs_eq, h.isJoin_eq]
          at hdirect
        exact (mem_reads_of_not_join hdirect.2).mpr
          ⟨x, hdirect.1, h.exposed_eq x ▸ hmem⟩
      · rw [mem_singleton.mp hmem, ← hsource]
        exact (h.reads n hn d hd).1

/-- Before the first visit, references name columns that the plan before had. -/
theorem Awaiting.narrow (h : p.WellFormed) (hid : id ∈ p.order) (hop : p.op id = .project j)
    (hkept : ∀ i ∈ kept, i < j.exprs.length) :
    Awaiting p (p.narrow id j kept) [] (p.narrow id j kept) := by
  have harena := h.inArena hid
  have hself : (p.narrow id j kept).op id = .project (j.keep kept) := op_narrow_self harena
  have hexprs : ∀ e ∈ (Operator.project (j.keep kept)).exprs, e ∈ (p.op id).exprs := by
    intro e he
    rw [hop]
    exact mem_of_filterMap_getElem? he
  refine { SameSkeleton.refl _ with fieldsMatch := ?_, bound := ?_, reads := ?_ } <;>
    intro n hn <;> by_cases hne : n = id
  · rw [hne, hself]
    exact Project.fieldsMatch_keep (hop ▸ h.fieldsMatch id hid) hkept
  · rw [op_narrow_of_ne hne]
    exact h.fieldsMatch n hn
  · rw [hne, hself]
    exact fun e he => h.bound id hid e (hexprs e he)
  · rw [op_narrow_of_ne hne]
    exact h.bound n hn
  · intro c hc
    rw [hne, hself] at hc
    obtain ⟨e, he, hc⟩ := Operator.mem_columns.mp hc
    obtain ⟨hread, hlt⟩ :=
      h.reads_of_mem hid (Operator.mem_columns.mpr ⟨e, hexprs e he, hc⟩)
    rw [reads_narrow harena hop, hne]
    exact ⟨hread, .inr ⟨not_mem_nil, hlt⟩⟩
  · intro c hc
    rw [op_narrow_of_ne hne] at hc
    obtain ⟨hread, hlt⟩ := h.reads_of_mem hn hc
    rw [reads_narrow harena hop]
    exact ⟨hread, .inr ⟨not_mem_nil, hlt⟩⟩

/-- After the last visit, references name columns that the narrowed plan has. -/
theorem Awaiting.wellFormed {visited : List NodeId} (h : Awaiting p r visited q)
    (hr : r.Arranged r.order)
    (hdone : ∀ x ∈ r.order, x ∉ visited → r.columnCount x = p.columnCount x) :
    q.WellFormed := by
  refine wellFormed_of_reads (h.toSameSkeleton.arranged hr) h.fieldsMatch h.bound ?_
  intro n hn c hc
  rw [h.reads_eq, h.columnCount_eq]
  obtain ⟨hread, hlt | ⟨hawaited, hlt⟩⟩ := h.reads n hn c hc
  · exact ⟨hread, hlt⟩
  · have hlive := hr.reads_subset (h.order_eq ▸ hn) hread
    exact ⟨hread, by rwa [hdone _ hlive hawaited]⟩

/-- A step of the pass keeps a plan well-formed. -/
theorem WellFormed.dropDeadColumns (h : p.WellFormed) (hid : id ∈ p.order)
    (hq : dropDeadColumns root p id = .ok q) : q.WellFormed ∧ q.order = p.order := by
  rcases dropDeadColumns_cases h.arranged hid hq with
    rfl | ⟨j, used, kept, visits, hop, hwidth, husage, rfl, hvisits, hfold, hskeleton⟩
  · exact ⟨h, rfl⟩
  have harena := h.inArena hid
  have hr : (p.narrow id j (keptColumns j.exprs.length used)).Arranged p.order :=
    arranged_narrow harena hop h.arranged
  have hlive : ∀ v ∈ visits, v.1 ∈ p.order := fun v hv =>
    (carries_of_mem_visits hvisits v hv).mem_order hid
  have hawaiting := Result.foldlM_induct
    (motive := fun done s => Awaiting p (p.narrow id j _) (done.map Prod.fst) s) hfold
    (Awaiting.narrow h hid hop fun i => lt_of_mem_keptColumns hwidth)
    fun done v rest s t hsplit hs ht => by
      rw [map_append, map_singleton]
      exact hs.remapAt hr (hlive v (by simp [hsplit])) ht
  refine ⟨hawaiting.wellFormed hr fun x hx hvisited => ?_, hskeleton.order_eq⟩
  refine columnCount_narrow h.arranged hid hop husage x hx fun hcarries => hvisited ?_
  obtain ⟨m, hm⟩ := (hcarries.narrow harena hop).mem_visits hvisits
  exact mem_map.mpr ⟨_, hm, rfl⟩

/-- Dropping columns that nothing reads keeps a plan well-formed. -/
theorem eliminateDeadColumns_wellFormed (h : p.WellFormed)
    (hq : p.eliminateDeadColumns = .ok q) : q.WellFormed := by
  refine (Result.foldlM_keeps (motive := fun r => r.WellFormed ∧ r.order = p.order) hq ⟨h, rfl⟩
    fun id hid r s hr hs => ?_).1
  obtain ⟨hwf, horder⟩ := hr
  have hs := hwf.dropDeadColumns (horder ▸ mem_reverse.mp hid) hs
  exact ⟨hs.1, hs.2.trans horder⟩

end Plan

end QueryPlan
