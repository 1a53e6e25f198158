import QueryPlan.Proofs.Pruning.References
import QueryPlan.Proofs.Scope.Pruning
import QueryPlan.Proofs.Success.Lookups
/-!
# QueryPlan.Proofs.Success.Pruning

**Dropping columns refuses no readable plan in which columns come along one way.** What is read of a
node that carries the columns of the narrowed projection remains, be it read by a reference or looked
up by its position, so the mapping of the visit to the node has a place for it
(`Dropping.remapAt_ok`).
-/

namespace QueryPlan

open List

/-- The columns in front of one by which an operator groups are grouped by, too. -/
theorem Operator.groupKeys_down {op : Operator} {i k : Nat} (hk : k ∈ op.groupKeys) (hi : i ≤ k) :
    i ∈ op.groupKeys := by
  cases op with
  | aggregate a => exact mem_range.mpr (Nat.lt_of_le_of_lt hi (mem_range.mp hk))
  | _ => exact absurd hk not_mem_nil

namespace Plan

variable {p q s : Plan} {id n x a : NodeId} {root : Option NodeId} {j : Project}
  {used kept : List Nat}

/-! ### Columns that are read -/

theorem gatherUsage_ok {usage : NodeId → Result (Option (List Nat))} {readers : List NodeId}
    (h : ∀ n ∈ readers, ∃ o, usage n = .ok o) : ∃ o, gatherUsage usage readers = .ok o := by
  induction readers with
  | nil => exact ⟨_, rfl⟩
  | cons n rest ih =>
      obtain ⟨o, ho⟩ := h n mem_cons_self
      obtain ⟨others, hothers⟩ := ih fun n hn => h n (mem_cons_of_mem _ hn)
      rw [gatherUsage, Result.bind_ok ho]
      cases o with
      | none => exact ⟨_, rfl⟩
      | some u => exact ⟨_, Result.bind_ok hothers⟩

theorem Arranged.columnsOfInput_ok {ids l : List NodeId} (h : p.Arranged l)
    (hids : ∀ i ∈ ids, i ∈ l) (id : NodeId) (joined : List Nat) (offset : Nat) :
    ∃ columns, p.columnsOfInput id joined ids offset = .ok columns := by
  induction ids generalizing offset with
  | nil => exact ⟨_, rfl⟩
  | cons i rest ih =>
      obtain ⟨hi, hrest⟩ := forall_mem_cons.mp hids
      rw [columnsOfInput, Result.bind_ok (h.width_eq hi)]
      split
      · exact ⟨_, rfl⟩
      · exact ih hrest _

/-- Which columns of a node are read can be told. -/
theorem Arranged.usageWithin_ok (h : p.Arranged p.order) (root : Option NodeId) (fuel : Nat)
    (id : NodeId) : ∃ o, p.usageWithin root fuel id = .ok o := by
  induction fuel generalizing id with
  | zero => exact ⟨_, rfl⟩
  | succ fuel ih =>
      rw [usageWithin]
      split
      · exact ⟨_, rfl⟩
      refine Result.exists_bind (gatherUsage_ok fun n hn => ?_) fun _ _ => ⟨_, rfl⟩
      cases p.op n with
      | filter f => exact ih n
      | sort s => exact Result.exists_bind (ih n) fun _ _ => ⟨_, rfl⟩
      | join k =>
          dsimp only
          split
          · exact ⟨_, rfl⟩
          refine Result.exists_bind (ih n) fun o _ => ?_
          cases o with
          | none => exact ⟨_, rfl⟩
          | some joined =>
              have hcolumns := h.columnsOfInput_ok
                (fun i hi => h.mem_of_input (mem_consumers.mp hn).1 hi) id joined 0
              exact Result.exists_bind hcolumns fun _ _ => ⟨_, rfl⟩
      | _ => exact ⟨_, rfl⟩

namespace Dropping

variable (d : Dropping p root id j used kept)
include d

/-- A column to which an expression refers remains. -/
theorem mem_remaining_of_column (ha : p.Carries id a) (hn : n ∈ p.order) {c : ColumnRef}
    (hc : c ∈ (p.op n).columns) (hsource : c.source = a) : c.index ∈ p.remaining id kept a := by
  obtain ⟨fuel, u, hu, hmem⟩ := d.known ha
  obtain ⟨k, rfl, husage⟩ := usageWithin_eq_some hu
  refine hmem _ (husage.referenced ?_) (hsource ▸ (d.wellFormed.reads_of_mem hn hc).2)
  exact mem_flatMap.mpr ⟨n, hn, mem_filterMap.mpr ⟨c, hc, if_pos hsource⟩⟩

/-- A position that is looked up remains. -/
theorem mem_remaining_of_lookup (hlookups : p.LookupsInRange) (ha : p.Carries id a)
    (hn : n ∈ p.order) (hread : a ∈ p.inputs n) {i : Nat} (hi : i ∈ (p.op n).lookups) :
    i ∈ p.remaining id kept a := by
  obtain ⟨fuel, u, hu, hmem⟩ := d.known ha
  obtain ⟨k, rfl, husage⟩ := usageWithin_eq_some hu
  exact hmem i (husage.lookups n (mem_consumers.mpr ⟨hn, hread⟩) hi) (hlookups n hn a hread i hi)

section

variable {visited : List NodeId} {m : ColumnMap}
  (h : Remapped p (p.narrow id j kept) id kept visited s) (hx : p.Carries id x) (hnew : x ∉ visited)
  (hm : m.Follows (p.remaining id kept x))
include h hx hnew hm

/-- The mapping of a visit has a place for each column to which an expression refers. -/
theorem mappedPosition_of_column (hn : n ∈ p.order) {c : ColumnRef} (hc : c ∈ (s.op n).columns)
    (hsource : c.source = x) :
    ∃ i, mappedPosition x (some m) c.index = .ok i ∧ i < (p.remaining id kept x).length := by
  obtain ⟨φ, ψ, hop, hcolumns, -⟩ := h.op_eq n hn
  rw [hop, Operator.columns_mapPositions, Operator.columns_mapExprs] at hc
  obtain ⟨e, he, rfl⟩ := mem_map.mp hc
  obtain ⟨hout, hin⟩ := hcolumns e he
  -- What was visited is another node, so the reference is as it was before the visits.
  have hvisited : e.source ∉ visited := fun hvisited => by
    obtain ⟨hsame, -⟩ := hin hvisited
    rw [← hsame, hsource] at hvisited
    exact hnew hvisited
  rw [hout hvisited] at hsource ⊢
  exact hm.mappedPosition_ok x (d.mem_remaining_of_column hx hn (d.columns_narrow he) hsource)

/-- The mapping of a visit has a place for each position that is looked up. -/
theorem mappedPosition_of_position (hlookups : p.LookupsInRange) (hn : n ∈ p.order)
    (hread : x ∈ p.inputs n) {i : Nat} (hi : i ∈ (s.op n).positions) :
    ∃ k, mappedPosition x (some m) i = .ok k := by
  obtain ⟨φ, ψ, hop, -, hpositions⟩ := h.op_eq n hn
  rw [hop, Operator.positions_mapPositions, Operator.positions_mapExprs] at hi
  obtain ⟨place, hplace, rfl⟩ := mem_map.mp hi
  have hne : n ≠ id := by
    rintro rfl
    rw [op_narrow_self d.inArena] at hplace
    exact not_mem_nil hplace
  have hold : place ∈ (p.op n).positions := by rwa [op_narrow_of_ne hne] at hplace
  obtain ⟨y, hy, -⟩ := d.wellFormed.input_of_arity_one hn (Operator.arity_of_mem_positions hold)
  obtain rfl : x = y := by simpa [hy] using hread
  rw [(hpositions x hy place hplace).1 hnew]
  obtain ⟨k, hk, -⟩ := hm.mappedPosition_ok x
    (d.mem_remaining_of_lookup hlookups hx hn hread (mem_append_right _ hold))
  exact ⟨k, hk⟩

/-- What reads a node that carries the columns can follow them. -/
theorem remapAt_ok (hlookups : p.LookupsInRange) : ∃ t, s.remapAt (x, m) = .ok t := by
  have hs : s.Arranged s.order := h.toSameSkeleton.arranged
    (arranged_narrow d.inArena d.op_eq d.wellFormed.arranged)
  have horder : s.order = p.order := h.order_eq
  have hlive : x ∈ p.order := hx.mem_order d.live
  have hloop : ∃ t, s.remapAt (x, m) = .ok t ∧ Redirection s t x x (some m) s.order := by
    refine foldlM_replaceInput_ok hs.nodup hs.inArena (hs.steady_self (horder ▸ hlive))
      (fun n hn c hc hsource => ?_) fun n hn hread _ i hi => ?_
    · rw [h.columnCount_eq, d.columnCount_narrow x hlive]
      exact d.mappedPosition_of_column h hx hnew hm (horder ▸ hn) hc hsource
    · rw [h.inputs_eq, inputs_narrow] at hread
      exact d.mappedPosition_of_position h hx hnew hm hlookups (horder ▸ hn) hread hi
  exact hloop.imp fun t h => h.1

end

/-- All visits are made. -/
theorem visits_ok (hlookups : p.LookupsInRange) {visits : List (NodeId × ColumnMap)}
    (hvisits : (p.narrow id j kept).visitsWithin ((p.narrow id j kept).walkBound + 1) id
      (ColumnMap.ofKept kept) j.exprs.length = .ok visits) :
    ∃ q, visits.foldlM remapAt (p.narrow id j kept) = .ok q := by
  suffices hloop : ∃ q, visits.foldlM remapAt (p.narrow id j kept) = .ok q ∧
      Remapped p (p.narrow id j kept) id kept (visits.map Prod.fst) q from
    hloop.imp fun _ => And.left
  refine Result.foldlM_ok (motive := fun done s =>
    Remapped p (p.narrow id j kept) id kept (done.map Prod.fst) s) (.start ..) ?_
  rintro done ⟨x, m⟩ rest s hsplit hs
  obtain ⟨hcarries, hnew, hm⟩ := d.next_visit hvisits hsplit
  obtain ⟨t, ht⟩ := d.remapAt_ok hs hcarries hnew hm hlookups
  rw [map_append, map_singleton]
  exact ⟨t, ht, d.remapped_step hs (hcarries.mem_order d.live) hnew hm ht⟩

end Dropping

/-- What is looked up is where the column is that was looked up before. -/
theorem Dropped.lookupsInRange (f : Dropped p q root id j used kept)
    (hlookups : p.LookupsInRange) : q.LookupsInRange := by
  intro x hx y hread k hk
  have hlive : x ∈ p.order := f.skeleton.order_eq ▸ hx
  rw [f.inputs_eq] at hread
  have hy : y ∈ p.order := f.ordered.mem_of_input hlive hread
  rw [f.columnCount_eq hy]
  obtain ⟨φ, ψ, hop, -, hpositions⟩ := f.op_moved x hlive
  have hne : x ≠ id := by
    rintro rfl
    rw [hop, op_narrow_self f.inArena] at hk
    exact not_mem_nil hk
  rw [op_narrow_of_ne hne] at hop hpositions
  have hfound : ∀ i ∈ (p.op x).lookups, i ∈ p.remaining id kept y := fun i hi => by
    by_cases hcarries : p.Carries id y
    · exact f.mem_remaining_of_lookup hlookups hcarries hlive hread hi
    · rw [f.remaining_of_not_carries y hy hcarries]
      exact mem_range.mpr (hlookups x hlive y hread i hi)
  rw [hop, Operator.lookups, Operator.groupKeys_mapPositions, Operator.groupKeys_mapExprs,
    Operator.positions_mapPositions, Operator.positions_mapExprs] at hk
  rcases mem_append.mp hk with hk | hk
  · -- The keys in front of a key remain as well, so all of them are where they were.
    have hfront : range (k + 1) ⊆ p.remaining id kept y := fun i hi =>
      hfound i (mem_append_left _ (Operator.groupKeys_down hk (Nat.le_of_lt_succ (mem_range.mp hi))))
    exact (List.getElem?_eq_some_iff.mp
      (getElem?_of_range_subset (f.remaining_sublist y hy) hfront k.lt_succ_self)).1
  · obtain ⟨i, hi, rfl⟩ := mem_map.mp hk
    obtain ⟨z, hz, -⟩ := f.wellFormed.input_of_arity_one hlive (Operator.arity_of_mem_positions hi)
    obtain rfl : y = z := by simpa [hz] using hread
    obtain ⟨hstays, hmoves⟩ := hpositions y hz i hi
    by_cases hcarries : p.Carries id y
    · exact (List.getElem?_eq_some_iff.mp (hmoves hcarries)).1
    · rw [hstays hcarries, f.remaining_of_not_carries y hy hcarries, length_range]
      exact hlookups x hlive y hread i (mem_append_right _ hi)

theorem dropDeadColumns_ok (root : Option NodeId) (h : p.Readable) (honce : p.CarriesOnce)
    (hid : id ∈ p.order) : ∃ q, dropDeadColumns root p id = .ok q ∧
      (q.Readable ∧ q.CarriesOnce) ∧ q.order = p.order := by
  have hrun : ∃ q, dropDeadColumns root p id = .ok q := by
    unfold dropDeadColumns
    cases hop : p.op id with
    | project j =>
        dsimp only
        split
        · exact ⟨_, rfl⟩
        next hcond =>
        have hwidth : 0 < j.exprs.length := by
          rw [Bool.or_eq_true, not_or, beq_iff_eq] at hcond
          exact Nat.pos_of_ne_zero hcond.2
        refine Result.exists_bind (h.arranged.usageWithin_ok root p.walkBound id) fun o husage => ?_
        cases o with
        | none => exact ⟨_, rfl⟩
        | some used =>
            dsimp only
            split
            · exact ⟨_, rfl⟩
            have d := Dropping.of_carriesOnce h.toWellFormed honce hid hop hwidth husage
            obtain ⟨visits, hvisits, hremap⟩ := (arranged_narrow d.inArena hop h.arranged
              |>.remapColumns_eq hid (ColumnMap.ofKept _) j.exprs.length)
            obtain ⟨q, hq⟩ := d.visits_ok h.lookups hvisits
            exact ⟨q, hremap.trans hq⟩
    | _ => exact ⟨_, rfl⟩
  obtain ⟨q, hq⟩ := hrun
  obtain ⟨hwf, horder⟩ := h.toWellFormed.dropDeadColumns hid hq
  refine ⟨q, hq, ?_, horder⟩
  rcases dropDeadColumns_dropped h.toWellFormed honce hid hq with rfl | ⟨j, used, kept, f⟩
  · exact ⟨h, honce⟩
  · exact ⟨⟨hwf, f.lookupsInRange h.lookups⟩, f.carriesOnce honce⟩

theorem eliminateDeadColumns_ok (h : p.Readable) (honce : p.CarriesOnce) :
    ∃ q, p.eliminateDeadColumns = .ok q ∧ q.Readable := by
  have hloop : ∃ q, p.eliminateDeadColumns = .ok q ∧
      (q.Readable ∧ q.CarriesOnce) ∧ q.order = p.order := by
    refine Result.foldlM_ok
      (motive := fun _ (r : Plan) => (r.Readable ∧ r.CarriesOnce) ∧ r.order = p.order)
      ⟨⟨h, honce⟩, rfl⟩ fun done id rest r hsplit ⟨⟨hr, honce⟩, horder⟩ => ?_
    have hid : id ∈ r.order := by
      rw [horder, ← mem_reverse, hsplit]
      simp
    obtain ⟨q, hq, hkept, hsame⟩ := dropDeadColumns_ok p.root? hr honce hid
    exact ⟨q, hq, hkept, hsame.trans horder⟩
  exact hloop.imp fun q h => ⟨h.1, h.2.1.1⟩

end Plan

end QueryPlan
