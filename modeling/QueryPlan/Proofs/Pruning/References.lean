import QueryPlan.Proofs.Pruning.Mappings
/-!
# QueryPlan.Proofs.Pruning.References

**What the visits leave of references and positions.** Every node keeps its operator, and what it
refers to by a column or a position is the column that it referred to, at the place where that is
now (`Dropping.remapped`).
-/

namespace QueryPlan

open List

namespace Plan

/-- References follow the columns of the nodes visited so far, and the others are as they were. -/
structure Remapped (p r : Plan) (id : NodeId) (kept : List Nat) (visited : List NodeId)
    (s : Plan) : Prop extends SameSkeleton r s where
  op_eq : ∀ n ∈ p.order, ∃ φ ψ, s.op n = ((r.op n).mapExprs (Expr.mapColumns φ)).mapPositions ψ ∧
    (∀ c ∈ (r.op n).columns, (c.source ∉ visited → φ c = c) ∧ (c.source ∈ visited →
      (φ c).source = c.source ∧ (p.remaining id kept c.source)[(φ c).index]? = some c.index)) ∧
    (∀ y, p.inputs n = [y] → ∀ i ∈ (r.op n).positions, (y ∉ visited → ψ i = i) ∧
      (y ∈ visited → (p.remaining id kept y)[ψ i]? = some i))

variable {p q r s t : Plan} {id x n a : NodeId} {root : Option NodeId} {j : Project}
  {used kept : List Nat}

theorem Remapped.start (p r : Plan) (id : NodeId) (kept : List Nat) :
    Remapped p r id kept [] r where
  toSameSkeleton := .refl r
  op_eq n _ := by
    refine ⟨fun c => c, fun i => i, ?_, by simp, by simp⟩
    rw [Operator.mapPositions_eq_self fun _ _ => rfl]
    refine (Operator.mapExprs_id _).symm.trans (Operator.mapExprs_congr fun e _ => ?_)
    exact (Expr.mapColumns_id e).symm

/-- What a visit makes of a reference of a node. -/
def columnAfter (s : Plan) (x : NodeId) (m : ColumnMap) (n : NodeId) (c : ColumnRef) : ColumnRef :=
  Result.valueOr c (redirectColumn x x (some m) (s.standIns n x x) c)

/-- What a visit makes of a position that is looked up in the node. -/
def positionAfter (x : NodeId) (m : ColumnMap) (i : Nat) : Nat :=
  Result.valueOr i (mappedPosition x (some m) i)

theorem columnAfter_of_ne {m : ColumnMap} {c : ColumnRef} (hc : c.source ≠ x) :
    s.columnAfter x m n c = c := by
  rw [columnAfter, redirectColumn_of_ne hc]
  rfl

/-- What a visit makes of an operator that was changed before. -/
theorem op_remapAt {m : ColumnMap} {op : Operator} {φ : ColumnRef → ColumnRef} {ψ : Nat → Nat}
    (hr : Redirection s t x x (some m) s.order) (hn : n ∈ s.order)
    (hop : s.op n = (op.mapExprs (Expr.mapColumns φ)).mapPositions ψ) :
    t.op n = (op.mapExprs (Expr.mapColumns fun c => s.columnAfter x m n (φ c))).mapPositions
      fun i => if x ∈ s.inputs n then positionAfter x m (ψ i) else ψ i := by
  have hcompose : (s.op n).mapExprs (Expr.mapColumns (s.columnAfter x m n)) =
      (op.mapExprs (Expr.mapColumns fun c => s.columnAfter x m n (φ c))).mapPositions ψ := by
    rw [hop, Operator.mapExprs_mapPositions, Operator.mapExprs_mapExprs]
    exact congrArg (Operator.mapPositions ψ)
      (Operator.mapExprs_congr fun e _ => Expr.mapColumns_mapColumns φ (s.columnAfter x m n) e)
  have hnode : t.op n = if (s.inputs n).contains x && true then
      ((s.op n).mapExprs (Expr.mapColumns (s.columnAfter x m n))).mapPositions (positionAfter x m)
    else (s.op n).mapExprs (Expr.mapColumns (s.columnAfter x m n)) := by
    rw [Plan.op, hr.node_eq n hn]
    rfl
  rw [hnode, hcompose]
  by_cases hread : x ∈ s.inputs n
  · simp [hread, Operator.mapPositions_mapPositions]
  · simp [hread]

namespace Dropping

variable (d : Dropping p root id j used kept)
include d

theorem columns_narrow {c : ColumnRef} (hc : c ∈ ((p.narrow id j kept).op n).columns) :
    c ∈ (p.op n).columns := by
  by_cases hne : n = id
  · rw [hne, op_narrow_self d.inArena] at hc
    obtain ⟨e, he, hc⟩ := Operator.mem_columns.mp hc
    rw [hne, d.op_eq]
    exact Operator.mem_columns.mpr ⟨e, mem_of_filterMap_getElem? he, hc⟩
  · rwa [op_narrow_of_ne hne] at hc

/-- A node that reads a join directly refers to the inputs of the join, not to the join. -/
theorem isJoin_of_reads (hn : n ∈ p.order) {c : ColumnRef} (hc : c ∈ (p.op n).columns)
    (hread : c.source ∈ p.inputs n) (hjoin : (p.op n).isJoin = false) :
    (p.op c.source).isJoin = false := by
  obtain ⟨i, hi, -⟩ := d.wellFormed.input_of_arity_one hn (Operator.arity_of_mem_columns hc hjoin)
  rw [hi, mem_singleton] at hread
  have hlive := d.ordered.mem_of_input hn (hi ▸ mem_singleton_self i)
  have hmem := (d.wellFormed.reads_of_mem hn hc).1
  rw [reads_of_input hjoin hi, hread] at hmem
  exact hread ▸ d.wellFormed.arranged.isJoin_of_mem_exposed_self hlive hmem

/-- A reference to a node finds the column of that node at its new place. -/
theorem redirectColumn_self (hs : SameSkeleton (p.narrow id j kept) s) (hn : n ∈ p.order)
    {c e : ColumnRef} (hc : c ∈ (p.op n).columns) (hx : c.source = x) {m : ColumnMap}
    (he : redirectColumn x x (some m) (s.standIns n x x) c = .ok e) :
    e.source = x ∧ mappedPosition x (some m) c.index = .ok e.index := by
  have hjoin : ∀ y, (s.op y).isJoin = (p.op y).isJoin := fun y =>
    (hs.isJoin_eq y).trans (isJoin_narrow d.inArena d.op_eq y)
  have hstand : s.standIns n x x = ColumnRef.range x (s.columnCount x) := by
    have hcond : (if (s.inputs n).contains x && !(s.op n).isJoin then s.exposed x else [x]) =
        [x] := by
      split
      · next hdirect =>
        rw [Bool.and_eq_true, contains_iff_mem, Bool.not_eq_true', hs.inputs_eq, inputs_narrow,
          hjoin] at hdirect
        refine exposed_of_not_join ((hjoin x).trans ?_)
        exact hx ▸ d.isJoin_of_reads hn hc (hx ▸ hdirect.1) hdirect.2
      · rfl
    rw [standIns, hcond, columnsOf, flatMap_singleton]
  rw [redirectColumn, if_pos hx, hstand, Result.bind_eq_ok] at he
  obtain ⟨k, hk, he⟩ := he
  obtain ⟨-, rfl⟩ := ColumnRef.getElem?_range.mp (Result.ofOption_eq_ok.mp he)
  exact ⟨rfl, hk⟩

/-- A reference to the node of a visit follows its column. -/
theorem columnAfter_follows (hs : SameSkeleton (p.narrow id j kept) s) (hn : n ∈ p.order)
    {c : ColumnRef} (hc : c ∈ (p.op n).columns) (hx : c.source = x) {m : ColumnMap}
    (hm : m.Follows (p.remaining id kept x))
    (hfound : ∃ e, redirectColumn x x (some m) (s.standIns n x x) c = .ok e) :
    (s.columnAfter x m n c).source = x ∧
      (p.remaining id kept x)[(s.columnAfter x m n c).index]? = some c.index := by
  obtain ⟨e, he⟩ := hfound
  obtain ⟨hsource, hk⟩ := d.redirectColumn_self hs hn hc hx he
  have hvalue : s.columnAfter x m n c = e := congrArg (Result.valueOr c) he
  rw [hvalue]
  exact ⟨hsource, hm.mappedPosition hk⟩

/-- One more visit. -/
theorem remapped_step {visited : List NodeId} {m : ColumnMap}
    (h : Remapped p (p.narrow id j kept) id kept visited s) (hx : x ∈ p.order)
    (hnew : x ∉ visited) (hm : m.Follows (p.remaining id kept x))
    (ht : s.remapAt (x, m) = .ok t) :
    Remapped p (p.narrow id j kept) id kept (visited ++ [x]) t := by
  have hr : (p.narrow id j kept).Arranged p.order :=
    arranged_narrow d.inArena d.op_eq d.wellFormed.arranged
  have hs : s.Arranged s.order := h.toSameSkeleton.arranged hr
  have horder : s.order = p.order := h.order_eq
  have hredirection := remapAt_redirection hs (horder ▸ hx) ht
  have hplaced := foldlM_replaceInput_placed ht hs.nodup hs.inArena
  refine { h.toSameSkeleton.trans hredirection.sameSkeleton with op_eq := fun n hn => ?_ }
  obtain ⟨φ, ψ, hop, hcolumns, hpositions⟩ := h.op_eq n hn
  have hinputs : s.inputs n = p.inputs n := (h.inputs_eq n).trans (inputs_narrow ..)
  -- The reference or the position is to what was visited now, was visited before, or is neither.
  refine ⟨_, _, op_remapAt hredirection (horder ▸ hn) hop, fun c hc => ?_, fun y hy i hi => ?_⟩
  · obtain ⟨hout, hin⟩ := hcolumns c hc
    refine ⟨fun hnot => ?_, fun hmem => ?_⟩
    · rw [mem_append, mem_singleton, not_or] at hnot
      rw [hout hnot.1, columnAfter_of_ne hnot.2]
    · rcases mem_append.mp hmem with hmem | hmem
      · obtain ⟨hsource, hplace⟩ := hin hmem
        have hne : (φ c).source ≠ x := fun heq => hnew (heq ▸ hsource ▸ hmem)
        rw [columnAfter_of_ne hne]
        exact ⟨hsource, hplace⟩
      · have hsource := mem_singleton.mp hmem
        have hself := hout (hsource ▸ hnew)
        have hlive : c ∈ (s.op n).columns := by
          rw [hop, Operator.columns_mapPositions, Operator.columns_mapExprs]
          exact mem_map.mpr ⟨c, hc, hself⟩
        rw [hself, hsource]
        exact d.columnAfter_follows h.toSameSkeleton hn (d.columns_narrow hc) hsource hm
          (hredirection.found n (horder ▸ hn) c hlive)
  · obtain ⟨hout, hin⟩ := hpositions y hy i hi
    rw [hinputs, hy]
    refine ⟨fun hnot => ?_, fun hmem => ?_⟩
    · rw [mem_append, mem_singleton, not_or] at hnot
      rw [if_neg (by simpa using Ne.symm hnot.2), hout hnot.1]
    · rcases mem_append.mp hmem with hmem | hmem
      · rw [if_neg (by rw [mem_singleton]; rintro rfl; exact hnew hmem)]
        exact hin hmem
      · obtain rfl := mem_singleton.mp hmem
        have hself := hout hnew
        have hposition : i ∈ (s.op n).positions := by
          rw [hop, Operator.positions_mapPositions, Operator.positions_mapExprs]
          exact mem_map.mpr ⟨i, hi, hself⟩
        obtain ⟨k, hk⟩ := hplaced n (horder ▸ hn) (by rw [hinputs, hy]; exact mem_singleton_self y)
          rfl i hposition
        have hvalue : positionAfter y m i = k := congrArg (Result.valueOr i) hk
        rw [if_pos (mem_singleton_self y), hself, hvalue]
        exact hm.mappedPosition hk

/-- A visit is the first one to its node, which carries the columns, and its mapping says where the
columns are that remain. -/
theorem next_visit {visits done rest : List (NodeId × ColumnMap)} {m : ColumnMap}
    (hvisits : (p.narrow id j kept).visitsWithin ((p.narrow id j kept).walkBound + 1) id
      (ColumnMap.ofKept kept) j.exprs.length = .ok visits)
    (hsplit : visits = done ++ (x, m) :: rest) :
    p.Carries id x ∧ x ∉ done.map Prod.fst ∧ m.Follows (p.remaining id kept x) := by
  rw [← d.columnCount_self] at hvisits
  have hmem : (x, m) ∈ visits := by simp [hsplit]
  have hnodup := d.nodup_visits (.refl id) hvisits
  rw [hsplit, map_append, map_cons] at hnodup
  refine ⟨d.carries_of_mem_narrow hvisits _ hmem, fun hdone => ?_, ?_⟩
  · exact (nodup_append.mp hnodup).2.2 x hdone x mem_cons_self rfl
  · exact d.follows_of_mem_visits (.refl id)
      (d.remaining_self.symm ▸ ColumnMap.follows_ofKept kept) hvisits _ hmem

/-- After all visits every reference follows its column. -/
theorem remapped {visits : List (NodeId × ColumnMap)}
    (hvisits : (p.narrow id j kept).visitsWithin ((p.narrow id j kept).walkBound + 1) id
      (ColumnMap.ofKept kept) j.exprs.length = .ok visits)
    (hfold : visits.foldlM remapAt (p.narrow id j kept) = .ok q) :
    Remapped p (p.narrow id j kept) id kept (visits.map Prod.fst) q := by
  refine Result.foldlM_induct (motive := fun done s =>
    Remapped p (p.narrow id j kept) id kept (done.map Prod.fst) s) hfold (.start ..) ?_
  rintro done ⟨x, m⟩ rest s t hsplit hs ht
  obtain ⟨hcarries, hnew, hm⟩ := d.next_visit hvisits hsplit
  rw [map_append, map_singleton]
  exact d.remapped_step hs (hcarries.mem_order d.live) hnew hm ht

end Dropping

/-- The columns that nothing reads are dropped, and references and positions follow those that
remain. -/
structure Dropped (p q : Plan) (root : Option NodeId) (id : NodeId) (j : Project)
    (used kept : List Nat) : Prop extends Dropping p root id j used kept where
  skeleton : SameSkeleton (p.narrow id j kept) q
  op_moved : ∀ n ∈ p.order, ∃ φ ψ,
    q.op n = (((p.narrow id j kept).op n).mapExprs (Expr.mapColumns φ)).mapPositions ψ ∧
    (∀ c ∈ ((p.narrow id j kept).op n).columns, (φ c).source = c.source ∧
      (p.remaining id kept c.source)[(φ c).index]? = some c.index) ∧
    (∀ y, p.inputs n = [y] → ∀ i ∈ ((p.narrow id j kept).op n).positions,
      (¬p.Carries id y → ψ i = i) ∧
      (p.Carries id y → (p.remaining id kept y)[ψ i]? = some i))

theorem Dropping.dropped (d : Dropping p root id j used kept)
    {visits : List (NodeId × ColumnMap)}
    (hvisits : (p.narrow id j kept).visitsWithin ((p.narrow id j kept).walkBound + 1) id
      (ColumnMap.ofKept kept) j.exprs.length = .ok visits)
    (hfold : visits.foldlM remapAt (p.narrow id j kept) = .ok q) :
    Dropped p q root id j used kept := by
  have h := d.remapped hvisits hfold
  have hvisited : ∀ x, x ∈ visits.map Prod.fst ↔ p.Carries id x := by
    intro x
    constructor
    · intro hx
      obtain ⟨v, hv, rfl⟩ := mem_map.mp hx
      exact d.carries_of_mem_narrow hvisits v hv
    · intro hx
      obtain ⟨m, hm⟩ := (hx.narrow d.inArena d.op_eq).mem_visits hvisits
      exact mem_map.mpr ⟨_, hm, rfl⟩
  refine { d with skeleton := h.toSameSkeleton, op_moved := fun n hn => ?_ }
  obtain ⟨φ, ψ, hop, hcolumns, hpositions⟩ := h.op_eq n hn
  simp only [hvisited] at hcolumns hpositions
  refine ⟨φ, ψ, hop, fun c hc => ?_, hpositions⟩
  by_cases hcarries : p.Carries id c.source
  · exact (hcolumns c hc).2 hcarries
  -- All columns remain of a node that was not visited.
  obtain ⟨hread, hlt⟩ := d.wellFormed.reads_of_mem hn (d.columns_narrow hc)
  have hlive := d.wellFormed.arranged.reads_subset hn hread
  rw [(hcolumns c hc).1 hcarries, d.remaining_of_not_carries _ hlive hcarries]
  exact ⟨rfl, getElem?_range hlt⟩

namespace Dropped

variable (f : Dropped p q root id j used kept)
include f

theorem columnCount_eq (hx : x ∈ p.order) :
    q.columnCount x = (p.remaining id kept x).length := by
  rw [f.skeleton.columnCount_eq, f.columnCount_narrow x hx]

theorem inputs_eq (x : NodeId) : q.inputs x = p.inputs x :=
  (f.skeleton.inputs_eq x).trans (inputs_narrow ..)

theorem reads_eq (x : NodeId) : q.reads x = p.reads x :=
  (f.skeleton.reads_eq x).trans (reads_narrow f.inArena f.op_eq x)

theorem ordered_result : q.Ordered p.order :=
  f.ordered.congr (by rw [f.skeleton.size_eq]; simp [narrow]) fun x _ => f.inputs_eq x

/-- Among the columns of some nodes, a column that remains stands where its position does. -/
theorem getElem?_remainingOf {ids : List NodeId} (hids : ∀ i ∈ ids, i ∈ p.order) {c e : ColumnRef}
    (hc : c.source ∈ ids) (hsource : e.source = c.source)
    (he : (p.remaining id kept c.source)[e.index]? = some c.index) :
    (p.remainingOf id kept ids)[(q.columnsOf ids).idxOf e]? = some ((p.columnsOf ids).idxOf c) := by
  induction ids with
  | nil => cases hc
  | cons i rest ih =>
      obtain ⟨hi, hrest⟩ := forall_mem_cons.mp hids
      obtain ⟨source, index⟩ := c
      obtain ⟨source', place⟩ := e
      obtain rfl : source' = source := hsource
      have hplace : place < (p.remaining id kept source').length :=
        (List.getElem?_eq_some_iff.mp he).1
      rw [remainingOf_cons]
      by_cases hhead : source' = i
      · subst hhead
        have hindex : index < p.columnCount source' := mem_range.mp
          ((f.remaining_sublist source' hi).subset (mem_of_getElem? he))
        rw [idxOf_columnsOf_cons (f.columnCount_eq hi ▸ hplace), idxOf_columnsOf_cons hindex,
          getElem?_append_left hplace]
        exact he
      · have htail : source' ∈ rest := (mem_cons.mp hc).resolve_left hhead
        have hnotin : ∀ (r : Plan) k, (⟨source', k⟩ : ColumnRef) ∉
            ColumnRef.range i (r.columnCount i) :=
          fun r k hmem => hhead (ColumnRef.mem_range.mp hmem).1
        rw [columnsOf_cons, columnsOf_cons, idxOf_append_of_notMem (hnotin q place),
          idxOf_append_of_notMem (hnotin p index), ColumnRef.length_range, ColumnRef.length_range,
          f.columnCount_eq hi, getElem?_append_right (Nat.le_add_right _ _),
          Nat.add_sub_cancel_left, getElem?_map, ih hrest htail]
        rfl

end Dropped

/-! ### Columns that come along one way -/

/-- The projections whose columns a node carries. -/
def carriedProjections (p : Plan) : NodeId → List NodeId :=
  p.fold [] fun x parts =>
    match p.op x with
    | .project _ => [x]
    | .filter _ | .sort _ | .join _ => parts.flatten
    | _ => []

/-- No filter, sort or join carries the columns of one projection along two ways. -/
def CarriesOnce (p : Plan) : Prop :=
  ∀ n ∈ p.order, (p.op n).carries = true → ∀ a ∈ p.inputs n, ∀ b ∈ p.inputs n, a ≠ b →
    ∀ id ∈ p.carriedProjections a, id ∉ p.carriedProjections b

instance (p : Plan) : Decidable p.CarriesOnce :=
  inferInstanceAs (Decidable (∀ n ∈ p.order, (p.op n).carries = true → ∀ a ∈ p.inputs n,
    ∀ b ∈ p.inputs n, a ≠ b → ∀ id ∈ p.carriedProjections a, id ∉ p.carriedProjections b))

theorem Ordered.mem_carriedProjections (h : p.Ordered p.order) : ∀ x ∈ p.order,
    (id ∈ p.carriedProjections x ↔ (∃ j, p.op id = .project j) ∧ p.Carries id x) := by
  refine h.induction fun x hx ih => ?_
  have hlast : p.Carries id x → x = id ∨ (p.op x).carries = true := by
    intro hcarries
    rcases hcarries.last with hx | ⟨_, _, _, hop⟩
    · exact .inl hx
    · exact .inr hop
  have hparts : (p.op x).carries = true →
      (id ∈ (p.inputs x).flatMap p.carriedProjections ↔
        (∃ j, p.op id = .project j) ∧ p.Carries id x) := by
    intro hop
    rw [mem_flatMap]
    constructor
    · rintro ⟨i, hi, hmem⟩
      obtain ⟨hproject, hcarries⟩ := (ih i hi).mp hmem
      exact ⟨hproject, hcarries.step (mem_consumers.mpr ⟨hx, hi⟩) hop⟩
    · rintro ⟨⟨j, hproject⟩, hcarries⟩
      rcases hcarries.last with rfl | ⟨b, hb, hread, -⟩
      · rw [hproject] at hop
        cases hop
      · obtain ⟨-, hread⟩ := mem_consumers.mp hread
        exact ⟨b, hread, (ih b hread).mpr ⟨⟨j, hproject⟩, hb⟩⟩
  rw [carriedProjections, h.fold_eq hx]
  cases hop : p.op x with
  | filter _ | sort _ | join _ => exact hparts (by rw [hop]; rfl)
  | project j =>
      rw [mem_singleton]
      constructor
      · rintro rfl
        exact ⟨⟨j, hop⟩, .refl id⟩
      · exact fun h => ((hlast h.2).resolve_right (by rw [hop]; simp [Operator.carries])).symm
  | _ =>
      refine iff_of_false not_mem_nil ?_
      rintro ⟨⟨j, hproject⟩, hcarries⟩
      obtain rfl := (hlast hcarries).resolve_right (by rw [hop]; simp [Operator.carries])
      rw [hop] at hproject
      cases hproject

/-- Dropping columns leaves alone which nodes carry the columns of which. -/
theorem Dropped.carriesOnce (f : Dropped p q root id j used kept) (h : p.CarriesOnce) :
    q.CarriesOnce := by
  have hsame : ∀ x ∈ p.order, q.carriedProjections x = p.carriedProjections x := by
    refine f.ordered_result.fold_unique fun x hx => ?_
    rw [carriedProjections, f.ordered.fold_eq hx, f.inputs_eq]
    obtain ⟨φ, ψ, hop, -⟩ := f.op_moved x hx
    by_cases hne : x = id
    · rw [hop, hne, op_narrow_self f.inArena, f.op_eq]
      rfl
    · rw [hop, op_narrow_of_ne hne]
      cases p.op x <;> rfl
  have horder : q.order = p.order := f.skeleton.order_eq
  intro n hn hop a ha b hb hne x hxa hxb
  rw [horder] at hn
  rw [f.skeleton.carries_eq, carries_narrow f.inArena f.op_eq] at hop
  rw [f.inputs_eq] at ha hb
  rw [hsame a (f.ordered.mem_of_input hn ha)] at hxa
  rw [hsame b (f.ordered.mem_of_input hn hb)] at hxb
  exact h n hn hop a ha b hb hne x hxa hxb

/-- If the columns of a projection that are read are known, it may drop the others. -/
theorem Dropping.of_carriesOnce (h : p.WellFormed) (honce : p.CarriesOnce) (hid : id ∈ p.order)
    (hop : p.op id = .project j) (hwidth : 0 < j.exprs.length)
    (husage : p.usage root id = .ok (some used)) :
    Dropping p root id j used (keptColumns j.exprs.length used) where
  wellFormed := h
  live := hid
  op_eq := hop
  width_pos := hwidth
  usage_eq := husage
  kept_eq := rfl
  apart n hn hcarries a ha b hb hida hidb := by
    have hcarried : ∀ x ∈ p.order, p.Carries id x → id ∈ p.carriedProjections x :=
      fun x hx hcarries =>
        (h.arranged.toOrdered.mem_carriedProjections x hx).mpr ⟨⟨j, hop⟩, hcarries⟩
    by_contra hne
    exact honce n hn hcarries a ha b hb hne id
      (hcarried a (h.arranged.mem_of_input hn ha) hida)
      (hcarried b (h.arranged.mem_of_input hn hb) hidb)

/-- One step of the pass drops columns of a projection that are not read, or nothing. -/
theorem dropDeadColumns_dropped (h : p.WellFormed) (honce : p.CarriesOnce) (hid : id ∈ p.order)
    (hq : dropDeadColumns root p id = .ok q) :
    q = p ∨ ∃ j used kept, Dropped p q root id j used kept := by
  rcases dropDeadColumns_cases h.arranged hid hq with
    rfl | ⟨j, used, kept, visits, hop, hwidth, husage, rfl, hvisits, hfold, -⟩
  · exact .inl rfl
  · exact .inr ⟨j, used, _,
      (Dropping.of_carriesOnce h honce hid hop hwidth husage).dropped hvisits hfold⟩

end Plan

end QueryPlan
