import QueryPlan.Proofs.Pruning.Remaining
/-!
# QueryPlan.Proofs.Pruning.Mappings

**The mappings of the visits.** If no node carries the columns of the narrowed projection along two
ways, every node that carries them is visited once (`Dropping.nodup_visits`), and the mapping of its
visit says where the columns are that remain (`Dropping.follows_of_mem_visits`).
-/

namespace QueryPlan

open List

namespace ColumnMap

/-- A part of a mapping, behind columns of an old and of a new node: it says where the positions of a
list stand in it. -/
def Placed (m : ColumnMap) (old new : Nat) (places : List Nat) : Prop :=
  ∀ move, move ∈ m ↔ ∃ i k, move = (old + i, new + k) ∧ places[k]? = some i

variable {m m' : ColumnMap} {old new width : Nat} {places rest : List Nat}

theorem placed_nil (old new : Nat) : Placed [] old new [] := fun _ => by simp

theorem placed_shift (h : m.Follows places) (old new : Nat) :
    (m.shift old new).Placed old new places := by
  intro move
  rw [shift, mem_map]
  constructor
  · rintro ⟨⟨i, k⟩, hik, rfl⟩
    exact ⟨i, k, rfl, (h (i, k)).mp hik⟩
  · rintro ⟨i, k, rfl, hk⟩
    exact ⟨(i, k), (h (i, k)).mpr hk, rfl⟩

theorem placed_block (width old new : Nat) : (block width old new).Placed old new (range width) := by
  intro move
  rw [block, mem_map]
  constructor
  · rintro ⟨i, hi, rfl⟩
    exact ⟨i, i, rfl, getElem?_range (mem_range.mp hi)⟩
  · rintro ⟨i, k, rfl, hk⟩
    obtain ⟨hlt, rfl⟩ := List.getElem?_eq_some_iff.mp hk
    rw [getElem_range]
    exact ⟨k, mem_range.mpr (by simpa using hlt), rfl⟩

/-- A part with the next one behind it. -/
theorem Placed.append (h : m.Placed old new places)
    (hrest : m'.Placed (old + width) (new + places.length) rest) :
    Placed (m ++ m') old new (places ++ rest.map (width + ·)) := by
  intro move
  rw [mem_append, h, hrest]
  constructor
  · rintro (⟨i, k, rfl, hk⟩ | ⟨i, k, rfl, hk⟩)
    · refine ⟨i, k, rfl, ?_⟩
      rw [getElem?_append_left (List.getElem?_eq_some_iff.mp hk).1, hk]
    · refine ⟨width + i, places.length + k, by rw [Nat.add_assoc, Nat.add_assoc], ?_⟩
      rw [getElem?_append_right (Nat.le_add_right _ _), Nat.add_sub_cancel_left, getElem?_map, hk]
      rfl
  · rintro ⟨i, k, rfl, hk⟩
    rcases Nat.lt_or_ge k places.length with hlt | hge
    · rw [getElem?_append_left hlt] at hk
      exact .inl ⟨i, k, rfl, hk⟩
    · obtain ⟨k, rfl⟩ := Nat.exists_eq_add_of_le hge
      rw [getElem?_append_right (Nat.le_add_right _ _), Nat.add_sub_cancel_left,
        getElem?_map] at hk
      obtain ⟨i, hi, rfl⟩ := Option.map_eq_some_iff.mp hk
      exact .inr ⟨i, k, by rw [Nat.add_assoc, Nat.add_assoc], hi⟩

/-- A part with nothing in front of it is a mapping by itself. -/
theorem Placed.follows (h : m.Placed 0 0 places) : m.Follows places := by
  intro move
  rw [h]
  simp only [Nat.zero_add]
  exact ⟨by rintro ⟨i, k, rfl, hk⟩; exact hk, fun hk => ⟨_, _, rfl, hk⟩⟩

end ColumnMap

namespace Plan

variable {p : Plan} {id x n a : NodeId} {root : Option NodeId} {j : Project} {used kept : List Nat}

/-- Induction over what carries the columns of a node, one more node at a time. -/
theorem Carries.induction_last {motive : NodeId → Prop} (h : p.Carries a x) (refl : motive a)
    (step : ∀ b n, p.Carries a b → motive b → n ∈ p.consumers b → (p.op n).carries = true →
      motive n) : motive x := by
  induction h with
  | refl a => exact refl
  | up hn hop _ ih =>
      exact ih (step _ _ (.refl _) refl hn hop) fun b n hb => step b n (.up hn hop hb)

theorem Carries.last (h : p.Carries a x) :
    x = a ∨ ∃ b, p.Carries a b ∧ x ∈ p.consumers b ∧ (p.op x).carries = true :=
  h.induction_last (motive := fun x => x = a ∨
    ∃ b, p.Carries a b ∧ x ∈ p.consumers b ∧ (p.op x).carries = true)
    (.inl rfl) fun b _ hb _ hn hop => .inr ⟨b, hb, hn, hop⟩

/-- A node that reads none that carries the columns of another one does not carry them itself. -/
theorem not_carries_of_inputs (hne : x ≠ a) (h : ∀ i ∈ p.inputs x, ¬p.Carries a i) :
    ¬p.Carries a x := by
  intro hcarries
  obtain ⟨b, hb, hx, -⟩ := hcarries.last.resolve_left hne
  exact h b (mem_consumers.mp hx).2 hb

theorem Carries.trans {b : NodeId} (hab : p.Carries a b) (hb : p.Carries b x) : p.Carries a x :=
  hb.induction_last hab fun _ _ _ h hn hop => h.step hn hop

/-- A node does not carry the columns of its readers. -/
theorem Ordered.not_carries_back (h : p.Ordered p.order)
    (hn : n ∈ p.consumers a) : ¬p.Carries n a := by
  obtain ⟨hlive, hread⟩ := mem_consumers.mp hn
  have hbefore := h.before n hlive a hread
  intro hback
  rcases hback.eq_or_before h with rfl | hafter
  · exact ne_of_pair h.nodup hbefore rfl
  · exact not_pair_swap h.nodup hbefore hafter

namespace Dropping

variable (d : Dropping p root id j used kept)
include d

/-- A node that carries the columns reads one node that does. -/
theorem input_unique {a b : NodeId} (ha : p.Carries id a) (hb : p.Carries id b)
    (hna : n ∈ p.consumers a) (hnb : n ∈ p.consumers b) (hop : (p.op n).carries = true) : a = b := by
  obtain ⟨hlive, hread⟩ := mem_consumers.mp hnb
  exact d.apart n hlive hop a (mem_consumers.mp hna).2 b hread ha hb

/-- Of two nodes whose columns reach a third one, one carries those of the other. -/
theorem comparable {a b : NodeId} (ha : p.Carries id a) (hb : p.Carries id b)
    (hax : p.Carries a x) (hbx : p.Carries b x) : p.Carries a b ∨ p.Carries b a := by
  refine hax.induction_last (motive := fun x => p.Carries b x → p.Carries a b ∨ p.Carries b a)
    .inr (fun c n hac ih hn hop hbn => ?_) hbx
  rcases hbn.last with rfl | ⟨e, hbe, hne, -⟩
  · exact .inl (hac.step hn hop)
  · rw [← d.input_unique (ha.trans hac) (hb.trans hbe) hn hne hop] at hbe
    exact ih hbe

/-- A reader of a node does not carry the columns of another reader. -/
theorem eq_of_carries {m : NodeId} (ha : p.Carries id a) (hn : n ∈ p.consumers a)
    (hm : m ∈ p.consumers a) (hop : (p.op n).carries = true) (hnm : p.Carries n m) : n = m := by
  rcases hnm.last with rfl | ⟨e, hne, hme, hopm⟩
  · rfl
  rw [← d.input_unique ha ((ha.step hn hop).trans hne) hm hme hopm] at hne
  exact absurd hne (d.ordered.not_carries_back hn)

/-- Different readers of a node carry its columns to different nodes. -/
theorem reader_unique {m : NodeId} (ha : p.Carries id a) (hn : n ∈ p.consumers a)
    (hm : m ∈ p.consumers a) (hopn : (p.op n).carries = true) (hopm : (p.op m).carries = true)
    (hnx : p.Carries n x) (hmx : p.Carries m x) : n = m := by
  rcases d.comparable (ha.step hn hopn) (ha.step hm hopm) hnx hmx with hnm | hmn
  · exact d.eq_of_carries ha hn hm hopn hnm
  · exact (d.eq_of_carries ha hm hn hopm hmn).symm

/-! ### The visits -/

theorem carries_of_mem_narrow {fuel oldWidth : Nat} {m : ColumnMap}
    {visits : List (NodeId × ColumnMap)}
    (hvisits : (p.narrow id j kept).visitsWithin fuel a m oldWidth = .ok visits) :
    ∀ v ∈ visits, p.Carries a v.1 := fun v hv =>
  (carries_of_mem_visits hvisits v hv).of_narrow d.inArena d.op_eq

/-- What is visited because of a reader carries the columns of that reader. -/
theorem carries_of_mem_reader {fuel oldWidth : Nat} {m : ColumnMap}
    {here : List (NodeId × ColumnMap)}
    (hrun : (p.narrow id j kept).visitsOfReader fuel a m oldWidth n = .ok here) :
    ∀ v ∈ here, (p.op n).carries = true ∧ p.Carries n v.1 := by
  rcases visitsOfReader_eq_ok hrun with ⟨-, rfl⟩ | ⟨hop, m', w', hvisits, -⟩
  · exact fun v hv => absurd hv not_mem_nil
  · rw [carries_narrow d.inArena d.op_eq] at hop
    exact fun v hv => ⟨hop, d.carries_of_mem_narrow hvisits v hv⟩

/-- Every node is visited once. -/
theorem nodup_visits {fuel oldWidth : Nat} {m : ColumnMap} {visits : List (NodeId × ColumnMap)}
    (ha : p.Carries id a)
    (hvisits : (p.narrow id j kept).visitsWithin fuel a m oldWidth = .ok visits) :
    (visits.map Prod.fst).Nodup := by
  induction fuel generalizing a m oldWidth visits with
  | zero => cases hvisits
  | succ fuel ih =>
      obtain ⟨above, habove, rfl⟩ := visitsWithin_succ_eq_ok.mp hvisits
      rw [consumers_narrow] at habove
      rw [map_cons, map_flatten, nodup_cons, nodup_flatten]
      refine ⟨fun hmem => ?_, fun part hpart => ?_, ?_⟩
      · -- A node that carries the columns of a reader stands behind what the reader reads.
        obtain ⟨part, hpart, hmem⟩ := mem_flatten.mp hmem
        obtain ⟨here, hhere, rfl⟩ := mem_map.mp hpart
        obtain ⟨v, hv, hself⟩ := mem_map.mp hmem
        obtain ⟨n, hn, hrun⟩ := Result.mapM_mem_right habove hhere
        obtain ⟨-, hcarries⟩ := d.carries_of_mem_reader hrun v hv
        rw [hself] at hcarries
        exact d.ordered.not_carries_back hn hcarries
      · obtain ⟨here, hhere, rfl⟩ := mem_map.mp hpart
        obtain ⟨n, hn, hrun⟩ := Result.mapM_mem_right habove hhere
        rcases visitsOfReader_eq_ok hrun with ⟨-, rfl⟩ | ⟨hop, m', w', hvisits, -⟩
        · exact nodup_nil
        · rw [carries_narrow d.inArena d.op_eq] at hop
          exact ih (ha.step hn hop) hvisits
      · have hreaders : (p.consumers a).Nodup := d.ordered.nodup.filter _
        refine pairwise_map.mpr (Result.mapM_pairwise habove hreaders ?_)
        intro n hn k hk here there hne hhere hthere x hx hx'
        obtain ⟨v, hv, rfl⟩ := mem_map.mp hx
        obtain ⟨w, hw, hvw⟩ := mem_map.mp hx'
        obtain ⟨hopn, hnv⟩ := d.carries_of_mem_reader hhere v hv
        obtain ⟨hopk, hkw⟩ := d.carries_of_mem_reader hthere w hw
        exact hne (d.reader_unique ha hn hk hopn hopk hnv (hvw ▸ hkw))

/-- The mapping of a join follows those of its inputs, which stand one after another. -/
theorem joinMapping_placed {m m' : ColumnMap} {ids : List NodeId} {old new total : Nat}
    (hids : ∀ i ∈ ids, i ∈ p.order)
    (hothers : ∀ i ∈ ids, i ≠ a → p.remaining id kept i = range (p.columnCount i))
    (hm : m.Follows (p.remaining id kept a))
    (h : (p.narrow id j kept).joinMapping a m (p.columnCount a) ids old new = .ok (m', total)) :
    m'.Placed old new (p.remainingOf id kept ids) ∧
      total = old + (ids.map p.columnCount).sum := by
  induction ids generalizing old new m' total with
  | nil =>
      cases h
      exact ⟨ColumnMap.placed_nil old new, rfl⟩
  | cons i rest ih =>
      obtain ⟨hi, hrest⟩ := forall_mem_cons.mp hids
      have hnarrow : (p.narrow id j kept).Arranged p.order :=
        arranged_narrow d.inArena d.op_eq d.wellFormed.arranged
      rw [joinMapping, Result.bind_ok (hnarrow.width_eq hi), d.columnCount_narrow i hi] at h
      -- The part of this input, whether it carries the columns or not.
      obtain ⟨here, width, hpart⟩ : ∃ here width, (if i = a then
          (m.shift old new, p.columnCount a)
        else (ColumnMap.block (p.remaining id kept i).length old new,
          (p.remaining id kept i).length)) = (here, width) := ⟨_, _, rfl⟩
      have hhere : width = p.columnCount i ∧ here.Placed old new (p.remaining id kept i) := by
        split at hpart
        · next heq =>
          obtain ⟨rfl, rfl⟩ := Prod.mk.inj hpart
          rw [heq]
          exact ⟨rfl, ColumnMap.placed_shift hm old new⟩
        · next hne =>
          obtain ⟨rfl, rfl⟩ := Prod.mk.inj hpart
          rw [hothers i mem_cons_self hne, length_range]
          exact ⟨rfl, ColumnMap.placed_block _ old new⟩
      obtain ⟨rfl, hhere⟩ := hhere
      rw [hpart] at h
      obtain ⟨⟨others, total'⟩, hothersRun, h⟩ := Result.bind_eq_ok.mp h
      obtain ⟨rfl, rfl⟩ := Prod.mk.inj (Result.pure_eq_ok.mp h)
      obtain ⟨hplaced, rfl⟩ := ih hrest (fun k hk => hothers k (mem_cons_of_mem _ hk)) hothersRun
      rw [remainingOf_cons, map_cons, sum_cons, Nat.add_assoc]
      exact ⟨hhere.append hplaced, rfl⟩

/-- The mapping of a visit says where the columns are that remain. -/
theorem follows_of_mem_visits {fuel : Nat} {m : ColumnMap} {visits : List (NodeId × ColumnMap)}
    (ha : p.Carries id a) (hm : m.Follows (p.remaining id kept a))
    (hvisits : (p.narrow id j kept).visitsWithin fuel a m (p.columnCount a) = .ok visits) :
    ∀ v ∈ visits, v.2.Follows (p.remaining id kept v.1) := by
  induction fuel generalizing a m visits with
  | zero => cases hvisits
  | succ fuel ih =>
      obtain ⟨above, habove, hvisits⟩ := Result.bind_eq_ok.mp hvisits
      obtain rfl := Result.pure_eq_ok.mp hvisits
      intro v hv
      rcases mem_cons.mp hv with rfl | hv
      · exact hm
      obtain ⟨here, hhere, hv⟩ := mem_flatten.mp hv
      obtain ⟨n, hn, hrun⟩ := Result.mapM_mem_right habove hhere
      rw [consumers_narrow] at hn
      rcases visitsOfReader_eq_ok hrun with ⟨-, rfl⟩ | ⟨hop, m', w', hsub, hjoinRun, hplain⟩
      · cases hv
      rw [carries_narrow d.inArena d.op_eq] at hop
      rw [isJoin_narrow d.inArena d.op_eq] at hjoinRun hplain
      obtain ⟨hlive, -⟩ := mem_consumers.mp hn
      have hnext : m'.Follows (p.remaining id kept n) ∧ w' = p.columnCount n := by
        cases hjoin : (p.op n).isJoin with
        | true =>
            have hrun := hjoinRun hjoin
            rw [inputs_narrow] at hrun
            obtain ⟨hplaced, hw⟩ := d.joinMapping_placed
              (fun i hi => d.ordered.mem_of_input hlive hi)
              (fun i hi hne => d.remaining_of_other ha hn hop hi hne) hm hrun
            have hlayout := (Operator.layout_eq_all_iff _).mpr hjoin
            refine ⟨?_, ?_⟩
            · rw [d.remaining_eq hlive (d.ne_of_consumer ha hn), hlayout]
              exact hplaced.follows
            · rw [hw, d.ordered.columnCount_eq hlive, hlayout, Nat.zero_add]
              rfl
        | false =>
            obtain ⟨rfl, rfl⟩ := hplain hjoin
            obtain ⟨-, hcount, hremaining⟩ := d.remaining_of_first ha hn hop hjoin
            exact ⟨hremaining ▸ hm, hcount.symm⟩
      obtain ⟨hfollows, rfl⟩ := hnext
      exact ih (ha.step hn hop) hfollows hsub v hv

end Dropping

end Plan

end QueryPlan
