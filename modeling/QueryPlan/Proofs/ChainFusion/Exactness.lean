import QueryPlan.Proofs.ChainFusion.Coverage
import QueryPlan.Proofs.ChainFusion.History
/-!
# QueryPlan.Proofs.ChainFusion.Exactness

**Fusing chains fuses what it describes.** What gives way to a compound is a pattern
(`Plan.Pattern`): a filter, a projection, an aggregate and a final projection that passes columns
through, in this order and maybe without the first or the last ones, each the only use of the one
before. Nothing else happens to the plan (`Plan.FusedChains`), and no two nodes are left that a
pattern might begin with (`Arranged.not_fusable_of_fuseChains`).

A filter is not fused with the projection over it if that calls a window function. But an expression
without columns passes for one that passes columns through, so a filter may well be fused with a
final projection that calls one.
-/

namespace QueryPlan

open List

namespace Plan

variable {p q : Plan} {ids joinRoots : List NodeId} {n x y : NodeId} {stage : ChainStage}
  {next next' : Nat}

/-- What a chain is made of, up to each stage. -/
def kindsAt : ChainStage → List (List String)
  | .start => [[]]
  | .filtered => [["Filter"]]
  | .projected => [["Project"], ["Filter", "Project"]]
  | .grouped => [["Project", "Aggregate"], ["Filter", "Project", "Aggregate"],
      ["Project", "Aggregate", "Project"], ["Filter", "Project", "Aggregate", "Project"]]

/-- What a node of a pattern is to the one before it. -/
structure Link (p : Plan) (x y : NodeId) : Prop where
  useCount_eq : p.useCount x = 1
  inputs_eq : p.inputs y = [x]
  passes : ∀ a, p.op x = .aggregate a → p.endsChain y = true

/-- The nodes that fusing chains replaces by one compound. -/
structure Pattern (joinRoots : List NodeId) (p : Plan) (ids : List NodeId) : Prop where
  kinds : ids.map (fun n => (p.op n).name) ∈ [["Filter", "Project"], ["Project", "Aggregate"],
    ["Filter", "Project", "Aggregate"], ["Project", "Aggregate", "Project"],
    ["Filter", "Project", "Aggregate", "Project"]]
  links : ids.IsChain p.Link
  roots : ∀ n ∈ ids, ∀ f, p.op n = .filter f → n ∉ joinRoots
  /-- A window function is fused with a filter only by a final projection. -/
  windows : ∀ n ∈ ids, ∀ j, p.op n = .project j → j.hasWindow = true →
    (∃ m ∈ ids, ∃ f, p.op m = .filter f) →
      p.endsChain n = true ∧ ∃ m ∈ ids, ∃ a, p.op m = .aggregate a ∧ p.inputs n = [m]

/-! ### Chains are patterns -/

theorem Chained.kinds (h : p.Chained joinRoots ids stage) :
    ids.map (fun n => (p.op n).name) ∈ kindsAt stage := by
  induction h with
  | nil => exact mem_cons_self
  | next _ _ _ hnext ih =>
      rw [map_append, map_singleton]
      rcases nextStage?_eq_some hnext with ⟨rfl, rfl, f, hop⟩ | ⟨rfl, rfl, j, hop⟩ |
        ⟨rfl, rfl, j, hop⟩ | ⟨rfl, rfl, a, hop⟩ <;> rw [hop] <;>
        simp only [kindsAt, mem_cons, not_mem_nil, or_false] at ih ⊢
      · rw [ih]
        rfl
      · rw [ih]
        exact .inl rfl
      · rw [ih]
        exact .inr rfl
      · rcases ih with ih | ih <;> rw [ih] <;> simp [Operator.name]
  | @close ids id _ _ _ hend haggregate ih =>
      obtain ⟨j, hop⟩ := endsChain_eq_true hend
      -- A chain that is closed already ends in a projection.
      have hopen : ∀ kind ∈ (ids.map fun n => (p.op n).name).getLast?, kind = "Aggregate" := by
        intro kind hkind
        rw [getLast?_map, Option.mem_map] at hkind
        obtain ⟨last, hlast, rfl⟩ := hkind
        obtain ⟨a, haggregate⟩ := haggregate last hlast
        rw [haggregate]
        rfl
      rw [map_append, map_singleton, hop]
      simp only [kindsAt, mem_cons, not_mem_nil, or_false] at ih ⊢
      rcases ih with ih | ih | ih | ih <;> rw [ih] at hopen ⊢
      · simp [Operator.name]
      · simp [Operator.name]
      · exact absurd (hopen "Project" rfl) (by decide)
      · exact absurd (hopen "Project" rfl) (by decide)

/-- What a chain has taken last, before it takes an aggregate. -/
theorem Chained.not_aggregate (h : p.Chained joinRoots ids stage) (hstage : stage ≠ .grouped) :
    ∀ last ∈ ids.getLast?, ∀ a, p.op last ≠ .aggregate a := by
  intro last hlast a hop
  have hkind : (ids.map fun n => (p.op n).name).getLast? = some "Aggregate" := by
    rw [getLast?_map, hlast, Option.map_some, hop]
    rfl
  have hkinds : ∀ kinds ∈ kindsAt stage, kinds.getLast? ≠ some "Aggregate" := by
    cases stage with
    | grouped => exact absurd rfl hstage
    | _ => decide
  exact hkinds _ h.kinds hkind

theorem nextStage?_of_grouped : p.nextStage? joinRoots .grouped n = none := by
  unfold nextStage?
  cases p.op n <;> rfl

theorem OnlyReader.link (h : p.OnlyReader x y) (hp : p.Arranged p.order) (hy : y ∈ p.order)
    (harity : (p.op y).arity = .exactly 1)
    (hpasses : ∀ a, p.op x = .aggregate a → p.endsChain y = true) : p.Link x y := by
  obtain ⟨i, hi⟩ := Arity.exactly_one_admits (harity ▸ hp.arity y hy)
  have hinputs := h.inputs_eq hi
  exact ⟨useCount_eq_one hp.nodup hy hinputs h.2, hinputs, hpasses⟩

theorem Chained.isChain_link (h : p.Chained joinRoots ids stage) (hp : p.Arranged p.order) :
    ids.IsChain p.Link := by
  induction h with
  | nil => exact .nil
  | @next ids id stage next hchain hid hlink hnext ih =>
      have harity := ((hchain.next hid hlink hnext).unary id (by simp)).1
      refine ih.append (.singleton _) fun last hlast y hy => ?_
      obtain rfl := Option.some.inj hy
      refine (hlink last hlast).link hp hid harity fun a hop => ?_
      have hstage : stage ≠ .grouped := by
        rintro rfl
        rw [nextStage?_of_grouped] at hnext
        cases hnext
      exact absurd hop (hchain.not_aggregate hstage last hlast a)
  | @close ids id hchain hid hlink hend haggregate ih =>
      have harity := ((hchain.close hid hlink hend haggregate).unary id (by simp)).1
      refine ih.append (.singleton _) fun last hlast y hy => ?_
      obtain rfl := Option.some.inj hy
      exact (hlink last hlast).link hp hid harity fun _ _ => hend

/-- What a chain does not take. -/
theorem nextStage?_guards {next : ChainStage} (h : p.nextStage? joinRoots stage n = some next) :
    (∀ f, p.op n = .filter f → n ∉ joinRoots) ∧
      ∀ j, stage = .filtered → p.op n = .project j → j.hasWindow = false := by
  unfold nextStage? at h
  refine ⟨fun f hop => ?_, fun j hstage hop => ?_⟩
  · rw [hop] at h
    cases stage with
    | start =>
        dsimp only at h
        split at h
        · cases h
        · next hroot => simpa using hroot
    | _ => cases h
  · rw [hstage, hop] at h
    dsimp only at h
    split at h
    · cases h
    · next hwindow => simpa using hwindow

theorem Chained.roots (h : p.Chained joinRoots ids stage) :
    ∀ n ∈ ids, ∀ f, p.op n = .filter f → n ∉ joinRoots := by
  induction h with
  | nil => exact nofun
  | next _ _ _ hnext ih =>
      intro n hn f hop
      rcases mem_append.mp hn with hn | hn
      · exact ih n hn f hop
      · obtain rfl := mem_singleton.mp hn
        exact (nextStage?_guards hnext).1 f hop
  | close _ _ _ hend _ ih =>
      intro n hn f hop
      rcases mem_append.mp hn with hn | hn
      · exact ih n hn f hop
      · obtain rfl := mem_singleton.mp hn
        obtain ⟨j, hproject⟩ := endsChain_eq_true hend
        cases hproject.symm.trans hop

/-- A window function is fused with a filter by what ends the chain behind an aggregate only. -/
theorem Chained.windows (h : p.Chained joinRoots ids stage) :
    ∀ n ∈ ids, ∀ j, p.op n = .project j → j.hasWindow = true →
      (∃ m ∈ ids, ∃ f, p.op m = .filter f) →
        p.endsChain n = true ∧ ∃ m ∈ ids, ∃ a, p.op m = .aggregate a ∧ p.OnlyReader m n := by
  have hgrow : ∀ {ids : List NodeId} {id n : NodeId},
      (p.endsChain n = true ∧ ∃ m ∈ ids, ∃ a, p.op m = .aggregate a ∧ p.OnlyReader m n) →
      p.endsChain n = true ∧ ∃ m ∈ ids ++ [id], ∃ a, p.op m = .aggregate a ∧ p.OnlyReader m n :=
    fun ⟨hend, m, hm, hread⟩ => ⟨hend, m, mem_append_left _ hm, hread⟩
  induction h with
  | nil => exact nofun
  | @next ids id stage next hchain _ _ hnext ih =>
      rintro n hn j hop hwindow ⟨m, hm, f, hfilter⟩
      rw [mem_append, mem_singleton] at hn hm
      rcases hn with hn | rfl
      · refine hgrow (ih n hn j hop hwindow ⟨m, hm.resolve_right ?_, f, hfilter⟩)
        -- A filter begins a chain.
        rintro rfl
        rcases nextStage?_eq_some hnext with ⟨rfl, -⟩ | ⟨-, -, k, hid⟩ | ⟨-, -, k, hid⟩ |
          ⟨-, -, k, hid⟩
        · rw [ChainWalk.Chained.of_start hchain] at hn
          exact not_mem_nil hn
        all_goals cases hid.symm.trans hfilter
      · rcases nextStage?_eq_some hnext with ⟨-, -, k, hid⟩ | ⟨rfl, -⟩ | ⟨rfl, -⟩ | ⟨-, -, k, hid⟩
        · cases hid.symm.trans hop
        · rw [ChainWalk.Chained.of_start hchain] at hm
          obtain rfl := hm.resolve_left not_mem_nil
          cases hop.symm.trans hfilter
        · rw [(nextStage?_guards hnext).2 j rfl hop] at hwindow
          cases hwindow
        · cases hid.symm.trans hop
  | @close ids id hchain _ hlink hend haggregate ih =>
      obtain ⟨k, hid⟩ := endsChain_eq_true hend
      rintro n hn j hop hwindow ⟨m, hm, f, hfilter⟩
      rw [mem_append, mem_singleton] at hn hm
      rcases hn with hn | rfl
      · refine hgrow (ih n hn j hop hwindow ⟨m, hm.resolve_right ?_, f, hfilter⟩)
        rintro rfl
        cases hid.symm.trans hfilter
      · have hne : ids ≠ [] := by
          rintro rfl
          obtain rfl := hm.resolve_left not_mem_nil
          cases hid.symm.trans hfilter
        obtain ⟨last, hlast⟩ := Option.isSome_iff_exists.mp (getLast?_isSome.mpr hne)
        obtain ⟨a, hop⟩ := haggregate last hlast
        exact ⟨hend, last, mem_append_left _ (mem_of_getLast? hlast), a, hop, hlink last hlast⟩

/-- A chain of two nodes or more is a pattern. -/
theorem Chained.pattern (h : p.Chained joinRoots ids stage) (hp : p.Arranged p.order)
    (hlength : 2 ≤ ids.length) : p.Pattern joinRoots ids where
  kinds := by
    have hkinds := h.kinds
    have hlong : 2 ≤ (ids.map fun n => (p.op n).name).length := by rwa [length_map]
    have hall : ∀ kinds ∈ kindsAt stage, 2 ≤ kinds.length → kinds ∈ [["Filter", "Project"],
        ["Project", "Aggregate"], ["Filter", "Project", "Aggregate"],
        ["Project", "Aggregate", "Project"], ["Filter", "Project", "Aggregate", "Project"]] := by
      cases stage <;> decide
    exact hall _ hkinds hlong
  links := h.isChain_link hp
  roots := h.roots
  windows n hn j hop hwindow hfilter := by
    obtain ⟨hend, m, hm, a, haggregate, hread⟩ := h.windows n hn j hop hwindow hfilter
    obtain ⟨i, hi⟩ := Arity.exactly_one_admits ((h.unary n hn).1 ▸ hp.arity n (h.subset hn))
    exact ⟨hend, m, hm, a, haggregate, hread.inputs_eq hi⟩

/-! ### Nothing is left to fuse -/

theorem Arranged.fuseChains (h : p.Arranged p.order)
    (hq : p.fuseChains joinRoots next = .ok (q, next')) : q.Arranged q.order :=
  (fuseChains_induct ChainWalk.kept_arranged h.toOrdered h hq).2

/-- Two nodes are fusable if the second one is the only use of the first one. -/
theorem Arranged.fusable {s t : ChainStage} (h : p.Arranged p.order) (hx : x ∈ p.order)
    (huse : p.useCount x = 1) (hy : y ∈ p.order) (hread : x ∈ p.inputs y)
    (harity : (p.op y).arity = .exactly 1) (hs : p.nextStage? joinRoots .start x = some s)
    (ht : p.nextStage? joinRoots s y = some t) : p.Fusable joinRoots x y := by
  obtain ⟨i, hi⟩ := Arity.exactly_one_admits (harity ▸ h.arity y hy)
  have honly : p.OnlyReader x y :=
    ⟨hread, fun m hm hmread => reader_unique huse hm hmread hy hread⟩
  exact ⟨hx, hy, honly.inputs_eq hi, honly.2, s, t, hs, ht⟩

/-- **Fusing chains fuses what it describes.** Patterns give way to compounds, and nothing else
happens. Afterwards a filter that roots no chain of joins and has one use is read by no projection
without window functions, and a projection that has one use by no aggregate. -/
theorem chain_fusion_exact (h : p.Arranged p.order)
    (hq : p.fuseChains joinRoots next = .ok (q, next')) :
    (∃ chains fused, FusedChains joinRoots p q chains fused ∧
        ∀ ids ∈ chains, Pattern joinRoots p ids) ∧
      ∀ x ∈ q.order, q.useCount x = 1 → ∀ y ∈ q.order, x ∈ q.inputs y →
        (∀ f j, q.op x = .filter f → x ∉ joinRoots → q.op y = .project j → j.hasWindow = true) ∧
          ∀ j a, q.op x = .project j → q.op y ≠ .aggregate a := by
  have hleft := h.not_fusable_of_fuseChains hq
  have hqArranged := h.fuseChains hq
  constructor
  · obtain ⟨chains, fused, hs⟩ := h.fusedChains hq
    refine ⟨chains, fused, hs, fun ids hids => ?_⟩
    obtain ⟨hlength, stage, hchain⟩ := hs.chained ids hids
    exact hchain.pattern h hlength
  · intro x hx huse y hy hread
    refine ⟨fun f j hfilter hroot hproject => ?_, fun j a hproject haggregate => ?_⟩
    · by_contra hwindow
      refine hleft x y (hqArranged.fusable (s := .filtered) (t := .projected) hx huse hy hread
        (by rw [hproject]; rfl) ?_ ?_)
      · unfold nextStage?
        rw [hfilter]
        simp [hroot]
      · unfold nextStage?
        rw [hproject]
        simp [hwindow]
    · refine hleft x y (hqArranged.fusable (s := .projected) (t := .grouped) hx huse hy hread
        (by rw [haggregate]; rfl) ?_ ?_)
      · unfold nextStage?
        rw [hproject]
      · unfold nextStage?
        rw [haggregate]

/-- Groups of filtered rows. A filter that roots a chain of joins stands above. -/
def filteredGroups : Plan :=
  { arena := #[.make 0 [] (.values ⟨[⟨"a", .condition⟩], [[.bool true]]⟩),
      .make 1 [⟨0⟩] (.filter ⟨.column ⟨⟨0⟩, 0⟩⟩),
      .make 2 [⟨1⟩] (.project (.plain [.column ⟨⟨1⟩, 0⟩] ["a"])),
      .make 3 [⟨2⟩] (.aggregate ⟨1, [], ["a"], false⟩),
      .make 4 [⟨3⟩] (.project (.plain [.column ⟨⟨3⟩, 0⟩] ["a"])),
      .make 5 [⟨4⟩] (.filter ⟨.column ⟨⟨4⟩, 0⟩⟩),
      .make 6 [⟨5⟩] (.project (.plain [.column ⟨⟨5⟩, 0⟩] ["a"]))]
    order := (range 7).map NodeId.mk }

/-- The first four nodes above the rows become a compound, and the filter above them reads that. -/
theorem chain_fusion_exact_filteredGroups : ∃ q chains fused,
    filteredGroups.Arranged filteredGroups.order ∧
      filteredGroups.fuseChains [⟨5⟩] 7 = .ok (q, 8) ∧
      FusedChains [⟨5⟩] filteredGroups q chains fused ∧
      (∀ ids ∈ chains, Pattern [⟨5⟩] filteredGroups ids) ∧
      q.order.map NodeId.index = [0, 7, 5, 6] ∧ q.inputs ⟨5⟩ = [⟨7⟩] := by
  have harranged : filteredGroups.Arranged filteredGroups.order :=
    ⟨⟨by decide, by decide, by decide⟩, by decide⟩
  have hrun : (filteredGroups.fuseChains [⟨5⟩] 7).holds (fun s => s.2 == 8 &&
      s.1.order.map NodeId.index == [0, 7, 5, 6] && s.1.inputs ⟨5⟩ == [⟨7⟩]) = true := by
    decide +kernel
  obtain ⟨⟨q, n⟩, hq, hresult⟩ := Result.holds_eq_true.mp hrun
  simp only [Bool.and_eq_true, beq_iff_eq] at hresult
  obtain ⟨⟨rfl, horder⟩, hinputs⟩ := hresult
  obtain ⟨⟨chains, fused, hs, hpatterns⟩, -⟩ := chain_fusion_exact harranged hq
  exact ⟨q, chains, fused, harranged, hq, hs, hpatterns, horder, hinputs⟩

/-- If there is one compound only, one chain took all that is gone. -/
theorem FusedChains.exists_chain {chains : List (List NodeId)} {fused : NodeId → Option NodeId}
    (hs : FusedChains joinRoots p q chains fused)
    (hone : ∀ k ∈ q.order, ∀ l ∈ q.order, p.arena.size ≤ k.index → p.arena.size ≤ l.index → k = l)
    (hx : x ∈ p.order) (hxgone : x ∉ q.order) (hy : y ∈ p.order) (hygone : y ∉ q.order) :
    ∃ ids ∈ chains, x ∈ ids ∧ y ∈ ids := by
  have htaken : ∀ n ∈ p.order, n ∉ q.order → ∃ ids ∈ chains, ∃ last k,
      n ∈ ids ∧ ids.getLast? = some last ∧ fused last = some k := by
    intro n hn hgone
    have hflat : n ∈ chains.flatten := by
      by_contra huntaken
      exact hgone (hs.mem_order.mpr (.inl ⟨hn, huntaken⟩))
    obtain ⟨ids, hids, hn⟩ := mem_flatten.mp hflat
    obtain ⟨last, k, hlast, hk⟩ := hs.exists_fused hids hn
    exact ⟨ids, hids, last, k, hn, hlast, hk⟩
  obtain ⟨ids, hids, last, k, hxids, hlast, hk⟩ := htaken x hx hxgone
  obtain ⟨ids', hids', last', k', hyids', hlast', hk'⟩ := htaken y hy hygone
  obtain ⟨hknew, hklive, -⟩ := hs.fused_new last k hk
  obtain ⟨hknew', hklive', -⟩ := hs.fused_new last' k' hk'
  obtain rfl := hone k hklive k' hklive' hknew hknew'
  obtain rfl := hs.fused_inj last last' k hk hk'
  have hsame := hs.eq_of_mem hids hids' (mem_of_getLast? hlast) (mem_of_getLast? hlast')
  exact ⟨ids, hids, hxids, hsame ▸ hyids'⟩

/-- Groups of filtered rows, numbered by a window function. -/
def numberedGroups : Plan :=
  let number : Expr := .app (.window { (default : WindowCall) with kind := .rowNumber }) []
  { arena := #[.make 0 [] (.values ⟨[⟨"a", .condition⟩], [[.bool true]]⟩),
      .make 1 [⟨0⟩] (.filter ⟨.column ⟨⟨0⟩, 0⟩⟩),
      .make 2 [⟨1⟩] (.project (.plain [.column ⟨⟨1⟩, 0⟩] ["a"])),
      .make 3 [⟨2⟩] (.aggregate ⟨1, [], ["a"], false⟩),
      .make 4 [⟨3⟩] (.project (.plain [.column ⟨⟨3⟩, 0⟩, number] ["a", "n"]))]
    order := (range 5).map NodeId.mk }

/-- The filter is fused with the projection that numbers the groups. -/
theorem chain_fusion_takes_window_numberedGroups : ∃ q,
    numberedGroups.Arranged numberedGroups.order ∧ numberedGroups.fuseChains [] 5 = .ok (q, 6) ∧
      (∃ f, numberedGroups.op ⟨1⟩ = .filter f) ∧
      (∃ j, numberedGroups.op ⟨4⟩ = .project j ∧ j.hasWindow = true) ∧
      ∀ chains fused, FusedChains [] numberedGroups q chains fused →
        ∃ ids ∈ chains, ⟨1⟩ ∈ ids ∧ ⟨4⟩ ∈ ids := by
  have hrun : (numberedGroups.fuseChains [] 5).holds (fun s => s.2 == 6 &&
      s.1.order == [⟨0⟩, ⟨5⟩]) = true := by
    decide +kernel
  obtain ⟨⟨q, n⟩, hq, hresult⟩ := Result.holds_eq_true.mp hrun
  simp only [Bool.and_eq_true, beq_iff_eq] at hresult
  obtain ⟨rfl, horder⟩ := hresult
  refine ⟨q, ⟨⟨by decide, by decide, by decide⟩, by decide⟩, hq, ⟨_, rfl⟩, ⟨_, rfl, rfl⟩,
    fun chains fused hs => ?_⟩
  exact hs.exists_chain (by rw [horder]; decide) (by decide) (by rw [horder]; decide) (by decide)
    (by rw [horder]; decide)

end Plan

end QueryPlan
