import QueryPlan.Proofs.RedundantSorts.Traces
/-!
# QueryPlan.Proofs.RedundantSorts.Equivalence

**Sorts that order rows the same way form classes.** Two sorts are compared key by key, and two keys
go together if the columns that are equivalent to the one have an element in common with those of
the other. Sharing an element is not transitive for lists in general. It is transitive here because
a column forwards one column at most, so that two traces stay together from the first column on that
they share, and because a trace is never given up before it ends.

Nothing is asked of the number of inputs, nor that a node is listed once.
-/

namespace QueryPlan

open List

namespace Plan

variable {p : Plan}

/-- A live node that sorts. -/
structure LiveSort (p : Plan) where
  id : NodeId
  sorting : Sorting
  live : id ∈ p.order
  op_eq : p.op id = .sort sorting

namespace LiveSort

/-- Keys that put rows in the same order: the columns of both hold common values. -/
def KeysMeet (a b : p.LiveSort) (k l : SortKey) : Prop :=
  k.direction = l.direction ∧ k.nulls = l.nulls ∧ p.Meet ⟨a.id, k.column⟩ ⟨b.id, l.column⟩

/-- Sorts whose keys go together pair by pair. -/
def Agrees (a b : p.LiveSort) : Prop :=
  Forall₂ (a.KeysMeet b) a.sorting.collation b.sorting.collation

variable {a b c : p.LiveSort}

theorem KeysMeet.refl (a : p.LiveSort) (k : SortKey) : a.KeysMeet a k k :=
  ⟨rfl, rfl, p.meet_equivalence.refl _⟩

theorem KeysMeet.of_common {k l m : SortKey} (hk : a.KeysMeet c k m) (hl : b.KeysMeet c l m) :
    a.KeysMeet b k l := by
  obtain ⟨hkDirection, hkNulls, hkMeet⟩ := hk
  obtain ⟨hlDirection, hlNulls, hlMeet⟩ := hl
  exact ⟨hkDirection.trans hlDirection.symm, hkNulls.trans hlNulls.symm,
    p.meet_equivalence.trans hkMeet (p.meet_equivalence.symm hlMeet)⟩

theorem Agrees.of_common (ha : a.Agrees c) (hb : b.Agrees c) : a.Agrees b :=
  forall₂_of_common (fun _ _ _ => KeysMeet.of_common) ha hb

theorem agrees_equivalence (p : Plan) : Equivalence (Agrees (p := p)) := by
  have hrefl : ∀ a : p.LiveSort, a.Agrees a := fun a =>
    forall₂_same.mpr fun k _ => KeysMeet.refl a k
  -- A relation is an equivalence if it is reflexive and what agrees with a third one agrees.
  have hsymm : ∀ {a b : p.LiveSort}, a.Agrees b → b.Agrees a := fun {_ b} hab =>
    (hrefl b).of_common hab
  exact ⟨hrefl, hsymm, fun hab hbc => hab.of_common (hsymm hbc)⟩

/-- Sorts can be compared. -/
theorem exists_sameCollation (a b : p.LiveSort) :
    ∃ same, p.sameCollation a.id b.id = .ok same := by
  unfold sameCollation
  rw [a.op_eq, b.op_eq]
  exact ⟨_, rfl⟩

theorem sameCollation_iff (h : p.Founded) (a b : p.LiveSort) :
    p.sameCollation a.id b.id = .ok true ↔ a.Agrees b := by
  rw [h.sameCollation_iff a.live b.live]
  constructor
  · rintro ⟨s, t, hs, ht, hkeys⟩
    obtain rfl := Operator.sort.inj (a.op_eq.symm.trans hs)
    obtain rfl := Operator.sort.inj (b.op_eq.symm.trans ht)
    exact hkeys
  · intro hkeys
    exact ⟨a.sorting, b.sorting, a.op_eq, b.op_eq, hkeys⟩

end LiveSort

/-- Whether two live sorts order rows the same way is found for any two of them, in whichever order
they are taken, and they do if and only if their keys agree in direction, in the place of nulls and
in a column from which both columns have their values. This is an equivalence. -/
theorem sameCollation_equivalence (h : p.Founded) :
    (∀ a b : p.LiveSort, ∃ same,
      p.sameCollation a.id b.id = .ok same ∧ p.sameCollation b.id a.id = .ok same) ∧
    (Equivalence fun a b : p.LiveSort => p.sameCollation a.id b.id = .ok true) ∧
    ∀ a b : p.LiveSort, p.sameCollation a.id b.id = .ok true ↔
      Forall₂ (fun k l => k.direction = l.direction ∧ k.nulls = l.nulls ∧
        ∃ c, p.TracesTo ⟨a.id, k.column⟩ c ∧ p.TracesTo ⟨b.id, l.column⟩ c)
        a.sorting.collation b.sorting.collation := by
  have hagrees := LiveSort.sameCollation_iff h
  have heq : (fun a b : p.LiveSort => p.sameCollation a.id b.id = .ok true) = LiveSort.Agrees :=
    funext fun a => funext fun b => propext (hagrees a b)
  refine ⟨fun a b => ?_, heq ▸ LiveSort.agrees_equivalence p, hagrees⟩
  obtain ⟨same, hab⟩ := a.exists_sameCollation b
  obtain ⟨same', hba⟩ := b.exists_sameCollation a
  have hsymm : p.sameCollation a.id b.id = .ok true ↔ p.sameCollation b.id a.id = .ok true := by
    rw [hagrees, hagrees]
    exact ⟨(LiveSort.agrees_equivalence p).symm, (LiveSort.agrees_equivalence p).symm⟩
  obtain rfl : same = same' := by simpa [hab, hba] using hsymm
  exact ⟨same, hab, hba⟩

/-- Groups that are sorted by both of their keys, before and after the columns are swapped and rows
are taken out. The first sort has other rows than the groups. -/
def sortedGroups : Plan :=
  let sort (keys : List Nat) : Operator :=
    .sort ⟨keys.map fun column => ⟨column, .ascending, .last⟩, none, 0, false⟩
  { arena := #[.make 0 [] (.values ⟨[⟨"a", .condition⟩, ⟨"b", .condition⟩],
        [[.bool true, .bool false], [.bool false, .bool true]]⟩),
      .make 1 [⟨0⟩] (sort [0, 1]),
      .make 2 [⟨1⟩] (.aggregate ⟨2, [], ["a", "b"], false⟩),
      .make 3 [⟨2⟩] (sort [0, 1]),
      .make 4 [⟨3⟩] (.project (.plain [.column ⟨⟨3⟩, 1⟩, .column ⟨⟨3⟩, 0⟩] ["b", "a"])),
      .make 5 [⟨4⟩] (.filter ⟨.column ⟨⟨4⟩, 0⟩⟩),
      .make 6 [⟨5⟩] (sort [1, 0]),
      .make 7 [⟨6⟩] (sort [0, 1])]
    order := (range 8).map NodeId.mk }

/-- The sorts by the swapped columns agree with the first one over the sort in between, and the last
sort agrees with none of them. -/
theorem sameCollation_equivalence_sortedGroups : sortedGroups.Founded ∧
    sortedGroups.sameCollation ⟨1⟩ ⟨6⟩ = .ok true ∧
    sortedGroups.sameCollation ⟨6⟩ ⟨1⟩ = .ok true ∧
    sortedGroups.sameCollation ⟨1⟩ ⟨7⟩ = .ok false ∧
    sortedGroups.sameCollation ⟨7⟩ ⟨1⟩ = .ok false := by
  have h : sortedGroups.Founded := Scoped.founded <|
    scoped_of_reads ⟨⟨by decide, by decide, by decide⟩, by decide⟩ (by decide +kernel)
  obtain ⟨hboth, hequivalence, -⟩ := sameCollation_equivalence h
  let one : sortedGroups.LiveSort := ⟨⟨1⟩, _, by decide, rfl⟩
  let three : sortedGroups.LiveSort := ⟨⟨3⟩, _, by decide, rfl⟩
  let six : sortedGroups.LiveSort := ⟨⟨6⟩, _, by decide, rfl⟩
  let seven : sortedGroups.LiveSort := ⟨⟨7⟩, _, by decide, rfl⟩
  have h₁₆ : sortedGroups.sameCollation ⟨1⟩ ⟨6⟩ = .ok true :=
    hequivalence.trans (x := one) (y := three) (z := six) (by rfl) (by rfl)
  obtain ⟨same, h₁₇, h₇₁⟩ := hboth one seven
  have hsame : sortedGroups.sameCollation ⟨1⟩ ⟨7⟩ = .ok false := by rfl
  obtain rfl : false = same := Except.ok.inj (hsame.symm.trans h₁₇)
  exact ⟨h, h₁₆, hequivalence.symm (x := one) (y := six) h₁₆, hsame, h₇₁⟩

end Plan

end QueryPlan
