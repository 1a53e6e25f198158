import QueryPlan.Proofs.Plan.Redirection
/-!
# QueryPlan.Proofs.Scope.Bypass

**Taking a node out of a plan.** A node that is as wide as its only input, and no join, may be
bypassed: its consumers read that input, and every reference in a node that saw the old columns
names a column in sight (`WellFormed.bypass`).
-/

namespace QueryPlan

open List

namespace Plan

variable {p q : Plan} {id input : NodeId} {mapping : Option ColumnMap}

theorem bypass_eq_ok (h : p.bypass id mapping = .ok q) :
    ∃ input r, p.inputs id = [input] ∧
      p.replaceInputEverywhere id input mapping = .ok r ∧ q = r.remove id := by
  obtain ⟨input, hinput, h⟩ := Result.bind_eq_ok.mp h
  obtain ⟨r, hr, h⟩ := Result.bind_eq_ok.mp h
  exact ⟨input, r, Node.singleInput_eq_ok.mp hinput, hr, (Result.pure_eq_ok.mp h).symm⟩

/-- What an input of a node depends on does not read that node. -/
theorem Arranged.steady_to_input (h : p.Arranged p.order) (hid : id ∈ p.order)
    (hinput : input ∈ p.inputs id) (nodes : List NodeId) :
    ∃ l, p.Steady l id input nodes := by
  obtain ⟨pre, post, horder⟩ := append_of_mem hid
  rw [horder] at h
  refine ⟨pre, .of_unread h.left (h.inputs_before hinput) fun x hx _ hread => ?_⟩
  have hpost := h.mem_of_reads (mem_append_left _ hx) hread
  exact (nodup_append.mp h.nodup).2.2 x hx x (mem_cons_of_mem _ hpost) rfl

/-- The consumers of a node read its input: the loop over all nodes changes each of them. -/
theorem WellFormed.redirection_to_input (h : p.WellFormed) (hid : id ∈ p.order)
    (hinput : input ∈ p.inputs id) (hq : p.replaceInputEverywhere id input mapping = .ok q) :
    Redirection p q id input mapping (p.order.filter fun n => n != input) := by
  obtain ⟨l, hsteady⟩ := h.arranged.steady_to_input hid hinput (p.order.filter fun n => n != input)
  exact foldlM_replaceInput_redirection hq (h.nodup.filter _)
    (fun n hn => h.inArena (mem_filter.mp hn).1) hsteady

/-- A node that reads a node may read the input of that node instead, if this is as wide. -/
theorem WellFormed.of_redirection_to_input {changed : List NodeId} (h : p.WellFormed)
    (hid : id ∈ p.order) (hop : (p.op id).isJoin = false) (hinput : input ∈ p.inputs id)
    (hcount : p.columnCount input = p.columnCount id)
    (hr : Redirection p q id input mapping changed) (hsub : changed ⊆ p.order)
    (hnew : input ∉ changed)
    (hjoins : ∀ n ∈ p.order, ∀ i ∈ p.inputs n, (p.op i).isJoin → id ∈ p.inputs i →
      (i ∈ changed ↔ n ∈ changed)) :
    q.WellFormed ∧ ∀ x ∈ p.order, q.columnCount x = p.columnCount x := by
  have hbefore : ∀ n ∈ changed, id ∈ p.inputs n → [input, n] <+ p.order := fun n hn hread =>
    pair_sublist_trans h.nodup (h.arranged.before id hid input hinput)
      (h.arranged.before n (hsub hn) id hread)
  have hqCount := hr.columnCount_of_eq h.arranged (hr.arranged h.arranged hbefore) hcount
  refine ⟨hr.wellFormed h hnew hop hbefore hjoins ?_ ?_, hqCount⟩
  · intro x hx
    have hlive := h.arranged.mem_of_input hid hinput
    rcases mem_cons.mp hx with rfl | hx
    · exact hqCount _ hlive
    · exact hqCount x (h.arranged.exposed_subset hlive hx)
  · intro n hn c hc _
    obtain ⟨hread, hlt⟩ := h.reads_of_mem hn hc
    rwa [hqCount _ (h.arranged.reads_subset hn hread)]

/-- All consumers of a node may read its only input instead, if this is as wide. -/
theorem WellFormed.redirected_to_input (h : p.WellFormed) (hid : id ∈ p.order)
    (hop : (p.op id).isJoin = false) (hinput : input ∈ p.inputs id)
    (hcount : p.columnCount input = p.columnCount id)
    (hr : Redirection p q id input mapping (p.order.filter fun n => n != input)) :
    q.WellFormed ∧ ∀ x ∈ p.order, q.columnCount x = p.columnCount x := by
  have hunread := h.arranged.not_reads_of_input hid hinput
  refine h.of_redirection_to_input hid hop hinput hcount hr (filter_subset_self _) (by simp) ?_
  intro n hn i hi _ hread
  have hiLive := h.arranged.mem_of_input hn hi
  have hiInput : i ≠ input := by
    rintro rfl
    exact hunread hread
  have hnInput : n ≠ input := by
    rintro rfl
    refine not_pair_swap h.nodup (h.arranged.before id hid n hinput) ?_
    exact pair_sublist_trans h.nodup (h.arranged.before i hiLive id hread)
      (h.arranged.before n hn i hi)
  simp [hn, hiLive, hiInput, hnInput]

/-- Taking out a node that is as wide as its only input keeps a plan well-formed. -/
theorem WellFormed.bypass (h : p.WellFormed) (hid : id ∈ p.order)
    (hop : (p.op id).isJoin = false)
    (hcount : ∀ i, p.inputs id = [i] → p.columnCount id = p.columnCount i)
    (hq : p.bypass id mapping = .ok q) :
    q.WellFormed ∧ q.order = p.order.filter fun n => n != id := by
  obtain ⟨input, r, hinputs, hloop, rfl⟩ := bypass_eq_ok hq
  have hinput : input ∈ p.inputs id := hinputs ▸ mem_singleton_self input
  have hne : input ≠ id := ne_of_pair h.nodup (h.arranged.before id hid input hinput)
  have hr := h.redirection_to_input hid hinput hloop
  obtain ⟨hrWf, -⟩ := h.redirected_to_input hid hop hinput (hcount input hinputs).symm hr
  refine ⟨hrWf.remove fun n hn hnid => ?_, by rw [order_remove, hr.order_eq]⟩
  rw [hr.order_eq] at hn
  by_cases hn' : n = input
  · rw [hr.inputs_other (by simp [hn']), hn']
    exact h.arranged.not_reads_of_input hid hinput
  · exact hr.not_mem_inputs_old (by simp [hn, hn']) hne

/-- A node that shows the columns of its input is as wide as that input. -/
theorem Arranged.columnCount_of_first {l : List NodeId} (h : p.Arranged l) (hid : id ∈ l)
    (hop : (p.op id).layout = .first) {i : NodeId} (hi : p.inputs id = [i]) :
    p.columnCount id = p.columnCount i := by
  rw [h.columnCount_eq hid, hop, hi]
  rfl

end Plan

end QueryPlan
