import QueryPlan.Document.Build
import Mathlib.Data.List.Forall2
/-!
# QueryPlan.Proofs.Outcome

**Taking computations apart that can refuse.** A pass is a chain of steps each of which may
refuse, and a loop of a pass is a fold of such steps. A computation that succeeds is inverted by
one lemma for each way in which computations are put together: `Result.bind_eq_ok` for a step
and what follows it, `Result.foldlM_induct` for a loop.

`Fresh` and `Build` carry a state along, so each has its own versions.
-/

namespace QueryPlan

namespace Result

variable {α β σ : Type}

theorem bind_eq_ok {x : Result α} {f : α → Result β} {b : β} :
    (x >>= f) = .ok b ↔ ∃ a, x = .ok a ∧ f a = .ok b := by
  cases x with
  | ok a =>
      constructor
      · exact fun h => ⟨a, rfl, h⟩
      · rintro ⟨_, ⟨⟩, h⟩
        exact h
  | error e =>
      constructor
      · rintro ⟨⟩
      · rintro ⟨_, ⟨⟩, _⟩

theorem bind_ok {x : Result α} {f : α → Result β} {a : α} (h : x = .ok a) :
    (x >>= f) = f a := by
  rw [h]
  rfl

/-- Two steps succeed if the first one does, and the second one whatever the first one gives. -/
theorem exists_bind {x : Result α} {f : α → Result β} (hx : ∃ a, x = .ok a)
    (hf : ∀ a, x = .ok a → ∃ b, f a = .ok b) : ∃ b, (x >>= f) = .ok b := by
  obtain ⟨a, ha⟩ := hx
  rw [bind_ok ha]
  exact hf a ha

theorem pure_eq_ok {a b : α} : (pure a : Result α) = .ok b ↔ a = b :=
  ⟨fun h => Except.ok.inj h, fun h => h ▸ rfl⟩

theorem fail_ne_ok {cause : Cause} {a : α} : (fail cause : Result α) ≠ .ok a :=
  fun h => by cases h

theorem ensure_eq_ok {condition : Bool} {cause : Cause} {u : Unit} :
    ensure condition cause = .ok u ↔ condition = true := by
  cases condition with
  | false => exact ⟨fun h => absurd h fail_ne_ok, fun h => by cases h⟩
  | true => exact ⟨fun _ => rfl, fun _ => rfl⟩

/-- What follows a check. -/
theorem check_eq_ok {x : Result PUnit} {f : PUnit → Result α} {a : α} :
    (x >>= f) = .ok a ↔ x = .ok () ∧ f () = .ok a := by
  rw [bind_eq_ok]
  exact ⟨fun ⟨_, hx, hf⟩ => ⟨hx, hf⟩, fun ⟨hx, hf⟩ => ⟨_, hx, hf⟩⟩

theorem ofOption_eq_ok {cause : Cause} {o : Option α} {a : α} :
    ofOption cause o = .ok a ↔ o = some a := by
  cases o with
  | none => exact ⟨fun h => absurd h fail_ne_ok, fun h => by cases h⟩
  | some b => exact ⟨fun h => congrArg some (Except.ok.inj h), fun h => congrArg _ (Option.some.inj h)⟩

theorem required_eq_ok {what : String} {o : Option α} {a : α} :
    required what o = .ok a ↔ o = some a := ofOption_eq_ok

theorem within_eq_ok {context : String} {x : Result α} {a : α} :
    within context x = .ok a ↔ x = .ok a := by
  cases x with
  | ok b => rfl
  | error e => exact ⟨nofun, nofun⟩

theorem bind_eq_error {x : Result α} {f : α → Result β} {e : Error} :
    (x >>= f) = .error e ↔ x = .error e ∨ ∃ a, x = .ok a ∧ f a = .error e := by
  cases x with
  | ok a =>
      constructor
      · exact fun h => .inr ⟨a, rfl, h⟩
      · rintro (h | ⟨_, ⟨⟩, h⟩)
        · cases h
        · exact h
  | error e' =>
      constructor
      · rintro ⟨⟩
        exact .inl rfl
      · rintro (⟨⟨⟩⟩ | ⟨_, h, _⟩)
        · rfl
        · cases h

theorem ensureQuoting_eq_ok {condition : Bool} {cause : Result Cause} {u : Unit} :
    ensureQuoting condition cause = .ok u ↔ condition = true := by
  cases condition with
  | false =>
      refine ⟨fun h => ?_, nofun⟩
      obtain ⟨_, -, h⟩ := bind_eq_ok.mp h
      exact absurd h fail_ne_ok
  | true => exact ⟨fun _ => rfl, fun _ => rfl⟩

/-- A check that quotes what it is about fails with what it reports, or because that cannot be
written. -/
theorem ensureQuoting_eq_error {condition : Bool} {cause : Result Cause} {e : Error} :
    ensureQuoting condition cause = .error e ↔
      condition = false ∧ (cause = .error e ∨ ∃ c, cause = .ok c ∧ e = .of c) := by
  cases condition with
  | false =>
      have hfail : ∀ c, (fail c : Result Unit) = .error e ↔ e = .of c := fun c =>
        ⟨fun h => (Except.error.inj h).symm, fun h => h ▸ rfl⟩
      simp only [ensureQuoting, Bool.false_eq_true, if_false, bind_eq_error, hfail, true_and]
  | true => exact ⟨nofun, nofun⟩

/-- What follows a step has to be the same only where the step succeeds. -/
theorem bind_congr {x : Result α} {f g : α → Result β} (h : ∀ a, x = .ok a → f a = g a) :
    (x >>= f) = (x >>= g) := by
  cases x with
  | ok a => exact h a rfl
  | error e => rfl

/-- Whether a computation gives something that passes a test. -/
def holds (x : Result α) (test : α → Bool) : Bool :=
  match x with
  | .ok a => test a
  | .error _ => false

theorem holds_eq_true {x : Result α} {test : α → Bool} :
    x.holds test = true ↔ ∃ a, x = .ok a ∧ test a = true := by
  cases x with
  | ok a => exact ⟨fun h => ⟨a, rfl, h⟩, fun ⟨_, h, htest⟩ => Except.ok.inj h ▸ htest⟩
  | error e => exact ⟨nofun, fun ⟨_, h, _⟩ => by cases h⟩

/-- A claim about the outcome of a computation can be decided. -/
instance (x : Result α) (P : α → Prop) [DecidablePred P] : Decidable (∀ a, x = .ok a → P a) :=
  match x with
  | .ok a => decidable_of_iff (P a) ⟨fun h _ ha => Except.ok.inj ha ▸ h, fun h => h a rfl⟩
  | .error _ => isTrue nofun

/-- The outcome of a computation, or a value that stands in where it refuses. -/
def valueOr (default : α) : Result α → α
  | .ok a => a
  | .error _ => default

theorem eq_ok_valueOr {x : Result α} {a : α} (default : α) (h : x = .ok a) :
    x = .ok (valueOr default x) := by
  rw [h]
  rfl

/-- The computation fails for no other reason than the given one. -/
def FailsOnly (cause : Cause) (x : Result α) : Prop := ∀ e, x = .error e → e = .of cause

theorem FailsOnly.pure {cause : Cause} {a : α} : FailsOnly cause (.ok a : Result α) := nofun

theorem FailsOnly.bind {cause : Cause} {x : Result α} {f : α → Result β} (hx : FailsOnly cause x)
    (hf : ∀ a, FailsOnly cause (f a)) : FailsOnly cause (x >>= f) := fun e h =>
  (bind_eq_error.mp h).elim (hx e) fun ⟨a, _, h⟩ => hf a e h

/-! ### Lists of computations -/

/-- A list of steps succeeds if each of them does, with the list of their outcomes. -/
theorem mapM_eq_ok {f : α → Result β} {as : List α} {bs : List β} :
    as.mapM f = .ok bs ↔ List.Forall₂ (fun a b => f a = .ok b) as bs := by
  induction as generalizing bs with
  | nil =>
      rw [List.mapM_nil, pure_eq_ok, List.forall₂_nil_left_iff]
      exact eq_comm
  | cons a as ih =>
      rw [List.mapM_cons, bind_eq_ok]
      constructor
      · rintro ⟨b, hb, h⟩
        obtain ⟨bs', hbs, h⟩ := bind_eq_ok.mp h
        rw [← pure_eq_ok.mp h]
        exact .cons hb (ih.mp hbs)
      · intro h
        cases h with
        | cons hb hbs => exact ⟨_, hb, bind_eq_ok.mpr ⟨_, ih.mpr hbs, rfl⟩⟩

theorem mapM_ok {f : α → Result β} {g : α → β} {as : List α}
    (h : ∀ a ∈ as, f a = .ok (g a)) : as.mapM f = .ok (as.map g) := by
  rw [mapM_eq_ok, List.forall₂_map_right_iff, List.forall₂_same]
  exact h

theorem mapM_congr {f g : α → Result β} {as : List α} (h : ∀ a ∈ as, f a = g a) :
    as.mapM f = as.mapM g := by
  induction as with
  | nil => rfl
  | cons a as ih =>
      obtain ⟨ha, has⟩ := List.forall_mem_cons.mp h
      rw [List.mapM_cons, List.mapM_cons, ha, ih has]

/-- A list of steps succeeds if each of them does. -/
theorem exists_mapM {f : α → Result β} {as : List α} (h : ∀ a ∈ as, ∃ b, f a = .ok b) :
    ∃ bs, as.mapM f = .ok bs := by
  induction as with
  | nil => exact ⟨_, rfl⟩
  | cons a as ih =>
      obtain ⟨b, hb⟩ := h a List.mem_cons_self
      obtain ⟨bs, hbs⟩ := ih fun a ha => h a (List.mem_cons_of_mem _ ha)
      exact ⟨b :: bs, mapM_eq_ok.mpr (.cons hb (mapM_eq_ok.mp hbs))⟩

/-- The steps of a list are a first one and those of the rest. -/
theorem mapM_cons_eq_ok {f : α → Result β} {a : α} {as : List α} {bs : List β} :
    (a :: as).mapM f = .ok bs ↔ ∃ b cs, f a = .ok b ∧ as.mapM f = .ok cs ∧ bs = b :: cs := by
  simp only [mapM_eq_ok, List.forall₂_cons_left_iff]

/-- A list of steps fails because one of them does. -/
theorem mapM_eq_error {f : α → Result β} {as : List α} {e : Error}
    (h : as.mapM f = .error e) : ∃ a ∈ as, f a = .error e := by
  induction as with
  | nil => cases h
  | cons a as ih =>
      rw [List.mapM_cons] at h
      rcases bind_eq_error.mp h with h | ⟨_, -, h⟩
      · exact ⟨a, List.mem_cons_self, h⟩
      · rcases bind_eq_error.mp h with h | ⟨_, -, h⟩
        · obtain ⟨b, hb, h⟩ := ih h
          exact ⟨b, List.mem_cons_of_mem _ hb, h⟩
        · cases h

theorem FailsOnly.mapM {cause : Cause} {f : α → Result β} {as : List α}
    (h : ∀ a ∈ as, FailsOnly cause (f a)) : FailsOnly cause (as.mapM f) := fun e he =>
  let ⟨a, ha, he⟩ := mapM_eq_error he
  h a ha e he

theorem FailsOnly.all {cause : Cause} {outcomes : List (Result α)}
    (h : ∀ x ∈ outcomes, FailsOnly cause x) : FailsOnly cause (all outcomes) := mapM h

/-- A list of outcomes gives values if each of them does. -/
theorem exists_all {outcomes : List (Result α)} (h : ∀ x ∈ outcomes, ∃ a, x = .ok a) :
    ∃ as, all outcomes = .ok as := exists_mapM h

/-- What a list of steps gives, a list of steps gives that can do as much. -/
theorem mapM_mono {f g : α → Result β} {as : List α} {bs : List β}
    (h : ∀ a ∈ as, ∀ b, f a = .ok b → g a = .ok b) (hbs : as.mapM f = .ok bs) :
    as.mapM g = .ok bs := by
  induction as generalizing bs with
  | nil => exact hbs
  | cons a as ih =>
      obtain ⟨b, cs, hb, hcs, rfl⟩ := mapM_cons_eq_ok.mp hbs
      exact mapM_cons_eq_ok.mpr ⟨b, cs, h a List.mem_cons_self b hb,
        ih (fun a ha => h a (List.mem_cons_of_mem _ ha)) hcs, rfl⟩

/-- The outcomes of a list of steps stand at the places of their steps. -/
theorem getElem?_of_mapM {f : α → Result β} {as : List α} {bs : List β} {i : Nat} {b : β}
    (h : as.mapM f = .ok bs) : bs[i]? = some b ↔ ∃ a, as[i]? = some a ∧ f a = .ok b := by
  induction as generalizing bs i with
  | nil =>
      obtain rfl := pure_eq_ok.mp h
      simp
  | cons a as ih =>
      obtain ⟨c, cs, hc, hcs, rfl⟩ := mapM_cons_eq_ok.mp h
      cases i with
      | zero => simp [hc, eq_comm]
      | succ i => simpa using ih hcs

/-- A list of questions is answered if each of them is. -/
theorem exists_anyM {f : α → Result Bool} {as : List α} (h : ∀ a ∈ as, ∃ b, f a = .ok b) :
    ∃ b, as.anyM f = .ok b := by
  induction as with
  | nil => exact ⟨_, rfl⟩
  | cons a as ih =>
      obtain ⟨b, hb⟩ := h a List.mem_cons_self
      rw [List.anyM, bind_ok hb]
      cases b with
      | true => exact ⟨_, rfl⟩
      | false => exact ih fun a ha => h a (List.mem_cons_of_mem _ ha)

/-- If none of several questions is answered with yes, each is answered with no. -/
theorem eq_false_of_anyM {f : α → Result Bool} {as : List α} (h : as.anyM f = .ok false) :
    ∀ a ∈ as, f a = .ok false := by
  induction as with
  | nil => nofun
  | cons a as ih =>
      obtain ⟨b, hb, h⟩ := bind_eq_ok.mp h
      cases b with
      | true => cases pure_eq_ok.mp h
      | false =>
          rintro c hc
          rcases List.mem_cons.mp hc with rfl | hc
          · exact hb
          · exact ih h c hc

theorem mapM_mem_left {f : α → Result β} {as : List α} {bs : List β} (h : as.mapM f = .ok bs)
    {a : α} (ha : a ∈ as) : ∃ b ∈ bs, f a = .ok b := by
  rw [mapM_eq_ok] at h
  induction h with
  | nil => exact absurd ha List.not_mem_nil
  | cons hab _ ih =>
      rcases List.mem_cons.mp ha with rfl | ha
      · exact ⟨_, List.mem_cons_self .., hab⟩
      · obtain ⟨b, hb, hab⟩ := ih ha
        exact ⟨b, List.mem_cons_of_mem _ hb, hab⟩

theorem mapM_mem_right {f : α → Result β} {as : List α} {bs : List β} (h : as.mapM f = .ok bs)
    {b : β} (hb : b ∈ bs) : ∃ a ∈ as, f a = .ok b := by
  rw [mapM_eq_ok] at h
  induction h with
  | nil => exact absurd hb List.not_mem_nil
  | cons hab _ ih =>
      rcases List.mem_cons.mp hb with rfl | hb
      · exact ⟨_, List.mem_cons_self .., hab⟩
      · obtain ⟨a, ha, hab⟩ := ih hb
        exact ⟨a, List.mem_cons_of_mem _ ha, hab⟩

/-- Outcomes stand in a relation if what they come from stands in one that implies it. -/
theorem mapM_pairwise {f : α → Result β} {S : α → α → Prop} {T : β → β → Prop} {as : List α}
    {bs : List β} (h : as.mapM f = .ok bs) (has : as.Pairwise S)
    (step : ∀ a ∈ as, ∀ a' ∈ as, ∀ b b', S a a' → f a = .ok b → f a' = .ok b' → T b b') :
    bs.Pairwise T := by
  induction as generalizing bs with
  | nil =>
      obtain rfl := pure_eq_ok.mp h
      exact .nil
  | cons a as ih =>
      rw [List.mapM_cons] at h
      obtain ⟨b, hb, h⟩ := bind_eq_ok.mp h
      obtain ⟨cs, hcs, h⟩ := bind_eq_ok.mp h
      obtain rfl := pure_eq_ok.mp h
      obtain ⟨hhead, htail⟩ := List.pairwise_cons.mp has
      refine List.pairwise_cons.mpr ⟨fun c hc => ?_, ih hcs htail fun a ha a' ha' =>
        step a (List.mem_cons_of_mem _ ha) a' (List.mem_cons_of_mem _ ha')⟩
      obtain ⟨a', ha', hc⟩ := mapM_mem_right hcs hc
      exact step a List.mem_cons_self a' (List.mem_cons_of_mem _ ha') b c (hhead a' ha') hb hc

/-- A list of checks passes if each of them does. -/
theorem forM_eq_ok {f : α → Result PUnit} {as : List α} :
    as.forM f = .ok () ↔ ∀ a ∈ as, f a = .ok () := by
  induction as with
  | nil => exact ⟨fun _ _ ha => absurd ha List.not_mem_nil, fun _ => rfl⟩
  | cons a as ih =>
      rw [List.forall_mem_cons, ← ih]
      exact check_eq_ok

/-- A list of checks fails because one of them does. -/
theorem forM_eq_error {f : α → Result PUnit} {as : List α} {e : Error}
    (h : as.forM f = .error e) : ∃ a ∈ as, f a = .error e := by
  induction as with
  | nil => cases h
  | cons a as ih =>
      rcases bind_eq_error.mp h with h | ⟨_, -, h⟩
      · exact ⟨a, List.mem_cons_self, h⟩
      · obtain ⟨b, hb, h⟩ := ih h
        exact ⟨b, List.mem_cons_of_mem _ hb, h⟩

/-- The last step of a loop. -/
theorem foldlM_concat_eq_ok {f : σ → α → Result σ} {as : List α} {a : α} {s t : σ} :
    (as ++ [a]).foldlM f s = .ok t ↔ ∃ m, as.foldlM f s = .ok m ∧ f m a = .ok t := by
  rw [List.foldlM_append, bind_eq_ok]
  refine exists_congr fun m => and_congr_right fun _ => ?_
  rw [List.foldlM_cons, bind_eq_ok]
  constructor
  · rintro ⟨_, h, ⟨⟩⟩
    exact h
  · exact fun h => ⟨t, h, rfl⟩

/-- A fact about what is processed and the state, kept by each step, holds at the end. -/
theorem foldlM_induct {f : σ → α → Result σ} {motive : List α → σ → Prop} {as : List α}
    {s t : σ} (h : as.foldlM f s = .ok t) (start : motive [] s)
    (step : ∀ pre a post s t, as = pre ++ a :: post → motive pre s → f s a = .ok t →
      motive (pre ++ [a]) t) : motive as t := by
  suffices ∀ post pre s, as = pre ++ post → motive pre s → post.foldlM f s = .ok t →
      motive as t from this as [] s rfl start h
  intro post
  induction post with
  | nil =>
      intro pre s hsplit hs h
      rw [List.append_nil] at hsplit
      rw [List.foldlM_nil, pure_eq_ok] at h
      rw [hsplit, ← h]
      exact hs
  | cons a post ih =>
      intro pre s hsplit hs h
      rw [List.foldlM_cons, bind_eq_ok] at h
      obtain ⟨u, hu, h⟩ := h
      exact ih (pre ++ [a]) u (by simp [hsplit]) (step pre a post s u hsplit hs hu) h

/-- A loop succeeds if, from every state with a fact about what is processed, the next step does and
keeps the fact. -/
theorem foldlM_ok {f : σ → α → Result σ} {motive : List α → σ → Prop} {as : List α} {s : σ}
    (start : motive [] s)
    (step : ∀ pre a post s, as = pre ++ a :: post → motive pre s →
      ∃ t, f s a = .ok t ∧ motive (pre ++ [a]) t) : ∃ t, as.foldlM f s = .ok t ∧ motive as t := by
  suffices ∀ post pre s, as = pre ++ post → motive pre s →
      ∃ t, post.foldlM f s = .ok t ∧ motive as t from this as [] s rfl start
  intro post
  induction post with
  | nil =>
      intro pre s hsplit hs
      rw [List.append_nil] at hsplit
      exact ⟨s, rfl, hsplit ▸ hs⟩
  | cons a post ih =>
      intro pre s hsplit hs
      obtain ⟨u, hu, hkept⟩ := step pre a post s hsplit hs
      obtain ⟨t, ht, htkept⟩ := ih (pre ++ [a]) u (by simp [hsplit]) hkept
      exact ⟨t, by rw [List.foldlM_cons, bind_ok hu, ht], htkept⟩

/-- What each step keeps, the loop keeps. -/
theorem foldlM_keeps {f : σ → α → Result σ} {motive : σ → Prop} {as : List α} {s t : σ}
    (h : as.foldlM f s = .ok t) (start : motive s)
    (step : ∀ a ∈ as, ∀ s t, motive s → f s a = .ok t → motive t) : motive t :=
  foldlM_induct (motive := fun _ => motive) h start fun _ a _ s t hsplit hs ht =>
    step a (by simp [hsplit]) s t hs ht

/-- A loop of which each step is a loop over a part is the loop over all parts. -/
theorem foldlM_flatten {f : σ → α → Result σ} {g : σ → β → Result σ} {part : α → Result (List β)}
    {motive : σ → Prop} {as : List α} {parts : List (List β)} {s : σ}
    (h : as.mapM part = .ok parts) (start : motive s)
    (step : ∀ a ∈ as, ∀ bs s, part a = .ok bs → motive s → f s a = bs.foldlM g s ∧
      ∀ t, bs.foldlM g s = .ok t → motive t) : as.foldlM f s = parts.flatten.foldlM g s := by
  induction as generalizing s parts with
  | nil =>
      obtain rfl := pure_eq_ok.mp h
      rfl
  | cons a as ih =>
      rw [List.mapM_cons] at h
      obtain ⟨bs, hbs, h⟩ := bind_eq_ok.mp h
      obtain ⟨rest, hrest, h⟩ := bind_eq_ok.mp h
      obtain rfl := pure_eq_ok.mp h
      obtain ⟨heq, hkept⟩ := step a List.mem_cons_self bs s hbs start
      rw [List.foldlM_cons, List.flatten_cons, List.foldlM_append, heq]
      exact bind_congr fun t ht => ih hrest (hkept t ht) fun a ha =>
        step a (List.mem_cons_of_mem _ ha)

/-- Every state that a loop meets is good for the element that it looks at next. -/
def Along (f : σ → α → Result σ) (good : σ → α → Prop) : List α → σ → Prop
  | [], _ => True
  | a :: as, s => good s a ∧
    match f s a with
    | .ok t => Along f good as t
    | .error _ => True

instance {f : σ → α → Result σ} {good : σ → α → Prop} [∀ s a, Decidable (good s a)] (as : List α)
    (s : σ) : Decidable (Along f good as s) := by
  induction as generalizing s with
  | nil => exact isTrue trivial
  | cons a as ih =>
      unfold Along
      cases f s a with
      | ok t => exact @instDecidableAnd _ _ _ (ih t)
      | error e => exact inferInstance

/-- A step of a loop that meets good states only. -/
theorem Along.step {f : σ → α → Result σ} {good : σ → α → Prop} {a : α} {as : List α} {s t : σ}
    (h : Along f good (a :: as) s) (ht : f s a = .ok t) : good s a ∧ Along f good as t := by
  unfold Along at h
  rw [ht] at h
  exact h

/-- A loop meets good states only, if a fact about what is processed and the state makes each of
them good and is kept by each step. -/
theorem Along.of_keeps {f : σ → α → Result σ} {good : σ → α → Prop}
    {motive : List α → σ → Prop} {as : List α} {s : σ} (start : motive [] s)
    (isGood : ∀ pre a post t, as = pre ++ a :: post → motive pre t → good t a)
    (step : ∀ pre a post t u, as = pre ++ a :: post → motive pre t → f t a = .ok u →
      motive (pre ++ [a]) u) : Along f good as s := by
  suffices ∀ post pre t, as = pre ++ post → motive pre t → Along f good post t from
    this as [] s rfl start
  intro post
  induction post with
  | nil => exact fun _ _ _ _ => trivial
  | cons a post ih =>
      intro pre t hsplit ht
      refine ⟨isGood pre a post t hsplit ht, ?_⟩
      cases hstep : f t a with
      | error e => trivial
      | ok u =>
          exact ih (pre ++ [a]) u (by simp [hsplit]) (step pre a post t u hsplit ht hstep)

/-- What each step from a good state keeps, a loop keeps that meets good states only. -/
theorem Along.foldlM_keeps {f : σ → α → Result σ} {good : σ → α → Prop} {motive : σ → Prop}
    {as : List α} {s t : σ} (halong : Along f good as s) (h : as.foldlM f s = .ok t)
    (start : motive s)
    (step : ∀ s a t, motive s → good s a → f s a = .ok t → motive t) : motive t := by
  induction as generalizing s with
  | nil =>
      rw [List.foldlM_nil, pure_eq_ok] at h
      exact h ▸ start
  | cons a as ih =>
      rw [List.foldlM_cons, bind_eq_ok] at h
      obtain ⟨u, hu, h⟩ := h
      obtain ⟨hgood, halong⟩ := halong.step hu
      exact ih halong h (step s a u start hgood hu)

end Result

namespace Fresh

variable {α β σ : Type} {next next' : Nat}

theorem bind_eq_ok {x : Fresh α} {f : α → Fresh β} {b : β} :
    (x >>= f) next = .ok (b, next') ↔ ∃ a n, x next = .ok (a, n) ∧ f a n = .ok (b, next') := by
  change (x next >>= fun r => f r.1 r.2) = _ ↔ _
  rw [Result.bind_eq_ok]
  exact ⟨fun ⟨r, hr, h⟩ => ⟨r.1, r.2, hr, h⟩, fun ⟨a, n, hr, h⟩ => ⟨(a, n), hr, h⟩⟩

theorem pure_eq_ok {a b : α} :
    (pure a : Fresh α) next = .ok (b, next') ↔ a = b ∧ next = next' := by
  change (Except.ok (a, next) : Result (α × Nat)) = _ ↔ _
  simp

/-- A computation without fresh ids, seen as one with them. -/
theorem lift_eq_ok {x : Result α} {a : α} :
    (liftM x : Fresh α) next = .ok (a, next') ↔ x = .ok a ∧ next = next' := by
  change (x >>= fun a => pure (a, next)) = _ ↔ _
  rw [Result.bind_eq_ok]
  constructor
  · rintro ⟨b, hb, h⟩
    cases Result.pure_eq_ok.mp h
    exact ⟨hb, rfl⟩
  · rintro ⟨ha, rfl⟩
    exact ⟨a, ha, rfl⟩

theorem bind_ok {x : Fresh α} {f : α → Fresh β} {a : α} {n : Nat} (h : x next = .ok (a, n)) :
    (x >>= f) next = f a n := by
  change (x next >>= fun r => f r.1 r.2) = _
  rw [h]
  rfl

/-- A computation without fresh ids that succeeds takes none. -/
theorem lift_ok {x : Result α} {a : α} (h : x = .ok a) :
    (liftM x : Fresh α) next = .ok (a, next) :=
  lift_eq_ok.mpr ⟨h, rfl⟩

theorem bind_congr {x : Fresh α} {f g : α → Fresh β}
    (h : ∀ a n, x next = .ok (a, n) → f a n = g a n) : (x >>= f) next = (x >>= g) next :=
  Result.bind_congr fun r hr => h r.1 r.2 hr

/-- A traversal that takes no numbers. -/
theorem mapM_lift {f : α → Result β} {as : List α} {bs : List β} :
    (as.mapM fun a => (liftM (f a) : Fresh β)) next = .ok (bs, next') ↔
      as.mapM f = .ok bs ∧ next = next' := by
  induction as generalizing bs next next' with
  | nil => simp only [List.mapM_nil, pure_eq_ok, Result.pure_eq_ok]
  | cons a as ih =>
      rw [List.mapM_cons, bind_eq_ok, List.mapM_cons]
      constructor
      · rintro ⟨b, n, hlift, h⟩
        obtain ⟨hb, rfl⟩ := lift_eq_ok.mp hlift
        obtain ⟨cs, n', hrest, h⟩ := bind_eq_ok.mp h
        obtain ⟨hcs, rfl⟩ := ih.mp hrest
        obtain ⟨rfl, rfl⟩ := pure_eq_ok.mp h
        exact ⟨Result.bind_eq_ok.mpr ⟨b, hb, Result.bind_ok hcs⟩, rfl⟩
      · rintro ⟨h, rfl⟩
        obtain ⟨b, hb, h⟩ := Result.bind_eq_ok.mp h
        obtain ⟨cs, hcs, h⟩ := Result.bind_eq_ok.mp h
        obtain rfl := Result.pure_eq_ok.mp h
        exact ⟨b, next, lift_ok hb, bind_eq_ok.mpr ⟨cs, next, ih.mpr ⟨hcs, rfl⟩, rfl⟩⟩

theorem freshId_eq_ok {n : Nat} : freshId next = .ok (n, next') ↔ next = n ∧ next + 1 = next' := by
  change (Except.ok (next, next + 1) : Result (Nat × Nat)) = _ ↔ _
  simp

/-- A loop that takes fresh ids carries the next one along. -/
theorem foldlM_eq {f : σ → α → Fresh σ} {as : List α} {s : σ} :
    as.foldlM f s next = as.foldlM (fun (s : σ × Nat) a => f s.1 a s.2) (s, next) := by
  induction as generalizing s next with
  | nil => rfl
  | cons a as ih =>
      rw [List.foldlM_cons, List.foldlM_cons]
      exact congrArg (f s a next >>= ·) (funext fun _ => ih)

/-- What each step keeps, the loop keeps. -/
theorem foldlM_keeps {f : σ → α → Fresh σ} {motive : σ → Prop} {as : List α} {s t : σ}
    (h : as.foldlM f s next = .ok (t, next')) (start : motive s)
    (step : ∀ a ∈ as, ∀ s t n n', motive s → f s a n = .ok (t, n') → motive t) : motive t := by
  induction as generalizing s next with
  | nil =>
      rw [List.foldlM_nil, pure_eq_ok] at h
      exact h.1 ▸ start
  | cons a as ih =>
      rw [List.foldlM_cons, bind_eq_ok] at h
      obtain ⟨u, n, hu, h⟩ := h
      exact ih h (step a (List.mem_cons_self ..) s u next n start hu)
        fun b hb => step b (List.mem_cons_of_mem _ hb)

end Fresh

namespace Build

variable {α β σ : Type} {s s' : BuildState}

theorem bind_eq_ok {x : Build α} {f : α → Build β} {b : β} :
    (x >>= f) s = .ok (b, s') ↔ ∃ a t, x s = .ok (a, t) ∧ f a t = .ok (b, s') := by
  change (x s >>= fun r => f r.1 r.2) = _ ↔ _
  rw [Result.bind_eq_ok]
  exact ⟨fun ⟨r, hr, h⟩ => ⟨r.1, r.2, hr, h⟩, fun ⟨a, t, hr, h⟩ => ⟨(a, t), hr, h⟩⟩

theorem bind_ok {x : Build α} {f : α → Build β} {a : α} (h : x s = .ok (a, s')) :
    (x >>= f) s = f a s' := by
  change (x s >>= fun r => f r.1 r.2) = _
  rw [h]
  rfl

theorem pure_eq_ok {a b : α} :
    (pure a : Build α) s = .ok (b, s') ↔ a = b ∧ s = s' := by
  change (Except.ok (a, s) : Result (α × BuildState)) = _ ↔ _
  simp

/-- A computation without a build state, seen as one with it. -/
theorem lift_eq_ok {x : Result α} {a : α} :
    (liftM x : Build α) s = .ok (a, s') ↔ x = .ok a ∧ s = s' := by
  change (x >>= fun a => pure (a, s)) = _ ↔ _
  rw [Result.bind_eq_ok]
  constructor
  · rintro ⟨b, hb, h⟩
    cases Result.pure_eq_ok.mp h
    exact ⟨hb, rfl⟩
  · rintro ⟨ha, rfl⟩
    exact ⟨a, ha, rfl⟩

/-- What follows a computation without a build state starts from the same state. -/
theorem bind_lift_eq_ok {x : Result α} {f : α → Build β} {b : β} :
    ((liftM x : Build α) >>= f) s = .ok (b, s') ↔ ∃ a, x = .ok a ∧ f a s = .ok (b, s') := by
  rw [bind_eq_ok]
  constructor
  · rintro ⟨a, t, hx, h⟩
    obtain ⟨ha, rfl⟩ := lift_eq_ok.mp hx
    exact ⟨a, ha, h⟩
  · rintro ⟨a, ha, h⟩
    exact ⟨a, s, lift_eq_ok.mpr ⟨ha, rfl⟩, h⟩

/-- A loop up to an element, the step for it, and the loop behind it. -/
theorem foldlM_split {f : σ → α → Build σ} {pre post : List α} {a : α} {x y : σ} :
    (pre ++ a :: post).foldlM f x s = .ok (y, s') ↔ ∃ u t v t', pre.foldlM f x s = .ok (u, t) ∧
      f u a t = .ok (v, t') ∧ post.foldlM f v t' = .ok (y, s') := by
  rw [List.foldlM_append, bind_eq_ok]
  refine exists_congr fun u => exists_congr fun t => ?_
  rw [List.foldlM_cons, bind_eq_ok]
  simp only [exists_and_left]

theorem ofFresh_eq_ok {x : Fresh α} {a : α} :
    ofFresh x s = .ok (a, s') ↔ ∃ n, x s.nextId = .ok (a, n) ∧ { s with nextId := n } = s' := by
  change (x s.nextId >>= fun r => pure (r.1, { s with nextId := r.2 })) = _ ↔ _
  rw [Result.bind_eq_ok]
  constructor
  · rintro ⟨r, hr, h⟩
    cases Result.pure_eq_ok.mp h
    exact ⟨r.2, hr, rfl⟩
  · rintro ⟨n, hr, rfl⟩
    exact ⟨(a, n), hr, rfl⟩

/-- Whatever a step gives, if it gives anything, satisfies a condition. -/
def Gives (m : Build α) (P : α → Prop) : Prop := ∀ s a s', m s = .ok (a, s') → P a

namespace Gives

variable {m : Build α} {f : α → Build β} {P : α → Prop} {Q : β → Prop}

theorem pure {a : α} (h : P a) : Gives (Pure.pure a) P := fun _ _ _ hrun =>
  (pure_eq_ok.mp hrun).1 ▸ h

theorem lift {x : Result α} (h : ∀ a, x = .ok a → P a) : Gives (liftM x) P :=
  fun _ a _ hrun => h a (lift_eq_ok.mp hrun).1

theorem fail {cause : Cause} : Gives (liftM (Result.fail cause : Result α)) P :=
  lift fun _ h => absurd h Result.fail_ne_ok

theorem bind (hm : Gives m P) (hf : ∀ a, P a → Gives (f a) Q) : Gives (m >>= f) Q := by
  intro s b s' hrun
  obtain ⟨a, t, ha, hb⟩ := bind_eq_ok.mp hrun
  exact hf a (hm s a t ha) t b s' hb

/-- A step about whose outcome nothing has to be known. -/
theorem skip (hf : ∀ a, Gives (f a) Q) : Gives (m >>= f) Q := by
  intro s b s' hrun
  obtain ⟨a, t, -, hb⟩ := bind_eq_ok.mp hrun
  exact hf a t b s' hb

/-- What holds of the outcome of each step holds of every outcome. -/
theorem mapM {as : List α} (h : ∀ a ∈ as, Gives (f a) Q) :
    Gives (as.mapM f) fun bs => ∀ b ∈ bs, Q b := by
  induction as with
  | nil =>
      rw [List.mapM_nil]
      exact .pure fun b hb => absurd hb List.not_mem_nil
  | cons a as ih =>
      rw [List.mapM_cons]
      refine .bind (h a List.mem_cons_self) fun b hb => ?_
      refine .bind (ih fun a ha => h a (List.mem_cons_of_mem _ ha)) fun bs hbs => .pure ?_
      exact List.forall_mem_cons.mpr ⟨hb, hbs⟩

/-- What each step keeps, the loop keeps. -/
theorem foldlM {f : σ → α → Build σ} {P : σ → Prop} {as : List α} {s : σ} (start : P s)
    (step : ∀ a ∈ as, ∀ s, P s → Gives (f s a) P) : Gives (as.foldlM f s) P := by
  induction as generalizing s with
  | nil =>
      rw [List.foldlM_nil]
      exact .pure start
  | cons a as ih =>
      rw [List.foldlM_cons]
      exact .bind (step a List.mem_cons_self s start) fun t ht =>
        ih ht fun a ha => step a (List.mem_cons_of_mem _ ha)

end Gives

end Build

end QueryPlan
