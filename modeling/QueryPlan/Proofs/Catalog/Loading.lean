import QueryPlan.Catalog.Reader
import QueryPlan.Proofs.Outcome
/-!
# QueryPlan.Proofs.Catalog.Loading

**Catalogs that are loaded and catalogs that are filled.** A document is taken as it lists its tables,
and of several tables of one name the first one is found. Inserting a table takes out the others of
its name, so of the tables that are inserted the last one is found (`Catalog.table?_insertAll`). The
two agree on a name exactly if the first table of that name is also the last one, or if one is
inserted later on (`Catalog.loading_agrees_iff`).
-/

namespace QueryPlan

/-! ### Tables in documents -/

theorem SqlKind.ofJson?_identifier (kind : SqlKind) : ofJson? (.string kind.identifier) = some kind := by
  cases kind <;> rfl

/-- Precision and scale fit into 32 bits. -/
def SqlType.Fits (t : SqlType) : Prop :=
  (-(2 ^ 31) ≤ t.precision ∧ t.precision < 2 ^ 31) ∧ -(2 ^ 31) ≤ t.scale ∧ t.scale < 2 ^ 31

instance : DecidablePred SqlType.Fits := fun _ => inferInstanceAs (Decidable (_ ∧ _))

/-- The id fits into 64 bits, and what the types of the columns say into 32. -/
def Table.Fits (t : Table) : Prop :=
  (-(2 ^ 63) ≤ t.id ∧ t.id < 2 ^ 63) ∧ ∀ c ∈ t.columns, c.type.Fits

instance : DecidablePred Table.Fits := fun _ => inferInstanceAs (Decidable (_ ∧ _))

theorem Json.toInt?_integer {i : Int} (h : i < 2 ^ 63) : (Json.integer i).toInt? = some i := if_pos h

theorem Json.toInt32?_integer {i : Int} (hle : -(2 ^ 31) ≤ i) (hlt : i < 2 ^ 31) :
    (Json.integer i).toInt32? = some i := by
  rw [toInt32?, toInt?_integer (by omega)]
  simp only [Option.bind_eq_bind, Option.bind_some, hle, hlt, decide_true, Bool.and_self, if_true]

theorem SqlType.ofJson?_toJson {t : SqlType} (h : t.Fits) : ofJson? t.toJson = some t := by
  obtain ⟨⟨hprecision, hprecision'⟩, hscale, hscale'⟩ := h
  have hrecord : t.toJson.record? fields = some [some (.string t.kind.identifier),
    some (.bool t.nullable), some (.integer t.precision), some (.integer t.scale)] := rfl
  simp only [ofJson?, hrecord, Option.bind_eq_bind, Option.bind_some, SqlKind.ofJson?_identifier,
    Json.toBool?, Json.fieldOr, Json.toInt32?_integer hprecision hprecision',
    Json.toInt32?_integer hscale hscale']
  rfl

theorem ColumnInfo.ofJson?_toJson {c : ColumnInfo} (h : c.type.Fits) : ofJson? c.toJson = some c := by
  have hrecord : c.toJson.record? fields = some [some (.string c.name), some c.type.toJson] := rfl
  simp only [ofJson?, hrecord, Option.bind_eq_bind, Option.bind_some, Json.toText?,
    SqlType.ofJson?_toJson h]
  rfl

/-- What is read of each element is the element itself. -/
theorem mapM_read {α : Type} {read : Json → Option α} {write : α → Json} {as : List α}
    (h : ∀ a ∈ as, read (write a) = some a) : (as.map write).mapM read = some as := by
  induction as with
  | nil => rfl
  | cons a as ih =>
      rw [List.map_cons, List.mapM_cons, h a List.mem_cons_self,
        ih fun a ha => h a (List.mem_cons_of_mem _ ha)]
      rfl

theorem Table.ofJson?_toJson {t : Table} (h : t.Fits) : ofJson? t.toJson = some t := by
  obtain ⟨⟨-, hid⟩, hcolumns⟩ := h
  have hrecord : t.toJson.record? fields = some [some (.integer t.id), some (.string t.name),
    some (.array (t.columns.map ColumnInfo.toJson)), some (.bool t.isView)] := rfl
  simp only [ofJson?, hrecord, Option.bind_eq_bind, Option.bind_some, Json.toInt?_integer hid,
    Json.toText?, Json.toList?, mapM_read fun c hc => ColumnInfo.ofJson?_toJson (hcolumns c hc),
    Json.fieldOr, Json.toBool?]
  rfl

namespace Catalog

/-- A document is taken as it lists its tables. -/
theorem ofJson_tables {elements : List Json} {tables : List Table}
    (h : elements.mapM Table.ofJson? = some tables) :
    ofJson (.object [("tables", .array elements)]) = .ok ⟨tables⟩ := by
  have hrecord : (Json.object [("tables", .array elements)]).record? fields =
    some [some (.array elements)] := rfl
  simp only [ofJson, hrecord, Option.bind_eq_bind, Option.bind_some, Json.toList?, h]
  rfl

/-- What is written of a catalog is the catalog when it is read. -/
theorem ofJson_toJson {tables : List Table} (h : ∀ t ∈ tables, t.Fits) :
    ofJson (toJson ⟨tables⟩) = .ok ⟨tables⟩ :=
  ofJson_tables (mapM_read fun t ht => Table.ofJson?_toJson (h t ht))

/-! ### Tables by name -/

/-- The catalog with some tables inserted, one after another. -/
def insertAll (c : Catalog) (tables : List Table) : Catalog := tables.foldl insert c

variable {c : Catalog} {tables : List Table} {name : String}

/-- An inserted table is found, and tables of other names as before. -/
theorem table?_insert (c : Catalog) (t : Table) (name : String) :
    (c.insert t).table? name = if t.name = name then some t else c.table? name := by
  simp only [table?, insert, List.find?_append, List.find?_singleton, beq_iff_eq]
  by_cases h : t.name = name
  · have hnone : (c.tables.filter (·.name != t.name)).find? (·.name == name) = none :=
      List.find?_eq_none.mpr fun u hu hname =>
        bne_iff_ne.mp (List.mem_filter.mp hu).2 ((beq_iff_eq.mp hname).trans h.symm)
    rw [hnone, if_pos h, if_pos h, Option.none_or]
  · have hsame : (c.tables.filter (·.name != t.name)).find? (·.name == name) =
        c.tables.find? (·.name == name) := by
      -- No table of the name is filtered out, so the filter does not change the search.
      rw [List.find?_filter]
      congr 1
      funext u
      by_cases hu : u.name = name
      · simp [hu, Ne.symm h]
      · simp [hu]
    rw [hsame, if_neg h, if_neg h, Option.or_none]

/-- Of inserted tables of one name the last one is found. -/
theorem table?_insertAll (c : Catalog) (tables : List Table) (name : String) :
    (c.insertAll tables).table? name =
      (tables.reverse.find? (·.name == name)).or (c.table? name) := by
  induction tables generalizing c with
  | nil => rfl
  | cons t tables ih =>
      rw [insertAll, List.foldl_cons, ← insertAll, ih, table?_insert, List.reverse_cons,
        List.find?_append, Option.or_assoc]
      by_cases h : t.name = name
      · simp [h]
      · simp [h]

/-- Only a table of the name is found. -/
theorem isSome_find?_name {tables : List Table} {name : String} :
    (tables.reverse.find? (·.name == name)).isSome ↔ name ∈ tables.map Table.name := by
  simp

/-- If no two tables share a name, the first table of a name is the last one. -/
theorem find?_reverse_of_nodup {tables : List Table} (h : (tables.map Table.name).Nodup)
    (name : String) :
    tables.find? (·.name == name) = tables.reverse.find? (·.name == name) := by
  induction tables with
  | nil => rfl
  | cons t tables ih =>
      obtain ⟨hnew, htables⟩ := List.nodup_cons.mp h
      rw [List.reverse_cons, List.find?_append, ← ih htables]
      by_cases ht : t.name = name
      · have hnone : tables.find? (·.name == name) = none :=
          List.find?_eq_none.mpr fun u hu hname =>
            hnew (List.mem_map.mpr ⟨u, hu, (beq_iff_eq.mp hname).trans ht.symm⟩)
        simp [hnone, ht]
      · simp [ht]

/-! ### Loading against inserting -/

/-- **Loading and inserting.** A list of elements that stand for tables is loaded. On a name the loaded
catalog agrees with the one that the tables are inserted into, also after further insertions,
exactly if one of these is of the name or the first listed table of the name is also the last one.
If no two listed tables share a name, the two agree on every name. -/
theorem loading_agrees_iff {elements : List Json} {tables : List Table}
    (h : elements.mapM Table.ofJson? = some tables) :
    ∃ loaded, ofJson (.object [("tables", .array elements)]) = .ok loaded ∧
      (∀ name further,
        (loaded.insertAll further).table? name =
            ((empty.insertAll tables).insertAll further).table? name ↔
          name ∈ further.map Table.name ∨
            tables.find? (·.name == name) = tables.reverse.find? (·.name == name)) ∧
      ((tables.map Table.name).Nodup → ∀ name further,
        (loaded.insertAll further).table? name =
          ((empty.insertAll tables).insertAll further).table? name) := by
  have hfind : ∀ name further,
      (insertAll ⟨tables⟩ further).table? name =
          ((empty.insertAll tables).insertAll further).table? name ↔
        name ∈ further.map Table.name ∨
          tables.find? (·.name == name) = tables.reverse.find? (·.name == name) := by
    intro name further
    have hempty : empty.table? name = none := rfl
    rw [table?_insertAll, table?_insertAll, table?_insertAll, hempty, Option.or_none,
      ← isSome_find?_name]
    cases further.reverse.find? (·.name == name) with
    | none => simp [table?]
    | some t => simp
  exact ⟨⟨tables⟩, ofJson_tables h, hfind, fun hnodup name further =>
    (hfind name further).mpr (.inr (find?_reverse_of_nodup hnodup name))⟩

/-- Two tables of one name, without columns. -/
def olderAndNewer : List Table := [⟨1, "t", [], false⟩, ⟨2, "t", [], false⟩]

/-- After a table of the name the two agree again. -/
theorem loading_agrees_olderAndNewer :
    (olderAndNewer.map Table.toJson).mapM Table.ofJson? = some olderAndNewer ∧
    ∃ loaded,
      ofJson (.object [("tables", .array (olderAndNewer.map Table.toJson))]) = .ok loaded ∧
      (loaded.insertAll [⟨3, "t", [], true⟩]).table? "t" =
        ((empty.insertAll olderAndNewer).insertAll [⟨3, "t", [], true⟩]).table? "t" := by
  have hfits : ∀ t ∈ olderAndNewer, t.Fits := by decide
  have helements := mapM_read fun t ht => Table.ofJson?_toJson (hfits t ht)
  obtain ⟨loaded, hloaded, hagrees, -⟩ := loading_agrees_iff helements
  exact ⟨helements, loaded, hloaded,
    (hagrees "t" [⟨3, "t", [], true⟩]).mpr (.inl (by decide))⟩

/-- The loaded catalog finds the older table, and still does after a table of another name. -/
theorem loading_disagrees_olderAndNewer :
    ∃ loaded,
      ofJson (.object [("tables", .array (olderAndNewer.map Table.toJson))]) = .ok loaded ∧
      (loaded.table? "t").map Table.id = some 1 ∧
      ((empty.insertAll olderAndNewer).table? "t").map Table.id = some 2 ∧
      ((loaded.insert ⟨3, "u", [], false⟩).table? "t").map Table.id = some 1 ∧
      (((empty.insertAll olderAndNewer).insert ⟨3, "u", [], false⟩).table? "t").map Table.id =
        some 2 := by
  refine ⟨⟨olderAndNewer⟩, ofJson_toJson (by decide), ?_⟩
  decide

end Catalog

end QueryPlan
