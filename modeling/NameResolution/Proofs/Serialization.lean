import NameResolution.Json.Values

/-!
# Values in their serialized form

Whatever is written as JSON can be read back. A record is written as an object with all its fields,
so its reader finds each of them; a variant is written under its name, so its reader finds the
content. Floats are the exception, as JSON has no infinities and no NaN.

Main statement: `Json.survives_serialization`.
-/

namespace NameResolution

namespace Json

/-- The JSON values that a document can hold: the keys of each object are distinct, and integers
are between `-2^63` and `2^64 - 1`. -/
inductive WellFormed : Json → Prop where
  | null : WellFormed .null
  | bool (b : Bool) : WellFormed (.bool b)
  | integer {n : Int} (hlo : -(int64Count : Int) ≤ n) (hhi : n < word64Count) :
      WellFormed (.integer n)
  | real (x : Binary64) : WellFormed (.real x)
  | string (s : String) : WellFormed (.string s)
  | array {items : List Json} (hitems : ∀ j ∈ items, WellFormed j) : WellFormed (.array items)
  | object {fields : List (String × Json)} (hkeys : (fields.map (·.1)).Nodup)
      (hfields : ∀ f ∈ fields, WellFormed f.2) : WellFormed (.object fields)

/-- A value survives in its serialized form: a document is written for it, the document is read
back as the value, and the value read is written in the same way again. -/
structure Survives {α : Type} (write : α → Json) (read? : Json → Option α) (a : α) : Prop where
  wellFormed : (write a).WellFormed
  read : read? (write a) = some a
  rewrite : (read? (write a)).map write = some (write a)

/-- A value survives if it is written as well-formed JSON and read back as itself. -/
theorem Survives.of_read {α : Type} {write : α → Json} {read? : Json → Option α} {a : α}
    (hwell : (write a).WellFormed) (hread : read? (write a) = some a) :
    Survives write read? a :=
  ⟨hwell, hread, by rw [hread, Option.map_some]⟩

/-! ## plain values -/

theorem survives_bool (b : Bool) : Survives .bool asBool? b := .of_read (.bool b) rfl

theorem survives_string (s : String) : Survives .string asString? s := .of_read (.string s) rfl

theorem survives_uint32 (n : UInt32) : Survives ofUInt32 asUInt32? n := by
  have hn := n.toNat_lt
  refine .of_read (.integer (by unfold int64Count; omega) (by unfold word64Count; omega)) ?_
  simp only [asUInt32?, ofUInt32, asIntegerIn?]
  rw [if_pos (by omega)]
  simp

/-- The largest unsigned word is the largest integer that is well-formed. -/
theorem survives_uint64 (n : UInt64) : Survives (fun n => .integer n.toNat) asUInt64? n := by
  have hn := n.toNat_lt
  refine .of_read (.integer (by unfold int64Count; omega) (by unfold word64Count; omega)) ?_
  simp only [asUInt64?, asIntegerIn?]
  rw [if_pos (by omega)]
  simp

/-- The least signed word is the least integer that is well-formed. -/
theorem survives_int64 (n : Int64) : Survives (fun n => .integer n.toInt) asInt64? n := by
  have hlo := n.le_toInt
  have hhi := n.toInt_lt
  refine .of_read (.integer (by unfold int64Count; omega) (by unfold word64Count; omega)) ?_
  simp only [asInt64?, asIntegerIn?]
  rw [if_pos (by omega)]
  simp

/-- A list survives if its members do. -/
theorem survives_list {α : Type} {write : α → Json} {read? : Json → Option α}
    (h : ∀ a, Survives write read? a) (as : List α) :
    Survives (fun as => .array (as.map write)) (asListOf? read?) as := by
  refine .of_read (.array fun j hj => ?_) ?_
  · obtain ⟨a, -, rfl⟩ := List.mem_map.mp hj
    exact (h a).wellFormed
  · simp only [asListOf?, asArray?, Option.bind_some]
    induction as with
    | nil => rfl
    | cons a as ih => simp [(h a).read, ih]

/-- A value that may be absent survives as `null`, if no value that is there is written so. -/
theorem survives_option {α : Type} {write : α → Json} {read? : Json → Option α}
    (h : ∀ a, Survives write read? a) (hnull : ∀ a, write a ≠ .null) (o : Option α) :
    Survives (ofOption write) (asOption? read?) o := by
  cases o with
  | none => exact .of_read .null rfl
  | some a =>
      refine .of_read (h a).wellFormed ?_
      have hsome : (write a).asOption? read? = (read? (write a)).map some := by
        cases hj : write a with
        | null => exact absurd hj (hnull a)
        | _ => rfl
      rw [ofOption, hsome, (h a).read, Option.map_some]

/-! ## records -/

/-- An object with the fields of a record gives them in the order of their names. -/
theorem record?_object {names : List String} (hnames : names.Nodup) {values : List Json}
    (hlength : names.length = values.length) :
    (object (names.zip values)).record? names = some (values.map some) := by
  simp only [record?, Option.some.injEq]
  induction names generalizing values with
  | nil =>
      obtain rfl : values = [] := by simpa using hlength.symm
      rfl
  | cons name names ih =>
      obtain ⟨hnot, hnames⟩ := List.nodup_cons.mp hnames
      cases values with
      | nil => simp at hlength
      | cons value values =>
          -- The other names are looked up behind the first field.
          have hrest : names.map (((name, value) :: names.zip values).lookup ·) =
              names.map ((names.zip values).lookup ·) := by
            refine List.map_congr_left fun other hother => ?_
            have hne : (other == name) = false := by
              rw [beq_eq_false_iff_ne]
              rintro rfl
              exact hnot hother
            rw [List.lookup_cons, hne]
          rw [List.zip_cons_cons, List.map_cons, List.map_cons, List.lookup_cons_self, hrest,
            ih hnames (by simpa using hlength)]

/-- A record survives if its fields are well formed and its reader gets along with them. -/
theorem Survives.of_record {α : Type} {write : α → Json} {read? : Json → Option α} {a : α}
    {names : List String} (hnames : names.Nodup) (values : List Json)
    (hlength : names.length = values.length) (hwrite : write a = object (names.zip values))
    (hvalues : ∀ j ∈ values, j.WellFormed)
    (hread : (write a).record? names = some (values.map some) → read? (write a) = some a) :
    Survives write read? a := by
  refine .of_read ?_ (hread ?_)
  · rw [hwrite]
    refine .object ?_ fun f hf => hvalues f.2 (List.of_mem_zip hf).2
    rwa [List.map_fst_zip (by omega)]
  · rw [hwrite, record?_object hnames hlength]

/-! ## variants -/

/-- A variant without content survives as its name. -/
theorem survives_name {α : Type} {name : α → String} {ofName? : String → Option α}
    (h : ∀ a, ofName? (name a) = some a) (a : α) :
    Survives (fun a => .string (name a)) (fun j => j.plainVariant?.bind ofName?) a :=
  .of_read (.string (name a)) (h a)

/-- What is written under the name of a variant is well formed if the content is. -/
theorem wellFormed_under {content : Json} (h : content.WellFormed) (name : String) :
    (object [(name, content)]).WellFormed := by
  refine .object (by simp) fun f hf => ?_
  obtain rfl : f = (name, content) := by simpa using hf
  exact h

end Json

open Json (survives_bool survives_string survives_uint32 wellFormed_under)

/-! ## the types of the library -/

theorem Location.survives (l : Location) : Json.Survives toJson ofJson? l := by
  have hnames : ["line", "column", "offset", "length"].Nodup := by decide
  refine .of_record hnames
    [.ofUInt32 l.line, .ofUInt32 l.column, .ofUInt32 l.offset, .ofUInt32 l.length] rfl rfl
    (by simp [(survives_uint32 _).wellFormed]) fun hfields => ?_
  simp [ofJson?, hfields, Json.required?, (survives_uint32 _).read]

theorem Comment.survives (c : Comment) : Json.Survives toJson ofJson? c := by
  have hnames :
      ["content", "is_documentation", "is_multi_line", "is_trailing", "location"].Nodup := by
    decide
  refine .of_record hnames
    [.string c.content, .bool c.isDocumentation, .bool c.isMultiLine, .bool c.isTrailing,
      c.location.toJson] rfl rfl
    (by simp [(survives_string _).wellFormed, (survives_bool _).wellFormed,
      c.location.survives.wellFormed]) fun hfields => ?_
  simp [ofJson?, hfields, Json.required?, (survives_string _).read, (survives_bool _).read,
    c.location.survives.read]

theorem Annotation.survives (a : Annotation) : Json.Survives toJson ofJson? a := by
  cases a with
  | comment c =>
      refine .of_read (wellFormed_under c.survives.wellFormed "Comment") ?_
      simp [ofJson?, toJson, Json.variant?, c.survives.read]
  | blankLine l =>
      have hcontent := wellFormed_under l.survives.wellFormed "location"
      refine .of_read (wellFormed_under hcontent "BlankLine") ?_
      simp [ofJson?, toJson, Json.variant?, Json.required?, l.survives.read]

theorem Diagnostic.survives (d : Diagnostic) : Json.Survives toJson ofJson? d := by
  have hnames : ["severity", "message", "location"].Nodup := by decide
  have hseverity : Json.Survives Severity.toJson Severity.ofJson? d.severity :=
    Json.survives_name Severity.ofName?_name d.severity
  have hlocation := Json.survives_option Location.survives
    (fun l => by simp [Location.toJson]) d.location
  refine .of_record hnames
    [d.severity.toJson, .string d.message, .ofOption Location.toJson d.location] rfl rfl
    (by simp [hseverity.wellFormed, (survives_string _).wellFormed, hlocation.wellFormed])
    fun hfields => ?_
  simp [ofJson?, hfields, Json.required?, Json.optional?, hseverity.read, (survives_string _).read,
    hlocation.read]

theorem Declaration.survives (d : Declaration) : Json.Survives toJson ofJson? d := by
  have hnames : ["path", "name", "location"].Nodup := by decide
  refine .of_record hnames [.string d.path, .string d.name, d.location.toJson] rfl rfl
    (by simp [(survives_string _).wellFormed, d.location.survives.wellFormed]) fun hfields => ?_
  simp [ofJson?, hfields, Json.required?, (survives_string _).read, d.location.survives.read]

theorem Namespace.survives (n : Namespace) : Json.Survives toJson ofJson? n := by
  cases n with
  | builtin => exact .of_read (.string "Builtin") rfl
  | module path =>
      refine .of_read (wellFormed_under (survives_string path).wellFormed "Module") ?_
      simp [ofJson?, toJson, Json.variant?, Json.plainVariant?, (survives_string path).read]
  | scope id =>
      refine .of_read (wellFormed_under (survives_uint32 id).wellFormed "Scope") ?_
      have hread := (survives_uint32 id).read
      simp only [Json.ofUInt32] at hread
      simp [ofJson?, toJson, Json.variant?, Json.plainVariant?, Json.ofUInt32, hread]

/-- A constant other than a float survives. -/
theorem ConstValue.survives {c : ConstValue} (h : c.kind ≠ .float) :
    Json.Survives toJson ofJson? c := by
  cases c with
  | null => exact .of_read (.string "Null") rfl
  | boolean b =>
      refine .of_read (wellFormed_under (survives_bool b).wellFormed "Boolean") ?_
      simp [ofJson?, toJson, Json.variant?, Json.plainVariant?, (survives_bool b).read]
  | integer n =>
      refine .of_read (wellFormed_under (Json.survives_int64 n).wellFormed "Integer") ?_
      simp [ofJson?, toJson, Json.variant?, Json.plainVariant?, (Json.survives_int64 n).read]
  | float x => exact absurd rfl h
  | string s =>
      refine .of_read (wellFormed_under (survives_string s).wellFormed "String") ?_
      simp [ofJson?, toJson, Json.variant?, Json.plainVariant?, (survives_string s).read]

theorem Config.survives (c : Config) : Json.Survives toJson ofJson? c := by
  obtain ⟨builtins, stop, cap⟩ := c
  have hbuiltins := Json.survives_list survives_string builtins
  cases cap with
  | none =>
      refine .of_read (.object (by simp) ?_) ?_
      · simp [hbuiltins.wellFormed, (survives_bool stop).wellFormed]
      · simp [ofJson?, toJson, Json.settings?, List.lookup_cons, setting?, Json.optional?,
          hbuiltins.read, (survives_bool stop).read]
  | some cap =>
      have hcap := Json.survives_uint64 cap
      refine .of_read (.object (by simp) ?_) ?_
      · simp [hbuiltins.wellFormed, (survives_bool stop).wellFormed, hcap.wellFormed]
      · simp [ofJson?, toJson, Json.settings?, List.lookup_cons, setting?, Json.optional?,
          Json.asOption?, hbuiltins.read, (survives_bool stop).read, hcap.read]

/-- **Serialization**: every value survives in its serialized form, except for floats. -/
theorem Json.survives_serialization :
    (∀ l, Survives Location.toJson Location.ofJson? l) ∧
      (∀ k, Survives Kind.toJson Kind.ofJson? k) ∧
      (∀ c, Survives Comment.toJson Comment.ofJson? c) ∧
      (∀ a, Survives Annotation.toJson Annotation.ofJson? a) ∧
      (∀ k, Survives ResourceKind.toJson ResourceKind.ofJson? k) ∧
      (∀ s, Survives Severity.toJson Severity.ofJson? s) ∧
      (∀ d, Survives Diagnostic.toJson Diagnostic.ofJson? d) ∧
      (∀ n, Survives Namespace.toJson Namespace.ofJson? n) ∧
      (∀ d, Survives Declaration.toJson Declaration.ofJson? d) ∧
      (∀ c, Survives Config.toJson Config.ofJson? c) ∧
      ∀ c : ConstValue, c.kind ≠ .float → Survives ConstValue.toJson ConstValue.ofJson? c := by
  refine ⟨Location.survives, ?_, Comment.survives, Annotation.survives, ?_, ?_,
    Diagnostic.survives, Namespace.survives, Declaration.survives, Config.survives,
    fun c hc => ConstValue.survives hc⟩
  · exact survives_name Kind.ofName?_name
  · exact survives_name ResourceKind.ofName?_name
  · exact survives_name Severity.ofName?_name

/-- The least integer survives, at the edge of what a document can hold. -/
theorem survives_leastInteger :
    (ConstValue.integer Int64.minValue).kind ≠ .float ∧
      Json.Survives ConstValue.toJson ConstValue.ofJson? (.integer Int64.minValue) :=
  ⟨by decide, Json.survives_serialization.2.2.2.2.2.2.2.2.2.2 _ (by decide)⟩

end NameResolution
