import NameResolution.Proofs.IntegerLiteral

/-!
# The spelling of floats

The texts that are float literals, and the decimals that they stand for, said without the reader:
digits with a point among them or none (`Mantissa`), an optional exponent (`Scale`), and one behind
the other (`SpellsDecimal`).

A number in general may also have a sign or be a word, as `inf` or `NaN`. The first character tells
these apart: where it is a digit or a point, only a decimal is left (`Binary64.read?_eq_map`), and
every decimal starts so. The reader of decimals cuts its text where the digits end, which is
where the grammar cuts it (`readDecimal?_eq_some_iff`).

Main statement: `Token.floatLiteral_exact`.
-/

namespace NameResolution

/-! ## digits -/

/-- Reading digits gives a number just if they are a numeral for it. -/
theorem readDigits?_eq_some_iff {radix : Nat} (hradix : radix ≤ 16) {cs : List Char} {n : Nat} :
    readDigits? radix cs = some n ↔ Numeral radix cs n := by
  unfold readDigits?
  cases cs with
  | nil =>
      refine ⟨nofun, fun h => ?_⟩
      exact absurd rfl h.ne_nil
  | cons c cs =>
      rw [List.isEmpty_cons, if_neg (by simp), digitsValue?_eq_some_iff hradix]
      simp only [Nat.zero_mul, Nat.zero_add]
      exact ⟨fun h => ⟨List.cons_ne_nil c cs, h⟩, Numeral.value⟩

theorem Numeral.readDigits?_eq {cs : List Char} {n : Nat} (h : Numeral 10 cs n) :
    readDigits? 10 cs = some n :=
  (readDigits?_eq_some_iff (by omega)).mpr h

theorem isDigit_iff {c : Char} : c.isDigit = true ↔ 48 ≤ c.toNat ∧ c.toNat ≤ 57 := by
  simp only [Char.isDigit, Bool.and_eq_true, decide_eq_true_eq]
  rfl

theorem isDigit_of_isDigit_ten {d : Nat} {c : Char} (h : IsDigit 10 d c) : c.isDigit = true := by
  have hread := (radixDigit?_eq_some_iff (by omega)).mpr h
  have hd := h.1
  rw [radixDigit?, digitValue?_eq] at hread
  rw [isDigit_iff]
  grind

theorem Numeral.isDigit {cs : List Char} {n : Nat} (h : Numeral 10 cs n) {c : Char}
    (hc : c ∈ cs) : c.isDigit = true := by
  obtain ⟨d, hd⟩ := h.exists_isDigit hc
  exact isDigit_of_isDigit_ten hd

/-- The run of digits at the start of a text ends where something else follows. -/
theorem spanDigits_append {ds rest : List Char} (hds : ∀ c ∈ ds, c.isDigit = true)
    (hrest : ∀ c ∈ rest.head?, c.isDigit = false) : spanDigits (ds ++ rest) = (ds, rest) := by
  have hstop : rest.takeWhile (·.isDigit) = [] ∧ rest.dropWhile (·.isDigit) = rest := by
    cases rest with
    | nil => exact ⟨rfl, rfl⟩
    | cons c rest => simp [hrest c rfl]
  rw [spanDigits, List.takeWhile_append_of_pos hds, List.dropWhile_append_of_pos hds, hstop.1,
    hstop.2, List.append_nil]

/-- The leading digits and what is left of a text make up the text. -/
theorem append_of_spanDigits {cs ds rest : List Char} (h : spanDigits cs = (ds, rest)) :
    cs = ds ++ rest := by
  cases h
  exact List.takeWhile_append_dropWhile.symm

/-! ## the grammar -/

/-- Digits, digits with a point and optional digits behind it, or a point and digits; with the
number that all the digits write and how many of them are behind the point. -/
inductive Mantissa : List Char → Nat → Nat → Prop
  | whole {ds : List Char} {n : Nat} : Numeral 10 ds n → Mantissa ds n 0
  | pointed {ds fs : List Char} {n : Nat} :
    ds ≠ [] → Numeral 10 (ds ++ fs) n → Mantissa (ds ++ '.' :: fs) n fs.length
  | fraction {fs : List Char} {n : Nat} : Numeral 10 fs n → Mantissa ('.' :: fs) n fs.length

/-- Nothing, or a mark, an optional sign and digits; with the exponent that they write. -/
inductive Scale : List Char → Int → Prop
  | absent : Scale [] 0
  | unsigned {mark : Char} {ds : List Char} {n : Nat} :
    mark = 'e' ∨ mark = 'E' → Numeral 10 ds n → Scale (mark :: ds) n
  | positive {mark : Char} {ds : List Char} {n : Nat} :
    mark = 'e' ∨ mark = 'E' → Numeral 10 ds n → Scale (mark :: '+' :: ds) n
  | negative {mark : Char} {ds : List Char} {n : Nat} :
    mark = 'e' ∨ mark = 'E' → Numeral 10 ds n → Scale (mark :: '-' :: ds) (-n)

/-- A text spells a decimal. -/
inductive SpellsDecimal : List Char → Decimal → Prop
  | mk {front back : List Char} {n places : Nat} {e : Int} :
    Mantissa front n places → Scale back e → SpellsDecimal (front ++ back) ⟨n, e - places⟩

/-! ## exponents -/

/-- An exponent without a sign is read as the number that it spells. -/
theorem readExponent?_of_numeral {ds : List Char} {n : Nat} (h : Numeral 10 ds n) :
    readExponent? ds = some (n : Int) := by
  unfold readExponent?
  split
  · cases h.isDigit List.mem_cons_self
  · cases h.isDigit List.mem_cons_self
  · rw [h.readDigits?_eq]
    rfl

/-- Behind its mark, a scale is read as an exponent. -/
theorem readScale?_mark {mark : Char} (hmark : mark = 'e' ∨ mark = 'E') (cs : List Char) :
    readScale? (mark :: cs) = readExponent? cs := by
  rcases hmark with rfl | rfl <;> rfl

/-- A scale is read as the exponent that it spells. -/
theorem Scale.readScale?_eq {cs : List Char} {e : Int} (h : Scale cs e) :
    readScale? cs = some e := by
  cases h with
  | absent => rfl
  | unsigned hmark hds => rw [readScale?_mark hmark, readExponent?_of_numeral hds]
  | positive hmark hds =>
      rw [readScale?_mark hmark, readExponent?, hds.readDigits?_eq]
      rfl
  | negative hmark hds =>
      rw [readScale?_mark hmark, readExponent?, hds.readDigits?_eq]
      rfl

/-- What is read as a scale is one. -/
theorem Scale.of_readScale? {cs : List Char} {e : Int} (h : readScale? cs = some e) :
    Scale cs e := by
  unfold readScale? at h
  split at h
  next =>
    cases h
    exact .absent
  next c cs =>
    split at h
    next hmark =>
      have hmark : c = 'e' ∨ c = 'E' := by simpa using hmark
      unfold readExponent? at h
      split at h
      all_goals
        obtain ⟨n, hn, rfl⟩ := Option.map_eq_some_iff.mp h
        rw [readDigits?_eq_some_iff (by omega)] at hn
      · exact .positive hmark hn
      · exact .negative hmark hn
      · exact .unsigned hmark hn
    next => cases h

/-- A scale that is not empty starts with its mark. -/
theorem Scale.head {cs : List Char} {e : Int} (h : Scale cs e) :
    ∀ c ∈ cs.head?, c = 'e' ∨ c = 'E' := by
  cases h <;> simp_all

/-- An exponent ends the digits in front of it. -/
theorem Scale.head_not_isDigit {cs : List Char} {e : Int} (h : Scale cs e) :
    ∀ c ∈ cs.head?, c.isDigit = false := by
  intro c hc
  rcases h.head c hc with rfl | rfl <;> rfl

/-! ## decimals -/

/-- What is read from digits with no point behind them. -/
theorem readDecimal?_whole {ds rest : List Char} (hds : ∀ c ∈ ds, c.isDigit = true)
    (hrest : ∀ c ∈ rest.head?, c.isDigit = false ∧ c ≠ '.') :
    readDecimal? (ds ++ rest) = (readDigits? 10 ds).bind fun digits =>
      (readScale? rest).map fun scale => ⟨digits, scale⟩ := by
  simp only [readDecimal?, spanDigits_append hds fun c hc => (hrest c hc).1]
  split
  next => exact absurd rfl (hrest '.' rfl).2
  next => simp

/-- What is read from digits with a point among them. -/
theorem readDecimal?_point {ds fs rest : List Char} (hds : ∀ c ∈ ds, c.isDigit = true)
    (hfs : ∀ c ∈ fs, c.isDigit = true) (hrest : ∀ c ∈ rest.head?, c.isDigit = false) :
    readDecimal? (ds ++ '.' :: (fs ++ rest)) = (readDigits? 10 (ds ++ fs)).bind fun digits =>
      (readScale? rest).map fun scale => ⟨digits, scale - fs.length⟩ := by
  have hpoint : ∀ c ∈ ('.' :: (fs ++ rest)).head?, c.isDigit = false := by
    rintro c ⟨⟩
    rfl
  simp only [readDecimal?, spanDigits_append hds hpoint, spanDigits_append hfs hrest]

/-- The spelling of a decimal is read as this decimal. -/
theorem SpellsDecimal.readDecimal?_eq {cs : List Char} {d : Decimal} (h : SpellsDecimal cs d) :
    readDecimal? cs = some d := by
  obtain ⟨hfront, hback⟩ := h
  have hscale := hback.readScale?_eq
  cases hfront with
  | whole hds =>
      -- The mark of an exponent is no point either, so there is no fraction.
      have hrest : ∀ c ∈ List.head? _, c.isDigit = false ∧ c ≠ '.' := fun c hc =>
        ⟨hback.head_not_isDigit c hc, by rcases hback.head c hc with rfl | rfl <;> decide⟩
      rw [readDecimal?_whole (fun c => hds.isDigit) hrest, hds.readDigits?_eq, hscale]
      simp
  | pointed _ hall =>
      rw [List.append_assoc, List.cons_append,
        readDecimal?_point (fun c hc => hall.isDigit (List.mem_append_left _ hc))
          (fun c hc => hall.isDigit (List.mem_append_right _ hc)) hback.head_not_isDigit,
        hall.readDigits?_eq, hscale]
      rfl
  | fraction hfs =>
      have hread := @readDecimal?_point [] _ _ nofun (fun c => hfs.isDigit) hback.head_not_isDigit
      rw [List.nil_append, List.nil_append, hfs.readDigits?_eq, hscale] at hread
      exact hread

/-- Digits in front of a point or behind it. -/
theorem Mantissa.of_point {ds fs : List Char} {n : Nat} (h : Numeral 10 (ds ++ fs) n) :
    Mantissa (ds ++ '.' :: fs) n fs.length := by
  cases ds with
  | nil => exact .fraction h
  | cons d ds => exact .pointed (List.cons_ne_nil d ds) h

/-- What is read as a decimal spells it. -/
theorem SpellsDecimal.of_readDecimal? {cs : List Char} {d : Decimal}
    (h : readDecimal? cs = some d) : SpellsDecimal cs d := by
  rcases hspan : spanDigits cs with ⟨ds, rest⟩
  rw [append_of_spanDigits hspan]
  simp only [readDecimal?, hspan] at h
  obtain ⟨n, hn, h⟩ := Option.bind_eq_some_iff.mp h
  obtain ⟨e, he, rfl⟩ := Option.map_eq_some_iff.mp h
  clear h
  rw [readDigits?_eq_some_iff (by omega)] at hn
  -- The digits of both sides of a point are read as one numeral, which may start at the point.
  split at hn
  next rest =>
    rcases hspan' : spanDigits rest with ⟨fs, back⟩
    simp only [hspan'] at hn he ⊢
    rw [append_of_spanDigits hspan', ← List.cons_append, ← List.append_assoc]
    exact .mk (.of_point hn) (.of_readScale? he)
  next =>
    simp only [List.append_nil] at hn he
    exact .mk (.whole hn) (.of_readScale? he)

/-- The reader of decimals accepts what spells one, and reads what it spells. -/
theorem readDecimal?_eq_some_iff {cs : List Char} {d : Decimal} :
    readDecimal? cs = some d ↔ SpellsDecimal cs d :=
  ⟨.of_readDecimal?, SpellsDecimal.readDecimal?_eq⟩

/-! ## the first character -/

/-- What starts with a numeral starts with a digit. -/
theorem Numeral.startsWithDigitOrPoint {ds : List Char} {n : Nat} (h : Numeral 10 ds n)
    (rest : List Char) : startsWithDigitOrPoint (ds ++ rest) = true := by
  cases ds with
  | nil => exact absurd rfl h.ne_nil
  | cons c ds =>
      rw [List.cons_append, NameResolution.startsWithDigitOrPoint, h.isDigit List.mem_cons_self,
        Bool.true_or]

/-- A spelling of a decimal starts with a digit or the point, never with a sign. -/
theorem SpellsDecimal.startsWithDigitOrPoint {cs : List Char} {d : Decimal}
    (h : SpellsDecimal cs d) : startsWithDigitOrPoint cs = true := by
  obtain ⟨hfront, hback⟩ := h
  cases hfront with
  | whole hds => exact hds.startsWithDigitOrPoint _
  | pointed hne hall =>
      obtain ⟨c, ds, rfl⟩ := List.exists_cons_of_ne_nil hne
      simp [NameResolution.startsWithDigitOrPoint, hall.isDigit List.mem_cons_self]
  | fraction => rfl

/-- No word starts with a digit or a point. -/
theorem Binary64.readWord?_eq_none {cs : List Char} (h : startsWithDigitOrPoint cs = true)
    (negative : Bool) : readWord? negative cs = none := by
  cases cs with
  | nil => cases h
  | cons c cs =>
      have hc : 48 ≤ c.toNat ∧ c.toNat ≤ 57 ∨ c = '.' := by
        simpa [startsWithDigitOrPoint, isDigit_iff] using h
      have hlower : c.toLower.toNat ≠ 'i'.toNat ∧ c.toLower.toNat ≠ 'n'.toNat := by
        rw [toNat_toLower]
        rcases hc with hc | rfl
        · grind
        · decide
      have hi : ¬ 'i' = c.toLower := fun heq => hlower.1 (heq ▸ rfl)
      have hn : ¬ 'n' = c.toLower := fun heq => hlower.2 (heq ▸ rfl)
      simp [readWord?, words, hi, hn]

/-- Behind a digit or a point at the start there can only be a decimal. -/
theorem Binary64.read?_eq_map {cs : List Char} (h : startsWithDigitOrPoint cs = true) :
    read? cs = (readDecimal? cs).map fun d => ofDecimal false d.digits d.exponent := by
  unfold read?
  split
  · cases h
  · cases h
  · rw [readUnsigned?, readWord?_eq_none h]
    cases readDecimal? _ <;> rfl

/-- A lexeme is read as the double nearest to the decimal that it spells without underscores. -/
theorem readFloat?_eq_some_iff {lexeme : String} {x : Binary64} :
    readFloat? lexeme = some x ↔ ∃ d, SpellsDecimal (withoutUnderscores lexeme) d ∧
      x = .ofDecimal false d.digits d.exponent := by
  simp only [← readDecimal?_eq_some_iff, readFloat?]
  split
  next hstart => simp [Binary64.read?_eq_map hstart, eq_comm]
  next hstart =>
    refine ⟨nofun, fun ⟨d, hd, _⟩ => ?_⟩
    exact absurd (SpellsDecimal.of_readDecimal? hd).startsWithDigitOrPoint hstart

/-! ## tokens -/

namespace Token

/-- A token gives a literal just if its lexeme can be read. -/
theorem floatLiteral_eq_ok_iff {t : Token} {node : Node} :
    t.floatLiteral = .ok node ↔
      ∃ x, readFloat? t.lexeme = some x ∧
        node = .literal { location := t.location } (.float x) := by
  unfold floatLiteral
  split
  · next x hx => simp [hx, info, eq_comm]
  · next hnone => simp [hnone]

/-- Otherwise the error has the location and the lexeme of the token. -/
theorem floatLiteral_eq_error {t : Token} (h : readFloat? t.lexeme = none) :
    t.floatLiteral = .error (.invalidLiteral t.location .float t.lexeme) := by
  rw [floatLiteral, h, invalid]

/-- **Float literals**: a token gives the decimal that its text spells, underscores left out, in
binary64, and stands where the token stands. A token whose text spells none is an error that carries
the token. So tokens that differ in underscores only give the same number, or are errors both. -/
theorem floatLiteral_exact (t : Token) :
    (∀ node, t.floatLiteral = .ok node ↔
      ∃ d, SpellsDecimal (withoutUnderscores t.lexeme) d ∧
        node = .literal { location := t.location }
          (.float (.ofDecimal false d.digits d.exponent))) ∧
    ((¬ ∃ d, SpellsDecimal (withoutUnderscores t.lexeme) d) →
      t.floatLiteral = .error (.invalidLiteral t.location .float t.lexeme)) ∧
    ∀ u : Token, withoutUnderscores u.lexeme = withoutUnderscores t.lexeme →
      (∃ x, t.floatLiteral = .ok (.literal { location := t.location } (.float x)) ∧
        u.floatLiteral = .ok (.literal { location := u.location } (.float x))) ∨
      (t.floatLiteral = .error (.invalidLiteral t.location .float t.lexeme) ∧
        u.floatLiteral = .error (.invalidLiteral u.location .float u.lexeme)) := by
  refine ⟨fun node => ?_, fun hnone => ?_, fun u hu => ?_⟩
  · rw [floatLiteral_eq_ok_iff]
    constructor
    · rintro ⟨x, hx, hnode⟩
      obtain ⟨d, hd, rfl⟩ := readFloat?_eq_some_iff.mp hx
      exact ⟨d, hd, hnode⟩
    · rintro ⟨d, hd, hnode⟩
      exact ⟨_, readFloat?_eq_some_iff.mpr ⟨d, hd, rfl⟩, hnode⟩
  · cases hread : readFloat? t.lexeme with
    | none => exact floatLiteral_eq_error hread
    | some x =>
        obtain ⟨d, hd, -⟩ := readFloat?_eq_some_iff.mp hread
        exact absurd ⟨d, hd⟩ hnone
  · have hsame : readFloat? u.lexeme = readFloat? t.lexeme := by
      rw [readFloat?, readFloat?, hu]
    cases hread : readFloat? t.lexeme with
    | none => exact .inr ⟨floatLiteral_eq_error hread, floatLiteral_eq_error (hsame.trans hread)⟩
    | some x =>
        exact .inl ⟨x, floatLiteral_eq_ok_iff.mpr ⟨x, hread, rfl⟩,
          floatLiteral_eq_ok_iff.mpr ⟨x, hsame.trans hread, rfl⟩⟩

example : readFloat? "1_2.5e-_1" = readFloat? ".125E+1" := by decide +kernel

example : (readFloat? "1.").isSome ∧ (["", "_", ".", "e5", "1e", "1e+", "+1", "inf", "1.2.3"].all
    fun lexeme => (readFloat? lexeme).isNone) := by decide +kernel

end Token

end NameResolution
