import DocFilter.Options
import DocFilter.Proofs.Codec.Normal

/-!
# Options that pass the check

Options are checked where they are made and used where the output is written.  The check compares the indentation
with zero and does not ask what it is, so a fractional number passes it, and so does a whole number that is no size
of anything: the output then fails, though the options are accepted.

* `Options.check_eq_ok_iff` says what passes the check.
* `Options.Fits` are the indentations that a line can have, and `Options.fits_cases` says which others pass.
* `Options.render_of_ofConfig` is the result: with options that were accepted, the documents that were read are
  written if the indentation fits, and otherwise none of them is.
-/

namespace DocFilter

namespace Json.Style

theorem spaces_of_lt {n : Nat} (h : n < 2 ^ 63) : spaces n = .ok (String.ofList (List.replicate n ' ')) := by
  have hsize : ¬ ((2 ^ 63 : Nat) : Int) ≤ n := fun hle => absurd (Int.ofNat_le.mp hle) (Nat.not_le_of_lt h)
  exact if_neg hsize

theorem spaces_of_le {n : Nat} (h : 2 ^ 63 ≤ n) : spaces n = .error .overflow := by
  have hsize : ((2 ^ 63 : Nat) : Int) ≤ n := Int.ofNat_le.mpr h
  exact if_pos hsize

end Json.Style

namespace Options

variable {o o' base : Options} {indent : Plain}

/-! ## The check -/

/-- The check passes options as they are: the layout is one of those that may be asked for, the indentation is not
below zero, and the level is known. -/
theorem check_eq_ok_iff : o.check = .ok o' ↔ o' = o ∧ isOneOf outputSchemas o.outputSchema = true ∧
    isBelowZero? o.jsonIndent = some false ∧ (levelOf? o.logLevel).isNone = false := by
  rw [check]
  cases hschema : isOneOf outputSchemas o.outputSchema with
  | false => simp [refuse]
  | true =>
    cases hindent : isBelowZero? o.jsonIndent with
    | none => simp
    | some below =>
      cases below with
      | true => simp [refuse]
      | false =>
        cases hlevel : (levelOf? o.logLevel).isNone with
        | true => simp [refuse]
        | false => simp [eq_comm (a := o)]

/-- What keeps the standard values but for an indentation passes the check if the indentation does. -/
theorem check_indent (h : isBelowZero? indent = some false) :
    ({ jsonIndent := indent } : Options).check = .ok { jsonIndent := indent } := by
  have hlevel : (levelOf? (.str "WARNING")).isNone = false := by decide +kernel
  exact check_eq_ok_iff.mpr ⟨rfl, rfl, h, hlevel⟩

/-- Options with values changed have passed the check. -/
theorem check_of_update {values : List (String × Plain)} (h : base.update values = .ok o) : o.check = .ok o := by
  obtain ⟨written, -, hcheck⟩ := bind_eq_ok_iff.mp h
  obtain rfl := (check_eq_ok_iff.mp hcheck).1
  exact hcheck

/-- A configuration with one entry is accepted if what it sets passes the check. -/
theorem ofConfig_singleton {key value : Plain} (hkey : key.holdsLong = false)
    (h : set? {} (nameOfKey key) value = some o) : ofConfig [(key, value)] = (o.check, []) := by
  simp [ofConfig, List.takeWhile, hkey, h, ofValues, update, bind, Except.bind, pure, Except.pure]

/-! ## The layout -/

/-- An indentation that a line can have; the truth values count as one space and none. -/
def Fits (indent : Plain) : Prop :=
  indent = .null ∨ (∃ b, indent = .bool b) ∨ ∃ n : Nat, n < 2 ^ 63 ∧ indent = .int n

/-- The indentations that pass the check: those that fit, fractional numbers, and whole numbers that are too large. -/
theorem fits_cases (h : isBelowZero? indent = some false) : Fits indent ∨
    (∃ x, indent = .float x ∧ x.isNegative = false) ∨ ∃ n : Nat, 2 ^ 63 ≤ n ∧ indent = .int n := by
  cases indent with
  | null => exact .inl (.inl rfl)
  | bool b => exact .inl (.inr (.inl ⟨b, rfl⟩))
  | int n =>
    have hn : 0 ≤ n := by simpa [isBelowZero?] using h
    obtain ⟨n, rfl⟩ := Int.eq_ofNat_of_zero_le hn
    by_cases hline : n < 2 ^ 63
    · exact .inl (.inr (.inr ⟨n, hline, rfl⟩))
    · exact .inr (.inr ⟨n, Nat.le_of_not_lt hline, rfl⟩)
  | float x => exact .inr (.inl ⟨x, rfl, Option.some.inj h⟩)
  | _ => cases h

theorem style_eq_forIndent {json : Json} (h : o.jsonIndent.simple? = some json) :
    o.style = Json.Style.forIndent json (!o.ensureAscii.isUnset) := by
  rw [style, h]

theorem style_of_fits (h : Fits o.jsonIndent) : ∃ style : Json.Style, o.style = .ok style ∧ style.Regular := by
  obtain hindent | ⟨b, hindent⟩ | ⟨n, hn, hindent⟩ := h
  · exact ⟨_, style_eq_forIndent (by rw [hindent]; rfl), Json.Style.regular_compact _⟩
  · refine ⟨_, style_eq_forIndent (by rw [hindent]; rfl), ?_⟩
    cases b
    · exact Json.Style.regular_indented 0 _
    · exact Json.Style.regular_indented 1 _
  · refine ⟨_, ?_, Json.Style.regular_indented n (!o.ensureAscii.isUnset)⟩
    rw [style_eq_forIndent (by rw [hindent]; rfl), Json.Style.forIndent, Json.Style.spaces_of_lt hn]
    rfl

/-- No fractional number is an indentation. -/
theorem style_of_float {x : Double} (h : o.jsonIndent = .float x) : o.style = .error .type := by
  rw [style_eq_forIndent (by rw [h]; rfl)]
  rfl

/-- A whole number that is too large is no indentation. -/
theorem style_of_huge {n : Nat} (h : o.jsonIndent = .int n) (hn : 2 ^ 63 ≤ n) : o.style = .error .overflow := by
  rw [style_eq_forIndent (by rw [h]; rfl), Json.Style.forIndent, Json.Style.spaces_of_le hn]
  rfl

/-- The layout that options with a known one ask for. -/
theorem schemaJson_cases (h : isOneOf outputSchemas o.outputSchema = true) :
    o.schemaJson = .null ∨ ∃ s : Schema, o.schemaJson = .str s.name := by
  cases hschema : o.outputSchema with
  | str s =>
    rw [hschema] at h
    have hmem : s = "auto" ∨ s = "v1" ∨ s = "v2" := by
      simpa [isOneOf, outputSchemas] using h
    rcases hmem with rfl | rfl | rfl
    · left
      simp [schemaJson, schema?, hschema]
    · right
      exact ⟨.v1, by simp [schemaJson, schema?, hschema, Schema.name]⟩
    · right
      exact ⟨.v2, by simp [schemaJson, schema?, hschema, Schema.name]⟩
  | _ =>
    rw [hschema] at h
    cases h

/-! ## The output -/

variable {d : Document}

/-- Whatever was read is written in every layout that can be. -/
theorem exists_render (hd : d.IsRead) (ho : o.check = .ok o) (h : Fits o.jsonIndent) :
    ∃ text, d.render o.schemaJson o.style = .ok text := by
  obtain ⟨style, hstyle, hregular⟩ := style_of_fits h
  obtain ⟨text, -, hrender, -⟩ :=
    hd.decoded.render_parse (schemaJson_cases (check_eq_ok_iff.mp ho).2.1) hregular
  exact ⟨text, by rw [hstyle, hrender]⟩

/-- Whatever was read has a written form in every layout that may be asked for. -/
theorem exists_toJson (hd : d.IsRead) (ho : o.check = .ok o) :
    ∃ json, d.toJson (if Document.isUnset o.schemaJson then .str d.schema.name else o.schemaJson) = .ok json := by
  obtain ⟨s, hchoice⟩ := d.exists_schema (schemaJson_cases (check_eq_ok_iff.mp ho).2.1)
  obtain ⟨json, hwrite, -⟩ := hd.decoded.ofJson_toJson s
  exact ⟨json, by rw [hchoice d (.inl rfl), hwrite]⟩

/-- Whatever was read fails with the layout, if the layout cannot be. -/
theorem render_of_style {fault : Fault} (hd : d.IsRead) (ho : o.check = .ok o) (h : o.style = .error fault) :
    d.render o.schemaJson o.style = .error (.fault fault) := by
  obtain ⟨json, hwrite⟩ := exists_toJson hd ho
  rw [Document.render, hwrite, h]
  rfl

/-- Let options come from a configuration, with further values over it, and be accepted both times.  Then a document
that was read is written if the indentation fits.  Otherwise the indentation is a fractional number or a whole number
that is too large, and there is no output. -/
theorem render_of_ofConfig {entries : List (Plain × Plain)} {values : List (String × Plain)}
    (h : ((ofConfig entries).1 >>= fun base => base.update values) = .ok o) (hd : d.IsRead) :
    (Fits o.jsonIndent ∧ ∃ text, d.render o.schemaJson o.style = .ok text) ∨
    (∃ x, o.jsonIndent = .float x ∧ x.isNegative = false ∧
      d.render o.schemaJson o.style = .error (.fault .type)) ∨
    ∃ n : Nat, 2 ^ 63 ≤ n ∧ o.jsonIndent = .int n ∧
      d.render o.schemaJson o.style = .error (.fault .overflow) := by
  obtain ⟨base, -, hupdate⟩ := bind_eq_ok_iff.mp h
  have hchecked := check_of_update hupdate
  obtain hfits | ⟨x, hindent, hx⟩ | ⟨n, hn, hindent⟩ := fits_cases (check_eq_ok_iff.mp hchecked).2.2.1
  · exact .inl ⟨hfits, exists_render hd hchecked hfits⟩
  · exact .inr (.inl ⟨x, hindent, hx, render_of_style hd hchecked (style_of_float hindent)⟩)
  · exact .inr (.inr ⟨n, hn, hindent, render_of_style hd hchecked (style_of_huge hindent hn)⟩)

/-- One and a half. -/
def fraction : Plain := .float (.ofDecimal false 15 (-1))

/-- A configuration that asks for an indentation by one and a half spaces is accepted, and no document is written. -/
theorem render_fraction : ∃ o,
    ((ofConfig [(.str "json-indent", fraction)]).1 >>= fun base => base.update []) = .ok o ∧
    ∃ d, Document.parse "[\x7b\"unMeta\":\x7b\x7d\x7d,[]]" = .ok d ∧
      d.render o.schemaJson o.style = .error (.fault .type) := by
  have hpasses : isBelowZero? fraction = some false := by decide +kernel
  have hname : nameOfKey (.str "json-indent") = "json_indent" := by decide +kernel
  have hset : set? {} (nameOfKey (.str "json-indent")) fraction = some { jsonIndent := fraction } := by
    rw [hname]
    rfl
  have haccepted : ((ofConfig [(.str "json-indent", fraction)]).1 >>= fun base => base.update []) =
      .ok { jsonIndent := fraction } := by
    rw [ofConfig_singleton rfl hset, check_indent hpasses]
    exact check_indent hpasses
  refine ⟨_, haccepted, _, Document.parse_empty, ?_⟩
  obtain ⟨hfits, -⟩ | ⟨-, -, -, hrender⟩ | ⟨n, -, hn, -⟩ :=
    render_of_ofConfig haccepted (.inl ⟨_, Document.parse_empty⟩)
  · obtain hfits | ⟨_, hfits⟩ | ⟨_, -, hfits⟩ := hfits <;> cases hfits
  · exact hrender
  · cases hn

end Options

end DocFilter
