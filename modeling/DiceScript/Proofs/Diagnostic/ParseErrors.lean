import DiceScript.Proofs.Diagnostic.Stretch
import DiceScript.Proofs.Syntax.Refusals
import DiceScript.Proofs.Token.Coverage

/-!
# Where parse errors point

A parse error is about a token of the source. The numbers in its message, its place in both forms of
the diagnostic, the text that it names and the carets all belong to that token.
-/

namespace DiceScript

/-- A token stands in its source as a stretch of one line. -/
theorem exists_stretch {source : String} {t : Token} (ht : t ∈ tokenize source) :
    ∃ s : Stretch, source.toList = s.source ∧ t.text.toList = s.text ∧ t.span = s.span ∧
      t.position = ⟨s.line, s.column⟩ := by
  obtain ⟨kind, before, word, rest, hsource, rfl, hlexes, -⟩ :=
    (Token.tokenize_covers source).exists_lexes ht
  obtain ⟨above, lead, rfl, habove, hlead⟩ := exists_lineStart before
  obtain ⟨trail, below, rfl, htrail, hbelow⟩ := exists_lineEnd rest
  have hvisible : ∀ c ∈ word, c ≠ '\n' ∧ c ≠ '\r' := by
    intro c hc
    have hlayout := hlexes.isLayout_eq_false c hc
    constructor
    · rintro rfl
      cases hlayout
    · rintro rfl
      cases hlayout
  refine ⟨⟨above, lead, word, trail, below, hlexes.ne_nil, habove, hlead, hvisible, htrail, hbelow⟩,
    ?_, ?_, rfl, ?_⟩
  · rw [List.nil_append] at hsource
    rw [hsource, Stretch.source_eq]
  · simp [Token.tokenAt]
  · exact Position.advance_line habove hlead

namespace ParseError

/-- All that is told about the error is about one stretch of the source. -/
structure Marks (e : ParseError) (source : String) (s : Stretch) : Prop where
  source_eq : source.toList = s.source
  span : e.span = s.span
  position : e.position = ⟨s.line, s.column⟩
  lookup : (LineTable.ofText source.toList).position e.span.start = e.position
  found : ∀ text, e.found = some text →
    slice? source.toList e.span.start e.span.stop = some text.toList
  message : ∃ reason, e.message =
    "Error line " ++ toString s.line ++ " column " ++ toString s.column ++ ": " ++ reason
  /-- Under the header stands the line with the carets. -/
  lines : ∃ remark advice, ((Diagnostic.ofParseError e).withSource source).renderLines false =
    ("error[parse]: " ++ e.message) :: (s.snippet remark ++ advice)
  underlined : s.lead ++ s.text <+: s.shown
  json : ∃ remark fields, ((Diagnostic.ofParseError e).withSource source).toJson =
    .object (("label", .object [("col", .int s.column), ("end", .int s.span.stop),
      ("line", .int s.line), ("message", .string remark), ("start", .int s.span.start)]) :: fields)
  /-- Where no text was found, the input ended after its last token. -/
  atEnd : e.found = none → ∃ t, (tokenize source).getLast? = some t ∧ e.span = t.span

section Marks

variable {source : String} {s : Stretch} {e : ParseError}

theorem message_position (hposition : e.position = ⟨s.line, s.column⟩) : ∃ reason, e.message =
    "Error line " ++ toString s.line ++ " column " ++ toString s.column ++ ": " ++ reason := by
  unfold message
  rw [hposition]
  exact ⟨_, String.append_assoc⟩

/-- The label of the diagnostic of an error. -/
theorem exists_label (e : ParseError) : ∃ remark : Remark,
    (Diagnostic.ofParseError e).label = some remark ∧ remark.span = e.span ∧ remark.message ≠ "" := by
  cases hfound : e.found with
  | none =>
      refine ⟨⟨e.span, "input ends here"⟩, ?_, rfl, by simp⟩
      rw [Diagnostic.ofParseError, hfound]
  | some text =>
      refine ⟨⟨e.span, "found '" ++ text ++ "'"⟩, ?_, rfl, by simp⟩
      rw [Diagnostic.ofParseError, hfound]

theorem headerLine_eq (e : ParseError) (source : String) :
    Diagnostic.headerLine false ((Diagnostic.ofParseError e).withSource source) =
      "error[parse]: " ++ e.message := by
  have hphase : (Diagnostic.ofParseError e).phase = .parse := by
    unfold Diagnostic.ofParseError
    split <;> rfl
  have hmessage : (Diagnostic.ofParseError e).message = e.message := by
    unfold Diagnostic.ofParseError
    split <;> rfl
  simp [Diagnostic.headerLine, Diagnostic.withSource, Diagnostic.paint, hphase, hmessage, Phase.name]

theorem renderLines_eq (hsource : source.toList = s.source) (hspan : e.span = s.span) :
    ∃ remark advice, ((Diagnostic.ofParseError e).withSource source).renderLines false =
      ("error[parse]: " ++ e.message) :: (s.snippet remark ++ advice) := by
  obtain ⟨remark, hlabel, hremark, hmessage⟩ := e.exists_label
  have hlabel' : ((Diagnostic.ofParseError e).withSource source).label = some remark := hlabel
  have hsource' : ((Diagnostic.ofParseError e).withSource source).source = some source := rfl
  refine ⟨remark.message, ?_⟩
  rw [Diagnostic.renderLines, headerLine_eq]
  simp only [hlabel', hsource',
    Diagnostic.snippetLines_stretch s hsource (hremark.trans hspan) hmessage]
  rw [List.append_assoc, List.append_assoc]
  exact ⟨_, rfl⟩

theorem toJson_eq (hsource : source.toList = s.source) (hspan : e.span = s.span) :
    ∃ remark fields, ((Diagnostic.ofParseError e).withSource source).toJson =
      .object (("label", .object [("col", .int s.column), ("end", .int s.span.stop),
        ("line", .int s.line), ("message", .string remark), ("start", .int s.span.start)]) ::
        fields) := by
  obtain ⟨remark, hlabel, hremark, -⟩ := e.exists_label
  have hlabel' : ((Diagnostic.ofParseError e).withSource source).label = some remark := hlabel
  have hsource' : ((Diagnostic.ofParseError e).withSource source).source = some source := rfl
  refine ⟨remark.message, ?_⟩
  rw [Diagnostic.toJson, hlabel', hsource', Option.toList_some, List.map_cons,
    Diagnostic.remarkJson_stretch s hsource (hremark.trans hspan)]
  exact ⟨_, rfl⟩

/-- An error that is placed on a stretch marks it. -/
theorem marks (hsource : source.toList = s.source) (hspan : e.span = s.span)
    (hposition : e.position = ⟨s.line, s.column⟩)
    (hfound : ∀ text, e.found = some text → text.toList = s.text)
    (hend : e.found = none → ∃ t, (tokenize source).getLast? = some t ∧ e.span = t.span) :
    e.Marks source s where
  source_eq := hsource
  span := hspan
  position := hposition
  lookup := by rw [hsource, hspan, hposition, s.position_span]
  found := by
    intro text htext
    rw [hsource, hspan, s.slice_span, hfound text htext]
  message := message_position hposition
  lines := renderLines_eq hsource hspan
  underlined := s.prefix_shown
  json := toJson_eq hsource hspan
  atEnd := hend

end Marks

end ParseError

/-- A source that does not parse has an error that points at one of its tokens, the last one when
the input ended too soon. -/
theorem parse_error_marks {source : String} {e : ParseError}
    (h : parse (tokenize source) = .error e) : ∃ s, e.Marks source s := by
  rcases parse_error_cases h with ⟨t, cause, rfl, ht⟩ | ⟨t, rfl, hlast⟩
  · obtain ⟨s, hsource, htext, hspan, hposition⟩ := exists_stretch ht
    refine ⟨s, ParseError.marks hsource hspan hposition ?_ nofun⟩
    rintro _ ⟨⟩
    exact htext
  · obtain ⟨s, hsource, -, hspan, hposition⟩ := exists_stretch (List.mem_of_getLast? hlast)
    exact ⟨s, ParseError.marks hsource hspan hposition nofun fun _ => ⟨t, hlast, rfl⟩⟩

/-- Two characters of two bytes each, in the second line of a source, where nothing starts. -/
theorem parse_error_marks_stray :
    parse (tokenize "!\r\n éé") =
        .error (.unexpected ⟨.unknown, "éé", ⟨2, 2⟩, ⟨4, 8⟩⟩ .unrecognised) ∧
      ∃ s, ParseError.Marks (.unexpected ⟨.unknown, "éé", ⟨2, 2⟩, ⟨4, 8⟩⟩ .unrecognised)
        "!\r\n éé" s := by
  have htokens : tokenize "!\r\n éé" =
      [⟨.print, "!", ⟨1, 1⟩, ⟨0, 1⟩⟩, ⟨.unknown, "éé", ⟨2, 2⟩, ⟨4, 8⟩⟩] := by
    decide +kernel
  have hparse : parse (tokenize "!\r\n éé") =
      .error (.unexpected ⟨.unknown, "éé", ⟨2, 2⟩, ⟨4, 8⟩⟩ .unrecognised) := by
    rw [htokens]
    simp [parse, Parser.exprs, Parser.expr, Parser.store, Parser.chain, Parser.operand.eq_def,
      Parser.unary, Parser.unary?, Parser.term, Parser.atom, Refusal.toError, bind, Except.bind]
  exact ⟨hparse, parse_error_marks hparse⟩

end DiceScript
