import DiceScript.Proofs.Compile.Halting
import DiceScript.Proofs.Syntax.Wording

/-!
# Layout does not matter

A source with other layout and other comments between its words is the same script and the same
program, or is refused with the same words.
-/

namespace DiceScript

open Token

/-- The sources have the same words, and either the same script and programs, or none of these, for
a reason that is given in the same words. -/
structure MeansSame (source relaid : String) : Prop where
  words : SameWords (tokenize source) (tokenize relaid)
  outcome :
    (∃ script, parse (tokenize source) = .ok script ∧ parse (tokenize relaid) = .ok script ∧
      ∀ mode, ∃ p, compile mode source = .ok p ∧ compile mode relaid = .ok p) ∨
    ∃ e e', parse (tokenize source) = .error e ∧ parse (tokenize relaid) = .error e' ∧
      e.SaysSame e' ∧ ∀ mode, compile mode source = .error (.parse e) ∧
        compile mode relaid = .error (.parse e')

theorem compile_of_parse_error {mode : Toplevel} {source : String} {e : ParseError}
    (h : parse (tokenize source) = .error e) : compile mode source = .error (.parse e) := by
  rw [compile, h]

/-- Whatever separates the words of a source, the source means the same. -/
theorem relaid_meansSame {source relaid : String} (h : Relaid source relaid) :
    MeansSame source relaid := by
  have hwords := sameWords_of_relaid h
  refine ⟨hwords, ?_⟩
  rcases parse_sameWords hwords with ⟨script, hscript, hscript'⟩ | ⟨e, e', he, he', hsame⟩
  · refine .inl ⟨script, hscript, hscript', fun mode => ?_⟩
    exact ⟨_, compile_eq_ok.mpr ⟨script, hscript, rfl⟩, compile_eq_ok.mpr ⟨script, hscript', rfl⟩⟩
  · exact .inr ⟨e, e', he, he', hsame, fun mode =>
      ⟨compile_of_parse_error he, compile_of_parse_error he'⟩⟩

/-- A selection that compiles, and a stray letter and a slash that do not. -/
theorem relaid_meansSame_comments :
    MeansSame "2d6kh1" "\t2 d 6 // keep //\n kh\r\n1" ∧ MeansSame "1k/" "1\nk / // none\n" := by
  have hblank : IsSeparator [' '] := .mk (by decide) .nil
  have hkeep : IsSeparator (' ' :: (('/' :: '/' :: " keep //".toList) ++ '\n' :: [' '])) :=
    .mk (by decide) (.comment (by decide) (.layout (by decide) .nil))
  have hline : IsSeparator ['\r', '\n'] := .mk (by decide) (.layout (by decide) .nil)
  have hfeed : IsSeparator ['\n'] := .mk (by decide) .nil
  have hnone : IsSeparator (' ' :: (('/' :: '/' :: " none".toList) ++ '\n' :: [])) :=
    .mk (by decide) (.comment (by decide) .nil)
  have htexts : (tokenize "2d6kh1").map Token.text = ["2", "d", "6", "kh", "1"] := by
    decide +kernel
  have htexts' : (tokenize "1k/").map Token.text = ["1", "k", "/"] := by decide +kernel
  have hrelaid : Relaid "2d6kh1" "\t2 d 6 // keep //\n kh\r\n1" := by
    refine ⟨['\t'], ?joined, [], ?text, .inr (.mk (by decide) .nil), .inl rfl, ?joins⟩
    case joins =>
      rw [htexts]
      exact .cons hblank (.cons hblank (.cons hkeep (.cons hline (.last "1"))))
    case text => decide
  have hrelaid' : Relaid "1k/" "1\nk / // none\n" := by
    refine ⟨[], ?joined₂, _, ?text₂, .inl rfl, .inr hnone, ?joins₂⟩
    case joins₂ =>
      rw [htexts']
      exact .cons hfeed (.cons hblank (.last "/"))
    case text₂ => decide
  exact ⟨relaid_meansSame hrelaid, relaid_meansSame hrelaid'⟩

end DiceScript
