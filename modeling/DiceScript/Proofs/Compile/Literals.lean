import DiceScript.Proofs.Compile.Halting
import DiceScript.Proofs.Number.Digits
import DiceScript.Proofs.Syntax.Acceptance
import DiceScript.Proofs.Token.Seam

/-!
# Literals

A source of digits alone pushes the double nearest to its value, whatever its length. From 309
digits on that can be an infinity.
-/

namespace DiceScript

variable {ds : List Char}

theorem tokenize_digits (hne : ds ≠ []) (hds : ∀ c ∈ ds, c.isDigit = true) :
    tokenize (String.ofList ds) =
      [⟨.number, String.ofList ds, .first, ⟨0, 0 + byteLength ds⟩⟩] := by
  obtain ⟨c, rest, rfl⟩ := List.exists_cons_of_ne_nil hne
  have hc := hds c List.mem_cons_self
  have hcomment : ['/', '/'].isPrefixOf (c :: rest) = false := by
    have hslash : ('/' == c) = false := by
      rw [beq_eq_false_iff_ne]
      rintro rfl
      cases hc
    rw [List.isPrefixOf, hslash, Bool.false_and]
  have hlexeme : Token.lexeme (c :: rest) = (some .number, rest.length + 1) := by
    rw [Token.lexeme, Token.start?, Token.isLayout_of_isDigit hc, hcomment, hc,
      List.takeWhile_eq_self_iff.mpr hds]
    rfl
  rw [tokenize, String.toList_ofList, Token.scan_cons, hlexeme]
  dsimp only
  rw [Nat.add_sub_cancel, List.take_length, List.drop_length, Token.scan, List.append_nil]
  rfl

theorem Grammar.collects_nil : Grammar.Collects [] .none none := by
  constructor <;> simp [Modifiers.none]

theorem parse_number {t : Token} {x : Double} (hkind : t.kind = .number)
    (htext : Parser.number? t.text = some x) :
    parse [t] = .ok ⟨[.store (.math (.term ⟨.atom (.number x), .none⟩)) none]⟩ := by
  have hterm : Grammar.IsTerm true [t] [] ⟨.atom (.number x), .none⟩ :=
    .atom (.number hkind htext) .nil Grammar.collects_nil
  have hmath : Grammar.IsMath true .logic [t] [] (.term ⟨.atom (.number x), .none⟩) :=
    .operand (.sum (.operand (.product (.operand (.term hterm)))))
  have hlast : ∀ u ∈ ([] : List Token).head?, u.kind ≠ .plus := by
    intro u hu
    cases hu
  exact parse_eq_ok.mpr
    (Parser.exprs_complete (.cons (.math hmath .none) (fun _ _ => hlast) .nil) rfl)

theorem compile_digits (hne : ds ≠ []) (hds : ∀ c ∈ ds, c.isDigit = true) :
    compile .discard (String.ofList ds) =
      .ok ⟨[⟨.push, .num (Binary64.ofNat (Reader.digitsValue ds))⟩, ⟨.pop, .none⟩]⟩ := by
  have htext : Parser.number? (String.ofList ds) =
      some (Binary64.ofNat (Reader.digitsValue ds)) := by
    rw [Parser.number?, String.toList_ofList]
    exact Reader.float?_of_whole? (Reader.whole?_of_forall hne hds)
  have hparse := parse_number
    (t := ⟨.number, String.ofList ds, .first, ⟨0, 0 + byteLength ds⟩⟩) rfl htext
  rw [← tokenize_digits hne hds] at hparse
  exact compile_eq_ok.mpr ⟨_, hparse, rfl⟩

end DiceScript
