import DiceScript.Proofs.Files.Relaying
import DiceScript.Proofs.Number.Display

/-!
# Numbers printed and read back

A finite number that is printed to a file and read back, or typed into a prompt as it was printed,
counts as the number that it was.
-/

namespace DiceScript

open Machine

theorem keepsAsLine_display (x : Double) : KeepsAsLine (Value.number x).display := by
  rw [Value.display]
  exact (isWord_numberDisplay x).isLine.keepsAsLine

/-- A line that is typed into a prompt is pushed. -/
theorem outcome_read {σ : Type} {h : Host (StateM σ)} (limits : Limits) (s : State h)
    (stack : List Value) {env env' : σ} {text : String}
    (hprompt : h.prompt.run env = (.ok (some text), env')) :
    outcome (Exec.perform limits ⟨.read, .none⟩) (⟨s, stack⟩ : Machine h) env =
      .done () (⟨s, .text text :: stack⟩, env') := by
  have hline : outcome (Action.prompt : Action h String) s env = .done text (s, env') := by
    unfold Action.prompt
    rw [outcome_bind, Action.outcome_ask, hprompt]
    rfl
  unfold Exec.perform
  dsimp only
  rw [outcome_bind, Exec.outcome_act, hline]
  rfl

/-- Finite numbers that are printed can be told apart and taken back. -/
structure PrintsBack (xs : List Double) : Prop where
  toNumber : ∀ x ∈ xs, (Value.text (Value.number x).display).toNumber? =
    some (Binary64.plainZero x) ∧ (Binary64.plainZero x == x) = true
  apart : ∀ x ∈ xs, ∀ y ∈ xs, (Value.number x).display = (Value.number y).display →
    (x == y) = true
  /-- Where a number is taken from the stack, the text is as good. -/
  counts : ∀ x ∈ xs, ∀ (σ : Type) (h : Host (StateM σ)) (op : Opcode) (s : State h)
    (stack : List Value) (env : σ),
    outcome (Exec.popNumber op) (⟨s, .text (Value.number x).display :: stack⟩ : Machine h) env =
      .done (Binary64.plainZero x) (⟨s, stack⟩, env)
  memoryPrompt : ∀ x ∈ xs, ∀ (limits : Limits) (s : State Memory.host) (stack : List Value)
    (env : Memory) (rest : Bytes),
    env.input = Utf8.encode ((Value.number x).display ++ "\n") ++ rest →
      outcome (Exec.perform limits ⟨.read, .none⟩) (⟨s, stack⟩ : Machine Memory.host) env =
        .done () (⟨s, .text (Value.number x).display :: stack⟩, { env with input := rest })
  diskPrompt : ∀ x ∈ xs, ∀ (limits : Limits) (s : State Disk.host) (stack : List Value)
    (env : Disk) (rest : Bytes),
    env.input = Utf8.encode ((Value.number x).display ++ "\n") ++ rest →
      outcome (Exec.perform limits ⟨.read, .none⟩) (⟨s, stack⟩ : Machine Disk.host) env =
        .done () (⟨s, .text (Value.number x).display :: stack⟩, { env with input := rest })
  files : KeptByFiles (xs.map .number)
  /-- There are programs that print the numbers to a file and read them. -/
  programs : ∀ path c, Enacted (relay path c (xs.map fun x => ⟨.push, .num x⟩)).code
    (relaying path c.reference c.reference (xs.map .number))

/-- Every finite number prints so that it can be taken back. -/
theorem finite_printsBack {xs : List Double} (hxs : ∀ x ∈ xs, x.isFinite = true) :
    PrintsBack xs where
  toNumber := by
    intro x hx
    have hnumber := Binary64.isNumber_of_isFinite (hxs x hx)
    refine ⟨toNumber?_display (hxs x hx), ?_⟩
    rw [Binary64.beq_iff_rank (Binary64.isNumber_plainZero hnumber) hnumber,
      Binary64.rank_plainZero hnumber]
  apart := fun x hx y hy => beq_of_display_eq (hxs x hx) (hxs y hy)
  counts := by
    intro x hx σ h op s stack env
    rw [Exec.outcome_popNumber, toNumber?_display (hxs x hx)]
  memoryPrompt := by
    intro x hx limits s stack env rest hinput
    refine outcome_read limits s stack ?_
    change env.prompt = _
    rw [Memory.prompt, hinput, readLine_encode (keepsAsLine_display x)]
    rfl
  diskPrompt := by
    intro x hx limits s stack env rest hinput
    refine outcome_read limits s stack ?_
    change env.prompt = _
    rw [Disk.prompt, hinput, readLine_encode (keepsAsLine_display x)]
    rfl
  files := by
    refine keptByFiles fun v hv => ?_
    obtain ⟨x, -, rfl⟩ := List.mem_map.mp hv
    exact keepsAsLine_display x
  programs := by
    refine fun path c => enacted_relay path c ?_
    rw [Pushes, List.map_map, List.map_map]
    rfl

/-- At the limit of the integers of 64 bits the digits that are shown are not those of the number, a
zero loses its sign, and a fraction keeps all its digits. -/
theorem finite_printsBack_limit :
    let limit := Binary64.ofNat (2 ^ 63)
    let negativeZero := Binary64.ofMagnitude true 0
    let tenth := Binary64.ofRatio false 1 10
    (Value.number limit).display = "9223372036854775807" ∧
      (Value.number negativeZero).display = "0" ∧ (Value.number tenth).display = "0.1" ∧
        Binary64.plainZero negativeZero = 0 ∧ Binary64.plainZero limit = limit ∧
          PrintsBack [limit, negativeZero, tenth] := by
  intro limit negativeZero tenth
  have hxs : ∀ x ∈ [limit, negativeZero, tenth], x.isFinite = true := by decide +kernel
  refine ⟨?_, ?_, ?_, ?_, ?_, finite_printsBack hxs⟩
  all_goals decide +kernel

end DiceScript
