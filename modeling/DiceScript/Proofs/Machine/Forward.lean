import DiceScript.Proofs.Code.Resolution
import DiceScript.Proofs.Machine.Turns

/-!
# Runs of forward code

In code whose jumps all go forward every turn goes to a greater address. So no instruction is
executed twice, and a run ends before it executed more instructions than there are.
-/

namespace DiceScript

variable {σ : Type} {h : Host (StateM σ)} {limits : Limits}

namespace Exec

/-- An instruction that does not jump performs its effect and goes on. -/
theorem step_of_plain {i : Instruction} (hi : ¬(i.op = .jump ∨ i.op = .jumpIfFalse)) :
    (step limits i : Exec h Flow) = do perform limits i; return .next := by
  rw [not_or] at hi
  unfold step
  split
  · exact absurd ‹_› hi.1
  · exact absurd ‹_› hi.2
  · rfl

/-- Only a jump leaves the order of the code, for the address that it carries. -/
theorem target_of_outcome_step {i : Instruction} {s : Machine h} {env : σ} {target : Nat}
    {k : Machine h × σ} (hs : outcome (step limits i) s env = .done (.jump target) k) :
    (i.op = .jump ∨ i.op = .jumpIfFalse) ∧ i.imm = .address target := by
  by_cases hop : i.op = .jump ∨ i.op = .jumpIfFalse
  · refine ⟨hop, ?_⟩
    have htarget : i.target? = some target := by
      cases ht : i.target? with
      | none =>
          rcases hop with hop | hop <;>
            simp only [step, hop, ht, outcome_bind, outcome_required_none, reduceCtorEq] at hs
      | some t =>
          rcases hop with hop | hop
          · simp only [step, hop, ht, outcome_bind, outcome_required_some, outcome_pure,
              Outcome.done.injEq, Flow.jump.injEq] at hs
            rw [hs.1]
          · obtain ⟨s, stack⟩ := s
            cases stack with
            | nil =>
                simp only [step, hop, ht, outcome_bind, outcome_required_some, outcome_pop_nil,
                  reduceCtorEq] at hs
            | cons v stack =>
                simp only [step, hop, ht, outcome_bind, outcome_required_some,
                  outcome_pop_cons, outcome_pure, Outcome.done.injEq] at hs
                cases hv : v.truthy with
                | true => simp [hv] at hs
                | false =>
                    simp only [hv, Bool.false_eq_true, if_false, Flow.jump.injEq] at hs
                    rw [hs.1]
    unfold Instruction.target? at htarget
    split at htarget
    · rw [← Option.some.inj htarget]
      assumption
    · cases htarget
  · rw [step_of_plain hop, outcome_bind] at hs
    split at hs <;> simp at hs

end Exec

variable {code : List Instruction}

/-- A turn in forward code goes forward. -/
theorem Config.Continues.lt {c c' : Config h} (hcode : Forward 0 code.length code)
    (hc : c.Continues limits code.toArray c') :
    c.address < c'.address ∧ c'.address ≤ code.length := by
  unfold Continues at hc
  cases hi : code.toArray[c.address]? with
  | none =>
      rw [turn_of_none hi] at hc
      simp at hc
  | some i =>
      have hlt : c.address < code.length := by
        simpa using (Array.getElem?_eq_some_iff.mp hi).1
      rw [turn_of_some hi] at hc
      cases hs : outcome (Exec.step limits i) c.machine c.env with
      | failed f k => simp [hs] at hc
      | done flow k =>
          cases flow with
          | next =>
              have haddress : c.address + 1 = c'.address := by
                simp only [hs, Prod.mk.injEq, Turn.continues.injEq] at hc
                exact hc.1.1
              omega
          | jump target =>
              obtain ⟨hop, himm⟩ := Exec.target_of_outcome_step hs
              rw [List.getElem?_toArray] at hi
              obtain ⟨t, ht, hgt, hle⟩ := hcode c.address i hi hop
              obtain rfl : target = t := by simpa [himm] using ht
              have hnot : ¬ code.toArray.size < target := by simpa using hle
              simp only [hs, hnot, if_false, Prod.mk.injEq, Turn.continues.injEq] at hc
              omega

/-- The addresses of a trace in forward code increase strictly, up to where it leads. -/
theorem Trace.pairwise_lt {c c' : Config h} {as : List Nat} (hcode : Forward 0 code.length code)
    (ht : Trace limits code.toArray c as c') :
    (as ++ [c'.address]).Pairwise (· < ·) ∧ ∀ a ∈ as ++ [c'.address], c.address ≤ a := by
  induction ht with
  | nil c => simp
  | cons hc _ ih =>
      obtain ⟨hpair, hge⟩ := ih
      have hlt := (hc.lt hcode).1
      refine ⟨List.pairwise_cons.mpr ⟨fun a ha => Nat.lt_of_lt_of_le hlt (hge a ha), hpair⟩, ?_⟩
      intro a ha
      rcases List.mem_cons.mp ha with rfl | ha
      · exact Nat.le_refl _
      · exact Nat.le_trans (Nat.le_of_lt hlt) (hge a ha)

theorem Trace.address_add_length_le {c c' : Config h} {as : List Nat}
    (hcode : Forward 0 code.length code) (ht : Trace limits code.toArray c as c')
    (hc : c.address ≤ code.length) :
    c.address + as.length ≤ c'.address ∧ c'.address ≤ code.length := by
  induction ht with
  | nil c => exact ⟨Nat.le_refl _, hc⟩
  | cons hnext _ ih =>
      obtain ⟨hlt, hle⟩ := hnext.lt hcode
      obtain ⟨hlength, hlast⟩ := ih hle
      exact ⟨by rw [List.length_cons]; omega, hlast⟩

/-- With fuel for all of forward code, a run from its start ends as its last turn does. -/
theorem Trace.run_eq_of_ended (hcode : Forward 0 code.length code) {c c' : Config h}
    {as : List Nat} (ht : Trace limits code.toArray c as c') {r : Except RuntimeError Unit}
    {k : Machine h} {env : σ} (hend : c'.turn limits code.toArray = ((.ended r, k), env))
    (hc : c.address = 0) {fuel : Nat} (hfuel : code.length < fuel) :
    c.run limits code.toArray fuel = ((some r, k), env) := by
  have hlength := ht.address_add_length_le hcode (by rw [hc]; exact Nat.zero_le _)
  obtain ⟨rest, rfl⟩ : ∃ rest, fuel = as.length + (rest + 1) :=
    ⟨fuel - as.length - 1, by omega⟩
  rw [ht.run_eq, Config.run_succ, hend]

/-- With more fuel than instructions are left, a run of forward code ends. -/
theorem Config.isSome_run (hcode : Forward 0 code.length code) (fuel : Nat) (c : Config h)
    (hc : c.address ≤ code.length) (hfuel : code.length < c.address + fuel) :
    (c.run limits code.toArray fuel).1.1.isSome = true := by
  induction fuel generalizing c with
  | zero => omega
  | succ fuel ih =>
      rw [run_succ]
      rcases hturn : c.turn limits code.toArray with ⟨⟨t, s⟩, env⟩
      cases t with
      | ended r => rfl
      | continues a =>
          have hnext : c.Continues limits code.toArray ⟨a, s, env⟩ := hturn
          obtain ⟨hlt, hle⟩ := hnext.lt hcode
          dsimp only at hlt hle
          exact ih ⟨a, s, env⟩ hle (by dsimp only; omega)

end DiceScript
