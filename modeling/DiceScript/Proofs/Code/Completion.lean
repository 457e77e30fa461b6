import DiceScript.Proofs.Code.Placement

/-!
# Pieces of code that a run completes

A run that goes from the start of a piece of code to the address behind it has left the piece
nowhere in between. So it did there what the piece does alone: the action that the code follows was
done, and its result lies on the stack.
-/

namespace DiceScript

variable {σ α β : Type} {h : Host (StateM σ)} {limits : Limits}

/-! ## Runs within the first part of the code -/

section Truncation

variable {p q : List Instruction} {c c' d d' : Config h}

theorem Config.Continues.within (hc : c.Continues limits (p ++ q).toArray c')
    (hlt : c.address < p.length) (hle : c'.address ≤ p.length) :
    c.Continues limits p.toArray c' := by
  obtain ⟨i, hi⟩ : ∃ i, p[c.address]? = some i := ⟨_, List.getElem?_eq_getElem hlt⟩
  have hiq : (p ++ q)[c.address]? = some i := by rw [List.getElem?_append_left hlt, hi]
  unfold Continues at hc ⊢
  rw [turn_of_some (by rwa [List.getElem?_toArray])] at hc ⊢
  cases hs : outcome (Exec.step limits i) c.machine c.env with
  | failed f k =>
      rw [hs] at hc
      exact hc
  | done flow k =>
      rw [hs] at hc
      cases flow with
      | next => exact hc
      | jump target =>
          dsimp only at hc ⊢
          split at hc
          · cases hc
          · obtain rfl : target = c'.address := Turn.continues.inj (congrArg (·.1.1) hc)
            rw [if_neg (by simpa using hle)]
            exact hc

/-- A run that has not gone beyond the first part of forward code is a run of that part. -/
theorem Trace.within (hcode : Forward 0 (p ++ q).length (p ++ q)) {as : List Nat}
    (ht : Trace limits (p ++ q).toArray c as c') (hle : c'.address ≤ p.length) :
    Trace limits p.toArray c as c' := by
  induction ht with
  | nil c => exact .nil c
  | cons hc hrest ih =>
      obtain ⟨hlt, hcode'⟩ := hc.lt hcode
      have hnext := (hrest.address_add_length_le hcode hcode').1
      exact .cons (hc.within (by omega) (by omega)) (ih hle)

/-- A run ends in one configuration only. -/
theorem Trace.unique_end {code : Array Instruction} {as bs : List Nat}
    {r r' : Except RuntimeError Unit} {m m' : Machine h} {env env' : σ}
    (ht : Trace limits code c as d) (hend : d.turn limits code = ((.ended r, m), env))
    (ht' : Trace limits code c bs d') (hend' : d'.turn limits code = ((.ended r', m'), env')) :
    d = d' := by
  induction ht generalizing bs with
  | nil c =>
      cases ht' with
      | nil => rfl
      | cons hc _ =>
          unfold Config.Continues at hc
          rw [hend] at hc
          cases hc
  | cons hc _ ih =>
      cases ht' with
      | nil =>
          unfold Config.Continues at hc
          rw [hend'] at hc
          cases hc
      | cons hc' ht' =>
          obtain rfl := hc.unique hc'
          exact ih hend ht'

end Truncation

/-! ## Completed pieces -/

/-- Between the two configurations the run executes the piece of code at the first one, to its
end. -/
structure Completes (limits : Limits) (code : List Instruction) (piece : Code)
    (c c' : Config h) : Prop where
  placed : Placed code c.address (codeLayout c.address piece)
  trace : ∃ as, Trace limits code.toArray c as c'
  address : c'.address = c.address + codeSize piece

section Pieces

variable {code : List Instruction} {piece next : Code} {c c' : Config h}
  {before under : List Value}

/-- When the action that code follows is done, the code completes. -/
theorem Realizes.completes {x : Action h β} {after : β → List Value}
    (hpiece : Realizes limits piece x before after)
    (hplaced : Placed code c.address (codeLayout c.address piece))
    (hstack : c.machine.stack = before ++ under) {b : β} {s : State h} {env : σ}
    (hdone : outcome x c.machine.toState c.env = .done b (s, env)) :
    Completes limits code piece c
      ⟨c.address + codeSize piece, ⟨s, after b ++ under⟩, env⟩ := by
  obtain ⟨a, ⟨s₀, stack⟩, env₀⟩ := c
  dsimp only at hplaced hstack hdone ⊢
  subst hstack
  have hfollows := hpiece code a hplaced under s₀ env₀
  rw [hdone] at hfollows
  exact ⟨hplaced, hfollows.exists_trace, rfl⟩

namespace Completes

/-- Code that follows an action completes only when the action is done. -/
theorem outcome_eq {x : Action h β} {after : β → List Value}
    (hcode : Forward 0 code.length code) (hpiece : Realizes limits piece x before after)
    (hrun : Completes limits code piece c c') (hstack : c.machine.stack = before ++ under) :
    ∃ b, outcome x c.machine.toState c.env = .done b (c'.machine.toState, c'.env) ∧
      c'.machine.stack = after b ++ under := by
  obtain ⟨⟨pre, post, rfl, hpre⟩, ⟨as, ht⟩, haddress⟩ := hrun
  obtain ⟨a, ⟨s, stack⟩, env⟩ := c
  dsimp only at hpre hstack haddress ht ⊢
  subst hpre hstack
  -- Cut behind the piece, the code ends where the run has come to.
  set part := pre ++ codeLayout pre.length piece with hpart
  have hlength : part.length = pre.length + codeSize piece := by
    rw [hpart, List.length_append, codeLayout_length]
  rw [← List.append_assoc, ← hpart] at hcode ht
  have ht' := ht.within hcode (Nat.le_of_eq (haddress.trans hlength.symm))
  have hended : ∀ m env, (⟨pre.length + codeSize piece, m, env⟩ : Config h).turn limits
      part.toArray = ((.ended (.ok ()), m), env) := by
    intro m env
    apply Config.turn_of_none
    rw [List.getElem?_toArray, ← hlength]
    exact List.getElem?_eq_none (Nat.le_refl _)
  obtain ⟨a', m', env'⟩ := c'
  dsimp only at haddress
  subst haddress
  have hfollows := hpiece part pre.length ⟨pre, [], by rw [List.append_nil], rfl⟩ under s env
  cases hx : outcome x s env with
  | failed f k =>
      rw [hx] at hfollows
      obtain ⟨d, T, hp, hturn⟩ := hfollows
      obtain ⟨bs, hd⟩ := hp.exists_trace
      obtain rfl := ht'.unique_end (hended m' env') hd hturn
      rw [hended] at hturn
      cases hturn
  | done b k =>
      rw [hx] at hfollows
      obtain ⟨bs, hd⟩ := hfollows.exists_trace
      cases ht'.unique_end (hended m' env') hd (hended _ _)
      exact ⟨b, rfl, rfl⟩

/-- A run that completes two pieces completes them one after the other. -/
theorem split {x : Action h α} {f : α → Action h β} {between : α → List Value}
    {after : β → List Value} (hcode : Forward 0 code.length code)
    (hpiece : Realizes limits piece x before between)
    (hnext : ∀ b, Realizes limits next (f b) (between b) after)
    (hrun : Completes limits code (piece ++ next) c c')
    (hstack : c.machine.stack = before ++ under) :
    ∃ c₁, Completes limits code piece c c₁ ∧ Completes limits code next c₁ c' := by
  obtain ⟨b, hdone, hafter⟩ := hrun.outcome_eq hcode (hpiece.append hnext) hstack
  obtain ⟨a, s', env', hx, hf⟩ := exists_of_outcome_bind hdone
  obtain ⟨hplaced, -, haddress⟩ := hrun
  rw [codeLayout_append] at hplaced
  have hright := hplaced.right
  rw [codeLayout_length] at hright
  have hfirst := hpiece.completes hplaced.left hstack hx
  have hsecond := (hnext a).completes (c := ⟨_, ⟨s', between a ++ under⟩, env'⟩) hright rfl hf
  refine ⟨_, hfirst, ?_⟩
  have hlast : c' = ⟨c.address + codeSize piece + codeSize next,
      ⟨c'.machine.toState, after b ++ under⟩, c'.env⟩ := by
    rw [Nat.add_assoc, ← codeSize_append, ← haddress, ← hafter]
  rw [hlast]
  exact hsecond

end Completes

end Pieces

end DiceScript
