import DiceScript.Proofs.Code.Layout
import DiceScript.Proofs.Machine.Forward
import DiceScript.Proofs.Machine.Instructions
import DiceScript.Proofs.Machine.Passage

/-!
# Code that stands in a program

Instructions of a program follow actions one by one: plain ones perform them, and jumps decide where
to go on.
-/

namespace DiceScript

variable {code is js : List Instruction} {a : Nat}

/-- The instructions `is` stand in the code from address `a` on. -/
def Placed (code : List Instruction) (a : Nat) (is : List Instruction) : Prop :=
  ∃ pre post, code = pre ++ (is ++ post) ∧ pre.length = a

namespace Placed

theorem whole (code : List Instruction) : Placed code 0 code :=
  ⟨[], [], by simp, rfl⟩

theorem left (h : Placed code a (is ++ js)) : Placed code a is := by
  obtain ⟨pre, post, rfl, ha⟩ := h
  exact ⟨pre, js ++ post, by simp, ha⟩

theorem right (h : Placed code a (is ++ js)) : Placed code (a + is.length) js := by
  obtain ⟨pre, post, rfl, rfl⟩ := h
  exact ⟨pre ++ is, post, by simp, by simp⟩

theorem head {i : Instruction} (h : Placed code a (i :: is)) : code.toArray[a]? = some i := by
  obtain ⟨pre, post, rfl, rfl⟩ := h
  simp

theorem tail {i : Instruction} (h : Placed code a (i :: is)) : Placed code (a + 1) is :=
  show Placed code (a + [i].length) is from right h

theorem add_length_le (h : Placed code a is) : a + is.length ≤ code.length := by
  obtain ⟨pre, post, rfl, rfl⟩ := h
  simp only [List.length_append]
  omega

end Placed

variable {σ β : Type} {h : Host (StateM σ)} {limits : Limits} {before : List Value}

namespace Follows

/-- An instruction that does not jump. -/
theorem plain {i : Instruction} {x : Action h β} {after : β → List Value}
    (hi : code.toArray[a]? = some i) (hop : ¬(i.op = .jump ∨ i.op = .jumpIfFalse))
    (hx : Exec.Performs (Exec.perform limits i) x before after) :
    Follows limits code a before x fun b => (a + 1, after b) := by
  intro S s env
  specialize hx S s env
  have hS (T : List Value) : S <:+ T ++ S := List.suffix_append T S
  cases hxo : outcome x s env with
  | failed f k =>
      rw [hxo] at hx
      obtain ⟨T, hT⟩ := hx
      refine ⟨_, T, .refl (hS before), ?_⟩
      rw [Config.turn_of_some hi, Exec.step_of_plain hop, outcome_bind, hT]
  | done b k =>
      rw [hxo] at hx
      refine .step (hS before) ?_ (.refl (hS (after b)))
      unfold Config.Continues
      rw [Config.turn_of_some hi, Exec.step_of_plain hop, outcome_bind, hx]
      rfl

theorem jump {target : Nat} (hi : code.toArray[a]? = some ⟨.jump, .address target⟩)
    (ht : target ≤ code.length) {b : β} {goal : β → Nat × List Value}
    (hb : goal b = (target, before)) : Follows limits code a before (pure b : Action h β) goal := by
  intro S s env
  rw [outcome_pure]
  dsimp only
  rw [hb]
  have hS : S <:+ before ++ S := List.suffix_append before S
  refine .step hS ?_ (.refl hS)
  unfold Config.Continues
  have hnot : ¬ code.toArray.size < target := by simpa using ht
  have hstep : outcome (Exec.step limits ⟨.jump, .address target⟩)
      (⟨s, before ++ S⟩ : Machine h) env = .done (.jump target) (⟨s, before ++ S⟩, env) := rfl
  rw [Config.turn_of_some hi, hstep]
  simp only [hnot, if_false]

/-- The condition is taken off, and decides. -/
theorem jumpIfFalse {target : Nat}
    (hi : code.toArray[a]? = some ⟨.jumpIfFalse, .address target⟩) (ht : target ≤ code.length)
    (v : Value) :
    Follows limits code a (v :: before) (pure () : Action h Unit) fun _ =>
      (if v.truthy then a + 1 else target, before) := by
  intro S s env
  have hS (T : List Value) : S <:+ T ++ S := List.suffix_append T S
  refine .step (hS (v :: before)) ?_ (.refl (hS before))
  unfold Config.Continues
  have hnot : ¬ code.toArray.size < target := by simpa using ht
  have hstep : outcome (Exec.step limits ⟨.jumpIfFalse, .address target⟩)
      (⟨s, v :: before ++ S⟩ : Machine h) env =
        .done (if v.truthy then .next else .jump target) (⟨s, before ++ S⟩, env) := rfl
  rw [Config.turn_of_some hi, hstep]
  cases v.truthy with
  | false => simp only [Bool.false_eq_true, if_false, hnot]
  | true => rfl

end Follows

/-- Wherever the code stands in a program, it follows the action from its start to its end. -/
def Realizes (limits : Limits) (c : Code) (x : Action h β) (before : List Value)
    (after : β → List Value) : Prop :=
  ∀ (code : List Instruction) (a : Nat), Placed code a (codeLayout a c) →
    Follows limits code a before x fun b => (a + codeSize c, after b)

/-- The same of branches, which leave with the result of one or go on behind the last. -/
def Decides (limits : Limits) (bs : List Branch) (x : Action h (Option Value)) : Prop :=
  ∀ (code : List Instruction) (finish a : Nat), Placed code a (branchLayout finish a bs) →
    finish ≤ code.length → Follows limits code a [] x fun
      | some v => (finish, [v])
      | none => (a + branchSize bs, [])

namespace Realizes

variable {α : Type} {c d : Code} {after : β → List Value}

theorem nil (b : β) (hb : after b = before) :
    Realizes limits [] (pure b : Action h β) before after :=
  fun _ _ _ => .pure_of_eq (by rw [hb]; rfl)

theorem append {x : Action h α} {f : α → Action h β} {between : α → List Value}
    (hc : Realizes limits c x before between)
    (hd : ∀ b, Realizes limits d (f b) (between b) after) :
    Realizes limits (c ++ d) (x >>= f) before after := by
  intro code a hplaced
  rw [codeLayout_append] at hplaced
  have hright := hplaced.right
  rw [codeLayout_length] at hright
  refine (hc code a hplaced.left).bind fun b => ?_
  rw [codeSize_append, ← Nat.add_assoc]
  exact hd b code _ hright

/-- Code that only moves values, before other code. -/
theorem move_append {x : Action h β} {between : List Value}
    (hc : Realizes limits c (pure () : Action h Unit) before fun _ => between)
    (hd : Realizes limits d x between after) : Realizes limits (c ++ d) x before after := by
  rw [← pure_bind () fun _ => x]
  exact hc.append fun _ => hd

/-- The values on the stack are the same for another form of the result. -/
theorem result {x : Action h α} {between : α → List Value} {f : α → β}
    (hc : Realizes limits c x before between) (hf : ∀ b, after (f b) = between b) :
    Realizes limits c (x >>= fun b => pure (f b)) before after := by
  rw [← List.append_nil c]
  exact hc.append fun b => nil _ (hf b)

/-- Values under those that the code uses stay where they are. -/
theorem frame {x : Action h β} (hc : Realizes limits c x before after) (under : List Value) :
    Realizes limits c x (before ++ under) fun b => after b ++ under :=
  fun code a hplaced => (hc code a hplaced).frame under

theorem op {o : Opcode} {plain : o.operandKind = .none} {x : Action h β}
    (hx : Exec.Performs (Exec.perform limits ⟨o, .none⟩) x before after) :
    Realizes limits [.op o plain] x before after := by
  intro code a hplaced
  refine Follows.plain hplaced.head ?_ hx
  rintro (hop | hop)
  · rw [show o = .jump from hop] at plain
    cases plain
  · rw [show o = .jumpIfFalse from hop] at plain
    cases plain

theorem push (x : Double) {b : β} (hb : after b = .number x :: before) :
    Realizes limits [.push x] (pure b : Action h β) before after :=
  fun _ _ hplaced => Follows.plain hplaced.head (by simp) (.push_of_eq hb)

theorem copy (v : Value) :
    Realizes limits [.copy] (pure () : Action h Unit) [v] fun _ => [v, v] :=
  fun _ _ hplaced => Follows.plain hplaced.head (by simp) (.copy v)

theorem list (vs : List Value) :
    Realizes limits [.list vs.length] (pure (.list vs) : Action h Value) vs.reverse fun v => [v] :=
  fun _ _ hplaced => Follows.plain hplaced.head (by simp) (.list vs)

theorem choose {bs : List Branch} {x : Action h (Option Value)} {y : Action h Value}
    (hbs : Decides limits bs x) (hc : Realizes limits c y [] fun v => [v]) :
    Realizes limits [.choose bs c]
      (do match ← x with
        | some v => return v
        | none => y) [] fun v => [v] := by
  intro code a hplaced
  have hsize : codeSize [.choose bs c] = branchSize bs + codeSize c := rfl
  have hend : a + (branchSize bs + codeSize c) ≤ code.length := by
    have hle := hplaced.add_length_le
    rwa [codeLayout_length, hsize] at hle
  rw [codeLayout, Block.layout] at hplaced
  have hright := hplaced.left.right
  rw [branchLayout_length] at hright
  refine (hbs code _ a hplaced.left.left hend).bind fun r => ?_
  rw [hsize]
  cases r with
  | some v => exact .pure_of_eq rfl
  | none =>
      rw [← Nat.add_assoc]
      exact hc code _ hright

end Realizes

namespace Decides

theorem nil : Decides limits [] (pure none : Action h (Option Value)) :=
  fun _ _ _ _ _ => .pure_of_eq rfl

theorem cons {c r : Code} {bs : List Branch} {x y : Action h Value} {z : Action h (Option Value)}
    (hc : Realizes limits c x [] fun v => [v]) (hr : Realizes limits r y [] fun v => [v])
    (hbs : Decides limits bs z) :
    Decides limits (⟨c, r⟩ :: bs)
      (do
        let v ← x
        if v.truthy then return some (← y) else z) := by
  intro code finish a hplaced hfinish
  have hend := hplaced.add_length_le
  rw [branchLayout_length, branchSize] at hend
  rw [branchLayout] at hplaced
  have hjump := hplaced.right
  rw [codeLayout_length] at hjump
  have hafter := hjump.tail.right
  rw [codeLayout_length] at hafter
  refine (hc code a hplaced.left).bind fun v => ?_
  rw [← pure_bind () fun _ => if v.truthy then _ else _]
  refine (Follows.jumpIfFalse hjump.head (by omega) v).bind fun _ => ?_
  cases v.truthy with
  | false =>
      have hnext := hafter.tail
      have hsize : a + branchSize (⟨c, r⟩ :: bs) =
          a + codeSize c + 1 + codeSize r + 1 + branchSize bs := by
        rw [branchSize]
        omega
      rw [hsize]
      exact hbs code finish _ hnext hfinish
  | true =>
      refine (hr code _ hjump.tail.left).bind fun w => ?_
      exact .jump hafter.head hfinish rfl

end Decides

end DiceScript
