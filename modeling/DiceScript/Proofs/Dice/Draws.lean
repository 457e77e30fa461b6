import DiceScript.Proofs.Number.Whole
import DiceScript.Random

/-!
# Draws

A number drawn up to `n` is at least 1 and at most `n`, whatever the state of the generator. So are
the dice of a throw.
-/

namespace DiceScript

open Binary64

namespace Random

theorem high_wideMul (x y : UInt64) :
    (wideMul x y).1.toNat = x.toNat * y.toNat / 2 ^ 64 := by
  have hx : x.toNat < 2 ^ 64 := x.toNat_lt
  have hy : y.toNat < 2 ^ 64 := y.toNat_lt
  have hlt : x.toNat * y.toNat / 2 ^ 64 < 2 ^ 64 := by
    rw [Nat.div_lt_iff_lt_mul (by decide)]
    exact Nat.mul_lt_mul'' hx hy
  exact Nat.mod_eq_of_lt hlt

/-- The high half of a product is below each factor. -/
theorem high_wideMul_lt (x : UInt64) {y : UInt64} (hy : y ≠ 0) :
    (wideMul x y).1.toNat < y.toNat := by
  have hx : x.toNat < 2 ^ 64 := x.toNat_lt
  have hpos : 0 < y.toNat := Nat.pos_of_ne_zero fun h => hy (UInt64.toNat_inj.mp h)
  rw [high_wideMul, Nat.div_lt_iff_lt_mul (by decide), Nat.mul_comm]
  exact Nat.mul_lt_mul_of_pos_left hx hpos

theorem drawAbove_lt {n : UInt64} (hn : n ≠ 0) (least : UInt64) (tries : Nat)
    (first : UInt64 × UInt64) (g : Random) (hfirst : first.1.toNat < n.toNat) :
    (drawAbove n least tries first g).1.toNat < n.toNat := by
  induction tries generalizing first g with
  | zero => exact hfirst
  | succ tries ih =>
      rw [drawAbove]
      split
      · exact ih _ _ (high_wideMul_lt _ hn)
      · exact hfirst

theorem upTo_bounds {n : Nat} (hn : 1 ≤ n) (hlt : n < 2 ^ 64) (g : Random) :
    1 ≤ (g.upTo n).1 ∧ (g.upTo n).1 ≤ n := by
  have hword : n.toUInt64.toNat = n := Nat.mod_eq_of_lt hlt
  have hne : n.toUInt64 ≠ 0 := fun h => by
    rw [h] at hword
    exact absurd hword (Nat.ne_of_lt hn)
  rw [upTo]
  -- nothing here depends on the number of tries or on what is drawn
  generalize 0x1_0000_0000_0000_0000 = tries
  obtain ⟨r, g⟩ := g.next
  dsimp only
  have hfirst := high_wideMul_lt r hne
  generalize wideMul r n.toUInt64 = first at hfirst ⊢
  obtain ⟨high, low⟩ := first
  dsimp only at hfirst ⊢
  split
  · have habove := drawAbove_lt hne ((tries - n) % n).toUInt64 tries (high, low) g hfirst
    generalize drawAbove _ _ tries _ g = last at habove ⊢
    obtain ⟨high, g⟩ := last
    dsimp only at habove ⊢
    omega
  · omega

end Random

/-- A whole number from 1 up to the number of sides. -/
def IsDie (sides : Nat) (x : Double) : Prop :=
  ∃ k, 1 ≤ k ∧ k ≤ sides ∧ x = ofNat k

theorem Random.isDie_throwDie {sides : Nat} (h : 1 ≤ sides) (hlt : sides < 2 ^ 64) (g : Random) :
    IsDie sides (g.throwDie sides).1 := by
  obtain ⟨hlow, hhigh⟩ := Random.upTo_bounds h hlt g
  rw [throwDie]
  exact ⟨_, hlow, hhigh, rfl⟩

theorem Random.throwDice_dice {sides : Nat} (h : 1 ≤ sides) (hlt : sides < 2 ^ 64) (count : Nat)
    (g : Random) :
    (throwDice sides count g).1.length = count ∧ ∀ x ∈ (throwDice sides count g).1, IsDie sides x := by
  induction count generalizing g with
  | zero => exact ⟨rfl, nofun⟩
  | succ count ih =>
      obtain ⟨hlength, hrest⟩ := ih (g.throwDie sides).2
      rw [throwDice]
      exact ⟨congrArg Nat.succ hlength,
        List.forall_mem_cons.mpr ⟨isDie_throwDie h hlt g, hrest⟩⟩

end DiceScript
