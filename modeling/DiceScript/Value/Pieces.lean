import DiceScript.Value

/-!
# The pieces of a written value

A value is written piece by piece: a sign, digits, runs of zeros, texts, and the brackets and commas
of lists. Together the pieces are the text of the value (`join_pieces`).
-/

namespace DiceScript

/-- Zeros in runs of at most 64. -/
def zeroRuns (k : Nat) : List (List Char) :=
  if _h : k = 0 then [] else List.replicate (min k 64) '0' :: zeroRuns (k - 64)
termination_by k
decreasing_by omega

/-- Digits with the point after the first `k` of them. -/
def pointPieces (ds : List Char) (k : Int) : List (List Char) :=
  if k ≤ 0 then ['0', '.'] :: (zeroRuns (-k).toNat ++ [ds])
  else if ds.length ≤ k.toNat then ds :: zeroRuns (k.toNat - ds.length)
  else [ds.take k.toNat, ['.'], ds.drop k.toNat]

theorem zeroRuns_flatten (k : Nat) : (zeroRuns k).flatten = List.replicate k '0' := by
  fun_induction zeroRuns k with
  | case1 => rfl
  | case2 k _ ih =>
    rw [List.flatten_cons, ih, List.replicate_append_replicate]
    congr 1
    omega

theorem pointPieces_flatten (ds : List Char) (k : Int) :
    (pointPieces ds k).flatten = Decimal.pointAfter ds k "" := by
  unfold pointPieces Decimal.pointAfter
  split
  · simp [zeroRuns_flatten]
  · split <;> simp [zeroRuns_flatten]

/-- A minus sign, if the number has one. -/
def signPieces (negative : Bool) : List (List Char) :=
  if negative then [['-']] else []

/-- A double that is not shown as an integer. -/
def plainPieces (x : Double) : List (List Char) :=
  match Binary64.read x with
  | .nan => ["NaN".toList]
  | .infinite negative => signPieces negative ++ ["inf".toList]
  | .finite _ =>
    let d := Decimal.shortest .upward (Binary64.magnitude x)
    let ds := Nat.toDigits 10 d.digits
    signPieces (Binary64.isNegative x) ++ pointPieces ds (ds.length + d.exponent)

def numberPieces (x : Double) : List (List Char) :=
  let n := Binary64.toInt64 x
  if x == Binary64.ofInt n then signPieces (n < 0) ++ [Nat.toDigits 10 n.natAbs] else plainPieces x

theorem join_signPieces (negative : Bool) (pieces : List (List Char)) :
    String.join ((signPieces negative ++ pieces).map String.ofList) =
      String.ofList (if negative then '-' :: pieces.flatten else pieces.flatten) := by
  rw [← String.toList_inj]
  cases negative <;> simp [signPieces, String.toList_join, List.flatMap_map, List.flatMap_id']

theorem join_plainPieces (x : Double) :
    String.join ((plainPieces x).map String.ofList) = plainText x := by
  unfold plainPieces plainText
  cases Binary64.read x with
  | nan => rfl
  | infinite negative =>
    simp only [join_signPieces]
    cases negative <;> rfl
  | finite _ =>
    simp only [join_signPieces, pointPieces_flatten, finiteText, Decimal.layout,
      Decimal.Style.plain, if_true, Int.sub_add_cancel]

theorem join_numberPieces (x : Double) :
    String.join ((numberPieces x).map String.ofList) = numberDisplay x := by
  unfold numberPieces numberDisplay
  simp only
  split
  · rw [join_signPieces]
    cases Binary64.toInt64 x with
    | ofNat n =>
      have : ¬ (n : Int) < 0 := by omega
      simp [this, toString, Int.repr, Nat.repr]
    | negSucc n => simp [Int.negSucc_lt_zero, toString, Int.repr, Nat.repr]
  · exact join_plainPieces x

namespace Value

mutual

/-- The texts that printing a value to a file writes, in order. -/
def pieces : Value → List String
  | number x => (numberPieces x).map String.ofList
  | text s => [s]
  | list [] => ["[", "]"]
  | list (v :: vs) => "[" :: (v.pieces ++ itemPieces vs)

def itemPieces : List Value → List String
  | [] => ["]"]
  | v :: vs => ", " :: (v.pieces ++ itemPieces vs)

end

mutual

theorem join_pieces : ∀ v : Value, String.join v.pieces = v.display
  | number x => join_numberPieces x
  | text s => by simp [pieces, display]
  | list [] => rfl
  | list (v :: vs) => by
    rw [pieces, display, String.join_cons, String.join_append, join_pieces v, join_itemPieces vs,
      String.append_assoc]

theorem join_itemPieces : ∀ vs : List Value, String.join (itemPieces vs) = displayItems vs
  | [] => rfl
  | v :: vs => by
    rw [itemPieces, displayItems, String.join_cons, String.join_append, join_pieces v,
      join_itemPieces vs, String.append_assoc]

end

/-- What a value prints, with a text behind it. -/
theorem join_pieces_concat (v : Value) (s : String) :
    String.join (v.pieces ++ [s]) = v.display ++ s := by
  rw [String.join_append, join_pieces, String.join_cons, String.join_nil, String.append_empty]

end Value

end DiceScript
