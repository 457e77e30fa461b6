import DiceScript.Host.Disk

/-!
# Buffered writers and their files

A writer keeps in its buffer what has not left it yet, and puts what leaves at its own place. So
when the file held other bytes from the start, the lines written stand over them, and what is longer
of the other bytes stays behind.
-/

namespace DiceScript

/-! ## Buffers -/

namespace Buffer

/-- One step of adding pieces, with what has left the buffer so far. -/
def addNext (x : Array UInt8 × Buffer) (piece : Bytes) : Array UInt8 × Buffer :=
  (x.1 ++ (x.2.add piece).1, (x.2.add piece).2)

theorem addAll_eq (b : Buffer) (pieces : List Bytes) :
    b.addAll pieces = pieces.foldl addNext (#[], b) :=
  rfl

theorem foldl_addNext (out : Array UInt8) (b : Buffer) (pieces : List Bytes) :
    (pieces.foldl addNext (out, b)).1.toList = out.toList ++ (b.addAll pieces).1.toList ∧
      (pieces.foldl addNext (out, b)).2 = (b.addAll pieces).2 := by
  rw [addAll_eq]
  induction pieces generalizing out b with
  | nil => simp
  | cons piece pieces ih =>
      rw [List.foldl_cons, List.foldl_cons, addNext, addNext]
      dsimp only
      obtain ⟨hout, hbuffer⟩ := ih (out ++ (b.add piece).1) (b.add piece).2
      obtain ⟨hout', hbuffer'⟩ := ih ((#[] : Array UInt8) ++ (b.add piece).1) (b.add piece).2
      rw [hout, hout', hbuffer, hbuffer']
      simp

theorem addAll_cons (b : Buffer) (piece : Bytes) (pieces : List Bytes) :
    (b.addAll (piece :: pieces)).1.toList =
      (b.add piece).1 ++ ((b.add piece).2.addAll pieces).1.toList ∧
    (b.addAll (piece :: pieces)).2 = ((b.add piece).2.addAll pieces).2 := by
  obtain ⟨hout, hbuffer⟩ :=
    foldl_addNext ((#[] : Array UInt8) ++ (b.add piece).1) (b.add piece).2 pieces
  rw [addAll_eq, List.foldl_cons, addNext]
  refine ⟨hout.trans ?_, hbuffer⟩
  simp

/-- Nothing is lost on the way through a buffer. -/
theorem addAll_append_held (b : Buffer) (pieces : List Bytes) :
    (b.addAll pieces).1.toList ++ (b.addAll pieces).2.held.toList =
      b.held.toList ++ pieces.flatten := by
  induction pieces generalizing b with
  | nil => simp [addAll]
  | cons piece pieces ih =>
      obtain ⟨hout, hbuffer⟩ := b.addAll_cons piece pieces
      rw [hout, hbuffer, List.append_assoc, ih, ← List.append_assoc, add_append_held,
        List.append_assoc, List.flatten_cons]

/-- Bytes that fit are held back. -/
theorem addAll_of_fits (b : Buffer) (pieces : List Bytes)
    (hfits : b.held.size + pieces.flatten.length < capacity) : (b.addAll pieces).1.toList = [] := by
  induction pieces generalizing b with
  | nil => rfl
  | cons piece pieces ih =>
      rw [List.flatten_cons, List.length_append] at hfits
      have hfirst : ¬ capacity < b.held.size + piece.length := by omega
      have halone : ¬ capacity ≤ piece.length := by omega
      have hadd : b.add piece = ([], ⟨b.held ++ piece⟩) := by simp [add, hfirst, halone]
      have hsize : (b.held ++ piece).size = b.held.size + piece.length := by
        rw [← Array.length_toList]
        simp
      rw [(b.addAll_cons piece pieces).1, hadd, ih]
      · rfl
      · dsimp only
        omega

/-- No more than fits the buffer is held back. -/
theorem size_held_addAll_le {b : Buffer} (hb : b.held.size ≤ capacity) (pieces : List Bytes) :
    (b.addAll pieces).2.held.size ≤ capacity := by
  induction pieces generalizing b with
  | nil => exact hb
  | cons piece pieces ih =>
      rw [(b.addAll_cons piece pieces).2]
      exact ih (b.size_held_add_le piece)

end Buffer

/-! ## Writing over other bytes -/

namespace Disk

/-- What `late` leaves visible behind `front`. -/
def covering (front late : Bytes) : Bytes :=
  front ++ late.drop front.length

/-- Bytes written at the end of the front move it on. -/
theorem writeAt_covering (front late new : Bytes) :
    writeAt (covering front late) front.length new = covering (front ++ new) late := by
  unfold writeAt covering
  simp [List.drop_append, List.drop_drop]

/-- Writing touches the file that it goes to and no other. -/
theorem put_find? (entry : Path.Entry) (offset : Nat) (bytes : Bytes) (s : Disk) (name : String) :
    (s.put entry offset bytes).files.find? name =
      if entry = .file name ∧ bytes ≠ [] then
        some (writeAt ((s.files.find? name).getD []) offset bytes)
      else s.files.find? name := by
  cases bytes with
  | nil => cases entry <;> simp [put]
  | cons b bytes =>
      cases entry with
      | file name' =>
          unfold put
          dsimp only
          rw [Table.find?_insert]
          by_cases hname : name' = name
          · simp [hname]
          · simp [hname]
      | directory p => simp [put]
      | nullDevice => simp [put]
      | fullDevice => simp [put]

theorem put_fullDevice (offset : Nat) (bytes : Bytes) (s : Disk) :
    s.put .fullDevice offset bytes = s := by
  cases bytes <;> rfl

/-- Closing a writer changes what letting it go changes. -/
theorem close_snd (w : Writer) (s : Disk) : (s.close w).2 = s.drop w := by
  unfold close
  split
  · rename_i hfull
    rw [drop, hfull.1, put_fullDevice]
  · rfl

/-- Only the full device refuses a closing. -/
theorem close_fst {w : Writer} (h : w.target ≠ .fullDevice) (s : Disk) :
    (s.close w).1 = .ok () := by
  rw [close, if_neg fun hfull => h hfull.1]

theorem write_eq {w : Writer} (h : w.target ≠ .fullDevice) (texts : List String) (s : Disk) :
    s.write w texts =
      let (out, buffer) := w.buffer.addAll (texts.map Utf8.encode)
      ((.ok (), ⟨w.target, w.offset + out.size, buffer⟩),
        s.put w.target w.offset out.toList) := by
  rw [write, if_neg h]

theorem write_target (w : Writer) (texts : List String) (s : Disk) :
    (s.write w texts).1.2.target = w.target := by
  unfold write
  dsimp only
  split <;> rfl

section Stands

variable {name : String} {front late out : Bytes} {w : Writer} {s : Disk}

theorem put_find?_of_ne {entry : Path.Entry} (h : entry ≠ .file name) (offset : Nat)
    (bytes : Bytes) (s : Disk) :
    (s.put entry offset bytes).files.find? name = s.files.find? name := by
  rw [put_find?, if_neg fun hboth => h hboth.1]

/-- What is put where the front ends moves it on. -/
theorem put_find?_covering (hfile : s.files.find? name = some (covering out late)) (new : Bytes) :
    (s.put (.file name) out.length new).files.find? name = some (covering (out ++ new) late) := by
  rw [put_find?, hfile, Option.getD_some, writeAt_covering]
  by_cases hnew : new = []
  · rw [if_neg fun h => h.2 hnew, hnew, List.append_nil]
  · rw [if_pos ⟨rfl, hnew⟩]

/-- How a file stands that holds `front` over `late` once its writer is closed. Either that was done
already, or the writer holds the end of the front back, which fits its buffer. -/
inductive Stands (name : String) (front late : Bytes) (writer? : Option Writer)
    (file : Option Bytes) : Prop
  | written : (∀ w ∈ writer?, w.target ≠ .file name) → file = some (covering front late) →
      Stands name front late writer? file
  | held (w : Writer) (out : Bytes) : writer? = some w → w.target = .file name →
      w.offset = out.length → out ++ w.buffer.held.toList = front →
        w.buffer.held.size ≤ Buffer.capacity →
        (front.length < Buffer.capacity → out = []) → file = some (covering out late) →
          Stands name front late writer? file

theorem Stands.opened (name : String) (late : Bytes) :
    Stands name [] late (some ⟨.file name, 0, .empty⟩) (some late) :=
  .held _ [] rfl rfl rfl rfl (Nat.zero_le _) (fun _ => rfl) rfl

theorem Stands.closed (h : Stands name front late (some w) (s.files.find? name)) :
    (s.drop w).files.find? name = some (covering front late) := by
  unfold drop
  cases h with
  | written hother hfile =>
      rw [put_find?_of_ne (hother w rfl)]
      exact hfile
  | held w' out hw htarget hoffset hfront _ _ hfile =>
      cases hw
      rw [htarget, hoffset, put_find?_covering hfile, hfront]

/-- What is written goes behind the front. -/
theorem Stands.write (h : Stands name front late (some w) (s.files.find? name))
    (htarget : w.target = .file name) (texts : List String) :
    Stands name (front ++ (texts.map Utf8.encode).flatten) late (some (s.write w texts).1.2)
      ((s.write w texts).2.files.find? name) := by
  cases h with
  | written hother _ => exact absurd htarget (hother w rfl)
  | held w' out hw _ hoffset hfront hbound hfits hfile =>
      cases hw
      have hbuffer := w.buffer.addAll_append_held (texts.map Utf8.encode)
      have hbound' := Buffer.size_held_addAll_le hbound (texts.map Utf8.encode)
      have hsize := w.buffer.held.length_toList
      rw [write_eq (by rw [htarget]; exact nofun)]
      dsimp only
      generalize hadd : w.buffer.addAll (texts.map Utf8.encode) = added at hbuffer hbound' ⊢
      obtain ⟨leaving, buffer⟩ := added
      refine .held _ (out ++ leaving.toList) rfl htarget ?_ ?_ hbound' ?_ ?_
      · simp [hoffset]
      · rw [List.append_assoc, hbuffer, ← List.append_assoc, hfront]
      · intro hlt
        rw [List.length_append] at hlt
        obtain rfl : out = [] := hfits (by omega)
        rw [List.nil_append] at hfront
        have hheld : leaving.toList = [] := by
          have hnone := w.buffer.addAll_of_fits (texts.map Utf8.encode)
            (by rw [← hsize, hfront]; exact hlt)
          rwa [hadd] at hnone
        rw [hheld, List.nil_append]
      · rw [htarget, hoffset]
        exact put_find?_covering hfile _

/-- What a writer puts into its file when the file was emptied before. All but the end had reached
the file already, and leaves zeros. -/
def lateBytes (k : Nat) (front : Bytes) : Bytes :=
  if front.drop k = [] then [] else List.replicate k 0 ++ front.drop k

/-- A writer holds the bytes from `k` on back: no more than fits its buffer, and all of them when they
fit. -/
structure HeldBack (k : Nat) (front : Bytes) : Prop where
  le_length : k ≤ front.length
  fits : front.length ≤ k + Buffer.capacity
  whole : front.length < Buffer.capacity → k = 0

theorem Stands.left_behind {file : Option Bytes} (h : Stands name front late (some w) file)
    (htarget : w.target = .file name) (hemptied : s.files.find? name = some []) :
    ∃ k, HeldBack k front ∧ (s.drop w).files.find? name = some (lateBytes k front) := by
  cases h with
  | written hother _ => exact absurd htarget (hother w rfl)
  | held w' out hw _ hoffset hfront hbound hfits _ =>
      cases hw
      have hdrop : front.drop out.length = w.buffer.held.toList := by
        rw [← hfront, List.drop_left]
      have hlength : front.length = out.length + w.buffer.held.size := by
        rw [← hfront, List.length_append, w.buffer.held.length_toList]
      refine ⟨out.length, ⟨?_, ?_, fun hlt => by rw [hfits hlt]; rfl⟩, ?_⟩
      · omega
      · omega
      · unfold drop lateBytes
        rw [hdrop, htarget, hoffset, put_find?, hemptied]
        by_cases hheld : w.buffer.held.toList = []
        · rw [if_neg fun hboth => hboth.2 hheld, if_pos hheld]
        · rw [if_pos ⟨rfl, hheld⟩, if_neg hheld]
          simp [writeAt]

end Stands

end Disk

end DiceScript
