import DiceScript.Proofs.Machine.Preservation

/-!
# One handle for a reference

The open files of a machine are a table in which no reference occurs twice. So what is closed in the
end of a run is what the references stand for.
-/

namespace DiceScript

namespace Table

variable {κ α : Type} [DecidableEq κ] {t : Table κ α}

def Distinct (t : Table κ α) : Prop :=
  (t.entries.map (·.1)).Nodup

theorem mem_keys_insertInto {k k' : κ} {a : α} {es : List (κ × α)}
    (h : k' ∈ (insertInto k a es).map (·.1)) : k' = k ∨ k' ∈ es.map (·.1) := by
  induction es with
  | nil => exact .inl (by simpa [insertInto] using h)
  | cons e es ih =>
      rw [insertInto] at h
      split at h
      · rcases List.mem_cons.mp h with h | h
        · exact .inl h
        · exact .inr (List.mem_cons_of_mem _ h)
      · rcases List.mem_cons.mp h with h | h
        · exact .inr (h ▸ List.mem_cons_self)
        · exact (ih h).imp id (List.mem_cons_of_mem _)

theorem Distinct.insert (h : t.Distinct) (k : κ) (a : α) : (t.insert k a).Distinct := by
  obtain ⟨es⟩ := t
  unfold Distinct Table.insert at *
  dsimp only at h ⊢
  induction es with
  | nil => simp [insertInto]
  | cons e es ih =>
      rw [List.map_cons, List.nodup_cons] at h
      rw [insertInto]
      split
      · rename_i he
        rw [List.map_cons, List.nodup_cons, ← he]
        exact h
      · rename_i he
        rw [List.map_cons, List.nodup_cons]
        refine ⟨fun hmem => ?_, ih h.2⟩
        rcases mem_keys_insertInto hmem with hk | hk
        · exact he hk
        · exact h.1 hk

theorem Distinct.erase (h : t.Distinct) (k : κ) : (t.erase k).Distinct :=
  h.sublist (List.filter_sublist.map _)

theorem Distinct.find?_of_mem (h : t.Distinct) {e : κ × α} (he : e ∈ t.entries) :
    t.find? e.1 = some e.2 := by
  obtain ⟨es⟩ := t
  unfold Distinct at h
  unfold Table.find?
  dsimp only at h he ⊢
  induction es with
  | nil => cases he
  | cons e' es ih =>
      rw [List.map_cons, List.nodup_cons] at h
      rcases List.mem_cons.mp he with rfl | he
      · simp
      · have hne : e'.1 ≠ e.1 := fun heq => h.1 (heq ▸ List.mem_map_of_mem he)
        rw [List.find?_cons_of_neg (by simpa using hne)]
        exact ih h.2 he

/-- What a key stands for does not depend on the order of the entries. -/
theorem Distinct.find?_eq_of_perm {t' : Table κ α} (h : t.Distinct)
    (hperm : t'.entries.Perm t.entries) (k : κ) : t'.find? k = t.find? k := by
  have h' : t'.Distinct := (hperm.map _).nodup_iff.mpr h
  cases hfind : t.find? k with
  | none =>
      rw [Table.find?, Option.map_eq_none_iff, List.find?_eq_none] at hfind ⊢
      exact fun e he => hfind e (hperm.mem_iff.mp he)
  | some a =>
      obtain ⟨e, he, rfl⟩ := Option.map_eq_some_iff.mp hfind
      obtain rfl : e.1 = k := by simpa using List.find?_some he
      exact h'.find?_of_mem (hperm.mem_iff.mpr (List.mem_of_find?_eq_some he))

end Table

variable {σ α : Type} {h : Host (StateM σ)}

theorem keeps_release (handle : Handle h) :
    Keeps (fun k : State h × σ => k.1.handles.Distinct) (Action.release handle) := by
  cases handle with
  | reader rd => exact .pure _
  | writer w => exact .bind (Action.keeps_ask fun _ _ hs => hs) Action.keeps_answer

theorem keeps_setHandle (r : Reference) (handle : Handle h) :
    Keeps (fun k : State h × σ => k.1.handles.Distinct) (Action.setHandle r handle) :=
  .modifyGet fun _ _ hs => hs.insert r handle

theorem keeps_opened (access : Access) (path : String) :
    Keeps (fun k : State h × σ => k.1.handles.Distinct) (Action.opened access path) := by
  cases access with
  | read =>
      refine .bind (Action.keeps_ask fun _ _ hs => hs) fun answer => ?_
      exact .bind (Action.keeps_answer answer) fun _ => .pure _
  | write =>
      refine .bind (Action.keeps_ask fun _ _ hs => hs) fun answer => ?_
      refine .bind (Action.keeps_answer answer) fun _ => ?_
      exact .bind (.modifyGet fun _ _ hs => hs) fun _ => .pure _

theorem quiet_distinct : Quiet fun k : State h × σ => k.1.handles.Distinct :=
  .of_handles (f := fun _ => ()) (fun _ => rfl) (fun _ => rfl) (fun _ _ => rfl) fun handles _ =>
    handles.Distinct

/-- However a program works on files, no reference has two handles. -/
theorem Stable.distinct : Stable fun k : State h × σ => k.1.handles.Distinct :=
  { quiet_distinct with
    openFile := by
      intro access path r
      refine .bind (keeps_opened access path) fun handle => ?_
      refine .bind (Action.keeps_handle? r) fun old => .bind (keeps_setHandle r handle) fun _ => ?_
      cases old with
      | none => exact .pure _
      | some old => exact keeps_release old
    filePrint := by
      intro r v
      refine .bind (Action.keeps_handle? r) fun handle => ?_
      split
      · refine .bind (Action.keeps_ask fun _ _ hs => hs) fun answer => ?_
        exact .bind (keeps_setHandle r _) fun _ => Action.keeps_answer answer.1
      · exact .throw _
      · exact .throw _
    fileRead := by
      intro r
      refine .bind (Action.keeps_handle? r) fun handle => ?_
      split
      · refine .bind (Action.keeps_ask fun _ _ hs => hs) fun answer => ?_
        exact .bind (keeps_setHandle r _) fun _ => Action.keeps_lineOf answer.1
      · exact .throw _
      · exact .throw _
    close := by
      intro r
      refine .bind (Action.keeps_handle? r) fun handle => ?_
      split
      · exact .bind (.modifyGet fun _ _ hs => hs.erase r) fun _ => keeps_release _
      · exact .throw _ }

end DiceScript
