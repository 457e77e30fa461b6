import DiceScript.Host.Memory
import DiceScript.Proofs.Machine.Turns

/-!
# Closing the files that are left open

A host closes each file that is left open once, in an order of its own. Closing changes nothing in the
surroundings that no closing of one file changes, and is refused only when one of the files refuses. In
memory it does nothing at all.
-/

namespace DiceScript

open Machine

variable {σ α : Type} {h : Host (StateM σ)}

theorem Host.arrange_cons (a : α) (files : List α) (env : σ) :
    (h.arrange (a :: files)).run env =
      match (h.arrange files).run env with
      | (files, env') =>
        (files.insertIdx ((h.choose files.length).run env').1 a,
          ((h.choose files.length).run env').2) :=
  rfl

/-- Whatever places the host chooses, no file is lost and none comes twice. -/
theorem Host.arrange_perm (files : List α) (env : σ) :
    ((h.arrange files).run env).1.Perm files := by
  induction files with
  | nil => exact .nil
  | cons a files ih =>
      rw [arrange_cons]
      generalize (h.arrange files).run env = arranged at ih
      obtain ⟨arranged, env'⟩ := arranged
      have hplace := ((h.choose arranged.length).run env').1.isLt
      exact (List.perm_insertIdx a arranged (Nat.le_of_lt_succ hplace)).trans (ih.cons a)

section Kept

variable {β : Type} {f : σ → β}

theorem Host.arrange_keeps (hchoose : ∀ n env, f ((h.choose n).run env).2 = f env)
    (files : List α) (env : σ) : f ((h.arrange files).run env).2 = f env := by
  induction files with
  | nil => rfl
  | cons a files ih =>
      rw [arrange_cons, ← ih]
      exact hchoose _ _

variable (hclose : ∀ w env, f ((h.close w).run env).2 = f env)
  (hdrop : ∀ w env, f ((h.drop w).run env).2 = f env)

include hdrop in
theorem dropHandles_keeps (handles : List (Handle h)) (env : σ) :
    f ((dropHandles handles).run env).2 = f env := by
  induction handles generalizing env with
  | nil => rfl
  | cons handle handles ih =>
      cases handle with
      | reader r => exact ih env
      | writer w => exact (ih _).trans (hdrop w env)

include hclose hdrop in
theorem closeHandles_keeps (handles : List (Handle h)) (env : σ) :
    f ((closeHandles handles).run env).2 = f env := by
  induction handles generalizing env with
  | nil => rfl
  | cons handle handles ih =>
      cases handle with
      | reader r => exact ih env
      | writer w =>
          rw [closeHandles, StateT.run_bind, ← hclose w env]
          rcases (h.close w).run env with ⟨e | ⟨⟩, env'⟩
          · exact dropHandles_keeps hdrop handles env'
          · exact ih env'

include hclose hdrop in
/-- Closing the files changes no part of the surroundings that closing one of them leaves alone. -/
theorem State.closed_keeps (hchoose : ∀ n env, f ((h.choose n).run env).2 = f env) (s : State h)
    (env : σ) : f (s.closed env) = f env := by
  unfold closed closeFiles
  rw [StateT.run_bind]
  exact (closeHandles_keeps hclose hdrop _ _).trans (Host.arrange_keeps hchoose _ _)

end Kept

theorem closeHandles_accepts (hclose : ∀ w env, ((h.close w).run env).1 = .ok ())
    (handles : List (Handle h)) (env : σ) : ((closeHandles handles).run env).1 = .ok () := by
  induction handles generalizing env with
  | nil => rfl
  | cons handle handles ih =>
      cases handle with
      | reader r => exact ih env
      | writer w =>
          obtain ⟨env', hw⟩ : ∃ env', (h.close w).run env = (.ok (), env') :=
            ⟨_, Prod.ext (hclose w env) rfl⟩
          rw [closeHandles, StateT.run_bind, hw]
          exact ih env'

/-- A host that refuses no closing closes all files. -/
theorem State.closing_accepts (hclose : ∀ w env, ((h.close w).run env).1 = .ok ()) (s : State h)
    (env : σ) : s.closing env = .ok () :=
  closeHandles_accepts hclose _ _

namespace Memory

theorem closing_eq (s : State host) (env : Memory) : s.closing env = .ok () :=
  s.closing_accepts (fun _ _ => rfl) env

theorem closed_eq (s : State host) (env : Memory) : s.closed env = env :=
  State.closed_keeps (f := id) (fun _ _ => rfl) (fun _ _ => rfl) (fun _ _ => rfl) s env

end Memory

end DiceScript
