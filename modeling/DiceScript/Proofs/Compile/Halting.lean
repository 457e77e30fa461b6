import DiceScript.Proofs.Compile.ScriptCode
import DiceScript.Proofs.Machine.Forward

/-!
# Compiled programs halt

Every tree assembles, in both modes, to code whose jumps all go forward. So its runs execute no
instruction twice, and end.
-/

namespace DiceScript

/-- The labels of a tree are numbered below their count, and it assembles. In the program the jumps go
to greater addresses, the end of the code included. So the addresses that a run passes increase
strictly, it executes at most as many instructions as there are, and it ends: one more turn than that
always suffices. -/
theorem Tree.Script.assembles_and_halts (mode : Toplevel) (tree : Tree.Script) :
    ∃ p, assemble (tree.items mode) = .ok p ∧
      (∀ l ∈ definedLabels (tree.items mode), l.id < codeLabels (tree.code mode)) ∧
      (∀ address i, p.code[address]? = some i → i.op = .jump ∨ i.op = .jumpIfFalse →
        ∃ target, i.imm = .address target ∧ address < target ∧ target ≤ p.code.length) ∧
      ∀ {σ : Type} {h : Host (StateM σ)} (limits : Limits) (s : Machine h) (env : σ),
        (∀ as c, Trace limits p.code.toArray ⟨0, s, env⟩ as c →
          (as ++ [c.address]).Pairwise (· < ·) ∧ as.Nodup ∧ as.length ≤ p.code.length) ∧
        ∀ fuel, p.code.length < fuel →
          (((Machine.run limits p fuel).run s).run env).1.1.isSome = true := by
  have hforward := codeLayout_forward 0 (tree.code mode)
  rw [Nat.zero_add, ← codeLayout_length 0] at hforward
  set code := codeLayout 0 (tree.code mode)
  refine ⟨⟨code⟩, assemble_codeItems (tree.code mode), ?_, ?_, ?_⟩
  · intro l hl
    have hbounds := ((codeItems_numbered 0 (tree.code mode)).bounds l hl).2
    rwa [Nat.zero_add] at hbounds
  · intro address i hi hop
    obtain ⟨target, himm, hlt, hle⟩ := hforward address i hi hop
    exact ⟨target, himm, by omega, hle⟩
  · intro σ h limits s env
    refine ⟨?_, ?_⟩
    · intro as c ht
      have hpair := (ht.pairwise_lt hforward).1
      have hlength := ht.address_add_length_le hforward (Nat.zero_le _)
      have hnodup : as.Nodup :=
        (List.pairwise_append.mp hpair).1.imp fun hlt => Nat.ne_of_lt hlt
      exact ⟨hpair, hnodup, by dsimp only at hlength ⊢; omega⟩
    · intro fuel hfuel
      refine Machine.isSome_run (Config.isSome_run hforward fuel _ (Nat.zero_le _) ?_)
      dsimp only at hfuel ⊢
      omega

/-! ## Compiled sources -/

namespace Script

theorem assemble_items (mode : Toplevel) (script : Script) :
    assemble (script.items mode) = .ok ⟨codeLayout 0 (script.code mode)⟩ :=
  assemble_codeItems (script.code mode)

theorem forward_layout (mode : Toplevel) (script : Script) :
    Forward 0 (codeLayout 0 (script.code mode)).length (codeLayout 0 (script.code mode)) := by
  have h := codeLayout_forward 0 (script.code mode)
  rwa [Nat.zero_add, ← codeLayout_length 0] at h

end Script

/-- A source compiles when it has a script, to the layout of its code. -/
theorem compile_eq_ok {mode : Toplevel} {source : String} {p : Program} :
    compile mode source = .ok p ↔
      ∃ script, parse (tokenize source) = .ok script ∧ p = ⟨codeLayout 0 (script.code mode)⟩ := by
  unfold compile
  cases parse (tokenize source) with
  | error e => simp
  | ok script => simp [script.assemble_items, eq_comm]

theorem compile_eq_ok_of_mem {mode : Toplevel} {source : String} {p : Program}
    (hp : p ∈ (compile mode source).toOption) : compile mode source = .ok p := by
  cases hcompile : compile mode source with
  | error e =>
      rw [hcompile] at hp
      cases hp
  | ok q =>
      rw [hcompile] at hp
      cases hp
      rfl

theorem exists_compile_eq_ok {mode : Toplevel} {source : String}
    (h : (compile mode source).toOption.isSome = true) : ∃ p, compile mode source = .ok p := by
  obtain ⟨p, hp⟩ := Option.isSome_iff_exists.mp h
  exact ⟨p, compile_eq_ok_of_mem hp⟩

theorem forward_of_compile {mode : Toplevel} {source : String} {p : Program}
    (hp : compile mode source = .ok p) : Forward 0 p.code.length p.code := by
  obtain ⟨script, -, rfl⟩ := compile_eq_ok.mp hp
  exact script.forward_layout mode

end DiceScript
