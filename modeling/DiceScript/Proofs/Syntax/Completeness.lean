import DiceScript.Proofs.Syntax.Drafts
import DiceScript.Proofs.Syntax.Heads

/-!
# What the parser accepts

Every greedy derivation is found by the parser, whatever comes after it, provided that the next
token does not go on with what was derived.
-/

namespace DiceScript

open Grammar TokenKind

namespace Parser

section Reads

variable {α : Type} {ts rest : List Token} {a : α}

/-- Reading succeeds with a value and leaves the rest. -/
def Reads (x : Except Refusal (Parsed α ts)) (a : α) (rest : List Token) : Prop :=
  x.map (fun p => (p.value, p.rest)) = .ok (a, rest)

/-- The same where nothing may have been read. -/
def ReadsOn (x : Except Refusal (Trailing α ts)) (a : α) (rest : List Token) : Prop :=
  x.map (fun p => (p.value, p.rest)) = .ok (a, rest)

theorem Reads.eq_ok {x : Except Refusal (Parsed α ts)} (h : Reads x a rest) :
    ∃ hlt, x = .ok ⟨a, rest, hlt⟩ := by
  unfold Reads at h
  cases x with
  | error e => cases h
  | ok p =>
      obtain ⟨b, rest', hlt⟩ := p
      cases h
      exact ⟨hlt, rfl⟩

theorem ReadsOn.eq_ok {x : Except Refusal (Trailing α ts)} (h : ReadsOn x a rest) :
    ∃ hle, x = .ok ⟨a, rest, hle⟩ := by
  unfold ReadsOn at h
  cases x with
  | error e => cases h
  | ok p =>
      obtain ⟨b, rest', hle⟩ := p
      cases h
      exact ⟨hle, rfl⟩

end Reads

/-! ## One function after another -/

theorem expr_eq_store {t : Token} {ts : List Token} (ht : t.kind.startsMath = true) :
    expr (t :: ts) = store (t :: ts) := by
  rw [expr]
  split <;> first | rfl | (rename_i hk; rw [hk] at ht; cases ht)

theorem store_of_math {t : Token} {ts us rest : List Token} {m : Math} {target : Option Place}
    (ht : t.kind.startsMath = true) (hm : Reads (chain .logic (t :: ts)) m us)
    (htarget : ReadsOn (target? us) target rest) :
    Reads (store (t :: ts)) (.store (.math m) target) rest := by
  obtain ⟨_, hm⟩ := hm.eq_ok
  obtain ⟨_, htarget⟩ := htarget.eq_ok
  unfold Reads
  rw [store]
  split
  iterate 4 (rename_i hk; rw [hk] at ht; cases ht)
  rw [hm]
  dsimp only [bind, Except.bind]
  rw [htarget]
  rfl

theorem chain_of_operand {level : Level} {ts us rest : List Token} {first m : Math}
    (hfirst : Reads (operand level ts) first us) (hm : ReadsOn (chainFrom level first us) m rest) :
    Reads (chain level ts) m rest := by
  obtain ⟨_, hfirst⟩ := hfirst.eq_ok
  obtain ⟨_, hm⟩ := hm.eq_ok
  unfold Reads
  rw [chain, hfirst]
  dsimp only [bind, Except.bind]
  rw [hm]
  rfl

/-- A chain stops before what is no operator of its level. -/
theorem chainFrom_stops {level : Level} {m : Math} {rest : List Token}
    (hnext : Next (fun k => level.operator? k = none) rest) :
    ReadsOn (chainFrom level m rest) m rest := by
  unfold ReadsOn
  cases rest with
  | nil =>
      rw [chainFrom]
      rfl
  | cons t rest =>
      rw [next_cons] at hnext
      rw [chainFrom, hnext]
      rfl

theorem target?_none {rest : List Token} (hnext : Next (· ≠ .store) rest) :
    ReadsOn (target? rest) none rest := by
  unfold ReadsOn
  cases rest with
  | nil =>
      rw [target?]
      rfl
  | cons t rest =>
      rw [next_cons] at hnext
      rw [target?, if_neg hnext]
      rfl

theorem target?_some {t : Token} {ts rest : List Token} {p : Place} (ht : t.kind = .store)
    (hp : Reads (place .store (t :: ts)) p rest) :
    ReadsOn (target? (t :: ts)) (some p) rest := by
  obtain ⟨_, hp⟩ := hp.eq_ok
  unfold ReadsOn
  rw [target?, if_pos ht, hp]
  rfl

theorem operand_of_term {t : Token} {ts rest : List Token} {v : Term}
    (ht : t.kind.startsTerm = true) (hv : Reads (term (t :: ts)) v rest) :
    Reads (operand .product (t :: ts)) (.term v) rest := by
  obtain ⟨_, hv⟩ := hv.eq_ok
  have hunary : unary? t.kind = none := by
    cases hk : t.kind <;> first | rfl | (rw [hk] at ht; cases ht)
  unfold Reads
  rw [operand, unary, hunary]
  dsimp only
  rw [hv]
  rfl

/-- A mere value is math where no operator follows. -/
theorem math_of_term {t : Token} {ts rest : List Token} {v : Term}
    (ht : t.kind.startsTerm = true) (hv : Reads (term (t :: ts)) v rest)
    (hnext : Next (fun k => ∀ level : Level, level.operator? k = none) rest) :
    Reads (chain .logic (t :: ts)) (.term v) rest := by
  have hproduct := chain_of_operand (operand_of_term ht hv)
    (chainFrom_stops (hnext.mono fun _ hk => hk _))
  have hsum : Reads (chain .sum (t :: ts)) (.term v) rest := by
    refine chain_of_operand ?_ (chainFrom_stops (hnext.mono fun _ hk => hk _))
    rw [operand]
    exact hproduct
  refine chain_of_operand ?_ (chainFrom_stops (hnext.mono fun _ hk => hk _))
  rw [operand]
  exact hsum

theorem expr_of_opening {t : Token} {ts us rest : List Token} {access : Access} {path : Math}
    {handle : Place} (ht : IsOpening t.kind access) (hm : Reads (chain .logic ts) path us)
    (hp : ReadsOn (target? us) (some handle) rest) :
    Reads (expr (t :: ts)) (.openFile access path handle) rest := by
  obtain ⟨_, hm⟩ := hm.eq_ok
  obtain ⟨_, hp⟩ := hp.eq_ok
  unfold Reads
  rcases isOpening_iff.mp ht with ⟨hk, rfl⟩ | ⟨hk, rfl⟩
  all_goals
    rw [expr, hk]
    dsimp only
    rw [store, hk]
    dsimp only
    rw [opening, hm]
    dsimp only [bind, Except.bind]
    rw [hp]
    rfl

/-- After a count that is no die, a value goes on with modifiers. -/
theorem term_of_atom {t : Token} {ts us rest : List Token} {a : Atom} {d : Draft}
    (ht : t.kind.startsAtom = true) (ha : Reads (atom (t :: ts)) a us)
    (hnext : Next (· ≠ .roll) us) (hd : ReadsOn (modifiers false .empty us) d rest) :
    Reads (term (t :: ts)) ⟨.atom a, d.modifiers⟩ rest := by
  obtain ⟨_, ha⟩ := ha.eq_ok
  obtain ⟨_, hd⟩ := hd.eq_ok
  unfold Reads
  rw [term]
  split
  iterate 2 (rename_i hk; rw [hk] at ht; cases ht)
  rw [ha]
  dsimp only [bind, Except.bind]
  cases us with
  | nil =>
      rw [modifiers] at hd
      cases hd
      rfl
  | cons s us =>
      rw [next_cons] at hnext
      dsimp only
      rw [if_neg hnext, hd]
      rfl

theorem term_of_roll {t s : Token} {ts us vs rest : List Token} {count sides : Atom} {d : Draft}
    (ht : t.kind.startsAtom = true) (hcount : Reads (atom (t :: ts)) count (s :: us))
    (hs : s.kind = .roll) (hsides : Reads (atom us) sides vs)
    (hd : ReadsOn (modifiers true .empty vs) d rest) :
    Reads (term (t :: ts)) ⟨.roll count sides d.reroll, d.modifiers⟩ rest := by
  obtain ⟨_, hcount⟩ := hcount.eq_ok
  obtain ⟨_, hsides⟩ := hsides.eq_ok
  obtain ⟨_, hd⟩ := hd.eq_ok
  unfold Reads
  rw [term]
  split
  iterate 2 (rename_i hk; rw [hk] at ht; cases ht)
  rw [hcount]
  dsimp only [bind, Except.bind]
  rw [if_pos hs, hsides]
  dsimp only
  rw [hd]
  rfl

theorem modifiers_stops {rolled : Bool} {d : Draft} {rest : List Token}
    (hnext : Next (fun k => role? k = none) rest) :
    ReadsOn (modifiers rolled d rest) d rest := by
  unfold ReadsOn
  cases rest with
  | nil =>
      rw [modifiers]
      rfl
  | cons t rest =>
      rw [next_cons] at hnext
      rw [modifiers, hnext]
      rfl

theorem condition_of_relation {t : Token} {ts rest : List Token} {r : Relation} {a : Atom}
    (ht : IsRelation t.kind r) (ha : Reads (atom ts) a rest) :
    Reads (condition (t :: ts)) ⟨r, a⟩ rest := by
  obtain ⟨_, ha⟩ := ha.eq_ok
  unfold Reads
  rw [condition, relation?_eq_some.mpr ht]
  dsimp only
  rw [ha]
  rfl

theorem condition_of_atom {t : Token} {ts rest : List Token} {a : Atom}
    (ht : t.kind.startsAtom = true) (ha : Reads (atom (t :: ts)) a rest) :
    Reads (condition (t :: ts)) ⟨.equal, a⟩ rest := by
  obtain ⟨_, ha⟩ := ha.eq_ok
  have hrelation : relation? t.kind = none := by
    cases hk : t.kind <;> first | rfl | (rw [hk] at ht; cases ht)
  unfold Reads
  rw [condition, hrelation]
  dsimp only
  rw [ha]
  rfl

theorem modifiers_of_reroll {t : Token} {ts us rest : List Token} {rolled once : Bool}
    {c : Comparison} {d d' : Draft} (ht : IsReroll t.kind once) (hlacks : d.Lacks .reroll)
    (hrolled : rolled = true) (hc : Reads (condition ts) c us)
    (hrest : ReadsOn (modifiers rolled (d.add (.reroll ⟨once, c⟩)) us) d' rest) :
    ReadsOn (modifiers rolled d (t :: ts)) d' rest := by
  have hnone : d.reroll = none := hlacks
  obtain ⟨_, hc⟩ := hc.eq_ok
  obtain ⟨_, hrest⟩ := hrest.eq_ok
  unfold ReadsOn
  rw [modifiers, role?_eq_reroll.mpr ht]
  dsimp only
  rw [hnone, if_neg (by decide), if_neg (by rw [hrolled]; decide), hc]
  change ((modifiers _ (d.add (.reroll _)) _) >>= _).map _ = _
  rw [hrest]
  rfl

theorem atom_of_expr {t s : Token} {ts rest : List Token} {e : Expr} (ht : t.kind = .leftParen)
    (he : Reads (expr ts) e (s :: rest)) (hs : s.kind = .rightParen) :
    Reads (atom (t :: ts)) (.group e) rest := by
  obtain ⟨_, he⟩ := he.eq_ok
  unfold Reads
  rw [atom, ht]
  dsimp only
  rw [he]
  dsimp only [bind, Except.bind]
  rw [if_pos hs]
  rfl

theorem place_of_roll {marker : TokenKind} {t s : Token} {ts us rest : List Token}
    {count sides : Atom} (ht : t.kind = marker) (hcount : Reads (atom ts) count (s :: us))
    (hs : s.kind = .roll) (hsides : Reads (atom us) sides rest) :
    Reads (place marker (t :: ts)) ⟨count, sides⟩ rest := by
  obtain ⟨_, hcount⟩ := hcount.eq_ok
  obtain ⟨_, hsides⟩ := hsides.eq_ok
  unfold Reads
  rw [place, if_neg (not_not_intro ht), hcount]
  dsimp only [bind, Except.bind]
  cases count <;>
  · dsimp only
    rw [if_pos hs, hsides]
    rfl

/-- A group stands for a place when it is a plain roll. -/
theorem place_of_group {marker : TokenKind} {t : Token} {ts rest : List Token} {e : Expr}
    {p : Place} (ht : t.kind = marker) (he : Reads (atom ts) (.group e) rest)
    (hp : e.place? = some p) (hnext : Next (· ≠ .roll) rest) :
    Reads (place marker (t :: ts)) p rest := by
  obtain ⟨_, he⟩ := he.eq_ok
  unfold Reads
  rw [place, if_neg (not_not_intro ht), he]
  dsimp only [bind, Except.bind]
  cases rest with
  | nil =>
      dsimp only [grouped]
      rw [hp]
      rfl
  | cons s rest =>
      rw [next_cons] at hnext
      dsimp only [grouped]
      rw [if_neg hnext, hp]
      rfl

/-- A roll in parentheses is read as a group around nothing but the roll. -/
theorem group_of_roll {l t s r : Token} {ts us rest : List Token} {count sides : Atom}
    (hl : l.kind = .leftParen) (ht : t.kind.startsAtom = true)
    (hcount : Reads (atom (t :: ts)) count (s :: us)) (hs : s.kind = .roll)
    (hsides : Reads (atom us) sides (r :: rest)) (hr : r.kind = .rightParen) :
    Reads (atom (l :: t :: ts))
      (.group (.store (.math (.term ⟨.roll count sides none, .none⟩)) none)) rest := by
  have hstops : ReadsOn (modifiers true .empty (r :: rest)) .empty (r :: rest) :=
    modifiers_stops (by rw [next_cons, hr]; rfl)
  have hterm := term_of_roll ht hcount hs hsides hstops
  have hmath := math_of_term (startsTerm_of_startsAtom ht) hterm
    (by rw [next_cons, hr]; intro level; cases level <;> rfl)
  have hnone : ReadsOn (target? (r :: rest)) none (r :: rest) :=
    target?_none (by rw [next_cons, hr]; decide)
  have hstart := startsMath_of_startsTerm (startsTerm_of_startsAtom ht)
  refine atom_of_expr hl ?_ hr
  rw [expr_eq_store hstart]
  exact store_of_math hstart hmath hnone

/-! ## Derivations -/

mutual

theorem expr_complete : ∀ {ts rest : List Token} {e : Expr}, IsExpr true ts rest e →
    Next (EndsExpr e) rest → Reads (expr ts) e rest
  | _, _, _, .print ht he, hnext => by
    obtain ⟨_, he⟩ := (expr_complete he hnext).eq_ok
    unfold Reads
    rw [expr, ht]
    dsimp only
    rw [he]
    rfl
  | _, _, _, .filePrint ht hp he, hnext => by
    obtain ⟨_, hp⟩ := (place_complete hp he.next_ne_roll).eq_ok
    obtain ⟨_, he⟩ := (expr_complete he hnext).eq_ok
    unfold Reads
    rw [expr, ht]
    dsimp only
    rw [hp]
    dsimp only [bind, Except.bind]
    rw [he]
    rfl
  | _, _, _, .close ht hp, hnext => by
    obtain ⟨_, hp⟩ := (place_complete hp (hnext.mono fun _ hk => hk.1.2)).eq_ok
    unfold Reads
    rw [expr, ht]
    dsimp only
    rw [hp]
    rfl
  | _, _, _, .choose ht hb, _ => by
    obtain ⟨_, hb⟩ := (clauses_complete hb).eq_ok
    unfold Reads
    rw [expr, ht]
    dsimp only
    rw [hb]
    rfl
  | _, _, _, .math hm htarget, hnext => by
    have hread := target?_complete htarget (hnext.mono fun _ hk => ⟨hk.1.2, hk.2.1⟩)
    have hends := htarget.next_endsMath hnext
    have hmath := math_complete hm (hends.mono fun _ hk => hk.endsOperand)
      (chainFrom_stops (hends.mono fun _ hk => hk.2 _))
    obtain ⟨t, us, rfl, ht⟩ := hm.head
    rw [expr_eq_store ht]
    exact store_of_math ht hmath hread
  | _, _, _, .prompt ht htarget, hnext => by
    have hread := target?_complete htarget (hnext.mono fun _ hk => ⟨hk.1.2, hk.2.1⟩)
    obtain ⟨_, hread⟩ := hread.eq_ok
    unfold Reads
    rw [expr, ht]
    dsimp only
    rw [store, ht]
    dsimp only
    rw [hread]
    rfl
  | _, _, _, .fileLine ht hp htarget, hnext => by
    have hread := target?_complete htarget (hnext.mono fun _ hk => ⟨hk.1.2, hk.2.1⟩)
    have hroll := htarget.next_ne_roll (hnext.mono fun _ hk => hk.1.2)
    obtain ⟨_, hp⟩ := (place_complete hp hroll).eq_ok
    obtain ⟨_, hread⟩ := hread.eq_ok
    unfold Reads
    rw [expr, ht]
    dsimp only
    rw [store, ht]
    dsimp only
    rw [hp]
    dsimp only [bind, Except.bind]
    rw [hread]
    rfl
  | _, _, _, .openFile ht hm hp, hnext => by
    have hread := place_complete hp (hnext.mono fun _ hk => hk.1.2)
    have hends := hp.next_endsMath
    have hmath := math_complete hm (hends.mono fun _ hk => hk.endsOperand)
      (chainFrom_stops (hends.mono fun _ hk => hk.2 _))
    obtain ⟨s, us, rfl, hs⟩ := hp.head
    exact expr_of_opening ht hmath (target?_some hs hread)
termination_by structural _ _ _ h => h

theorem clauses_complete : ∀ {ts rest : List Token} {cs : List Clause} {o : Option Expr},
    IsBlock true ts rest cs o → Reads (clauses ts) (cs, o) rest
  | _, _, _, _, .otherwise he ht => by
    have hread := expr_complete he (next_endsExpr_of_closes (by rw [ht]; rfl))
    obtain ⟨_, he⟩ := hread.eq_ok
    unfold Reads
    rw [clauses, he]
    dsimp only [bind, Except.bind]
    rw [ht]
    rfl
  | _, _, _, _, .last hc ht hr hs => by
    have hread := expr_complete hc (next_endsExpr_of_closes (by rw [ht]; rfl))
    obtain ⟨_, hc⟩ := hread.eq_ok
    have hread := expr_complete hr (next_endsExpr_of_closes (by rw [hs]; rfl))
    obtain ⟨_, hr⟩ := hread.eq_ok
    unfold Reads
    rw [clauses, hc]
    dsimp only [bind, Except.bind]
    rw [ht]
    dsimp only
    rw [hr]
    dsimp only
    rw [hs]
    rfl
  | _, _, _, _, .clause hc ht hr hs hb => by
    have hread := expr_complete hc (next_endsExpr_of_closes (by rw [ht]; rfl))
    obtain ⟨_, hc⟩ := hread.eq_ok
    have hread := expr_complete hr (next_endsExpr_of_closes (by rw [hs]; rfl))
    obtain ⟨_, hr⟩ := hread.eq_ok
    obtain ⟨_, hb⟩ := (clauses_complete hb).eq_ok
    unfold Reads
    rw [clauses, hc]
    dsimp only [bind, Except.bind]
    rw [ht]
    dsimp only
    rw [hr]
    dsimp only
    rw [hs]
    dsimp only
    rw [hb]
    rfl
termination_by structural _ _ _ _ h => h

theorem target?_complete : ∀ {ts rest : List Token} {o : Option Place}, IsTarget true ts rest o →
    Next (fun k => k ≠ .roll ∧ k ≠ .store) rest → ReadsOn (target? ts) o rest
  | _, _, _, .none, hnext => target?_none (hnext.mono fun _ hk => hk.2)
  | _, _, _, .some hp, hnext => by
    have hread := place_complete hp (hnext.mono fun _ hk => hk.1)
    obtain ⟨t, us, rfl, ht⟩ := hp.head
    exact target?_some ht hread
termination_by structural _ _ _ h => h

theorem math_complete : ∀ {level : Level} {ts rest : List Token} {m : Math},
    IsMath true level ts rest m → Next (EndsOperand level) rest →
      ∀ {m' : Math} {rest' : List Token}, ReadsOn (chainFrom level m rest) m' rest' →
        Reads (chain level ts) m' rest'
  | _, _, _, _, .operand h, hnext, _, _, hfrom => chain_of_operand (operand_complete h hnext) hfrom
  | level, _, _, _, .binary hl hop hr, hnext, _, _, hfrom => by
    have hright := operand_complete hr hnext
    refine math_complete hl ((next_cons _ _ _).mpr (endsOperand_of_isOperator hop)) ?_
    obtain ⟨_, hright⟩ := hright.eq_ok
    obtain ⟨_, hfrom⟩ := hfrom.eq_ok
    unfold ReadsOn
    rw [chainFrom, operator?_eq_some.mpr hop]
    dsimp only
    rw [hright]
    dsimp only [bind, Except.bind]
    rw [hfrom]
    rfl
termination_by structural _ _ _ _ h => h

theorem operand_complete : ∀ {level : Level} {ts rest : List Token} {m : Math},
    IsOperand true level ts rest m → Next (EndsOperand level) rest →
      Reads (operand level ts) m rest
  | _, _, _, _, .sum h, hnext => by
    rw [operand]
    refine math_complete h (hnext.mono fun _ hk => hk.mono (by decide)) (chainFrom_stops ?_)
    exact hnext.mono fun _ hk => hk.2 .sum (by decide)
  | _, _, _, _, .product h, hnext => by
    rw [operand]
    refine math_complete h (hnext.mono fun _ hk => hk.mono (by decide)) (chainFrom_stops ?_)
    exact hnext.mono fun _ hk => hk.2 .product (by decide)
  | _, _, _, _, .term h, hnext => by
    have hread := term_complete h (hnext.mono fun _ hk => hk.1)
    obtain ⟨t, us, rfl, ht⟩ := h.head
    exact operand_of_term ht hread
  | _, _, _, _, .unary ht h, hnext => by
    obtain ⟨_, hread⟩ := (term_complete h (hnext.mono fun _ hk => hk.1)).eq_ok
    unfold Reads
    rw [operand, unary, unary?_eq_some.mpr ht]
    dsimp only
    rw [hread]
    rfl
termination_by structural _ _ _ _ h => h

theorem term_complete : ∀ {ts rest : List Token} {v : Term}, IsTerm true ts rest v →
    Next EndsTerm rest → Reads (term ts) v rest
  | _, _, _, .atom ha hms hc, hnext => by
    have hatom := atom_complete ha
    obtain ⟨d, htakes, rfl, hreroll⟩ := hc.takes
    have hmods := modifiers_complete hms (hnext.mono fun _ hk => hk.1) false htakes fun _ => hreroll
    have hroll := hms.next_ne_roll (hnext.mono fun _ hk => hk.2)
    obtain ⟨t, us, rfl, ht⟩ := ha.head
    exact term_of_atom ht hatom hroll hmods
  | _, _, _, .roll ha hd hs hms hc, hnext => by
    have hcount := atom_complete ha
    have hsides := atom_complete hs
    obtain ⟨d, htakes, rfl, rfl⟩ := hc.takes
    have hmods := modifiers_complete hms (hnext.mono fun _ hk => hk.1) true htakes nofun
    obtain ⟨t, us, rfl, ht⟩ := ha.head
    exact term_of_roll ht hcount hd hsides hmods
  | _, _, _, .load hp hms hc, hnext => by
    have hplace := place_complete hp (hms.next_ne_roll (hnext.mono fun _ hk => hk.2))
    obtain ⟨d, htakes, rfl, hreroll⟩ := hc.takes
    have hmods := modifiers_complete hms (hnext.mono fun _ hk => hk.1) false htakes fun _ => hreroll
    obtain ⟨t, us, rfl, ht⟩ := hp.head
    obtain ⟨_, hplace⟩ := hplace.eq_ok
    obtain ⟨_, hmods⟩ := hmods.eq_ok
    unfold Reads
    rw [term, ht]
    dsimp only
    rw [hplace]
    dsimp only [bind, Except.bind]
    rw [hmods]
    rfl
  | _, _, _, .list ht hes hs hms hc, hnext => by
    obtain ⟨d, htakes, rfl, hreroll⟩ := hc.takes
    have hmods := modifiers_complete hms (hnext.mono fun _ hk => hk.1) false htakes fun _ => hreroll
    obtain ⟨_, hitems⟩ := (items_complete hes rfl hs).eq_ok
    obtain ⟨_, hmods⟩ := hmods.eq_ok
    unfold Reads
    rw [term, ht]
    dsimp only
    rw [hitems]
    dsimp only [bind, Except.bind]
    rw [hmods]
    rfl
termination_by structural _ _ _ h => h

theorem items_complete : ∀ {ts us : List Token} {es : List Expr}, IsExprs true ts us es →
    ∀ {s : Token} {rest : List Token}, us = s :: rest → s.kind = .rightBracket →
      Reads (items ts) es rest
  | _, _, _, .nil, _, _, heq, hs => by
    rw [heq]
    unfold Reads
    rw [items, if_pos hs]
    rfl
  | _, _, _, .cons he hplus hes, _, _, heq, hs => by
    obtain ⟨_, hitems⟩ := (items_complete hes heq hs).eq_ok
    have hend := hes.next_endsExpr (hplus rfl) (heq ▸ next_endsExpr_of_closes (by rw [hs]; rfl))
    have hread := expr_complete he hend
    obtain ⟨t, us, rfl, ht⟩ := he.head
    obtain ⟨_, hread⟩ := hread.eq_ok
    have hne : t.kind ≠ .rightBracket := by
      intro hk
      rw [hk] at ht
      cases ht
    unfold Reads
    rw [items, if_neg hne, hread]
    dsimp only [bind, Except.bind]
    rw [hitems]
    rfl
termination_by structural _ _ _ h => h

theorem atom_complete : ∀ {ts rest : List Token} {a : Atom}, IsAtom true ts rest a →
    Reads (atom ts) a rest
  | _, _, _, .number ht hx => by
    unfold Reads
    rw [atom, ht]
    dsimp only
    rw [hx]
    rfl
  | _, _, _, .group ht he hs =>
    atom_of_expr ht (expr_complete he (next_endsExpr_of_closes (by rw [hs]; rfl))) hs
termination_by structural _ _ _ h => h

theorem modifiers_complete : ∀ {ts rest : List Token} {ms : List Modifier},
    IsModifiers true ts rest ms → Next (fun k => role? k = none) rest →
      ∀ (rolled : Bool) {d d' : Draft}, d.Takes ms d' → (rolled = false → d'.reroll = none) →
        ReadsOn (modifiers rolled d ts) d' rest
  | _, _, _, .nil, hnext, _, _, _, htakes, _ => by
    rw [htakes.eq_of_nil]
    exact modifiers_stops hnext
  | _, _, _, .cons hm hms, hnext, rolled, _, _, htakes, hroll => by
    have hrest := modifiers_complete hms hnext rolled htakes.uncons.2 hroll
    exact modifier_complete hm htakes.uncons.1 (fun hf => htakes.rolled_of_reroll hf hroll) hrest
termination_by structural _ _ _ h => h

theorem modifier_complete : ∀ {ts us : List Token} {m : Modifier}, IsModifier true ts us m →
    ∀ {rolled : Bool} {d d' : Draft} {rest : List Token}, d.Lacks m.family →
      (m.family = .reroll → rolled = true) → ReadsOn (modifiers rolled (d.add m) us) d' rest →
        ReadsOn (modifiers rolled d ts) d' rest
  | _, _, _, .sort ht, _, d, _, _, hlacks, _, hrest => by
    have hnone : d.sort = none := hlacks
    obtain ⟨_, hrest⟩ := hrest.eq_ok
    unfold ReadsOn
    rw [modifiers, role?_eq_sort.mpr ht]
    dsimp only
    rw [hnone, if_neg (by decide)]
    change ((modifiers _ (d.add (.sort _)) _) >>= _).map _ = _
    rw [hrest]
    rfl
  | _, _, _, .select ht ha, _, d, _, _, hlacks, _, hrest => by
    have hnone : d.select = none := hlacks
    obtain ⟨_, ha⟩ := (atom_complete ha).eq_ok
    obtain ⟨_, hrest⟩ := hrest.eq_ok
    unfold ReadsOn
    rw [modifiers, role?_eq_select.mpr ht]
    dsimp only
    rw [hnone, if_neg (by decide), ha]
    change ((modifiers _ (d.add (.select _)) _) >>= _).map _ = _
    rw [hrest]
    rfl
  | _, _, _, .reroll ht hs ha, _, _, _, _, hlacks, hrolled, hrest =>
    modifiers_of_reroll ht hlacks (hrolled rfl) (condition_of_relation hs (atom_complete ha)) hrest
  | _, _, _, .rerollEqual ht ha, _, _, _, _, hlacks, hrolled, hrest => by
    have hthreshold := atom_complete ha
    obtain ⟨s, us, rfl, hs⟩ := ha.head
    exact modifiers_of_reroll ht hlacks (hrolled rfl) (condition_of_atom hs hthreshold) hrest
  | _, _, _, .check ht ha, _, d, _, _, hlacks, _, hrest => by
    have hnone : d.check = none := hlacks
    obtain ⟨_, hc⟩ := (condition_of_relation ht (atom_complete ha)).eq_ok
    obtain ⟨_, hrest⟩ := hrest.eq_ok
    unfold ReadsOn
    rw [modifiers, role?_eq_check.mpr ⟨_, ht⟩]
    dsimp only
    rw [hnone, if_neg (by decide), hc]
    change ((modifiers _ (d.add (.check _)) _) >>= _).map _ = _
    rw [hrest]
    rfl
termination_by structural _ _ _ h => h

theorem place_complete : ∀ {marker : TokenKind} {ts rest : List Token} {p : Place},
    IsRef true marker ts rest p → Next (· ≠ .roll) rest → Reads (place marker ts) p rest
  | _, _, _, _, .coordinates ht hc hd hs, _ =>
    place_of_roll ht (atom_complete hc) hd (atom_complete hs)
  | _, _, _, _, .grouped ht hl hc hd hs hr, hnext => by
    have hcount := atom_complete hc
    have hsides := atom_complete hs
    obtain ⟨c, us, rfl, hstart⟩ := hc.head
    exact place_of_group ht (group_of_roll hl hstart hcount hd hsides hr) rfl hnext
termination_by structural _ _ _ _ h => h

end

end Parser

end DiceScript
