import DiceScript.Proofs.Syntax.Grammar

/-!
# Drafts of modifiers

What a draft comes to hold when the modifiers of a value are added to it one after the other.
-/

namespace DiceScript

open Grammar

namespace Parser

namespace Draft

/-- The modifier is the one that the draft has of its family. -/
def Holds (d : Draft) : Modifier → Prop
  | .sort order => d.sort = some order
  | .select s => d.select = some s
  | .reroll r => d.reroll = some r
  | .check c => d.check = some c

/-- No modifier of the family was added so far. -/
def Lacks (d : Draft) : Family → Prop
  | .sort => d.sort = none
  | .select => d.select = none
  | .reroll => d.reroll = none
  | .check => d.check = none

def add (d : Draft) : Modifier → Draft
  | .sort order => { d with sort := some order }
  | .select s => { d with select := some s }
  | .reroll r => { d with reroll := some r }
  | .check c => { d with check := some c }

/-- A draft that had none of the modifiers holds exactly them in addition. -/
structure Takes (d : Draft) (ms : List Modifier) (d' : Draft) : Prop where
  once : (ms.map Modifier.family).Nodup
  fresh : ∀ m ∈ ms, d.Lacks m.family
  holds : ∀ m, d'.Holds m ↔ d.Holds m ∨ m ∈ ms

variable {d d' : Draft} {m : Modifier} {ms : List Modifier}

theorem lacks_add_iff {f : Family} : (d.add m).Lacks f ↔ d.Lacks f ∧ f ≠ m.family := by
  cases m <;> cases f <;> simp [add, Lacks, Modifier.family]

theorem holds_add_iff {m' : Modifier} (hm : d.Lacks m.family) :
    (d.add m).Holds m' ↔ d.Holds m' ∨ m' = m := by
  cases m <;> cases m' <;> simp_all [add, Holds, Lacks, Modifier.family, eq_comm]

theorem eq_of_holds (h : ∀ m, d'.Holds m ↔ d.Holds m) : d' = d := by
  obtain ⟨sort, select, reroll, check⟩ := d
  obtain ⟨sort', select', reroll', check'⟩ := d'
  have hsort : sort' = sort := Option.ext fun order => h (.sort order)
  have hselect : select' = select := Option.ext fun s => h (.select s)
  have hreroll : reroll' = reroll := Option.ext fun r => h (.reroll r)
  have hcheck : check' = check := Option.ext fun c => h (.check c)
  rw [hsort, hselect, hreroll, hcheck]

theorem not_holds_empty (m : Modifier) : ¬ empty.Holds m := by
  cases m <;> nofun

theorem lacks_empty (f : Family) : empty.Lacks f := by
  cases f <;> rfl

namespace Takes

theorem nil (d : Draft) : Takes d [] d :=
  ⟨List.nodup_nil, nofun, fun m => by simp⟩

theorem cons (hm : d.Lacks m.family) (h : Takes (d.add m) ms d') : Takes d (m :: ms) d' := by
  have hother : ∀ m' ∈ ms, d.Lacks m'.family ∧ m'.family ≠ m.family :=
    fun m' hm' => lacks_add_iff.mp (h.fresh m' hm')
  refine ⟨?_, ?_, ?_⟩
  · rw [List.map_cons, List.nodup_cons]
    refine ⟨?_, h.once⟩
    intro hmem
    obtain ⟨m', hm', heq⟩ := List.mem_map.mp hmem
    exact (hother m' hm').2 heq
  · intro m' hm'
    rcases List.mem_cons.mp hm' with rfl | hm'
    · exact hm
    · exact (hother m' hm').1
  · intro m'
    rw [h.holds, holds_add_iff hm, List.mem_cons, or_assoc]

theorem uncons (h : Takes d (m :: ms) d') : d.Lacks m.family ∧ Takes (d.add m) ms d' := by
  have hm : d.Lacks m.family := h.fresh m List.mem_cons_self
  have honce := h.once
  rw [List.map_cons, List.nodup_cons] at honce
  refine ⟨hm, honce.2, ?_, ?_⟩
  · intro m' hm'
    refine lacks_add_iff.mpr ⟨h.fresh m' (List.mem_cons_of_mem m hm'), fun heq => honce.1 ?_⟩
    exact heq ▸ List.mem_map_of_mem hm'
  · intro m'
    rw [h.holds, holds_add_iff hm, List.mem_cons, or_assoc]

/-- Where a draft stays without a reroll no reroll is taken. -/
theorem rolled_of_reroll {rolled : Bool} (h : Takes d (m :: ms) d') (hm : m.family = .reroll)
    (hrolled : rolled = false → d'.reroll = none) : rolled = true := by
  cases m with
  | reroll r =>
      have hr : d'.reroll = some r := (h.holds (.reroll r)).mpr (.inr List.mem_cons_self)
      cases rolled with
      | true => rfl
      | false =>
          rw [hrolled rfl] at hr
          cases hr
  | sort _ => cases hm
  | select _ => cases hm
  | check _ => cases hm

theorem eq_of_nil (h : Takes d [] d') : d' = d :=
  eq_of_holds fun m => by simpa using h.holds m

/-- From the empty draft on, a draft holds the parts that the modifiers give. -/
theorem collects (h : Takes empty ms d) : Collects ms d.modifiers d.reroll := by
  have hholds : ∀ m, d.Holds m ↔ m ∈ ms := fun m => by simpa [not_holds_empty] using h.holds m
  exact ⟨h.once, fun order => hholds (.sort order), fun s => hholds (.select s),
    fun c => hholds (.check c), fun r => hholds (.reroll r)⟩

end Takes

/-- Modifiers of different families can be added to a draft that has none of them. -/
theorem exists_takes : ∀ (ms : List Modifier) (d : Draft), (ms.map Modifier.family).Nodup →
    (∀ m ∈ ms, d.Lacks m.family) → ∃ d', d.Takes ms d' := by
  intro ms
  induction ms with
  | nil => exact fun d _ _ => ⟨d, .nil d⟩
  | cons m ms ih =>
      intro d honce hfresh
      rw [List.map_cons, List.nodup_cons] at honce
      have hrest : ∀ m' ∈ ms, (d.add m).Lacks m'.family := by
        intro m' hm'
        refine lacks_add_iff.mpr ⟨hfresh m' (List.mem_cons_of_mem m hm'), fun heq => honce.1 ?_⟩
        exact heq ▸ List.mem_map_of_mem hm'
      obtain ⟨d', htakes⟩ := ih (d.add m) honce.2 hrest
      exact ⟨d', .cons (hfresh m List.mem_cons_self) htakes⟩

end Draft

end Parser

namespace Grammar

open DiceScript.Parser

/-- The modifiers of a value make a draft that holds its parts. -/
theorem Collects.takes {ms : List Modifier} {mods : Modifiers} {reroll : Option Reroll}
    (h : Collects ms mods reroll) :
    ∃ d, Draft.empty.Takes ms d ∧ d.modifiers = mods ∧ d.reroll = reroll := by
  obtain ⟨sort, select, check⟩ := mods
  refine ⟨⟨sort, select, reroll, check⟩, ⟨h.once, ?_, ?_⟩, rfl, rfl⟩
  · exact fun m _ => Draft.lacks_empty m.family
  · intro m
    rw [or_iff_right (Draft.not_holds_empty m)]
    cases m with
    | sort order => exact h.sort order
    | select s => exact h.select s
    | reroll r => exact h.reroll r
    | check c => exact h.check c

/-- Whether modifiers go together depends on their families only. -/
theorem Collects.of_families {ms ms' : List Modifier} {mods : Modifiers} {reroll : Option Reroll}
    (h : Collects ms mods reroll) (hfamily : ms'.map Modifier.family = ms.map Modifier.family) :
    ∃ mods' reroll', Collects ms' mods' reroll' ∧ (reroll = none → reroll' = none) := by
  have honce : (ms'.map Modifier.family).Nodup := hfamily ▸ h.once
  obtain ⟨d, htakes⟩ := Draft.exists_takes ms' .empty honce fun m _ => Draft.lacks_empty m.family
  refine ⟨_, _, htakes.collects, fun hnone => ?_⟩
  cases hr : d.reroll with
  | none => rfl
  | some r =>
      have hmem : Modifier.reroll r ∈ ms' := (htakes.collects.reroll r).mp hr
      have hin : Family.reroll ∈ ms.map Modifier.family :=
        hfamily ▸ List.mem_map_of_mem (f := Modifier.family) hmem
      obtain ⟨m, hm, heq⟩ := List.mem_map.mp hin
      cases m with
      | reroll r' =>
          have hsome := (h.reroll r').mpr hm
          rw [hnone] at hsome
          cases hsome
      | sort _ => cases heq
      | select _ => cases heq
      | check _ => cases heq

end Grammar

end DiceScript
