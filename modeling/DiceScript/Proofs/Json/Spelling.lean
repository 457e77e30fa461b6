import DiceScript.Proofs.Json.Numbers
import DiceScript.Proofs.Json.Quoting

/-!
# The texts of JSON values

A value can be written in many ways that differ in the white space between its parts. The reader
takes each of them for the value. Both layouts in which values are written are among them.
-/

namespace DiceScript.Json

/-- White space, perhaps none. -/
def Blank (ws : List Char) : Prop :=
  ∀ c ∈ ws, isSpace c = true

mutual

/-- The text is a way to write the value. -/
inductive Spells : List Char → Written → Prop
  | null : Spells "null".toList .null
  | true : Spells "true".toList (.bool true)
  | false : Spells "false".toList (.bool false)
  | number {text : List Char} {w : Written} : number? text = some (w, []) → Spells text w
  | string (s : List Char) : Spells (Quoted.encode s) (.string (s.flatMap Quoted.escapeChar))
  | emptyArray {ws : List Char} : Blank ws → Spells ('[' :: (ws ++ [']'])) (.array [])
  | array {ws text : List Char} {vs : List Written} : Blank ws → SpellsItems text vs →
      Spells ('[' :: (ws ++ text)) (.array vs)
  | emptyObject {ws : List Char} : Blank ws → Spells ('\x7b' :: (ws ++ ['\x7d'])) (.object [])
  | object {ws text : List Char} {fields : List (List Char × Written)} : Blank ws →
      SpellsFields text fields → Spells ('\x7b' :: (ws ++ text)) (.object fields)

/-- The text has the items from one on, and the closing bracket. -/
inductive SpellsItems : List Char → List Written → Prop
  | last {text ws : List Char} {v : Written} : Spells text v → Blank ws →
      SpellsItems (text ++ (ws ++ [']'])) [v]
  | cons {text ws ws' rest : List Char} {v : Written} {vs : List Written} : Spells text v →
      Blank ws → Blank ws' → SpellsItems rest vs →
      SpellsItems (text ++ (ws ++ ',' :: (ws' ++ rest))) (v :: vs)

/-- The text has the fields from one on, and the closing brace. -/
inductive SpellsFields : List Char → List (List Char × Written) → Prop
  | last (k : List Char) {ws text ws' : List Char} {v : Written} : Blank ws → Spells text v →
      Blank ws' →
      SpellsFields (Quoted.encode k ++ ':' :: (ws ++ (text ++ (ws' ++ ['\x7d']))))
        [(k.flatMap Quoted.escapeChar, v)]
  | cons (k : List Char) {ws text ws' ws'' rest : List Char} {v : Written}
      {fields : List (List Char × Written)} : Blank ws → Spells text v → Blank ws' → Blank ws'' →
      SpellsFields rest fields →
      SpellsFields (Quoted.encode k ++ ':' :: (ws ++ (text ++ (ws' ++ ',' :: (ws'' ++ rest)))))
        ((k.flatMap Quoted.escapeChar, v) :: fields)

end

/-! ## White space -/

/-- The text begins with a character that is no white space. -/
def Starts (p : Char → Prop) (text : List Char) : Prop :=
  ∃ c rest, text = c :: rest ∧ isSpace c = false ∧ p c

variable {ws text rest : List Char}

theorem skipSpace_of_starts {p : Char → Prop} (h : Starts p text) (rest : List Char) :
    skipSpace (text ++ rest) = text ++ rest := by
  obtain ⟨c, left, rfl, hc, -⟩ := h
  exact List.dropWhile_cons_of_neg (by simp [hc])

theorem skipSpace_blank (hws : Blank ws) (rest : List Char) :
    skipSpace (ws ++ rest) = skipSpace rest :=
  List.dropWhile_append_of_pos hws

theorem Blank.endsNumber (hws : Blank ws) : EndsNumber ws := by
  intro c hc
  have hspace := hws c (List.mem_of_mem_head? hc)
  simp only [isSpace, Bool.or_eq_true, beq_iff_eq] at hspace
  rcases hspace with ((rfl | rfl) | rfl) | rfl <;> decide

/-- After a value come white space and one of these characters. -/
theorem endsNumber_append {c : Char} (hws : Blank ws) (hc : c ∈ [',', ']', '\x7d'])
    (rest : List Char) : EndsNumber (ws ++ c :: rest) := by
  cases ws with
  | nil =>
      intro d hd
      obtain rfl : c = d := by simpa using hd
      simp only [List.mem_cons, List.not_mem_nil, or_false] at hc
      rcases hc with rfl | rfl | rfl <;> decide
  | cons d ws => exact hws.endsNumber

/-! ## The first character -/

theorem starts_of_number {r : Written × List Char} (h : number? text = some r) :
    Starts (fun c => c ∉ [']', '\x7d', '"', '[', '\x7b', 'n', 't', 'f']) text := by
  obtain ⟨c, left, rfl, hc⟩ := number?_head h
  refine ⟨c, left, rfl, ?_⟩
  rcases hc with rfl | hdigit
  · decide
  constructor
  · rw [← Bool.not_eq_true]
    intro hspace
    simp only [isSpace, Bool.or_eq_true, beq_iff_eq] at hspace
    rcases hspace with ((rfl | rfl) | rfl) | rfl <;> cases hdigit
  · intro hmem
    simp only [List.mem_cons, List.not_mem_nil, or_false] at hmem
    rcases hmem with rfl | rfl | rfl | rfl | rfl | rfl | rfl | rfl <;> cases hdigit

theorem Spells.starts {w : Written} (h : Spells text w) :
    Starts (fun c => c ≠ ']' ∧ c ≠ '\x7d') text := by
  cases h with
  | null => exact ⟨_, _, rfl, by decide⟩
  | true => exact ⟨_, _, rfl, by decide⟩
  | false => exact ⟨_, _, rfl, by decide⟩
  | number h =>
      obtain ⟨c, left, rfl, hc, hp⟩ := starts_of_number h
      exact ⟨c, left, rfl, hc, by simp_all⟩
  | string s => exact ⟨_, _, rfl, by decide⟩
  | emptyArray _ => exact ⟨_, _, rfl, by decide⟩
  | array _ _ => exact ⟨_, _, rfl, by decide⟩
  | emptyObject _ => exact ⟨_, _, rfl, by decide⟩
  | object _ _ => exact ⟨_, _, rfl, by decide⟩

theorem SpellsItems.starts {vs : List Written} (h : SpellsItems text vs) :
    Starts (fun c => c ≠ ']') text := by
  cases h with
  | last hv _ =>
      obtain ⟨c, left, rfl, hc, hp⟩ := hv.starts
      exact ⟨c, _, rfl, hc, hp.1⟩
  | cons hv _ _ _ =>
      obtain ⟨c, left, rfl, hc, hp⟩ := hv.starts
      exact ⟨c, _, rfl, hc, hp.1⟩

theorem SpellsFields.starts {fields : List (List Char × Written)} (h : SpellsFields text fields) :
    Starts (fun c => c = '"') text := by
  cases h with
  | last k _ _ _ => exact ⟨_, _, rfl, by decide⟩
  | cons k _ _ _ _ _ => exact ⟨_, _, rfl, by decide⟩

/-! ## Reading -/

theorem value?_number {w : Written} (h : number? text = some (w, [])) (hrest : EndsNumber rest)
    (fuel : Nat) : value? (fuel + 1) (text ++ rest) = some (w, rest) := by
  obtain ⟨c, left, htext, -, hc⟩ := starts_of_number h
  have hread := number?_append h hrest
  simp only [List.mem_cons, List.not_mem_nil, or_false, not_or] at hc
  obtain ⟨-, -, hquote, hbracket, hbrace, hn, ht, hf⟩ := hc
  rw [htext] at hread ⊢
  rw [List.cons_append, value?, if_neg hbrace, if_neg hbracket, if_neg hquote, if_neg hn, if_neg ht,
    if_neg hf]
  exact hread

theorem value?_array {vs : List Written} {fuel : Nat} (hws : Blank ws)
    (hstarts : Starts (fun c => c ≠ ']') text)
    (hitems : items? fuel (text ++ rest) = some (vs, rest)) :
    value? (fuel + 1) ('[' :: (ws ++ text) ++ rest) = some (.array vs, rest) := by
  have hskip : skipSpace (ws ++ text ++ rest) = text ++ rest := by
    rw [List.append_assoc, skipSpace_blank hws, skipSpace_of_starts hstarts]
  rw [List.cons_append, value?, if_neg (by decide), if_pos rfl, hskip]
  obtain ⟨c, left, rfl, -, hc⟩ := hstarts
  rw [List.cons_append] at hitems ⊢
  split
  · rename_i heq
    exact absurd (List.head_eq_of_cons_eq heq) hc
  · rw [hitems]
    rfl

theorem value?_object {fields : List (List Char × Written)} {fuel : Nat} (hws : Blank ws)
    (hstarts : Starts (fun c => c = '"') text)
    (hfields : fields? fuel (text ++ rest) = some (fields, rest)) :
    value? (fuel + 1) ('\x7b' :: (ws ++ text) ++ rest) = some (.object fields, rest) := by
  have hskip : skipSpace (ws ++ text ++ rest) = text ++ rest := by
    rw [List.append_assoc, skipSpace_blank hws, skipSpace_of_starts hstarts]
  rw [List.cons_append, value?, if_pos rfl, hskip]
  obtain ⟨c, left, rfl, -, rfl⟩ := hstarts
  rw [List.cons_append] at hfields ⊢
  split
  · rename_i heq
    cases List.head_eq_of_cons_eq heq
  · rw [hfields]
    rfl

theorem items?_last {v : Written} {fuel : Nat} (hws : Blank ws)
    (hv : value? fuel (text ++ (ws ++ ']' :: rest)) = some (v, ws ++ ']' :: rest)) :
    items? (fuel + 1) (text ++ (ws ++ [']']) ++ rest) = some ([v], rest) := by
  have hskip : skipSpace (ws ++ ']' :: rest) = ']' :: rest := skipSpace_blank hws _
  rw [List.append_assoc, List.append_assoc, List.singleton_append, items?, hv]
  dsimp only [Option.bind_eq_bind, Option.bind_some]
  rw [hskip]
  rfl

theorem items?_cons {ws' more : List Char} {v : Written} {vs : List Written} {fuel : Nat}
    (hws : Blank ws) (hws' : Blank ws') (hstarts : Starts (fun c => c ≠ ']') more)
    (hv : value? fuel (text ++ (ws ++ ',' :: (ws' ++ (more ++ rest)))) =
      some (v, ws ++ ',' :: (ws' ++ (more ++ rest))))
    (hvs : items? fuel (more ++ rest) = some (vs, rest)) :
    items? (fuel + 1) (text ++ (ws ++ ',' :: (ws' ++ more)) ++ rest) = some (v :: vs, rest) := by
  have hskip : ∀ left, skipSpace (ws ++ ',' :: left) = ',' :: left := fun left =>
    skipSpace_blank hws _
  have hskip' : skipSpace (ws' ++ (more ++ rest)) = more ++ rest := by
    rw [skipSpace_blank hws', skipSpace_of_starts hstarts]
  rw [List.append_assoc, List.append_assoc, List.cons_append, List.append_assoc, items?, hv]
  dsimp only [Option.bind_eq_bind, Option.bind_some]
  rw [hskip]
  change (items? fuel (skipSpace (ws' ++ (more ++ rest)))).bind _ = _
  rw [hskip', hvs]
  rfl

/-- A name and its colon, in front of a value. -/
theorem fields?_name (k : List Char) {fuel : Nat} (hws : Blank ws) {p : Char → Prop}
    (hstarts : Starts p text) :
    fields? (fuel + 1) (Quoted.encode k ++ ':' :: (ws ++ (text ++ rest))) =
      (value? fuel (text ++ rest)).bind fun r =>
        match skipSpace r.2 with
        | '\x7d' :: rest => some ([(k.flatMap Quoted.escapeChar, r.1)], rest)
        | ',' :: rest =>
          (fields? fuel (skipSpace rest)).bind fun more =>
            some ((k.flatMap Quoted.escapeChar, r.1) :: more.1, more.2)
        | _ => none := by
  have hscan : Quoted.scan? (k.flatMap Quoted.escapeChar ++ '"' :: ':' :: (ws ++ (text ++ rest))) =
      some (k.flatMap Quoted.escapeChar, ':' :: (ws ++ (text ++ rest))) := Quoted.scan?_body k _
  have hskip : skipSpace (ws ++ (text ++ rest)) = text ++ rest := by
    rw [skipSpace_blank hws, skipSpace_of_starts hstarts]
  rw [Quoted.encode, List.cons_append, List.append_assoc, List.singleton_append, fields?,
    if_neg (by simp), hscan]
  change (value? fuel (skipSpace (ws ++ (text ++ rest)))).bind _ = _
  rw [hskip]
  rfl

theorem fields?_last (k : List Char) {ws' : List Char} {v : Written} {fuel : Nat} (hws : Blank ws)
    (hws' : Blank ws') {p : Char → Prop} (hstarts : Starts p text)
    (hv : value? fuel (text ++ (ws' ++ '\x7d' :: rest)) = some (v, ws' ++ '\x7d' :: rest)) :
    fields? (fuel + 1)
        (Quoted.encode k ++ ':' :: (ws ++ (text ++ (ws' ++ ['\x7d']))) ++ rest) =
      some ([(k.flatMap Quoted.escapeChar, v)], rest) := by
  have hskip : skipSpace (ws' ++ '\x7d' :: rest) = '\x7d' :: rest := skipSpace_blank hws' _
  simp only [List.append_assoc, List.cons_append, List.nil_append]
  rw [fields?_name k hws hstarts, hv, Option.bind_some]
  dsimp only
  rw [hskip]
  rfl

theorem fields?_cons (k : List Char) {ws' ws'' more : List Char} {v : Written}
    {fields : List (List Char × Written)} {fuel : Nat} (hws : Blank ws) (hws' : Blank ws')
    (hws'' : Blank ws'') {p q : Char → Prop} (hstarts : Starts p text) (hmore : Starts q more)
    (hv : value? fuel (text ++ (ws' ++ ',' :: (ws'' ++ (more ++ rest)))) =
      some (v, ws' ++ ',' :: (ws'' ++ (more ++ rest))))
    (hfields : fields? fuel (more ++ rest) = some (fields, rest)) :
    fields? (fuel + 1)
        (Quoted.encode k ++ ':' :: (ws ++ (text ++ (ws' ++ ',' :: (ws'' ++ more)))) ++ rest) =
      some ((k.flatMap Quoted.escapeChar, v) :: fields, rest) := by
  have hskip : ∀ left, skipSpace (ws' ++ ',' :: left) = ',' :: left := fun left =>
    skipSpace_blank hws' _
  have hskip' : skipSpace (ws'' ++ (more ++ rest)) = more ++ rest := by
    rw [skipSpace_blank hws'', skipSpace_of_starts hmore]
  simp only [List.append_assoc, List.cons_append]
  rw [fields?_name k hws hstarts, hv, Option.bind_some]
  dsimp only
  rw [hskip]
  change (fields? fuel (skipSpace (ws'' ++ (more ++ rest)))).bind _ = _
  rw [hskip', hfields]
  rfl

theorem exists_fuel {n fuel : Nat} (hn : 0 < n) (hfuel : 2 * n ≤ fuel) :
    ∃ less, fuel = less + 1 ∧ 2 * n ≤ less + 1 :=
  ⟨fuel - 1, by omega⟩

theorem Spells.length_pos {w : Written} (h : Spells text w) : 0 < text.length := by
  obtain ⟨c, left, rfl, -⟩ := h.starts
  exact Nat.succ_pos _

mutual

/-- The reader takes every way to write a value for that value. -/
theorem Spells.value?_eq : ∀ {text : List Char} {w : Written}, Spells text w →
    ∀ {fuel : Nat} {rest : List Char}, 2 * text.length ≤ fuel → EndsNumber rest →
      value? fuel (text ++ rest) = some (w, rest)
  | _, _, .null, _ + 1, _, _, _ => rfl
  | _, _, .true, _ + 1, _, _, _ => rfl
  | _, _, .false, _ + 1, _, _, _ => rfl
  | _, _, .number h, _, _, hfuel, hrest => by
    obtain ⟨fuel, rfl, -⟩ := exists_fuel (Spells.number h).length_pos hfuel
    exact value?_number h hrest fuel
  | _, _, .string s, fuel + 1, rest, _, _ => by
    rw [Quoted.encode, List.cons_append, List.append_assoc, List.singleton_append, value?,
      if_neg (by decide), if_neg (by decide), if_pos rfl, Quoted.scan?_body]
    rfl
  | _, _, .emptyArray hws, fuel + 1, rest, _, _ => by
    have hskip : skipSpace (_ ++ ']' :: rest) = ']' :: rest := skipSpace_blank hws _
    rw [List.cons_append, List.append_assoc, List.singleton_append, value?, if_neg (by decide),
      if_pos rfl, hskip]
    rfl
  | _, _, .array hws hvs, _, _, hfuel, _ => by
    obtain ⟨fuel, rfl, hless⟩ := exists_fuel (Nat.succ_pos _) hfuel
    refine value?_array hws hvs.starts (hvs.items?_eq ?_)
    rw [List.length_append] at hless
    omega
  | _, _, .emptyObject hws, fuel + 1, rest, _, _ => by
    have hskip : skipSpace (_ ++ '\x7d' :: rest) = '\x7d' :: rest := skipSpace_blank hws _
    rw [List.cons_append, List.append_assoc, List.singleton_append, value?, if_pos rfl, hskip]
    rfl
  | _, _, .object hws hfields, _, _, hfuel, _ => by
    obtain ⟨fuel, rfl, hless⟩ := exists_fuel (Nat.succ_pos _) hfuel
    refine value?_object hws hfields.starts (hfields.fields?_eq ?_)
    rw [List.length_append] at hless
    omega
termination_by structural _ _ h => h

theorem SpellsItems.items?_eq : ∀ {text : List Char} {vs : List Written}, SpellsItems text vs →
    ∀ {fuel : Nat} {rest : List Char}, 2 * text.length ≤ fuel →
      items? fuel (text ++ rest) = some (vs, rest)
  | _, _, .last hv hws, _, _, hfuel => by
    obtain ⟨fuel, rfl, hless⟩ := exists_fuel (by simp) hfuel
    refine items?_last hws (hv.value?_eq ?_ (endsNumber_append hws (by decide) _))
    simp only [List.length_append, List.length_singleton] at hless
    omega
  | _, _, .cons hv hws hws' hvs, _, _, hfuel => by
    obtain ⟨fuel, rfl, hless⟩ := exists_fuel (by simp) hfuel
    simp only [List.length_append, List.length_cons] at hless
    refine items?_cons hws hws' hvs.starts ?_ (hvs.items?_eq (by omega))
    exact hv.value?_eq (by omega) (endsNumber_append hws (by decide) _)
termination_by structural _ _ h => h

theorem SpellsFields.fields?_eq : ∀ {text : List Char} {fields : List (List Char × Written)},
    SpellsFields text fields → ∀ {fuel : Nat} {rest : List Char}, 2 * text.length ≤ fuel →
      fields? fuel (text ++ rest) = some (fields, rest)
  | _, _, .last k hws hv hws', _, _, hfuel => by
    obtain ⟨fuel, rfl, hless⟩ := exists_fuel (by simp) hfuel
    simp only [List.length_append, List.length_cons] at hless
    refine fields?_last k hws hws' hv.starts (hv.value?_eq (by omega) ?_)
    exact endsNumber_append hws' (by decide) _
  | _, _, .cons k hws hv hws' hws'' hfields, _, _, hfuel => by
    obtain ⟨fuel, rfl, hless⟩ := exists_fuel (by simp) hfuel
    simp only [List.length_append, List.length_cons] at hless
    refine fields?_cons k hws hws' hws'' hv.starts hfields.starts ?_
      (hfields.fields?_eq (by omega))
    exact hv.value?_eq (by omega) (endsNumber_append hws' (by decide) _)
termination_by structural _ _ h => h

end

/-- A text is read as the value that it spells, white space around it aside. -/
theorem read?_of_spells {w : Written} (h : Spells text w) (hws : Blank ws) (hrest : Blank rest) :
    read? (ws ++ (text ++ rest)) = some w := by
  have hskip : skipSpace (ws ++ (text ++ rest)) = text ++ rest := by
    rw [skipSpace_blank hws, skipSpace_of_starts h.starts]
  have hlength : 2 * text.length ≤ 2 * (ws ++ (text ++ rest)).length + 1 := by
    simp only [List.length_append]
    omega
  have hend : skipSpace rest = [] := List.dropWhile_eq_nil_iff.mpr hrest
  rw [read?, hskip, h.value?_eq hlength hrest.endsNumber]
  exact if_pos hend

end DiceScript.Json
