import Campaign.Json.Decode
import Campaign.Proofs.Json.Number

/-!
# Values read back

A value *reads back* (`ReadsBack`) if what is printed for it on any level, in front of anything that
ends a value, is read as the value. Arrays and records inherit this from their parts. The reader is
given at least one unit of fuel for each character of the value: every step down or to the right has
a character of its own.

## Main statements

* `readsBack_number`, `readsBack_string`: values without parts;
* `readsBack_array`, `readsBack_record`: values with parts, of any number;
* `read?_render`: a whole text.
-/

namespace Campaign.Json

/-- A value that is read from what is printed for it. -/
structure ReadsBack (v : Json) : Prop where
  starts : ∀ level, ∃ c s, renderAt level v = c :: s ∧ isBlank c = false ∧ c ≠ ']'
  reads : ∀ level fuel rest, Ends rest → (renderAt level v).length ≤ fuel →
    readValue? fuel (renderAt level v ++ rest) = some (v, rest)

/-! ### Blanks -/

theorem skipBlanks_cons {c : Char} (h : isBlank c = false) (s : List Char) :
    skipBlanks (c :: s) = c :: s := by
  simp [skipBlanks, h]

theorem skipBlanks_newLine (level : ℕ) (s : List Char) :
    skipBlanks (newLine level ++ s) = skipBlanks s := by
  have h (n : ℕ) : skipBlanks (List.replicate n ' ' ++ s) = skipBlanks s := by
    induction n with
    | zero => rfl
    | succ n ih => exact ih
  exact h (2 * level)

theorem readValue?_skip (fuel : ℕ) {s t : List Char} (h : skipBlanks s = skipBlanks t) :
    readValue? fuel s = readValue? fuel t := by
  cases fuel with
  | zero => rfl
  | succ fuel => simp only [readValue?, h]

theorem readItems?_skip (fuel : ℕ) {s t : List Char} (h : skipBlanks s = skipBlanks t) :
    readItems? fuel s = readItems? fuel t := by
  cases fuel with
  | zero => rfl
  | succ fuel => simp only [readItems?, readValue?_skip fuel h]

theorem readMembers?_skip (fuel : ℕ) {s t : List Char} (h : skipBlanks s = skipBlanks t) :
    readMembers? fuel s = readMembers? fuel t := by
  cases fuel with
  | zero => rfl
  | succ fuel => simp only [readMembers?, h]

/-! ### Values without parts -/

theorem readValue?_atom (fuel : ℕ) {c : Char} (hc : isBlank c = false)
    (h : c ∉ ['"', '[', '{']) (s : List Char) :
    readValue? (fuel + 1) (c :: s) = readAtom? (c :: s) := by
  simp only [List.mem_cons, List.not_mem_nil, or_false, not_or] at h
  simp only [readValue?, skipBlanks_cons hc]
  split <;> simp_all

/-- Words read back. -/
theorem readsBack_of_word {v : Json} {c : Char} {s : List Char}
    (hv : ∀ level, renderAt level v = c :: s) (hc : isBlank c = false)
    (h : c ∉ ['"', '[', '{', ']']) (hr : ∀ rest, readAtom? (c :: s ++ rest) = some (v, rest)) :
    ReadsBack v := by
  simp only [List.mem_cons, List.not_mem_nil, or_false, not_or] at h
  refine ⟨fun level => ⟨c, s, hv level, hc, h.2.2.2⟩, fun level fuel rest _ hfuel => ?_⟩
  rw [hv] at hfuel ⊢
  obtain ⟨fuel, rfl⟩ := Nat.exists_eq_succ_of_ne_zero (Nat.ne_of_gt (Nat.zero_lt_of_lt hfuel))
  rw [List.cons_append, readValue?_atom fuel hc (by simp [h]), ← List.cons_append, hr]

theorem readsBack_null : ReadsBack null :=
  readsBack_of_word (fun _ => rfl) (by decide) (by decide) fun _ => rfl

theorem readsBack_bool (b : Bool) : ReadsBack (bool b) := by
  cases b with
  | false => exact readsBack_of_word (fun _ => rfl) (by decide) (by decide) fun _ => rfl
  | true => exact readsBack_of_word (fun _ => rfl) (by decide) (by decide) fun _ => rfl

/-- A minus and the digits start no value of another kind than a number. -/
theorem ne_of_startsNumber {c : Char} (h : c = '-' ∨ c.isDigit = true) {d : Char}
    (hd : ¬ (d = '-' ∨ d.isDigit = true)) : c ≠ d := fun e => hd (e ▸ h)

theorem readAtom?_number {c : Char} (h : c = '-' ∨ c.isDigit = true) (s : List Char) :
    readAtom? (c :: s) = (Number.split? (c :: s)).map fun (n, rest) => (number n.text, rest) := by
  have hn : c ≠ 'n' := ne_of_startsNumber h (by decide)
  have ht : c ≠ 't' := ne_of_startsNumber h (by decide)
  have hf : c ≠ 'f' := ne_of_startsNumber h (by decide)
  rw [readAtom?.eq_4 _ (by simp_all) (by simp_all) (by simp_all)]
  cases Number.split? (c :: s) <;> rfl

theorem readsBack_number {literal : List Char} {n : Number}
    (h : Number.ofText? literal = some n) : ReadsBack (number literal) := by
  have hsplit (rest : List Char) (hrest : Ends rest) := Number.split?_of_ofText? h hrest
  obtain ⟨c, s, hs, hc⟩ : ∃ c s, literal = c :: s ∧ (c = '-' ∨ c.isDigit = true) := by
    have hwhole := (hsplit [] ends_nil).1
    rw [List.append_nil] at hwhole
    exact Number.exists_cons_of_split? hwhole
  have hother {d : Char} := @ne_of_startsNumber c hc d
  have hblank : isBlank c = false := by
    simp [isBlank, hother (d := ' ') (by decide), hother (d := '\n') (by decide),
      hother (d := '\r') (by decide), hother (d := '\t') (by decide)]
  refine ⟨fun level => ⟨c, s, hs, hblank, hother (by decide)⟩, fun level fuel rest hr hfuel => ?_⟩
  rw [renderAt] at hfuel ⊢
  obtain ⟨fuel, rfl⟩ : ∃ k, fuel = k + 1 := ⟨fuel - 1, by rw [hs, List.length_cons] at hfuel; omega⟩
  obtain ⟨hread, htext⟩ := hsplit rest hr
  have hplain : c ∉ ['"', '[', '{'] := by
    simp [hother (d := '"') (by decide), hother (d := '[') (by decide),
      hother (d := '{') (by decide)]
  rw [hs, List.cons_append] at hread ⊢
  rw [readValue?_atom fuel hblank hplain, readAtom?_number hc, hread, ← hs, ← htext]
  rfl

theorem readsBack_string (s : String) : ReadsBack (ofString s) := by
  refine ⟨fun level => ⟨'"', _, rfl, rfl, by decide⟩, fun level fuel rest _ hfuel => ?_⟩
  obtain ⟨fuel, rfl⟩ : ∃ k, fuel = k + 1 := ⟨fuel - 1, by
    simp only [ofString, renderAt, quoted, List.cons_append, List.length_cons] at hfuel
    omega⟩
  have htext : renderAt level (ofString s) ++ rest = '"' :: (escape s.toList ++ '"' :: rest) := by
    simp [ofString, renderAt, quoted]
  rw [htext, readValue?, skipBlanks_cons rfl]
  simp only [splitQuoted?_escape]
  rfl

/-! ### Arrays -/

theorem ends_newLine (level : ℕ) (s : List Char) : Ends (newLine level ++ s) :=
  ends_cons (.inr rfl) _

theorem length_newLine (level : ℕ) : (newLine level).length = 2 * level + 1 := by simp [newLine]

/-- The items of an array from the first one on. -/
theorem readItems?_renderItems {vs : List Json} (hvs : ∀ w ∈ vs, ReadsBack w) (level closing : ℕ)
    (rest : List Char) {v : Json} (hv : ReadsBack v) {fuel : ℕ}
    (hfuel : (renderAt level v ++ renderItems level vs).length + 1 ≤ fuel) :
    readItems? fuel
        (renderAt level v ++ (renderItems level vs ++ (newLine closing ++ ']' :: rest))) =
      some (v :: vs, rest) := by
  induction vs generalizing v fuel with
  | nil =>
    obtain ⟨fuel, rfl⟩ : ∃ k, fuel = k + 1 := ⟨fuel - 1, by omega⟩
    rw [renderItems, List.append_nil] at hfuel
    rw [readItems?, renderItems, List.nil_append,
      hv.reads level fuel _ (ends_newLine _ _) (by omega)]
    simp [skipBlanks_newLine, skipBlanks_cons (show isBlank ']' = false from rfl)]
  | cons w ws ih =>
    obtain ⟨fuel, rfl⟩ : ∃ k, fuel = k + 1 := ⟨fuel - 1, by omega⟩
    simp only [renderItems, List.length_append, List.length_cons, length_newLine] at hfuel
    have htail : readItems? fuel (newLine level ++ (renderAt level w ++ (renderItems level ws ++
        (newLine closing ++ ']' :: rest)))) = some (w :: ws, rest) := by
      rw [readItems?_skip fuel (skipBlanks_newLine _ _)]
      refine ih (fun u hu => hvs u (List.mem_cons_of_mem w hu)) (hvs w List.mem_cons_self) ?_
      rw [List.length_append]
      omega
    rw [readItems?, renderItems]
    simp only [List.cons_append, List.append_assoc]
    rw [hv.reads level fuel _ (ends_cons (.inl rfl) _) (by omega)]
    simp [skipBlanks_cons (show isBlank ',' = false from rfl), htail]

/-- **Arrays read back** if their items do. -/
theorem readsBack_array {vs : List Json} (h : ∀ v ∈ vs, ReadsBack v) : ReadsBack (array vs) := by
  cases vs with
  | nil =>
    refine ⟨fun level => ⟨'[', _, by rw [renderAt], rfl, by decide⟩,
      fun level fuel rest _ hfuel => ?_⟩
    rw [renderAt] at hfuel ⊢
    obtain ⟨fuel, rfl⟩ : ∃ k, fuel = k + 1 := ⟨fuel - 1, by simp at hfuel; omega⟩
    rfl
  | cons v vs =>
    refine ⟨fun level => ⟨'[', _, by rw [renderAt]; rfl, rfl, by decide⟩,
      fun level fuel rest _ hfuel => ?_⟩
    simp only [renderAt, List.length_append, List.length_cons, length_newLine] at hfuel
    obtain ⟨fuel, rfl⟩ : ∃ k, fuel = k + 1 := ⟨fuel - 1, by omega⟩
    have hv := h v List.mem_cons_self
    have hitems := readItems?_renderItems (fun w hw => h w (List.mem_cons_of_mem v hw)) (level + 1)
      level rest hv (show _ ≤ fuel by rw [List.length_append]; omega)
    obtain ⟨c, s, hc, hblank, hclose⟩ := hv.starts (level + 1)
    simp only [renderAt, List.cons_append, List.append_assoc, List.nil_append]
    rw [readValue?, skipBlanks_cons rfl]
    simp only [skipBlanks_newLine]
    rw [hc] at hitems ⊢
    simp only [List.cons_append, skipBlanks_cons hblank] at hitems ⊢
    split
    · simp_all
    · simp [hitems]

/-! ### Records -/

/-- The member of a field. -/
abbrev member (f : String × Json) : List Char × Json := (escape f.1.toList, f.2)

/-- A member as printed. -/
def memberText (level : ℕ) (f : String × Json) : List Char :=
  quoted (escape f.1.toList) ++ ':' :: ' ' :: renderAt level f.2

/-- One member: its name, the colon and its value, which ends before `s`. -/
theorem readMembers?_memberText {f : String × Json} (hf : ReadsBack f.2) {level fuel : ℕ}
    {s : List Char} (hs : Ends s) (hfuel : (memberText level f).length ≤ fuel + 1) :
    readMembers? (fuel + 1) (memberText level f ++ s) =
      match skipBlanks s with
      | ',' :: s => (readMembers? fuel s).map fun p => (member f :: p.1, p.2)
      | '}' :: s => some ([member f], s)
      | _ => none := by
  have htext : memberText level f ++ s =
      '"' :: (escape f.1.toList ++ '"' :: ':' :: ' ' :: (renderAt level f.2 ++ s)) := by
    simp [memberText, quoted]
  have hvalue : readValue? fuel (' ' :: (renderAt level f.2 ++ s)) = some (f.2, s) := by
    have hskip : skipBlanks (' ' :: (renderAt level f.2 ++ s)) =
        skipBlanks (renderAt level f.2 ++ s) := rfl
    rw [readValue?_skip fuel hskip]
    refine hf.reads level fuel s hs ?_
    simp only [memberText, quoted, List.length_append, List.length_cons] at hfuel
    omega
  rw [htext, readMembers?, skipBlanks_cons rfl]
  simp only [splitQuoted?_escape, Option.bind_eq_bind, Option.bind_some,
    skipBlanks_cons (show isBlank ':' = false from rfl), hvalue]
  generalize skipBlanks s = t
  split
  · rename_i t
    change (readMembers? fuel t).bind _ = (readMembers? fuel t).map _
    cases readMembers? fuel t <;> rfl
  · rfl
  · simp_all

/-- The members of a record from the first one on. -/
theorem readMembers?_renderMembers {fs : List (String × Json)} (hfs : ∀ g ∈ fs, ReadsBack g.2)
    (level closing : ℕ) (rest : List Char) {f : String × Json} (hf : ReadsBack f.2) {fuel : ℕ}
    (hfuel : (memberText level f ++ renderMembers level (fs.map member)).length ≤ fuel) :
    readMembers? fuel (memberText level f ++ (renderMembers level (fs.map member) ++
      (newLine closing ++ '}' :: rest))) = some (member f :: fs.map member, rest) := by
  induction fs generalizing f fuel with
  | nil =>
    obtain ⟨fuel, rfl⟩ : ∃ k, fuel = k + 1 := ⟨fuel - 1, by
      simp only [memberText, quoted, List.cons_append, List.length_cons] at hfuel
      omega⟩
    rw [List.map_nil, renderMembers, List.append_nil] at hfuel
    rw [List.map_nil, renderMembers, List.nil_append,
      readMembers?_memberText hf (ends_newLine _ _) hfuel]
    simp [skipBlanks_newLine, skipBlanks_cons (show isBlank '}' = false from rfl)]
  | cons g gs ih =>
    have hmembers : renderMembers level ((g :: gs).map member) =
        ',' :: (newLine level ++ (memberText level g ++ renderMembers level (gs.map member))) := by
      simp [renderMembers, member, memberText]
    rw [hmembers] at hfuel ⊢
    simp only [List.length_append, List.length_cons, length_newLine] at hfuel
    obtain ⟨fuel, rfl⟩ : ∃ k, fuel = k + 1 := ⟨fuel - 1, by omega⟩
    have htail : readMembers? fuel (newLine level ++ (memberText level g ++
        (renderMembers level (gs.map member) ++ (newLine closing ++ '}' :: rest)))) =
        some (member g :: gs.map member, rest) := by
      rw [readMembers?_skip fuel (skipBlanks_newLine _ _)]
      refine ih (fun u hu => hfs u (List.mem_cons_of_mem g hu)) (hfs g List.mem_cons_self) ?_
      rw [List.length_append]
      omega
    simp only [List.cons_append, List.append_assoc]
    rw [readMembers?_memberText hf (ends_cons (.inl rfl) _) (by omega),
      skipBlanks_cons (show isBlank ',' = false from rfl)]
    simp [htail]

/-- **Records read back** if their values do, under whatever names. -/
theorem readsBack_record {fs : List (String × Json)} (h : ∀ f ∈ fs, ReadsBack f.2) :
    ReadsBack (record fs) := by
  cases fs with
  | nil =>
    refine ⟨fun level => ⟨'{', _, by rw [record, List.map_nil, renderAt], rfl, by decide⟩,
      fun level fuel rest _ hfuel => ?_⟩
    rw [record, List.map_nil, renderAt] at hfuel ⊢
    obtain ⟨fuel, rfl⟩ : ∃ k, fuel = k + 1 := ⟨fuel - 1, by simp at hfuel; omega⟩
    rfl
  | cons f fs =>
    have htext (level : ℕ) : renderAt level (record (f :: fs)) =
        '{' :: (newLine (level + 1) ++ (memberText (level + 1) f ++
          (renderMembers (level + 1) (fs.map member) ++ (newLine level ++ ['}'])))) := by
      simp [record, renderAt, memberText]
    refine ⟨fun level => ⟨'{', _, htext level, rfl, by decide⟩, fun level fuel rest _ hfuel => ?_⟩
    rw [htext] at hfuel ⊢
    simp only [List.length_append, List.length_cons, length_newLine] at hfuel
    obtain ⟨fuel, rfl⟩ : ∃ k, fuel = k + 1 := ⟨fuel - 1, by omega⟩
    have hmembers := readMembers?_renderMembers (fun g hg => h g (List.mem_cons_of_mem f hg))
      (level + 1) level rest (h f List.mem_cons_self)
      (show _ ≤ fuel by rw [List.length_append]; omega)
    have hstart : ∃ s, memberText (level + 1) f = '"' :: s := ⟨_, rfl⟩
    obtain ⟨s, hs⟩ := hstart
    simp only [List.cons_append, List.append_assoc, List.nil_append]
    rw [readValue?, skipBlanks_cons rfl]
    simp only [skipBlanks_newLine]
    rw [hs] at hmembers ⊢
    simp only [List.cons_append, skipBlanks_cons (show isBlank '"' = false from rfl)] at hmembers ⊢
    change (readMembers? fuel _).bind _ = _
    rw [hmembers]
    rfl

/-! ### Whole texts -/

/-- **What is printed for a value is read as the value.** -/
theorem read?_render {v : Json} (h : ReadsBack v) : read? v.render = some v := by
  have hreads := h.reads 0 (2 * (renderAt 0 v).length + 2) [] ends_nil (by omega)
  rw [List.append_nil] at hreads
  simp only [read?, render, String.toList_ofList, hreads]
  rfl

end Campaign.Json
