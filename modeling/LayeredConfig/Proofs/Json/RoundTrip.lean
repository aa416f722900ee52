import LayeredConfig.Proofs.Json.Reading

/-!
# Documents are read as they are written

- `Json.WellFormed`: a document in which every number is one. Whatever is written for a value is
  such a document.
- `readFrom_word`, `readFrom_quoted`: words and strings are read back, wherever they stand. A word
  ends where no more characters of words follow (`EndsWord`).
- `ReadsBack`: a document is read back where a value is to come, whatever is around it. Lists and
  objects are read back if what they hold is (`readFrom_elements`, `readFrom_members`), and so all
  well-formed documents are (`WellFormed.readsBack`).
- `read?_text`: the text of a well-formed document stands for it. It is one line
  (`newline_not_mem_chars`).
-/

namespace LayeredConfig

namespace Json

/-- Every number in the document is one. -/
inductive WellFormed : Json → Prop
  | null : WellFormed .null
  | bool (b : Bool) : WellFormed (.bool b)
  | number {numeral : String} (h : isNumeral numeral.toList = true) : WellFormed (.number numeral)
  | string (s : String) : WellFormed (.string s)
  | array {elements : List Json} (h : ∀ j ∈ elements, WellFormed j) : WellFormed (.array elements)
  | object {members : List (String × Json)} (h : ∀ m ∈ members, WellFormed m.2) :
    WellFormed (.object members)

variable {state next : State} {mode mode' : Mode} {c : Char} {cs : List Char}

/-! ## Characters -/

theorem tokensFrom_cons (mode : Mode) (c : Char) (cs : List Char) :
    tokensFrom mode (c :: cs) =
      (mode.step c).bind fun read => (tokensFrom read.2 cs).map (read.1 ++ ·) := by
  rw [tokensFrom]
  cases mode.step c with
  | none => rfl
  | some read =>
    show (tokensFrom read.2 cs).bind _ = (tokensFrom read.2 cs).map _
    cases tokensFrom read.2 cs <;> rfl

/-- A character inside a token. -/
theorem readFrom_of_step (mode' : Mode) (h : mode.step c = some ([], mode')) :
    readFrom state mode (c :: cs) = readFrom state mode' cs := by
  simp [readFrom, tokensFrom_cons, h]

/-- A text with a token in front of another text. -/
theorem readFrom_of_tokens {cs' : List Char} (token : Token)
    (h : tokensFrom mode cs = (tokensFrom mode' cs').map fun tokens => token :: tokens)
    (hstep : state.step token = some next) : readFrom state mode cs = readFrom next mode' cs' := by
  unfold readFrom
  rw [h]
  cases tokensFrom mode' cs' with
  | none => rfl
  | some tokens =>
    show ((token :: tokens).foldlM State.step state).bind _ = _
    rw [List.foldlM_cons, hstep]
    rfl

/-- A character that ends a token. -/
theorem readFrom_of_step_token (token : Token) (h : mode.step c = some ([token], mode'))
    (hstep : state.step token = some next) :
    readFrom state mode (c :: cs) = readFrom next mode' cs := by
  refine readFrom_of_tokens token ?_ hstep
  rw [tokensFrom_cons, h]
  rfl

/-! ## Words -/

/-- No word goes on here. -/
def EndsWord (rest : List Char) : Prop := ∀ c ∈ rest.head?, isWordChar c = false

theorem endsWord_cons (h : isWordChar c = false) : EndsWord (c :: cs) := by
  intro d hd
  cases hd
  exact h

theorem start_of_isWordChar (h : isWordChar c = true) : Mode.start c = some ([], .word [c]) := by
  have hblank : ¬(c = ' ' ∨ c = '\t' ∨ c = '\n' ∨ c = '\r') := by
    rintro (rfl | rfl | rfl | rfl) <;> exact absurd h (by decide)
  have hquote : c ≠ '\x22' := by
    rintro rfl
    exact absurd h (by decide)
  rw [Mode.start, if_neg hblank, if_neg hquote, if_pos h]

theorem tokensFrom_word_append {letters word rest : List Char}
    (h : ∀ c ∈ word, isWordChar c = true) :
    tokensFrom (.word letters) (word ++ rest) = tokensFrom (.word (letters ++ word)) rest := by
  induction word generalizing letters with
  | nil => rw [List.nil_append, List.append_nil]
  | cons c word ih =>
    have hstep : Mode.step (.word letters) c = some ([], .word (letters ++ [c])) :=
      if_pos (h c List.mem_cons_self)
    rw [List.cons_append, tokensFrom_cons, hstep]
    simp [ih fun c hc => h c (List.mem_cons_of_mem _ hc)]

/-- A word says something once it ends. -/
theorem tokensFrom_word {letters rest : List Char} {json : Json}
    (hword : ofWord? letters = some json) (hrest : EndsWord rest) :
    tokensFrom (.word letters) rest =
      (tokensFrom .between rest).map fun tokens => .scalar json :: tokens := by
  cases rest with
  | nil => simp [tokensFrom, Mode.finish?, hword]
  | cons c rest =>
    -- the token of the word is put in front of what the character is read as
    have hstep : Mode.step (.word letters) c =
        (Mode.step .between c).map fun read => (.scalar json :: read.1, read.2) := by
      simp only [Mode.step, hrest c rfl, hword]
      cases Mode.start c <;> rfl
    rw [tokensFrom_cons, tokensFrom_cons, hstep]
    cases Mode.step .between c with
    | none => rfl
    | some read =>
      simp only [Option.map_some, Option.bind_some, Option.map_map]
      rfl

/-- **Words are read back.** -/
theorem readFrom_word {word rest : List Char} {json : Json} (hne : word ≠ [])
    (hchars : ∀ c ∈ word, isWordChar c = true) (hword : ofWord? word = some json)
    (hrest : EndsWord rest) (frames : List Frame) :
    readFrom (.value frames) .between (word ++ rest) =
      readFrom (.after json frames) .between rest := by
  have htokens : tokensFrom .between (word ++ rest) =
      (tokensFrom .between rest).map fun tokens => .scalar json :: tokens := by
    cases word with
    | nil => exact absurd rfl hne
    | cons c word =>
      have hstep : Mode.step .between c = some ([], .word [c]) :=
        start_of_isWordChar (hchars c List.mem_cons_self)
      rw [List.cons_append, tokensFrom_cons, hstep, ← tokensFrom_word hword hrest]
      simp [tokensFrom_word_append fun c hc => hchars c (List.mem_cons_of_mem _ hc)]
  exact readFrom_of_tokens _ htokens rfl

theorem isWordChar_of_isDigit (h : c.isDigit = true) : isWordChar c = true := by
  simp [isWordChar, Char.isAlphanum, h]

theorem isWordChar_of_exponent {e : Int} (h : Number.exponentOf? cs = some e) :
    ∀ c ∈ cs, isWordChar c = true := by
  cases cs with
  | nil => exact fun c hc => nomatch hc
  | cons letter rest =>
    have hsign : ∀ c ∈ rest, c = '-' ∨ c = '+' ∨ c ∈ (Number.splitSign rest).2 := by
      intro c hc
      unfold Number.splitSign
      split
      · exact (List.mem_cons.1 hc).imp id .inr
      · exact .inr (List.mem_cons.1 hc)
      · exact .inr (.inr hc)
    simp only [Number.exponentOf?] at h
    split at h
    · rename_i hexponent
      simp only [Bool.and_eq_true, Bool.or_eq_true, beq_iff_eq, List.all_eq_true] at hexponent
      obtain ⟨⟨hletter, -⟩, hdigits⟩ := hexponent
      intro c hc
      rcases List.mem_cons.1 hc with rfl | hc
      · rcases hletter with rfl | rfl <;> decide
      · rcases hsign c hc with rfl | rfl | hc
        · decide
        · decide
        · exact isWordChar_of_isDigit (hdigits c hc)
    · cases h

theorem isWordChar_of_isUnsignedNumeral (h : isUnsignedNumeral cs = true) :
    ∀ c ∈ cs, isWordChar c = true := by
  have hdigits : ∀ {ds : List Char}, ∀ c ∈ ds.takeWhile Char.isDigit, isWordChar c = true :=
    fun c hc => isWordChar_of_isDigit (List.all_eq_true.1 List.all_takeWhile c hc)
  simp only [isUnsignedNumeral, Bool.and_eq_true, Option.isSome_iff_exists,
    Option.bind_eq_some_iff] at h
  obtain ⟨-, e, rest, hrest, he⟩ := h
  have hexponent := isWordChar_of_exponent he
  have hdecimals : ∀ c ∈ cs.dropWhile Char.isDigit, isWordChar c = true := by
    unfold afterDecimals? at hrest
    split at hrest
    · rename_i ds hds
      split at hrest
      · cases hrest
      · cases hrest
        rw [hds, ← List.takeWhile_append_dropWhile (p := Char.isDigit) (l := ds)]
        intro c hc
        rcases List.mem_cons.1 hc with rfl | hc
        · decide
        · exact (List.mem_append.1 hc).elim (hdigits c) (hexponent c)
    · cases hrest
      exact hexponent
  intro c hc
  rw [← List.takeWhile_append_dropWhile (p := Char.isDigit) (l := cs)] at hc
  exact (List.mem_append.1 hc).elim (hdigits c) (hdecimals c)

theorem isWordChar_of_isNumeral (h : isNumeral cs = true) : ∀ c ∈ cs, isWordChar c = true := by
  unfold isNumeral at h
  split at h
  · intro c hc
    rcases List.mem_cons.1 hc with rfl | hc
    · decide
    · exact isWordChar_of_isUnsignedNumeral h c hc
  · exact isWordChar_of_isUnsignedNumeral h

theorem ofWord?_of_isNumeral (h : isNumeral cs = true) :
    ofWord? cs = some (.number (String.ofList cs)) := by
  have hne : ∀ word, isNumeral word = false → cs ≠ word := by
    rintro word hword rfl
    exact absurd h (by simp [hword])
  rw [ofWord?, if_neg (hne _ (by decide)), if_neg (hne _ (by decide)), if_neg (hne _ (by decide)),
    if_pos h]

/-! ## Strings -/

section Strings

variable {read : List Char}

/-- A character that is escaped by another one. -/
theorem readFrom_escaped {d : Char} (hd : d ≠ 'u') (h : escaped? d = some c) :
    readFrom state (.quoted ⟨read, none⟩) ('\\' :: d :: cs) =
      readFrom state (.quoted ⟨read ++ [c], none⟩) cs := by
  have hstep : Mode.step (.escape ⟨read, none⟩) d = some ([], .quoted ⟨read ++ [c], none⟩) := by
    rw [Mode.step, if_neg hd, h]
    rfl
  rw [readFrom_of_step (.escape ⟨read, none⟩) rfl, readFrom_of_step _ hstep]

theorem digitValue?_hexDigit : ∀ n < 16, Number.digitValue? (hexDigit n) = some n := by decide

/-- A control character that is escaped by its number. -/
theorem readFrom_numbered (h : c.toNat < 0x20) :
    readFrom state (.quoted ⟨read, none⟩)
        ('\\' :: 'u' :: '0' :: '0' :: hexDigit (c.toNat / 16) :: hexDigit (c.toNat % 16) :: cs) =
      readFrom state (.quoted ⟨read ++ [c], none⟩) cs := by
  have hhigh : Mode.step (.unit ⟨read, none⟩ [0, 0]) (hexDigit (c.toNat / 16)) =
      some ([], .unit ⟨read, none⟩ [0, 0, c.toNat / 16]) := by
    simp [Mode.step, digitValue?_hexDigit (c.toNat / 16) (by omega)]
  have hunit : Body.pushUnit? ⟨read, none⟩ (16 * (c.toNat / 16) + c.toNat % 16) =
      some ⟨read ++ [c], none⟩ := by
    have hplain : ¬0xd800 ≤ c.toNat ∧ ¬0xdc00 ≤ c.toNat := by omega
    rw [Nat.div_add_mod]
    simp [Body.pushUnit?, Body.push?, hplain.1, hplain.2, Char.ofNat_toNat]
  have hlow : Mode.step (.unit ⟨read, none⟩ [0, 0, c.toNat / 16]) (hexDigit (c.toNat % 16)) =
      some ([], .quoted ⟨read ++ [c], none⟩) := by
    simp [Mode.step, digitValue?_hexDigit (c.toNat % 16) (by omega), hunit]
  rw [readFrom_of_step (.escape ⟨read, none⟩) rfl,
    readFrom_of_step (.unit ⟨read, none⟩ []) rfl,
    readFrom_of_step (.unit ⟨read, none⟩ [0]) rfl,
    readFrom_of_step (.unit ⟨read, none⟩ [0, 0]) rfl,
    readFrom_of_step _ hhigh, readFrom_of_step _ hlow]

/-- A character is read back, whether it is escaped or stands for itself. -/
theorem readFrom_escape (c : Char) :
    readFrom state (.quoted ⟨read, none⟩) (escape c ++ cs) =
      readFrom state (.quoted ⟨read ++ [c], none⟩) cs := by
  unfold escape
  repeat' split
  -- the characters with a letter of their own
  any_goals (subst c; exact readFrom_escaped (by decide) rfl)
  · exact readFrom_numbered ‹c.toNat < 0x20›
  · have hstep : Mode.step (.quoted ⟨read, none⟩) c = some ([], .quoted ⟨read ++ [c], none⟩) := by
      rw [Mode.step, if_neg ‹_›, if_neg ‹_›, if_neg ‹_›]
      rfl
    exact readFrom_of_step _ hstep

theorem readFrom_escapes (s : List Char) :
    readFrom state (.quoted ⟨read, none⟩) (s.flatMap escape ++ cs) =
      readFrom state (.quoted ⟨read ++ s, none⟩) cs := by
  induction s generalizing read with
  | nil => simp
  | cons c s ih =>
    rw [List.flatMap_cons, List.append_assoc, readFrom_escape, ih, List.append_assoc,
      List.singleton_append]

/-- **Strings are read back.** -/
theorem readFrom_quoted {s : String} (next : State)
    (hstep : state.step (.scalar (.string s)) = some next) :
    readFrom state .between (quoted s ++ cs) = readFrom next .between cs := by
  have hclose : Mode.step (.quoted ⟨s.toList, none⟩) '\x22' =
      some ([.scalar (.string s)], .between) := by
    simp [Mode.step, Body.close?]
  rw [quoted, List.cons_append, List.append_assoc,
    readFrom_of_step (.quoted ⟨[], none⟩) rfl, readFrom_escapes, List.nil_append,
    List.singleton_append, readFrom_of_step_token _ hclose hstep]

end Strings

/-! ## Documents -/

/-- The document is read back where a value is to come. -/
def ReadsBack (json : Json) : Prop :=
  ∀ frames rest, EndsWord rest →
    readFrom (.value frames) .between (json.chars ++ rest) =
      readFrom (.after json frames) .between rest

theorem readsBack_of_word {json : Json} (hne : json.chars ≠ [])
    (hchars : ∀ c ∈ json.chars, isWordChar c = true) (hword : ofWord? json.chars = some json) :
    ReadsBack json :=
  fun frames _ hrest => readFrom_word hne hchars hword hrest frames

/-- A list is read to its end if its elements are read back. -/
theorem readFrom_elements {elements before : List Json} (h : ∀ j ∈ elements, ReadsBack j)
    (hne : elements = [] → before = []) (frames : List Frame) (rest : List Char) :
    readFrom (.value (.array before :: frames)) .between
        (separated (elementChars elements) ++ ']' :: rest) =
      readFrom (.after (.array (before ++ elements)) frames) .between rest := by
  induction elements generalizing before with
  | nil =>
    obtain rfl := hne rfl
    exact readFrom_of_step_token _ rfl rfl
  | cons j more ih =>
    have hj := h j List.mem_cons_self
    cases more with
    | nil =>
      show readFrom _ _ (j.chars ++ ']' :: rest) = _
      rw [hj _ _ (endsWord_cons (by decide))]
      exact readFrom_of_step_token _ rfl rfl
    | cons j' more =>
      show readFrom _ _ ((j.chars ++ ',' :: separated (elementChars (j' :: more))) ++ _) = _
      rw [List.append_assoc, List.cons_append, hj _ _ (endsWord_cons (by decide)),
        readFrom_of_step_token .comma rfl rfl,
        ih (fun j hj => h j (List.mem_cons_of_mem _ hj)) (fun h => nomatch h), List.append_assoc,
        List.singleton_append]

/-- An object is read to its end if what its members hold is read back. -/
theorem readFrom_members {members before : List (String × Json)}
    (h : ∀ m ∈ members, ReadsBack m.2) (hne : members = [] → before = []) (frames : List Frame)
    (rest : List Char) :
    readFrom (.member before frames) .between
        (separated (memberChars members) ++ '\x7d' :: rest) =
      readFrom (.after (.object (before ++ members)) frames) .between rest := by
  induction members generalizing before with
  | nil =>
    obtain rfl := hne rfl
    exact readFrom_of_step_token _ rfl rfl
  | cons m more ih =>
    obtain ⟨name, j⟩ := m
    have hj : ReadsBack j := h (name, j) List.mem_cons_self
    have hmember : ∀ {rest}, EndsWord rest →
        readFrom (.member before frames) .between ((quoted name ++ ':' :: j.chars) ++ rest) =
          readFrom (.after j (.object before name :: frames)) .between rest := by
      intro rest hrest
      rw [List.append_assoc, List.cons_append,
        readFrom_quoted (.colon before name frames) rfl,
        readFrom_of_step_token .colon rfl rfl, hj _ _ hrest]
    cases more with
    | nil =>
      show readFrom _ _ ((quoted name ++ ':' :: j.chars) ++ '\x7d' :: rest) = _
      rw [hmember (endsWord_cons (by decide))]
      exact readFrom_of_step_token _ rfl rfl
    | cons m' more =>
      show readFrom _ _ (((quoted name ++ ':' :: j.chars) ++
        ',' :: separated (memberChars (m' :: more))) ++ _) = _
      rw [List.append_assoc, List.cons_append, hmember (endsWord_cons (by decide)),
        readFrom_of_step_token .comma rfl rfl,
        ih (fun m hm => h m (List.mem_cons_of_mem _ hm)) (fun h => nomatch h), List.append_assoc,
        List.singleton_append]

/-- **Well-formed documents are read back.** -/
theorem WellFormed.readsBack {json : Json} (h : json.WellFormed) : json.ReadsBack := by
  induction h with
  | null => exact readsBack_of_word (by decide) (List.all_eq_true.1 rfl) rfl
  | bool b => cases b <;> exact readsBack_of_word (by decide) (List.all_eq_true.1 rfl) rfl
  | @number numeral h =>
    have hword := ofWord?_of_isNumeral h
    rw [String.ofList_toList] at hword
    refine readsBack_of_word ?_ (isWordChar_of_isNumeral h) hword
    intro hempty
    rw [show numeral.toList = [] from hempty] at h
    exact absurd h (by decide)
  | string s => exact fun frames rest _ => readFrom_quoted _ rfl
  | @array elements _ ih =>
    intro frames rest _
    show readFrom _ _ ('[' :: (separated (elementChars elements) ++ [']']) ++ rest) = _
    rw [List.cons_append, List.append_assoc, readFrom_of_step_token .openArray rfl rfl]
    exact readFrom_elements ih (fun _ => rfl) frames rest
  | @object members _ ih =>
    intro frames rest _
    show readFrom _ _ ('\x7b' :: (separated (memberChars members) ++ ['\x7d']) ++ rest) = _
    rw [List.cons_append, List.append_assoc, readFrom_of_step_token .openObject rfl rfl]
    exact readFrom_members ih (fun _ => rfl) frames rest

/-- **What is written for a document stands for it.** -/
theorem read?_text {json : Json} (h : json.WellFormed) : read? json.text = some json := by
  have hread := h.readsBack [] [] (fun c hc => nomatch hc)
  rw [List.append_nil] at hread
  rw [read?, text, String.toList_ofList, hread]
  rfl

/-! ## Lines -/

theorem newline_not_mem_separated {css : List (List Char)} (h : ∀ cs ∈ css, '\n' ∉ cs) :
    '\n' ∉ separated css := by
  induction css with
  | nil => exact List.not_mem_nil
  | cons cs more ih =>
    have hcs := h cs List.mem_cons_self
    cases more with
    | nil => exact hcs
    | cons cs' more =>
      have hmore := ih fun cs hcs => h cs (List.mem_cons_of_mem _ hcs)
      show '\n' ∉ cs ++ ',' :: separated (cs' :: more)
      simp only [List.mem_append, List.mem_cons, not_or]
      exact ⟨hcs, by decide, hmore⟩

theorem newline_not_mem_quoted (s : String) : '\n' ∉ quoted s := by
  simp only [quoted, List.mem_cons, List.mem_append, List.mem_flatMap, not_or, not_exists, not_and,
    List.not_mem_nil, not_false_iff, and_true]
  exact ⟨by decide, fun c _ => newline_not_mem_escape c, by decide⟩

theorem elementChars_eq_map (js : List Json) : elementChars js = js.map chars := by
  induction js with
  | nil => rfl
  | cons j rest ih => rw [elementChars, ih, List.map_cons]

theorem memberChars_eq_map (ms : List (String × Json)) :
    memberChars ms = ms.map fun m => quoted m.1 ++ ':' :: m.2.chars := by
  induction ms with
  | nil => rfl
  | cons m rest ih => rw [memberChars, ih, List.map_cons]

/-- A well-formed document is written on one line. -/
theorem newline_not_mem_chars {json : Json} (h : json.WellFormed) : '\n' ∉ json.chars := by
  induction h with
  | null => decide
  | bool b => cases b <;> decide
  | number h => exact fun hmem => absurd (isWordChar_of_isNumeral h _ hmem) (by decide)
  | string s => exact newline_not_mem_quoted s
  | @array elements _ ih =>
    have helements : '\n' ∉ separated (elementChars elements) := by
      rw [elementChars_eq_map]
      refine newline_not_mem_separated fun cs hcs => ?_
      obtain ⟨j, hj, rfl⟩ := List.mem_map.1 hcs
      exact ih j hj
    simpa [chars] using helements
  | @object members _ ih =>
    have hmembers : '\n' ∉ separated (memberChars members) := by
      rw [memberChars_eq_map]
      refine newline_not_mem_separated fun cs hcs => ?_
      obtain ⟨m, hm, rfl⟩ := List.mem_map.1 hcs
      simp only [List.mem_append, List.mem_cons, not_or]
      exact ⟨newline_not_mem_quoted m.1, by decide, ih m hm⟩
    simpa [chars] using hmembers

end Json

end LayeredConfig
