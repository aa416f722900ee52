import LayeredConfig.Path
import LayeredConfig.Proofs.Text.Digits

/-!
# The text of a path

Messages name a place by the text of its path. A text leads back to one path only, as long as no key
looks like a part of another segment.

- `Segment.IsPlain`: a key that is not empty and has none of the characters that tell segments
  apart, or a position. The two zeros are written alike, so that of negative sign is no position.
- `Segment.chars`: what is written for a segment that has others in front of it. Such texts can be
  split off (`IsPlain.split`): a key ends where the next point or bracket stands, and a position at
  the bracket that closes it.
- `Path.text_eq_iff`: so plain paths with the same text are one path. The text of the empty path
  is the only one that begins with an angle bracket.
-/

namespace LayeredConfig

/-- Texts that end at the first character of another kind are told apart from what follows them. -/
theorem append_inj_of_stop {p : Char → Prop} {a b rest rest' : List Char} (ha : ∀ c ∈ a, p c)
    (hb : ∀ c ∈ b, p c) (hrest : ∀ c ∈ rest.head?, ¬p c) (hrest' : ∀ c ∈ rest'.head?, ¬p c)
    (h : a ++ rest = b ++ rest') : a = b ∧ rest = rest' := by
  induction a generalizing b with
  | nil =>
    cases b with
    | nil => exact ⟨rfl, h⟩
    | cons c b =>
      have hc : rest.head? = some c := by
        rw [List.nil_append] at h
        rw [h]
        rfl
      exact absurd (hb c List.mem_cons_self) (hrest c hc)
  | cons c a ih =>
    cases b with
    | nil =>
      have hc : rest'.head? = some c := by
        rw [List.nil_append] at h
        rw [← h]
        rfl
      exact absurd (ha c List.mem_cons_self) (hrest' c hc)
    | cons d b =>
      obtain ⟨rfl, htail⟩ := List.cons.inj h
      obtain ⟨rfl, hsame⟩ := ih (fun c hc => ha c (List.mem_cons_of_mem _ hc))
        (fun c hc => hb c (List.mem_cons_of_mem _ hc)) htail
      exact ⟨rfl, hsame⟩

namespace Segment

/-- A character that may stand in a plain key. -/
def IsKeyChar (c : Char) : Prop := c ≠ '.' ∧ c ≠ '[' ∧ c ≠ ']' ∧ c ≠ '<'

/-- A segment that is told apart from others by what is written for it. -/
def IsPlain : Segment → Prop
  | .key name => name ≠ "" ∧ ∀ c ∈ name.toList, IsKeyChar c
  | .position index => ∃ n < 2 ^ 53, index = .ofNat n

/-- What is written for a segment after another one. -/
def chars : Segment → List Char
  | .key name => '.' :: name.toList
  | .position index => '[' :: (index.text.toList ++ [']'])

/-- What is written for the first segment of a path. -/
def firstChars : Segment → List Char
  | .key name => name.toList
  | .position index => chars (.position index)

theorem toList_text_ofNat {n : Nat} (h : n < 2 ^ 53) :
    (Number.ofNat n).text.toList = Number.digits n := by
  rw [Number.text_ofNat h, String.toList_ofList]

/-- A position is told by what stands in its brackets. -/
theorem position_split {m n : Nat} (hm : m < 2 ^ 53) (hn : n < 2 ^ 53) {rest rest' : List Char}
    (h : chars (.position (.ofNat m)) ++ rest = chars (.position (.ofNat n)) ++ rest') :
    m = n ∧ rest = rest' := by
  simp only [chars, toList_text_ofNat hm, toList_text_ofNat hn, List.cons_append,
    List.append_assoc, List.nil_append] at h
  have hstop : ∀ {rest : List Char}, ∀ c ∈ (']' :: rest).head?, ¬c.isDigit = true := by
    intro rest c hc
    cases hc
    decide
  obtain ⟨hdigits, hrest⟩ := append_inj_of_stop (p := fun c => c.isDigit = true)
    (fun c => Number.isDigit_of_mem_digits) (fun c => Number.isDigit_of_mem_digits) hstop hstop
    (List.cons.inj h).2
  exact ⟨Number.digits_injective hdigits, (List.cons.inj hrest).2⟩

/-- What follows a segment in the text of a path: nothing, or another segment. -/
def Follows (rest : List Char) : Prop := ∀ c ∈ rest.head?, c = '.' ∨ c = '['

theorem Follows.not_isKeyChar {rest : List Char} (h : Follows rest) :
    ∀ c ∈ rest.head?, ¬IsKeyChar c := by
  rintro c hc ⟨hpoint, hbracket, -⟩
  rcases h c hc with rfl | rfl
  · exact hpoint rfl
  · exact hbracket rfl

/-- A key is told by what stands in front of the next segment. -/
theorem key_split {name name' : String} (h : IsPlain (.key name)) (h' : IsPlain (.key name'))
    {rest rest' : List Char} (hrest : Follows rest) (hrest' : Follows rest')
    (heq : name.toList ++ rest = name'.toList ++ rest') : name = name' ∧ rest = rest' := by
  obtain ⟨hname, hsame⟩ :=
    append_inj_of_stop h.2 h'.2 hrest.not_isKeyChar hrest'.not_isKeyChar heq
  exact ⟨String.toList_inj.1 hname, hsame⟩

/-- **The text of a plain segment can be split off.** -/
theorem IsPlain.split {s t : Segment} (hs : s.IsPlain) (ht : t.IsPlain) {rest rest' : List Char}
    (hrest : Follows rest) (hrest' : Follows rest')
    (h : s.chars ++ rest = t.chars ++ rest') : s = t ∧ rest = rest' := by
  cases s with
  | key name =>
    cases t with
    | key name' =>
      obtain ⟨rfl, hsame⟩ := key_split hs ht hrest hrest' (List.cons.inj h).2
      exact ⟨rfl, hsame⟩
    | position index => exact absurd (List.cons.inj h).1 (by decide)
  | position index =>
    cases t with
    | key name => exact absurd (List.cons.inj h).1 (by decide)
    | position index' =>
      obtain ⟨m, hm, rfl⟩ := hs
      obtain ⟨n, hn, rfl⟩ := ht
      obtain ⟨rfl, hsame⟩ := position_split hm hn h
      exact ⟨rfl, hsame⟩

/-- The first segment of a path can be split off as well. -/
theorem IsPlain.split_first {s t : Segment} (hs : s.IsPlain) (ht : t.IsPlain)
    {rest rest' : List Char} (hrest : Follows rest) (hrest' : Follows rest')
    (h : s.firstChars ++ rest = t.firstChars ++ rest') : s = t ∧ rest = rest' := by
  -- a plain key does not begin with a bracket
  have hmixed : ∀ {name : String} {index : Number} {rest rest' : List Char},
      IsPlain (.key name) → name.toList ++ rest ≠ chars (.position index) ++ rest' := by
    rintro name index rest rest' ⟨hne, hname⟩ heq
    cases hchars : name.toList with
    | nil => exact hne (String.toList_inj.1 hchars)
    | cons c cs =>
      rw [hchars] at heq hname
      exact (hname c List.mem_cons_self).2.1 (List.cons.inj heq).1
  cases s with
  | key name =>
    cases t with
    | key name' =>
      obtain ⟨rfl, hsame⟩ := key_split hs ht hrest hrest' h
      exact ⟨rfl, hsame⟩
    | position index => exact absurd h (hmixed hs)
  | position index =>
    cases t with
    | key name => exact absurd h.symm (hmixed ht)
    | position index' => exact hs.split ht hrest hrest' h

theorem IsPlain.firstChars_ne_nil {s : Segment} (hs : s.IsPlain) : s.firstChars ≠ [] := by
  cases s with
  | key name => exact fun h => hs.1 (String.toList_inj.1 h)
  | position index => exact List.cons_ne_nil _ _

/-- No plain segment begins like the text of the empty path. -/
theorem IsPlain.head?_firstChars {s : Segment} (hs : s.IsPlain) (rest : List Char) :
    (s.firstChars ++ rest).head? ≠ some '<' := by
  cases s with
  | key name =>
    obtain ⟨hne, hname⟩ := hs
    show (name.toList ++ rest).head? ≠ _
    cases hchars : name.toList with
    | nil => exact absurd (String.toList_inj.1 hchars) hne
    | cons c cs =>
      rw [hchars] at hname
      exact fun h => (hname c List.mem_cons_self).2.2.2 (Option.some.inj h)
  | position index => exact fun h => absurd (Option.some.inj h) (by decide)

end Segment

namespace Path

/-- After the first segment, every segment is written by its own text. -/
theorem toList_foldl_appendText (path : Path) {written : String} (h : written ≠ "") :
    (path.foldl appendText written).toList =
      written.toList ++ path.flatMap Segment.chars := by
  induction path generalizing written with
  | nil => simp
  | cons s rest ih =>
    have hstep : (appendText written s).toList = written.toList ++ s.chars := by
      cases s with
      | key name => simp [appendText, h, Segment.chars]
      | position index => simp [appendText, Segment.chars]
    have hne : appendText written s ≠ "" := by
      intro hempty
      rw [hempty] at hstep
      cases s <;> simp [Segment.chars] at hstep
    rw [List.foldl_cons, ih hne, hstep, List.flatMap_cons, List.append_assoc]

/-- The text of a path with a plain first segment. -/
theorem toList_text_cons {s : Segment} (hs : s.IsPlain) (rest : Path) :
    (text (s :: rest)).toList = s.firstChars ++ rest.flatMap Segment.chars := by
  have hfirst : (appendText "" s).toList = s.firstChars := by
    cases s <;> simp [appendText, Segment.firstChars, Segment.chars]
  have hne : appendText "" s ≠ "" := by
    intro hempty
    rw [hempty] at hfirst
    exact hs.firstChars_ne_nil hfirst.symm
  show (rest.foldl appendText (appendText "" s)).toList = _
  rw [toList_foldl_appendText rest hne, hfirst]

theorem follows_flatMap_chars (path : Path) : Segment.Follows (path.flatMap Segment.chars) := by
  cases path with
  | nil =>
    intro c hc
    cases hc
  | cons s rest =>
    intro c hc
    cases s with
    | key name =>
      cases hc
      exact .inl rfl
    | position index =>
      cases hc
      exact .inr rfl

/-- Behind the first segment, plain segments are told by their texts. -/
theorem flatMap_chars_injective {p q : Path} (hp : ∀ s ∈ p, s.IsPlain) (hq : ∀ s ∈ q, s.IsPlain)
    (h : p.flatMap Segment.chars = q.flatMap Segment.chars) : p = q := by
  have hne : ∀ (s : Segment) (rest : List Char), s.chars ++ rest ≠ [] := by
    rintro (name | index) rest <;> exact List.cons_ne_nil _ _
  induction p generalizing q with
  | nil =>
    cases q with
    | nil => rfl
    | cons t q => exact absurd h.symm (hne t _)
  | cons s p ih =>
    cases q with
    | nil => exact absurd h (hne s _)
    | cons t q =>
      rw [List.flatMap_cons, List.flatMap_cons] at h
      obtain ⟨rfl, hrest⟩ := (hp s List.mem_cons_self).split (hq t List.mem_cons_self)
        (follows_flatMap_chars p) (follows_flatMap_chars q) h
      rw [ih (fun s hs => hp s (List.mem_cons_of_mem _ hs))
        (fun s hs => hq s (List.mem_cons_of_mem _ hs)) hrest]

/-- **A plain path is known by its text.** -/
theorem text_eq_iff {p q : Path} (hp : ∀ s ∈ p, s.IsPlain) (hq : ∀ s ∈ q, s.IsPlain) :
    p.text = q.text ↔ p = q := by
  refine ⟨fun h => ?_, fun h => h ▸ rfl⟩
  -- the empty path has a text that no other path has
  have hroot : ∀ {s : Segment} {rest : Path}, s.IsPlain → text [] ≠ text (s :: rest) := by
    intro s rest hs heq
    refine hs.head?_firstChars (rest.flatMap Segment.chars) ?_
    rw [← toList_text_cons hs, ← heq]
    rfl
  cases p with
  | nil =>
    cases q with
    | nil => rfl
    | cons t q => exact absurd h (hroot (hq t List.mem_cons_self))
  | cons s p =>
    cases q with
    | nil => exact absurd h.symm (hroot (hp s List.mem_cons_self))
    | cons t q =>
      have hs := hp s List.mem_cons_self
      have ht := hq t List.mem_cons_self
      have hchars := congrArg String.toList h
      rw [toList_text_cons hs, toList_text_cons ht] at hchars
      obtain ⟨rfl, hrest⟩ :=
        hs.split_first ht (follows_flatMap_chars p) (follows_flatMap_chars q) hchars
      rw [flatMap_chars_injective (fun s hs => hp s (List.mem_cons_of_mem _ hs))
        (fun s hs => hq s (List.mem_cons_of_mem _ hs)) hrest]

/-- A position is written in another way than a key of the same digits. -/
theorem text_position_ne_text_key :
    text [.key "grid", .position (.ofNat 0)] ≠ text [.key "grid", .key "0"] := by
  have hgrid : (Segment.key "grid").IsPlain := by simp [Segment.IsPlain, Segment.IsKeyChar]
  have hzero : (Segment.key "0").IsPlain := by simp [Segment.IsPlain, Segment.IsKeyChar]
  have hfirst : (Segment.position (.ofNat 0)).IsPlain := ⟨0, by decide, rfl⟩
  have hp : ∀ s ∈ [Segment.key "grid", .position (.ofNat 0)], s.IsPlain :=
    List.forall_mem_cons.2 ⟨hgrid, List.forall_mem_singleton.2 hfirst⟩
  have hq : ∀ s ∈ [Segment.key "grid", .key "0"], s.IsPlain :=
    List.forall_mem_cons.2 ⟨hgrid, List.forall_mem_singleton.2 hzero⟩
  intro h
  exact absurd ((text_eq_iff hp hq).1 h) (by simp)

end Path

end LayeredConfig
