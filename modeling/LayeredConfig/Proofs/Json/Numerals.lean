import LayeredConfig.Json.Encoding
import LayeredConfig.Proofs.Json.RoundTrip
import LayeredConfig.Proofs.Text.Significands

/-!
# Numbers are written as JSON writes them

A number in JSON has digits in front of the point and behind it, and no zero in front of other
digits (`isUnsignedNumeral_of_parts`).

- `isUnsignedNumeral_layout`: wherever the point of a significand is placed, the text is a number in
  JSON, with or without an exponent.
- `wellFormed_encodeNumber`: so the document of every number is well-formed. Numbers that JSON does
  not have are null.
-/

namespace LayeredConfig

namespace Json

open Number (digits Leads)

/-- A point in front of decimals, if there are any. -/
def pointed : List Char → List Char
  | [] => []
  | ds => '.' :: ds

/-- What may be written behind the digits of a number. -/
def IsExponent (cs : List Char) : Prop :=
  cs = [] ∨ ∃ sign n, (sign = '+' ∨ sign = '-') ∧ cs = 'e' :: sign :: digits n

theorem IsExponent.isSome {cs : List Char} (h : IsExponent cs) :
    (Number.exponentOf? cs).isSome = true := by
  rcases h with rfl | ⟨sign, n, hsign, rfl⟩
  · rfl
  · have hsplit : (Number.splitSign (sign :: digits n)).2 = digits n := by
      rcases hsign with rfl | rfl <;> rfl
    have hdigits : (digits n).all Char.isDigit = true :=
      List.all_eq_true.2 fun c => Number.isDigit_of_mem_digits
    have hne : (digits n).isEmpty = false := by
      simpa using Number.digits_ne_nil n
    simp [Number.exponentOf?, hsplit, hdigits, hne]

/-- Digits end where another character stands. -/
theorem span_digits {ds rest : List Char} (hds : ∀ c ∈ ds, c.isDigit = true)
    (hrest : ∀ c ∈ rest.head?, c.isDigit = false) :
    (ds ++ rest).takeWhile Char.isDigit = ds ∧ (ds ++ rest).dropWhile Char.isDigit = rest := by
  rw [List.takeWhile_append_of_pos hds, List.dropWhile_append_of_pos hds]
  cases rest with
  | nil => simp
  | cons c rest => simp [hrest c rfl]

theorem IsExponent.head?_not_isDigit {cs : List Char} (h : IsExponent cs) :
    ∀ c ∈ cs.head?, c.isDigit = false := by
  rcases h with rfl | ⟨sign, n, -, rfl⟩
  · exact fun c hc => nomatch hc
  · intro c hc
    cases hc
    rfl

/-- **A number in JSON:** a whole number, decimals and an exponent. -/
theorem isUnsignedNumeral_of_parts {whole decimals exponent : List Char}
    (hdigits : ∀ c ∈ whole, c.isDigit = true) (hwhole : isWhole whole = true)
    (hdecimals : ∀ c ∈ decimals, c.isDigit = true) (hexponent : IsExponent exponent) :
    isUnsignedNumeral (whole ++ (pointed decimals ++ exponent)) = true := by
  have hend := hexponent.head?_not_isDigit
  have hrest : ∀ c ∈ (pointed decimals ++ exponent).head?, c.isDigit = false := by
    cases decimals with
    | nil => exact hend
    | cons d ds =>
      intro c hc
      cases hc
      rfl
  have hafter : afterDecimals? (pointed decimals ++ exponent) = some exponent := by
    cases decimals with
    | nil =>
      rcases hexponent with rfl | ⟨sign, n, -, rfl⟩ <;> rfl
    | cons d ds =>
      obtain ⟨htake, hdrop⟩ := span_digits hdecimals hend
      show (if ((d :: ds ++ exponent).takeWhile Char.isDigit).isEmpty = true then none
        else some ((d :: ds ++ exponent).dropWhile Char.isDigit)) = _
      rw [htake, hdrop]
      rfl
  obtain ⟨htake, hdrop⟩ := span_digits hdigits hrest
  rw [isUnsignedNumeral, htake, hdrop, hafter, hwhole]
  exact hexponent.isSome

theorem isWhole_of_leads {ds : List Char} (h : Leads ds) : isWhole ds = true := by
  obtain ⟨c, rest, rfl, hc⟩ := h.first
  simp [isWhole, hc]

theorem pointed_of_ne_nil {ds : List Char} (h : ds ≠ []) : pointed ds = '.' :: ds := by
  cases ds with
  | nil => exact absurd rfl h
  | cons d ds => rfl

theorem isDigit_of_mem_zeros {n : Nat} {c : Char} (h : c ∈ List.replicate n '0') :
    c.isDigit = true := by
  obtain rfl := List.eq_of_mem_replicate h
  decide

theorem toList_integerText_natCast (n : Nat) : (Number.integerText n).toList = digits n := by
  rw [Number.integerText, if_neg (by omega), String.toList_ofList, Int.natAbs_natCast]

/-- An exponent is written with its sign. -/
theorem isExponent_mark (e : Int) :
    IsExponent ((if e < 0 then "e-" else "e+").toList ++
      (Number.integerText e.natAbs).toList) := by
  rw [toList_integerText_natCast]
  split
  · exact .inr ⟨'-', e.natAbs, .inr rfl, rfl⟩
  · exact .inr ⟨'+', e.natAbs, .inl rfl, rfl⟩

theorem isDigit_of_mem_nil : ∀ c ∈ ([] : List Char), c.isDigit = true := List.forall_mem_nil _

/-- A significand with the point behind its digits. -/
theorem isUnsignedNumeral_behind {ds : List Char} (h : Leads ds) (n : Nat) :
    isUnsignedNumeral (ds ++ List.replicate n '0') = true := by
  have hzeros : ∀ c ∈ List.replicate n '0', c.isDigit = true := fun c => isDigit_of_mem_zeros
  have hleads := h.append hzeros
  have hnumeral := isUnsignedNumeral_of_parts hleads.digits (isWhole_of_leads hleads)
    isDigit_of_mem_nil (.inl rfl)
  rwa [pointed, List.append_nil, List.append_nil] at hnumeral

/-- A significand with the point among its digits. -/
theorem isUnsignedNumeral_among {ds : List Char} (h : Leads ds) {n : Nat} (hpos : 0 < n)
    (hlt : n < ds.length) : isUnsignedNumeral (ds.take n ++ '.' :: ds.drop n) = true := by
  obtain ⟨c, rest, rfl, hc⟩ := h.first
  have hdrop : (c :: rest).drop n ≠ [] := fun hempty => by
    have hle := List.drop_eq_nil_iff.1 hempty
    omega
  have htake : Leads ((c :: rest).take n) :=
    ⟨fun c hc => h.digits c (List.mem_of_mem_take hc), c, rest.take (n - 1),
      List.take_cons hpos, hc⟩
  have hdecimals : ∀ d ∈ (c :: rest).drop n, d.isDigit = true :=
    fun d hd => h.digits d (List.mem_of_mem_drop hd)
  have hnumeral := isUnsignedNumeral_of_parts htake.digits (isWhole_of_leads htake) hdecimals
    (.inl rfl)
  rwa [pointed_of_ne_nil hdrop, List.append_nil] at hnumeral

/-- A significand with the point in front of its digits. -/
theorem isUnsignedNumeral_ahead {ds : List Char} (h : Leads ds) (n : Nat) :
    isUnsignedNumeral ('0' :: '.' :: (List.replicate n '0' ++ ds)) = true := by
  obtain ⟨c, rest, rfl, -⟩ := h.first
  have hzero : ∀ c ∈ ['0'], c.isDigit = true := by simp
  have hdecimals : ∀ d ∈ List.replicate n '0' ++ c :: rest, d.isDigit = true :=
    fun d hd => (List.mem_append.1 hd).elim isDigit_of_mem_zeros (h.digits d)
  have hnumeral := isUnsignedNumeral_of_parts hzero rfl hdecimals (.inl rfl)
  rwa [pointed_of_ne_nil (by simp), List.append_nil] at hnumeral

/-- A significand with an exponent: one digit stands in front of the point. -/
theorem isUnsignedNumeral_scientific {c : Char} {rest exponent : List Char} (h : Leads (c :: rest))
    (hexponent : IsExponent exponent) :
    isUnsignedNumeral (c :: (pointed rest ++ exponent)) = true := by
  obtain ⟨_, _, heq, hc⟩ := h.first
  obtain ⟨rfl, -⟩ := List.cons.inj heq
  have hfirst : Leads [c] :=
    ⟨List.forall_mem_singleton.2 (h.digits c List.mem_cons_self), c, [], rfl, hc⟩
  exact isUnsignedNumeral_of_parts hfirst.digits (isWhole_of_leads hfirst)
    (fun d hd => h.digits d (List.mem_cons_of_mem _ hd)) hexponent

/-- **Wherever the point is placed, the text is a number in JSON.** -/
theorem isUnsignedNumeral_layout {s : Number.Significand} (h : Leads s.digits) :
    isUnsignedNumeral (Number.layout s).toList = true := by
  unfold Number.layout
  dsimp only
  split
  · rw [String.toList_ofList]
    exact isUnsignedNumeral_behind h _
  · rename_i hbehind
    simp only [Bool.and_eq_true, decide_eq_true_eq] at hbehind
    split
    · rename_i hamong
      simp only [Bool.and_eq_true, decide_eq_true_eq] at hamong
      rw [String.toList_ofList]
      exact isUnsignedNumeral_among h (by omega) (by omega)
    · split
      · rw [String.toList_ofList]
        exact isUnsignedNumeral_ahead h _
      · obtain ⟨c, rest, heq, -⟩ := h.first
        have hnumeral := isUnsignedNumeral_scientific (heq ▸ h) (isExponent_mark (s.point - 1))
        rw [heq]
        cases rest with
        | nil => simpa [pointed] using hnumeral
        | cons d rest => simpa [pointed] using hnumeral

theorem isUnsignedNumeral_digits (n : Nat) : isUnsignedNumeral (digits n) = true := by
  have hwhole : isWhole (digits n) = true := by
    rcases Nat.eq_zero_or_pos n with rfl | h
    · rfl
    · exact isWhole_of_leads (Number.leads_digits h)
  simpa [pointed] using isUnsignedNumeral_of_parts (fun c => Number.isDigit_of_mem_digits) hwhole
    isDigit_of_mem_nil (.inl rfl)

theorem isNumeral_of_isUnsignedNumeral {cs : List Char} (h : isUnsignedNumeral cs = true) :
    isNumeral cs = true := by
  unfold isNumeral
  split
  · exact absurd h (by simp [isUnsignedNumeral, isWhole])
  · exact h

/-- A rational number is written as a number in JSON. -/
theorem isNumeral_rationalText (q : Rat) : isNumeral (Number.rationalText q).toList = true := by
  unfold Number.rationalText
  split
  · rw [Number.integerText, String.toList_ofList]
    split
    · exact isUnsignedNumeral_digits q.num.natAbs
    · exact isNumeral_of_isUnsignedNumeral (isUnsignedNumeral_digits q.num.natAbs)
  · -- zero is a small integer, so the digits are those of a positive fraction
    rename_i hlarge
    have hpos : 0 < q.num.natAbs := by
      by_contra hzero
      have hnum : q.num = 0 := by omega
      refine hlarge ⟨?_, ?_⟩
      · rw [Rat.num_eq_zero.1 hnum]
        rfl
      · rw [hnum]
        decide
    have hlayout := isUnsignedNumeral_layout (Number.shortestDigits_leads hpos q.den_pos)
    generalize Number.layout (Number.shortestDigits q.num.natAbs q.den) = written at hlayout ⊢
    split
    · rw [String.toList_append]
      exact hlayout
    · rw [String.toList_append]
      exact isNumeral_of_isUnsignedNumeral hlayout

/-- **The document of a number is well-formed.** -/
theorem wellFormed_encodeNumber (n : Number) : (Value.encodeNumber n).WellFormed := by
  cases n with
  | nan => exact .null
  | infinity negative => exact .null
  | negativeZero => exact .number (by decide)
  | finite q =>
    have hnumeral := isNumeral_rationalText q
    show WellFormed (.number (Number.finite q).text)
    rw [Number.text]
    exact .number hnumeral

end Json

end LayeredConfig
