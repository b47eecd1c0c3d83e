import VixStandard.Text.Parse

/-!
# Every outcome of parsing an integer

`Longest` says which prefix of a text decides what `parse<T>` returns: the longest
one that is a literal.  `Outcome` then lists the five ways a parse can end, and
`parse_integral_classified` shows that they are what the code does, on every text
and for every integer type.

Two types that differ in width or sign read the same literals, but for the sign of
the unsigned ones.  `parses_narrow_iff` says what follows for parsing in a wide type
and checking the range of a narrow one.
-/

namespace VixStandard.Text

open VixStandard.Lib VixStandard.Lib.Decimal

/-- The text starts with a literal, which has a `-` for signed types only. -/
structure StartsWith (signed : Bool) (s : Text) (l : Literal) : Prop where
  sign : l.neg = true → signed = true
  isPrefix : l.text <+: s

/-- The longest prefix that is a literal. -/
structure Longest (signed : Bool) (s : Text) (l : Literal) : Prop extends StartsWith signed s l where
  longest : ∀ l', StartsWith signed s l' → l'.text.length ≤ l.text.length

/-- How a parse ends. -/
inductive Outcome (T : IntType) (s : Text) : Except ParseError T.Value → Prop where
  | emptyInput : s = [] → Outcome T s (.error ⟨.emptyInput, 0⟩)
  | invalidValue : s ≠ [] → (∀ l, ¬ StartsWith T.signed s l) →
      Outcome T s (.error ⟨.invalidValue, 0⟩)
  | outOfRange {l : Literal} : Longest T.signed s l → ¬ T.Fits l.value →
      Outcome T s (.error ⟨.outOfRange, 0⟩)
  | trailingCharacters {l : Literal} : Longest T.signed s l → T.Fits l.value → l.text ≠ s →
      Outcome T s (.error ⟨.trailingCharacters, l.text.length⟩)
  | success {l : Literal} (h : T.Fits l.value) : Longest T.signed s l → l.text = s →
      Outcome T s (.ok ⟨l.value, h⟩)

/-! ## The longest literal -/

section Longest

variable {signed : Bool} {s : Text} {l l' : Literal}

/-- After its first byte a literal has only digits. -/
theorem digits_of_text_eq_append {x y : Text} (h : l.text = x ++ y) (hx : x ≠ []) : Digits y := by
  obtain ⟨neg, ds, hne, hds⟩ := l
  cases neg with
  | false =>
    have hd : ds = x ++ y := h
    exact (Digits.append_iff.mp (hd ▸ hds)).2
  | true =>
    obtain ⟨b, x, rfl⟩ := List.exists_cons_of_ne_nil hx
    have hd : ds = x ++ y := (List.cons.inj h).2
    exact (Digits.append_iff.mp (hd ▸ hds)).2

theorem longest_of_longestLiteral (h : longestLiteral signed s = some l) : Longest signed s l := by
  obtain ⟨hsign, rest, rfl, hrest⟩ := longestLiteral_eq_some_iff.mp h
  refine ⟨⟨hsign, List.prefix_append _ _⟩, ?_⟩
  intro l' hl'
  -- A longer literal would go on with the byte after `l`, which is no digit.
  by_contra hlen
  obtain ⟨more, hmore⟩ := List.prefix_of_prefix_length_le (List.prefix_append _ rest) hl'.isPrefix
    (by omega)
  have hdigits : Digits more := digits_of_text_eq_append hmore.symm l.text_ne_nil
  cases more with
  | nil =>
    rw [List.append_nil] at hmore
    rw [hmore] at hlen
    omega
  | cons b more =>
    obtain ⟨tail, htail⟩ := hl'.isPrefix
    rw [← hmore, List.append_assoc] at htail
    have hrest' : b :: (more ++ tail) = rest := List.append_cancel_left htail
    have hb := hrest b (by rw [← hrest']; rfl)
    rw [(Digits.cons_iff.mp hdigits).1] at hb
    cases hb

/-- The digits after a literal are added to it. -/
theorem longestLiteral_of_startsWith (h : StartsWith signed s l) :
    ∃ l', longestLiteral signed s = some l' := by
  obtain ⟨hsign, rest, rfl⟩ := h
  obtain ⟨neg, ds, hne, hds⟩ := l
  have hmore : Digits (ds ++ rest.takeWhile isDigit) :=
    Digits.append_iff.mpr ⟨hds, digits_takeWhile rest⟩
  refine ⟨⟨neg, ds ++ rest.takeWhile isDigit, by simp [hne], hmore⟩,
    longestLiteral_eq_some_iff.mpr ⟨hsign, rest.dropWhile isDigit, ?_, ?_⟩⟩
  · simp [Literal.text]
  · intro b hb
    have hhead := List.head?_dropWhile_not isDigit rest
    rw [Option.mem_def.mp hb] at hhead
    simpa using hhead

theorem Longest.unique (h : Longest signed s l) (h' : Longest signed s l') : l = l' := by
  have hlen : l.text.length = l'.text.length :=
    Nat.le_antisymm (h'.longest l h.toStartsWith) (h.longest l' h'.toStartsWith)
  have htext : l.text <+: l'.text :=
    List.prefix_of_prefix_length_le h.isPrefix h'.isPrefix (Nat.le_of_eq hlen)
  exact Literal.text_injective (htext.eq_of_length hlen)

/-- What `std::from_chars` matches is the longest literal. -/
theorem longestLiteral_eq_some : longestLiteral signed s = some l ↔ Longest signed s l := by
  constructor
  · exact longest_of_longestLiteral
  · intro h
    obtain ⟨l', hl'⟩ := longestLiteral_of_startsWith h.toStartsWith
    rw [hl', h.unique (longest_of_longestLiteral hl')]

theorem longestLiteral_eq_none :
    longestLiteral signed s = none ↔ ∀ l, ¬ StartsWith signed s l := by
  constructor
  · intro h l hl
    obtain ⟨l', hl'⟩ := longestLiteral_of_startsWith hl
    rw [h] at hl'
    cases hl'
  · intro h
    cases hlong : longestLiteral signed s with
    | none => rfl
    | some l => exact absurd (longest_of_longestLiteral hlong).toStartsWith (h l)

/-- A literal is its own longest prefix. -/
theorem longest_self (hsign : l.neg = true → signed = true) : Longest signed l.text l :=
  ⟨⟨hsign, List.prefix_refl _⟩, fun _ hl' => hl'.isPrefix.length_le⟩

theorem Longest.length_lt (h : Longest signed s l) (hne : l.text ≠ s) : l.text.length < s.length :=
  Nat.lt_of_le_of_ne h.isPrefix.length_le fun hlen => hne (h.isPrefix.eq_of_length hlen)

end Longest

/-! ## The outcomes -/

section Outcomes

variable {T : IntType} {s : Text} {r : Except ParseError T.Value} {l : Literal}

theorem Longest.ne_nil {signed : Bool} (h : Longest signed s l) : s ≠ [] := by
  intro hs
  exact l.text_ne_nil (List.prefix_nil.mp (hs ▸ h.isPrefix))

theorem parseIntegral_of_none (hs : s ≠ []) (h : ∀ l, ¬ StartsWith T.signed s l) :
    parseIntegral T s = .error ⟨.invalidValue, 0⟩ := by
  have hne : s.isEmpty = false := by simpa using hs
  simp [parseIntegral, hne, fromChars_of_none (longestLiteral_eq_none.mpr h), makeParseError]

theorem parseIntegral_of_not_fits (hl : Longest T.signed s l) (hfits : ¬ T.Fits l.value) :
    parseIntegral T s = .error ⟨.outOfRange, 0⟩ := by
  have hne : s.isEmpty = false := by simpa using hl.ne_nil
  simp [parseIntegral, hne, fromChars_of_not_mem (longestLiteral_eq_some.mpr hl) hfits,
    makeParseError]

theorem parseIntegral_of_trailing (hl : Longest T.signed s l) (hfits : T.Fits l.value)
    (htext : l.text ≠ s) :
    parseIntegral T s = .error ⟨.trailingCharacters, l.text.length⟩ := by
  have hne : s.isEmpty = false := by simpa using hl.ne_nil
  have hlen := Nat.ne_of_lt (hl.length_lt htext)
  simp [parseIntegral, hne, fromChars_of_mem (longestLiteral_eq_some.mpr hl) hfits, makeParseError,
    hlen]

/-- The outcome of a text is what the code returns, and no other. -/
theorem parse_integral_eq_iff : parse (.integral T) s = r ↔ Outcome T s r := by
  constructor
  · intro h
    subst h
    show Outcome T s (parseIntegral T s)
    by_cases hs : s = []
    · subst hs
      exact .emptyInput rfl
    cases hlong : longestLiteral T.signed s with
    | none =>
      have hnone := longestLiteral_eq_none.mp hlong
      rw [parseIntegral_of_none hs hnone]
      exact .invalidValue hs hnone
    | some l =>
      have hl := longestLiteral_eq_some.mp hlong
      by_cases hfits : T.Fits l.value
      · by_cases htext : l.text = s
        · subst htext
          rw [parseIntegral_text hl.sign hfits]
          exact .success hfits hl rfl
        · rw [parseIntegral_of_trailing hl hfits htext]
          exact .trailingCharacters hl hfits htext
      · rw [parseIntegral_of_not_fits hl hfits]
        exact .outOfRange hl hfits
  · intro h
    cases h with
    | emptyInput hs =>
      subst hs
      rfl
    | invalidValue hs hnone => exact parseIntegral_of_none hs hnone
    | outOfRange hl hfits => exact parseIntegral_of_not_fits hl hfits
    | trailingCharacters hl hfits htext => exact parseIntegral_of_trailing hl hfits htext
    | success hfits hl htext =>
      subst htext
      exact parseIntegral_text hl.sign hfits

/-- No prefix that is longer than the longest literal is accepted. -/
theorem Longest.not_accepts_longer (h : Longest T.signed s l) {j : Nat} (hj : l.text.length < j)
    (hjs : j ≤ s.length) (v : T.Value) : parse (.integral T) (s.take j) ≠ .ok v := by
  intro hok
  obtain ⟨l', htext, hsign, _⟩ := parseIntegral_eq_ok_iff.mp hok
  have hlen := h.longest l' ⟨hsign, htext ▸ List.take_prefix j s⟩
  rw [htext, List.length_take] at hlen
  omega

end Outcomes

/-- Every text is classified by its longest literal: it is empty, has no literal at
its start, or one whose value is out of range, one with a rest, or is a literal of the
type.  The position of an error is the length of that literal if a rest follows it and
0 otherwise, and the text up to there is the longest prefix that is accepted. -/
theorem parse_integral_classified (T : IntType) (s : Text) :
    (parse (.integral T) s = .error ⟨.emptyInput, 0⟩ ↔ s = []) ∧
    (parse (.integral T) s = .error ⟨.invalidValue, 0⟩ ↔
      s ≠ [] ∧ ∀ l, ¬ StartsWith T.signed s l) ∧
    (parse (.integral T) s = .error ⟨.outOfRange, 0⟩ ↔
      ∃ l, Longest T.signed s l ∧ ¬ T.Fits l.value) ∧
    (∀ k, parse (.integral T) s = .error ⟨.trailingCharacters, k⟩ ↔
      ∃ l, Longest T.signed s l ∧ T.Fits l.value ∧ l.text ≠ s ∧ k = l.text.length) ∧
    (∀ v, parse (.integral T) s = .ok v ↔
      ∃ l, Longest T.signed s l ∧ l.text = s ∧ l.value = v.val) ∧
    (∀ e, parse (.integral T) s = .error e → (e.code ≠ .trailingCharacters → e.position = 0) ∧
      (e.position = 0 ∨ e.position < s.length)) ∧
    ∀ k, parse (.integral T) s = .error ⟨.trailingCharacters, k⟩ →
      (∃ v, parse (.integral T) (s.take k) = .ok v) ∧
        ∀ j, k < j → j ≤ s.length → ∀ v, parse (.integral T) (s.take j) ≠ .ok v := by
  simp only [parse_integral_eq_iff (T := T) (s := s)]
  refine ⟨⟨?_, .emptyInput⟩, ⟨?_, fun h => .invalidValue h.1 h.2⟩, ⟨?_, ?_⟩, fun k => ⟨?_, ?_⟩,
    fun v => ⟨?_, ?_⟩, fun e h => ?_, fun k h => ?_⟩
  · rintro ⟨hs⟩
    exact hs
  · intro h
    cases h with
    | invalidValue hs hnone => exact ⟨hs, hnone⟩
  · intro h
    cases h with
    | outOfRange hl hfits => exact ⟨_, hl, hfits⟩
  · rintro ⟨l, hl, hfits⟩
    exact .outOfRange hl hfits
  · intro h
    cases h with
    | trailingCharacters hl hfits htext => exact ⟨_, hl, hfits, htext, rfl⟩
  · rintro ⟨l, hl, hfits, htext, rfl⟩
    exact .trailingCharacters hl hfits htext
  · intro h
    cases h with
    | success hfits hl htext => exact ⟨_, hl, htext, rfl⟩
  · rintro ⟨l, hl, htext, hv⟩
    have hfits : T.Fits l.value := hv ▸ v.fits
    obtain rfl : (⟨l.value, hfits⟩ : T.Value) = v := IntType.Value.ext hv
    exact .success hfits hl htext
  · cases h with
    | emptyInput _ | invalidValue _ _ | outOfRange _ _ => exact ⟨fun _ => rfl, Or.inl rfl⟩
    | trailingCharacters hl _ htext =>
      exact ⟨fun hcode => absurd rfl hcode, Or.inr (hl.length_lt htext)⟩
  · cases h with
    | @trailingCharacters l hl hfits htext =>
      refine ⟨⟨⟨l.value, hfits⟩, ?_⟩, fun j hj hjs => hl.not_accepts_longer hj hjs⟩
      rw [List.prefix_iff_eq_take.mp hl.isPrefix |>.symm]
      exact parseIntegral_text hl.sign hfits

/-! ## Wide and narrow types -/

/-- The text is parsed as the given integer. -/
def Parses (T : IntType) (s : Text) (v : Int) : Prop :=
  ∃ r : T.Value, parse (.integral T) s = .ok r ∧ r.val = v

/-- A `-` and zeros, which only the signed one of the two types reads. -/
def NegativeZero (T U : IntType) (s : Text) : Prop :=
  T.signed = false ∧ U.signed = true ∧ ∃ n, s = minus :: List.replicate (n + 1) zero

section Widths

variable {T U : IntType} {s : Text} {v : Int}

theorem parses_iff :
    Parses T s v ↔
      T.Fits v ∧ ∃ l : Literal, l.text = s ∧ (l.neg = true → T.signed = true) ∧ l.value = v := by
  constructor
  · rintro ⟨r, hr, rfl⟩
    exact ⟨r.fits, parseIntegral_eq_ok_iff.mp hr⟩
  · rintro ⟨hfits, h⟩
    exact ⟨⟨v, hfits⟩, parseIntegral_eq_ok_iff.mpr h, rfl⟩

/-- A negative literal of a type without negative values is a `-` and zeros. -/
theorem negative_zero_digits {l : Literal} (hneg : l.neg = true) (hv : 0 ≤ l.value) :
    ∃ n, l.digits = List.replicate (n + 1) zero := by
  have hzero : Decimal.value l.digits = 0 := by
    simp only [Literal.value, hneg, if_true] at hv
    omega
  obtain ⟨k, hk⟩ := eq_zeros_append_print l.ne_nil l.digits_ok
  have hprint : print 0 = [zero] := rfl
  rw [hzero, hprint, ← List.replicate_succ'] at hk
  exact ⟨k, hk⟩

/-- A text is parsed in the narrow type exactly if it is parsed in the wide one as a
number in the range of the narrow one. -/
theorem parses_narrow_iff (hTU : ∀ v, T.Fits v → U.Fits v) (hs : ¬ NegativeZero T U s) :
    Parses T s v ↔ Parses U s v ∧ T.Fits v := by
  rw [parses_iff, parses_iff]
  constructor
  · rintro ⟨hfits, l, htext, hsign, hv⟩
    refine ⟨⟨hTU v hfits, l, htext, fun hneg => ?_, hv⟩, hfits⟩
    exact IntType.signed_of_neg (v := ⟨T.min, hTU _ T.fits_min⟩) (IntType.min_neg (hsign hneg))
  · rintro ⟨⟨_, l, htext, hsign, hv⟩, hfits⟩
    refine ⟨hfits, l, htext, fun hneg => ?_, hv⟩
    cases hsigned : T.signed with
    | true => rfl
    | false =>
      have hnonneg : 0 ≤ l.value := by
        rw [hv]
        exact IntType.nonneg_of_unsigned hsigned hfits
      obtain ⟨n, hn⟩ := negative_zero_digits hneg hnonneg
      refine absurd ⟨hsigned, hsign hneg, n, ?_⟩ hs
      rw [← htext, Literal.text, hneg, hn]
      rfl

/-- The texts that only the signed type reads. -/
theorem parse_negative_zero (hs : NegativeZero T U s) :
    Parses U s 0 ∧ parse (.integral T) s = .error ⟨.invalidValue, 0⟩ := by
  obtain ⟨hT, hU, n, rfl⟩ := hs
  have hdigits : Digits (List.replicate (n + 1) zero) := by
    intro b hb
    rw [List.eq_of_mem_replicate hb]
    rfl
  have hvalue : Decimal.value (List.replicate (n + 1) zero) = 0 := by
    have happend := value_replicate_zero_append (n + 1) []
    rwa [List.append_nil] at happend
  constructor
  · refine parses_iff.mpr ⟨U.fits_zero, ⟨true, _, by simp, hdigits⟩, rfl, fun _ => hU, ?_⟩
    simp [Literal.value, hvalue]
  · refine parse_integral_eq_iff.mpr (.invalidValue (List.cons_ne_nil _ _) ?_)
    rintro l ⟨hsign, hprefix⟩
    have hneg : l.neg = false := by
      cases hn : l.neg with
      | false => rfl
      | true => exact absurd (hsign hn) (by rw [hT]; decide)
    have htext : l.text = l.digits := by
      rw [Literal.text, hneg]
      rfl
    obtain ⟨b, ds, hds⟩ := List.exists_cons_of_ne_nil l.ne_nil
    rw [htext, hds] at hprefix
    have hhead := l.head?_digits
    rw [hds] at hhead
    exact hhead (congrArg some (List.cons_prefix_cons.mp hprefix).1)

end Widths

end VixStandard.Text
