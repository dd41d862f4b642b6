import MailSieve.Proofs.Lexing.Lexed
import MailSieve.Canonical.Mark

/-! Tokens that a text can denote, and how they are read back.
A word or a tag is an identifier and a quantifier divides its number; every such token is read back
from its spelling. A word, a tag or a number must not be followed by what goes on with it. -/

namespace MailSieve

open Text

namespace Token

/-- Some text denotes the token. -/
def Spelled : Token → Prop
  | tag name | word name => isIdentifier name = true
  | number value q => ∀ k ∈ q, k.multiplier ∣ value.toNat
  | string _ _ | mark _ => True
  | endOfInput => False

end Token

section Characters

variable {c : Char}

theorem isWordPart_of_start (h : isWordStart c = true) : isWordPart c = true := by
  simp only [isWordStart, isWordPart, Char.isAlphanum, Bool.or_eq_true] at h ⊢
  exact h.imp_left .inl

theorem isIdentifier_ofList {cs : List Char} :
    isIdentifier (String.ofList (c :: cs)) = (isWordStart c && cs.all isWordPart) := by
  rw [isIdentifier, String.toList_ofList]

theorem isDigit_of_start (h : isWordStart c = true) : c.isDigit = false := by
  rw [isWordStart, Bool.or_eq_true, beq_iff_eq] at h
  obtain h | rfl := h
  · delta Char.isAlpha Char.isUpper Char.isLower at h
    simp only [Char.isDigit, Bool.or_eq_true, Bool.and_eq_true, decide_eq_true_eq,
      Bool.and_eq_false_iff, decide_eq_false_iff_not, UInt32.le_iff_toNat_le, ge_iff_le] at h ⊢
    have ha : 'A'.val.toNat = 65 := rfl
    have hl : 'a'.val.toNat = 97 := rfl
    have hn : '9'.val.toNat = 57 := rfl
    omega
  · rfl

theorem ofChar?_of_part (h : isWordPart c = true) : Punctuation.ofChar? c = none := by
  rw [Punctuation.ofChar?, List.find?_eq_none]
  intro p _ hp
  rw [beq_iff_eq] at hp
  subst hp
  cases p <;> cases h

theorem startsToken_of_part (h : isWordPart c = true) : startsToken c = true := by
  have hne {d : Char} (hd : isWordPart d = false) : c ≠ d := by
    rintro rfl
    cases h.symm.trans hd
  simp only [startsToken, Trivia.isBlank, Bool.and_eq_true, Bool.not_eq_true', bne_iff_ne,
    Bool.or_eq_false_iff, beq_eq_false_iff_ne]
  exact ⟨⟨⟨⟨⟨⟨hne rfl, hne rfl⟩, hne rfl⟩, hne rfl⟩, hne rfl⟩, hne rfl⟩, hne rfl⟩

end Characters

section Denoted

variable {cs : List Char} {t : Token}

theorem scanNumber_spelled (h : (scanNumber cs).outcome = .ok t) : t.Spelled := by
  have hout {digits : List Char} {q : Option Quantifier}
      (h : numberOutcome digits q = .ok t) : t.Spelled := by
    rw [numberOutcome, numberValue?] at h
    split at h
    · next v hv =>
      cases h
      split at hv
      · next hf =>
        cases hv
        rintro k rfl
        rw [fitsWord, decide_eq_true_eq] at hf
        rw [UInt64.toNat_ofNat_of_lt' hf]
        exact Nat.dvd_mul_left _ _
      · cases hv
    · cases h
  rw [scanNumber] at h
  split at h
  · exact hout h
  · split at h <;> exact hout h

/-- What a step reads is a token that a text can denote. -/
theorem scanToken_spelled (h : (scanToken cs).outcome = .ok t) (hne : t ≠ .endOfInput) :
    t.Spelled := by
  rw [scanToken.eq_def] at h
  split at h
  · exact absurd (Except.ok.inj h).symm hne
  · next c cs =>
    split at h
    · cases h
      trivial
    · split at h
      · rw [scanString] at h
        split at h <;> cases h
        trivial
      · split at h
        · rw [scanTag.eq_def] at h
          split at h
          · cases h
          · next d ds =>
            split at h
            · next hd =>
              cases h
              rw [Token.Spelled, List.takeWhile_cons_of_pos (isWordPart_of_start hd),
                isIdentifier_ofList, hd, Bool.true_and]
              exact List.all_takeWhile
            · cases h
        · split at h
          · exact scanNumber_spelled h
          · split at h
            · next hc =>
              have hword :
                  (Token.word (String.ofList ((c :: cs).takeWhile isWordPart))).Spelled := by
                rw [Token.Spelled, List.takeWhile_cons_of_pos (isWordPart_of_start hc),
                  isIdentifier_ofList, hc, Bool.true_and]
                exact List.all_takeWhile
              rw [scanWord] at h
              split at h
              · split at h
                · rw [scanTextBlockToken] at h
                  split at h <;> cases h
                  trivial
                · cases h
                  exact hword
              · cases h
                exact hword
            · split at h <;> cases h

theorem Lexed.spelled {ts : List Token} (h : Lexed cs ts) : ∀ t ∈ ts, t.Spelled := by
  induction h with
  | stop => simp
  | step ht hne _ ih => exact List.forall_mem_cons.2 ⟨scanToken_spelled ht hne, ih⟩

end Denoted

section Spelling

variable {text rest : List Char} {t : Token} {ts : List Token}

/-- The text is read as the token, and reading goes on behind it. -/
def Spells (text : List Char) (t : Token) (rest : List Char) : Prop :=
  (scan (text ++ rest)).outcome = .ok t ∧ (scan (text ++ rest)).rest = rest

theorem Lexed.spells (h : Lexed rest ts) (hs : Spells text t rest) (hne : t ≠ .endOfInput) :
    Lexed (text ++ rest) (t :: ts) :=
  .step hs.1 hne (by rwa [hs.2])

/-- No word, tag or number goes on here, and no `text:` begins a literal. -/
def Bounded (cs : List Char) : Prop := ∀ c ∈ cs.head?, isWordPart c = false ∧ c ≠ ':'

theorem takeWhile_of_bounded {p : Char → Bool} {body : List Char} (hp : ∀ c ∈ body, p c = true)
    (hr : ∀ c ∈ rest.head?, p c = false) :
    (body ++ rest).takeWhile p = body ∧ (body ++ rest).dropWhile p = rest := by
  rw [List.takeWhile_append_of_pos hp, List.dropWhile_append_of_pos hp]
  cases rest with
  | nil => simp
  | cons c rest => simp [hr c rfl]

theorem spells_mark (p : Punctuation) : Spells [p.char] (.mark p) rest := by
  have hscan : scan (p.char :: rest) = ⟨[], [p.char], .ok (.mark p), rest⟩ := by
    rw [scan_token (by cases p <;> rfl), scanToken.eq_def]
    simp only [Punctuation.ofChar?_char]
  rw [Spells, List.singleton_append, hscan]
  exact ⟨rfl, rfl⟩

theorem scanQuoted_quote (value rest : List Char) :
    Quoted.scanQuoted (Quoted.quote value ++ '"' :: rest)
      = .closed value (Quoted.quote value ++ ['"']) rest := by
  induction value with
  | nil => rfl
  | cons c value ih =>
    rw [Quoted.quote]
    split
    · next h =>
      rw [List.cons_append, List.cons_append, Quoted.scanQuoted.eq_4, if_pos h, ih]
      · rfl
    · next h =>
      rw [not_or] at h
      rw [List.cons_append, Quoted.scanQuoted.eq_5, ih]
      · rfl
      · exact h.2
      · exact fun hc _ => h.1 hc
      · exact fun _ _ hc _ => h.1 hc

theorem spells_quoted (value : String) :
    Spells ('"' :: (Quoted.quote value.toList ++ ['"'])) (.string value false) rest := by
  have hscan : scan ('"' :: (Quoted.quote value.toList ++ '"' :: rest))
      = ⟨[], '"' :: (Quoted.quote value.toList ++ ['"']), .ok (.string value false), rest⟩ := by
    rw [scan_token rfl, scanToken.eq_def]
    have hp : Punctuation.ofChar? '"' = none := rfl
    simp only [hp, if_pos]
    rw [scanString, scanQuoted_quote]
    simp
  rw [Spells, List.cons_append, List.append_assoc, List.singleton_append, hscan]
  exact ⟨rfl, rfl⟩

theorem exists_of_isIdentifier {name : String} (h : isIdentifier name = true) :
    ∃ c cs, name.toList = c :: cs ∧ isWordStart c = true ∧ ∀ d ∈ c :: cs, isWordPart d = true := by
  rw [isIdentifier] at h
  split at h
  · cases h
  · next c cs hn =>
    rw [Bool.and_eq_true, List.all_eq_true] at h
    exact ⟨c, cs, hn, h.1, List.forall_mem_cons.2 ⟨isWordPart_of_start h.1, h.2⟩⟩

theorem scanToken_start {c : Char} {cs : List Char} (h : isWordStart c = true) :
    scanToken (c :: cs) = scanWord (c :: cs) := by
  have hp := isWordPart_of_start h
  have hq : c ≠ '"' := by
    rintro rfl
    cases h
  have hc : c ≠ ':' := by
    rintro rfl
    cases h
  rw [scanToken.eq_def]
  simp only [ofChar?_of_part hp]
  rw [if_neg hq, if_neg hc, if_neg (by simp [isDigit_of_start h]), if_pos h]

theorem spells_word {name : String} (h : isIdentifier name = true) (hr : Bounded rest) :
    Spells name.toList (.word name) rest := by
  obtain ⟨c, cs, hn, hc, hall⟩ := exists_of_isIdentifier h
  obtain ⟨htake, hdrop⟩ := takeWhile_of_bounded hall fun c hc => (hr c hc).1
  have hscan : scan (c :: cs ++ rest) = ⟨[], c :: cs, .ok (.word name), rest⟩ := by
    rw [List.cons_append, scan_token (startsToken_of_part (isWordPart_of_start hc)),
      scanToken_start hc, ← List.cons_append, scanWord, hdrop, htake, ← hn, String.ofList_toList]
    split
    · next hrest => exact absurd rfl (hr ':' rfl).2
    · rfl
  rw [hn, Spells, hscan]
  exact ⟨rfl, rfl⟩

theorem spells_tag {name : String} (h : isIdentifier name = true) (hr : Bounded rest) :
    Spells (':' :: name.toList) (.tag name) rest := by
  obtain ⟨c, cs, hn, hc, hall⟩ := exists_of_isIdentifier h
  obtain ⟨htake, hdrop⟩ := takeWhile_of_bounded hall fun c hc => (hr c hc).1
  have hscan : scan (':' :: (c :: cs ++ rest)) = ⟨[], ':' :: c :: cs, .ok (.tag name), rest⟩ := by
    have hp : Punctuation.ofChar? ':' = none := rfl
    have hq : ¬ ':' = '"' := by decide
    rw [scan_token rfl, scanToken.eq_def]
    simp only [hp]
    rw [if_neg hq, if_pos trivial, List.cons_append, scanTag, if_pos hc, ← List.cons_append, htake,
      hdrop, ← hn, String.ofList_toList]
  rw [hn, Spells, List.cons_append, hscan]
  exact ⟨rfl, rfl⟩

theorem digitsValue_decimal (n : Nat) : digitsValue (decimal n) = n :=
  Nat.ofDigitChars_ten_toDigits

theorem isDigit_of_decimal {n : Nat} : ∀ c ∈ decimal n, c.isDigit = true := fun _ hc =>
  Nat.isDigit_of_mem_toDigits (by decide) (by decide) hc

theorem isWordPart_of_digit {c : Char} (h : c.isDigit = true) : isWordPart c = true := by
  simp [isWordPart, Char.isAlphanum, h]

theorem scanToken_digit {c : Char} {cs : List Char} (h : c.isDigit = true) :
    scanToken (c :: cs) = scanNumber (c :: cs) := by
  have hq : c ≠ '"' := by
    rintro rfl
    cases h
  have hc : c ≠ ':' := by
    rintro rfl
    cases h
  rw [scanToken.eq_def]
  simp only [ofChar?_of_part (isWordPart_of_digit h)]
  rw [if_neg hq, if_neg hc, if_pos h]

theorem scan_decimal (n : Nat) (cs : List Char) :
    scan (decimal n ++ cs) = scanNumber (decimal n ++ cs) := by
  obtain ⟨d, ds, hd⟩ := List.exists_cons_of_ne_nil (l := decimal n) Nat.toDigits_ne_nil
  have hdigit : d.isDigit = true := isDigit_of_decimal d (by rw [hd]; exact List.mem_cons_self)
  rw [hd, List.cons_append, scan_token (startsToken_of_part (isWordPart_of_digit hdigit)),
    scanToken_digit hdigit]

theorem ofLetter?_of_not_part {c : Char} (h : isWordPart c = false) :
    Quantifier.ofLetter? c = none := by
  have hne {d : Char} (hd : isWordPart d = true) : c ≠ d := by
    rintro rfl
    cases h.symm.trans hd
  rw [Quantifier.ofLetter?, if_neg (not_or.2 ⟨hne rfl, hne rfl⟩),
    if_neg (not_or.2 ⟨hne rfl, hne rfl⟩), if_neg (not_or.2 ⟨hne rfl, hne rfl⟩)]

theorem numberOutcome_eq {n : Nat} {q : Option Quantifier} {value : UInt64}
    (h : n * (q.map (·.multiplier)).getD 1 = value.toNat) :
    numberOutcome (decimal n) q = .ok (.number value q) := by
  have hfits : fitsWord value.toNat = true := by
    rw [fitsWord, decide_eq_true_eq]
    exact value.toNat_lt
  rw [numberOutcome, numberValue?, digitsValue_decimal, h]
  simp [hfits]

theorem not_digit_of_bounded (hr : Bounded rest) : ∀ c ∈ rest.head?, c.isDigit = false := by
  intro c hc
  rw [Bool.eq_false_iff]
  intro hd
  cases (isWordPart_of_digit hd).symm.trans (hr c hc).1

theorem spells_number {value : UInt64} {q : Option Quantifier}
    (h : (Token.number value q).Spelled) (hr : Bounded rest) :
    Spells (spellNumber value q) (.number value q) rest := by
  cases q with
  | none =>
    obtain ⟨htake, hdrop⟩ :=
      takeWhile_of_bounded (isDigit_of_decimal (n := value.toNat)) (not_digit_of_bounded hr)
    have hout : numberOutcome (decimal value.toNat) none = .ok (.number value none) :=
      numberOutcome_eq (by simp)
    rw [spellNumber, Spells, scan_decimal, scanNumber, htake, hdrop]
    cases rest with
    | nil => exact ⟨hout, rfl⟩
    | cons c rest =>
      simp only [ofLetter?_of_not_part (hr c rfl).1]
      exact ⟨hout, trivial⟩
  | some q =>
    have hq : q.letter.isDigit = false := by cases q <;> rfl
    have hend : ∀ c ∈ (q.letter :: rest).head?, c.isDigit = false := by simpa using hq
    obtain ⟨htake, hdrop⟩ :=
      takeWhile_of_bounded (isDigit_of_decimal (n := value.toNat / q.multiplier)) hend
    have hdvd : q.multiplier ∣ value.toNat := h q rfl
    rw [spellNumber, Spells]
    simp only [if_pos (Nat.mod_eq_zero_of_dvd hdvd)]
    rw [List.append_assoc, List.singleton_append, scan_decimal, scanNumber, htake, hdrop]
    simp only [Quantifier.ofLetter?_letter]
    exact ⟨numberOutcome_eq (Nat.div_mul_cancel hdvd), trivial⟩

theorem spells_literal {body text value : List Char}
    (h : TextBlock.scanTextBlock (body ++ rest) = .closed value text rest) :
    Spells (['t', 'e', 'x', 't', ':'] ++ body) (.string (String.ofList value) true) rest := by
  have htake : ('t' :: 'e' :: 'x' :: 't' :: ':' :: (body ++ rest)).takeWhile isWordPart
      = ['t', 'e', 'x', 't'] := rfl
  have hdrop : ('t' :: 'e' :: 'x' :: 't' :: ':' :: (body ++ rest)).dropWhile isWordPart
      = ':' :: (body ++ rest) := rfl
  have hscan : scan ('t' :: 'e' :: 'x' :: 't' :: ':' :: (body ++ rest))
      = scanTextBlockToken ['t', 'e', 'x', 't'] (body ++ rest) := by
    rw [scan_token rfl, scanToken_start rfl, scanWord, htake, hdrop]
    exact if_pos rfl
  simp only [Spells, List.cons_append, List.nil_append, hscan]
  rw [scanTextBlockToken, h]
  exact ⟨rfl, rfl⟩

theorem spells_textBlock {newline : List Char}
    (h : newline = ['\n'] ∨ newline = ['\r', '\n']) (value : String) :
    Spells (['t', 'e', 'x', 't', ':'] ++ (newline ++ (TextBlock.stuff value.toList
      ++ (newline ++ '.' :: newline)))) (.string value true) rest := by
  obtain ⟨text, ht⟩ := TextBlock.scanTextBlock_stuff h value.toList rest
  have hbody : TextBlock.scanTextBlock (newline ++ (TextBlock.stuff value.toList
      ++ (newline ++ '.' :: newline)) ++ rest) = .closed value.toList text rest := by
    simpa using ht
  have hspells := spells_literal hbody
  rwa [String.ofList_toList] at hspells

end Spelling

end MailSieve
