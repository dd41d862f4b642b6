import Mathlib.Data.Nat.Digits.Defs
import MailSieve.Proofs.Lexing.Strings
import MailSieve.Script.Check

/-! Numbers as they are read, made and written.
A numeral of any length denotes its digits' value times its suffix's multiplier, and reading, making
and writing a literal agree on which values fit: a product beyond 64 bits is refused, and what is
written is read back. -/

namespace MailSieve

open Canonical Text

/-- A suffix is a quantifier's letter in either case. -/
inductive Suffix : Option Quantifier → List Char → Prop
  | none : Suffix none []
  | upper (q : Quantifier) : Suffix (some q) [q.letter]
  | lower (q : Quantifier) : Suffix (some q) [q.letter.toLower]

/-- Leading zeros are allowed. -/
structure Numeral where
  digits : List Char
  quantifier : Option Quantifier
  suffix : List Char
  nonempty : digits ≠ []
  isDigit : ∀ c ∈ digits, c.isDigit = true
  spelled : Suffix quantifier suffix

namespace Numeral

variable {n : Numeral} {rest : List Char}

def text (n : Numeral) : List Char := n.digits ++ n.suffix

def multiplier : Option Quantifier → Nat
  | none => 1
  | some q => q.multiplier

/-- The exact product, whether or not it fits in 64 bits. -/
def value (n : Numeral) : Nat :=
  Nat.ofDigits 10 (n.digits.reverse.map digitValue) * multiplier n.quantifier

/-- A number without a suffix would take in a digit or a suffix behind it. -/
def EndsBefore (q : Option Quantifier) (rest : List Char) : Prop :=
  q = none → ∀ c ∈ rest.head?, c.isDigit = false ∧ ∀ k, ¬ Suffix (some k) [c]

theorem digitsValue_eq (cs : List Char) :
    digitsValue cs = Nat.ofDigits 10 (cs.reverse.map digitValue) := by
  induction cs using List.reverseRecOn with
  | nil => rfl
  | append_singleton cs c ih =>
    rw [List.reverse_append, List.reverse_singleton, List.singleton_append, List.map_cons,
      Nat.ofDigits_cons, ← ih, digitsValue, List.foldl_append, ← digitsValue]
    exact Nat.add_comm _ _

theorem ofLetter?_eq_some {q : Quantifier} {c : Char} :
    Quantifier.ofLetter? c = some q ↔ Suffix (some q) [c] := by
  constructor
  · intro h
    rw [Quantifier.ofLetter?] at h
    split at h
    · next hc =>
      cases h
      obtain rfl | rfl := hc
      · exact .upper .kilo
      · exact .lower .kilo
    · split at h
      · next hc =>
        cases h
        obtain rfl | rfl := hc
        · exact .upper .mega
        · exact .lower .mega
      · split at h
        · next hc =>
          cases h
          obtain rfl | rfl := hc
          · exact .upper .giga
          · exact .lower .giga
        · cases h
  · intro h
    cases h <;> cases q <;> rfl

theorem not_digit_of_suffix {q : Quantifier} {c : Char} (h : Suffix (some q) [c]) :
    c.isDigit = false := by
  cases h <;> cases q <;> rfl

theorem scanNumber_text (h : EndsBefore n.quantifier rest) :
    scanNumber (n.text ++ rest) = ⟨[], n.text, numberOutcome n.digits n.quantifier, rest⟩ := by
  obtain ⟨digits, q, suffix, hne, hdigit, hsuffix⟩ := n
  have hrun {more : List Char} (hmore : ∀ c ∈ more.head?, c.isDigit = false) :=
    takeWhile_of_bounded hdigit hmore
  have hletter {k : Quantifier} {c : Char} (hc : Suffix (some k) [c]) :
      scanNumber (digits ++ [c] ++ rest)
        = ⟨[], digits ++ [c], numberOutcome digits (some k), rest⟩ := by
    have hstop : ∀ d ∈ (c :: rest).head?, d.isDigit = false := by
      simpa using not_digit_of_suffix hc
    obtain ⟨htake, hdrop⟩ := hrun hstop
    rw [List.append_assoc, List.singleton_append, scanNumber, htake, hdrop]
    simp only [ofLetter?_eq_some.2 hc]
  cases hsuffix with
  | none =>
    have hstop := h rfl
    obtain ⟨htake, hdrop⟩ := hrun fun c hc => (hstop c hc).1
    simp only [text, List.append_nil]
    rw [scanNumber, htake, hdrop]
    cases rest with
    | nil => rfl
    | cons c rest =>
      have hc : Quantifier.ofLetter? c = none :=
        Option.eq_none_iff_forall_ne_some.2 fun k hk =>
          (hstop c rfl).2 k (ofLetter?_eq_some.1 hk)
      simp only [hc]
  | upper q => exact hletter (.upper q)
  | lower q => exact hletter (.lower q)

theorem scan_text (h : EndsBefore n.quantifier rest) :
    scan (n.text ++ rest) = ⟨[], n.text, numberOutcome n.digits n.quantifier, rest⟩ := by
  obtain ⟨d, ds, hd⟩ := List.exists_cons_of_ne_nil n.nonempty
  have hdigit : d.isDigit = true := n.isDigit d (by rw [hd]; exact List.mem_cons_self)
  have htext : n.text ++ rest = d :: (ds ++ n.suffix ++ rest) := by
    rw [text, hd, List.cons_append, List.cons_append]
  rw [← scanNumber_text h, htext, scan_token (startsToken_of_part (isWordPart_of_digit hdigit)),
    scanToken_digit hdigit]

theorem product_eq (n : Numeral) :
    digitsValue n.digits * (n.quantifier.map (·.multiplier)).getD 1 = n.value := by
  rw [digitsValue_eq, value]
  cases n.quantifier <;> rfl

theorem numberOutcome_fits (h : n.value < 2 ^ 64) :
    numberOutcome n.digits n.quantifier
      = .ok (.number (UInt64.ofNat n.value) n.quantifier) := by
  have hfits : fitsWord n.value = true := decide_eq_true h
  rw [numberOutcome, numberValue?, n.product_eq]
  simp only [hfits, if_true]

theorem numberOutcome_large (h : 2 ^ 64 ≤ n.value) :
    numberOutcome n.digits n.quantifier = .error .numberOutOfRange := by
  have hlarge : fitsWord n.value = false := decide_eq_false (Nat.not_lt.2 h)
  rw [numberOutcome, numberValue?, n.product_eq, hlarge]
  rfl

/-- The numeral with the fewest digits, if the quantifier divides the value. -/
def written (v : UInt64) (q : Option Quantifier) : Numeral where
  digits := decimal (v.toNat / multiplier q)
  quantifier := q
  suffix := (q.map Quantifier.letter).toList
  nonempty := Nat.toDigits_ne_nil
  isDigit := isDigit_of_decimal
  spelled :=
    match q with
    | none => .none
    | some q => .upper q

section Written

variable {v : UInt64} {q : Option Quantifier}

theorem written_value (h : multiplier q ∣ v.toNat) : (written v q).value = v.toNat := by
  rw [value, ← digitsValue_eq]
  exact (congrArg (· * multiplier q) (digitsValue_decimal _)).trans (Nat.div_mul_cancel h)

theorem written_text (h : multiplier q ∣ v.toNat) : (written v q).text = spellNumber v q := by
  cases q with
  | none => exact (List.append_nil _).trans (congrArg decimal (Nat.div_one _))
  | some q => exact (if_pos (Nat.mod_eq_zero_of_dvd h)).symm

theorem multiplier_filter :
    multiplier (q.filter fun k => k.multiplier ∣ v.toNat) ∣ v.toNat := by
  cases hq : q.filter fun k => k.multiplier ∣ v.toNat with
  | none => exact one_dvd _
  | some k => exact of_decide_eq_true (Option.filter_eq_some_iff.1 hq).2

theorem renderChars_number (l : Layout) (place : Option Location) :
    l.renderChars [numberMark ⟨v, q, place⟩]
      = spellNumber v (q.filter fun k => k.multiplier ∣ v.toNat) := by
  have hdvd (k : Quantifier) : (v.toNat % k.multiplier == 0) = decide (k.multiplier ∣ v.toNat) :=
    Bool.eq_iff_iff.2 (by simp [Nat.dvd_iff_mod_eq_zero])
  simp [Layout.renderChars, numberMark, Mark.pieces, Token.pieces, Layout.renderPiece, hdvd]

end Written

/-- One law for reading, making and writing: a product of 64 bits or less is the value, a larger one
is refused where it stands, and a literal is written so that it is read back, with its quantifier
exactly if that divides the value. -/
theorem numbers_exact :
    (∀ (n : Numeral) (rest : List Char) (p : Position), EndsBefore n.quantifier rest →
      let s : Scanner := ⟨p, n.text ++ rest⟩
      s.next = ⟨p.after n.text, rest⟩
        ∧ (n.value < 2 ^ 64 → ∃ v : UInt64, v.toNat = n.value
          ∧ s.read = .ok ⟨.number v n.quantifier, ⟨p, p.after n.text⟩, n.text⟩)
        ∧ (2 ^ 64 ≤ n.value → ∃ m, s.read = .error m
          ∧ m.diagnostic = .lexical "Number out of range" p (p.after n.text)))
    ∧ (∀ (v : UInt64) (q : Quantifier),
      (v.toNat * q.multiplier < 2 ^ 64 → ∃ w : UInt64, w.toNat = v.toNat * q.multiplier
        ∧ NumberLit.quantified v q = .ok ⟨w, some q, none⟩)
      ∧ (2 ^ 64 ≤ v.toNat * q.multiplier →
        NumberLit.quantified v q = .error (.numberOverflow v q)))
    ∧ ∀ (l : Layout) (v : UInt64) (q : Option Quantifier) (place : Option Location)
      (rest : List Char),
      let kept := q.filter fun k => k.multiplier ∣ v.toNat
      EndsBefore kept rest →
        Scanner.Takes (l.renderChars [numberMark ⟨v, q, place⟩]) (.number v kept) rest := by
  refine ⟨fun n rest p h => ?_, fun v q => ⟨fun h => ?_, fun h => ?_⟩, fun l v q place rest => ?_⟩
  · refine ⟨?_, fun hfits => ?_, fun hlarge => ?_⟩
    · rw [Scanner.next, scan_text h]
      rfl
    · refine ⟨UInt64.ofNat n.value, UInt64.toNat_ofNat_of_lt' hfits, ?_⟩
      rw [Scanner.read, scan_text h, numberOutcome_fits hfits]
      rfl
    · refine ⟨⟨.numberOutOfRange, ⟨p, p.after n.text⟩⟩, ?_, rfl⟩
      rw [Scanner.read, scan_text h, numberOutcome_large hlarge]
      rfl
  · refine ⟨UInt64.ofNat (v.toNat * q.multiplier), UInt64.toNat_ofNat_of_lt' h, ?_⟩
    exact if_pos (decide_eq_true h)
  · refine if_neg ?_
    rw [fitsWord, decide_eq_true_eq]
    exact Nat.not_lt.2 h
  · intro kept h
    have hdvd : multiplier kept ∣ v.toNat := multiplier_filter
    have hvalue := written_value hdvd
    have hout : numberOutcome (written v kept).digits kept = .ok (.number v kept) := by
      have hfits : (written v kept).value < 2 ^ 64 := hvalue ▸ v.toNat_lt
      refine (numberOutcome_fits hfits).trans ?_
      rw [hvalue, UInt64.ofNat_toNat]
      rfl
    refine Scanner.takes_of_scan ?_
    rw [renderChars_number, ← written_text hdvd]
    exact (scan_text (n := written v kept) h).trans (congrArg (Scan.mk _ _ · _) hout)

/-- Both sides of the limit under leading zeros: one gigabyte more is too many. A value that its
quantifier does not divide is written without it. -/
theorem numbers_exact_limit :
    let large : Numeral := ⟨"0017179869184".toList, some .giga, ['g'], by decide, by simp,
      .lower .giga⟩
    let fits : Numeral := ⟨"0017179869183".toList, some .giga, ['G'], by decide, by simp,
      .upper .giga⟩
    (2 ^ 64 ≤ large.value ∧ ∃ m, (Scanner.mk .origin (large.text ++ "KK".toList)).read = .error m
      ∧ m.diagnostic = .lexical "Number out of range" ⟨0, 1, 1⟩ ⟨14, 1, 15⟩)
    ∧ (fits.value < 2 ^ 64 ∧ ∃ v : UInt64, v.toNat = 18446744072635809792
      ∧ (Scanner.mk .origin (fits.text ++ "0".toList)).read
        = .ok ⟨.number v (some .giga), ⟨⟨0, 1, 1⟩, ⟨14, 1, 15⟩⟩, fits.text⟩)
    ∧ NumberLit.quantified 17179869184 .giga = .error (.numberOverflow 17179869184 .giga)
    ∧ Scanner.Takes (Layout.standard.renderChars [numberMark ⟨1000, some .kilo, none⟩])
      (.number 1000 none) [';'] := by
  intro large fits
  have hlarge : 2 ^ 64 ≤ large.value := by decide
  have hfits : fits.value < 2 ^ 64 := by decide
  obtain ⟨hread, hmake, hwrite⟩ := numbers_exact
  obtain ⟨v, hv, hok⟩ := (hread fits "0".toList .origin nofun).2.1 hfits
  refine ⟨⟨hlarge, (hread large _ .origin nofun).2.2 hlarge⟩, ⟨hfits, v, hv.trans (by decide), hok⟩,
    (hmake 17179869184 .giga).2 (by decide), hwrite .standard 1000 (some .kilo) none [';'] ?_⟩
  rintro - c hc
  obtain rfl : ';' = c := by simpa using hc
  refine ⟨rfl, fun k hk => ?_⟩
  cases k <;> cases hk

end Numeral

end MailSieve
