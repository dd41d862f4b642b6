import MailSieve.Json.Printer
import MailSieve.Json.Token
import MailSieve.Proofs.Lexing.Spelled

/-! Written JSON values and their tokens.
A plain value holds only natural numbers of 64 bits and does not break off. Whatever the style, the
text of a plain value is read as the tokens that `spell` lists, and what follows it is read as it
would be without it. -/

namespace MailSieve.Json

open Text

mutual

def Plain : Json → Prop
  | null | bool _ | string _ => True
  | natural n => n < UInt64.size
  | negative _ | real _ | broken _ => False
  | array items => PlainItems items
  | object members => PlainMembers members

def PlainItems : List Json → Prop
  | [] => True
  | j :: js => j.Plain ∧ PlainItems js

def PlainMembers : List (String × Json) → Prop
  | [] => True
  | (_, j) :: ms => j.Plain ∧ PlainMembers ms

end

mutual

def spell : Json → List Token → List Token
  | null, ts => .scalar (.ok .null) :: ts
  | bool b, ts => .scalar (.ok (.bool b)) :: ts
  | natural n, ts => .scalar (.ok (.natural n)) :: ts
  | string s, ts => .text (.ok s) :: ts
  | array [], ts => .openArray :: .closeArray :: ts
  | array (j :: js), ts => .openArray :: j.spell (spellItems js (.closeArray :: ts))
  | object [], ts => .openObject :: .closeObject :: ts
  | object (m :: ms), ts => .openObject :: spellMember m (spellMembers ms (.closeObject :: ts))
  | negative _, ts | real _, ts | broken _, ts => ts

def spellItems : List Json → List Token → List Token
  | [], ts => ts
  | j :: js, ts => .comma :: j.spell (spellItems js ts)

def spellMember : String × Json → List Token → List Token
  | (name, j), ts => .text (.ok name) :: .colon :: j.spell ts

def spellMembers : List (String × Json) → List Token → List Token
  | [], ts => ts
  | m :: ms, ts => .comma :: spellMember m (spellMembers ms ts)

end

section Tokens

variable {c : Char} {bs cs : List Char}

theorem tokens_nil : tokens [] = [] := by rw [tokens]

theorem tokens_space (h : isSpace c = true) : tokens (c :: cs) = tokens cs := by
  rw [tokens, if_pos h]

theorem tokens_spaces (h : ∀ c ∈ bs, isSpace c = true) : tokens (bs ++ cs) = tokens cs := by
  induction bs with
  | nil => rfl
  | cons b bs ih =>
    rw [List.forall_mem_cons] at h
    rw [List.cons_append, tokens_space h.1, ih h.2]

theorem tokens_step (h : isSpace c = false) :
    tokens (c :: cs) = (scanToken c cs).1 :: tokens (scanToken c cs).2 := by
  rw [tokens, if_neg (by simp [h])]

def EndsNumber (cs : List Char) : Prop :=
  ∀ c ∈ cs.head?, isSpace c = true ∨ c = ',' ∨ c = ']' ∨ c = '}'

theorem endsNumber_spaces (h : ∀ c ∈ bs, isSpace c = true) (hcs : EndsNumber cs) :
    EndsNumber (bs ++ cs) := by
  cases bs with
  | nil => exact hcs
  | cons b bs =>
    rintro c ⟨⟩
    exact .inl (h _ List.mem_cons_self)

end Tokens

section Numbers

variable {n : Nat} {cs : List Char}

theorem EndsNumber.ne {c : Char} (h : EndsNumber (c :: cs)) :
    c.isDigit = false ∧ c ≠ '.' ∧ c ≠ 'e' ∧ c ≠ 'E' := by
  have hc := h c rfl
  simp only [isSpace, Bool.or_eq_true, beq_iff_eq] at hc
  rcases hc with (((rfl | rfl) | rfl) | rfl) | rfl | rfl | rfl <;> decide

theorem decimal_head (hn : 0 < n) : ∃ d ds, decimal n = d :: ds ∧ d ≠ '0' := by
  induction n using Nat.strongRecOn with
  | ind n ih =>
    by_cases h : n < 10
    · refine ⟨n.digitChar, [], Nat.toDigits_of_lt_base h, ?_⟩
      match n, h with
      | 0, _ => exact absurd hn (Nat.lt_irrefl 0)
      | 1, _ | 2, _ | 3, _ | 4, _ | 5, _ | 6, _ | 7, _ | 8, _ | 9, _ => decide
      | k + 10, h => exact absurd h (by omega)
    · obtain ⟨d, ds, hd, hne⟩ := ih (n / 10) (by omega) (by omega)
      refine ⟨d, ds ++ [(n % 10).digitChar], ?_, hne⟩
      rw [decimal, Nat.toDigits_of_base_le (by decide) (by omega), ← List.cons_append, ← hd]
      rfl

theorem scanNumber_decimal (hn : n < UInt64.size) (hcs : EndsNumber cs) :
    scanNumber false (decimal n ++ cs) = (.scalar (.ok (.natural n)), cs) := by
  have hend : ∀ c ∈ cs.head?, c.isDigit = false := by
    intro c hc
    cases cs with
    | nil => cases hc
    | cons d cs =>
      cases hc
      exact hcs.ne.1
  obtain ⟨htake, hdrop⟩ := takeWhile_of_bounded (isDigit_of_decimal (n := n)) hend
  have hlead : ((decimal n).head? = some '0' && decide ((decimal n).length > 1)) = false := by
    obtain rfl | hpos := Nat.eq_zero_or_pos n
    · rfl
    · obtain ⟨d, ds, hd, hne⟩ := decimal_head hpos
      simp [hd, hne]
  have hvalue : integerValue false (decimal n) = .ok (.natural n) := by
    simp [integerValue, digitsValue_decimal, hn]
  have hrun : digitRun (decimal n ++ cs) = some (decimal n, cs) := by
    obtain ⟨d, ds, hd⟩ := List.exists_cons_of_ne_nil (l := decimal n) Nat.toDigits_ne_nil
    rw [digitRun, htake, hdrop, hd]
  rw [scanNumber, hrun]
  simp only [hlead]
  cases cs with
  | nil => rw [scanAfterWhole, hvalue]; rfl
  | cons c cs =>
    obtain ⟨-, hdot, he, hE⟩ := hcs.ne
    rw [if_neg Bool.false_ne_true, scanAfterWhole.eq_def]
    split
    · next h => exact absurd (List.cons.inj h).1 hdot
    · next h =>
      obtain ⟨rfl, rfl⟩ := List.cons.inj h
      rw [if_neg (not_or.2 ⟨he, hE⟩), hvalue]
    · next h => cases h

theorem tokens_decimal (hn : n < UInt64.size) (hcs : EndsNumber cs) :
    tokens (decimal n ++ cs) = .scalar (.ok (.natural n)) :: tokens cs := by
  obtain ⟨d, ds, hd⟩ := List.exists_cons_of_ne_nil (l := decimal n) Nat.toDigits_ne_nil
  have hdigit : d.isDigit = true := isDigit_of_decimal d (by rw [hd]; exact List.mem_cons_self)
  have hne {c : Char} (hc : c.isDigit = false) : d ≠ c := by
    rintro rfl
    cases hdigit.symm.trans hc
  have hspace : isSpace d = false := by
    simp [isSpace, hne (c := ' ') rfl, hne (c := '\n') rfl, hne (c := '\t') rfl,
      hne (c := '\r') rfl]
  have hscan : scanToken d (ds ++ cs) = (.scalar (.ok (.natural n)), cs) := by
    rw [← scanNumber_decimal hn hcs, hd, scanToken.eq_def]
    split <;> first | cases hdigit | exact if_pos hdigit
  rw [hd, List.cons_append, tokens_step hspace, hscan]

end Numbers

section Strings

variable {c : Char} {cs rest : List Char}

theorem scanPieces_plain (hq : c ≠ '"') (hb : c ≠ '\\') (hc : ¬ c.toNat < 32) :
    scanPieces (c :: cs) = (scanPieces cs).push (.char c) := by
  rw [scanPieces.eq_7 c cs hq (fun h _ => hb h) (fun _ _ _ _ _ h _ => hb h) (fun _ h _ => hb h)
    (fun _ _ h _ => hb h), if_neg hc]

/-- A control that has no letter is read back as a unit, all else as itself. -/
theorem scanPieces_escapeChar (c : Char) (cs : List Char) :
    scanPieces (escapeChar c ++ cs) = (scanPieces cs).push (.char c)
      ∨ c.toNat < 32 ∧ scanPieces (escapeChar c ++ cs) = (scanPieces cs).push (.unit c.toNat) := by
  have hunit : ∀ n < 32, hexUnit? '0' '0' (hexDigit (n / 16)) (hexDigit (n % 16)) = some n := by
    decide
  unfold escapeChar
  iterate 7
    split
    · next h => exact .inl (by rw [h]; rfl)
  split
  · next h =>
    refine .inr ⟨h, ?_⟩
    simp only [List.cons_append, List.nil_append, scanPieces, hunit _ h]
  · next hq hb _ _ _ _ _ hc => exact .inl (scanPieces_plain hq hb hc)

theorem joinPieces_unit {n : Nat} (hn : n < 32) (ps : List Piece) :
    joinPieces none (.unit n :: ps) = (joinPieces none ps).map (Char.ofNat n :: ·) := by
  have hh : isHighSurrogate n = false := by simp [isHighSurrogate]; omega
  have hl : isLowSurrogate n = false := by simp [isLowSurrogate]; omega
  match ps with
  | [] => simp [joinPieces, hh, hl, Except.map]
  | .unit m :: ps => simp [joinPieces, hh, hl]
  | .char c :: ps => simp [joinPieces, hh, hl]

theorem scanPieces_escapeString (cs rest : List Char) :
    (scanPieces (escapeString cs ('"' :: rest))).ending = .ok rest
      ∧ joinPieces none (scanPieces (escapeString cs ('"' :: rest))).pieces = .ok cs := by
  induction cs with
  | nil => exact ⟨rfl, rfl⟩
  | cons c cs ih =>
    obtain ⟨hend, hjoin⟩ := ih
    rw [escapeString]
    obtain h | ⟨hc, h⟩ := scanPieces_escapeChar c (escapeString cs ('"' :: rest))
    · rw [h]
      exact ⟨hend, by simp [Pieces.push, joinPieces, hjoin, Except.map]⟩
    · rw [h]
      refine ⟨hend, ?_⟩
      change joinPieces none (.unit c.toNat :: _) = _
      rw [joinPieces_unit hc, hjoin, Char.ofNat_toNat]
      rfl

theorem tokens_writeString (s : String) (rest : List Char) :
    tokens (writeString s rest) = .text (.ok s) :: tokens rest := by
  obtain ⟨hend, hjoin⟩ := scanPieces_escapeString s.toList rest
  have hscan : scanToken '"' (escapeString s.toList ('"' :: rest)) = (.text (.ok s), rest) := by
    change scanText _ = _
    rw [scanText, hend]
    dsimp only
    rw [hjoin]
    exact congrArg (fun s => (Token.text (.ok s), rest)) String.ofList_toList
  rw [writeString, tokens_step rfl, hscan]

end Strings

section Rest

theorem escapeString_append (cs rest more : List Char) :
    escapeString cs rest ++ more = escapeString cs (rest ++ more) := by
  induction cs with
  | nil => rfl
  | cons c cs ih => rw [escapeString, escapeString, List.append_assoc, ih]

theorem writeString_append (s : String) (rest more : List Char) :
    writeString s rest ++ more = writeString s (rest ++ more) := by
  rw [writeString, List.cons_append, escapeString_append]
  rfl

mutual

theorem write_append (style : Style) (depth : Nat) (j : Json) (rest more : List Char) :
    j.write style depth rest ++ more = j.write style depth (rest ++ more) := by
  match j with
  | null | bool true | bool false | array [] | object [] | broken _ => rfl
  | natural n | negative n | real _ => simp [write]
  | string s => exact writeString_append s rest more
  | array (j :: js) => simp [write, write_append, writeItems_append]
  | object (m :: ms) => simp [write, writeMember_append, writeMembers_append]

theorem writeItems_append (style : Style) (depth : Nat) (js : List Json) (rest more : List Char) :
    writeItems style depth js rest ++ more = writeItems style depth js (rest ++ more) := by
  match js with
  | [] => rfl
  | j :: js => simp [writeItems, write_append, writeItems_append]

theorem writeMember_append (style : Style) (depth : Nat) (m : String × Json)
    (rest more : List Char) :
    writeMember style depth m rest ++ more = writeMember style depth m (rest ++ more) := by
  match m with
  | (name, j) => simp [writeMember, writeString_append, write_append]

theorem writeMembers_append (style : Style) (depth : Nat) (ms : List (String × Json))
    (rest more : List Char) :
    writeMembers style depth ms rest ++ more = writeMembers style depth ms (rest ++ more) := by
  match ms with
  | [] => rfl
  | m :: ms => simp [writeMembers, writeMember_append, writeMembers_append]

end

end Rest

section Values

variable {style : Style} {depth : Nat} {cs : List Char}

/-- Nothing but blanks stands where a style breaks and after a colon. -/
structure Style.Blank (style : Style) : Prop where
  lineBreak : ∀ depth, ∀ c ∈ style.lineBreak depth, isSpace c = true
  colon : ∃ bs, style.colon = ':' :: bs ∧ ∀ c ∈ bs, isSpace c = true

theorem indented_blank : indented.Blank where
  lineBreak depth c hc := by
    obtain rfl | hc := List.mem_cons.1 hc
    · rfl
    · rw [List.eq_of_mem_replicate hc]
      rfl
  colon := ⟨[' '], rfl, by simp [isSpace]⟩

theorem tokens_lineBreak (hs : style.Blank) (cs : List Char) :
    tokens (style.lineBreak depth ++ cs) = tokens cs := tokens_spaces (hs.lineBreak depth)

theorem tokens_mark {c : Char} {t : Token} (h : isSpace c = false)
    (hc : ∀ cs, scanToken c cs = (t, cs)) (cs : List Char) : tokens (c :: cs) = t :: tokens cs := by
  rw [tokens_step h, hc]

theorem tokens_comma (cs : List Char) : tokens (',' :: cs) = .comma :: tokens cs :=
  tokens_mark rfl (fun _ => rfl) cs

theorem endsNumber_close (hs : style.Blank) {c : Char} (hc : c = ',' ∨ c = ']' ∨ c = '}')
    (cs : List Char) : EndsNumber (style.lineBreak depth ++ c :: cs) := by
  refine endsNumber_spaces (hs.lineBreak depth) ?_
  rintro d ⟨⟩
  exact .inr hc

theorem endsNumber_writeItems (js : List Json) (h : EndsNumber cs) :
    EndsNumber (writeItems style depth js cs) := by
  cases js with
  | nil => exact h
  | cons j js =>
    rintro c ⟨⟩
    exact .inr (.inl rfl)

theorem endsNumber_writeMembers (ms : List (String × Json)) (h : EndsNumber cs) :
    EndsNumber (writeMembers style depth ms cs) := by
  cases ms with
  | nil => exact h
  | cons m ms =>
    rintro c ⟨⟩
    exact .inr (.inl rfl)

theorem tokens_writeMember (hs : style.Blank) (name : String) {j : Json}
    (h : tokens (j.write style depth cs) = j.spell (tokens cs)) :
    tokens (writeMember style depth (name, j) cs) = spellMember (name, j) (tokens cs) := by
  obtain ⟨bs, hcolon, hbs⟩ := hs.colon
  have hmark := tokens_mark (c := ':') rfl (fun _ => rfl)
  rw [writeMember, tokens_writeString, hcolon, List.cons_append, hmark, tokens_spaces hbs, h,
    spellMember]

mutual

theorem tokens_write (hs : style.Blank) (depth : Nat) (j : Json) (hj : j.Plain) {cs : List Char}
    (hcs : EndsNumber cs) : tokens (j.write style depth cs) = j.spell (tokens cs) := by
  match j, hj with
  | null, _ | bool true, _ | bool false, _ =>
    rw [write, tokens_step rfl]
    rfl
  | natural n, hj => exact tokens_decimal hj hcs
  | string s, _ => exact tokens_writeString s cs
  | array [], _ | object [], _ =>
    rw [write, tokens_mark rfl fun _ => rfl, tokens_mark rfl fun _ => rfl, spell]
  | array (j :: js), ⟨hj, hjs⟩ =>
    have hclose : EndsNumber (style.lineBreak depth ++ ']' :: cs) :=
      endsNumber_close hs (.inr (.inl rfl)) cs
    rw [write, tokens_mark rfl fun _ => rfl, tokens_lineBreak hs,
      tokens_write hs _ j hj (endsNumber_writeItems js hclose),
      tokens_writeItems hs _ js hjs hclose,
      tokens_lineBreak hs, tokens_mark rfl fun _ => rfl, spell]
  | object ((name, j) :: ms), ⟨hj, hms⟩ =>
    have hclose : EndsNumber (style.lineBreak depth ++ '}' :: cs) :=
      endsNumber_close hs (.inr (.inr rfl)) cs
    rw [write, tokens_mark rfl fun _ => rfl, tokens_lineBreak hs, tokens_writeMember hs name
      (tokens_write hs _ j hj (endsNumber_writeMembers ms hclose)),
      tokens_writeMembers hs _ ms hms hclose, tokens_lineBreak hs, tokens_mark rfl fun _ => rfl,
      spell]

theorem tokens_writeItems (hs : style.Blank) (depth : Nat) (js : List Json) (hj : PlainItems js)
    {cs : List Char} (hcs : EndsNumber cs) :
    tokens (writeItems style depth js cs) = spellItems js (tokens cs) := by
  match js, hj with
  | [], _ => rfl
  | j :: js, ⟨hj, hjs⟩ =>
    rw [writeItems, tokens_comma, tokens_lineBreak hs,
      tokens_write hs _ j hj (endsNumber_writeItems js hcs), tokens_writeItems hs _ js hjs hcs,
      spellItems]

theorem tokens_writeMembers (hs : style.Blank) (depth : Nat) (ms : List (String × Json))
    (hm : PlainMembers ms) {cs : List Char} (hcs : EndsNumber cs) :
    tokens (writeMembers style depth ms cs) = spellMembers ms (tokens cs) := by
  match ms, hm with
  | [], _ => rfl
  | (name, j) :: ms, ⟨hj, hms⟩ =>
    rw [writeMembers, tokens_comma, tokens_lineBreak hs, tokens_writeMember hs name
      (tokens_write hs _ j hj (endsNumber_writeMembers ms hcs)),
      tokens_writeMembers hs _ ms hms hcs,
      spellMembers]

end

end Values

end MailSieve.Json
