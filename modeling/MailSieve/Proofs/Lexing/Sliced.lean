import MailSieve.Proofs.Lexing.Follow

/-! What a step cuts out of a text.
Names, digits, the stretches between the escapes of a string and the lines of a literal are cut out
as they stand, and so is all that follows where a character is not expected. Each cut is a stretch
of the text that is read, and what the step tells is put together from its cuts. -/

namespace MailSieve

open Text Trivia

/-- A stretch of a text, and what stands before it. -/
structure Cut where
  lead : List Char
  text : List Char

namespace Cut

def behind (more : List Char) (c : Cut) : Cut := { c with lead := more ++ c.lead }

/-- The stretch lies in the text. -/
def In (cs : List Char) (c : Cut) : Prop := c.lead ++ c.text <+: cs

theorem In.behind {cs : List Char} {c : Cut} (h : c.In cs) (more : List Char) :
    (c.behind more).In (more ++ cs) := by
  rw [In, Cut.behind, List.append_assoc]
  exact (List.prefix_append_right_inj more).2 h

end Cut

theorem scan_in (cs : List Char) : Cut.In cs ⟨(scan cs).before, (scan cs).text⟩ := by
  refine ⟨(scan cs).rest, ?_⟩
  rw [List.append_assoc]
  exact scan_append cs

namespace Quoted

/-- What follows an opening quote: the stretches up to the escapes and the closing quote, and the
escaped characters. Behind a bad backslash all that follows is cut out. `chunk` is what was passed
over since the last escape, and `lead` what stands before that. -/
def cuts (lead chunk : List Char) : List Char → List Cut
  | [] => []
  | '"' :: _ => [⟨lead, chunk⟩]
  | ['\\'] => [⟨lead, chunk⟩]
  | '\\' :: c :: cs =>
    if c = '\\' ∨ c = '"' then
      ⟨lead, chunk⟩ :: ⟨lead ++ (chunk ++ ['\\']), [c]⟩ :: cuts (lead ++ (chunk ++ ['\\', c])) [] cs
    else [⟨lead, chunk⟩, ⟨lead ++ (chunk ++ ['\\']), c :: cs⟩]
  | c :: cs => cuts lead (chunk ++ [c]) cs

variable {lead chunk cs value text rest : List Char}

theorem cuts_in : ∀ c ∈ cuts lead chunk cs, c.In (lead ++ (chunk ++ cs)) := by
  have hchunk (lead chunk cs : List Char) : Cut.In (lead ++ (chunk ++ cs)) ⟨lead, chunk⟩ :=
    (List.prefix_append_right_inj lead).2 (List.prefix_append chunk cs)
  fun_induction cuts lead chunk cs with
  | case1 => simp
  | case2 | case3 => exact List.forall_mem_singleton.2 (hchunk _ _ _)
  | case4 lead chunk c cs hc ih =>
    refine List.forall_mem_cons.2 ⟨hchunk _ _ _, List.forall_mem_cons.2 ⟨?_, ?_⟩⟩
    · exact ⟨cs, by simp⟩
    · simpa using ih
  | case5 lead chunk c cs hc =>
    refine List.forall_mem_cons.2 ⟨hchunk _ _ _, List.forall_mem_singleton.2 ⟨[], by simp⟩⟩
  | case6 lead chunk c cs h₁ h₂ h₃ ih => simpa using ih

theorem cuts_closed (h : scanQuoted cs = .closed value text rest) :
    (cuts lead chunk cs).flatMap (·.text) = chunk ++ value := by
  fun_induction cuts lead chunk cs generalizing value text rest with
  | case1 => cases h
  | case2 =>
    cases h
    simp
  | case3 => cases h
  | case4 lead chunk c cs hc ih =>
    rw [scanQuoted, if_pos hc] at h
    obtain ⟨v, t, hr, rfl, -⟩ := Result.push_eq_closed.1 h
    simp [ih hr]
  | case5 lead chunk c cs hc =>
    rw [scanQuoted, if_neg hc] at h
    cases h
  | case6 lead chunk c cs h₁ h₂ h₃ ih =>
    rw [scanQuoted.eq_5 c cs h₁ h₂ h₃] at h
    obtain ⟨v, t, hr, rfl, -⟩ := Result.push_eq_closed.1 h
    simp [ih hr]

theorem cuts_badEscape {c : Char} (h : scanQuoted cs = .badEscape text c rest) :
    ∃ x ∈ cuts lead chunk cs, x.text = c :: rest := by
  fun_induction cuts lead chunk cs generalizing text rest with
  | case1 | case2 | case3 => cases h
  | case4 lead chunk d cs hd ih =>
    rw [scanQuoted, if_pos hd] at h
    cases hr : scanQuoted cs with
    | badEscape v t r =>
      rw [hr] at h
      cases h
      obtain ⟨x, hx, htext⟩ := ih hr
      exact ⟨x, List.mem_cons_of_mem _ (List.mem_cons_of_mem _ hx), htext⟩
    | closed | unclosed =>
      rw [hr] at h
      cases h
  | case5 lead chunk d cs hd =>
    rw [scanQuoted, if_neg hd] at h
    cases h
    exact ⟨_, List.mem_cons_of_mem _ List.mem_cons_self, rfl⟩
  | case6 lead chunk d cs h₁ h₂ h₃ ih =>
    rw [scanQuoted.eq_5 d cs h₁ h₂ h₃] at h
    cases hr : scanQuoted cs with
    | badEscape v t r =>
      rw [hr] at h
      cases h
      exact ih hr
    | closed | unclosed =>
      rw [hr] at h
      cases h

end Quoted

namespace TextBlock

def lineCuts (lead : List Char) : List Char → List Cut
  | '.' :: '.' :: cs => [⟨lead, '.' :: '.' :: cs⟩, ⟨lead ++ ['.'], '.' :: cs⟩]
  | cs => [⟨lead, cs⟩]

def bodyCuts (lead : List Char) : List (List Char) → List Cut
  | [] => []
  | l :: ls => lineCuts lead l ++ if isDotLine l then [] else bodyCuts (lead ++ (l ++ ['\n'])) ls

def cuts (cs : List Char) : List Cut :=
  match afterHeader cs with
  | '\r' :: '\n' :: body => bodyCuts (headerLead cs ++ ['\r', '\n']) (segments body)
  | '\n' :: body => bodyCuts (headerLead cs ++ ['\n']) (segments body)
  | _ => []

variable {lead cs l value text rest : List Char} {ls lines more : List (List Char)}
  {dot : List Char}

theorem lineCuts_in : ∀ c ∈ lineCuts lead l, c.In (lead ++ l) := by
  rw [lineCuts.eq_def]
  split
  · next cs =>
    refine List.forall_mem_cons.2 ⟨List.prefix_refl _, List.forall_mem_singleton.2 ⟨[], ?_⟩⟩
    simp
  · exact List.forall_mem_singleton.2 (List.prefix_refl _)

theorem mem_lineCuts : (∃ c ∈ lineCuts lead l, c.text = l)
    ∧ ∃ c ∈ lineCuts lead l, c.text = unstuffLine l := by
  rw [lineCuts.eq_def]
  split
  · exact ⟨⟨_, List.mem_cons_self, rfl⟩, _, List.mem_cons_of_mem _ List.mem_cons_self, rfl⟩
  · next hl =>
    rw [unstuffLine.eq_2 l hl]
    exact ⟨⟨_, List.mem_cons_self, rfl⟩, _, List.mem_cons_self, rfl⟩

theorem bodyCuts_in : ∀ c ∈ bodyCuts lead ls, c.In (lead ++ joinSegments ls) := by
  have hmono {c : Cut} {cs ds : List Char} (h : c.In cs) (hcs : cs <+: ds) : c.In ds :=
    h.trans hcs
  induction ls generalizing lead with
  | nil => simp [bodyCuts]
  | cons l ls ih =>
    intro c hc
    obtain hc | hc := List.mem_append.1 hc
    · refine hmono (lineCuts_in c hc) ((List.prefix_append_right_inj lead).2 ?_)
      cases ls with
      | nil => simp [joinSegments]
      | cons m ls =>
        rw [joinSegments_cons]
        exact List.prefix_append l _
    · split at hc
      · cases hc
      · cases ls with
        | nil => cases hc
        | cons m ls =>
          rw [joinSegments_cons]
          simpa using ih c hc

theorem cuts_in : ∀ c ∈ cuts cs, c.In cs := by
  have hbody (lf : List Char) {body : List Char} (hb : afterHeader cs = lf ++ body) :
      ∀ c ∈ bodyCuts (headerLead cs ++ lf) (segments body), c.In cs := by
    intro c hc
    have hin := bodyCuts_in c hc
    rwa [joinSegments_segments, List.append_assoc, ← hb, headerLead_append] at hin
  rw [cuts]
  split
  · next body hb => exact hbody ['\r', '\n'] hb
  · next body hb => exact hbody ['\n'] hb
  · simp

theorem mem_bodyCuts (h : splitAtDot ls = some (lines, dot, more)) : ∀ l ∈ lines,
    (∃ c ∈ bodyCuts lead ls, c.text = l) ∧ ∃ c ∈ bodyCuts lead ls, c.text = unstuffLine l := by
  induction ls generalizing lead lines with
  | nil => cases h
  | cons l ls ih =>
    rw [splitAtDot] at h
    split at h
    · cases h
      simp
    · next hl =>
      obtain ⟨⟨ls', dot', more'⟩, hs, he⟩ := Option.map_eq_some_iff.1 h
      cases he
      rw [bodyCuts, if_neg hl]
      have hsome {P : Cut → Prop} {cs ds : List Cut} (h : (∃ c ∈ cs, P c) ∨ ∃ c ∈ ds, P c) :
          ∃ c ∈ cs ++ ds, P c := by simpa [or_and_right, exists_or] using h
      refine List.forall_mem_cons.2 ⟨?_, fun m hm => ?_⟩
      · exact ⟨hsome (.inl mem_lineCuts.1), hsome (.inl mem_lineCuts.2)⟩
      · exact ⟨hsome (.inr (ih hs m hm).1), hsome (.inr (ih hs m hm).2)⟩

theorem scanned_cuts (cs : List Char) :
    (∃ crlf lf body, scanTextBlock cs = scanBody crlf (headerLead cs ++ lf) body
        ∧ cuts cs = bodyCuts (headerLead cs ++ lf) (segments body))
      ∨ (scanTextBlock cs = .noBreak (headerLead cs) (afterHeader cs) ∧ cuts cs = []) := by
  by_cases hcrlf : ∃ body, afterHeader cs = '\r' :: '\n' :: body
  · obtain ⟨body, hb⟩ := hcrlf
    refine .inl ⟨true, ['\r', '\n'], body, ?_, ?_⟩
    · rw [scanTextBlock, hb]
      rfl
    · rw [cuts, hb]
      rfl
  · by_cases hlf : ∃ body, afterHeader cs = '\n' :: body
    · obtain ⟨body, hb⟩ := hlf
      refine .inl ⟨false, ['\n'], body, ?_, ?_⟩
      · rw [scanTextBlock, hb]
        rfl
      · rw [cuts, hb]
        rfl
    · refine .inr ⟨?_, ?_⟩
      · rw [scanTextBlock]
        split
        · next body hb => exact absurd ⟨body, hb⟩ hcrlf
        · next body hb => exact absurd ⟨body, hb⟩ hlf
        · rfl
      · rw [cuts]
        split
        · next body hb => exact absurd ⟨body, hb⟩ hcrlf
        · next body hb => exact absurd ⟨body, hb⟩ hlf
        · rfl

theorem cuts_noBreak (h : scanTextBlock cs = .noBreak lead rest) : cuts cs = [] := by
  obtain ⟨crlf, lf, body, hscan, -⟩ | ⟨-, hcuts⟩ := scanned_cuts cs
  · rw [hscan, scanBody] at h
    split at h <;> cases h
  · exact hcuts

theorem cuts_closed (h : scanTextBlock cs = .closed value text rest) :
    ∃ crlf lines, value = valueOf crlf lines ∧ ∀ l ∈ lines,
      (∃ c ∈ cuts cs, c.text = l) ∧ ∃ c ∈ cuts cs, c.text = unstuffLine l := by
  obtain ⟨crlf, lf, body, hscan, hcuts⟩ | ⟨hscan, -⟩ := scanned_cuts cs
  · rw [hscan, scanBody] at h
    rw [hcuts]
    split at h
    · cases h
    · next lines dot hs =>
      cases h
      exact ⟨_, lines, rfl, mem_bodyCuts hs⟩
    · next lines dot more _ hs =>
      cases h
      exact ⟨_, lines, rfl, mem_bodyCuts hs⟩
  · rw [hscan] at h
    cases h

end TextBlock

def tagCuts (cs : List Char) : List Cut :=
  if cs.head?.any isWordStart then [⟨[':'], cs.takeWhile isWordPart⟩] else []

def wordCuts (cs : List Char) : List Cut :=
  let word := cs.takeWhile isWordPart
  ⟨[], word⟩ ::
    match cs.dropWhile isWordPart with
    | ':' :: rest =>
      if word = ['t', 'e', 'x', 't'] then (TextBlock.cuts rest).map (·.behind (word ++ [':']))
      else []
    | _ => []

/-- What is cut out of a text that begins with no trivia. -/
def tokenCuts : List Char → List Cut
  | [] => []
  | c :: cs =>
    match Punctuation.ofChar? c with
    | some _ => []
    | none =>
      if c = '"' then Quoted.cuts ['"'] [] cs
      else if c = ':' then tagCuts cs
      else if c.isDigit then [⟨[], (c :: cs).takeWhile Char.isDigit⟩]
      else if isWordStart c then wordCuts (c :: cs)
      else if c = '/' ∧ cs.head? = some '*' then []
      else [⟨[], c :: cs⟩]

/-- What a step cuts out of a text. -/
def stepCuts (cs : List Char) : List Cut :=
  (tokenCuts (skipTrivia cs).2).map (·.behind (skipTrivia cs).1)

/-- The outcome of a step is put together from these texts. -/
def Tells (texts : List String) : Except LexicalFault Token → Prop
  | .ok (.word name) | .ok (.tag name) => texts = [name]
  | .ok (.number value q) => ∃ digits, texts = [digits] ∧ numberValue? digits.toList q = some value
  | .ok (.string value false) => value.toList = texts.flatMap (·.toList)
  | .ok (.string value true) => ∃ crlf lines, value.toList = TextBlock.valueOf crlf lines
    ∧ ∀ l ∈ lines, String.ofList l ∈ texts ∧ String.ofList (TextBlock.unstuffLine l) ∈ texts
  | .ok (.mark _) | .ok .endOfInput => texts = []
  | .error (.unexpectedCharacter c) | .error (.invalidEscape c) =>
    ∃ text ∈ texts, text.toList.head? = some c
  | .error .numberOutOfRange => ∃ digits q, texts = [digits] ∧ numberValue? digits.toList q = none
  | .error .missingTagName | .error .unclosedComment => texts = []
  | .error .missingLineBreak => texts = ["text"]
  | .error .unclosedString => True
  | .error .unclosedTextBlock => "text" ∈ texts

section Steps

variable {cs : List Char}

theorem takeWhile_in {p : Char → Bool} (cs : List Char) : Cut.In cs ⟨[], cs.takeWhile p⟩ :=
  List.takeWhile_prefix p

theorem wordCuts_in : ∀ c ∈ wordCuts cs, c.In cs := by
  have hall := List.takeWhile_append_dropWhile (p := isWordPart) (l := cs)
  refine List.forall_mem_cons.2 ⟨takeWhile_in cs, ?_⟩
  split
  · next rest hd =>
    split
    · rw [hd] at hall
      refine List.forall_mem_map.2 fun c hc => ?_
      have hin := (TextBlock.cuts_in c hc).behind (cs.takeWhile isWordPart ++ [':'])
      rwa [List.append_assoc, List.singleton_append, hall] at hin
    · simp
  · simp

theorem tagCuts_in : ∀ c ∈ tagCuts cs, c.In (':' :: cs) := by
  rw [tagCuts]
  split
  · exact List.forall_mem_singleton.2 ((takeWhile_in cs).behind [':'])
  · simp

theorem tokenCuts_in : ∀ c ∈ tokenCuts cs, c.In cs := by
  rw [tokenCuts.eq_def]
  split
  · simp
  · next c cs =>
    split
    · simp
    · split
      · next hc => exact hc ▸ Quoted.cuts_in
      · split
        · next hc => exact hc ▸ tagCuts_in
        · split
          · exact List.forall_mem_singleton.2 (takeWhile_in _)
          · split
            · exact wordCuts_in
            · split
              · simp
              · exact List.forall_mem_singleton.2 (List.prefix_refl _)

theorem stepCuts_in : ∀ c ∈ stepCuts cs, c.In cs := by
  refine List.forall_mem_map.2 fun c hc => ?_
  have hin := (tokenCuts_in c hc).behind (skipTrivia cs).1
  rwa [skipTrivia_append] at hin

def textsOf (cs : List Cut) : List String := cs.map fun c => String.ofList c.text

theorem mem_textsOf {c : Cut} {cs : List Cut} {text : List Char} (hc : c ∈ cs)
    (ht : c.text = text) : String.ofList text ∈ textsOf cs :=
  ht ▸ List.mem_map_of_mem hc

theorem string_tells : Tells (textsOf (Quoted.cuts ['"'] [] cs)) (scanString cs).outcome := by
  rw [scanString]
  split
  · next value text rest hq =>
    change (String.ofList value).toList = _
    have hvalue : (Quoted.cuts ['"'] [] cs).flatMap (·.text) = [] ++ value :=
      Quoted.cuts_closed hq
    simp [textsOf, List.flatMap_map, hvalue]
  · next lead c rest hq =>
    obtain ⟨x, hx, htext⟩ : ∃ x ∈ Quoted.cuts ['"'] [] cs, x.text = c :: rest :=
      Quoted.cuts_badEscape hq
    exact ⟨_, mem_textsOf hx htext, by simp⟩
  · trivial

theorem tag_tells : Tells (textsOf (tagCuts cs)) (scanTag cs).outcome := by
  cases cs with
  | nil => rfl
  | cons c cs =>
    rw [scanTag.eq_def, tagCuts, List.head?_cons, Option.any_some]
    dsimp only
    split <;> rfl

theorem number_tells :
    Tells (textsOf [⟨[], cs.takeWhile Char.isDigit⟩]) (scanNumber cs).outcome := by
  have hout (q : Option Quantifier) : Tells (textsOf [⟨[], cs.takeWhile Char.isDigit⟩])
      (numberOutcome (cs.takeWhile Char.isDigit) q) := by
    rw [numberOutcome]
    split
    · next value hv => exact ⟨_, rfl, by rwa [String.toList_ofList]⟩
    · next hv => exact ⟨_, q, rfl, by rwa [String.toList_ofList]⟩
  rw [scanNumber]
  split
  · exact hout none
  · split
    · exact hout (some _)
    · exact hout none

theorem block_tells {rest : List Char} : Tells (textsOf (⟨[], ['t', 'e', 'x', 't']⟩
      :: (TextBlock.cuts rest).map (·.behind (['t', 'e', 'x', 't'] ++ [':']))))
    (scanTextBlockToken ['t', 'e', 'x', 't'] rest).outcome := by
  rw [scanTextBlockToken]
  split
  · next lead more hb =>
    rw [TextBlock.cuts_noBreak hb]
    rfl
  · exact List.mem_cons_self
  · next value text more hb =>
    obtain ⟨crlf, lines, rfl, hlines⟩ := TextBlock.cuts_closed hb
    refine ⟨crlf, lines, String.toList_ofList, fun l hl => ?_⟩
    obtain ⟨⟨c, hc, htext⟩, d, hd, hstuffed⟩ := hlines l hl
    exact ⟨mem_textsOf (List.mem_cons_of_mem _ (List.mem_map_of_mem hc)) htext,
      mem_textsOf (List.mem_cons_of_mem _ (List.mem_map_of_mem hd)) hstuffed⟩

theorem word_tells : Tells (textsOf (wordCuts cs)) (scanWord cs).outcome := by
  by_cases hplain : ∀ rest, cs.dropWhile isWordPart = ':' :: rest →
      cs.takeWhile isWordPart ≠ ['t', 'e', 'x', 't']
  · have hcuts : wordCuts cs = [⟨[], cs.takeWhile isWordPart⟩] := by
      rw [wordCuts]
      split
      · next rest hd => rw [if_neg (hplain rest hd)]
      · rfl
    rw [scanWord_plain hplain, hcuts]
    rfl
  · obtain ⟨rest, hd, hw⟩ : ∃ rest, cs.dropWhile isWordPart = ':' :: rest
        ∧ cs.takeWhile isWordPart = ['t', 'e', 'x', 't'] := by simpa using hplain
    have hcuts : wordCuts cs = ⟨[], ['t', 'e', 'x', 't']⟩
        :: (TextBlock.cuts rest).map (·.behind (['t', 'e', 'x', 't'] ++ [':'])) := by
      simp [wordCuts, hd, hw]
    rw [scanWord_text hd hw, hcuts, hw]
    exact block_tells

/-- A step tells nothing but what it cut out. -/
theorem token_tells : Tells (textsOf (tokenCuts cs)) (scanToken cs).outcome := by
  cases cs with
  | nil => rfl
  | cons c cs =>
    cases hp : Punctuation.ofChar? c with
    | some p =>
      rw [scanToken_mark hp, tokenCuts, hp]
      rfl
    | none =>
      rw [scanToken_other hp, tokenCuts, hp]
      dsimp only
      split
      · exact string_tells
      · split
        · exact tag_tells
        · split
          · exact number_tells
          · split
            · exact word_tells
            · split
              · rfl
              · exact ⟨_, List.mem_singleton_self _, by simp⟩

end Steps

end MailSieve
