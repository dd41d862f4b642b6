import MailSieve.Grammar.Cursor
import MailSieve.Proofs.Lexing.Spelled

/-! Which tokens an alternative of a report stands for.
A mark stands for itself and a class for the tokens in it; four words and tags are alternatives of
their own. A list is `Rounded` if it has the kind of every token that it has an alternative for, and
`Loose` if only words may be missing: the words of a chain are noted before words in general. -/

namespace MailSieve

namespace Token

/-- How a report calls a token: a mark by itself, any other by its class. -/
def kind : Token → Expected
  | mark p => .literal (String.singleton p.char)
  | endOfInput => .endOfInput
  | t => .tokenClass t.describe

theorem kind_word {name : String} : (word name).kind = .tokenClass "identifier" := rfl

theorem kind_tag {name : String} : (tag name).kind = .tokenClass "tag" := rfl

/-- Words and tags that a report may call by themselves. -/
def spelled? : Token → Option Expected
  | word name => if name = "elsif" ∨ name = "else" then some (.literal name) else none
  | tag name => if name = "over" ∨ name = "under" then some (.literal (":" ++ name)) else none
  | _ => none

theorem spelled?_word {name : String} : (word name).spelled? =
    if name = "elsif" ∨ name = "else" then some (.literal name) else none := rfl

theorem spelled?_tag {name : String} : (tag name).spelled? =
    if name = "over" ∨ name = "under" then some (.literal (":" ++ name)) else none := rfl

end Token

namespace Expected

def Covers (e : Expected) (t : Token) : Prop := e = t.kind ∨ t.spelled? = some e

/-- Some token of a text has the alternative, or the end of the input has. -/
def Means (e : Expected) : Prop := ∃ t, e.Covers t ∧ (t.Spelled ∨ t = .endOfInput)

variable {t : Token} {a b : String}

theorem literal_inj : literal a = literal b ↔ a = b := by
  simp [literal, String.ext_iff]

theorem literal_ne_tokenClass : literal a ≠ tokenClass b := nofun

theorem endOfInput_not_mem_literal (a : String) : endOfInput ∉ [literal a] :=
  fun h => nomatch List.mem_singleton.1 h

section Tokens

variable {e : Expected} {name : String}

theorem covers_iff_of_plain (h : t.spelled? = none) : e.Covers t ↔ e = t.kind := by
  simp [Covers, h]

@[simp] theorem covers_word : e.Covers (.word name) ↔
    e = tokenClass "identifier" ∨ (name = "elsif" ∨ name = "else") ∧ e = literal name := by
  rw [Covers, Token.kind_word, Token.spelled?_word]
  split <;> simp_all [eq_comm]

@[simp] theorem covers_tag : e.Covers (.tag name) ↔
    e = tokenClass "tag" ∨ (name = "over" ∨ name = "under") ∧ e = literal (":" ++ name) := by
  rw [Covers, Token.kind_tag, Token.spelled?_tag]
  split <;> simp_all [eq_comm]

@[simp] theorem covers_string {value : String} {multiline : Bool} :
    e.Covers (.string value multiline) ↔ e = tokenClass "string" :=
  covers_iff_of_plain rfl

@[simp] theorem covers_number {value : UInt64} {quantifier : Option Quantifier} :
    e.Covers (.number value quantifier) ↔ e = tokenClass "number" :=
  covers_iff_of_plain rfl

@[simp] theorem covers_mark {m : Punctuation} :
    e.Covers (.mark m) ↔ e = literal (String.singleton m.char) :=
  covers_iff_of_plain rfl

@[simp] theorem covers_endOfInput : e.Covers .endOfInput ↔ e = endOfInput :=
  covers_iff_of_plain rfl

end Tokens

theorem endOfInput_covers : endOfInput.Covers t ↔ t = .endOfInput := by
  cases t <;> simp [endOfInput, literal, tokenClass]

theorem word_covers : (tokenClass "identifier").Covers t ↔ ∃ name, t = .word name := by
  cases t <;> simp [endOfInput, literal, tokenClass]

theorem tag_covers : (tokenClass "tag").Covers t ↔ ∃ name, t = .tag name := by
  cases t <;> simp [endOfInput, literal, tokenClass]

theorem string_covers : (tokenClass "string").Covers t ↔
    ∃ value multiline, t = .string value multiline := by
  cases t <;> simp [endOfInput, literal, tokenClass]

theorem number_covers : (tokenClass "number").Covers t ↔
    ∃ value quantifier, t = .number value quantifier := by
  cases t <;> simp [endOfInput, literal, tokenClass]

theorem mark_covers {m : Punctuation} : (literal (String.singleton m.char)).Covers t ↔
    t = .mark m := by
  cases t with
  | mark n =>
    have hchar : m.char = n.char ↔ n = m := by cases m <;> cases n <;> decide
    simp [literal_inj, String.singleton_inj, hchar]
  | word name =>
    simp only [covers_word, literal_ne_tokenClass, literal_inj, reduceCtorEq, iff_false]
    rintro (h | ⟨rfl | rfl, h⟩)
    · exact h
    all_goals cases m <;> exact absurd h (by decide)
  | tag name =>
    simp only [covers_tag, literal_ne_tokenClass, literal_inj, reduceCtorEq, iff_false]
    rintro (h | ⟨rfl | rfl, h⟩)
    · exact h
    all_goals cases m <;> exact absurd h (by decide)
  | _ => simp [endOfInput, literal, tokenClass]

theorem chainWord_covers (h : a = "elsif" ∨ a = "else") : (literal a).Covers t ↔ t = .word a := by
  cases t with
  | mark n =>
    simp only [covers_mark, literal_inj, reduceCtorEq, iff_false]
    rintro rfl
    obtain h | h := h <;> cases n <;> exact absurd h (by decide)
  | tag name =>
    simp only [covers_tag, literal_ne_tokenClass, literal_inj, reduceCtorEq, iff_false, false_or]
    rintro ⟨rfl | rfl, rfl⟩ <;> obtain h | h := h <;> exact absurd h (by decide)
  | word name =>
    simp only [covers_word, literal_ne_tokenClass, literal_inj, false_or, Token.word.injEq]
    constructor
    · exact fun h => h.2.symm
    · rintro rfl
      exact ⟨h, rfl⟩
  | _ => simp [endOfInput, literal, tokenClass]

theorem chainWord_means (h : a = "elsif" ∨ a = "else") : (literal a).Means :=
  ⟨.word a, (chainWord_covers h).2 rfl, .inl (by obtain rfl | rfl := h <;> rfl)⟩

theorem sizeTag_kind (h : a = ":over" ∨ a = ":under") (hc : (literal a).Covers t) :
    t.kind = tokenClass "tag" := by
  cases t with
  | tag name => rfl
  | mark n =>
    rw [covers_mark, literal_inj] at hc
    obtain rfl | rfl := h <;> cases n <;> exact absurd hc (by decide)
  | word name =>
    rw [covers_word, literal_inj] at hc
    obtain hc | ⟨rfl | rfl, rfl⟩ := hc
    · exact (literal_ne_tokenClass hc).elim
    all_goals obtain h | h := h <;> exact absurd h (by decide)
  | _ => simp [endOfInput, literal, tokenClass] at hc

theorem sizeTag_means (h : a = ":over" ∨ a = ":under") : (literal a).Means := by
  obtain rfl | rfl := h
  · exact ⟨.tag "over", covers_tag.2 (.inr ⟨.inl rfl, rfl⟩), .inl rfl⟩
  · exact ⟨.tag "under", covers_tag.2 (.inr ⟨.inr rfl, rfl⟩), .inl rfl⟩

section Lists

variable {e : Expected} {es fs : List Expected}

theorem mem_merge : e ∈ merge es ↔ e ∈ es := by
  fun_induction merge es with
  | case1 => rfl
  | case2 => rfl
  | case3 e es ih => simp [ih]
  | case4 e f es _ ih => rw [List.mem_cons, ih, ← List.mem_cons]

theorem mem_arrange : e ∈ arrange es ↔ e ∈ es := by
  rw [arrange, mem_merge, sort, List.mem_mergeSort]

/-- Some alternative of the list stands for the token. -/
def Allowed (es : List Expected) (t : Token) : Prop := ∃ e ∈ es, e.Covers t

@[simp] theorem allowed_nil : ¬ Allowed [] t := nofun

@[simp] theorem allowed_cons : Allowed (e :: es) t ↔ e.Covers t ∨ Allowed es t := by
  simp [Allowed]

theorem Allowed.mono (h : Allowed es t) (hes : es ⊆ fs) : Allowed fs t := by
  obtain ⟨e, he, hc⟩ := h
  exact ⟨e, hes he, hc⟩

def noteAll (es fs : List Expected) : List Expected :=
  fs.foldl (fun es e => if e ∈ es then es else es ++ [e]) es

theorem mem_noteAll : e ∈ noteAll es fs ↔ e ∈ es ∨ e ∈ fs := by
  induction fs generalizing es with
  | nil => simp [noteAll]
  | cons f fs ih =>
    rw [noteAll, List.foldl_cons, ← noteAll, ih]
    split
    · next h =>
      have he : e = f → e ∈ es := by
        rintro rfl
        exact h
      rw [List.mem_cons, ← or_assoc, or_iff_left_of_imp he]
    · simp [or_assoc]

theorem allowed_noteAll : Allowed (noteAll es fs) t ↔ Allowed es t ∨ Allowed fs t := by
  simp only [Allowed, mem_noteAll, or_and_right, exists_or]

/-- The kinds of all tokens that the list has an alternative for are in it. -/
structure Rounded (es : List Expected) : Prop where
  means : ∀ e ∈ es, e.Means
  kind : ∀ t, Allowed es t → t.kind ∈ es

/-- Only the kind of words may be missing. -/
structure Loose (es : List Expected) : Prop where
  means : ∀ e ∈ es, e.Means
  kind : ∀ t, Allowed es t → t.kind ∈ es ∨ t.kind = tokenClass "identifier"

theorem Rounded.loose (h : Rounded es) : Loose es := ⟨h.means, fun t ht => .inl (h.kind t ht)⟩

theorem Loose.rounded (h : Loose es) (hw : tokenClass "identifier" ∈ es) : Rounded es where
  means := h.means
  kind t ht := by
    obtain h | h := h.kind t ht
    · exact h
    · rwa [h]

theorem Rounded.noteAll (h : Rounded es) (hf : Rounded fs) : Rounded (noteAll es fs) where
  means e he := (mem_noteAll.1 he).elim (h.means e) (hf.means e)
  kind t ht := mem_noteAll.2 ((allowed_noteAll.1 ht).imp (h.kind t) (hf.kind t))

theorem Loose.noteAll (h : Loose es) (hf : Loose fs) : Loose (noteAll es fs) where
  means e he := (mem_noteAll.1 he).elim (h.means e) (hf.means e)
  kind t ht := by
    rw [mem_noteAll]
    obtain ht | ht := allowed_noteAll.1 ht
    · exact (h.kind t ht).imp_left .inl
    · exact (hf.kind t ht).imp_left .inr

/-- A mark or a class is the kind of what it stands for. -/
structure Plain (e : Expected) : Prop where
  means : e.Means
  kind : ∀ t, e.Covers t → e = t.kind

theorem rounded_of_plain (h : ∀ e ∈ es, e.Plain) : Rounded es where
  means e he := (h e he).means
  kind := by
    rintro t ⟨e, he, hc⟩
    rwa [← (h e he).kind t hc]

/-- What marks and classes do not change. -/
structure Stable (I : List Expected → Prop) : Prop where
  nil : I []
  noteAll : ∀ {es fs}, I es → (∀ e ∈ fs, e.Plain) → I (noteAll es fs)

theorem rounded_stable : Stable Rounded where
  nil := ⟨nofun, nofun⟩
  noteAll h hf := h.noteAll (rounded_of_plain hf)

theorem loose_stable : Stable Loose where
  nil := ⟨nofun, nofun⟩
  noteAll h hf := h.noteAll (rounded_of_plain hf).loose

theorem plain_mark (m : Punctuation) : (literal (String.singleton m.char)).Plain where
  means := ⟨.mark m, mark_covers.2 rfl, .inl trivial⟩
  kind t ht := by
    rw [mark_covers.1 ht]
    rfl

theorem plain_word : (tokenClass "identifier").Plain where
  means := ⟨.word "keep", word_covers.2 ⟨_, rfl⟩, .inl rfl⟩
  kind t ht := by
    obtain ⟨name, rfl⟩ := word_covers.1 ht
    rfl

theorem plain_tag : (tokenClass "tag").Plain where
  means := ⟨.tag "is", tag_covers.2 ⟨_, rfl⟩, .inl rfl⟩
  kind t ht := by
    obtain ⟨name, rfl⟩ := tag_covers.1 ht
    rfl

theorem plain_string : (tokenClass "string").Plain where
  means := ⟨.string "" false, string_covers.2 ⟨_, _, rfl⟩, .inl trivial⟩
  kind t ht := by
    obtain ⟨value, multiline, rfl⟩ := string_covers.1 ht
    rfl

theorem plain_number : (tokenClass "number").Plain where
  means := ⟨.number 0 none, number_covers.2 ⟨_, _, rfl⟩, .inl nofun⟩
  kind t ht := by
    obtain ⟨value, quantifier, rfl⟩ := number_covers.1 ht
    rfl

theorem plain_endOfInput : endOfInput.Plain where
  means := ⟨.endOfInput, endOfInput_covers.2 rfl, .inr rfl⟩
  kind t ht := by
    rw [endOfInput_covers.1 ht]
    rfl

end Lists

end Expected

end MailSieve
