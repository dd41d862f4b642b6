import Mathlib.Data.List.Forall2
import Mathlib.Data.List.Perm.Subperm
import MailSieve.Proofs.Located.WellFormed
import MailSieve.Proofs.Tags.Exchange

/-! Tags in any order.
Wherever a keyword that takes unordered tags stands in a script, some groups of tags and values
behind it may change places: the script is read as before, or as before it is not. It is not read if
two of the groups exclude each other. -/

namespace MailSieve

open Phrase

variable {ts us xs ys pre more : List Token}

namespace Phrase

variable {rules : List TagRule}

theorem Sequence.append {α : Type} {item : List Token → α → Prop} {as bs : List α}
    (h : Sequence item ts as) (k : Sequence item us bs) : Sequence item (ts ++ us) (as ++ bs) := by
  induction h with
  | nil => exact k
  | cons ha _ ih =>
    rw [List.append_assoc]
    exact .cons ha ih

theorem noTag_positionals {ps : List Positional} (h : Sequence PositionalPhrase ts ps) :
    NoTag ts := by
  induction h with
  | nil => exact noTag_nil
  | cons hp _ ih =>
    refine noTag_append (fun t ht => ?_) ih
    have hhead := hp.not_tag t
    rwa [List.headD_eq_head?_getD, ht] at hhead

/-- The tokens that a value of a kind is read from. A word of a vocabulary may turn out to be none
of its words. -/
def Takes : TagValueKind → List Token → Prop
  | .none, ts => ts = []
  | .string, ts | .operator, ts | .importance, ts => ∃ s, StringPhrase ts s
  | .strings, ts => ∃ l, ListPhrase ts l
  | .number, ts => ∃ n, NumberPhrase ts n

theorem ValuePhrase.takes {v : TagValue} (h : ValuePhrase ts v) : Takes v.kind ts := by
  cases h with
  | none => rfl
  | string hs => exact ⟨_, hs⟩
  | strings hl => exact ⟨_, hl⟩
  | number hn => exact ⟨_, hn⟩
  | operator o multiline => exact ⟨_, .mk o.word multiline⟩
  | importance i multiline => exact ⟨_, .mk i.word multiline⟩

theorem Takes.eq {k : TagValueKind} (h : Takes k ts) (h' : Takes k us) (he : ts ++ xs = us ++ ys) :
    ts = us := by
  have hend : ts ++ (xs ++ [.endOfInput]) = us ++ (ys ++ [.endOfInput]) := by
    rw [← List.append_assoc, he, List.append_assoc]
  have strings {l m : StringList} (hl : ListPhrase ts l) (hm : ListPhrase us m) : ts = us :=
    ((Reads.stringList (o := ⟨false, 0⟩) rfl).unique_open hl hm (fun _ => trivial)
      (fun _ => trivial) (by simp) (by simp) hend).2
  cases k with
  | none => rw [h, h']
  | string | operator | importance =>
    obtain ⟨s, hs⟩ := h
    obtain ⟨t, ht⟩ := h'
    exact strings (.single hs) (.single ht)
  | strings =>
    obtain ⟨l, hl⟩ := h
    obtain ⟨m, hm⟩ := h'
    exact strings hl hm
  | number =>
    obtain ⟨n, ⟨⟩⟩ := h
    obtain ⟨m, ⟨⟩⟩ := h'
    rw [(List.cons.inj he).1]

/-- A tag with the tokens of its value. -/
structure TagGroup where
  name : String
  value : List Token

namespace TagGroup

def tokens (g : TagGroup) : List Token := .tag g.name :: g.value

/-- The tag is one of the rules', and the value of the kind that it takes. -/
def Accepted (rules : List TagRule) (g : TagGroup) : Prop :=
  ∃ r, ruleOf rules g.name = some r ∧ Takes r.value g.value

/-- The group denotes the setting. -/
def Denotes (g : TagGroup) (s : Setting) : Prop := g.name = s.name ∧ SettingPhrase g.tokens s

theorem sequence_of_denotes {gs : List TagGroup} {ss : List Setting}
    (h : List.Forall₂ Denotes gs ss) : Sequence SettingPhrase (gs.flatMap tokens) ss := by
  induction h with
  | nil => exact .nil
  | cons hg _ ih => exact .cons hg.2 ih

theorem settings_split {gs : List TagGroup} {ss : List Setting}
    (hg : ∀ g ∈ gs, g.Accepted rules) (hs : ∀ s ∈ ss, s.Ruled rules)
    (h : Sequence SettingPhrase ts ss) (hn : NoTag ys)
    (he : gs.flatMap tokens ++ xs = ts ++ ys) :
    ∃ ss₁ ss₂ us, ss = ss₁ ++ ss₂ ∧ List.Forall₂ Denotes gs ss₁ ∧ Sequence SettingPhrase us ss₂
      ∧ xs = us ++ ys := by
  induction gs generalizing ts ss with
  | nil => exact ⟨[], ss, ts, rfl, .nil, h, he⟩
  | cons g gs ih =>
    rw [List.forall_mem_cons] at hg
    rw [List.flatMap_cons, tokens, List.cons_append, List.cons_append, List.append_assoc] at he
    cases h with
    | nil =>
      rw [List.nil_append] at he
      cases hn (.tag g.name) (by rw [← he]; rfl)
    | @cons ts us s ss hset hss =>
      rw [List.forall_mem_cons] at hs
      obtain ⟨hv⟩ := hset
      simp only [List.cons_append, List.append_assoc, List.cons.injEq, Token.tag.injEq] at he
      obtain ⟨hname, he⟩ := he
      obtain ⟨⟨r, hr, htakes⟩, hgs⟩ := hg
      obtain ⟨⟨q, hq, hkind⟩, hss'⟩ := hs
      rw [hname, hq] at hr
      cases hr
      have hvalue := htakes.eq (hkind ▸ hv.takes) he
      rw [hvalue] at he
      obtain ⟨ss₁, ss₂, vs, rfl, hd, hrest, rfl⟩ := ih hgs hss' hss (List.append_cancel_left he)
      refine ⟨s :: ss₁, ss₂, vs, rfl, .cons ⟨hname, ?_⟩ hd, hrest, rfl⟩
      rw [tokens, hname, hvalue]
      exact .mk hv

/-- Groups that begin the text of an unordered clause may stand there in any order. -/
theorem clause_split {c : Clause} {gs : List TagGroup} (hc : ClausePhrase us c)
    (ho : c.ordered = false) (hs : ∀ s ∈ c.settings, s.Ruled rules)
    (hg : ∀ g ∈ gs, g.Accepted rules) (hn : NoTag ys)
    (he : gs.flatMap tokens ++ xs = us ++ ys) :
    ∃ zs ss, xs = zs ++ ys ∧ List.Forall₂ Denotes gs ss ∧ ss.Subperm c.settings
      ∧ ∀ gs', gs.Perm gs' → ClausePhrase (gs'.flatMap tokens ++ zs) c := by
  obtain ⟨settings, positionals, ordered⟩ := c
  cases ho
  obtain @⟨ts, us, -, ss, ha, hss, hp⟩ := hc
  have hperm := Clause.arranges_false.1 ha
  have hnext : NoTag (us ++ ys) := noTag_append (noTag_positionals hp) hn
  rw [List.append_assoc] at he
  obtain ⟨ss₁, ss₂, vs, rfl, hd, hrest, rfl⟩ :=
    settings_split hg (fun s h => hs s (hperm.mem_iff.1 h)) hss hnext he
  refine ⟨vs ++ us, ss₁, (List.append_assoc _ _ _).symm, hd,
    (List.sublist_append_left ss₁ ss₂).subperm.trans hperm.subperm, fun gs' hgs => ?_⟩
  obtain ⟨ss', hd', hss'⟩ := List.perm_comp_forall₂ hgs.symm hd
  have hseq := (sequence_of_denotes hd').append hrest
  rw [← List.append_assoc]
  exact .mk (Clause.arranges_false.2 ((hss'.append_right ss₂).trans hperm)) hseq hp

end TagGroup

/-- Names of which a clause takes one at most, if it takes them at all. -/
def exclusive : List (List String) :=
  [MatchType.values.map (·.word) ++ RelationalKind.values.map (·.word),
    AddressPart.values.map (·.word), ["over", "under"], ["raw", "text", "content"],
    ["days", "seconds"], ["zone", "originalzone"], ["header", "uniqueid"]]

/-- Two tags that may not stand together: one tag twice, or two that exclude each other. -/
def Clash (m n : String) : Prop := m = n ∨ ∃ names ∈ exclusive, m ∈ names ∧ n ∈ names

end Phrase

/-- A keyword that tags may follow. -/
inductive Tagged where
  | command (k : CommandKeyword)
  | test (k : TestKeyword)

namespace Tagged

def word : Tagged → String
  | command k => k.word
  | test k => k.word

def rules : Tagged → List TagRule
  | command k => k.tagRules
  | test k => k.tagRules

/-- Behind these tokens the word is the keyword: a command begins there, or none does. What begins
a script stands as if behind a semicolon. Nothing is asked where the source is no token. -/
def Follows (pre : List (Option Token)) (k : Tagged) : Prop :=
  ∀ t, pre.getLastD (some (.mark .semicolon)) = some t →
    match k with
    | command _ => Boundary t
    | test _ => ¬ Boundary t

/-- A clause of the keyword that can be read. -/
structure Has (k : Tagged) (c : Clause) : Prop where
  unordered : c.ordered = false
  ruled : ∀ s ∈ c.settings, s.Ruled k.rules
  apart : c.settings.Pairwise (Setting.Apart k.rules)

def agree (rules : List TagRule) (m n : String) : Bool :=
  match ruleOf rules m, ruleOf rules n with
  | some r, some q => r.group == q.group
  | _, _ => true

theorem exclusive_agree (k : Tagged) :
    ∀ names ∈ exclusive, ∀ m ∈ names, ∀ n ∈ names, agree k.rules m n = true := by
  cases k with
  | command k => cases k <;> decide +kernel
  | test k => cases k <;> decide +kernel

theorem clash_group {k : Tagged} {m n : String} {r q : TagRule} (h : Clash m n)
    (hr : ruleOf k.rules m = some r) (hq : ruleOf k.rules n = some q) : r.group = q.group := by
  obtain rfl | ⟨names, hnames, hm, hn⟩ := h
  · rw [hr] at hq
    rw [Option.some.inj hq]
  · have h := k.exclusive_agree names hnames m hm n hn
    rw [agree, hr, hq] at h
    simpa using h

theorem unordered_command {c : Command} {k : CommandKeyword} {cl : Clause}
    (h : c.clause? = some (k, cl)) (hk : k ≠ .setVariable) : cl.ordered = false := by
  cases c with
  | setVariable c =>
    cases h
    exact absurd rfl hk
  | flag c => obtain ⟨⟨⟩, _, _, _⟩ := c <;> cases h <;> rfl
  | _ => cases h <;> rfl

theorem unordered_test {t : Test} {k : TestKeyword} {c : Clause} (h : t.clause? = some (k, c)) :
    c.ordered = false := by
  cases t <;> cases h <;> rfl

theorem exchangeable {k : Tagged} (hk : k ≠ command .setVariable) (hr : k.rules ≠ [])
    (hpre : k.Follows (pre.map some)) {n : Nat} {s : Script}
    (h : ScriptPhrase n (pre ++ .word k.word :: more) s) :
    Exchangeable k.word k.Has (ScriptPhrase n · s) pre more := by
  have imp {K : Clause → Prop} (hK : ∀ c, K c → k.Has c)
      (h : Exchangeable k.word K (ScriptPhrase n · s) pre more) :
      Exchangeable k.word k.Has (ScriptPhrase n · s) pre more := by
    obtain ⟨us, rest, c, hm, hn, hc, hu, hall⟩ := h
    exact ⟨us, rest, c, hm, hn, hK c hc, hu, hall⟩
  have hlast := hpre (pre.getLastD (.mark .semicolon)) (by simp [List.getLastD_eq_getLast?])
  cases k with
  | command k =>
    have hset : k ≠ .setVariable := fun he => hk (congrArg command he)
    have hleaf T B C : CommandKeywordForm T B C k = CommandLeaf k := by
      cases k <;> first | rfl | exact absurd rfl hr
    refine imp ?_ (scriptPhrase_command hleaf ?_ ?_ hlast h)
    · rintro c ⟨x, hc, -, hx⟩
      obtain ⟨hruled, hap⟩ := Command.clause_apart hc hset
      exact ⟨unordered_command hc hset, hruled, hap.2 hx⟩
    · cases k <;> first | decide | exact absurd rfl hr
    · cases k <;> first | decide | exact absurd rfl hr
  | test k =>
    have hleaf inner : KeywordForm inner k = Leaf [] (TestClause k) := by
      cases k <;> first | rfl | exact absurd rfl hr
    refine imp ?_ (scriptPhrase_test hleaf ?_ ?_ hlast h)
    · rintro c ⟨t, hc, -, ht⟩
      obtain ⟨hruled, hap⟩ := Test.clause_apart hc
      exact ⟨unordered_test hc, hruled, hap.2 ht⟩
    · cases k <;> decide
    · cases k <;> decide

theorem no_clash {k : Tagged} {gs : List TagGroup} {ss settings : List Setting}
    (hg : ∀ g ∈ gs, g.Accepted k.rules) (hd : List.Forall₂ TagGroup.Denotes gs ss)
    (hsub : ss.Subperm settings) (ha : settings.Pairwise (Setting.Apart k.rules)) :
    gs.Pairwise fun g h => ¬ Clash g.name h.name := by
  have hss : ss.Pairwise (Setting.Apart k.rules) := by
    obtain ⟨tt, hperm, hsub⟩ := hsub
    exact (hperm.pairwise_iff Setting.Apart.symm).1 (ha.sublist hsub)
  have hnames : gs.map TagGroup.name = ss.map Setting.name := by
    refine List.forall₂_eq_eq_eq ▸ ?_
    simpa using hd.imp fun _ _ h => h.1
  have hgs : (gs.map TagGroup.name).Pairwise (NamesApart k.rules) :=
    hnames ▸ pairwise_apart_names.1 hss
  refine (List.pairwise_map.1 hgs).imp_of_mem fun {g h} hgm hhm hne hclash => ?_
  obtain ⟨r, hr, -⟩ := hg g hgm
  obtain ⟨q, hq, -⟩ := hg h hhm
  exact hne r q hr hq (clash_group hclash hr hq)

end Tagged

section Tokens

def Reading.token? : Reading → Option Token
  | .ok l => some l.token
  | .error _ => none

/-- The tokens of a source up to its end, with a gap where it is no token. -/
def tokens? (source : String) : List (Option Token) := (readings source).map Reading.token?

theorem lexemes_of_tokens {rs : List Reading} (h : rs.map Reading.token? = ts.map some) :
    ∃ ls : List Lexeme, rs = ls.map .ok ∧ ls.map (·.token) = ts := by
  induction rs generalizing ts with
  | nil =>
    obtain rfl : ts = [] := by simpa using h.symm
    exact ⟨[], rfl, rfl⟩
  | cons r rs ih =>
    obtain ⟨t, ts, rfl⟩ := List.exists_cons_of_ne_nil (l := ts) (by rintro rfl; simp at h)
    obtain ⟨hr, hrs⟩ := List.cons.inj h
    obtain ⟨ls, rfl, rfl⟩ := ih hrs
    cases r with
    | ok l =>
      cases hr
      exact ⟨l :: ls, rfl, rfl⟩
    | error m => cases hr

theorem lexes_iff_tokens {source : String} :
    Lexes source ts ↔ tokens? source = (ts ++ [Token.endOfInput]).map some := by
  constructor
  · rintro ⟨ls, hls, hts⟩
    rw [tokens?, hls, ← hts, List.map_map, List.map_map]
    rfl
  · intro h
    obtain ⟨ls, hls, hts⟩ := lexemes_of_tokens h
    exact ⟨ls, hls, hts⟩

end Tokens

namespace Script

variable {k : Tagged} {gs gs' : List TagGroup} {before rest : List (Option Token)}
variable {source source' : String} {o : ParseOptions} {s : Script}

theorem phrase_of_parse (h : parse o source = .ok s) :
    ∃ ts, Lexes source ts ∧ ScriptPhrase o.maxDepth ts s.erase :=
  (parse_iff (o := ⟨false, o.maxDepth⟩) rfl).1 (parse_erase_ok h)

theorem parse_of_phrase {ts : List Token} {t : Script} (hl : Lexes source ts)
    (h : ScriptPhrase o.maxDepth ts t) : ∃ s, parse o source = .ok s ∧ s.erase = t := by
  have ht : parse ⟨false, o.maxDepth⟩ source = .ok t := (parse_iff rfl).2 ⟨ts, hl, h⟩
  obtain ⟨s, hs⟩ := (exists_parse_iff o source).2 ⟨t, ht⟩
  exact ⟨s, hs, Except.ok.inj ((parse_erase_ok hs).symm.trans ht)⟩

theorem parse_groups (hk : k ≠ .command .setVariable) (hg : ∀ g ∈ gs, g.Accepted k.rules)
    (hbefore : k.Follows before)
    (hs : tokens? source
      = before ++ some (.word k.word) :: ((gs.flatMap TagGroup.tokens).map some ++ rest))
    (h : parse o source = .ok s) :
    (gs.Pairwise fun g h => ¬ Clash g.name h.name) ∧ ∀ gs', gs.Perm gs' → ∀ source',
      tokens? source'
        = before ++ some (.word k.word) :: ((gs'.flatMap TagGroup.tokens).map some ++ rest) →
      ∃ s', parse o source' = .ok s' ∧ s'.erase = s.erase := by
  obtain ⟨ts, hl, hp⟩ := phrase_of_parse h
  have htoks := lexes_iff_tokens.1 hl
  by_cases hne : gs = []
  · subst hne
    refine ⟨.nil, fun gs' hperm source' hs' => parse_of_phrase (lexes_iff_tokens.2 ?_) hp⟩
    rw [List.nil_perm.1 hperm, ← hs] at hs'
    rw [hs', htoks]
  · have hrules : k.rules ≠ [] := by
      obtain ⟨g, gs, rfl⟩ := List.exists_cons_of_ne_nil hne
      obtain ⟨⟨r, hr, -⟩, -⟩ := List.forall_mem_cons.1 hg
      rintro hnil
      rw [hnil] at hr
      cases hr
    -- The gaps of the source are none, since it is read.
    rw [htoks] at hs
    obtain ⟨pre, more, hts, rfl, hmore⟩ := List.map_eq_append_iff.1 hs
    obtain ⟨w, more, rfl, hw, hmore⟩ := List.map_eq_cons_iff.1 hmore
    obtain ⟨xs, last, rfl, hxs, rfl⟩ := List.map_eq_append_iff.1 hmore
    cases hw
    obtain rfl := (List.map_inj_right fun _ _ => Option.some.inj).1 hxs
    obtain ⟨mid, rfl, hmid⟩ | ⟨_, -, hcon⟩ := append_eq_append_cons hts
    · obtain ⟨us, ys, c, rfl, hn, hc, hus, hall⟩ := Tagged.exchangeable hk hrules hbefore hp
      have hn' : NoTag (ys ++ [.endOfInput]) := noTag_append hn (by rintro _ ⟨⟩; rfl)
      obtain ⟨zs, ss, rfl, hd, hsub, hgroups⟩ := TagGroup.clause_split hus hc.unordered hc.ruled hg
        hn' (hmid.trans (List.append_assoc _ _ _))
      refine ⟨Tagged.no_clash hg hd hsub hc.apart, fun gs' hperm source' hs' => ?_⟩
      refine parse_of_phrase (lexes_iff_tokens.2 ?_) (hall _ (hgroups gs' hperm))
      rw [hs']
      simp
    · obtain ⟨-, ht, -⟩ | ⟨_, -, hnil⟩ := cons_eq_append_cons hcon
      · cases ht
      · simp at hnil

/-- Groups of tags behind a keyword, in whatever order, give the same script or none; and none if
one tag stands twice or two exclude each other, whatever stands between and around them. -/
theorem parse_tags_perm (hk : k ≠ .command .setVariable) (hg : ∀ g ∈ gs, g.Accepted k.rules)
    (hperm : gs.Perm gs') (hbefore : k.Follows before)
    (hs : tokens? source
      = before ++ some (.word k.word) :: ((gs.flatMap TagGroup.tokens).map some ++ rest))
    (hs' : tokens? source'
      = before ++ some (.word k.word) :: ((gs'.flatMap TagGroup.tokens).map some ++ rest))
    (o : ParseOptions) :
    (((∃ f, parse o source = .error f) ∧ ∃ f, parse o source' = .error f)
        ∨ ∃ s s', parse o source = .ok s ∧ parse o source' = .ok s' ∧ s.erase = s'.erase)
      ∧ ∀ gs₁ g gs₂ h gs₃, gs = gs₁ ++ g :: (gs₂ ++ h :: gs₃) → Clash g.name h.name →
        (∃ f, parse o source = .error f) ∧ ∃ f, parse o source' = .error f := by
  have hg' : ∀ g ∈ gs', g.Accepted k.rules := fun g hm => hg g (hperm.mem_iff.2 hm)
  have hor : ((∃ f, parse o source = .error f) ∧ ∃ f, parse o source' = .error f)
      ∨ ∃ s s', parse o source = .ok s ∧ parse o source' = .ok s' ∧ s.erase = s'.erase := by
    cases h : parse o source with
    | ok s =>
      obtain ⟨s', h', he⟩ := (parse_groups hk hg hbefore hs h).2 gs' hperm source' hs'
      exact .inr ⟨s, s', rfl, h', he.symm⟩
    | error f =>
      cases h' : parse o source' with
      | error f' => exact .inl ⟨⟨f, rfl⟩, f', rfl⟩
      | ok s' =>
        obtain ⟨s, hok, -⟩ := (parse_groups hk hg' hbefore hs' h').2 gs hperm.symm source hs
        cases h.symm.trans hok
  refine ⟨hor, fun gs₁ g gs₂ h gs₃ he hclash => ?_⟩
  obtain hrej | ⟨s, s', hok, -, -⟩ := hor
  · exact hrej
  · have hpair := (parse_groups hk hg hbefore hs hok).1
    rw [he] at hpair
    have hgh := (List.pairwise_cons.1 (List.pairwise_append.1 hpair).2.1).1 h (by simp)
    exact absurd hclash hgh

theorem parse_tags_perm_fileInto :
    let k : Tagged := .command .fileInto
    let copy : TagGroup := ⟨"copy", []⟩
    let flags : TagGroup := ⟨"flags", [.string "a" false]⟩
    let rest := [some (.string "b" false), some (.mark .semicolon), some .endOfInput]
    let source := "fileinto :copy :flags \"a\" \"b\";"
    let source' := "fileinto :flags \"a\" :copy \"b\";"
    (k ≠ .command .setVariable ∧ (∀ g ∈ [copy, flags], g.Accepted k.rules)
      ∧ [copy, flags].Perm [flags, copy] ∧ k.Follows []
      ∧ tokens? source
        = some (.word k.word) :: (([copy, flags].flatMap TagGroup.tokens).map some ++ rest)
      ∧ tokens? source'
        = some (.word k.word) :: (([flags, copy].flatMap TagGroup.tokens).map some ++ rest))
      ∧ (((∃ f, parse .standard source = .error f) ∧ ∃ f, parse .standard source' = .error f)
          ∨ ∃ s s', parse .standard source = .ok s ∧ parse .standard source' = .ok s'
            ∧ s.erase = s'.erase)
      ∧ ∀ gs₁ g gs₂ h gs₃, [copy, flags] = gs₁ ++ g :: (gs₂ ++ h :: gs₃) → Clash g.name h.name →
        (∃ f, parse .standard source = .error f) ∧ ∃ f, parse .standard source' = .error f := by
  intro k copy flags rest source source'
  have hk : k ≠ .command .setVariable := by simp [k]
  have hg : ∀ g ∈ [copy, flags], g.Accepted k.rules := by
    simp only [List.forall_mem_cons]
    exact ⟨⟨_, rfl, rfl⟩, ⟨_, rfl, _, .single (.mk "a" false)⟩, by simp⟩
  have hperm : [copy, flags].Perm [flags, copy] := .swap _ _ _
  have hbefore : k.Follows [] := by
    rintro _ ⟨⟩
    exact .inl rfl
  have hs : tokens? source
      = some (.word k.word) :: (([copy, flags].flatMap TagGroup.tokens).map some ++ rest) := by
    decide +kernel
  have hs' : tokens? source'
      = some (.word k.word) :: (([flags, copy].flatMap TagGroup.tokens).map some ++ rest) := by
    decide +kernel
  exact ⟨⟨hk, hg, hperm, hbefore, hs, hs'⟩,
    parse_tags_perm hk hg hperm hbefore hs hs' .standard⟩

end Script

end MailSieve
