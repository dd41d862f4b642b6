import MailSieve.Settings
import MailSieve.Proofs.Json.Fields

/-! The settings that a text describes.
A text describes settings if it is JSON that gives each of them by its name at most once, and those
that it gives with a value that fits; what it does not give has its default. Loading finds what a
text describes, and the defaults if a text describes nothing. -/

namespace MailSieve.Settings
open Json

section Values

variable {E : Type} {j : Json}

def MeansWord (j : Json) (n : UInt64) : Prop := j = .natural n.toNat

def MeansString (j : Json) (s : String) : Prop := j = .string s

/-- A line break goes by its name, which may also be that of an only member that is null. -/
inductive MeansNewline : Json → Newline → Prop where
  | name {n : Newline} : MeansNewline (.string n.name) n
  | member {n : Newline} : MeansNewline (.object [(n.name, .null)]) n

theorem decodeWord_eq_ok {n : UInt64} : decodeWord (E := E) j = .ok n ↔ MeansWord j n := by
  constructor
  · intro h
    obtain ⟨m, hm, h⟩ := bind_eq_ok.1 h
    cases j with
    | natural k =>
      cases hm
      by_cases hsize : m < UInt64.size
      · cases (if_pos hsize).symm.trans h
        exact congrArg Json.natural (UInt64.toNat_ofNat_of_lt' hsize).symm
      · cases (if_neg hsize).symm.trans h
    | _ => cases hm
  · rintro rfl
    exact ((denotes_word n).decodes n).2 ⟨trivial, rfl⟩

theorem decodeString_eq_ok {s : String} : decodeString (E := E) j = .ok s ↔ MeansString j s := by
  constructor
  · intro h
    cases j with
    | string t =>
      cases h
      rfl
    | _ => cases h
  · rintro rfl
    rfl

theorem lookupVariant_newline {name : String} {n : Newline} :
    lookupVariant (E := E) (Newline.values.map fun n => (n.name, n)) name = .ok n
      ↔ name = n.name := by
  rw [lookupVariant]
  constructor
  · intro h
    split at h
    next m hm =>
      cases h
      obtain ⟨before, behind, hlist, -⟩ := List.lookup_eq_some_iff.1 hm
      have hmem : (name, n) ∈ Newline.values.map fun n => (n.name, n) := by simp [hlist]
      obtain ⟨m, -, hm⟩ := List.mem_map.1 hmem
      cases hm
      rfl
    next => cases h
  · rintro rfl
    cases n <;> rfl

theorem decodeNewline_eq_ok {n : Newline} : decodeNewline j = .ok n ↔ MeansNewline j n := by
  constructor
  · intro h
    unfold decodeNewline decodeName at h
    split at h
    next =>
      obtain rfl := lookupVariant_newline.1 h
      exact .name
    next =>
      split at h
      next => cases h
      next name i hwhole =>
        obtain ⟨m, hm, h⟩ := bind_eq_ok.1 h
        obtain ⟨_, hnull, hn⟩ := bind_eq_ok.1 h
        cases hn
        obtain rfl := lookupVariant_newline.1 hm
        cases i with
        | null => exact .member
        | _ => cases hnull
      next => cases h
    next => cases h
  · intro h
    have hname : lookupVariant (E := TreeFlaw) (Newline.values.map fun n => (n.name, n)) n.name
        = .ok n := lookupVariant_newline.2 rfl
    cases h with
    | name => exact hname
    | member => exact bind_eq_ok.2 ⟨n, hname, rfl⟩

end Values

def names : List String := ["indent_width", "newline", "max_depth", "log_level"]

/-- What the members of an object say of the settings. -/
structure Gives (ms : Members) (s : Settings) : Prop where
  indentWidth : FieldOf MeansWord standard.indentWidth (valuesOf "indent_width" ms) s.indentWidth
  newline : FieldOf MeansNewline standard.newline (valuesOf "newline" ms) s.newline
  maxDepth : FieldOf MeansWord standard.maxDepth (valuesOf "max_depth" ms) s.maxDepth
  logLevel : FieldOf MeansString standard.logLevel (valuesOf "log_level" ms) s.logLevel

/-- The text is JSON, and these are the settings that it gives. -/
def Describes (text : String) (s : Settings) : Prop :=
  ∃ j, TextPhrase interest text j ∧ ∃ ms, Record.Listed names j ms ∧ Gives ms s

theorem record_settles : record.Settles names Gives := by
  have hwidth := (Record.Settles.default "indent_width" standard.indentWidth
    (fun j _ => decodeWord_eq_ok (E := TreeFlaw) (j := j))).map Settings.mk
  have hnewline := hwidth.seq
    (.default "newline" standard.newline fun j _ => decodeNewline_eq_ok (j := j))
  have hdepth := hnewline.seq
    (.default "max_depth" standard.maxDepth fun j _ => decodeWord_eq_ok (E := TreeFlaw) (j := j))
  have hlevel := hdepth.seq
    (.default "log_level" standard.logLevel fun j _ => decodeString_eq_ok (E := TreeFlaw) (j := j))
  refine hlevel.iff fun ms s => ⟨?_, fun h => ?_⟩
  · rintro ⟨_, ⟨_, ⟨_, ⟨w, hw, rfl⟩, n, hn, rfl⟩, d, hd, rfl⟩, l, hl, rfl⟩
    exact ⟨hw, hn, hd, hl⟩
  · exact ⟨_, ⟨_, ⟨_, ⟨_, h.indentWidth, rfl⟩, _, h.newline, rfl⟩, _, h.maxDepth, rfl⟩, _,
      h.logLevel, rfl⟩

theorem record_sound : record.Sound := by
  have hword : Decoder.Sound (decodeWord (E := TreeFlaw)) := by
    rintro j n h
    cases decodeWord_eq_ok.1 h
    rfl
  have hnewline : Decoder.Sound decodeNewline := by
    rintro j n h
    cases decodeNewline_eq_ok.1 h <;> rfl
  exact (((Record.Sound.default hword).map.seq (.default hnewline)).seq (.default hword)).seq
    (.default decodeString_sound)

section Texts

variable {text : String} {file : Option String} {s : Settings}

theorem decode_eq_ok : decodeText interest decode text = .ok s ↔ Describes text s :=
  record_settles.decodeText_eq_ok record_sound ⟨standard, rfl⟩ interest text s

/-- What is loaded from a file. -/
inductive Loads : Option String → Settings → Prop where
  | described {text : String} {s : Settings} : Describes text s → Loads (some text) s
  | undescribed {text : String} : (∀ s, ¬ Describes text s) → Loads (some text) standard
  | absent : Loads none standard

theorem loads_load (file : Option String) : Loads file (load file) := by
  match file with
  | none => exact .absent
  | some text =>
    rw [load, ofText]
    split
    next s h => exact .described (decode_eq_ok.1 h)
    next e h =>
      refine .undescribed fun s hs => ?_
      cases h.symm.trans (decode_eq_ok.2 hs)

theorem Describes.load_eq (h : Describes text s) : load (some text) = s := by
  rw [load, ofText, decode_eq_ok.2 h]

theorem describes_text (s : Settings) : Describes s.text s := by
  have hplain : s.encode.Plain :=
    ⟨s.indentWidth.toNat_lt, trivial, s.maxDepth.toNat_lt, trivial, trivial⟩
  have hread : read interest (s.encode.pretty ++ "") = ⟨s.encode, false⟩ :=
    read_pretty hplain ⟨trivial, trivial, trivial, trivial, trivial⟩ nofun
      (Nat.le_of_ble_eq_true rfl)
  rw [String.append_empty] at hread
  have htext : TextPhrase interest s.text (read interest s.text).value :=
    textPhrase_of_read (by rw [text, hread]; exact plain_fault? _ hplain) (by rw [text, hread])
  rw [text, hread] at htext
  exact ⟨_, htext, _, .object, .given rfl, .given .name, .given rfl, .given rfl⟩

theorem load_text (s : Settings) : load (some s.text) = s := (describes_text s).load_eq

end Texts

end MailSieve.Settings
