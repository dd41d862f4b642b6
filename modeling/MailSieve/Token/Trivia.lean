/-! Text between tokens: ASCII whitespace, comments from `#` to the end of the line, and bracketed
comments. `skipTrivia` splits a text after its leading trivia; a bracketed comment that is never
closed is not skipped. -/

namespace MailSieve.Trivia

def isBlank (c : Char) : Bool :=
  c == ' ' || c == '\t' || c == '\n' || c == '\x0c' || c == '\r'

def push (c : Char) (p : List Char × List Char) : List Char × List Char := (c :: p.1, p.2)

mutual

def skipTrivia : List Char → List Char × List Char
  | [] => ([], [])
  | '/' :: '*' :: cs =>
    match skipBlockComment cs with
    | some p => push '/' (push '*' p)
    | none => ([], '/' :: '*' :: cs)
  | c :: cs =>
    if isBlank c then push c (skipTrivia cs)
    else if c = '#' then push c (skipLineComment cs)
    else ([], c :: cs)

def skipLineComment : List Char → List Char × List Char
  | [] => ([], [])
  | c :: cs => if c = '\n' then push c (skipTrivia cs) else push c (skipLineComment cs)

/-- Goes on after the closing bracket; `none` if there is none. -/
def skipBlockComment : List Char → Option (List Char × List Char)
  | [] => none
  | '*' :: '/' :: cs => some (push '*' (push '/' (skipTrivia cs)))
  | c :: cs => (skipBlockComment cs).map (push c)

end

@[simp] theorem push_append (c : Char) (p : List Char × List Char) :
    (push c p).1 ++ (push c p).2 = c :: (p.1 ++ p.2) := rfl

theorem skip_append :
    (∀ cs, (skipTrivia cs).1 ++ (skipTrivia cs).2 = cs)
    ∧ (∀ cs, (skipLineComment cs).1 ++ (skipLineComment cs).2 = cs)
    ∧ (∀ cs p, skipBlockComment cs = some p → p.1 ++ p.2 = cs) := by
  apply skipTrivia.mutual_induct
  case case1 => rfl
  case case2 =>
    intro cs p hp ih
    rw [skipTrivia, hp, push_append, push_append, ih p hp]
  case case3 =>
    intro cs hp _
    rw [skipTrivia, hp]
    rfl
  case case4 =>
    intro c cs hc hb ih
    rw [skipTrivia.eq_3 c cs hc, if_pos hb, push_append, ih]
  case case5 =>
    intro cs hc hb ih
    rw [skipTrivia.eq_3 '#' cs hc, if_neg hb, if_pos rfl, push_append, ih]
  case case6 =>
    intro c cs hc hb hh
    rw [skipTrivia.eq_3 c cs hc, if_neg hb, if_neg hh]
    rfl
  case case7 => rfl
  case case8 =>
    intro cs ih
    rw [skipLineComment, if_pos rfl, push_append, ih]
  case case9 =>
    intro c cs hc ih
    rw [skipLineComment, if_neg hc, push_append, ih]
  case case10 =>
    intro p hp
    simp [skipBlockComment] at hp
  case case11 =>
    intro cs ih p hp
    rw [skipBlockComment] at hp
    obtain rfl := Option.some.inj hp
    rw [push_append, push_append, ih]
  case case12 =>
    intro c cs hc ih p hp
    rw [skipBlockComment.eq_3 c cs hc] at hp
    obtain ⟨q, hq, rfl⟩ := Option.map_eq_some_iff.1 hp
    rw [push_append, ih q hq]

theorem skipTrivia_append (cs : List Char) : (skipTrivia cs).1 ++ (skipTrivia cs).2 = cs :=
  skip_append.1 cs

end MailSieve.Trivia
